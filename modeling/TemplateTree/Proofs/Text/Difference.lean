import TemplateTree.Text.Difference
import TemplateTree.Text.Lines
import Mathlib

/-! What the report of a difference says. It points at the first line at which two lists differ once both
are filled up with the mark for a line that is not there. For the lists themselves it says the same,
unless one of them goes on with a line that reads like the mark where the other one ends. -/
namespace TemplateTree.Difference

open Text

variable {expected actual a b : List Text} {count i p q : Nat}

/-- The length of the longest common prefix. -/
def agreement : List Text → List Text → Nat
  | [], _ => 0
  | _, [] => 0
  | x :: a, y :: b => if x = y then agreement a b + 1 else 0

theorem getElem?_of_lt_agreement (h : i < agreement a b) : a[i]? = b[i]? ∧ i < a.length := by
  fun_induction agreement a b generalizing i with
  | case1 | case2 | case4 => exact absurd h (Nat.not_lt_zero i)
  | case3 x a b ih =>
    cases i with
    | zero => simp
    | succ i => simpa using ih (Nat.lt_of_succ_lt_succ h)

theorem getElem?_agreement (h : a ≠ b) : a[agreement a b]? ≠ b[agreement a b]? := by
  fun_induction agreement a b with
  | case1 b =>
    cases b with
    | nil => exact absurd rfl h
    | cons y b => simp
  | case2 a =>
    cases a with
    | nil => exact absurd rfl h
    | cons x a => simp
  | case3 x a b ih => simpa using ih (fun hab => h (congrArg _ hab))
  | case4 x a y b hxy => simpa using hxy

/-- It is the first place where the lists do not have the same, an end counted as something else than
any line. -/
theorem agreement_eq (hsame : ∀ i < p, a[i]? = b[i]?) (hdiffer : a[p]? ≠ b[p]?) : agreement a b = p := by
  have hne : a ≠ b := by
    rintro rfl
    exact hdiffer rfl
  rcases Nat.lt_trichotomy (agreement a b) p with hlt | heq | hgt
  · exact absurd (hsame _ hlt) (getElem?_agreement hne)
  · exact heq
  · exact absurd (getElem?_of_lt_agreement hgt).1 hdiffer

/-- The lines up to `count`, with the mark for each that is not there. -/
def filled (count : Nat) (lines : List Text) : List Text :=
  lines ++ List.replicate (count - lines.length) missing

theorem getElem?_filled (lines : List Text) (hi : i < count) :
    (filled count lines)[i]? = some (lineAt lines i) := by
  rw [filled, lineAt]
  by_cases h : i < lines.length
  · rw [List.getElem?_append_left h, List.getElem?_eq_getElem h]
    rfl
  · have hlt : i - lines.length < count - lines.length := by omega
    rw [List.getElem?_append_right (Nat.le_of_not_lt h), List.getElem?_replicate, if_pos hlt,
      List.getElem?_eq_none (Nat.le_of_not_lt h)]
    rfl

theorem length_filled {lines : List Text} (h : lines.length ≤ count) :
    (filled count lines).length = count := by
  rw [filled, List.length_append, List.length_replicate]
  omega

/-- Both lists, filled up to the length of the longer one. -/
theorem filled_eq_iff (hexpected : expected.length ≤ count) (hactual : actual.length ≤ count) :
    filled count expected = filled count actual ↔ ∀ i < count, lineAt expected i = lineAt actual i := by
  constructor
  · intro h i hi
    have hsome := congrArg (·[i]?) h
    simpa [getElem?_filled _ hi] using hsome
  · intro h
    refine List.ext_getElem? fun i => ?_
    by_cases hi : i < count
    · rw [getElem?_filled _ hi, getElem?_filled _ hi, h i hi]
    · rw [List.getElem?_eq_none (by rw [length_filled hexpected]; omega),
        List.getElem?_eq_none (by rw [length_filled hactual]; omega)]

theorem firstBelow?_eq (hexpected : expected.length ≤ count) (hactual : actual.length ≤ count) :
    firstBelow? expected actual count =
      if filled count expected = filled count actual then none
      else some (agreement (filled count expected) (filled count actual)) := by
  split
  · next h =>
    rw [filled_eq_iff hexpected hactual] at h
    simpa [firstBelow?, List.find?_range_eq_none] using h
  · next h =>
    generalize hq : agreement (filled count expected) (filled count actual) = q
    have hdiffer := getElem?_agreement h
    rw [hq] at hdiffer
    have hlt : q < count := by
      by_contra hle
      apply hdiffer
      rw [List.getElem?_eq_none (by rw [length_filled hexpected]; omega),
        List.getElem?_eq_none (by rw [length_filled hactual]; omega)]
    have hbefore : ∀ j < q, lineAt expected j = lineAt actual j := by
      intro j hj
      have hsame := (getElem?_of_lt_agreement (hj.trans_eq hq.symm)).1
      rw [getElem?_filled _ (by omega), getElem?_filled _ (by omega)] at hsame
      exact Option.some.inj hsame
    rw [getElem?_filled _ hlt, getElem?_filled _ hlt, Ne, Option.some.injEq] at hdiffer
    rw [firstBelow?, List.find?_range_eq_some]
    exact ⟨by simpa using hdiffer, List.mem_range.mpr hlt, by simpa using hbefore⟩

/-- What the report shows of one place: the number of the line, whether it is marked, and both lines. -/
structure Row where
  number : Nat
  marked : Bool
  expected : Text
  actual : Text

def Row.text (r : Row) : Text :=
  let marker := if r.marked then '>' else ' '
  (marker :: ' ' :: column r.number ++ "  expected: ".toList ++ r.expected ++ ['\n']) ++
    (marker :: ' ' :: column r.number ++ "    actual: ".toList ++ r.actual ++ ['\n'])

/-- The line above the rows. -/
def heading (number first last : Nat) : Text :=
  "first mismatch at line ".toList ++ ofNat number ++ " (showing ".toList ++ ofNat first ++
    "..=".toList ++ ofNat last ++ "):".toList

/-- The line below the rows. -/
def counts (expected actual : List Text) : Text :=
  "expected ".toList ++ ofNat expected.length ++ " lines, actual ".toList ++ ofNat actual.length ++
    " lines\n".toList

/-- The report names the line behind the first `p` lines, shows it with up to two lines on both sides
of it, and marks no other line. -/
structure PointsBehind (p : Nat) (expected actual : List Text) : Prop where
  firstLine : (splitLines (report expected actual)).head? = some (heading (p + 1) (max 1 (p - 1))
    (min (p + 3) (max expected.length actual.length)))
  window : ∃ rows : List Row,
    report expected actual = heading (p + 1) (max 1 (p - 1))
      (min (p + 3) (max expected.length actual.length)) ++
        '\n' :: (rows.flatMap Row.text ++ counts expected actual) ∧
    rows.map Row.number = List.range' (max 1 (p - 1))
      (min (p + 3) (max expected.length actual.length) + 1 - max 1 (p - 1)) ∧
    (rows.filter Row.marked).map Row.number = [p + 1] ∧
    ∀ r ∈ rows, r.expected = lineAt expected (r.number - 1) ∧ r.actual = lineAt actual (r.number - 1)

/-- What the report says when it finds nothing. -/
def nothing : Text := "no line differs".toList

/-- The first line is the text before the first line end. -/
theorem head?_splitLines {t : Text} (ht : '\n' ∉ t) (r : Text) :
    (splitLines (t ++ '\n' :: r)).head? = some t := by
  induction t with
  | nil => simp [splitLines]
  | cons c t ih =>
    rw [List.mem_cons, not_or] at ht
    have hrest := ih ht.2
    rw [List.cons_append, splitLines, if_neg (Ne.symm ht.1)]
    cases hlines : splitLines (t ++ '\n' :: r) with
    | nil => simp [hlines] at hrest
    | cons line lines => simpa [hlines] using hrest

theorem isDigit_of_mem_ofNat {n : Nat} {c : Char} (h : c ∈ ofNat n) : c.isDigit = true := by
  rw [ofNat, Nat.toList_repr] at h
  exact Nat.isDigit_of_mem_toDigits (by decide) (by decide) h

theorem lineEnd_not_mem_heading (n first last : Nat) : '\n' ∉ heading n first last := by
  have hdigits (m : Nat) : '\n' ∉ ofNat m := fun h => absurd (isDigit_of_mem_ofNat h) (by decide)
  have hwords : '\n' ∉ "first mismatch at line ".toList ∧ '\n' ∉ " (showing ".toList ∧
    '\n' ∉ "..=".toList ∧ '\n' ∉ "):".toList := by decide
  unfold heading
  simp only [List.mem_append, hdigits, hwords, or_self, not_false_eq_true]

/-- Two headings are the same only where they name the same line. -/
theorem heading_inj {n m first last first' last' : Nat}
    (h : heading n first last = heading m first' last') : n = m := by
  have hnumber (k f l : Nat) :
      ((heading k f l).drop "first mismatch at line ".toList.length).takeWhile Char.isDigit = ofNat k := by
    have hstop : " (showing ".toList = ' ' :: "(showing ".toList := rfl
    have hblank : ¬ Char.isDigit ' ' = true := by decide
    unfold heading
    simp only [List.append_assoc, List.drop_left]
    rw [List.takeWhile_append_of_pos fun c hc => isDigit_of_mem_ofNat hc, hstop, List.cons_append,
      List.takeWhile_cons_of_neg hblank, List.append_nil]
  have hdigits : ofNat n = ofNat m := by rw [← hnumber n first last, h, hnumber]
  exact Nat.repr_injective (String.toList_injective hdigits)

theorem pair_eq (expected actual : List Text) (mark i : Nat) : pair expected actual mark i =
    Row.text ⟨i + 1, decide (i = mark), lineAt expected i, lineAt actual i⟩ := by
  simp only [pair, Row.text, decide_eq_true_eq]

theorem report_of_none
    (h : firstBelow? expected actual (max expected.length actual.length) = none) :
    report expected actual = nothing ++ '\n' :: counts expected actual := by
  have hline : "no line differs\n".toList = nothing ++ ['\n'] := rfl
  unfold report counts
  simp only [h, hline, List.append_assoc, List.cons_append, List.nil_append]

/-- The numbers of the lines from one behind `i - 2` up to `last`. -/
theorem window_numbers (i last : Nat) : ((List.range last).drop (i - 2)).map (· + 1) =
    List.range' (max 1 (i - 1)) (last + 1 - max 1 (i - 1)) := by
  have hfirst : max 1 (i - 1) = 1 + (i - 2) := by omega
  have hlength : last + 1 - (1 + (i - 2)) = last - (i - 2) := by omega
  have hswap : (fun n : Nat => n + 1) = fun n => 1 + n := funext fun n => Nat.add_comm n 1
  rw [hfirst, hlength, List.range_eq_range', List.drop_range', hswap, List.map_add_range']
  simp

/-- A place among others, each there once, is found once. -/
theorem filter_place {places : List Nat} (hnodup : places.Nodup) (hp : p ∈ places) :
    places.filter (fun i => decide (i = p)) = [p] := by
  have hbeq : (fun i => decide (i = p)) = (· == p) := funext fun i => rfl
  rw [hbeq, List.filter_beq, List.count_eq_one_of_mem hnodup hp]
  rfl

theorem report_of_some
    (h : firstBelow? expected actual (max expected.length actual.length) = some p) :
    PointsBehind p expected actual := by
  have hlt : p < max expected.length actual.length :=
    List.mem_range.mp (List.find?_range_eq_some.mp h).2.1
  let last := min (p + 3) (max expected.length actual.length)
  let places := (List.range last).drop (p - 2)
  let row (i : Nat) : Row := ⟨i + 1, decide (i = p), lineAt expected i, lineAt actual i⟩
  have hhead : p - 2 + 1 = max 1 (p - 1) := by omega
  have hrows : places.flatMap (pair expected actual p) = (places.map row).flatMap Row.text := by
    rw [List.flatMap_map]
    exact List.flatMap_congr fun i _ => pair_eq expected actual p i
  have htext : report expected actual = heading (p + 1) (max 1 (p - 1)) last ++
      '\n' :: ((places.map row).flatMap Row.text ++ counts expected actual) := by
    have hend : "):\n".toList = "):".toList ++ ['\n'] := rfl
    rw [← hrows, ← hhead]
    unfold report heading counts
    simp only [h, hend, List.append_assoc, List.cons_append, List.nil_append, places, last]
  have hnumbers : (places.map row).map Row.number = places.map (· + 1) := List.map_map
  refine ⟨?_, places.map row, htext, ?_, ?_, ?_⟩
  · rw [htext, head?_splitLines (lineEnd_not_mem_heading _ _ _)]
  · rw [hnumbers, window_numbers]
  · have hnodup : places.Nodup := List.nodup_range.sublist (List.drop_sublist _ _)
    have hp : p ∈ places := by
      simp only [places, List.range_eq_range', List.drop_range', List.mem_range'_1]
      omega
    have hmarked : (places.map row).filter Row.marked = (places.filter (fun i => decide (i = p))).map row :=
      List.filter_map
    rw [hmarked, filter_place hnodup hp]
    rfl
  · intro r hr
    obtain ⟨i, -, rfl⟩ := List.mem_map.mp hr
    exact ⟨rfl, rfl⟩

theorem head?_nothing (r : Text) : (splitLines (nothing ++ '\n' :: r)).head? = some nothing :=
  head?_splitLines (by decide) r

theorem heading_ne_nothing (n first last : Nat) : heading n first last ≠ nothing := by
  intro h
  have hfirst : (heading n first last).head? = nothing.head? := congrArg List.head? h
  have hletters : (heading n first last).head? = some 'f' ∧ nothing.head? = some 'n' := ⟨rfl, rfl⟩
  rw [hletters.1, hletters.2] at hfirst
  exact absurd hfirst (by decide)

/-- A report points behind one number of lines only. -/
theorem PointsBehind.unique (hp : PointsBehind p expected actual) (hq : PointsBehind q expected actual) :
    p = q := by
  have hsame := hp.firstLine.symm.trans hq.firstLine
  exact Nat.succ.inj (heading_inj (Option.some.inj hsame))

theorem PointsBehind.head?_ne (hp : PointsBehind p expected actual) :
    (splitLines (report expected actual)).head? ≠ some nothing := by
  rw [hp.firstLine, Ne, Option.some.injEq]
  exact heading_ne_nothing _ _ _

/-- What the report says of the lists once they are filled up. -/
theorem report_filled (expected actual : List Text) (hcount : max expected.length actual.length = count) :
    ((splitLines (report expected actual)).head? = some nothing ↔
        filled count expected = filled count actual) ∧
      (filled count expected ≠ filled count actual → PointsBehind
        (agreement (filled count expected) (filled count actual)) expected actual) := by
  subst hcount
  have hfirst := firstBelow?_eq (Nat.le_max_left expected.length actual.length)
    (Nat.le_max_right expected.length actual.length)
  split at hfirst
  · next h =>
    have hreport := report_of_none hfirst
    exact ⟨by simp [h, hreport, head?_nothing], fun hne => absurd h hne⟩
  · next h =>
    have hpoints := report_of_some hfirst
    exact ⟨iff_of_false hpoints.head?_ne h, fun _ => hpoints⟩

/-- Where two lists differ because one of them has ended, the other one goes on. -/
theorem goes_on {x : Text} (hsame : ∀ i < p, a[i]? = b[i]?) (hx : a[p]? = some x) (hend : b[p]? = none) :
    ∃ rest, a = b ++ x :: rest := by
  obtain ⟨hlt, hget⟩ := List.getElem?_eq_some_iff.mp hx
  have hshort : b.length ≤ p := List.getElem?_eq_none_iff.mp hend
  have hfront : a.take p = b := by
    refine List.ext_getElem? fun i => ?_
    by_cases hi : i < p
    · rw [List.getElem?_take_of_lt hi, hsame i hi]
    · rw [List.getElem?_eq_none (by rw [List.length_take]; omega), List.getElem?_eq_none (by omega)]
  refine ⟨a.drop (p + 1), ?_⟩
  rw [← hget, ← List.drop_eq_getElem_cons hlt, ← hfront, List.take_append_drop]

/-- One list goes on with a line that reads like the mark where the other one ends. -/
def Masked (expected actual : List Text) : Prop :=
  ∃ rest, expected = actual ++ missing :: rest ∨ actual = expected ++ missing :: rest

theorem agreement_append (x : Text) (rest : List Text) :
    agreement (a ++ x :: rest) a = a.length ∧ agreement a (a ++ x :: rest) = a.length := by
  have hsame : ∀ i < a.length, (a ++ x :: rest)[i]? = a[i]? := fun i hi => List.getElem?_append_left hi
  have hdiffer : (a ++ x :: rest)[a.length]? ≠ a[a.length]? := by simp
  exact ⟨agreement_eq hsame hdiffer, agreement_eq (fun i hi => (hsame i hi).symm) hdiffer.symm⟩

/-- Behind the longest common prefix the lines read alike only where one is the mark itself. -/
theorem masked_iff (h : expected ≠ actual) : Masked expected actual ↔
    lineAt expected (agreement expected actual) = lineAt actual (agreement expected actual) := by
  constructor
  · rintro ⟨rest, rfl | rfl⟩
    · rw [(agreement_append missing rest).1]
      simp [lineAt]
    · rw [(agreement_append missing rest).2]
      simp [lineAt]
  · intro hline
    have hsame : ∀ i < agreement expected actual, expected[i]? = actual[i]? := fun i hi =>
      (getElem?_of_lt_agreement hi).1
    have hdiffer := getElem?_agreement h
    generalize agreement expected actual = p at hline hsame hdiffer
    rw [lineAt, lineAt] at hline
    cases hx : expected[p]? with
    | some x =>
      cases hy : actual[p]? with
      | some y =>
        rw [hx, hy] at hline hdiffer
        exact absurd (congrArg some hline) hdiffer
      | none =>
        obtain ⟨rest, hrest⟩ := goes_on hsame hx hy
        rw [hx, hy] at hline
        obtain rfl : x = missing := hline
        exact ⟨rest, Or.inl hrest⟩
    | none =>
      cases hy : actual[p]? with
      | some y =>
        obtain ⟨rest, hrest⟩ := goes_on (fun i hi => (hsame i hi).symm) hy hx
        rw [hx, hy] at hline
        obtain rfl : missing = y := hline
        exact ⟨rest, Or.inr hrest⟩
      | none => exact absurd (hx.trans hy.symm) hdiffer

theorem agreement_lt (h : expected ≠ actual) :
    agreement expected actual < max expected.length actual.length := by
  by_contra hle
  apply getElem?_agreement h
  rw [List.getElem?_eq_none (by omega), List.getElem?_eq_none (by omega)]

/-- A line that differs behind the longest common prefix still differs when the lists are filled up, and
nothing before it does. -/
theorem agreement_filled (hlt : agreement expected actual < count)
    (hline : lineAt expected (agreement expected actual) ≠ lineAt actual (agreement expected actual)) :
    filled count expected ≠ filled count actual ∧
      agreement (filled count expected) (filled count actual) = agreement expected actual := by
  have hdiffer : (filled count expected)[agreement expected actual]? ≠
      (filled count actual)[agreement expected actual]? := by
    rw [getElem?_filled _ hlt, getElem?_filled _ hlt, Ne, Option.some.injEq]
    exact hline
  have hsame : ∀ i < agreement expected actual,
      (filled count expected)[i]? = (filled count actual)[i]? := by
    intro i hi
    rw [getElem?_filled _ (hi.trans hlt), getElem?_filled _ (hi.trans hlt), lineAt, lineAt,
      (getElem?_of_lt_agreement hi).1]
  exact ⟨fun heq => hdiffer (by rw [heq]), agreement_eq hsame hdiffer⟩

/-- The report is right about the lists: it finds nothing in equal lists only, and otherwise points
behind their longest common prefix. -/
def Faithful (expected actual : List Text) : Prop :=
  ((splitLines (report expected actual)).head? = some nothing ↔ expected = actual) ∧
    (expected ≠ actual → PointsBehind (agreement expected actual) expected actual)

theorem faithful_iff (expected actual : List Text) :
    Faithful expected actual ↔ ¬ Masked expected actual := by
  obtain ⟨hnothing, hpoints⟩ := report_filled expected actual rfl
  by_cases h : expected = actual
  · subst h
    have hfaithful : Faithful expected expected :=
      ⟨iff_of_true (hnothing.mpr rfl) rfl, fun hne => absurd rfl hne⟩
    have hplain : ¬ Masked expected expected := by
      rintro ⟨rest, hrest | hrest⟩ <;> simp at hrest
    exact iff_of_true hfaithful hplain
  · have hlt := agreement_lt h
    rw [masked_iff h]
    constructor
    · intro hfaithful hline
      have hbehind := hfaithful.2 h
      have hfilled := fun heq => hbehind.head?_ne (hnothing.mpr heq)
      -- what the report marks is a line at which the filled lists differ
      have hdiffer := getElem?_agreement hfilled
      rw [← hbehind.unique (hpoints hfilled), getElem?_filled _ hlt, getElem?_filled _ hlt,
        hline] at hdiffer
      exact hdiffer rfl
    · intro hline
      obtain ⟨hfilled, hagree⟩ := agreement_filled hlt hline
      have hbehind := hpoints hfilled
      rw [hagree] at hbehind
      exact ⟨iff_of_false hbehind.head?_ne h, fun _ => hbehind⟩

/-- The report is always right about the lists filled up to the same length. It is right about the lists
themselves unless one of them goes on with a line that reads like the mark where the other one ends. -/
theorem report_tells (expected actual : List Text) :
    let count := max expected.length actual.length
    ((splitLines (report expected actual)).head? = some nothing ↔
        filled count expected = filled count actual) ∧
      (filled count expected ≠ filled count actual → PointsBehind
        (agreement (filled count expected) (filled count actual)) expected actual) ∧
      (Faithful expected actual ↔ ¬ Masked expected actual) := by
  intro count
  obtain ⟨hnothing, hpoints⟩ := report_filled expected actual rfl
  exact ⟨hnothing, hpoints, faithful_iff expected actual⟩

/-- A line that reads like the mark is not told from no line. -/
theorem not_faithful_mark : ¬ Faithful [missing] [] := by
  intro h
  have hnothing : (splitLines (report [missing] [])).head? = some nothing := by decide
  exact absurd (h.1.mp hnothing) (List.cons_ne_nil _ _)

example : (splitLines (report (["a", "b"].map String.toList) (["a"].map String.toList)))[3]? =
    some ">    2  expected: b".toList := by decide +kernel

end TemplateTree.Difference
