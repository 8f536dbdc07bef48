import TemplateTree.Proofs.Token.Cover
import TemplateTree.Proofs.Token.Hidden

/-! The bodies of scripts and styles. Such a body runs to the first place behind the start tag where its
end tag is written out whole, and to the end of the input when there is none; an end tag that is only
begun, or that has something else than blanks before its `>`, is part of the body. -/
namespace TemplateTree

open Text

namespace Text

variable {here : Text → Bool} {t : Text} {n : Nat}

/-- The cut falls at the first place where the test holds, or at the end. -/
theorem upTo_of_first (hno : ∀ k, k < n → here (t.drop k) = false)
    (hat : t.drop n = [] ∨ here (t.drop n) = true) : upTo here t = t.take n := by
  induction n generalizing t with
  | zero => exact (cut_here hat).1
  | succ n ih =>
    cases t with
    | nil => rfl
    | cons c t =>
      have hc : here (c :: t) = false := hno 0 (by omega)
      have hrest : upTo here t = t.take n := by
        refine ih (fun k hk => ?_) hat
        exact hno (k + 1) (by omega)
      simp [upTo, hc, hrest]

/-- The test fails everywhere before the cut. -/
theorem fails_before_cut (hn : n < (upTo here t).length) : here (t.drop n) = false := by
  induction t generalizing n with
  | nil => simp [upTo] at hn
  | cons c t ih =>
    by_cases hc : here (c :: t) = true
    · simp [upTo, hc] at hn
    · rw [Bool.not_eq_true] at hc
      cases n with
      | zero => exact hc
      | succ n =>
        have hrest : n < (upTo here t).length := by simpa [upTo, hc] using hn
        exact ih hrest

end Text

/-- The end tag of a body stands in the input from `m` to `stop`: a slash and the name in any case,
perhaps blanks, and the `>`. -/
def ClosesAt (input key : Text) (m stop : Nat) : Prop :=
  ∃ name gap rest, (bytes input).drop m = '<' :: '/' :: (name ++ (gap ++ '>' :: rest)) ∧
    lower name = key ∧ (∀ c ∈ gap, isTagBlank c = true) ∧ stop = m + (name.length + gap.length + 3)

/-- It is the first one from `e` on. -/
def ClosesFirst (input key : Text) (e m stop : Nat) : Prop :=
  e ≤ m ∧ ClosesAt input key m stop ∧ ∀ k last, e ≤ k → k < m → ¬ ClosesAt input key k last

section

variable {input key : Text} {e i m stop : Nat}

theorem closesBody_drop_iff : StartTag.closesBody key ((bytes input).drop m) = true ↔
    ∃ stop, ClosesAt input key m stop := by
  rw [StartTag.closesBody_iff]
  constructor
  · rintro ⟨name, gap, rest, h, hname, hgap⟩
    exact ⟨_, name, gap, rest, h, hname, hgap, rfl⟩
  · rintro ⟨_, name, gap, rest, h, hname, hgap, -⟩
    exact ⟨name, gap, rest, h, hname, hgap⟩

theorem not_closesBody_drop (h : ∀ stop, ¬ ClosesAt input key m stop) :
    StartTag.closesBody key ((bytes input).drop m) = false := by
  refine Bool.eq_false_iff.mpr fun hcloses => ?_
  obtain ⟨stop, hstop⟩ := closesBody_drop_iff.mp hcloses
  exact h stop hstop

/-- There has to be room for the whole tag. -/
theorem ClosesAt.room (h : ClosesAt input key m stop) : m + (2 + key.length) < byteSize input := by
  obtain ⟨name, gap, rest, hdrop, rfl, -⟩ := h
  have hlength := congrArg List.length hdrop
  have hname : (lower name).length = name.length := List.length_map ..
  simp only [List.length_drop, length_bytes, List.length_cons, List.length_append] at hlength
  omega

theorem ClosesAt.stop_eq (h : ClosesAt input key m stop) :
    stop = ByteScan.skip input isTagBlank (m + (2 + key.length)) + 1 := by
  obtain ⟨name, gap, rest, hdrop, rfl, hgap, rfl⟩ := h
  have hname : (lower name).length = name.length := List.length_map ..
  have hbehind : (bytes input).drop (m + (2 + name.length)) = gap ++ '>' :: rest := by
    rw [← List.drop_drop, hdrop, Nat.add_comm 2]
    simp
  have hgt : ('>' :: rest).takeWhile isTagBlank = [] := by simp [isTagBlank]
  rw [hname, ByteScan.skip, hbehind, (takeWhile_append_stop hgap hgt).1]
  omega

theorem ClosesFirst.unique {m' stop' : Nat} (h : ClosesFirst input key e m stop)
    (h' : ClosesFirst input key e m' stop') : m = m' ∧ stop = stop' := by
  obtain ⟨hle, hat, hfirst⟩ := h
  obtain ⟨hle', hat', hfirst'⟩ := h'
  have hplace : m = m' := by
    by_contra hne
    rcases Nat.lt_or_gt_of_ne hne with hlt | hlt
    · exact hfirst' m stop hle hlt hat
    · exact hfirst m' stop' hle' hlt hat'
  subst hplace
  exact ⟨rfl, hat.stop_eq.trans hat'.stop_eq.symm⟩

namespace ByteScan

/-- The search for the end tag of a body from `i` on. It goes from one `<` to the next and gives up where
there is no room for the tag. -/
def closeTag? (input key : Text) (i : Nat) : Option (Nat × Nat) :=
  if i + (2 + key.length) ≤ byteSize input then
    let mark := seek input (starts ['<']) i
    if mark + (2 + key.length) ≤ byteSize input then
      if StartTag.closesBody key ((bytes input).drop mark) then
        some (mark, skip input isTagBlank (mark + (2 + key.length)) + 1)
      else closeTag? input key (mark + 1)
    else none
  else none
termination_by byteSize input - i
decreasing_by
  have hle : i ≤ seek input (starts ['<']) i := Nat.le_add_right ..
  omega

/-- No end tag is passed over on the way to the next `<`. -/
theorem seek_le_of_closesAt (h : ClosesAt input key m stop) (hle : i ≤ m) :
    seek input (starts ['<']) i ≤ m := by
  by_contra hlt
  have hbefore : m - i < (upTo (starts ['<']) ((bytes input).drop i)).length := by
    rw [seek] at hlt
    omega
  have hplace : i + (m - i) = m := by omega
  have hfails := fails_before_cut hbefore
  rw [List.drop_drop, hplace] at hfails
  obtain ⟨name, gap, rest, hdrop, -⟩ := h
  rw [hdrop] at hfails
  cases hfails

/-- The search finds the first end tag, or there is none. -/
theorem closeTag?_spec (input key : Text) (i : Nat) :
    (∀ m stop, closeTag? input key i = some (m, stop) → ClosesFirst input key i m stop) ∧
      (closeTag? input key i = none → ∀ m stop, i ≤ m → ¬ ClosesAt input key m stop) := by
  fun_induction closeTag? input key i with
  | case1 i hroom mark hmark hcloses =>
    refine ⟨fun m stop hsome => ?_, fun hnone => by cases hnone⟩
    obtain ⟨rfl, rfl⟩ := Prod.mk.inj (Option.some.inj hsome)
    obtain ⟨stop, hat⟩ := closesBody_drop_iff.mp hcloses
    rw [← hat.stop_eq]
    refine ⟨Nat.le_add_right .., hat, fun k last hle hlt hk => ?_⟩
    have hpassed := seek_le_of_closesAt hk hle
    omega
  | case2 i hroom mark hmark hcloses ih =>
    obtain ⟨hsome, hnone⟩ := ih
    have hle : i ≤ mark := Nat.le_add_right ..
    -- the `<` that was tried is not the place, nor is any place before it
    have hpast : ∀ m stop, i ≤ m → ClosesAt input key m stop → mark + 1 ≤ m := by
      intro m stop him hat
      have hpassed := seek_le_of_closesAt hat him
      have hne : mark ≠ m := by
        rintro rfl
        exact hcloses (closesBody_drop_iff.mpr ⟨stop, hat⟩)
      omega
    constructor
    · intro m stop hfound
      obtain ⟨hplace, hat, hfirst⟩ := hsome m stop hfound
      refine ⟨by omega, hat, fun k last hik hkm hk => ?_⟩
      exact hfirst k last (hpast k last hik hk) hkm hk
    · intro hfound m stop him hat
      exact hnone hfound m stop (hpast m stop him hat) hat
  | case3 i hroom mark hmark =>
    refine ⟨fun m stop hsome => (by cases hsome), fun _ m stop hle hat => ?_⟩
    have hpassed := seek_le_of_closesAt hat hle
    have hlast := hat.room
    omega
  | case4 i hroom =>
    refine ⟨fun m stop hsome => (by cases hsome), fun _ m stop hle hat => ?_⟩
    have hlast := hat.room
    omega

theorem closeTag?_eq_some (h : ClosesFirst input key e m stop) :
    closeTag? input key e = some (m, stop) := by
  obtain ⟨hsome, hnone⟩ := closeTag?_spec input key e
  cases hfound : closeTag? input key e with
  | none => exact absurd h.2.1 (hnone hfound m stop h.1)
  | some found =>
    obtain ⟨rfl, rfl⟩ := (hsome found.1 found.2 hfound).unique h
    rfl

theorem closeTag?_eq_none (h : ∀ m stop, e ≤ m → ¬ ClosesAt input key m stop) :
    closeTag? input key e = none := by
  cases hfound : closeTag? input key e with
  | none => rfl
  | some found =>
    obtain ⟨hle, hat, -⟩ := (closeTag?_spec input key e).1 found.1 found.2 hfound
    exact absurd hat (h found.1 found.2 hle)

/-- A search ends at the first place where the test holds, or at the end. -/
theorem seek_eq_of_first {here : Text → Bool} (hle : e ≤ m) (hm : m ≤ byteSize input)
    (hno : ∀ k, e ≤ k → k < m → here ((bytes input).drop k) = false)
    (hat : m = byteSize input ∨ here ((bytes input).drop m) = true) : seek input here e = m := by
  have hplace : e + (m - e) = m := by omega
  have hup : upTo here ((bytes input).drop e) = ((bytes input).drop e).take (m - e) := by
    refine upTo_of_first (fun k hk => ?_) ?_
    · rw [List.drop_drop]
      exact hno (e + k) (by omega) (by omega)
    · rw [List.drop_drop, hplace, List.drop_eq_nil_iff, length_bytes]
      exact hat.imp_left fun h => by omega
  rw [seek, hup, List.length_take, List.length_drop, length_bytes]
  omega

theorem seek_first (h : ClosesFirst input key e m stop) :
    seek input (StartTag.closesBody key) e = m := by
  obtain ⟨hle, hat, hfirst⟩ := h
  have hlt := hat.room
  refine seek_eq_of_first hle (by omega) (fun k hk hkm => ?_) (Or.inr ?_)
  · exact not_closesBody_drop fun last => hfirst k last hk hkm
  · exact closesBody_drop_iff.mpr ⟨stop, hat⟩

theorem seek_none (he : e ≤ byteSize input) (h : ∀ m stop, e ≤ m → ¬ ClosesAt input key m stop) :
    seek input (StartTag.closesBody key) e = byteSize input := by
  refine seek_eq_of_first he (by omega) (fun k hk _ => ?_) (Or.inl rfl)
  exact not_closesBody_drop fun last => h k last hk

end ByteScan

end

namespace Token

variable {input key x y : Text} {decode isVoid : Bool} {ts us : List Token} {t : StartTag}
  {e p q m stop : Nat} {pre post : List Placed} {span name : Span}
  {attributes : List (Text × Option Text)}

/-- A body begins where the token before it ends, and the tokens behind it where the body ends. -/
theorem tiledFrom_ofBody (decode : Bool) (h : TiledFrom e (ofBody p x ++ us)) :
    (ofBody p x).map (Token.placed decode) = between e (e + byteSize x) ∧
      TiledFrom (e + byteSize x) us := by
  rw [ByteScan.map_placed_ofBody]
  by_cases hx : x = []
  · subst hx
    exact ⟨by simp [between, byteSize], h⟩
  · rw [ofBody, if_neg hx] at h
    obtain ⟨hp, hus⟩ := h
    have hstart : p = e := hp
    exact ⟨by rw [hstart], hus⟩

/-- What stands behind the start tag of a script or a style, by places: the body up to the place of the
end tag, and what is read from there. -/
theorem behind_tag (decode : Bool) (h : scan input = ts ++ start t :: us) (ht : t.isOpaque = true) :
    let e := t.offset + byteSize t.source
    let close := ByteScan.seek input (StartTag.closesBody t.key) e
    let after := onward (StartTag.closesBody t.key) (sources us)
    ∃ q, us.map (Token.placed decode) = between e close ++ (scanFrom q after).map (Token.placed decode) ∧
      ByteScan.At input e (sources us) ∧ ByteScan.At input close after ∧
      TiledFrom close (scanFrom q after) := by
  intro e close after
  obtain ⟨p, q, hus⟩ := scanFrom_behind h
  simp only [body, afterBody, ht, if_true] at hus
  obtain ⟨hinput, hoffset⟩ := scan_split h
  have hoffset : t.offset = byteSize (sources ts) := hoffset
  have hat : ByteScan.At input e (sources us) :=
    ByteScan.At.append (a := t.source) ⟨sources ts, hinput, hoffset.symm⟩
  obtain ⟨hclose, hafter⟩ := hat.seek_eq
    (asciiTest_closesBody (ByteScan.opaque_ascii (StartTag.key_mem_opaqueNames ht)))
  have htiled := tiledFrom_scanFrom 0 input
  rw [← scan, h] at htiled
  have hbehind := htiled.behind
  rw [Nat.zero_add, ← hoffset] at hbehind
  have hrest : TiledFrom e us := hbehind.2
  rw [hus] at hrest
  obtain ⟨hbody, hlast⟩ := tiledFrom_ofBody decode hrest
  rw [← hclose] at hbody hlast
  refine ⟨q, ?_, hat, hafter, hlast⟩
  rw [← hbody, ← List.map_append, ← hus]

/-- The end tag that stands at the head of the text is read as one, by places. -/
theorem stop_closing (hkey : key ∈ opaqueNames) (h : ClosesAt input key m stop)
    (hat : ByteScan.At input m y) (htiled : TiledFrom m (scanFrom q y)) :
    ∃ later, (scanFrom q y).map (Token.placed decode) = .stop key ⟨m, stop⟩ :: later := by
  obtain ⟨name, gap, rest, hdrop, rfl, hgap, rfl⟩ := h
  have hname : ∀ c ∈ name, IsAscii c := fun c hc =>
    isAscii_of_toLower (ByteScan.opaque_ascii hkey _ (List.mem_map_of_mem hc))
  have hsource : ∀ c ∈ EndTag.source ⟨q, name, gap ++ ['>']⟩, IsAscii c := by
    intro c hc
    simp only [EndTag.source, List.cons_append, List.mem_cons, List.mem_append, List.not_mem_nil,
      or_false] at hc
    rcases hc with rfl | rfl | hc | hc | rfl
    · decide
    · decide
    · exact hname c hc
    · exact isAscii_of_isTagBlank c (hgap c hc)
    · decide
  have hbytes : bytes y = EndTag.source ⟨q, name, gap ++ ['>']⟩ ++ rest := by
    rw [← hat.drop, hdrop]
    simp [EndTag.source]
  -- the tag is ASCII, so it stands in the text as it stands in the bytes
  obtain ⟨z, hz, -⟩ := bytes_front hsource hbytes
  have hy : y = '<' :: '/' :: (name ++ (gap ++ '>' :: z)) := by
    rw [hz]
    simp [EndTag.source]
  rw [hy, StartTag.scanFrom_closing hkey hgap] at htiled ⊢
  have hplace : q = m := htiled.1
  have hsize : byteSize (EndTag.source ⟨q, name, gap ++ ['>']⟩) = name.length + gap.length + 3 := by
    rw [ByteScan.byteSize_of_ascii hsource]
    simp [EndTag.source]
    omega
  refine ⟨(scanFrom (q + byteSize (EndTag.source ⟨q, name, gap ++ ['>']⟩)) z).map
    (Token.placed decode), ?_⟩
  rw [List.map_cons, Token.placed, hsize, hplace]
  rfl

/-- Behind the start tag of a script or a style that ends, the next tokens are its body, unless that is
empty, and the first end tag in any case with nothing but blanks before its `>`; the search from one `<`
to the next finds that tag. When there is none, the body is the rest of the input. -/
theorem opaque_body
    (h : layout decode input = pre ++ .start key span name attributes .closed isVoid :: post)
    (hkey : key = "script".toList ∨ key = "style".toList) :
    (∀ m stop, ClosesFirst input key span.stop m stop →
      ByteScan.closeTag? input key span.stop = some (m, stop) ∧
        ∃ later, post = between span.stop m ++ .stop key ⟨m, stop⟩ :: later) ∧
    ((∀ m stop, span.stop ≤ m → ¬ ClosesAt input key m stop) →
      ByteScan.closeTag? input key span.stop = none ∧ post = between span.stop (byteSize input)) := by
  obtain ⟨ts, rest, hscan, -, hrest⟩ := List.map_eq_append_iff.mp h
  obtain ⟨tok, us, rfl, htok, rfl⟩ := List.map_eq_cons_iff.mp hrest
  cases tok with
  | raw | stop => cases htok
  | start t =>
    simp only [placed, Placed.start.injEq] at htok
    obtain ⟨rfl, rfl, -, -, hending, -⟩ := htok
    have hopaque : t.key ∈ opaqueNames := by
      rcases hkey with hkey | hkey
      · rw [hkey]; decide
      · rw [hkey]; decide
    have ht : t.isOpaque = true := by simp [StartTag.isOpaque, hending, hopaque]
    obtain ⟨q, hbehind, hat, hafter, htiled⟩ := behind_tag decode hscan ht
    rw [hbehind]
    constructor
    · intro m stop hfirst
      refine ⟨ByteScan.closeTag?_eq_some hfirst, ?_⟩
      rw [ByteScan.seek_first hfirst] at hafter htiled ⊢
      obtain ⟨later, hlater⟩ := stop_closing hopaque hfirst.2.1 hafter htiled
      exact ⟨later, by rw [hlater]⟩
    · intro hnone
      refine ⟨ByteScan.closeTag?_eq_none hnone, ?_⟩
      have hend : t.offset + byteSize t.source ≤ byteSize input := by
        have hsize := hat.size
        omega
      rw [ByteScan.seek_none hend hnone] at hafter ⊢
      have hsize := hafter.size
      have hnil : onward (StartTag.closesBody t.key) (sources us) = [] := by
        by_contra hne
        have hpos := ByteScan.byteSize_pos hne
        omega
      rw [hnil, scanFrom, if_pos rfl, List.map_nil, List.append_nil]

/-- Neither an end tag that is cut off nor one of another name ends the body. -/
theorem opaque_body_near_miss :
    layout true "<SCRIPT>a</script</scripty></ScRiPt >b".toList =
      [] ++ .start "script".toList ⟨0, 8⟩ ⟨1, 7⟩ [] .closed false ::
        [.raw ⟨8, 27⟩, .stop "script".toList ⟨27, 37⟩, .raw ⟨37, 38⟩] ∧
    ClosesFirst "<SCRIPT>a</script</scripty></ScRiPt >b".toList "script".toList 8 27 37 ∧
    ∃ later, [Placed.raw ⟨8, 27⟩, .stop "script".toList ⟨27, 37⟩, .raw ⟨37, 38⟩] =
      between 8 27 ++ .stop "script".toList ⟨27, 37⟩ :: later := by
  have hlayout : layout true "<SCRIPT>a</script</scripty></ScRiPt >b".toList =
      [] ++ .start "script".toList ⟨0, 8⟩ ⟨1, 7⟩ [] .closed false ::
        [.raw ⟨8, 27⟩, .stop "script".toList ⟨27, 37⟩, .raw ⟨37, 38⟩] := by
    decide +kernel
  have hfirst : ClosesFirst "<SCRIPT>a</script</scripty></ScRiPt >b".toList "script".toList 8 27 37 :=
    (ByteScan.closeTag?_spec _ _ 8).1 27 37 (by decide +kernel)
  exact ⟨hlayout, hfirst, ((opaque_body hlayout (Or.inl rfl)).1 27 37 hfirst).2⟩

end Token
end TemplateTree
