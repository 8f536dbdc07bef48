import TemplateTree.Proofs.Token.Place
import TemplateTree.Proofs.Token.Written
import Mathlib.Data.List.TakeWhile

/-! Reading is local: where a cut falls, and how the rest of a start tag reads, is settled by the text
up to there. What comes behind may be exchanged. -/
namespace TemplateTree

open Text

namespace Text

variable {here : Text → Bool} {p : Char → Bool} {a s w x y : Text}

/-- What comes behind the cut may be exchanged when no earlier place can tell. -/
theorem cut_swap (h : ∀ b, b ≠ [] → here (b ++ y) = false → here (b ++ x) = false)
    (ha : upTo here (a ++ y) = a) :
    upTo here (a ++ x) = a ++ upTo here x ∧ onward here (a ++ x) = onward here x := by
  induction a with
  | nil => exact ⟨rfl, rfl⟩
  | cons c a ih =>
    have hno : here (c :: (a ++ y)) = false := by
      by_cases hc : here (c :: (a ++ y)) = true
      · simp [upTo, hc] at ha
      · simpa using hc
    have hrest : upTo here (a ++ y) = a := by simpa [upTo, hno] using ha
    have hno' : here (c :: (a ++ x)) = false := h (c :: a) (by simp) hno
    obtain ⟨hup, hon⟩ := ih hrest
    simp [upTo, onward, hno', hup, hon]

theorem cut_here (hx : x = [] ∨ here x = true) : upTo here x = [] ∧ onward here x = x := by
  cases x with
  | nil => exact ⟨rfl, rfl⟩
  | cons c r =>
    have hc : here (c :: r) = true := by simpa using hx
    simp [upTo, onward, hc]

theorem onward_cases (here : Text → Bool) (s : Text) :
    onward here s = [] ∨ here (onward here s) = true := by
  by_cases h : onward here s = []
  · exact Or.inl h
  · exact Or.inr (onward_holds h)

/-- Nothing more comes, or a `<`. -/
def AtMark (x : Text) : Prop := x = [] ∨ ∃ r, x = '<' :: r

/-- What is cut off before a mark is cut off there again, whatever the mark begins. -/
theorem cut_atMark (hmark : ∀ b x, b ≠ [] → AtMark x → here (b ++ x) = here b)
    (hs : AtMark (onward here s)) (hx : AtMark x) :
    upTo here (upTo here s ++ x) = upTo here s ++ upTo here x ∧
      onward here (upTo here s ++ x) = onward here x := by
  have hsame : ∀ b, b ≠ [] → here (b ++ onward here s) = false → here (b ++ x) = false := by
    intro b hb hno
    rw [hmark b _ hb hs] at hno
    rw [hmark b _ hb hx, hno]
  exact cut_swap hsame (congrArg (upTo here) (upTo_append_onward here s))

theorem starts_append (h : w.length ≤ a.length) (x : Text) : starts w (a ++ x) = starts w a := by
  induction w generalizing a with
  | nil => rfl
  | cons c w ih =>
    cases a with
    | nil => simp at h
    | cons d a =>
      have hle : w.length ≤ a.length := by simpa using h
      have hrest : w.isPrefixOf (a ++ x) = w.isPrefixOf a := ih hle
      simp [starts, List.isPrefixOf, hrest]

/-- Where a word was found, the text through its end has it in the same place. -/
theorem through_append (h : onward (starts w) s ≠ []) (x : Text) :
    upTo (starts w) (through w s ++ x) = upTo (starts w) s ∧
      through w (through w s ++ x) = through w s ∧ beyond w (through w s ++ x) = x := by
  have hword : starts w (onward (starts w) s) = true := onward_holds h
  obtain ⟨z, hz⟩ : ∃ z, onward (starts w) s = w ++ z := by
    obtain ⟨z, hz⟩ := List.isPrefixOf_iff_prefix.mp hword
    exact ⟨z, hz.symm⟩
  have hs : upTo (starts w) (upTo (starts w) s ++ (w ++ z)) = upTo (starts w) s := by
    rw [← hz, upTo_append_onward]
  have hself : ∀ x, starts w (w ++ x) = true := fun x =>
    List.isPrefixOf_iff_prefix.mpr (List.prefix_append w x)
  have hsame : ∀ b, b ≠ [] → starts w (b ++ (w ++ z)) = false → starts w (b ++ (w ++ x)) = false := by
    intro b _ hb
    have hle : w.length ≤ (b ++ w).length := by simp
    rw [← List.append_assoc, starts_append hle] at hb ⊢
    exact hb
  obtain ⟨hup, hon⟩ := cut_swap hsame hs
  obtain ⟨hup', hon'⟩ := cut_here (Or.inr (hself x))
  rw [hup', List.append_nil] at hup
  rw [hon'] at hon
  have hthrough : through w s = upTo (starts w) s ++ w := by simp [through, hz]
  rw [hthrough, List.append_assoc, through, beyond, hup, hon]
  simp

theorem onward_of_beyond (h : beyond w s ≠ []) : onward (starts w) s ≠ [] := by
  intro hnil
  simp [beyond, hnil] at h

/-- A part in front that already holds the first other character decides. -/
theorem dropWhile_append_of_mem {c : Char} (hc : c ∈ a) (hp : p c = false) (x : Text) :
    ∃ d r, a.dropWhile p = d :: r ∧ p d = false ∧ (a ++ x).dropWhile p = d :: (r ++ x) := by
  induction a with
  | nil => simp at hc
  | cons d a ih =>
    by_cases hd : p d = true
    · have hca : c ∈ a := by
        rcases List.mem_cons.mp hc with rfl | hca
        · rw [hp] at hd
          cases hd
        · exact hca
      obtain ⟨e, r, hdrop, he, happ⟩ := ih hca
      refine ⟨e, r, ?_, he, ?_⟩
      · rw [List.dropWhile_cons_of_pos hd, hdrop]
      · rw [List.cons_append, List.dropWhile_cons_of_pos hd, happ]
    · refine ⟨d, a, List.dropWhile_cons_of_neg hd, by simpa using hd, ?_⟩
      rw [List.cons_append, List.dropWhile_cons_of_neg hd]

theorem takeWhile_dropWhile (p : Char → Bool) (s : Text) : (s.dropWhile p).takeWhile p = [] := by
  induction s with
  | nil => rfl
  | cons c s ih =>
    by_cases hc : p c = true
    · rw [List.dropWhile_cons_of_pos hc, ih]
    · rw [List.dropWhile_cons_of_neg hc, List.takeWhile_cons_of_neg hc]

/-- A nonempty part in front begins like the whole. -/
theorem head?_front (ha : a ≠ []) (x y : Text) : (a ++ x).head? = (a ++ y).head? := by
  obtain ⟨c, r, rfl⟩ := List.exists_cons_of_ne_nil ha
  rfl

theorem takeWhile_eq_nil_front (ha : a ≠ []) (h : (a ++ y).takeWhile p = []) (x : Text) :
    (a ++ x).takeWhile p = [] := by
  obtain ⟨c, r, rfl⟩ := List.exists_cons_of_ne_nil ha
  by_cases hc : p c = true
  · simp [hc] at h
  · simp [hc]

end Text

namespace StartTag

variable {g g' s v x y : Text} {c q : Char}

/-- The source of a tail that ends has the `>` in it. -/
theorem gt_mem_tailOf (h : (tailOf s).ending ≠ .missing) : '>' ∈ (tailOf s).source := by
  fun_induction tailOf s with
  | case1 => exact absurd rfl h
  | case2 => simp
  | case3 => simp
  | case4 c r _ _ hc name given later ih =>
    have hlater : '>' ∈ later.source := ih h
    simp [hlater]
  | case5 c r _ _ hc later ih =>
    have hlater : '>' ∈ later.source := ih h
    simp [hlater]

theorem source_tailOf_ne_nil (h : (tailOf s).ending ≠ .missing) : (tailOf s).source ≠ [] :=
  List.ne_nil_of_mem (gt_mem_tailOf h)

theorem tailOf_step (hc : isAttributeChar c = false) (hgt : c ≠ '>')
    (hslash : c = '/' → s.head? ≠ some '>') :
    tailOf (c :: s) = { tailOf s with source := c :: (tailOf s).source } := by
  rw [tailOf]
  · simp [hc]
  · simpa using hgt
  · rintro r rfl
    intro hs
    simp [hs] at hslash

theorem assigned_quote (hg : ∀ c ∈ g, isTagBlank c = true) (hg' : ∀ c ∈ g', isTagBlank c = true)
    (hq : q = '"' ∨ q = '\'') (v : Text) :
    assigned (g ++ '=' :: (g' ++ q :: v)) = quoted q (g ++ '=' :: g') v := by
  have hequals : ('=' :: (g' ++ q :: v)).takeWhile isTagBlank = [] := by simp [isTagBlank]
  have hquote : (q :: v).takeWhile isTagBlank = [] := by
    rcases hq with rfl | rfl <;> simp [isTagBlank]
  obtain ⟨htake, hdrop⟩ := takeWhile_append_stop hg hequals
  obtain ⟨htake', hdrop'⟩ := takeWhile_append_stop hg' hquote
  rcases hq with rfl | rfl <;> simp only [assigned, htake, hdrop, htake', hdrop']

theorem assigned_bare (hg : ∀ c ∈ g, isTagBlank c = true) (hg' : ∀ c ∈ g', isTagBlank c = true)
    (hblank : v.takeWhile isTagBlank = []) (hq : v.head? ≠ some '"') (hq' : v.head? ≠ some '\'') :
    assigned (g ++ '=' :: (g' ++ v)) = bareValue (g ++ '=' :: g') v := by
  have hequals : ('=' :: (g' ++ v)).takeWhile isTagBlank = [] := by simp [isTagBlank]
  obtain ⟨htake, hdrop⟩ := takeWhile_append_stop hg hequals
  obtain ⟨htake', hdrop'⟩ := takeWhile_append_stop hg' hblank
  simp only [assigned, htake, hdrop, htake', hdrop']
  split
  · simp at hq
  · simp at hq'
  · rfl

/-- What stands behind a name is a value or not. -/
theorem assigned_cases (s : Text) : (s.dropWhile isTagBlank).head? ≠ some '=' ∨
    ∃ g g' v, (∀ c ∈ g, isTagBlank c = true) ∧ (∀ c ∈ g', isTagBlank c = true) ∧
      v.takeWhile isTagBlank = [] ∧ s = g ++ '=' :: (g' ++ v) := by
  by_cases h : (s.dropWhile isTagBlank).head? = some '='
  · right
    obtain ⟨r, hr⟩ : ∃ r, s.dropWhile isTagBlank = '=' :: r := by
      cases hd : s.dropWhile isTagBlank with
      | nil => simp [hd] at h
      | cons c r => exact ⟨r, by simpa [hd] using h⟩
    refine ⟨s.takeWhile isTagBlank, r.takeWhile isTagBlank, r.dropWhile isTagBlank, ?_, ?_,
      takeWhile_dropWhile _ r, ?_⟩
    · exact fun c hc => List.mem_takeWhile_imp hc
    · exact fun c hc => List.mem_takeWhile_imp hc
    · rw [List.takeWhile_append_dropWhile, ← hr, List.takeWhile_append_dropWhile]
  · exact Or.inl h

theorem endsBareValue_cons (c : Char) (s : Text) : endsBareValue (c :: s) =
    (isTagBlank c || c == '>' || (c == '/' && s.head? == some '>')) := by
  unfold endsBareValue
  split
  · next heq =>
    cases heq
    rfl
  · next d r hno heq =>
    cases heq
    have hslash : (c == '/' && s.head? == some '>') = false := by
      by_cases hc : c = '/'
      · cases s with
        | nil => simp
        | cons d s =>
          have hd : d ≠ '>' := fun hd => hno s hc (by rw [hd])
          simp [hd]
      · simp [hc]
    rw [hslash, Bool.or_false]
  · next heq => cases heq

/-- Only the next two characters tell whether a bare value ends. -/
theorem endsBareValue_append {b : Text} (hb : b ≠ []) (h : x.head? = y.head?) :
    endsBareValue (b ++ x) = endsBareValue (b ++ y) := by
  obtain ⟨c, b, rfl⟩ := List.exists_cons_of_ne_nil hb
  have hhead : (b ++ x).head? = (b ++ y).head? := by simp [List.head?_append, h]
  rw [List.cons_append, List.cons_append, endsBareValue_cons, endsBareValue_cons, hhead]

/-- Where a bare value ends, the next characters can only begin the rest of the tag. -/
theorem endsBareValue_tailOf (h : endsBareValue s = true) (hm : (tailOf s).ending ≠ .missing)
    (x : Text) : endsBareValue ((tailOf s).source ++ x) = true := by
  cases s with
  | nil => exact absurd (by rw [tailOf]) hm
  | cons c r =>
    by_cases hshort : c = '/' ∧ r.head? = some '>'
    · obtain ⟨rfl, hr⟩ := hshort
      obtain ⟨r, rfl⟩ : ∃ r', r = '>' :: r' := by
        cases r with
        | nil => simp at hr
        | cons d r => exact ⟨r, by simpa using hr⟩
      rw [tailOf]
      rfl
    · have hc : isTagBlank c = true ∨ c = '>' := by
        rw [endsBareValue_cons] at h
        simp only [Bool.or_eq_true, beq_iff_eq, Bool.and_eq_true] at h
        rcases h with h | h
        · exact h
        · exact absurd h hshort
      obtain ⟨d, u, hu⟩ := List.exists_cons_of_ne_nil (source_tailOf_ne_nil hm)
      have hwhole := source_append_rest_tailOf (c :: r)
      rw [hu, List.cons_append, List.cons.injEq] at hwhole
      rw [hu, List.cons_append, endsBareValue_cons, hwhole.1]
      rcases hc with hc | rfl
      · simp [hc]
      · simp

/-- A value is read from its source when the rest of the tag follows. -/
theorem assigned_append_none (h : (s.dropWhile isTagBlank).head? ≠ some '=')
    (hm : (tailOf s).ending ≠ .missing) (x : Text) :
    assigned ((tailOf s).source ++ x) = ⟨[], none, (tailOf s).source ++ x⟩ := by
  have hgt : isTagBlank '>' = false := by decide
  obtain ⟨d, r, hdrop, -, happ⟩ := dropWhile_append_of_mem (gt_mem_tailOf hm) hgt x
  obtain ⟨d', r', hdrop', -, happ'⟩ := dropWhile_append_of_mem (gt_mem_tailOf hm) hgt (tailOf s).rest
  rw [source_append_rest_tailOf] at happ'
  have hd : d = d' := by
    rw [hdrop, List.cons.injEq] at hdrop'
    exact hdrop'.1
  apply assigned_none
  rw [happ, hd]
  simpa [happ'] using h

theorem quoted_append {before : Text} (hm : (tailOf (quoted q before v).rest).ending ≠ .missing)
    (x : Text) : quoted q before (through [q] v ++ x) =
      ⟨(quoted q before v).source, (quoted q before v).value, x⟩ := by
  have hon : onward (starts [q]) v ≠ [] := by
    apply onward_of_beyond
    intro hnil
    rw [quoted, hnil] at hm
    exact hm (by rw [tailOf])
  obtain ⟨hup, hthrough, hbeyond⟩ := through_append hon x
  rw [quoted, hup, hthrough, hbeyond]
  rfl

/-- A bare value and the rest of the tag. They begin like the text that they were read from. -/
theorem bareValue_append {before : Text} (hm : (tailOf (bareValue before v).rest).ending ≠ .missing)
    (x : Text) : ∃ front, front ≠ [] ∧ v = front ++ (tailOf (bareValue before v).rest).rest ∧
      front = upTo endsBareValue v ++ (tailOf (bareValue before v).rest).source ∧
      bareValue before (front ++ x) = ⟨(bareValue before v).source, (bareValue before v).value,
        (tailOf (bareValue before v).rest).source ++ x⟩ := by
  simp only [bareValue] at hm ⊢
  have hne := source_tailOf_ne_nil hm
  have hcut := upTo_append_onward endsBareValue v
  have hwhole := source_append_rest_tailOf (onward endsBareValue v)
  have hon : onward endsBareValue v ≠ [] := by
    intro hnil
    rw [hnil] at hm
    exact hm (by rw [tailOf])
  have hhead : ((tailOf (onward endsBareValue v)).source ++ x).head? =
      (onward endsBareValue v).head? := by
    conv => rhs; rw [← hwhole]
    exact head?_front hne _ _
  have hends := endsBareValue_tailOf (onward_holds hon) hm x
  obtain ⟨hup, hrest⟩ := cut_swap
    (fun b hb hno => (endsBareValue_append hb hhead).trans hno)
    (congrArg (upTo endsBareValue) hcut)
  obtain ⟨hup', hrest'⟩ := cut_here (Or.inr hends)
  refine ⟨upTo endsBareValue v ++ (tailOf (onward endsBareValue v)).source, by simp [hne], ?_, rfl, ?_⟩
  · rw [List.append_assoc, hwhole, hcut]
  · rw [List.append_assoc, hup, hrest, hup', hrest', List.append_nil]

theorem assigned_append (hm : (tailOf (assigned s).rest).ending ≠ .missing) (x : Text) :
    assigned ((assigned s).source ++ ((tailOf (assigned s).rest).source ++ x)) =
      ⟨(assigned s).source, (assigned s).value, (tailOf (assigned s).rest).source ++ x⟩ := by
  rcases assigned_cases s with hnone | ⟨g, g', v, hg, hg', hblank, rfl⟩
  · have hread : assigned s = ⟨[], none, s⟩ := assigned_none hnone
    rw [hread] at hm ⊢
    exact assigned_append_none hnone hm x
  · by_cases hquote : v.head? = some '"' ∨ v.head? = some '\''
    · obtain ⟨q, u, hq, rfl⟩ : ∃ q u, (q = '"' ∨ q = '\'') ∧ v = q :: u := by
        cases v with
        | nil => simp at hquote
        | cons q u => exact ⟨q, u, by simpa using hquote, rfl⟩
      have hread := assigned_quote hg hg' hq u
      rw [hread] at hm ⊢
      have hagain := quoted_append hm ((tailOf (beyond [q] u)).source ++ x)
      have hshape : (quoted q (g ++ '=' :: g') u).source ++ ((tailOf (beyond [q] u)).source ++ x) =
          g ++ '=' :: (g' ++ q :: (through [q] u ++ ((tailOf (beyond [q] u)).source ++ x))) := by
        simp [quoted]
      exact (congrArg assigned hshape).trans ((assigned_quote hg hg' hq _).trans hagain)
    · rw [not_or] at hquote
      have hread := assigned_bare hg hg' hblank hquote.1 hquote.2
      rw [hread] at hm ⊢
      obtain ⟨front, hne, hv, hfront, hagain⟩ := bareValue_append hm x
      have hbegins : (front ++ x).takeWhile isTagBlank = [] := by
        rw [hv] at hblank
        exact takeWhile_eq_nil_front hne hblank x
      have hhead : (front ++ x).head? = v.head? := by
        conv => rhs; rw [hv]
        exact head?_front hne _ _
      have hshape : (bareValue (g ++ '=' :: g') v).source ++
          ((tailOf (bareValue (g ++ '=' :: g') v).rest).source ++ x) =
            g ++ '=' :: (g' ++ (front ++ x)) := by
        simp [bareValue, hfront]
      rw [← hhead] at hquote
      rw [hshape, assigned_bare hg hg' hbegins hquote.1 hquote.2, hagain]

/-- The rest of a tag that ends is read from its source, whatever comes behind the tag. -/
theorem tailOf_append (h : (tailOf s).ending ≠ .missing) (x : Text) :
    tailOf ((tailOf s).source ++ x) = { tailOf s with rest := x } := by
  fun_induction tailOf s with
  | case1 => exact absurd rfl h
  | case2 r => simp [tailOf]
  | case3 r => simp [tailOf]
  | case4 c r hgt hslash hc name given later ih =>
    have hm : later.ending ≠ .missing := h
    have hread := assigned_append hm x
    have hne : given.source ++ later.source ≠ [] :=
      List.append_ne_nil_of_right_ne_nil _ (source_tailOf_ne_nil hm)
    have hwhole : given.source ++ later.source ++ later.rest = r.dropWhile isAttributeChar := by
      rw [List.append_assoc, source_append_rest_tailOf, source_append_rest_assigned]
    have hstop : (given.source ++ (later.source ++ x)).takeWhile isAttributeChar = [] := by
      have hdone := takeWhile_dropWhile isAttributeChar r
      rw [← hwhole] at hdone
      rw [← List.append_assoc]
      exact takeWhile_eq_nil_front hne hdone x
    have hname : ∀ d ∈ name, isAttributeChar d = true := by
      intro d hd
      rcases List.mem_cons.mp hd with rfl | hd
      · exact hc
      · exact List.mem_takeWhile_imp hd
    have hagain := tailOf_name (List.cons_ne_nil c _) hname hstop
    rw [List.append_assoc, List.append_assoc]
    refine hagain.trans ?_
    rw [hread]
    simp only
    rw [ih hm]
  | case5 c r hgt hslash hc later ih =>
    have hm : later.ending ≠ .missing := h
    have hne := source_tailOf_ne_nil hm
    have hhead : (later.source ++ x).head? = r.head? := by
      conv => rhs; rw [← source_append_rest_tailOf r]
      exact head?_front hne _ _
    have hgo : c = '/' → (later.source ++ x).head? ≠ some '>' := by
      rintro rfl hr
      rw [hhead] at hr
      cases r with
      | nil => simp at hr
      | cons d r => exact hslash r rfl (by simpa using hr)
    rw [List.cons_append, tailOf_step (by simpa using hc) (by simpa using hgt) hgo, ih hm]

end StartTag

end TemplateTree
