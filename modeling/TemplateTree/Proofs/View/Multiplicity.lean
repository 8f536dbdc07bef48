import TemplateTree.Proofs.Markup.BindingPoints
import TemplateTree.Proofs.Store.Once
import TemplateTree.Proofs.View.History
import TemplateTree.Proofs.View.Ownership

/-! How often a search finds a scope. Every scope around it doubles that: the search goes through what is
inside a scope once for the scope and once more for the row that the scope stands in. -/
namespace TemplateTree

universe u

namespace Forest

variable {α : Type u}

/-- Every label in pre-order, with the row of its children. -/
def trees : Forest α → List (α × Forest α)
  | nil => []
  | cons a kids rest => (a, kids) :: (trees kids ++ trees rest)

theorem trees_append (f g : Forest α) : (f ++ g).trees = f.trees ++ g.trees := by
  induction f with
  | nil => rfl
  | cons a kids rest _ ih => rw [cons_append, trees, trees, ih, List.cons_append, List.append_assoc]

theorem length_lineages (above : List α) (f : Forest α) :
    (f.lineages above).length = f.preorder.length := by
  rw [← map_label_lineages above f, List.length_map]

end Forest

variable {s : Store} {v : View} {above : List Occurrence} {f kids rest : Forest Occurrence}
  {o : Occurrence} {e : Lineage Occurrence} {i j start : Nat}

/-- What a search finds at a node, if that is a scope. -/
def Occurrence.record? (s : Store) (o : Occurrence) : Option Scope :=
  (o.attribute? .scope).map fun name =>
    ⟨o.view, name, Property.ofScope o (s.forest o.node.children)⟩

namespace Scope

/-- What is nested in a scope is what a search through its children finds. -/
theorem trees_find (hw : s.Whole f) {t : Scope × Forest Scope} (ht : t ∈ (find f).trees) :
    ∃ n, t.1.view.focus = some n ∧ t.2 = View.scopes ⟨(s.node n).children, none⟩ s := by
  induction f with
  | nil => cases ht
  | cons o kids rest ihk ihr =>
    obtain ⟨ho, hkids, hwk, hwr⟩ := hw
    have later (ht : t ∈ (find kids ++ find rest).trees) :
        ∃ n, t.1.view.focus = some n ∧ t.2 = View.scopes ⟨(s.node n).children, none⟩ s := by
      rw [Forest.trees_append] at ht
      exact (List.mem_append.mp ht).elim (ihk hwk) (ihr hwr)
    rw [find_cons] at ht
    split at ht
    · rcases List.mem_cons.mp ht with rfl | ht
      · refine ⟨o.id, rfl, ?_⟩
        rw [View.scopes, ← ho, ← hkids]
      · rcases List.mem_append.mp ht with ht | ht
        · exact ihk hwk ht
        · exact later ht
    · exact later ht

/-- The scopes of a forest as a search finds them, each by its number in the pre-order. -/
def numbers (start : Nat) : Forest Occurrence → Forest Nat
  | .nil => .nil
  | .cons o kids rest =>
    let below := numbers (start + 1) kids
    let found := below ++ numbers (start + 1 + kids.preorder.length) rest
    if o.isScope then .cons start below found else found

theorem numbers_scope (ho : o.isScope = true) (start : Nat) (kids rest : Forest Occurrence) :
    numbers start (.cons o kids rest) = .cons start (numbers (start + 1) kids)
      (numbers (start + 1) kids ++ numbers (start + 1 + kids.preorder.length) rest) := if_pos ho

theorem numbers_plain (ho : o.isScope = false) (start : Nat) (kids rest : Forest Occurrence) :
    numbers start (.cons o kids rest) =
      numbers (start + 1) kids ++ numbers (start + 1 + kids.preorder.length) rest :=
  if_neg (Bool.eq_false_iff.mp ho)

theorem mem_numbers (h : i ∈ (numbers start f).preorder) :
    start ≤ i ∧ i < start + f.preorder.length := by
  induction f generalizing start with
  | nil => cases h
  | cons o kids rest ihk ihr =>
    have later (h : i ∈ (numbers (start + 1) kids ++
        numbers (start + 1 + kids.preorder.length) rest).preorder) :
        start < i ∧ i < start + 1 + kids.preorder.length + rest.preorder.length := by
      rw [Forest.preorder_append] at h
      rcases List.mem_append.mp h with h | h
      · have := ihk h
        omega
      · have := ihr h
        omega
    rw [Forest.preorder, List.length_cons, List.length_append]
    cases ho : o.isScope with
    | false =>
      rw [numbers_plain ho] at h
      have := later h
      omega
    | true =>
      rw [numbers_scope ho] at h
      rcases Forest.mem_preorder_cons.mp h with rfl | h | h
      · omega
      · have := ihk h
        omega
      · have := later h
        omega

/-- A number leads to the node that the search found there. -/
theorem rel_numbers (hw : s.Whole f) {P : Nat → Scope → Prop}
    (hP : ∀ i o a, f.preorder[i]? = some o → o.record? s = some a → P (start + i) a) :
    (numbers start f).Rel P (find f) := by
  induction f generalizing start with
  | nil => exact .nil
  | cons o kids rest ihk ihr =>
    obtain ⟨-, hkids, hwk, hwr⟩ := hw
    have hbelow : (numbers (start + 1) kids).Rel P (find kids) := by
      refine ihk hwk fun i c a hi ha => ?_
      have hlt : i < kids.preorder.length := (List.getElem?_eq_some_iff.mp hi).1
      have hshift : start + 1 + i = start + (i + 1) := by omega
      rw [hshift]
      refine hP (i + 1) c a ?_ ha
      rw [Forest.preorder, List.getElem?_cons_succ, List.getElem?_append_left hlt]
      exact hi
    have hbeside : (numbers (start + 1 + kids.preorder.length) rest).Rel P (find rest) := by
      refine ihr hwr fun i c a hi ha => ?_
      have hshift : start + 1 + kids.preorder.length + i =
          start + (kids.preorder.length + i + 1) := by omega
      rw [hshift]
      refine hP (kids.preorder.length + i + 1) c a ?_ ha
      rw [Forest.preorder, List.getElem?_cons_succ, List.getElem?_append_right (by omega),
        Nat.add_sub_cancel_left]
      exact hi
    rw [find]
    have hscope := o.isSome_scope
    cases hname : o.attribute? .scope with
    | none =>
      rw [hname] at hscope
      rw [numbers_plain hscope.symm]
      exact hbelow.append hbeside
    | some name =>
      rw [hname] at hscope
      rw [numbers_scope hscope.symm]
      refine .cons (hP 0 o _ rfl ?_) hbelow (hbelow.append hbeside)
      rw [Occurrence.record?, hname, Option.map_some, hkids]

theorem count_numbers_eq_zero (h : i < start ∨ start + f.preorder.length ≤ i) :
    (numbers start f).preorder.count i = 0 := by
  refine List.count_eq_zero.mpr fun hi => ?_
  have := mem_numbers hi
  omega

theorem count_numbers_cons (o : Occurrence) (kids rest : Forest Occurrence) (start i : Nat) :
    (numbers start (.cons o kids rest)).preorder.count i =
      (if o.isScope then [start].count i + (numbers (start + 1) kids).preorder.count i else 0) +
        ((numbers (start + 1) kids).preorder.count i +
          (numbers (start + 1 + kids.preorder.length) rest).preorder.count i) := by
  cases ho : o.isScope with
  | false =>
    rw [numbers_plain ho, Forest.preorder_append, List.count_append, if_neg Bool.false_ne_true,
      Nat.zero_add]
  | true =>
    have hself : start :: (numbers (start + 1) kids).preorder =
        [start] ++ (numbers (start + 1) kids).preorder := rfl
    rw [numbers_scope ho, Forest.preorder, Forest.preorder_append, ← List.cons_append, hself,
      List.count_append, List.count_append, List.count_append, if_pos rfl]

/-- The number of a scope is found once for every choice of scopes around it. -/
theorem count_numbers (start : Nat) (h : (f.lineages above)[j]? = some e)
    (hscope : e.label.isScope = true) :
    2 ^ above.countP Occurrence.isScope * (numbers start f).preorder.count (start + j) =
      2 ^ e.depth := by
  induction f generalizing above start j with
  | nil => cases h
  | cons o kids rest ihk ihr =>
    rw [count_numbers_cons]
    cases j with
    | zero =>
      obtain rfl : (⟨above, o⟩ : Lineage Occurrence) = e := Option.some.inj h
      have hself : o.isScope = true := hscope
      rw [if_pos hself, count_numbers_eq_zero (Or.inl (by omega)),
        count_numbers_eq_zero (Or.inl (by omega)), Nat.add_zero, Nat.add_zero,
        List.count_singleton_self]
      exact Nat.mul_one _
    | succ j =>
      have hne : [start].count (start + (j + 1)) = 0 :=
        List.count_eq_zero.mpr (by simp)
      rw [Forest.lineages, List.getElem?_cons_succ] at h
      have hshift : start + (j + 1) = start + 1 + j := by omega
      rcases Nat.lt_or_ge j kids.preorder.length with hj | hj
      · rw [List.getElem?_append_left (by rwa [Forest.length_lineages])] at h
        have hinside := ihk (start + 1) h
        rw [count_numbers_eq_zero (f := rest) (Or.inl (by omega)), hne, hshift]
        cases ho : o.isScope with
        | false =>
          rw [countP_plain ho] at hinside
          rw [if_neg Bool.false_ne_true, Nat.zero_add, Nat.add_zero]
          exact hinside
        | true =>
          rw [countP_scope ho, Nat.pow_succ] at hinside
          rw [if_pos rfl, ← hinside]
          ring
      · rw [List.getElem?_append_right (by rwa [Forest.length_lineages]),
          Forest.length_lineages] at h
        have hbeside := ihr (start + 1 + kids.preorder.length) h
        have hplace : start + 1 + kids.preorder.length + (j - kids.preorder.length) =
            start + (j + 1) := by omega
        rw [hplace] at hbeside
        rw [count_numbers_eq_zero (f := kids) (Or.inr (by omega)), hne]
        cases o.isScope <;> simpa using hbeside

/-- The number of records, counted by the scopes that they are of. -/
theorem length_find (above : List Occurrence) (f : Forest Occurrence) :
    2 ^ above.countP Occurrence.isScope * (find f).preorder.length =
      (((f.lineages above).filter (·.label.isScope)).map (2 ^ ·.depth)).sum := by
  induction f generalizing above with
  | nil => rfl
  | cons o kids rest ihk ihr =>
    have hkids := ihk (o :: above)
    have hrest := ihr above
    rw [Forest.lineages, List.filter_cons, List.filter_append, find_cons]
    cases ho : o.isScope with
    | false =>
      rw [countP_plain ho] at hkids
      rw [if_neg Bool.false_ne_true, if_neg Bool.false_ne_true, Forest.preorder_append,
        List.length_append, List.map_append, List.sum_append, ← hkids, ← hrest, Nat.mul_add]
    | true =>
      rw [countP_scope ho, Nat.pow_succ] at hkids
      rw [if_pos rfl, if_pos rfl, Forest.preorder, Forest.preorder_append, List.length_cons,
        List.length_append, List.length_append, List.map_cons, List.sum_cons, List.map_append,
        List.sum_append, ← hkids, ← hrest, Lineage.depth]
      ring

theorem sum_two_pow (n : Nat) : ((List.range n).map (2 ^ ·)).sum = 2 ^ n - 1 := by
  induction n with
  | zero => rfl
  | succ n ih =>
    have hpos : 0 < 2 ^ n := Nat.two_pow_pos n
    rw [List.range_succ, List.map_append, List.sum_append, ih, Nat.pow_succ, List.map_singleton,
      List.sum_singleton]
    omega

end Scope

namespace View

open Scope

/-- A search lists the scopes of a list in pre-order, each with what a search through the children of its
node finds. Through all nestings it finds a scope with `k` scopes around it `2 ^ k` times, so that `n`
scopes nested in one another give `2 ^ n - 1` records. -/
theorem scopes_multiplicity (hs : s.Sound) (v : View) :
    let f := s.forest v.list
    let found := v.scopes s
    found.roots.map (·.name) = f.preorder.filterMap (·.attribute? .scope) ∧
      (∀ t ∈ found.trees, ∃ n, t.1.view.focus = some n ∧
        t.2 = View.scopes ⟨(s.node n).children, none⟩ s) ∧
      (∃ places : Forest Nat,
        places.Rel (fun i a => ∃ o, f.preorder[i]? = some o ∧ o.record? s = some a) found ∧
        ∀ i e, (f.lineages [])[i]? = some e → e.label.isScope = true →
          places.preorder.count i = 2 ^ e.depth) ∧
      ∀ n, ((f.lineages []).filter (·.label.isScope)).map (·.depth) = List.range n →
        found.preorder.length = 2 ^ n - 1 := by
  intro f found
  have hw : s.Whole f := hs.whole v.list
  refine ⟨Markup.names_find f, fun t ht => trees_find hw ht, ⟨numbers 0 f, ?_, ?_⟩, fun n hn => ?_⟩
  · refine rel_numbers hw fun i o a hi ha => ⟨o, ?_, ha⟩
    rwa [Nat.zero_add]
  · intro i e he hscope
    have hcount := count_numbers 0 he hscope
    rwa [List.countP_nil, Nat.pow_zero, Nat.one_mul, Nat.zero_add] at hcount
  · have hlength := length_find [] f
    rw [List.countP_nil, Nat.pow_zero, Nat.one_mul] at hlength
    rw [← sum_two_pow n, ← hn, List.map_map]
    exact hlength

/-- Of three scopes nested in one another the innermost one is found four times. -/
theorem scopes_multiplicity_three : ∃ m,
    let v := (Store.empty.plantView m.forest).1
    let s := (Store.empty.plantView m.forest).2
    Markup.parse {} "<a data-scope=x><b data-scope=y>t<c data-scope=z></c></b></a>".toList = .ok m ∧
      s.Sound ∧ (v.scopes s).roots.map (·.name) = ["x".toList, "y".toList, "z".toList] ∧
      (v.scopes s).preorder.length = 7 ∧
      ((v.scopes s).preorder.map (·.name)).count "z".toList = 4 := by
  let m := Markup.ofElements {} (Elements.ofTokens (Token.scan
    "<a data-scope=x><b data-scope=y>t<c data-scope=z></c></b></a>".toList))
  have hs : (Store.empty.plantView m.forest).2.Sound := Store.sound_empty.plantList m.forest
  obtain ⟨hnames, -, -, hlength⟩ := scopes_multiplicity hs (Store.empty.plantView m.forest).1
  exact ⟨m, Markup.parse_eq_ok_iff.mpr ⟨by decide +kernel, by decide +kernel, rfl⟩, hs,
    hnames.trans (by decide +kernel), hlength 3 (by decide +kernel), by decide +kernel⟩

end View
end TemplateTree
