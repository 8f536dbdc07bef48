import TemplateTree.Proofs.Store.Acyclic

/-! What an edit puts into which list, and when it is refused. -/
namespace TemplateTree

open Relation (ReflTransGen)

variable {s : Store} {v : View} {e : Edit} {c : Content} {n : NodeId} {l : ListId}
  {kept : List NodeId}

/-- The nodes of the content that are there already. -/
def Content.shared : Content → List NodeId
  | .text _ => []
  | .nodes ns => ns

/-- The content that an edit inserts. -/
def Edit.content? : Edit → Option Content
  | .append c | .prepend c | .after c | .before c | .replace c => some c
  | _ => none

/-- The list that an edit inserts into. -/
def View.target? (v : View) (s : Store) : Edit → Option ListId
  | .append _ | .prepend _ => v.inner? s
  | .after _ | .before _ | .replace _ => some v.list
  | _ => none

/-- The view names a list in use, and its focus is in use. -/
structure View.InUse (v : View) (s : Store) : Prop where
  list : s.HasList v.list
  focus : ∀ n, v.focus = some n → s.HasNode n

/-- The nodes that the edit inserts are in use. -/
def Edit.InUse (e : Edit) (s : Store) : Prop :=
  ∀ c, e.content? = some c → ∀ n ∈ c.shared, s.HasNode n

namespace Store

theorem wouldContainItself_iff (hs : s.Sound) :
    c.wouldContainItself s l = true ↔ ∃ n ∈ c.shared, s.Owns n l := by
  cases c with
  | text content => simp [Content.wouldContainItself, Content.shared]
  | nodes ns => simp [Content.wouldContainItself, Content.shared, owns_iff hs.closed hs.acyclic]

theorem extends_addLeaf (s : Store) (content : Text) : s.Extends (s.addLeaf content).2 :=
  (extends_addList s []).trans (extends_addNode _ _)

theorem Sound.addLeaf (hs : s.Sound) (content : Text) : (s.addLeaf content).2.Sound :=
  (hs.addList (by simp)).addNode ((hasList_addList s []).mpr (Or.inr rfl))

theorem hasNode_addLeaf (s : Store) (content : Text) :
    (s.addLeaf content).2.HasNode (s.addLeaf content).1 :=
  (hasNode_addNode _ _).mpr (Or.inr rfl)

theorem node_addLeaf (s : Store) (content : Text) :
    (s.addLeaf content).2.node (s.addLeaf content).1 = ⟨Label.leaf content, (s.addList []).1⟩ :=
  node_addNode_self _ _

/-- A new leaf has an empty list of its own and owns no other. -/
theorem not_owns_addLeaf (s : Store) (content : Text) (hl : s.HasList l) :
    ¬ (s.addLeaf content).2.Owns (s.addLeaf content).1 l := by
  rintro ⟨m, hr, hm⟩
  have hempty : (s.addLeaf content).2.list (s.addList []).1 = [] := list_addList_self s []
  rcases hr.cases_head with rfl | ⟨b, hb, -⟩
  · rw [node_addLeaf] at hm
    rw [← hm] at hl
    exact Nat.lt_irrefl _ hl
  · rw [Child, node_addLeaf, hempty] at hb
    simp at hb

theorem insert_text (s : Store) (l : ListId) (i : Nat) (content : Text) :
    s.insert l i (.text content) = (s.addLeaf content).2.setList l
      (((s.addLeaf content).2.list l).take i ++ [(s.addLeaf content).1] ++
        ((s.addLeaf content).2.list l).drop i) := rfl

theorem insert_nodes (s : Store) (l : ListId) (i : Nat) (ns : List NodeId) :
    s.insert l i (.nodes ns) = s.setList l ((s.list l).take i ++ ns ++ (s.list l).drop i) := rfl

theorem mem_splice {ns old : List NodeId} {i : Nat} :
    n ∈ old.take i ++ ns ++ old.drop i ↔ n ∈ old ∨ n ∈ ns := by
  have hold : n ∈ old ↔ n ∈ old.take i ∨ n ∈ old.drop i := by
    rw [← List.mem_append, List.take_append_drop]
  rw [List.mem_append, List.mem_append, hold]
  constructor
  · rintro ((h | h) | h)
    · exact Or.inl (Or.inl h)
    · exact Or.inr h
    · exact Or.inl (Or.inr h)
  · rintro ((h | h) | h)
    · exact Or.inl (Or.inl h)
    · exact Or.inr h
    · exact Or.inl (Or.inr h)

theorem acyclic_insert_iff (hs : s.Sound) (hl : s.HasList l) (i : Nat) (c : Content) :
    (s.insert l i c).Acyclic ↔ ∀ n ∈ c.shared, ¬ s.Owns n l := by
  cases c with
  | text content =>
    have hx := extends_addLeaf s content
    rw [insert_text, acyclic_setList_iff (hs.addLeaf content).acyclic (hl.mono hx)
      (fun m hm => mem_splice.mp hm) (fun m hm => mem_splice.mpr (Or.inr hm))]
    simp [Content.shared, not_owns_addLeaf s content hl]
  | nodes ns =>
    rw [insert_nodes, acyclic_setList_iff hs.acyclic hl
      (fun m hm => mem_splice.mp hm) (fun m hm => mem_splice.mpr (Or.inr hm))]
    rfl

theorem closed_insert (hs : s.Sound) (i : Nat) (hc : ∀ n ∈ c.shared, s.HasNode n) :
    (s.insert l i c).Closed := by
  cases c with
  | text content =>
    have hclosed := (hs.addLeaf content).closed
    rw [insert_text]
    refine closed_setList hclosed (fun m hm => ?_)
    rcases mem_splice.mp hm with hm | hm
    · exact hclosed.member l m hm
    · rw [List.mem_singleton.mp hm]
      exact hasNode_addLeaf s content
  | nodes ns =>
    rw [insert_nodes]
    refine closed_setList hs.closed (fun m hm => ?_)
    rcases mem_splice.mp hm with hm | hm
    · exact hs.closed.member l m hm
    · exact hc m hm

theorem setIfInBounds_getD {α : Type} (xs : Array α) (i : Nat) (a : α) :
    xs.setIfInBounds i (xs.getD i a) = xs := by
  apply Array.ext_getElem?
  intro j
  rw [Array.getElem?_setIfInBounds]
  split
  · next h =>
    subst h
    split
    · next hi => simp [Array.getElem?_eq_getElem hi]
    · next hi => simp [Array.getElem?_eq_none (Nat.not_lt.mp hi)]
  · rfl

theorem setList_list_self (s : Store) (l : ListId) : s.setList l (s.list l) = s := by
  rw [setList, list, setIfInBounds_getD]

/-- Content goes into a list, which may lose some of its nodes before. -/
def PutInto (s : Store) (l : ListId) (c : Content) (t : Store) : Prop :=
  ∃ kept i, kept.Sublist (s.list l) ∧ t = (s.setList l kept).insert l i c

theorem putInto_insert (s : Store) (l : ListId) (i : Nat) (c : Content) :
    s.PutInto l c (s.insert l i c) :=
  ⟨s.list l, i, List.Sublist.refl _, by rw [setList_list_self]⟩

/-- Putting content into a list makes a cycle exactly when one of its nodes owns the list. -/
theorem PutInto.acyclic_iff {t : Store} (hp : s.PutInto l c t) (hs : s.Sound) (hl : s.HasList l) :
    t.Acyclic ↔ ∀ n ∈ c.shared, ¬ s.Owns n l := by
  obtain ⟨kept, i, hsub, rfl⟩ := hp
  rw [acyclic_insert_iff (hs.shrink hsub.subset) (hasList_setList.mpr hl)]
  simp only [owns_setList_iff]

theorem PutInto.closed {t : Store} (hp : s.PutInto l c t) (hs : s.Sound)
    (hc : ∀ n ∈ c.shared, s.HasNode n) : t.Closed := by
  obtain ⟨kept, i, hsub, rfl⟩ := hp
  exact closed_insert (hs.shrink hsub.subset) i hc

end Store

namespace View

open Store

theorem hasList_inner (hs : s.Sound) (h : v.inner? s = some l) : s.HasList l := by
  simp only [inner?, slot?, Option.map_eq_some_iff, Option.bind_eq_some_iff] at h
  obtain ⟨slot, ⟨n, hn, hslot⟩, rfl⟩ := h
  exact hs.closed.children slot (hs.closed.member _ slot (List.mem_of_mem_head? hslot))

theorem InUse.target (hv : v.InUse s) (hs : s.Sound) (h : v.target? s e = some l) :
    s.HasList l := by
  cases e with
  | append | prepend => exact hasList_inner hs h
  | after | before | replace =>
    rw [← Option.some.inj h]
    exact hv.list
  | _ => simp [target?] at h

/-- A sibling is to go beside a node that has left its list. -/
def Stranded (v : View) (s : Store) (e : Edit) : Prop :=
  (∃ c, e = .after c ∨ e = .before c) ∧ ∃ n, v.node? s = some n ∧ n ∉ s.list v.list

theorem insertBeside_cases (v : View) (s : Store) (offset : Nat) (c : Content)
    (h : c.wouldContainItself s v.list = false) :
    s.PutInto v.list c (v.insertBeside s offset c).1 ∧ (v.insertBeside s offset c).2 = [] ∨
      (∃ n, v.node? s = some n ∧ n ∉ s.list v.list) ∧
        v.insertBeside s offset c = (s, [.detachedSibling]) := by
  rw [insertBeside, h]
  cases hn : v.node? s with
  | none => exact Or.inl ⟨putInto_insert .., rfl⟩
  | some n =>
    by_cases hm : n ∈ s.list v.list
    · left
      simp only [position?, hm, if_true, Bool.false_eq_true, if_false]
      exact ⟨putInto_insert .., trivial⟩
    · right
      refine ⟨⟨n, rfl, hm⟩, ?_⟩
      simp [position?, hm]

theorem edit_refused (hc : e.content? = some c) (ht : v.target? s e = some l)
    (hw : c.wouldContainItself s l = true) : v.edit s e = (s, [.wouldContainItself]) := by
  cases e with
  | append d | prepend d =>
    cases hc
    have ht : v.inner? s = some l := ht
    simp [edit, append, prepend, ht, insertInto, hw]
  | after d | before d | replace d =>
    cases hc
    cases ht
    simp [edit, after, before, replace, insertBeside, hw]
  | _ => simp [Edit.content?] at hc

/-- What would not contain itself is put into the list, if there is a place for it. -/
theorem edit_allowed (hc : e.content? = some c) (ht : v.target? s e = some l)
    (hw : c.wouldContainItself s l = false) : .wouldContainItself ∉ (v.edit s e).2 ∧
      (s.PutInto l c (v.edit s e).1 ∨ v.Stranded s e ∧ (v.edit s e).1 = s) := by
  cases e with
  | append d | prepend d =>
    cases hc
    have ht : v.inner? s = some l := ht
    simp only [edit, append, prepend, ht, insertInto, hw, Bool.false_eq_true, if_false]
    exact ⟨by simp, Or.inl (putInto_insert ..)⟩
  | after d | before d =>
    cases hc
    cases ht
    simp only [edit, after, before]
    rcases insertBeside_cases v s _ c hw with ⟨hput, hev⟩ | ⟨hdet, heq⟩
    · exact ⟨by simp [hev], Or.inl hput⟩
    · refine ⟨by simp [heq], Or.inr ⟨⟨⟨c, ?_⟩, hdet⟩, by rw [heq]⟩⟩
      simp
  | replace d =>
    cases hc
    cases ht
    simp only [edit, replace, hw, Bool.false_eq_true, if_false]
    split
    · exact ⟨by simp, Or.inl (putInto_insert ..)⟩
    · next n i _ =>
      exact ⟨by simp, Or.inl ⟨_, i, List.filter_sublist, rfl⟩⟩
  | _ => simp [Edit.content?] at hc

/-- An insertion whose list exists is refused, or it is carried out, or there is no place for it. -/
theorem edit_cases (hc : e.content? = some c) (ht : v.target? s e = some l) :
    c.wouldContainItself s l = true ∧ v.edit s e = (s, [.wouldContainItself]) ∨
      c.wouldContainItself s l = false ∧ .wouldContainItself ∉ (v.edit s e).2 ∧
        (s.PutInto l c (v.edit s e).1 ∨ v.Stranded s e ∧ (v.edit s e).1 = s) := by
  cases hw : c.wouldContainItself s l with
  | true => exact Or.inl ⟨rfl, edit_refused hc ht hw⟩
  | false => exact Or.inr ⟨rfl, edit_allowed hc ht hw⟩

end View
end TemplateTree
