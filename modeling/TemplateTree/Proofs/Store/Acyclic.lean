import TemplateTree.Proofs.Store.Growth
import TemplateTree.View.Edit

/-! Which writes make a cycle. Labels and new names never do; a list does exactly when a node is put
into it that owns it. -/
namespace TemplateTree.Store

open Relation (ReflTransGen TransGen)

variable {s t : Store} {n m : NodeId} {l k : ListId} {ns kept : List NodeId} {node : Node}

/-- A cycle runs over edges that lead back to where they start, so only these can be new. -/
theorem acyclic_of_return (hs : s.Acyclic)
    (h : ∀ a b, t.Child a b → ReflTransGen t.Child b a → s.Child a b) : t.Acyclic := by
  have old : ∀ a b, TransGen t.Child a b → ReflTransGen t.Child b a → TransGen s.Child a b := by
    intro a b hab
    induction hab with
    | single hab => exact fun hba => .single (h _ _ hab hba)
    | tail hab hbc ih =>
      intro hca
      exact (ih (.head hbc hca)).tail (h _ _ hbc (hca.trans hab.to_reflTransGen))
  exact fun n hn => hs n (old n n hn .refl)

theorem child_setList (hl : s.HasList l) : (s.setList l ns).Child n m ↔
    if (s.node n).children = l then m ∈ ns else s.Child n m := by
  rw [Child, node_setList]
  split
  · next h => rw [h, list_setList_self hl]
  · next h => rw [list_setList_of_ne h]; rfl

theorem child_setList_of_ne (h : (s.node n).children ≠ l) :
    (s.setList l ns).Child n m ↔ s.Child n m := by
  rw [Child, node_setList, list_setList_of_ne h]
  rfl

/-- Below a node that does not own a list, a write to the list changes nothing. -/
theorem reach_setList (h : ¬ s.Owns n l) (hr : ReflTransGen (s.setList l ns).Child n m) :
    ReflTransGen s.Child n m := by
  induction hr with
  | refl => exact .refl
  | tail _ hbc ih => exact ih.tail ((child_setList_of_ne (fun hl => h ⟨_, ih, hl⟩)).mp hbc)

/-- Whoever owns a list still does, whatever is written to that list. -/
theorem Owns.setList (h : s.Owns n l) (ns : List NodeId) : (s.setList l ns).Owns n l := by
  obtain ⟨m, hr, hl⟩ := h
  induction hr using ReflTransGen.head_induction_on with
  | refl =>
    refine ⟨m, .refl, ?_⟩
    rw [node_setList]
    exact hl
  | @head a b hab _ ih =>
    by_cases ha : (s.node a).children = l
    · refine ⟨a, .refl, ?_⟩
      rw [node_setList]
      exact ha
    · exact ih.of_child ((child_setList_of_ne ha).mpr hab)

theorem owns_setList_iff : (s.setList l ns).Owns n l ↔ s.Owns n l := by
  constructor
  · rintro ⟨m, hr, hl⟩
    by_contra h
    rw [node_setList] at hl
    exact h ⟨m, reach_setList h hr, hl⟩
  · exact fun h => h.setList ns

theorem acyclic_setList (hs : s.Acyclic) (hl : s.HasList l)
    (h : ∀ m ∈ ns, m ∈ s.list l ∨ ¬ s.Owns m l) : (s.setList l ns).Acyclic := by
  refine acyclic_of_return hs (fun a b hab hba => ?_)
  rw [child_setList hl] at hab
  split at hab
  · next ha =>
    rcases h b hab with hb | hb
    · rw [Child, ha]
      exact hb
    · exact absurd ⟨a, reach_setList hb hba, ha⟩ hb
  · exact hab

/-- Putting nodes into a list makes a cycle exactly when one of them owns the list. -/
theorem acyclic_setList_iff (hs : s.Acyclic) (hl : s.HasList l) {new : List NodeId}
    (hsub : ∀ m ∈ ns, m ∈ s.list l ∨ m ∈ new) (hnew : ∀ m ∈ new, m ∈ ns) :
    (s.setList l ns).Acyclic ↔ ∀ m ∈ new, ¬ s.Owns m l := by
  constructor
  · intro ht m hm ho
    obtain ⟨a, hr, ha⟩ := ho.setList ns
    have hback : (s.setList l ns).Child a m := by
      rw [child_setList hl, ← node_setList s l ns, if_pos ha]
      exact hnew m hm
    exact ht m (TransGen.tail' hr hback)
  · intro h
    refine acyclic_setList hs hl (fun m hm => ?_)
    rcases hsub m hm with hold | hin
    · exact Or.inl hold
    · exact Or.inr (h m hin)

theorem closed_setList (hc : s.Closed) (h : ∀ m ∈ ns, s.HasNode m) : (s.setList l ns).Closed where
  children n hn := by
    have hn : s.HasNode n := hn
    rw [node_setList, HasList, Store.setList, Array.size_setIfInBounds]
    exact hc.children n hn
  member k m hm := by
    by_cases hkl : k = l
    · subst hkl
      by_cases hk : s.HasList k
      · rw [list_setList_self hk] at hm
        exact h m hm
      · have hk' : ¬ (s.setList k ns).HasList k := by
          rw [HasList, Store.setList, Array.size_setIfInBounds]
          exact hk
        simp [list_of_not_hasList hk'] at hm
    · rw [list_setList_of_ne hkl] at hm
      exact hc.member k m hm

theorem hasList_setList : (s.setList l ns).HasList k ↔ s.HasList k := by
  rw [HasList, Store.setList, Array.size_setIfInBounds]
  rfl

theorem children_setLabel (s : Store) (n : NodeId) (label : Label) (m : NodeId) :
    ((s.setLabel n label).node m).children = (s.node m).children := by
  by_cases hm : m = n
  · subst hm
    by_cases h : s.HasNode m
    · rw [node_setLabel_self h]
    · have h' : ¬ (s.setLabel m label).HasNode m := by
        rw [HasNode, setLabel, Array.size_setIfInBounds]
        exact h
      rw [node_of_not_hasNode h, node_of_not_hasNode h']
      rfl
  · rw [node_setLabel_of_ne hm]

theorem hasNode_setLabel {label : Label} : (s.setLabel n label).HasNode m ↔ s.HasNode m := by
  rw [HasNode, setLabel, Array.size_setIfInBounds]
  rfl

theorem child_setLabel (s : Store) (n : NodeId) (label : Label) :
    (s.setLabel n label).Child = s.Child := by
  funext a b
  rw [Child, children_setLabel]
  rfl

theorem acyclic_setLabel (hs : s.Acyclic) (n : NodeId) (label : Label) :
    (s.setLabel n label).Acyclic := by
  rw [Acyclic, child_setLabel]
  exact hs

theorem closed_setLabel (hc : s.Closed) (n : NodeId) (label : Label) :
    (s.setLabel n label).Closed where
  children m hm := by
    rw [children_setLabel]
    exact hc.children m (hasNode_setLabel.mp hm)
  member k m hm := hasNode_setLabel.mpr (hc.member k m hm)

theorem child_of_extends (hc : s.Closed) (hst : s.Extends t) (hn : s.HasNode n) :
    t.Child n m ↔ s.Child n m := by
  rw [Child, hst.node n hn, hst.list _ (hc.children n hn)]
  rfl

theorem acyclic_addList (hc : s.Closed) (hs : s.Acyclic) (ns : List NodeId) :
    (s.addList ns).2.Acyclic := by
  refine acyclic_of_return hs (fun a b hab _ => ?_)
  have ha : (s.addList ns).2.HasNode a := hasNode_of_child hab
  exact (child_of_extends hc (extends_addList s ns) ha).mp hab

/-- Nothing leads to a new node, so no cycle runs through it. -/
theorem acyclic_addNode (hc : s.Closed) (hs : s.Acyclic) (node : Node) :
    (s.addNode node).2.Acyclic := by
  have hx := extends_addNode s node
  refine acyclic_of_return hs (fun a b hab hba => ?_)
  have ha : s.HasNode a := by
    rcases hba.cases_tail with rfl | ⟨c, -, hca⟩
    · exact hc.member _ _ hab
    · exact hc.member _ _ hca
  exact (child_of_extends hc hx ha).mp hab

/-- A store in which every name is in use and no node is below itself. -/
structure Sound (s : Store) : Prop where
  closed : s.Closed
  acyclic : s.Acyclic

theorem Sound.addList (h : s.Sound) (hns : ∀ m ∈ ns, s.HasNode m) : (s.addList ns).2.Sound :=
  ⟨closed_addList h.closed hns, acyclic_addList h.closed h.acyclic ns⟩

theorem Sound.addNode (h : s.Sound) (hl : s.HasList node.children) : (s.addNode node).2.Sound :=
  ⟨closed_addNode h.closed hl, acyclic_addNode h.closed h.acyclic node⟩

theorem Sound.plant (h : s.Sound) (f : Forest Label) : (s.plant f).2.Sound :=
  plant_induction (fun _ _ hs hns => hs.addList hns) (fun _ _ hs hl => hs.addNode hl) f h

theorem Sound.plantList (h : s.Sound) (f : Forest Label) : (s.plantList f).2.2.Sound :=
  plantList_induction (fun _ _ hs hns => hs.addList hns) (fun _ _ hs hl => hs.addNode hl) f h

theorem Sound.setLabel (h : s.Sound) (n : NodeId) (label : Label) : (s.setLabel n label).Sound :=
  ⟨closed_setLabel h.closed n label, acyclic_setLabel h.acyclic n label⟩

/-- Nodes may leave a list. -/
theorem Sound.shrink (h : s.Sound) (hsub : ns ⊆ s.list l) : (s.setList l ns).Sound := by
  have hc : (s.setList l ns).Closed :=
    closed_setList h.closed (fun m hm => h.closed.member l m (hsub hm))
  refine ⟨hc, ?_⟩
  by_cases hl : s.HasList l
  · exact acyclic_setList h.acyclic hl (fun m hm => Or.inl (hsub hm))
  · have hnil : ns = [] := by
      rw [list_of_not_hasList hl] at hsub
      exact List.subset_nil.mp hsub
    refine acyclic_of_return h.acyclic (fun a b hab _ => ?_)
    by_cases ha : (s.node a).children = l
    · rw [Child, node_setList, ha, hnil] at hab
      simp [list_of_not_hasList (fun hx => hl (hasList_setList.mp hx))] at hab
    · exact (child_setList_of_ne ha).mp hab

end TemplateTree.Store
