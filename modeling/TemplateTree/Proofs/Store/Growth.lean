import TemplateTree.Proofs.Store.Reach
import TemplateTree.Store.Plant

/-! Stores that grow. New names never touch what is there, and a planted forest reads back as it was
given, from new nodes and new lists only. -/
namespace TemplateTree.Store

variable {s t u : Store} {n m : NodeId} {l k : ListId} {ns : List NodeId} {node : Node}
  {f : Forest Label} {ids : Forest NodeId}

/-- `t` has everything that `s` has, unchanged. -/
structure Extends (s t : Store) : Prop where
  nodes : s.nodes.size ≤ t.nodes.size
  lists : s.lists.size ≤ t.lists.size
  node : ∀ n, s.HasNode n → t.node n = s.node n
  list : ∀ l, s.HasList l → t.list l = s.list l

theorem Extends.refl (s : Store) : s.Extends s :=
  ⟨Nat.le_refl _, Nat.le_refl _, fun _ _ => rfl, fun _ _ => rfl⟩

theorem HasNode.mono (h : s.HasNode n) (hst : s.Extends t) : t.HasNode n :=
  Nat.lt_of_lt_of_le h hst.nodes

theorem HasList.mono (h : s.HasList l) (hst : s.Extends t) : t.HasList l :=
  Nat.lt_of_lt_of_le h hst.lists

theorem Extends.trans (hst : s.Extends t) (htu : t.Extends u) : s.Extends u where
  nodes := Nat.le_trans hst.nodes htu.nodes
  lists := Nat.le_trans hst.lists htu.lists
  node n hn := (htu.node n (hn.mono hst)).trans (hst.node n hn)
  list l hl := (htu.list l (hl.mono hst)).trans (hst.list l hl)

theorem extends_addList (s : Store) (ns : List NodeId) : s.Extends (s.addList ns).2 where
  nodes := Nat.le_refl _
  lists := by simp [addList]
  node n hn := by
    have h : n.index < s.nodes.size := hn
    simp [Store.node, addList, Array.getD_eq_getD_getElem?, h]
  list l hl := by
    have h : l.index < s.lists.size := hl
    simp [Store.list, addList, Array.getD_eq_getD_getElem?, Array.getElem?_push, Nat.ne_of_lt h]

theorem extends_addNode (s : Store) (node : Node) : s.Extends (s.addNode node).2 where
  nodes := by simp [addNode]
  lists := Nat.le_refl _
  node n hn := by
    have h : n.index < s.nodes.size := hn
    simp [Store.node, addNode, Array.getD_eq_getD_getElem?, Array.getElem?_push, Nat.ne_of_lt h]
  list l hl := rfl

theorem list_addList_self (s : Store) (ns : List NodeId) :
    (s.addList ns).2.list (s.addList ns).1 = ns := by
  simp [list, addList, Array.getD_eq_getD_getElem?]

theorem node_addNode_self (s : Store) (node : Node) :
    (s.addNode node).2.node (s.addNode node).1 = node := by
  simp [Store.node, addNode, Array.getD_eq_getD_getElem?]

theorem hasList_addList (s : Store) (ns : List NodeId) :
    (s.addList ns).2.HasList k ↔ s.HasList k ∨ k = (s.addList ns).1 := by
  obtain ⟨i⟩ := k
  simp only [HasList, addList, Array.size_push, ListId.mk.injEq]
  omega

theorem hasNode_addNode (s : Store) (node : Node) :
    (s.addNode node).2.HasNode m ↔ s.HasNode m ∨ m = (s.addNode node).1 := by
  obtain ⟨i⟩ := m
  simp only [HasNode, addNode, Array.size_push, NodeId.mk.injEq]
  omega

theorem closed_addList (hc : s.Closed) (h : ∀ n ∈ ns, s.HasNode n) : (s.addList ns).2.Closed where
  children n hn := by
    have hx := s.extends_addList ns
    rw [hx.node n hn]
    exact (hc.children n hn).mono hx
  member k n hn := by
    rcases (hasList_addList s ns).mp (hasList_of_mem hn) with hk | rfl
    · rw [(s.extends_addList ns).list k hk] at hn
      exact hc.member k n hn
    · rw [list_addList_self] at hn
      exact h n hn

theorem closed_addNode (hc : s.Closed) (h : s.HasList node.children) :
    (s.addNode node).2.Closed where
  children n hn := by
    rcases (hasNode_addNode s node).mp hn with hn | rfl
    · rw [(s.extends_addNode node).node n hn]
      exact hc.children n hn
    · rw [node_addNode_self]
      exact h
  member k n hn := (hc.member k n hn).mono (s.extends_addNode node)

/-- The nodes of the forest stand for the labels: each has its label, and the list of its children
holds the nodes of the next row. -/
def Stands (s : Store) : Forest NodeId → Forest Label → Prop
  | .nil, .nil => True
  | .cons n kids rest, .cons label kidLabels restLabels =>
    (s.node n).label = label ∧ s.HasNode n ∧ s.HasList (s.node n).children ∧
      s.list (s.node n).children = kids.roots ∧ s.Stands kids kidLabels ∧ s.Stands rest restLabels
  | _, _ => False

theorem Stands.mono (h : s.Stands ids f) (hst : s.Extends t) : t.Stands ids f := by
  induction ids generalizing f with
  | nil => cases f with
    | nil => trivial
    | cons => exact h.elim
  | cons n kids rest ihk ihr => cases f with
    | nil => exact h.elim
    | cons label kidLabels restLabels =>
      obtain ⟨hlabel, hn, hl, hroots, hkids, hrest⟩ := h
      rw [Stands, hst.node n hn]
      exact ⟨hlabel, hn.mono hst, hl.mono hst, (hst.list _ hl).trans hroots, ihk hkids, ihr hrest⟩

theorem stands_plant (s : Store) (f : Forest Label) :
    (s.plant f).2.Stands (s.plant f).1 f ∧ s.Extends (s.plant f).2 := by
  induction f generalizing s with
  | nil => exact ⟨trivial, .refl s⟩
  | cons label kids rest ihk ihr =>
    let below := s.plant kids
    let children := below.2.addList below.1.roots
    let added := children.2.addNode ⟨label, children.1⟩
    let beside := added.2.plant rest
    change beside.2.Stands (.cons added.1 below.1 beside.1) _ ∧ s.Extends beside.2
    obtain ⟨hkids, hbelow⟩ := ihk s
    obtain ⟨hrest, hbeside⟩ := ihr added.2
    have hchildren : below.2.Extends children.2 := extends_addList _ _
    have hadded : children.2.Extends added.2 := extends_addNode _ _
    have hn : added.2.HasNode added.1 := (hasNode_addNode _ _).mpr (Or.inr rfl)
    have hl : children.2.HasList children.1 := (hasList_addList _ _).mpr (Or.inr rfl)
    have hnode : beside.2.node added.1 = ⟨label, children.1⟩ :=
      (hbeside.node _ hn).trans (node_addNode_self _ _)
    have hlist : beside.2.list children.1 = below.1.roots :=
      ((hadded.trans hbeside).list _ hl).trans (list_addList_self _ _)
    refine ⟨⟨?_, hn.mono hbeside, ?_, ?_, ?_, hrest⟩,
      hbelow.trans (hchildren.trans (hadded.trans hbeside))⟩
    · rw [hnode]
    · rw [hnode]
      exact hl.mono (hadded.trans hbeside)
    · rw [hnode]
      exact hlist
    · exact hkids.mono (hchildren.trans (hadded.trans hbeside))

theorem extends_plant (s : Store) (f : Forest Label) : s.Extends (s.plant f).2 :=
  (stands_plant s f).2

theorem Stands.roots_hasNode (h : s.Stands ids f) (hn : n ∈ ids.roots) : s.HasNode n := by
  induction ids generalizing f with
  | nil => simp [Forest.roots] at hn
  | cons m kids rest _ ihr => cases f with
    | nil => exact h.elim
    | cons label kidLabels restLabels =>
      obtain ⟨-, hm, -, -, -, hrest⟩ := h
      rcases List.mem_cons.mp hn with rfl | hn
      · exact hm
      · exact ihr hrest hn

/-- Planting is adding lists of names in use, and nodes whose list of children is in use. -/
theorem plant_induction {P : Store → Prop}
    (hlist : ∀ s ns, P s → (∀ n ∈ ns, s.HasNode n) → P (s.addList ns).2)
    (hnode : ∀ s node, P s → s.HasList node.children → P (s.addNode node).2)
    (f : Forest Label) (h : P s) : P (s.plant f).2 := by
  induction f generalizing s with
  | nil => exact h
  | cons label kids rest ihk ihr =>
    have hkids := hlist _ _ (ihk h) (fun n hn => (stands_plant s kids).1.roots_hasNode hn)
    exact ihr (hnode _ ⟨label, _⟩ hkids ((hasList_addList _ _).mpr (Or.inr rfl)))

theorem plantList_eq (s : Store) (f : Forest Label) : s.plantList f =
    (((s.plant f).2.addList (s.plant f).1.roots).1, (s.plant f).1,
      ((s.plant f).2.addList (s.plant f).1.roots).2) := rfl

/-- A forest adds one node and one list for each of its labels. -/
theorem size_plant (s : Store) (f : Forest Label) :
    (s.plant f).2.nodes.size = s.nodes.size + f.preorder.length ∧
      (s.plant f).2.lists.size = s.lists.size + f.preorder.length := by
  induction f generalizing s with
  | nil => exact ⟨rfl, rfl⟩
  | cons label kids rest ihk ihr =>
    let children := (s.plant kids).2.addList (s.plant kids).1.roots
    let added := children.2.addNode ⟨label, children.1⟩
    obtain ⟨hkn, hkl⟩ := ihk s
    obtain ⟨hrn, hrl⟩ := ihr added.2
    have hn : added.2.nodes.size = (s.plant kids).2.nodes.size + 1 := Array.size_push ..
    have hl : added.2.lists.size = (s.plant kids).2.lists.size + 1 := Array.size_push ..
    simp only [Forest.preorder, List.length_cons, List.length_append]
    change (added.2.plant rest).2.nodes.size = _ ∧ (added.2.plant rest).2.lists.size = _
    omega

/-- Nodes that stand for labels unfold to these labels, given a level for each of them. -/
theorem Stands.labels {levels : Nat} (h : s.Stands ids f) (hl : f.preorder.length ≤ levels + 1)
    (l : ListId) : (Forest.ofList (fun n => (⟨n, l, s.node n⟩ : Occurrence))
      (fun n => s.unfold levels (s.node n).children) ids.roots).map (·.node.label) = f := by
  induction ids generalizing f levels l with
  | nil => cases f with
    | nil => rfl
    | cons => exact h.elim
  | cons n kids rest ihk ihr => cases f with
    | nil => exact h.elim
    | cons label kidLabels restLabels =>
      obtain ⟨hlabel, -, -, hroots, hkids, hrest⟩ := h
      simp only [Forest.preorder, List.length_cons, List.length_append] at hl
      have hrow : (s.unfold levels (s.node n).children).map (·.node.label) = kidLabels := by
        cases levels with
        | zero =>
          cases kidLabels with
          | nil => rfl
          | cons => simp only [Forest.preorder, List.length_cons] at hl; omega
        | succ levels =>
          rw [unfold, hroots]
          exact ihk hkids (by omega) _
      have hbeside := @ihr restLabels levels hrest (by omega) l
      simp only [Forest.roots, Forest.ofList, Forest.map, hrow, hlabel, hbeside]

/-- A planted forest reads back as it was given, whatever else the store holds. -/
theorem labels_plantList (s : Store) (f : Forest Label) :
    (s.plantList f).2.2.labels (s.plantList f).1 = f := by
  rw [plantList_eq]
  have hx := extends_addList (s.plant f).2 (s.plant f).1.roots
  have hn := (size_plant s f).1
  have hs : ((s.plant f).2.addList (s.plant f).1.roots).2.nodes.size =
    (s.plant f).2.nodes.size := rfl
  have hst := (stands_plant s f).1.mono hx
  simp only [Store.labels, forest]
  cases hc : ((s.plant f).2.addList (s.plant f).1.roots).2.nodes.size with
  | zero =>
    cases f with
    | nil => rfl
    | cons => simp only [Forest.preorder, List.length_cons] at hn; omega
  | succ levels =>
    rw [unfold, list_addList_self]
    exact hst.labels (by omega) _

theorem extends_plantList (s : Store) (f : Forest Label) : s.Extends (s.plantList f).2.2 :=
  (extends_plant s f).trans (extends_addList _ _)

theorem plantList_induction {P : Store → Prop}
    (hlist : ∀ s ns, P s → (∀ n ∈ ns, s.HasNode n) → P (s.addList ns).2)
    (hnode : ∀ s node, P s → s.HasList node.children → P (s.addNode node).2)
    (f : Forest Label) (h : P s) : P (s.plantList f).2.2 :=
  hlist _ _ (plant_induction hlist hnode f h)
    (fun _ hn => (stands_plant s f).1.roots_hasNode hn)

end TemplateTree.Store
