import TemplateTree.Proofs.Related
import TemplateTree.Proofs.Store.Once

/-! Copies of lists. A copy reads as its source, node by node. It is new, and nothing in it is shared,
whatever is shared in the source. -/
namespace TemplateTree

variable {s t : Store} {l : ListId} {n : NodeId} {f g : Forest Occurrence} {o o' : Occurrence}

/-- The nodes have the same label, and below them all labels are the same. -/
def Occurrence.Reads (s t : Store) (o o' : Occurrence) : Prop :=
  o.node.label = o'.node.label ∧ s.labels o.node.children = t.labels o'.node.children

theorem Occurrence.Reads.renderNode (h : o.Reads s t o') (ho : o.node = s.node o.id)
    (ho' : o'.node = t.node o'.id) : t.renderNode o'.id = s.renderNode o.id := by
  rw [Store.renderNode, Store.renderNode, ← ho, ← ho', h.1, h.2]

namespace Store

/-- Where the labels are the same, every node reads as the one in its place. -/
theorem Whole.rel_of_labels (hf : s.Whole f) (hg : t.Whole g)
    (h : f.map (·.node.label) = g.map (·.node.label)) : f.Rel (Occurrence.Reads s t) g := by
  induction f generalizing g with
  | nil => cases g with
    | nil => exact .nil
    | cons => cases h
  | cons o kids rest ihk ihr => cases g with
    | nil => cases h
    | cons o' kids' rest' =>
      obtain ⟨-, hkids, hwk, hwr⟩ := hf
      obtain ⟨-, hkids', hwk', hwr'⟩ := hg
      obtain ⟨hlabel, hbelow, hbeside⟩ := Forest.cons.inj h
      refine .cons ⟨hlabel, ?_⟩ (ihk hwk hwk' hbelow) (ihr hwr hwr' hbeside)
      rw [labels, labels, ← hkids, ← hkids']
      exact hbelow

theorem not_hasList_plantList (s : Store) (g : Forest Label) : ¬ s.HasList (s.plantList g).1 :=
  Nat.not_lt.mpr (extends_plant s g).lists

theorem ids_preorder_plantList (hs : s.Sound) (g : Forest Label) :
    ((s.plantList g).2.2.forest (s.plantList g).1).preorder.map (·.id) =
      (s.plantList g).2.1.preorder := by
  rw [← Forest.preorder_map, ids_plantList hs]

theorem unshared_plantList (hs : s.Sound) (g : Forest Label) :
    (s.plantList g).2.2.Unshared (s.plantList g).1 := by
  have hids := ids_preorder_plantList hs g
  constructor
  · rw [hids]
    exact (fresh_plantList s g).nodes
  · have hchildren : ((s.plantList g).2.2.forest (s.plantList g).1).preorder.map (·.node.children) =
        (s.plantList g).2.1.preorder.map fun n => ((s.plantList g).2.2.node n).children := by
      rw [← hids, List.map_map]
      exact List.map_congr_left fun o ho => congrArg Node.children (occurrence_sound ho).2
    rw [reachedLists, hchildren]
    exact nodup_plantList s g

theorem new_plantList (hs : s.Sound) (g : Forest Label)
    (ho : o ∈ ((s.plantList g).2.2.forest (s.plantList g).1).preorder) :
    ¬ s.HasNode o.id ∧ ¬ s.HasList o.node.children := by
  have hin : o.id ∈ (s.plantList g).2.1.preorder :=
    ids_preorder_plantList hs g ▸ List.mem_map_of_mem ho
  have hfresh := fresh_plantList s g
  rw [(occurrence_sound ho).2]
  exact ⟨hfresh.node _ hin, (hfresh.list _ hin).1⟩

/-- What is new can be changed. -/
theorem Extends.setLabel (h : s.Extends t) (hn : ¬ s.HasNode n) (label : Label) :
    s.Extends (t.setLabel n label) where
  nodes := by simpa [Store.setLabel] using h.nodes
  lists := h.lists
  node m hm := by
    have hne : m ≠ n := fun he => hn (he ▸ hm)
    rw [node_setLabel_of_ne hne, h.node m hm]
  list l hl := h.list l hl

theorem Extends.setList (h : s.Extends t) (hl : ¬ s.HasList l) (ns : List NodeId) :
    s.Extends (t.setList l ns) where
  nodes := h.nodes
  lists := by simpa [Store.setList] using h.lists
  node m hm := by rw [node_setList, h.node m hm]
  list k hk := by
    have hne : k ≠ l := fun he => hl (he ▸ hk)
    rw [list_setList_of_ne hne, h.list k hk]

end Store
end TemplateTree
