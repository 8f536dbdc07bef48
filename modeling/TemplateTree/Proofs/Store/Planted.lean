import TemplateTree.Proofs.Store.Growth
import Mathlib.Data.List.Nodup

/-! The names of a planted forest. No name is given twice, and no node but those of the forest is
added. -/
namespace TemplateTree.Store

variable {s t u : Store} {n : NodeId} {ns ms : List NodeId} {f : Forest Label}

/-- The nodes that `t` has and `s` does not, each of them once, over new lists that no two of them
share. -/
structure Fresh (s t : Store) (ns : List NodeId) : Prop where
  hasNode : ∀ n, t.HasNode n ↔ s.HasNode n ∨ n ∈ ns
  node : ∀ n ∈ ns, ¬ s.HasNode n
  list : ∀ n ∈ ns, ¬ s.HasList (t.node n).children ∧ t.HasList (t.node n).children
  nodes : ns.Nodup
  lists : (ns.map fun n => (t.node n).children).Nodup

theorem Fresh.nil (s : Store) : s.Fresh s [] where
  hasNode n := by simp
  node := by simp
  list := by simp
  nodes := List.nodup_nil
  lists := List.nodup_nil

theorem Fresh.perm (h : s.Fresh t ns) (hp : ns.Perm ms) : s.Fresh t ms where
  hasNode n := by rw [h.hasNode, hp.mem_iff]
  node n hn := h.node n (hp.mem_iff.mpr hn)
  list n hn := h.list n (hp.mem_iff.mpr hn)
  nodes := hp.nodup_iff.mp h.nodes
  lists := (hp.map _).nodup_iff.mp h.lists

/-- What is new at a later time is new beside what was new before. -/
theorem Fresh.append (h : s.Fresh t ns) (h' : t.Fresh u ms) (hst : s.Extends t) (htu : t.Extends u) :
    s.Fresh u (ns ++ ms) := by
  have hold : ∀ n ∈ ns, t.HasNode n := fun n hn => (h.hasNode n).mpr (Or.inr hn)
  have hkept : (ns.map fun n => (u.node n).children) = ns.map fun n => (t.node n).children :=
    List.map_congr_left fun n hn => by rw [htu.node n (hold n hn)]
  refine ⟨fun n => ?_, fun n hn => ?_, fun n hn => ?_, ?_, ?_⟩
  · rw [h'.hasNode, h.hasNode, List.mem_append, or_assoc]
  · rcases List.mem_append.mp hn with hn | hn
    · exact h.node n hn
    · exact fun hs => h'.node n hn (hs.mono hst)
  · rcases List.mem_append.mp hn with hn | hn
    · rw [htu.node n (hold n hn)]
      exact ⟨(h.list n hn).1, (h.list n hn).2.mono htu⟩
    · exact ⟨fun hs => (h'.list n hn).1 (hs.mono hst), (h'.list n hn).2⟩
  · refine List.nodup_append'.mpr ⟨h.nodes, h'.nodes, fun n hn hm => ?_⟩
    exact h'.node n hm (hold n hn)
  · rw [List.map_append, hkept]
    refine List.nodup_append'.mpr ⟨h.lists, h'.lists, fun l hl hl' => ?_⟩
    obtain ⟨n, hn, rfl⟩ := List.mem_map.mp hl
    obtain ⟨m, hm, he⟩ := List.mem_map.mp hl'
    exact (h'.list m hm).1 (he ▸ (h.list n hn).2)

/-- A node over a new list. -/
theorem fresh_addOver (s : Store) (label : Label) (ns : List NodeId) :
    s.Fresh ((s.addList ns).2.addNode ⟨label, (s.addList ns).1⟩).2
      [((s.addList ns).2.addNode ⟨label, (s.addList ns).1⟩).1] where
  hasNode n := by
    rw [hasNode_addNode, List.mem_singleton]
    rfl
  node n hn := by
    rw [List.mem_singleton.mp hn]
    exact Nat.lt_irrefl _
  list n hn := by
    rw [List.mem_singleton.mp hn, node_addNode_self]
    exact ⟨Nat.lt_irrefl _, (hasList_addList s ns).mpr (Or.inr rfl)⟩
  nodes := List.nodup_singleton _
  lists := List.nodup_singleton _

theorem fresh_plant (s : Store) (f : Forest Label) :
    s.Fresh (s.plant f).2 (s.plant f).1.preorder := by
  induction f generalizing s with
  | nil => exact .nil s
  | cons label kids rest ihk ihr =>
    let below := s.plant kids
    let children := below.2.addList below.1.roots
    let added := children.2.addNode ⟨label, children.1⟩
    let beside := added.2.plant rest
    have hadded : below.2.Extends added.2 := (extends_addList _ _).trans (extends_addNode _ _)
    have hbelow : s.Extends below.2 := extends_plant s kids
    have hnew := (ihk s).append (fresh_addOver below.2 label below.1.roots) hbelow hadded
    have hall := hnew.append (ihr added.2) (hbelow.trans hadded) (extends_plant _ rest)
    -- an element is named after what is inside it, but stands before it
    refine hall.perm ?_
    change (below.1.preorder ++ [added.1] ++ beside.1.preorder).Perm
      (added.1 :: (below.1.preorder ++ beside.1.preorder))
    rw [List.append_assoc]
    exact List.perm_middle

theorem fresh_plantList (s : Store) (f : Forest Label) :
    s.Fresh (s.plantList f).2.2 (s.plantList f).2.1.preorder := by
  have h := fresh_plant s f
  have hx := extends_addList (s.plant f).2 (s.plant f).1.roots
  have hnone : (s.plant f).2.Fresh ((s.plant f).2.addList (s.plant f).1.roots).2 [] :=
    ⟨fun n => by simp [HasNode, addList], by simp, by simp, List.nodup_nil, List.nodup_nil⟩
  have hall := h.append hnone (extends_plant s f) hx
  rwa [List.append_nil] at hall

theorem stands_plantList (s : Store) (f : Forest Label) :
    (s.plantList f).2.2.Stands (s.plantList f).2.1 f :=
  (stands_plant s f).1.mono (extends_addList _ _)

theorem list_plantList (s : Store) (f : Forest Label) :
    (s.plantList f).2.2.list (s.plantList f).1 = (s.plantList f).2.1.roots :=
  list_addList_self _ _

/-- The list of the roots is none of the lists below it. -/
theorem nodup_plantList (s : Store) (f : Forest Label) :
    ((s.plantList f).1 ::
      (s.plantList f).2.1.preorder.map fun n => ((s.plantList f).2.2.node n).children).Nodup := by
  refine List.nodup_cons.mpr ⟨fun h => ?_, (fresh_plantList s f).lists⟩
  obtain ⟨n, hn, he⟩ := List.mem_map.mp h
  have hfresh := fresh_plant s f
  have hnode : (s.plantList f).2.2.node n = (s.plant f).2.node n :=
    (extends_addList _ _).node n ((hfresh.hasNode n).mpr (Or.inr hn))
  have hold : (s.plant f).2.HasList (s.plantList f).1 := by
    rw [← he, hnode]
    exact (hfresh.list n hn).2
  exact Nat.lt_irrefl _ hold

end TemplateTree.Store
