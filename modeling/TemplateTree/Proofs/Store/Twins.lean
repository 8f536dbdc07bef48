import TemplateTree.Proofs.Store.Alike
import TemplateTree.Proofs.Store.Places
import TemplateTree.Proofs.Store.Planted

/-! Two forests of nodes that stand for the same labels. Where no name stands twice on either side, they
are alike, node by node. -/
namespace TemplateTree

open List (Forall₂)

variable {s t : Store} {n n' : NodeId} {l l' : ListId} {f : Forest Label} {ids ids' : Forest NodeId}
  {ps : Forest (NodeId × NodeId)}

/-- Pairs in which nothing stands twice on either side say the same of both sides. -/
theorem eq_iff_eq_of_nodup {α β : Type} {ps : List (α × β)} (hfst : (ps.map Prod.fst).Nodup)
    (hsnd : (ps.map Prod.snd).Nodup) {a a' : α} {b b' : β} (h : (a, b) ∈ ps) (h' : (a', b') ∈ ps) :
    a = a' ↔ b = b' := by
  constructor
  · intro he
    exact congrArg Prod.snd (List.inj_on_of_nodup_map hfst h h' he)
  · intro he
    exact congrArg Prod.fst (List.inj_on_of_nodup_map hsnd h h' he)

namespace Store

/-- In the forest under the list no node stands twice, and no two nodes have the same list. -/
structure Unshared (s : Store) (l : ListId) : Prop where
  nodes : ((s.forest l).preorder.map (·.id)).Nodup
  lists : (s.reachedLists l).Nodup

theorem roots_forest (hs : s.Sound) (l : ListId) : ((s.forest l).map (·.id)).roots = s.list l := by
  rw [forest_eq hs.closed hs.acyclic, Forest.roots_map, Forest.roots_ofList, List.map_map]
  exact List.map_id _

/-- The nodes under a list stand for the labels that are read there. -/
theorem stands_forest (hs : s.Sound) (l : ListId) :
    s.Stands ((s.forest l).map (·.id)) (s.labels l) := by
  induction l using list_induction hs.closed hs.acyclic with
  | step l ih =>
    have row : ∀ ns : List NodeId, (∀ n ∈ ns, n ∈ s.list l) →
        s.Stands ((Forest.ofList (fun n => (⟨n, l, s.node n⟩ : Occurrence))
            (fun n => s.forest (s.node n).children) ns).map (·.id))
          ((Forest.ofList (fun n => (⟨n, l, s.node n⟩ : Occurrence))
            (fun n => s.forest (s.node n).children) ns).map (·.node.label)) := by
      intro ns
      induction ns with
      | nil => exact fun _ => trivial
      | cons n ns ihns =>
        intro hns
        have hn : n ∈ s.list l := hns n (by simp)
        have hin : s.HasNode n := hs.closed.member l n hn
        exact ⟨rfl, hin, hs.closed.children n hin, (roots_forest hs _).symm, ih n hn,
          ihns fun m hm => hns m (by simp [hm])⟩
    rw [labels, forest_eq hs.closed hs.acyclic]
    exact row (s.list l) fun _ h => h

/-- What stands for the same labels can be paired, place by place. -/
theorem Stands.exists_pairs (h : s.Stands ids f) (h' : t.Stands ids' f) :
    ∃ ps : Forest (NodeId × NodeId), ps.map Prod.fst = ids ∧ ps.map Prod.snd = ids' := by
  induction ids generalizing ids' f with
  | nil => cases f with
    | nil => cases ids' with
      | nil => exact ⟨.nil, rfl, rfl⟩
      | cons => exact h'.elim
    | cons => exact h.elim
  | cons n kids rest ihk ihr => cases f with
    | nil => exact h.elim
    | cons label kidLabels restLabels => cases ids' with
      | nil => exact h'.elim
      | cons n' kids' rest' =>
        obtain ⟨-, -, -, -, hkids, hrest⟩ := h
        obtain ⟨-, -, -, -, hkids', hrest'⟩ := h'
        obtain ⟨ks, rfl, rfl⟩ := ihk hkids hkids'
        obtain ⟨rs, rfl, rfl⟩ := ihr hrest hrest'
        exact ⟨.cons (n, n') ks rs, rfl, rfl⟩

/-- Two nodes in use with the same label, over lists in use that correspond. -/
structure Twin (s t : Store) (P : NodeId → NodeId → Prop) (n n' : NodeId) : Prop where
  hasNode : s.HasNode n ∧ t.HasNode n'
  hasList : s.HasList (s.node n).children ∧ t.HasList (t.node n').children
  label : (s.node n).label = (t.node n').label
  members : Forall₂ P (s.list (s.node n).children) (t.list (t.node n').children)

theorem forall₂_roots {P : NodeId → NodeId → Prop} (hP : ∀ p ∈ ps.preorder, P p.1 p.2) :
    Forall₂ P (ps.map Prod.fst).roots (ps.map Prod.snd).roots := by
  rw [Forest.roots_map, Forest.roots_map, List.forall₂_map_left_iff, List.forall₂_map_right_iff]
  exact List.forall₂_same.mpr fun p hp => hP p (Forest.mem_preorder_of_roots hp)

theorem Stands.twin {P : NodeId → NodeId → Prop} (h : s.Stands (ps.map Prod.fst) f)
    (h' : t.Stands (ps.map Prod.snd) f) (hP : ∀ p ∈ ps.preorder, P p.1 p.2) :
    ∀ p ∈ ps.preorder, s.Twin t P p.1 p.2 := by
  induction ps generalizing f with
  | nil => simp [Forest.preorder]
  | cons q kids rest ihk ihr => cases f with
    | nil => exact h.elim
    | cons label kidLabels restLabels =>
      obtain ⟨hlabel, hn, hl, hroots, hkids, hrest⟩ := h
      obtain ⟨hlabel', hn', hl', hroots', hkids', hrest'⟩ := h'
      have hPk : ∀ p ∈ kids.preorder, P p.1 p.2 := fun p hp =>
        hP p (Forest.mem_preorder_cons.mpr (Or.inr (Or.inl hp)))
      have hPr : ∀ p ∈ rest.preorder, P p.1 p.2 := fun p hp =>
        hP p (Forest.mem_preorder_cons.mpr (Or.inr (Or.inr hp)))
      intro p hp
      rcases Forest.mem_preorder_cons.mp hp with rfl | hp | hp
      · refine ⟨⟨hn, hn'⟩, ⟨hl, hl'⟩, hlabel.trans hlabel'.symm, ?_⟩
        rw [hroots, hroots']
        exact forall₂_roots hPk
      · exact ihk hkids hkids' hPk p hp
      · exact ihr hrest hrest' hPr p hp

/-- The pairs, and the lists that belong to them, with two lists on top. -/
def pairing (s t : Store) (l l' : ListId) (ps : List (NodeId × NodeId)) : Pairing where
  node n n' := (n, n') ∈ ps
  list k k' := (k, k') ∈ (l, l') :: ps.map fun p => ((s.node p.1).children, (t.node p.2).children)

/-- Nodes that stand for the same labels are alike when no name stands twice. -/
theorem Stands.alike (h : s.Stands (ps.map Prod.fst) f) (h' : t.Stands (ps.map Prod.snd) f)
    (hl : s.HasList l) (hl' : t.HasList l') (hroots : s.list l = (ps.map Prod.fst).roots)
    (hroots' : t.list l' = (ps.map Prod.snd).roots)
    (hnodes : (ps.preorder.map Prod.fst).Nodup) (hnodes' : (ps.preorder.map Prod.snd).Nodup)
    (hlists : (l :: (ps.preorder.map Prod.fst).map fun n => (s.node n).children).Nodup)
    (hlists' : (l' :: (ps.preorder.map Prod.snd).map fun n => (t.node n).children).Nodup) :
    Alike (pairing s t l l' ps.preorder) s t := by
  -- the pairs themselves are the relation that the members are to be in
  have htwin := h.twin h' (P := (pairing s t l l' ps.preorder).node) fun _ hp => hp
  have hlist : ∀ {k k'}, (pairing s t l l' ps.preorder).list k k' → (k = l ∧ k' = l') ∨
      ∃ p ∈ ps.preorder, (s.node p.1).children = k ∧ (t.node p.2).children = k' := by
    intro k k' hk
    rcases List.mem_cons.mp hk with hk | hk
    · exact Or.inl (Prod.mk.inj hk)
    · obtain ⟨p, hp, he⟩ := List.mem_map.mp hk
      exact Or.inr ⟨p, hp, Prod.mk.inj he⟩
  refine ⟨fun hn => (htwin _ hn).hasNode, fun hk => ?_, ?_, ?_, fun hn => (htwin _ hn).label, ?_,
    fun hk => ?_⟩
  · rcases hlist hk with ⟨rfl, rfl⟩ | ⟨p, hp, rfl, rfl⟩
    · exact ⟨hl, hl'⟩
    · exact (htwin p hp).hasList
  · exact fun hn hm => eq_iff_eq_of_nodup hnodes hnodes' hn hm
  · refine fun hk hj => eq_iff_eq_of_nodup ?_ ?_ hk hj
    · simpa [Function.comp_def] using hlists
    · simpa [Function.comp_def] using hlists'
  · exact fun hn => List.mem_cons_of_mem _ (List.mem_map_of_mem hn)
  · rcases hlist hk with ⟨rfl, rfl⟩ | ⟨p, hp, rfl, rfl⟩
    · rw [hroots, hroots']
      exact forall₂_roots fun _ hp => hp
    · exact (htwin p hp).members

/-- What is planted from the labels under a list is alike to what is under the list, if nothing there
is shared. -/
theorem Unshared.alike_plantList (hu : s.Unshared l) (hs : s.Sound) (hl : s.HasList l) :
    let planted := s.plantList (s.labels l)
    ∃ ps : List (NodeId × NodeId), ps.map Prod.fst = (s.forest l).preorder.map (·.id) ∧
      ps.map Prod.snd = planted.2.1.preorder ∧
      Alike (pairing s planted.2.2 l planted.1 ps) s planted.2.2 := by
  intro planted
  have hstands := stands_forest hs l
  have hstands' : planted.2.2.Stands planted.2.1 (s.labels l) := stands_plantList s _
  obtain ⟨ps, hfst, hsnd⟩ := hstands.exists_pairs hstands'
  have hids : ps.preorder.map Prod.fst = (s.forest l).preorder.map (·.id) := by
    rw [← Forest.preorder_map, hfst, Forest.preorder_map]
  have hcopies : ps.preorder.map Prod.snd = planted.2.1.preorder := by
    rw [← Forest.preorder_map, hsnd]
  have hchildren : ((s.forest l).preorder.map (·.id)).map (fun n => (s.node n).children) =
      (s.forest l).preorder.map (·.node.children) := by
    rw [List.map_map]
    exact List.map_congr_left fun o ho => congrArg Node.children (occurrence_sound ho).2.symm
  refine ⟨ps.preorder, hids, hcopies, ?_⟩
  rw [← hfst] at hstands
  rw [← hsnd] at hstands'
  refine hstands.alike hstands' hl ((hasList_addList _ _).mpr (Or.inr rfl)) ?_ ?_ ?_ ?_ ?_ ?_
  · rw [hfst, roots_forest hs]
  · rw [hsnd]
    exact list_plantList s _
  · rw [hids]
    exact hu.nodes
  · rw [hcopies]
    exact (fresh_plantList s _).nodes
  · rw [hids, hchildren]
    exact hu.lists
  · rw [hcopies]
    exact nodup_plantList s _

end Store
end TemplateTree
