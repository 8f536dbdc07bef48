import TemplateTree.Proofs.Store.Planted
import TemplateTree.Proofs.Store.Twins

/-! Lists under which no node stands twice. Nothing there is below itself, so the traversal of such a
list shows every node with all that is below it, whatever the rest of the store is. -/
namespace TemplateTree.Store

variable {s : Store} {n : NodeId} {l : ListId} {ns : List NodeId} {f : Forest Occurrence}

/-- However deep one looks, no node stands twice under the list. -/
def Once (s : Store) (l : ListId) : Prop :=
  ∀ levels, ((s.unfold levels l).preorder.map (·.id)).Nodup

theorem ids_unfold_succ (s : Store) (levels : Nat) (l : ListId) :
    (s.unfold (levels + 1) l).preorder.map (·.id) = (s.list l).flatMap fun n =>
      n :: (s.unfold levels (s.node n).children).preorder.map (·.id) := by
  rw [unfold, Forest.preorder_ofList, List.map_flatMap]
  rfl

theorem ids_below_sublist (hn : n ∈ s.list l) (levels : Nat) :
    (n :: (s.unfold levels (s.node n).children).preorder.map (·.id)).Sublist
      ((s.unfold (levels + 1) l).preorder.map (·.id)) := by
  obtain ⟨front, back, hsplit⟩ := List.append_of_mem hn
  rw [ids_unfold_succ, hsplit, List.flatMap_append, List.flatMap_cons]
  exact ((List.sublist_append_left ..).trans (List.sublist_append_right ..))

theorem Once.children (h : s.Once l) (hn : n ∈ s.list l) : s.Once (s.node n).children :=
  fun levels => ((h (levels + 1)).sublist (ids_below_sublist hn levels)).of_cons

theorem mem_ids_of_path (h : s.Path l ns) (hn : n ∈ ns) :
    n ∈ (s.unfold ns.length l).preorder.map (·.id) := by
  induction ns generalizing l with
  | nil => cases hn
  | cons m ns ih =>
    apply (ids_below_sublist h.1 ns.length).subset
    rcases List.mem_cons.mp hn with rfl | hn
    · exact List.mem_cons_self
    · exact List.mem_cons_of_mem _ (ih h.2 hn)

theorem Once.path_nodup (h : s.Once l) (hp : s.Path l ns) : ns.Nodup := by
  induction ns generalizing l with
  | nil => exact List.nodup_nil
  | cons m ns ih =>
    have hbelow := (h (ns.length + 1)).sublist (ids_below_sublist hp.1 ns.length)
    refine List.nodup_cons.mpr ⟨fun hm => ?_, ih (h.children hp.1) hp.2⟩
    exact (List.nodup_cons.mp hbelow).1 (mem_ids_of_path hp.2 hm)

theorem Once.path_length_le (h : s.Once l) (hc : s.Closed) (hp : s.Path l ns) :
    ns.length ≤ s.nodes.size :=
  length_le_of_nodup (h.path_nodup hp) fun _ hm => path_hasNode hc hp hm

/-- Enough levels show what the traversal shows. -/
theorem unfold_eq_forest {levels : Nat} (h : ∀ ns, s.Path l ns → ns.length ≤ levels)
    (h' : ∀ ns, s.Path l ns → ns.length ≤ s.nodes.size) : s.unfold levels l = s.forest l := by
  rcases Nat.le_total levels s.nodes.size with hle | hle
  · obtain ⟨more, hmore⟩ := Nat.exists_eq_add_of_le hle
    rw [forest, hmore, unfold_add h]
  · obtain ⟨more, rfl⟩ := Nat.exists_eq_add_of_le hle
    rw [unfold_add h', forest]

/-- Every node of the forest has all that is below it as its children there. -/
def Whole (s : Store) : Forest Occurrence → Prop
  | .nil => True
  | .cons o kids rest =>
    o.node = s.node o.id ∧ kids = s.forest o.node.children ∧ s.Whole kids ∧ s.Whole rest

/-- Nodes side by side, each with all that is below it. -/
theorem whole_row {kids : NodeId → Forest Occurrence}
    (h : ∀ n ∈ ns, kids n = s.forest (s.node n).children ∧ s.Whole (kids n)) (l : ListId) :
    s.Whole (Forest.ofList (fun n => ⟨n, l, s.node n⟩) kids ns) := by
  induction ns with
  | nil => trivial
  | cons n ns ih =>
    obtain ⟨hkids, hwhole⟩ := h n List.mem_cons_self
    exact ⟨rfl, hkids, hwhole, ih fun m hm => h m (List.mem_cons_of_mem _ hm)⟩

theorem Once.whole_unfold (h : s.Once l) (hc : s.Closed) {levels : Nat}
    (hlevels : ∀ ns, s.Path l ns → ns.length ≤ levels) : s.Whole (s.unfold levels l) := by
  induction levels generalizing l with
  | zero => trivial
  | succ levels ih =>
    refine whole_row (fun n hn => ?_) l
    have hbelow : ∀ ns, s.Path (s.node n).children ns → ns.length ≤ levels := fun ns hp =>
      Nat.le_of_succ_le_succ (hlevels (n :: ns) ⟨hn, hp⟩)
    have honce := h.children hn
    exact ⟨unfold_eq_forest hbelow fun _ hp => honce.path_length_le hc hp, ih honce hbelow⟩

theorem Once.whole (h : s.Once l) (hc : s.Closed) : s.Whole (s.forest l) :=
  h.whole_unfold hc fun _ hp => h.path_length_le hc hp

/-- Without cycles it is the same for lists under which nodes stand several times. -/
theorem Sound.whole (hs : s.Sound) (l : ListId) : s.Whole (s.forest l) := by
  induction l using list_induction hs.closed hs.acyclic with
  | step l ih =>
    rw [forest_eq hs.closed hs.acyclic]
    exact whole_row (fun n hn => ⟨rfl, ih n hn⟩) l

theorem ids_unfold_sublist (s : Store) (levels : Nat) (l : ListId) :
    ((s.unfold levels l).preorder.map (·.id)).Sublist
      ((s.unfold (levels + 1) l).preorder.map (·.id)) := by
  induction levels generalizing l with
  | zero => exact List.nil_sublist _
  | succ levels ih =>
    rw [ids_unfold_succ, ids_unfold_succ]
    induction s.list l with
    | nil => exact .slnil
    | cons n ns ihns => exact ((ih _).cons_cons n).append ihns

theorem once_of_nodup (hs : s.Sound) (h : ((s.forest l).preorder.map (·.id)).Nodup) :
    s.Once l := by
  intro levels
  have hmore : ∀ more, ((s.unfold levels l).preorder.map (·.id)).Sublist
      ((s.unfold (levels + more) l).preorder.map (·.id)) := by
    intro more
    induction more with
    | zero => exact List.Sublist.refl _
    | succ more ih => exact ih.trans (ids_unfold_sublist s _ l)
  refine h.sublist ((hmore s.nodes.size).trans ?_)
  rw [unfold_of_le hs.closed hs.acyclic (Nat.le_add_left ..)]

/-- Nodes that stand for the same labels are the same when they begin with the same row. -/
theorem Stands.eq_of_roots {ids ids' : Forest NodeId} {g : Forest Label} (h : s.Stands ids g)
    (h' : s.Stands ids' g) (hroots : ids.roots = ids'.roots) : ids = ids' := by
  induction ids generalizing ids' g with
  | nil => cases ids' with
    | nil => rfl
    | cons => cases hroots
  | cons n kids rest ihk ihr => cases g with
    | nil => exact h.elim
    | cons label kidLabels restLabels => cases ids' with
      | nil => cases hroots
      | cons n' kids' rest' =>
        obtain ⟨-, -, -, hkidRoots, hkids, hrest⟩ := h
        obtain ⟨-, -, -, hkidRoots', hkids', hrest'⟩ := h'
        obtain ⟨rfl, hrestRoots⟩ := List.cons.inj hroots
        rw [ihk hkids hkids' (hkidRoots.symm.trans hkidRoots'), ihr hrest hrest' hrestRoots]

/-- The nodes under the list of a planted document are those that were planted. -/
theorem ids_plantList (hs : s.Sound) (g : Forest Label) :
    ((s.plantList g).2.2.forest (s.plantList g).1).map (·.id) = (s.plantList g).2.1 := by
  have ht := hs.plantList g
  have hstands := stands_forest ht (s.plantList g).1
  rw [labels_plantList] at hstands
  exact hstands.eq_of_roots (stands_plantList s g) ((roots_forest ht _).trans (list_plantList s g))

/-- Nothing stands twice in a document that was planted. -/
theorem once_plantList (hs : s.Sound) (g : Forest Label) :
    (s.plantList g).2.2.Once (s.plantList g).1 := by
  refine once_of_nodup (hs.plantList g) ?_
  rw [← Forest.preorder_map, ids_plantList hs]
  exact (fresh_plantList s g).nodes

end TemplateTree.Store
