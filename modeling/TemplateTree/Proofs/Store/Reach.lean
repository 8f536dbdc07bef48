import TemplateTree.Store.Unfold
import Mathlib.Data.List.Nodup
import Mathlib.Data.List.Perm.Subperm
import Mathlib.Logic.Relation

/-! What a list reaches. In a closed store without cycles a path is no longer than the store, so the
levels that bound a traversal never cut it off. -/
namespace TemplateTree

theorem Forest.ofList_congr {α β : Type} {label label' : β → α} {children children' : β → Forest α}
    {bs : List β} (hl : ∀ b ∈ bs, label b = label' b) (hc : ∀ b ∈ bs, children b = children' b) :
    Forest.ofList label children bs = Forest.ofList label' children' bs := by
  induction bs with
  | nil => rfl
  | cons b r ih =>
    rw [Forest.ofList, Forest.ofList, hl b (by simp), hc b (by simp),
      ih (fun x hx => hl x (by simp [hx])) (fun x hx => hc x (by simp [hx]))]

theorem Forest.preorder_ofList {α β : Type} (label : β → α) (children : β → Forest α)
    (bs : List β) : (Forest.ofList label children bs).preorder =
      bs.flatMap fun b => label b :: (children b).preorder := by
  induction bs with
  | nil => rfl
  | cons b r ih => rw [Forest.ofList, Forest.preorder, ih]; simp

theorem Forest.map_ofList {α β γ : Type} (f : α → γ) (label : β → α) (children : β → Forest α)
    (bs : List β) : (Forest.ofList label children bs).map f =
      Forest.ofList (fun b => f (label b)) (fun b => (children b).map f) bs := by
  induction bs with
  | nil => rfl
  | cons b r ih => rw [Forest.ofList, Forest.map, ih, Forest.ofList]

namespace Store

variable {s : Store} {n m : NodeId} {l k target : ListId} {ns : List NodeId}

/-- The name is in use. -/
def HasNode (s : Store) (n : NodeId) : Prop := n.index < s.nodes.size

def HasList (s : Store) (l : ListId) : Prop := l.index < s.lists.size

/-- Every name that the store mentions is in use. -/
structure Closed (s : Store) : Prop where
  children : ∀ n, s.HasNode n → s.HasList (s.node n).children
  member : ∀ l, ∀ n ∈ s.list l, s.HasNode n

/-- `m` stands among the children of `n`. -/
def Child (s : Store) (n m : NodeId) : Prop := m ∈ s.list (s.node n).children

/-- No node is below itself. -/
def Acyclic (s : Store) : Prop := ∀ n, ¬ Relation.TransGen s.Child n n

/-- The list holds the children of `n` or of a node below it. -/
def Owns (s : Store) (n : NodeId) (l : ListId) : Prop :=
  ∃ m, Relation.ReflTransGen s.Child n m ∧ (s.node m).children = l

/-- The node stands in the list or below a node in it. -/
def Reaches (s : Store) (l : ListId) (n : NodeId) : Prop :=
  ∃ m ∈ s.list l, Relation.ReflTransGen s.Child m n

theorem list_of_not_hasList (h : ¬ s.HasList l) : s.list l = [] := by
  simp [list, Array.getD_eq_getD_getElem?, Array.getElem?_eq_none (Nat.not_lt.mp h)]

theorem node_of_not_hasNode (h : ¬ s.HasNode n) : s.node n = ⟨default, ⟨s.lists.size⟩⟩ := by
  simp [node, Array.getD_eq_getD_getElem?, Array.getElem?_eq_none (Nat.not_lt.mp h)]

theorem hasList_of_mem (h : n ∈ s.list l) : s.HasList l := by
  by_contra hl
  simp [list_of_not_hasList hl] at h

/-- A name that is not in use has no children. -/
theorem hasNode_of_child (h : s.Child n m) : s.HasNode n := by
  by_contra hn
  have hl := hasList_of_mem h
  rw [node_of_not_hasNode hn] at hl
  exact Nat.lt_irrefl _ hl

theorem Owns.of_child (h : s.Child n m) (ho : s.Owns m l) : s.Owns n l := by
  obtain ⟨a, ha, hl⟩ := ho
  exact ⟨a, .head h ha, hl⟩

theorem owns_children (s : Store) (n : NodeId) : s.Owns n (s.node n).children := ⟨n, .refl, rfl⟩

/-- A node owns a list when its own children are that list or one of them owns it. -/
theorem owns_iff_child : s.Owns n l ↔ (s.node n).children = l ∨ ∃ m, s.Child n m ∧ s.Owns m l := by
  constructor
  · rintro ⟨a, ha, hl⟩
    rcases ha.cases_head with rfl | ⟨m, hm, ha⟩
    · exact Or.inl hl
    · exact Or.inr ⟨m, hm, a, ha, hl⟩
  · rintro (rfl | ⟨m, hm, ho⟩)
    · exact s.owns_children n
    · exact ho.of_child hm

/-- Nodes each of which is a child of the one before it; the first one stands in the list. -/
def Path (s : Store) : ListId → List NodeId → Prop
  | _, [] => True
  | l, n :: ns => n ∈ s.list l ∧ s.Path (s.node n).children ns

theorem path_below (h : s.Path (s.node n).children ns) (hm : m ∈ ns) :
    Relation.TransGen s.Child n m := by
  induction ns generalizing n with
  | nil => simp at hm
  | cons a ns ih =>
    obtain ⟨ha, hs⟩ := h
    rcases List.mem_cons.mp hm with rfl | hm
    · exact .single ha
    · exact .head ha (ih hs hm)

theorem path_nodup (hs : s.Acyclic) (h : s.Path l ns) : ns.Nodup := by
  induction ns generalizing l with
  | nil => exact List.nodup_nil
  | cons n ns ih =>
    rw [List.nodup_cons]
    exact ⟨fun hn => hs n (path_below h.2 hn), ih h.2⟩

theorem path_hasNode (hc : s.Closed) (h : s.Path l ns) (hm : m ∈ ns) : s.HasNode m := by
  induction ns generalizing l with
  | nil => simp at hm
  | cons n ns ih =>
    rcases List.mem_cons.mp hm with rfl | hm
    · exact hc.member l m h.1
    · exact ih h.2 hm

/-- Distinct names in use are no more than the nodes of the store. -/
theorem length_le_of_nodup (hnd : ns.Nodup) (hns : ∀ n ∈ ns, s.HasNode n) :
    ns.length ≤ s.nodes.size := by
  have hinj : Function.Injective NodeId.index := by
    rintro ⟨a⟩ ⟨b⟩ hab
    exact congrArg NodeId.mk hab
  have hsub : ns.map NodeId.index ⊆ List.range s.nodes.size := by
    intro i hi
    obtain ⟨m, hm, rfl⟩ := List.mem_map.mp hi
    exact List.mem_range.mpr (hns m hm)
  simpa using ((hnd.map hinj).subperm hsub).length_le

theorem path_length_le (hc : s.Closed) (hs : s.Acyclic) (h : s.Path l ns) :
    ns.length ≤ s.nodes.size :=
  length_le_of_nodup (path_nodup hs h) fun _ hm => path_hasNode hc h hm

/-- Levels beyond the longest path show nothing more. -/
theorem unfold_add {levels : Nat} (h : ∀ ns, s.Path l ns → ns.length ≤ levels) (more : Nat) :
    s.unfold (levels + more) l = s.unfold levels l := by
  induction levels generalizing l with
  | zero =>
    have hl : s.list l = [] := by
      rw [List.eq_nil_iff_forall_not_mem]
      intro n hn
      simpa using h [n] ⟨hn, trivial⟩
    cases more with
    | zero => rfl
    | succ more => rw [Nat.zero_add, unfold, unfold, hl]; rfl
  | succ levels ih =>
    rw [Nat.succ_add, unfold, unfold]
    refine Forest.ofList_congr (fun _ _ => rfl) (fun n hn => ih ?_)
    intro ns hp
    have := h (n :: ns) ⟨hn, hp⟩
    simpa using this

theorem unfold_of_le (hc : s.Closed) (hs : s.Acyclic) {levels : Nat} (h : s.nodes.size ≤ levels)
    (l : ListId) : s.unfold levels l = s.forest l := by
  obtain ⟨more, rfl⟩ := Nat.exists_eq_add_of_le h
  exact unfold_add (fun ns hp => path_length_le hc hs hp) more

/-- The traversal of a list without any bound. -/
theorem forest_eq (hc : s.Closed) (hs : s.Acyclic) (l : ListId) :
    s.forest l = Forest.ofList (fun n => ⟨n, l, s.node n⟩) (fun n => s.forest (s.node n).children)
      (s.list l) :=
  (unfold_of_le hc hs (Nat.le_succ _) l).symm

theorem labels_eq (hc : s.Closed) (hs : s.Acyclic) (l : ListId) :
    s.labels l = Forest.ofList (fun n => (s.node n).label) (fun n => s.labels (s.node n).children)
      (s.list l) := by
  rw [labels, forest_eq hc hs, Forest.map_ofList]
  rfl

/-- What holds of a list as soon as it holds of the children of its members holds of every list. -/
theorem list_induction (hc : s.Closed) (hs : s.Acyclic) {P : ListId → Prop}
    (step : ∀ l, (∀ n ∈ s.list l, P (s.node n).children) → P l) (l : ListId) : P l := by
  have bounded : ∀ levels l, (∀ ns, s.Path l ns → ns.length ≤ levels) → P l := by
    intro levels
    induction levels with
    | zero =>
      intro l h
      exact step l (fun n hn => absurd (h [n] ⟨hn, trivial⟩) (by simp))
    | succ levels ih =>
      intro l h
      refine step l (fun n hn => ih _ (fun ns hp => ?_))
      have := h (n :: ns) ⟨hn, hp⟩
      simpa using this
  exact bounded _ l (fun ns hp => path_length_le hc hs hp)

theorem mem_preorder_forest_iff (hc : s.Closed) (hs : s.Acyclic) {o : Occurrence} :
    o ∈ (s.forest l).preorder ↔ ∃ n ∈ s.list l,
      o = ⟨n, l, s.node n⟩ ∨ o ∈ (s.forest (s.node n).children).preorder := by
  rw [forest_eq hc hs, Forest.preorder_ofList]
  simp

/-- An occurrence says where its node stands and what the node is. -/
theorem occurrence_sound {levels : Nat} {o : Occurrence} (h : o ∈ (s.unfold levels l).preorder) :
    o.id ∈ s.list o.owner ∧ o.node = s.node o.id := by
  induction levels generalizing l with
  | zero => simp [unfold, Forest.preorder] at h
  | succ levels ih =>
    rw [unfold, Forest.preorder_ofList] at h
    obtain ⟨n, hn, ho⟩ := List.mem_flatMap.mp h
    rcases List.mem_cons.mp ho with rfl | ho
    · exact ⟨hn, rfl⟩
    · exact ih ho

theorem exists_occurrence_iff (hc : s.Closed) (hs : s.Acyclic) :
    (∃ o ∈ (s.forest l).preorder, o.id = n) ↔ s.Reaches l n := by
  induction l using list_induction hc hs with
  | step l ih =>
    constructor
    · rintro ⟨o, ho, rfl⟩
      obtain ⟨m, hm, rfl | ho⟩ := (mem_preorder_forest_iff hc hs).mp ho
      · exact ⟨m, hm, .refl⟩
      · obtain ⟨a, ha, har⟩ := (ih m hm).mp ⟨o, ho, rfl⟩
        exact ⟨m, hm, .head ha har⟩
    · rintro ⟨m, hm, hr⟩
      rcases hr.cases_head with rfl | ⟨a, ha, har⟩
      · exact ⟨_, (mem_preorder_forest_iff hc hs).mpr ⟨m, hm, Or.inl rfl⟩, rfl⟩
      · obtain ⟨o, ho, rfl⟩ := (ih m hm).mpr ⟨a, ha, har⟩
        exact ⟨o, (mem_preorder_forest_iff hc hs).mpr ⟨m, hm, Or.inr ho⟩, rfl⟩

/-- The check for ownership answers what it is asked. -/
theorem owns_iff (hc : s.Closed) (hs : s.Acyclic) : s.owns n target = true ↔ s.Owns n target := by
  rw [owns, Bool.or_eq_true, decide_eq_true_iff, List.any_eq_true, owns_iff_child]
  refine or_congr_right ?_
  constructor
  · rintro ⟨o, ho, ht⟩
    obtain ⟨m, hm, hr⟩ := (exists_occurrence_iff hc hs).mp ⟨o, ho, rfl⟩
    refine ⟨m, hm, o.id, hr, ?_⟩
    rw [← (occurrence_sound ho).2]
    exact of_decide_eq_true ht
  · rintro ⟨m, hm, a, har, ht⟩
    obtain ⟨o, ho, rfl⟩ := (exists_occurrence_iff hc hs).mpr ⟨m, hm, har⟩
    refine ⟨o, ho, decide_eq_true ?_⟩
    rw [(occurrence_sound ho).2, ht]

end Store
end TemplateTree
