import TemplateTree.Proofs.Related
import TemplateTree.Proofs.Store.Acyclic

/-! Two stores that hold the same under different names. The names that correspond are a pairing,
which every write keeps and new names extend, and what is not paired is left alone. -/
namespace TemplateTree

open List (Forall₂)

/-- Which names of one store stand for which names of another. -/
structure Pairing where
  node : NodeId → NodeId → Prop
  list : ListId → ListId → Prop

namespace Pairing

def empty : Pairing := ⟨fun _ _ => False, fun _ _ => False⟩

/-- Every name that is in use, with itself. -/
def inUse (s : Store) : Pairing :=
  ⟨fun n n' => n = n' ∧ s.HasNode n, fun l l' => l = l' ∧ s.HasList l⟩

def addNode (R : Pairing) (n n' : NodeId) : Pairing :=
  ⟨fun m m' => R.node m m' ∨ m = n ∧ m' = n', R.list⟩

def addList (R : Pairing) (l l' : ListId) : Pairing :=
  ⟨R.node, fun k k' => R.list k k' ∨ k = l ∧ k' = l'⟩

/-- No name is paired by both. -/
structure Apart (R Q : Pairing) : Prop where
  node : ∀ {n a b}, R.node n a → Q.node n b → False
  list : ∀ {l a b}, R.list l a → Q.list l b → False

/-- The same node at the same place, by paired names. -/
structure OccRel (R : Pairing) (o o' : Occurrence) : Prop where
  id : R.node o.id o'.id
  owner : R.list o.owner o'.owner
  label : o.node.label = o'.node.label
  children : R.list o.node.children o'.node.children

end Pairing

namespace Store

variable {R R' R'' Q : Pairing} {s t s' t' s'' u : Store} {n n' : NodeId} {l l' : ListId}
  {ns ns' : List NodeId}

/-- Paired names are in use, distinct names have distinct partners, and what stands under them is the
same up to the pairing. -/
structure Alike (R : Pairing) (s t : Store) : Prop where
  hasNode : ∀ {n n'}, R.node n n' → s.HasNode n ∧ t.HasNode n'
  hasList : ∀ {l l'}, R.list l l' → s.HasList l ∧ t.HasList l'
  node_inj : ∀ {n n' m m'}, R.node n n' → R.node m m' → (n = m ↔ n' = m')
  list_inj : ∀ {l l' k k'}, R.list l l' → R.list k k' → (l = k ↔ l' = k')
  label : ∀ {n n'}, R.node n n' → (s.node n).label = (t.node n').label
  children : ∀ {n n'}, R.node n n' → R.list (s.node n).children (t.node n').children
  members : ∀ {l l'}, R.list l l' → Forall₂ R.node (s.list l) (t.list l')

/-- The first store becomes the second one, and the pairing of its names with it: new pairs have new
names, and what was not paired stays as it was. -/
structure Advance (R : Pairing) (s : Store) (R' : Pairing) (s' : Store) : Prop where
  node : ∀ {n n'}, R.node n n' → R'.node n n'
  list : ∀ {l l'}, R.list l l' → R'.list l l'
  node_new : ∀ {n n'}, R'.node n n' → R.node n n' ∨ ¬ s.HasNode n
  list_new : ∀ {l l'}, R'.list l l' → R.list l l' ∨ ¬ s.HasList l
  hasNode : ∀ {n}, s.HasNode n → s'.HasNode n
  hasList : ∀ {l}, s.HasList l → s'.HasList l
  node_kept : ∀ {n}, s.HasNode n → (∀ n', ¬ R.node n n') → s'.node n = s.node n
  list_kept : ∀ {l}, s.HasList l → (∀ l', ¬ R.list l l') → s'.list l = s.list l

theorem Advance.refl (R : Pairing) (s : Store) : Advance R s R s :=
  ⟨id, id, Or.inl, Or.inl, id, id, fun _ _ => rfl, fun _ _ => rfl⟩

theorem Advance.trans (h : Advance R s R' s') (h' : Advance R' s' R'' s'') :
    Advance R s R'' s'' where
  node hn := h'.node (h.node hn)
  list hl := h'.list (h.list hl)
  node_new hn := by
    rcases h'.node_new hn with hn | hn
    · exact h.node_new hn
    · exact Or.inr (fun hs => hn (h.hasNode hs))
  list_new hl := by
    rcases h'.list_new hl with hl | hl
    · exact h.list_new hl
    · exact Or.inr (fun hs => hl (h.hasList hs))
  hasNode hn := h'.hasNode (h.hasNode hn)
  hasList hl := h'.hasList (h.hasList hl)
  node_kept hn hno := by
    refine (h'.node_kept (h.hasNode hn) (fun n' hn' => ?_)).trans (h.node_kept hn hno)
    rcases h.node_new hn' with hr | hs
    · exact hno n' hr
    · exact hs hn
  list_kept hl hno := by
    refine (h'.list_kept (h.hasList hl) (fun l' hl' => ?_)).trans (h.list_kept hl hno)
    rcases h.list_new hl' with hr | hs
    · exact hno l' hr
    · exact hs hl

/-- What is paired apart from it does not notice, and stays apart. -/
theorem Alike.of_advance (hQ : Alike Q s u) (h : Advance R s R' s') (hd : R.Apart Q) :
    Alike Q s' u ∧ R'.Apart Q := by
  have hnode : ∀ {n n'}, Q.node n n' → s'.node n = s.node n := fun hn =>
    h.node_kept (hQ.hasNode hn).1 (fun _ hr => hd.node hr hn)
  have hlist : ∀ {l l'}, Q.list l l' → s'.list l = s.list l := fun hl =>
    h.list_kept (hQ.hasList hl).1 (fun _ hr => hd.list hr hl)
  refine ⟨⟨?_, ?_, hQ.node_inj, hQ.list_inj, ?_, ?_, ?_⟩, ?_, ?_⟩
  · exact fun hn => ⟨h.hasNode (hQ.hasNode hn).1, (hQ.hasNode hn).2⟩
  · exact fun hl => ⟨h.hasList (hQ.hasList hl).1, (hQ.hasList hl).2⟩
  · intro n n' hn
    rw [hnode hn]
    exact hQ.label hn
  · intro n n' hn
    rw [hnode hn]
    exact hQ.children hn
  · intro l l' hl
    rw [hlist hl]
    exact hQ.members hl
  · intro n a b ha hb
    rcases h.node_new ha with ha | ha
    · exact hd.node ha hb
    · exact ha (hQ.hasNode hb).1
  · intro l a b ha hb
    rcases h.list_new ha with ha | ha
    · exact hd.list ha hb
    · exact ha (hQ.hasList hb).1

theorem Alike.setLabel (h : Alike R s t) (hn : R.node n n') (label : Label) :
    Alike R (s.setLabel n label) (t.setLabel n' label) := by
  refine ⟨?_, h.hasList, h.node_inj, h.list_inj, ?_, ?_, h.members⟩
  · intro m m' hm
    exact ⟨hasNode_setLabel.mpr (h.hasNode hm).1, hasNode_setLabel.mpr (h.hasNode hm).2⟩
  · intro m m' hm
    by_cases he : m = n
    · obtain rfl := (h.node_inj hm hn).mp he
      subst he
      rw [node_setLabel_self (h.hasNode hm).1, node_setLabel_self (h.hasNode hm).2]
    · have he' : m' ≠ n' := fun hx => he ((h.node_inj hm hn).mpr hx)
      rw [node_setLabel_of_ne he, node_setLabel_of_ne he']
      exact h.label hm
  · intro m m' hm
    rw [children_setLabel, children_setLabel]
    exact h.children hm

theorem Alike.setList (h : Alike R s t) (hl : R.list l l') (hns : Forall₂ R.node ns ns') :
    Alike R (s.setList l ns) (t.setList l' ns') := by
  refine ⟨h.hasNode, ?_, h.node_inj, h.list_inj, ?_, ?_, ?_⟩
  · intro k k' hk
    exact ⟨hasList_setList.mpr (h.hasList hk).1, hasList_setList.mpr (h.hasList hk).2⟩
  · intro m m' hm
    rw [node_setList, node_setList]
    exact h.label hm
  · intro m m' hm
    rw [node_setList, node_setList]
    exact h.children hm
  · intro k k' hk
    by_cases he : k = l
    · obtain rfl := (h.list_inj hk hl).mp he
      subst he
      rw [list_setList_self (h.hasList hk).1, list_setList_self (h.hasList hk).2]
      exact hns
    · have he' : k' ≠ l' := fun hx => he ((h.list_inj hk hl).mpr hx)
      rw [list_setList_of_ne he, list_setList_of_ne he']
      exact h.members hk

theorem Advance.setLabel (hn : R.node n n') (label : Label) :
    Advance R s R (s.setLabel n label) where
  node := id
  list := id
  node_new := Or.inl
  list_new := Or.inl
  hasNode := hasNode_setLabel.mpr
  hasList := id
  node_kept _ hno := by
    refine node_setLabel_of_ne (fun he => hno n' ?_) label
    rw [he]
    exact hn
  list_kept _ _ := rfl

theorem Advance.setList (hl : R.list l l') (ns : List NodeId) :
    Advance R s R (s.setList l ns) where
  node := id
  list := id
  node_new := Or.inl
  list_new := Or.inl
  hasNode := id
  hasList := hasList_setList.mpr
  node_kept _ _ := node_setList ..
  list_kept _ hno := by
    refine list_setList_of_ne (fun he => hno l' ?_)
    rw [he]
    exact hl

/-- Stores that grow stay alike. -/
theorem Alike.mono (h : Alike R s t) (hs : s.Extends s') (ht : t.Extends t') : Alike R s' t' := by
  refine ⟨?_, ?_, h.node_inj, h.list_inj, ?_, ?_, ?_⟩
  · exact fun hn => ⟨(h.hasNode hn).1.mono hs, (h.hasNode hn).2.mono ht⟩
  · exact fun hl => ⟨(h.hasList hl).1.mono hs, (h.hasList hl).2.mono ht⟩
  · intro n n' hn
    rw [hs.node n (h.hasNode hn).1, ht.node n' (h.hasNode hn).2]
    exact h.label hn
  · intro n n' hn
    rw [hs.node n (h.hasNode hn).1, ht.node n' (h.hasNode hn).2]
    exact h.children hn
  · intro l l' hl
    rw [hs.list l (h.hasList hl).1, ht.list l' (h.hasList hl).2]
    exact h.members hl

/-- A pair of names that no pair has so far. -/
theorem inj_of_new {α β : Type} {P : α → β → Prop} {a : α} {b : β}
    (hinj : ∀ {x x' y y'}, P x x' → P y y' → (x = y ↔ x' = y'))
    (hnew : ∀ {x x'}, P x x' → x ≠ a ∧ x' ≠ b) {x x' y y'} (hx : P x x' ∨ x = a ∧ x' = b)
    (hy : P y y' ∨ y = a ∧ y' = b) : x = y ↔ x' = y' := by
  rcases hx with hx | ⟨rfl, rfl⟩ <;> rcases hy with hy | ⟨rfl, rfl⟩
  · exact hinj hx hy
  · exact ⟨fun he => absurd he (hnew hx).1, fun he => absurd he (hnew hx).2⟩
  · exact ⟨fun he => absurd he.symm (hnew hy).1, fun he => absurd he.symm (hnew hy).2⟩
  · exact ⟨fun _ => rfl, fun _ => rfl⟩

theorem Alike.pairLists (h : Alike R s t) (hl : s.HasList l) (hl' : t.HasList l')
    (hnew : ∀ {k k'}, R.list k k' → k ≠ l ∧ k' ≠ l')
    (hmembers : Forall₂ R.node (s.list l) (t.list l')) : Alike (R.addList l l') s t := by
  refine ⟨h.hasNode, ?_, h.node_inj, inj_of_new h.list_inj hnew, h.label, ?_, ?_⟩
  · rintro k k' (hk | ⟨rfl, rfl⟩)
    · exact h.hasList hk
    · exact ⟨hl, hl'⟩
  · exact fun hn => Or.inl (h.children hn)
  · rintro k k' (hk | ⟨rfl, rfl⟩)
    · exact h.members hk
    · exact hmembers

theorem Alike.pairNodes (h : Alike R s t) (hn : s.HasNode n) (hn' : t.HasNode n')
    (hnew : ∀ {m m'}, R.node m m' → m ≠ n ∧ m' ≠ n')
    (hlabel : (s.node n).label = (t.node n').label)
    (hchildren : R.list (s.node n).children (t.node n').children) :
    Alike (R.addNode n n') s t := by
  refine ⟨?_, h.hasList, inj_of_new h.node_inj hnew, h.list_inj, ?_, ?_, ?_⟩
  · rintro m m' (hm | ⟨rfl, rfl⟩)
    · exact h.hasNode hm
    · exact ⟨hn, hn'⟩
  · rintro m m' (hm | ⟨rfl, rfl⟩)
    · exact h.label hm
    · exact hlabel
  · rintro m m' (hm | ⟨rfl, rfl⟩)
    · exact h.children hm
    · exact hchildren
  · exact fun hl => (h.members hl).imp (fun _ _ => Or.inl)

theorem not_hasList_addList (s : Store) (ns : List NodeId) : ¬ s.HasList (s.addList ns).1 :=
  Nat.lt_irrefl _

theorem not_hasNode_addNode (s : Store) (node : Node) : ¬ s.HasNode (s.addNode node).1 :=
  Nat.lt_irrefl _

theorem Alike.addList (h : Alike R s t) (hns : Forall₂ R.node ns ns') :
    Alike (R.addList (s.addList ns).1 (t.addList ns').1) (s.addList ns).2 (t.addList ns').2 := by
  refine (h.mono (extends_addList s ns) (extends_addList t ns')).pairLists
    ((hasList_addList _ _).mpr (Or.inr rfl)) ((hasList_addList _ _).mpr (Or.inr rfl)) ?_ ?_
  · intro k k' hk
    constructor
    · rintro rfl
      exact not_hasList_addList s ns (h.hasList hk).1
    · rintro rfl
      exact not_hasList_addList t ns' (h.hasList hk).2
  · rw [list_addList_self, list_addList_self]
    exact hns

theorem Alike.addNode (h : Alike R s t) (label : Label) (hl : R.list l l') :
    Alike (R.addNode (s.addNode ⟨label, l⟩).1 (t.addNode ⟨label, l'⟩).1)
      (s.addNode ⟨label, l⟩).2 (t.addNode ⟨label, l'⟩).2 := by
  refine (h.mono (extends_addNode s _) (extends_addNode t _)).pairNodes
    ((hasNode_addNode _ _).mpr (Or.inr rfl)) ((hasNode_addNode _ _).mpr (Or.inr rfl)) ?_ ?_ ?_
  · intro m m' hm
    constructor
    · rintro rfl
      exact not_hasNode_addNode s _ (h.hasNode hm).1
    · rintro rfl
      exact not_hasNode_addNode t _ (h.hasNode hm).2
  · rw [node_addNode_self, node_addNode_self]
  · rw [node_addNode_self, node_addNode_self]
    exact hl

theorem Advance.addList (s : Store) (ns : List NodeId) (l' : ListId) :
    Advance R s (R.addList (s.addList ns).1 l') (s.addList ns).2 where
  node := id
  list := Or.inl
  node_new := Or.inl
  list_new := by
    rintro l k (hl | ⟨rfl, rfl⟩)
    · exact Or.inl hl
    · exact Or.inr (not_hasList_addList s ns)
  hasNode hn := hn.mono (extends_addList s ns)
  hasList hl := hl.mono (extends_addList s ns)
  node_kept hn _ := (extends_addList s ns).node _ hn
  list_kept hl _ := (extends_addList s ns).list _ hl

theorem Advance.addNode (s : Store) (node : Node) (n' : NodeId) :
    Advance R s (R.addNode (s.addNode node).1 n') (s.addNode node).2 where
  node := Or.inl
  list := id
  node_new := by
    rintro n m (hn | ⟨rfl, rfl⟩)
    · exact Or.inl hn
    · exact Or.inr (not_hasNode_addNode s node)
  list_new := Or.inl
  hasNode hn := hn.mono (extends_addNode s node)
  hasList hl := hl.mono (extends_addNode s node)
  node_kept hn _ := (extends_addNode s node).node _ hn
  list_kept hl _ := (extends_addNode s node).list _ hl

/-- A new node in each of them, over a new list of paired nodes. -/
theorem Alike.addOver (h : Alike R s t) (hns : Forall₂ R.node ns ns') (label : Label) : ∃ R',
    Alike R' ((s.addList ns).2.addNode ⟨label, (s.addList ns).1⟩).2
        ((t.addList ns').2.addNode ⟨label, (t.addList ns').1⟩).2 ∧
      Advance R s R' ((s.addList ns).2.addNode ⟨label, (s.addList ns).1⟩).2 ∧
      R'.node ((s.addList ns).2.addNode ⟨label, (s.addList ns).1⟩).1
        ((t.addList ns').2.addNode ⟨label, (t.addList ns').1⟩).1 := by
  have hlist := h.addList hns
  have hnode := hlist.addNode label (Or.inr ⟨rfl, rfl⟩)
  exact ⟨_, hnode, (Advance.addList s ns _).trans (Advance.addNode _ _ _), Or.inr ⟨rfl, rfl⟩⟩

/-- Whatever a store grows into is alike as far as that store goes. -/
theorem alike_inUse (hc : s.Closed) (ht : s.Extends t) (hu : s.Extends u) :
    Alike (.inUse s) t u := by
  have hself : Alike (.inUse s) s s := by
    refine ⟨?_, ?_, ?_, ?_, ?_, ?_, ?_⟩
    · rintro n n' ⟨rfl, hn⟩
      exact ⟨hn, hn⟩
    · rintro l l' ⟨rfl, hl⟩
      exact ⟨hl, hl⟩
    · rintro n n' m m' ⟨rfl, -⟩ ⟨rfl, -⟩
      exact Iff.rfl
    · rintro l l' k k' ⟨rfl, -⟩ ⟨rfl, -⟩
      exact Iff.rfl
    · rintro n n' ⟨rfl, -⟩
      rfl
    · rintro n n' ⟨rfl, hn⟩
      exact ⟨rfl, hc.children n hn⟩
    · rintro l l' ⟨rfl, -⟩
      exact List.forall₂_same.mpr (fun n hn => ⟨rfl, hc.member l n hn⟩)
  exact hself.mono ht hu

theorem alike_empty (s t : Store) : Alike .empty s t :=
  ⟨False.elim, False.elim, fun h => h.elim, fun h => h.elim, False.elim, False.elim, False.elim⟩

/-- Paired lists show the same. -/
theorem Alike.unfold (h : Alike R s t) (levels : Nat) (hl : R.list l l') :
    (s.unfold levels l).Rel R.OccRel (t.unfold levels l') := by
  induction levels generalizing l l' with
  | zero => exact .nil
  | succ levels ih =>
    refine Forest.Rel.ofList (h.members hl) (fun n n' hn => ?_) (fun n n' hn => ih (h.children hn))
    exact ⟨hn, hl, h.label hn, h.children hn⟩

theorem Alike.forest (h : Alike R s t) (hs : s.Sound) (ht : t.Sound) (hl : R.list l l') :
    (s.forest l).Rel R.OccRel (t.forest l') := by
  have hboth := h.unfold (max s.nodes.size t.nodes.size) hl
  rwa [unfold_of_le hs.closed hs.acyclic (Nat.le_max_left ..),
    unfold_of_le ht.closed ht.acyclic (Nat.le_max_right ..)] at hboth

theorem Alike.labels (h : Alike R s t) (hs : s.Sound) (ht : t.Sound) (hl : R.list l l') :
    s.labels l = t.labels l' :=
  (h.forest hs ht hl).map_eq (fun _ _ ho => ho.label)

/-- What is reached from a paired list is paired. -/
theorem Alike.reaches (h : Alike R s t) (hl : R.list l l') (hr : s.Reaches l n) :
    ∃ n', R.node n n' := by
  obtain ⟨m, hm, hr⟩ := hr
  have paired : ∀ {k k' a}, R.list k k' → a ∈ s.list k → ∃ a', R.node a a' := by
    intro k k' a hk ha
    obtain ⟨i, hi, rfl⟩ := List.getElem_of_mem ha
    have hi' : i < (t.list k').length := (h.members hk).length_eq ▸ hi
    exact ⟨_, (h.members hk).get hi hi'⟩
  induction hr with
  | refl => exact paired hl hm
  | tail _ hab ih =>
    obtain ⟨a', ha⟩ := ih
    exact paired (h.children ha) hab

/-- The same labels are planted in both, under new names. -/
theorem Alike.plant (h : Alike R s t) (f : Forest Label) : ∃ R', Alike R' (s.plant f).2 (t.plant f).2 ∧
    Advance R s R' (s.plant f).2 ∧ (s.plant f).1.Rel R'.node (t.plant f).1 := by
  induction f generalizing R s t with
  | nil => exact ⟨R, h, .refl R s, .nil⟩
  | cons label kids rest ihk ihr =>
    obtain ⟨R₁, h₁, hadv₁, hkids⟩ := ihk h
    obtain ⟨R₂, h₂, hadv₂, hnew⟩ := h₁.addOver hkids.roots label
    obtain ⟨R₃, h₃, hadv₃, hrest⟩ := ihr h₂
    have hadv := hadv₂.trans hadv₃
    refine ⟨R₃, h₃, hadv₁.trans hadv, .cons (hadv₃.node hnew) ?_ hrest⟩
    exact hkids.imp (fun _ _ hn => hadv.node hn)

theorem Alike.plantList (h : Alike R s t) (f : Forest Label) : ∃ R',
    Alike R' (s.plantList f).2.2 (t.plantList f).2.2 ∧ Advance R s R' (s.plantList f).2.2 ∧
      R'.list (s.plantList f).1 (t.plantList f).1 ∧
      (s.plantList f).2.1.Rel R'.node (t.plantList f).2.1 := by
  obtain ⟨R₁, h₁, hadv₁, hids⟩ := h.plant f
  have hadv₂ := @Advance.addList R₁ (s.plant f).2 (s.plant f).1.roots
    ((t.plant f).2.addList (t.plant f).1.roots).1
  exact ⟨_, h₁.addList hids.roots, hadv₁.trans hadv₂, Or.inr ⟨rfl, rfl⟩, hids⟩

end Store
end TemplateTree
