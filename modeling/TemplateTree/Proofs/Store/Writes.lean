import TemplateTree.Proofs.Store.Alike
import TemplateTree.Proofs.View.Insertion

/-! Writes to single names. Two of them can change places unless they are to the same name, and what
is new in the store has no part in a write to what was there before. -/
namespace TemplateTree

open List (Forall₂)

/-- A change of the label of one node, or of the members of one list. -/
inductive Write
  | keep
  | label (n : NodeId) (change : Label → Label)
  | list (l : ListId) (change : List NodeId → List NodeId)

namespace Write

variable {s t : Store} {p q : Write} {n m : NodeId} {l k : ListId}

def apply (s : Store) : Write → Store
  | keep => s
  | label n change => s.setLabel n (change (s.node n).label)
  | list l change => s.setList l (change (s.list l))

/-- What is changed is there. -/
def InUse (s : Store) : Write → Prop
  | keep => True
  | label n _ => s.HasNode n
  | list l _ => s.HasList l

def target? : Write → Option ListId
  | list l _ => some l
  | _ => none

/-- The writes are to different names, or they change the same list in ways that go together. -/
def Commutes : Write → Write → Prop
  | label n _, label m _ => n ≠ m
  | list l change, list k change' => l = k → ∀ ns, change' (change ns) = change (change' ns)
  | _, _ => True

theorem list_apply_of_ne (h : p.target? ≠ some l) : (p.apply s).list l = s.list l := by
  cases p with
  | keep => rfl
  | label n change => rfl
  | list k change => exact Store.list_setList_of_ne fun hl => h (congrArg some hl.symm)

theorem children_apply (p : Write) (s : Store) (n : NodeId) :
    ((p.apply s).node n).children = (s.node n).children := by
  cases p with
  | keep => rfl
  | label m change => exact Store.children_setLabel ..
  | list l change => rw [apply, Store.node_setList]

theorem setLabel_comm (h : n ≠ m) (a b : Label) :
    (s.setLabel n a).setLabel m b = (s.setLabel m b).setLabel n a := by
  have hindex : n.index ≠ m.index := fun he => h (by cases n; cases m; simp_all)
  have hn : ((s.setLabel m b).node n).children = (s.node n).children := Store.children_setLabel ..
  have hm : ((s.setLabel n a).node m).children = (s.node m).children := Store.children_setLabel ..
  rw [Store.setLabel, hm, Store.setLabel, Store.setLabel, hn, Store.setLabel,
    Array.setIfInBounds_comm _ _ hindex]

theorem setList_comm (h : l ≠ k) (ns ms : List NodeId) :
    (s.setList l ns).setList k ms = (s.setList k ms).setList l ns := by
  have hindex : l.index ≠ k.index := fun he => h (by cases l; cases k; simp_all)
  rw [Store.setList, Store.setList, Store.setList, Store.setList,
    Array.setIfInBounds_comm _ _ hindex]

theorem setList_setList (s : Store) (l : ListId) (ns ms : List NodeId) :
    (s.setList l ns).setList l ms = s.setList l ms := by
  rw [Store.setList, Store.setList, Store.setList, Array.setIfInBounds_setIfInBounds]

theorem setList_setLabel (s : Store) (n : NodeId) (label : Label) (l : ListId) (ns : List NodeId) :
    (s.setLabel n label).setList l ns = (s.setList l ns).setLabel n label := by
  rw [Store.setLabel, Store.setLabel, Store.node_setList]
  rfl

/-- Writes that have nothing to do with each other can be made in either order. -/
theorem apply_comm (h : p.Commutes q) (hp : p.InUse s) :
    q.apply (p.apply s) = p.apply (q.apply s) := by
  cases p with
  | keep => rfl
  | label n change => cases q with
    | keep => rfl
    | label m change' =>
      have hne : n ≠ m := h
      rw [apply, apply, apply, apply, Store.node_setLabel_of_ne hne, Store.node_setLabel_of_ne hne.symm,
        setLabel_comm hne]
    | list k change' =>
      rw [apply, apply, apply, apply, Store.node_setList, Store.list_setLabel, setList_setLabel]
  | list l change => cases q with
    | keep => rfl
    | label m change' =>
      rw [apply, apply, apply, apply, Store.node_setList, Store.list_setLabel, setList_setLabel]
    | list k change' =>
      rw [apply, apply, apply, apply]
      by_cases hlk : l = k
      · subst hlk
        have hin : s.HasList l := hp
        rw [Store.list_setList_self hin, Store.list_setList_self hin, setList_setList,
          setList_setList, h rfl]
      · rw [Store.list_setList_of_ne hlk, Store.list_setList_of_ne (Ne.symm hlk), setList_comm hlk]

theorem setIfInBounds_push {α : Type} {xs : Array α} {i : Nat} (h : i < xs.size) (a b : α) :
    (xs.push b).setIfInBounds i a = (xs.setIfInBounds i a).push b := by
  have hpush : i < (xs.push b).size := by
    rw [Array.size_push]
    omega
  rw [Array.setIfInBounds, Array.setIfInBounds, dif_pos h, dif_pos hpush, Array.set_push, dif_pos h]

/-- A new text does not notice a write to what was there before. -/
theorem addLeaf_apply (h : p.InUse s) (content : Text) :
    (p.apply s).addLeaf content = ((s.addLeaf content).1, p.apply (s.addLeaf content).2) := by
  have hx := Store.extends_addLeaf s content
  cases p with
  | keep => rfl
  | label n change =>
    have hn : n.index < s.nodes.size := h
    rw [apply, apply, Store.setLabel, Store.setLabel, hx.node n h]
    simp only [Store.addLeaf, Store.addList, Store.addNode, Array.size_setIfInBounds,
      setIfInBounds_push hn]
  | list l change =>
    have hl : l.index < s.lists.size := h
    rw [apply, apply, Store.setList, Store.setList, hx.list l h]
    simp only [Store.addLeaf, Store.addList, Store.addNode, Array.size_setIfInBounds,
      setIfInBounds_push hl]

theorem supply_apply (h : p.InUse s) (c : Content) :
    (p.apply s).supply c = ((s.supply c).1, p.apply (s.supply c).2) := by
  cases c with
  | text content => rw [Store.supply, addLeaf_apply h]; rfl
  | nodes ns => rfl

end Write

/-- The same change under paired names. What the lists hold afterwards is paired as well. -/
inductive Pairing.WriteRel (R : Pairing) : Write → Write → Prop
  | keep : WriteRel R .keep .keep
  | label {n m : NodeId} (h : R.node n m) (change : Label → Label) :
    WriteRel R (.label n change) (.label m change)
  | list {l k : ListId} {change change' : List NodeId → List NodeId} (h : R.list l k)
    (hchange : ∀ {ns ms}, Forall₂ R.node ns ms → Forall₂ R.node (change ns) (change' ms)) :
    WriteRel R (.list l change) (.list k change')

namespace Store

variable {R : Pairing} {s t : Store} {n n' : NodeId} {l l' : ListId} {content a b : Text}
  {c c' : Content}

theorem Alike.apply {p q : Write} (h : Alike R s t) (hw : R.WriteRel p q) :
    Alike R (p.apply s) (q.apply t) := by
  cases hw with
  | keep => exact h
  | label hn change =>
    rw [Write.apply, Write.apply, h.label hn]
    exact h.setLabel hn _
  | list hl hchange => exact h.setList hl (hchange (h.members hl))

/-- The node is a text by itself, over that list. -/
structure Bare (s : Store) (content : Text) (n : NodeId) (l : ListId) : Prop where
  hasNode : s.HasNode n
  hasList : s.HasList l
  node : s.node n = ⟨Label.leaf content, l⟩
  list : s.list l = []

theorem Bare.mono (h : s.Bare content n l) (hst : s.Extends t) : t.Bare content n l where
  hasNode := h.hasNode.mono hst
  hasList := h.hasList.mono hst
  node := (hst.node n h.hasNode).trans h.node
  list := (hst.list l h.hasList).trans h.list

theorem bare_addLeaf (s : Store) (content : Text) :
    (s.addLeaf content).2.Bare content ⟨s.nodes.size⟩ ⟨s.lists.size⟩ where
  hasNode := hasNode_addLeaf s content
  hasList := ((hasList_addList s []).mpr (Or.inr rfl)).mono (extends_addNode _ _)
  node := node_addLeaf s content
  list := list_addList_self s []

theorem Alike.pairBare (h : Alike R s t) (hs : s.Bare content n l) (ht : t.Bare content n' l')
    (hnode : ∀ {m m'}, R.node m m' → m ≠ n ∧ m' ≠ n')
    (hlist : ∀ {k k'}, R.list k k' → k ≠ l ∧ k' ≠ l') :
    Alike ((R.addList l l').addNode n n') s t := by
  have hlists : Alike (R.addList l l') s t := by
    refine h.pairLists hs.hasList ht.hasList hlist ?_
    rw [hs.list, ht.list]
    exact .nil
  refine hlists.pairNodes hs.hasNode ht.hasNode hnode ?_ ?_
  · rw [hs.node, ht.node]
  · rw [hs.node, ht.node]
    exact Or.inr ⟨rfl, rfl⟩

theorem size_addLeaf (s : Store) (content : Text) :
    (s.addLeaf content).2.nodes.size = s.nodes.size + 1 ∧
      (s.addLeaf content).2.lists.size = s.lists.size + 1 :=
  ⟨Array.size_push _, Array.size_push _⟩

theorem HasNode.ne {i : Nat} (h : s.HasNode n) (hi : s.nodes.size ≤ i) : n ≠ ⟨i⟩ := by
  rintro rfl
  exact Nat.not_lt.mpr hi h

theorem HasList.ne {i : Nat} (h : s.HasList l) (hi : s.lists.size ≤ i) : l ≠ ⟨i⟩ := by
  rintro rfl
  exact Nat.not_lt.mpr hi h

/-- Two new texts get each other's names when they are added in the other order. -/
theorem alike_addLeaf_swap (hc : s.Closed) (a b : Text) : ∃ R,
    Alike R ((s.addLeaf a).2.addLeaf b).2 ((s.addLeaf b).2.addLeaf a).2 ∧
      R.node (s.addLeaf a).1 ((s.addLeaf b).2.addLeaf a).1 ∧
      R.node ((s.addLeaf a).2.addLeaf b).1 (s.addLeaf b).1 ∧
      (∀ {n}, s.HasNode n → R.node n n) ∧ ∀ {l}, s.HasList l → R.list l l := by
  have hab := extends_addLeaf (s.addLeaf a).2 b
  have hba := extends_addLeaf (s.addLeaf b).2 a
  obtain ⟨hna, hla⟩ := size_addLeaf s a
  obtain ⟨hnb, hlb⟩ := size_addLeaf s b
  have hold := alike_inUse hc ((extends_addLeaf s a).trans hab) ((extends_addLeaf s b).trans hba)
  -- The first name on the left goes with the second one on the right, and the other way round.
  have hfirst := hold.pairBare ((bare_addLeaf s a).mono hab) (bare_addLeaf (s.addLeaf b).2 a)
    (by
      rintro m _ ⟨rfl, hm⟩
      exact ⟨hm.ne (Nat.le_refl _), hm.ne (by omega)⟩)
    (by
      rintro k _ ⟨rfl, hk⟩
      exact ⟨hk.ne (Nat.le_refl _), hk.ne (by omega)⟩)
  have hboth := hfirst.pairBare (bare_addLeaf (s.addLeaf a).2 b) ((bare_addLeaf s b).mono hba)
    (by
      rintro m m' (⟨rfl, hm⟩ | ⟨rfl, rfl⟩)
      · exact ⟨hm.ne (by omega), hm.ne (Nat.le_refl _)⟩
      · rw [Ne, Ne, NodeId.mk.injEq, NodeId.mk.injEq]
        omega)
    (by
      rintro k k' (⟨rfl, hk⟩ | ⟨rfl, rfl⟩)
      · exact ⟨hk.ne (by omega), hk.ne (Nat.le_refl _)⟩
      · rw [Ne, Ne, ListId.mk.injEq, ListId.mk.injEq]
        omega)
  exact ⟨_, hboth, Or.inl (Or.inr ⟨rfl, rfl⟩), Or.inr ⟨rfl, rfl⟩, fun hn => Or.inl (Or.inl ⟨rfl, hn⟩),
    fun hl => Or.inl (Or.inl ⟨rfl, hl⟩)⟩

theorem extends_supply (s : Store) (c : Content) : s.Extends (s.supply c).2 := by
  cases c with
  | text content => exact extends_addLeaf s content
  | nodes ns => exact .refl s

/-- Content that shares nothing becomes new nodes. -/
theorem supply_new (hc : c.shared = []) (hn : n ∈ (s.supply c).1) : ¬ s.HasNode n := by
  cases c with
  | text content =>
    obtain rfl := List.mem_singleton.mp hn
    exact Nat.lt_irrefl s.nodes.size
  | nodes ns =>
    obtain rfl : ns = [] := hc
    cases hn

/-- The order in which contents are supplied changes nothing but the names. -/
theorem alike_supply_swap (hs : s.Sound) (hc : c.shared = []) (hc' : c'.shared = []) : ∃ R,
    Alike R ((s.supply c).2.supply c').2 ((s.supply c').2.supply c).2 ∧
      Forall₂ R.node (s.supply c).1 ((s.supply c').2.supply c).1 ∧
      Forall₂ R.node ((s.supply c).2.supply c').1 (s.supply c').1 ∧
      (∀ {n}, s.HasNode n → R.node n n) ∧ ∀ {l}, s.HasList l → R.list l l := by
  have hself : ∀ {t : Store}, t.Sound → Alike (.inUse t) t t := fun ht =>
    alike_inUse ht.closed (.refl _) (.refl _)
  have hold : ∀ a, ∀ {n}, s.HasNode n → (Pairing.inUse (s.addLeaf a).2).node n n := fun a _ hn =>
    ⟨rfl, hn.mono (extends_addLeaf s a)⟩
  have holds : ∀ a, ∀ {l}, s.HasList l → (Pairing.inUse (s.addLeaf a).2).list l l := fun a _ hl =>
    ⟨rfl, hl.mono (extends_addLeaf s a)⟩
  have hnew : ∀ a, Forall₂ (Pairing.inUse (s.addLeaf a).2).node [(s.addLeaf a).1] [(s.addLeaf a).1] :=
    fun a => .cons ⟨rfl, hasNode_addLeaf s a⟩ .nil
  cases c with
  | text a => cases c' with
    | text b =>
      obtain ⟨R, hR, ha, hb, hn, hl⟩ := alike_addLeaf_swap hs.closed a b
      exact ⟨R, hR, .cons ha .nil, .cons hb .nil, hn, hl⟩
    | nodes ns =>
      obtain rfl : ns = [] := hc'
      exact ⟨_, hself (hs.addLeaf a), hnew a, .nil, hold a, holds a⟩
  | nodes ns =>
    obtain rfl : ns = [] := hc
    cases c' with
    | text b => exact ⟨_, hself (hs.addLeaf b), .nil, hnew b, hold b, holds b⟩
    | nodes ns =>
      obtain rfl : ns = [] := hc'
      exact ⟨_, hself hs, .nil, .nil, fun hn => ⟨rfl, hn⟩, fun hl => ⟨rfl, hl⟩⟩

end Store
end TemplateTree
