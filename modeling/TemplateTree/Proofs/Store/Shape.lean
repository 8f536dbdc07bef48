import TemplateTree.Proofs.Store.Acyclic
import TemplateTree.Proofs.Token.Written

/-! Elements in a store. The lists that edits write to, the rows, hold leaves and elements. The list of
an element's children is no row, so no write to a row takes the element apart. -/
namespace TemplateTree

/-- The labels of an element with this tag, of its slot and of its closer. -/
structure Tag.Spells (tag : Tag) (own slot : Label) (closer : Option Label) : Prop where
  name : tag.name.IsElementName
  slash : tag.slash = true → tag.isVoid = true
  own : own = ⟨'<' :: tag.name, tag.attributes⟩
  slot : slot = Label.leaf tag.slot
  closer : closer = if tag.isVoid then none else some (Label.leaf (Markup.closer tag.name))

/-- What an element keeps when it is edited: its name, whether it ends in `/>`, and the nodes that
are its children. -/
structure Parts where
  name : Text
  slash : Bool
  slot : NodeId
  closer : Option NodeId

/-- The tag of the element, with the attributes that it has now. -/
def Parts.tag (p : Parts) (a : Attributes) : Tag := ⟨p.name, a, p.slash⟩

namespace Store

/-- A node with an empty list of children. -/
def IsLeaf (s : Store) (n : NodeId) : Prop := s.list (s.node n).children = []

/-- A node whose children are the slot and, unless its name is void, the closer. These say nothing
but the end of the opening tag and the closing tag, and carry no attributes. -/
structure IsElement (s : Store) (n : NodeId) (p : Parts) : Prop where
  children : s.list (s.node n).children = p.slot :: p.closer.toList
  spells : (p.tag (s.node n).label.attributes).Spells (s.node n).label (s.node p.slot).label
    (p.closer.map fun c => (s.node c).label)
  closer : ∀ c ∈ p.closer, s.IsLeaf c

end Store

/-- Which nodes are items, and which lists are rows of items. -/
structure Layout where
  item : NodeId → Prop
  row : ListId → Prop

namespace Layout

def addItem (L : Layout) (n : NodeId) : Layout := ⟨fun m => L.item m ∨ m = n, L.row⟩

def addRow (L : Layout) (l : ListId) : Layout := ⟨L.item, fun k => L.row k ∨ k = l⟩

/-- The parts of an element are no items. What is inside is a row, and the closer's list is none. -/
structure Guards (L : Layout) (s : Store) (p : Parts) : Prop where
  slot : ¬ L.item p.slot
  inner : L.row (s.node p.slot).children
  closer : ∀ c ∈ p.closer, ¬ L.item c ∧ ¬ L.row (s.node c).children

/-- Rows hold items, and an item is a leaf or an element whose children are out of reach. -/
structure Fits (L : Layout) (s : Store) : Prop where
  hasNode : ∀ n, L.item n → s.HasNode n
  hasList : ∀ l, L.row l → s.HasList l
  members : ∀ l, L.row l → ∀ n ∈ s.list l, L.item n
  children : ∀ n, L.item n → ¬ L.row (s.node n).children
  shape : ∀ n, L.item n → s.IsLeaf n ∨ ∃ p, s.IsElement n p ∧ L.Guards s p

/-- The layout fits the second store, perhaps grown, and every item is what it was. -/
structure Leads (L : Layout) (s : Store) (L' : Layout) (t : Store) : Prop where
  fits : L'.Fits t
  item : ∀ n, L.item n → L'.item n
  row : ∀ l, L.row l → L'.row l
  leaf : ∀ n, L.item n → s.IsLeaf n → t.IsLeaf n
  element : ∀ n p, L.item n → s.IsElement n p → t.IsElement n p

/-- The second store differs from the first one only where the layout allows it: in the members of
rows, which stay items, in the attributes of items and in the contents of leaves. -/
structure Allows (L : Layout) (s t : Store) : Prop where
  hasNode : ∀ n, s.HasNode n → t.HasNode n
  hasList : ∀ l, s.HasList l → t.HasList l
  children : ∀ n, s.HasNode n → (t.node n).children = (s.node n).children
  list : ∀ l, s.HasList l → ¬ L.row l → t.list l = s.list l
  members : ∀ l, L.row l → ∀ n ∈ t.list l, L.item n
  label : ∀ n, s.HasNode n → ¬ L.item n → (t.node n).label = (s.node n).label
  content : ∀ n, L.item n → ¬ s.IsLeaf n →
    (t.node n).label.content = (s.node n).label.content

end Layout

variable {s t u : Store} {L L' L'' : Layout} {n m : NodeId} {l : ListId} {ns : List NodeId}
  {p q : Parts}

/-- Attributes do not matter for how the parts of an element are spelled. -/
theorem Tag.Spells.setAttributes {a b : Attributes} {own slot : Label} {closer : Option Label}
    (h : (p.tag a).Spells own slot closer) (hcontent : own.content = '<' :: p.name) :
    (p.tag b).Spells ⟨own.content, b⟩ slot closer where
  name := h.name
  slash := h.slash
  own := by rw [hcontent]; rfl
  slot := h.slot
  closer := h.closer

namespace Store

theorem IsElement.not_isLeaf (h : s.IsElement n p) : ¬ s.IsLeaf n := by
  rw [IsLeaf, h.children]
  exact List.cons_ne_nil _ _

theorem IsElement.parts (h : s.IsElement n p) (h' : s.IsElement n q) :
    p.slot = q.slot ∧ p.closer = q.closer := by
  have hchildren := h.children.symm.trans h'.children
  obtain ⟨hslot, hcloser⟩ := List.cons.inj hchildren
  refine ⟨hslot, Option.ext (fun c => ?_)⟩
  rw [← Option.mem_toList, ← Option.mem_toList, hcloser]

theorem IsElement.content (h : s.IsElement n p) : (s.node n).label.content = '<' :: p.name :=
  congrArg Label.content h.spells.own

theorem IsElement.hasNode_slot (hc : s.Closed) (h : s.IsElement n p) : s.HasNode p.slot :=
  hc.member (s.node n).children _ (by rw [h.children]; exact List.mem_cons_self)

theorem IsElement.hasNode_closer (hc : s.Closed) (h : s.IsElement n p) {c : NodeId}
    (hp : c ∈ p.closer) : s.HasNode c := by
  have hmem : c ∈ p.closer.toList := Option.mem_toList.mpr hp
  refine hc.member (s.node n).children c ?_
  rw [h.children]
  exact List.mem_cons_of_mem _ hmem

end Store

namespace Layout

open Store

theorem Fits.guards (h : L.Fits s) (hn : L.item n) (hp : s.IsElement n p) : L.Guards s p := by
  rcases h.shape n hn with hleaf | ⟨q, hq, hguards⟩
  · exact absurd hleaf hp.not_isLeaf
  · obtain ⟨hslot, hcloser⟩ := hp.parts hq
    constructor
    · rw [hslot]
      exact hguards.slot
    · rw [hslot]
      exact hguards.inner
    · rw [hcloser]
      exact hguards.closer

theorem Leads.refl (h : L.Fits s) : L.Leads s L s :=
  ⟨h, fun _ => id, fun _ => id, fun _ _ => id, fun _ _ _ => id⟩

theorem Leads.trans (h : L.Leads s L' t) (h' : L'.Leads t L'' u) : L.Leads s L'' u where
  fits := h'.fits
  item n hn := h'.item n (h.item n hn)
  row l hl := h'.row l (h.row l hl)
  leaf n hn hleaf := h'.leaf n (h.item n hn) (h.leaf n hn hleaf)
  element n p hn hp := h'.element n p (h.item n hn) (h.element n p hn hp)

/-- The list of children of a node in use keeps its members when it is no row. -/
theorem Allows.list_children (ha : L.Allows s t) (hc : s.Closed) (hn : s.HasNode n)
    (hrow : ¬ L.row (s.node n).children) : t.list (t.node n).children = s.list (s.node n).children := by
  rw [ha.children n hn]
  exact ha.list _ (hc.children n hn) hrow

theorem Allows.isLeaf (ha : L.Allows s t) (hc : s.Closed) (hn : s.HasNode n)
    (hrow : ¬ L.row (s.node n).children) (hleaf : s.IsLeaf n) : t.IsLeaf n :=
  (ha.list_children hc hn hrow).trans hleaf

theorem Allows.isElement (ha : L.Allows s t) (h : L.Fits s) (hc : s.Closed) (hn : L.item n)
    (hp : s.IsElement n p) : t.IsElement n p := by
  have hguards := h.guards hn hp
  have hslot : (t.node p.slot).label = (s.node p.slot).label :=
    ha.label p.slot (hp.hasNode_slot hc) hguards.slot
  have hclosers : (p.closer.map fun c => (t.node c).label) = p.closer.map fun c => (s.node c).label := by
    refine Option.map_congr (fun c hm => ?_)
    exact ha.label c (hp.hasNode_closer hc hm) (hguards.closer c hm).1
  have hcontent := ha.content n hn hp.not_isLeaf
  constructor
  · exact (ha.list_children hc (h.hasNode n hn) (h.children n hn)).trans hp.children
  · have hspells := hp.spells.setAttributes (b := (t.node n).label.attributes) hp.content
    rw [hslot, hclosers]
    rwa [← hcontent] at hspells
  · intro c hm
    exact ha.isLeaf hc (hp.hasNode_closer hc hm) (hguards.closer c hm).2 (hp.closer c hm)

theorem Allows.leads (ha : L.Allows s t) (h : L.Fits s) (hc : s.Closed) : L.Leads s L t where
  item _ := id
  row _ := id
  leaf n hn := ha.isLeaf hc (h.hasNode n hn) (h.children n hn)
  element _ _ hn := ha.isElement h hc hn
  fits := by
    refine ⟨fun n hn => ha.hasNode n (h.hasNode n hn), fun l hl => ha.hasList l (h.hasList l hl),
      ha.members, ?_, ?_⟩
    · intro n hn
      rw [ha.children n (h.hasNode n hn)]
      exact h.children n hn
    · intro n hn
      rcases h.shape n hn with hleaf | ⟨p, hp, hguards⟩
      · exact Or.inl (ha.isLeaf hc (h.hasNode n hn) (h.children n hn) hleaf)
      · refine Or.inr ⟨p, ha.isElement h hc hn hp, hguards.slot, ?_, ?_⟩
        · rw [ha.children _ (hp.hasNode_slot hc)]
          exact hguards.inner
        · intro c hm
          rw [ha.children c (hp.hasNode_closer hc hm)]
          exact hguards.closer c hm

theorem Fits.extends (h : L.Fits s) (hc : s.Closed) (hx : s.Extends t) : L.Leads s L t := by
  refine Allows.leads ⟨fun n hn => hn.mono hx, fun l hl => hl.mono hx, ?_, ?_, ?_, ?_, ?_⟩ h hc
  · intro n hn
    rw [hx.node n hn]
  · exact fun l hl _ => hx.list l hl
  · intro l hl n hn
    rw [hx.list l (h.hasList l hl)] at hn
    exact h.members l hl n hn
  · intro n hn _
    rw [hx.node n hn]
  · intro n hn _
    rw [hx.node n (h.hasNode n hn)]

/-- Items may be put into a row and taken out of it. -/
theorem Fits.setList (h : L.Fits s) (hc : s.Closed) (hl : L.row l) (hns : ∀ n ∈ ns, L.item n) :
    L.Leads s L (s.setList l ns) := by
  have other : ∀ k, k ≠ l → (s.setList l ns).list k = s.list k := fun k hk => list_setList_of_ne hk
  refine Allows.leads ⟨fun _ => id, fun k hk => hasList_setList.mpr hk, ?_, ?_, ?_, ?_, ?_⟩ h hc
  · intro n _
    rw [node_setList]
  · intro k _ hk
    exact other k (fun he => hk (he ▸ hl))
  · intro k hk n hn
    by_cases he : k = l
    · subst he
      rw [list_setList_self (h.hasList k hk)] at hn
      exact hns n hn
    · rw [other k he] at hn
      exact h.members k hk n hn
  · intro n _ _
    rw [node_setList]
  · intro n _ _
    rw [node_setList]

/-- An item may get new attributes, and a leaf a new content as well. -/
theorem Fits.setLabel (h : L.Fits s) (hc : s.Closed) (hn : L.item n) {label : Label}
    (hlabel : ¬ s.IsLeaf n → label.content = (s.node n).label.content) :
    L.Leads s L (s.setLabel n label) := by
  refine Allows.leads ⟨fun m hm => hasNode_setLabel.mpr hm, fun _ => id, ?_, ?_, ?_, ?_, ?_⟩ h hc
  · exact fun m _ => children_setLabel s n label m
  · exact fun k _ _ => list_setLabel s n label k
  · exact h.members
  · intro m _ hm
    have hne : m ≠ n := fun he => hm (he ▸ hn)
    rw [node_setLabel_of_ne hne]
  · intro m _ hleaf
    by_cases he : m = n
    · subst he
      rw [node_setLabel_self (h.hasNode m hn)]
      exact hlabel hleaf
    · rw [node_setLabel_of_ne he]

theorem Guards.addRow (h : L.Guards s p) (hnew : ∀ c ∈ p.closer, (s.node c).children ≠ l) :
    (L.addRow l).Guards s p where
  slot := h.slot
  inner := Or.inl h.inner
  closer c hc := by
    refine ⟨(h.closer c hc).1, ?_⟩
    rintro (hrow | he)
    · exact (h.closer c hc).2 hrow
    · exact hnew c hc he

/-- A node that stands in no list is no part of an element. -/
theorem Guards.addItem (h : L.Guards s p) (hp : s.IsElement m p) (hnew : ∀ l, n ∉ s.list l) :
    (L.addItem n).Guards s p := by
  have away : ∀ a ∈ p.slot :: p.closer.toList, a ≠ n := by
    rintro a ha rfl
    rw [← hp.children] at ha
    exact hnew _ ha
  constructor
  · rintro (hi | he)
    · exact h.slot hi
    · exact away _ List.mem_cons_self he
  · exact h.inner
  · intro c hc
    refine ⟨?_, (h.closer c hc).2⟩
    rintro (hi | he)
    · exact (h.closer c hc).1 hi
    · exact away c (List.mem_cons_of_mem _ (Option.mem_toList.mpr hc)) he

/-- A new list of items is a row. -/
theorem Fits.addList (h : L.Fits s) (hc : s.Closed) (hns : ∀ n ∈ ns, L.item n) :
    L.Leads s (L.addRow (s.addList ns).1) (s.addList ns).2 := by
  have hx := extends_addList s ns
  have hleads := h.extends hc hx
  have hnew : ∀ n, s.HasNode n → ((s.addList ns).2.node n).children ≠ (s.addList ns).1 := by
    intro n hn he
    have hin := hc.children n hn
    rw [← hx.node n hn, he] at hin
    exact Nat.lt_irrefl _ hin
  refine ⟨⟨hleads.fits.hasNode, ?_, ?_, ?_, ?_⟩, hleads.item, fun l hl => Or.inl (hleads.row l hl),
    hleads.leaf, hleads.element⟩
  · rintro l (hl | rfl)
    · exact hleads.fits.hasList l hl
    · exact (hasList_addList s ns).mpr (Or.inr rfl)
  · rintro l (hl | rfl)
    · exact hleads.fits.members l hl
    · rw [list_addList_self]
      exact hns
  · rintro n hn (hrow | he)
    · exact hleads.fits.children n hn hrow
    · exact hnew n (h.hasNode n hn) he
  · intro n hn
    rcases h.shape n hn with hleaf | ⟨p, hp, -⟩
    · exact Or.inl (hleads.leaf n hn hleaf)
    · have hp' := hleads.element n p hn hp
      exact Or.inr ⟨p, hp', (hleads.fits.guards hn hp').addRow
        (fun c hm => hnew c (hp.hasNode_closer hc hm))⟩

/-- A new node is an item when it is a leaf or an element, and its children are out of reach. -/
theorem Fits.addNode (h : L.Fits s) (hc : s.Closed) (node : Node) (hrow : ¬ L.row node.children)
    (hshape : (s.addNode node).2.IsLeaf (s.addNode node).1 ∨
      ∃ p, (s.addNode node).2.IsElement (s.addNode node).1 p ∧ L.Guards (s.addNode node).2 p) :
    L.Leads s (L.addItem (s.addNode node).1) (s.addNode node).2 := by
  have hleads : L.Leads s L (s.addNode node).2 := h.extends hc (extends_addNode s node)
  have hnew : ∀ l, (s.addNode node).1 ∉ (s.addNode node).2.list l :=
    fun l hl => Nat.lt_irrefl _ (hc.member l _ hl)
  refine ⟨⟨?_, hleads.fits.hasList, ?_, ?_, ?_⟩, fun m hm => Or.inl (hleads.item m hm), hleads.row,
    hleads.leaf, hleads.element⟩
  · rintro m (hm | rfl)
    · exact hleads.fits.hasNode m hm
    · exact (hasNode_addNode s node).mpr (Or.inr rfl)
  · exact fun l hl m hm => Or.inl (hleads.fits.members l hl m hm)
  · rintro m (hm | rfl)
    · exact hleads.fits.children m hm
    · rw [node_addNode_self]
      exact hrow
  · intro m hm
    have hshape : (s.addNode node).2.IsLeaf m ∨
        ∃ p, (s.addNode node).2.IsElement m p ∧ L.Guards (s.addNode node).2 p := by
      rcases hm with hm | rfl
      · exact hleads.fits.shape m hm
      · exact hshape
    rcases hshape with hleaf | ⟨p, hp, hguards⟩
    · exact Or.inl hleaf
    · exact Or.inr ⟨p, hp, hguards.addItem hp hnew⟩

/-- A new leaf is an item. Its list is no row. -/
theorem Fits.addLeafUnder (h : L.Fits s) (hs : s.Sound) (label : Label) :
    L.Leads s (L.addItem ((s.addList []).2.addNode ⟨label, (s.addList []).1⟩).1)
      ((s.addList []).2.addNode ⟨label, (s.addList []).1⟩).2 := by
  have hx := extends_addList s []
  have hrow : ¬ L.row (s.addList []).1 := fun hl => Nat.lt_irrefl _ (h.hasList _ hl)
  have hlist := h.extends hs.closed hx
  refine hlist.trans (hlist.fits.addNode (hs.addList (by simp)).closed _ hrow (Or.inl ?_))
  rw [IsLeaf, node_addNode_self]
  exact list_addList_self s []

end Layout
end TemplateTree
