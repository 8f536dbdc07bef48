import TemplateTree.Proofs.Store.Shape
import TemplateTree.Proofs.Related

/-! Forests of leaves and elements. A row unfolds to such a forest, and one that is planted becomes a
row. -/
namespace TemplateTree

variable {β : Type} {label : β → Label} {item part : β → Prop} {f : Forest β} {b : β}

/-- Trees without children. -/
def Forest.leaves (bs : List β) : Forest β := Forest.ofList id (fun _ => .nil) bs

/-- Each tree of the row is a leaf, or an element whose slot holds such a row. -/
inductive Forest.Shaped (label : β → Label) (item part : β → Prop) : Forest β → Prop
  | nil : Shaped label item part .nil
  | leaf {b : β} {rest : Forest β} (hb : item b) (hrest : Shaped label item part rest) :
    Shaped label item part (.cons b .nil rest)
  | element {b slot : β} {closer : Option β} {inner rest : Forest β} (tag : Tag) (hb : item b)
    (hslot : part slot) (hcloser : ∀ c ∈ closer, part c)
    (hspells : tag.Spells (label b) (label slot) (closer.map label))
    (hinner : Shaped label item part inner) (hrest : Shaped label item part rest) :
    Shaped label item part (.cons b (.cons slot inner (leaves closer.toList)) rest)

namespace Forest

theorem map_leaves (label : β → Label) (bs : List β) : (leaves bs).map label = leaves (bs.map label) := by
  induction bs with
  | nil => rfl
  | cons b bs ih => exact congrArg (Forest.cons (label b) .nil) ih

theorem preorder_leaves (bs : List β) : (leaves bs).preorder = bs := by
  induction bs with
  | nil => rfl
  | cons b bs ih => exact congrArg (List.cons b) ih

theorem roots_leaves (bs : List β) : (leaves bs).roots = bs := by
  induction bs with
  | nil => rfl
  | cons b bs ih => exact congrArg (List.cons b) ih

/-- What is no item is the end of an opening tag or a closing tag. -/
theorem Shaped.item_or_part (h : f.Shaped label item part) (hb : b ∈ f.preorder) :
    item b ∨ part b ∧ ∃ tag : Tag, tag.name.IsElementName ∧
      (label b = Label.leaf tag.slot ∨ label b = Label.leaf (Markup.closer tag.name)) := by
  induction h with
  | nil => cases hb
  | leaf hitem _ ih =>
    rcases List.mem_cons.mp hb with rfl | hb
    · exact Or.inl hitem
    · exact ih hb
  | @element a slot closer inner rest tag hitem hslot hcloser hspells _ _ ihi ihr =>
    rw [preorder, preorder, preorder_leaves] at hb
    rcases List.mem_cons.mp hb with rfl | hb
    · exact Or.inl hitem
    rcases List.mem_append.mp hb with hb | hb
    · rcases List.mem_cons.mp hb with rfl | hb
      · exact Or.inr ⟨hslot, tag, hspells.name, Or.inl hspells.slot⟩
      rcases List.mem_append.mp hb with hb | hb
      · exact ihi hb
      · have hmem : b ∈ closer := Option.mem_toList.mp hb
        refine Or.inr ⟨hcloser b hmem, tag, hspells.name, Or.inr ?_⟩
        have hlabel : some (label b) = if tag.isVoid then none
            else some (Label.leaf (Markup.closer tag.name)) := by
          rw [← hspells.closer, Option.mem_def.mp hmem]
          rfl
        by_cases hv : tag.isVoid = true
        · simp [hv] at hlabel
        · simpa [hv] using hlabel
    · exact ihr hb

end Forest

namespace Store

variable {s t : Store} {n : NodeId} {l : ListId}

/-- A planted closer is a new leaf with a new list. -/
theorem plant_closer (s : Store) (closer : Option Label) : ∃ c : Option NodeId,
    (s.plant (.leaves closer.toList)).1 = .leaves c.toList ∧
    (c.map fun n => ((s.plant (.leaves closer.toList)).2.node n).label) = closer ∧
    ∀ n ∈ c, ¬ s.HasNode n ∧ ¬ s.HasList ((s.plant (.leaves closer.toList)).2.node n).children ∧
      (s.plant (.leaves closer.toList)).2.IsLeaf n := by
  cases closer with
  | none => exact ⟨none, rfl, rfl, by simp⟩
  | some label =>
    let below := s.addList []
    let added := below.2.addNode ⟨label, below.1⟩
    have hself : added.2.node added.1 = ⟨label, below.1⟩ := node_addNode_self _ _
    refine ⟨some added.1, rfl, ?_, ?_⟩
    · change some (added.2.node added.1).label = some label
      rw [hself]
    · intro n hn
      obtain rfl := Option.some.inj (Option.mem_def.mp hn)
      change ¬ s.HasNode added.1 ∧ ¬ s.HasList (added.2.node added.1).children ∧
        added.2.list (added.2.node added.1).children = []
      rw [hself]
      exact ⟨Nat.lt_irrefl _, Nat.lt_irrefl _, list_addList_self s []⟩

theorem rel_plant_closer {r : β → NodeId → Prop} (s : Store) (closer : Option β)
    (h : ∀ b ∈ closer, ∀ n, r b n) :
    (Forest.leaves closer.toList).Rel r (s.plant (.leaves (closer.map label).toList)).1 := by
  cases closer with
  | none => exact .nil
  | some b => exact .cons (h b rfl _) .nil .nil

/-- The nodes of an element, put around a list: the slot, the closer and the element itself. -/
def addElement (s : Store) (l : ListId) (own slot : Label) (closer : Option Label) :
    NodeId × Store :=
  let slotted := s.addNode ⟨slot, l⟩
  let closed := slotted.2.plant (.leaves closer.toList)
  let children := closed.2.addList (slotted.1 :: closed.1.roots)
  children.2.addNode ⟨own, children.1⟩

variable {tag : Tag} {own slot : Label} {closer : Option Label}

/-- All of them are new, and so are their lists but for the one that was there. -/
theorem nodes_addElement (hs : s.Sound) (hl : s.HasList l) (own slot : Label) (closer : Option Label) :
    let added := s.addElement l own slot closer
    ∃ (k : NodeId) (c : Option NodeId),
      (added.2.node added.1).label = own ∧
      added.2.list (added.2.node added.1).children = k :: c.toList ∧
      ¬ s.HasNode k ∧ added.2.node k = ⟨slot, l⟩ ∧
      (c.map fun n => (added.2.node n).label) = closer ∧
      ∀ n ∈ c, ¬ s.HasNode n ∧ ¬ s.HasList (added.2.node n).children ∧ added.2.IsLeaf n := by
  let slotted := s.addNode ⟨slot, l⟩
  let closed := slotted.2.plant (.leaves closer.toList)
  let children := closed.2.addList (slotted.1 :: closed.1.roots)
  let added := children.2.addNode ⟨own, children.1⟩
  obtain ⟨c, hroots, hlabel, hclosers⟩ := plant_closer slotted.2 closer
  have hclosed : closed.2.Sound := (hs.addNode hl).plant _
  have hslotted : s.Extends slotted.2 := extends_addNode s _
  have hx : slotted.2.Extends closed.2 := extends_plant _ _
  have hx' : closed.2.Extends added.2 := (extends_addList _ _).trans (extends_addNode _ _)
  have hslot : slotted.2.HasNode slotted.1 := (hasNode_addNode s _).mpr (Or.inr rfl)
  have hnodes : closed.1.roots = c.toList := by rw [hroots, Forest.roots_leaves]
  have hcloser : ∀ n ∈ c, closed.2.HasNode n := by
    intro n hn
    have hin : n ∈ closed.1.roots := by
      rw [hnodes]
      exact Option.mem_toList.mpr hn
    exact (stands_plant slotted.2 _).1.roots_hasNode hin
  have hcloserNode : ∀ n ∈ c, added.2.node n = closed.2.node n :=
    fun n hn => hx'.node n (hcloser n hn)
  have hself : added.2.node added.1 = ⟨own, children.1⟩ := node_addNode_self _ _
  refine ⟨slotted.1, c, congrArg Node.label hself, ?_, fun h => Nat.lt_irrefl _ h, ?_, ?_, ?_⟩
  · change added.2.list (added.2.node added.1).children = slotted.1 :: c.toList
    rw [hself, ← hnodes]
    exact list_addList_self closed.2 _
  · change added.2.node slotted.1 = ⟨slot, l⟩
    rw [hx'.node _ (hslot.mono hx), hx.node _ hslot]
    exact node_addNode_self s _
  · refine (Option.map_congr (fun n hn => ?_)).trans hlabel
    exact congrArg Node.label (hcloserNode n hn)
  · intro n hn
    obtain ⟨hnode, hlist, hleaf⟩ := hclosers n hn
    change ¬ s.HasNode n ∧ ¬ s.HasList (added.2.node n).children ∧
      added.2.list (added.2.node n).children = []
    rw [hcloserNode n hn, hx'.list _ (hclosed.closed.children n (hcloser n hn))]
    exact ⟨fun h => hnode (h.mono hslotted), fun h => hlist (h.mono hslotted), hleaf⟩

theorem isElement_addElement (hs : s.Sound) (hl : s.HasList l) (hspells : tag.Spells own slot closer) :
    let added := s.addElement l own slot closer
    ∃ p, added.2.IsElement added.1 p ∧ ¬ s.HasNode p.slot ∧ (added.2.node p.slot).children = l ∧
      ∀ n ∈ p.closer, ¬ s.HasNode n ∧ ¬ s.HasList (added.2.node n).children := by
  intro added
  obtain ⟨k, c, hown, hchildren, hnew, hslot, hlabels, hclosers⟩ :=
    nodes_addElement hs hl own slot closer
  let p : Parts := ⟨tag.name, tag.slash, k, c⟩
  have htag : p.tag own.attributes = tag := by
    rw [hspells.own]
    rfl
  refine ⟨p, ⟨hchildren, ?_, fun n hn => (hclosers n hn).2.2⟩, hnew, congrArg Node.children hslot,
    fun n hn => ⟨(hclosers n hn).1, (hclosers n hn).2.1⟩⟩
  rw [hown, hlabels, htag]
  have hslotLabel : (added.2.node p.slot).label = slot := congrArg Node.label hslot
  rw [hslotLabel]
  exact hspells

end Store

namespace Layout

open Store

variable {s t : Store} {L L' : Layout} {n : NodeId} {l : ListId} {ns : List NodeId}

/-- An element around a row is an item. -/
theorem Fits.addElement (h : L.Fits s) (hs : s.Sound) (hl : L.row l) {tag : Tag} {own slot : Label}
    {closer : Option Label} (hspells : tag.Spells own slot closer) :
    L.Leads s (L.addItem (s.addElement l own slot closer).1) (s.addElement l own slot closer).2 := by
  let slotted := s.addNode ⟨slot, l⟩
  let closed := slotted.2.plant (.leaves closer.toList)
  let children := closed.2.addList (slotted.1 :: closed.1.roots)
  obtain ⟨p, hp, hslot, hinner, hclosers⟩ := isElement_addElement hs (h.hasList l hl) hspells
  have hguards : L.Guards (s.addElement l own slot closer).2 p := by
    refine ⟨fun hi => hslot (h.hasNode _ hi), ?_, fun n hn => ?_⟩
    · rw [hinner]
      exact hl
    · obtain ⟨hnode, hlist⟩ := hclosers n hn
      exact ⟨fun hi => hnode (h.hasNode n hi), fun hr => hlist (h.hasList _ hr)⟩
  have hclosed : closed.2.Sound := (hs.addNode (h.hasList l hl)).plant _
  have hin : ∀ n ∈ slotted.1 :: closed.1.roots, closed.2.HasNode n := by
    intro n hn
    rcases List.mem_cons.mp hn with rfl | hn
    · exact HasNode.mono ((hasNode_addNode s _).mpr (Or.inr rfl)) (extends_plant _ _)
    · exact (stands_plant slotted.2 _).1.roots_hasNode hn
  have hx : s.Extends closed.2 := (extends_addNode s _).trans (extends_plant _ _)
  have hchildren : L.Leads s L children.2 := h.extends hs.closed (hx.trans (extends_addList _ _))
  have hrow : ¬ L.row children.1 :=
    fun hr => Nat.lt_irrefl _ (Nat.lt_of_lt_of_le (h.hasList _ hr) hx.lists)
  exact hchildren.trans
    (hchildren.fits.addNode (hclosed.addList hin).closed _ hrow (Or.inr ⟨p, hp, hguards⟩))

/-- A planted row has new items where the forest has its items. -/
theorem Fits.plant (h : L.Fits s) (hs : s.Sound) (hf : f.Shaped label item part) : ∃ L',
    L.Leads s L' (s.plant (f.map label)).2 ∧
    f.Rel (fun b n => ¬ part b → L'.item n) (s.plant (f.map label)).1 ∧
    ∀ n ∈ (s.plant (f.map label)).1.roots, L'.item n := by
  induction hf generalizing s L with
  | nil => exact ⟨L, .refl h, .nil, by simp [Forest.map, Store.plant, Forest.roots]⟩
  | @leaf b rest _ _ ih =>
    let added := (s.addList []).2.addNode ⟨label b, (s.addList []).1⟩
    have hnew := h.addLeafUnder hs (label b)
    have hsound : added.2.Sound := hs.plant (.cons (label b) .nil .nil)
    obtain ⟨L', hrest, hrel, hroots⟩ := ih hnew.fits hsound
    have hitem : L'.item added.1 := hrest.item _ (Or.inr rfl)
    refine ⟨L', hnew.trans hrest, .cons (fun _ => hitem) .nil hrel, ?_⟩
    intro n hn
    rcases List.mem_cons.mp hn with rfl | hn
    · exact hitem
    · exact hroots n hn
  | @element b slot closer inner rest tag _ hslot hcloser hspells _ _ ihi ihr =>
    let below := s.plant (inner.map label)
    let row := below.2.addList below.1.roots
    let added := row.2.addElement row.1 (label b) (label slot) (closer.map label)
    obtain ⟨L₁, hbelow, hinner, hinside⟩ := ihi h hs
    have hmembers : ∀ n ∈ below.1.roots, below.2.HasNode n :=
      fun n hn => hbelow.fits.hasNode n (hinside n hn)
    have hrow := hbelow.fits.addList (hs.plant _).closed hinside
    have hsound : row.2.Sound := (hs.plant _).addList hmembers
    have hadded := hrow.fits.addElement hsound (Or.inr rfl) hspells
    have hsound' : added.2.Sound := hs.plant (.cons (label b) (.cons (label slot) (inner.map label)
      (.leaves (closer.map label).toList)) .nil)
    obtain ⟨L', hbeside, hrel, hroots⟩ := ihr hadded.fits hsound'
    have hitem : L'.item added.1 := hbeside.item _ (Or.inr rfl)
    have hmap : (Forest.cons b (.cons slot inner (.leaves closer.toList)) rest).map label =
        .cons (label b) (.cons (label slot) (inner.map label) (.leaves (closer.map label).toList))
          (rest.map label) := by
      rw [Forest.map, Forest.map, Forest.map_leaves, ← Option.toList_map]
    rw [hmap]
    refine ⟨L', ((hbelow.trans hrow).trans hadded).trans hbeside,
      .cons (fun _ => hitem) (.cons (fun hno => absurd hslot hno) (hinner.imp ?_) ?_) hrel, ?_⟩
    · exact fun _ n hin hno => hbeside.item n (hadded.item n (hrow.item n (hin hno)))
    · exact rel_plant_closer _ closer (fun c hc _ hno => absurd (hcloser c hc) hno)
    · intro n hn
      rcases List.mem_cons.mp hn with rfl | hn
      · exact hitem
      · exact hroots n hn

/-- A list that is planted is a row. -/
theorem Fits.plantList (h : L.Fits s) (hs : s.Sound) (hf : f.Shaped label item part) : ∃ L',
    L.Leads s L' (s.plantList (f.map label)).2.2 ∧ L'.row (s.plantList (f.map label)).1 ∧
    f.Rel (fun b n => ¬ part b → L'.item n) (s.plantList (f.map label)).2.1 := by
  obtain ⟨L', hplant, hrel, hroots⟩ := h.plant hs hf
  have hrow := hplant.fits.addList (hs.plant _).closed hroots
  exact ⟨_, hplant.trans hrow, Or.inr rfl, hrel.imp (fun _ n hn hno => hrow.item n (hn hno))⟩

/-- The forest under a row, with what is an item and what is not. -/
def ShapedBy (L : Layout) (f : Forest Occurrence) : Prop :=
  f.Shaped (·.node.label) (fun o => L.item o.id ∧ L.row o.owner) (fun o => ¬ L.item o.id)

theorem forest_closer (hs : s.Sound) (k : ListId) (c : Option NodeId) (hc : ∀ n ∈ c, s.IsLeaf n) :
    Forest.ofList (fun n => ⟨n, k, s.node n⟩) (fun n => s.forest (s.node n).children) c.toList =
      .leaves (c.map fun n => (⟨n, k, s.node n⟩ : Occurrence)).toList := by
  cases c with
  | none => rfl
  | some n =>
    have hnil : s.forest (s.node n).children = .nil := by
      rw [forest_eq hs.closed hs.acyclic, hc n rfl]
      rfl
    simp only [Option.toList_some, Forest.ofList, hnil]
    rfl

/-- Items where they stand, when what is inside the elements is shaped. -/
theorem Fits.shaped_items (h : L.Fits s) (hs : s.Sound) (hl : L.row l) (hns : ∀ n ∈ ns, L.item n)
    (hinside : ∀ n ∈ ns, ∀ p, s.IsElement n p → L.ShapedBy (s.forest (s.node p.slot).children)) :
    L.ShapedBy (Forest.ofList (fun n => ⟨n, l, s.node n⟩) (fun n => s.forest (s.node n).children)
      ns) := by
  induction ns with
  | nil => exact .nil
  | cons n ns ih =>
    have hrest := ih (fun m hm => hns m (List.mem_cons_of_mem n hm))
      (fun m hm => hinside m (List.mem_cons_of_mem n hm))
    have hn := hns n List.mem_cons_self
    rw [Forest.ofList, forest_eq hs.closed hs.acyclic (s.node n).children]
    rcases h.shape n hn with hleaf | ⟨p, hp, hguards⟩
    · rw [hleaf]
      exact .leaf ⟨hn, hl⟩ hrest
    · rw [hp.children, Forest.ofList, forest_closer hs _ _ hp.closer]
      have hinner := hinside n List.mem_cons_self p hp
      refine .element (p.tag (s.node n).label.attributes) ⟨hn, hl⟩ hguards.slot ?_ ?_ hinner hrest
      · intro o ho
        obtain ⟨c, hc, rfl⟩ := Option.map_eq_some_iff.mp ho
        exact (hguards.closer c hc).1
      · rw [Option.map_map]
        exact hp.spells

theorem Fits.shaped (h : L.Fits s) (hs : s.Sound) (hl : L.row l) : L.ShapedBy (s.forest l) := by
  -- A row inside an element of the list is two levels below, so the members' lists go along.
  have both : ∀ k, (L.row k → L.ShapedBy (s.forest k)) ∧ ∀ n ∈ s.list k,
      L.row (s.node n).children → L.ShapedBy (s.forest (s.node n).children) := by
    intro k
    induction k using list_induction hs.closed hs.acyclic with
    | step k ih =>
      refine ⟨fun hk => ?_, fun n hn => (ih n hn).1⟩
      rw [forest_eq hs.closed hs.acyclic]
      refine h.shaped_items hs hk (h.members k hk) (fun n hn p hp => ?_)
      have hslot : p.slot ∈ s.list (s.node n).children := by
        rw [hp.children]
        exact List.mem_cons_self
      exact (ih n hn).2 p.slot hslot (h.guards (h.members k hk n hn) hp).inner
  exact (both l).1 hl

/-- A single item where it stands. -/
theorem Fits.shaped_item (h : L.Fits s) (hs : s.Sound) (hl : L.row l) (hn : L.item n) :
    L.ShapedBy (.cons ⟨n, l, s.node n⟩ (s.forest (s.node n).children) .nil) := by
  have hitem : ∀ m ∈ [n], L.item m := by
    intro m hm
    rw [List.mem_singleton.mp hm]
    exact hn
  exact h.shaped_items hs hl hitem
    (fun m hm p hp => h.shaped hs (h.guards (hitem m hm) hp).inner)

end Layout
end TemplateTree
