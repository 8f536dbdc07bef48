import TemplateTree.Proofs.Store.Shaped
import TemplateTree.Proofs.View.Found
import TemplateTree.Proofs.View.History

/-! Edits and queries of stores in which elements keep their shape. What a view is about is an item, so
an edit writes to a row, and a query answers views of items again. -/
namespace TemplateTree

variable {s t : Store} {v w : View} {e : Edit} {c : Content} {n : NodeId} {l k : ListId} {L : Layout}

/-- The list that an edit writes to, if it writes to one. -/
def View.written? (v : View) (s : Store) : Edit → Option ListId
  | .setAttribute _ _ | .removeAttribute _ | .setTitle _ => none
  | .clear | .setInner _ | .append _ | .prepend _ => v.inner? s
  | .remove | .after _ | .before _ | .replace _ => some v.list

namespace Store

theorem list_addLeaf (hk : s.HasList k) (content : Text) :
    (s.addLeaf content).2.list k = s.list k :=
  (extends_addLeaf s content).list k hk

theorem list_insert_of_ne (hk : s.HasList k) (hne : k ≠ l) (i : Nat) (c : Content) :
    (s.insert l i c).list k = s.list k := by
  cases c with
  | text content =>
    rw [insert_text, list_setList_of_ne hne]
    exact list_addLeaf hk content
  | nodes ns =>
    rw [insert_nodes, list_setList_of_ne hne]

theorem PutInto.list_of_ne (h : s.PutInto l c t) (hk : s.HasList k) (hne : k ≠ l) :
    t.list k = s.list k := by
  obtain ⟨kept, i, -, rfl⟩ := h
  rw [list_insert_of_ne (hasList_setList.mpr hk) hne, list_setList_of_ne hne]

end Store

namespace View

open Store

theorem list_insertion_of_ne (hc : e.content? = some c) (hk : s.HasList k)
    (h : v.target? s e ≠ some k) : (v.edit s e).1.list k = s.list k := by
  cases ht : v.target? s e with
  | none =>
    cases e with
    | append | prepend =>
      have ht : v.inner? s = none := ht
      simp [edit, append, prepend, ht]
    | after | before | replace => simp [target?] at ht
    | _ => simp [Edit.content?] at hc
  | some l =>
    have hne : k ≠ l := fun he => h (by rw [ht, he])
    rcases edit_cases hc ht with ⟨-, heq⟩ | ⟨-, -, hput | ⟨-, heq⟩⟩
    · rw [heq]
    · exact hput.list_of_ne hk hne
    · rw [heq]

/-- An edit leaves every other list alone. -/
theorem list_edit_of_ne (hk : s.HasList k) (h : v.written? s e ≠ some k) :
    (v.edit s e).1.list k = s.list k := by
  cases e with
  | setAttribute key value =>
    simp only [edit, setAttribute]
    split <;> rfl
  | removeAttribute key =>
    simp only [edit, removeAttribute]
    split
    · rfl
    · split <;> rfl
  | setTitle title =>
    simp only [edit, setTitle]
    split <;> rfl
  | remove =>
    have hne : k ≠ v.list := fun he => h (congrArg some he.symm)
    simp only [edit, remove]
    split
    · rfl
    · split
      · exact list_setList_of_ne hne
      · rfl
  | clear =>
    simp only [edit, clear]
    split
    · rfl
    · next l hl => exact list_setList_of_ne (fun he => h (hl.trans (congrArg some he.symm)))
  | setInner content =>
    simp only [edit, setInner]
    split
    · rfl
    · next l hl =>
      rw [list_setList_of_ne (fun he => h (hl.trans (congrArg some he.symm)))]
      exact list_addLeaf hk content
  | append c | prepend c => exact list_insertion_of_ne rfl hk h
  | after c | before c | replace c => exact list_insertion_of_ne rfl hk h

end View

namespace Text

variable {t u : Text}

/-- A title needs two tags. -/
theorem gt_of_titleHere? (h : (titleHere? u).isSome = true) : 2 ≤ u.count '>' := by
  rw [titleHere?] at h
  split at h
  · next hboth =>
    obtain ⟨hopen, hclose⟩ := Bool.and_eq_true_iff.mp hboth
    obtain ⟨r, rfl⟩ := List.isPrefixOf_iff_prefix.mp hopen
    rw [List.drop_left] at hclose
    obtain ⟨r', hr⟩ := List.isPrefixOf_iff_prefix.mp hclose
    have hinner := congrArg (List.count '>') (upTo_append_onward stopsTitle r)
    rw [← hr, List.count_append, List.count_append] at hinner
    have h1 : titleOpen.count '>' = 1 := by decide
    have h2 : titleClose.count '>' = 1 := by decide
    rw [List.count_append]
    omega
  · simp at h

theorem gt_of_title? (h : (title? t).isSome = true) : 2 ≤ t.count '>' := by
  have hcut := congrArg (List.count '>') (upTo_append_onward titleBegins t)
  have hhere := gt_of_titleHere? h
  rw [List.count_append] at hcut
  omega

theorem gt_of_setTitle? {new : Text} (h : (setTitle? new t).isSome = true) : 2 ≤ t.count '>' := by
  rw [setTitle?, Option.isSome_map] at h
  exact gt_of_title? h

theorem IsElementName.gt_count {name : Text} (h : name.IsElementName) : name.count '>' = 0 := by
  rw [List.count_eq_zero]
  intro hmem
  exact absurd (h.chars _ hmem) (by decide)

end Text

/-- What the parts of an element say is no title, and neither is what the element says itself. -/
theorem Tag.no_title {tag : Tag} (h : tag.name.IsElementName) (new : Text) :
    Text.setTitle? new ('<' :: tag.name) = none ∧ Text.setTitle? new tag.slot = none ∧
      Text.setTitle? new (Markup.closer tag.name) = none := by
  have few : ∀ u : Text, u.count '>' ≤ 1 → Text.setTitle? new u = none := by
    intro u hu
    by_contra hsome
    have := Text.gt_of_setTitle? (Option.isSome_iff_ne_none.mpr hsome)
    omega
  have hname := h.gt_count
  refine ⟨few _ ?_, few _ ?_, few _ ?_⟩
  · simp [hname]
  · rw [Tag.slot]
    split <;> decide
  · simp [Markup.closer, hname]

namespace Store

/-- A list is written node by node. -/
theorem render_labels (hs : s.Sound) (l : ListId) :
    (s.labels l).render = (s.list l).flatMap s.renderNode := by
  rw [labels_eq hs.closed hs.acyclic]
  induction s.list l with
  | nil => rfl
  | cons n ns ih =>
    rw [Forest.ofList, Forest.render, ih, List.flatMap_cons, renderNode, List.append_assoc]

theorem renderNode_of_leaf {content : Text} (hlabel : (s.node n).label = Label.leaf content) :
    s.renderNode n = content ++ (s.labels (s.node n).children).render := by
  have attributeless : Attributes.render ∅ = [] := rfl
  rw [renderNode, hlabel, Label.render, Label.leaf, attributeless, List.append_nil]

/-- An element is written as its opening tag, what is inside, and its closing tag. -/
theorem IsElement.renderNode {p : Parts} (hs : s.Sound) (h : s.IsElement n p) :
    let tag := p.tag (s.node n).label.attributes
    s.renderNode n = tag.opening ++ ((s.labels (s.node p.slot).children).render ++
      if tag.isVoid then [] else Markup.closer tag.name) := by
  intro tag
  have hcloser : p.closer.toList.flatMap s.renderNode =
      if tag.isVoid then [] else Markup.closer tag.name := by
    have hlabel := h.spells.closer
    cases hc : p.closer with
    | none =>
      rw [hc] at hlabel
      by_cases hv : tag.isVoid = true
      · simp [hv]
      · simp [tag, hv] at hlabel
    | some c =>
      rw [hc] at hlabel
      by_cases hv : tag.isVoid = true
      · simp [tag, hv] at hlabel
      · have hleaf : (s.node c).label = Label.leaf (Markup.closer tag.name) := by
          simpa [tag, hv] using hlabel
        have hnil : (s.labels (s.node c).children).render = [] := by
          rw [render_labels hs, h.closer c hc]
          rfl
        simp [hv, renderNode_of_leaf hleaf, hnil]
  have hown : (s.node n).label.render = '<' :: tag.name ++ tag.attributes.render := by
    rw [Label.render, h.content]
    rfl
  rw [Store.renderNode, render_labels hs, h.children, List.flatMap_cons, renderNode_of_leaf h.spells.slot,
    hcloser, hown, Tag.opening]
  simp only [List.append_assoc]
  rfl

end Store

namespace Layout

open Store

variable {L' : Layout} {p : Parts} {f : Forest Occurrence} {o : Occurrence}

/-- The view shows a row and is about an item. -/
structure Admits (L : Layout) (v : View) : Prop where
  list : L.row v.list
  focus : ∀ n, v.focus = some n → L.item n

theorem Admits.mono (h : L.Admits v) (hl : L.Leads s L' t) : L'.Admits v :=
  ⟨hl.row _ h.list, fun n hn => hl.item n (h.focus n hn)⟩

theorem Admits.inUse (h : L.Admits v) (hfits : L.Fits s) : v.InUse s :=
  ⟨hfits.hasList _ h.list, fun n hn => hfits.hasNode n (h.focus n hn)⟩

theorem Fits.node? (h : L.Fits s) (hv : L.Admits v) (hn : v.node? s = some n) : L.item n := by
  rw [View.node?] at hn
  cases hf : v.focus with
  | some m =>
    rw [hf] at hn
    exact hv.focus n (hf.trans hn)
  | none =>
    rw [hf] at hn
    exact h.members v.list hv.list n (List.mem_of_mem_head? hn)

/-- What is inside of what a view is about is inside an element. -/
theorem Fits.inner? (h : L.Fits s) (hv : L.Admits v) (hl : v.inner? s = some l) :
    ∃ n p, L.item n ∧ s.IsElement n p ∧ l = (s.node p.slot).children := by
  simp only [View.inner?, View.slot?, Option.map_eq_some_iff, Option.bind_eq_some_iff] at hl
  obtain ⟨slot, ⟨n, hn, hslot⟩, rfl⟩ := hl
  have hitem := h.node? hv hn
  rcases h.shape n hitem with hleaf | ⟨p, hp, -⟩
  · rw [hleaf] at hslot
    cases hslot
  · rw [hp.children, List.head?_cons] at hslot
    obtain rfl := Option.some.inj hslot
    exact ⟨n, p, hitem, hp, rfl⟩

theorem Fits.row_inner? (h : L.Fits s) (hv : L.Admits v) (hl : v.inner? s = some l) : L.row l := by
  obtain ⟨n, p, hn, hp, rfl⟩ := h.inner? hv hl
  exact (h.guards hn hp).inner

/-- An edit writes to rows only. -/
theorem Fits.row_written? (h : L.Fits s) (hv : L.Admits v) (hl : v.written? s e = some l) :
    L.row l := by
  cases e with
  | setAttribute | removeAttribute | setTitle => cases hl
  | clear | setInner | append | prepend => exact h.row_inner? hv hl
  | remove | after | before | replace =>
    obtain rfl := Option.some.inj hl
    exact hv.list

theorem Fits.row_target? (h : L.Fits s) (hv : L.Admits v) (hl : v.target? s e = some l) :
    L.row l := by
  cases e with
  | append | prepend => exact h.row_inner? hv hl
  | after | before | replace =>
    obtain rfl := Option.some.inj hl
    exact hv.list
  | _ => simp [View.target?] at hl

theorem Fits.addLeaf (h : L.Fits s) (hs : s.Sound) (content : Text) :
    L.Leads s (L.addItem (s.addLeaf content).1) (s.addLeaf content).2 :=
  h.addLeafUnder hs (Label.leaf content)

/-- Items are put into a row. -/
theorem Fits.putInto (h : L.Fits s) (hs : s.Sound) (hl : L.row l) (hc : ∀ n ∈ c.shared, L.item n)
    (hput : s.PutInto l c t) : ∃ L', L.Leads s L' t := by
  obtain ⟨kept, i, hsub, rfl⟩ := hput
  have hkept := h.setList hs.closed hl (fun n hn => h.members l hl n (hsub.subset hn))
  have hsound : (s.setList l kept).Sound := hs.shrink hsub.subset
  cases c with
  | text content =>
    have hleaf := hkept.fits.addLeaf hsound content
    refine ⟨_, (hkept.trans hleaf).trans
      (hleaf.fits.setList (hsound.addLeaf content).closed hl (fun n hn => ?_))⟩
    rcases mem_splice.mp hn with hn | hn
    · exact hleaf.fits.members l hl n hn
    · exact Or.inr (List.mem_singleton.mp hn)
  | nodes ns =>
    refine ⟨L, hkept.trans (hkept.fits.setList hsound.closed hl (fun n hn => ?_))⟩
    rcases mem_splice.mp hn with hn | hn
    · exact hkept.fits.members l hl n hn
    · exact hc n hn

theorem Fits.setTitle (h : L.Fits s) (hs : s.Sound) (hv : L.Admits v) (title : Text) :
    L.Leads s L (v.setTitle s title).1 := by
  simp only [View.setTitle]
  split
  · exact .refl h
  · next n content hfound =>
    obtain ⟨o, ho, hset⟩ := List.exists_of_findSome?_eq_some hfound
    obtain ⟨content', htitle, hpair⟩ := Option.map_eq_some_iff.mp hset
    obtain ⟨rfl, rfl⟩ := Prod.mk.inj hpair
    have hnode := (occurrence_sound ho).2
    rw [hnode] at htitle
    rcases (h.shaped hs hv.list).item_or_part ho with ⟨hitem, -⟩ | ⟨-, tag, hname, hlabel⟩
    · refine h.setLabel hs.closed hitem (fun hno => ?_)
      rcases h.shape o.id hitem with hleaf | ⟨p, hp, -⟩
      · exact absurd hleaf hno
      · have hnone := (Tag.no_title hp.spells.name title).1
        rw [hp.content] at htitle
        cases hnone.symm.trans htitle
    · obtain ⟨-, hslot, hcloser⟩ := Tag.no_title hname title
      rw [hnode] at hlabel
      rcases hlabel with hlabel | hlabel
      · rw [hlabel] at htitle
        cases hslot.symm.trans htitle
      · rw [hlabel] at htitle
        cases hcloser.symm.trans htitle

/-- What an edit inserts are items. -/
def Supplies (L : Layout) (e : Edit) : Prop := ∀ c, e.content? = some c → ∀ n ∈ c.shared, L.item n

theorem Fits.insertion (h : L.Fits s) (hs : s.Sound) (hv : L.Admits v) (he : L.Supplies e)
    (hc : e.content? = some c) : ∃ L', L.Leads s L' (v.edit s e).1 := by
  cases ht : v.target? s e with
  | none =>
    cases e with
    | append | prepend =>
      have ht : v.inner? s = none := ht
      simp only [View.edit, View.append, View.prepend, ht]
      exact ⟨L, .refl h⟩
    | after | before | replace => simp [View.target?] at ht
    | _ => simp [Edit.content?] at hc
  | some l =>
    rcases View.edit_cases hc ht with ⟨-, heq⟩ | ⟨-, -, hput | ⟨-, heq⟩⟩
    · rw [heq]
      exact ⟨L, .refl h⟩
    · exact h.putInto hs (h.row_target? hv ht) (he c hc) hput
    · rw [heq]
      exact ⟨L, .refl h⟩

/-- Every edit leaves a store that the layout fits again, with a new item for a new text. -/
theorem Fits.edit (h : L.Fits s) (hs : s.Sound) (hv : L.Admits v) (he : L.Supplies e) :
    ∃ L', L.Leads s L' (v.edit s e).1 := by
  cases e with
  | setAttribute key value =>
    simp only [View.edit, View.setAttribute]
    split
    · exact ⟨L, .refl h⟩
    · next n hn => exact ⟨L, h.setLabel hs.closed (h.node? hv hn) (fun _ => rfl)⟩
  | removeAttribute key =>
    simp only [View.edit, View.removeAttribute]
    split
    · exact ⟨L, .refl h⟩
    · next n hn =>
      split
      · exact ⟨L, h.setLabel hs.closed (h.node? hv hn) (fun _ => rfl)⟩
      · exact ⟨L, .refl h⟩
  | setTitle title => exact ⟨L, h.setTitle hs hv title⟩
  | remove =>
    simp only [View.edit, View.remove]
    split
    · exact ⟨L, .refl h⟩
    · split
      · refine ⟨L, h.setList hs.closed hv.list (fun n hn => ?_)⟩
        exact h.members v.list hv.list n (List.mem_of_mem_filter hn)
      · exact ⟨L, .refl h⟩
  | clear =>
    simp only [View.edit, View.clear]
    split
    · exact ⟨L, .refl h⟩
    · next l hl =>
      exact ⟨L, h.setList hs.closed (h.row_inner? hv hl) (fun n hn => absurd hn List.not_mem_nil)⟩
  | setInner content =>
    simp only [View.edit, View.setInner]
    split
    · exact ⟨L, .refl h⟩
    · next l hl =>
      have hleaf := h.addLeaf hs content
      refine ⟨_, hleaf.trans (hleaf.fits.setList (hs.addLeaf content).closed (h.row_inner? hv hl)
        (fun n hn => ?_))⟩
      exact Or.inr (List.mem_singleton.mp hn)
  | append | prepend => exact h.insertion hs hv he rfl
  | after | before | replace => exact h.insertion hs hv he rfl

/-- The copy of an item is an item. -/
theorem Fits.duplicate (h : L.Fits s) (hs : s.Sound) (hv : L.Admits v) :
    ∃ L', L.Leads s L' (v.duplicate s).2 ∧ L'.Admits (v.duplicate s).1 := by
  obtain ⟨L', hleads, hrow, hrel⟩ := h.plantList hs (h.shaped hs hv.list)
  refine ⟨L', hleads, hrow, fun k hk => ?_⟩
  obtain ⟨n, hn, hcopy⟩ := Option.bind_eq_some_iff.mp hk
  obtain ⟨⟨o, k'⟩, hfound, rfl⟩ := Option.map_eq_some_iff.mp hcopy
  have hsame := List.find?_some hfound
  have hid : o.id = n := of_decide_eq_true hsame
  have hpair := (List.forall₂_iff_zip.mp hrel.preorder).2 (List.mem_of_find?_eq_some hfound)
  exact hpair (fun hno => hno (hid ▸ hv.focus n hn))

/-- A node of a shaped forest that carries an attribute is an item. -/
theorem ShapedBy.admits (h : L.ShapedBy f) (hw : w.FoundIn f) : L.Admits w := by
  obtain ⟨o, ho, rfl, key, hkey⟩ := hw
  rcases h.item_or_part ho with ⟨hitem, hrow⟩ | ⟨-, tag, -, hlabel⟩
  · refine ⟨hrow, fun n hn => ?_⟩
    rw [← Option.some.inj hn]
    exact hitem
  · have hnone : ∀ content, o.node.label = Label.leaf content → o.attribute? key = none := by
      intro content hcontent
      rw [Occurrence.attribute?, hcontent]
      rfl
    rcases hlabel with hlabel | hlabel
    · rw [hnone _ hlabel] at hkey
      cases hkey
    · rw [hnone _ hlabel] at hkey
      cases hkey

theorem Fits.answers (h : L.Fits s) (hs : s.Sound) (hv : L.Admits v) {q : Query} (hq : q ≠ .nodes)
    (hw : w ∈ v.answers s q) : L.Admits w := by
  rcases View.answers_found hq hw with ⟨-, rfl⟩ | hfound | ⟨-, n, hn, hfound⟩
  · exact hv
  · exact (h.shaped hs hv.list).admits hfound
  · exact (h.shaped_item hs hv.list (h.node? hv hn)).admits hfound

end Layout
end TemplateTree
