import TemplateTree.Proofs.Markup.Representation
import TemplateTree.Proofs.Markup.Bones
import TemplateTree.Proofs.Markup.RoundTrip
import TemplateTree.Proofs.Store.Once
import TemplateTree.Proofs.Text.Strip
import TemplateTree.Proofs.View.History

/-! The text of an element. Tags are taken out of the rendered markup without regard to quotes, so
what an attribute value has behind a `>` is left in the text. -/
namespace TemplateTree

open Text

variable {s : Store} {v : View} {l : ListId} {o : Occurrence} {m : Markup} {f : Forest Occurrence}
  {tag : Tag} {t : Text}

theorem Reference.gt_of_escape (h : '>' ∈ escape t) : '>' ∈ t := by
  fun_induction escape t with
  | case1 => cases h
  | case2 r ih | case3 r ih =>
    rcases List.mem_append.mp h with h | h
    · exact absurd h (by decide)
    · exact List.mem_cons_of_mem _ (ih h)
  | case4 c r _ _ ih =>
    rcases List.mem_cons.mp h with rfl | h
    · exact List.mem_cons_self
    · exact List.mem_cons_of_mem _ (ih h)

/-- No value holds the sign that ends a tag. -/
def Attributes.Unended (a : Attributes) : Prop := ∀ e ∈ a.entries, ∀ value ∈ e.2, '>' ∉ value

namespace Tag

/-- The names in the tag are made of the characters of names. -/
structure Named (tag : Tag) : Prop where
  name : tag.name.IsElementName
  keys : ∀ k ∈ tag.attributes.keys, k.markupName.all isAttributeChar = true

theorem slot_eq (tag : Tag) : ∃ a : Text, '>' ∉ a ∧ tag.slot = a ++ ['>'] := by
  cases h : tag.slash with
  | false => exact ⟨[], by simp, by simp [slot, h]⟩
  | true => exact ⟨['/'], by simp, by simp [slot, h]⟩

theorem tagsEnd_opening (tag : Tag) : TagsEnd tag.opening := by
  obtain ⟨a, -, ha⟩ := tag.slot_eq
  have hlast : tag.opening = '<' :: tag.name ++ (tag.attributes.render ++ a) ++ ['>'] := by
    rw [opening, ha, ← List.append_assoc, ← List.append_assoc, List.append_assoc ('<' :: tag.name)]
  rw [hlast]
  exact tagsEnd_append_gt _

theorem gt_not_mem_render (hkeys : ∀ k ∈ tag.attributes.keys, k.markupName.all isAttributeChar = true)
    (h : tag.attributes.Unended) : '>' ∉ tag.attributes.render := by
  rw [Attributes.render, List.mem_flatMap]
  rintro ⟨⟨key, value⟩, he, hgt⟩
  have hkey : '>' ∉ key.markupName := by
    intro hmem
    have hchar := List.all_eq_true.mp (hkeys key (List.mem_map_of_mem he)) _ hmem
    exact absurd hchar (by decide)
  cases value with
  | none =>
    rcases List.mem_cons.mp hgt with hgt | hgt
    · cases hgt
    · exact hkey hgt
  | some value =>
    have hvalue : '>' ∉ Reference.escape value := fun hmem =>
      h _ he value rfl (Reference.gt_of_escape hmem)
    simp [Attributes.renderEntry, hkey, hvalue] at hgt

/-- A tag whose only `>` is its end goes away as a whole. -/
theorem stripTags_opening (hn : tag.Named) (h : tag.attributes.Unended) : stripTags tag.opening = [] := by
  obtain ⟨a, ha, hslot⟩ := tag.slot_eq
  have hname : '>' ∉ tag.name := fun hmem => absurd (hn.name.chars _ hmem) (by decide)
  have hfront : '>' ∉ tag.name ++ (tag.attributes.render ++ a) := by
    simp [hname, gt_not_mem_render hn.keys h, ha]
  have hshape : tag.opening = '<' :: (tag.name ++ (tag.attributes.render ++ a) ++ ['>']) := by
    simp [opening, hslot]
  rw [hshape, stripTags_tag hfront, stripTags]

end Tag

namespace Markup

/-- The elements of the forest are those of the markup. -/
theorem elements_forest (m : Markup) :
    m.forest.elements = m.bones.map fun tag => ⟨'<' :: tag.name, tag.attributes⟩ := by
  induction m with
  | nil => rfl
  | text source rest ih => exact ih
  | element tag inner rest ihi ihr => rw [forest, Forest.elements, ihi, ihr, bones, Forest.map]

/-- What is left without tags: the texts, and what stands behind the first `>` of an opening tag. -/
def shown : Markup → Text
  | nil => []
  | text source rest => source ++ shown rest
  | element tag inner rest => stripTags tag.opening ++ (shown inner ++ shown rest)

theorem stripTags_closer (h : tag.name.IsElementName) (x : Text) :
    stripTags (closer tag.name ++ x) = stripTags x := by
  have hname : '>' ∉ '/' :: tag.name := by
    intro hmem
    rcases List.mem_cons.mp hmem with hmem | hmem
    · cases hmem
    · exact absurd (h.chars _ hmem) (by decide)
  have hshape : closer tag.name ++ x = '<' :: ('/' :: tag.name ++ '>' :: x) := by simp [closer]
  rw [hshape, stripTags_tag hname]

theorem stripTags_render (hm : ∀ tag ∈ m.bones.preorder, tag.Named)
    (hraw : ∀ t ∈ m.forest.slices, '<' ∉ t) (x : Text) :
    stripTags (m.forest.render ++ x) = m.shown ++ stripTags x := by
  induction m generalizing x with
  | nil => rfl
  | text source rest ih =>
    have hsource : '<' ∉ source := hraw source List.mem_cons_self
    rw [render_text, List.append_assoc, stripTags_append (tagsEnd_of_no_mark hsource),
      stripTags_of_no_mark hsource, ih hm fun t ht => hraw t (List.mem_cons_of_mem _ ht), shown,
      List.append_assoc]
  | element tag inner rest ihi ihr =>
    have htag : tag.Named := hm tag List.mem_cons_self
    have hinner := ihi (fun t ht => hm t (Forest.mem_preorder_cons.mpr (Or.inr (Or.inl ht))))
      (fun t ht => hraw t (List.mem_append_left _ ht))
    have hrest := ihr (fun t ht => hm t (Forest.mem_preorder_cons.mpr (Or.inr (Or.inr ht))))
      (fun t ht => hraw t (List.mem_append_right _ ht))
    have hclosed (y : Text) :
        stripTags ((if tag.isVoid then [] else closer tag.name) ++ y) = stripTags y := by
      split
      · rw [List.nil_append]
      · exact stripTags_closer htag.name y
    rw [render_element, List.append_assoc, stripTags_append tag.tagsEnd_opening, List.append_assoc,
      hinner, List.append_assoc, hclosed, hrest, shown]
    simp only [List.append_assoc]

/-- The text is longer than the texts by what the opening tags leave. -/
theorem length_shown (m : Markup) : m.shown.length = m.forest.slices.flatten.length +
    (m.bones.preorder.map fun tag => (stripTags tag.opening).length).sum := by
  induction m with
  | nil => rfl
  | text source rest ih =>
    have hslices : (text source rest).forest.slices = source :: rest.forest.slices := rfl
    rw [shown, hslices, List.flatten_cons, List.length_append, List.length_append, ih, bones]
    omega
  | element tag inner rest ihi ihr =>
    have hslices : (element tag inner rest).forest.slices =
        inner.forest.slices ++ rest.forest.slices := rfl
    rw [shown, hslices, List.flatten_append, List.length_append, List.length_append,
      List.length_append, ihi, ihr, bones, Forest.preorder, List.map_cons, List.map_append,
      List.sum_cons, List.sum_append]
    omega

theorem shown_eq_iff : m.shown = m.forest.slices.flatten ↔
    ∀ tag ∈ m.bones.preorder, stripTags tag.opening = [] := by
  constructor
  · intro h tag htag
    have hlength := m.length_shown
    rw [h] at hlength
    have hzero := List.sum_eq_zero_iff.mp (Nat.left_eq_add.mp hlength)
    exact List.length_eq_zero_iff.mp (hzero _ (List.mem_map_of_mem htag))
  · intro h
    induction m with
    | nil => rfl
    | text source rest ih => exact congrArg (source ++ ·) (ih h)
    | element tag inner rest ihi ihr =>
      have hslices : (element tag inner rest).forest.slices =
          inner.forest.slices ++ rest.forest.slices := rfl
      rw [shown, h tag List.mem_cons_self, List.nil_append, hslices, List.flatten_append,
        ihi fun t ht => h t (Forest.mem_preorder_cons.mpr (Or.inr (Or.inl ht))),
        ihr fun t ht => h t (Forest.mem_preorder_cons.mpr (Or.inr (Or.inr ht)))]

/-- An element of a parsed list has its slot as its first child, and inside that again parsed markup. -/
theorem exists_inner (hw : s.Whole f) (hs : s.Sound) (hf : f.map (·.node.label) = m.forest)
    (ho : o ∈ f.elements.preorder) : ∃ (slot : NodeId) (inner : Markup),
      (s.list (s.node o.id).children).head? = some slot ∧
      s.labels (s.node slot).children = inner.forest ∧
      inner.bones.preorder ⊆ m.bones.preorder ∧ inner.forest.slices ⊆ m.forest.slices := by
  induction m generalizing f with
  | nil =>
    cases f with
    | nil => cases ho
    | cons => cases hf
  | text source rest ih =>
    cases f with
    | nil => cases hf
    | cons a kids others =>
      obtain ⟨-, hkids, hothers⟩ := Forest.cons.inj hf
      cases kids with
      | cons => cases hkids
      | nil =>
        obtain ⟨slot, inner, hslot, hlabels, hbones, hslices⟩ := ih hw.2.2.2 hothers ho
        exact ⟨slot, inner, hslot, hlabels, hbones, List.Subset.trans hslices (List.subset_cons_self ..)⟩
  | element tag inner rest ihi ihr =>
    cases f with
    | nil => cases hf
    | cons a kids others =>
      obtain ⟨-, hkids, hothers⟩ := Forest.cons.inj hf
      obtain ⟨ha, hforest, hwkids, hwothers⟩ := hw
      cases kids with
      | nil => cases hkids
      | cons slot inside parts =>
        obtain ⟨-, hinside, -⟩ := Forest.cons.inj hkids
        obtain ⟨hslot, hbelow, hwinside, -⟩ := hwkids
        rcases Forest.mem_preorder_cons.mp ho with rfl | ho | ho
        · refine ⟨slot.id, inner, ?_, ?_, ?_, List.subset_append_left ..⟩
          · rw [← ha, ← Store.roots_forest hs, ← hforest]
            rfl
          · rw [← hslot, Store.labels, ← hbelow]
            exact hinside
          · exact fun t ht => Forest.mem_preorder_cons.mpr (Or.inr (Or.inl ht))
        · obtain ⟨slot', inner', hhead, hlabels, hbones, hslices⟩ := ihi hwinside hinside ho
          exact ⟨slot', inner', hhead, hlabels,
            List.Subset.trans hbones fun t ht => Forest.mem_preorder_cons.mpr (Or.inr (Or.inl ht)),
            List.Subset.trans hslices (List.subset_append_left ..)⟩
        · obtain ⟨slot', inner', hhead, hlabels, hbones, hslices⟩ := ihr hwothers hothers ho
          exact ⟨slot', inner', hhead, hlabels,
            List.Subset.trans hbones fun t ht => Forest.mem_preorder_cons.mpr (Or.inr (Or.inr ht)),
            List.Subset.trans hslices (List.subset_append_right ..)⟩

end Markup

namespace View

open Store

/-- The text of an element is the texts inside it in order and, where an opening tag inside holds a
`>` before its end, what is left of the tag behind that. It is the texts alone exactly when nothing is
left of any tag, as when no value inside holds a `>`. -/
theorem text_element (hs : s.Sound) (hl : s.labels l = m.forest)
    (hm : ∀ tag ∈ m.bones.preorder, tag.Named) (hraw : ∀ t ∈ m.forest.slices, '<' ∉ t ∧ '>' ∉ t)
    (ho : o ∈ (s.forest l).elements.preorder) (hv : v.node? s = some o.id) :
    ∃ (k : ListId) (inner : Markup), v.inner? s = some k ∧ s.labels k = inner.forest ∧ v.text s = inner.shown ∧
      (v.text s = (s.labels k).slices.flatten ↔
        ∀ tag ∈ inner.bones.preorder, stripTags tag.opening = []) ∧
      ((∀ label ∈ (s.labels k).elements.preorder, label.attributes.Unended) →
        v.text s = (s.labels k).slices.flatten) := by
  obtain ⟨slot, inner, hslot, hlabels, hbones, hslices⟩ :=
    Markup.exists_inner (hs.whole l) hs hl ho
  have hinner : v.inner? s = some (s.node slot).children := by
    rw [inner?, slot?, hv, Option.bind_some, hslot, Option.map_some]
  have hnamed : ∀ tag ∈ inner.bones.preorder, tag.Named := fun tag ht => hm tag (hbones ht)
  have htext : v.text s = inner.shown := by
    have hstrip := Markup.stripTags_render hnamed (fun t ht => (hraw t (hslices ht)).1) []
    rw [List.append_nil, stripTags, List.append_nil] at hstrip
    rw [View.text, html, hinner, Option.map_some, Option.getD_some, hlabels, hstrip]
  have hexact := Markup.shown_eq_iff (m := inner)
  rw [← htext, ← hlabels] at hexact
  refine ⟨_, inner, hinner, hlabels, htext, hexact, fun hvalues => hexact.mpr fun tag ht => ?_⟩
  rw [hlabels, Markup.elements_forest, Forest.preorder_map] at hvalues
  exact Tag.stripTags_opening (hnamed tag ht) (hvalues _ (List.mem_map_of_mem ht))

/-- A value that holds a `<` goes away with its tag. -/
theorem text_element_mark :
    let input := "<p data-prop=a>x<b data-prop='&lt;i'>y</b>z</p>".toList
    let s := (Operation.parse {} input).apply empty
    let property (value : Text) := Attributes.ofWritten [("data-prop".toList, some value)]
    let m : Markup := .element ⟨['p'], property ['a'], false⟩
      (.text ['x'] (.element ⟨['b'], property ['<', 'i'], false⟩ (.text ['y'] .nil) (.text ['z'] .nil)))
      .nil
    let v : View := ⟨⟨9⟩, none⟩
    s.Sound ∧ s.labels v.list = m.forest ∧ v.text s = "xyz".toList := by
  intro input s property m v
  have hs : s.Sound := sound_empty.run (run_apply empty (.parse {} _) trivial)
  have hl : s.labels v.list = m.forest := by decide +kernel
  have hm : ∀ tag ∈ m.bones.preorder, tag.Named := by
    intro tag htag
    rcases List.mem_cons.mp htag with rfl | htag
    · exact ⟨⟨'p', [], rfl, rfl, rfl⟩, by decide +kernel⟩
    · obtain rfl := List.mem_singleton.mp htag
      exact ⟨⟨'b', [], rfl, rfl, rfl⟩, by decide +kernel⟩
  have hraw : ∀ t ∈ m.forest.slices, '<' ∉ t ∧ '>' ∉ t := by decide +kernel
  have ho : (⟨⟨8⟩, v.list, s.node ⟨8⟩⟩ : Occurrence) ∈ (s.forest v.list).elements.preorder := by
    decide +kernel
  have hv : v.node? s = some ⟨8⟩ := by decide +kernel
  obtain ⟨k, inner, hinner, hlabels, -, -, htexts⟩ := text_element hs hl hm hraw ho hv
  have hk : v.inner? s = some ⟨6⟩ := by decide +kernel
  obtain rfl := Option.some.inj (hinner.symm.trans hk)
  have hvalues : ∀ label ∈ (s.labels ⟨6⟩).elements.preorder, ∀ e ∈ label.attributes.entries,
      ∀ value ∈ e.2, '>' ∉ value := by decide +kernel
  exact ⟨hs, hl, (htexts hvalues).trans (by decide +kernel)⟩

/-- Behind a `>` in a value the tag is taken for text. -/
theorem text_of_gt :
    let input := "<p data-prop=a><b data-prop='x>y'>t</b></p>".toList
    let s := (Operation.parse {} input).apply empty
    let v : View := ⟨⟨7⟩, none⟩
    v.inner? s = some ⟨4⟩ ∧ (s.labels ⟨4⟩).slices = [['t']] ∧ v.text s = "y\">t".toList ∧
      v.text s ≠ (s.labels ⟨4⟩).slices.flatten := by
  decide +kernel

end View
end TemplateTree
