import TemplateTree.Proofs.Store.Shaped
import TemplateTree.Proofs.View.Seen

/-! Markup read with neighbouring texts as one, and with every text by itself. The two differ in the
texts of each row, and in nothing that a query finds. -/
namespace TemplateTree

open List (Forall₂)

namespace Forest

variable {label : Label} {texts : List Text} {f g kids rest : Forest Label}

/-- Texts in front of a row. -/
def withTexts (texts : List Text) (f : Forest Label) : Forest Label :=
  leaves (texts.map Label.leaf) ++ f

theorem withTexts_cons (text : Text) : withTexts (text :: texts) f =
    .cons (Label.leaf text) .nil (withTexts texts f) := rfl

/-- In the second forest every longest run of texts that stand side by side in the first one, in the
outermost row and in what the slots hold, is a single text. -/
inductive Joins : Forest Label → Forest Label → Prop
  | nil : Joins .nil .nil
  | run {texts : List Text} {f g : Forest Label} (htexts : texts ≠ []) (hapart : f.Apart)
    (hrest : Joins f g) : Joins (f.withTexts texts) (.cons (Label.leaf texts.flatten) .nil g)
  | element {a slot : Label} {f g parts rest rest' : Forest Label} (hinner : Joins f g)
    (hrest : Joins rest rest') :
    Joins (.cons a (.cons slot f parts) rest) (.cons a (.cons slot g parts) rest')

theorem Joins.apart (h : f.Joins g) (hg : g.Apart) : f.Apart := by
  cases h with
  | nil => exact hg
  | run => exact absurd rfl (hg _ _)
  | element => exact apart_element

theorem Joins.leaf_cases (h : f.Joins (.cons label .nil g)) :
    ∃ (texts : List Text) (f' : Forest Label), texts ≠ [] ∧ f'.Apart ∧ f = f'.withTexts texts ∧
      label = Label.leaf texts.flatten ∧ f'.Joins g := by
  cases h with
  | run htexts hapart hrest => exact ⟨_, _, htexts, hapart, rfl, rfl, hrest⟩

/-- Joined rows begin alike. -/
theorem Joins.beginsLike (h : f.Joins g) : f.BeginsLike g := by
  cases h with
  | nil => exact ⟨Iff.rfl, Iff.rfl⟩
  | @run texts f g htexts _ _ =>
    obtain ⟨text, texts, rfl⟩ := List.exists_cons_of_ne_nil htexts
    have hf : ¬ (f.withTexts (text :: texts)).Apart := fun h => h _ _ (withTexts_cons text)
    exact ⟨by simp [withTexts_cons], iff_of_false hf fun h => h _ _ rfl⟩
  | element => exact ⟨by simp, iff_of_true apart_element apart_element⟩

theorem render_withTexts (texts : List Text) (f : Forest Label) :
    (f.withTexts texts).render = texts.flatten ++ f.render := by
  have attributeless : Attributes.render ∅ = [] := rfl
  induction texts with
  | nil => rfl
  | cons text texts ih =>
    rw [withTexts_cons, render, ih]
    simp [Label.render, Label.leaf, attributeless, render]

theorem Joins.render (h : f.Joins g) : f.render = g.render := by
  have attributeless : Attributes.render ∅ = [] := rfl
  induction h with
  | nil => rfl
  | run _ _ _ ih =>
    rw [render_withTexts, ih]
    simp [Forest.render, Label.render, Label.leaf, attributeless]
  | element _ _ ihi ihr => simp only [Forest.render, ihi, ihr]

theorem shown_withTexts (texts : List Text) (f : Forest Label) :
    (f.withTexts texts).shown = f.shown := by
  induction texts with
  | nil => rfl
  | cons text texts ih => exact ih

theorem Joins.shown (h : f.Joins g) : f.shown = g.shown := by
  induction h with
  | nil => rfl
  | run _ _ _ ih => rw [shown_withTexts, ih, Forest.shown]
  | element hinner _ ihi ihr => rw [Forest.shown, Forest.shown, hinner.render, ihi, ihr]

end Forest

namespace Markup

variable {config : Config} {es : Elements} {m u : Markup}

theorem forest_addText_false (source : Text) (u : Markup) :
    (u.addText false source).forest = .cons (Label.leaf source) .nil u.forest := by
  cases u <;> rfl

/-- A text in front of both joins the texts that follow, or it is the last of its run. -/
theorem joins_addText (h : u.forest.Joins m.forest) (source : Text) :
    (u.addText false source).forest.Joins (m.addText true source).forest := by
  have alone (hapart : m.forest.Apart) : (u.addText false source).forest.Joins
      (.cons (Label.leaf [source].flatten) .nil m.forest) := by
    rw [forest_addText_false]
    exact .run (List.cons_ne_nil source []) (h.apart hapart) h
  rw [List.flatten_singleton] at alone
  cases m with
  | nil => exact alone Forest.apart_nil
  | element tag inner rest => exact alone Forest.apart_element
  | text s rest =>
    obtain ⟨texts, f, -, hapart, hu, hlabel, hrest⟩ := h.leaf_cases
    have hs : s = texts.flatten := congrArg Label.content hlabel
    rw [forest_addText_false, hu, hs]
    exact .run (List.cons_ne_nil source texts) hapart hrest

theorem joins_ofElements (config : Config) (es : Elements) :
    (ofElements { config with merge := false } es).forest.Joins
      (ofElements { config with merge := true } es).forest := by
  induction es with
  | nil => exact .nil
  | raw o s rest ih => exact joins_addText ih s
  | stray e rest ih => exact joins_addText ih e.source
  | element t inner close rest ihi ihr =>
    rw [ofElements, ofElements]
    by_cases hb : (t.isBound || inner.isBound) = true
    · rw [if_pos hb, if_pos hb]
      exact .element ihi ihr
    · rw [if_neg hb, if_neg hb]
      exact joins_addText ihr _

end Markup

variable {s t : Store}

/-- Whether neighbouring texts become one makes no difference but in how the texts are cut: not to what
is rejected, not to what is written, and not to what is found. -/
theorem Markup.parse_merge (config : Config) (input : Text) (hs : s.Sound) (ht : t.Sound) :
    let apart := parse { config with merge := false } input
    let merged := parse { config with merge := true } input
    (∃ e, apart = .error e ∧ merged = .error e) ∨
      ∃ u m, apart = .ok u ∧ merged = .ok m ∧
        let v := (s.plantView u.forest).1
        let s' := (s.plantView u.forest).2
        let w := (t.plantView m.forest).1
        let t' := (t.plantView m.forest).2
        (s'.labels v.list).Joins (t'.labels w.list) ∧ v.markup s' = w.markup t' ∧
          v.FindsAlike s' w t' := by
  intro apart merged
  let es := Elements.ofTokens (Token.scan input)
  cases hcut : cutOff? (Token.scan input) with
  | some tag =>
    refine Or.inl ⟨.unterminatedTag tag.key tag.offset, ?_, ?_⟩
    · simp only [apart, parse, hcut]
    · simp only [merged, parse, hcut]
  | none => cases hdeep : es.tooDeep? config.maxDepth with
    | some tag =>
      refine Or.inl ⟨.nestingTooDeep config.maxDepth tag.offset, ?_, ?_⟩
      · simp only [apart, parse, hcut, es, hdeep]
      · simp only [merged, parse, hcut, es, hdeep]
    | none =>
      refine Or.inr ⟨_, _, parse_eq_ok_iff.mpr ⟨hcut, hdeep, rfl⟩,
        parse_eq_ok_iff.mpr ⟨hcut, hdeep, rfl⟩, ?_⟩
      intro v s' w t'
      have hjoins := joins_ofElements config es
      have hlabels : s'.labels v.list = _ := s.labels_plantView _
      have hlabels' : t'.labels w.list = _ := t.labels_plantView _
      refine ⟨?_, ?_, ?_⟩
      · rw [hlabels, hlabels']
        exact hjoins
      · rw [View.markup, View.markup, hlabels, hlabels', hjoins.render]
      · exact View.findsAlike (hs.plantList _) (ht.plantList _) rfl rfl
          ((Store.once_plantList hs _).whole (hs.plantList _).closed)
          ((Store.once_plantList ht _).whole (ht.plantList _).closed) hlabels hlabels'
          hjoins.beginsLike hjoins.shown

/-- Five texts around and inside a scope become three. -/
theorem Markup.parse_merge_scope :
    let input := "a<!--b--><p data-scope=s>c<i>d</i></p>e".toList
    ∃ u m, parse { merge := false } input = .ok u ∧ parse { merge := true } input = .ok m ∧
      u.forest.slices = ["a", "<!--b-->", "c", "<i>d</i>", "e"].map String.toList ∧
      m.forest.slices = ["a<!--b-->", "c<i>d</i>", "e"].map String.toList ∧
      ((Store.empty.plantView u.forest).2.labels (Store.empty.plantView u.forest).1.list).Joins
        ((Store.empty.plantView m.forest).2.labels (Store.empty.plantView m.forest).1.list) := by
  intro input
  have hcut : cutOff? (Token.scan input) = none := by decide +kernel
  have hdeep : (Elements.ofTokens (Token.scan input)).tooDeep? 512 = none := by decide +kernel
  have hok (merge : Bool) : parse { merge := merge } input =
      .ok (ofElements { merge := merge } (Elements.ofTokens (Token.scan input))) :=
    parse_eq_ok_iff.mpr ⟨hcut, hdeep, rfl⟩
  rcases parse_merge {} input Store.sound_empty Store.sound_empty with
    ⟨e, herror, -⟩ | ⟨u, m, hu, hm, hjoins, -⟩
  · exact absurd (herror.symm.trans (hok false)) (by simp)
  · refine ⟨u, m, hu, hm, ?_, ?_, hjoins⟩
    · rw [← Except.ok.inj ((hok false).symm.trans hu)]
      decide +kernel
    · rw [← Except.ok.inj ((hok true).symm.trans hm)]
      decide +kernel

end TemplateTree
