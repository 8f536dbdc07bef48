import TemplateTree.Elements.Tokens
import TemplateTree.Markup.Nodes
import Mathlib.Tactic.Common

/-! Rows one behind the other: what a row writes, and whether it is bound, is put together from its
parts, so rows under construction may be kept last first. -/
namespace TemplateTree

theorem Markup.render_addText (merge : Bool) (source : Text) (m : Markup) :
    (m.addText merge source).forest.render = source ++ m.forest.render := by
  have attributeless : Attributes.render ∅ = [] := rfl
  cases m with
  | nil => simp [addText, forest, Forest.render, Label.render, Label.leaf, attributeless]
  | text s rest =>
    cases merge <;> simp [addText, forest, Forest.render, Label.render, Label.leaf, attributeless]
  | element tag inner rest =>
    simp [addText, forest, Forest.render, Label.render, Label.leaf, attributeless]

namespace Elements

variable {config : Config}

def append : Elements → Elements → Elements
  | nil, out => out
  | raw o s rest, out => raw o s (append rest out)
  | stray t rest, out => stray t (append rest out)
  | element t inner close rest, out => element t inner close (append rest out)

instance : Append Elements := ⟨append⟩

theorem nil_append (es : Elements) : nil ++ es = es := rfl

theorem raw_append (o : Nat) (s : Text) (rest out : Elements) :
    raw o s rest ++ out = raw o s (rest ++ out) := rfl

theorem stray_append (t : EndTag) (rest out : Elements) :
    stray t rest ++ out = stray t (rest ++ out) := rfl

theorem element_append (t : StartTag) (inner rest out : Elements) (close : Option EndTag) :
    element t inner close rest ++ out = element t inner close (rest ++ out) := rfl

theorem append_assoc (a b c : Elements) : a ++ b ++ c = a ++ (b ++ c) := by
  induction a with
  | nil => rfl
  | raw o s rest ih => simp only [raw_append, ih]
  | stray t rest ih => simp only [stray_append, ih]
  | element t inner close rest _ ih => simp only [element_append, ih]

theorem append_nil (es : Elements) : es ++ nil = es := by
  induction es with
  | nil => rfl
  | raw o s rest ih => rw [raw_append, ih]
  | stray t rest ih => rw [stray_append, ih]
  | element t inner close rest _ ih => rw [element_append, ih]

theorem revAppend_eq (es out : Elements) : revAppend es out = es.reverse ++ out := by
  induction es generalizing out with
  | nil => rfl
  | raw o s rest ih =>
    have h : (raw o s rest).reverse = revAppend rest (raw o s nil) := rfl
    rw [h, revAppend, ih, ih (raw o s nil), append_assoc, raw_append, nil_append]
  | stray t rest ih =>
    have h : (stray t rest).reverse = revAppend rest (stray t nil) := rfl
    rw [h, revAppend, ih, ih (stray t nil), append_assoc, stray_append, nil_append]
  | element t inner close rest _ ih =>
    have h : (element t inner close rest).reverse = revAppend rest (element t inner close nil) := rfl
    rw [h, revAppend, ih, ih (element t inner close nil), append_assoc, element_append, nil_append]

theorem reverse_raw (o : Nat) (s : Text) (rest : Elements) :
    (raw o s rest).reverse = rest.reverse ++ raw o s nil := revAppend_eq rest _

theorem reverse_stray (t : EndTag) (rest : Elements) :
    (stray t rest).reverse = rest.reverse ++ stray t nil := revAppend_eq rest _

theorem reverse_element (t : StartTag) (inner rest : Elements) (close : Option EndTag) :
    (element t inner close rest).reverse = rest.reverse ++ element t inner close nil :=
  revAppend_eq rest _

theorem isBound_append (a b : Elements) : (a ++ b).isBound = (a.isBound || b.isBound) := by
  induction a with
  | nil => rfl
  | raw o s rest ih => rw [raw_append, isBound, isBound, ih]
  | stray t rest ih => rw [stray_append, isBound, isBound, ih]
  | element t inner close rest _ ih =>
    rw [element_append, isBound, isBound, ih]
    simp only [Bool.or_assoc]

theorem isBound_reverse (es : Elements) : es.reverse.isBound = es.isBound := by
  induction es with
  | nil => rfl
  | raw o s rest ih => rw [reverse_raw, isBound_append, ih]; simp [isBound]
  | stray t rest ih => rw [reverse_stray, isBound_append, ih]; simp [isBound]
  | element t inner close rest _ ih =>
    rw [reverse_element, isBound_append, ih, isBound, isBound, isBound, Bool.or_false, Bool.or_comm]

/-- The row as the document shows it: bound elements written anew, everything else as it was. -/
def render (config : Config) (es : Elements) : Text := (Markup.ofElements config es).forest.render

theorem render_raw (o : Nat) (s : Text) (rest : Elements) :
    (raw o s rest).render config = s ++ rest.render config :=
  Markup.render_addText ..

theorem render_stray (t : EndTag) (rest : Elements) :
    (stray t rest).render config = t.source ++ rest.render config :=
  Markup.render_addText ..

theorem render_bound {t : StartTag} {inner : Elements} (h : (t.isBound || inner.isBound) = true)
    (close : Option EndTag) (rest : Elements) :
    (element t inner close rest).render config =
      '<' :: t.name ++ (Tag.ofStart config.decode t).attributes.render ++
        (Tag.ofStart config.decode t).slot ++ inner.render config ++
        (if t.isVoid then [] else Markup.closer t.name) ++ rest.render config := by
  have attributeless : Attributes.render ∅ = [] := rfl
  have hvoid : (Tag.ofStart config.decode t).isVoid = t.isVoid := rfl
  have hname : (Tag.ofStart config.decode t).name = t.name := rfl
  simp only [render, Markup.ofElements, h, if_true, Markup.forest, Forest.render, Label.render,
    Label.leaf, attributeless, hvoid, hname]
  cases t.isVoid <;> simp [Forest.render, Label.render, attributeless]

theorem render_unbound {t : StartTag} {inner : Elements} (h : (t.isBound || inner.isBound) = false)
    (close : Option EndTag) (rest : Elements) :
    (element t inner close rest).render config =
      t.source ++ (inner.source ++ (close.map EndTag.source).getD []) ++ rest.render config := by
  simp only [render, Markup.ofElements, h, Bool.false_eq_true, if_false]
  exact Markup.render_addText ..

theorem render_append (a b : Elements) : (a ++ b).render config = a.render config ++ b.render config := by
  induction a with
  | nil => rfl
  | raw o s rest ih => rw [raw_append, render_raw, render_raw, ih, List.append_assoc]
  | stray t rest ih => rw [stray_append, render_stray, render_stray, ih, List.append_assoc]
  | element t inner close rest _ ih =>
    cases h : (t.isBound || inner.isBound) with
    | true =>
      rw [element_append, render_bound h, render_bound h, ih]
      simp only [List.append_assoc]
    | false =>
      rw [element_append, render_unbound h, render_unbound h, ih]
      simp only [List.append_assoc]

theorem source_element (t : StartTag) (inner rest : Elements) (close : Option EndTag) :
    (element t inner close rest).source =
      t.source ++ (inner.source ++ (close.map EndTag.source).getD []) ++ rest.source := by
  simp only [source, sourceThen, sourceThen_eq, List.append_nil, List.append_assoc]

/-- Where nothing is bound the document shows the source. -/
theorem render_eq_source {es : Elements} (h : es.isBound = false) : es.render config = es.source := by
  induction es with
  | nil => rfl
  | raw o s rest ih => rw [render_raw, ih h]; rfl
  | stray t rest ih => rw [render_stray, ih h]; rfl
  | element t inner close rest _ ih =>
    rw [isBound, Bool.or_eq_false_iff] at h
    rw [render_unbound h.1, ih h.2, source_element]

end Elements
end TemplateTree
