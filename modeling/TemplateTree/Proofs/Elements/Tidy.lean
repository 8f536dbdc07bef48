import TemplateTree.Proofs.Elements.Rows

/-! Rows in which every element that opens is closed by its own end tag. Such a row is what its
tokens nest to. -/
namespace TemplateTree.Elements

variable {es : Elements}

/-- No end tag is stray, none is missing, and each one closes the element it stands in. -/
def Tidy : Elements → Prop
  | nil => True
  | raw _ _ rest => Tidy rest
  | stray _ _ => False
  | element t inner close rest =>
    (if t.opens then (∃ e, close = some e ∧ e.key = t.key) ∧ Tidy inner
      else close = none ∧ inner = nil) ∧ Tidy rest

theorem reverse_append (a b : Elements) : (a ++ b).reverse = b.reverse ++ a.reverse := by
  induction a with
  | nil => exact (append_nil _).symm
  | raw o s rest ih => rw [raw_append, reverse_raw, ih, reverse_raw, append_assoc]
  | stray t rest ih => rw [stray_append, reverse_stray, ih, reverse_stray, append_assoc]
  | element t inner close rest _ ih =>
    rw [element_append, reverse_element, ih, reverse_element, append_assoc]

theorem reverse_reverse (es : Elements) : es.reverse.reverse = es := by
  induction es with
  | nil => rfl
  | raw o s rest ih => rw [reverse_raw, reverse_append, ih]; rfl
  | stray t rest ih => rw [reverse_stray, reverse_append, ih]; rfl
  | element t inner close rest _ ih => rw [reverse_element, reverse_append, ih]; rfl

/-- Reading the tokens of a tidy row puts it behind what stands there and leaves the open elements
as they are. -/
theorem Tidy.foldl_push (h : es.Tidy) (n : Nesting) :
    es.tokens.foldl Nesting.push n = ⟨revAppend es n.row, n.frames⟩ := by
  induction es generalizing n with
  | nil => rfl
  | raw o s rest ih => exact ih h _
  | stray t rest => exact h.elim
  | element t inner close rest ihi ihr =>
    obtain ⟨hself, hrest⟩ := h
    rw [tokens, List.foldl_cons, List.foldl_append, List.foldl_append, Nesting.push]
    cases ho : t.opens with
    | true =>
      rw [ho, if_pos rfl] at hself
      obtain ⟨⟨e, rfl, hkey⟩, hinner⟩ := hself
      have hclose : Nesting.push ⟨revAppend inner nil, ⟨t, n.row⟩ :: n.frames⟩ (.stop e) =
          { n with row := element t inner (some e) n.row } := by
        have hrow : (revAppend inner nil).reverse = inner := reverse_reverse inner
        simp [Nesting.push, Nesting.close?, hkey, hrow]
      simp only [if_true, ihi hinner, Option.map_some, Option.toList_some, List.foldl_cons,
        List.foldl_nil, hclose, ihr hrest]
      rfl
    | false =>
      rw [ho] at hself
      obtain ⟨rfl, rfl⟩ := hself
      simp only [Bool.false_eq_true, if_false, tokens, List.foldl_nil, Option.map_none,
        Option.toList_none, ihr hrest]
      rfl

theorem Tidy.ofTokens (h : es.Tidy) : ofTokens es.tokens = es := by
  rw [Elements.ofTokens, h.foldl_push]
  exact reverse_reverse es

end TemplateTree.Elements
