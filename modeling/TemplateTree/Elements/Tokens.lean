import TemplateTree.Elements.Basic

/-!
Nesting groups the tokens and changes nothing else: the tokens of the elements are the tokens they
were made of, and so is their source.
-/
namespace TemplateTree.Elements

variable {n : Nesting}

/-- The source of the tokens in a row is the source of the row. -/
theorem sourceThen_eq (es : Elements) (after : Text) :
    es.sourceThen after = Token.sources es.tokens ++ after := by
  induction es generalizing after with
  | nil => rfl
  | raw o s rest ih => simp [sourceThen, ih, tokens, Token.sources, Token.source]
  | stray t rest ih => simp [sourceThen, ih, tokens, Token.sources, Token.source]
  | element t inner close rest ihi ihr =>
    cases close <;> simp [sourceThen, ihi, ihr, tokens, Token.sources, Token.source]

theorem source_eq (es : Elements) : es.source = Token.sources es.tokens := by
  rw [source, sourceThen_eq, List.append_nil]

theorem tokens_revAppend (es out : Elements) :
    (revAppend es out).tokens = es.reverse.tokens ++ out.tokens := by
  induction es generalizing out with
  | nil => rfl
  | raw o s rest ih =>
    have h : (raw o s rest).reverse = revAppend rest (raw o s nil) := rfl
    rw [h, revAppend, ih, ih, List.append_assoc]
    rfl
  | stray t rest ih =>
    have h : (stray t rest).reverse = revAppend rest (stray t nil) := rfl
    rw [h, revAppend, ih, ih, List.append_assoc]
    rfl
  | element t inner close rest _ ih =>
    have h : (element t inner close rest).reverse = revAppend rest (element t inner close nil) := rfl
    rw [h, revAppend, ih, ih, List.append_assoc]
    simp [tokens]

theorem tokens_reverse_raw (o : Nat) (s : Text) (rest : Elements) :
    (raw o s rest).reverse.tokens = rest.reverse.tokens ++ [.raw o s] :=
  tokens_revAppend rest (raw o s nil)

theorem tokens_reverse_stray (t : EndTag) (rest : Elements) :
    (stray t rest).reverse.tokens = rest.reverse.tokens ++ [.stop t] :=
  tokens_revAppend rest (stray t nil)

theorem tokens_reverse_element (t : StartTag) (inner rest : Elements) (close : Option EndTag) :
    (element t inner close rest).reverse.tokens =
      rest.reverse.tokens ++ .start t :: (inner.tokens ++ (close.map Token.stop).toList) :=
  (tokens_revAppend rest (element t inner close nil)).trans (by simp [tokens])

/-- The tokens of elements under construction: what stands before each open element, its start tag,
and at last the innermost row. -/
def spine : Elements → List Frame → List Token
  | row, [] => row.reverse.tokens
  | row, f :: fs => spine f.before fs ++ .start f.tag :: row.reverse.tokens

theorem spine_raw (o : Nat) (s : Text) (row : Elements) (fs : List Frame) :
    spine (raw o s row) fs = spine row fs ++ [.raw o s] := by
  cases fs <;> simp [spine, tokens_reverse_raw]

theorem spine_stray (t : EndTag) (row : Elements) (fs : List Frame) :
    spine (stray t row) fs = spine row fs ++ [.stop t] := by
  cases fs <;> simp [spine, tokens_reverse_stray]

theorem spine_element (t : StartTag) (inner row : Elements) (close : Option EndTag)
    (fs : List Frame) :
    spine (element t inner close row) fs =
      spine row fs ++ .start t :: (inner.tokens ++ (close.map Token.stop).toList) := by
  cases fs <;> simp [spine, tokens_reverse_element]

theorem spine_close? (t : EndTag) (row : Elements) (fs : List Frame)
    (h : Nesting.close? t row fs = some n) : spine n.row n.frames = spine row fs ++ [.stop t] := by
  induction fs generalizing row with
  | nil => simp [Nesting.close?] at h
  | cons f fs ih =>
    rw [Nesting.close?] at h
    split at h
    · cases h
      simp [spine_element, spine]
    · rw [ih _ h, spine_element]
      simp [spine]

theorem spine_push (n : Nesting) (t : Token) :
    spine (n.push t).row (n.push t).frames = spine n.row n.frames ++ [t] := by
  cases t with
  | raw o s => exact spine_raw o s n.row n.frames
  | start t =>
    rw [Nesting.push]
    split
    · rfl
    · simp [spine_element, tokens]
  | stop t =>
    rw [Nesting.push]
    cases h : Nesting.close? t n.row n.frames with
    | none => exact spine_stray t n.row n.frames
    | some m => exact spine_close? t n.row n.frames h

theorem tokens_finish (row : Elements) (fs : List Frame) :
    (Nesting.finish row fs).tokens = spine row fs := by
  induction fs generalizing row with
  | nil => rfl
  | cons f fs ih =>
    rw [Nesting.finish, ih, spine_element]
    simp [spine]

theorem spine_foldl (ts : List Token) (n : Nesting) :
    spine (ts.foldl Nesting.push n).row (ts.foldl Nesting.push n).frames =
      spine n.row n.frames ++ ts := by
  induction ts generalizing n with
  | nil => simp
  | cons t ts ih => rw [List.foldl_cons, ih, spine_push, List.append_assoc]; rfl

theorem tokens_ofTokens (ts : List Token) : (ofTokens ts).tokens = ts := by
  rw [ofTokens, tokens_finish, spine_foldl]
  rfl

theorem source_ofTokens (ts : List Token) : (ofTokens ts).source = Token.sources ts := by
  rw [source_eq, tokens_ofTokens]

end TemplateTree.Elements
