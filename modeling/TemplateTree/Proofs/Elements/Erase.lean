import TemplateTree.Proofs.Markup.Nested
import TemplateTree.Proofs.Token.Place

/-! Offsets do not matter: tokens at other places nest in the same way, and the markup that they make
is the same. -/
namespace TemplateTree

open Token (moveTo)

namespace Elements

variable {es : Elements} {ns : List Text} {config : Config}

/-- The row with its offsets forgotten. -/
def erase : Elements → Elements
  | nil => nil
  | raw _ s rest => raw 0 s (erase rest)
  | stray e rest => stray (e.moveTo 0) (erase rest)
  | element t inner close rest =>
    element (t.moveTo 0) (erase inner) (close.map (EndTag.moveTo 0)) (erase rest)

theorem tokens_erase (es : Elements) : es.erase.tokens = es.tokens.map (moveTo 0) := by
  induction es with
  | nil => rfl
  | raw o s rest ih =>
    rw [erase, tokens, tokens, ih]
    rfl
  | stray e rest ih =>
    rw [erase, tokens, tokens, ih]
    rfl
  | element t inner close rest ihi ihr =>
    rw [erase, tokens, tokens, ihi, ihr, List.map_cons, List.map_append, List.map_append]
    cases close <;> rfl

theorem unclosed_erase (es : Elements) : es.erase.unclosed = es.unclosed := by
  induction es with
  | nil => rfl
  | raw o s rest ih => exact ih
  | stray e rest ih => exact ih
  | element t inner close rest ihi ihr =>
    have hopens : (t.moveTo 0).opens = t.opens := rfl
    have hkey : (t.moveTo 0).key = t.key := rfl
    rw [erase, Elements.unclosed, Elements.unclosed, ihi, ihr, hopens, hkey, Option.isNone_map]

theorem Nested.erase (h : es.Nested ns) : es.erase.Nested ns := by
  induction h with
  | nil ns => exact .nil ns
  | raw o s _ ih => exact .raw 0 s ih
  | stray he _ ih => exact .stray he ih
  | single ht _ ih => exact .single ht ih
  | closed ht he hno _ _ ihi ihr => exact .closed ht he (by rwa [unclosed_erase]) ihi ihr
  | unclosed ht _ ih => exact .unclosed ht ih

theorem erase_ofTokens (ts : List Token) : (ofTokens ts).erase = ofTokens (ts.map (moveTo 0)) := by
  rw [← (nested_ofTokens ts).erase.ofTokens, tokens_erase, tokens_ofTokens]

theorem isBound_erase (es : Elements) : es.erase.isBound = es.isBound := by
  induction es with
  | nil => rfl
  | raw o s rest ih => exact ih
  | stray e rest ih => exact ih
  | element t inner close rest ihi ihr =>
    have hbound : (t.moveTo 0).isBound = t.isBound := rfl
    rw [erase, isBound, isBound, ihi, ihr, hbound]

theorem source_erase (es : Elements) : es.erase.source = es.source := by
  rw [source_eq, source_eq, tokens_erase, Token.sources, Token.sources, List.flatMap_map]
  simp only [Token.source_moveTo]

end Elements

theorem Markup.ofElements_erase (config : Config) (es : Elements) :
    ofElements config es.erase = ofElements config es := by
  induction es with
  | nil => rfl
  | raw o s rest ih => rw [Elements.erase, ofElements, ofElements, ih]
  | stray e rest ih =>
    have hsource : (e.moveTo 0).source = e.source := rfl
    rw [Elements.erase, ofElements, ofElements, ih, hsource]
  | element t inner close rest ihi ihr =>
    have htag : Tag.ofStart config.decode (t.moveTo 0) = Tag.ofStart config.decode t := rfl
    have hsource : (t.moveTo 0).source = t.source := rfl
    have hclose : (close.map (EndTag.moveTo 0)).map EndTag.source = close.map EndTag.source := by
      cases close <;> rfl
    have hbound : (t.moveTo 0).isBound = t.isBound := rfl
    rw [Elements.erase, ofElements, ofElements, ihi, ihr, htag, hsource, hclose, hbound,
      Elements.isBound_erase, Elements.source_erase]

/-- Texts with the same tokens make the same markup, wherever the tokens stand. -/
theorem Markup.ofElements_congr (config : Config) {ts us : List Token}
    (h : ts.map (moveTo 0) = us.map (moveTo 0)) : ofElements config (Elements.ofTokens ts) =
      ofElements config (Elements.ofTokens us) := by
  rw [← ofElements_erase, Elements.erase_ofTokens, h, ← Elements.erase_ofTokens, ofElements_erase]

end TemplateTree
