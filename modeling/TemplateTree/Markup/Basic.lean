import TemplateTree.Elements.Basic
import TemplateTree.Attribute.Reference

/-!
Markup as the parser leaves it. Only bound elements, those that carry a binding key or hold an
element that does, are elements here; everything else is text exactly as it was written.
-/
namespace TemplateTree

/-- An element's name as written and its attributes; `slash` when a void element ends in `/>`. -/
structure Tag where
  name : Text
  attributes : Attributes
  slash : Bool
  deriving DecidableEq, Repr

inductive Markup
  | nil
  | text (source : Text) (rest : Markup)
  | element (tag : Tag) (inner : Markup) (rest : Markup)
  deriving DecidableEq, Repr

/-- How markup is read. -/
structure Config where
  /-- The deepest nesting of bound elements that is accepted. -/
  maxDepth : Nat := 512
  /-- Whether character references in attribute values are decoded. -/
  decode : Bool := true
  /-- Whether neighbouring texts become one. -/
  merge : Bool := true
  deriving DecidableEq, Repr

namespace Tag

def isVoid (t : Tag) : Bool := voidNames.contains (Text.lower t.name)

/-- The end of the opening tag, which the content follows. -/
def slot (t : Tag) : Text := if t.slash then "/>".toList else ">".toList

/-- A start tag as an element's tag. A slash means something on void elements only. -/
def ofStart (decode : Bool) (t : StartTag) : Tag where
  name := t.name
  attributes := Attributes.ofWritten <|
    if decode then t.attributes.map fun (name, value) => (name, value.map Reference.decode)
    else t.attributes
  slash := t.isVoid && t.ending == .selfClosed

end Tag

namespace Markup

/-- Puts a text in front, as one with a text that follows when texts are merged. -/
def addText (merge : Bool) (source : Text) : Markup → Markup
  | text s rest => if merge then text (source ++ s) rest else text source (text s rest)
  | m => text source m

/-- Keeps the bound elements and turns the others into text. -/
def ofElements (config : Config) : Elements → Markup
  | .nil => nil
  | .raw _ s rest => addText config.merge s (ofElements config rest)
  | .stray t rest => addText config.merge t.source (ofElements config rest)
  | .element t inner close rest =>
    if t.isBound || inner.isBound then
      element (Tag.ofStart config.decode t) (ofElements config inner) (ofElements config rest)
    else
      addText config.merge (t.source ++ (inner.source ++ (close.map EndTag.source).getD []))
        (ofElements config rest)

/-- The number of pieces in the outermost row. -/
def length : Markup → Nat
  | nil => 0
  | text _ rest => length rest + 1
  | element _ _ rest => length rest + 1

end Markup
end TemplateTree
