import TemplateTree.Attribute.Map

/-!
Tokens of markup. A token keeps its source text and the byte at which it begins, so a run of tokens
can be written back exactly.
-/
namespace TemplateTree

/-- How a start tag ends: with `>`, with `/>`, or with the input. -/
inductive TagEnd
  | closed
  | selfClosed
  | missing
  deriving DecidableEq, Repr

/-- The source of a start tag is a `<`, its `name` and its `tail`, which spells out `attributes` and
`ending`. Values are kept as written. -/
structure StartTag where
  offset : Nat
  name : Text
  tail : Text
  attributes : List (Text × Option Text)
  ending : TagEnd
  deriving DecidableEq, Repr

/-- The source of an end tag is a `</`, its `name` and its `tail`. -/
structure EndTag where
  offset : Nat
  name : Text
  tail : Text
  deriving DecidableEq, Repr

inductive Token
  /-- Text, comments, declarations and the bodies of scripts and styles. -/
  | raw (offset : Nat) (source : Text)
  | start (tag : StartTag)
  | stop (tag : EndTag)
  deriving DecidableEq, Repr

/-- Elements that never have content. -/
def voidNames : List Text :=
  ["area", "base", "br", "col", "embed", "hr", "img", "input", "link", "meta", "param", "source",
   "track", "wbr"].map String.toList

/-- Elements whose body is not markup. -/
def opaqueNames : List Text := ["script", "style"].map String.toList

namespace StartTag

def source (t : StartTag) : Text := '<' :: t.name ++ t.tail

/-- Elements are matched by this form of their name. -/
def key (t : StartTag) : Text := Text.lower t.name

def isVoid (t : StartTag) : Bool := voidNames.contains t.key

/-- True when the tag opens an element that an end tag may close. -/
def opens (t : StartTag) : Bool := t.ending == .closed && !t.isVoid

/-- True when the tag is followed by a body that is not markup. -/
def isOpaque (t : StartTag) : Bool := t.ending == .closed && opaqueNames.contains t.key

/-- True when the tag carries a binding key. -/
def isBound (t : StartTag) : Bool := t.attributes.any fun (name, _) => (AttrKey.ofName name).isBinding

end StartTag

namespace EndTag

def source (t : EndTag) : Text := '<' :: '/' :: t.name ++ t.tail

def key (t : EndTag) : Text := Text.lower t.name

end EndTag

namespace Token

def offset : Token → Nat
  | raw offset _ => offset
  | start t => t.offset
  | stop t => t.offset

def source : Token → Text
  | raw _ s => s
  | start t => t.source
  | stop t => t.source

/-- The source of a run of tokens. -/
def sources (ts : List Token) : Text := ts.flatMap source

end Token
end TemplateTree
