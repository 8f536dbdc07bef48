import TemplateTree.Markup.Basic
import TemplateTree.Token.Lexer
import TemplateTree.Text.Utf8
import TemplateTree.Event

/-!
Parsing markup. It fails only on a bound tag that is cut off by the end of the input, on bound
elements nested too deeply, and on bytes that are no text.
-/
namespace TemplateTree

inductive ParseError
  /-- The input is not UTF-8: `offset` bytes are, and then something is wrong. -/
  | invalidUtf8 (offset : Nat)
  /-- The last tag of the input carries a binding key and does not end. -/
  | unterminatedTag (name : Text) (offset : Nat)
  | nestingTooDeep (maxDepth : Nat) (offset : Nat)
  deriving DecidableEq, Repr

namespace ParseError

def message : ParseError → Text
  | invalidUtf8 offset =>
    "input is not valid UTF-8 (first bad byte at ".toList ++ Text.ofNat offset ++ ")".toList
  | unterminatedTag name offset =>
    "unterminated <".toList ++ name ++ "> tag at byte ".toList ++ Text.ofNat offset
  | nestingTooDeep maxDepth offset =>
    "element nesting deeper than ".toList ++ Text.ofNat maxDepth ++ " levels at byte ".toList ++
      Text.ofNat offset

end ParseError

/-- The last token, when it is a bound tag that does not end. -/
def cutOff? (ts : List Token) : Option StartTag :=
  match ts.getLast? with
  | some (.start t) => if t.ending = .missing ∧ t.isBound then some t else none
  | _ => none

namespace Markup

/-- Parses a text. A tag that is cut off is reported before nesting that is too deep. -/
def parse (config : Config) (input : Text) : Except ParseError Markup :=
  let tokens := Token.scan input
  let elements := Elements.ofTokens tokens
  match cutOff? tokens, elements.tooDeep? config.maxDepth with
  | some t, _ => .error (.unterminatedTag t.key t.offset)
  | none, some t => .error (.nestingTooDeep config.maxDepth t.offset)
  | none, none => .ok (ofElements config elements)

/-- Parses bytes. -/
def parseBytes (config : Config) (bytes : List UInt8) : Except ParseError Markup :=
  match Utf8.decode bytes with
  | .error offset => .error (.invalidUtf8 offset)
  | .ok input => parse config input

/-- What the parser reports while it reads a text. A failed parse reports no elements. -/
def parseEvents (config : Config) (input : Text) : List Event :=
  let tokens := Token.scan input
  let elements := Elements.ofTokens tokens
  let read := .tokenized (Text.byteSize input) tokens.length ::
    elements.strays.map fun t => .strayEndTag t.key t.offset
  match parse config input with
  | .error _ => read
  | .ok markup =>
    let bound := elements.boundTags
    read ++ bound.map (fun t => .boundElement t.key t.offset) ++
      [.built markup.length bound.length elements.count]

/-- The same for bytes: what is not text is not read at all. -/
def parseBytesEvents (config : Config) (bytes : List UInt8) : List Event :=
  match Utf8.decode bytes with
  | .error _ => []
  | .ok input => parseEvents config input

end Markup
end TemplateTree
