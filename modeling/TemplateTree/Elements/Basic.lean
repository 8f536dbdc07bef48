import TemplateTree.Token.Basic

/-!
The nesting of tags. An end tag closes the nearest open element of its name together with every
element opened after it; an end tag that closes nothing is kept as it stands.
-/
namespace TemplateTree

/-- A row of elements and of what stands between them. -/
inductive Elements
  | nil
  | raw (offset : Nat) (source : Text) (rest : Elements)
  /-- An end tag that closes no element. -/
  | stray (tag : EndTag) (rest : Elements)
  /-- An element without `close` ends before an outer end tag, at the end of the input, or right
  after a start tag that opens nothing. -/
  | element (tag : StartTag) (inner : Elements) (close : Option EndTag) (rest : Elements)
  deriving DecidableEq, Repr

namespace Elements

/-- The first row reversed in front of the second. -/
def revAppend : Elements → Elements → Elements
  | nil, out => out
  | raw o s rest, out => revAppend rest (raw o s out)
  | stray t rest, out => revAppend rest (stray t out)
  | element t inner close rest, out => revAppend rest (element t inner close out)

def reverse (es : Elements) : Elements := revAppend es nil

/-- The tokens of a row, in order. -/
def tokens : Elements → List Token
  | nil => []
  | raw o s rest => .raw o s :: tokens rest
  | stray t rest => .stop t :: tokens rest
  | element t inner close rest =>
    .start t :: (tokens inner ++ (close.map Token.stop).toList ++ tokens rest)

/-- The source text of a row, and `after` behind it. -/
def sourceThen : Elements → Text → Text
  | nil, after => after
  | raw _ s rest, after => s ++ sourceThen rest after
  | stray t rest, after => t.source ++ sourceThen rest after
  | element t inner close rest, after =>
    t.source ++ sourceThen inner ((close.map EndTag.source).getD [] ++ sourceThen rest after)

/-- The source text of a row. -/
def source (es : Elements) : Text := es.sourceThen []

/-- An element that is still open, with the row that stands before it, last first. -/
structure Frame where
  tag : StartTag
  before : Elements

/-- Elements under construction: the row inside the innermost open element, last first, and the
open elements, innermost first. -/
structure Nesting where
  row : Elements
  frames : List Frame

namespace Nesting

def start : Nesting := ⟨nil, []⟩

/-- Closes open elements through the nearest one named like the end tag, if there is one. -/
def close? (tag : EndTag) : Elements → List Frame → Option Nesting
  | _, [] => none
  | row, f :: fs =>
    if f.tag.key = tag.key then some ⟨element f.tag row.reverse (some tag) f.before, fs⟩
    else close? tag (element f.tag row.reverse none f.before) fs

/-- Closes every open element. -/
def finish : Elements → List Frame → Elements
  | row, [] => row.reverse
  | row, f :: fs => finish (element f.tag row.reverse none f.before) fs

def push (n : Nesting) : Token → Nesting
  | .raw o s => { n with row := raw o s n.row }
  | .start t =>
    if t.opens then ⟨nil, ⟨t, n.row⟩ :: n.frames⟩ else { n with row := element t nil none n.row }
  | .stop t => (close? t n.row n.frames).getD { n with row := stray t n.row }

end Nesting

/-- Nests the tokens. -/
def ofTokens (ts : List Token) : Elements :=
  let n := ts.foldl Nesting.push Nesting.start
  Nesting.finish n.row n.frames

/-- True when some start tag in the row carries a binding key. -/
def isBound : Elements → Bool
  | nil => false
  | raw _ _ rest => isBound rest
  | stray _ rest => isBound rest
  | element t inner _ rest => t.isBound || isBound inner || isBound rest

/-- The number of start tags. -/
def count : Elements → Nat
  | nil => 0
  | raw _ _ rest => count rest
  | stray _ rest => count rest
  | element _ inner _ rest => 1 + count inner + count rest

/-- Start tags of the bound elements, an element after those inside it. -/
def boundTags : Elements → List StartTag
  | nil => []
  | raw _ _ rest => boundTags rest
  | stray _ rest => boundTags rest
  | element t inner _ rest =>
    if t.isBound || inner.isBound then boundTags inner ++ t :: boundTags rest else boundTags rest

/-- End tags that close nothing. -/
def strays : Elements → List EndTag
  | nil => []
  | raw _ _ rest => strays rest
  | stray t rest => t :: strays rest
  | element _ inner _ rest => strays inner ++ strays rest

/-- The first bound element, outer ones first, that lies inside more than `room` bound elements
counting itself. -/
def tooDeep? (room : Nat) : Elements → Option StartTag
  | nil => none
  | raw _ _ rest => tooDeep? room rest
  | stray _ rest => tooDeep? room rest
  | element t inner _ rest =>
    if t.isBound || inner.isBound then
      match room with
      | 0 => some t
      | below + 1 => (tooDeep? below inner).or (tooDeep? room rest)
    else tooDeep? room rest

end Elements
end TemplateTree
