import TemplateTree.Proofs.Text.Bytes

/-! The scanner on bytes. It works with places in the input instead of the texts between them, looks at
single bytes and takes a text out of the input only between two places; where one of these lies inside a
character, or where a loop does not advance, it has no result. -/
namespace TemplateTree

open Text

/-- A range of bytes. -/
structure Span where
  start : Nat
  stop : Nat
  deriving DecidableEq, Repr

/-- A token by the places where it stands. Elements are matched by their keys. -/
inductive Placed
  | raw (span : Span)
  | start (key : Text) (span name : Span) (attributes : List (Text × Option Text)) (ending : TagEnd)
    (isVoid : Bool)
  | stop (key : Text) (span : Span)
  deriving DecidableEq, Repr

/-- The range of a token. -/
def Placed.span : Placed → Span
  | raw span => span
  | start _ span _ _ _ _ => span
  | stop _ span => span

/-- Every range a token keeps, its name's along with its own. -/
def Placed.spans : Placed → List Span
  | raw span => [span]
  | start _ span name _ _ _ => [span, name]
  | stop _ span => [span]

/-- Ranges that are not empty, one behind the other, from `first` to `last`. -/
def Tiles (first last : Nat) : List Span → Prop
  | [] => first = last
  | sp :: sps => sp.start = first ∧ sp.start < sp.stop ∧ Tiles sp.stop last sps

namespace ByteScan

variable (input : Text) (decode : Bool)

/-- The byte at a place. -/
def byte? (i : Nat) : Option Char := (bytes input)[i]?

/-- The first place from `i` on where the test holds, or the end. -/
def seek (here : Text → Bool) (i : Nat) : Nat := i + (upTo here ((bytes input).drop i)).length

/-- The place behind the first `word` from `i` on, or the end. -/
def past (word : Text) (i : Nat) : Nat := i + (through word ((bytes input).drop i)).length

/-- The first place from `i` on where the test of a single byte fails, or the end. -/
def skip (p : Char → Bool) (i : Nat) : Nat := i + (((bytes input).drop i).takeWhile p).length

theorem le_skip (p : Char → Bool) (i : Nat) : i ≤ skip input p i := Nat.le_add_right ..

/-- A value as it is kept. -/
def read (raw : Text) : Text := if decode then Reference.decode raw else raw

/-- The value whose opening quote is at `i`, and the place behind it. -/
def quoted? (quote : Char) (i : Nat) : Option (Option Text × Nat) :=
  let stop := seek input (starts [quote]) (i + 1)
  (slice? input (i + 1) stop).map fun raw =>
    (some (read decode raw), if stop < byteSize input then stop + 1 else stop)

/-- The value that begins at `i`, and the place behind it. -/
def given? (i : Nat) : Option (Option Text × Nat) :=
  if byte? input i = some '"' then quoted? input decode '"' i
  else if byte? input i = some '\'' then quoted? input decode '\'' i
  else
    let stop := seek input StartTag.endsBareValue i
    (slice? input i stop).map fun raw => (some (read decode raw), stop)

/-- The value of the attribute whose name ends at `i`, and the place behind it. -/
def value? (i : Nat) : Option (Option Text × Nat) :=
  let equals := skip input isTagBlank i
  if byte? input equals = some '=' then given? input decode (skip input isTagBlank (equals + 1))
  else some (none, equals)

/-- The attributes from `i` on, how the tag ends, and the place behind it. -/
def attributes? (i : Nat) : Option (List (Text × Option Text) × TagEnd × Nat) :=
  let k := skip input isTagBlank i
  if k < byteSize input then
    if byte? input k = some '>' then some ([], .closed, k + 1)
    else if byte? input k = some '/' then
      if byte? input (k + 1) = some '>' then some ([], .selfClosed, k + 2) else attributes? (k + 1)
    else
      let stop := skip input isAttributeChar k
      if stop = k then
        -- neither an attribute nor the end of the tag: a whole character is stepped over
        match slice? input k (byteSize input) with
        | none => none
        | some [] => attributes? (k + 1)
        | some (c :: _) => attributes? (k + c.utf8Size)
      else
        match slice? input k stop, value? input decode stop with
        | some name, some (value, next) =>
          if k < next then
            (attributes? next).map fun (later, ending, last) => ((name, value) :: later, ending, last)
          else none
        | _, _ => none
  else some ([], .missing, k)
termination_by byteSize input - i
decreasing_by
  all_goals have hle := le_skip input isTagBlank i
  · omega
  · omega
  · have hpos := Char.utf8Size_pos ‹Char›
    omega
  · omega

/-- The body of a script or a style from `i` on, with its end tag, and the place behind. -/
def body? (key : Text) (i : Nat) : Option (List Placed × Nat) := do
  let _ ← slice? input i (byteSize input)
  let close := seek input (StartTag.closesBody key) i
  let body := if i < close then [Placed.raw ⟨i, close⟩] else []
  if close < byteSize input then
    let last := skip input isTagBlank (close + 2 + key.length) + 1
    some (body ++ [.stop key ⟨close, last⟩], last)
  else some (body, close)

/-- The start tag at `i`, the body of a script or a style along with it, and the place behind. -/
def startTag? (i : Nat) : Option (List Placed × Nat) := do
  let stop := skip input isNameChar (i + 1)
  let name ← slice? input (i + 1) stop
  let (attributes, ending, next) ← attributes? input decode stop
  let key := lower name
  let tag := Placed.start key ⟨i, next⟩ ⟨i + 1, stop⟩ attributes ending (voidNames.contains key)
  if ending == .closed && opaqueNames.contains key then
    (body? input key next).map fun (ts, last) => (tag :: ts, last)
  else some ([tag], next)

/-- What is read in one round at `i`, and the place behind it. -/
def round? (i : Nat) : Option (List Placed × Nat) :=
  if opensMarkup ((bytes input).drop i) then do
    let text ← slice? input i (byteSize input)
    if starts "<!--".toList text then
      let _ ← slice? input (i + 4) (byteSize input)
      let stop := past input "-->".toList (i + 4)
      some ([.raw ⟨i, stop⟩], stop)
    else if byte? input (i + 1) = some '!' ∨ byte? input (i + 1) = some '?' then
      let stop := past input ">".toList i
      some ([.raw ⟨i, stop⟩], stop)
    else if byte? input (i + 1) = some '/' then
      let stop := skip input isNameChar (i + 2)
      let name ← slice? input (i + 2) stop
      let last := past input ">".toList stop
      some ([.stop (lower name) ⟨i, last⟩], last)
    else startTag? input decode i
  else
    let stop := seek input opensMarkup (i + 1)
    (slice? input i stop).map fun _ => ([.raw ⟨i, stop⟩], stop)

/-- The tokens from `i` on. -/
def tokensFrom? (i : Nat) : Option (List Placed) :=
  if i < byteSize input then
    match round? input decode i with
    | none => none
    | some (ts, next) => if i < next then (tokensFrom? next).map (ts ++ ·) else none
  else some []
termination_by byteSize input - i

/-- All tokens of the input, in order. -/
def tokens? : Option (List Placed) := tokensFrom? input decode 0

end ByteScan
end TemplateTree
