import TemplateTree.Text.Quoted

/-!
Texts as lists of lines that can be shown one below the other: in each line, characters that would
move the cursor are written as escapes.
-/
namespace TemplateTree.Text

/-- A digit of base sixteen, with capital letters. -/
def capitalDigit (n : Nat) : Char := (Nat.digitChar n).toUpper

/-- One character as it stands in a line. -/
def escapeChar (c : Char) : Text :=
  if c = '\\' then ['\\', '\\']
  else if c = '"' then ['\\', '"']
  else if c = '\n' then ['\\', 'n']
  else if c = '\r' then ['\\', 'r']
  else if c = '\t' then ['\\', 't']
  else if c < ' ' then
    ['\\', 'u', '\x7b', capitalDigit (c.toNat / 16), capitalDigit (c.toNat % 16), '\x7d']
  else [c]

def escapeLine (t : Text) : Text := t.flatMap escapeChar

/-- The parts of a text between line ends. There is one more of them than line ends. -/
def splitLines : Text → List Text
  | [] => [[]]
  | c :: r =>
    if c = '\n' then [] :: splitLines r
    else
      match splitLines r with
      | [] => [[c]]
      | line :: lines => (c :: line) :: lines

/-- The lines of a text, each on one line. -/
def shownLines (t : Text) : List Text := (splitLines t).map escapeLine

end TemplateTree.Text
