import TemplateTree.Text.Basic

/-!
Character references in attribute values. Reading knows five named references of XML, `&nbsp;`, and
numbers that name a Unicode scalar; anything else is plain text. Writing needs two of them.
-/
namespace TemplateTree.Reference

/-- The named references, without the ampersand. -/
def names : List (Text × Char) :=
  [("amp;".toList, '&'), ("lt;".toList, '<'), ("gt;".toList, '>'), ("quot;".toList, '"'),
   ("apos;".toList, '\''), ("nbsp;".toList, '\u00a0')]

/-- The value of a hexadecimal digit. -/
def digit? (c : Char) : Option Nat :=
  if c.isDigit then some (c.toNat - '0'.toNat)
  else if 'a' ≤ c ∧ c ≤ 'f' then some (c.toNat - 'a'.toNat + 10)
  else if 'A' ≤ c ∧ c ≤ 'F' then some (c.toNat - 'A'.toNat + 10)
  else none

def isDigitOf (base : Nat) (c : Char) : Bool := (digit? c).any (· < base)

/-- The number that a run of digits denotes. -/
def value (base : Nat) (digits : Text) : Nat :=
  digits.foldl (fun n c => n * base + (digit? c).getD 0) 0

/-- A number of at most `limit` digits and its semicolon, read as the scalar it names. -/
def number? (base limit : Nat) (t : Text) : Option (Char × Nat) :=
  let digits := t.takeWhile (isDigitOf base)
  let n := digits.length
  if 0 < n ∧ n ≤ limit ∧ (t.drop n).head? = some ';' ∧ (value base digits).isValidChar then
    some (Char.ofNat (value base digits), n + 1)
  else none

/-- The character that a reference names and the length of the reference, both read from the
text after the ampersand. Six hexadecimal and seven decimal digits reach every scalar. -/
def after? : Text → Option (Char × Nat)
  | '#' :: 'x' :: r => (number? 16 6 r).map fun (c, n) => (c, n + 2)
  | '#' :: 'X' :: r => (number? 16 6 r).map fun (c, n) => (c, n + 2)
  | '#' :: r => (number? 10 7 r).map fun (c, n) => (c, n + 1)
  | t => (names.find? fun (name, _) => name.isPrefixOf t).map fun (name, c) => (c, name.length)

/-- Replaces each reference by its character, once: a result is never read again. -/
def decode : Text → Text
  | [] => []
  | c :: r =>
    if c = '&' then
      match after? r with
      | some (d, n) => d :: decode (r.drop n)
      | none => '&' :: decode r
    else c :: decode r
termination_by t => t.length
decreasing_by all_goals simp only [List.length_drop, List.length_cons]; omega

/-- Writes a value for double quotes. -/
def escape : Text → Text
  | [] => []
  | '&' :: r => "&amp;".toList ++ escape r
  | '"' :: r => "&quot;".toList ++ escape r
  | c :: r => c :: escape r

end TemplateTree.Reference
