import TemplateTree.Text.Basic

/-!
Blank characters, the Unicode property White_Space, and text without blanks at its ends.
-/
namespace TemplateTree.Text

/-- First and last code point of each run of blank characters. -/
def blankRuns : List (Nat × Nat) :=
  [(0x9, 0xd), (0x20, 0x20), (0x85, 0x85), (0xa0, 0xa0), (0x1680, 0x1680), (0x2000, 0x200a),
   (0x2028, 0x2029), (0x202f, 0x202f), (0x205f, 0x205f), (0x3000, 0x3000)]

def isBlank (c : Char) : Bool :=
  blankRuns.any fun (first, last) => first ≤ c.toNat && c.toNat ≤ last

/-- The text without the blanks at its two ends. -/
def trim (t : Text) : Text :=
  ((t.dropWhile isBlank).reverse.dropWhile isBlank).reverse

end TemplateTree.Text
