import TemplateTree.Text.Basic

/-!
The report of the first place where two lists of lines differ, with the lines around it. A list that
ends early goes on with a mark, and a line that reads like the mark is taken for it.
-/
namespace TemplateTree.Difference

open Text

/-- What stands for a line that is not there. -/
def missing : Text := "<missing>".toList

def lineAt (lines : List Text) (i : Nat) : Text := lines[i]?.getD missing

/-- The first index below `count` at which the lines differ. -/
def firstBelow? (expected actual : List Text) (count : Nat) : Option Nat :=
  (List.range count).find? fun i => lineAt expected i ≠ lineAt actual i

/-- A number at the right end of four columns. -/
def column (n : Nat) : Text := List.leftpad 4 ' ' (ofNat n)

/-- Both lines at an index; the first index that differs is marked. -/
def pair (expected actual : List Text) (mark i : Nat) : Text :=
  let marker := if i = mark then '>' else ' '
  (marker :: ' ' :: column (i + 1) ++ "  expected: ".toList ++ lineAt expected i ++ ['\n']) ++
    (marker :: ' ' :: column (i + 1) ++ "    actual: ".toList ++ lineAt actual i ++ ['\n'])

def report (expected actual : List Text) : Text :=
  let count := max expected.length actual.length
  let found :=
    match firstBelow? expected actual count with
    | none => "no line differs\n".toList
    | some i =>
      let first := i - 2
      let last := min (i + 3) count
      "first mismatch at line ".toList ++ ofNat (i + 1) ++ " (showing ".toList ++
        ofNat (first + 1) ++ "..=".toList ++ ofNat last ++ "):\n".toList ++
        ((List.range last).drop first).flatMap (pair expected actual i)
  found ++ "expected ".toList ++ ofNat expected.length ++ " lines, actual ".toList ++
    ofNat actual.length ++ " lines\n".toList

end TemplateTree.Difference
