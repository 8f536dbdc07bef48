import TemplateTree.Text.Basic

/-!
Attribute keys. Four of them mark an element as a binding point; the rest are kept by name. A name
is read without regard to ASCII case, so each key has one written form.
-/
namespace TemplateTree

inductive AttrKey
  /-- The element opens a scope of properties. -/
  | scope
  /-- The element is a property of the nearest scope around it. -/
  | prop
  /-- The element is a named place to put content in. -/
  | container
  /-- The element is a named piece to be used elsewhere. -/
  | fragment
  | other (name : Text)
  deriving DecidableEq, Repr

namespace AttrKey

/-- The last two marks may leave out `data-`. -/
def ofName (name : Text) : AttrKey :=
  let name := Text.lower name
  if name = "data-scope".toList then .scope
  else if name = "data-prop".toList then .prop
  else if name = "data-container".toList ∨ name = "container".toList then .container
  else if name = "data-partial".toList ∨ name = "partial".toList then .fragment
  else .other name

/-- The name written in markup. -/
def markupName : AttrKey → Text
  | scope => "data-scope".toList
  | prop => "data-prop".toList
  | container => "data-container".toList
  | fragment => "data-partial".toList
  | other name => name

def isBinding : AttrKey → Bool
  | other _ => false
  | _ => true

/-- Binding keys come first, in the order of the type. -/
def rank : AttrKey → Nat
  | scope => 0
  | prop => 1
  | container => 2
  | fragment => 3
  | other _ => 4

/-- The order of keys: binding keys by rank, the others by name. -/
def before (a b : AttrKey) : Bool :=
  match a, b with
  | other m, other n => decide (m < n)
  | _, _ => decide (a.rank < b.rank)

/-- The key in its place among keys in order, once. -/
def insertSorted (k : AttrKey) : List AttrKey → List AttrKey
  | [] => [k]
  | l :: r => if k = l then l :: r else if before k l then k :: l :: r else l :: insertSorted k r

/-- The distinct keys of a list, in order. -/
def sort (ks : List AttrKey) : List AttrKey := ks.foldr insertSorted []

end AttrKey
end TemplateTree
