import TemplateTree.Attribute.Map
import TemplateTree.Attribute.Reference
import TemplateTree.Forest

/-!
What a node says itself, its content and its attributes, and how a forest of such labels is written:
content, attributes, then the children in order. A forest can also be handed to a writer bit by bit,
such as a sink that has room for a number of characters only.
-/
namespace TemplateTree

structure Label where
  content : Text
  attributes : Attributes
  deriving DecidableEq, Repr, Inhabited

/-- A piece of text by itself. -/
def Label.leaf (content : Text) : Label := ⟨content, ∅⟩

/-- A place to write to, with what was written and the number of characters that still fit. -/
structure Sink where
  written : Text
  room : Nat
  deriving DecidableEq, Repr

/-- Writes a text, or as much of it as fits and then fails. -/
def Sink.write (out : Sink) (t : Text) : Except Sink Sink :=
  if t.length ≤ out.room then .ok ⟨out.written ++ t, out.room - t.length⟩
  else .error ⟨out.written ++ t.take out.room, 0⟩

/-- Something that takes texts one after another. Each one leaves it changed, or fails and leaves it as
it is then. -/
abbrev Writer (σ : Type) := σ → Text → Except σ σ

variable {σ : Type}

namespace Attributes

/-- One attribute as it stands in a tag, after a space. -/
def renderEntry : AttrKey × Option Text → Text
  | (key, none) => ' ' :: key.markupName
  | (key, some value) => ' ' :: key.markupName ++ '=' :: '"' :: Reference.escape value ++ ['"']

def render (a : Attributes) : Text := a.entries.flatMap renderEntry

def writeEntry (write : Writer σ) (out : σ) (e : AttrKey × Option Text) : Except σ σ := do
  let out ← write out [' ']
  let out ← write out e.1.markupName
  match e.2 with
  | none => return out
  | some value =>
    let out ← write out ['=', '"']
    let out ← write out (Reference.escape value)
    write out ['"']

end Attributes

namespace Label

def render (l : Label) : Text := l.content ++ l.attributes.render

def writeTo (write : Writer σ) (l : Label) (out : σ) : Except σ σ := do
  let out ← write out l.content
  l.attributes.entries.foldlM (Attributes.writeEntry write) out

end Label

namespace Forest

/-- A forest as markup. -/
def render : Forest Label → Text
  | nil => []
  | cons l kids rest => l.render ++ (render kids ++ render rest)

/-- Writes a forest and stops at the first failure. -/
def writeTo (write : Writer σ) : Forest Label → σ → Except σ σ
  | nil, out => .ok out
  | cons l kids rest, out => do
    let out ← l.writeTo write out
    let out ← writeTo write kids out
    writeTo write rest out

end Forest
end TemplateTree
