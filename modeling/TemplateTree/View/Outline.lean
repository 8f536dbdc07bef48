import TemplateTree.View.Basic
import TemplateTree.Text.Blank

/-!
Outlines: a line for each node of a document, up to a number of nodes. An element shows its opening
tag and has what is inside it below, indented; a text shows how it begins.
-/
namespace TemplateTree

/-- An outline under way: its lines so far, what the next line begins with, and the number of nodes that
may still be visited. -/
structure Outline where
  lines : List Text
  indent : Text
  left : Nat
  deriving DecidableEq, Repr

namespace Outline

/-- What one level is indented by. -/
def margin : Text := [' ', ' ']

/-- An attribute as it reads, without escapes. -/
def entry : AttrKey × Option Text → Text
  | (key, none) => ' ' :: key.markupName
  | (key, some value) => ' ' :: key.markupName ++ '=' :: '"' :: value ++ ['"']

/-- The opening tag of an element with the given slot. -/
def openingTag (l : Label) (slot : Label) : Text :=
  l.content ++ l.attributes.entries.flatMap entry ++ slot.content

/-- At most forty characters of a text, on one line. -/
def preview (t : Text) : Text :=
  (t.take 40).map (fun c => if c = '\n' then ' ' else c) ++ if t.length > 40 then ['…'] else []

/-- What is shown of a text, unless it is blank. -/
def shown? (content : Text) : Option Text :=
  match Text.trim content with
  | [] => none
  | t => some ('"' :: preview t ++ ['"'])

/-- One node less may be visited. -/
def visit (o : Outline) : Outline := { o with left := o.left - 1 }

def add (o : Outline) (line : Text) : Outline := { o with lines := o.lines ++ [o.indent ++ line] }

def addText (o : Outline) (content : Text) : Outline := (shown? content).elim o o.add

/-- One level down. -/
def enter (o : Outline) : Outline := { o with indent := o.indent ++ margin }

/-- One level up again. -/
def leave (o : Outline) : Outline :=
  { o with indent := o.indent.take (o.indent.length - margin.length) }

/-- Visits the nodes of a forest as long as any may be visited. A text counts as visited also when it is
blank; below an element are the children of its slot. -/
def walk : Forest Label → Outline → Outline
  | .nil, o => o
  | .cons l .nil rest, o =>
    if o.left = 0 then o else walk rest (o.visit.addText l.content)
  | .cons l (.cons slot inner _) rest, o =>
    if o.left = 0 then o
    else walk rest (walk inner (o.visit.add (openingTag l slot)).enter).leave

end Outline

/-- The outline of a view's list; at most `cap` nodes are visited. -/
def View.outline (v : View) (s : Store) (cap : Nat) : List Text :=
  (Outline.walk (s.labels v.list) ⟨[], [], cap⟩).lines

end TemplateTree
