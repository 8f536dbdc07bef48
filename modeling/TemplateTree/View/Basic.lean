import TemplateTree.Store.Plant
import TemplateTree.Markup.Nodes
import TemplateTree.Text.Strip

/-!
Views: a list of the store, and perhaps a node in it that the view is about. Views of one store see
each other's edits.
-/
namespace TemplateTree

structure View where
  list : ListId
  focus : Option NodeId
  deriving DecidableEq, Repr

/-- The view of a node where it stands. -/
def Occurrence.view (o : Occurrence) : View := ⟨o.owner, some o.id⟩

namespace View

/-- The node that the view is about: its focus, or else the first node of its list. -/
def node? (v : View) (s : Store) : Option NodeId := v.focus.or (s.list v.list).head?

/-- The first child of that node, which holds what is inside an element. -/
def slot? (v : View) (s : Store) : Option NodeId :=
  (v.node? s).bind fun n => (s.list (s.node n).children).head?

/-- The list of what is inside. -/
def inner? (v : View) (s : Store) : Option ListId := (v.slot? s).map fun n => (s.node n).children

/-- The whole list as markup. -/
def markup (v : View) (s : Store) : Text := (s.labels v.list).render

/-- What is inside the node, as markup. -/
def html (v : View) (s : Store) : Text :=
  ((v.inner? s).map fun l => (s.labels l).render).getD []

/-- What is inside the node, without tags. -/
def text (v : View) (s : Store) : Text := Text.stripTags (v.html s)

def attribute? (v : View) (s : Store) (key : AttrKey) : Option Text :=
  (v.node? s).bind fun n => (s.node n).label.attributes.get? key

/-- Writes the whole list into a sink. -/
def writeTo (v : View) (s : Store) (out : Sink) : Except Sink Sink :=
  (s.labels v.list).writeTo Sink.write out

/-- An independent copy of the whole list. The copy is about the copy of the focus, at the first
place where the focus occurs; a focus that does not occur is lost. -/
def duplicate (v : View) (s : Store) : View × Store :=
  let source := s.forest v.list
  let (l, ids, s) := s.plantList (source.map (·.node.label))
  let copies := source.preorder.zip ids.preorder
  let focus := v.focus.bind fun n => (copies.find? (·.1.id = n)).map (·.2)
  (⟨l, focus⟩, s)

end View

namespace Store

/-- One node as markup. -/
def renderNode (s : Store) (n : NodeId) : Text :=
  (s.node n).label.render ++ (s.labels (s.node n).children).render

/-- The view of a forest that is put into the store. -/
def plantView (s : Store) (f : Forest Label) : View × Store :=
  let (l, _, s) := s.plantList f
  (⟨l, none⟩, s)

end Store
end TemplateTree
