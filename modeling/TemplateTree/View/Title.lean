import TemplateTree.View.Basic
import TemplateTree.Text.Title
import TemplateTree.Event

/-!
The title of a document. It is looked for in the content of each node by itself, so a title that is
spread over several nodes is not seen.
-/
namespace TemplateTree.View

variable (v : View) (s : Store)

/-- The first title in the list. -/
def title? : Option Text :=
  (s.forest v.list).preorder.findSome? fun o => Text.title? o.node.label.content

/-- Replaces the first title in the list. -/
def setTitle (title : Text) : Store × List Event :=
  let found := (s.forest v.list).preorder.findSome? fun o =>
    (Text.setTitle? title o.node.label.content).map fun content => (o.id, content)
  match found with
  | none => (s, [.noTitle])
  | some (n, content) => (s.setContent n content, [.titleSet title])

end TemplateTree.View
