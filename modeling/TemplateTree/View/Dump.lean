import TemplateTree.View.Basic
import TemplateTree.Text.Quoted

/-!
Documents in full, for debugging: fields by name, texts in quotes.
-/
namespace TemplateTree

/-- Items in brackets, with commas between them. -/
def dumpList (items : List Text) : Text :=
  '[' :: [',', ' '].intercalate items ++ [']']

def dumpOption : Option Text → Text
  | none => "None".toList
  | some t => "Some(".toList ++ Text.quote t ++ [')']

def AttrKey.dump : AttrKey → Text
  | scope => "Scope".toList
  | prop => "Prop".toList
  | container => "Container".toList
  | fragment => "Partial".toList
  | other name => "Other(".toList ++ Text.quote name ++ [')']

def Attributes.dump (a : Attributes) : Text :=
  let entry (e : AttrKey × Option Text) := '(' :: e.1.dump ++ [',', ' '] ++ dumpOption e.2 ++ [')']
  "Attributes \x7b entries: ".toList ++ dumpList (a.entries.map entry) ++ " \x7d".toList

/-- Each tree of a forest in full. -/
def Forest.dumpTrees : Forest Label → List Text
  | nil => []
  | cons l kids rest =>
    ("Node \x7b content: ".toList ++ Text.quote l.content ++ ", attributes: ".toList ++
        l.attributes.dump ++ ", children: ".toList ++ dumpList (dumpTrees kids) ++
        " \x7d".toList) ::
      dumpTrees rest

def Forest.dump (f : Forest Label) : Text := dumpList f.dumpTrees

/-- A view as its markup and the content of its focus. -/
def View.dump (v : View) (s : Store) : Text :=
  "Document \x7b html: ".toList ++ Text.quote (v.markup s) ++ ", focus: ".toList ++
    dumpOption (v.focus.map fun n => (s.node n).label.content) ++ " \x7d".toList

end TemplateTree
