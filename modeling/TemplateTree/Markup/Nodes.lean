import TemplateTree.Markup.Basic
import TemplateTree.Label

/-!
Markup as a forest of labels. An element has two parts as its children: the slot, which ends the
opening tag and holds what is inside, and the closer. A void element has no closer.
-/
namespace TemplateTree.Markup

/-- The closing tag of an element, spelled like its opening tag. -/
def closer (name : Text) : Text := '<' :: '/' :: name ++ ['>']

def forest : Markup → Forest Label
  | nil => .nil
  | text source rest => .cons (Label.leaf source) .nil (forest rest)
  | element tag inner rest =>
    .cons ⟨'<' :: tag.name, tag.attributes⟩
      (.cons (Label.leaf tag.slot) (forest inner)
        (if tag.isVoid then .nil else .cons (Label.leaf (closer tag.name)) .nil .nil))
      (forest rest)

end TemplateTree.Markup
