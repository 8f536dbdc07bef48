import TemplateTree.Store.Unfold

/-!
Putting a forest of labels into the store. Every node and every list that stands for it is new.
-/
namespace TemplateTree.Store

/-- Adds a node for every label and gives the names of the nodes, in the shape of the forest. -/
def plant (s : Store) : Forest Label → Forest NodeId × Store
  | .nil => (.nil, s)
  | .cons label kids rest =>
    let (kidIds, s) := s.plant kids
    let (children, s) := s.addList kidIds.roots
    let (id, s) := s.addNode ⟨label, children⟩
    let (restIds, s) := s.plant rest
    (.cons id kidIds restIds, s)

/-- Plants a forest and gives the list of its roots. -/
def plantList (s : Store) (f : Forest Label) : ListId × Forest NodeId × Store :=
  let (ids, s) := s.plant f
  let (l, s) := s.addList ids.roots
  (l, ids, s)

/-- Adds a text by itself. -/
def addLeaf (s : Store) (content : Text) : NodeId × Store :=
  let (l, s) := s.addList []
  s.addNode ⟨Label.leaf content, l⟩

end TemplateTree.Store
