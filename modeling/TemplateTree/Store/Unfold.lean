import TemplateTree.Store.Basic

/-!
A list of the store as a forest. Each place where a node is reached is an occurrence of its own, so
a shared node occurs several times.
-/
namespace TemplateTree

/-- A node where it stands: its name, the list it stands in, and what it holds. -/
structure Occurrence where
  id : NodeId
  owner : ListId
  node : Node
  deriving DecidableEq, Repr

namespace Store

/-- The forest under a list, cut off below `levels` levels. -/
def unfold (s : Store) : Nat → ListId → Forest Occurrence
  | 0, _ => .nil
  | levels + 1, l =>
    Forest.ofList (fun n => ⟨n, l, s.node n⟩) (fun n => s.unfold levels (s.node n).children) (s.list l)

/-- The forest under a list. No chain of distinct nodes is longer than the number of nodes. -/
def forest (s : Store) (l : ListId) : Forest Occurrence := s.unfold s.nodes.size l

/-- The same forest as labels. -/
def labels (s : Store) (l : ListId) : Forest Label := (s.forest l).map (·.node.label)

/-- True when the node's children, or the children of a node below it, are the list `target`. -/
def owns (s : Store) (n : NodeId) (target : ListId) : Bool :=
  (s.node n).children = target ||
    (s.forest (s.node n).children).preorder.any fun o => o.node.children = target

end Store
end TemplateTree
