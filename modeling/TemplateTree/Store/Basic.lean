import TemplateTree.Label

/-!
Nodes and lists of nodes, shared by name. A node names the list of its children, and a list may be
named by several nodes, so an edit of a list is seen wherever the list is reached.
-/
namespace TemplateTree

structure NodeId where
  index : Nat
  deriving DecidableEq, Repr

structure ListId where
  index : Nat
  deriving DecidableEq, Repr

structure Node where
  label : Label
  children : ListId
  deriving DecidableEq, Repr

structure Store where
  nodes : Array Node
  lists : Array (List NodeId)
  deriving DecidableEq, Repr

namespace Store

variable {s : Store} {n m : NodeId} {l k : ListId} {ns : List NodeId}

def empty : Store := ⟨#[], #[]⟩

/-- The node of that name; a name that is not in use reads as a blank leaf. -/
def node (s : Store) (n : NodeId) : Node :=
  s.nodes.getD n.index ⟨default, ⟨s.lists.size⟩⟩

/-- The list of that name; a name that is not in use reads as the empty list. -/
def list (s : Store) (l : ListId) : List NodeId := s.lists.getD l.index []

def setLabel (s : Store) (n : NodeId) (label : Label) : Store :=
  { s with nodes := s.nodes.setIfInBounds n.index ⟨label, (s.node n).children⟩ }

def setContent (s : Store) (n : NodeId) (content : Text) : Store :=
  s.setLabel n { (s.node n).label with content }

def setAttributes (s : Store) (n : NodeId) (attributes : Attributes) : Store :=
  s.setLabel n { (s.node n).label with attributes }

def setList (s : Store) (l : ListId) (ns : List NodeId) : Store :=
  { s with lists := s.lists.setIfInBounds l.index ns }

/-- Adds a list under a new name. -/
def addList (s : Store) (ns : List NodeId) : ListId × Store :=
  (⟨s.lists.size⟩, { s with lists := s.lists.push ns })

/-- Adds a node under a new name. -/
def addNode (s : Store) (node : Node) : NodeId × Store :=
  (⟨s.nodes.size⟩, { s with nodes := s.nodes.push node })

/-- The first place of a node in a list. -/
def position? (s : Store) (l : ListId) (n : NodeId) : Option Nat :=
  if n ∈ s.list l then some ((s.list l).idxOf n) else none

theorem list_setList_self (h : l.index < s.lists.size) : (s.setList l ns).list l = ns := by
  simp [list, setList, Array.getD_eq_getD_getElem?, h]

theorem list_setList_of_ne (h : k ≠ l) : (s.setList l ns).list k = s.list k := by
  have : l.index ≠ k.index := fun he => h (by cases k; cases l; simp_all)
  simp [list, setList, Array.getD_eq_getD_getElem?, this]

theorem node_setList (s : Store) (l : ListId) (ns : List NodeId) (n : NodeId) :
    (s.setList l ns).node n = s.node n := by
  simp [node, setList]

theorem list_setLabel (s : Store) (n : NodeId) (label : Label) (l : ListId) :
    (s.setLabel n label).list l = s.list l := rfl

theorem node_setLabel_self (h : n.index < s.nodes.size) (label : Label) :
    (s.setLabel n label).node n = ⟨label, (s.node n).children⟩ := by
  simp [node, setLabel, Array.getD_eq_getD_getElem?, h]

theorem node_setLabel_of_ne (h : m ≠ n) (label : Label) :
    (s.setLabel n label).node m = s.node m := by
  have : n.index ≠ m.index := fun he => h (by cases m; cases n; simp_all)
  simp [node, setLabel, Array.getD_eq_getD_getElem?, this]

end Store
end TemplateTree
