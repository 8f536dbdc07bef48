import TemplateTree.View.Title

/-!
Edits through a view. Each one changes a single list, or the label of a single node, and does
nothing when what it needs is missing. Content that would become part of itself is refused.
-/
namespace TemplateTree

/-- What can be put into a list: a text by itself, or nodes that stay shared with where they are. -/
inductive Content
  | text (content : Text)
  | nodes (ns : List NodeId)
  deriving DecidableEq, Repr

/-- True when putting the content into a list would put a node below itself. -/
def Content.wouldContainItself (s : Store) (target : ListId) : Content → Bool
  | text _ => false
  | nodes ns => ns.any (s.owns · target)

/-- The number of nodes that the content becomes. -/
def Content.count : Content → Nat
  | text _ => 1
  | nodes ns => ns.length

namespace Store

/-- The nodes of the content; a text becomes a new one. -/
def supply (s : Store) : Content → List NodeId × Store
  | .text content =>
    let (n, s) := s.addLeaf content
    ([n], s)
  | .nodes ns => (ns, s)

/-- Puts content into a list at an index, or at its end when it is not that long. -/
def insert (s : Store) (target : ListId) (index : Nat) (content : Content) : Store :=
  let (ns, s) := s.supply content
  let old := s.list target
  s.setList target (old.take index ++ ns ++ old.drop index)

/-- Puts content into a list unless a node would come to stand below itself. -/
def insertInto (s : Store) (target : ListId) (index : Nat) (content : Content) :
    Store × List Event :=
  if content.wouldContainItself s target then (s, [.wouldContainItself])
  else (s.insert target index content, [])

/-- Takes a node out of a list wherever it stands in it. -/
def removeFrom (s : Store) (target : ListId) (n : NodeId) : Store :=
  s.setList target ((s.list target).filter (· ≠ n))

end Store

inductive Edit
  | setAttribute (key : AttrKey) (value : Text)
  | removeAttribute (key : AttrKey)
  | remove
  | clear
  /-- Puts a text in place of all that is inside. -/
  | setInner (content : Text)
  | append (content : Content)
  | prepend (content : Content)
  | after (content : Content)
  | before (content : Content)
  | replace (content : Content)
  | setTitle (title : Text)
  deriving DecidableEq, Repr

namespace View

variable (v : View) (s : Store)

def setAttribute (key : AttrKey) (value : Text) : Store × List Event :=
  match v.node? s with
  | none => (s, [.noNodeToSet key])
  | some n =>
    (s.setAttributes n ((s.node n).label.attributes.set key (some value)), [.attributeSet key])

def removeAttribute (key : AttrKey) : Store × List Event :=
  match v.node? s with
  | none => (s, [])
  | some n =>
    let attributes := (s.node n).label.attributes
    if attributes.contains key then
      (s.setAttributes n (attributes.erase key), [.attributeRemoved key])
    else (s, [])

/-- Takes the node out of the view's list. -/
def remove : Store × List Event :=
  match v.node? s with
  | none => (s, [])
  | some n => if n ∈ s.list v.list then (s.removeFrom v.list n, []) else (s, [.alreadyDetached])

/-- Empties what is inside the node. -/
def clear : Store × List Event :=
  match v.inner? s with
  | none => (s, [.nothingToClear])
  | some target => (s.setList target [], [])

def setInner (content : Text) : Store × List Event :=
  match v.inner? s with
  | none => (s, [.noInnerContent])
  | some target =>
    let (n, s) := s.addLeaf content
    (s.setList target [n], [])

/-- Puts content after all that is inside the node. -/
def append (content : Content) : Store × List Event :=
  match v.inner? s with
  | none => (s, [.noSlotToAppend])
  | some target => s.insertInto target (s.list target).length content

/-- Puts content before all that is inside the node. -/
def prepend (content : Content) : Store × List Event :=
  match v.inner? s with
  | none => (s, [.noSlotToPrepend])
  | some target => s.insertInto target 0 content

/-- Puts content next to the node, `offset` places after where it begins. A list without nodes
takes the content as it is; a node that has left its list has no place beside it. -/
def insertBeside (offset : Nat) (content : Content) : Store × List Event :=
  if content.wouldContainItself s v.list then (s, [.wouldContainItself])
  else
    match v.node? s with
    | none => (s.insert v.list (s.list v.list).length content, [])
    | some n =>
      match s.position? v.list n with
      | none => (s, [.detachedSibling])
      | some i => (s.insert v.list (i + offset) content, [])

def after (content : Content) : Store × List Event := v.insertBeside s 1 content

def before (content : Content) : Store × List Event := v.insertBeside s 0 content

/-- Puts content in place of the node. A node that has left its list leaves nothing to replace, and
the content goes to the front. -/
def replace (content : Content) : Store × List Event :=
  if content.wouldContainItself s v.list then (s, [.wouldContainItself])
  else
    match (v.node? s).bind fun n => (s.position? v.list n).map (n, ·) with
    | none => (s.insert v.list 0 content, [.replaced 0 content.count])
    | some (n, i) => ((s.removeFrom v.list n).insert v.list i content, [.replaced i content.count])

/-- Carries out an edit. -/
def edit : Edit → Store × List Event
  | .setAttribute key value => v.setAttribute s key value
  | .removeAttribute key => v.removeAttribute s key
  | .remove => v.remove s
  | .clear => v.clear s
  | .setInner content => v.setInner s content
  | .append content => v.append s content
  | .prepend content => v.prepend s content
  | .after content => v.after s content
  | .before content => v.before s content
  | .replace content => v.replace s content
  | .setTitle title => v.setTitle s title

end View
end TemplateTree
