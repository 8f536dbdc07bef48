import TemplateTree.View.Basic
import TemplateTree.Event

/-!
Finding binding points. Every query walks the list of a view, a parent before its children and from
left to right, and answers with views of the nodes that it finds.
-/
namespace TemplateTree

/-- A node with `data-prop`, and the name it gives. -/
structure Property where
  view : View
  name : Text
  deriving DecidableEq, Repr

/-- A node with `data-scope`, the name it gives, and the properties that belong to it. -/
structure Scope where
  view : View
  name : Text
  properties : List Property
  deriving DecidableEq, Repr

namespace Occurrence

def attribute? (o : Occurrence) (key : AttrKey) : Option Text := o.node.label.attributes.get? key

/-- The property that the node itself is. -/
def property? (o : Occurrence) : Option Property := (o.attribute? .prop).map (⟨o.view, ·⟩)

end Occurrence

/-- The properties in a forest that belong to what is around it: a scope keeps its own. -/
def Property.inside : Forest Occurrence → List Property
  | .nil => []
  | .cons o kids rest =>
    if o.node.label.attributes.contains .scope then inside rest
    else o.property?.toList ++ inside kids ++ inside rest

/-- The properties of a scope: itself, if it is one, and those inside. -/
def Property.ofScope (o : Occurrence) (kids : Forest Occurrence) : List Property :=
  o.property?.toList ++ inside kids

/-- The scopes of a forest. A scope has the scopes inside it as its children, and they follow it in
its own row once more. -/
def Scope.find : Forest Occurrence → Forest Scope
  | .nil => .nil
  | .cons o kids rest =>
    let below := find kids
    let found := below ++ find rest
    match o.attribute? .scope with
    | none => found
    | some name => .cons ⟨o.view, name, Property.ofScope o kids⟩ below found

/-- Views by name, in the order of the names. -/
abbrev NamedViews := List (Text × View)

namespace NamedViews

/-- A name that is present gets the new view. -/
def insert (name : Text) (v : View) : NamedViews → NamedViews
  | [] => [(name, v)]
  | e :: r =>
    if name < e.1 then (name, v) :: e :: r
    else if name = e.1 then (name, v) :: r
    else e :: insert name v r

/-- The nodes that carry a key, by its value: the last one of a name counts. -/
def ofOccurrences (key : AttrKey) (os : List Occurrence) : NamedViews :=
  os.foldl (fun found o =>
    match o.attribute? key with
    | none => found
    | some name => insert name o.view found) []

end NamedViews

/-- The events of names that are given again, after those in `seen`. -/
def redefinitions (key : AttrKey) (seen : List Text) : List Occurrence → List Event
  | [] => []
  | o :: r =>
    match o.attribute? key with
    | none => redefinitions key seen r
    | some name =>
      if name ∈ seen then .redefined key name :: redefinitions key seen r
      else redefinitions key (name :: seen) r

namespace View

variable (v : View) (s : Store)

def scopes : Forest Scope := Scope.find (s.forest v.list)

/-- The views of all scopes of a name. -/
def scope (name : Text) : List View :=
  ((v.scopes s).roots.filter (·.name = name)).map (·.view)

/-- The properties of the view's node, taken as a scope. -/
def properties : List Property :=
  match v.node? s with
  | none => []
  | some n =>
    let node := s.node n
    Property.ofScope ⟨n, v.list, node⟩ (s.forest node.children)

def firstScope? (name : Text) : Option Scope := (v.scopes s).roots.find? (·.name = name)

/-- The views of the properties of a name, in the first scope of a name. -/
def property (scopeName name : Text) : List View :=
  match v.firstScope? s scopeName with
  | none => []
  | some found => (found.properties.filter (·.name = name)).map (·.view)

/-- Containers or fragments, whichever the key marks, by name. -/
def named (key : AttrKey) : NamedViews := NamedViews.ofOccurrences key (s.forest v.list).preorder

def named? (key : AttrKey) (name : Text) : Option View := (v.named s key).lookup name

/-- What a search for scopes reports. -/
def scopesEvents : List Event := [.foundScopes (v.scopes s).roots.length]

/-- What a search for a property reports. -/
def propertyEvents (scopeName : Text) : List Event :=
  match v.firstScope? s scopeName with
  | none => v.scopesEvents s ++ [.noScopeNamed scopeName]
  | some _ => v.scopesEvents s

/-- What a search for containers or fragments reports. -/
def namedEvents (key : AttrKey) : List Event := redefinitions key [] (s.forest v.list).preorder

end View
end TemplateTree
