import TemplateTree.Attribute.Key
import TemplateTree.Text.Quoted

/-!
What the library reports about its work. An event has a level, a subject and a message.
-/
namespace TemplateTree

inductive Level
  | debug
  | trace
  deriving DecidableEq, Repr

/-- What an event is about. -/
inductive Subject
  | parse
  | query
  | mutate
  deriving DecidableEq, Repr

inductive Event
  | tokenized (bytes tokens : Nat)
  | strayEndTag (name : Text) (offset : Nat)
  | boundElement (name : Text) (offset : Nat)
  | built (roots bound elements : Nat)
  | foundScopes (count : Nat)
  | noScopeNamed (name : Text)
  | redefined (key : AttrKey) (name : Text)
  | titleSet (title : Text)
  | noTitle
  | wouldContainItself
  | noNodeToSet (key : AttrKey)
  | attributeSet (key : AttrKey)
  | attributeRemoved (key : AttrKey)
  | alreadyDetached
  | nothingToClear
  | noInnerContent
  | noSlotToAppend
  | noSlotToPrepend
  | detachedSibling
  | replaced (index count : Nat)
  deriving DecidableEq, Repr

namespace Event

def subject : Event → Subject
  | tokenized .. | strayEndTag .. | boundElement .. | built .. => .parse
  | foundScopes .. | noScopeNamed .. | redefined .. => .query
  | _ => .mutate

/-- What was done is traced; what came of it, or could not be done, is for debugging. -/
def level : Event → Level
  | tokenized .. | strayEndTag .. | boundElement .. => .trace
  | foundScopes .. | redefined .. => .trace
  | titleSet .. | attributeSet .. | attributeRemoved .. | replaced .. => .trace
  | _ => .debug

open Text

def message : Event → Text
  | tokenized bytes tokens =>
    "tokenized ".toList ++ ofNat bytes ++ " bytes into ".toList ++ ofNat tokens ++ " tokens".toList
  | strayEndTag name offset =>
    "stray </".toList ++ name ++ "> at byte ".toList ++ ofNat offset ++ " kept as text".toList
  | boundElement name offset =>
    "structured <".toList ++ name ++ "> at byte ".toList ++ ofNat offset
  | built roots bound elements =>
    "built ".toList ++ ofNat roots ++ " root nodes (".toList ++ ofNat bound ++
      " structured elements, ".toList ++ ofNat elements ++ " elements total)".toList
  | foundScopes count => "found ".toList ++ ofNat count ++ " scopes".toList
  | noScopeNamed name => "no scope named ".toList ++ quote name
  | redefined key name =>
    key.markupName ++ " ".toList ++ quote name ++ " redefined; later node wins".toList
  | titleSet title => "title set to ".toList ++ quote title
  | noTitle => "set_title: no <title> found".toList
  | wouldContainItself => "skipped insert: a node would contain itself".toList
  | noNodeToSet key => "set_attribute ".toList ++ key.markupName ++ ": no node".toList
  | attributeSet key => "set_attribute ".toList ++ key.markupName
  | attributeRemoved key => "remove_attribute ".toList ++ key.markupName
  | alreadyDetached => "remove: node already detached".toList
  | nothingToClear => "clear: focus has no content slot".toList
  | noInnerContent => "set inner content: focus has no content slot".toList
  | noSlotToAppend => "append: focus has no content slot".toList
  | noSlotToPrepend => "prepend: focus has no content slot".toList
  | detachedSibling => "insert sibling: focus is detached".toList
  | replaced index count =>
    "replace at ".toList ++ ofNat index ++ " with ".toList ++ ofNat count ++ " nodes".toList

end Event
end TemplateTree
