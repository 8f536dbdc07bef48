import TemplateTree.Attribute.Key

/-!
The attributes of an element: pairs of a key and an optional value in the order in which the keys
were added. No key stands twice.
-/
namespace TemplateTree

/-- A value of `none` is a bare attribute, as in `<input disabled>`. -/
structure Attributes where
  entries : List (AttrKey × Option Text)
  distinct : (entries.map Prod.fst).Nodup
  deriving DecidableEq, Repr

namespace Attributes

variable {key other : AttrKey} {value : Option Text}

def empty : Attributes := ⟨[], List.nodup_nil⟩

instance : EmptyCollection Attributes := ⟨empty⟩
instance : Inhabited Attributes := ⟨empty⟩

def keys (a : Attributes) : List AttrKey := a.entries.map Prod.fst

def contains (a : Attributes) (key : AttrKey) : Bool := a.keys.contains key

/-- The value under a key; a bare attribute reads as the empty text. -/
def get? (a : Attributes) (key : AttrKey) : Option Text :=
  (a.entries.lookup key).map (·.getD [])

/-- True when a binding key is present. -/
def hasBinding (a : Attributes) : Bool := a.keys.any AttrKey.isBinding

/-- Replaces the value under a key where it stands. -/
def put (key : AttrKey) (value : Option Text) :
    List (AttrKey × Option Text) → List (AttrKey × Option Text)
  | [] => []
  | e :: r => if e.1 = key then (key, value) :: r else e :: put key value r

theorem keys_put (es : List (AttrKey × Option Text)) :
    (put key value es).map Prod.fst = es.map Prod.fst := by
  induction es with
  | nil => rfl
  | cons e r ih => by_cases h : e.1 = key <;> simp [put, h, ih]

theorem nodup_concat {es : List (AttrKey × Option Text)} (h : (es.map Prod.fst).Nodup)
    (absent : key ∉ es.map Prod.fst) : ((es ++ [(key, value)]).map Prod.fst).Nodup := by
  rw [List.map_append, List.nodup_append]
  refine ⟨h, by simp, ?_⟩
  intro a ha b hb
  simp only [List.map_cons, List.map_nil, List.mem_singleton] at hb
  rintro rfl
  exact absent (hb ▸ ha)

/-- Adds a key at the end unless it is present: markup that repeats an attribute means the first. -/
def insertNew (a : Attributes) (key : AttrKey) (value : Option Text) : Attributes :=
  if h : key ∈ a.entries.map Prod.fst then a
  else ⟨a.entries ++ [(key, value)], nodup_concat a.distinct h⟩

/-- Sets a key: a key that is present keeps its place. -/
def set (a : Attributes) (key : AttrKey) (value : Option Text) : Attributes :=
  if h : key ∈ a.entries.map Prod.fst then
    ⟨put key value a.entries, (keys_put a.entries).symm ▸ a.distinct⟩
  else ⟨a.entries ++ [(key, value)], nodup_concat a.distinct h⟩

def erase (a : Attributes) (key : AttrKey) : Attributes :=
  ⟨a.entries.filter (·.1 ≠ key), a.distinct.sublist (List.filter_sublist.map _)⟩

/-- Takes a key out. The answer is the value that it had, if it was there. -/
def remove (a : Attributes) (key : AttrKey) : Option (Option Text) × Attributes :=
  (a.entries.lookup key, a.erase key)

/-- Attributes as written in a tag, by name. -/
def ofWritten (pairs : List (Text × Option Text)) : Attributes :=
  pairs.foldl (fun a (name, value) => a.insertNew (AttrKey.ofName name) value) empty

end Attributes
end TemplateTree
