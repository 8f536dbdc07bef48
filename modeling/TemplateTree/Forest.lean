/-!
Ordered forests: rows of labelled trees. A row is either empty or a first tree, given by its label
and its row of children, and the rest of the row.
-/
namespace TemplateTree

universe u v

inductive Forest (α : Type u)
  | nil
  | cons (label : α) (children : Forest α) (rest : Forest α)
  deriving DecidableEq, Repr

namespace Forest

variable {α : Type u} {β : Type v}

def append : Forest α → Forest α → Forest α
  | nil, g => g
  | cons a kids rest, g => cons a kids (append rest g)

instance : Append (Forest α) := ⟨append⟩

def map (f : α → β) : Forest α → Forest β
  | nil => nil
  | cons a kids rest => cons (f a) (map f kids) (map f rest)

/-- A row with one tree for each member of a list. -/
def ofList (label : β → α) (children : β → Forest α) : List β → Forest α
  | [] => nil
  | b :: r => cons (label b) (children b) (ofList label children r)

/-- The labels of the outermost row. -/
def roots : Forest α → List α
  | nil => []
  | cons a _ rest => a :: roots rest

/-- All labels, a parent before its children, from left to right. -/
def preorder : Forest α → List α
  | nil => []
  | cons a kids rest => a :: (preorder kids ++ preorder rest)

/-- All labels in the same order, with their depths; the outermost row is at `depth`. -/
def rows (depth : Nat) : Forest α → List (Nat × α)
  | nil => []
  | cons a kids rest => (depth, a) :: (rows (depth + 1) kids ++ rows depth rest)

/-- The children of the tree at an index. -/
def childrenAt? : Forest α → Nat → Option (Forest α)
  | nil, _ => none
  | cons _ kids _, 0 => some kids
  | cons _ _ rest, i + 1 => childrenAt? rest i

/-- The label of the tree that a path of indices leads to. -/
def at? : Forest α → List Nat → Option α
  | _, [] => none
  | f, [i] => f.roots[i]?
  | f, i :: path => (f.childrenAt? i).bind (at? · path)

theorem cons_append (a : α) (kids rest g : Forest α) :
    cons a kids rest ++ g = cons a kids (rest ++ g) := rfl

theorem map_id (f : Forest α) : f.map id = f := by
  induction f with
  | nil => rfl
  | cons a kids rest ihk ihr => rw [map, ihk, ihr, id]

theorem roots_append (f g : Forest α) : (f ++ g).roots = f.roots ++ g.roots := by
  induction f with
  | nil => rfl
  | cons a kids rest _ ih => rw [cons_append, roots, roots, ih, List.cons_append]

theorem preorder_append (f g : Forest α) : (f ++ g).preorder = f.preorder ++ g.preorder := by
  induction f with
  | nil => rfl
  | cons a kids rest _ ih =>
    rw [cons_append, preorder, preorder, ih, List.cons_append, List.append_assoc]

theorem mem_preorder_cons {a b : α} {kids rest : Forest α} :
    b ∈ (cons a kids rest).preorder ↔ b = a ∨ b ∈ kids.preorder ∨ b ∈ rest.preorder := by
  rw [preorder, List.mem_cons, List.mem_append]

theorem mem_preorder_of_roots {a : α} {f : Forest α} (h : a ∈ f.roots) : a ∈ f.preorder := by
  induction f with
  | nil => cases h
  | cons b kids rest _ ih =>
    rcases List.mem_cons.mp h with rfl | h
    · exact mem_preorder_cons.mpr (Or.inl rfl)
    · exact mem_preorder_cons.mpr (Or.inr (Or.inr (ih h)))

theorem map_append (h : α → β) (f g : Forest α) : (f ++ g).map h = f.map h ++ g.map h := by
  induction f with
  | nil => rfl
  | cons a kids rest _ ih => rw [cons_append, map, map, ih, cons_append]

theorem map_congr {h k : α → β} {f : Forest α} (hk : ∀ a ∈ f.preorder, h a = k a) :
    f.map h = f.map k := by
  induction f with
  | nil => rfl
  | cons a kids rest ihk ihr =>
    rw [map, map, hk a (mem_preorder_cons.mpr (Or.inl rfl)),
      ihk fun b hb => hk b (mem_preorder_cons.mpr (Or.inr (Or.inl hb))),
      ihr fun b hb => hk b (mem_preorder_cons.mpr (Or.inr (Or.inr hb)))]

theorem rows_append (depth : Nat) (f g : Forest α) :
    (f ++ g).rows depth = f.rows depth ++ g.rows depth := by
  induction f with
  | nil => rfl
  | cons a kids rest _ ih =>
    rw [cons_append, rows, rows, ih, List.cons_append, List.append_assoc]

theorem rows_map (h : α → β) (depth : Nat) (f : Forest α) :
    (f.map h).rows depth = (f.rows depth).map fun r => (r.1, h r.2) := by
  induction f generalizing depth with
  | nil => rfl
  | cons a kids rest ihk ihr =>
    rw [map, rows, rows, ihk, ihr, List.map_cons, List.map_append]

theorem roots_map (h : α → β) (f : Forest α) : (f.map h).roots = f.roots.map h := by
  induction f with
  | nil => rfl
  | cons a kids rest _ ih => rw [map, roots, roots, ih, List.map_cons]

theorem preorder_map (h : α → β) (f : Forest α) : (f.map h).preorder = f.preorder.map h := by
  induction f with
  | nil => rfl
  | cons a kids rest ihk ihr =>
    rw [map, preorder, preorder, ihk, ihr, List.map_cons, List.map_append]

theorem roots_ofList (label : β → α) (children : β → Forest α) (bs : List β) :
    (ofList label children bs).roots = bs.map label := by
  induction bs with
  | nil => rfl
  | cons b r ih => rw [ofList, roots, ih, List.map_cons]

end Forest
end TemplateTree
