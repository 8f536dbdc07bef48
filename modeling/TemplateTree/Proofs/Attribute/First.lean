import TemplateTree.Markup.Basic
import TemplateTree.Token.Basic
import Mathlib.Tactic.Common

/-! Attributes that are written several times. The first one of each key counts, and the keys stand in
the order in which they are first written. -/
namespace TemplateTree

variable {key k : AttrKey} {a : Attributes} {e : AttrKey × Option Text}
  {es : List (AttrKey × Option Text)}

/-- The attributes of a tag in the order of writing, as keys and values. -/
def StartTag.entries (decode : Bool) (t : StartTag) : List (AttrKey × Option Text) :=
  t.attributes.map fun (name, value) =>
    (AttrKey.ofName name, value.map fun v => if decode then Reference.decode v else v)

/-- The value that a tag gives for a key, by its first attribute of that key. A bare attribute gives
the empty text. -/
def StartTag.value? (decode : Bool) (key : AttrKey) (t : StartTag) : Option Text :=
  ((t.entries decode).lookup key).map (·.getD [])

namespace Attributes

/-- The first entry of each key. -/
def firstOfEach : List (AttrKey × Option Text) → List (AttrKey × Option Text)
  | [] => []
  | e :: r => e :: (firstOfEach r).filter (·.1 ≠ e.1)

theorem lookup_filter_ne (h : key ≠ k) (es : List (AttrKey × Option Text)) :
    (es.filter (·.1 ≠ k)).lookup key = es.lookup key := by
  induction es with
  | nil => rfl
  | cons e r ih =>
    obtain ⟨k', value⟩ := e
    by_cases hk : k' = k
    · subst hk
      have hne : (key == k') = false := by simpa using h
      rw [List.filter_cons_of_neg (by simp), ih, List.lookup_cons, hne]
    · rw [List.filter_cons_of_pos (by simpa using hk), List.lookup_cons, List.lookup_cons, ih]

/-- What a key means does not change. -/
theorem lookup_firstOfEach (key : AttrKey) (es : List (AttrKey × Option Text)) :
    (firstOfEach es).lookup key = es.lookup key := by
  induction es with
  | nil => rfl
  | cons e r ih =>
    obtain ⟨k, value⟩ := e
    rw [firstOfEach, List.lookup_cons, List.lookup_cons]
    by_cases hk : key = k
    · simp [hk]
    · have hne : (key == k) = false := by simpa using hk
      rw [hne]
      exact (lookup_filter_ne hk _).trans ih

theorem lookup_eq_none (h : ∀ e ∈ es, e.1 ≠ key) : es.lookup key = none := by
  rw [List.lookup_eq_none_iff]
  intro e he
  simpa using (h e he).symm

theorem isSome_lookup (es : List (AttrKey × Option Text)) (key : AttrKey) :
    (es.lookup key).isSome = (es.map Prod.fst).contains key := by
  induction es with
  | nil => rfl
  | cons e r ih =>
    rw [List.lookup_cons, List.map_cons, List.contains_cons, ← ih]
    cases key == e.1 <;> rfl

/-- Without binding keys there is no value for any of them. -/
theorem get?_of_not_hasBinding (h : a.hasBinding = false) (hk : key.isBinding = true) :
    a.get? key = none := by
  have hnone : a.entries.lookup key = none := by
    refine lookup_eq_none (fun e he hek => ?_)
    obtain rfl := hek
    exact List.any_eq_false.mp h e.1 (List.mem_map_of_mem he) hk
  rw [get?, hnone]
  rfl

theorem insertNew_of_mem (h : key ∈ a.keys) (value : Option Text) : a.insertNew key value = a :=
  dif_pos h

theorem entries_insertNew (h : key ∉ a.keys) (value : Option Text) :
    (a.insertNew key value).entries = a.entries ++ [(key, value)] :=
  congrArg entries (dif_neg h)

theorem entries_foldl (es : List (AttrKey × Option Text)) (a : Attributes) :
    (es.foldl (fun a e => a.insertNew e.1 e.2) a).entries =
      a.entries ++ (firstOfEach es).filter (·.1 ∉ a.keys) := by
  induction es generalizing a with
  | nil => simp [firstOfEach]
  | cons e r ih =>
    rw [List.foldl_cons, ih, firstOfEach]
    by_cases h : e.1 ∈ a.keys
    · rw [insertNew_of_mem h, List.filter_cons_of_neg (by simpa using h), List.filter_filter]
      congr 1
      refine List.filter_congr (fun f _ => ?_)
      grind
    · have hkeys : (a.insertNew e.1 e.2).keys = a.keys ++ [e.1] := by
        rw [keys, entries_insertNew h, List.map_append]
        rfl
      rw [entries_insertNew h, hkeys, List.filter_cons_of_pos (by simpa using h), List.filter_filter,
        List.append_assoc, List.singleton_append]
      congr 2
      refine List.filter_congr (fun f _ => ?_)
      grind

end Attributes

theorem StartTag.value?_of_unbound {t : StartTag} (h : t.isBound = false) (decode : Bool)
    (hk : key.isBinding = true) : t.value? decode key = none := by
  have hnone : (t.entries decode).lookup key = none := by
    refine Attributes.lookup_eq_none (fun e he hek => ?_)
    obtain ⟨⟨name, value⟩, hp, rfl⟩ := List.mem_map.mp he
    obtain rfl : AttrKey.ofName name = key := hek
    exact List.any_eq_false.mp h (name, value) hp hk
  rw [value?, hnone]
  rfl

/-- The attributes that the parser reads from a tag. -/
theorem Tag.entries_ofStart (decode : Bool) (t : StartTag) :
    (Tag.ofStart decode t).attributes.entries = Attributes.firstOfEach (t.entries decode) := by
  have hread : (Tag.ofStart decode t).attributes =
      (t.entries decode).foldl (fun a e => a.insertNew e.1 e.2) Attributes.empty := by
    cases decode with
    | true => simp [Tag.ofStart, StartTag.entries, Attributes.ofWritten, List.foldl_map]
    | false => simp [Tag.ofStart, StartTag.entries, Attributes.ofWritten, List.foldl_map]
  rw [hread, Attributes.entries_foldl]
  simp [Attributes.empty, Attributes.keys]

end TemplateTree
