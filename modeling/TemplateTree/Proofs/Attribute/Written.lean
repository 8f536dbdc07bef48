import TemplateTree.Label

/-! Attributes as they are written and read again. -/
namespace TemplateTree

namespace Reference

theorem decode_amp (t : Text) : decode ("&amp;".toList ++ t) = '&' :: decode t := by
  have h : after? ("amp;".toList ++ t) = some ('&', 4) := rfl
  have hs : "&amp;".toList ++ t = '&' :: ("amp;".toList ++ t) := rfl
  rw [hs, decode, if_pos rfl, h]
  rfl

theorem decode_quot (t : Text) : decode ("&quot;".toList ++ t) = '"' :: decode t := by
  have h : after? ("quot;".toList ++ t) = some ('"', 5) := rfl
  have hs : "&quot;".toList ++ t = '&' :: ("quot;".toList ++ t) := rfl
  rw [hs, decode, if_pos rfl, h]
  rfl

/-- What is written into quotes reads back, whatever the value is. -/
theorem decode_escape (v : Text) : decode (escape v) = v := by
  fun_induction escape v with
  | case1 => simp [decode]
  | case2 r ih => rw [decode_amp, ih]
  | case3 r ih => rw [decode_quot, ih]
  | case4 c r hamp _ ih => rw [decode, if_neg hamp, ih]

/-- It does not hold the quote that ends it. -/
theorem quote_not_mem_escape (v : Text) : '"' ∉ escape v := by
  fun_induction escape v with
  | case1 => simp
  | case2 r ih | case3 r ih => simp [ih]
  | case4 c r _ hquote ih =>
    intro h
    rcases List.mem_cons.mp h with rfl | h
    · exact hquote rfl
    · exact ih h

end Reference

/-- The key is what its own name is read as, and its name can stand in a tag. A name with capitals
reads as another key. -/
structure AttrKey.Canonical (k : AttrKey) : Prop where
  ofName : AttrKey.ofName k.markupName = k
  ne_nil : k.markupName ≠ []
  chars : k.markupName.all Text.isAttributeChar = true

theorem AttrKey.canonical_of_isBinding {k : AttrKey} (h : k.isBinding = true) : k.Canonical := by
  cases k with
  | other => cases h
  | _ => exact ⟨by decide, by decide, by decide⟩

namespace Attributes

/-- The attributes by the names and values that stand in the tag. -/
def written (a : Attributes) : List (Text × Option Text) :=
  a.entries.map fun e => (e.1.markupName, e.2.map Reference.escape)

theorem eq_of_entries {a b : Attributes} (h : a.entries = b.entries) : a = b := by
  cases a
  cases b
  cases h
  rfl

theorem entries_foldl_insertNew (es : List (AttrKey × Option Text)) (a : Attributes)
    (hnodup : ((a.entries ++ es).map Prod.fst).Nodup)
    (hkeys : ∀ e ∈ es, AttrKey.ofName e.1.markupName = e.1) :
    (es.foldl (fun a e => a.insertNew (AttrKey.ofName e.1.markupName) e.2) a).entries =
      a.entries ++ es := by
  induction es generalizing a with
  | nil => simp
  | cons e r ih =>
    have habsent : e.1 ∉ a.entries.map Prod.fst := by
      rw [List.map_append, List.map_cons, List.nodup_append] at hnodup
      intro hx
      exact hnodup.2.2 _ hx _ (List.mem_cons_self ..) rfl
    have hnew : (a.insertNew e.1 e.2).entries = a.entries ++ [e] := by
      simp [insertNew, habsent]
    rw [List.foldl_cons, hkeys e (by simp), ih _ (by rw [hnew]; simpa using hnodup)
      (fun x hx => hkeys x (by simp [hx])), hnew]
    simp

/-- Attributes with canonical keys are read as they were. -/
theorem ofWritten_written (a : Attributes) (h : ∀ k ∈ a.keys, k.Canonical) :
    ofWritten (a.written.map fun (name, value) => (name, value.map Reference.decode)) = a := by
  have hread : a.written.map (fun (name, value) => (name, value.map Reference.decode)) =
      a.entries.map fun e => (e.1.markupName, e.2) := by
    rw [written, List.map_map]
    refine List.map_congr_left (fun e _ => ?_)
    obtain ⟨k, v⟩ := e
    cases v <;> simp [Reference.decode_escape]
  rw [hread, ofWritten, List.foldl_map]
  apply eq_of_entries
  refine (entries_foldl_insertNew a.entries empty a.distinct ?_).trans (List.nil_append _)
  intro e he
  exact (h e.1 (List.mem_map_of_mem he)).ofName

theorem any_isBinding_written (a : Attributes) (h : ∀ k ∈ a.keys, k.Canonical) :
    (a.written.any fun (name, _) => (AttrKey.ofName name).isBinding) = a.hasBinding := by
  have hkey : ∀ e ∈ a.entries, AttrKey.ofName e.1.markupName = e.1 := fun e he =>
    (h e.1 (List.mem_map_of_mem he)).ofName
  rw [written, hasBinding, keys, List.any_map, List.any_map, Bool.eq_iff_iff, List.any_eq_true,
    List.any_eq_true]
  refine exists_congr (fun e => and_congr_right (fun he => ?_))
  simp [hkey e he]

end Attributes
end TemplateTree
