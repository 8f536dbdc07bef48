import TemplateTree.Proofs.Token.Reread
import Mathlib

/-! Names that were read can be written: a start tag of the input has an element name, and its
attributes have names that stand in a tag and mean the same key again. -/
namespace TemplateTree

open Text

/-- A name for an attribute is not empty and has only characters of such names. -/
def Text.IsAttributeName (name : Text) : Prop := name ≠ [] ∧ name.all isAttributeChar = true

theorem Text.lower_lower (t : Text) : lower (lower t) = lower t := by
  simp [lower]

theorem Text.IsAttributeName.lower {name : Text} (h : name.IsAttributeName) :
    (Text.lower name).IsAttributeName := by
  obtain ⟨hne, hall⟩ := h
  refine ⟨by simpa [Text.lower] using hne, ?_⟩
  rw [List.all_eq_true] at hall ⊢
  intro c hc
  obtain ⟨d, hd, rfl⟩ := List.mem_map.mp hc
  have hchar := hall d hd
  by_cases hup : d.isUpper = true
  · have halpha : d.toLower.isAlpha = true := by
      rw [Char.isAlpha_toLower_eq_isAlpha]
      simp [Char.isAlpha, hup]
    simp [isAttributeChar, isNameChar, Char.isAlphanum, halpha]
  · rw [Char.toLower_eq_of_not_isUpper hup]
    exact hchar

theorem AttrKey.ofName_of_not_isBinding {name : Text} (h : ¬ (AttrKey.ofName name).isBinding = true) :
    AttrKey.ofName name = .other (lower name) := by
  simp only [ofName] at h ⊢
  split_ifs at h ⊢
  all_goals first | exact absurd rfl h | rfl

/-- A key that a name gives is what its own name is read as. -/
theorem AttrKey.ofName_markupName (name : Text) :
    AttrKey.ofName (AttrKey.ofName name).markupName = AttrKey.ofName name := by
  by_cases hb : (AttrKey.ofName name).isBinding = true
  · exact (canonical_of_isBinding hb).ofName
  · have hagain : AttrKey.ofName (lower name) = AttrKey.ofName name := by
      simp only [ofName, lower_lower]
    rw [ofName_of_not_isBinding hb] at hagain ⊢
    exact hagain

theorem AttrKey.canonical_ofName {name : Text} (h : name.IsAttributeName) :
    (AttrKey.ofName name).Canonical := by
  by_cases hb : (AttrKey.ofName name).isBinding = true
  · exact canonical_of_isBinding hb
  · obtain ⟨hne, hall⟩ := h.lower
    refine ⟨ofName_markupName name, ?_, ?_⟩
    all_goals rwa [ofName_of_not_isBinding hb]

namespace StartTag

variable {o : Nat} {s after : Text} {t : StartTag}

/-- The names of a tag that was read. -/
structure WellNamed (t : StartTag) : Prop where
  name : t.name.IsElementName
  attributes : ∀ a ∈ t.attributes, a.1.IsAttributeName

theorem names_tailOf (s : Text) : ∀ a ∈ (tailOf s).attributes, a.1.IsAttributeName := by
  fun_induction tailOf s with
  | case1 | case2 | case3 => simp
  | case4 c r _ _ hc name given later ih =>
    intro a ha
    rcases List.mem_cons.mp ha with rfl | ha
    · refine ⟨List.cons_ne_nil _ _, ?_⟩
      rw [List.all_eq_true]
      intro d hd
      rcases List.mem_cons.mp hd with rfl | hd
      · exact hc
      · exact List.mem_takeWhile_imp hd
    · exact ih a ha
  | case5 c r _ _ _ later ih => exact ih

theorem wellNamed_next (h : Token.next o s = (.start t, after)) : t.WellNamed := by
  cases hl : Lead.of s with
  | startTag =>
    simp only [Token.next, hl, Prod.mk.injEq, Token.start.injEq] at h
    obtain ⟨rfl, -⟩ := h
    obtain ⟨c, r, rfl, hc⟩ := Lead.letter_of_startTag hl
    refine ⟨⟨c, r.takeWhile isNameChar, Token.takeWhile_letter hc r, hc, ?_⟩, names_tailOf _⟩
    rw [List.all_eq_true]
    exact fun d hd => List.mem_takeWhile_imp hd
  | text | comment | declaration | endTag => simp [Token.next, hl] at h

theorem wellNamed_scanFrom (h : Token.start t ∈ Token.scanFrom o s) : t.WellNamed := by
  fun_induction Token.scanFrom o s with
  | case1 => cases h
  | case2 o s hs first after bodyAt body =>
    rename_i ih
    rcases List.mem_cons.mp h with hfirst | h
    · have hnext : Token.next o s = (.start t, after) := by
        rw [hfirst]
      exact wellNamed_next hnext
    · rcases List.mem_append.mp h with hbody | h
      · exact absurd hbody (Token.not_start_ofBody _ _ t)
      · exact ih h

end StartTag

namespace Attributes

variable {a : Attributes} {key k : AttrKey} {value : Option Text} {pairs : List (Text × Option Text)}

theorem mem_keys_insertNew : k ∈ (a.insertNew key value).keys ↔ k = key ∨ k ∈ a.keys := by
  unfold insertNew
  split
  · next hold =>
    constructor
    · exact fun h => Or.inr h
    · rintro (rfl | h)
      · exact hold
      · exact h
  · rw [keys, List.map_append, List.mem_append, or_comm]
    simp [keys]

theorem mem_keys_foldl (pairs : List (Text × Option Text)) (a : Attributes) :
    k ∈ (pairs.foldl (fun a (name, value) => a.insertNew (AttrKey.ofName name) value) a).keys ↔
      k ∈ a.keys ∨ ∃ p ∈ pairs, k = AttrKey.ofName p.1 := by
  induction pairs generalizing a with
  | nil => simp
  | cons p pairs ih =>
    rw [List.foldl_cons, ih, mem_keys_insertNew]
    simp only [List.mem_cons, exists_eq_or_imp]
    tauto

/-- The keys of a tag are those that its names mean. -/
theorem mem_keys_ofWritten : k ∈ (ofWritten pairs).keys ↔ ∃ p ∈ pairs, k = AttrKey.ofName p.1 := by
  rw [ofWritten, mem_keys_foldl]
  simp [keys, empty]

theorem hasBinding_ofWritten (pairs : List (Text × Option Text)) : (ofWritten pairs).hasBinding =
    pairs.any fun (name, _) => (AttrKey.ofName name).isBinding := by
  rw [Bool.eq_iff_iff, hasBinding, List.any_eq_true, List.any_eq_true]
  constructor
  · rintro ⟨k, hk, hb⟩
    obtain ⟨p, hp, rfl⟩ := mem_keys_ofWritten.mp hk
    exact ⟨p, hp, hb⟩
  · rintro ⟨p, hp, hb⟩
    exact ⟨_, mem_keys_ofWritten.mpr ⟨p, hp, rfl⟩, hb⟩

end Attributes

/-- The tag of an element is bound when its start tag is. -/
theorem Tag.hasBinding_ofStart (decode : Bool) (t : StartTag) :
    (Tag.ofStart decode t).attributes.hasBinding = t.isBound := by
  cases decode with
  | true =>
    refine (Attributes.hasBinding_ofWritten _).trans ?_
    rw [StartTag.isBound, if_pos rfl, List.any_map]
    rfl
  | false => exact Attributes.hasBinding_ofWritten _

/-- A tag that was read can be written anew. -/
theorem Tag.canonical_ofStart {t : StartTag} (h : t.WellNamed) (decode : Bool) :
    (Tag.ofStart decode t).Canonical := by
  refine ⟨h.name, ?_, ?_⟩
  · intro k hk
    obtain ⟨p, hp, rfl⟩ := Attributes.mem_keys_ofWritten.mp hk
    apply AttrKey.canonical_ofName
    cases decode with
    | true =>
      obtain ⟨a, ha, rfl⟩ := List.mem_map.mp hp
      exact h.attributes a ha
    | false => exact h.attributes p hp
  · intro hslash
    exact (Bool.and_eq_true_iff.mp hslash).1

end TemplateTree
