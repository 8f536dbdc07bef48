import TemplateTree.Proofs.Attribute.First
import TemplateTree.Proofs.Token.Names

/-! Attributes under changes. After a run of changes each key has the value that the run gives it, and the
keys stand in the order in which they were last added. Two names are of one key exactly when one written
form stands for both, so the tag that is written has no key twice. -/
namespace TemplateTree

open Text

variable {a b : Text} {k l : AttrKey} {i : Nat}

namespace AttrKey

def containerNames : List Text := ["container".toList, "data-container".toList]

def fragmentNames : List Text := ["partial".toList, "data-partial".toList]

/-- The names of a key in small letters. -/
def spellings : AttrKey → List Text
  | scope => ["data-scope".toList]
  | prop => ["data-prop".toList]
  | container => containerNames
  | fragment => fragmentNames
  | other name => [name]

/-- Capitals make no difference, and neither does `data-` before the last two marks. -/
def SameName (a b : Text) : Prop :=
  lower a = lower b ∨ (lower a ∈ containerNames ∧ lower b ∈ containerNames) ∨
    (lower a ∈ fragmentNames ∧ lower b ∈ fragmentNames)

theorem lower_mem_spellings (name : Text) : lower name ∈ (ofName name).spellings := by
  simp only [ofName]
  split_ifs with hscope hprop hcontainer hfragment
  · simp [spellings, hscope]
  · simp [spellings, hprop]
  · simpa [spellings, containerNames] using hcontainer.symm
  · simpa [spellings, fragmentNames] using hfragment.symm
  · simp [spellings]

theorem ofName_of_container (h : lower a ∈ containerNames) : ofName a = container := by
  rcases List.mem_pair.mp h with h | h <;> simp [ofName, h]

theorem ofName_of_fragment (h : lower a ∈ fragmentNames) : ofName a = fragment := by
  rcases List.mem_pair.mp h with h | h <;> simp [ofName, h]

/-- When two names make the same key. -/
theorem ofName_eq_iff : ofName a = ofName b ↔ SameName a b := by
  constructor
  · intro h
    have ha := lower_mem_spellings a
    have hb := lower_mem_spellings b
    rw [h] at ha
    cases hk : ofName b with
    | container =>
      rw [hk] at ha hb
      exact Or.inr (Or.inl ⟨ha, hb⟩)
    | fragment =>
      rw [hk] at ha hb
      exact Or.inr (Or.inr ⟨ha, hb⟩)
    | scope | prop | other =>
      rw [hk] at ha hb
      exact Or.inl ((List.mem_singleton.mp ha).trans (List.mem_singleton.mp hb).symm)
  · rintro (h | ⟨ha, hb⟩ | ⟨ha, hb⟩)
    · simp only [ofName, h]
    · rw [ofName_of_container ha, ofName_of_container hb]
    · rw [ofName_of_fragment ha, ofName_of_fragment hb]

end AttrKey

namespace Attributes

/-- A change of the attributes. The key is given by one of its names. -/
inductive Change
  | set (name : Text) (value : Option Text)
  | insertNew (name : Text) (value : Option Text)
  | remove (name : Text)
  deriving DecidableEq, Repr

namespace Change

def name : Change → Text
  | set name _ | insertNew name _ | remove name => name

def key (c : Change) : AttrKey := AttrKey.ofName c.name

def apply (a : Attributes) : Change → Attributes
  | set name value => a.set (AttrKey.ofName name) value
  | insertNew name value => a.insertNew (AttrKey.ofName name) value
  | remove name => (a.remove (AttrKey.ofName name)).2

/-- What its key has after a change, from what it had before. -/
def result (old : Option (Option Text)) : Change → Option (Option Text)
  | set _ value => some value
  | insertNew _ value => old.or (some value)
  | remove _ => none

end Change

/-- The attributes after changes, beginning without any. -/
def run (cs : List Change) : Attributes := cs.foldl Change.apply ∅

/-- What a key has after changes. -/
def valueAfter (cs : List Change) (k : AttrKey) : Option (Option Text) :=
  cs.foldl (fun old c => if c.key = k then c.result old else old) none

/-- The change at that place gives a value to a key that has none. -/
def AddedAt (cs : List Change) (k : AttrKey) (i : Nat) : Prop :=
  valueAfter (cs.take i) k = none ∧ valueAfter (cs.take (i + 1)) k ≠ none

def LastAddedAt (cs : List Change) (k : AttrKey) (i : Nat) : Prop :=
  AddedAt cs k i ∧ ∀ j, AddedAt cs k j → j ≤ i

/-- The first key was last added before the second one. -/
def Earlier (cs : List Change) (k l : AttrKey) : Prop :=
  ∀ i j, LastAddedAt cs k i → LastAddedAt cs l j → i < j

variable {m : Attributes} {cs : List Change} {c : Change} {key : AttrKey} {value : Option Text}
  {es : List (AttrKey × Option Text)}

theorem lookup_ne_none_iff : es.lookup k ≠ none ↔ k ∈ es.map Prod.fst := by
  rw [← Option.isSome_iff_ne_none, isSome_lookup, List.contains_iff_mem]

theorem lookup_eq_none_iff : es.lookup k = none ↔ k ∉ es.map Prod.fst :=
  not_ne_iff.symm.trans (not_congr lookup_ne_none_iff)

theorem lookup_cons_of_ne (h : l ≠ k) (value : Option Text) (es : List (AttrKey × Option Text)) :
    ((l, value) :: es).lookup k = es.lookup k := by
  have hne : (k == l) = false := beq_eq_false_iff_ne.mpr h.symm
  rw [List.lookup_cons, hne]

theorem lookup_put (h : key ∈ es.map Prod.fst) (k : AttrKey) :
    (put key value es).lookup k = if key = k then some value else es.lookup k := by
  induction es with
  | nil => cases h
  | cons e r ih =>
    obtain ⟨l, old⟩ := e
    by_cases hl : l = key
    · rw [put, if_pos hl]
      split
      · next hk => rw [hk, List.lookup_cons_self]
      · next hk => rw [lookup_cons_of_ne hk, lookup_cons_of_ne (hl ▸ hk)]
    · have hr : key ∈ r.map Prod.fst := (List.mem_cons.mp h).resolve_left fun h => hl h.symm
      rw [put, if_neg hl]
      by_cases hk : l = k
      · have hne : key ≠ k := fun h => hl (hk.trans h.symm)
        rw [hk, List.lookup_cons_self, List.lookup_cons_self, if_neg hne]
      · rw [lookup_cons_of_ne hk, lookup_cons_of_ne hk, ih hr]

theorem put_filter (es : List (AttrKey × Option Text)) :
    (put key value es).filter (·.1 ≠ key) = es.filter (·.1 ≠ key) := by
  induction es with
  | nil => rfl
  | cons e r ih =>
    by_cases h : e.1 = key <;> simp_all [put]

theorem put_of_lookup (h : es.lookup key = some value) : put key value es = es := by
  induction es with
  | nil => rfl
  | cons e r ih =>
    obtain ⟨l, v⟩ := e
    by_cases hl : l = key
    · subst hl
      simpa [put] using h.symm
    · rw [lookup_cons_of_ne hl] at h
      rw [put, if_neg hl, ih h]

/-- All that a change can do: it puts a value where the key stands, adds the key at the end, or takes it
out. -/
theorem entries_apply (m : Attributes) (c : Change) :
    (∃ value, c.result (m.entries.lookup c.key) = some value ∧ c.key ∈ m.keys ∧
      (c.apply m).entries = put c.key value m.entries) ∨
    (∃ value, c.result (m.entries.lookup c.key) = some value ∧ c.key ∉ m.keys ∧
      (c.apply m).entries = m.entries ++ [(c.key, value)]) ∨
    (c.result (m.entries.lookup c.key) = none ∧
      (c.apply m).entries = m.entries.filter (·.1 ≠ c.key)) := by
  cases c with
  | set name value =>
    by_cases h : AttrKey.ofName name ∈ m.keys
    · exact Or.inl ⟨value, rfl, h, congrArg entries (dif_pos h)⟩
    · exact Or.inr (Or.inl ⟨value, rfl, h, congrArg entries (dif_neg h)⟩)
  | insertNew name value =>
    by_cases h : AttrKey.ofName name ∈ m.keys
    · obtain ⟨old, hold⟩ := Option.ne_none_iff_exists'.mp (lookup_ne_none_iff.mpr h)
      refine Or.inl ⟨old, ?_, h, ?_⟩
      · exact congrArg (Option.or · (some value)) hold
      · exact (congrArg entries (insertNew_of_mem h value)).trans (put_of_lookup hold).symm
    · refine Or.inr (Or.inl ⟨value, ?_, h, entries_insertNew h value⟩)
      exact congrArg (Option.or · (some value)) (lookup_eq_none_iff.mpr h)
  | remove name => exact Or.inr (Or.inr ⟨rfl, rfl⟩)

/-- A change gives its key what it says and leaves the value of every other key. -/
theorem lookup_apply (m : Attributes) (c : Change) (k : AttrKey) : (c.apply m).entries.lookup k =
    if c.key = k then c.result (m.entries.lookup k) else m.entries.lookup k := by
  rcases entries_apply m c with ⟨value, hresult, hmem, hentries⟩ | ⟨value, hresult, hnew, hentries⟩ |
    ⟨hresult, hentries⟩
  · rw [hentries, lookup_put hmem]
    split
    · next hk => rw [← hk, hresult]
    · rfl
  · have hnone : m.entries.lookup c.key = none := lookup_eq_none_iff.mpr hnew
    rw [hentries, List.lookup_append]
    by_cases hk : c.key = k
    · subst hk
      simp [hnone, ← hresult]
    · rw [if_neg hk, lookup_cons_of_ne hk]
      exact Option.or_none
  · rw [hentries]
    by_cases hk : c.key = k
    · subst hk
      rw [if_pos rfl, hresult]
      refine lookup_eq_none fun e he => ?_
      simpa using (List.mem_filter.mp he).2
    · rw [if_neg hk, lookup_filter_ne (Ne.symm hk)]

theorem keys_of_put {n : Attributes} (h : n.entries = put key value m.entries) : n.keys = m.keys := by
  rw [keys, h, keys_put, keys]

theorem keys_of_concat {n : Attributes} (h : n.entries = m.entries ++ [(key, value)]) :
    n.keys = m.keys ++ [key] := by
  rw [keys, h, List.map_append, keys]
  rfl

/-- What a change leaves as it is: the entries of all other keys, and the place of its own key while that
is there. A key that comes is the last one. -/
structure Change.Leaves (c : Change) (m n : Attributes) : Prop where
  others : n.entries.filter (·.1 ≠ c.key) = m.entries.filter (·.1 ≠ c.key)
  stays : c.key ∈ m.keys → c.key ∈ n.keys → n.keys = m.keys
  comes : c.key ∉ m.keys → c.key ∈ n.keys → n.keys = m.keys ++ [c.key]

theorem leaves_apply (m : Attributes) (c : Change) : c.Leaves m (c.apply m) := by
  rcases entries_apply m c with ⟨value, -, hmem, hentries⟩ | ⟨value, -, hnew, hentries⟩ | ⟨-, hentries⟩
  · exact ⟨by rw [hentries, put_filter], fun _ _ => keys_of_put hentries, fun h => absurd hmem h⟩
  · exact ⟨by simp [hentries], fun h => absurd h hnew, fun _ _ => keys_of_concat hentries⟩
  · have hgone : c.key ∉ (c.apply m).keys := by
      rw [keys, hentries]
      simp
    exact ⟨by simp [hentries], fun _ h => absurd h hgone, fun _ h => absurd h hgone⟩

theorem run_concat (cs : List Change) (c : Change) : run (cs ++ [c]) = c.apply (run cs) := by
  simp [run]

theorem valueAfter_concat (cs : List Change) (c : Change) (k : AttrKey) :
    valueAfter (cs ++ [c]) k = if c.key = k then c.result (valueAfter cs k) else valueAfter cs k := by
  simp [valueAfter]

theorem AddedAt.lt (h : AddedAt cs k i) : i < cs.length := by
  by_contra hi
  obtain ⟨hbefore, hafter⟩ := h
  rw [List.take_of_length_le (by omega)] at hbefore hafter
  exact hafter hbefore

theorem addedAt_concat : AddedAt (cs ++ [c]) k i ↔
    AddedAt cs k i ∨ (i = cs.length ∧ valueAfter cs k = none ∧ valueAfter (cs ++ [c]) k ≠ none) := by
  constructor
  · intro h
    have hi := h.lt
    rw [List.length_append, List.length_singleton] at hi
    rcases Nat.lt_or_eq_of_le (Nat.le_of_lt_succ hi) with hlt | rfl
    · rw [AddedAt, List.take_append_of_le_length (by omega), List.take_append_of_le_length (by omega)] at h
      exact Or.inl h
    · rw [AddedAt, List.take_left, List.take_of_length_le (by simp)] at h
      exact Or.inr ⟨rfl, h⟩
  · rintro (h | ⟨rfl, h⟩)
    · have hi := h.lt
      rw [AddedAt, List.take_append_of_le_length (by omega), List.take_append_of_le_length (by omega)]
      exact h
    · rw [AddedAt, List.take_left, List.take_of_length_le (by simp)]
      exact h

/-- A key that has a value was last added when it was. -/
theorem lastAddedAt_concat (h : valueAfter cs k ≠ none) :
    LastAddedAt (cs ++ [c]) k i ↔ LastAddedAt cs k i := by
  have hold (j : Nat) : AddedAt (cs ++ [c]) k j ↔ AddedAt cs k j := by
    rw [addedAt_concat]
    exact or_iff_left fun hnew => h hnew.2.1
  simp only [LastAddedAt, hold]

/-- A key that gets a value anew is added now. -/
theorem lastAddedAt_new (h : valueAfter cs k = none) (hnew : valueAfter (cs ++ [c]) k ≠ none) :
    LastAddedAt (cs ++ [c]) k i ↔ i = cs.length := by
  have hnow : AddedAt (cs ++ [c]) k cs.length := addedAt_concat.mpr (Or.inr ⟨rfl, h, hnew⟩)
  have hlast (j : Nat) (hj : AddedAt (cs ++ [c]) k j) : j ≤ cs.length := by
    have hlt := hj.lt
    rw [List.length_append, List.length_singleton] at hlt
    omega
  constructor
  · rintro ⟨hi, hi'⟩
    exact Nat.le_antisymm (hlast i hi) (hi' _ hnow)
  · rintro rfl
    exact ⟨hnow, hlast⟩

/-- The attributes are the finite map that the changes denote, in the order in which its keys were last
added. -/
structure Denotes (m : Attributes) (cs : List Change) : Prop where
  lookup : ∀ k, m.entries.lookup k = valueAfter cs k
  added : ∀ k ∈ m.keys, ∃ i, LastAddedAt cs k i
  order : m.keys.Pairwise (Earlier cs)

theorem Denotes.mem_keys_iff (h : m.Denotes cs) : k ∈ m.keys ↔ valueAfter cs k ≠ none := by
  rw [← h.lookup, lookup_ne_none_iff, keys]

theorem Denotes.apply (h : m.Denotes cs) (c : Change) : (c.apply m).Denotes (cs ++ [c]) := by
  have hlookup (k : AttrKey) : (c.apply m).entries.lookup k = valueAfter (cs ++ [c]) k := by
    rw [lookup_apply, valueAfter_concat, h.lookup]
  have hold : ∀ k ∈ m.keys, ∀ i, LastAddedAt (cs ++ [c]) k i ↔ LastAddedAt cs k i := fun k hk _ =>
    lastAddedAt_concat (h.mem_keys_iff.mp hk)
  have hadded : ∀ k ∈ m.keys, ∃ i, LastAddedAt (cs ++ [c]) k i := fun k hk => by
    obtain ⟨i, hi⟩ := h.added k hk
    exact ⟨i, (hold k hk i).mpr hi⟩
  have horder : m.keys.Pairwise (Earlier (cs ++ [c])) := by
    refine h.order.imp_of_mem fun {k l} hk hl hkl i j hi hj => ?_
    exact hkl i j ((hold k hk i).mp hi) ((hold l hl j).mp hj)
  rcases entries_apply m c with ⟨value, -, -, hentries⟩ | ⟨value, hresult, hnew, hentries⟩ | ⟨-, hentries⟩
  · have hkeys : (c.apply m).keys = m.keys := keys_of_put hentries
    exact ⟨hlookup, hkeys ▸ hadded, hkeys ▸ horder⟩
  · -- The only case in which a key is added: it is added after all those that are there.
    have hkeys : (c.apply m).keys = m.keys ++ [c.key] := keys_of_concat hentries
    have hnone : valueAfter cs c.key = none :=
      (h.lookup c.key).symm.trans (lookup_eq_none_iff.mpr hnew)
    have hsome : valueAfter (cs ++ [c]) c.key ≠ none := by
      rw [← hlookup, lookup_apply, if_pos rfl, hresult]
      exact Option.some_ne_none value
    have hnow (i : Nat) := lastAddedAt_new (i := i) hnone hsome
    refine ⟨hlookup, ?_, ?_⟩
    · rw [hkeys]
      intro k hk
      rcases List.mem_append.mp hk with hk | hk
      · exact hadded k hk
      · obtain rfl := List.mem_singleton.mp hk
        exact ⟨cs.length, (hnow _).mpr rfl⟩
    · rw [hkeys, List.pairwise_append]
      refine ⟨horder, List.pairwise_singleton _ _, fun k hk l hl i j hi hj => ?_⟩
      obtain rfl := List.mem_singleton.mp hl
      rw [(hnow j).mp hj]
      exact ((hold k hk i).mp hi).1.lt
  · have hkeys : (c.apply m).keys.Sublist m.keys := by
      rw [keys, hentries]
      exact List.filter_sublist.map _
    exact ⟨hlookup, fun k hk => hadded k (hkeys.subset hk), horder.sublist hkeys⟩

theorem denotes_run (cs : List Change) : (run cs).Denotes cs := by
  induction cs using List.reverseRecOn with
  | nil => exact ⟨fun _ => rfl, fun _ hk => absurd hk List.not_mem_nil, List.Pairwise.nil⟩
  | append_singleton cs c ih =>
    rw [run_concat]
    exact ih.apply c

/-- Only keys of the changes are there. -/
theorem exists_change_of_mem_keys (h : k ∈ (run cs).keys) : ∃ c ∈ cs, c.key = k := by
  induction cs using List.reverseRecOn with
  | nil => cases h
  | append_singleton cs c ih =>
    by_cases hc : c.key = k
    · exact ⟨c, by simp, hc⟩
    · have hold : k ∈ (run cs).keys := by
        rw [(denotes_run _).mem_keys_iff, valueAfter_concat, if_neg hc] at h
        exact (denotes_run cs).mem_keys_iff.mpr h
      obtain ⟨d, hd, hk⟩ := ih hold
      exact ⟨d, by simp [hd], hk⟩

theorem ofName_markupName_of_mem (h : k ∈ (run cs).keys) : AttrKey.ofName k.markupName = k := by
  obtain ⟨c, -, rfl⟩ := exists_change_of_mem_keys h
  exact AttrKey.ofName_markupName c.name

/-- What the attributes answer after changes. -/
structure Answers (m : Attributes) (cs : List Change) : Prop where
  get? : ∀ k, m.get? k = (valueAfter cs k).map (·.getD [])
  contains : ∀ k, m.contains k = (valueAfter cs k).isSome
  removed : ∀ k, (m.remove k).1 = valueAfter cs k

theorem Denotes.answers (h : m.Denotes cs) : m.Answers cs where
  get? k := by rw [Attributes.get?, h.lookup]
  contains k := by
    rw [Bool.eq_iff_iff, Attributes.contains, List.contains_iff_mem, h.mem_keys_iff,
      Option.isSome_iff_ne_none]
  removed k := h.lookup k

theorem keys_remove (m : Attributes) (name : Text) :
    ((Change.remove name).apply m).keys = m.keys.filter (· ≠ AttrKey.ofName name) := by
  rw [keys, keys, List.filter_map]
  rfl

/-- A key that is taken out and set again goes last. -/
theorem keys_readded (cs : List Change) (name : Text) (value : Option Text) :
    (run (cs ++ [.remove name, .set name value])).keys =
      (run cs).keys.filter (· ≠ AttrKey.ofName name) ++ [AttrKey.ofName name] := by
  have hgone : AttrKey.ofName name ∉ (run (cs ++ [.remove name])).keys := by
    rw [(denotes_run _).mem_keys_iff, valueAfter_concat]
    exact fun h => h (if_pos rfl)
  have hback : AttrKey.ofName name ∈ (run (cs ++ [.remove name] ++ [.set name value])).keys := by
    have hkey : (Change.set name value).key = AttrKey.ofName name := rfl
    rw [(denotes_run _).mem_keys_iff, valueAfter_concat, if_pos hkey]
    exact Option.some_ne_none value
  have hlast := leaves_apply (run (cs ++ [.remove name])) (.set name value)
  rw [← run_concat] at hlast
  rw [List.append_cons, hlast.comes hgone hback, run_concat, keys_remove]
  rfl

end Attributes

/-- The keys that names in a tag mean, in the order of writing. -/
def AttrKey.ofWritten (pairs : List (Text × Option Text)) : List AttrKey :=
  pairs.map fun p => ofName p.1

namespace Attributes

variable {cs : List Change} {t : Tag}

/-- Attributes are read with other keys as soon as the name of one of them cannot stand in a tag. -/
theorem keys_tailOf_iff (ht : t.attributes = run cs) (x : Text) :
    AttrKey.ofWritten (StartTag.tailOf (t.attributes.render ++ (t.slot ++ x))).attributes = (run cs).keys ↔
      ∀ k ∈ (run cs).keys, k.markupName.IsAttributeName := by
  constructor
  · intro h k hk
    rw [← h] at hk
    obtain ⟨p, hp, rfl⟩ := List.mem_map.mp hk
    have hcanonical := AttrKey.canonical_ofName (StartTag.names_tailOf _ p hp)
    exact ⟨hcanonical.ne_nil, hcanonical.chars⟩
  · intro h
    have hkeys : ∀ e ∈ t.attributes.entries, e.1.Canonical := by
      rw [ht]
      intro e he
      have hk : e.1 ∈ (run cs).keys := List.mem_map_of_mem he
      exact ⟨ofName_markupName_of_mem hk, (h e.1 hk).1, (h e.1 hk).2⟩
    have htail := StartTag.tailOf_writtenTail (t := t) hkeys x
    rw [Attributes.render, ← StartTag.writtenTail, htail, ht, AttrKey.ofWritten, List.map_map, keys]
    exact List.map_congr_left fun e he => ofName_markupName_of_mem (List.mem_map_of_mem he)

/-- A written tag is read as a tag with what its attributes are read with. -/
theorem next_written (ht : t.attributes = run cs) (hname : t.name.IsElementName)
    (hkeys : ∀ k ∈ (run cs).keys, k.markupName.IsAttributeName) (offset : Nat) (x : Text) :
    ∃ u, Token.next offset (t.opening ++ x) = (.start u, x) ∧
      AttrKey.ofWritten u.attributes = (run cs).keys ∧ (AttrKey.ofWritten u.attributes).Nodup := by
  have hcanonical : ∀ k ∈ t.attributes.keys, k.Canonical := by
    rw [ht]
    exact fun k hk => ⟨ofName_markupName_of_mem hk, (hkeys k hk).1, (hkeys k hk).2⟩
  have hread : AttrKey.ofWritten (t.start offset).attributes = (run cs).keys := by
    rw [Tag.start, ht, written, AttrKey.ofWritten, List.map_map, keys]
    exact List.map_congr_left fun e he => ofName_markupName_of_mem (List.mem_map_of_mem he)
  exact ⟨t.start offset, Tag.next_of_keys hname hcanonical offset x, hread, hread ▸ (run cs).distinct⟩

/-- Attributes are a finite map with its keys in order. After any changes every key is there once, in the
order in which the keys were last added, with the value that the changes give it; a change leaves the
entries of all other keys, a value that is set stays in its place, and a key that comes back comes last.
Names are of one key when only capitals or a `data-` that may be left out tell them apart, and what is
written for a key means that key. Exactly when the names of all keys can stand in a tag, they are read
with these keys again; then no two attributes of the written tag are of one key. -/
theorem run_changes (cs : List Change) :
    ((run cs).keys.Nodup ∧ (run cs).Denotes cs ∧ (run cs).Answers cs) ∧
    (∀ c : Change, c.Leaves (run cs) (run (cs ++ [c]))) ∧
    (∀ name value, (run (cs ++ [.remove name, .set name value])).keys =
      (run cs).keys.filter (· ≠ AttrKey.ofName name) ++ [AttrKey.ofName name]) ∧
    (∀ a b, AttrKey.ofName a = AttrKey.ofName b ↔ AttrKey.SameName a b) ∧
    (∀ name, AttrKey.ofName (AttrKey.ofName name).markupName = AttrKey.ofName name) ∧
    ∀ (t : Tag) (x : Text), t.attributes = run cs →
      (AttrKey.ofWritten (StartTag.tailOf (t.attributes.render ++ (t.slot ++ x))).attributes = (run cs).keys ↔
        ∀ k ∈ (run cs).keys, k.markupName.IsAttributeName) ∧
      (t.name.IsElementName → (∀ k ∈ (run cs).keys, k.markupName.IsAttributeName) → ∀ offset,
        ∃ u, Token.next offset (t.opening ++ x) = (.start u, x) ∧
          AttrKey.ofWritten u.attributes = (run cs).keys ∧ (AttrKey.ofWritten u.attributes).Nodup) := by
  have hdenotes : (run cs).Denotes cs := denotes_run cs
  have hleaves (c : Change) : c.Leaves (run cs) (run (cs ++ [c])) := by
    rw [run_concat]
    exact leaves_apply (run cs) c
  exact ⟨⟨(run cs).distinct, hdenotes, hdenotes.answers⟩, hleaves, keys_readded cs,
    fun _ _ => AttrKey.ofName_eq_iff, AttrKey.ofName_markupName, fun t x ht =>
      ⟨keys_tailOf_iff ht x, fun hname hkeys offset => next_written ht hname hkeys offset x⟩⟩

/-- A class that is set again under another spelling, and a container that is taken out and comes back. -/
theorem run_changes_class :
    let cs : List Change := [.set "container".toList none, .set "Class".toList (some "a".toList),
      .insertNew "CLASS".toList (some "b".toList), .set "class".toList (some "c".toList),
      .remove "Data-Container".toList, .set "CONTAINER".toList (some "x".toList)]
    (run cs).keys = [.other "class".toList, .container] ∧
      (run cs).get? (.other "class".toList) = some "c".toList ∧
      (∀ k ∈ (run cs).keys, k.markupName.IsAttributeName) ∧
      ∃ u, Token.next 0 "<p class=\"c\" data-container=\"x\">".toList = (.start u, []) ∧
        AttrKey.ofWritten u.attributes = (run cs).keys := by
  intro cs
  have hkeys : (run cs).keys = [.other "class".toList, .container] := by decide +kernel
  obtain ⟨⟨-, -, hanswers⟩, -, -, -, -, hread⟩ := run_changes cs
  have hclass : (run cs).get? (.other "class".toList) = some "c".toList :=
    (hanswers.get? _).trans (by decide +kernel)
  have hnames : ∀ k ∈ (run cs).keys, k.markupName.IsAttributeName := by
    rw [hkeys]
    simp only [List.forall_mem_cons]
    exact ⟨⟨by decide, by decide⟩, ⟨by decide, by decide⟩, fun _ h => absurd h List.not_mem_nil⟩
  have hname : Text.IsElementName "p".toList := ⟨'p', [], rfl, by decide, rfl⟩
  obtain ⟨u, hnext, hu, -⟩ := (hread ⟨"p".toList, run cs, false⟩ [] rfl).2 hname hnames 0
  have hopening : Tag.opening ⟨"p".toList, run cs, false⟩ ++ [] =
      "<p class=\"c\" data-container=\"x\">".toList := by decide +kernel
  rw [hopening] at hnext
  exact ⟨hkeys, hclass, hnames, u, hnext, hu⟩

/-- A blank in a name cuts it in two, and the part behind the blank may be the name of another key. So may
what stands behind a blank in the name of the element. -/
theorem reread_of_blank :
    let cs : List Change := [.set "a b".toList (some ['1']), .set "b".toList (some ['2'])]
    let t : Tag := ⟨['p'], run cs, false⟩
    let v : Tag := ⟨"p b".toList, run [.set "b".toList (some ['2'])], false⟩
    (run cs).keys = [.other "a b".toList, .other "b".toList] ∧
      t.opening = "<p a b=\"1\" b=\"2\">".toList ∧ v.opening = "<p b b=\"2\">".toList ∧
      ∃ u w, Token.next 0 t.opening = (.start u, []) ∧ Token.next 0 v.opening = (.start w, []) ∧
        AttrKey.ofWritten u.attributes = ["a", "b", "b"].map (.other ·.toList) ∧
        ¬ (AttrKey.ofWritten u.attributes).Nodup ∧ ¬ (AttrKey.ofWritten w.attributes).Nodup := by
  intro cs t v
  let u : StartTag := ⟨0, ['p'], " a b=\"1\" b=\"2\">".toList,
    [("a".toList, none), ("b".toList, some ['1']), ("b".toList, some ['2'])], .closed⟩
  let w : StartTag := ⟨0, ['p'], " b b=\"2\">".toList, [("b".toList, none), ("b".toList, some ['2'])], .closed⟩
  refine ⟨by decide +kernel, by decide +kernel, by decide +kernel, u, w, ?_⟩
  decide +kernel

end Attributes
end TemplateTree
