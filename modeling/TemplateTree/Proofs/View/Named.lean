import TemplateTree.Proofs.Store.Once
import TemplateTree.Proofs.Text.ByteOrder
import TemplateTree.Proofs.View.Found
import TemplateTree.Proofs.View.History
import TemplateTree.Proofs.View.Ownership

/-! Containers and fragments by name. Of several nodes with one name the last one in pre-order counts,
where it stands. -/
namespace TemplateTree

universe u

variable {s : Store} {v : View} {above : List Occurrence} {f : Forest Occurrence}
  {e : Lineage Occurrence} {key : AttrKey} {l : ListId} {name : Text} {found : NamedViews}

/-- Where no key stands twice, looking a key up is finding its entry. -/
theorem lookup_eq_some_iff_mem {α : Type u} {β : Type} [BEq α] [LawfulBEq α] {es : List (α × β)}
    (h : (es.map Prod.fst).Nodup) {a : α} {b : β} : es.lookup a = some b ↔ (a, b) ∈ es := by
  rw [List.lookup_eq_some_iff]
  constructor
  · rintro ⟨front, back, rfl, -⟩
    exact List.mem_append_right _ List.mem_cons_self
  · intro hmem
    obtain ⟨front, back, rfl⟩ := List.append_of_mem hmem
    refine ⟨front, back, rfl, fun e he => ?_⟩
    rw [List.map_append, List.map_cons] at h
    have hdisjoint := (List.nodup_append'.mp h).2.2
    have hne : a ≠ e.1 := by
      rintro rfl
      exact hdisjoint (List.mem_map_of_mem he) List.mem_cons_self
    simpa using hne

/-- A bare attribute gives the empty text. -/
theorem Attributes.get?_eq_some_iff {a : Attributes} :
    a.get? key = some name ↔ ∃ value, (key, value) ∈ a.entries ∧ name = value.getD [] := by
  rw [get?, Option.map_eq_some_iff]
  simp only [lookup_eq_some_iff_mem a.distinct, @eq_comm _ name]

/-! Where an occurrence stands. -/

/-- The list in which a node stands that is found under the list `l`: it holds the children of the node
right above, if there is one. -/
def Lineage.owner (l : ListId) (e : Lineage Occurrence) : ListId :=
  (e.above.head?.map (·.node.children)).getD l

namespace Forest

/-- The row stands in the list, and every row below in the children of the node above it. -/
def Placed (l : ListId) : Forest Occurrence → Prop
  | nil => True
  | cons o kids rest => o.owner = l ∧ Placed o.node.children kids ∧ Placed l rest

theorem placed_unfold (s : Store) (levels : Nat) (l : ListId) : Placed l (s.unfold levels l) := by
  induction levels generalizing l with
  | zero => trivial
  | succ levels ih =>
    rw [Store.unfold]
    induction s.list l with
    | nil => trivial
    | cons n ns ihns => exact ⟨rfl, ih _, ihns⟩

theorem Placed.owner {k : ListId} (h : Placed k f)
    (habove : (above.head?.map (·.node.children)).getD l = k)
    (he : e ∈ f.lineages above) : e.label.owner = e.owner l := by
  induction f generalizing above k with
  | nil => cases he
  | cons o kids rest ihk ihr =>
    obtain ⟨ho, hkids, hrest⟩ := h
    rcases List.mem_cons.mp he with rfl | he
    · exact ho.trans habove.symm
    · rcases List.mem_append.mp he with he | he
      · exact ihk hkids rfl he
      · exact ihr hrest habove he

/-- In pre-order a node is followed by all that is below it. -/
theorem lineages_split (hw : s.Whole f) {front back : List (Lineage Occurrence)}
    (h : f.lineages above = front ++ e :: back) : e.label.node = s.node e.label.id ∧
      ∃ more, back = (s.forest e.label.node.children).lineages (e.label :: e.above) ++ more := by
  induction f generalizing above front back with
  | nil => cases front <;> cases h
  | cons o kids rest ihk ihr =>
    obtain ⟨ho, hkids, hwk, hwr⟩ := hw
    rw [lineages] at h
    rcases List.append_eq_cons_iff.mp h.symm with ⟨-, h⟩ | ⟨front, -, h⟩
    · obtain ⟨rfl, rfl⟩ := List.cons.inj h
      exact ⟨ho, _, by rw [← hkids]⟩
    · rcases List.append_eq_append_iff.mp h with ⟨front, -, h⟩ | ⟨shared, hshared, hback⟩
      · exact ihr hwr h
      · rcases List.cons_eq_append_iff.mp hback with ⟨rfl, h⟩ | ⟨back, rfl, rfl⟩
        · exact ihr hwr (h.trans (List.nil_append _).symm)
        · obtain ⟨hnode, more, rfl⟩ := ihk hwk hshared
          exact ⟨hnode, _, List.append_assoc ..⟩

/-- Nothing below the last of the nodes with a property has it. -/
theorem below_last (hs : s.Sound) {p : Occurrence → Bool} {m : NodeId}
    (h : ((s.forest l).lineages []).reverse.find? (p ·.label) = some e)
    (hm : Relation.TransGen s.Child e.label.id m) : ∃ o, o.node = s.node m ∧ p o = false := by
  obtain ⟨-, after, before, hsplit, hafter⟩ := List.find?_eq_some_iff_append.mp h
  have hforward : (s.forest l).lineages [] = before.reverse ++ e :: after.reverse := by
    rw [List.reverse_eq_iff.mp hsplit, List.reverse_append, List.reverse_cons, List.append_assoc,
      List.singleton_append]
  obtain ⟨hnode, more, hback⟩ := lineages_split (hs.whole l) hforward
  obtain ⟨c, hc, hreach⟩ := Relation.TransGen.head'_iff.mp hm
  rw [Store.Child, ← hnode] at hc
  obtain ⟨o, ho, rfl⟩ :=
    (Store.exists_occurrence_iff hs.closed hs.acyclic).mpr ⟨c, hc, hreach⟩
  refine ⟨o, (Store.occurrence_sound ho).2, ?_⟩
  rw [← map_label_lineages (e.label :: e.above)] at ho
  obtain ⟨d, hd, rfl⟩ := List.mem_map.mp ho
  have hd' : d ∈ after.reverse := hback ▸ List.mem_append_left more hd
  simpa using hafter d (List.mem_reverse.mp hd')

end Forest

namespace NamedViews

theorem lookup_cons (e : Text × View) (found : NamedViews) (k : Text) :
    List.lookup k (e :: found) = if k = e.1 then some e.2 else List.lookup k found := by
  rw [List.lookup_cons]
  by_cases hk : k = e.1
  · rw [if_pos hk, beq_iff_eq.mpr hk]
  · rw [if_neg hk, beq_eq_false_iff_ne.mpr hk]

theorem lookup_insert (name : Text) (v : View) (found : NamedViews) (k : Text) :
    (insert name v found).lookup k = if k = name then some v else found.lookup k := by
  induction found with
  | nil => exact lookup_cons ..
  | cons e found ih =>
    rw [insert]
    split
    · exact lookup_cons ..
    · split
      · next heq =>
        rw [lookup_cons, lookup_cons, ← heq]
        split <;> rfl
      · next hne =>
        rw [lookup_cons, lookup_cons, ih]
        by_cases hk : k = e.1
        · have hname : k ≠ name := fun h => hne (h.symm.trans hk)
          rw [if_pos hk, if_neg hname, if_pos hk]
        · rw [if_neg hk, if_neg hk]

theorem pairwise_insert (h : found.Pairwise (·.1 < ·.1)) (name : Text) (v : View) :
    (insert name v found).Pairwise (·.1 < ·.1) := by
  induction found with
  | nil => exact List.pairwise_singleton _ _
  | cons e found ih =>
    obtain ⟨he, hfound⟩ := List.pairwise_cons.mp h
    rw [insert]
    split
    · next hlt =>
      refine List.pairwise_cons.mpr ⟨fun d hd => ?_, h⟩
      rcases List.mem_cons.mp hd with rfl | hd
      · exact hlt
      · exact lt_trans hlt (he d hd)
    · split
      · next heq => exact List.pairwise_cons.mpr ⟨fun d hd => heq ▸ he d hd, hfound⟩
      · next hlt hne =>
        have hgt : e.1 < name := lt_of_le_of_ne (not_lt.mp hlt) (Ne.symm hne)
        refine List.pairwise_cons.mpr ⟨fun d hd => ?_, ih hfound⟩
        rcases mem_insert hd with rfl | hd
        · exact hgt
        · exact he d hd

theorem ofOccurrences_concat (key : AttrKey) (os : List Occurrence) (o : Occurrence) :
    ofOccurrences key (os ++ [o]) = match o.attribute? key with
      | none => ofOccurrences key os
      | some name => insert name o.view (ofOccurrences key os) := List.foldl_append ..

theorem pairwise_ofOccurrences (key : AttrKey) (os : List Occurrence) :
    (ofOccurrences key os).Pairwise (·.1 < ·.1) := by
  induction os using List.reverseRecOn with
  | nil => exact .nil
  | append_singleton os o ih =>
    rw [ofOccurrences_concat]
    split
    · exact ih
    · exact pairwise_insert ih ..

/-- A name means the last node that carries it. -/
theorem lookup_ofOccurrences (key : AttrKey) (os : List Occurrence) (name : Text) :
    (ofOccurrences key os).lookup name =
      (os.reverse.find? (·.attribute? key = some name)).map Occurrence.view := by
  induction os using List.reverseRecOn with
  | nil => rfl
  | append_singleton os o ih =>
    rw [ofOccurrences_concat, List.reverse_append, List.reverse_singleton, List.singleton_append,
      List.find?_cons]
    cases ho : o.attribute? key with
    | none => simpa using ih
    | some given =>
      rw [lookup_insert]
      by_cases hgiven : given = name
      · simp [hgiven]
      · simpa [hgiven, Ne.symm hgiven] using ih

end NamedViews

namespace View

theorem named?_eq_find? (v : View) (s : Store) (key : AttrKey) (name : Text) : v.named? s key name =
    ((s.forest v.list).preorder.reverse.find? (·.attribute? key = some name)).map Occurrence.view :=
  NamedViews.lookup_ofOccurrences ..

/-- The list of the view is the one in which the node stands at that place. -/
theorem named?_eq_last (v : View) (s : Store) (key : AttrKey) (name : Text) : v.named? s key name =
    (((s.forest v.list).lineages []).reverse.find? (·.label.attribute? key = some name)).map fun e =>
      ⟨e.owner v.list, some e.label.id⟩ := by
  rw [named?_eq_find?, ← Forest.map_label_lineages [] (s.forest v.list), ← List.map_reverse,
    List.find?_map, Option.map_map]
  refine Option.map_congr fun e he => ?_
  have hplaced : Forest.Placed v.list (s.forest v.list) := Forest.placed_unfold s _ v.list
  have howner := hplaced.owner rfl (List.mem_reverse.mp (List.mem_of_find?_eq_some he))
  rw [Function.comp_apply, Occurrence.view, howner]

theorem named?_eq_none_iff : v.named? s key name = none ↔
    ∀ o ∈ (s.forest v.list).preorder, o.attribute? key ≠ some name := by
  rw [named?_eq_find?, Option.map_eq_none_iff, List.find?_eq_none]
  simp only [List.mem_reverse, decide_eq_true_eq, ne_eq]

theorem nodup_named (v : View) (s : Store) (key : AttrKey) :
    ((v.named s key).map Prod.fst).Nodup :=
  List.pairwise_map.mpr ((NamedViews.pairwise_ofOccurrences key _).imp fun h => ne_of_lt h)

theorem mem_named_iff {w : View} : (name, w) ∈ v.named s key ↔ v.named? s key name = some w :=
  (lookup_eq_some_iff_mem (v.nodup_named s key)).symm

theorem mem_names_iff : name ∈ (v.named s key).map Prod.fst ↔
    ∃ o ∈ (s.forest v.list).preorder, o.attribute? key = some name := by
  have hfound : name ∈ (v.named s key).map Prod.fst ↔ v.named? s key name ≠ none := by
    rw [Option.ne_none_iff_exists', List.mem_map]
    simp only [Prod.exists, exists_and_right, exists_eq_right, mem_named_iff]
  rw [hfound, ne_eq, named?_eq_none_iff]
  push Not
  rfl

/-- Containers, or fragments, by name. The names are the values of the key at the nodes of the list, in
the order of their bytes, and each is for the last node in pre-order that has the value, in the list in
which that node stands there. So a node inside another one of the same name comes before it. -/
theorem named_last (hs : s.Sound) (v : View) (key : AttrKey) :
    let f := s.forest v.list
    let found := v.named s key
    (found.map fun e => Utf8.encode e.1).Pairwise (· < ·) ∧
      (∀ name, name ∈ found.map Prod.fst ↔ ∃ o ∈ f.preorder,
        ∃ value, (key, value) ∈ o.node.label.attributes.entries ∧ name = value.getD []) ∧
      (∀ name w, (name, w) ∈ found ↔ v.named? s key name = some w) ∧
      (∀ name, v.named? s key name =
        ((f.lineages []).reverse.find? (·.label.attribute? key = some name)).map fun e =>
          ⟨e.owner v.list, some e.label.id⟩) ∧
      (∀ name, v.named? s key name = none ↔ ∀ o ∈ f.preorder, o.attribute? key ≠ some name) ∧
      ∀ name w n, v.named? s key name = some w → w.focus = some n →
        ∀ m, Relation.TransGen s.Child n m → (s.node m).label.attributes.get? key ≠ some name := by
  intro f found
  refine ⟨?_, fun name => ?_, fun name w => mem_named_iff, v.named?_eq_last s key,
    fun name => named?_eq_none_iff, ?_⟩
  · have hsorted : found.Pairwise (·.1 < ·.1) := NamedViews.pairwise_ofOccurrences key f.preorder
    exact List.pairwise_map.mpr (hsorted.imp Utf8.encode_lt_encode)
  · rw [mem_names_iff]
    exact exists_congr fun o => and_congr_right fun _ => Attributes.get?_eq_some_iff
  · intro name w n hw hfocus m hm hname
    rw [named?_eq_last] at hw
    obtain ⟨e, he, rfl⟩ := Option.map_eq_some_iff.mp hw
    obtain rfl := Option.some.inj hfocus
    obtain ⟨o, ho, hother⟩ := Forest.below_last
      (p := fun o => o.attribute? key = some name) hs he hm
    rw [Occurrence.attribute?, ho, decide_eq_false_iff_not] at hother
    exact hother hname

/-- A bare attribute gives the empty name, and of two nodes of one name the inner one counts. -/
theorem named_last_inner : ∃ m,
    let v := (Store.empty.plantView m.forest).1
    let s := (Store.empty.plantView m.forest).2
    Markup.parse {} "<ul data-container=a><li data-container=a></li></ul><b data-container></b>".toList =
        .ok m ∧
      s.Sound ∧ (v.named s .container).map Prod.fst = [[], "a".toList] ∧
      v.named? s .container "a".toList = some ⟨⟨3⟩, some ⟨2⟩⟩ ∧
      (s.node ⟨2⟩).label.content = "<li".toList ∧ (s.node ⟨5⟩).label.content = "<ul".toList ∧
      Relation.TransGen s.Child ⟨5⟩ ⟨2⟩ := by
  let m := Markup.ofElements {} (Elements.ofTokens (Token.scan
    "<ul data-container=a><li data-container=a></li></ul><b data-container></b>".toList))
  have hs : (Store.empty.plantView m.forest).2.Sound := Store.sound_empty.plantList m.forest
  obtain ⟨-, -, -, hlast, -⟩ := named_last hs (Store.empty.plantView m.forest).1 .container
  have hbelow : Relation.TransGen (Store.empty.plantView m.forest).2.Child ⟨5⟩ ⟨2⟩ :=
    .head (b := ⟨3⟩) (List.mem_of_elem_eq_true (by decide +kernel))
      (.single (List.mem_of_elem_eq_true (by decide +kernel)))
  exact ⟨m, Markup.parse_eq_ok_iff.mpr ⟨by decide +kernel, by decide +kernel, rfl⟩, hs,
    by decide +kernel, (hlast _).trans (by decide +kernel), by decide +kernel, by decide +kernel, hbelow⟩

end View
end TemplateTree
