import TemplateTree.Proofs.Attribute.First
import TemplateTree.Proofs.Markup.Success
import TemplateTree.Proofs.Store.Once
import TemplateTree.View.Query

/-! Which scope a node belongs to: the nearest one, the node itself included. A search for scopes finds
every scope once, and its properties are those of the nodes that belong to it. -/
namespace TemplateTree

universe u

/-- A label in a forest, with the labels above it, nearest first. -/
structure Lineage (α : Type u) where
  above : List α
  label : α
  deriving DecidableEq, Repr

namespace Forest

variable {α : Type u}

/-- Every label of a forest that stands below `above`, in pre-order. -/
def lineages (above : List α) : Forest α → List (Lineage α)
  | nil => []
  | cons a kids rest => ⟨above, a⟩ :: (lineages (a :: above) kids ++ lineages above rest)

theorem map_label_lineages (above : List α) (f : Forest α) :
    (f.lineages above).map (·.label) = f.preorder := by
  induction f generalizing above with
  | nil => rfl
  | cons a kids rest ihk ihr =>
    rw [lineages, preorder, List.map_cons, List.map_append, ihk, ihr]

theorem mem_preorder_of_lineages {above : List α} {f : Forest α} {e : Lineage α}
    (h : e ∈ f.lineages above) : e.label ∈ f.preorder := by
  rw [← map_label_lineages above]
  exact List.mem_map_of_mem h

end Forest

theorem Attributes.isSome_get? (a : Attributes) (key : AttrKey) :
    (a.get? key).isSome = a.contains key := by
  rw [get?, Option.isSome_map, isSome_lookup, contains, keys]

variable {s : Store} {v : View} {above : List Occurrence} {f kids rest : Forest Occurrence}
  {o c : Occurrence} {e : Lineage Occurrence} {c? : Option Occurrence} {a : Scope} {p : Property}

def Occurrence.isScope (o : Occurrence) : Bool := o.node.label.attributes.contains .scope

theorem Occurrence.isSome_scope (o : Occurrence) : (o.attribute? .scope).isSome = o.isScope :=
  Attributes.isSome_get? ..

/-- The scope that a node belongs to. -/
def Lineage.scope? (e : Lineage Occurrence) : Option Occurrence :=
  (e.label :: e.above).find? Occurrence.isScope

/-- The number of scopes around a node. -/
def Lineage.depth (e : Lineage Occurrence) : Nat := e.above.countP Occurrence.isScope

namespace Scope

theorem countP_scope (ho : o.isScope = true) : (o :: above).countP Occurrence.isScope =
    above.countP Occurrence.isScope + 1 := List.countP_cons_of_pos ho

theorem countP_plain (ho : o.isScope = false) : (o :: above).countP Occurrence.isScope =
    above.countP Occurrence.isScope := List.countP_cons_of_neg (Bool.eq_false_iff.mp ho)

/-- The nodes of a forest that belong to a scope, or to none, in pre-order. -/
def members (above : List Occurrence) (f : Forest Occurrence) (c? : Option Occurrence) :
    List Occurrence :=
  ((f.lineages above).filter (·.scope? = c?)).map (·.label)

theorem members_cons : members above (.cons o kids rest) c? =
    (if (o :: above).find? Occurrence.isScope = c? then [o] else []) ++
      (members (o :: above) kids c? ++ members above rest c?) := by
  have hself : (⟨above, o⟩ : Lineage Occurrence).scope? = (o :: above).find? Occurrence.isScope := rfl
  rw [members, Forest.lineages, List.filter_cons, List.filter_append, hself]
  by_cases h : (o :: above).find? Occurrence.isScope = c?
  · simp [h, members]
  · simp [h, members]

/-- No scope of the forest is the one that is looked for, nor is the one around the forest. -/
theorem members_eq_nil (haround : above.find? Occurrence.isScope ≠ c?)
    (hf : ∀ x ∈ f.preorder, some x ≠ c?) : members above f c? = [] := by
  induction f generalizing above with
  | nil => rfl
  | cons o kids rest ihk ihr =>
    have hnearest : (o :: above).find? Occurrence.isScope ≠ c? := by
      rw [List.find?_cons]
      cases o.isScope with
      | true => exact hf o (Forest.mem_preorder_cons.mpr (Or.inl rfl))
      | false => exact haround
    rw [members_cons, if_neg hnearest,
      ihk hnearest fun x hx => hf x (Forest.mem_preorder_cons.mpr (Or.inr (Or.inl hx))),
      ihr haround fun x hx => hf x (Forest.mem_preorder_cons.mpr (Or.inr (Or.inr hx)))]
    rfl

theorem filterMap_singleton_property (o : Occurrence) :
    [o].filterMap Occurrence.property? = o.property?.toList := by
  cases h : o.property? <;> simp [h]

theorem inside_cons (o : Occurrence) (kids rest : Forest Occurrence) :
    Property.inside (.cons o kids rest) =
      if o.isScope then Property.inside rest
      else o.property?.toList ++ Property.inside kids ++ Property.inside rest := rfl

/-- A walk that leaves out what other scopes keep finds the properties of the scope around it. -/
theorem inside_eq (h : ∀ x ∈ f.preorder, above.find? Occurrence.isScope ≠ some x) :
    Property.inside f =
      (members above f (above.find? Occurrence.isScope)).filterMap Occurrence.property? := by
  induction f generalizing above with
  | nil => rfl
  | cons o kids rest ihk ihr =>
    have hkids : ∀ x ∈ kids.preorder, above.find? Occurrence.isScope ≠ some x := fun x hx =>
      h x (Forest.mem_preorder_cons.mpr (Or.inr (Or.inl hx)))
    have hrest := ihr fun x hx => h x (Forest.mem_preorder_cons.mpr (Or.inr (Or.inr hx)))
    have ho := h o (Forest.mem_preorder_cons.mpr (Or.inl rfl))
    rw [inside_cons, members_cons, List.filterMap_append, List.filterMap_append, ← hrest]
    cases hscope : o.isScope with
    | true =>
      have hfind : (o :: above).find? Occurrence.isScope = some o := List.find?_cons_of_pos hscope
      have hnone : members (o :: above) kids (above.find? Occurrence.isScope) = [] :=
        members_eq_nil (hfind ▸ Ne.symm ho) fun x hx => Ne.symm (hkids x hx)
      rw [if_pos rfl, hfind, if_neg (Ne.symm ho), hnone]
      rfl
    | false =>
      have hfind : (o :: above).find? Occurrence.isScope = above.find? Occurrence.isScope :=
        List.find?_cons_of_neg (by simp [hscope])
      rw [if_neg Bool.false_ne_true, if_pos hfind, filterMap_singleton_property, ← hfind,
        ← ihk (hfind ▸ hkids), List.append_assoc]

/-- What is found for a scope of the forest. -/
def ofMember (above : List Occurrence) (f : Forest Occurrence) (c : Occurrence) : Scope where
  view := c.view
  name := (c.attribute? .scope).getD []
  properties := (members above f (some c)).filterMap Occurrence.property?

/-- Nothing stands twice in the forest, and the scope around it does not stand in it. -/
structure Distinct (above : List Occurrence) (f : Forest Occurrence) : Prop where
  nodup : f.preorder.Nodup
  around : ∀ x ∈ f.preorder, above.find? Occurrence.isScope ≠ some x

namespace Distinct

variable (h : Distinct above (.cons o kids rest))

include h

theorem not_mem : o ∉ kids.preorder ∧ o ∉ rest.preorder := by
  have hnodup := (List.nodup_cons.mp h.nodup).1
  rwa [List.mem_append, not_or] at hnodup

theorem disjoint : kids.preorder.Disjoint rest.preorder :=
  (List.nodup_append'.mp (List.nodup_cons.mp h.nodup).2).2.2

theorem beside : Distinct above rest where
  nodup := (List.nodup_append'.mp (List.nodup_cons.mp h.nodup).2).2.1
  around x hx := h.around x (Forest.mem_preorder_cons.mpr (Or.inr (Or.inr hx)))

/-- The nearest scope of what is below the first node does not stand below or beside it. -/
theorem nearest {x : Occurrence} (hx : x ∈ kids.preorder ∨ x ∈ rest.preorder) :
    (o :: above).find? Occurrence.isScope ≠ some x := by
  rw [List.find?_cons]
  cases o.isScope with
  | false => exact h.around x (Forest.mem_preorder_cons.mpr (Or.inr hx))
  | true =>
    rintro hox
    obtain rfl := Option.some.inj hox
    exact hx.elim h.not_mem.1 h.not_mem.2

theorem below : Distinct (o :: above) kids where
  nodup := (List.nodup_append'.mp (List.nodup_cons.mp h.nodup).2).1
  around _ hx := h.nearest (Or.inl hx)

/-- The members of a scope below the first node all stand below it. -/
theorem members_kids (hc : c ∈ kids.preorder) :
    members above (.cons o kids rest) (some c) = members (o :: above) kids (some c) := by
  have haround := h.around c (Forest.mem_preorder_cons.mpr (Or.inr (Or.inl hc)))
  have hrest : members above rest (some c) = [] := by
    refine members_eq_nil haround fun x hx hxc => ?_
    obtain rfl := Option.some.inj hxc
    exact h.disjoint hc hx
  rw [members_cons, if_neg (h.nearest (Or.inl hc)), hrest, List.append_nil, List.nil_append]

/-- The members of a scope beside the first node all stand beside it. -/
theorem members_rest (hc : c ∈ rest.preorder) :
    members above (.cons o kids rest) (some c) = members above rest (some c) := by
  have hkids : members (o :: above) kids (some c) = [] := by
    refine members_eq_nil (h.nearest (Or.inr hc)) fun x hx hxc => ?_
    obtain rfl := Option.some.inj hxc
    exact h.disjoint hx hc
  rw [members_cons, if_neg (h.nearest (Or.inr hc)), hkids, List.nil_append, List.nil_append]

/-- A scope comes first among its members, and the others are below it. -/
theorem members_self (ho : o.isScope = true) :
    members above (.cons o kids rest) (some o) = o :: members (o :: above) kids (some o) := by
  have haround := h.around o (Forest.mem_preorder_cons.mpr (Or.inl rfl))
  have hrest : members above rest (some o) = [] := by
    refine members_eq_nil haround fun x hx hxo => ?_
    obtain rfl := Option.some.inj hxo
    exact h.not_mem.2 hx
  rw [members_cons, if_pos (List.find?_cons_of_pos ho), hrest, List.append_nil]
  rfl

/-- The search finds the properties of the members. -/
theorem ofScope_eq (ho : o.isScope = true) : Property.ofScope o kids =
    (members above (.cons o kids rest) (some o)).filterMap Occurrence.property? := by
  have hfind : (o :: above).find? Occurrence.isScope = some o := List.find?_cons_of_pos ho
  have hinside := inside_eq h.below.around
  rw [hfind] at hinside
  rw [Property.ofScope, hinside, h.members_self ho, ← filterMap_singleton_property,
    ← List.filterMap_append]
  rfl

end Distinct

theorem find_cons (o : Occurrence) (kids rest : Forest Occurrence) : find (.cons o kids rest) =
    if o.isScope then .cons ⟨o.view, (o.attribute? .scope).getD [], Property.ofScope o kids⟩ (find kids)
      (find kids ++ find rest)
    else find kids ++ find rest := by
  rw [find, ← o.isSome_scope]
  cases o.attribute? .scope <;> rfl

/-- The scopes of a forest as a search finds them: each with the scopes below it, and those once more
beside it. -/
def tree : Forest Occurrence → Forest Occurrence
  | .nil => .nil
  | .cons o kids rest =>
    if o.isScope then .cons o (tree kids) (tree kids ++ tree rest) else tree kids ++ tree rest

theorem tree_scope (ho : o.isScope = true) :
    tree (.cons o kids rest) = .cons o (tree kids) (tree kids ++ tree rest) := if_pos ho

theorem tree_plain (ho : o.isScope = false) : tree (.cons o kids rest) = tree kids ++ tree rest :=
  if_neg (Bool.eq_false_iff.mp ho)

theorem roots_tree (f : Forest Occurrence) :
    (tree f).roots = f.preorder.filter Occurrence.isScope := by
  induction f with
  | nil => rfl
  | cons o kids rest ihk ihr =>
    rw [Forest.preorder, List.filter_cons, List.filter_append, ← ihk, ← ihr, ← Forest.roots_append]
    cases ho : o.isScope with
    | true => rw [tree_scope ho, Forest.roots, if_pos rfl]
    | false => rw [tree_plain ho, if_neg Bool.false_ne_true]

/-- A scope that is found below another one is found by itself as well. -/
theorem mem_roots_tree (h : c ∈ (tree f).preorder) : c ∈ (tree f).roots := by
  induction f with
  | nil => cases h
  | cons o kids rest ihk ihr =>
    have hlater : c ∈ (tree kids ++ tree rest).preorder → c ∈ (tree kids ++ tree rest).roots := by
      rw [Forest.preorder_append, Forest.roots_append, List.mem_append, List.mem_append]
      exact Or.imp ihk ihr
    cases ho : o.isScope with
    | false =>
      rw [tree_plain ho] at h ⊢
      exact hlater h
    | true =>
      rw [tree_scope ho] at h ⊢
      rw [Forest.roots, List.mem_cons]
      rcases Forest.mem_preorder_cons.mp h with rfl | h | h
      · exact Or.inl rfl
      · exact Or.inr (hlater (by rw [Forest.preorder_append]; exact List.mem_append_left _ h))
      · exact Or.inr (hlater h)

theorem mem_tree (h : c ∈ (tree f).preorder) : c ∈ f.preorder ∧ c.isScope = true := by
  have hroots := mem_roots_tree h
  rw [roots_tree] at hroots
  exact List.mem_filter.mp hroots

/-- What is found for each scope depends on the forest as a whole only. -/
theorem find_eq (h : Distinct above f) : find f = (tree f).map (ofMember above f) := by
  induction f generalizing above with
  | nil => rfl
  | cons o kids rest ihk ihr =>
    have hkids : find kids = (tree kids).map (ofMember above (.cons o kids rest)) := by
      rw [ihk h.below]
      refine Forest.map_congr fun c hc => ?_
      rw [ofMember, ofMember, h.members_kids (mem_tree hc).1]
    have hrest : find rest = (tree rest).map (ofMember above (.cons o kids rest)) := by
      rw [ihr h.beside]
      refine Forest.map_congr fun c hc => ?_
      rw [ofMember, ofMember, h.members_rest (mem_tree hc).1]
    rw [find_cons, hkids, hrest, ← Forest.map_append]
    cases ho : o.isScope with
    | false => rw [tree_plain ho, if_neg Bool.false_ne_true]
    | true => rw [tree_scope ho, if_pos rfl, h.ofScope_eq ho, Forest.map, ofMember]

/-- The scopes that are found are those of the forest, in pre-order. -/
theorem roots_find (h : Distinct above f) : (find f).roots =
    (f.preorder.filter Occurrence.isScope).map (ofMember above f) := by
  rw [find_eq h, Forest.roots_map, roots_tree]

end Scope

namespace Forest

/-- The nearest scope stands in the forest or around it. -/
theorem scope?_of_lineages (h : e ∈ f.lineages above) :
    e.scope? = above.find? Occurrence.isScope ∨ ∃ c ∈ f.preorder, e.scope? = some c := by
  induction f generalizing above with
  | nil => cases h
  | cons o kids rest ihk ihr =>
    have hnearest : (o :: above).find? Occurrence.isScope = above.find? Occurrence.isScope ∨
        (o :: above).find? Occurrence.isScope = some o := by
      rw [List.find?_cons]
      cases o.isScope with
      | true => exact Or.inr rfl
      | false => exact Or.inl rfl
    have hself : (o :: above).find? Occurrence.isScope = some o →
        ∃ c ∈ (cons o kids rest).preorder, (o :: above).find? Occurrence.isScope = some c :=
      fun ho => ⟨o, mem_preorder_cons.mpr (Or.inl rfl), ho⟩
    rcases List.mem_cons.mp h with rfl | h
    · exact hnearest.imp_right hself
    · rcases List.mem_append.mp h with h | h
      · rcases ihk h with he | ⟨c, hc, he⟩
        · rw [he]
          exact hnearest.imp_right hself
        · exact Or.inr ⟨c, mem_preorder_cons.mpr (Or.inr (Or.inl hc)), he⟩
      · rcases ihr h with he | ⟨c, hc, he⟩
        · exact Or.inl he
        · exact Or.inr ⟨c, mem_preorder_cons.mpr (Or.inr (Or.inr hc)), he⟩

/-- Where nothing stands twice, a label has one lineage. -/
theorem lineage_inj {e' : Lineage Occurrence} (h : f.preorder.Nodup) (he : e ∈ f.lineages above)
    (he' : e' ∈ f.lineages above) (hl : e.label = e'.label) : e = e' := by
  rw [← map_label_lineages above] at h
  exact List.inj_on_of_nodup_map h he he' hl

end Forest

namespace Scope

theorem mem_members_iff (h : f.preorder.Nodup) (he : e ∈ f.lineages above) :
    e.label ∈ members above f c? ↔ e.scope? = c? := by
  rw [members, List.mem_map]
  constructor
  · rintro ⟨e', he', hl⟩
    obtain ⟨he', hscope⟩ := List.mem_filter.mp he'
    rw [← Forest.lineage_inj h he' he hl]
    exact of_decide_eq_true hscope
  · exact fun hscope => ⟨e, List.mem_filter.mpr ⟨he, decide_eq_true hscope⟩, rfl⟩

theorem members_sublist (above : List Occurrence) (f : Forest Occurrence) (c? : Option Occurrence) :
    (members above f c?).Sublist f.preorder := by
  rw [members, ← Forest.map_label_lineages above]
  exact List.filter_sublist.map _

/-- A scope comes first among its members. -/
theorem exists_members (h : Distinct above f) (hc : c ∈ f.preorder) (hscope : c.isScope = true) :
    ∃ others, members above f (some c) = c :: others := by
  induction f generalizing above with
  | nil => cases hc
  | cons o kids rest ihk ihr =>
    rcases Forest.mem_preorder_cons.mp hc with rfl | hc | hc
    · exact ⟨_, h.members_self hscope⟩
    · rw [h.members_kids hc]
      exact ihk h.below hc
    · rw [h.members_rest hc]
      exact ihr h.beside hc

/-- The properties of a scope: itself, if it is one, and then those of the other members. -/
theorem properties_ofMember {others : List Occurrence} (h : members above f (some c) = c :: others) :
    (ofMember above f c).properties = c.property?.toList ++ others.filterMap Occurrence.property? := by
  rw [ofMember, h, ← filterMap_singleton_property, ← List.filterMap_append]
  rfl

theorem name_ofMember (hscope : c.isScope = true) :
    some (ofMember above f c).name = c.attribute? .scope := by
  rw [← c.isSome_scope] at hscope
  obtain ⟨name, hname⟩ := Option.isSome_iff_exists.mp hscope
  rw [ofMember, hname]
  rfl

/-- The first scope of a name. -/
theorem find?_ofMember (above : List Occurrence) (f : Forest Occurrence) (name : Text) :
    ((f.preorder.filter Occurrence.isScope).map (ofMember above f)).find? (·.name = name) =
      (f.preorder.find? fun c => c.attribute? .scope = some name).map (ofMember above f) := by
  rw [List.find?_map, List.find?_filter]
  congr 2
  funext c
  have hscope := c.isSome_scope
  cases hattribute : c.attribute? .scope with
  | none =>
    rw [hattribute] at hscope
    simp [← hscope]
  | some given =>
    rw [hattribute] at hscope
    simp [← hscope, ofMember, hattribute]

end Scope

namespace Property

/-- The view of a property names the node that it is. -/
theorem eq_of_property? (h : (f.preorder.map (·.id)).Nodup) (ho : o ∈ f.preorder)
    (hc : c ∈ f.preorder) (hp : o.property? = some p) (hp' : c.property? = some p) : o = c := by
  obtain ⟨_, -, rfl⟩ := Option.map_eq_some_iff.mp hp
  obtain ⟨_, -, he⟩ := Option.map_eq_some_iff.mp hp'
  have hid : c.id = o.id := Option.some.inj (congrArg (·.view.focus) he)
  exact List.inj_on_of_nodup_map h ho hc hid.symm

theorem mem_filterMap_iff (h : (f.preorder.map (·.id)).Nodup) (ho : o ∈ f.preorder)
    (hp : o.property? = some p) {os : List Occurrence} (hos : os.Sublist f.preorder) :
    p ∈ os.filterMap Occurrence.property? ↔ o ∈ os := by
  rw [List.mem_filterMap]
  constructor
  · rintro ⟨c, hc, hpc⟩
    rwa [eq_of_property? h ho (hos.subset hc) hp hpc]
  · exact fun ho => ⟨o, ho, hp⟩

theorem nodup_filterMap (h : (f.preorder.map (·.id)).Nodup) {os : List Occurrence}
    (hos : os.Sublist f.preorder) : (os.filterMap Occurrence.property?).Nodup := by
  have hids : (os.map (·.id)).Nodup := h.sublist (hos.map _)
  rw [List.Nodup, List.pairwise_map] at hids
  rw [List.Nodup, List.pairwise_filterMap]
  refine hids.imp fun {o c} hne p hp q hq hpq => hne ?_
  obtain ⟨_, -, rfl⟩ := Option.map_eq_some_iff.mp hp
  obtain ⟨_, -, rfl⟩ := Option.map_eq_some_iff.mp hq
  exact Option.some.inj (congrArg (·.view.focus) hpq)

end Property

/-- The properties of a name are the nodes that give the name. -/
theorem named_properties (os : List Occurrence) (name : Text) :
    ((os.filterMap Occurrence.property?).filter (·.name = name)).map (·.view) =
      (os.filter fun o => o.attribute? .prop = some name).map Occurrence.view := by
  induction os with
  | nil => rfl
  | cons o os ih =>
    cases h : o.attribute? .prop with
    | none => simp [Occurrence.property?, h, ih]
    | some given =>
      by_cases hg : given = name
      · simp [Occurrence.property?, h, hg, ih]
      · simp [Occurrence.property?, h, hg, ih]

namespace Store

/-- A scope that is found answers, as a view, with the properties that it was found with. -/
theorem Whole.properties (h : s.Whole f) (ha : a ∈ (Scope.find f).roots) :
    a.view.properties s = a.properties := by
  induction f with
  | nil => cases ha
  | cons o kids rest ihk ihr =>
    obtain ⟨hnode, hkids, hwholek, hwholer⟩ := h
    have hlater : a ∈ (Scope.find kids ++ Scope.find rest).roots →
        a.view.properties s = a.properties := by
      rw [Forest.roots_append, List.mem_append]
      exact fun ha => ha.elim (ihk hwholek) (ihr hwholer)
    rw [Scope.find_cons] at ha
    split at ha
    · rcases List.mem_cons.mp ha with rfl | ha
      · obtain ⟨n, l, node⟩ := o
        obtain rfl : node = s.node n := hnode
        rw [hkids]
        rfl
      · exact hlater ha
    · exact hlater ha

end Store

namespace View

open Scope

/-- Every property belongs to its nearest scope only. -/
theorem holders_eq (h : (f.preorder.map (·.id)).Nodup) (he : e ∈ f.lineages [])
    (hp : e.label.property? = some p) :
    ((find f).roots.filter (p ∈ ·.properties)).map (·.view) =
      (e.scope?.map Occurrence.view).toList := by
  have hnodup : f.preorder.Nodup := h.of_map _
  have hdistinct : Distinct [] f := ⟨hnodup, fun _ _ => by simp⟩
  have hlabel := Forest.mem_preorder_of_lineages he
  have hholds : ∀ c, decide (p ∈ (ofMember [] f c).properties) = decide (e.scope? = some c) := by
    intro c
    refine decide_eq_decide.mpr ?_
    rw [ofMember, Property.mem_filterMap_iff h hlabel hp (members_sublist ..),
      mem_members_iff hnodup he]
  rw [roots_find hdistinct, List.filter_map, List.map_map]
  simp only [Function.comp_def, hholds]
  cases hscope : e.scope? with
  | none => simp
  | some c =>
    have hin : c ∈ f.preorder := by
      rcases Forest.scope?_of_lineages he with hnone | ⟨d, hd, hsome⟩
      · rw [hscope] at hnone
        cases hnone
      · rw [hscope] at hsome
        rwa [Option.some.inj hsome]
    have hisScope : c.isScope = true := List.find?_some hscope
    have hone : (f.preorder.filter Occurrence.isScope).filter (fun x => some c = some x) = [c] := by
      have hcount : (f.preorder.filter Occurrence.isScope).count c = 1 :=
        List.count_eq_one_of_mem (hnodup.filter _) (List.mem_filter.mpr ⟨hin, hisScope⟩)
      simp only [Option.some.injEq, @eq_comm _ c]
      rw [List.filter_eq, hcount, List.replicate_one]
    rw [hone]
    rfl

/-- Where no node stands twice, the properties are divided among the scopes. -/
theorem scopes_partition (hc : s.Closed) (ho : s.Once v.list) :
    let f := s.forest v.list
    let found := (v.scopes s).roots
    found.map (fun a => (a.view, some a.name)) =
        (f.preorder.filter Occurrence.isScope).map (fun c => (c.view, c.attribute? .scope)) ∧
      (∀ a ∈ (v.scopes s).preorder, a ∈ found) ∧
      (∀ e ∈ f.lineages [], ∀ p, e.label.property? = some p →
        (found.filter (p ∈ ·.properties)).map (·.view) = (e.scope?.map Occurrence.view).toList) ∧
      (∀ a ∈ found, a.properties.Nodup ∧ a.view.properties s = a.properties ∧
        ∃ c ∈ f.preorder, a.view = c.view ∧ ∃ others, members [] f (some c) = c :: others ∧
          a.properties = c.property?.toList ++ others.filterMap Occurrence.property?) ∧
      ∀ scopeName name, v.property s scopeName name =
        ((f.preorder.find? fun c => c.attribute? .scope = some scopeName).map fun c =>
          ((members [] f (some c)).filter fun o => o.attribute? .prop = some name).map
            Occurrence.view).getD [] := by
  intro f found
  have hids : (f.preorder.map (·.id)).Nodup := ho s.nodes.size
  have hdistinct : Distinct [] f := ⟨hids.of_map _, fun _ _ => by simp⟩
  have hfound : found = (f.preorder.filter Occurrence.isScope).map (ofMember [] f) :=
    roots_find hdistinct
  have htree : v.scopes s = (tree f).map (ofMember [] f) := find_eq hdistinct
  refine ⟨?_, ?_, fun e he p hp => holders_eq hids he hp, ?_, ?_⟩
  · rw [hfound, List.map_map]
    refine List.map_congr_left fun c hc => ?_
    exact congrArg (c.view, ·) (name_ofMember (List.of_mem_filter hc))
  · intro a ha
    rw [htree, Forest.preorder_map] at ha
    obtain ⟨c, hc, rfl⟩ := List.mem_map.mp ha
    rw [hfound, ← roots_tree]
    exact List.mem_map_of_mem (mem_roots_tree hc)
  · intro a ha
    refine ⟨?_, (ho.whole hc).properties ha, ?_⟩
    · rw [hfound] at ha
      obtain ⟨c, -, rfl⟩ := List.mem_map.mp ha
      exact Property.nodup_filterMap hids (members_sublist ..)
    · rw [hfound] at ha
      obtain ⟨c, hscope, rfl⟩ := List.mem_map.mp ha
      obtain ⟨hin, hscope⟩ := List.mem_filter.mp hscope
      obtain ⟨others, hothers⟩ := exists_members hdistinct hin hscope
      exact ⟨c, hin, rfl, others, hothers, properties_ofMember hothers⟩
  · intro scopeName name
    have hfirst : v.firstScope? s scopeName =
        (f.preorder.find? fun c => c.attribute? .scope = some scopeName).map (ofMember [] f) := by
      rw [← find?_ofMember, ← hfound]
      rfl
    rw [property, hfirst]
    cases f.preorder.find? fun c => c.attribute? .scope = some scopeName with
    | none => rfl
    | some c => exact named_properties _ name

/-- A scope that is a property itself, inside another one, and a property without a scope. -/
theorem scopes_partition_nested : ∃ m,
    let v := (Store.empty.plantView m.forest).1
    let s := (Store.empty.plantView m.forest).2
    Markup.parse {} ("<ul data-scope=a data-prop=x><li data-prop=y><p data-scope=b data-prop=z>" ++
        "<i data-prop=w></i></p></li></ul><b data-prop=u></b>").toList = .ok m ∧
      s.Closed ∧ s.Once v.list ∧ (∀ a ∈ (v.scopes s).roots, a.view.properties s = a.properties) ∧
      (v.scopes s).roots.map (fun a => (a.name, a.properties.map (·.name))) =
        [("a".toList, ["x".toList, "y".toList]), ("b".toList, ["z".toList, "w".toList])] := by
  let m := Markup.ofElements {} (Elements.ofTokens (Token.scan
    ("<ul data-scope=a data-prop=x><li data-prop=y><p data-scope=b data-prop=z>" ++
      "<i data-prop=w></i></p></li></ul><b data-prop=u></b>").toList))
  let v := (Store.empty.plantView m.forest).1
  have hc := (Store.sound_empty.plantList m.forest).closed
  have ho := Store.once_plantList Store.sound_empty m.forest
  obtain ⟨-, -, -, hfound, -⟩ := scopes_partition (v := v) hc ho
  exact ⟨m, Markup.parse_eq_ok_iff.mpr ⟨by decide +kernel, by decide +kernel, rfl⟩, hc, ho,
    fun a ha => (hfound a ha).2.1, by decide +kernel⟩

end View
end TemplateTree
