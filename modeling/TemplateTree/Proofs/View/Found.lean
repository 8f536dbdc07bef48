import TemplateTree.Proofs.View.Query

/-! What a query can find: the view itself, or nodes below it that carry an attribute, where they
stand. -/
namespace TemplateTree

variable {f g : Forest Occurrence} {o : Occurrence} {v w : View} {s : Store}

/-- The view is about a node of the forest, where it stands, and the node carries an attribute. -/
def View.FoundIn (w : View) (f : Forest Occurrence) : Prop :=
  ∃ o ∈ f.preorder, w = o.view ∧ ∃ key, (o.attribute? key).isSome = true

namespace View.FoundIn

theorem head {key : AttrKey} {name : Text} (h : o.attribute? key = some name) :
    o.view.FoundIn (.cons o f g) :=
  ⟨o, Forest.mem_preorder_cons.mpr (Or.inl rfl), rfl, key, by rw [h]; rfl⟩

theorem below (h : w.FoundIn f) : w.FoundIn (.cons o f g) := by
  obtain ⟨a, ha, hview⟩ := h
  exact ⟨a, Forest.mem_preorder_cons.mpr (Or.inr (Or.inl ha)), hview⟩

theorem beside (h : w.FoundIn g) : w.FoundIn (.cons o f g) := by
  obtain ⟨a, ha, hview⟩ := h
  exact ⟨a, Forest.mem_preorder_cons.mpr (Or.inr (Or.inr ha)), hview⟩

end View.FoundIn

namespace Property

variable {p : Property}

theorem foundIn_property? (h : p ∈ o.property?.toList) : p.view.FoundIn (.cons o f g) := by
  rw [Option.mem_toList, Occurrence.property?] at h
  obtain ⟨name, hname, rfl⟩ := Option.map_eq_some_iff.mp h
  exact .head hname

theorem foundIn_inside (h : p ∈ inside f) : p.view.FoundIn f := by
  induction f with
  | nil => cases h
  | cons o kids rest ihk ihr =>
    rw [inside] at h
    split at h
    · exact (ihr h).beside
    · rcases List.mem_append.mp h with h | h
      · rcases List.mem_append.mp h with h | h
        · exact foundIn_property? h
        · exact (ihk h).below
      · exact (ihr h).beside

theorem foundIn_ofScope (h : p ∈ ofScope o f) : p.view.FoundIn (.cons o f g) := by
  rcases List.mem_append.mp h with h | h
  · exact foundIn_property? h
  · exact (foundIn_inside h).below

end Property

namespace Scope

variable {a : Scope}

/-- The views of the scope and of its properties. -/
def FoundIn (a : Scope) (f : Forest Occurrence) : Prop :=
  a.view.FoundIn f ∧ ∀ p ∈ a.properties, p.view.FoundIn f

theorem FoundIn.below (h : a.FoundIn f) : a.FoundIn (.cons o f g) :=
  ⟨h.1.below, fun p hp => (h.2 p hp).below⟩

theorem FoundIn.beside (h : a.FoundIn g) : a.FoundIn (.cons o f g) :=
  ⟨h.1.beside, fun p hp => (h.2 p hp).beside⟩

theorem foundIn_find (h : a ∈ (find f).preorder) : a.FoundIn f := by
  induction f with
  | nil => cases h
  | cons o kids rest ihk ihr =>
    have hlater : a ∈ (find kids ++ find rest).preorder → a.FoundIn (.cons o kids rest) := by
      intro h
      rw [Forest.preorder_append] at h
      rcases List.mem_append.mp h with h | h
      · exact (ihk h).below
      · exact (ihr h).beside
    cases hname : o.attribute? .scope with
    | none =>
      simp only [find, hname] at h
      exact hlater h
    | some name =>
      simp only [find, hname] at h
      rcases Forest.mem_preorder_cons.mp h with rfl | h | h
      · exact ⟨.head hname, fun p hp => Property.foundIn_ofScope hp⟩
      · exact (ihk h).below
      · exact hlater h

end Scope

namespace NamedViews

theorem mem_insert {name : Text} {es : NamedViews} {e : Text × View} (h : e ∈ insert name v es) :
    e = (name, v) ∨ e ∈ es := by
  induction es with
  | nil => exact Or.inl (List.mem_singleton.mp h)
  | cons d r ih =>
    rw [insert] at h
    split at h
    · exact List.mem_cons.mp h
    · split at h
      · exact (List.mem_cons.mp h).imp_right (List.mem_cons_of_mem d)
      · rcases List.mem_cons.mp h with rfl | h
        · exact Or.inr List.mem_cons_self
        · exact (ih h).imp_right (List.mem_cons_of_mem d)

theorem foundIn_ofOccurrences {key : AttrKey} {e : Text × View}
    (h : e ∈ ofOccurrences key f.preorder) : e.2.FoundIn f := by
  refine List.foldlRecOn (motive := fun es : NamedViews => ∀ e ∈ es, e.2.FoundIn f) f.preorder _
    (fun e he => absurd he List.not_mem_nil) (fun es hes o ho e he => ?_) e h
  cases hname : o.attribute? key with
  | none =>
    simp only [hname] at he
    exact hes e he
  | some name =>
    simp only [hname] at he
    rcases mem_insert he with rfl | he
    · exact ⟨o, ho, rfl, key, by rw [hname]; rfl⟩
    · exact hes e he

end NamedViews

/-- A query answers the view itself, or views of nodes that carry an attribute: below the view's list,
or its own node and what is below that. Only a walk over all nodes answers more. -/
theorem View.answers_found {q : Query} (hq : q ≠ .nodes) (h : w ∈ v.answers s q) :
    q = .clone ∧ w = v ∨ w.FoundIn (s.forest v.list) ∨ q = .properties ∧ ∃ n, v.node? s = some n ∧
      w.FoundIn (.cons ⟨n, v.list, s.node n⟩ (s.forest (s.node n).children) .nil) := by
  cases q with
  | clone => exact Or.inl ⟨rfl, List.mem_singleton.mp h⟩
  | nodes => exact absurd rfl hq
  | scopes =>
    obtain ⟨a, ha, hw⟩ := List.mem_flatMap.mp h
    obtain ⟨hview, hprops⟩ := Scope.foundIn_find ha
    right
    left
    rcases List.mem_cons.mp hw with rfl | hw
    · exact hview
    · obtain ⟨p, hp, rfl⟩ := List.mem_map.mp hw
      exact hprops p hp
  | scope name =>
    obtain ⟨a, ha, rfl⟩ := List.mem_map.mp h
    have hroot := (List.mem_filter.mp ha).1
    exact Or.inr (Or.inl (Scope.foundIn_find (Forest.mem_preorder_of_roots hroot)).1)
  | property scopeName name =>
    rw [answers, property] at h
    cases hfound : v.firstScope? s scopeName with
    | none => simp [hfound] at h
    | some a =>
      rw [hfound] at h
      obtain ⟨p, hp, rfl⟩ := List.mem_map.mp h
      have hroot : a ∈ (v.scopes s).roots := List.mem_of_find?_eq_some hfound
      have hprops := (Scope.foundIn_find (Forest.mem_preorder_of_roots hroot)).2
      exact Or.inr (Or.inl (hprops p (List.mem_filter.mp hp).1))
  | properties =>
    obtain ⟨p, hp, rfl⟩ := List.mem_map.mp h
    rw [properties] at hp
    cases hn : v.node? s with
    | none => simp [hn] at hp
    | some n =>
      rw [hn] at hp
      exact Or.inr (Or.inr ⟨rfl, n, rfl, Property.foundIn_ofScope hp⟩)
  | named key =>
    obtain ⟨e, he, rfl⟩ := List.mem_map.mp h
    exact Or.inr (Or.inl (NamedViews.foundIn_ofOccurrences he))

end TemplateTree
