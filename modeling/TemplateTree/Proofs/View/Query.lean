import TemplateTree.Proofs.Store.Alike
import TemplateTree.View.Query

/-! Views of alike stores. Paired views show the same, and a query finds paired views through
them. -/
namespace TemplateTree

open List (Forall₂)

namespace Pairing

variable {R R' : Pairing} {o o' : Occurrence} {v w : View} {f g : Forest Occurrence}
  {fs gs : List Occurrence}

/-- Views of paired lists with paired focuses. -/
structure ViewRel (R : Pairing) (v w : View) : Prop where
  list : R.list v.list w.list
  focus : Option.Rel R.node v.focus w.focus

structure PropertyRel (R : Pairing) (p q : Property) : Prop where
  view : R.ViewRel p.view q.view
  name : p.name = q.name

structure ScopeRel (R : Pairing) (a b : Scope) : Prop where
  view : R.ViewRel a.view b.view
  name : a.name = b.name
  properties : Forall₂ R.PropertyRel a.properties b.properties

structure NamedRel (R : Pairing) (e e' : Text × View) : Prop where
  name : e.1 = e'.1
  view : R.ViewRel e.2 e'.2

theorem ViewRel.mono (h : R.ViewRel v w) {s s' : Store} (ha : Store.Advance R s R' s') : R'.ViewRel v w where
  list := ha.list h.list
  focus := by
    rcases Related.none_or_some h.focus with ⟨hf, hg⟩ | ⟨n, m, hf, hg, hnode⟩
    · rw [hf, hg]
      exact .none
    · rw [hf, hg]
      exact .some (ha.node hnode)

theorem OccRel.view (h : R.OccRel o o') : R.ViewRel o.view o'.view := ⟨h.owner, .some h.id⟩

theorem OccRel.attribute? (h : R.OccRel o o') (key : AttrKey) : o.attribute? key = o'.attribute? key := by
  rw [Occurrence.attribute?, Occurrence.attribute?, h.label]

theorem OccRel.property? (h : R.OccRel o o') : Forall₂ R.PropertyRel o.property?.toList o'.property?.toList := by
  rw [Occurrence.property?, Occurrence.property?, h.attribute?]
  cases o'.attribute? .prop with
  | none => exact .nil
  | some name => exact .cons ⟨h.view, rfl⟩ .nil

theorem inside (h : f.Rel R.OccRel g) :
    Forall₂ R.PropertyRel (Property.inside f) (Property.inside g) := by
  induction h with
  | nil => exact .nil
  | @cons o o' _ _ _ _ ho _ _ ihk ihr =>
    rw [Property.inside, Property.inside, ho.label]
    split
    · exact ihr
    · exact List.rel_append (List.rel_append ho.property? ihk) ihr

theorem ofScope (ho : R.OccRel o o') (h : f.Rel R.OccRel g) : Forall₂ R.PropertyRel
    (Property.ofScope o f) (Property.ofScope o' g) :=
  List.rel_append ho.property? (inside h)

theorem find (h : f.Rel R.OccRel g) :
    (Scope.find f).Rel R.ScopeRel (Scope.find g) := by
  induction h with
  | nil => exact .nil
  | @cons o o' _ _ _ _ ho hk _ ihk ihr =>
    simp only [Scope.find, ho.attribute?]
    cases o'.attribute? .scope with
    | none => exact ihk.append ihr
    | some name => exact .cons ⟨ho.view, rfl, ofScope ho hk⟩ ihk (ihk.append ihr)

theorem insert {es es' : NamedViews} (name : Text) (hv : R.ViewRel v w) (h : Forall₂ R.NamedRel es es') :
    Forall₂ R.NamedRel (NamedViews.insert name v es) (NamedViews.insert name w es') := by
  induction h with
  | nil => exact .cons ⟨rfl, hv⟩ .nil
  | @cons e e' r r' he hr ih =>
    rw [NamedViews.insert, NamedViews.insert, he.name]
    split
    · exact .cons ⟨rfl, hv⟩ (.cons he hr)
    · split
      · exact .cons ⟨rfl, hv⟩ hr
      · exact .cons he ih

theorem ofOccurrences (key : AttrKey) (h : Forall₂ R.OccRel fs gs) :
    Forall₂ R.NamedRel (NamedViews.ofOccurrences key fs) (NamedViews.ofOccurrences key gs) := by
  refine List.rel_foldl ?_ .nil h
  intro es es' hes o o' ho
  simp only [ho.attribute?]
  cases o'.attribute? key with
  | none => exact hes
  | some name => exact insert name ho.view hes

end Pairing

/-- What gives views from a view. -/
inductive Query
  | clone
  /-- Every node below, where it stands. -/
  | nodes
  /-- All scopes, the nested ones too, each with its properties. -/
  | scopes
  | scope (name : Text)
  | property (scopeName name : Text)
  /-- The properties of the view's node. -/
  | properties
  /-- The containers or fragments. -/
  | named (key : AttrKey)

def View.answers (v : View) (s : Store) : Query → List View
  | .clone => [v]
  | .nodes => (s.forest v.list).preorder.map Occurrence.view
  | .scopes => (v.scopes s).preorder.flatMap fun a => a.view :: a.properties.map (·.view)
  | .scope name => v.scope s name
  | .property scopeName name => v.property s scopeName name
  | .properties => (v.properties s).map (·.view)
  | .named key => (v.named s key).map Prod.snd

namespace Store.Alike

variable {R : Pairing} {s t : Store} {v w : View}

theorem node? (h : Alike R s t) (hv : R.ViewRel v w) : Option.Rel R.node (v.node? s) (w.node? t) := by
  rw [View.node?, View.node?]
  rcases Related.none_or_some hv.focus with ⟨hf, hg⟩ | ⟨n, m, hf, hg, hnode⟩
  · rw [hf, hg]
    exact Related.head? (h.members hv.list)
  · rw [hf, hg]
    exact .some hnode

theorem markup (h : Alike R s t) (hs : s.Sound) (ht : t.Sound) (hv : R.ViewRel v w) :
    v.markup s = w.markup t := by
  rw [View.markup, View.markup, h.labels hs ht hv.list]

theorem scopes (h : Alike R s t) (hs : s.Sound) (ht : t.Sound) (hv : R.ViewRel v w) :
    (v.scopes s).Rel R.ScopeRel (w.scopes t) :=
  Pairing.find (h.forest hs ht hv.list)

theorem properties (h : Alike R s t) (hs : s.Sound) (ht : t.Sound) (hv : R.ViewRel v w) :
    Forall₂ R.PropertyRel (v.properties s) (w.properties t) := by
  rw [View.properties, View.properties]
  rcases Related.none_or_some (h.node? hv) with ⟨hn, hm⟩ | ⟨n, m, hn, hm, hnode⟩
  · rw [hn, hm]
    exact .nil
  · rw [hn, hm]
    exact Pairing.ofScope ⟨hnode, hv.list, h.label hnode, h.children hnode⟩
      (h.forest hs ht (h.children hnode))

theorem firstScope? (h : Alike R s t) (hs : s.Sound) (ht : t.Sound) (hv : R.ViewRel v w)
    (name : Text) : Option.Rel R.ScopeRel (v.firstScope? s name) (w.firstScope? t name) :=
  Related.find? (h.scopes hs ht hv).roots (fun _ _ ha => by rw [ha.name])

/-- What a query answers is paired, view by view. -/
theorem answers (h : Alike R s t) (hs : s.Sound) (ht : t.Sound) (hv : R.ViewRel v w) (q : Query) :
    Forall₂ R.ViewRel (v.answers s q) (w.answers t q) := by
  have scopes := h.scopes hs ht hv
  have named : ∀ {ps qs : List Property} (name : Text), Forall₂ R.PropertyRel ps qs →
      Forall₂ R.ViewRel ((ps.filter (·.name = name)).map (·.view))
        ((qs.filter (·.name = name)).map (·.view)) := by
    intro ps qs name hp
    refine List.rel_map (fun _ _ hpq => hpq.view) (List.rel_filter (fun p q hpq => ?_) hp)
    simp [hpq.name]
  cases q with
  | clone => exact .cons hv .nil
  | nodes => exact List.rel_map (fun _ _ ho => ho.view) (h.forest hs ht hv.list).preorder
  | scopes =>
    refine List.rel_flatMap scopes.preorder (fun a b hab => .cons hab.view ?_)
    exact List.rel_map (fun _ _ hp => hp.view) hab.properties
  | scope name =>
    refine List.rel_map (fun _ _ hab => hab.view) (List.rel_filter (fun a b hab => ?_) scopes.roots)
    simp [hab.name]
  | property scopeName name =>
    rw [View.answers, View.answers, View.property, View.property]
    rcases Related.none_or_some (h.firstScope? hs ht hv scopeName) with ⟨ha, hb⟩ | ⟨a, b, ha, hb, hab⟩
    · rw [ha, hb]
      exact .nil
    · rw [ha, hb]
      exact named name hab.properties
  | properties => exact List.rel_map (fun _ _ hp => hp.view) (h.properties hs ht hv)
  | named key =>
    exact List.rel_map (fun _ _ he => he.view)
      (Pairing.ofOccurrences key (h.forest hs ht hv.list).preorder)

end Store.Alike
end TemplateTree
