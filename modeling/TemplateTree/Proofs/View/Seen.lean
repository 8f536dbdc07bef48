import TemplateTree.Proofs.Markup.Representation
import TemplateTree.Proofs.Store.Once
import TemplateTree.Proofs.View.Locality

/-! What a search finds depends on the elements only: on what each says, on what is written inside it,
and on how they are nested. -/
namespace TemplateTree

namespace Forest

theorem append_nil {α : Type} (f : Forest α) : f ++ nil = f := by
  induction f with
  | nil => rfl
  | cons a kids rest _ ih => rw [cons_append, ih]

/-- The elements with what is written inside them. -/
def shown : Forest Label → Forest (Label × Text)
  | nil => nil
  | cons _ nil rest => shown rest
  | cons a (cons _ inner _) rest => cons (a, inner.render) (shown inner) (shown rest)

/-- Rows that are both empty, or begin both with an element, or both with a tree without children. -/
def BeginsLike (f g : Forest Label) : Prop := (f = nil ↔ g = nil) ∧ (f.Apart ↔ g.Apart)

end Forest

variable {s t : Store} {v w : View} {f g : Forest Occurrence} {m m' : Markup} {key : AttrKey}

/-- What a node says, and what is written inside it. -/
def Occurrence.seen (s : Store) (o : Occurrence) : Label × Text := (o.node.label, o.view.html s)

def Property.seen (s : Store) (p : Property) : Text × Text := (p.name, p.view.html s)

/-- The name of a scope, what is written inside it, and the same for its properties. -/
def Scope.seen (s : Store) (a : Scope) : Text × Text × List (Text × Text) :=
  (a.name, a.view.html s, a.properties.map (·.seen s))

namespace Forest

/-- The trees without children, and what the children of the others are but for the slots' content,
carry no attributes. -/
def Parted : Forest Occurrence → Prop
  | nil => True
  | cons o nil rest => o.node.label.attributes = ∅ ∧ Parted rest
  | cons _ (cons slot inner parts) rest =>
    slot.node.label.attributes = ∅ ∧ Parted inner ∧ (parts.elements = nil ∧ Parted parts) ∧ Parted rest

theorem parted_closer {tag : Tag} (h : f.map (·.node.label) =
    if tag.isVoid then .nil else .cons (Label.leaf (Markup.closer tag.name)) .nil .nil) :
    f.elements = nil ∧ f.Parted := by
  cases f with
  | nil => exact ⟨rfl, trivial⟩
  | cons c kids rest =>
    by_cases hv : tag.isVoid = true
    · rw [if_pos hv] at h
      cases h
    · rw [if_neg hv] at h
      obtain ⟨hlabel, hkids, hrest⟩ := Forest.cons.inj h
      cases kids with
      | cons => cases hkids
      | nil => cases rest with
        | cons => cases hrest
        | nil => exact ⟨rfl, congrArg Label.attributes hlabel, trivial⟩

theorem parted_of_map (h : f.map (·.node.label) = m.forest) : f.Parted := by
  induction m generalizing f with
  | nil => cases f with
    | nil => trivial
    | cons => cases h
  | text source rest ih => cases f with
    | nil => cases h
    | cons o kids rest =>
      obtain ⟨hlabel, hkids, hrest⟩ := Forest.cons.inj h
      cases kids with
      | nil => exact ⟨congrArg Label.attributes hlabel, ih hrest⟩
      | cons => cases hkids
  | element tag inner rest ihi ihr => cases f with
    | nil => cases h
    | cons o kids rest =>
      obtain ⟨-, hkids, hrest⟩ := Forest.cons.inj h
      cases kids with
      | nil => cases hkids
      | cons slot inner parts =>
        obtain ⟨hslot, hinner, hparts⟩ := Forest.cons.inj hkids
        exact ⟨congrArg Label.attributes hslot, ihi hinner, parted_closer hparts, ihr hrest⟩

end Forest

section Found

theorem Occurrence.attribute?_of_empty {o : Occurrence} (h : o.node.label.attributes = ∅)
    (key : AttrKey) : o.attribute? key = none := by
  rw [attribute?, h]
  rfl

theorem Occurrence.property?_of_empty {o : Occurrence} (h : o.node.label.attributes = ∅) :
    o.property? = none := by rw [property?, attribute?_of_empty h, Option.map_none]

theorem Property.inside_of_empty {o : Occurrence} {kids rest : Forest Occurrence}
    (h : o.node.label.attributes = ∅) :
    inside (.cons o kids rest) = inside kids ++ inside rest := by
  have hscope : o.node.label.attributes.contains .scope = false := by
    rw [h]
    rfl
  rw [inside, hscope, if_neg Bool.false_ne_true, Occurrence.property?_of_empty h]
  rfl

theorem Scope.find_of_none {o : Occurrence} (h : o.attribute? .scope = none)
    (kids rest : Forest Occurrence) : find (.cons o kids rest) = find kids ++ find rest := by
  simp only [find, h]

theorem Scope.find_of_some {o : Occurrence} {name : Text} (h : o.attribute? .scope = some name)
    (kids rest : Forest Occurrence) : find (.cons o kids rest) =
      .cons ⟨o.view, name, Property.ofScope o kids⟩ (find kids) (find kids ++ find rest) := by
  simp only [find, h]

/-- Only the elements count in a search. -/
theorem Property.inside_elements : ∀ f : Forest Occurrence, f.Parted → inside f.elements = inside f
  | .nil, _ => rfl
  | .cons o .nil rest, h => by
    rw [Forest.elements, inside_of_empty h.1, inside_elements rest h.2]
    rfl
  | .cons o (.cons slot inner parts) rest, h => by
    obtain ⟨hslot, hinner, ⟨hnone, hparts⟩, hrest⟩ := h
    have hkids : inside (.cons slot inner parts) = inside inner.elements := by
      rw [inside_of_empty hslot, inside_elements inner hinner, ← inside_elements parts hparts, hnone]
      exact List.append_nil _
    rw [Forest.elements, inside, inside, hkids, inside_elements rest hrest]

theorem Property.inside_kids {o slot : Occurrence} {inner parts rest : Forest Occurrence}
    (h : (Forest.cons o (.cons slot inner parts) rest).Parted) :
    inside (.cons slot inner parts) = inside inner.elements := by
  obtain ⟨hslot, hinner, ⟨hnone, hparts⟩, -⟩ := h
  rw [inside_of_empty hslot, inside_elements inner hinner, ← inside_elements parts hparts, hnone]
  exact List.append_nil _

theorem Scope.find_elements : ∀ f : Forest Occurrence, f.Parted → find f.elements = find f
  | .nil, _ => rfl
  | .cons o .nil rest, h => by
    rw [Forest.elements, find_of_none (Occurrence.attribute?_of_empty h.1 _), find_elements rest h.2]
    rfl
  | .cons o (.cons slot inner parts) rest, h => by
    have hproperties : Property.ofScope o (.cons slot inner parts) =
        Property.ofScope o inner.elements := by
      rw [Property.ofScope, Property.ofScope, Property.inside_kids h]
    obtain ⟨hslot, hinner, ⟨hnone, hparts⟩, hrest⟩ := h
    have hkids : find (.cons slot inner parts) = find inner.elements := by
      rw [find_of_none (Occurrence.attribute?_of_empty hslot _), find_elements inner hinner,
        ← find_elements parts hparts, hnone]
      exact Forest.append_nil _
    rw [Forest.elements]
    cases ho : o.attribute? .scope with
    | none => rw [find_of_none ho, find_of_none ho, hkids, find_elements rest hrest]
    | some name =>
      rw [find_of_some ho, find_of_some ho, hkids, hproperties, find_elements rest hrest]

/-- The nodes that carry a key, with what they give it. -/
def keyed (key : AttrKey) (os : List Occurrence) : List (Text × View) :=
  os.filterMap fun o => (o.attribute? key).map (·, o.view)

theorem ofOccurrences_eq (key : AttrKey) (os : List Occurrence) :
    NamedViews.ofOccurrences key os =
      (keyed key os).foldl (fun found e => NamedViews.insert e.1 e.2 found) [] := by
  rw [NamedViews.ofOccurrences, keyed, List.foldl_filterMap]
  congr
  funext found o
  cases o.attribute? key <;> rfl

theorem keyed_append (key : AttrKey) (os os' : List Occurrence) :
    keyed key (os ++ os') = keyed key os ++ keyed key os' := List.filterMap_append ..

theorem keyed_tree (key : AttrKey) (o : Occurrence) (kids rest : Forest Occurrence) :
    keyed key (Forest.cons o kids rest).preorder =
      keyed key [o] ++ (keyed key kids.preorder ++ keyed key rest.preorder) := by
  rw [Forest.preorder, ← List.singleton_append, keyed_append, keyed_append]

theorem keyed_of_empty {o : Occurrence} (h : o.node.label.attributes = ∅) (key : AttrKey) :
    keyed key [o] = [] := by
  rw [keyed, List.filterMap_cons, Occurrence.attribute?_of_empty h]
  rfl

theorem keyed_elements (key : AttrKey) : ∀ f : Forest Occurrence, f.Parted →
    keyed key f.elements.preorder = keyed key f.preorder
  | .nil, _ => rfl
  | .cons o .nil rest, h => by
    rw [Forest.elements, keyed_tree, keyed_of_empty h.1, keyed_elements key rest h.2]
    rfl
  | .cons o (.cons slot inner parts) rest, h => by
    obtain ⟨hslot, hinner, ⟨hnone, hparts⟩, hrest⟩ := h
    have hkids : keyed key (Forest.cons slot inner parts).preorder =
        keyed key inner.elements.preorder := by
      rw [keyed_tree, keyed_of_empty hslot, keyed_elements key inner hinner,
        ← keyed_elements key parts hparts, hnone]
      exact List.append_nil _
    rw [Forest.elements, keyed_tree, keyed_tree, hkids, keyed_elements key rest hrest]

/-! Nodes that look alike are found alike. -/

theorem Occurrence.attribute?_of_seen {o o' : Occurrence} (h : o.seen s = o'.seen t)
    (key : AttrKey) : o.attribute? key = o'.attribute? key := by
  have hlabel : o.node.label = o'.node.label := congrArg Prod.fst h
  rw [attribute?, attribute?, hlabel]

theorem Occurrence.property?_of_seen {o o' : Occurrence} (h : o.seen s = o'.seen t) :
    o.property?.toList.map (·.seen s) = o'.property?.toList.map (·.seen t) := by
  have hhtml : o.view.html s = o'.view.html t := congrArg Prod.snd h
  rw [property?, property?, attribute?_of_seen h]
  cases o'.attribute? .prop with
  | none => rfl
  | some name => simp [Property.seen, hhtml]

theorem Property.inside_of_seen (h : f.map (·.seen s) = g.map (·.seen t)) :
    (inside f).map (·.seen s) = (inside g).map (·.seen t) := by
  induction f generalizing g with
  | nil => cases g with
    | nil => rfl
    | cons => cases h
  | cons o kids rest ihk ihr => cases g with
    | nil => cases h
    | cons o' kids' rest' =>
      obtain ⟨ho, hkids, hrest⟩ := Forest.cons.inj h
      have hlabel : o.node.label = o'.node.label := congrArg Prod.fst ho
      rw [inside, inside, hlabel]
      split
      · exact ihr hrest
      · rw [List.map_append, List.map_append, List.map_append, List.map_append, ihk hkids, ihr hrest,
          Occurrence.property?_of_seen ho]

theorem Property.ofScope_of_seen {o o' : Occurrence} (ho : o.seen s = o'.seen t)
    (h : f.map (·.seen s) = g.map (·.seen t)) :
    (ofScope o f).map (·.seen s) = (ofScope o' g).map (·.seen t) := by
  rw [ofScope, ofScope, List.map_append, List.map_append, Occurrence.property?_of_seen ho,
    inside_of_seen h]

theorem Scope.find_of_seen (h : f.map (·.seen s) = g.map (·.seen t)) :
    (find f).map (·.seen s) = (find g).map (·.seen t) := by
  induction f generalizing g with
  | nil => cases g with
    | nil => rfl
    | cons => cases h
  | cons o kids rest ihk ihr => cases g with
    | nil => cases h
    | cons o' kids' rest' =>
      obtain ⟨ho, hkids, hrest⟩ := Forest.cons.inj h
      have hscope := Occurrence.attribute?_of_seen ho .scope
      cases ho' : o'.attribute? .scope with
      | none =>
        rw [find_of_none ho', find_of_none (hscope.trans ho'), Forest.map_append, Forest.map_append,
          ihk hkids, ihr hrest]
      | some name =>
        have hhtml : o.view.html s = o'.view.html t := congrArg Prod.snd ho
        have hself : Scope.seen s ⟨o.view, name, Property.ofScope o kids⟩ =
            Scope.seen t ⟨o'.view, name, Property.ofScope o' kids'⟩ := by
          rw [Scope.seen, Scope.seen, hhtml, Property.ofScope_of_seen ho hkids]
        rw [find_of_some ho', find_of_some (hscope.trans ho'), Forest.map, Forest.map, hself,
          Forest.map_append, Forest.map_append, ihk hkids, ihr hrest]

/-- A name, and what is written inside its node. -/
def NamedViews.seen (s : Store) (e : Text × View) : Text × Text := (e.1, e.2.html s)

theorem NamedViews.insert_of_seen {es es' : NamedViews} {name : Text}
    (hself : seen s (name, v) = seen t (name, w)) (h : es.map (seen s) = es'.map (seen t)) :
    (insert name v es).map (seen s) = (insert name w es').map (seen t) := by
  induction es generalizing es' with
  | nil => cases es' with
    | nil => exact congrArg (fun e => [e]) hself
    | cons => cases h
  | cons e es ih => cases es' with
    | nil => cases h
    | cons e' es' =>
      obtain ⟨he, hrest⟩ := List.cons.inj h
      have hname : e.1 = e'.1 := congrArg (fun p : Text × Text => p.1) he
      rw [insert, insert, hname]
      split
      · exact List.cons_eq_cons.mpr ⟨hself, h⟩
      · split
        · exact List.cons_eq_cons.mpr ⟨hself, hrest⟩
        · exact List.cons_eq_cons.mpr ⟨he, ih hrest⟩

theorem NamedViews.foldl_of_seen {es es' : List (Text × View)} {found found' : NamedViews}
    (h : es.map (seen s) = es'.map (seen t)) (hfound : found.map (seen s) = found'.map (seen t)) :
    (es.foldl (fun found e => insert e.1 e.2 found) found).map (seen s) =
      (es'.foldl (fun found e => insert e.1 e.2 found) found').map (seen t) := by
  induction es generalizing es' found found' with
  | nil => cases es' with
    | nil => exact hfound
    | cons => cases h
  | cons e es ih => cases es' with
    | nil => cases h
    | cons e' es' =>
      obtain ⟨he, hrest⟩ := List.cons.inj h
      obtain ⟨name, v⟩ := e
      obtain ⟨name', w⟩ := e'
      obtain rfl : name = name' := congrArg (fun p : Text × Text => p.1) he
      rw [List.foldl_cons, List.foldl_cons]
      exact ih hrest (insert_of_seen he hfound)

theorem map_seen_keyed (key : AttrKey) (os : List Occurrence) :
    (keyed key os).map (NamedViews.seen s) =
      (os.map (·.seen s)).filterMap fun e => (e.1.attributes.get? key).map (·, e.2) := by
  rw [keyed, List.map_filterMap, List.filterMap_map]
  congr
  funext o
  exact Option.map_map ..

theorem NamedViews.ofOccurrences_of_seen {os os' : List Occurrence}
    (h : os.map (·.seen s) = os'.map (·.seen t)) (key : AttrKey) :
    (ofOccurrences key os).map (seen s) = (ofOccurrences key os').map (seen t) := by
  rw [ofOccurrences_eq, ofOccurrences_eq]
  refine foldl_of_seen ?_ rfl
  rw [map_seen_keyed, map_seen_keyed, h]

/-- The properties of the first tree. -/
def Property.ofFirst : Forest Occurrence → List Property
  | .nil => []
  | .cons o kids _ => ofScope o kids

theorem Property.ofFirst_of_seen (hf : f.Parted) (hg : g.Parted)
    (hbegins : (f.map (·.node.label)).BeginsLike (g.map (·.node.label)))
    (h : f.elements.map (·.seen s) = g.elements.map (·.seen t)) :
    (ofFirst f).map (·.seen s) = (ofFirst g).map (·.seen t) := by
  obtain ⟨hnil, hapart⟩ := hbegins
  have leaf {o : Occurrence} {rest : Forest Occurrence} (h : (Forest.cons o .nil rest).Parted) :
      ofFirst (.cons o .nil rest) = [] := by
    rw [ofFirst, ofScope, Occurrence.property?_of_empty h.1]
    rfl
  match f, g with
  | .nil, .nil => rfl
  | .nil, .cons .. => exact absurd (hnil.mp rfl) (by simp [Forest.map])
  | .cons .., .nil => exact absurd (hnil.mpr rfl) (by simp [Forest.map])
  | .cons _ .nil _, .cons _ .nil _ => rw [leaf hf, leaf hg]; rfl
  | .cons _ .nil _, .cons _ (.cons ..) _ => exact absurd rfl (hapart.mpr Forest.apart_element _ _)
  | .cons _ (.cons ..) _, .cons _ .nil _ => exact absurd rfl (hapart.mp Forest.apart_element _ _)
  | .cons o (.cons ..) _, .cons o' (.cons ..) _ =>
    obtain ⟨ho, hinner, -⟩ := Forest.cons.inj h
    have hinside := inside_of_seen hinner
    rw [ofFirst, ofFirst, ofScope, ofScope, inside_kids hf, inside_kids hg, List.map_append,
      List.map_append, hinside, Occurrence.property?_of_seen ho]

end Found

namespace View

open Store

theorem properties_eq (hs : s.Sound) (hv : v.focus = none) :
    v.properties s = Property.ofFirst (s.forest v.list) := by
  rw [forest_eq hs.closed hs.acyclic, properties, node?, hv, Option.none_or]
  cases s.list v.list with
  | nil => rfl
  | cons n ns => rfl

theorem html_occurrence (hs : s.Sound) {o slot : Occurrence} {inner parts rest : Forest Occurrence}
    (h : s.Whole (.cons o (.cons slot inner parts) rest)) :
    o.view.html s = (inner.map (·.node.label)).render := by
  obtain ⟨ho, hkids, ⟨hslot, hinner, -, -⟩, -⟩ := h
  have hroots := roots_forest hs o.node.children
  rw [← hkids, ho] at hroots
  have hhead : (s.list (s.node o.id).children).head? = some slot.id := by
    rw [← hroots]
    rfl
  have hslots : (s.node slot.id).children = slot.node.children := by rw [hslot]
  rw [html_eq (inner?_eq_some_iff.mpr ⟨o.id, slot.id, rfl, hhead, hslots⟩), labels, ← hinner]

end View

theorem Forest.seen_elements (hs : s.Sound) : ∀ f : Forest Occurrence, s.Whole f →
    f.elements.map (·.seen s) = (f.map (·.node.label)).shown
  | .nil, _ => rfl
  | .cons o .nil rest, h => seen_elements hs rest h.2.2.2
  | .cons o (.cons slot inner parts) rest, h => by
    have hself : o.seen s = (o.node.label, (inner.map (·.node.label)).render) := by
      rw [Occurrence.seen, View.html_occurrence hs h]
    obtain ⟨-, -, ⟨-, -, hinner, -⟩, hrest⟩ := h
    rw [elements, map, map, map, shown, hself, seen_elements hs inner hinner,
      seen_elements hs rest hrest]

namespace View

theorem html_scope (v : View) (s : Store) (name : Text) : (v.scope s name).map (·.html s) =
    ((((v.scopes s).map (·.seen s)).roots.filter (·.1 = name)).map (·.2.1)) := by
  rw [scope, Forest.roots_map, List.filter_map, List.map_map, List.map_map]
  rfl

theorem html_property (v : View) (s : Store) (scopeName name : Text) :
    (v.property s scopeName name).map (·.html s) =
      (((v.scopes s).map (·.seen s)).roots.find? (·.1 = scopeName)).elim [] fun a =>
        (a.2.2.filter (·.1 = name)).map (·.2) := by
  have hfirst : ((v.scopes s).map (·.seen s)).roots.find? (·.1 = scopeName) =
      (v.firstScope? s scopeName).map (·.seen s) := by
    rw [Forest.roots_map, List.find?_map]
    rfl
  rw [hfirst, property]
  cases v.firstScope? s scopeName with
  | none => rfl
  | some a =>
    simp only [Option.map_some, Option.elim_some, Scope.seen, List.filter_map, List.map_map]
    rfl

/-- The views find the same, by the same names and nested in the same way, and show the same inside what
they find. -/
structure FindsAlike (v : View) (s : Store) (w : View) (t : Store) : Prop where
  scopes : (v.scopes s).map (·.seen s) = (w.scopes t).map (·.seen t)
  scope : ∀ name, (v.scope s name).map (·.html s) = (w.scope t name).map (·.html t)
  properties : (v.properties s).map (·.seen s) = (w.properties t).map (·.seen t)
  property : ∀ scopeName name, (v.property s scopeName name).map (·.html s) =
    (w.property t scopeName name).map (·.html t)
  named : ∀ key, (v.named s key).map (NamedViews.seen s) = (w.named t key).map (NamedViews.seen t)

theorem findsAlike (hs : s.Sound) (ht : t.Sound) (hv : v.focus = none) (hw : w.focus = none)
    (hf : s.Whole (s.forest v.list)) (hg : t.Whole (t.forest w.list))
    (hm : s.labels v.list = m.forest) (hm' : t.labels w.list = m'.forest)
    (hbegins : m.forest.BeginsLike m'.forest) (hshown : m.forest.shown = m'.forest.shown) :
    v.FindsAlike s w t := by
  have hparted : (s.forest v.list).Parted := Forest.parted_of_map hm
  have hparted' : (t.forest w.list).Parted := Forest.parted_of_map hm'
  have hseen : (s.forest v.list).elements.map (·.seen s) =
      (t.forest w.list).elements.map (·.seen t) := by
    rw [Forest.seen_elements hs _ hf, Forest.seen_elements ht _ hg]
    exact (congrArg Forest.shown hm).trans (hshown.trans (congrArg Forest.shown hm').symm)
  have hscopes : (v.scopes s).map (·.seen s) = (w.scopes t).map (·.seen t) := by
    rw [scopes, scopes, ← Scope.find_elements _ hparted, ← Scope.find_elements _ hparted']
    exact Scope.find_of_seen hseen
  refine ⟨hscopes, fun name => ?_, ?_, fun scopeName name => ?_, fun key => ?_⟩
  · rw [html_scope, html_scope, hscopes]
  · rw [properties_eq hs hv, properties_eq ht hw]
    refine Property.ofFirst_of_seen hparted hparted' ?_ hseen
    rw [← hm, ← hm'] at hbegins
    exact hbegins
  · rw [html_property, html_property, hscopes]
  · have hpreorder := congrArg Forest.preorder hseen
    rw [Forest.preorder_map, Forest.preorder_map] at hpreorder
    have hkeyed := NamedViews.ofOccurrences_of_seen hpreorder key
    rw [ofOccurrences_eq, ofOccurrences_eq, keyed_elements key _ hparted,
      keyed_elements key _ hparted', ← ofOccurrences_eq, ← ofOccurrences_eq] at hkeyed
    exact hkeyed

end View
end TemplateTree
