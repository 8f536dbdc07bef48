import TemplateTree.Proofs.View.Shape
import TemplateTree.Proofs.View.Session
import TemplateTree.Proofs.Markup.Bones

/-! Documents under edits. Whatever is parsed, found, copied and edited, and in whatever order, an element
stays an element, with the slot and the closer that it was made with. -/
namespace TemplateTree

open Relation (ReflTransGen)

variable {s : Store} {n : NodeId} {p : Parts} {L : Layout}

namespace Markup

variable {m : Markup}

/-- The forest of markup is a row of leaves and elements. -/
theorem shaped_forest (h : ∀ tag ∈ m.bones.preorder, tag.Canonical) :
    m.forest.Shaped id (fun _ => True) (fun _ => True) := by
  induction m with
  | nil => exact .nil
  | text source rest ih => exact .leaf trivial (ih h)
  | element tag inner rest ihi ihr =>
    have htag := h tag (Forest.mem_preorder_cons.mpr (Or.inl rfl))
    have hinner := ihi (fun u hu => h u (Forest.mem_preorder_cons.mpr (Or.inr (Or.inl hu))))
    have hrest := ihr (fun u hu => h u (Forest.mem_preorder_cons.mpr (Or.inr (Or.inr hu))))
    let close := if tag.isVoid then none else some (Label.leaf (closer tag.name))
    have hclose : (if tag.isVoid then Forest.nil else .cons (Label.leaf (closer tag.name)) .nil .nil) =
        .leaves close.toList := by
      cases hv : tag.isVoid <;> simp [close, hv] <;> rfl
    rw [forest, hclose]
    refine .element tag trivial trivial (fun _ _ => trivial) ?_ hinner hrest
    exact ⟨htag.name, htag.slash, rfl, rfl, Option.map_id_apply ..⟩

end Markup

/-- What a document does by itself. A walk over all nodes also gives slots and closers, and the content
of a node can be set to anything; both are for those who handle nodes. -/
def Action.Ordinary : Action → Prop
  | .query q => q ≠ .nodes
  | .setContent _ => False
  | _ => True

/-- What can be done with documents. -/
inductive Move
  | parse (config : Config) (input : Text)
  | parseBytes (config : Config) (bytes : List UInt8)
  /-- A document without nodes. -/
  | blank
  /-- Something done through a view that is held. -/
  | act (a : Act)

def Move.Ordinary : Move → Prop
  | act a => a.action.Ordinary
  | _ => True

/-- A store, and the views of it that are held. -/
structure Workspace where
  store : Store
  views : List View

namespace Workspace

def empty : Workspace := ⟨.empty, []⟩

/-- One more view is held. -/
def hold (w : Workspace) (x : View × Store) : Workspace := ⟨x.2, w.views ++ [x.1]⟩

/-- A failed parse gives no document. -/
def holdParsed (w : Workspace) : Except ParseError Markup → Workspace
  | .ok m => w.hold (w.store.plantView m.forest)
  | .error _ => w

def move (w : Workspace) : Move → Workspace
  | .parse config input => w.holdParsed (Markup.parse config input)
  | .parseBytes config bytes => w.holdParsed (Markup.parseBytes config bytes)
  | .blank => w.hold (w.store.plantView .nil)
  | .act a => ⟨(a.apply w.store w.views).1, (a.apply w.store w.views).2⟩

def Step (w x : Workspace) : Prop := ∃ m : Move, m.Ordinary ∧ x = w.move m

def Run : Workspace → Workspace → Prop := ReflTransGen Step

theorem run_moves (w : Workspace) (ms : List Move) (h : ∀ m ∈ ms, m.Ordinary) :
    w.Run (ms.foldl move w) := by
  induction ms generalizing w with
  | nil => exact .refl
  | cons m ms ih =>
    exact .head ⟨m, h m List.mem_cons_self, rfl⟩ (ih _ (fun k hk => h k (List.mem_cons_of_mem m hk)))

/-- Nodes in the list of a view, nodes that a view is about, and nodes inside elements among these. -/
inductive Item (w : Workspace) : NodeId → Prop
  | listed {v : View} {n : NodeId} (hv : v ∈ w.views) (hn : n ∈ w.store.list v.list) : Item w n
  | focused {v : View} {n : NodeId} (hv : v ∈ w.views) (hn : v.focus = some n) : Item w n
  | inside {n m : NodeId} {p : Parts} (hn : Item w n) (hp : w.store.IsElement n p)
    (hm : m ∈ w.store.list (w.store.node p.slot).children) : Item w m

/-- The layout fits the store, and the views that are held are about its items. -/
structure Keeps (w : Workspace) (L : Layout) : Prop where
  fits : L.Fits w.store
  sound : w.store.Sound
  admits : ∀ v ∈ w.views, L.Admits v

variable {w x : Workspace} {L L' : Layout} {v : View} {n : NodeId} {p : Parts}

theorem keeps_empty : empty.Keeps ⟨fun _ => False, fun _ => False⟩ where
  fits := ⟨fun _ h => h.elim, fun _ h => h.elim, fun _ h => h.elim, fun _ h => h.elim,
    fun _ h => h.elim⟩
  sound := Store.sound_empty
  admits _ hv := absurd hv List.not_mem_nil

/-- What can be reached from the views are items of the layout. -/
theorem Keeps.item (h : w.Keeps L) (hn : w.Item n) : L.item n := by
  induction hn with
  | listed hv hn => exact h.fits.members _ (h.admits _ hv).list _ hn
  | focused hv hn => exact (h.admits _ hv).focus _ hn
  | inside _ hp hm ih => exact h.fits.members _ (h.fits.guards ih hp).inner _ hm

/-- The store has changed as the layout allows, and one more view is held. -/
theorem Keeps.hold (h : w.Keeps L) {x : View × Store} (hx : L.Leads w.store L' x.2) (hs : x.2.Sound)
    (hv : L'.Admits x.1) : (w.hold x).Keeps L' := by
  refine ⟨hx.fits, hs, fun v hmem => ?_⟩
  rcases List.mem_append.mp hmem with hmem | hmem
  · exact (h.admits v hmem).mono hx
  · rw [List.mem_singleton.mp hmem]
    exact hv

theorem Keeps.plantView (h : w.Keeps L) {f : Forest Label}
    (hf : f.Shaped id (fun _ => True) (fun _ => True)) :
    ∃ L', L.Leads w.store L' (w.hold (w.store.plantView f)).store ∧
      (w.hold (w.store.plantView f)).Keeps L' := by
  obtain ⟨L', hleads, hrow, -⟩ := h.fits.plantList h.sound hf
  rw [Forest.map_id] at hleads hrow
  exact ⟨L', hleads, h.hold hleads (h.sound.plantList f) ⟨hrow, fun n hn => by cases hn⟩⟩

theorem Keeps.holdParsed (h : w.Keeps L) {r : Except ParseError Markup}
    (hr : ∀ m, r = .ok m → ∃ config input, Markup.parse config input = .ok m) :
    ∃ L', L.Leads w.store L' (w.holdParsed r).store ∧ (w.holdParsed r).Keeps L' := by
  cases r with
  | error => exact ⟨L, .refl h.fits, h⟩
  | ok m =>
    obtain ⟨config, input, hparse⟩ := hr m rfl
    exact h.plantView (Markup.shaped_forest (Markup.canonical_of_parse hparse))

/-- What is picked from the views are items. -/
theorem Keeps.content (h : w.Keeps L) (pick : Pick) :
    ∀ n ∈ (pick.content w.store w.views).shared, L.item n := by
  intro n hn
  cases pick with
  | text content => cases hn
  | whole i =>
    simp only [Pick.content, Content.shared] at hn
    cases hv : w.views[i]? with
    | none => simp [hv] at hn
    | some v =>
      rw [hv] at hn
      exact h.fits.members v.list (h.admits v (List.mem_of_getElem? hv)).list n hn
  | nodes is =>
    obtain ⟨i, -, hi⟩ := List.mem_filterMap.mp hn
    obtain ⟨v, hv, hnode⟩ := Option.bind_eq_some_iff.mp hi
    exact h.fits.node? (h.admits v (List.mem_of_getElem? hv)) hnode

theorem Keeps.edit (h : w.Keeps L) (hv : L.Admits v) {e : Edit} (he : L.Supplies e) :
    ∃ L', L.Leads w.store L' (v.edit w.store e).1 ∧
      (Workspace.mk (v.edit w.store e).1 w.views).Keeps L' := by
  obtain ⟨L', hleads⟩ := h.fits.edit h.sound hv he
  have hin : e.InUse w.store := fun c hc n hn => h.fits.hasNode n (he c hc n hn)
  exact ⟨L', hleads, hleads.fits, View.sound_edit h.sound (hv.inUse h.fits) hin,
    fun u hu => (h.admits u hu).mono hleads⟩

theorem supplies_place {c : Content} (hc : ∀ n ∈ c.shared, L.item n) (place : Place) :
    L.Supplies (place.edit c) := by
  intro d hd
  have hcd : c = d := by cases place <;> exact Option.some.inj hd
  rw [← hcd]
  exact hc

theorem Keeps.action (h : w.Keeps L) (hv : L.Admits v) {a : Action} (ha : a.Ordinary) :
    ∃ L', L.Leads w.store L' (a.apply v w.store w.views).1 ∧
      (Workspace.mk (a.apply v w.store w.views).1 (a.apply v w.store w.views).2).Keeps L' := by
  cases a with
  | query q =>
    refine ⟨L, .refl h.fits, h.fits, h.sound, fun u hu => ?_⟩
    rcases List.mem_append.mp hu with hu | hu
    · exact h.admits u hu
    · exact h.fits.answers h.sound hv ha hu
  | duplicate =>
    obtain ⟨L', hleads, hcopy⟩ := h.fits.duplicate h.sound hv
    exact ⟨L', hleads, h.hold hleads (h.sound.plantList _) hcopy⟩
  | setContent content => exact ha.elim
  | insert place pick => exact h.edit hv (supplies_place (h.content pick) place)
  | edit e hnone =>
    refine h.edit hv (fun c hc => ?_)
    rw [hnone] at hc
    cases hc

/-- One move: elements stay what they were, and the views lead to items only. -/
theorem Keeps.step (h : w.Keeps L) (hx : w.Step x) : ∃ L', L.Leads w.store L' x.store ∧ x.Keeps L' := by
  obtain ⟨m, hm, rfl⟩ := hx
  cases m with
  | parse config input => exact h.holdParsed (fun m hr => ⟨config, input, hr⟩)
  | parseBytes config bytes =>
    refine h.holdParsed (fun m hr => ?_)
    rw [Markup.parseBytes] at hr
    split at hr
    · cases hr
    · next input _ => exact ⟨config, input, hr⟩
  | blank => exact h.plantView .nil
  | act a =>
    simp only [move, Act.apply]
    split
    · exact ⟨L, .refl h.fits, h⟩
    · next v hv => exact h.action (h.admits v (List.mem_of_getElem? hv)) hm

theorem Keeps.run (h : w.Keeps L) (hx : w.Run x) : ∃ L', L.Leads w.store L' x.store ∧ x.Keeps L' := by
  induction hx with
  | refl => exact ⟨L, .refl h.fits, h⟩
  | tail _ hstep ih =>
    obtain ⟨L₁, hleads, hkeeps⟩ := ih
    obtain ⟨L₂, hleads', hkeeps'⟩ := hkeeps.step hstep
    exact ⟨L₂, hleads.trans hleads', hkeeps'⟩

/-- The list of an item's children is never written to, whatever the edit and whatever it inserts. -/
theorem Keeps.untouched (h : w.Keeps L) (hn : L.item n) (hv : v ∈ w.views) (e : Edit) :
    v.written? w.store e ≠ some (w.store.node n).children ∧
      (v.edit w.store e).1.list (w.store.node n).children = w.store.list (w.store.node n).children := by
  have hno : v.written? w.store e ≠ some (w.store.node n).children :=
    fun hl => h.fits.children n hn (h.fits.row_written? (h.admits v hv) hl)
  exact ⟨hno, View.list_edit_of_ne (h.sound.closed.children n (h.fits.hasNode n hn)) hno⟩

/-- Each node that documents show is a leaf or an element, and stays what it is whatever is done later.
An element keeps its slot and its closer, which are bare and which no view leads to; it is written as
its opening tag, the nodes inside and its closing tag. The list of its children is never written to. -/
theorem shape_run (hw : empty.Run w) (hx : w.Run x) (hn : w.Item n) :
    (w.store.IsLeaf n ∧ x.store.IsLeaf n ∨
      ∃ p, w.store.IsElement n p ∧ x.store.IsElement n p ∧
        (¬ x.Item p.slot ∧ ∀ c ∈ p.closer, ¬ x.Item c) ∧
        let tag := p.tag (x.store.node n).label.attributes
        x.store.renderNode n = tag.opening ++
          ((x.store.list (x.store.node p.slot).children).flatMap x.store.renderNode ++
            if tag.isVoid then [] else Markup.closer tag.name)) ∧
    ∀ v ∈ x.views, v.markup x.store = (x.store.list v.list).flatMap x.store.renderNode ∧
      ∀ e : Edit, v.written? x.store e ≠ some (x.store.node n).children ∧
        (v.edit x.store e).1.list (x.store.node n).children =
          x.store.list (x.store.node n).children := by
  obtain ⟨L, -, hkeeps⟩ := keeps_empty.run hw
  obtain ⟨L', hleads, hkeeps'⟩ := hkeeps.run hx
  have hitem := hkeeps.item hn
  have hitem' := hleads.item n hitem
  constructor
  · rcases hkeeps.fits.shape n hitem with hleaf | ⟨p, hp, -⟩
    · exact Or.inl ⟨hleaf, hleads.leaf n hitem hleaf⟩
    · have hp' := hleads.element n p hitem hp
      have hguards := hkeeps'.fits.guards hitem' hp'
      refine Or.inr ⟨p, hp, hp', ⟨?_, ?_⟩, ?_⟩
      · exact fun hslot => hguards.slot (hkeeps'.item hslot)
      · exact fun c hc hcloser => (hguards.closer c hc).1 (hkeeps'.item hcloser)
      · have hrender := hp'.renderNode hkeeps'.sound
        rwa [Store.render_labels hkeeps'.sound] at hrender
  · intro v hv
    exact ⟨Store.render_labels hkeeps'.sound v.list, hkeeps'.untouched hitem' hv⟩

/-- A paragraph is filled and marked, and its copy is put behind it and into it. -/
theorem shape_run_paragraph :
    let w := empty.move (.parse {} "<p data-scope=a>x</p>".toList)
    let moves : List Move := [.act ⟨0, .query (.scope "a".toList)⟩,
      .act ⟨1, .insert .append (.text "y".toList)⟩,
      .act ⟨1, .edit (.setAttribute (.other "class".toList) "b".toList) rfl⟩,
      .act ⟨0, .duplicate⟩, .act ⟨1, .insert .after (.whole 2)⟩, .act ⟨1, .insert .append (.nodes [2])⟩]
    let x := moves.foldl move w
    let root : NodeId := ⟨3⟩
    (∃ p, w.store.IsElement root p ∧ x.store.IsElement root p) ∧
      View.written? ⟨⟨4⟩, none⟩ x.store .clear ≠ some (x.store.node root).children ∧
      x.store.renderNode root =
        "<p data-scope=\"a\" class=\"b\">xy<p data-scope=\"a\" class=\"b\">xy</p></p>".toList := by
  let w := empty.move (.parse {} "<p data-scope=a>x</p>".toList)
  let moves : List Move := [.act ⟨0, .query (.scope "a".toList)⟩,
    .act ⟨1, .insert .append (.text "y".toList)⟩,
    .act ⟨1, .edit (.setAttribute (.other "class".toList) "b".toList) rfl⟩,
    .act ⟨0, .duplicate⟩, .act ⟨1, .insert .after (.whole 2)⟩, .act ⟨1, .insert .append (.nodes [2])⟩]
  let x := moves.foldl move w
  let root : NodeId := ⟨3⟩
  have hw : empty.Run w := .single ⟨.parse {} "<p data-scope=a>x</p>".toList, trivial, rfl⟩
  have hx : w.Run x := run_moves w moves (by simp [moves, Move.Ordinary, Action.Ordinary])
  have hroot : root ∈ w.store.list ⟨4⟩ := by decide +kernel
  have hdoc : (⟨⟨4⟩, none⟩ : View) ∈ w.views := by decide +kernel
  have hdoc' : (⟨⟨4⟩, none⟩ : View) ∈ x.views := by decide +kernel
  obtain ⟨hshape, hviews⟩ := shape_run hw hx (.listed hdoc hroot)
  refine ⟨?_, ((hviews _ hdoc').2 .clear).1, by decide +kernel⟩
  rcases hshape with ⟨hleaf, -⟩ | ⟨p, hp, hp', -⟩
  · have hno : w.store.list (w.store.node root).children ≠ [] := by decide +kernel
    exact absurd hleaf hno
  · exact ⟨p, hp, hp'⟩

end Workspace
end TemplateTree
