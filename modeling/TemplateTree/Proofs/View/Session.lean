import TemplateTree.Proofs.View.Lockstep

/-! A document and its duplicate, each worked on through views of its own. Whatever the order of the
work, neither side shows anything of the other. -/
namespace TemplateTree

open List (Forall₂)

/-- What a side can insert: a text, or nodes that its own views lead to. -/
inductive Pick
  | text (content : Text)
  /-- All nodes of a view's list. -/
  | whole (i : Nat)
  /-- The nodes that views are about. -/
  | nodes (is : List Nat)

def Pick.content (s : Store) (views : List View) : Pick → Content
  | text content => .text content
  | whole i => .nodes ((views[i]?.map fun v => s.list v.list).getD [])
  | nodes is => .nodes (is.filterMap fun i => views[i]?.bind (·.node? s))

/-- What a side can do through a view. -/
inductive Action
  | query (q : Query)
  | duplicate
  | setContent (content : Text)
  | insert (place : Place) (pick : Pick)
  /-- An edit that inserts nothing. -/
  | edit (e : Edit) (h : e.content? = none)

/-- The store after an action, and the views that the side holds then. -/
def Action.apply (v : View) (s : Store) (views : List View) : Action → Store × List View
  | query q => (s, views ++ v.answers s q)
  | duplicate => ((v.duplicate s).2, views ++ [(v.duplicate s).1])
  | setContent content =>
    match v.node? s with
    | none => (s, views)
    | some n => (s.setContent n content, views)
  | insert place pick => ((v.edit s (place.edit (pick.content s views))).1, views)
  | edit e _ => ((v.edit s e).1, views)

/-- An action through one of the views of a side. -/
structure Act where
  view : Nat
  action : Action

/-- A view that the side does not hold does nothing. -/
def Act.apply (a : Act) (s : Store) (views : List View) : Store × List View :=
  match views[a.view]? with
  | none => (s, views)
  | some v => a.action.apply v s views

inductive Side
  | source
  | copy
  deriving DecidableEq, Repr

/-- One store, and the views that each side holds. -/
structure Session where
  store : Store
  views : Side → List View

namespace Session

def step (σ : Session) (side : Side) (a : Act) : Session where
  store := (a.apply σ.store (σ.views side)).1
  views x := if x = side then (a.apply σ.store (σ.views side)).2 else σ.views x

def run (σ : Session) (acts : List (Side × Act)) : Session :=
  acts.foldl (fun σ x => σ.step x.1 x.2) σ

/-- A document is duplicated. Its side may hold other views by then, the other side holds the
duplicate. -/
def ofDuplicate (s : Store) (d : View) (held : List View) : Session where
  store := (d.duplicate s).2
  views
    | .source => d :: held
    | .copy => [(d.duplicate s).1]

end Session

theorem View.InUse.viewRel {s : Store} {v : View} (hv : v.InUse s) :
    (Pairing.inUse s).ViewRel v v := by
  refine ⟨⟨rfl, hv.list⟩, ?_⟩
  cases hf : v.focus with
  | none => exact .none
  | some n => exact .some ⟨rfl, hv.focus n hf⟩

namespace Store.Alike

variable {R : Pairing} {s t : Store} {v w : View} {vs ws : List View} {c c' : Content}

theorem inUse (h : Alike R s t) (hv : R.ViewRel v w) : v.InUse s ∧ w.InUse t := by
  obtain ⟨hl, hm⟩ := h.hasList hv.list
  rcases Related.none_or_some hv.focus with ⟨hf, hg⟩ | ⟨n, n', hf, hg, hnode⟩
  · refine ⟨⟨hl, fun m hn => ?_⟩, hm, fun m hn => ?_⟩
    · cases hf.symm.trans hn
    · cases hg.symm.trans hn
  · refine ⟨⟨hl, fun m hn => ?_⟩, hm, fun m hn => ?_⟩
    · cases hf.symm.trans hn
      exact (h.hasNode hnode).1
    · cases hg.symm.trans hn
      exact (h.hasNode hnode).2

theorem shared (h : Alike R s t) (hc : R.ContentRel c c') :
    (∀ n ∈ c.shared, s.HasNode n) ∧ ∀ n ∈ c'.shared, t.HasNode n := by
  cases hc with
  | text content => simp [Content.shared]
  | nodes hns =>
    simp only [Content.shared]
    induction hns with
    | nil => simp
    | cons hn _ ih =>
      simp only [List.forall_mem_cons]
      exact ⟨⟨(h.hasNode hn).1, ih.1⟩, (h.hasNode hn).2, ih.2⟩

/-- Paired views pick paired content. -/
theorem content (h : Alike R s t) (hviews : Forall₂ R.ViewRel vs ws) (pick : Pick) :
    R.ContentRel (pick.content s vs) (pick.content t ws) := by
  cases pick with
  | text content => exact .text content
  | whole i =>
    refine .nodes ?_
    rcases Related.none_or_some (Related.getElem? hviews i) with ⟨hs, ht⟩ | ⟨v, w, hs, ht, hv⟩
    · rw [hs, ht]
      exact .nil
    · rw [hs, ht]
      exact h.members hv.list
  | nodes is =>
    refine .nodes (List.rel_filterMap ?_ (List.forall₂_same.mpr (fun i _ => rfl)))
    rintro i j rfl
    rcases Related.none_or_some (Related.getElem? hviews i) with ⟨hs, ht⟩ | ⟨v, w, hs, ht, hv⟩
    · simp only [hs, ht]
      exact .none
    · simp only [hs, ht]
      exact h.node? hv

theorem inUse_edit (h : Alike R s t) {e e' : Edit} (he : R.EditRel e e') :
    e.InUse s ∧ e'.InUse t := by
  cases he with
  | same e hnone =>
    refine ⟨fun c hc => ?_, fun c hc => ?_⟩
    · rw [hnone] at hc
      cases hc
    · rw [hnone] at hc
      cases hc
  | insertion place hc =>
    obtain ⟨hs, ht⟩ := h.shared hc
    cases place <;> exact ⟨fun _ hd => by cases hd; exact hs, fun _ hd => by cases hd; exact ht⟩

/-- The pairing after a step, with what it takes to go on. -/
structure Goes (R : Pairing) (s : Store) (R' : Pairing) (r r' : Store × List View) : Prop where
  alike : Alike R' r.1 r'.1
  advance : Advance R s R' r.1
  views : Forall₂ R'.ViewRel r.2 r'.2
  sound : r.1.Sound
  sound' : r'.1.Sound

theorem stays (h : Alike R s t) (hs : s.Sound) (ht : t.Sound) (hviews : Forall₂ R.ViewRel vs ws) :
    Goes R s R (s, vs) (t, ws) :=
  ⟨h, .refl R s, hviews, hs, ht⟩

theorem goes_edit (h : Alike R s t) (hs : s.Sound) (ht : t.Sound) (hviews : Forall₂ R.ViewRel vs ws)
    (hv : R.ViewRel v w) {e e' : Edit} (he : R.EditRel e e') :
    ∃ R', Goes R s R' ((v.edit s e).1, vs) ((w.edit t e').1, ws) := by
  obtain ⟨R', h', hadv⟩ := h.edit hs ht hv he
  obtain ⟨hvs, hwt⟩ := h.inUse hv
  obtain ⟨hes, het⟩ := h.inUse_edit he
  exact ⟨R', h', hadv, hviews.imp (fun _ _ hvw => hvw.mono hadv), View.sound_edit hs hvs hes,
    View.sound_edit ht hwt het⟩

theorem goes_action (h : Alike R s t) (hs : s.Sound) (ht : t.Sound)
    (hviews : Forall₂ R.ViewRel vs ws) (hv : R.ViewRel v w) (a : Action) :
    ∃ R', Goes R s R' (a.apply v s vs) (a.apply w t ws) := by
  cases a with
  | query q =>
    exact ⟨R, h, .refl R s, List.rel_append hviews (h.answers hs ht hv q), hs, ht⟩
  | duplicate =>
    obtain ⟨R', h', hadv, hcopy⟩ := h.duplicate hs ht hv h
    exact ⟨R', h', hadv, List.rel_append (hviews.imp (fun _ _ hvw => hvw.mono hadv)) (.cons hcopy .nil),
      hs.plantList _, ht.plantList _⟩
  | setContent content =>
    rcases h.node?_cases hv with ⟨hn, hm⟩ | ⟨n, n', hn, hm, hnode⟩
    · simp only [Action.apply, hn, hm]
      exact ⟨R, h.stays hs ht hviews⟩
    · simp only [Action.apply, hn, hm]
      exact ⟨R, h.setContent hnode content, Advance.setLabel hnode _, hviews, hs.setLabel _ _,
        ht.setLabel _ _⟩
  | insert place pick =>
    exact h.goes_edit hs ht hviews hv (.insertion place (h.content hviews pick))
  | edit e hnone => exact h.goes_edit hs ht hviews hv (.same e hnone)

/-- One act through paired views. -/
theorem goes (h : Alike R s t) (hs : s.Sound) (ht : t.Sound) (hviews : Forall₂ R.ViewRel vs ws)
    (a : Act) : ∃ R', Goes R s R' (a.apply s vs) (a.apply t ws) := by
  rw [Act.apply, Act.apply]
  rcases Related.none_or_some (Related.getElem? hviews a.view) with ⟨hf, hg⟩ | ⟨v, w, hf, hg, hv⟩
  · rw [hf, hg]
    exact ⟨R, h.stays hs ht hviews⟩
  · rw [hf, hg]
    exact h.goes_action hs ht hviews hv a.action

end Store.Alike

theorem Pairing.Apart.symm {R Q : Pairing} (h : R.Apart Q) : Q.Apart R :=
  ⟨fun ha hb => h.node hb ha, fun ha hb => h.list hb ha⟩

namespace Session

open Store

variable {σ : Session} {alone : Side → Session} {R : Side → Pairing} {root : Side → View}

/-- What a side holds and can reach in `σ` is paired with what it has in `τ`, a session of its
own. -/
structure Follows (σ τ : Session) (x : Side) (v : View) (R : Pairing) : Prop where
  alike : Alike R σ.store τ.store
  root : R.ViewRel v v
  views : Forall₂ R.ViewRel (σ.views x) (τ.views x)
  sound : τ.store.Sound

/-- Each side follows a session in which it works by itself, and the two sides hold nothing in
common. -/
structure Apart (σ : Session) (alone : Side → Session) (root : Side → View) (R : Side → Pairing) :
    Prop where
  follows : ∀ x, Follows σ (alone x) x (root x) (R x)
  apart : ∀ x y, x ≠ y → (R x).Apart (R y)
  sound : σ.store.Sound

/-- The side that acts does so by itself as well, and the other one does not notice. -/
theorem Apart.step (h : Apart σ alone root R) (side : Side) (a : Act) : ∃ R', Apart (σ.step side a)
    (fun x => if x = side then (alone x).step side a else alone x) root R' := by
  have hside := h.follows side
  obtain ⟨R', hgo⟩ := hside.alike.goes h.sound hside.sound hside.views a
  have own : Follows (σ.step side a) ((alone side).step side a) side (root side) R' := by
    refine ⟨hgo.alike, hside.root.mono hgo.advance, ?_, hgo.sound'⟩
    simpa [Session.step] using hgo.views
  have other : ∀ y, y ≠ side →
      Follows (σ.step side a) (alone y) y (root y) (R y) ∧ R'.Apart (R y) := by
    intro y hy
    have hy' := h.follows y
    obtain ⟨halike, hapart⟩ := hy'.alike.of_advance hgo.advance (h.apart side y (Ne.symm hy))
    refine ⟨⟨halike, hy'.root, ?_, hy'.sound⟩, hapart⟩
    simpa [Session.step, hy] using hy'.views
  refine ⟨fun x => if x = side then R' else R x, ?_, ?_, hgo.sound⟩
  · intro x
    by_cases hx : x = side
    · subst hx
      simpa using own
    · simpa [hx] using (other x hx).1
  · intro x y hxy
    by_cases hx : x = side
    · subst hx
      simpa [Ne.symm hxy] using (other y (Ne.symm hxy)).2
    · by_cases hy : y = side
      · subst hy
        simpa [hx] using (other x hx).2.symm
      · simpa [hx, hy] using h.apart x y hxy

theorem Apart.run (h : Apart σ alone root R) (acts : List (Side × Act)) : ∃ R', Apart (σ.run acts)
    (fun x => (alone x).run (acts.filter (·.1 = x))) root R' := by
  induction acts generalizing σ alone R with
  | nil => exact ⟨R, h⟩
  | cons act acts ih =>
    obtain ⟨side, a⟩ := act
    obtain ⟨R', h'⟩ := h.step side a
    obtain ⟨R'', h''⟩ := ih h'
    have halone : (fun x => (alone x).run (((side, a) :: acts).filter (·.1 = x))) = fun x =>
        (if x = side then (alone x).step side a else alone x).run (acts.filter (·.1 = x)) := by
      funext x
      by_cases hx : x = side
      · subst hx
        simp [Session.run]
      · simp [Session.run, hx, Ne.symm hx]
    rw [halone]
    exact ⟨R'', h''⟩

/-- What a side shows is what it shows by itself. -/
theorem Apart.markup (h : Apart σ alone root R) (x : Side) :
    (root x).markup σ.store = (root x).markup (alone x).store ∧
      (σ.views x).map (·.markup σ.store) = ((alone x).views x).map (·.markup (alone x).store) := by
  have hx := h.follows x
  have shown : ∀ {v w : View}, (R x).ViewRel v w → v.markup σ.store = w.markup (alone x).store :=
    fun hv => hx.alike.markup h.sound hx.sound hv
  refine ⟨shown hx.root, ?_⟩
  have hviews : Forall₂ Eq ((σ.views x).map (·.markup σ.store))
      (((alone x).views x).map (·.markup (alone x).store)) :=
    List.rel_map (fun _ _ hv => shown hv) hx.views
  rwa [List.forall₂_eq_eq_eq] at hviews

/-- A document and its duplicate have nothing in common from the start. -/
theorem apart_ofDuplicate {s : Store} {d : View} {held : List View} (hs : s.Sound) (hd : d.InUse s)
    (hheld : ∀ v ∈ held, v.InUse s) : ∃ R, Apart (ofDuplicate s d held)
      (fun _ => ofDuplicate s d held) (fun | .source => d | .copy => (d.duplicate s).1) R ∧
      Advance .empty s (R .copy) (ofDuplicate s d held).store := by
  have hx : s.Extends (d.duplicate s).2 := extends_plantList s _
  have hold := alike_inUse hs.closed hx hx
  have paired : ∀ {v : View}, v.InUse s → (Pairing.inUse s).ViewRel v v := View.InUse.viewRel
  obtain ⟨P, hnew, hadv, hcopy⟩ :=
    (alike_inUse hs.closed (.refl s) (.refl s)).duplicate hs hs (paired hd) (alike_empty s s)
  have hsound : (d.duplicate s).2.Sound := hs.plantList _
  have hapart : (Pairing.inUse s).Apart P := by
    constructor
    · rintro n a b ⟨rfl, hn⟩ hb
      rcases hadv.node_new hb with hb | hb
      · exact hb
      · exact hb hn
    · rintro l a b ⟨rfl, hl⟩ hb
      rcases hadv.list_new hb with hb | hb
      · exact hb
      · exact hb hl
  refine ⟨fun | .source => .inUse s | .copy => P, ⟨?_, ?_, hsound⟩, hadv⟩
  · rintro (_ | _)
    · refine ⟨hold, paired hd, .cons (paired hd) ?_, hsound⟩
      exact List.forall₂_same.mpr (fun v hv => paired (hheld v hv))
    · exact ⟨hnew, hcopy, .cons hcopy .nil, hsound⟩
  · rintro (_ | _) (_ | _) hxy
    · exact absurd rfl hxy
    · exact hapart
    · exact hapart.symm
    · exact absurd rfl hxy

/-- A duplicate shows what its source shows, and all that it reaches is new. After that, whatever is
done on both sides in whatever order, each side shows what it shows when only its own work is
done. -/
theorem markup_run_ofDuplicate {s : Store} {d : View} {held : List View} (hs : s.Sound)
    (hd : d.InUse s) (hheld : ∀ v ∈ held, v.InUse s) (acts : List (Side × Act)) :
    let start := ofDuplicate s d held
    let c := (d.duplicate s).1
    let alone := fun side => start.run (acts.filter (·.1 = side))
    c.markup start.store = d.markup s ∧ d.markup start.store = d.markup s ∧
      (¬ s.HasList c.list ∧ ∀ n, start.store.Reaches c.list n →
        ¬ s.HasNode n ∧ ¬ s.HasList (start.store.node n).children) ∧
      d.markup (start.run acts).store = d.markup (alone .source).store ∧
      c.markup (start.run acts).store = c.markup (alone .copy).store ∧
      ∀ side, ((start.run acts).views side).map (·.markup (start.run acts).store) =
        ((alone side).views side).map (·.markup (alone side).store) := by
  let start := ofDuplicate s d held
  obtain ⟨R, hstart, hnew⟩ := apart_ofDuplicate hs hd hheld
  obtain ⟨R', hrun⟩ := hstart.run acts
  have hx : s.Extends start.store := extends_plantList s _
  have fresh : ∀ {l l'}, (R .copy).list l l' → ¬ s.HasList l := by
    intro l l' hl
    rcases hnew.list_new hl with hl | hl
    · exact hl.elim
    · exact hl
  have hcopy : (R .copy).list (d.duplicate s).1.list (d.duplicate s).1.list :=
    (hstart.follows .copy).root.list
  refine ⟨?_, ?_, ⟨fresh hcopy, ?_⟩, (hrun.markup .source).1, (hrun.markup .copy).1,
    fun side => (hrun.markup side).2⟩
  · exact congrArg Forest.render (labels_plantList s _)
  · have hold := alike_inUse hs.closed hx (.refl s)
    exact congrArg Forest.render (hold.labels hstart.sound hs ⟨rfl, hd.list⟩)
  · intro n hn
    obtain ⟨n', hn'⟩ := (hstart.follows .copy).alike.reaches hcopy hn
    refine ⟨?_, fresh ((hstart.follows .copy).alike.children hn')⟩
    rcases hnew.node_new hn' with hn' | hn'
    · exact hn'.elim
    · exact hn'

/-- The copy is rewritten while its source takes itself in once more. -/
theorem markup_run_paragraph :
    let s := (Operation.parse {} "<p data-scope=a>x</p>".toList).apply .empty
    let d : View := ⟨⟨4⟩, none⟩
    let c := (d.duplicate s).1
    let acts : List (Side × Act) := [(.copy, ⟨0, .edit (.setInner "y".toList) rfl⟩),
      (.source, ⟨0, .query .scopes⟩), (.source, ⟨1, .insert .after (.whole 0)⟩),
      (.copy, ⟨0, .insert .prepend (.text "z".toList)⟩)]
    let done := (ofDuplicate s d []).run acts
    c.markup (ofDuplicate s d []).store = "<p data-scope=\"a\">x</p>".toList ∧
      d.markup done.store = "<p data-scope=\"a\">x</p><p data-scope=\"a\">x</p>".toList ∧
      c.markup done.store = "<p data-scope=\"a\">zy</p>".toList := by
  let s := (Operation.parse {} "<p data-scope=a>x</p>".toList).apply .empty
  let d : View := ⟨⟨4⟩, none⟩
  let acts : List (Side × Act) := [(.copy, ⟨0, .edit (.setInner "y".toList) rfl⟩),
    (.source, ⟨0, .query .scopes⟩), (.source, ⟨1, .insert .after (.whole 0)⟩),
    (.copy, ⟨0, .insert .prepend (.text "z".toList)⟩)]
  have hs : s.Sound := sound_empty.run (run_apply .empty (.parse {} _) trivial)
  have hd : d.InUse s := ⟨(by decide +kernel : 4 < s.lists.size), fun n hn => by cases hn⟩
  have hheld : ∀ v ∈ ([] : List View), v.InUse s := by simp
  obtain ⟨hsame, -, -, hsource, hcopy, -⟩ := markup_run_ofDuplicate hs hd hheld acts
  exact ⟨hsame.trans (by decide +kernel), hsource.trans (by decide +kernel),
    hcopy.trans (by decide +kernel)⟩

end Session
end TemplateTree
