import TemplateTree.Proofs.Elements.Rows
import TemplateTree.Proofs.Markup.FlatScan
import TemplateTree.Proofs.Markup.Outcome
import TemplateTree.Proofs.Store.Planted
import TemplateTree.Proofs.Store.Shape

/-! Documents without binding points. They are read as texts in one row, whatever the markup is like,
and nothing else is read so. -/
namespace TemplateTree

variable {config : Config} {input : Text} {m : Markup} {s t : Store}

namespace Forest

/-- Trees without children. -/
def IsFlat {α : Type} : Forest α → Prop
  | nil => True
  | cons _ kids rest => kids = nil ∧ IsFlat rest

theorem IsFlat.preorder {α : Type} {f : Forest α} (h : f.IsFlat) : f.preorder = f.roots := by
  induction f with
  | nil => rfl
  | cons a kids rest _ ih =>
    obtain ⟨rfl, hrest⟩ := h
    rw [Forest.preorder, Forest.preorder, List.nil_append, roots, ih hrest]

end Forest

namespace Store

/-- Nodes without children stand for labels without children. -/
theorem Stands.isFlat_iff {ids : Forest NodeId} {f : Forest Label} (h : s.Stands ids f) :
    (∀ n ∈ ids.roots, s.IsLeaf n) ↔ f.IsFlat := by
  induction ids generalizing f with
  | nil => cases f with
    | nil => simp [Forest.roots, Forest.IsFlat]
    | cons => exact h.elim
  | cons n kids rest _ ihr => cases f with
    | nil => exact h.elim
    | cons label kidLabels restLabels =>
      obtain ⟨-, -, -, hroots, hkids, hrest⟩ := h
      have hleaf : s.IsLeaf n ↔ kidLabels = .nil := by
        rw [IsLeaf, hroots]
        cases kids with
        | nil => cases kidLabels with
          | nil => simp [Forest.roots]
          | cons => exact hkids.elim
        | cons => cases kidLabels with
          | nil => exact hkids.elim
          | cons => simp [Forest.roots]
      rw [Forest.roots, List.forall_mem_cons, hleaf, ihr hrest, Forest.IsFlat]

theorem Stands.isFlat_ids {ids : Forest NodeId} {f : Forest Label} (h : s.Stands ids f)
    (hf : f.IsFlat) : ids.IsFlat := by
  induction ids generalizing f with
  | nil => trivial
  | cons n kids rest _ ihr => cases f with
    | nil => exact h.elim
    | cons label kidLabels restLabels =>
      obtain ⟨rfl, hflat⟩ := hf
      obtain ⟨-, -, -, -, hkids, hrest⟩ := h
      cases kids with
      | nil => exact ⟨rfl, ihr hrest hflat⟩
      | cons => exact hkids.elim

theorem Stands.label_mem {ids : Forest NodeId} {f : Forest Label} (h : s.Stands ids f) {n : NodeId}
    (hn : n ∈ ids.roots) : (s.node n).label ∈ f.roots := by
  induction ids generalizing f with
  | nil => simp [Forest.roots] at hn
  | cons m kids rest _ ihr => cases f with
    | nil => exact h.elim
    | cons label kidLabels restLabels =>
      obtain ⟨hlabel, -, -, -, -, hrest⟩ := h
      rcases List.mem_cons.mp hn with rfl | hn
      · exact List.mem_cons.mpr (Or.inl hlabel)
      · exact List.mem_cons.mpr (Or.inr (ihr hrest hn))

theorem stands_plantView (s : Store) (f : Forest Label) :
    (s.plantView f).2.Stands (s.plant f).1 f :=
  s.stands_plantList f

theorem list_plantView (s : Store) (f : Forest Label) :
    (s.plantView f).2.list (s.plantView f).1.list = (s.plant f).1.roots :=
  s.list_plantList f

theorem labels_plantView (s : Store) (f : Forest Label) :
    (s.plantView f).2.labels (s.plantView f).1.list = f :=
  s.labels_plantList f

end Store

namespace Elements

theorem isBound_eq_any (es : Elements) : es.isBound = es.tokens.any Token.isBound := by
  induction es with
  | nil => rfl
  | raw o s rest ih => simpa [isBound, tokens, Token.isBound] using ih
  | stray t rest ih => simpa [isBound, tokens, Token.isBound] using ih
  | element t inner close rest ihi ihr =>
    cases close <;> simp [isBound, tokens, Token.isBound, ihi, ihr, Bool.or_assoc]

theorem isBound_ofTokens_eq_false_iff {ts : List Token} : (ofTokens ts).isBound = false ↔
    ∀ t, Token.start t ∈ ts → t.isBound = false := by
  rw [isBound_eq_any, tokens_ofTokens, List.any_eq_false]
  constructor
  · intro h t ht
    simpa [Token.isBound] using h _ ht
  · intro h k hk
    cases k with
    | start t => simpa [Token.isBound] using h t hk
    | raw | stop => simp [Token.isBound]

theorem tooDeep?_of_unbound {es : Elements} (h : es.isBound = false) (room : Nat) :
    es.tooDeep? room = none := by
  induction es with
  | nil => rfl
  | raw o s rest ih | stray t rest ih => exact ih h
  | element t inner close rest _ ih =>
    rw [isBound, Bool.or_eq_false_iff] at h
    rw [tooDeep?_unbound h.1, ih h.2]

end Elements

namespace Markup

theorem isFlat_addText (merge : Bool) (source : Text) (m : Markup) :
    (m.addText merge source).forest.IsFlat ↔ m.forest.IsFlat := by
  cases m with
  | nil => simp [addText, forest, Forest.IsFlat]
  | text s rest => cases merge <;> simp [addText, forest, Forest.IsFlat]
  | element tag inner rest => simp [addText, forest, Forest.IsFlat]

/-- A row becomes texts only exactly when nothing in it is bound. -/
theorem isFlat_ofElements (config : Config) (es : Elements) :
    (ofElements config es).forest.IsFlat ↔ es.isBound = false := by
  induction es with
  | nil => simp [ofElements, forest, Forest.IsFlat, Elements.isBound]
  | raw o s rest ih | stray t rest ih => rw [ofElements, isFlat_addText, ih, Elements.isBound]
  | element t inner close rest _ ih =>
    rw [ofElements, Elements.isBound, Bool.or_eq_false_iff, ← ih]
    cases h : (t.isBound || inner.isBound) with
    | true => simp [forest, Forest.IsFlat]
    | false => simp [isFlat_addText]

theorem attributes_of_isFlat (h : m.forest.IsFlat) {l : Label} (hl : l ∈ m.forest.roots) :
    l.attributes = ∅ := by
  induction m with
  | nil => simp [forest, Forest.roots] at hl
  | text source rest ih =>
    rcases List.mem_cons.mp hl with rfl | hl
    · rfl
    · exact ih h.2 hl
  | element tag inner rest => exact absurd h.1 (by simp)

/-- Markup without elements stands as leaves without attributes, and there are no other nodes. -/
theorem leaves_plantView (h : m.forest.IsFlat) (s : Store) :
    let v := (s.plantView m.forest).1
    let t := (s.plantView m.forest).2
    (∀ n ∈ t.list v.list, (t.node n).label.attributes = ∅ ∧ t.IsLeaf n) ∧
      ∀ n, t.HasNode n → s.HasNode n ∨ n ∈ t.list v.list := by
  intro v t
  have hstands := s.stands_plantView m.forest
  rw [s.list_plantView m.forest]
  refine ⟨fun n hn => ⟨?_, hstands.isFlat_iff.mpr h n hn⟩, fun n hn => ?_⟩
  · exact attributes_of_isFlat h (hstands.label_mem hn)
  · rw [← (hstands.isFlat_ids h).preorder]
    exact ((Store.fresh_plantList s m.forest).hasNode n).mp hn

/-- A document in which no start tag carries a binding key is read under every configuration, as leaves
that are written as they stood. Where all roots are leaves, no start tag carries one. -/
theorem parse_unmarked (input : Text) :
    ((∀ tag, Token.start tag ∈ Token.scan input → tag.isBound = false) →
      ∀ (config : Config) (s : Store), ∃ m, parse config input = .ok m ∧
        let v := (s.plantView m.forest).1
        let t := (s.plantView m.forest).2
        v.markup t = input ∧
        (∀ n ∈ t.list v.list, (t.node n).label.attributes = ∅ ∧ t.IsLeaf n) ∧
        ∀ n, t.HasNode n → s.HasNode n ∨ n ∈ t.list v.list) ∧
    ∀ (config : Config) (m : Markup) (s : Store), parse config input = .ok m →
      (∀ n ∈ (s.plantView m.forest).2.list (s.plantView m.forest).1.list,
        (s.plantView m.forest).2.IsLeaf n) →
      ∀ tag, Token.start tag ∈ Token.scan input → tag.isBound = false := by
  rw [← Elements.isBound_ofTokens_eq_false_iff]
  constructor
  · intro h config s
    have hcut : cutOff? (Token.scan input) = none := by
      refine cutOff?_eq_none_iff.mpr (fun tag hcut => ?_)
      have hin : Token.start tag ∈ Token.scan input := List.mem_of_getLast? hcut.1
      have hno := Elements.isBound_ofTokens_eq_false_iff.mp h tag hin
      cases hcut.2.2.symm.trans hno
    refine ⟨_, parse_eq_ok_iff.mpr ⟨hcut, Elements.tooDeep?_of_unbound h _, rfl⟩, ?_, ?_⟩
    · rw [View.markup, s.labels_plantView]
      refine (Elements.render_eq_source h).trans ?_
      rw [Elements.source_ofTokens, Token.sources_scan]
    · exact leaves_plantView ((isFlat_ofElements config _).mpr h) s
  · intro config m s hparse hleaves
    obtain ⟨-, -, rfl⟩ := parse_eq_ok_iff.mp hparse
    rw [s.list_plantView] at hleaves
    exact (isFlat_ofElements config _).mp ((s.stands_plantView _).isFlat_iff.mp hleaves)

/-- Tags that nothing closes or that close nothing stay, at no depth at all. -/
theorem parse_unmarked_stray :
    let input : Text := "<p><b title='<i data-prop=x>'></u><!-- <q data-scope=y".toList
    (∀ tag, Token.start tag ∈ Token.scan input → tag.isBound = false) ∧
      ∀ s : Store, ∃ m, parse { maxDepth := 0 } input = .ok m ∧
        (s.plantView m.forest).1.markup (s.plantView m.forest).2 = input := by
  intro input
  have hunmarked : ∀ tag, Token.start tag ∈ Token.scan input → tag.isBound = false :=
    Elements.isBound_ofTokens_eq_false_iff.mp (by decide +kernel)
  refine ⟨hunmarked, fun s => ?_⟩
  obtain ⟨m, hm, hmarkup, -⟩ := (parse_unmarked input).1 hunmarked { maxDepth := 0 } s
  exact ⟨m, hm, hmarkup⟩

end Markup
end TemplateTree
