import TemplateTree.Proofs.Markup.Outcome
import TemplateTree.Proofs.Token.Names

/-! The bound elements of markup as a forest of tags, without the text around them. It depends only on
the start tags and on how many elements are open at each of them. -/
namespace TemplateTree

open FlatScan (Open advance chains names pass)

namespace Forest

universe u
variable {α : Type u} {f g : Forest α} {d : Nat} {xs ys : List (Nat × α)}

/-- The deepest level. -/
def height : Forest α → Nat
  | nil => 0
  | cons _ kids rest => max (height kids + 1) (height rest)

/-- What comes behind a row lies further out. -/
def Outside (d : Nat) (xs : List (Nat × α)) : Prop := ∀ r ∈ xs.head?, r.1 < d

theorem outside_rows (h : Outside d xs) (f : Forest α) : Outside (d + 1) (f.rows d ++ xs) := by
  cases f with
  | nil =>
    intro r hr
    exact Nat.lt_succ_of_lt (h r hr)
  | cons a kids rest =>
    intro r hr
    simp only [rows, List.cons_append, List.head?_cons, Option.mem_def, Option.some.injEq] at hr
    rw [← hr]
    exact Nat.lt_succ_self d

theorem rows_append_cancel (hx : Outside d xs) (hy : Outside d ys)
    (h : f.rows d ++ xs = g.rows d ++ ys) : f = g ∧ xs = ys := by
  induction f generalizing g d xs ys with
  | nil =>
    cases g with
    | nil => exact ⟨rfl, h⟩
    | cons b kids rest =>
      have hhead : (d, b) ∈ xs.head? := by
        rw [rows, List.nil_append] at h
        simp [h, rows]
      exact absurd (hx _ hhead) (Nat.lt_irrefl d)
  | cons a kids rest ihk ihr =>
    cases g with
    | nil =>
      have hhead : (d, a) ∈ ys.head? := by
        have hys : ys = (Forest.cons a kids rest).rows d ++ xs := by
          rw [h]
          rfl
        simp [hys, rows]
      exact absurd (hy _ hhead) (Nat.lt_irrefl d)
    | cons b kids' rest' =>
      simp only [rows, List.cons_append, List.append_assoc, List.cons.injEq, Prod.mk.injEq] at h
      obtain ⟨⟨-, hab⟩, htail⟩ := h
      obtain ⟨hkids, hrest⟩ := ihk (outside_rows hx rest) (outside_rows hy rest') htail
      obtain ⟨hrest, hxy⟩ := ihr hx hy hrest
      rw [hab, hkids, hrest]
      exact ⟨rfl, hxy⟩

/-- A forest is known by its labels and their depths. -/
theorem rows_injective (h : f.rows d = g.rows d) : f = g := by
  have hnone : Outside d ([] : List (Nat × α)) := by
    intro r hr
    cases hr
  exact (rows_append_cancel hnone hnone (congrArg (· ++ []) h)).1

end Forest

namespace Markup

/-- The elements with their names and attributes, and how they nest. -/
def bones : Markup → Forest Tag
  | nil => .nil
  | text _ rest => bones rest
  | element tag inner rest => .cons tag (bones inner) (bones rest)

theorem bones_addText (merge : Bool) (source : Text) (m : Markup) :
    (m.addText merge source).bones = m.bones := by
  cases m with
  | nil => rfl
  | text s rest => cases merge <;> rfl
  | element tag inner rest => rfl

theorem height_bones (m : Markup) : m.bones.height = m.nesting := by
  induction m with
  | nil => rfl
  | text s rest ih => exact ih
  | element tag inner rest ihi ihr => rw [bones, Forest.height, nesting, ihi, ihr]

end Markup

/-- True when some tag of the forest is bound. -/
def holdsBinding : Forest Tag → Bool
  | .nil => false
  | .cons tag kids rest => tag.attributes.hasBinding || holdsBinding kids || holdsBinding rest

/-- The forest of the tags that are bound or hold one that is. -/
def keepBound : Forest Tag → Forest Tag
  | .nil => .nil
  | .cons tag kids rest =>
    if tag.attributes.hasBinding || holdsBinding kids then .cons tag (keepBound kids) (keepBound rest)
    else keepBound rest

namespace Elements

variable {decode : Bool}

/-- All elements of a row, bound or not. -/
def skeleton (decode : Bool) : Elements → Forest Tag
  | nil => .nil
  | raw _ _ rest => skeleton decode rest
  | stray _ rest => skeleton decode rest
  | element t inner _ rest =>
    .cons (Tag.ofStart decode t) (skeleton decode inner) (skeleton decode rest)

theorem holdsBinding_skeleton (decode : Bool) (es : Elements) :
    holdsBinding (es.skeleton decode) = es.isBound := by
  induction es with
  | nil => rfl
  | raw o s rest ih => exact ih
  | stray e rest ih => exact ih
  | element t inner close rest ihi ihr =>
    rw [skeleton, holdsBinding, isBound, ihi, ihr, Tag.hasBinding_ofStart]

/-- The elements of the markup are the bound ones. -/
theorem bones_ofElements (config : Config) (es : Elements) :
    (Markup.ofElements config es).bones = keepBound (es.skeleton config.decode) := by
  induction es with
  | nil => rfl
  | raw o s rest ih =>
    rw [Markup.ofElements, Markup.bones_addText]
    exact ih
  | stray e rest ih =>
    rw [Markup.ofElements, Markup.bones_addText]
    exact ih
  | element t inner close rest ihi ihr =>
    rw [Markup.ofElements, skeleton, keepBound, Tag.hasBinding_ofStart, holdsBinding_skeleton]
    by_cases hb : (t.isBound || inner.isBound) = true
    · rw [if_pos hb, if_pos hb, Markup.bones, ihi, ihr]
    · rw [if_neg hb, if_neg hb, Markup.bones_addText, ihr]

/-- The tags of the markup are start tags of the tokens. -/
theorem tag_of_bones {config : Config} {es : Elements} {tag : Tag}
    (h : tag ∈ (Markup.ofElements config es).bones.preorder) :
    ∃ t, Token.start t ∈ es.tokens ∧ tag = Tag.ofStart config.decode t := by
  induction es with
  | nil => cases h
  | raw o source rest ih =>
    rw [Markup.ofElements, Markup.bones_addText] at h
    obtain ⟨t, ht, htag⟩ := ih h
    exact ⟨t, List.mem_cons_of_mem _ ht, htag⟩
  | stray e rest ih =>
    rw [Markup.ofElements, Markup.bones_addText] at h
    obtain ⟨t, ht, htag⟩ := ih h
    exact ⟨t, List.mem_cons_of_mem _ ht, htag⟩
  | element t inner close rest ihi ihr =>
    have beside : tag ∈ (Markup.ofElements config rest).bones.preorder →
        ∃ u, Token.start u ∈ (element t inner close rest).tokens ∧
          tag = Tag.ofStart config.decode u := by
      intro h
      obtain ⟨u, hu, htag⟩ := ihr h
      exact ⟨u, by simp [tokens, hu], htag⟩
    rw [Markup.ofElements] at h
    split at h
    · rcases Forest.mem_preorder_cons.mp h with rfl | h | h
      · exact ⟨t, by simp [tokens], rfl⟩
      · obtain ⟨u, hu, htag⟩ := ihi h
        exact ⟨u, by simp [tokens, hu], htag⟩
      · exact beside h
    · rw [Markup.bones_addText] at h
      exact beside h

/-- An element is as deep as the number of elements around it. -/
theorem rows_skeleton (decode : Bool) (es : Elements) (os : List Open) :
    (es.skeleton decode).rows os.length =
      (es.chains os).map fun c => (c.around.length, Tag.ofStart decode c.element.tag) := by
  induction es generalizing os with
  | nil => rfl
  | raw o s rest ih => exact ih os
  | stray e rest ih => exact ih os
  | element t inner close rest ihi ihr =>
    let o : Open := ⟨t, t.isBound || inner.isBound⟩
    have hinner : (inner.skeleton decode).rows (os.length + 1) =
        (inner.chains (o :: os)).map fun c => (c.around.length, Tag.ofStart decode c.element.tag) :=
      ihi (o :: os)
    rw [skeleton, Forest.rows, hinner, ihr os, chains, List.map_cons, List.map_append]

end Elements

theorem Markup.canonical_of_parse {m : Markup} {config : Config} {input : Text}
    (h : parse config input = .ok m) : ∀ tag ∈ m.bones.preorder, tag.Canonical := by
  obtain ⟨-, -, rfl⟩ := parse_eq_ok_iff.mp h
  intro tag htag
  obtain ⟨t, ht, rfl⟩ := Elements.tag_of_bones htag
  rw [Elements.tokens_ofTokens] at ht
  exact Tag.canonical_ofStart (StartTag.wellNamed_scanFrom ht) config.decode

namespace FlatScan

variable {decode : Bool} {os : List Open} {ns : List Text} {ts us : List Token}

/-- The start tags with the number of elements that are open at each of them. -/
def startRows (decode : Bool) (ns : List Text) : List Token → List (Nat × Tag)
  | [] => []
  | .start t :: ts => (ns.length, Tag.ofStart decode t) :: startRows decode (pass ns (.start t)) ts
  | .raw o s :: ts => startRows decode (pass ns (.raw o s)) ts
  | .stop e :: ts => startRows decode (pass ns (.stop e)) ts

theorem names_of_advance (os : List Open) (ts : List Token) (tok : Token) :
    names (advance os ts tok) = pass (names os) tok := by
  cases tok with
  | raw o s => rfl
  | start t =>
    rw [advance, pass]
    split <;> rfl
  | stop e =>
    have hdrop : (names os).dropWhile (· ≠ e.key) = names (os.dropWhile (·.tag.key ≠ e.key)) :=
      List.dropWhile_map ..
    rw [advance, pass]
    by_cases he : e.key ∈ names os
    · rw [if_pos he, hdrop]
      cases hd : os.dropWhile (·.tag.key ≠ e.key) with
      | nil => exact absurd he (dropWhile_eq_nil_iff.mp hd)
      | cons o outside => rfl
    · rw [if_neg he, dropWhile_eq_nil_iff.mpr he]

theorem chains_startRows (os : List Open) (ts : List Token) :
    (chains os ts).map (fun c => (c.around.length, Tag.ofStart decode c.element.tag)) =
      startRows decode (names os) ts := by
  induction ts generalizing os with
  | nil => rfl
  | cons tok ts ih =>
    have hrest := ih (advance os ts tok)
    rw [names_of_advance] at hrest
    have hlength : (names os).length = os.length := List.length_map ..
    cases tok with
    | raw o s => exact hrest
    | stop e => exact hrest
    | start t => rw [chains, List.map_cons, hrest, startRows, hlength]

/-- All elements of the tokens, by their start tags. -/
theorem rows_skeleton_ofTokens (decode : Bool) (ts : List Token) :
    ((Elements.ofTokens ts).skeleton decode).rows 0 = startRows decode [] ts := by
  have hrows : ((Elements.ofTokens ts).skeleton decode).rows 0 =
      ((Elements.ofTokens ts).chains []).map fun c => (c.around.length, Tag.ofStart decode c.element.tag) :=
    Elements.rows_skeleton decode _ []
  rw [hrows, chains_ofTokens, chains_startRows]
  rfl

end FlatScan
end TemplateTree
