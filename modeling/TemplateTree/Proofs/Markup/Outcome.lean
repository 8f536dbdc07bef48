import TemplateTree.Proofs.Markup.Chains
import TemplateTree.Proofs.Markup.RoundTrip
import TemplateTree.Proofs.Token.Place

/-! What parsing comes to: a bound tag that is cut off, an element with too many bound elements on
its chain, or markup that is no deeper than the limit allows. -/
namespace TemplateTree

open FlatScan (Open chains)

variable {config : Config} {es : Elements} {m : Markup} {os : List Open} {input : Text} {room : Nat}

namespace Elements

theorem chains_unbound (h : es.isBound = false) (os : List Open) :
    ∀ c ∈ es.chains os, c.element.bound = false := by
  induction es generalizing os with
  | nil => simp [chains]
  | raw o s rest ih => exact ih h os
  | stray e rest ih => exact ih h os
  | element t inner close rest ihi ihr =>
    rw [isBound, Bool.or_eq_false_iff] at h
    intro c hc
    rw [chains, List.mem_cons, List.mem_append] at hc
    rcases hc with rfl | hc | hc
    · exact h.1
    · exact ihi (Bool.or_eq_false_iff.mp h.1).2 _ c hc
    · exact ihr h.2 _ c hc

section
variable {t : StartTag} {inner : Elements}

theorem tooDeep?_unbound (h : (t.isBound || inner.isBound) = false) (close : Option EndTag)
    (rest : Elements) (room : Nat) :
    (element t inner close rest).tooDeep? room = rest.tooDeep? room := by
  cases room <;> simp [tooDeep?, h]

theorem tooDeep?_full (h : (t.isBound || inner.isBound) = true) (close : Option EndTag)
    (rest : Elements) : (element t inner close rest).tooDeep? 0 = some t := by
  rw [tooDeep?, if_pos h]

theorem tooDeep?_bound (h : (t.isBound || inner.isBound) = true) (close : Option EndTag)
    (rest : Elements) (below : Nat) : (element t inner close rest).tooDeep? (below + 1) =
      (inner.tooDeep? below).or (rest.tooDeep? (below + 1)) := by
  rw [tooDeep?, if_pos h]

end

/-- The walk over the nested elements stops at the first chain that is too deep. -/
theorem tooDeep?_eq_find? (es : Elements) (os : List Open) (room : Nat) :
    es.tooDeep? room = ((es.chains os).find? (·.isTooDeep (os.countP (·.bound) + room))).map
      (·.element.tag) := by
  induction es generalizing os room with
  | nil => rfl
  | raw o s rest ih => exact ih os room
  | stray e rest ih => exact ih os room
  | element t inner close rest ihi ihr =>
    rw [chains]
    by_cases hb : (t.isBound || inner.isBound) = true
    · have hdepth : (⟨⟨t, true⟩, os⟩ : Chain).depth = os.countP (·.bound) + 1 := by
        simp [Chain.depth]
      have hcount : (⟨t, true⟩ :: os : List Open).countP (·.bound) = os.countP (·.bound) + 1 := by
        simp
      rw [hb]
      cases room with
      | zero =>
        have hdeep : (⟨⟨t, true⟩, os⟩ : Chain).isTooDeep (os.countP (·.bound) + 0) = true := by
          simp [Chain.isTooDeep, hdepth]
        rw [tooDeep?_full hb, List.find?_cons_of_pos hdeep]
        rfl
      | succ below =>
        have hfine : ¬ (⟨⟨t, true⟩, os⟩ : Chain).isTooDeep (os.countP (·.bound) + (below + 1)) = true := by
          simp only [Chain.isTooDeep, hdepth, Bool.true_and, decide_eq_true_iff]
          omega
        have hroom : os.countP (·.bound) + 1 + below = os.countP (·.bound) + (below + 1) := by omega
        rw [tooDeep?_bound hb, List.find?_cons_of_neg hfine, List.find?_append, Option.map_or,
          ihi (⟨t, true⟩ :: os), ihr os, hcount, hroom]
    · have hf : (t.isBound || inner.isBound) = false := by simpa using hb
      have hinner : (chains (⟨t, false⟩ :: os) inner).find?
          (·.isTooDeep (os.countP (·.bound) + room)) = none := by
        rw [List.find?_eq_none]
        intro c hc
        simp [Chain.isTooDeep, chains_unbound (Bool.or_eq_false_iff.mp hf).2 _ c hc]
      have hself : ¬ (⟨⟨t, false⟩, os⟩ : Chain).isTooDeep (os.countP (·.bound) + room) = true := by
        simp [Chain.isTooDeep]
      rw [tooDeep?_unbound hf, hf, List.find?_cons_of_neg hself, List.find?_append, hinner,
        Option.none_or, ihr os]

end Elements

namespace Markup

theorem nesting_addText (merge : Bool) (source : Text) (m : Markup) :
    (m.addText merge source).nesting = m.nesting := by
  cases m with
  | nil => rfl
  | text s rest => cases merge <;> rfl
  | element tag inner rest => rfl

/-- Nothing is too deep exactly when the markup nests within the limit. -/
theorem tooDeep?_eq_none_iff (config : Config) (es : Elements) (room : Nat) :
    es.tooDeep? room = none ↔ (ofElements config es).nesting ≤ room := by
  induction es generalizing room with
  | nil => simp [Elements.tooDeep?, ofElements, nesting]
  | raw o s rest ih =>
    rw [Elements.tooDeep?, ofElements, nesting_addText]
    exact ih room
  | stray e rest ih =>
    rw [Elements.tooDeep?, ofElements, nesting_addText]
    exact ih room
  | element t inner close rest ihi ihr =>
    rw [ofElements]
    by_cases hb : (t.isBound || inner.isBound) = true
    · rw [if_pos hb, nesting]
      cases room with
      | zero => simp [Elements.tooDeep?_full hb]
      | succ below =>
        rw [Elements.tooDeep?_bound hb, Option.or_eq_none_iff, ihi, ihr]
        omega
    · rw [if_neg hb, nesting_addText, Elements.tooDeep?_unbound (by simpa using hb)]
      exact ihr room

/-- An element puts its parts one level down and what is inside it two. -/
theorem rows_le (m : Markup) (depth : Nat) :
    ∀ r ∈ m.forest.rows depth, r.1 ≤ depth + 2 * m.nesting := by
  induction m generalizing depth with
  | nil => simp [forest, Forest.rows]
  | text s rest ih =>
    intro r hr
    simp only [forest, Forest.rows, List.nil_append, List.mem_cons] at hr
    rcases hr with rfl | hr
    · exact Nat.le_add_right _ _
    · exact ih depth r hr
  | element tag inner rest ihi ihr =>
    intro r hr
    have hparts : r.1 ≤ depth + 1 ∨ r ∈ inner.forest.rows (depth + 2) ∨ r ∈ rest.forest.rows depth := by
      cases hv : tag.isVoid <;>
        simp only [forest, hv, Forest.rows, List.mem_cons, List.mem_append, List.not_mem_nil, if_true,
          Bool.false_eq_true, if_false] at hr <;> grind
    rw [nesting]
    rcases hparts with hself | hin | hbeside
    · omega
    · have := ihi (depth + 2) r hin
      omega
    · have := ihr depth r hbeside
      omega

/-- The input ends inside a bound start tag, which is its last token. -/
def CutOff (input : Text) (t : StartTag) : Prop :=
  (Token.scan input).getLast? = some (.start t) ∧ t.ending = .missing ∧ t.isBound = true

theorem cutOff?_eq_some_iff {t : StartTag} : cutOff? (Token.scan input) = some t ↔ CutOff input t := by
  unfold cutOff? CutOff
  split
  · next u hu =>
    rw [hu]
    by_cases hcut : u.ending = .missing ∧ u.isBound = true
    · simp only [hcut, and_self, if_true, Option.some.injEq, Token.start.injEq]
      constructor
      · rintro rfl
        exact ⟨rfl, hcut⟩
      · exact fun h => h.1
    · rw [if_neg hcut]
      constructor
      · simp
      · rintro ⟨hu, ht⟩
        cases hu
        exact absurd ht hcut
  · next hno =>
    constructor
    · simp
    · rintro ⟨ht, -⟩
      exact absurd ht (hno t)

theorem cutOff?_eq_none_iff : cutOff? (Token.scan input) = none ↔ ∀ t, ¬ CutOff input t := by
  rw [Option.eq_none_iff_forall_ne_some]
  exact forall_congr' (fun t => not_congr cutOff?_eq_some_iff)

theorem tooDeep?_ofTokens (ts : List Token) (room : Nat) : (Elements.ofTokens ts).tooDeep? room =
    ((chains [] ts).find? (·.isTooDeep room)).map (·.element.tag) := by
  rw [Elements.tooDeep?_eq_find? _ [], FlatScan.chains_ofTokens]
  simp

theorem parse_eq_unterminated_iff {name : Text} {offset : Nat} :
    parse config input = .error (.unterminatedTag name offset) ↔
      ∃ t, CutOff input t ∧ name = t.key ∧ offset = t.offset := by
  simp only [parse, ← cutOff?_eq_some_iff]
  cases hcut : cutOff? (Token.scan input) with
  | some t => simp [eq_comm]
  | none =>
    cases (Elements.ofTokens (Token.scan input)).tooDeep? config.maxDepth <;> simp

/-- The first element that is too deep, in the order of the start tags. -/
def FirstTooDeep (input : Text) (limit : Nat) (c : Chain) : Prop :=
  ∃ before after, chains [] (Token.scan input) = before ++ c :: after ∧ c.isTooDeep limit = true ∧
    ∀ d ∈ before, d.isTooDeep limit = false

theorem tooDeep?_eq_some_iff {limit : Nat} {t : StartTag} :
    (Elements.ofTokens (Token.scan input)).tooDeep? limit = some t ↔
      ∃ c, FirstTooDeep input limit c ∧ c.element.tag = t := by
  rw [tooDeep?_ofTokens, Option.map_eq_some_iff]
  refine exists_congr (fun c => and_congr_left' ?_)
  rw [List.find?_eq_some_iff_append]
  constructor
  · rintro ⟨hdeep, before, after, hsplit, hfirst⟩
    exact ⟨before, after, hsplit, hdeep, fun d hd => by simpa using hfirst d hd⟩
  · rintro ⟨before, after, hsplit, hdeep, hfirst⟩
    exact ⟨hdeep, before, after, hsplit, fun d hd => by simpa using hfirst d hd⟩

theorem tooDeep?_scan_eq_none_iff {limit : Nat} :
    (Elements.ofTokens (Token.scan input)).tooDeep? limit = none ↔
      ∀ c ∈ chains [] (Token.scan input), c.isTooDeep limit = false := by
  rw [tooDeep?_ofTokens, Option.map_eq_none_iff, List.find?_eq_none]
  refine forall₂_congr (fun c _ => ?_)
  rw [Bool.not_eq_true]

theorem parse_eq_nestingTooDeep_iff {limit offset : Nat} :
    parse config input = .error (.nestingTooDeep limit offset) ↔ (∀ t, ¬ CutOff input t) ∧
      limit = config.maxDepth ∧
        ∃ c, FirstTooDeep input config.maxDepth c ∧ offset = c.element.tag.offset := by
  have hdeep : (∃ c, FirstTooDeep input config.maxDepth c ∧ offset = c.element.tag.offset) ↔
      ∃ t, (Elements.ofTokens (Token.scan input)).tooDeep? config.maxDepth = some t ∧
        offset = t.offset := by
    simp only [tooDeep?_eq_some_iff]
    constructor
    · rintro ⟨c, hc, ho⟩
      exact ⟨_, ⟨c, hc, rfl⟩, ho⟩
    · rintro ⟨_, ⟨c, hc, rfl⟩, ho⟩
      exact ⟨c, hc, ho⟩
  rw [hdeep, ← cutOff?_eq_none_iff, parse]
  cases cutOff? (Token.scan input) with
  | some t => simp
  | none =>
    cases (Elements.ofTokens (Token.scan input)).tooDeep? config.maxDepth with
    | some t => simp [eq_comm]
    | none => simp

theorem parse_isOk_iff : (∃ m, parse config input = .ok m) ↔ (∀ t, ¬ CutOff input t) ∧
    ∀ c ∈ chains [] (Token.scan input), c.isTooDeep config.maxDepth = false := by
  rw [← cutOff?_eq_none_iff, ← tooDeep?_scan_eq_none_iff]
  simp [parse_eq_ok_iff]

/-- What is parsed nests within the limit. -/
theorem nesting_le_of_parse (h : parse config input = .ok m) : m.nesting ≤ config.maxDepth := by
  obtain ⟨-, hdeep, rfl⟩ := parse_eq_ok_iff.mp h
  exact (tooDeep?_eq_none_iff config _ _).mp hdeep

/-- Parsing fails exactly on a bound tag that is cut off, and otherwise exactly on the first element
with too many bound elements on its chain. What it gives else is at most twice as deep as the limit. -/
theorem parse_outcome (config : Config) (input : Text) :
    (∀ name offset, parse config input = .error (.unterminatedTag name offset) ↔
      ∃ t, CutOff input t ∧ name = t.key ∧ offset = t.offset) ∧
    (∀ limit offset, parse config input = .error (.nestingTooDeep limit offset) ↔
      (∀ t, ¬ CutOff input t) ∧ limit = config.maxDepth ∧
        ∃ c, FirstTooDeep input config.maxDepth c ∧ offset = c.element.tag.offset) ∧
    ((∃ m, parse config input = .ok m) ↔ (∀ t, ¬ CutOff input t) ∧
      ∀ c ∈ chains [] (Token.scan input), c.isTooDeep config.maxDepth = false) ∧
    (∀ m, parse config input = .ok m → ∀ s : Store, ∀ row ∈
      ((s.plantView m.forest).2.labels (s.plantView m.forest).1.list).rows 0,
        row.1 ≤ 2 * config.maxDepth) ∧
    ∀ before t after, Token.scan input = before ++ .start t :: after →
      input = Token.sources before ++ (t.source ++ Token.sources after) ∧
        t.offset = Text.byteSize (Token.sources before) := by
  refine ⟨?_, ?_, parse_isOk_iff, ?_, ?_⟩
  · intro name offset
    exact parse_eq_unterminated_iff
  · intro limit offset
    exact parse_eq_nestingTooDeep_iff
  · intro m hparse s row hrow
    have hlabels : (s.plantView m.forest).2.labels (s.plantView m.forest).1.list = m.forest :=
      Store.labels_plantList s m.forest
    rw [hlabels] at hrow
    have hdepth := rows_le m 0 row hrow
    have hnesting := nesting_le_of_parse hparse
    omega
  · intro before t after hscan
    exact Token.scan_split hscan

/-- The elements that the first paragraph leaves open do not count. -/
example : parse {maxDepth := 1} "<i></i><p data-scope=s><i><u></p><p><b data-prop>".toList =
    .error (.nestingTooDeep 1 36) := by
  decide +kernel

end Markup
end TemplateTree
