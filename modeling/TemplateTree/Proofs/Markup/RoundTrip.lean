import TemplateTree.Proofs.Elements.Tidy
import TemplateTree.Proofs.Markup.Success
import TemplateTree.Proofs.Store.Growth
import TemplateTree.Proofs.Token.Written
import TemplateTree.View.Basic

/-! Canonical markup, which is what the parser gives for its own text: writing it down and parsing
that is the identity. -/
namespace TemplateTree

open Text

def Tag.isOpaque (t : Tag) : Bool := opaqueNames.contains (lower t.name)

namespace Markup

variable {m : Markup} {es : Elements} {config : Config}

/-- True when some element carries a binding key. -/
def isBound : Markup → Bool
  | nil => false
  | text _ rest => isBound rest
  | element tag inner rest => tag.attributes.hasBinding || isBound inner || isBound rest

def beginsText : Markup → Bool
  | text _ _ => true
  | _ => false

/-- True when there is no element in the row. -/
def isPlain : Markup → Bool
  | nil => true
  | text _ rest => isPlain rest
  | element _ _ _ => false

/-- How deep elements stand inside each other. -/
def nesting : Markup → Nat
  | nil => 0
  | text _ rest => nesting rest
  | element _ inner rest => max (nesting inner + 1) (nesting rest)

/-- Texts are not empty, hold no markup and do not follow each other. Elements have names and keys
that can be written, and are bound; a void element has nothing inside, and a script no element. -/
def Canonical : Markup → Prop
  | nil => True
  | text s rest => s ≠ [] ∧ '<' ∉ s ∧ rest.beginsText = false ∧ Canonical rest
  | element tag inner rest =>
    tag.Canonical ∧ (tag.isVoid = true → inner = nil) ∧ (tag.isOpaque = true → inner.isPlain = true) ∧
      (tag.attributes.hasBinding || inner.isBound) = true ∧ Canonical inner ∧ Canonical rest

/-- The elements are those of the markup, at whatever offsets they were read. -/
inductive ReadAs : Markup → Elements → Prop
  | nil : ReadAs .nil .nil
  | text {rest : Markup} {es : Elements} (s : Text) (o : Nat) (h : ReadAs rest es) :
    ReadAs (.text s rest) (.raw o s es)
  | element {inner rest : Markup} {es es' : Elements} (tag : Tag) (o : Nat) (close : Option EndTag)
    (hclose : close.map EndTag.key = if tag.isVoid then none else some (lower tag.name))
    (hinner : ReadAs inner es) (hrest : ReadAs rest es') :
    ReadAs (.element tag inner rest) (.element (tag.start o) es close es')

theorem render_text (s : Text) (rest : Markup) :
    (text s rest).forest.render = s ++ rest.forest.render := by
  have attributeless : Attributes.render ∅ = [] := rfl
  simp [forest, Forest.render, Label.render, Label.leaf, attributeless]

theorem render_element (tag : Tag) (inner rest : Markup) : (element tag inner rest).forest.render =
    tag.opening ++ (inner.forest.render ++
      ((if tag.isVoid then [] else closer tag.name) ++ rest.forest.render)) := by
  have attributeless : Attributes.render ∅ = [] := rfl
  cases h : tag.isVoid <;>
    simp [forest, Forest.render, Label.render, Label.leaf, attributeless, Tag.opening, h]

theorem opensMarkup_render (hm : m.Canonical) (ht : m.beginsText = false) {x : Text}
    (hx : x = [] ∨ opensMarkup x = true) :
    m.forest.render ++ x = [] ∨ opensMarkup (m.forest.render ++ x) = true := by
  cases m with
  | nil => exact hx
  | text s rest => simp [beginsText] at ht
  | element tag inner rest =>
    right
    rw [render_element, List.append_assoc]
    exact Tag.opensMarkup_opening hm.1 _

/-- A row without elements is one text at most. -/
theorem plain_cases (hm : m.Canonical) (hp : m.isPlain = true) :
    m = nil ∨ ∃ s, m = text s nil ∧ s ≠ [] ∧ '<' ∉ s := by
  cases m with
  | nil => exact Or.inl rfl
  | text s rest =>
    right
    cases rest with
    | nil => exact ⟨s, rfl, hm.1, hm.2.1⟩
    | text s' rest => exact absurd hm.2.2.1 (by simp [beginsText])
    | element tag inner rest => simp [isPlain] at hp
  | element tag inner rest => simp [isPlain] at hp

theorem readAs_ofBody (hm : m.Canonical) (hp : m.isPlain = true) (o : Nat) :
    '<' ∉ m.forest.render ∧ ∃ es, m.ReadAs es ∧ Token.ofBody o m.forest.render = es.tokens := by
  rcases plain_cases hm hp with rfl | ⟨s, rfl, hs, hlt⟩
  · exact ⟨by simp [forest, Forest.render], .nil, .nil, rfl⟩
  · have hrender : (text s nil).forest.render = s := (render_text s nil).trans (List.append_nil s)
    rw [hrender]
    refine ⟨hlt, .raw o s .nil, .text s o .nil, ?_⟩
    rw [Token.ofBody, if_neg hs]
    rfl

theorem isOpaque_of_isVoid {tag : Tag} (hv : tag.isVoid = true) : tag.isOpaque = false := by
  refine Bool.eq_false_iff.mpr (fun h => ?_)
  have hdisjoint : ∀ n ∈ opaqueNames, n ∉ voidNames := by decide
  exact hdisjoint _ (List.contains_iff_mem.mp h) (List.contains_iff_mem.mp hv)

theorem slash_of_not_void {tag : Tag} (ht : tag.Canonical) (hv : tag.isVoid = false) :
    tag.slash = false := by
  refine Bool.eq_false_iff.mpr (fun hs => ?_)
  rw [ht.slash hs] at hv
  cases hv

theorem isOpaque_start {tag : Tag} (ht : tag.Canonical) (o : Nat) :
    (tag.start o).isOpaque = tag.isOpaque := by
  have hkey : (tag.start o).isOpaque = ((tag.ending == .closed) && tag.isOpaque) := rfl
  cases hv : tag.isVoid with
  | true => rw [hkey, isOpaque_of_isVoid hv, Bool.and_false]
  | false => simp [hkey, Tag.ending, slash_of_not_void ht hv]

/-- The opening tag and what is inside, up to the closer. The body of a script is read as it is,
anything else as markup. -/
theorem scanFrom_inside {tag : Tag} (htag : tag.Canonical) (hm : m.Canonical)
    (hplain : tag.isOpaque = true → m.isPlain = true)
    (ih : ∀ offset x, x = [] ∨ opensMarkup x = true → ∃ es o, m.ReadAs es ∧
      Token.scanFrom offset (m.forest.render ++ x) = es.tokens ++ Token.scanFrom o x)
    (offset : Nat) (x : Text) : ∃ es o, m.ReadAs es ∧
      Token.scanFrom offset (tag.opening ++ (m.forest.render ++ (closer tag.name ++ x))) =
        .start (tag.start offset) :: (es.tokens ++ Token.scanFrom o (closer tag.name ++ x)) := by
  have hscript := isOpaque_start htag offset
  cases hp : tag.isOpaque with
  | true =>
    have hlt := (readAs_ofBody hm (hplain hp) 0).1
    obtain ⟨b, o, ho⟩ := Token.scanFrom_opaque offset htag (hscript.trans hp) hlt x
    obtain ⟨-, es, hes, hbody⟩ := readAs_ofBody hm (hplain hp) b
    exact ⟨es, o, hes, by rw [ho, hbody]⟩
  | false =>
    obtain ⟨b, hb⟩ := Token.scanFrom_opening offset htag (hscript.trans hp)
      (m.forest.render ++ (closer tag.name ++ x))
    obtain ⟨es, o, hes, ho⟩ := ih b _ (Or.inr (Tag.opensMarkup_closer htag.name x))
    exact ⟨es, o, hes, by rw [hb, ho]⟩

/-- The tokens of written markup are those of its elements; what follows is read by itself. -/
theorem scanFrom_render (hm : m.Canonical) (offset : Nat) {x : Text}
    (hx : x = [] ∨ opensMarkup x = true) : ∃ es o, m.ReadAs es ∧
      Token.scanFrom offset (m.forest.render ++ x) = es.tokens ++ Token.scanFrom o x := by
  induction m generalizing offset x with
  | nil => exact ⟨.nil, offset, .nil, rfl⟩
  | text s rest ih =>
    obtain ⟨hs, hlt, hnext, hrest⟩ := hm
    obtain ⟨o, ho⟩ := Token.scanFrom_text offset hs hlt (opensMarkup_render hrest hnext hx)
    obtain ⟨es, o', hes, htail⟩ := ih hrest o hx
    refine ⟨.raw offset s es, o', .text s offset hes, ?_⟩
    rw [render_text, List.append_assoc, ho, htail]
    rfl
  | element tag inner rest ihi ihr =>
    obtain ⟨htag, hvoid, hplain, -, hinner, hrest⟩ := hm
    rw [render_element]
    cases hv : tag.isVoid with
    | true =>
      have hscript := (isOpaque_start htag offset).trans (isOpaque_of_isVoid hv)
      obtain ⟨o, ho⟩ := Token.scanFrom_opening offset htag hscript (rest.forest.render ++ x)
      obtain ⟨es, o', hes, htail⟩ := ihr hrest o hx
      refine ⟨.element (tag.start offset) .nil none es, o', ?_, ?_⟩
      · rw [hvoid hv]
        exact .element tag offset none (by simp [hv]) .nil hes
      · simp only [hvoid hv, if_true, forest, Forest.render, List.nil_append, List.append_assoc, ho,
          htail]
        rfl
    | false =>
      obtain ⟨es, o, hes, hopen⟩ := scanFrom_inside htag hinner hplain
        (fun offset _ hy => ihi hinner offset hy) offset (rest.forest.render ++ x)
      obtain ⟨o', hstop⟩ := Token.scanFrom_closer o htag.name (rest.forest.render ++ x)
      obtain ⟨es', o'', hes', htail⟩ := ihr hrest o' hx
      refine ⟨.element (tag.start offset) es (some ⟨o, tag.name, ['>']⟩) es', o'', ?_, ?_⟩
      · exact .element tag offset _ (by simp [hv, EndTag.key]) hes hes'
      · simp only [Bool.false_eq_true, if_false, List.append_assoc, hopen, hstop, htail]
        simp [Elements.tokens]

theorem opens_start {tag : Tag} (ht : tag.Canonical) (o : Nat) :
    (tag.start o).opens = !tag.isVoid := by
  have hkey : (tag.start o).opens = ((tag.ending == .closed) && !tag.isVoid) := rfl
  cases hv : tag.isVoid with
  | true => simp [hkey, hv]
  | false => simp [hkey, hv, Tag.ending, slash_of_not_void ht hv]

theorem ReadAs.tidy (h : m.ReadAs es) (hm : m.Canonical) : es.Tidy := by
  induction h with
  | nil => trivial
  | text s o _ ih => exact ih hm.2.2.2
  | element tag o close hclose hes _ ihi ihr =>
    obtain ⟨htag, hvoid, -, -, hinner, hrest⟩ := hm
    refine ⟨?_, ihr hrest⟩
    rw [opens_start htag]
    cases hv : tag.isVoid with
    | true =>
      have hnone : close = none := by simpa [hv] using hclose
      cases hvoid hv
      cases hes
      exact ⟨hnone, rfl⟩
    | false =>
      obtain ⟨e, rfl, hkey⟩ : ∃ e, close = some e ∧ e.key = lower tag.name := by
        simpa [hv] using hclose
      exact ⟨⟨e, rfl, hkey⟩, ihi hinner⟩

theorem isBound_start {tag : Tag} (ht : tag.Canonical) (o : Nat) :
    (tag.start o).isBound = tag.attributes.hasBinding :=
  Attributes.any_isBinding_written tag.attributes ht.keys

theorem ReadAs.isBound (h : m.ReadAs es) (hm : m.Canonical) : es.isBound = m.isBound := by
  induction h with
  | nil => rfl
  | text s o _ ih => exact ih hm.2.2.2
  | element tag o close _ _ _ ihi ihr =>
    obtain ⟨htag, -, -, -, hinner, hrest⟩ := hm
    rw [Elements.isBound, Markup.isBound, isBound_start htag, ihi hinner, ihr hrest]

/-- Every element that is read is bound. -/
theorem ReadAs.bound {tag : Tag} {inner rest : Markup} (hm : (Markup.element tag inner rest).Canonical)
    (h : inner.ReadAs es) (o : Nat) : ((tag.start o).isBound || es.isBound) = true := by
  obtain ⟨htag, -, -, hbound, hinner, -⟩ := hm
  rw [isBound_start htag, h.isBound hinner]
  exact hbound

theorem ofStart_start {tag : Tag} (ht : tag.Canonical) (o : Nat) :
    Tag.ofStart true (tag.start o) = tag := by
  have hattributes : (Tag.ofStart true (tag.start o)).attributes = tag.attributes :=
    Attributes.ofWritten_written tag.attributes ht.keys
  have hslash : (Tag.ofStart true (tag.start o)).slash = tag.slash := by
    have hread : (Tag.ofStart true (tag.start o)).slash =
        (tag.isVoid && tag.ending == .selfClosed) := rfl
    cases hs : tag.slash with
    | true => simp [hread, Tag.ending, hs, ht.slash hs]
    | false => simp [hread, Tag.ending, hs]
  cases tag
  simp_all [Tag.ofStart, Tag.start]

theorem ReadAs.ofElements (h : m.ReadAs es) (hm : m.Canonical) (hdecode : config.decode = true) :
    ofElements config es = m := by
  induction h with
  | nil => rfl
  | @text rest _ s o _ ih =>
    obtain ⟨-, -, hnext, hrest⟩ := hm
    rw [Markup.ofElements, ih hrest]
    cases rest with
    | text => cases hnext
    | _ => rfl
  | element tag o close _ hes _ ihi ihr =>
    have hbound := hes.bound hm o
    obtain ⟨htag, -, -, -, hinner, hrest⟩ := hm
    rw [Markup.ofElements, if_pos hbound, hdecode, ofStart_start htag, ihi hinner, ihr hrest]

theorem ReadAs.tooDeep? (h : m.ReadAs es) (hm : m.Canonical) {room : Nat}
    (hroom : m.nesting ≤ room) : es.tooDeep? room = none := by
  induction h generalizing room with
  | nil => rfl
  | text s o _ ih => exact ih hm.2.2.2 hroom
  | element tag o close _ hes _ ihi ihr =>
    have hbound := hes.bound hm o
    obtain ⟨-, -, -, -, hinner, hrest⟩ := hm
    rw [nesting] at hroom
    obtain ⟨below, rfl⟩ : ∃ below, room = below + 1 := ⟨room - 1, by omega⟩
    rw [Elements.tooDeep?, if_pos hbound, ihi hinner (by omega), ihr hrest (by omega)]
    rfl

/-- A tag that was written ends. -/
theorem ReadAs.ends (h : m.ReadAs es) {t : StartTag} (ht : .start t ∈ es.tokens) :
    t.ending ≠ .missing := by
  induction h with
  | nil => simp [Elements.tokens] at ht
  | text s o _ ih => exact ih (by simpa [Elements.tokens] using ht)
  | element tag o close _ _ _ ihi ihr =>
    simp only [Elements.tokens, List.mem_cons, List.mem_append, Token.start.injEq] at ht
    rcases ht with rfl | (ht | ht) | ht
    · cases hs : tag.slash <;> simp [Tag.start, Tag.ending, hs]
    · exact ihi ht
    · cases close <;> simp at ht
    · exact ihr ht

theorem ReadAs.cutOff? (h : m.ReadAs es) : cutOff? es.tokens = none := by
  unfold TemplateTree.cutOff?
  split
  · next t hlast => exact if_neg (fun hmissing => h.ends (List.mem_of_getLast? hlast) hmissing.1)
  · rfl

/-- Canonical markup is what its own text is parsed as. -/
theorem parse_render (hm : m.Canonical) (hdecode : config.decode = true)
    (hdepth : m.nesting ≤ config.maxDepth) : parse config m.forest.render = .ok m := by
  obtain ⟨es, o, hes, hscan⟩ := scanFrom_render hm 0 (Or.inl rfl)
  have htokens : Token.scan m.forest.render = es.tokens := by
    have hnil : Token.scanFrom o [] = [] := by rw [Token.scanFrom, if_pos rfl]
    rwa [List.append_nil, hnil, List.append_nil] at hscan
  have hnest : Elements.ofTokens (Token.scan m.forest.render) = es := by
    rw [htokens]
    exact (hes.tidy hm).ofTokens
  rw [parse_eq_ok_iff, hnest, htokens]
  exact ⟨hes.cutOff?, hes.tooDeep? hm hdepth, hes.ofElements hm hdecode⟩

/-- A document that holds canonical markup is read back from its own text, wherever it is put. -/
theorem parse_markup (s t : Store) (v : View) (hm : m.Canonical) (hv : s.labels v.list = m.forest)
    (hdecode : config.decode = true) (hdepth : m.nesting ≤ config.maxDepth) :
    parse config (v.markup s) = .ok m ∧
      (t.plantView m.forest).2.labels (t.plantView m.forest).1.list = s.labels v.list := by
  refine ⟨?_, (Store.labels_plantList t m.forest).trans hv.symm⟩
  rw [View.markup, hv]
  exact parse_render hm hdecode hdepth

/-- A value with a quote and an ampersand, a void element with a slash, and a script. -/
theorem parse_markup_list :
    let list : Tag := ⟨"ul".toList, ⟨[(.scope, some "a\"&amp;".toList)], by decide⟩, false⟩
    let line : Tag := ⟨"BR".toList, ⟨[(.prop, none)], by decide⟩, true⟩
    let script : Tag := ⟨"script".toList, ⟨[(.other "q".toList, none), (.prop, none)], by decide⟩, false⟩
    let m := text "x > y".toList (element list (element line nil (text "&lt;".toList nil))
      (element script (text "a && b".toList nil) nil))
    let planted := Store.empty.plantView m.forest
    planted.1.markup planted.2 = ("x > y<ul data-scope=\"a&quot;&amp;amp;\"><BR data-prop/>&lt;</ul>" ++
        "<script q data-prop>a && b</script>").toList ∧
      parse {maxDepth := 2} (planted.1.markup planted.2) = .ok m := by
  let list : Tag := ⟨"ul".toList, ⟨[(.scope, some "a\"&amp;".toList)], by decide⟩, false⟩
  let line : Tag := ⟨"BR".toList, ⟨[(.prop, none)], by decide⟩, true⟩
  let script : Tag := ⟨"script".toList, ⟨[(.other "q".toList, none), (.prop, none)], by decide⟩, false⟩
  let m := text "x > y".toList (element list (element line nil (text "&lt;".toList nil))
    (element script (text "a && b".toList nil) nil))
  have hq : (AttrKey.other "q".toList).Canonical := ⟨by decide, by decide, by decide⟩
  have hlist : list.Canonical := by
    refine ⟨⟨'u', "l".toList, rfl, by decide, by decide⟩, fun k hk => ?_, by decide⟩
    rw [List.mem_singleton.mp hk]
    exact AttrKey.canonical_of_isBinding rfl
  have hline : line.Canonical := by
    refine ⟨⟨'B', "R".toList, rfl, by decide, by decide⟩, fun k hk => ?_, by decide⟩
    rw [List.mem_singleton.mp hk]
    exact AttrKey.canonical_of_isBinding rfl
  have hscript : script.Canonical := by
    refine ⟨⟨'s', "cript".toList, rfl, by decide, by decide⟩, fun k hk => ?_, by decide⟩
    rcases List.mem_cons.mp hk with rfl | hk
    · exact hq
    · rw [List.mem_singleton.mp hk]
      exact AttrKey.canonical_of_isBinding rfl
  have hm : m.Canonical := by
    refine ⟨by decide, by decide, rfl, hlist, by decide, by decide, rfl, ?_, ?_⟩
    · exact ⟨hline, fun _ => rfl, by decide, rfl, trivial, by decide, by decide, rfl, trivial⟩
    · exact ⟨hscript, by decide, fun _ => rfl, rfl, ⟨by decide, by decide, rfl, trivial⟩, trivial⟩
  let planted := Store.empty.plantView m.forest
  have hread := parse_markup planted.2 .empty planted.1 hm (Store.labels_plantList .empty m.forest)
    (rfl : Config.decode {maxDepth := 2} = true) (by decide)
  exact ⟨by decide +kernel, hread.1⟩

end Markup
end TemplateTree
