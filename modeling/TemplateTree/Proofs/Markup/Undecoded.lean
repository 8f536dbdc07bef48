import TemplateTree.Proofs.Markup.Bones
import TemplateTree.Proofs.Markup.Fixpoint

/-! Markup whose character references are not decoded. Writing escapes every value and reading takes
the value as it is written, so a document comes back with its values escaped once more. -/
namespace TemplateTree

open FlatScan (rewrite)

variable {config : Config} {es : Elements} {input : Text} {m : Markup}

namespace Reference

/-- A text that can stand in quotes as it is. -/
def Plain (v : Text) : Prop := '&' ∉ v ∧ '"' ∉ v

theorem length_le_escape (v : Text) : v.length ≤ (escape v).length := by
  fun_induction escape v with
  | case1 => exact Nat.le_refl _
  | case2 r ih | case3 r ih =>
    have hlonger : 1 ≤ "&amp;".toList.length ∧ 1 ≤ "&quot;".toList.length := by decide
    rw [List.length_append, List.length_cons]
    omega
  | case4 c r _ _ ih => exact Nat.succ_le_succ ih

/-- What is escaped gets longer. -/
theorem escape_eq_self_iff (v : Text) : escape v = v ↔ Plain v := by
  have grown : ∀ {w r : Text} {c : Char}, 1 < w.length → w ++ escape r ≠ c :: r := by
    intro w r c hw he
    have hlength := congrArg List.length he
    rw [List.length_append, List.length_cons] at hlength
    have := length_le_escape r
    omega
  fun_induction escape v with
  | case1 => simp [Plain]
  | case2 r ih =>
    exact ⟨fun he => absurd he (grown (by decide)), fun h => absurd List.mem_cons_self h.1⟩
  | case3 r ih =>
    exact ⟨fun he => absurd he (grown (by decide)), fun h => absurd List.mem_cons_self h.2⟩
  | case4 c r hamp hquote ih =>
    have hrest : escape r = r ↔ Plain r := ih
    rw [List.cons.injEq, hrest, Plain, Plain, List.mem_cons, List.mem_cons, not_or, not_or]
    constructor
    · rintro ⟨-, ha, hq⟩
      exact ⟨⟨Ne.symm hamp, ha⟩, Ne.symm hquote, hq⟩
    · rintro ⟨⟨-, ha⟩, -, hq⟩
      exact ⟨rfl, ha, hq⟩

end Reference

namespace Attributes

/-- Every value as it is written between quotes. -/
def escaped (a : Attributes) : Attributes where
  entries := a.entries.map fun e => (e.1, e.2.map Reference.escape)
  distinct := by
    rw [List.map_map]
    exact a.distinct

theorem keys_escaped (a : Attributes) : a.escaped.keys = a.keys := List.map_map ..

/-- Every value can stand in quotes as it is. -/
def Plain (a : Attributes) : Prop := ∀ e ∈ a.entries, ∀ v ∈ e.2, Reference.Plain v

theorem escaped_eq_self_iff (a : Attributes) : a.escaped = a ↔ a.Plain := by
  have hentries : a.escaped = a ↔ a.escaped.entries = a.entries :=
    ⟨congrArg Attributes.entries, eq_of_entries⟩
  have hmap : a.escaped.entries = a.entries ↔
      ∀ e ∈ a.entries, (e.1, e.2.map Reference.escape) = e := by
    rw [← List.map_inj_left, List.map_id']
    rfl
  rw [hentries, hmap]
  refine forall₂_congr fun e _ => ?_
  obtain ⟨key, value⟩ := e
  cases value with
  | none => simp
  | some v => simp [Reference.escape_eq_self_iff]

/-- Attributes with canonical keys that are read without decoding. -/
theorem ofWritten_written_escaped (a : Attributes) (h : ∀ k ∈ a.keys, k.Canonical) :
    ofWritten a.written = a.escaped := by
  have hread : a.written = a.escaped.entries.map fun e => (e.1.markupName, e.2) := by
    rw [written, escaped, List.map_map]
    rfl
  rw [hread, ofWritten, List.foldl_map]
  apply eq_of_entries
  refine (entries_foldl_insertNew a.escaped.entries empty a.escaped.distinct ?_).trans
    (List.nil_append _)
  intro e he
  have hkey : e.1 ∈ a.escaped.keys := List.mem_map_of_mem he
  rw [keys_escaped] at hkey
  exact (h e.1 hkey).ofName

end Attributes

/-- The tag with every value escaped. -/
def Tag.escaped (t : Tag) : Tag := { t with attributes := t.attributes.escaped }

theorem Tag.escaped_eq_self_iff (t : Tag) : t.escaped = t ↔ t.attributes.Plain := by
  rw [← t.attributes.escaped_eq_self_iff]
  cases t
  simp [escaped]

theorem Forest.map_eq_self_iff {α : Type} {g : α → α} (f : Forest α) :
    f.map g = f ↔ ∀ a ∈ f.preorder, g a = a := by
  induction f with
  | nil => simp [map, preorder]
  | cons a kids rest ihk ihr =>
    simp only [map, cons.injEq, ihk, ihr, mem_preorder_cons]
    constructor
    · rintro ⟨ha, hk, hr⟩ b (rfl | hb | hb)
      · exact ha
      · exact hk b hb
      · exact hr b hb
    · exact fun h => ⟨h a (Or.inl rfl), fun b hb => h b (Or.inr (Or.inl hb)),
        fun b hb => h b (Or.inr (Or.inr hb))⟩

namespace Markup

/-- The same texts and elements, with every value escaped. -/
def escaped : Markup → Markup
  | nil => nil
  | text s rest => text s (escaped rest)
  | element tag inner rest => element tag.escaped (escaped inner) (escaped rest)

theorem escaped_addText (merge : Bool) (s : Text) (m : Markup) :
    (m.addText merge s).escaped = m.escaped.addText merge s := by
  cases m with
  | text s' rest => cases merge <;> rfl
  | _ => rfl

theorem bones_escaped (m : Markup) : m.escaped.bones = m.bones.map Tag.escaped := by
  induction m with
  | nil => rfl
  | text s rest ih => exact ih
  | element tag inner rest ihi ihr => rw [escaped, bones, bones, Forest.map, ihi, ihr]

theorem nesting_escaped (m : Markup) : m.escaped.nesting = m.nesting := by
  induction m with
  | nil => rfl
  | text s rest ih => exact ih
  | element tag inner rest ihi ihr => rw [escaped, nesting, nesting, ihi, ihr]

theorem bones_escaped_eq_iff (m : Markup) :
    m.escaped.bones = m.bones ↔ ∀ tag ∈ m.bones.preorder, tag.attributes.Plain := by
  rw [bones_escaped, Forest.map_eq_self_iff]
  simp only [Tag.escaped_eq_self_iff]

/-- A tag that was written is read with its values as they are written. -/
theorem ofStart_start_escaped {tag : Tag} (ht : tag.Canonical) (o : Nat) :
    Tag.ofStart false (tag.start o) = tag.escaped := by
  have hattributes : (Tag.ofStart false (tag.start o)).attributes = tag.attributes.escaped :=
    Attributes.ofWritten_written_escaped tag.attributes ht.keys
  have hname : (Tag.ofStart false (tag.start o)).name = tag.name := rfl
  -- decoding is about attributes only
  have hslash : (Tag.ofStart false (tag.start o)).slash = (Tag.ofStart true (tag.start o)).slash := rfl
  rw [ofStart_start ht] at hslash
  rw [Tag.escaped, ← hattributes, ← hslash, ← hname]

/-- The row written anew makes the markup with its values escaped. -/
theorem ofElements_recast_escaped (hdecode : config.decode = false)
    (hnamed : ∀ t, Token.start t ∈ es.tokens → t.WellNamed) :
    ofElements config (es.recast false) = (ofElements config es).escaped := by
  induction es with
  | nil => rfl
  | raw o s rest ih =>
    rw [Elements.recast, ofElements, ofElements, escaped_addText,
      ih (fun t ht => hnamed t (List.mem_cons_of_mem _ ht))]
  | stray e rest ih =>
    rw [Elements.recast, ofElements, ofElements, escaped_addText,
      ih (fun t ht => hnamed t (List.mem_cons_of_mem _ ht))]
  | element t inner close rest ihi ihr =>
    have ht := hnamed t (by simp [Elements.tokens])
    have hnamedi : ∀ u, Token.start u ∈ inner.tokens → u.WellNamed :=
      fun u hu => hnamed u (by simp [Elements.tokens, hu])
    have hrest := ihr (fun u hu => hnamed u (by simp [Elements.tokens, hu]))
    by_cases hb : (t.isBound || inner.isBound) = true
    · have hagain :
          (((Tag.ofStart false t).start t.offset).isBound || (inner.recast false).isBound) = true := by
        rw [Elements.isBound_written ht, Elements.isBound_recast hnamedi, hb]
      rw [Elements.recast_bound hb, ofElements, ofElements, if_pos hagain, if_pos hb, hdecode,
        ofStart_start_escaped (Tag.canonical_ofStart ht false), ihi hnamedi, hrest, escaped]
    · rw [Elements.recast_unbound (by simpa using hb), ofElements, ofElements, if_neg hb, if_neg hb,
        escaped_addText, hrest]

/-- Where every bound element has its own end tag, the written document is read as the tokens that the
pass writes. -/
theorem words_render (config : Config) (hcut : cutOff? (Token.scan input) = none)
    (hx : (Elements.ofTokens (Token.scan input)).Explicit) :
    Token.words (ofElements config (Elements.ofTokens (Token.scan input))).forest.render =
      (rewrite config.decode [] (Token.scan input)).map (Token.moveTo 0) := by
  have hsource : ((Elements.ofTokens (Token.scan input)).recast config.decode).source =
      (Elements.ofTokens (Token.scan input)).render config := Elements.source_recast _
  rw [Elements.source_eq, ← FlatScan.rewrite_scan hcut hx] at hsource
  have hout : (ofElements config (Elements.ofTokens (Token.scan input))).forest.render =
      Token.sources (rewrite config.decode [] (Token.scan input)) := hsource.symm
  rw [hout, FlatScan.words_rewrite hcut]

/-- Where every bound element has its own end tag, no bound tag of the written document is cut off. -/
theorem cutOff?_render (hcut : cutOff? (Token.scan input) = none)
    (hx : (Elements.ofTokens (Token.scan input)).Explicit) : cutOff?
      (Token.scan (ofElements config (Elements.ofTokens (Token.scan input))).forest.render) = none := by
  refine cutOff?_eq_none fun t ht hb hm => ?_
  have hmem := Token.mem_words ht
  rw [words_render _ hcut hx] at hmem
  obtain ⟨u, hu, hut⟩ := Token.start_of_words hmem
  have hub : (u.moveTo 0).isBound = true := by rwa [hut]
  have hum : (u.moveTo 0).ending = .missing := by rwa [hut]
  rcases FlatScan.start_of_rewrite hu with hu | hu
  · exact StartTag.ends_of_bound hcut hu hub hum
  · exact hu hum

/-- The elements of the written document make the markup with its values escaped. -/
theorem ofElements_render_escaped (hdecode : config.decode = false)
    (hcut : cutOff? (Token.scan input) = none)
    (hx : (Elements.ofTokens (Token.scan input)).Explicit) :
    let m := ofElements config (Elements.ofTokens (Token.scan input))
    ofElements config (Elements.ofTokens (Token.scan m.forest.render)) = m.escaped := by
  intro m
  have hagain : ((Elements.ofTokens (Token.scan input)).recast false).Nested [] :=
    (Elements.nested_ofTokens _).recast hx
  have hwords := words_render config hcut hx
  rw [ofElements_congr config hwords, hdecode, FlatScan.rewrite_scan hcut hx, hagain.ofTokens]
  refine ofElements_recast_escaped hdecode fun t ht => ?_
  rw [Elements.tokens_ofTokens] at ht
  exact StartTag.wellNamed_scanFrom ht

/-- Without decoding, a document in which every bound element that opens has its own end tag is parsed
again with the same texts, elements and keys and with every value escaped once more. So the elements
have the same attributes as before exactly when no value holds an ampersand or a double quote. -/
theorem parse_markup_undecoded (s : Store) (h : parse config input = .ok m)
    (hdecode : config.decode = false) (hx : (Elements.ofTokens (Token.scan input)).Explicit) :
    parse config ((s.plantView m.forest).1.markup (s.plantView m.forest).2) = .ok m.escaped ∧
      m.escaped.bones = m.bones.map Tag.escaped ∧
      (m.escaped.bones = m.bones ↔ ∀ tag ∈ m.bones.preorder, tag.attributes.Plain) := by
  have hroom := nesting_le_of_parse h
  obtain ⟨hcut, -, rfl⟩ := parse_eq_ok_iff.mp h
  have hagain := ofElements_render_escaped hdecode hcut hx
  refine ⟨?_, bones_escaped _, bones_escaped_eq_iff _⟩
  rw [markup_plantView, parse_eq_ok_iff]
  refine ⟨cutOff?_render hcut hx, ?_, hagain.symm ▸ rfl⟩
  rw [tooDeep?_eq_none_iff config, hagain, nesting_escaped]
  exact hroom

/-- Both kinds of quotes, a value without quotes, and a reference that stays as it is. -/
theorem parse_markup_undecoded_quotes : ∃ m,
    parse {decode := false} "<p Data-Prop='a\"b' id=c&d><i title=\"&lt;\"><br partial/></i>x</p>".toList =
        .ok m ∧
      (Store.empty.plantView m.forest).1.markup (Store.empty.plantView m.forest).2 =
        "<p data-prop=\"a&quot;b\" id=\"c&amp;d\"><i title=\"&amp;lt;\"><br data-partial/></i>x</p>".toList ∧
      parse {decode := false}
        ((Store.empty.plantView m.forest).1.markup (Store.empty.plantView m.forest).2) = .ok m.escaped ∧
      m.escaped.bones.preorder.map (fun t => t.attributes.entries.map Prod.snd) =
        [[some "a&quot;b".toList, some "c&amp;d".toList], [some "&amp;lt;".toList], [none]] := by
  let input := "<p Data-Prop='a\"b' id=c&d><i title=\"&lt;\"><br partial/></i>x</p>".toList
  have hcut : cutOff? (Token.scan input) = none := by decide +kernel
  have hdeep : (Elements.ofTokens (Token.scan input)).tooDeep? 512 = none := by decide +kernel
  have hx : (Elements.ofTokens (Token.scan input)).Explicit := by decide +kernel
  have hparse : parse {decode := false} input =
      .ok (ofElements {decode := false} (Elements.ofTokens (Token.scan input))) :=
    parse_eq_ok_iff.mpr ⟨hcut, hdeep, rfl⟩
  refine ⟨_, hparse, ?_, (parse_markup_undecoded Store.empty hparse rfl hx).1, by decide +kernel⟩
  rw [markup_plantView]
  decide +kernel

/-- An ampersand in a value is written as a reference, and the reference is what is read then. -/
theorem undecoded_ampersand : ∃ m again,
    let out := (Store.empty.plantView m.forest).1.markup (Store.empty.plantView m.forest).2
    (Elements.ofTokens (Token.scan "<p data-prop=\"a&b\">x</p>".toList)).Explicit ∧
      parse {decode := false} "<p data-prop=\"a&b\">x</p>".toList = .ok m ∧
      parse {decode := false} out = .ok again ∧ again.bones ≠ m.bones ∧
      m.bones.preorder.map (·.attributes.get? .prop) = [some "a&b".toList] ∧
      again.bones.preorder.map (·.attributes.get? .prop) = [some "a&amp;b".toList] := by
  let m := ofElements {decode := false}
    (Elements.ofTokens (Token.scan "<p data-prop=\"a&b\">x</p>".toList))
  let again := ofElements {decode := false}
    (Elements.ofTokens (Token.scan "<p data-prop=\"a&amp;b\">x</p>".toList))
  have hout : (Store.empty.plantView m.forest).1.markup (Store.empty.plantView m.forest).2 =
      "<p data-prop=\"a&amp;b\">x</p>".toList := by
    rw [markup_plantView]
    decide +kernel
  have hparse : parse {decode := false} "<p data-prop=\"a&b\">x</p>".toList = .ok m :=
    parse_eq_ok_iff.mpr ⟨by decide +kernel, by decide +kernel, rfl⟩
  refine ⟨m, again, by decide +kernel, hparse, ?_, by decide +kernel, by decide +kernel,
    by decide +kernel⟩
  rw [hout]
  exact parse_eq_ok_iff.mpr ⟨by decide +kernel, by decide +kernel, rfl⟩

end Markup
end TemplateTree
