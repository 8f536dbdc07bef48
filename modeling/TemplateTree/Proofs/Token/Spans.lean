import TemplateTree.Proofs.Markup.Representation
import TemplateTree.Proofs.Token.ByteScan

/-! The scanner on bytes reads what the scanner on characters reads. Everything it looks for consists of
ASCII characters, so each place where it stops lies between two characters. -/
namespace TemplateTree

open Text

section Ascii

variable {c : Char} {here : Text → Bool} {key word : Text}

theorem isAscii_of_isAlpha (h : c.isAlpha = true) : IsAscii c := by
  simp only [Char.isAlpha, Char.isUpper, Char.isLower, Bool.or_eq_true, Bool.and_eq_true,
    decide_eq_true_eq, UInt32.le_iff_toNat_le] at h
  have hbounds : c.val.toNat ≤ 122 := by
    rcases h with h | h
    · exact Nat.le_trans h.2 (by decide)
    · exact h.2
  exact Nat.lt_of_le_of_lt hbounds (by decide)

theorem isAscii_of_isDigit (h : c.isDigit = true) : IsAscii c := by
  simp only [Char.isDigit, Bool.and_eq_true, decide_eq_true_eq, UInt32.le_iff_toNat_le] at h
  exact Nat.lt_of_le_of_lt h.2 (by decide)

theorem isAscii_of_isNameChar (c : Char) (h : isNameChar c = true) : IsAscii c := by
  simp only [isNameChar, Char.isAlphanum, Bool.or_eq_true, beq_iff_eq] at h
  rcases h with (((h | h) | rfl) | rfl) | rfl
  · exact isAscii_of_isAlpha h
  · exact isAscii_of_isDigit h
  all_goals decide

theorem isAscii_of_isAttributeChar (c : Char) (h : isAttributeChar c = true) : IsAscii c := by
  simp only [isAttributeChar, Bool.or_eq_true, beq_iff_eq] at h
  rcases h with (h | rfl) | rfl
  · exact isAscii_of_isNameChar c h
  all_goals decide

theorem isAscii_of_isTagBlank (c : Char) (h : isTagBlank c = true) : IsAscii c := by
  simp only [isTagBlank, Bool.or_eq_true, beq_iff_eq] at h
  rcases h with (((rfl | rfl) | rfl) | rfl) | rfl
  all_goals decide

theorem asciiTest_starts (hne : word ≠ []) (hword : ∀ c ∈ word, IsAscii c) : AsciiTest (starts word) := by
  refine asciiTest_of_iff (P := (· = word)) ?_ fun t _ => ?_
  · rintro a rfl
    exact ⟨hne, hword⟩
  · rw [starts, List.isPrefixOf_iff_prefix]
    constructor
    · rintro ⟨r, hr⟩
      exact ⟨word, r, rfl, hr.symm⟩
    · rintro ⟨a, r, rfl, hr⟩
      exact ⟨r, hr.symm⟩

theorem asciiTest_opensMarkup : AsciiTest opensMarkup := by
  have hlt : IsAscii '<' := by decide
  have hslash : IsAscii '/' := by decide
  refine asciiTest_of_iff (P := fun a => (∃ c, a = ['<', c] ∧ (c = '!' ∨ c = '?' ∨ c.isAlpha = true)) ∨
    ∃ c, a = ['<', '/', c] ∧ c.isAlpha = true) ?_ fun t _ => ?_
  · rintro a (⟨c, rfl, hc⟩ | ⟨c, rfl, hc⟩)
    · have hascii : IsAscii c := by
        rcases hc with rfl | rfl | hc
        · decide
        · decide
        · exact isAscii_of_isAlpha hc
      exact ⟨by simp, by simp [hascii, hlt]⟩
    · exact ⟨by simp, by simp [isAscii_of_isAlpha hc, hlt, hslash]⟩
  · constructor
    · intro h
      cases hl : Lead.of t with
      | text => simp [opensMarkup, hl] at h
      | comment => exact ⟨['<', '!'], _, Or.inl ⟨'!', rfl, Or.inl rfl⟩, Lead.eq_of_comment hl⟩
      | declaration =>
        obtain ⟨c, r, rfl, hc⟩ := Lead.mark_of_declaration hl
        exact ⟨['<', c], r, Or.inl ⟨c, rfl, hc.imp_right Or.inl⟩, rfl⟩
      | endTag =>
        obtain ⟨c, r, rfl, hc⟩ := Lead.letter_of_endTag hl
        exact ⟨['<', '/', c], r, Or.inr ⟨c, rfl, hc⟩, rfl⟩
      | startTag =>
        obtain ⟨c, r, rfl, hc⟩ := Lead.letter_of_startTag hl
        exact ⟨['<', c], r, Or.inl ⟨c, rfl, Or.inr (Or.inr hc)⟩, rfl⟩
    · rintro ⟨a, r, ⟨c, rfl, hc⟩ | ⟨c, rfl, hc⟩, rfl⟩
      · rcases hc with rfl | rfl | hc
        · exact Lead.opensMarkup_mark (Or.inl rfl) r
        · exact Lead.opensMarkup_mark (Or.inr rfl) r
        · simp [opensMarkup, Lead.of_letter hc]
      · simp [opensMarkup, Lead.of_slash_letter hc]

theorem asciiTest_endsBareValue : AsciiTest StartTag.endsBareValue := by
  refine asciiTest_of_iff (P := fun a => a = ['/', '>'] ∨ ∃ c, a = [c] ∧ (isTagBlank c = true ∨ c = '>'))
    ?_ fun t ht => ?_
  · rintro a (rfl | ⟨c, rfl, hc⟩)
    · exact ⟨by simp, by simp [IsAscii]⟩
    · have hascii : IsAscii c := by
        rcases hc with hc | rfl
        · exact isAscii_of_isTagBlank c hc
        · decide
      exact ⟨by simp, by simp [hascii]⟩
  · constructor
    · intro h
      unfold StartTag.endsBareValue at h
      split at h
      · next r => exact ⟨['/', '>'], r, Or.inl rfl, rfl⟩
      · next c r _ =>
        rw [Bool.or_eq_true, beq_iff_eq] at h
        exact ⟨[c], r, Or.inr ⟨c, rfl, h⟩, rfl⟩
      · exact absurd rfl ht
    · rintro ⟨a, r, rfl | ⟨c, rfl, hc⟩, rfl⟩
      · rfl
      · unfold StartTag.endsBareValue
        split <;> simp_all

/-- Whatever a small letter comes from is ASCII. -/
theorem isAscii_of_toLower (h : IsAscii c.toLower) : IsAscii c := by
  by_cases hc : c.isAlpha = true
  · exact isAscii_of_isAlpha hc
  · have hupper : c.isUpper = false := by
      rw [Char.isAlpha, Bool.or_eq_true, not_or] at hc
      simpa using hc.1
    rwa [Char.toLower_eq_of_not_isUpper (by simp [hupper])] at h

theorem asciiTest_closesBody (hkey : ∀ c ∈ key, IsAscii c) : AsciiTest (StartTag.closesBody key) := by
  refine asciiTest_of_iff (P := fun a => ∃ name g, a = '<' :: '/' :: (name ++ (g ++ ['>'])) ∧
    lower name = key ∧ ∀ c ∈ g, isTagBlank c = true) ?_ fun t _ => ?_
  · rintro a ⟨name, g, rfl, rfl, hg⟩
    refine ⟨by simp, fun c hc => ?_⟩
    simp only [List.mem_cons, List.mem_append, List.not_mem_nil, or_false] at hc
    rcases hc with rfl | rfl | hc | hc | rfl
    · decide
    · decide
    · exact isAscii_of_toLower (hkey _ (List.mem_map_of_mem hc))
    · exact isAscii_of_isTagBlank c (hg c hc)
    · decide
  · rw [StartTag.closesBody_iff]
    constructor
    · rintro ⟨name, g, z, rfl, hname, hg⟩
      exact ⟨_, z, ⟨name, g, rfl, hname, hg⟩, by simp⟩
    · rintro ⟨a, r, ⟨name, g, rfl, hname, hg⟩, rfl⟩
      exact ⟨name, g, r, by simp, hname, hg⟩

end Ascii

namespace ByteScan

variable {input a r v word key name : Text} {decode : Bool} {p : Char → Bool} {here : Text → Bool}
  {c q : Char} {i j : Nat}

/-- The text is what stands in the input from a place on. -/
def At (input : Text) (i : Nat) (r : Text) : Prop := ∃ p, input = p ++ r ∧ byteSize p = i

theorem At.drop (h : At input i r) : (bytes input).drop i = bytes r := by
  obtain ⟨p, rfl, rfl⟩ := h
  rw [bytes_append, ← length_bytes p, List.drop_left]

theorem At.size (h : At input i r) : byteSize input = i + byteSize r := by
  obtain ⟨p, rfl, rfl⟩ := h
  exact byteSize_append p r

theorem At.append (h : At input i (a ++ r)) : At input (i + byteSize a) r := by
  obtain ⟨p, rfl, rfl⟩ := h
  exact ⟨p ++ a, (List.append_assoc ..).symm, byteSize_append p a⟩

theorem At.slice (h : At input i (a ++ r)) : slice? input i (i + byteSize a) = some a := by
  obtain ⟨p, rfl, rfl⟩ := h
  exact slice?_append p a r

theorem At.toEnd (h : At input i r) : slice? input i (byteSize input) = some r := by
  rw [h.size]
  rw [← List.append_nil r] at h
  exact h.slice

theorem byteSize_ascii (hc : IsAscii c) (r : Text) : byteSize (c :: r) = byteSize r + 1 := by
  rw [← length_bytes, bytes_cons, bytes_ascii hc, ← length_bytes]
  rfl

/-- One byte on, behind an ASCII character. -/
theorem At.cons (h : At input i (c :: r)) (hc : IsAscii c) : At input (i + 1) r := by
  have hone : byteSize [c] = 1 := byteSize_ascii hc []
  rw [← hone]
  exact At.append (a := [c]) h

theorem At.byte?_iff (h : At input i r) (hc : IsAscii c) : byte? input i = some c ↔ r.head? = some c := by
  have hbyte : byte? input i = (bytes r).head? := by
    rw [← h.drop, List.head?_drop, byte?]
  have hascii : ∀ d ∈ [c], IsAscii d := fun d hd => by rwa [List.mem_singleton.mp hd]
  rw [hbyte, List.head?_eq_some_iff, List.head?_eq_some_iff]
  constructor
  · rintro ⟨x, hx⟩
    obtain ⟨z, hz, -⟩ := bytes_front (a := [c]) hascii hx
    exact ⟨z, hz⟩
  · rintro ⟨z, rfl⟩
    exact ⟨bytes z, by rw [bytes_cons, bytes_ascii hc]; rfl⟩

theorem At.skip_eq (h : At input i r) (hp : ∀ c, p c = true → IsAscii c) :
    skip input p i = i + byteSize (r.takeWhile p) ∧ At input (skip input p i) (r.dropWhile p) := by
  have hskip : skip input p i = i + byteSize (r.takeWhile p) := by
    have hascii : ∀ c ∈ r.takeWhile p, IsAscii c := fun c hc => hp c (List.mem_takeWhile_imp hc)
    rw [ByteScan.skip, h.drop, (takeWhile_bytes hp r).1, ← length_bytes, bytes_of_ascii hascii]
  rw [← List.takeWhile_append_dropWhile (p := p) (l := r)] at h
  exact ⟨hskip, hskip ▸ h.append⟩

theorem At.slice_skip (h : At input i r) (hp : ∀ c, p c = true → IsAscii c) :
    slice? input i (skip input p i) = some (r.takeWhile p) := by
  rw [(h.skip_eq hp).1]
  exact At.slice (by rwa [List.takeWhile_append_dropWhile])

theorem At.seek_eq (h : At input i r) (hhere : AsciiTest here) :
    seek input here i = i + byteSize (upTo here r) ∧ At input (seek input here i) (onward here r) := by
  have hseek : seek input here i = i + byteSize (upTo here r) := by
    rw [ByteScan.seek, h.drop, (hhere.cut r).1, length_bytes]
  rw [← upTo_append_onward here r] at h
  exact ⟨hseek, hseek ▸ h.append⟩

theorem At.slice_seek (h : At input i r) (hhere : AsciiTest here) :
    slice? input i (seek input here i) = some (upTo here r) := by
  rw [(h.seek_eq hhere).1]
  exact At.slice (by rwa [upTo_append_onward])

theorem At.past_eq (h : At input i r) (word : Text) (hne : word ≠ []) (hword : ∀ c ∈ word, IsAscii c) :
    past input word i = i + byteSize (through word r) ∧
      At input (past input word i) (beyond word r) := by
  have hcut := (asciiTest_starts hne hword).cut r
  have htake : (bytes (onward (starts word) r)).take word.length =
      bytes ((onward (starts word) r).take word.length) := by
    rcases onward_cases (starts word) r with hnil | hstarts
    · simp [hnil, bytes, Utf8.encode]
    · obtain ⟨z, hz⟩ := List.isPrefixOf_iff_prefix.mp hstarts
      rw [← hz, List.take_left, bytes_append, bytes_of_ascii hword, List.take_left]
  have hpast : past input word i = i + byteSize (through word r) := by
    rw [ByteScan.past, h.drop, through, hcut.1, hcut.2, htake, ← bytes_append, ← through, length_bytes]
  rw [← through_append_beyond word r] at h
  exact ⟨hpast, hpast ▸ h.append⟩

theorem At.quoted?_eq (h : At input i (q :: v)) (hq : IsAscii q) :
    quoted? input decode q i =
      some (some (read decode (upTo (starts [q]) v)), i + 1 + byteSize (through [q] v)) := by
  have hv : At input (i + 1) v := h.cons hq
  have htest : AsciiTest (starts [q]) :=
    asciiTest_starts (by simp) fun d hd => by rwa [List.mem_singleton.mp hd]
  obtain ⟨hseek, hat⟩ := hv.seek_eq htest
  have hsize := hat.size
  simp only [quoted?, hv.slice_seek htest, Option.map_some, through]
  rcases onward_cases (starts [q]) v with hnil | hstarts
  · rw [hnil, byteSize] at hsize
    rw [hnil, List.take_nil, List.append_nil, if_neg (by omega), hseek]
  · obtain ⟨z, hz⟩ := List.isPrefixOf_iff_prefix.mp hstarts
    rw [← hz, List.singleton_append, byteSize_ascii hq] at hsize
    have hone : byteSize [q] = 1 := byteSize_ascii hq []
    rw [← hz, if_pos (by omega), hseek, byteSize_append]
    simp [hone, Nat.add_assoc]

theorem skip_skip (h : At input i r) (hp : ∀ c, p c = true → IsAscii c) :
    skip input p (skip input p i) = skip input p i := by
  have hagain := ((h.skip_eq hp).2.skip_eq hp).1
  rwa [takeWhile_dropWhile, byteSize, Nat.add_zero] at hagain

/-- A value, when `before` stands between it and the attribute's name. -/
def given (before : Text) : Text → StartTag.Assigned
  | '"' :: v => StartTag.quoted '"' before v
  | '\'' :: v => StartTag.quoted '\'' before v
  | v => StartTag.bareValue before v

theorem given_bare (hdouble : r.head? ≠ some '"') (hsingle : r.head? ≠ some '\'') (before : Text) :
    given before r = StartTag.bareValue before r := by
  unfold given
  split
  · exact absurd rfl hdouble
  · exact absurd rfl hsingle
  · rfl

theorem assigned_equals {s : Text} (hs : r.dropWhile isTagBlank = '=' :: s) : StartTag.assigned r =
    given (r.takeWhile isTagBlank ++ '=' :: s.takeWhile isTagBlank) (s.dropWhile isTagBlank) := by
  rw [StartTag.assigned, hs]
  rfl

theorem assigned_bare (h : (r.dropWhile isTagBlank).head? ≠ some '=') :
    StartTag.assigned r = ⟨[], none, r⟩ := by
  rw [StartTag.assigned]
  split
  · next s hs => simp [hs] at h
  · rfl

theorem At.given?_eq (h : At input i r) (decode : Bool) (before : Text) : ∃ j,
    given? input decode i = some ((given before r).value.map (read decode), j) ∧
      j + byteSize before = i + byteSize (given before r).source ∧ i ≤ j := by
  have hquoted : ∀ {q v}, IsAscii q → r = q :: v → ∃ j,
      quoted? input decode q i = some ((StartTag.quoted q before v).value.map (read decode), j) ∧
        j + byteSize before = i + byteSize (StartTag.quoted q before v).source ∧ i ≤ j := by
    rintro q v hq rfl
    refine ⟨_, h.quoted?_eq hq, ?_, by omega⟩
    rw [StartTag.quoted, byteSize_append, byteSize_ascii hq]
    omega
  by_cases hdouble : r.head? = some '"'
  · obtain ⟨v, rfl⟩ := List.head?_eq_some_iff.mp hdouble
    rw [given?, if_pos ((h.byte?_iff (by decide)).mpr hdouble)]
    exact hquoted (by decide) rfl
  by_cases hsingle : r.head? = some '\''
  · obtain ⟨v, rfl⟩ := List.head?_eq_some_iff.mp hsingle
    rw [given?, if_neg fun hb => hdouble ((h.byte?_iff (by decide)).mp hb),
      if_pos ((h.byte?_iff (by decide)).mpr hsingle)]
    exact hquoted (by decide) rfl
  -- neither quote: the value runs to a blank or to the end of the tag
  have hseek := (h.seek_eq asciiTest_endsBareValue).1
  rw [given?, if_neg fun hb => hdouble ((h.byte?_iff (by decide)).mp hb),
    if_neg fun hb => hsingle ((h.byte?_iff (by decide)).mp hb), given_bare hdouble hsingle]
  simp only [h.slice_seek asciiTest_endsBareValue, Option.map_some]
  refine ⟨_, rfl, ?_, by omega⟩
  rw [StartTag.bareValue, byteSize_append]
  omega

/-- The value is read as from the text; blanks in front of what follows may be left out with it. -/
theorem At.value?_eq (h : At input i r) (decode : Bool) : ∃ j,
    value? input decode i = some ((StartTag.assigned r).value.map (read decode), j) ∧ i ≤ j ∧
      skip input isTagBlank j =
        skip input isTagBlank (i + byteSize (StartTag.assigned r).source) := by
  have hequals : IsAscii '=' := by decide
  obtain ⟨hskip, hat⟩ := h.skip_eq isAscii_of_isTagBlank
  by_cases heq : (r.dropWhile isTagBlank).head? = some '='
  · obtain ⟨s, hs⟩ := List.head?_eq_some_iff.mp heq
    have hbyte := (hat.byte?_iff hequals).mpr heq
    rw [hs] at hat
    obtain ⟨hskip', hat'⟩ := (hat.cons hequals).skip_eq isAscii_of_isTagBlank
    obtain ⟨j, hgiven, hj, hle⟩ :=
      hat'.given?_eq decode (r.takeWhile isTagBlank ++ '=' :: s.takeWhile isTagBlank)
    rw [value?, if_pos hbyte, assigned_equals hs]
    rw [byteSize_append, byteSize_ascii hequals] at hj
    exact ⟨j, hgiven, by omega, congrArg _ (by omega)⟩
  · rw [value?, if_neg fun hb => heq ((hat.byte?_iff hequals).mp hb), assigned_bare heq]
    refine ⟨_, rfl, le_skip .., ?_⟩
    rw [skip_skip h isAscii_of_isTagBlank, byteSize, Nat.add_zero]

/-- Blanks at the front make no difference. -/
theorem attributes?_congr (h : skip input isTagBlank i = skip input isTagBlank j) :
    attributes? input decode i = attributes? input decode j := by
  rw [attributes?.eq_def input decode i, attributes?.eq_def input decode j, h]

/-- The attributes as they are kept. -/
def kept (decode : Bool) (es : List (Text × Option Text)) : List (Text × Option Text) :=
  es.map fun e => (e.1, e.2.map (read decode))

theorem At.lt (h : At input i (c :: r)) : i < byteSize input := by
  have hpos := c.utf8Size_pos
  rw [h.size, byteSize]
  omega

theorem byteSize_pos (h : r ≠ []) : 0 < byteSize r := by
  obtain ⟨c, s, rfl⟩ := List.exists_cons_of_ne_nil h
  exact Nat.add_pos_left c.utf8Size_pos _

theorem At.lt_of_shorter {s : Text} (h : At input i r) (h' : At input j s) (hlt : s.length < r.length) :
    i < j := by
  obtain ⟨p, hp, rfl⟩ := h
  obtain ⟨q, hq, rfl⟩ := h'
  have hlength := congrArg List.length (hp.symm.trans hq)
  rw [List.length_append, List.length_append] at hlength
  obtain ⟨x, rfl⟩ : p <+: q :=
    List.prefix_of_prefix_length_le ⟨r, hp.symm⟩ ⟨s, hq.symm⟩ (by omega)
  have hx : x ≠ [] := by
    rintro rfl
    simp at hlength
    omega
  have hpos := byteSize_pos hx
  rw [byteSize_append]
  omega

theorem At.skip_self (h : At input i (c :: r)) (hp : ∀ c, p c = true → IsAscii c) (hc : p c = false) :
    skip input p i = i := by
  rw [(h.skip_eq hp).1, List.takeWhile_cons_of_neg (by simp [hc]), byteSize, Nat.add_zero]

theorem At.byte?_ne {d : Char} (h : At input i (c :: r)) (hd : IsAscii d) (hne : c ≠ d) :
    byte? input i ≠ some d := by
  rw [Ne, h.byte?_iff hd, List.head?_cons, Option.some.injEq]
  exact hne

theorem At.attributes?_end (h : At input i []) :
    attributes? input decode i = some ([], .missing, i) := by
  have hskip := (h.skip_eq isAscii_of_isTagBlank).1
  have hsize := h.size
  rw [List.takeWhile_nil] at hskip
  rw [byteSize, Nat.add_zero] at hskip hsize
  rw [attributes?.eq_def, hskip, if_neg (by omega)]

theorem At.attributes?_gt (h : At input i ('>' :: r)) :
    attributes? input decode i = some ([], .closed, i + 1) := by
  rw [attributes?.eq_def, h.skip_self isAscii_of_isTagBlank (by decide), if_pos h.lt,
    if_pos ((h.byte?_iff (by decide)).mpr rfl)]

theorem At.attributes?_slash_gt (h : At input i ('/' :: '>' :: r)) :
    attributes? input decode i = some ([], .selfClosed, i + 2) := by
  have hnext : At input (i + 1) ('>' :: r) := h.cons (by decide)
  rw [attributes?.eq_def, h.skip_self isAscii_of_isTagBlank (by decide), if_pos h.lt,
    if_neg (h.byte?_ne (by decide) (by decide)), if_pos ((h.byte?_iff (by decide)).mpr rfl),
    if_pos ((hnext.byte?_iff (by decide)).mpr rfl)]

theorem utf8Size_ascii (hc : IsAscii c) : c.utf8Size = 1 := byteSize_ascii hc []

theorem At.attributes?_blank (h : At input i (c :: r)) (hc : isTagBlank c = true) :
    attributes? input decode i = attributes? input decode (i + c.utf8Size) := by
  have hascii : IsAscii c := isAscii_of_isTagBlank c hc
  rw [utf8Size_ascii hascii]
  refine attributes?_congr ?_
  rw [(h.skip_eq isAscii_of_isTagBlank).1, ((h.cons hascii).skip_eq isAscii_of_isTagBlank).1,
    List.takeWhile_cons_of_pos hc, byteSize_ascii hascii]
  omega

/-- A slash that does not end the tag. -/
theorem At.attributes?_slash (h : At input i ('/' :: r)) (hr : r.head? ≠ some '>') :
    attributes? input decode i = attributes? input decode (i + 1) := by
  have hnext : byte? input (i + 1) ≠ some '>' := by
    rw [Ne, (h.cons (by decide)).byte?_iff (by decide)]
    exact hr
  rw [attributes?.eq_def, h.skip_self isAscii_of_isTagBlank (by decide), if_pos h.lt,
    if_neg (h.byte?_ne (by decide) (by decide)), if_pos ((h.byte?_iff (by decide)).mpr rfl), if_neg hnext]

/-- What can begin neither an attribute nor the end of the tag is stepped over, however many bytes it
takes. -/
theorem At.attributes?_skip (h : At input i (c :: r)) (hgt : c ≠ '>')
    (hslash : c = '/' → r.head? ≠ some '>') (hc : isAttributeChar c = false) :
    attributes? input decode i = attributes? input decode (i + c.utf8Size) := by
  by_cases hb : isTagBlank c = true
  · exact h.attributes?_blank hb
  by_cases hsl : c = '/'
  · subst hsl
    exact h.attributes?_slash (hslash rfl)
  have hself : skip input isAttributeChar i = i := h.skip_self isAscii_of_isAttributeChar hc
  rw [attributes?.eq_def, h.skip_self isAscii_of_isTagBlank (by simpa using hb), if_pos h.lt,
    if_neg (h.byte?_ne (by decide) hgt), if_neg (h.byte?_ne (by decide) hsl)]
  simp only [if_pos hself, h.toEnd]

/-- A name is read with its value, and reading goes on behind both. -/
theorem At.attributes?_name (h : At input i (c :: r)) (hc : isAttributeChar c = true) :
    attributes? input decode i =
      (attributes? input decode (i + byteSize (c :: r.takeWhile isAttributeChar) +
        byteSize (StartTag.assigned (r.dropWhile isAttributeChar)).source)).map
      fun (later, ending, last) => ((c :: r.takeWhile isAttributeChar,
        (StartTag.assigned (r.dropWhile isAttributeChar)).value.map (read decode)) :: later, ending, last) := by
  have hends : c ≠ '>' ∧ c ≠ '/' := by
    constructor
    all_goals
      rintro rfl
      cases hc
  obtain ⟨hstop, hat⟩ := h.skip_eq isAscii_of_isAttributeChar
  have hslice := h.slice_skip isAscii_of_isAttributeChar
  rw [List.takeWhile_cons_of_pos hc] at hstop hslice
  rw [List.dropWhile_cons_of_pos hc] at hat
  have hlonger : i < skip input isAttributeChar i := by
    have hpos := byteSize_pos (List.cons_ne_nil c (r.takeWhile isAttributeChar))
    omega
  obtain ⟨j, hvalue, hle, hskip⟩ := hat.value?_eq decode
  rw [attributes?.eq_def, h.skip_self isAscii_of_isTagBlank (StartTag.attributeChar_stops hc).1,
    if_pos h.lt, if_neg (h.byte?_ne (by decide) hends.1), if_neg (h.byte?_ne (by decide) hends.2)]
  simp only [if_neg hlonger.ne', hslice, hvalue]
  rw [if_pos (by omega), attributes?_congr hskip, hstop]

/-- The rest of a start tag is read as from the text. -/
theorem At.attributes?_eq (h : At input i r) : attributes? input decode i =
    some (kept decode (StartTag.tailOf r).attributes, (StartTag.tailOf r).ending,
      i + byteSize (StartTag.tailOf r).source) := by
  fun_induction StartTag.tailOf r generalizing i with
  | case1 => exact h.attributes?_end
  | case2 r => exact h.attributes?_gt
  | case3 r => exact h.attributes?_slash_gt
  | case4 c r _ _ hc name given later =>
    rename_i ih
    have hname : At input i (name ++ (given.source ++ given.rest)) := by
      rw [StartTag.source_append_rest_assigned, List.cons_append, List.takeWhile_append_dropWhile]
      exact h
    rw [h.attributes?_name hc, ih hname.append.append, Option.map_some]
    simp only [byteSize_append, Nat.add_assoc]
    rfl
  | case5 c r hgt hslash hc later =>
    rename_i ih
    have hends : c = '/' → r.head? ≠ some '>' := by
      rintro hc' hhead
      obtain ⟨z, hz⟩ := List.head?_eq_some_iff.mp hhead
      exact hslash z hc' hz
    have hrest : At input (i + c.utf8Size) r := At.append (a := [c]) h
    rw [h.attributes?_skip hgt hends (by simpa using hc), ih hrest, Nat.add_assoc]
    rfl

end ByteScan
end TemplateTree
