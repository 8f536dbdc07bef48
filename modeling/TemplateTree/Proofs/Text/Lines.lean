import TemplateTree.Attribute.Reference
import TemplateTree.Text.Lines
import Mathlib.Tactic.Common

/-! Shown lines, read back. The character behind a backslash says how far an escape goes, so a line
can be taken apart again, also where the text itself looks like an escape. -/
namespace TemplateTree.Text

variable {c : Char}

/-- What a letter behind a backslash stands for. -/
def meant (c : Char) : Char :=
  if c = 'n' then '\n' else if c = 'r' then '\r' else if c = 't' then '\t' else c

/-- The text that a line shows. -/
def unescapeLine : Text → Text
  | '\\' :: 'u' :: '\x7b' :: high :: low :: '\x7d' :: r =>
    Char.ofNat (Reference.value 16 [high, low]) :: unescapeLine r
  | '\\' :: c :: r => meant c :: unescapeLine r
  | c :: r => c :: unescapeLine r
  | [] => []

theorem unescapeLine_of_ne (hc : c ≠ '\\') (r : Text) : unescapeLine (c :: r) = c :: unescapeLine r := by
  rw [unescapeLine]
  · intro high low r h
    exact absurd h hc
  · intro d r h
    exact absurd h hc

/-- Two digits of base sixteen are enough for a control character. -/
theorem value_capitalDigit : ∀ n < 32, Reference.value 16 [capitalDigit (n / 16), capitalDigit (n % 16)] = n := by
  decide

theorem le_capitalDigit : ∀ n < 16, 0x20 ≤ (capitalDigit n).toNat := by
  decide

theorem toNat_lt (h : c < ' ') : c.toNat < 32 := h

/-- One character is read back, whatever follows it. -/
theorem unescapeLine_escapeChar (c : Char) (r : Text) :
    unescapeLine (escapeChar c ++ r) = c :: unescapeLine r := by
  simp only [escapeChar]
  split_ifs with hslash hquote hline hreturn htab hcontrol
  · simp [hslash, unescapeLine, meant]
  · simp [hquote, unescapeLine, meant]
  · simp [hline, unescapeLine, meant]
  · simp [hreturn, unescapeLine, meant]
  · simp [htab, unescapeLine, meant]
  · have hvalue := value_capitalDigit c.toNat (toNat_lt hcontrol)
    simp [unescapeLine, hvalue]
  · exact unescapeLine_of_ne hslash r

theorem unescapeLine_escapeLine (t : Text) : unescapeLine (escapeLine t) = t := by
  induction t with
  | nil => rfl
  | cons c r ih =>
    have hcons : escapeLine (c :: r) = escapeChar c ++ escapeLine r := rfl
    rw [hcons, unescapeLine_escapeChar, ih]

/-- No character of an escape moves the cursor. -/
theorem le_of_mem_escapeChar (c : Char) : ∀ d ∈ escapeChar c, 0x20 ≤ d.toNat := by
  simp only [escapeChar]
  split_ifs with hslash hquote hline hreturn htab hcontrol
  · simp
  · simp
  · simp
  · simp
  · simp
  · have hlt := toNat_lt hcontrol
    have hhigh := le_capitalDigit (c.toNat / 16) (by omega)
    have hlow := le_capitalDigit (c.toNat % 16) (by omega)
    simp [hhigh, hlow]
  · intro d hd
    obtain rfl := List.mem_singleton.mp hd
    exact Nat.le_of_not_lt hcontrol

theorem splitLines_ne_nil (t : Text) : splitLines t ≠ [] := by
  cases t with
  | nil => simp [splitLines]
  | cons c r =>
    simp only [splitLines]
    split_ifs
    · simp
    · split <;> simp

/-- Between the lines there are the line ends and nothing else. -/
theorem intercalate_splitLines (t : Text) : ['\n'].intercalate (splitLines t) = t := by
  induction t with
  | nil => rfl
  | cons c r ih =>
    obtain ⟨line, lines, hr⟩ := List.exists_cons_of_ne_nil (splitLines_ne_nil r)
    rw [hr] at ih
    by_cases hc : c = '\n'
    · subst c
      simp [splitLines, hr, List.intercalate_cons_cons, ih]
    · have hfront : ['\n'].intercalate ((c :: line) :: lines) = c :: ['\n'].intercalate (line :: lines) := by
        cases lines <;> simp [List.intercalate_cons_cons]
      simp [splitLines, hc, hr, hfront, ih]

/-- Shown lines give back the text: each line reads back as what it shows, no line has a character that
moves the cursor, and so two texts that are shown alike are the same. -/
theorem shownLines_faithful :
    (∀ t, unescapeLine (escapeLine t) = t) ∧ (∀ t, ∀ c ∈ escapeLine t, 0x20 ≤ c.toNat) ∧
      (∀ t, ['\n'].intercalate ((shownLines t).map unescapeLine) = t) ∧
      ∀ a b, shownLines a = shownLines b ↔ a = b := by
  have hjoin (t : Text) : ['\n'].intercalate ((shownLines t).map unescapeLine) = t := by
    have hlines : (shownLines t).map unescapeLine = splitLines t := by
      simp [shownLines, Function.comp_def, unescapeLine_escapeLine]
    rw [hlines, intercalate_splitLines]
  refine ⟨unescapeLine_escapeLine, fun t c hc => ?_, hjoin, fun a b => ⟨fun h => ?_, congrArg _⟩⟩
  · obtain ⟨d, -, hd⟩ := List.mem_flatMap.mp hc
    exact le_of_mem_escapeChar d c hd
  · rw [← hjoin a, h, hjoin b]

/-- An escape that stands in the text is shown otherwise than the character that it looks like. -/
example : escapeLine "\\u\x7b01\x7d\x01".toList = "\\\\u\x7b01\x7d\\u\x7b01\x7d".toList := by decide

end TemplateTree.Text
