import TemplateTree.Proofs.Text.ByteOrder
import TemplateTree.Proofs.Token.Reread

/-! Searching the bytes of a text. What is looked for begins with an ASCII character and consists of such
characters, so a search made byte by byte never stops inside a longer character. -/
namespace TemplateTree.Text

variable {here : Text → Bool} {p : Char → Bool} {a b key m r t u word x : Text} {c : Char} {i j n : Nat}

/-- The bytes of a text, each as the character of that number. -/
def bytes (t : Text) : Text := (Utf8.encode t).map fun b => Char.ofNat b.toNat

/-- A character that is a single byte. -/
def IsAscii (c : Char) : Prop := c.toNat < 0x80

instance (c : Char) : Decidable (IsAscii c) := inferInstanceAs (Decidable (c.toNat < 0x80))

theorem bytes_append (t u : Text) : bytes (t ++ u) = bytes t ++ bytes u := by
  rw [bytes, Utf8.encode, List.flatMap_append, List.map_append]
  rfl

theorem bytes_cons (c : Char) (r : Text) : bytes (c :: r) = bytes [c] ++ bytes r := bytes_append [c] r

theorem length_bytes (t : Text) : (bytes t).length = byteSize t := by
  induction t with
  | nil => rfl
  | cons c r ih =>
    have hc : (bytes [c]).length = c.utf8Size := by simp [bytes, Utf8.encode]
    rw [bytes_cons, List.length_append, ih, hc, byteSize]

theorem bytes_ascii (hc : IsAscii c) : bytes [c] = [c] := by
  have hle : c.val ≤ 127 := UInt32.le_iff_toNat_le.mpr (Nat.le_of_lt_succ hc)
  have hone : String.utf8EncodeChar c = [c.val.toUInt8] :=
    String.utf8EncodeChar_eq_singleton (Char.utf8Size_eq_one_iff.mpr hle)
  have hnat : c.val.toUInt8.toNat = c.toNat :=
    Nat.mod_eq_of_lt (Nat.lt_trans hc (by decide))
  have hbytes : bytes [c] = [Char.ofNat c.val.toUInt8.toNat] := by simp [bytes, Utf8.encode, hone]
  rw [hbytes, hnat, Char.ofNat_toNat]

/-- No byte of a longer character is an ASCII character. -/
theorem not_isAscii_of_mem_bytes (hc : ¬ IsAscii c) {d : Char} (hd : d ∈ bytes [c]) : ¬ IsAscii d := by
  have hbig : ∀ b ∈ String.utf8EncodeChar c, 128 ≤ b.toNat := by
    have hv : 127 < c.val.toNat := Nat.not_lt.mp hc
    rw [String.utf8EncodeChar]
    generalize c.val.toNat = v at hv
    intro b hb
    simp only [Nat.not_le.mpr hv, if_false] at hb
    split_ifs at hb <;> simp only [List.mem_cons, List.not_mem_nil, or_false] at hb <;>
      rcases hb with rfl | rfl | rfl | rfl <;> simp only [UInt8.toNat_ofNat'] <;> omega
  have hmem : d ∈ (String.utf8EncodeChar c).map fun b => Char.ofNat b.toNat := by
    simpa [bytes, Utf8.encode] using hd
  obtain ⟨b, hb, rfl⟩ := List.mem_map.mp hmem
  have hlt : b.toNat < 256 := b.toNat_lt
  have hnat : (Char.ofNat b.toNat).toNat = b.toNat := by
    have hvalid : b.toNat.isValidChar := Or.inl (by omega)
    simp [Char.ofNat, hvalid, Char.toNat, Char.ofNatAux]
  rw [IsAscii, hnat]
  exact Nat.not_lt.mpr (hbig b hb)

theorem bytes_of_ascii (h : ∀ c ∈ a, IsAscii c) : bytes a = a := by
  induction a with
  | nil => rfl
  | cons c a ih =>
    rw [bytes_cons, bytes_ascii (h c List.mem_cons_self), ih fun d hd => h d (List.mem_cons_of_mem c hd)]
    rfl

theorem bytes_char_ne_nil (c : Char) : bytes [c] ≠ [] := by
  intro h
  have hlength := congrArg List.length h
  rw [length_bytes, byteSize, byteSize] at hlength
  exact Nat.ne_of_gt c.utf8Size_pos hlength

/-- ASCII characters at the head of the bytes stand at the head of the text. -/
theorem bytes_front (ha : ∀ c ∈ a, IsAscii c) (h : bytes t = a ++ x) :
    ∃ r, t = a ++ r ∧ bytes r = x := by
  induction a generalizing t with
  | nil => exact ⟨t, rfl, h⟩
  | cons c a ih =>
    cases t with
    | nil => cases h
    | cons d r =>
      rw [bytes_cons] at h
      have hc := ha c List.mem_cons_self
      by_cases hd : IsAscii d
      · rw [bytes_ascii hd] at h
        obtain ⟨rfl, hrest⟩ := List.cons.inj h
        obtain ⟨z, rfl, hz⟩ := ih (fun e he => ha e (List.mem_cons_of_mem d he)) hrest
        exact ⟨z, rfl, hz⟩
      · obtain ⟨e, es, hes⟩ := List.exists_cons_of_ne_nil (bytes_char_ne_nil d)
        rw [hes] at h
        obtain ⟨rfl, -⟩ := List.cons.inj h
        exact absurd hc (not_isAscii_of_mem_bytes hd (by rw [hes]; exact List.mem_cons_self))

/-- The test fails where the character is not ASCII, and says of the bytes what it says of the text. -/
structure AsciiTest (here : Text → Bool) : Prop where
  fails : ∀ {c} r, ¬ IsAscii c → here (c :: r) = false
  bytes : ∀ t, here (bytes t) = here t

/-- So does a test that holds where one of some ASCII texts stands. -/
theorem asciiTest_of_iff {P : Text → Prop} (hP : ∀ a, P a → a ≠ [] ∧ ∀ c ∈ a, IsAscii c)
    (h : ∀ t, t ≠ [] → (here t = true ↔ ∃ a r, P a ∧ t = a ++ r)) : AsciiTest here where
  fails := by
    intro c r hc
    refine Bool.eq_false_iff.mpr fun hhere => ?_
    obtain ⟨a, z, ha, hcons⟩ := (h _ (List.cons_ne_nil c r)).mp hhere
    obtain ⟨hne, hascii⟩ := hP a ha
    obtain ⟨d, a, rfl⟩ := List.exists_cons_of_ne_nil hne
    obtain ⟨rfl, -⟩ := List.cons.inj hcons
    exact hc (hascii c List.mem_cons_self)
  bytes := by
    intro t
    cases t with
    | nil => rfl
    | cons c t =>
      have hne : bytes (c :: t) ≠ [] := by
        rw [bytes_cons]
        exact List.append_ne_nil_of_left_ne_nil (bytes_char_ne_nil c) _
      rw [Bool.eq_iff_iff, h _ hne, h _ (List.cons_ne_nil c t)]
      constructor
      · rintro ⟨a, r, ha, hr⟩
        obtain ⟨z, hz, -⟩ := bytes_front (hP a ha).2 hr
        exact ⟨a, z, ha, hz⟩
      · rintro ⟨a, r, ha, hr⟩
        exact ⟨a, bytes r, ha, by rw [hr, bytes_append, bytes_of_ascii (hP a ha).2]⟩

theorem cut_skip (h : ∀ c ∈ a, ∀ r, here (c :: r) = false) (x : Text) :
    upTo here (a ++ x) = a ++ upTo here x ∧ onward here (a ++ x) = onward here x := by
  induction a with
  | nil => exact ⟨rfl, rfl⟩
  | cons c a ih =>
    obtain ⟨hup, hon⟩ := ih fun d hd => h d (List.mem_cons_of_mem c hd)
    simp [upTo, onward, h c List.mem_cons_self, hup, hon]

/-- A search by bytes stops where the search by characters does. -/
theorem AsciiTest.cut (h : AsciiTest here) (t : Text) :
    upTo here (Text.bytes t) = Text.bytes (upTo here t) ∧
      onward here (Text.bytes t) = Text.bytes (onward here t) := by
  induction t with
  | nil => exact ⟨rfl, rfl⟩
  | cons c t ih =>
    by_cases hc : IsAscii c
    · have hcons : Text.bytes (c :: t) = c :: Text.bytes t := by rw [bytes_cons, bytes_ascii hc]; rfl
      have hsame := h.bytes (c :: t)
      rw [hcons] at hsame
      by_cases hhere : here (c :: t) = true
      · rw [hhere] at hsame
        simp [upTo, onward, hcons, hhere, hsame, show Text.bytes [] = [] from rfl]
      · rw [Bool.not_eq_true] at hhere
        rw [hhere] at hsame
        have hgo : Text.bytes (c :: upTo here t) = c :: Text.bytes (upTo here t) := by
          rw [bytes_cons, bytes_ascii hc]
          rfl
        simp [upTo, onward, hcons, hhere, hsame, ih.1, ih.2, hgo]
    · obtain ⟨hup, hon⟩ := cut_skip (a := Text.bytes [c])
        (fun d hd r => h.fails r (not_isAscii_of_mem_bytes hc hd)) (Text.bytes t)
      rw [bytes_cons, hup, hon, ih.1, ih.2, upTo, onward, h.fails t hc]
      simp [bytes_cons c (upTo here t)]

theorem takeWhile_bytes (hp : ∀ c, p c = true → IsAscii c) (t : Text) :
    (bytes t).takeWhile p = t.takeWhile p ∧ (bytes t).dropWhile p = bytes (t.dropWhile p) := by
  induction t with
  | nil => exact ⟨rfl, rfl⟩
  | cons c t ih =>
    by_cases hc : p c = true
    · have hcons : bytes (c :: t) = c :: bytes t := by rw [bytes_cons, bytes_ascii (hp c hc)]; rfl
      simp [hcons, hc, ih.1, ih.2]
    · have hstop : ∀ d r, bytes (c :: t) = d :: r → p d = false := by
        intro d r hd
        refine Bool.eq_false_iff.mpr fun hpd => ?_
        have hdascii : ∀ e ∈ [d], IsAscii e := fun e he => hp e (by rwa [List.mem_singleton.mp he])
        obtain ⟨z, hz, -⟩ := bytes_front hdascii hd
        obtain ⟨rfl, -⟩ := List.cons.inj hz
        exact hc hpd
      obtain ⟨d, r, hd⟩ := List.exists_cons_of_ne_nil (bytes_char_ne_nil c)
      have hbytes : bytes (c :: t) = d :: (r ++ bytes t) := by rw [bytes_cons, hd]; rfl
      have hpd := hstop d _ hbytes
      rw [List.takeWhile_cons_of_neg hc, List.dropWhile_cons_of_neg hc, hbytes,
        List.takeWhile_cons_of_neg (by simp [hpd]), List.dropWhile_cons_of_neg (by simp [hpd])]
      exact ⟨rfl, rfl⟩

/-- The place lies between two characters, or at an end of the text. -/
def IsBoundary (t : Text) (i : Nat) : Prop := ∃ a b, t = a ++ b ∧ byteSize a = i

/-- The text before and after a place, none when the place lies inside a character or beyond the end. -/
def cut? : Nat → Text → Option (Text × Text)
  | 0, t => some ([], t)
  | _ + 1, [] => none
  | n + 1, c :: r =>
    if c.utf8Size ≤ n + 1 then (cut? (n + 1 - c.utf8Size) r).map fun (a, b) => (c :: a, b) else none

/-- The text between two places, none when one of them is no boundary or they are out of order. -/
def slice? (t : Text) (i j : Nat) : Option Text :=
  if i ≤ j then (cut? i t).bind fun (_, r) => (cut? (j - i) r).map (·.1) else none

example : slice? "aéb".toList 1 3 = some ['é'] := by decide

example : slice? "aéb".toList 1 2 = none := by decide

theorem cut?_append (a b : Text) : cut? (byteSize a) (a ++ b) = some (a, b) := by
  induction a with
  | nil => rw [byteSize, cut?, List.nil_append]
  | cons c a ih =>
    have hpos := c.utf8Size_pos
    have hsum : byteSize (c :: a) = c.utf8Size + byteSize a := rfl
    obtain ⟨n, hn⟩ : ∃ n, byteSize (c :: a) = n + 1 := Nat.exists_eq_succ_of_ne_zero (by omega)
    have hsize : c.utf8Size ≤ n + 1 ∧ n + 1 - c.utf8Size = byteSize a := by omega
    rw [hn, List.cons_append, cut?, if_pos hsize.1, hsize.2, ih]
    rfl

theorem slice?_append (a m b : Text) :
    slice? (a ++ (m ++ b)) (byteSize a) (byteSize a + byteSize m) = some m := by
  rw [slice?, if_pos (Nat.le_add_right ..), cut?_append, Option.bind_some, Nat.add_sub_cancel_left]
  simp only [cut?_append, Option.map_some]

end TemplateTree.Text
