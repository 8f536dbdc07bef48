import TemplateTree.Proofs.Token.Spans

/-! The scanner on bytes goes through the tokens of the input round by round. It always ends, and the
ranges it returns cover the input. -/
namespace TemplateTree

open Text

/-- The token as the scanner on bytes gives it. -/
def Token.placed (decode : Bool) : Token → Placed
  | raw o s => .raw ⟨o, o + byteSize s⟩
  | start t => .start t.key ⟨t.offset, t.offset + byteSize t.source⟩
      ⟨t.offset + 1, t.offset + 1 + byteSize t.name⟩ (ByteScan.kept decode t.attributes) t.ending
      t.isVoid
  | stop t => .stop t.key ⟨t.offset, t.offset + byteSize t.source⟩

/-- The tokens of the input by the places where they stand. -/
def Token.layout (decode : Bool) (input : Text) : List Placed := (scan input).map (placed decode)

/-- A text from `i` to `j`, and nothing when the range is empty. -/
def between (i j : Nat) : List Placed := if i < j then [.raw ⟨i, j⟩] else []

namespace ByteScan

variable {input a r key : Text} {decode : Bool} {here : Text → Bool} {c : Char} {i j : Nat}

/-- A round that reads the first tokens of the text, and the text behind them. -/
structure Round (input : Text) (decode : Bool) (i : Nat) (r : Text) (out : Option (List Placed × Nat)) :
    Prop where
  exists_tokens : ∃ us next rest, out = some (us.map (Token.placed decode), next) ∧
    Token.scanFrom i r = us ++ Token.scanFrom next rest ∧ At input next rest ∧ rest.length < r.length

/-- A round of one token without a body. -/
theorem round_single {tok : Token} {rest : Text} (h : At input i r) (hr : r ≠ [])
    (hnext : Token.next i r = (tok, rest)) (hbody : tok.afterBody rest = rest) :
    Round input decode i r (some ([tok.placed decode], i + byteSize tok.source)) := by
  have hsource : tok.source ++ rest = r := by
    have := Token.source_append_next i r
    rwa [hnext] at this
  have hnone : tok.body rest = [] := by
    have hsplit := Token.body_append_afterBody tok rest
    rw [hbody] at hsplit
    exact List.append_left_eq_self.mp hsplit
  have hlength : rest.length < r.length := by
    have := Token.length_next_lt i r hr
    rwa [hnext, hbody] at this
  refine ⟨[tok], _, rest, rfl, ?_, At.append (by rwa [hsource]), hlength⟩
  rw [Token.scanFrom, if_neg hr, hnext]
  simp [Token.ofBody, hnone, hbody, byteSize]

theorem seek_succ (hi : i < byteSize input) (h : here ((bytes input).drop i) = false) :
    seek input here (i + 1) = seek input here i := by
  have hlength : i < (bytes input).length := by rwa [length_bytes]
  have hdrop := List.drop_eq_getElem_cons hlength
  rw [hdrop] at h
  rw [seek, seek, hdrop, upTo, h]
  simp
  omega

theorem At.opensMarkup_drop (h : At input i r) : opensMarkup ((bytes input).drop i) = opensMarkup r := by
  rw [h.drop, asciiTest_opensMarkup.bytes]

theorem round?_text (h : At input i r) (hr : r ≠ []) (hl : Lead.of r = .text) :
    Round input decode i r (round? input decode i) := by
  have hno : opensMarkup r = false := by simp [opensMarkup, hl]
  have hbytes : opensMarkup ((bytes input).drop i) = false := h.opensMarkup_drop.trans hno
  have hi : i < byteSize input := by
    obtain ⟨c, r, rfl⟩ := List.exists_cons_of_ne_nil hr
    exact h.lt
  have hround : round? input decode i = some
      ([(Token.raw i (upTo opensMarkup r)).placed decode], i + byteSize (upTo opensMarkup r)) := by
    -- nothing opens at `i`, so the search from the next byte on is the search from `i` on
    rw [round?, if_neg (by simp [hbytes]), seek_succ hi hbytes]
    simp only [h.slice_seek asciiTest_opensMarkup, Option.map_some]
    rw [(h.seek_eq asciiTest_opensMarkup).1]
    rfl
  rw [hround]
  exact round_single h hr (by rw [Token.next, hl]) rfl

theorem round?_comment (h : At input i r) (hr : r ≠ []) (hl : Lead.of r = .comment) :
    Round input decode i r (round? input decode i) := by
  have hopens : opensMarkup ((bytes input).drop i) = true := by
    rw [h.opensMarkup_drop, opensMarkup, hl]
    rfl
  have hshape : r = "<!--".toList ++ r.drop 4 := Lead.eq_of_comment hl
  have hstarts : starts "<!--".toList r = true := by
    rw [hshape]
    rfl
  have hat : At input (i + 4) (r.drop 4) := At.append (a := "<!--".toList) (by rwa [← hshape])
  have hpast := (hat.past_eq "-->".toList (by decide) (by simp [IsAscii])).1
  have hround : round? input decode i = some
      ([(Token.raw i (r.take 4 ++ through "-->".toList (r.drop 4))).placed decode],
        i + byteSize (r.take 4 ++ through "-->".toList (r.drop 4))) := by
    have hfour : byteSize (r.take 4) = 4 := by
      rw [hshape]
      rfl
    have hplace : i + byteSize (r.take 4 ++ through "-->".toList (r.drop 4)) =
        past input "-->".toList (i + 4) := by
      rw [byteSize_append, hpast, hfour, Nat.add_assoc]
    rw [Token.placed, hplace, round?, if_pos hopens, h.toEnd]
    simp only [Option.bind_eq_bind, Option.bind_some, if_pos hstarts, hat.toEnd]
  rw [hround]
  exact round_single h hr (by rw [Token.next, hl]) rfl

theorem round?_declaration (h : At input i r) (hr : r ≠ []) (hl : Lead.of r = .declaration) :
    Round input decode i r (round? input decode i) := by
  have hopens : opensMarkup ((bytes input).drop i) = true := by
    rw [h.opensMarkup_drop, opensMarkup, hl]
    rfl
  have hnocomment : starts "<!--".toList r = false := by
    refine Bool.eq_false_iff.mpr fun hstarts => ?_
    obtain ⟨z, rfl⟩ := List.isPrefixOf_iff_prefix.mp hstarts
    cases hl
  obtain ⟨c, s, rfl, hc⟩ := Lead.mark_of_declaration hl
  have hmark : byte? input (i + 1) = some '!' ∨ byte? input (i + 1) = some '?' := by
    have hat := h.cons (by decide)
    rcases hc with rfl | rfl
    · exact Or.inl ((hat.byte?_iff (by decide)).mpr rfl)
    · exact Or.inr ((hat.byte?_iff (by decide)).mpr rfl)
  have hpast := (h.past_eq ">".toList (by decide) (by simp [IsAscii])).1
  have hround : round? input decode i = some
      ([(Token.raw i (through ">".toList ('<' :: c :: s))).placed decode],
        i + byteSize (through ">".toList ('<' :: c :: s))) := by
    rw [Token.placed, ← hpast, round?, if_pos hopens, h.toEnd]
    simp only [Option.bind_eq_bind, Option.bind_some, hnocomment, Bool.false_eq_true, if_false, if_pos hmark]
  rw [hround]
  exact round_single h hr (by rw [Token.next, hl]) rfl

/-- A tag is told from a comment and a declaration by its second byte. -/
theorem round?_tag (h : At input i ('<' :: c :: r)) (hl : opensMarkup ('<' :: c :: r) = true)
    (hbang : c ≠ '!') (hquery : c ≠ '?') :
    round? input decode i = if byte? input (i + 1) = some '/' then
      (slice? input (i + 2) (skip input isNameChar (i + 2))).map fun name =>
        ([.stop (lower name) ⟨i, past input ">".toList (skip input isNameChar (i + 2))⟩],
          past input ">".toList (skip input isNameChar (i + 2)))
      else startTag? input decode i := by
  have hopens : opensMarkup ((bytes input).drop i) = true := h.opensMarkup_drop.trans hl
  have hnocomment : starts "<!--".toList ('<' :: c :: r) = false := by
    simp [starts, List.isPrefixOf, Ne.symm hbang]
  have hat := h.cons (by decide)
  have hnomark : ¬ (byte? input (i + 1) = some '!' ∨ byte? input (i + 1) = some '?') := by
    rintro (hb | hb)
    · exact hat.byte?_ne (by decide) hbang hb
    · exact hat.byte?_ne (by decide) hquery hb
  rw [round?, if_pos hopens, h.toEnd]
  simp only [Option.bind_eq_bind, Option.bind_some, hnocomment, Bool.false_eq_true, if_false,
    if_neg hnomark]
  rw [Option.map_eq_bind]
  rfl

theorem round?_endTag (h : At input i r) (hr : r ≠ []) (hl : Lead.of r = .endTag) :
    Round input decode i r (round? input decode i) := by
  obtain ⟨c, s, rfl, -⟩ := Lead.letter_of_endTag hl
  have hslash := h.cons (by decide)
  have hat := hslash.cons (by decide)
  obtain ⟨hskip, hafter⟩ := hat.skip_eq isAscii_of_isNameChar
  have hslice := hat.slice_skip isAscii_of_isNameChar
  have hpast := (hafter.past_eq ">".toList (by decide) (by simp [IsAscii])).1
  have hnext : Token.next i ('<' :: '/' :: c :: s) =
      (.stop ⟨i, (c :: s).takeWhile isNameChar,
        through ">".toList ((c :: s).dropWhile isNameChar)⟩,
        beyond ">".toList ((c :: s).dropWhile isNameChar)) := by
    rw [Token.next, hl]
    rfl
  have hround : round? input decode i = some
      ([(Token.stop ⟨i, (c :: s).takeWhile isNameChar,
        through ">".toList ((c :: s).dropWhile isNameChar)⟩).placed decode],
        i + byteSize (EndTag.source ⟨i, (c :: s).takeWhile isNameChar,
          through ">".toList ((c :: s).dropWhile isNameChar)⟩)) := by
    have hplace : i + byteSize (EndTag.source ⟨i, (c :: s).takeWhile isNameChar,
        through ">".toList ((c :: s).dropWhile isNameChar)⟩) =
          past input ">".toList (skip input isNameChar (i + 2)) := by
      rw [hpast, hskip]
      simp only [EndTag.source, List.cons_append, byteSize_ascii (by decide : IsAscii '<'),
        byteSize_ascii (by decide : IsAscii '/'), byteSize_append]
      omega
    rw [Token.placed, hplace, round?_tag h (by rw [opensMarkup, hl]; rfl) (by decide) (by decide),
      if_pos ((hslash.byte?_iff (by decide)).mpr rfl), hslice]
    rfl
  rw [hround]
  exact round_single h hr hnext rfl

theorem byteSize_of_ascii (ha : ∀ c ∈ a, IsAscii c) : byteSize a = a.length := by
  rw [← length_bytes, bytes_of_ascii ha]

/-- The end tag of a body, by places. -/
theorem skip_closing {name g z : Text} (hname : ∀ c ∈ name, IsAscii c)
    (hg : ∀ c ∈ g, isTagBlank c = true) (h : At input i ('<' :: '/' :: (name ++ (g ++ '>' :: z)))) :
    skip input isTagBlank (i + 2 + name.length) + 1 =
        i + byteSize (EndTag.source ⟨i, name, g ++ ['>']⟩) ∧
      At input (i + byteSize (EndTag.source ⟨i, name, g ++ ['>']⟩)) z := by
  have hat : At input (i + 2 + name.length) (g ++ '>' :: z) := by
    rw [← byteSize_of_ascii hname]
    exact ((h.cons (by decide)).cons (by decide)).append
  have hskip := (hat.skip_eq isAscii_of_isTagBlank).1
  rw [(takeWhile_append_stop hg (by simp [isTagBlank])).1] at hskip
  have hnil : byteSize [] = 0 := rfl
  have hsize : byteSize (EndTag.source ⟨i, name, g ++ ['>']⟩) = 2 + name.length + byteSize g + 1 := by
    simp only [EndTag.source, List.cons_append, byteSize_append, byteSize_of_ascii hname, hnil,
      byteSize_ascii (by decide : IsAscii '<'), byteSize_ascii (by decide : IsAscii '/'),
      byteSize_ascii (by decide : IsAscii '>')]
    omega
  refine ⟨by omega, ?_⟩
  have hsource : '<' :: '/' :: (name ++ (g ++ '>' :: z)) = EndTag.source ⟨i, name, g ++ ['>']⟩ ++ z := by
    simp [EndTag.source]
  rw [hsource] at h
  exact h.append

theorem opaque_ascii (h : key ∈ opaqueNames) : ∀ c ∈ key, IsAscii c := by
  have hall : ∀ n ∈ opaqueNames, n.all Char.isAlpha = true := by decide
  exact fun c hc => isAscii_of_isAlpha (List.all_eq_true.mp (hall key h) c hc)

theorem map_placed_ofBody (decode : Bool) (o : Nat) (x : Text) :
    (Token.ofBody o x).map (Token.placed decode) = between o (o + byteSize x) := by
  cases x with
  | nil => simp [Token.ofBody, between, byteSize]
  | cons c x =>
    have hpos := c.utf8Size_pos
    rw [between, byteSize, if_pos (by omega)]
    rfl

/-- The body of a script or a style is read as from the text, and the end tag in the same round. -/
theorem At.body?_eq (h : At input i r) (decode : Bool) (hkey : key ∈ opaqueNames) : ∃ us next rest,
    body? input key i = some (us.map (Token.placed decode), next) ∧ At input next rest ∧
      Token.ofBody i (upTo (StartTag.closesBody key) r) ++ Token.scanFrom
        (i + byteSize (upTo (StartTag.closesBody key) r)) (onward (StartTag.closesBody key) r) =
          us ++ Token.scanFrom next rest ∧ rest.length ≤ r.length := by
  obtain ⟨hseek, hat⟩ := h.seek_eq (asciiTest_closesBody (opaque_ascii hkey))
  generalize hx : upTo (StartTag.closesBody key) r = x at *
  generalize hy : onward (StartTag.closesBody key) r = y at *
  have hr : x ++ y = r := by rw [← hx, ← hy, upTo_append_onward]
  have hlength : x.length + y.length = r.length := by rw [← hr, List.length_append]
  have hraw : (if i < seek input (StartTag.closesBody key) i then
      [Placed.raw ⟨i, seek input (StartTag.closesBody key) i⟩] else []) =
        (Token.ofBody i x).map (Token.placed decode) := by
    rw [hseek, map_placed_ofBody]
    rfl
  rcases onward_cases (StartTag.closesBody key) r with hnone | hcloses
  · obtain rfl : y = [] := hy.symm.trans hnone
    have hsize := hat.size
    rw [byteSize, Nat.add_zero] at hsize
    refine ⟨Token.ofBody i x, _, [], ?_, hat, by rw [hseek], by omega⟩
    rw [body?, h.toEnd]
    simp only [Option.bind_eq_bind, Option.bind_some, hraw]
    rw [if_neg (by omega)]
  · rw [hy] at hcloses
    obtain ⟨name, g, z, rfl, rfl, hg⟩ := StartTag.closesBody_iff.mp hcloses
    have hname : ∀ c ∈ name, IsAscii c := fun c hc =>
      isAscii_of_toLower (opaque_ascii hkey _ (List.mem_map_of_mem hc))
    obtain ⟨hlast, hrest⟩ := skip_closing hname hg hat
    refine ⟨Token.ofBody i x ++ [.stop ⟨i + byteSize x, name, g ++ ['>']⟩], _, z, ?_, hrest, ?_, ?_⟩
    · have hlower : (lower name).length = name.length := List.length_map ..
      rw [body?, h.toEnd]
      simp only [Option.bind_eq_bind, Option.bind_some, hraw]
      rw [if_pos hat.lt, hlower, hlast, hseek, List.map_append]
      rfl
    · rw [StartTag.scanFrom_closing hkey hg, hseek, List.append_assoc]
      rfl
    · simp only [List.length_cons, List.length_append] at hlength
      omega

/-- A start tag is read as from the text. -/
theorem At.startTag?_eq (h : At input i ('<' :: r)) (decode : Bool) :
    let tail := StartTag.tailOf (r.dropWhile isNameChar)
    let t : StartTag := ⟨i, r.takeWhile isNameChar, tail.source, tail.attributes, tail.ending⟩
    At input (i + byteSize t.source) tail.rest ∧ startTag? input decode i =
      if t.isOpaque then (body? input t.key (i + byteSize t.source)).map
        fun (ts, last) => ((Token.start t).placed decode :: ts, last)
      else some ([(Token.start t).placed decode], i + byteSize t.source) := by
  intro tail t
  have hat := h.cons (by decide)
  obtain ⟨hstop, hafter⟩ := hat.skip_eq isAscii_of_isNameChar
  have hslice := hat.slice_skip isAscii_of_isNameChar
  have hsource : t.source ++ tail.rest = '<' :: r := by
    simp [t, tail, StartTag.source, StartTag.source_append_rest_tailOf]
  have hsize : byteSize t.source = byteSize (r.takeWhile isNameChar) + byteSize tail.source + 1 := by
    rw [StartTag.source, List.cons_append, byteSize_ascii (by decide), byteSize_append]
  have hnext : skip input isNameChar (i + 1) + byteSize tail.source = i + byteSize t.source := by
    omega
  refine ⟨At.append (by rwa [hsource]), ?_⟩
  rw [startTag?]
  simp only [Option.bind_eq_bind, hslice, Option.bind_some, hafter.attributes?_eq]
  rw [hnext, hstop]
  rfl

theorem round?_startTag (h : At input i r) (hr : r ≠ []) (hl : Lead.of r = .startTag) :
    Round input decode i r (round? input decode i) := by
  obtain ⟨c, s, rfl, hc⟩ := Lead.letter_of_startTag hl
  have hne : ∀ d, d.isAlpha = false → c ≠ d := by
    rintro d hd rfl
    rw [hd] at hc
    cases hc
  have hround : round? input decode i = startTag? input decode i := by
    rw [round?_tag h (by rw [opensMarkup, hl]; rfl) (hne '!' (by decide)) (hne '?' (by decide)),
      if_neg ((h.cons (by decide)).byte?_ne (by decide) (hne '/' (by decide)))]
  obtain ⟨hat, htag⟩ := h.startTag?_eq decode
  rw [hround, htag]
  split
  · next hopaque =>
    have hkey := StartTag.key_mem_opaqueNames hopaque
    obtain ⟨us, next, rest, hbody, hrest, hscan, hle⟩ := hat.body?_eq decode hkey
    have hlength := congrArg List.length (Token.source_append_next i ('<' :: c :: s))
    rw [Token.next, hl] at hlength
    refine ⟨.start _ :: us, next, rest, by rw [hbody]; rfl, ?_, hrest, ?_⟩
    · rw [Token.scanFrom, if_neg hr, Token.next, hl, List.cons_append, ← hscan]
      simp [Token.body, Token.afterBody, hopaque, Token.source]
    · simp only [Token.source, StartTag.source, List.length_append, List.length_cons,
        List.drop_succ_cons, List.drop_zero] at hlength hle ⊢
      omega
  · next hopaque =>
    exact round_single h hr (by rw [Token.next, hl]; rfl) (by simp [Token.afterBody, hopaque])

theorem round?_eq (decode : Bool) (h : At input i r) (hr : r ≠ []) :
    Round input decode i r (round? input decode i) := by
  cases hl : Lead.of r with
  | text => exact round?_text h hr hl
  | comment => exact round?_comment h hr hl
  | declaration => exact round?_declaration h hr hl
  | endTag => exact round?_endTag h hr hl
  | startTag => exact round?_startTag h hr hl

/-- Round by round, the scanner on bytes reads what the scanner on characters reads. -/
theorem At.tokensFrom?_eq (h : At input i r) :
    tokensFrom? input decode i = some ((Token.scanFrom i r).map (Token.placed decode)) := by
  -- a round leaves a shorter text, which begins at a later place
  induction hn : r.length using Nat.strong_induction_on generalizing i r with
  | _ n ih =>
    subst hn
    rw [tokensFrom?]
    by_cases hr : r = []
    · have hend : byteSize input = i := by rw [h.size, hr, byteSize, Nat.add_zero]
      rw [if_neg (Nat.not_lt.mpr (Nat.le_of_eq hend)), hr, Token.scanFrom, if_pos rfl]
      rfl
    · obtain ⟨us, next, rest, hround, hscan, hrest, hlt⟩ := (round?_eq decode h hr).exists_tokens
      have hadvance := h.lt_of_shorter hrest hlt
      obtain ⟨c, s, rfl⟩ := List.exists_cons_of_ne_nil hr
      rw [if_pos h.lt, hround]
      simp only [if_pos hadvance, ih _ hlt hrest rfl, hscan, List.map_append, Option.map_some]

theorem At.isBoundary (h : At input i r) : IsBoundary input i := by
  obtain ⟨p, hp, hi⟩ := h
  exact ⟨p, r, hp, hi⟩

end ByteScan

namespace Token

variable {input : Text} {decode : Bool} {tok : Token} {ts : List Token} {i : Nat}

theorem span_placed (tok : Token) (decode : Bool) :
    (tok.placed decode).span = ⟨tok.offset, tok.offset + byteSize tok.source⟩ := by
  cases tok <;> rfl

/-- Both ends of a token, and both ends of its name, lie between characters. -/
theorem isBoundary_placed {r : Text} (h : ByteScan.At input tok.offset (tok.source ++ r)) :
    ∀ sp ∈ (tok.placed decode).spans, IsBoundary input sp.start ∧ IsBoundary input sp.stop := by
  intro sp hsp
  have hends : IsBoundary input tok.offset ∧ IsBoundary input (tok.offset + byteSize tok.source) :=
    ⟨h.isBoundary, h.append.isBoundary⟩
  cases tok with
  | raw o s =>
    obtain rfl := List.mem_singleton.mp hsp
    exact hends
  | stop t =>
    obtain rfl := List.mem_singleton.mp hsp
    exact hends
  | start t =>
    rcases List.mem_pair.mp hsp with rfl | rfl
    · exact hends
    · have hat : ByteScan.At input (t.offset + 1) (t.name ++ (t.tail ++ r)) :=
        ByteScan.At.cons (c := '<') (by simpa [offset, source, StartTag.source] using h) (by decide)
      exact ⟨hat.isBoundary, hat.append.isBoundary⟩

/-- Tokens that stand one behind the other up to the end of the input. -/
theorem TiledFrom.placed (decode : Bool) (htiled : TiledFrom i ts) (hne : ∀ tok ∈ ts, tok.source ≠ [])
    (h : ByteScan.At input i (sources ts)) :
    Tiles i (byteSize input) (ts.map fun tok => (tok.placed decode).span) ∧
      (∀ tok ∈ ts, ∀ sp ∈ (tok.placed decode).spans,
        IsBoundary input sp.start ∧ IsBoundary input sp.stop) ∧
      (ts.map (Token.placed decode)).mapM (fun t => slice? input t.span.start t.span.stop) =
        some (ts.map source) := by
  induction ts generalizing i with
  | nil =>
    have hsize := h.size
    exact ⟨hsize.symm, by simp, rfl⟩
  | cons tok ts ih =>
    obtain ⟨rfl, htiled⟩ := htiled
    rw [sources_cons] at h
    obtain ⟨htiles, hboundary, hpieces⟩ := ih htiled (fun t ht => hne t (List.mem_cons_of_mem _ ht)) h.append
    have hpos := ByteScan.byteSize_pos (hne tok List.mem_cons_self)
    refine ⟨?_, ?_, ?_⟩
    · rw [List.map_cons, span_placed]
      exact ⟨rfl, by simpa using hpos, htiles⟩
    · intro t ht
      rcases List.mem_cons.mp ht with rfl | ht
      · exact isBoundary_placed h
      · exact hboundary t ht
    · rw [List.map_cons, List.mapM_cons, span_placed, h.slice, hpieces]
      rfl

end Token

namespace ByteScan

/-- The scanner on bytes always ends with the tokens of the input. Their ranges are not empty and cover
the input from its first byte to its last, each beginning where the one before it ends; no end of a range
lies inside a character, so the pieces cut out at the ranges give back the input. -/
theorem tokens_cover (input : Text) (decode : Bool) :
    ∃ ts, tokens? input decode = some ts ∧ ts = (Token.scan input).map (Token.placed decode) ∧
      Tiles 0 (byteSize input) (ts.map Placed.span) ∧
      (∀ t ∈ ts, ∀ sp ∈ t.spans, IsBoundary input sp.start ∧ IsBoundary input sp.stop) ∧
      (ts.mapM fun t => slice? input t.span.start t.span.stop).map List.flatten = some input := by
  have hat : At input 0 (Token.sources (Token.scan input)) := by
    rw [Token.sources_scan]
    exact ⟨[], rfl, rfl⟩
  obtain ⟨htiles, hboundary, hpieces⟩ := Token.TiledFrom.placed decode
    (Token.tiledFrom_scanFrom 0 input) (fun _ => Token.source_ne_nil) hat
  have hscan : At input 0 input := ⟨[], rfl, rfl⟩
  refine ⟨_, hscan.tokensFrom?_eq, rfl, ?_, ?_, ?_⟩
  · rw [List.map_map]
    exact htiles
  · intro t ht
    obtain ⟨tok, htok, rfl⟩ := List.mem_map.mp ht
    exact hboundary tok htok
  · rw [hpieces, Option.map_some, ← List.flatMap_def]
    exact congrArg some (Token.sources_scan input)

end ByteScan
end TemplateTree
