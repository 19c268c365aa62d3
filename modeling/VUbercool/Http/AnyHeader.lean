import VUbercool.Http.HeaderLines

/-!
# Headers that are not recognised

`any_hdr_` takes the headers that no other rule does.

* `headerLine`, `OtherName`, `IsValue`: a line with such a header. `Between`: where it can stand.
* `reads_line`: its tokens. `value_of_word`, `no_value_of_blanks`: which values are taken.
* `Cut`: a head that is cut, in tokens. `Cut.reaches`: the grammar comes to the line.
  `Cut.accepted_insert`, `Cut.rejected_of_blanks`, `Cut.rejected_of_version`: what becomes of the head.
* **`insert_iff`**: the line makes no difference exactly if its value has a word and a line break
  precedes it.
-/

namespace VUbercool.Http

open Octets Lexer Peg RequestGrammar HeaderLexer

/-- A header line. -/
def headerLine (name value : Bytes) : Bytes := name ++ 58 :: 32 :: (value ++ [13, 10])

/-- **The name of a header that is not recognised.** -/
structure OtherName (name : Bytes) : Prop where
  ne_nil : name ≠ []
  chars : ∀ c ∈ name, isNameChar c = true
  other : lowered name ∉ [ascii "host", ascii "dnt", ascii "accept-encoding"]

/-- Visible ASCII characters and spaces. -/
def IsValue (value : Bytes) : Prop := ∀ c ∈ value, c = 32 ∨ (33 ≤ c ∧ c ≤ 126)

/-- The head is cut between two header lines, before the first or after the last. -/
def Between (b pre post : Bytes) : Prop :=
  b = pre ++ post ∧ ∃ before after, headerLines b = before ++ after ∧
    pre = requestPart b ++ before.flatten

/-! ## The tokens of a line -/

/-- The tokens of a value. -/
def ValueTokens (ts : List HttpToken) : Prop := ∀ t ∈ ts, t.id = 32 ∨ t.id = tokString

theorem isVisible_of_char {c : UInt8} (h : 33 ≤ c ∧ c ≤ 126) : isVisible c = true := by
  have hne : c ≠ 32 := by
    rintro rfl
    exact absurd h.1 (by decide)
  have hgt : ¬ c ≤ 13 := fun hle => absurd (UInt8.le_trans h.1 hle) (by decide)
  simp [isVisible, isSpace, hne, hgt]

theorem next_space (s : Bytes) :
    next table .headerContent (32 :: s) = some (⟨32, .headerContent, [32]⟩, .headerContent, s) := by
  refine next_of_avoids [lws] [str, goto hdrCrlf .headerName] (d := space) (x := [])
    rfl ?_ ?_ rfl
  · exact List.forall_mem_singleton.mpr (avoids_literal (by decide))
  · exact List.forall_mem_cons.mpr ⟨avoids_many1 rfl,
      List.forall_mem_singleton.mpr (avoids_literal (by decide))⟩

theorem next_word {c : UInt8} {x s : Bytes} (hvisible : ∀ a ∈ c :: x, isVisible a = true) {d : UInt8}
    (hd : isVisible d = false) : next table .headerContent (c :: x ++ d :: s) =
      some (⟨tokString, .headerContent, c :: x⟩, .headerContent, d :: s) := by
  have hne : ∀ {a : UInt8}, isVisible a = false → a ≠ c := by
    rintro a ha rfl
    rw [hvisible a List.mem_cons_self] at ha
    cases ha
  have h13 : (13 == c) = false := beq_eq_false_iff_ne.mpr (hne rfl)
  have hblank : isBlank c = false := by
    rw [isBlank, beq_eq_false_iff_ne.mpr (hne (a := 32) rfl).symm,
      beq_eq_false_iff_ne.mpr (hne (a := 9) rfl).symm]
    rfl
  refine next_of_avoids [lws, space] [goto hdrCrlf .headerName] (d := str) rfl ?_ ?_
    (many1_append_cons hvisible (List.cons_ne_nil _ _) hd s)
  · exact List.forall_mem_cons.mpr ⟨avoids_literal h13,
      List.forall_mem_singleton.mpr (avoids_classes hblank)⟩
  · exact List.forall_mem_singleton.mpr (avoids_literal h13)

theorem reads_value {value : Bytes} (h : IsValue value) (s : Bytes) : ∃ ts,
    Reads table .headerContent (value ++ 13 :: s) ts .headerContent (13 :: s) ∧ ValueTokens ts ∧
      ((∃ t ∈ ts, t.id = tokString) ↔ ∃ c ∈ value, c ≠ 32) := by
  induction hn : value.length using Nat.strongRecOn generalizing value with
  | ind n ih =>
    cases value with
    | nil => exact ⟨[], .nil, List.forall_mem_nil _, by simp⟩
    | cons c v =>
      obtain ⟨hc, hv⟩ := List.forall_mem_cons.mp h
      obtain rfl | hc := hc
      · obtain ⟨ts, hreads, hts, hiff⟩ := ih v.length (by simp [← hn]) hv rfl
        refine ⟨_, .cons (next_space _) hreads, List.forall_mem_cons.mpr ⟨.inl rfl, hts⟩, ?_⟩
        rw [List.exists_mem_cons_iff, List.exists_mem_cons_iff, hiff]
        exact or_congr_left (iff_of_false (by decide) (by decide))
      · -- a word goes on to a blank or to the line break
        obtain ⟨d, s', hd, hrest⟩ : ∃ d s', isVisible d = false ∧
            v.dropWhile isVisible ++ 13 :: s = d :: s' := by
          cases hdrop : v.dropWhile isVisible with
          | nil => exact ⟨13, s, rfl, rfl⟩
          | cons d r =>
            have hhead := List.head_dropWhile_not isVisible (l := v) (by simp [hdrop])
            exact ⟨d, r ++ 13 :: s, by simpa [hdrop] using hhead, rfl⟩
        have hsplit : c :: v ++ 13 :: s = c :: v.takeWhile isVisible ++ d :: s' := by
          rw [← hrest, List.cons_append, List.cons_append, ← List.append_assoc,
            List.takeWhile_append_dropWhile]
        have hvisible : ∀ a ∈ c :: v.takeWhile isVisible, isVisible a = true :=
          List.forall_mem_cons.mpr ⟨isVisible_of_char hc, fun _ ha => List.mem_takeWhile_imp ha⟩
        have hle := (List.dropWhile_suffix isVisible (l := v)).length_le
        obtain ⟨ts, hreads, hts, -⟩ := ih (v.dropWhile isVisible).length
          (by rw [← hn, List.length_cons]; omega)
          (fun a ha => hv a ((List.dropWhile_suffix isVisible).subset ha)) rfl
        rw [hrest] at hreads
        rw [hsplit]
        refine ⟨_, .cons (next_word hvisible hd) hreads, List.forall_mem_cons.mpr ⟨.inr rfl, hts⟩, ?_⟩
        refine iff_of_true ⟨_, List.mem_cons_self, rfl⟩ ⟨c, List.mem_cons_self, ?_⟩
        rintro rfl
        exact absurd hc.1 (by decide)

theorem next_otherName {name : Bytes} (h : OtherName name) (s : Bytes) :
    next table .headerName (name ++ 58 :: s) =
      some (⟨hAny.id, .headerName, name⟩, .headerName, 58 :: s) := by
  have hother := h.other
  simp only [List.mem_cons, List.not_mem_nil, or_false, not_or] at hother
  obtain ⟨hhost, hdnt, haccept⟩ := hother
  obtain ⟨c, x, rfl⟩ := List.exists_cons_of_ne_nil h.ne_nil
  have hne : ∀ {a : UInt8}, isNameChar a = false → a ≠ c := by
    rintro a ha rfl
    rw [h.chars a List.mem_cons_self] at ha
    cases ha
  have hcolon : 58 ∉ lowered (c :: x) := by
    rw [mem_lowered (by decide)]
    exact fun hmem => absurd (h.chars 58 hmem) (by decide)
  have hsplit : lowered (c :: x ++ 58 :: s) = lowered (c :: x) ++ 58 :: lowered s :=
    lowered_append_cons (by decide) ..
  have hany : hAny.pattern (c :: x ++ 58 :: s) = some (c :: x).length :=
    many1_append_cons h.chars h.ne_nil rfl s
  have hcrlf : Avoids c HeaderLexer.crlf.pattern := avoids_literal (beq_eq_false_iff_ne.mpr (hne rfl))
  have hcolumn : Avoids c column.pattern := avoids_literal (beq_eq_false_iff_ne.mpr (hne rfl))
  have hcaseless : ∀ {p : Bytes}, 58 ∉ p → lowered (c :: x) ≠ p →
      caseless (p ++ [58]) (c :: x ++ 58 :: s) = none := by
    refine fun hp hneq => if_neg fun hpre => hneq ?_
    rw [hsplit] at hpre
    exact (eq_of_prefix_append_cons hp hcolon hpre).symm
  have hdnt' : hDnt.pattern (c :: x ++ 58 :: s) = none := hcaseless (p := ascii "dnt") (by decide) hdnt
  have haccept' : hAcceptEncoding.pattern (c :: x ++ 58 :: s) = none :=
    hcaseless (p := ascii "accept-encoding") (by decide) haccept
  refine next_of_longest (d := hAny) ?_
  refine longest_of_max [HeaderLexer.crlf, hHost, goto hDnt .headerDnt, goto hAcceptEncoding .acceptEncoding]
    [goto column .headerContent] hany ?_ ?_
  · simp only [List.forall_mem_cons]
    refine ⟨fun m hm => ?_, fun m hm => ?_, fun m hm => ?_, fun m hm => ?_,
      List.forall_mem_nil _⟩
    · cases (hcrlf _).symm.trans hm
    · -- the name is longer than `host`, which it begins with
      obtain ⟨hpre, rfl⟩ := caseless_eq_some.mp hm
      rw [hsplit, prefix_append_cons (by decide)] at hpre
      have hlt := lt_of_le_of_ne hpre.length_le fun heq => hhost (hpre.eq_of_length heq).symm
      rwa [lowered, List.length_map] at hlt
    · cases hdnt'.symm.trans hm
    · cases haccept'.symm.trans hm
  · refine List.forall_mem_singleton.mpr fun m hm => ?_
    cases (hcolumn _).symm.trans hm

theorem next_column (s : Bytes) : next table .headerName (58 :: s) =
    some (⟨58, .headerName, [58]⟩, .headerContent, s) := by
  refine next_of_avoids [HeaderLexer.crlf, hHost, goto hDnt .headerDnt, goto hAcceptEncoding .acceptEncoding,
    hAny] [] (d := goto column .headerContent) (x := []) rfl ?_
    (List.forall_mem_nil _) rfl
  simp only [goto, List.forall_mem_cons]
  exact ⟨avoids_literal (by decide), avoids_caseless (by decide), avoids_caseless (by decide),
    avoids_caseless (by decide), avoids_many1 rfl, List.forall_mem_nil _⟩

/-- The tokens of a line whose value has these. -/
def lineTokens (name : Bytes) (ts : List HttpToken) : List HttpToken :=
  ⟨hAny.id, .headerName, name⟩ :: ⟨58, .headerName, [58]⟩ :: (ts ++ [⟨tokCrlf, .headerContent, [13, 10]⟩])

/-- **The tokens of a line** with a name that is not recognised. -/
theorem reads_line {name value : Bytes} (hname : OtherName name) (hvalue : IsValue value) {post : Bytes}
    (hpost : post.head? ≠ some 32) : ∃ ts, ValueTokens ts ∧
      ((∃ t ∈ ts, t.id = tokString) ↔ ∃ c ∈ value, c ≠ 32) ∧
      Reads table .headerName (headerLine name value ++ post) (lineTokens name ts) .headerName post := by
  have hcontent : IsValue (32 :: value) := List.forall_mem_cons.mpr ⟨.inl rfl, hvalue⟩
  obtain ⟨ts, hreads, hts, hiff⟩ := reads_value hcontent (10 :: post)
  rw [List.exists_mem_cons_iff, or_iff_right (fun h => h rfl)] at hiff
  have hcrlf : next table .headerContent (13 :: 10 :: post) = _ :=
    next_crlf (d := goto hdrCrlf .headerName) (by simp [table]) rfl fun _ => hpost
  have htext : headerLine name value ++ post = name ++ 58 :: (32 :: value ++ 13 :: 10 :: post) := by
    simp [headerLine]
  rw [htext]
  refine ⟨ts, hts, hiff, .cons (next_otherName hname _) (.cons (next_column _) ?_)⟩
  exact reads_append.mpr ⟨_, _, hreads, .cons hcrlf .nil⟩

/-! ## What the grammar makes of a line -/

section Grammar

variable {us ts r : List HttpToken} {t c : HttpToken} {req : HttpRequest}

theorem tokenId_of_ne {id : ℕ} (ht : t.id ≠ id) : tokenId id (t :: r) req = (none, req) := by
  rw [tokenId, token_cons, beq_eq_false_iff_ne.mpr ht]
  rfl

theorem tokenId_of_eq (t : HttpToken) : tokenId t.id (t :: r) req = (some r, req) := by
  rw [tokenId, token_cons, if_pos (beq_iff_eq.mpr rfl)]

theorem star_ws (hus : ∀ u ∈ us, u.id = 32) (ht : t.id ≠ 32) :
    star ws (us ++ t :: r) req = (some (t :: r), req) := by
  induction us with
  | nil => exact star_none (tokenId_of_ne ht)
  | cons u us ih =>
    rw [List.forall_mem_cons] at hus
    have hu : ws (u :: (us ++ t :: r)) req = (some (us ++ t :: r), req) := by
      rw [ws, ← hus.1]
      exact tokenId_of_eq u
    exact (star_some consumes_ws hu).trans (ih hus.2)

theorem hvCrlf_of_blanks (hus : ∀ u ∈ us, u.id = 32) (hc : c.id = tokCrlf) :
    hvCrlf (us ++ c :: r) req = (some r, req) := by
  refine (seq_some (star_ws hus (hc ▸ (by decide)))).trans ?_
  rw [RequestGrammar.crlf, ← hc]
  exact tokenId_of_eq c

theorem word_of_blanks (hus : ∀ u ∈ us, u.id = 32) (ht : t.id = tokString) :
    seq (star ws) RequestGrammar.str (us ++ t :: r) req = (some r, req) := by
  refine (seq_some (star_ws hus (ht ▸ (by decide)))).trans ?_
  rw [RequestGrammar.str, ← ht]
  exact tokenId_of_eq t

theorem no_word_of_blanks (hus : ∀ u ∈ us, u.id = 32) (hc : c.id = tokCrlf) :
    seq (star ws) RequestGrammar.str (us ++ c :: r) req = (none, req) :=
  (seq_some (star_ws hus (hc ▸ (by decide)))).trans (tokenId_of_ne (hc ▸ (by decide)))

theorem ValueTokens.split (h : ValueTokens ts) : ∃ us, (∀ u ∈ us, u.id = 32) ∧
    (ts = us ∨ ∃ t ts', ts = us ++ t :: ts' ∧ t.id = tokString ∧ ValueTokens ts') := by
  induction ts with
  | nil => exact ⟨[], List.forall_mem_nil _, .inl rfl⟩
  | cons t ts ih =>
    obtain ⟨ht, hts⟩ := List.forall_mem_cons.mp h
    obtain ht | ht := ht
    · obtain ⟨us, hus, rfl | ⟨t', ts', rfl, ht', hts'⟩⟩ := ih hts
      · exact ⟨t :: ts, List.forall_mem_cons.mpr ⟨ht, hus⟩, .inl rfl⟩
      · exact ⟨t :: us, List.forall_mem_cons.mpr ⟨ht, hus⟩, .inr ⟨t', ts', rfl, ht', hts'⟩⟩
    · exact ⟨[], List.forall_mem_nil _, .inr ⟨t, ts, rfl, ht, hts⟩⟩

theorem star_word (hts : ValueTokens ts) (hc : c.id = tokCrlf) (r : List HttpToken)
    (req : HttpRequest) : ∃ us, (∀ u ∈ us, u.id = 32) ∧
    star (seq (star ws) RequestGrammar.str) (ts ++ c :: r) req = (some (us ++ c :: r), req) := by
  induction hn : ts.length using Nat.strongRecOn generalizing ts with
  | ind n ih =>
    obtain ⟨us, hus, rfl | ⟨t, ts', rfl, ht, hts'⟩⟩ := hts.split
    · exact ⟨ts, hus, star_none (no_word_of_blanks hus hc)⟩
    · obtain ⟨us', hus', hstar⟩ := ih ts'.length (by simp [← hn]; omega) hts' rfl
      refine ⟨us', hus', ?_⟩
      rw [List.append_assoc, List.cons_append, star_some consumes_word (word_of_blanks hus ht)]
      exact hstar

/-- **A value with a word** is taken. -/
theorem value_of_word (hts : ValueTokens ts) (hword : ∃ t ∈ ts, t.id = tokString)
    (hc : c.id = tokCrlf) :
    seq (plus (seq (star ws) RequestGrammar.str)) hvCrlf (ts ++ c :: r) req = (some r, req) := by
  obtain ⟨us, hus, rfl | ⟨t, ts', rfl, ht, hts'⟩⟩ := hts.split
  · obtain ⟨t, ht, hid⟩ := hword
    rw [hus t ht] at hid
    exact absurd hid (by decide)
  · obtain ⟨us', hus', hstar⟩ := star_word hts' hc r req
    rw [List.append_assoc, List.cons_append]
    have hplus : plus (seq (star ws) RequestGrammar.str) (us ++ t :: (ts' ++ c :: r)) req =
        (some (us' ++ c :: r), req) := (seq_some (word_of_blanks hus ht)).trans hstar
    exact (seq_some hplus).trans (hvCrlf_of_blanks hus' hc)

/-- A value without one is not. -/
theorem no_value_of_blanks (hts : ∀ t ∈ ts, t.id = 32) (hc : c.id = tokCrlf) :
    seq (plus (seq (star ws) RequestGrammar.str)) hvCrlf (ts ++ c :: r) req = (none, req) :=
  seq_none (seq_none (no_word_of_blanks hts hc))

theorem header_lineTokens (name : Bytes) : header (lineTokens name ts ++ r) req =
    seq (plus (seq (star ws) RequestGrammar.str)) hvCrlf
      (ts ++ ⟨tokCrlf, .headerContent, [13, 10]⟩ :: r) req := by
  have hsplit : lineTokens name ts ++ r = ⟨hAny.id, .headerName, name⟩ ::
      ⟨58, .headerName, [58]⟩ :: (ts ++ ⟨tokCrlf, .headerContent, [13, 10]⟩ :: r) := by
    simp [lineTokens]
  have hnone : ∀ {d : TokenDef}, hAny.id ≠ d.id → ∀ rule,
      seq (tok d .headerName) rule (lineTokens name ts ++ r) req = (none, req) := by
    intro d hd rule
    rw [hsplit]
    exact seq_tok_of_ne hd ..
  have hhost : hostHdr (lineTokens name ts ++ r) req = (none, req) := hnone (by decide) _
  have hdnt : dntHdr (lineTokens name ts ++ r) req = (none, req) := hnone (by decide) _
  have haccept : acceptEncodingHdr (lineTokens name ts ++ r) req = (none, req) := hnone (by decide) _
  rw [header, alt_none hhost, alt_none hdnt, alt_none haccept, hsplit]
  exact (seq_some rfl).trans (seq_some rfl)

end Grammar

/-! ## Where a line is inserted -/

theorem next_tokCrlf {q q' : LexerState} {s s' : Bytes} {c : HttpToken}
    (h : next table q s = some (c, q', s')) (hc : c.id = tokCrlf) :
    (c.text = [13, 10] ∧ q' = .headerName) ∨
      (q = .httpVersion ∧ q' = .httpVersion ∧ lowered c.text = ascii "http/1.0") := by
  by_cases hq : q.ofHeader = true
  · exact .inl ((next_ofHeader hq h).2 hc)
  obtain ⟨d, hd, hid, -, rfl, rfl, -, hpat, -⟩ := next_eq_some sound_table h
  rw [hc] at hid
  cases q with
  | initial =>
    simp only [table, goto, List.mem_cons, List.not_mem_nil, or_false] at hd
    obtain rfl | rfl | rfl | rfl | rfl | rfl | rfl | rfl | rfl | rfl := hd <;>
      exact absurd hid (by decide)
  | uri =>
    simp only [table, goto, List.mem_cons, List.not_mem_nil, or_false] at hd
    obtain rfl | rfl := hd <;> exact absurd hid (by decide)
  | httpVersion =>
    simp only [table, goto, List.mem_cons, List.not_mem_nil, or_false] at hd
    obtain rfl | rfl | rfl := hd
    · exact .inr ⟨rfl, rfl, lowered_of_caseless hpat⟩
    · exact absurd hid (by decide)
    · exact .inl ⟨eq_of_literal hpat, rfl⟩
  | headerName => exact absurd rfl hq
  | headerContent => exact absurd rfl hq
  | headerDnt => exact absurd rfl hq
  | acceptEncoding => exact absurd rfl hq

/-! A request line that ends with `http_1_0` for its line break is read whatever follows. -/

/-- Where the words of the request line are read, and where the lexer is after the space. -/
inductive WordState : LexerState → LexerState → Prop
  | method : WordState .initial .uri
  | uri : WordState .uri .httpVersion

theorem next_gap {q q' : LexerState} (hq : WordState q q') (s : Bytes) :
    next table q (32 :: s) = some (⟨32, q, [32]⟩, q', s) := by
  cases hq with
  | method =>
    refine next_of_avoids [mGet, mOptions, mHead, mPost, mPut, mDelete, mTrace, mConnect, mAny] []
      (d := goto mSpace .uri) (x := []) rfl ?_ (List.forall_mem_nil _) rfl
    simp only [List.forall_mem_cons]
    exact ⟨avoids_caseless (by decide), avoids_caseless (by decide), avoids_caseless (by decide),
      avoids_caseless (by decide), avoids_caseless (by decide), avoids_caseless (by decide),
      avoids_caseless (by decide), avoids_caseless (by decide), avoids_many1 rfl,
      List.forall_mem_nil _⟩
  | uri =>
    exact next_of_avoids [uri] [] (d := goto uriSpace .httpVersion) (x := []) rfl
      (List.forall_mem_singleton.mpr (avoids_many1 rfl)) (List.forall_mem_nil _) rfl

theorem next_start {q q' q₁ : LexerState} {s s' : Bytes} {t : HttpToken} (hq : WordState q q')
    (h : next table q s = some (t, q₁, s')) :
    (t.id ≠ 32 ∧ q₁ = q) ∨ (t.text = [32] ∧ t.state = q ∧ t.id = 32 ∧ q₁ = q') := by
  obtain ⟨d, hd, hid, hstate, rfl, rfl, -, hpat, -⟩ := next_eq_some sound_table h
  rw [hid, hstate]
  cases hq with
  | method =>
    simp only [table, goto, List.mem_cons, List.not_mem_nil, or_false] at hd
    obtain rfl | rfl | rfl | rfl | rfl | rfl | rfl | rfl | rfl | rfl := hd
    case inr.inr.inr.inr.inr.inr.inr.inr.inr => exact .inr ⟨eq_of_literal hpat, rfl, rfl, rfl⟩
    all_goals exact .inl ⟨by decide, rfl⟩
  | uri =>
    simp only [table, goto, List.mem_cons, List.not_mem_nil, or_false] at hd
    obtain rfl | rfl := hd
    · exact .inl ⟨by decide, rfl⟩
    · exact .inr ⟨eq_of_literal hpat, rfl, rfl, rfl⟩

theorem within_start {q q' : LexerState} (hq : WordState q q') :
    ∀ d ∈ table q, Within 32 d.pattern := by
  have hcaseless : ∀ {p : Bytes}, 32 ∉ p → Within 32 (caseless p) := within_caseless (by decide)
  cases hq with
  | method =>
    simp only [table, goto, List.forall_mem_cons]
    exact ⟨hcaseless (by decide), hcaseless (by decide), hcaseless (by decide), hcaseless (by decide),
      hcaseless (by decide), hcaseless (by decide), hcaseless (by decide), hcaseless (by decide),
      within_many1 rfl, within_literal_cons _ _, List.forall_mem_nil _⟩
  | uri =>
    simp only [table, goto, List.forall_mem_cons]
    exact ⟨within_many1 rfl, within_literal_cons _ _, List.forall_mem_nil _⟩

theorem reads_word {q q' q₁ q₂ : LexerState} {s s₁ s₂ : Bytes} {t w : HttpToken}
    (hq : WordState q q') (ht : next table q s = some (t, q₁, s₁)) (htid : t.id ≠ 32)
    (hw : next table q₁ s₁ = some (w, q₂, s₂)) (hwid : w.id = 32) :
    q₂ = q' ∧ ∀ z, Reads table q (text [t, w] ++ z) [t, w] q' z := by
  obtain ⟨-, rfl⟩ | ⟨-, -, hid, -⟩ := next_start hq ht
  · obtain ⟨hid, -⟩ | ⟨hwtext, hwstate, -, rfl⟩ := next_start hq hw
    · exact absurd hwid hid
    · refine ⟨rfl, fun z => ?_⟩
      obtain ⟨-, -, -, -, -, rfl, -⟩ := next_eq_some sound_table ht
      obtain ⟨-, -, -, -, -, rfl, -⟩ := next_eq_some sound_table hw
      have hhead : t.text.head? ≠ some 32 := by
        intro hhead
        obtain ⟨x, hx⟩ := List.head?_eq_some_iff.mp hhead
        rw [hx, List.cons_append, next_gap hq] at ht
        exact htid (congrArg (Token.id ∘ Prod.fst) (Option.some.inj ht)).symm
      have hspace := notMem_of_next sound_table (within_start hq) ht hhead
      rw [hwtext, List.singleton_append] at ht
      have htoken : w = ⟨32, q₁, [32]⟩ := Token.ext hwid hwstate hwtext
      have htext : text [t, w] ++ z = t.text ++ 32 :: z := by simp [hwtext]
      rw [htext, htoken]
      exact .cons (next_of_notMem sound_table (within_start hq) hspace ht z)
        (.cons (next_gap hq z) .nil)
  · exact absurd hid htid

theorem next_version {s s' : Bytes} {t : HttpToken}
    (h : next table .httpVersion s = some (t, .httpVersion, s')) (z : Bytes) :
    next table .httpVersion (t.text ++ z) = some (t, .httpVersion, z) := by
  obtain ⟨d, hd, hid, hstate, hgoto, rfl, hne, hpat, -⟩ := next_eq_some sound_table h
  have hsplit : lowered (t.text ++ z) = lowered t.text ++ lowered z := List.map_append
  have hmatch : ∀ {p : Bytes}, lowered t.text = p → caseless p (t.text ++ z) = some t.text.length := by
    rintro p rfl
    rw [caseless_eq_some, hsplit]
    exact ⟨List.prefix_append .., List.length_map _⟩
  have hother : ∀ {p : Bytes}, lowered t.text ≠ p → p.length = t.text.length →
      caseless p (t.text ++ z) = none := by
    refine fun hp hlength => if_neg fun hpre => hp ?_
    rw [hsplit] at hpre
    obtain ⟨r, hr⟩ := hpre
    exact (List.append_inj hr (hlength.trans (List.length_map _).symm)).1.symm
  have hcrlf : 13 ∉ lowered t.text → literal [13, 10] (t.text ++ z) = none := by
    refine fun hmem => if_neg fun hpre => hmem ?_
    rw [mem_lowered (by decide)]
    obtain ⟨a, x, hax⟩ := List.exists_cons_of_ne_nil hne
    rw [hax] at hpre ⊢
    exact (List.cons_prefix_cons.mp hpre).1 ▸ List.mem_cons_self
  have htoken : t = ⟨d.id, .httpVersion, t.text⟩ := Token.ext hid hstate rfl
  simp only [table, goto, List.mem_cons, List.not_mem_nil, or_false] at hd
  obtain rfl | rfl | rfl := hd
  · have hname := lowered_of_caseless hpat
    have hlength : t.text.length = (ascii "http/1.0").length := (caseless_eq_some.mp hpat).2.symm
    refine (next_of_only [] _ (d := http10) rfl (List.forall_mem_nil _) ?_
      (hmatch hname)).trans (by rw [← htoken]; rfl)
    exact List.forall_mem_cons.mpr ⟨hother (by rw [hname]; decide) (by rw [hlength]; decide),
      List.forall_mem_singleton.mpr (hcrlf (by rw [hname]; decide))⟩
  · have hname := lowered_of_caseless hpat
    have hlength : t.text.length = (ascii "http/1.1").length := (caseless_eq_some.mp hpat).2.symm
    refine (next_of_only [http10] _ (d := http11) rfl ?_
      (List.forall_mem_singleton.mpr (hcrlf (by rw [hname]; decide))) (hmatch hname)).trans
      (by rw [← htoken]; rfl)
    exact List.forall_mem_singleton.mpr (hother (by rw [hname]; decide) (by rw [hlength]; decide))
  · cases hgoto

theorem reads_start {m w u w' v c : HttpToken} {s s' : Bytes} (hm : m.id ≠ 32) (hw : w.id = 32)
    (hu : u.id ≠ 32) (hw' : w'.id = 32) (hc : c.id = tokCrlf)
    (h : Reads table .initial s [m, w, u, w', v, c] .httpVersion s') (z : Bytes) :
    Reads table .initial (text [m, w, u, w', v, c] ++ z) [m, w, u, w', v, c] .httpVersion z := by
  obtain ⟨q₁, s₁, hm', h⟩ := reads_cons.mp h
  obtain ⟨q₂, s₂, hw₁, h⟩ := reads_cons.mp h
  obtain ⟨q₃, s₃, hu', h⟩ := reads_cons.mp h
  obtain ⟨q₄, s₄, hw₂, h⟩ := reads_cons.mp h
  obtain ⟨q₅, s₅, hv', h⟩ := reads_cons.mp h
  obtain ⟨q₆, s₆, hc', h⟩ := reads_cons.mp h
  obtain ⟨rfl, rfl⟩ := reads_nil.mp h
  obtain ⟨rfl, hmw⟩ := reads_word .method hm' hm hw₁ hw
  obtain ⟨rfl, huw⟩ := reads_word .uri hu' hu hw₂ hw'
  obtain ⟨-, hstate⟩ | ⟨rfl, -, -⟩ := next_tokCrlf hc' hc
  · cases hstate
  · have hvc : Reads table .httpVersion (text [v, c] ++ z) [v, c] .httpVersion z := by
      have htext : text [v, c] ++ z = v.text ++ (c.text ++ z) := by simp
      rw [htext]
      exact .cons (next_version hv' _) (.cons (next_version hc' _) .nil)
    have htext : text [m, w, u, w', v, c] ++ z = text [m, w] ++ (text [u, w'] ++ (text [v, c] ++ z)) := by
      simp
    rw [htext]
    exact reads_append.mpr ⟨_, _, hmw _, reads_append.mpr ⟨_, _, huw _, hvc⟩⟩

theorem next_line_none {name : Bytes} (hname : OtherName name) (s : Bytes) :
    next table .httpVersion (name ++ 58 :: s) = none := by
  have hslash : 47 ∉ lowered name := by
    rw [mem_lowered (by decide)]
    exact fun hmem => absurd (hname.chars 47 hmem) (by decide)
  have hversion : ∀ {p : Bytes}, 58 ∉ p → 47 ∈ p → caseless p (name ++ 58 :: s) = none := by
    refine fun hcolon hp => if_neg fun hpre => hslash ?_
    rw [lowered_append_cons (by decide), prefix_append_cons hcolon] at hpre
    exact hpre.subset hp
  have hcrlf : literal [13, 10] (name ++ 58 :: s) = none := by
    obtain ⟨c, x, rfl⟩ := List.exists_cons_of_ne_nil hname.ne_nil
    refine if_neg fun hpre => ?_
    obtain ⟨rfl, -⟩ := List.cons_prefix_cons.mp hpre
    exact absurd (hname.chars 13 List.mem_cons_self) (by decide)
  refine Option.map_eq_none_iff.mpr (longest_eq_none.mpr ?_)
  simp only [table, List.forall_mem_cons]
  exact ⟨hversion (by decide) (by decide), hversion (by decide) (by decide), hcrlf,
    List.forall_mem_nil _⟩

/-- **A head that is cut** between two lines, in tokens. -/
structure Cut (b pre post : Bytes) (req : HttpRequest) where
  parsed : Parsed b req
  before : List (List HttpToken)
  after : List (List HttpToken)
  lines_eq : parsed.lines = before ++ after
  init : List HttpToken
  last : HttpToken
  init_eq : parsed.start ++ before.flatten = init ++ [last]
  last_id : last.id = tokCrlf
  state : LexerState
  reads : Reads table .initial (text (init ++ [last]) ++ post) (init ++ [last]) state post
  rest_eq : lex table state post = after.flatten ++ parsed.last :: parsed.rest
  text_eq : text (init ++ [last]) = pre

theorem Parsed.exists_last {b : Bytes} {req : HttpRequest} (h : Parsed b req)
    {before after : List (List HttpToken)} (hlines : h.lines = before ++ after) :
    ∃ init last, h.start ++ before.flatten = init ++ [last] ∧ last.id = tokCrlf := by
  obtain rfl | ⟨lines, line, rfl⟩ := List.eq_nil_or_concat before
  · obtain ⟨m, w, u, w', v, c, hstart, -, -, -, -, -, hc⟩ := h.exists_start
    exact ⟨[m, w, u, w', v], c, by rw [hstart]; rfl, hc⟩
  · have hmem : line ∈ h.lines := by simp [hlines]
    obtain ⟨t, body, c, -, -, rfl, -, hc, -⟩ := h.isLine line hmem
    exact ⟨h.start ++ lines.flatten ++ t :: body, c, by simp, hc⟩

theorem exists_cut {b pre post : Bytes} {req : HttpRequest} (parsed : Parsed b req)
    (h : Between b pre post) : Nonempty (Cut b pre post req) := by
  obtain ⟨hb, lines, lines', hlines, hpre⟩ := h
  rw [parsed.headerLines, List.map_eq_append_iff] at hlines
  obtain ⟨before, after, hsplit, rfl, rfl⟩ := hlines
  obtain ⟨init, last, hinit, hlast⟩ := parsed.exists_last hsplit
  have htext : text (init ++ [last]) = pre := by
    rw [← hinit, text_append, text_flatten, ← parsed.requestPart, ← hpre]
  have htokens : tokens b = init ++ [last] ++ (after.flatten ++ parsed.last :: parsed.rest) := by
    rw [← hinit, parsed.tokens_eq, hsplit]
    simp
  obtain ⟨state, s, hreads, hrest⟩ := exists_reads sound_table htokens
  have hs := hreads.text sound_table
  have hpost : post = s := List.append_cancel_left (hb.symm.trans (htext ▸ hs))
  subst hpost
  rw [hs] at hreads
  exact ⟨{
    parsed := parsed
    before := before
    after := after
    lines_eq := hsplit
    init := init
    last := last
    init_eq := hinit
    last_id := hlast
    state := state
    reads := hreads
    rest_eq := hrest
    text_eq := htext }⟩

namespace Cut

variable {b pre post : Bytes} {req : HttpRequest}

theorem cases (h : Cut b pre post req) :
    ([13, 10] <:+ pre ∧ h.last.text = [13, 10] ∧ h.state = .headerName) ∨
      (¬ [13, 10] <:+ pre ∧ h.state = .httpVersion ∧ lowered h.last.text = ascii "http/1.0") := by
  obtain ⟨q, s, -, hreads⟩ := reads_append.mp h.reads
  obtain ⟨_, _, hnext, hnil⟩ := reads_cons.mp hreads
  obtain ⟨rfl, -⟩ := reads_nil.mp hnil
  have hpre : pre = text h.init ++ h.last.text := h.text_eq.symm.trans (by simp)
  obtain ⟨htext, hstate⟩ | ⟨-, hstate, htext⟩ := next_tokCrlf hnext h.last_id
  · exact .inl ⟨by rw [hpre, htext]; exact List.suffix_append _ _, htext, hstate⟩
  · refine .inr ⟨fun hsuffix => ?_, hstate, htext⟩
    rw [hpre] at hsuffix
    have hlength : [13, 10].length ≤ h.last.text.length := by
      have hlower := congrArg List.length htext
      rw [lowered, List.length_map] at hlower
      rw [hlower]
      decide
    have hmem : (13 : UInt8) ∈ lowered h.last.text := by
      rw [mem_lowered (by decide)]
      exact (List.suffix_of_suffix_length_le hsuffix (List.suffix_append _ _) hlength).subset
        List.mem_cons_self
    rw [htext] at hmem
    exact absurd hmem (by decide)

theorem head?_ne (h : Cut b pre post req) (hstate : h.state = .headerName) : post.head? ≠ some 32 := by
  intro hhead
  obtain ⟨s, rfl⟩ := List.head?_eq_some_iff.mp hhead
  have hnone : next table .headerName (32 :: s) = none := by
    refine next_eq_none_of_avoids ?_ s
    simp only [table, goto, List.forall_mem_cons]
    exact ⟨avoids_literal (by decide), avoids_caseless (by decide), avoids_caseless (by decide),
      avoids_caseless (by decide), avoids_many1 rfl, avoids_literal (by decide),
      List.forall_mem_nil _⟩
  have hrest := h.rest_eq
  rw [hstate, lex_of_stuck hnone] at hrest
  exact absurd hrest.symm (by simp)

/-- The tokens after the line. -/
def remaining (h : Cut b pre post req) : List HttpToken :=
  h.after.flatten ++ h.parsed.last :: h.parsed.rest

/-- The headers before the line are taken whatever follows, and those after it as before. -/
theorem takes (h : Cut b pre post req) (r : List HttpToken) : ∃ req',
    Takes header h.before (h.before.flatten ++ r) h.parsed.started r req' ∧
      Takes header h.after h.remaining req' (h.parsed.last :: h.parsed.rest) req := by
  have htakes := h.parsed.takes
  rw [h.lines_eq] at htakes
  obtain ⟨m, req', hbefore, hafter⟩ := Takes.of_append htakes
  obtain rfl := hafter.flatten
  exact ⟨req', lineOf_header.takes hbefore r, hafter⟩

/-- The request line is taken whatever follows. -/
theorem request (h : Cut b pre post req) (r : List HttpToken) :
    RequestGrammar.request (h.parsed.start ++ r) {} = (some r, h.parsed.started) := by
  have hrequest := h.parsed.request
  rw [h.parsed.tokens_eq] at hrequest
  exact determined_request.1 _ _ _ _ hrequest r

variable {name value : Bytes}

/-- **The tokens of a head with a line more**, after a line break. -/
theorem tokens_insert (h : Cut b pre post req) (hlast : h.last.text = [13, 10])
    (hstate : h.state = .headerName) (hname : OtherName name) (hvalue : IsValue value) :
    ∃ ts, ValueTokens ts ∧ ((∃ t ∈ ts, t.id = tokString) ↔ ∃ c ∈ value, c ≠ 32) ∧
      tokens (pre ++ headerLine name value ++ post) =
        h.parsed.start ++ (h.before.flatten ++ (lineTokens name ts ++ h.remaining)) := by
  obtain ⟨ts, hts, hiff, hline⟩ := reads_line hname hvalue (h.head?_ne hstate)
  refine ⟨ts, hts, hiff, ?_⟩
  have hhead : (headerLine name value ++ post).head? ≠ some 32 := by
    obtain ⟨c, x, rfl⟩ := List.exists_cons_of_ne_nil hname.ne_nil
    rintro ⟨⟩
    exact absurd (hname.chars 32 List.mem_cons_self) (by decide)
  have hpre := reads_of_break hlast hhead h.reads
  rw [hstate] at hpre
  have hlex := (reads_append.mpr ⟨_, _, hpre, hline⟩).lex sound_table
  rw [h.text_eq, ← List.append_assoc, ← hstate, h.rest_eq, ← h.init_eq] at hlex
  simpa only [tokens, remaining, List.append_assoc] using hlex

/-- **The grammar comes to the line**, and has made of the headers before it what it made of them. -/
theorem reaches (h : Cut b pre post req) (hlast : h.last.text = [13, 10])
    (hstate : h.state = .headerName) (hname : OtherName name) (hvalue : IsValue value) :
    ∃ ts req', ValueTokens ts ∧ ((∃ t ∈ ts, t.id = tokString) ↔ ∃ c ∈ value, c ≠ 32) ∧
      RequestGrammar.request (tokens (pre ++ headerLine name value ++ post)) {} =
        (some (h.before.flatten ++ (lineTokens name ts ++ h.remaining)), h.parsed.started) ∧
      Takes header h.before (h.before.flatten ++ (lineTokens name ts ++ h.remaining)) h.parsed.started
        (lineTokens name ts ++ h.remaining) req' ∧
      Takes header h.after h.remaining req' (h.parsed.last :: h.parsed.rest) req := by
  obtain ⟨ts, hts, hiff, htokens⟩ := h.tokens_insert hlast hstate hname hvalue
  obtain ⟨req', hbefore, hafter⟩ := h.takes (lineTokens name ts ++ h.remaining)
  refine ⟨ts, req', hts, hiff, ?_, hbefore, hafter⟩
  rw [htokens]
  exact h.request _

/-- **A line with a word** makes no difference after a line break. -/
theorem accepted_insert (h : Cut b pre post req) (hlast : h.last.text = [13, 10])
    (hstate : h.state = .headerName) (hname : OtherName name) (hvalue : IsValue value)
    (hword : ∃ c ∈ value, c ≠ 32) (stop : Bytes → ℕ) :
    parseHttpRequest (requestGrammar stop) (pre ++ headerLine name value ++ post) =
      some { req with requestLength := stop (pre ++ headerLine name value ++ post) } := by
  obtain ⟨ts, req', hts, hiff, hrequest, hbefore, hafter⟩ := h.reaches hlast hstate hname hvalue
  have hline : header (lineTokens name ts ++ h.remaining) req' = (some h.remaining, req') :=
    (header_lineTokens name).trans (value_of_word hts (hiff.mpr hword) rfl)
  exact accepted_of_takes stop hrequest (hbefore.append (.cons hline hafter)) h.parsed.last_id

/-- **A line without a word** is not accepted. -/
theorem rejected_of_blanks (h : Cut b pre post req) (hlast : h.last.text = [13, 10])
    (hstate : h.state = .headerName) (hname : OtherName name) (hvalue : IsValue value)
    (hword : ¬ ∃ c ∈ value, c ≠ 32) (stop : Bytes → ℕ) :
    parseHttpRequest (requestGrammar stop) (pre ++ headerLine name value ++ post) = none := by
  obtain ⟨ts, req₁, hts, hiff, hrequest, hbefore, -⟩ := h.reaches hlast hstate hname hvalue
  have hblanks : ∀ t ∈ ts, t.id = 32 := fun t ht =>
    (hts t ht).resolve_right fun hid => hword (hiff.mp ⟨t, ht, hid⟩)
  have hline : header (lineTokens name ts ++ h.remaining) req₁ = (none, req₁) :=
    (header_lineTokens name).trans (no_value_of_blanks hblanks rfl)
  rw [Option.eq_none_iff_forall_ne_some]
  intro req₂ haccepted
  obtain ⟨req₃, ⟨parsed⟩, -⟩ := exists_parsed haccepted
  -- the headers end at the line, which is no line break
  have hstar := takes_star lineOf_header.consumes hbefore hline
  have hstar' := takes_star lineOf_header.consumes parsed.takes
    (header_of_break parsed.last_id parsed.rest req₃)
  have hsame := hrequest.symm.trans parsed.request
  obtain ⟨hts', hstarted⟩ := Prod.mk.inj hsame
  rw [← Option.some.inj hts', ← hstarted, hstar] at hstar'
  obtain ⟨hlast', -⟩ := List.cons.inj (Option.some.inj (Prod.mk.inj hstar').1)
  have hid : hAny.id = tokCrlf := (congrArg Token.id hlast').trans parsed.last_id
  exact absurd hid (by decide)

/-- **A line that follows a version** is not accepted. -/
theorem rejected_of_version (h : Cut b pre post req) (hstate : h.state = .httpVersion)
    (hlast : lowered h.last.text = ascii "http/1.0") (hname : OtherName name) (stop : Bytes → ℕ) :
    parseHttpRequest (requestGrammar stop) (pre ++ headerLine name value ++ post) = none := by
  have hbefore : h.before = [] := by
    obtain hnil | ⟨lines, line, hlines⟩ := List.eq_nil_or_concat h.before
    · exact hnil
    · -- a header line ends with a line break
      have hmem : line ∈ h.parsed.lines := by simp [h.lines_eq, hlines]
      obtain ⟨t, body, c, -, -, rfl, -, -, hc, -⟩ := h.parsed.isLine line hmem
      have hsplit : h.parsed.start ++ lines.flatten ++ t :: body ++ [c] = h.init ++ [h.last] := by
        rw [← h.init_eq, hlines]
        simp
      have hlast' := (List.cons.inj (List.append_inj' hsplit rfl).2).1
      rw [← hlast', hc] at hlast
      exact absurd hlast (by decide)
  obtain ⟨m, w, u, w', v, c, hstart, hm, hw, hu, hw', -, hc⟩ := h.parsed.exists_start
  have hsplit := h.init_eq
  rw [hbefore, List.flatten_nil, List.append_nil, hstart] at hsplit
  have hreads := h.reads
  rw [← hsplit, hstate] at hreads
  have htokens : tokens (pre ++ headerLine name value ++ post) = h.parsed.start := by
    have hlex := (reads_start hm hw hu hw' hc hreads (headerLine name value ++ post)).lex sound_table
    have hnone : lex table .httpVersion (headerLine name value ++ post) = [] := by
      refine lex_of_stuck ?_
      rw [headerLine, List.append_assoc]
      exact next_line_none hname _
    rw [hnone, List.append_nil, hsplit, h.text_eq, ← List.append_assoc, ← hsplit, ← hstart] at hlex
    exact hlex
  rw [Option.eq_none_iff_forall_ne_some]
  intro req₂ haccepted
  obtain ⟨req₃, ⟨parsed⟩, -⟩ := exists_parsed haccepted
  have hrequest := h.request []
  rw [List.append_nil, ← htokens, parsed.request] at hrequest
  exact absurd (Option.some.inj (Prod.mk.inj hrequest).1) (by simp)

end Cut

/-! ## Headers that make no difference -/

section Insert

variable {stop : Bytes → ℕ} {b pre post name value : Bytes} {own req : HttpRequest}

/-- **A header that is not recognised makes no difference**, wherever it is inserted, exactly if its value
has a word and a line break precedes it. -/
theorem insert_iff (h : (parse (requestGrammar stop) b own req).1 = true) (hbetween : Between b pre post)
    (hname : OtherName name) (hvalue : IsValue value) (own' req' : HttpRequest) :
    ((parse (requestGrammar stop) (pre ++ headerLine name value ++ post) own' req').1 = true ∧
      (parse (requestGrammar stop) (pre ++ headerLine name value ++ post) own' req').2.2 =
        { (parse (requestGrammar stop) b own req).2.2 with
          requestLength := stop (pre ++ headerLine name value ++ post) }) ↔
      (∃ c ∈ value, c ≠ 32) ∧ [13, 10] <:+ pre := by
  simp only [parse_eq] at h ⊢
  obtain ⟨req₁, hreq⟩ := Option.isSome_iff_exists.mp h
  obtain ⟨req₂, ⟨parsed⟩, rfl⟩ := exists_parsed hreq
  obtain ⟨cut⟩ := exists_cut parsed hbetween
  obtain ⟨hpre, hlast, hstate⟩ | ⟨hpre, hstate, hlast⟩ := cut.cases
  · by_cases hword : ∃ c ∈ value, c ≠ 32
    · rw [cut.accepted_insert hlast hstate hname hvalue hword stop, hreq]
      exact iff_of_true ⟨rfl, rfl⟩ ⟨hword, hpre⟩
    · rw [cut.rejected_of_blanks hlast hstate hname hvalue hword stop]
      exact iff_of_false (fun h => Bool.false_ne_true h.1) fun h => hword h.1
  · rw [cut.rejected_of_version hstate hlast hname stop]
    exact iff_of_false (fun h => Bool.false_ne_true h.1) fun h => hpre h.2

/-- A line before the first header. -/
theorem insert_before_host : (parse (requestGrammar List.length) (ascii "GET / HTTP/1.1\r\n" ++
      headerLine [88] [98, 32, 99] ++ ascii "Host: a\r\n\r\n") {} {}).2.2.host = ascii "a" := by
  have hbetween : Between (ascii "GET / HTTP/1.1\r\nHost: a\r\n\r\n") (ascii "GET / HTTP/1.1\r\n")
      (ascii "Host: a\r\n\r\n") := ⟨by decide, [], _, rfl, by decide +kernel⟩
  have haccepted : (parse (requestGrammar List.length)
      (ascii "GET / HTTP/1.1\r\nHost: a\r\n\r\n") {} {}).1 = true := by decide +kernel
  have hvalue : IsValue [98, 32, 99] := List.forall_mem_cons.mpr ⟨.inr (by decide),
    List.forall_mem_cons.mpr ⟨.inl rfl, List.forall_mem_singleton.mpr (.inr (by decide))⟩⟩
  have hname : OtherName [88] := ⟨List.cons_ne_nil _ _, List.forall_mem_singleton.mpr rfl, by decide⟩
  rw [((insert_iff haccepted hbetween hname hvalue {} {}).mpr ⟨by decide, by decide⟩).2]
  decide +kernel

/-- **A header without a value** is not accepted. -/
theorem not_transparent : ∃ b pre post name value : Bytes,
    (parse (requestGrammar List.length) b {} {}).1 = true ∧ Between b pre post ∧ OtherName name ∧
      IsValue value ∧
      (parse (requestGrammar List.length) (pre ++ headerLine name value ++ post) {} {}).1 = false :=
  ⟨ascii "GET / HTTP/1.1\r\n\r\n", ascii "GET / HTTP/1.1\r\n", [13, 10], [88], [],
    by decide +kernel, ⟨by decide, [], _, rfl, by decide +kernel⟩,
    ⟨List.cons_ne_nil _ _, List.forall_mem_singleton.mpr rfl, by decide⟩,
    List.forall_mem_nil _, by decide +kernel⟩

end Insert

end VUbercool.Http
