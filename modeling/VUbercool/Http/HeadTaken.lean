import VUbercool.Http.HeadAccepted

/-!
# What is accepted is a head

* `headerName_cases`, `headerContent_cases`, `headerDnt_cases`, `acceptEncoding_cases`: what is read, by
  state.
* `exists_headerLine`: a header that is taken is a header line. `exists_ending`, `exists_head`: a buffer
  that is accepted begins with a head.
* `parsedLength`: where the grammar stops. `StopsAfterHead`: `tokenize_and_parse` leaves its iterator there.
* **`parse_iff`**: the buffers that are accepted are those that begin with a head, and the request is what
  the head says, with its length.
* **`head_prefix_iff`**: no head begins another, and a head says one thing.
-/

namespace VUbercool.Http

open Octets Lexer Peg
open HeaderLexer RequestGrammar

/-! ## What is read -/

section Next

variable {q : LexerState} {s s' : Bytes} {t : HttpToken}

/-- What is read where names are. -/
theorem headerName_cases (h : next table .headerName s = some (t, q, s')) :
    (t.id = tokCrlf ∧ t.text = [13, 10] ∧ q = .headerName) ∨
      (t.id = hHost.id ∧ lowered t.text = ascii "host" ∧ q = .headerName) ∨
      (t.id = hDnt.id ∧ lowered t.text = ascii "dnt:" ∧ q = .headerDnt) ∨
      (t.id = hAcceptEncoding.id ∧ lowered t.text = ascii "accept-encoding:" ∧ q = .acceptEncoding) ∨
      (t.id = hAny.id ∧ t.text ≠ [] ∧ (∀ c ∈ t.text, isNameChar c = true) ∧ q = .headerName) ∨
      (t.id = 58 ∧ t.text = [58] ∧ q = .headerContent) := by
  obtain ⟨d, hd, hid, -, rfl, rfl, hne, hpat, -⟩ := next_eq_some sound_table h
  simp only [table, goto, List.mem_cons, List.not_mem_nil, or_false] at hd
  obtain rfl | rfl | rfl | rfl | rfl | rfl := hd
  · exact .inl ⟨hid, eq_of_literal hpat, rfl⟩
  · exact .inr (.inl ⟨hid, Lexer.lowered_of_caseless hpat, rfl⟩)
  · exact .inr (.inr (.inl ⟨hid, Lexer.lowered_of_caseless hpat, rfl⟩))
  · exact .inr (.inr (.inr (.inl ⟨hid, Lexer.lowered_of_caseless hpat, rfl⟩)))
  · exact .inr (.inr (.inr (.inr (.inl ⟨hid, hne, forall_of_many1 hpat, rfl⟩))))
  · exact .inr (.inr (.inr (.inr (.inr ⟨hid, eq_of_literal hpat, rfl⟩))))

/-- What is read in the content of a header. -/
theorem headerContent_cases (h : next table .headerContent s = some (t, q, s')) :
    (t.id = 32 ∧ (t.text = [13, 10, 32] ∨ ∃ c, t.text = [c] ∧ isBlank c = true) ∧ q = .headerContent) ∨
      (t.id = tokString ∧ t.text ≠ [] ∧ (∀ c ∈ t.text, isVisible c = true) ∧ q = .headerContent) ∨
      (t.id = tokCrlf ∧ t.text = [13, 10] ∧ q = .headerName) := by
  obtain ⟨d, hd, hid, -, rfl, rfl, hne, hpat, -⟩ := next_eq_some sound_table h
  simp only [table, goto, List.mem_cons, List.not_mem_nil, or_false] at hd
  obtain rfl | rfl | rfl | rfl := hd
  · exact .inl ⟨hid, .inl (eq_of_literal hpat), rfl⟩
  · exact .inl ⟨hid, .inr (eq_singleton_of_classes hpat), rfl⟩
  · exact .inr (.inl ⟨hid, hne, forall_of_many1 hpat, rfl⟩)
  · exact .inr (.inr ⟨hid, eq_of_literal hpat, rfl⟩)

/-- What is read in the value of a `DNT` header. -/
theorem headerDnt_cases (h : next table .headerDnt s = some (t, q, s')) :
    (t.id = 32 ∧ (∃ c, t.text = [c] ∧ isBlank c = true) ∧ q = .headerDnt) ∨
      (t.id = dntOn.id ∧ t.text = [49] ∧ q = .headerDnt) ∨
      (t.id = dntOff.id ∧ t.text = [48] ∧ q = .headerDnt) ∨
      (t.id = tokCrlf ∧ t.text = [13, 10] ∧ q = .headerName) := by
  obtain ⟨d, hd, hid, -, rfl, rfl, -, hpat, -⟩ := next_eq_some sound_table h
  simp only [table, goto, List.mem_cons, List.not_mem_nil, or_false] at hd
  obtain rfl | rfl | rfl | rfl := hd
  · exact .inl ⟨hid, eq_singleton_of_classes hpat, rfl⟩
  · exact .inr (.inl ⟨hid, eq_of_literal hpat, rfl⟩)
  · exact .inr (.inr (.inl ⟨hid, eq_of_literal hpat, rfl⟩))
  · exact .inr (.inr (.inr ⟨hid, eq_of_literal hpat, rfl⟩))

/-- What is read in the value of an `Accept-Encoding` header. -/
theorem acceptEncoding_cases (h : next table .acceptEncoding s = some (t, q, s')) :
    (t.id = 32 ∧ (∃ c, t.text = [c] ∧ isBlank c = true) ∧ q = .acceptEncoding) ∨
      (t.id = 44 ∧ t.text = [44] ∧ q = .acceptEncoding) ∨
      (t.id ∈ [acceptEncodingGzip.id, acceptEncodingDeflate.id, acceptEncodingOther.id] ∧
        t.text ≠ [] ∧ (∀ c ∈ t.text, isLetter c = true) ∧ q = .acceptEncoding) ∨
      (t.id = tokCrlf ∧ t.text = [13, 10] ∧ q = .headerName) ∨
      (t.id = acceptEncodingQvalue.id ∧ (∃ d e, t.text = [59, 113, 61, d, 46, e] ∧ isDigit d = true ∧
        isDigit e = true) ∧ q = .acceptEncoding) := by
  obtain ⟨d, hd, hid, -, rfl, rfl, hne, hpat, -⟩ := next_eq_some sound_table h
  have hletters : ∀ {p : Bytes}, lowered t.text = p → p.all isLetter = true →
      ∀ c ∈ t.text, isLetter c = true := by
    rintro p rfl hp c hc
    exact isLetter_of_lower (List.all_eq_true.mp hp _ (List.mem_map_of_mem hc))
  simp only [table, goto, List.mem_cons, List.not_mem_nil, or_false] at hd
  obtain rfl | rfl | rfl | rfl | rfl | rfl | rfl := hd
  · exact .inl ⟨hid, eq_singleton_of_classes hpat, rfl⟩
  · exact .inr (.inl ⟨hid, eq_of_literal hpat, rfl⟩)
  · exact .inr (.inr (.inl ⟨by simp [hid], hne,
      hletters (Lexer.lowered_of_caseless hpat) (by decide), rfl⟩))
  · exact .inr (.inr (.inl ⟨by simp [hid], hne,
      hletters (Lexer.lowered_of_caseless hpat) (by decide), rfl⟩))
  · exact .inr (.inr (.inr (.inl ⟨hid, eq_of_literal hpat, rfl⟩)))
  · have hlength := (matchesClasses_of_classes hpat).2
    refine .inr (.inr (.inr (.inr ⟨hid, ?_, rfl⟩)))
    obtain ⟨coding, hcoding, -⟩ | ⟨-, ⟨c, hc⟩ | hcrlf | ⟨d, e, hd, he, htext⟩⟩ := next_acceptEncoding h
    · rw [hid] at hcoding
      cases coding <;> exact absurd hcoding (by decide)
    · rw [hc] at hlength
      cases hlength
    · rw [hcrlf] at hlength
      cases hlength
    · exact ⟨d, e, htext, hd, he⟩
  · obtain ⟨c, hc, hletter⟩ := eq_singleton_of_classes hpat
    exact .inr (.inr (.inl ⟨by simp [hid], hne, hc ▸ List.forall_mem_singleton.mpr hletter, rfl⟩))

end Next

/-! ## What the tokens of a value say of it -/

section Values

variable {p : Place} {q : LexerState} {s s' : Bytes} {ts : List HttpToken}

theorem isContent_visible {x : Bytes} (hx : ∀ c ∈ x, isVisible c = true) :
    isContent (x ++ s) = isContent s := by
  induction x with
  | nil => rfl
  | cons c x ih =>
    obtain ⟨hc, hx⟩ := List.forall_mem_cons.mp hx
    have hne : c ≠ 13 := by
      rintro rfl
      cases hc
    rw [List.cons_append, isContent_cons hne, hc, Bool.or_true, Bool.true_and, ih hx]

theorem not_visible_of_isBlank {c : UInt8} (hc : isBlank c = true) : isVisible c = false := by
  rcases Bool.or_eq_true_iff.mp hc with h | h
  · rw [beq_iff_eq.mp h]
    rfl
  · rw [beq_iff_eq.mp h]
    rfl

theorem content_of_reads (hts : ValueTokens ts) (h : Reads table .headerContent s ts q s') :
    q = .headerContent ∧ isContent (text ts) = true ∧
      ((∃ t ∈ ts, t.id = tokString) ↔ ∃ c ∈ text ts, isVisible c = true) := by
  induction ts generalizing s with
  | nil => exact ⟨(reads_nil.mp h).1, rfl, by simp⟩
  | cons t ts ih =>
    obtain ⟨ht, hts⟩ := List.forall_mem_cons.mp hts
    obtain ⟨q', r, hnext, hreads⟩ := reads_cons.mp h
    rw [text_cons, List.exists_mem_cons_iff]
    obtain ⟨hid, htext, rfl⟩ | ⟨hid, hne, hvisible, rfl⟩ | ⟨hid, -, -⟩ := headerContent_cases hnext
    · obtain ⟨hq, hcontent, hiff⟩ := ih hts hreads
      have hstring : t.id ≠ tokString := hid ▸ (by decide)
      refine ⟨hq, ?_, ?_⟩
      · obtain hlws | ⟨c, hc, hblank⟩ := htext
        · rw [hlws]
          exact hcontent
        · have hne : c ≠ 13 := by
            rintro rfl
            cases hblank
          rw [hc, List.singleton_append, isContent_cons hne, hblank, Bool.true_or, Bool.true_and, hcontent]
      · have hnone : ∀ c ∈ t.text, ¬ isVisible c = true := by
          obtain hlws | ⟨c, hc, hblank⟩ := htext
          · rw [hlws]
            simp [isVisible, isSpace]
          · rw [hc, List.forall_mem_singleton, not_visible_of_isBlank hblank]
            exact Bool.false_ne_true
        rw [or_iff_right hstring, hiff]
        simp only [List.mem_append, or_and_right, exists_or]
        refine (or_iff_right ?_).symm
        rintro ⟨c, hc, hv⟩
        exact hnone c hc hv
    · obtain ⟨hq, hcontent, -⟩ := ih hts hreads
      obtain ⟨c, x, hx⟩ := List.exists_cons_of_ne_nil hne
      refine ⟨hq, by rw [isContent_visible hvisible, hcontent], iff_of_true (.inl hid) ⟨c, ?_, ?_⟩⟩
      · exact List.mem_append_left _ (hx ▸ List.mem_cons_self)
      · exact hvisible c (hx ▸ List.mem_cons_self)
    · rw [hid] at ht
      exact absurd ht (by decide)

theorem exists_gap (hts : ∀ t ∈ ts, t.id = 32) (h : Reads table .headerContent s ts q s') :
    q = .headerContent ∧ ∃ gap : Gap, gap.octets = text ts := by
  obtain ⟨hq, hcontent, hiff⟩ := content_of_reads (fun t ht => .inl (hts t ht)) h
  have hnone : ¬ ∃ t ∈ ts, t.id = tokString := by
    rintro ⟨t, ht, hid⟩
    rw [hts t ht] at hid
    exact absurd hid (by decide)
  refine ⟨hq, ⟨text ts, hcontent, fun c hc => ?_⟩, rfl⟩
  exact Bool.eq_false_iff.mpr fun hv => hnone (hiff.mpr ⟨c, hc, hv⟩)

theorem exists_blanks (hts : ∀ t ∈ ts, t.id = 32) (h : Reads table .headerDnt s ts q s') :
    q = .headerDnt ∧ ∃ b : Blanks, b.octets = text ts := by
  induction ts generalizing s with
  | nil => exact ⟨(reads_nil.mp h).1, ⟨[], List.forall_mem_nil _⟩, rfl⟩
  | cons t ts ih =>
    obtain ⟨ht, hts⟩ := List.forall_mem_cons.mp hts
    obtain ⟨q', r, hnext, hreads⟩ := reads_cons.mp h
    obtain ⟨-, ⟨c, hc, hblank⟩, rfl⟩ | ⟨hid, -⟩ | ⟨hid, -⟩ | ⟨hid, -⟩ := headerDnt_cases hnext
    · obtain ⟨hq, b, hb⟩ := ih hts hreads
      refine ⟨hq, ⟨c :: b.octets, List.forall_mem_cons.mpr ⟨hblank, b.blank⟩⟩, ?_⟩
      rw [text_cons, hc, ← hb]
      rfl
    all_goals
      rw [hid] at ht
      exact absurd ht (by decide)

theorem codings_of_reads (hts : CodingTokens p ts) (h : Reads table .acceptEncoding s ts q s') :
    q = .acceptEncoding ∧ isCodings p (text ts) = true := by
  induction hts generalizing s with
  | nil => exact ⟨(reads_nil.mp h).1, by rw [text_nil, isCodings]⟩
  | blank hid _ ih =>
    obtain ⟨q', r, hnext, hreads⟩ := reads_cons.mp h
    obtain ⟨-, ⟨c, hc, hblank⟩, rfl⟩ | ⟨hid', -⟩ | ⟨hid', -⟩ | ⟨hid', -⟩ | ⟨hid', -⟩ :=
      acceptEncoding_cases hnext
    · rw [text_cons, hc, List.singleton_append, isCodings_blank hblank]
      exact ih hreads
    all_goals
      rw [hid] at hid'
      exact absurd hid' (by decide)
  | coding hid _ _ ih =>
    obtain ⟨q', r, hnext, hreads⟩ := reads_cons.mp h
    obtain ⟨hid', -⟩ | ⟨hid', -⟩ | ⟨-, hne, hletters, rfl⟩ | ⟨hid', -⟩ | ⟨hid', -⟩ :=
      acceptEncoding_cases hnext
    case inr.inr.inl =>
      rw [text_cons, isCodings_letters hne hletters]
      exact ih hreads
    all_goals
      rw [hid'] at hid
      exact absurd hid (by decide)
  | qvalue hid _ _ ih =>
    obtain ⟨q', r, hnext, hreads⟩ := reads_cons.mp h
    obtain ⟨hid', -⟩ | ⟨hid', -⟩ | ⟨hid', -⟩ | ⟨hid', -⟩ | ⟨-, ⟨d, e, htext, hd, he⟩, rfl⟩ :=
      acceptEncoding_cases hnext
    case inr.inr.inr.inr =>
      rw [text_cons, htext, List.cons_append, List.cons_append, List.cons_append, List.cons_append,
        List.cons_append, List.singleton_append, isCodings_qvalue, hd, he]
      exact ih hreads
    all_goals
      rw [hid] at hid'
      exact absurd hid' (by decide)
  | comma hp hid _ ih =>
    obtain ⟨q', r, hnext, hreads⟩ := reads_cons.mp h
    obtain ⟨hid', -⟩ | ⟨-, htext, rfl⟩ | ⟨hid', -⟩ | ⟨hid', -⟩ | ⟨hid', -⟩ := acceptEncoding_cases hnext
    case inr.inl =>
      obtain ⟨hq, hcodings⟩ := ih hreads
      rw [text_cons, htext, List.singleton_append, isCodings_comma, hcodings, Bool.and_true, bne_iff_ne]
      exact ⟨hq, hp⟩
    all_goals
      rw [hid] at hid'
      exact absurd hid' (by decide)

end Values

/-! ## What the grammar takes -/

section Grammar

variable {ts r : List HttpToken} {req req' : HttpRequest}

theorem exists_hvCrlf (h : hvCrlf ts req = (some r, req')) : ∃ us c, ts = us ++ c :: r ∧
    (∀ u ∈ us, u.id = 32) ∧ c.id = tokCrlf := by
  obtain ⟨m, req₁, h₁, h₂⟩ := exists_of_seq h
  obtain ⟨us, rfl, hus⟩ := (takesOne_tokenId 32).exists_of_star h₁
  obtain ⟨c, rfl, hc⟩ := takesOne_tokenId tokCrlf _ _ _ _ h₂
  exact ⟨us, c, rfl, hus, hc⟩

theorem exists_hostHdr (h : hostHdr ts req = (some r, req')) : ∃ t k us w vs c,
    ts = t :: k :: (us ++ w :: (vs ++ c :: r)) ∧ t.id = hHost.id ∧ k.id = 58 ∧ (∀ u ∈ us, u.id = 32) ∧
      w.id = tokString ∧ (∀ u ∈ vs, u.id = 32) ∧ c.id = tokCrlf := by
  obtain ⟨ts₁, req₁, h₁, h⟩ := exists_of_seq h
  obtain ⟨ts₂, req₂, h₂, h⟩ := exists_of_seq h
  obtain ⟨ts₃, req₃, h₃, h⟩ := exists_of_seq h
  obtain ⟨ts₄, req₄, h₄, h₅⟩ := exists_of_seq h
  obtain ⟨t, rfl, ht, -⟩ := tokWith_eq_some h₁
  obtain ⟨k, rfl, hk⟩ := takesOne_tokenId 58 _ _ _ _ h₂
  obtain ⟨us, rfl, hus⟩ := (takesOne_tokenId 32).exists_of_star h₃
  obtain ⟨w, rfl, hw, -⟩ := tokWith_eq_some h₄
  obtain ⟨vs, c, rfl, hvs, hc⟩ := exists_hvCrlf h₅
  exact ⟨t, k, us, w, vs, c, rfl, ht, hk, hus, hw, hvs, hc⟩

theorem exists_dntHdr (h : dntHdr ts req = (some r, req')) : ∃ t us w vs c,
    ts = t :: (us ++ w :: (vs ++ c :: r)) ∧ t.id = hDnt.id ∧ (∀ u ∈ us, u.id = 32) ∧
      (w.id = dntOn.id ∨ w.id = dntOff.id) ∧ (∀ u ∈ vs, u.id = 32) ∧ c.id = tokCrlf := by
  obtain ⟨ts₁, req₁, h₁, h⟩ := exists_of_seq h
  obtain ⟨ts₂, req₂, h₂, h⟩ := exists_of_seq h
  obtain ⟨ts₃, req₃, h₃, h₄⟩ := exists_of_seq h
  obtain ⟨t, rfl, ht, -⟩ := tokWith_eq_some h₁
  obtain ⟨us, rfl, hus⟩ := (takesOne_tokenId 32).exists_of_star h₂
  obtain ⟨w, rfl, hw⟩ : ∃ w, ts₂ = w :: ts₃ ∧ (w.id = dntOn.id ∨ w.id = dntOff.id) := by
    obtain h₃ | ⟨req₄, -, h₃⟩ := exists_of_alt h₃
    · obtain ⟨w, hts, hw, -⟩ := tokWith_eq_some h₃
      exact ⟨w, hts, .inl hw⟩
    · obtain ⟨w, hts, hw, -⟩ := tokWith_eq_some h₃
      exact ⟨w, hts, .inr hw⟩
  obtain ⟨vs, c, rfl, hvs, hc⟩ := exists_hvCrlf h₄
  exact ⟨t, us, w, vs, c, rfl, ht, hus, hw, hvs, hc⟩

theorem CodingTokens.of_gap (h : CodingTokens .gap ts) (p : Place) : CodingTokens p ts := by
  cases h with
  | nil => exact .nil
  | blank hid hts => exact .blank hid hts
  | coding hid hstate hts => exact .coding hid hstate hts
  | comma hp hid hts => exact absurd rfl hp

variable {us : List HttpToken}

theorem CodingTokens.commas {p : Place} (h : CodingTokens .gap us) (hp : p ≠ .gap)
    (hts : ∀ t ∈ ts, t.id = 44) : CodingTokens p (ts ++ us) := by
  induction ts generalizing p with
  | nil => exact h.of_gap p
  | cons t ts ih =>
    obtain ⟨ht, hts⟩ := List.forall_mem_cons.mp hts
    exact .comma hp ht (ih (by decide) hts)

theorem CodingTokens.qvalues (h : CodingTokens .coding us)
    (hts : ∀ t ∈ ts, t.id = acceptEncodingQvalue.id ∧ t.state = .acceptEncoding) :
    CodingTokens .coding (ts ++ us) := by
  induction ts with
  | nil => exact h
  | cons t ts ih =>
    obtain ⟨⟨hid, hstate⟩, hts⟩ := List.forall_mem_cons.mp hts
    exact .qvalue hid hstate (ih hts)

theorem CodingTokens.blanks (h : CodingTokens .gap us) (hts : ∀ t ∈ ts, t.id = 32) :
    CodingTokens .gap (ts ++ us) := by
  induction ts with
  | nil => exact h
  | cons t ts ih =>
    obtain ⟨ht, hts⟩ := List.forall_mem_cons.mp hts
    exact .blank ht (ih hts)

theorem takesOne_value : TakesOne (fun t => t.id ∈ [acceptEncodingGzip.id, acceptEncodingDeflate.id,
    acceptEncodingOther.id] ∧ t.state = .acceptEncoding) RequestGrammar.acceptEncodingValue :=
  (takesOne_tokWith _ _ _ fun _ hid hstate => ⟨by simp [hid], hstate⟩).alt <|
  (takesOne_tokWith _ _ _ fun _ hid hstate => ⟨by simp [hid], hstate⟩).alt
    (takesOne_tokWith _ _ _ fun _ hid hstate => ⟨by simp [hid], hstate⟩)

theorem codingTokens_of_coding {a : List HttpToken} (h : coding (a ++ r) req = (some r, req'))
    (hus : CodingTokens .gap us) : CodingTokens .gap (a ++ us) := by
  obtain ⟨ts₁, req₁, h₁, h⟩ := exists_of_seq h
  obtain ⟨ts₂, req₂, h₂, h⟩ := exists_of_seq h
  obtain ⟨ts₃, req₃, h₃, h₄⟩ := exists_of_seq h
  obtain ⟨blanks, ha, hblanks⟩ := (takesOne_tokenId 32).exists_of_star h₁
  obtain ⟨t, rfl, ht⟩ := takesOne_value _ _ _ _ h₂
  obtain ⟨qs, rfl, hqs⟩ := (takesOne_tokWith (P := fun t => t.id = acceptEncodingQvalue.id ∧
    t.state = .acceptEncoding) _ _ _ fun _ hid hstate => ⟨hid, hstate⟩).exists_of_star h₃
  obtain ⟨commas, rfl, hcommas⟩ := (takesOne_tokenId 44).exists_of_star h₄
  obtain rfl : a = blanks ++ t :: (qs ++ commas) := by
    refine (List.append_left_inj r).mp (ha.trans ?_)
    simp
  have hafter : CodingTokens .coding (commas ++ us) := hus.commas (by decide) hcommas
  rw [List.append_assoc, List.cons_append, List.append_assoc]
  exact (CodingTokens.coding ht.1 ht.2 (hafter.qvalues hqs)).blanks hblanks

theorem exists_acceptEncodingHdr (h : acceptEncodingHdr ts req = (some r, req')) : ∃ t us c,
    ts = t :: (us ++ c :: r) ∧ t.id = hAcceptEncoding.id ∧ CodingTokens .gap us ∧ c.id = tokCrlf := by
  obtain ⟨ts₁, req₁, h₁, h⟩ := exists_of_seq h
  obtain ⟨ts₂, req₂, h₂, h₃⟩ := exists_of_seq h
  obtain ⟨t, rfl, ht, -⟩ := tokWith_eq_some h₁
  obtain ⟨vs, c, rfl, hvs, hc⟩ := exists_hvCrlf h₃
  obtain ⟨as, req₃, htakes⟩ := takes_of_star consumes_coding h₂
  have hvalue : CodingTokens .gap (as.flatten ++ vs) :=
    htakes.prepend (fun _ _ _ _ hrun _ hus => codingTokens_of_coding hrun hus)
      (List.append_nil vs ▸ CodingTokens.nil.blanks hvs)
  refine ⟨t, as.flatten ++ vs, c, ?_, ht, hvalue, hc⟩
  rw [List.append_assoc, ← htakes.flatten]

theorem exists_anyHdr (h : anyHdr ts req = (some r, req')) : ∃ t k us c,
    ts = t :: k :: (us ++ c :: r) ∧ t.id = hAny.id ∧ k.id = 58 ∧ ValueTokens us ∧
      (∃ u ∈ us, u.id = tokString) ∧ c.id = tokCrlf := by
  have hword : ∀ {ts r : List HttpToken} {req req' : HttpRequest},
      seq (star ws) RequestGrammar.str ts req = (some r, req') → ∃ us, ts = us ++ r ∧ ValueTokens us ∧
        ∃ u ∈ us, u.id = tokString := by
    intro ts r req req' h
    obtain ⟨ts₁, req₁, h₁, h₂⟩ := exists_of_seq h
    obtain ⟨us, rfl, hus⟩ := (takesOne_tokenId 32).exists_of_star h₁
    obtain ⟨w, rfl, hw⟩ := takesOne_tokenId tokString _ _ _ _ h₂
    refine ⟨us ++ [w], by simp, fun u hu => ?_, w, by simp, hw⟩
    obtain hu | hu := List.mem_append.mp hu
    · exact .inl (hus u hu)
    · exact .inr (List.mem_singleton.mp hu ▸ hw)
  obtain ⟨ts₁, req₁, h₁, h⟩ := exists_of_seq h
  obtain ⟨ts₂, req₂, h₂, h⟩ := exists_of_seq h
  obtain ⟨ts₃, req₃, h₃, h₄⟩ := exists_of_seq h
  obtain ⟨t, rfl, ht, -⟩ := tokWith_eq_some h₁
  obtain ⟨k, rfl, hk⟩ := takesOne_tokenId 58 _ _ _ _ h₂
  obtain ⟨vs, c, rfl, hvs, hc⟩ := exists_hvCrlf h₄
  obtain ⟨ts₄, req₄, hfirst, hrest⟩ := exists_of_seq h₃
  obtain ⟨us, rfl, hus, u, hu, hid⟩ := hword hfirst
  obtain ⟨as, req₅, htakes⟩ := takes_of_star consumes_word hrest
  have hvalue : ValueTokens (as.flatten ++ vs) := by
    refine htakes.prepend (fun a ts s s₁ hrun ws hws => ?_) fun u hu => .inl (hvs u hu)
    obtain ⟨us', hsplit, hus', -⟩ := hword hrun
    rw [List.append_cancel_right hsplit]
    exact List.forall_mem_append.mpr ⟨hus', hws⟩
  refine ⟨t, k, us ++ (as.flatten ++ vs), c, ?_, ht, hk, List.forall_mem_append.mpr ⟨hus, hvalue⟩,
    ⟨u, List.mem_append_left _ hu, hid⟩, hc⟩
  rw [List.append_assoc, List.append_assoc, ← htakes.flatten]

end Grammar

/-! ## Header lines -/

section HeaderLine

variable {q : LexerState} {s s' : Bytes} {a r : List HttpToken} {req req' : HttpRequest}

theorem text_of_break {c : HttpToken} (hq : q.ofHeader = true) (hc : c.id = tokCrlf)
    {q' : LexerState} (h : Reads table q s [c] q' s') : c.text = [13, 10] ∧ q' = .headerName :=
  reads_ofHeader hc hq (show Reads table q s ([] ++ [c]) q' s' from h)

theorem reads_name {t k : HttpToken} {ts : List HttpToken} (ht : t.id = hHost.id ∨ t.id = hAny.id)
    (hk : k.id = 58) (h : Reads table .headerName s (t :: k :: ts) q s') : ∃ r, k.text = [58] ∧
      next table .headerName (t.text ++ 58 :: r) = some (t, .headerName, 58 :: r) ∧
      Reads table .headerContent r ts q s' := by
  obtain ⟨q₁, s₁, hnext, hrest⟩ := reads_cons.mp h
  obtain ⟨q₂, s₂, hnext', hreads⟩ := reads_cons.mp hrest
  obtain rfl : q₁ = .headerName := by
    obtain ⟨-, -, hq⟩ | ⟨-, -, hq⟩ | ⟨hid, -⟩ | ⟨hid, -⟩ | ⟨-, -, -, hq⟩ | ⟨hid, -⟩ :=
      headerName_cases hnext
    · exact hq
    · exact hq
    · rw [hid] at ht
      exact absurd ht (by decide)
    · rw [hid] at ht
      exact absurd ht (by decide)
    · exact hq
    · rw [hid] at ht
      exact absurd ht (by decide)
  obtain ⟨hid, -⟩ | ⟨hid, -⟩ | ⟨hid, -⟩ | ⟨hid, -⟩ | ⟨hid, -⟩ | ⟨-, htext, rfl⟩ :=
    headerName_cases hnext'
  case inr.inr.inr.inr.inr =>
    obtain ⟨-, -, -, -, -, rfl, -⟩ := next_eq_some sound_table hnext'
    obtain ⟨-, -, -, -, -, rfl, -⟩ := next_eq_some sound_table hnext
    rw [htext] at hnext
    exact ⟨s₂, htext, hnext, hreads⟩
  all_goals
    rw [hk] at hid
    exact absurd hid (by decide)

theorem exists_host (h : hostHdr (a ++ r) req = (some r, req'))
    (hreads : Reads table .headerName s a q s') :
    q = .headerName ∧ ∃ l : HeaderLine, l.octets = text a := by
  obtain ⟨t, k, us, w, vs, c, ha, ht, hk, hus, hw, hvs, hc⟩ := exists_hostHdr h
  obtain rfl : a = t :: k :: (us ++ w :: (vs ++ [c])) := by
    refine (List.append_left_inj r).mp (ha.trans ?_)
    simp
  obtain ⟨s₁, hktext, hnext, hreads⟩ := reads_name (.inl ht) hk hreads
  obtain ⟨q₁, s₂, hbefore, hreads⟩ := reads_append.mp hreads
  obtain ⟨rfl, before, hbeforeText⟩ := exists_gap hus hbefore
  obtain ⟨q₂, s₃, hvalue, hreads⟩ := reads_cons.mp hreads
  obtain ⟨q₃, s₄, hafter, hreads⟩ := reads_append.mp hreads
  obtain ⟨hid, -⟩ | ⟨-, hname, -⟩ | ⟨hid, -⟩ | ⟨hid, -⟩ | ⟨hid, -⟩ | ⟨hid, -⟩ :=
    headerName_cases hnext
  case inr.inl =>
    obtain ⟨hid, -⟩ | ⟨-, hne, hvisible, rfl⟩ | ⟨hid, -⟩ := headerContent_cases hvalue
    case inr.inl =>
      obtain ⟨rfl, after, hafterText⟩ := exists_gap hvs hafter
      obtain ⟨hctext, rfl⟩ := text_of_break (by rfl) hc hreads
      refine ⟨rfl, .host ⟨t.text, hname⟩ before ⟨w.text, hne, hvisible⟩ after, ?_⟩
      simp [HeaderLine.octets, hktext, hctext, hbeforeText, hafterText]
    all_goals
      rw [hw] at hid
      exact absurd hid (by decide)
  all_goals
    rw [ht] at hid
    exact absurd hid (by decide)

theorem exists_dnt (h : dntHdr (a ++ r) req = (some r, req'))
    (hreads : Reads table .headerName s a q s') :
    q = .headerName ∧ ∃ l : HeaderLine, l.octets = text a := by
  obtain ⟨t, us, w, vs, c, ha, ht, hus, hw, hvs, hc⟩ := exists_dntHdr h
  obtain rfl : a = t :: (us ++ w :: (vs ++ [c])) := by
    refine (List.append_left_inj r).mp (ha.trans ?_)
    simp
  obtain ⟨q₀, s₁, hnext, hreads⟩ := reads_cons.mp hreads
  obtain ⟨q₁, s₂, hbefore, hreads⟩ := reads_append.mp hreads
  obtain ⟨q₂, s₃, hvalue, hreads⟩ := reads_cons.mp hreads
  obtain ⟨q₃, s₄, hafter, hreads⟩ := reads_append.mp hreads
  obtain ⟨hid, -⟩ | ⟨hid, -⟩ | ⟨-, hname, rfl⟩ | ⟨hid, -⟩ | ⟨hid, -⟩ | ⟨hid, -⟩ :=
    headerName_cases hnext
  case inr.inr.inl =>
    obtain ⟨rfl, before, hbeforeText⟩ := exists_blanks hus hbefore
    obtain ⟨on, hon, rfl⟩ : ∃ on : Bool, w.text = [if on then 49 else 48] ∧ q₂ = .headerDnt := by
      obtain ⟨hid, -⟩ | ⟨-, htext, hq⟩ | ⟨-, htext, hq⟩ | ⟨hid, -⟩ := headerDnt_cases hvalue
      · rw [hid] at hw
        exact absurd hw (by decide)
      · exact ⟨true, htext, hq⟩
      · exact ⟨false, htext, hq⟩
      · rw [hid] at hw
        exact absurd hw (by decide)
    obtain ⟨rfl, after, hafterText⟩ := exists_blanks hvs hafter
    obtain ⟨hctext, rfl⟩ := text_of_break (by rfl) hc hreads
    refine ⟨rfl, .dnt ⟨t.text, hname⟩ before on after, ?_⟩
    simp [HeaderLine.octets, hctext, hon, hbeforeText, hafterText]
  all_goals
    rw [ht] at hid
    exact absurd hid (by decide)

theorem exists_acceptEncoding (h : acceptEncodingHdr (a ++ r) req = (some r, req'))
    (hreads : Reads table .headerName s a q s') :
    q = .headerName ∧ ∃ l : HeaderLine, l.octets = text a := by
  obtain ⟨t, us, c, ha, ht, hus, hc⟩ := exists_acceptEncodingHdr h
  obtain rfl : a = t :: (us ++ [c]) := by
    refine (List.append_left_inj r).mp (ha.trans ?_)
    simp
  obtain ⟨q₀, s₁, hnext, hreads⟩ := reads_cons.mp hreads
  obtain ⟨q₁, s₂, hvalue, hreads⟩ := reads_append.mp hreads
  obtain ⟨hid, -⟩ | ⟨hid, -⟩ | ⟨hid, -⟩ | ⟨-, hname, rfl⟩ | ⟨hid, -⟩ | ⟨hid, -⟩ :=
    headerName_cases hnext
  case inr.inr.inr.inl =>
    obtain ⟨rfl, hcodings⟩ := codings_of_reads hus hvalue
    obtain ⟨hctext, rfl⟩ := text_of_break (by rfl) hc hreads
    refine ⟨rfl, .acceptEncoding ⟨t.text, hname⟩ ⟨text us, hcodings⟩, ?_⟩
    simp [HeaderLine.octets, hctext]
  all_goals
    rw [ht] at hid
    exact absurd hid (by decide)

theorem exists_any (h : anyHdr (a ++ r) req = (some r, req'))
    (hreads : Reads table .headerName s a q s') :
    q = .headerName ∧ ∃ l : HeaderLine, l.octets = text a := by
  obtain ⟨t, k, us, c, ha, ht, hk, hus, hword, hc⟩ := exists_anyHdr h
  obtain rfl : a = t :: k :: (us ++ [c]) := by
    refine (List.append_left_inj r).mp (ha.trans ?_)
    simp
  obtain ⟨s₁, hktext, hnext, hreads⟩ := reads_name (.inr ht) hk hreads
  obtain ⟨q₁, s₂, hvalue, hreads⟩ := reads_append.mp hreads
  obtain ⟨rfl, hcontent, hiff⟩ := content_of_reads hus hvalue
  obtain ⟨hctext, rfl⟩ := text_of_break (by rfl) hc hreads
  obtain ⟨hid, -⟩ | ⟨hid, -⟩ | ⟨hid, -⟩ | ⟨hid, -⟩ | ⟨-, hne, hchars, -⟩ | ⟨hid, -⟩ :=
    headerName_cases hnext
  case inr.inr.inr.inr.inl =>
    -- a name that is recognised would have been read as that
    have hread : ∀ {d : TokenDef} {q : LexerState} {x y : Bytes}, hAny.id ≠ d.id →
        next table .headerName (t.text ++ 58 :: s₁) ≠ some (⟨d.id, .headerName, x⟩, q, y) := by
      intro d q x y hne heq
      rw [hnext] at heq
      exact hne (ht.symm.trans (congrArg (Token.id ∘ Prod.fst) (Option.some.inj heq)))
    have hcolon : ∀ {p : Bytes}, lowered t.text = p → lowered (t.text ++ [58]) = p ++ [58] := by
      rintro p rfl
      exact List.map_append
    have hsplit : t.text ++ [58] ++ s₁ = t.text ++ 58 :: s₁ := by simp
    have hhost : lowered t.text ≠ ascii "host" := fun hlower =>
      hread (d := hHost) (by decide) (next_host ⟨t.text, hlower⟩ s₁)
    have hdnt : lowered t.text ≠ ascii "dnt" := fun hlower =>
      hread (d := hDnt) (by decide) (hsplit ▸ next_dnt ⟨t.text ++ [58], hcolon hlower⟩ s₁)
    have haccept : lowered t.text ≠ ascii "accept-encoding" := fun hlower =>
      hread (d := hAcceptEncoding) (by decide)
        (hsplit ▸ next_acceptEncodingName ⟨t.text ++ [58], hcolon hlower⟩ s₁)
    have hother : OtherName t.text := ⟨hne, hchars, by simp [hhost, hdnt, haccept]⟩
    refine ⟨rfl, .other ⟨t.text, hother⟩ ⟨text us, hcontent, hiff.mp hword⟩, ?_⟩
    simp [HeaderLine.octets, hktext, hctext]
  all_goals
    rw [ht] at hid
    exact absurd hid (by decide)

/-- **A header that is taken is a header line.** -/
theorem exists_headerLine (h : header (a ++ r) req = (some r, req'))
    (hreads : Reads table .headerName s a q s') :
    q = .headerName ∧ ∃ l : HeaderLine, l.octets = text a := by
  obtain h | ⟨_, -, h⟩ := exists_of_alt h
  · exact exists_host h hreads
  obtain h | ⟨_, -, h⟩ := exists_of_alt h
  · exact exists_dnt h hreads
  obtain h | ⟨_, -, h⟩ := exists_of_alt h
  · exact exists_acceptEncoding h hreads
  · exact exists_any h hreads

theorem exists_headerLines {lines : List (List HttpToken)} {ts : List HttpToken}
    (h : Takes header lines ts req r req') (hreads : Reads table .headerName s lines.flatten q s') :
    q = .headerName ∧ ∃ ls : List HeaderLine, ls.flatMap HeaderLine.octets = text lines.flatten := by
  induction h generalizing s with
  | nil => exact ⟨(reads_nil.mp hreads).1, [], rfl⟩
  | cons hrun _ ih =>
    rw [List.flatten_cons] at hreads ⊢
    obtain ⟨q', s₁, hline, hrest⟩ := reads_append.mp hreads
    obtain ⟨rfl, l, hl⟩ := exists_headerLine hrun hline
    obtain ⟨hq, ls, hls⟩ := ih hrest
    exact ⟨hq, l :: ls, by rw [List.flatMap_cons, hl, hls, text_append]⟩

end HeaderLine

/-! ## Heads -/

section Head

variable {q q' q₁ : LexerState} {s s' b : Bytes} {req : HttpRequest}

theorem isVisible_of_lower {c : UInt8} (h : isVisible (lower c) = true) : isVisible c = true := by
  unfold lower at h
  split at h
  · next hupper =>
    refine isVisible_of_char ⟨UInt8.le_trans (by decide) hupper.1, UInt8.le_trans hupper.2 (by decide)⟩
  · exact h

theorem exists_word {t : HttpToken} (hq : WordState q q') (h : next table q s = some (t, q₁, s'))
    (ht : t.id ≠ 32) : ∃ w : Word, w.octets = t.text := by
  obtain ⟨d, hd, hid, -, -, rfl, hne, hpat, -⟩ := next_eq_some sound_table h
  have hkeyword : ∀ {p : Bytes}, caseless p (t.text ++ s') = some t.text.length →
      p.all isVisible = true → ∃ w : Word, w.octets = t.text := by
    intro p hpat hp
    refine ⟨⟨t.text, hne, fun c hc => isVisible_of_lower (List.all_eq_true.mp hp _ ?_)⟩, rfl⟩
    rw [← Lexer.lowered_of_caseless hpat]
    exact List.mem_map_of_mem hc
  have hany : many1 isVisible (t.text ++ s') = some t.text.length → ∃ w : Word, w.octets = t.text :=
    fun hpat => ⟨⟨t.text, hne, forall_of_many1 hpat⟩, rfl⟩
  cases hq with
  | method =>
    simp only [table, goto, List.mem_cons, List.not_mem_nil, or_false] at hd
    obtain rfl | rfl | rfl | rfl | rfl | rfl | rfl | rfl | rfl | rfl := hd
    case inr.inr.inr.inr.inr.inr.inr.inr.inl => exact hany hpat
    case inr.inr.inr.inr.inr.inr.inr.inr.inr => exact absurd hid ht
    all_goals exact hkeyword hpat (by decide)
  | uri =>
    simp only [table, goto, List.mem_cons, List.not_mem_nil, or_false] at hd
    obtain rfl | rfl := hd
    · exact hany hpat
    · exact absurd hid ht

theorem httpVersion_cases {t : HttpToken} (h : next table .httpVersion s = some (t, q, s')) :
    (q = .httpVersion ∧ ∃ v : HttpVersion, v.octets = t.text) ∨ (q = .headerName ∧ t.text = [13, 10]) := by
  obtain ⟨d, hd, -, -, rfl, rfl, -, hpat, -⟩ := next_eq_some sound_table h
  simp only [table, goto, List.mem_cons, List.not_mem_nil, or_false] at hd
  obtain rfl | rfl | rfl := hd
  · exact .inl ⟨rfl, .http10 ⟨t.text, Lexer.lowered_of_caseless hpat⟩, rfl⟩
  · exact .inl ⟨rfl, .http11 ⟨t.text, Lexer.lowered_of_caseless hpat⟩, rfl⟩
  · exact .inr ⟨rfl, eq_of_literal hpat⟩

theorem lines_of_httpVersion {lines : List (List HttpToken)} {ts r : List HttpToken}
    {req req' : HttpRequest} (h : Takes header lines ts req r req')
    (hreads : Reads table .httpVersion s lines.flatten q s') : lines = [] := by
  cases h with
  | nil => rfl
  | cons hrun _ =>
    rw [List.flatten_cons] at hreads
    obtain ⟨_, _, hline, -⟩ := reads_append.mp hreads
    obtain ⟨t, body, c, -, -, rfl, -⟩ := (isLine_of_header hrun hline).1
    obtain ⟨t', ts', hts, hstate⟩ := name_of_header hrun
    obtain ⟨rfl, -⟩ := List.cons_eq_cons.mp hts
    obtain ⟨_, _, hnext, -⟩ := reads_cons.mp hline
    obtain ⟨-, -, -, hq, -⟩ := next_eq_some sound_table hnext
    rw [hq] at hstate
    cases hstate

/-- **What follows the URI**, up to the last token. -/
theorem exists_ending {v c last : HttpToken} {lines : List (List HttpToken)} {ts r : List HttpToken}
    {req req' : HttpRequest} (hc : c.id = tokCrlf) (hlast : last.id = tokCrlf)
    (htakes : Takes header lines ts req r req')
    (h : Reads table .httpVersion s (v :: c :: (lines.flatten ++ [last])) q s') :
    ∃ e : Ending, e.octets = text (v :: c :: (lines.flatten ++ [last])) := by
  obtain ⟨q₁, s₁, hv, h⟩ := reads_cons.mp h
  obtain ⟨q₂, s₂, hbreak, h⟩ := reads_cons.mp h
  obtain ⟨q₃, s₃, hlines, h⟩ := reads_append.mp h
  obtain ⟨q₄, s₄, hnext, -⟩ := reads_cons.mp h
  have hheaders : q₂ = .headerName → last.text = [13, 10] ∧ ∃ ls : List HeaderLine,
      ls.flatMap HeaderLine.octets = text lines.flatten := by
    rintro rfl
    obtain ⟨rfl, hls⟩ := exists_headerLines htakes hlines
    obtain ⟨htext, -⟩ | ⟨hq, -⟩ := next_tokCrlf hnext hlast
    · exact ⟨htext, hls⟩
    · cases hq
  obtain ⟨rfl, version, hversion⟩ | ⟨rfl, hvtext⟩ := httpVersion_cases hv
  · obtain ⟨hctext, hq⟩ | ⟨-, rfl, hname⟩ := next_tokCrlf hbreak hc
    · obtain ⟨hlasttext, ls, hls⟩ := hheaders hq
      refine ⟨.lines version ls, ?_⟩
      simp [Ending.octets, hversion, hctext, hlasttext, hls]
    · -- no header is read where versions are
      obtain rfl := lines_of_httpVersion htakes hlines
      obtain ⟨rfl, rfl⟩ := reads_nil.mp hlines
      obtain ⟨hlasttext, -⟩ | ⟨-, -, hname'⟩ := next_tokCrlf hnext hlast
      · refine ⟨.lineBreak version ⟨c.text, hname⟩, ?_⟩
        simp [Ending.octets, hversion, hlasttext]
      · refine ⟨.versions version ⟨c.text, hname⟩ ⟨last.text, hname'⟩, ?_⟩
        simp [Ending.octets, hversion]
  · obtain ⟨hctext, hq⟩ | ⟨hq, -⟩ := next_tokCrlf hbreak hc
    · obtain ⟨hlasttext, ls, hls⟩ := hheaders hq
      refine ⟨.noVersion ls, ?_⟩
      simp [Ending.octets, hvtext, hctext, hlasttext, hls]
    · cases hq

theorem exists_requestHead (parsed : Parsed b req) :
    ∃ (h : RequestHead) (rest : Bytes), b = h.octets ++ rest := by
  obtain ⟨m, w, u, w', v, c, hstart, hm, hw, hu, hw', -, hc⟩ := parsed.exists_start
  have htokens : tokens b = m :: w :: u :: w' :: v :: c :: (parsed.lines.flatten ++ [parsed.last]) ++
      parsed.rest := by
    rw [parsed.tokens_eq, hstart]
    simp
  obtain ⟨q, rest, hreads, -⟩ := exists_reads sound_table htokens
  have hb := hreads.text sound_table
  obtain ⟨q₁, s₁, hmnext, h₁⟩ := reads_cons.mp hreads
  obtain ⟨q₂, s₂, hwnext, h₂⟩ := reads_cons.mp h₁
  obtain ⟨q₃, s₃, hunext, h₃⟩ := reads_cons.mp h₂
  obtain ⟨q₄, s₄, hwnext', h₄⟩ := reads_cons.mp h₃
  obtain ⟨method, hmethod⟩ := exists_word .method hmnext hm
  obtain ⟨-, rfl⟩ | ⟨-, -, hid, -⟩ := next_start .method hmnext
  · obtain ⟨hid, -⟩ | ⟨hwtext, -, -, rfl⟩ := next_start .method hwnext
    · exact absurd hw hid
    obtain ⟨uri, huri⟩ := exists_word .uri hunext hu
    obtain ⟨-, rfl⟩ | ⟨-, -, hid, -⟩ := next_start .uri hunext
    · obtain ⟨hid, -⟩ | ⟨hwtext', -, -, rfl⟩ := next_start .uri hwnext'
      · exact absurd hw' hid
      obtain ⟨ending, hending⟩ := exists_ending hc parsed.last_id parsed.takes h₄
      refine ⟨⟨method, uri, ending⟩, rest, hb.trans ?_⟩
      simp [RequestHead.octets, hmethod, huri, hending, hwtext, hwtext']
    · exact absurd hid hu
  · exact absurd hid hm

theorem exists_head_of_accepted {stop : Bytes → ℕ} (h : parseHttpRequest (requestGrammar stop) b = some req) :
    ∃ (h : RequestHead) (rest : Bytes), b = h.octets ++ rest := by
  obtain ⟨req', ⟨parsed⟩, -⟩ := exists_parsed h
  obtain ⟨h, rest, hb⟩ := exists_requestHead parsed
  exact ⟨h, rest, hb⟩

/-! ## Where a head ends -/

/-- **The octets that the grammar takes**: where `tokenize_and_parse` leaves its iterator, right after the
last token that is matched. -/
def parsedLength (b : Bytes) : ℕ :=
  match RequestGrammar.start (tokens b) {} with
  | (some r, _) => (text ((tokens b).take ((tokens b).length - r.length))).length
  | (none, _) => 0

theorem parsedLength_eq (h : RequestHead) (rest : Bytes) :
    parsedLength (h.octets ++ rest) = h.octets.length := by
  obtain ⟨ts, q, hreads, hstart⟩ := head_read h rest
  have htokens : tokens (h.octets ++ rest) = ts ++ lex table q rest := hreads.lex sound_table
  have htext := List.append_cancel_right (hreads.text sound_table)
  unfold parsedLength
  rw [htokens, hstart]
  simp only
  rw [List.length_append, Nat.add_sub_cancel, List.take_left, htext]

/-- **`tokenize_and_parse` leaves its iterator right after the last token that is matched.** -/
def StopsAfterHead (stop : Bytes → ℕ) : Prop :=
  ∀ b, (RequestGrammar.start (tokens b) {}).1.isSome = true → stop b = parsedLength b

/-- What the parser makes of a head. -/
def RequestHead.parsed (h : RequestHead) : HttpRequest :=
  { h.request with requestLength := h.octets.length }

theorem head_parsed {stop : Bytes → ℕ} (hstop : StopsAfterHead stop) (h : RequestHead) (rest : Bytes) :
    parseHttpRequest (requestGrammar stop) (h.octets ++ rest) = some h.parsed := by
  obtain ⟨ts, q, hreads, hstart⟩ := head_read h rest
  have hsome : (RequestGrammar.start (tokens (h.octets ++ rest)) {}).1.isSome = true := by
    rw [tokens, hreads.lex sound_table, hstart]
    rfl
  rw [head_accepted, hstop _ hsome, parsedLength_eq]
  rfl

/-- **The buffers that are accepted** are those that begin with a head. The request is what the head says,
and its length is that of the head. -/
theorem parse_iff {stop : Bytes → ℕ} (hstop : StopsAfterHead stop) :
    parseHttpRequest (requestGrammar stop) b = some req ↔
      ∃ (h : RequestHead) (rest : Bytes), b = h.octets ++ rest ∧ req = h.parsed := by
  constructor
  · intro haccepted
    obtain ⟨h, rest, rfl⟩ := exists_head_of_accepted haccepted
    rw [head_parsed hstop] at haccepted
    exact ⟨h, rest, rfl, (Option.some.inj haccepted).symm⟩
  · rintro ⟨h, rest, rfl, rfl⟩
    exact head_parsed hstop h rest

/-- The head of the sample is accepted, with its length and what it says, before other octets. -/
theorem parse_iff_sample :
    parseHttpRequest (requestGrammar parsedLength) (sampleHead.octets ++ [71, 69, 84]) =
      some sampleHead.parsed ∧ sampleHead.parsed.requestLength = 29 := by
  have hstop : StopsAfterHead parsedLength := fun _ _ => rfl
  exact ⟨(parse_iff hstop).mpr ⟨sampleHead, [71, 69, 84], rfl, rfl⟩, by decide⟩

variable {h h' : RequestHead}

theorem head_unique (hpre : h.octets <+: h'.octets) : h.octets = h'.octets ∧ h.request = h'.request := by
  have hrequest : ∀ g : RequestHead, (RequestGrammar.start (tokens (g.octets ++ [])) {}).2 = g.request := by
    intro g
    obtain ⟨ts, q, hreads, hstart⟩ := head_read g []
    rw [tokens, hreads.lex sound_table, hstart]
  obtain ⟨rest, hrest⟩ := id hpre
  have hlength := parsedLength_eq h rest
  rw [hrest, ← List.append_nil h'.octets, parsedLength_eq h' []] at hlength
  have hoctets := hpre.eq_of_length hlength.symm
  exact ⟨hoctets, by rw [← hrequest, hoctets, hrequest]⟩

/-- **No head begins another**, and a head says one thing. -/
theorem head_prefix_iff : h.octets <+: h'.octets ↔ h.octets = h'.octets ∧ h.request = h'.request :=
  ⟨head_unique, fun hsame => hsame.1 ▸ List.prefix_rfl⟩

/-- **Octets begin with one head at most.** -/
theorem head_eq_of_append {rest rest' : Bytes} (heq : h.octets ++ rest = h'.octets ++ rest') :
    h.octets = h'.octets ∧ h.request = h'.request := by
  have hpre : h.octets <+: h'.octets ++ rest' := heq ▸ List.prefix_append ..
  obtain hle | hle := Nat.le_total h.octets.length h'.octets.length
  · exact head_unique (List.prefix_of_prefix_length_le hpre (List.prefix_append ..) hle)
  · obtain ⟨hoctets, hrequest⟩ :=
      head_unique (List.prefix_of_prefix_length_le (List.prefix_append ..) hpre hle)
    exact ⟨hoctets.symm, hrequest.symm⟩

end Head

end VUbercool.Http
