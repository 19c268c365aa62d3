import VUbercool.Http.AcceptEncoding
import VUbercool.Http.RequestHead

/-!
# The value of an `Accept-Encoding` header

* `isCodings_cases`: what a value begins with. `CodingTokens`, `reads_codings`: its tokens.
* `star_qvalue`, `star_comma`, `star_coding`: what the grammar takes of them.
* **`acceptEncodingHdr_of_tokens`**: the header is taken, with the actions of its codings.
-/

namespace VUbercool.Http

open Octets Lexer Peg
open HeaderLexer RequestGrammar

/-! ## What is read -/

section Codings

variable {p : Place} {s v : Bytes} {c d e : UInt8}

theorem isLetter_of_isBlank (hc : isBlank c = true) : isLetter c = false := by
  rcases Bool.or_eq_true_iff.mp hc with h | h
  · rw [beq_iff_eq.mp h]
    rfl
  · rw [beq_iff_eq.mp h]
    rfl

theorem isCodings_blank (hc : isBlank c = true) : isCodings p (c :: s) = isCodings .gap s := by
  rw [isCodings, if_pos hc]
  rintro _ _ _ _ rfl
  cases hc

theorem isCodings_letter (hc : isLetter c = true) : isCodings p (c :: s) = isCodings .coding s := by
  have hblank : ¬ isBlank c = true := by
    intro h
    rw [isLetter_of_isBlank h] at hc
    cases hc
  rw [isCodings, if_neg hblank, if_pos hc]
  rintro _ _ _ _ rfl
  cases hc

theorem isCodings_qvalue : isCodings .coding (59 :: 113 :: 61 :: d :: 46 :: e :: s) =
    (isDigit d && isDigit e && isCodings .coding s) := by rw [isCodings]

theorem isCodings_comma : isCodings p (44 :: s) = (p != .gap && isCodings .commas s) := by
  rw [isCodings]
  · rfl
  · rintro _ _ _ _ ⟨⟩

/-- **The value of an `Accept-Encoding` header** is empty, or it begins with a blank, with a letter, with
a q-value or with a comma. -/
theorem isCodings_cases (h : isCodings p v = true) :
    v = [] ∨ (∃ c s, v = c :: s ∧ isBlank c = true ∧ isCodings .gap s = true) ∨
      (∃ c s, v = c :: s ∧ isLetter c = true ∧ isCodings .coding s = true) ∨
      (∃ d e s, v = 59 :: 113 :: 61 :: d :: 46 :: e :: s ∧ p = .coding ∧ isDigit d = true ∧
        isDigit e = true ∧ isCodings .coding s = true) ∨
      ∃ s, v = 44 :: s ∧ p ≠ .gap ∧ isCodings .commas s = true := by
  unfold isCodings at h
  split at h
  · exact .inl rfl
  · next d e s =>
    simp only [Bool.and_eq_true] at h
    exact .inr (.inr (.inr (.inl ⟨d, e, s, rfl, rfl, h.1.1, h.1.2, h.2⟩)))
  · next c s _ =>
    split_ifs at h with hblank hletter
    · exact .inr (.inl ⟨c, s, rfl, hblank, h⟩)
    · exact .inr (.inr (.inl ⟨c, s, rfl, hletter, h⟩))
    · simp only [Bool.and_eq_true, beq_iff_eq, bne_iff_ne, ne_eq] at h
      obtain ⟨⟨rfl, hp⟩, hs⟩ := h
      exact .inr (.inr (.inr (.inr ⟨s, rfl, hp, hs⟩)))

theorem isCodings_letters : ∀ {p : Place} {x : Bytes}, x ≠ [] → (∀ c ∈ x, isLetter c = true) →
    isCodings p (x ++ s) = isCodings .coding s
  | _, [], hne, _ => absurd rfl hne
  | _, [c], _, hx => isCodings_letter (hx c List.mem_cons_self)
  | _, c :: d :: x, _, hx => by
    rw [List.cons_append, isCodings_letter (hx c List.mem_cons_self)]
    exact isCodings_letters (List.cons_ne_nil d x) fun a ha => hx a (List.mem_cons_of_mem c ha)

theorem exists_cons_of_classes {p : UInt8 → Bool} {ps : List (UInt8 → Bool)} {t : Bytes}
    (h : classes (p :: ps) (t ++ s) = some t.length) : ∃ a x, t = a :: x ∧ p a = true := by
  obtain ⟨hmatch, -⟩ := matchesClasses_of_classes h
  cases t with
  | nil => cases hmatch
  | cons a x => exact ⟨a, x, rfl, (Bool.and_eq_true_iff.mp hmatch).1⟩

theorem eq_singleton_of_classes {p : UInt8 → Bool} {t : Bytes}
    (h : classes [p] (t ++ s) = some t.length) : ∃ a, t = [a] ∧ p a = true := by
  obtain ⟨a, x, rfl, ha⟩ := exists_cons_of_classes h
  obtain ⟨-, hlength⟩ := matchesClasses_of_classes h
  obtain rfl := List.length_eq_zero_iff.mp (Nat.succ.inj hlength)
  exact ⟨a, rfl, ha⟩

theorem exists_of_append_break {u r : Bytes} (h : u ++ r = v ++ 13 :: s) (hu : 13 ∉ u) :
    ∃ w, v = u ++ w ∧ r = w ++ 13 :: s := by
  obtain ⟨w, rfl, hw⟩ | ⟨w, hw, hr⟩ := List.append_eq_append_iff.mp h
  · exact ⟨w, rfl, hw⟩
  · cases w with
    | nil => exact ⟨[], by simpa using hw.symm, by simpa using hr.symm⟩
    | cons a w =>
      obtain ⟨rfl, -⟩ := List.cons.inj hr
      exact absurd (hw ▸ List.mem_append_right v List.mem_cons_self) hu

theorem isLetter_of_lower (h : isLetter (lower c) = true) : isLetter c = true := by
  unfold lower at h
  split at h
  · next hupper => simp [isLetter, hupper.1, hupper.2]
  · exact h

/-- The tokens of the value of an `Accept-Encoding` header from a place on. -/
inductive CodingTokens : Place → List HttpToken → Prop
  | nil {p : Place} : CodingTokens p []
  | blank {p : Place} {t : HttpToken} {ts : List HttpToken} :
      t.id = 32 → CodingTokens .gap ts → CodingTokens p (t :: ts)
  | coding {p : Place} {t : HttpToken} {ts : List HttpToken} :
      t.id ∈ [acceptEncodingGzip.id, acceptEncodingDeflate.id, acceptEncodingOther.id] →
      t.state = .acceptEncoding → CodingTokens .coding ts → CodingTokens p (t :: ts)
  | qvalue {t : HttpToken} {ts : List HttpToken} :
      t.id = acceptEncodingQvalue.id → t.state = .acceptEncoding → CodingTokens .coding ts →
      CodingTokens .coding (t :: ts)
  | comma {p : Place} {t : HttpToken} {ts : List HttpToken} :
      p ≠ .gap → t.id = 44 → CodingTokens .commas ts → CodingTokens p (t :: ts)

theorem next_letter (hc : isLetter c = true) (v s : Bytes) : ∃ u w,
    next table .acceptEncoding (c :: v ++ 13 :: s) = some (u, .acceptEncoding, w ++ 13 :: s) ∧
      u.id ∈ [acceptEncodingGzip.id, acceptEncodingDeflate.id, acceptEncodingOther.id] ∧
      u.state = .acceptEncoding ∧ c :: v = u.text ++ w ∧ u.text ≠ [] ∧
      ∀ a ∈ u.text, isLetter a = true := by
  have hother : acceptEncodingOther.pattern (c :: v ++ 13 :: s) = some 1 := by
    simp [acceptEncodingOther, classes, matchesClasses, hc]
  cases h : next table .acceptEncoding (c :: v ++ 13 :: s) with
  | none =>
    have hnone := longest_eq_none.mp (Option.map_eq_none_iff.mp h) acceptEncodingOther
      (by simp [table])
    rw [hother] at hnone
    cases hnone
  | some r =>
    obtain ⟨u, q, r⟩ := r
    obtain ⟨d, hd, hid, hstate, rfl, hs, hne, hpat, -⟩ := next_eq_some sound_table h
    have hhead : ∀ {a : UInt8}, isLetter a = false → ∀ {x : Bytes}, u.text ≠ a :: x := by
      rintro a ha x hx
      rw [hx] at hs
      obtain ⟨rfl, -⟩ := List.cons.inj hs
      rw [hc] at ha
      cases ha
    have hletters : ∀ {p : Bytes}, lowered u.text = p → p.all isLetter = true →
        ∀ a ∈ u.text, isLetter a = true := by
      rintro p rfl hp a ha
      exact isLetter_of_lower (List.all_eq_true.mp hp _ (List.mem_map_of_mem ha))
    have hgo : d.id ∈ [acceptEncodingGzip.id, acceptEncodingDeflate.id, acceptEncodingOther.id] →
        d.target.getD .acceptEncoding = .acceptEncoding → (∀ a ∈ u.text, isLetter a = true) →
        ∃ u' w, some (u, d.target.getD LexerState.acceptEncoding, r) =
            some (u', .acceptEncoding, w ++ 13 :: s) ∧
          u'.id ∈ [acceptEncodingGzip.id, acceptEncodingDeflate.id, acceptEncodingOther.id] ∧
          u'.state = .acceptEncoding ∧ c :: v = u'.text ++ w ∧ u'.text ≠ [] ∧
          ∀ a ∈ u'.text, isLetter a = true := by
      intro hmem htarget hall
      have h13 : 13 ∉ u.text := fun hmem => absurd (hall 13 hmem) (by decide)
      obtain ⟨w, hv, rfl⟩ := exists_of_append_break hs.symm h13
      exact ⟨u, w, by rw [htarget], hid ▸ hmem, hstate, hv, hne, hall⟩
    rw [hs] at hpat
    simp only [table, goto, List.mem_cons, List.not_mem_nil, or_false] at hd
    obtain rfl | rfl | rfl | rfl | rfl | rfl | rfl := hd
    · obtain ⟨a, hx, ha⟩ := eq_singleton_of_classes hpat
      exact absurd hx (hhead (isLetter_of_isBlank ha))
    · exact absurd (eq_of_literal hpat) (hhead (by decide))
    · exact hgo (by simp) rfl (hletters (Lexer.lowered_of_caseless hpat) (by decide))
    · exact hgo (by simp) rfl (hletters (Lexer.lowered_of_caseless hpat) (by decide))
    · exact absurd (eq_of_literal hpat) (hhead (by decide))
    · obtain ⟨a, x, hx, ha⟩ := exists_cons_of_classes hpat
      rw [beq_iff_eq.mp ha] at hx
      exact absurd hx (hhead (by decide))
    · obtain ⟨a, hx, ha⟩ := eq_singleton_of_classes hpat
      exact hgo (by simp) rfl (hx ▸ List.forall_mem_singleton.mpr ha)

theorem next_codingBlank (hc : isBlank c = true) (s : Bytes) :
    next table .acceptEncoding (c :: s) = some (⟨32, .acceptEncoding, [c]⟩, .acceptEncoding, s) := by
  have hne : ∀ {a : UInt8}, isBlank a = false → a ≠ c := by
    rintro a ha rfl
    rw [hc] at ha
    cases ha
  have hliteral : ∀ {a : UInt8} {p : Bytes}, isBlank a = false → Avoids c (literal (a :: p)) :=
    fun ha => avoids_literal (beq_eq_false_iff_ne.mpr (hne ha))
  have hlower : lower c = c := by
    rcases Bool.or_eq_true_iff.mp hc with h | h
    · rw [beq_iff_eq.mp h]
      rfl
    · rw [beq_iff_eq.mp h]
      rfl
  have hcaseless : ∀ {a : UInt8} {p : Bytes}, isBlank a = false → Avoids c (caseless (a :: p)) :=
    fun ha => avoids_caseless (by rw [hlower]; exact beq_eq_false_iff_ne.mpr (hne ha))
  have hspace : acceptEncodingSpace.pattern (c :: s) = some 1 := by
    simp [acceptEncodingSpace, dntSpace, classes, matchesClasses, hc]
  refine next_of_avoids [] [comma, acceptEncodingGzip, acceptEncodingDeflate,
    goto acceptEncodingCrlf .headerName, acceptEncodingQvalue, acceptEncodingOther]
    (d := acceptEncodingSpace) (x := []) rfl (List.forall_mem_nil _) ?_ hspace
  simp only [goto, List.forall_mem_cons]
  exact ⟨hliteral (by decide), hcaseless (by decide), hcaseless (by decide), hliteral (by decide),
    avoids_classes (beq_eq_false_iff_ne.mpr (hne (by decide)).symm),
    avoids_classes (isLetter_of_isBlank hc), List.forall_mem_nil _⟩

theorem next_comma (s : Bytes) : next table .acceptEncoding (44 :: s) =
    some (⟨44, .acceptEncoding, [44]⟩, .acceptEncoding, s) := by
  refine next_of_avoids [acceptEncodingSpace] [acceptEncodingGzip, acceptEncodingDeflate,
    goto acceptEncodingCrlf .headerName, acceptEncodingQvalue, acceptEncodingOther]
    (d := comma) (x := []) rfl (List.forall_mem_singleton.mpr (avoids_classes rfl)) ?_ rfl
  simp only [goto, List.forall_mem_cons]
  exact ⟨avoids_caseless (by decide), avoids_caseless (by decide), avoids_literal (by decide),
    avoids_classes rfl, avoids_classes rfl, List.forall_mem_nil _⟩

theorem next_qvalue (hd : isDigit d = true) (he : isDigit e = true) (s : Bytes) :
    next table .acceptEncoding (59 :: 113 :: 61 :: d :: 46 :: e :: s) =
      some (⟨acceptEncodingQvalue.id, .acceptEncoding, [59, 113, 61, d, 46, e]⟩, .acceptEncoding, s) := by
  have hqvalue : acceptEncodingQvalue.pattern (59 :: 113 :: 61 :: d :: 46 :: e :: s) = some 6 := by
    simp [acceptEncodingQvalue, classes, matchesClasses, hd, he]
  refine next_of_avoids [acceptEncodingSpace, comma, acceptEncodingGzip, acceptEncodingDeflate,
    goto acceptEncodingCrlf .headerName] [acceptEncodingOther]
    (d := acceptEncodingQvalue) (x := [113, 61, d, 46, e]) rfl ?_
    (List.forall_mem_singleton.mpr (avoids_classes rfl)) hqvalue
  simp only [goto, List.forall_mem_cons]
  exact ⟨avoids_classes rfl, avoids_literal (by decide), avoids_caseless (by decide),
    avoids_caseless (by decide), avoids_literal (by decide), List.forall_mem_nil _⟩

/-- **The tokens of the value of an `Accept-Encoding` header.** -/
theorem reads_codings (h : isCodings p v = true) (s : Bytes) : ∃ ts,
    Reads table .acceptEncoding (v ++ 13 :: s) ts .acceptEncoding (13 :: s) ∧ CodingTokens p ts := by
  induction hn : v.length using Nat.strongRecOn generalizing p v with
  | ind n ih =>
    obtain rfl | ⟨c, v, rfl, hc, hv⟩ | ⟨c, v, rfl, hc, hv⟩ | ⟨d, e, v, rfl, rfl, hd, he, hv⟩ |
      ⟨v, rfl, hp, hv⟩ := isCodings_cases h
    · exact ⟨[], .nil, .nil⟩
    · obtain ⟨ts, hreads, hts⟩ := ih v.length (by simp [← hn]) hv rfl
      exact ⟨_, .cons (next_codingBlank hc _) hreads, .blank rfl hts⟩
    · -- what follows the letters of the token is read where a coding has been
      obtain ⟨u, w, hnext, hid, hstate, hsplit, hne, hletters⟩ := next_letter hc v s
      rw [hsplit, isCodings_letters hne hletters] at h
      have hpos := List.length_pos_iff.mpr hne
      have hlt : w.length < n := by
        rw [← hn, hsplit, List.length_append]
        omega
      obtain ⟨ts, hreads, hts⟩ := ih w.length hlt h rfl
      exact ⟨_, .cons hnext hreads, .coding hid hstate hts⟩
    · obtain ⟨ts, hreads, hts⟩ := ih v.length (by simp [← hn]; omega) hv rfl
      exact ⟨_, .cons (next_qvalue hd he _) hreads, .qvalue rfl rfl hts⟩
    · obtain ⟨ts, hreads, hts⟩ := ih v.length (by simp [← hn]) hv rfl
      exact ⟨_, .cons (next_comma _) hreads, .comma hp rfl hts⟩

/-! ## What the grammar takes -/

variable {c : HttpToken} {ts : List HttpToken}

theorem tok_of_eq {d : TokenDef} {state : LexerState} {t : HttpToken} (hid : t.id = d.id)
    (hstate : t.state = state) (r : List HttpToken) (req : HttpRequest) :
    tok d state (t :: r) req = (some r, req) := by
  rw [tok, tokWith, token_cons, if_pos (by rw [hid, hstate]; simp)]

theorem tok_self (d : TokenDef) (state : LexerState) (x : Bytes) (r : List HttpToken)
    (req : HttpRequest) : tok d state (⟨d.id, state, x⟩ :: r) req = (some r, req) :=
  tok_of_eq rfl rfl r req

theorem tok_of_ne {d : TokenDef} (state : LexerState) {t : HttpToken} (hid : t.id ≠ d.id)
    (r : List HttpToken) (req : HttpRequest) : tok d state (t :: r) req = (none, req) := by
  rw [tok, tokWith, token_cons, beq_eq_false_iff_ne.mpr hid]
  rfl

/-- The q-values after a coding are taken. -/
theorem star_qvalue (hts : CodingTokens .coding ts) (hc : c.id = tokCrlf) (r : List HttpToken)
    (req : HttpRequest) : ∃ us, CodingTokens .commas us ∧
    star (tok acceptEncodingQvalue .acceptEncoding) (ts ++ c :: r) req = (some (us ++ c :: r), req) := by
  induction ts with
  | nil => exact ⟨[], .nil, star_none (tok_of_ne _ (hc ▸ (by decide)) ..)⟩
  | cons t ts ih =>
    cases hts with
    | blank hid hts => exact ⟨t :: ts, .blank hid hts, star_none (tok_of_ne _ (hid ▸ (by decide)) ..)⟩
    | coding hid hstate hts =>
      refine ⟨t :: ts, .coding hid hstate hts, star_none (tok_of_ne _ ?_ ..)⟩
      rintro heq
      rw [heq] at hid
      exact absurd hid (by decide)
    | qvalue hid hstate hts =>
      obtain ⟨us, hus, hstar⟩ := ih hts
      refine ⟨us, hus, (star_some (single_tokWith ..).consumes ?_).trans hstar⟩
      exact tok_of_eq hid hstate ..
    | comma hp hid hts =>
      exact ⟨t :: ts, .comma (by decide) hid hts, star_none (tok_of_ne _ (hid ▸ (by decide)) ..)⟩

/-- So are the commas. -/
theorem star_comma (hts : CodingTokens .commas ts) (hc : c.id = tokCrlf) (r : List HttpToken)
    (req : HttpRequest) : ∃ us, CodingTokens .gap us ∧
    star (tokenId 44) (ts ++ c :: r) req = (some (us ++ c :: r), req) := by
  induction ts with
  | nil => exact ⟨[], .nil, star_none (tokenId_of_ne (hc ▸ (by decide)))⟩
  | cons t ts ih =>
    cases hts with
    | blank hid hts => exact ⟨t :: ts, .blank hid hts, star_none (tokenId_of_ne (hid ▸ (by decide)))⟩
    | coding hid hstate hts =>
      refine ⟨t :: ts, .coding hid hstate hts, star_none (tokenId_of_ne ?_)⟩
      rintro heq
      rw [heq] at hid
      exact absurd hid (by decide)
    | comma hp hid hts =>
      obtain ⟨us, hus, hstar⟩ := ih hts
      exact ⟨us, hus, (star_some (single_tokenId _).consumes (hid ▸ tokenId_of_eq t)).trans hstar⟩

theorem CodingTokens.split (hts : CodingTokens .gap ts) : ∃ us, (∀ u ∈ us, u.id = 32) ∧
    (ts = us ∨ ∃ t ts', ts = us ++ t :: ts' ∧ t.state = .acceptEncoding ∧ CodingTokens .coding ts' ∧
      t.id ∈ [acceptEncodingGzip.id, acceptEncodingDeflate.id, acceptEncodingOther.id]) := by
  induction ts with
  | nil => exact ⟨[], List.forall_mem_nil _, .inl rfl⟩
  | cons t ts ih =>
    cases hts with
    | blank hid hts =>
      obtain ⟨us, hus, rfl | ⟨t', ts', rfl, h⟩⟩ := ih hts
      · exact ⟨t :: ts, List.forall_mem_cons.mpr ⟨hid, hus⟩, .inl rfl⟩
      · exact ⟨t :: us, List.forall_mem_cons.mpr ⟨hid, hus⟩, .inr ⟨t', ts', rfl, h⟩⟩
    | coding hid hstate hts =>
      exact ⟨[], List.forall_mem_nil _, .inr ⟨t, ts, rfl, hstate, hts, hid⟩⟩
    | comma hp hid hts => exact absurd rfl hp

theorem acceptEncodingValue_of_mem {t : HttpToken} (hstate : t.state = .acceptEncoding)
    (hid : t.id ∈ [acceptEncodingGzip.id, acceptEncodingDeflate.id, acceptEncodingOther.id])
    (r : List HttpToken) (req : HttpRequest) :
    ∃ req', RequestGrammar.acceptEncodingValue (t :: r) req = (some r, req') := by
  have hgzip : acceptEncodingGzip.id ≠ acceptEncodingDeflate.id := by decide
  have hother : acceptEncodingOther.id ∉ [acceptEncodingGzip.id, acceptEncodingDeflate.id] := by decide
  simp only [List.mem_cons, List.not_mem_nil, or_false, not_or] at hid hother
  simp only [RequestGrammar.acceptEncodingValue, alt, tokWith, tok, token_cons, hstate]
  obtain hid | hid | hid := hid <;> simp [hid, hgzip.symm, hother]

theorem coding_of_blanks {us : List HttpToken} (hus : ∀ u ∈ us, u.id = 32) (hc : c.id = tokCrlf)
    (r : List HttpToken) (req : HttpRequest) : coding (us ++ c :: r) req = (none, req) := by
  refine (seq_some (star_ws hus (hc ▸ (by decide)))).trans (seq_none ?_)
  rw [RequestGrammar.acceptEncodingValue, alt_none, alt_none]
  · exact tok_of_ne _ (hc ▸ (by decide)) ..
  · rw [tokWith, token_cons, hc]
    rfl
  · rw [tokWith, token_cons, hc]
    rfl

/-- **The codings of a value** are taken up to the blanks before the line break. -/
theorem star_coding (hts : CodingTokens .gap ts) (hc : c.id = tokCrlf) (r : List HttpToken)
    (req : HttpRequest) : ∃ us req', (∀ u ∈ us, u.id = 32) ∧
    star coding (ts ++ c :: r) req = (some (us ++ c :: r), req') := by
  induction hn : ts.length using Nat.strongRecOn generalizing ts req with
  | ind n ih =>
    obtain ⟨us, hus, rfl | ⟨t, ts', rfl, hstate, hts', hid⟩⟩ := hts.split
    · exact ⟨ts, req, hus, star_none (coding_of_blanks hus hc r req)⟩
    · obtain ⟨req₁, hvalue⟩ := acceptEncodingValue_of_mem hstate hid (ts' ++ c :: r) req
      obtain ⟨vs, hvs, hqvalue⟩ := star_qvalue hts' hc r req₁
      obtain ⟨ws, hws, hcomma⟩ := star_comma hvs hc r req₁
      have hne : t.id ≠ 32 := by
        rintro heq
        rw [heq] at hid
        exact absurd hid (by decide)
      have hcoding : coding (us ++ t :: (ts' ++ c :: r)) req = (some (ws ++ c :: r), req₁) :=
        (seq_some (star_ws hus hne)).trans <| (seq_some hvalue).trans <|
          (seq_some hqvalue).trans hcomma
      have hlt := length_lt consumes_coding hcoding
      obtain ⟨us', req', hus', hstar⟩ := ih ws.length
        (by simp only [List.length_append, List.length_cons] at hlt hn; omega) hws req₁ rfl
      refine ⟨us', req', hus', ?_⟩
      rw [List.append_assoc, List.cons_append, star_some consumes_coding hcoding]
      exact hstar

/-- **An `Accept-Encoding` header is taken**, with the actions of its codings. -/
theorem acceptEncodingHdr_of_tokens {t : HttpToken} (ht : t.id = hAcceptEncoding.id)
    (hstate : t.state = .headerName) (hts : CodingTokens .gap ts) (hc : c.id = tokCrlf)
    (r : List HttpToken) (req : HttpRequest) :
    acceptEncodingHdr (t :: (ts ++ c :: r)) req = (some r, ts.foldl listed req) := by
  obtain ⟨us, req', hus, hstar⟩ := star_coding hts hc r req
  have hsome : acceptEncodingHdr (t :: (ts ++ c :: r)) req = (some r, req') :=
    (seq_some (tok_of_eq ht hstate ..)).trans <| (seq_some hstar).trans (hvCrlf_of_blanks hus hc)
  obtain ⟨-, a, ha, hreq⟩ := acceptEncodingHdr_eq hsome
  obtain rfl : ts ++ [c] = a := by
    refine (List.append_left_inj r).mp ?_
    rw [← ha, List.append_assoc]
    rfl
  have hlast : listed (ts.foldl listed req) c = ts.foldl listed req :=
    listed_of_ne (hc ▸ (by decide)) (hc ▸ (by decide))
  rw [List.foldl_append, List.foldl_cons, List.foldl_nil, hlast] at hreq
  rw [hsome, hreq]

theorem foldl_listed (ts : List HttpToken) (req : HttpRequest) : ts.foldl listed req = { req with
    acceptEncodingGzip := req.acceptEncodingGzip || ts.any (·.id == acceptEncodingGzip.id)
    acceptEncodingDeflate := req.acceptEncodingDeflate || ts.any (·.id == acceptEncodingDeflate.id) } := by
  induction ts generalizing req with
  | nil => simp
  | cons t ts ih =>
    have hgd : (acceptEncodingGzip.id == acceptEncodingDeflate.id) = false := by decide
    have hdg : (acceptEncodingDeflate.id == acceptEncodingGzip.id) = false := by decide
    rw [List.foldl_cons, ih, List.any_cons, List.any_cons, listed]
    split_ifs with hgzip hdeflate
    · simp [hgzip, hgd]
    · simp [hdeflate, hdg]
    · simp [beq_eq_false_iff_ne.mpr hgzip, beq_eq_false_iff_ne.mpr hdeflate]

end Codings

end VUbercool.Http
