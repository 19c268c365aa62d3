import Mathlib.Data.List.DropRight
import VUbercool.Http.HeaderLines

/-!
# The codings that a client accepts

`accept_encoding_hdr_` sets a flag of the request for each coding that it finds.

* `acceptEncodingValue`: the value of an `Accept-Encoding` line. `elements`, `Coding.lists`: its elements,
  and what it is that one lists a coding.
* `Asked`: an element lists the coding. `Mentioned`: the letters of the coding are in a value.
* `accepted_iff_mentioned`: a flag is set exactly if the coding is mentioned.
* **`asked_iff`**: the flag says what is asked for exactly if what is mentioned is asked for.
-/

namespace VUbercool.Http

open Octets Lexer Peg RequestGrammar HeaderLexer

/-! ## What a client asks for -/

/-- The codings that have a flag. -/
inductive Coding where
  | gzip | deflate

/-- The name of a coding. -/
def Coding.name : Coding → Bytes
  | .gzip => ascii "gzip"
  | .deflate => ascii "deflate"

/-- The flag of a coding. -/
def Coding.accepted : Coding → HttpRequest → Bool
  | .gzip, req => req.acceptEncodingGzip
  | .deflate, req => req.acceptEncodingDeflate

/-- The value of a header line, if it is an `Accept-Encoding` line. -/
def acceptEncodingValue (line : Bytes) : Option Bytes :=
  if ascii "accept-encoding:" <+: lowered line then
    some ((line.drop (ascii "accept-encoding:").length).take
      (line.length - (ascii "accept-encoding:").length - 2))
  else none

/-- The elements of a list with commas. -/
def elements (value : Bytes) : List Bytes := value.splitOn 44

/-- What is between the blanks. -/
def trimmed (s : Bytes) : Bytes := (s.dropWhile isBlank).rdropWhile isBlank

/-- The two digits of each q-value. -/
def qvalues : Bytes → Option (List (UInt8 × UInt8))
  | [] => some []
  | 59 :: 113 :: 61 :: d :: 46 :: e :: s =>
    if isDigit d && isDigit e then (qvalues s).map ((d, e) :: ·) else none
  | _ => none

/-- **An element lists the coding**, ignoring case, with no q-value or with one greater than zero. -/
def Coding.lists (coding : Coding) (element : Bytes) : Bool :=
  lowered ((trimmed element).take coding.name.length) == coding.name &&
    match qvalues ((trimmed element).drop coding.name.length) with
    | some [] => true
    | some qs => qs.any (· ≠ (48, 48))
    | none => false

/-- **The client asks for the coding.** -/
def Asked (coding : Coding) (b : Bytes) : Prop :=
  ∃ line ∈ headerLines b, ∃ value ∈ acceptEncodingValue line,
    ∃ element ∈ elements value, coding.lists element = true

/-- The letters of the coding are in the value of an `Accept-Encoding` line. -/
def Mentioned (coding : Coding) (b : Bytes) : Prop :=
  ∃ line ∈ headerLines b, ∃ value ∈ acceptEncodingValue line, coding.name <:+: lowered value

instance (coding : Coding) (b : Bytes) : Decidable (Asked coding b) :=
  inferInstanceAs (Decidable (∃ line ∈ headerLines b, _))

instance (coding : Coding) (b : Bytes) : Decidable (Mentioned coding b) :=
  inferInstanceAs (Decidable (∃ line ∈ headerLines b, _))

/-! ## What is asked for is mentioned -/

theorem infix_of_mem_elements {value element : Bytes} (h : element ∈ elements value) :
    element <:+: value := by
  have hmem : element ∈ (elements value).intersperse [44] := by
    obtain ⟨i, hi⟩ := List.mem_iff_getElem?.mp h
    exact List.mem_of_getElem? (i := 2 * i) (List.getElem?_intersperse_two_mul.trans hi)
  have hinfix := List.infix_of_mem_flatten hmem
  rwa [← List.intercalate, elements, List.intercalate_splitOn] at hinfix

theorem trimmed_isInfix (s : Bytes) : trimmed s <:+: s :=
  (List.rdropWhile_prefix isBlank _).isInfix.trans (List.dropWhile_suffix isBlank).isInfix

theorem Coding.infix_of_lists {coding : Coding} {element : Bytes}
    (h : coding.lists element = true) : coding.name <:+: lowered element := by
  obtain ⟨hname, -⟩ := Bool.and_eq_true_iff.mp h
  rw [← beq_iff_eq.mp hname]
  exact ((List.take_prefix _ _).isInfix.trans (trimmed_isInfix element)).map lower

theorem Asked.mentioned {coding : Coding} {b : Bytes} (h : Asked coding b) : Mentioned coding b := by
  obtain ⟨line, hline, value, hvalue, element, helement, hlists⟩ := h
  exact ⟨line, hline, value, hvalue,
    (Coding.infix_of_lists hlists).trans ((infix_of_mem_elements helement).map lower)⟩

/-! ## What the actions do -/

/-- The token of a coding. -/
def Coding.id : Coding → ℕ
  | .gzip => acceptEncodingGzip.id
  | .deflate => acceptEncodingDeflate.id

/-- What the action of a token of an `Accept-Encoding` line makes of the request. -/
def listed (req : HttpRequest) (t : HttpToken) : HttpRequest :=
  if t.id = acceptEncodingGzip.id then { req with acceptEncodingGzip := true }
  else if t.id = acceptEncodingDeflate.id then { req with acceptEncodingDeflate := true }
  else req

theorem accepted_listed (coding : Coding) (req : HttpRequest) (t : HttpToken) :
    coding.accepted (listed req t) = true ↔ coding.accepted req = true ∨ t.id = coding.id := by
  have hne : acceptEncodingGzip.id ≠ acceptEncodingDeflate.id := by decide
  unfold listed
  cases coding with
  | gzip =>
    simp only [Coding.accepted, Coding.id]
    split
    · next h => exact iff_of_true rfl (.inr h)
    · next h => split <;> simp [h]
  | deflate =>
    simp only [Coding.accepted, Coding.id]
    split
    · next h => simp [h, hne]
    · split
      · next h => exact iff_of_true rfl (.inr h)
      · next h => simp [h]

theorem accepted_foldl (coding : Coding) (ts : List HttpToken) (req : HttpRequest) :
    coding.accepted (ts.foldl listed req) = true ↔
      coding.accepted req = true ∨ ∃ t ∈ ts, t.id = coding.id := by
  induction ts generalizing req with
  | nil => simp
  | cons t ts ih => rw [List.foldl_cons, ih, accepted_listed, List.exists_mem_cons_iff, or_assoc]

theorem exact_tokWith {d : TokenDef} (state : LexerState)
    {action : HttpToken → HttpRequest → HttpRequest}
    (h : ∀ t req, t.id = d.id → action t req = listed req t) : Exact listed (tokWith d state action) :=
  exact_token fun t req ht => h t req (beq_iff_eq.mp (Bool.and_eq_true_iff.mp ht).1)

theorem listed_of_ne {req : HttpRequest} {t : HttpToken} (hgzip : t.id ≠ acceptEncodingGzip.id)
    (hdeflate : t.id ≠ acceptEncodingDeflate.id) : listed req t = req := by
  rw [listed, if_neg hgzip, if_neg hdeflate]

theorem exact_tokenId {id : ℕ} (hgzip : id ≠ acceptEncodingGzip.id)
    (hdeflate : id ≠ acceptEncodingDeflate.id) : Exact listed (tokenId id) := by
  refine exact_token fun t req ht => ?_
  obtain rfl := beq_iff_eq.mp ht
  exact (listed_of_ne hgzip hdeflate).symm

theorem exact_tok {d : TokenDef} (state : LexerState) (hgzip : d.id ≠ acceptEncodingGzip.id)
    (hdeflate : d.id ≠ acceptEncodingDeflate.id) : Exact listed (tok d state) :=
  exact_tokWith state fun _ _ ht => (listed_of_ne (ht ▸ hgzip) (ht ▸ hdeflate)).symm

theorem pure_tokenId (id : ℕ) : Keeps (fun req => req) (tokenId id) := keeps_token fun _ _ => rfl

theorem pure_tok (d : TokenDef) (state : LexerState) : Keeps (fun req => req) (tok d state) :=
  keeps_token fun _ _ => rfl

theorem exact_ws : Exact listed (star ws) := (exact_tokenId (by decide) (by decide)).star

theorem exact_hvCrlf : Exact listed hvCrlf :=
  .seq_left (pure_tokenId 32).star exact_ws (exact_tokenId (by decide) (by decide))

theorem exact_acceptEncodingValue : Exact listed RequestGrammar.acceptEncodingValue :=
  (exact_tokWith _ fun _ _ ht => by rw [listed, if_pos ht]).alt <|
  (exact_tokWith _ fun _ _ ht => by
    rw [listed, if_neg (ht ▸ (by decide)), if_pos ht]).alt (exact_tok _ (by decide) (by decide))

theorem exact_coding : Exact listed RequestGrammar.coding := by
  have hafter : Exact listed (seq (star (tok acceptEncodingQvalue .acceptEncoding)) (star (tokenId 44))) :=
    .seq_left (pure_tok _ _).star (exact_tok _ (by decide) (by decide)).star
      (exact_tokenId (by decide) (by decide)).star
  refine .seq_left (pure_tokenId 32).star exact_ws (exact_acceptEncodingValue.seq_right hafter ?_)
  intro ts req
  obtain ⟨r, req₁, h⟩ := exists_star (single_tokWith acceptEncodingQvalue .acceptEncoding _).consumes ts req
  obtain ⟨r', req₂, h'⟩ := exists_star (single_tokenId 44).consumes r req₁
  exact ⟨r', req₂, (seq_some h).trans h'⟩

/-- **The actions of an `Accept-Encoding` header** are those of its tokens. -/
theorem acceptEncodingHdr_eq {t : HttpToken} {ts r : List HttpToken} {req req' : HttpRequest}
    (h : acceptEncodingHdr (t :: ts) req = (some r, req')) :
    t.id = hAcceptEncoding.id ∧ ∃ a, ts = a ++ r ∧ req' = a.foldl listed req := by
  obtain ⟨m, req₁, h₁, h₂⟩ := exists_of_seq h
  obtain ⟨t', hts, hid, -, rfl⟩ := tokWith_eq_some h₁
  obtain ⟨rfl, rfl⟩ := List.cons_eq_cons.mp hts
  refine ⟨hid, ?_⟩
  obtain ⟨m', req₂, h₃, h₄⟩ := exists_of_seq h₂
  obtain ⟨a, rfl, rfl⟩ := exact_coding.star.of_some h₃
  obtain ⟨a', rfl, rfl⟩ := exact_hvCrlf.of_some h₄
  exact ⟨a ++ a', (List.append_assoc ..).symm, (List.foldl_append ..).symm⟩

theorem keeps_hvCrlf (coding : Coding) : Keeps coding.accepted hvCrlf :=
  (keeps_token fun _ _ => rfl).star.seq (keeps_token fun _ _ => rfl)

theorem keeps_hostHdr (coding : Coding) : Keeps coding.accepted hostHdr :=
  (keeps_token fun _ _ => rfl).seq <| (keeps_token fun _ _ => rfl).seq <|
  (keeps_token fun _ _ => rfl).star.seq <|
  (keeps_token fun _ _ => by cases coding <;> rfl).seq (keeps_hvCrlf coding)

theorem keeps_dntHdr (coding : Coding) : Keeps coding.accepted dntHdr :=
  (keeps_token fun _ _ => rfl).seq <| (keeps_token fun _ _ => rfl).star.seq <|
  ((keeps_token fun _ _ => by cases coding <;> rfl).alt (keeps_token fun _ _ => rfl)).seq
    (keeps_hvCrlf coding)

theorem keeps_anyHdr (coding : Coding) : Keeps coding.accepted anyHdr :=
  (keeps_token fun _ _ => rfl).seq <| (keeps_token fun _ _ => rfl).seq <|
  ((keeps_token fun _ _ => rfl).star.seq (keeps_token fun _ _ => rfl)).plus.seq (keeps_hvCrlf coding)

theorem keeps_request (coding : Coding) : Keeps coding.accepted RequestGrammar.request := by
  have hset : ∀ (d : TokenDef) (m : Method), Keeps coding.accepted
      (tokWith d .initial fun _ req => { req with method := m }) :=
    fun _ _ => keeps_token fun _ _ => by cases coding <;> rfl
  have hversion : ∀ (d : TokenDef) (v : Version), Keeps coding.accepted
      (tokWith d .httpVersion fun _ req => { req with version := v }) :=
    fun _ _ => keeps_token fun _ _ => by cases coding <;> rfl
  have hmethod : Keeps coding.accepted method :=
    (hset mGet _).alt <| (hset mOptions _).alt <| (hset mHead _).alt <| (hset mPost _).alt <|
    (hset mPut _).alt <| (hset mDelete _).alt <| (hset mTrace _).alt <| (hset mConnect _).alt <|
    keeps_token fun _ _ => rfl
  exact hmethod.seq <| (keeps_token fun _ _ => rfl).seq <|
    (keeps_token fun _ _ => by cases coding <;> rfl).seq <| (keeps_token fun _ _ => rfl).seq <|
    ((hversion http10 _).alt (hversion http11 _)).seq (keeps_token fun _ _ => rfl)

theorem accepted_header {t : HttpToken} {a r : List HttpToken} {req req' : HttpRequest}
    (coding : Coding) (h : header (t :: (a ++ r)) req = (some r, req')) :
    coding.accepted req' = true ↔ coding.accepted req = true ∨
      (t.id = hAcceptEncoding.id ∧ ∃ u ∈ a, u.id = coding.id) := by
  by_cases ht : t.id = hAcceptEncoding.id
  · have hhost : hostHdr (t :: (a ++ r)) req = (none, req) := seq_tok_of_ne (ht ▸ (by decide)) ..
    have hdnt : dntHdr (t :: (a ++ r)) req = (none, req) := seq_tok_of_ne (ht ▸ (by decide)) ..
    rw [header, alt_none hhost, alt_none hdnt] at h
    obtain h | ⟨req₁, -, h⟩ := exists_of_alt h
    · obtain ⟨-, a', ha, rfl⟩ := acceptEncodingHdr_eq h
      obtain rfl := List.append_cancel_right ha
      simp only [accepted_foldl, ht, true_and]
    · obtain ⟨t', ts', hts, hid, -⟩ := name_of_seq h
      obtain ⟨rfl, -⟩ := List.cons_eq_cons.mp hts
      rw [ht] at hid
      exact absurd hid (by decide)
  · have hsame : coding.accepted req' = coding.accepted req := by
      obtain h | ⟨req₁, h₁, h⟩ := exists_of_alt h
      · exact (keeps_hostHdr coding).of_eq h
      rw [← (keeps_hostHdr coding).of_eq h₁]
      obtain h | ⟨req₂, h₂, h⟩ := exists_of_alt h
      · exact (keeps_dntHdr coding).of_eq h
      rw [← (keeps_dntHdr coding).of_eq h₂]
      have haccept : acceptEncodingHdr (t :: (a ++ r)) req₂ = (none, req₂) := seq_tok_of_ne ht ..
      rw [alt_none haccept] at h
      exact (keeps_anyHdr coding).of_eq h
    simp only [hsame, ht, false_and, or_false]

/-- A token of the coding is in an `Accept-Encoding` line. -/
def Coding.InLine (coding : Coding) (line : List HttpToken) : Prop :=
  ∃ t a, line = t :: a ∧ t.id = hAcceptEncoding.id ∧ ∃ u ∈ a, u.id = coding.id

theorem Coding.inLine_cons {coding : Coding} {t : HttpToken} {a : List HttpToken} :
    coding.InLine (t :: a) ↔ t.id = hAcceptEncoding.id ∧ ∃ u ∈ a, u.id = coding.id := by
  constructor
  · rintro ⟨t', a', heq, h⟩
    cases heq
    exact h
  · exact fun h => ⟨t, a, rfl, h⟩

theorem accepted_takes (coding : Coding) {lines : List (List HttpToken)} {ts r : List HttpToken}
    {req req' : HttpRequest} (h : Takes header lines ts req r req') :
    coding.accepted req' = true ↔ coding.accepted req = true ∨ ∃ line ∈ lines, coding.InLine line := by
  induction h with
  | nil => simp
  | @cons a ts r lines req req₁ req' hrun _ ih =>
    rw [ih]
    cases a with
    | nil => exact absurd (length_lt lineOf_header.consumes hrun) (Nat.lt_irrefl _)
    | cons t a => rw [accepted_header coding hrun, List.exists_mem_cons_iff, Coding.inLine_cons, or_assoc]

/-! ## What the lexer reads -/

/-- **What is read in the value of an `Accept-Encoding` line**: a coding, or a token without letters of one
but at its beginning. -/
theorem next_acceptEncoding {q : LexerState} {s s' : Bytes} {u : HttpToken}
    (h : next table .acceptEncoding s = some (u, q, s')) :
    (∃ coding : Coding, u.id = coding.id ∧ lowered u.text = coding.name) ∨
      ((∀ coding : Coding, u.id ≠ coding.id) ∧ ((∃ c, u.text = [c]) ∨ u.text = [13, 10] ∨
        ∃ d e, isDigit d = true ∧ isDigit e = true ∧ u.text = [59, 113, 61, d, 46, e])) := by
  obtain ⟨d, hd, hid, -, -, rfl, -, hpat, -⟩ := next_eq_some sound_table h
  have hother : ∀ {id : ℕ}, id ≠ acceptEncodingGzip.id → id ≠ acceptEncodingDeflate.id →
      u.id = id → ∀ coding : Coding, u.id ≠ coding.id := by
    rintro id hgzip hdeflate rfl coding
    cases coding
    · exact hgzip
    · exact hdeflate
  have hsingle : ∀ {p : UInt8 → Bool}, classes [p] (u.text ++ s') = some u.text.length →
      ∃ c, u.text = [c] := fun hclasses =>
    List.length_eq_one_iff.mp (matchesClasses_of_classes hclasses).2
  simp only [table, goto, List.mem_cons, List.not_mem_nil, or_false] at hd
  obtain rfl | rfl | rfl | rfl | rfl | rfl | rfl := hd
  · exact .inr ⟨hother (by decide) (by decide) hid, .inl (hsingle hpat)⟩
  · exact .inr ⟨hother (by decide) (by decide) hid, .inl ⟨44, eq_of_literal hpat⟩⟩
  · exact .inl ⟨.gzip, hid, lowered_of_caseless hpat⟩
  · exact .inl ⟨.deflate, hid, lowered_of_caseless hpat⟩
  · exact .inr ⟨hother (by decide) (by decide) hid, .inr (.inl (eq_of_literal hpat))⟩
  · refine .inr ⟨hother (by decide) (by decide) hid, .inr (.inr ?_)⟩
    obtain ⟨hmatch, hlength⟩ := matchesClasses_of_classes hpat
    rcases htext : u.text with _ | ⟨a, _ | ⟨b, _ | ⟨c, _ | ⟨d, _ | ⟨e, _ | ⟨f, _ | ⟨g, l⟩⟩⟩⟩⟩⟩⟩ <;>
      rw [htext] at hlength hmatch <;> try cases hlength
    simp only [matchesClasses, Bool.and_eq_true, beq_iff_eq] at hmatch
    obtain ⟨rfl, rfl, rfl, hd, rfl, hf, -⟩ := hmatch
    exact ⟨d, f, hd, hf, rfl⟩
  · exact .inr ⟨hother (by decide) (by decide) hid, .inl (hsingle hpat)⟩

/-- The first letter of a coding. -/
def Coding.letter : Coding → UInt8
  | .gzip => 103
  | .deflate => 100

theorem Coding.exists_name (coding : Coding) : ∃ p, coding.name = coding.letter :: p := by
  cases coding
  · exact ⟨[122, 105, 112], by decide⟩
  · exact ⟨[101, 102, 108, 97, 116, 101], by decide⟩

theorem Coding.id_injective {coding coding' : Coding} (h : coding.id = coding'.id) :
    coding = coding' := by
  cases coding <;> cases coding' <;> first | rfl | exact absurd h (by decide)

theorem Coding.eq_of_prefix {coding coding' : Coding} {s : Bytes} (h : coding.name <+: s)
    (h' : coding'.name <+: s) : coding = coding' := by
  have hletter : coding.letter = coding'.letter := by
    obtain ⟨p, hp⟩ := coding.exists_name
    obtain ⟨p', hp'⟩ := coding'.exists_name
    rw [hp] at h
    rw [hp'] at h'
    obtain ⟨r, rfl⟩ := h
    exact (List.cons_prefix_cons.mp h').1.symm
  cases coding <;> cases coding' <;> first | rfl | exact absurd hletter (by decide)

theorem letter_notMem {coding : Coding} {q : LexerState} {s s' : Bytes} {u : HttpToken}
    (h : next table .acceptEncoding s = some (u, q, s')) : coding.letter ∉ (lowered u.text).tail := by
  obtain ⟨coding', -, hname⟩ | ⟨-, ⟨c, hc⟩ | hcrlf | ⟨d, e, hd, he, hq⟩⟩ := next_acceptEncoding h
  · rw [hname]
    cases coding <;> cases coding' <;> decide
  · rw [hc]
    exact List.not_mem_nil
  · rw [hcrlf]
    cases coding <;> decide
  · have hdigit : ∀ c, isDigit c = true → coding.letter ≠ lower c := by
      intro c hc heq
      rw [lower_of_caseless (caseless_of_isDigit hc)] at heq
      rw [← heq] at hc
      cases coding <;> exact absurd hc (by decide)
    rw [hq]
    simp only [lowered, List.map_cons, List.map_nil, List.tail_cons, List.mem_cons, List.not_mem_nil,
      or_false, not_or]
    cases coding
    · exact ⟨by decide, by decide, hdigit d hd, by decide, hdigit e he⟩
    · exact ⟨by decide, by decide, hdigit d hd, by decide, hdigit e he⟩

theorem id_eq_of_prefix {coding : Coding} {q : LexerState} {s s' : Bytes} {u : HttpToken}
    (h : next table .acceptEncoding s = some (u, q, s')) (hname : coding.name <+: lowered s) :
    u.id = coding.id := by
  obtain ⟨-, -, -, -, -, hs, -, -, hmax⟩ := next_eq_some sound_table h
  have hle : coding.name.length ≤ u.text.length := by
    have hmatch := caseless_eq_some.mpr ⟨hname, rfl⟩
    cases coding
    · exact hmax acceptEncodingGzip (by simp [table]) _ hmatch
    · exact hmax acceptEncodingDeflate (by simp [table]) _ hmatch
  have hshort : 4 ≤ coding.name.length := by cases coding <;> decide
  obtain ⟨coding', hid, hname'⟩ | ⟨-, ⟨c, hc⟩ | hcrlf | ⟨d, e, -, -, hq⟩⟩ := next_acceptEncoding h
  · have hpre : coding'.name <+: lowered s := by
      rw [← hname', hs, lowered, lowered, List.map_append]
      exact List.prefix_append ..
    rw [hid, Coding.eq_of_prefix hname hpre]
  · rw [hc, List.length_singleton] at hle
    omega
  · rw [hcrlf] at hle
    exact absurd (Nat.le_trans hshort hle) (by decide)
  · obtain ⟨p, hp⟩ := coding.exists_name
    rw [hs, hq, hp] at hname
    have hletter : coding.letter = 59 := (List.cons_prefix_cons.mp hname).1
    cases coding <;> exact absurd hletter (by decide)

theorem reads_acceptEncoding {ts : List HttpToken} (hts : ∀ u ∈ ts, u.id ≠ tokCrlf) {q : LexerState}
    {s s' : Bytes} (h : Reads table .acceptEncoding s ts q s') : q = .acceptEncoding := by
  induction ts generalizing s with
  | nil => exact (reads_nil.mp h).1
  | cons t ts ih =>
    rw [List.forall_mem_cons] at hts
    obtain ⟨q', s'', hnext, h⟩ := reads_cons.mp h
    have hq' : q' = .acceptEncoding := by
      obtain ⟨d, hd, hid, -, rfl, -⟩ := next_eq_some sound_table hnext
      have hne : d.id ≠ tokCrlf := hid ▸ hts.1
      simp only [table, goto, List.mem_cons, List.not_mem_nil, or_false] at hd
      obtain rfl | rfl | rfl | rfl | rfl | rfl | rfl := hd
      all_goals first | rfl | exact absurd rfl hne
    subst hq'
    exact ih hts.2 h

theorem exists_next {us vs : List HttpToken} {u : HttpToken} {q : LexerState} {s s' : Bytes}
    (hts : ∀ t ∈ us ++ u :: vs, t.id ≠ tokCrlf)
    (h : Reads table .acceptEncoding s (us ++ u :: vs) q s') :
    ∃ q' r, next table .acceptEncoding (text (u :: vs) ++ s') = some (u, q', r) := by
  obtain ⟨q', s'', hus, hvs⟩ := reads_append.mp h
  obtain rfl := reads_acceptEncoding (fun t ht => hts t (List.mem_append_left _ ht)) hus
  rw [← hvs.text sound_table]
  obtain ⟨q'', r, hnext, -⟩ := reads_cons.mp hvs
  exact ⟨q'', r, hnext⟩

/-- **A coding is mentioned exactly if one of the tokens is its**: maximal munch finds it wherever its
letters are. -/
theorem exists_token_iff {ts : List HttpToken} (coding : Coding) (hts : ∀ t ∈ ts, t.id ≠ tokCrlf)
    {q : LexerState} {s s' : Bytes} (h : Reads table .acceptEncoding s ts q s') :
    (∃ u ∈ ts, u.id = coding.id) ↔ coding.name <:+: lowered (text ts) := by
  constructor
  · rintro ⟨u, hu, hid⟩
    obtain ⟨us, vs, rfl⟩ := List.append_of_mem hu
    obtain ⟨q', r, hnext⟩ := exists_next hts h
    obtain ⟨coding', hid', hname⟩ | ⟨hne, -⟩ := next_acceptEncoding hnext
    · rw [Coding.id_injective (hid.symm.trans hid'), ← hname, text_append, text_cons]
      exact (List.infix_append' _ _ _).map lower
    · exact absurd hid (hne coding)
  · intro hname
    obtain ⟨p, hp⟩ := coding.exists_name
    have hletter : ∀ t ∈ ts, coding.letter ∉ (lowered t.text).tail := by
      intro t ht
      obtain ⟨us, vs, rfl⟩ := List.append_of_mem ht
      obtain ⟨q', r, hnext⟩ := exists_next hts h
      exact letter_notMem hnext
    obtain ⟨us, u, vs, rfl, hpre⟩ := exists_token_of_letters hletter (hp ▸ hname)
    obtain ⟨q', r, hnext⟩ := exists_next hts h
    refine ⟨u, List.mem_append_right _ List.mem_cons_self, id_eq_of_prefix hnext ?_⟩
    rw [hp, lowered, List.map_append]
    exact hpre.trans (List.prefix_append ..)

theorem next_name {q : LexerState} {s s' : Bytes} {t : HttpToken}
    (h : next table .headerName s = some (t, q, s')) :
    (t.id = hAcceptEncoding.id ∧ q = .acceptEncoding ∧ lowered t.text = ascii "accept-encoding:") ∨
      (t.id ≠ hAcceptEncoding.id ∧ ¬ ascii "accept-encoding:" <+: lowered s) := by
  obtain ⟨d, hd, hid, -, rfl, rfl, -, hpat, hmax⟩ := next_eq_some sound_table h
  have hshort : t.id ≠ hAcceptEncoding.id → t.text.length < (ascii "accept-encoding:").length →
      t.id ≠ hAcceptEncoding.id ∧ ¬ ascii "accept-encoding:" <+: lowered (t.text ++ s') := by
    refine fun hne hlt => ⟨hne, fun hpre => ?_⟩
    have hle := hmax (goto hAcceptEncoding .acceptEncoding) (by simp [table]) _
      (caseless_eq_some.mpr ⟨hpre, rfl⟩)
    omega
  have hliteral : ∀ {p : Bytes}, literal p (t.text ++ s') = some t.text.length →
      t.text.length = p.length := fun hp => congrArg List.length (eq_of_literal hp)
  have hcaseless : ∀ {p : Bytes}, caseless p (t.text ++ s') = some t.text.length →
      t.text.length = p.length := fun hp => (caseless_eq_some.mp hp).2.symm
  simp only [table, goto, List.mem_cons, List.not_mem_nil, or_false] at hd
  obtain rfl | rfl | rfl | rfl | rfl | rfl := hd
  · exact .inr (hshort (hid ▸ (by decide)) (by rw [hliteral hpat]; decide))
  · exact .inr (hshort (hid ▸ (by decide)) (by rw [hcaseless hpat]; decide))
  · exact .inr (hshort (hid ▸ (by decide)) (by rw [hcaseless hpat]; decide))
  · exact .inl ⟨hid, rfl, Lexer.lowered_of_caseless hpat⟩
  · have hne : t.id ≠ hAcceptEncoding.id := hid ▸ (by decide)
    refine .inr ⟨hne, fun hpre => ?_⟩
    -- the colon is in no name
    have hcolon : 58 ∈ (t.text ++ s').take (ascii "accept-encoding:").length := by
      rw [← mem_lowered (by decide), lowered, List.map_take]
      exact (List.prefix_iff_eq_take.mp hpre) ▸ (by decide)
    exact (hshort hne (lt_of_many1 hpat hcolon rfl)).2 hpre
  · exact .inr (hshort (hid ▸ (by decide)) (by rw [hliteral hpat]; decide))

theorem acceptEncodingValue_text {t c : HttpToken} (ts : List HttpToken) (hc : c.text = [13, 10])
    (hname : lowered t.text = ascii "accept-encoding:") :
    acceptEncodingValue (text (t :: (ts ++ [c]))) = some (text ts) := by
  have hlength : (ascii "accept-encoding:").length = t.text.length := by
    rw [← hname, lowered, List.length_map]
  have htext : text (t :: (ts ++ [c])) = t.text ++ (text ts ++ [13, 10]) := by
    simp [hc]
  have hpre : ascii "accept-encoding:" <+: lowered (t.text ++ (text ts ++ [13, 10])) := by
    rw [← hname, lowered, lowered, List.map_append]
    exact List.prefix_append ..
  have hsub : (t.text ++ (text ts ++ [13, 10])).length - t.text.length - 2 = (text ts).length := by
    simp
  rw [htext, acceptEncodingValue, if_pos hpre, hlength, hsub, List.drop_left, List.take_left]

theorem inLine_iff {line : List HttpToken} (h : IsLine line) (coding : Coding) :
    coding.InLine line ↔
      ∃ value ∈ acceptEncodingValue (text line), coding.name <:+: lowered value := by
  obtain ⟨t, body, c, s, s', rfl, hbody, hc, hctext, hreads⟩ := h
  obtain ⟨q, r, hnext, hrest⟩ := reads_cons.mp hreads
  rw [Coding.inLine_cons]
  obtain ⟨hid, rfl, hname⟩ | ⟨hid, hname⟩ := next_name hnext
  · obtain ⟨q', r', hvalue, -⟩ := reads_append.mp hrest
    have hlast : c.id ≠ coding.id := by
      rw [hc]
      cases coding <;> decide
    have hmem : (∃ u ∈ body ++ [c], u.id = coding.id) ↔ ∃ u ∈ body, u.id = coding.id := by
      simp [or_and_right, exists_or, hlast]
    rw [acceptEncodingValue_text body hctext hname, hmem, exists_token_iff coding hbody hvalue]
    simp [hid]
  · have hnone : acceptEncodingValue (text (t :: (body ++ [c]))) = none := by
      refine if_neg fun hpre => hname ?_
      rw [hreads.text sound_table, lowered, List.map_append]
      exact hpre.trans (List.prefix_append ..)
    rw [hnone]
    simp [hid]

/-! ## The flags -/

section Flags

variable {stop : Bytes → ℕ} {b : Bytes} {own req : HttpRequest}

/-- **A flag is set exactly if the coding is mentioned.** -/
theorem accepted_iff_mentioned (coding : Coding)
    (h : parseHttpRequest (requestGrammar stop) b = some req) :
    coding.accepted req = true ↔ Mentioned coding b := by
  obtain ⟨req', ⟨parsed⟩, rfl⟩ := exists_parsed h
  have hlength : coding.accepted { req' with requestLength := stop b } = coding.accepted req' := by
    cases coding <;> rfl
  have hstarted : coding.accepted parsed.started = false := by
    rw [(keeps_request coding).of_eq parsed.request]
    cases coding <;> rfl
  have hmentioned : Mentioned coding b ↔ ∃ line ∈ parsed.lines,
      ∃ value ∈ acceptEncodingValue (text line), coding.name <:+: lowered value := by
    unfold Mentioned
    simp only [parsed.headerLines, List.mem_map, exists_exists_and_eq_and]
  rw [hlength, accepted_takes coding parsed.takes, hstarted, hmentioned]
  simp only [Bool.false_eq_true, false_or]
  exact exists_congr fun line => and_congr_right fun hline =>
    inLine_iff (parsed.isLine line hline) coding

/-- **The flag of a coding says what the client asks for** exactly if what it mentions is asked for. -/
theorem asked_iff (h : (parse (requestGrammar stop) b own req).1 = true) (coding : Coding) :
    (coding.accepted (parse (requestGrammar stop) b own req).2.2 = true ↔ Asked coding b) ↔
      (Mentioned coding b → Asked coding b) := by
  rw [parse_eq] at h ⊢
  obtain ⟨req', hreq⟩ := Option.isSome_iff_exists.mp h
  simp only [hreq, Option.getD_some]
  rw [accepted_iff_mentioned coding hreq]
  exact ⟨Iff.mp, fun hasked => ⟨hasked, Asked.mentioned⟩⟩

/-- The client asks for `deflate` alone, and that is what it is given. -/
theorem asked_iff_deflate :
    Coding.accepted .deflate (parse (requestGrammar List.length)
        (ascii "GET / HTTP/1.1\r\nAccept-Encoding: br, Deflate;q=0.5\r\n\r\n") {} {}).2.2 = true ↔
      Asked .deflate (ascii "GET / HTTP/1.1\r\nAccept-Encoding: br, Deflate;q=0.5\r\n\r\n") :=
  (asked_iff (by decide +kernel) .deflate).mpr fun _ => by decide +kernel

/-- **A coding that the client refuses** is given to it. -/
theorem not_asked_iff : ∃ b : Bytes, (parse (requestGrammar List.length) b {} {}).1 = true ∧
    ¬ (Coding.accepted .gzip (parse (requestGrammar List.length) b {} {}).2.2 = true ↔
      Asked .gzip b) :=
  ⟨ascii "GET / HTTP/1.1\r\nAccept-Encoding: gzip;q=0.0\r\n\r\n", by decide +kernel⟩

end Flags

end VUbercool.Http
