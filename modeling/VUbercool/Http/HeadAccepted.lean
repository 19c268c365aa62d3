import VUbercool.Http.CodingTokens

/-!
# Heads are accepted

* `host_taken`, `dnt_taken`, `acceptEncoding_taken`, `other_taken`: a header line is read and taken.
* `next_method`, `requestLine_taken`: so is the request line. `ending_read`: what follows the URI.
* **`head_accepted`**: a head is accepted, whatever follows it, as the request that it says.
-/

namespace VUbercool.Http

open Octets Lexer Peg
open HeaderLexer RequestGrammar

/-! ## Header lines -/

section HeaderLine

variable {a h : UInt8} {p q x s : Bytes}

theorem literal_eq_none (hx : lowered x = h :: p) (ha : lower a ≠ h) :
    literal (a :: q) (x ++ s) = none := by
  refine if_neg fun hpre => ha ?_
  cases x with
  | nil => cases hx
  | cons c x =>
    obtain ⟨rfl, -⟩ := List.cons_prefix_cons.mp hpre
    exact (List.cons.inj hx).1

theorem caseless_eq_none (hx : lowered x = h :: p) (ha : a ≠ h) :
    caseless (a :: q) (x ++ s) = none := by
  refine if_neg fun hpre => ha ?_
  rw [lowered, List.map_append, ← lowered, hx] at hpre
  exact (List.cons_prefix_cons.mp hpre).1

theorem caseless_of_lowered (hx : lowered x = p) : caseless p (x ++ s) = some x.length := by
  rw [caseless_eq_some, ← hx, lowered, lowered, List.map_append]
  exact ⟨List.prefix_append .., List.length_map _⟩

theorem le_of_hAny {m : ℕ} (hx : 58 ∈ x) (hm : hAny.pattern (x ++ s) = some m) : m ≤ x.length := by
  refine Nat.le_of_lt (lt_of_many1 hm (c := 58) ?_ rfl)
  rw [List.take_left]
  exact hx

theorem next_host (name : Spelling (ascii "host")) (s : Bytes) :
    next table .headerName (name.octets ++ 58 :: s) =
      some (⟨hHost.id, .headerName, name.octets⟩, .headerName, 58 :: s) := by
  have hlower : lowered name.octets = 104 :: [111, 115, 116] := name.lowered_eq
  have hcolon : 58 ∉ name.octets := by
    rw [← mem_lowered (by decide), hlower]
    decide
  have hne : name.octets ≠ [] := by
    intro hnil
    rw [hnil] at hlower
    cases hlower
  have hhost : hHost.pattern (name.octets ++ 58 :: s) = some name.octets.length :=
    caseless_of_lowered name.lowered_eq
  have hcrlf : HeaderLexer.crlf.pattern (name.octets ++ 58 :: s) = none :=
    literal_eq_none hlower (by decide)
  have hdnt : hDnt.pattern (name.octets ++ 58 :: s) = none := caseless_eq_none hlower (by decide)
  have haccept : hAcceptEncoding.pattern (name.octets ++ 58 :: s) = none :=
    caseless_eq_none hlower (by decide)
  have hcolumn : column.pattern (name.octets ++ 58 :: s) = none := literal_eq_none hlower (by decide)
  refine next_of_find (d := hHost) ?_ (by simp [table, hcrlf, hhost])
  simp only [table, goto, List.forall_mem_cons, hcrlf, hhost, hdnt, haccept, hcolumn]
  exact ⟨by simp, by simp, by simp, by simp,
    fun m => Within.le (within_many1 rfl) (sound_many1 _) hne hcolon, by simp, List.forall_mem_nil _⟩

theorem next_dnt (name : Spelling (ascii "dnt:")) (s : Bytes) :
    next table .headerName (name.octets ++ s) =
      some (⟨hDnt.id, .headerName, name.octets⟩, .headerDnt, s) := by
  have hlower : lowered name.octets = 100 :: [110, 116, 58] := name.lowered_eq
  have hcolon : 58 ∈ name.octets := (mem_lowered (by decide) _).mp (hlower ▸ (by decide))
  have hdnt : hDnt.pattern (name.octets ++ s) = some name.octets.length :=
    caseless_of_lowered name.lowered_eq
  have hcrlf : HeaderLexer.crlf.pattern (name.octets ++ s) = none := literal_eq_none hlower (by decide)
  have hhost : hHost.pattern (name.octets ++ s) = none := caseless_eq_none hlower (by decide)
  have haccept : hAcceptEncoding.pattern (name.octets ++ s) = none :=
    caseless_eq_none hlower (by decide)
  have hcolumn : column.pattern (name.octets ++ s) = none := literal_eq_none hlower (by decide)
  refine next_of_find (d := goto hDnt .headerDnt) ?_ (by simp [table, goto, hcrlf, hhost, hdnt])
  simp only [table, goto, List.forall_mem_cons, hcrlf, hhost, hdnt, haccept, hcolumn]
  exact ⟨by simp, by simp, by simp, by simp, fun m => le_of_hAny hcolon, by simp, List.forall_mem_nil _⟩

theorem next_acceptEncodingName (name : Spelling (ascii "accept-encoding:")) (s : Bytes) :
    next table .headerName (name.octets ++ s) =
      some (⟨hAcceptEncoding.id, .headerName, name.octets⟩, .acceptEncoding, s) := by
  have hlower : lowered name.octets = 97 :: ascii "ccept-encoding:" := name.lowered_eq
  have hcolon : 58 ∈ name.octets := (mem_lowered (by decide) _).mp (hlower ▸ (by decide))
  have haccept : hAcceptEncoding.pattern (name.octets ++ s) = some name.octets.length :=
    caseless_of_lowered name.lowered_eq
  have hcrlf : HeaderLexer.crlf.pattern (name.octets ++ s) = none := literal_eq_none hlower (by decide)
  have hhost : hHost.pattern (name.octets ++ s) = none := caseless_eq_none hlower (by decide)
  have hdnt : hDnt.pattern (name.octets ++ s) = none := caseless_eq_none hlower (by decide)
  have hcolumn : column.pattern (name.octets ++ s) = none := literal_eq_none hlower (by decide)
  refine next_of_find (d := goto hAcceptEncoding .acceptEncoding) ?_
    (by simp [table, goto, hcrlf, hhost, hdnt, haccept])
  simp only [table, goto, List.forall_mem_cons, hcrlf, hhost, hdnt, haccept, hcolumn]
  exact ⟨by simp, by simp, by simp, by simp, fun m => le_of_hAny hcolon, by simp, List.forall_mem_nil _⟩

theorem reads_blanks (b : Blanks) (s : Bytes) : ∃ ts,
    Reads table .headerDnt (b.octets ++ s) ts .headerDnt s ∧ ∀ t ∈ ts, t.id = 32 := by
  obtain ⟨v, hv⟩ := b
  induction v with
  | nil => exact ⟨[], .nil, List.forall_mem_nil _⟩
  | cons c v ih =>
    obtain ⟨hc, hv⟩ := List.forall_mem_cons.mp hv
    obtain ⟨ts, hreads, hts⟩ := ih hv
    have hne : ∀ {a : UInt8} {p : Bytes}, isBlank a = false → Avoids c (literal (a :: p)) := by
      refine fun ha => avoids_literal (beq_eq_false_iff_ne.mpr ?_)
      rintro rfl
      rw [hc] at ha
      cases ha
    have hspace : dntSpace.pattern (c :: (v ++ s)) = some 1 := by
      simp [dntSpace, classes, matchesClasses, hc]
    have hnext : next table .headerDnt (c :: (v ++ s)) =
        some (⟨32, .headerDnt, [c]⟩, .headerDnt, v ++ s) :=
      next_of_avoids [] [dntOn, dntOff, goto dntCrlf .headerName] (d := dntSpace) (x := []) rfl
        (List.forall_mem_nil _) (List.forall_mem_cons.mpr ⟨hne (by decide), List.forall_mem_cons.mpr
          ⟨hne (by decide), List.forall_mem_singleton.mpr (hne (by decide))⟩⟩) hspace
    exact ⟨_, .cons hnext hreads, List.forall_mem_cons.mpr ⟨rfl, hts⟩⟩

/-- The token of the value of a `DNT` header. -/
def dntToken (on : Bool) : HttpToken :=
  if on then ⟨dntOn.id, .headerDnt, [49]⟩ else ⟨dntOff.id, .headerDnt, [48]⟩

theorem next_dntValue (on : Bool) (s : Bytes) :
    next table .headerDnt ((if on then 49 else 48) :: s) = some (dntToken on, .headerDnt, s) := by
  cases on with
  | true =>
    exact next_of_avoids [dntSpace] [dntOff, goto dntCrlf .headerName] (d := dntOn) (x := []) rfl
      (List.forall_mem_singleton.mpr (avoids_classes rfl)) (List.forall_mem_cons.mpr
        ⟨avoids_literal (by decide), List.forall_mem_singleton.mpr (avoids_literal (by decide))⟩) rfl
  | false =>
    exact next_of_avoids [dntSpace, dntOn] [goto dntCrlf .headerName] (d := dntOff) (x := []) rfl
      (List.forall_mem_cons.mpr ⟨avoids_classes rfl,
        List.forall_mem_singleton.mpr (avoids_literal (by decide))⟩)
      (List.forall_mem_singleton.mpr (avoids_literal (by decide))) rfl

theorem dntValue_of_token (on : Bool) (r : List HttpToken) (req : HttpRequest) :
    dntValue (dntToken on :: r) req = (some r, { req with doNotTrack := req.doNotTrack || on }) := by
  cases on with
  | true => simp [dntValue, alt, tokWith, token_cons, dntToken]
  | false =>
    have hne : (dntOff.id == dntOn.id) = false := by decide
    simp [dntValue, alt, tokWith, tok, token_cons, dntToken, hne]

variable {t : HttpToken}

theorem hostHdr_of_ne (ht : t.id ≠ hHost.id) (r : List HttpToken) (req : HttpRequest) :
    hostHdr (t :: r) req = (none, req) := seq_tok_of_ne ht ..

theorem dntHdr_of_ne (ht : t.id ≠ hDnt.id) (r : List HttpToken) (req : HttpRequest) :
    dntHdr (t :: r) req = (none, req) := seq_tok_of_ne ht ..

/-- **The line is read and taken**, and makes of the request what it says. -/
def Taken (l : HeaderLine) : Prop :=
  ∀ post : Bytes, post.head? ≠ some 32 → ∃ ts,
    Reads table .headerName (l.octets ++ post) ts .headerName post ∧
      ∀ r req, header (ts ++ r) req = (some r, l.apply req)

theorem exists_not_visible {v : Bytes} (hv : ∀ c ∈ v, isVisible c = false) (s : Bytes) :
    ∃ d s', isVisible d = false ∧ v ++ 13 :: s = d :: s' := by
  cases v with
  | nil => exact ⟨13, s, rfl, rfl⟩
  | cons d v => exact ⟨d, v ++ 13 :: s, hv d List.mem_cons_self, rfl⟩

theorem host_taken (name : Spelling (ascii "host")) (before : Gap) (value : Word) (after : Gap) :
    Taken (.host name before value after) := by
  intro post hpost
  have hcrlf : next table .headerContent (13 :: 10 :: post) = _ :=
    next_crlf (d := goto hdrCrlf .headerName) (by simp [table]) rfl fun _ => hpost
  obtain ⟨us, hbefore, hus⟩ := reads_gap before.content before.blank
    (value.octets ++ (after.octets ++ 13 :: 10 :: post))
  obtain ⟨vs, hafter, hvs⟩ := reads_gap after.content after.blank (13 :: 10 :: post)
  obtain ⟨d, s', hd, hs'⟩ := exists_not_visible after.blank (10 :: post)
  have hvalue := next_value value hd s'
  rw [← hs'] at hvalue
  have htext : (HeaderLine.host name before value after).octets ++ post = name.octets ++
      58 :: (before.octets ++ (value.octets ++ (after.octets ++ 13 :: 10 :: post))) := by
    simp [HeaderLine.octets]
  refine ⟨⟨hHost.id, .headerName, name.octets⟩ :: ⟨58, .headerName, [58]⟩ :: (us ++
    ⟨tokString, .headerContent, value.octets⟩ :: (vs ++ [⟨tokCrlf, .headerContent, [13, 10]⟩])), ?_,
    fun r req => ?_⟩
  · rw [htext]
    exact .cons (next_host name _) (.cons (next_column _) (reads_append.mpr ⟨_, _, hbefore,
      .cons hvalue (reads_append.mpr ⟨_, _, hafter, .cons hcrlf .nil⟩)⟩))
  · simp only [List.cons_append, List.append_assoc, List.nil_append]
    refine alt_some ?_
    refine (seq_some (tok_self hHost ..)).trans ?_
    refine (seq_some (tokenId_of_eq ⟨58, .headerName, [58]⟩)).trans ?_
    have hstr : tokString ≠ 32 := by decide
    have hvalue : ∀ r, tokWith HeaderLexer.str .headerContent (fun t req => { req with host := t.text })
        (⟨tokString, .headerContent, value.octets⟩ :: r) req =
          (some r, { req with host := value.octets }) := fun _ => rfl
    have hend : hvCrlf (vs ++ ⟨tokCrlf, .headerContent, [13, 10]⟩ :: r)
        { req with host := value.octets } = (some r, { req with host := value.octets }) :=
      hvCrlf_of_blanks hvs rfl
    exact (seq_some (star_ws hus hstr)).trans ((seq_some (hvalue _)).trans hend)

theorem dnt_taken (name : Spelling (ascii "dnt:")) (before : Blanks) (on : Bool) (after : Blanks) :
    Taken (.dnt name before on after) := by
  intro post _
  obtain ⟨us, hbefore, hus⟩ := reads_blanks before
    ((if on then 49 else 48) :: (after.octets ++ 13 :: 10 :: post))
  obtain ⟨vs, hafter, hvs⟩ := reads_blanks after (13 :: 10 :: post)
  have hcrlf : next table .headerDnt (13 :: 10 :: post) = _ :=
    next_crlf (d := goto dntCrlf .headerName) (by simp [table]) rfl (by rintro ⟨⟩)
  have htext : (HeaderLine.dnt name before on after).octets ++ post = name.octets ++
      (before.octets ++ ((if on then 49 else 48) :: (after.octets ++ 13 :: 10 :: post))) := by
    simp [HeaderLine.octets]
  refine ⟨⟨hDnt.id, .headerName, name.octets⟩ :: (us ++ dntToken on :: (vs ++
    [⟨tokCrlf, .headerDnt, [13, 10]⟩])), ?_, fun r req => ?_⟩
  · rw [htext]
    exact .cons (next_dnt name _) (reads_append.mpr ⟨_, _, hbefore, .cons (next_dntValue on _)
      (reads_append.mpr ⟨_, _, hafter, .cons hcrlf .nil⟩)⟩)
  · have hne : (dntToken on).id ≠ 32 := by cases on <;> decide
    simp only [List.cons_append, List.append_assoc, List.nil_append]
    have hhost : hDnt.id ≠ hHost.id := by decide
    rw [header, alt_none (hostHdr_of_ne hhost ..)]
    refine alt_some ?_
    refine (seq_some (tok_self hDnt ..)).trans ((seq_some (star_ws hus hne)).trans ?_)
    exact (seq_some (dntValue_of_token ..)).trans (hvCrlf_of_blanks hvs rfl)

theorem CodingTokens.id_ne {p : Place} {ts : List HttpToken} (h : CodingTokens p ts) :
    ∀ t ∈ ts, t.id ≠ tokCrlf := by
  induction h with
  | nil => exact List.forall_mem_nil _
  | blank hid _ ih => exact List.forall_mem_cons.mpr ⟨hid ▸ (by decide), ih⟩
  | coding hid _ _ ih =>
    refine List.forall_mem_cons.mpr ⟨?_, ih⟩
    intro heq
    rw [heq] at hid
    exact absurd hid (by decide)
  | qvalue hid _ _ ih => exact List.forall_mem_cons.mpr ⟨hid ▸ (by decide), ih⟩
  | comma _ hid _ ih => exact List.forall_mem_cons.mpr ⟨hid ▸ (by decide), ih⟩

theorem acceptEncoding_taken (name : Spelling (ascii "accept-encoding:")) (value : Codings) :
    Taken (.acceptEncoding name value) := by
  intro post _
  obtain ⟨ts, hvalue, hts⟩ := reads_codings value.codings (10 :: post)
  have hcrlf : next table .acceptEncoding (13 :: 10 :: post) = _ :=
    next_crlf (d := goto acceptEncodingCrlf .headerName) (by simp [table]) rfl (by rintro ⟨⟩)
  have htext : (HeaderLine.acceptEncoding name value).octets ++ post =
      name.octets ++ (value.octets ++ 13 :: 10 :: post) := by
    simp [HeaderLine.octets]
  -- maximal munch finds the codings that the value mentions
  have hmentioned : ∀ coding : Coding,
      ts.any (·.id == coding.id) = decide (coding.name <:+: lowered value.octets) := by
    intro coding
    have hvalueText := List.append_cancel_right (hvalue.text sound_table)
    rw [Bool.eq_iff_iff, decide_eq_true_iff, hvalueText, ← exists_token_iff coding hts.id_ne hvalue]
    simp
  refine ⟨⟨hAcceptEncoding.id, .headerName, name.octets⟩ :: (ts ++
    [⟨tokCrlf, .acceptEncoding, [13, 10]⟩]), ?_, fun r req => ?_⟩
  · rw [htext]
    exact .cons (next_acceptEncodingName name _) (reads_append.mpr ⟨_, _, hvalue, .cons hcrlf .nil⟩)
  · simp only [List.cons_append, List.append_assoc, List.nil_append]
    have hhost : hAcceptEncoding.id ≠ hHost.id := by decide
    have hdnt : hAcceptEncoding.id ≠ hDnt.id := by decide
    rw [header, alt_none (hostHdr_of_ne hhost ..), alt_none (dntHdr_of_ne hdnt ..)]
    refine alt_some ((acceptEncodingHdr_of_tokens rfl rfl hts rfl r req).trans ?_)
    rw [foldl_listed]
    exact congrArg (Prod.mk (some r)) (congrArg₂ (fun gzip deflate => { req with
      acceptEncodingGzip := req.acceptEncodingGzip || gzip
      acceptEncodingDeflate := req.acceptEncodingDeflate || deflate })
      (hmentioned .gzip) (hmentioned .deflate))

theorem other_taken (name : FieldName) (value : Value) : Taken (.other name value) := by
  intro post hpost
  obtain ⟨ts, hvalue, hts, hiff⟩ := reads_content value.content (10 :: post)
  have hcrlf : next table .headerContent (13 :: 10 :: post) = _ :=
    next_crlf (d := goto hdrCrlf .headerName) (by simp [table]) rfl fun _ => hpost
  have htext : (HeaderLine.other name value).octets ++ post =
      name.octets ++ 58 :: (value.octets ++ 13 :: 10 :: post) := by
    simp [HeaderLine.octets]
  refine ⟨lineTokens name.octets ts, ?_, fun r req => ?_⟩
  · rw [htext]
    exact .cons (next_otherName name.other _) (.cons (next_column _)
      (reads_append.mpr ⟨_, _, hvalue, .cons hcrlf .nil⟩))
  · exact (header_lineTokens _).trans (value_of_word hts (hiff.mpr value.word) rfl)

theorem headerLine_taken (l : HeaderLine) : Taken l := by
  cases l with
  | host name before value after => exact host_taken name before value after
  | dnt name before on after => exact dnt_taken name before on after
  | acceptEncoding name value => exact acceptEncoding_taken name value
  | other name value => exact other_taken name value

theorem HeaderLine.head?_ne (l : HeaderLine) {c : UInt8} (hc : c = 13 ∨ c = 32) (s : Bytes) :
    (l.octets ++ s).head? ≠ some c := by
  have hspelling : ∀ {h : UInt8} {p x : Bytes} (s : Bytes), lowered x = h :: p → lower c ≠ h →
      (x ++ s).head? ≠ some c := by
    rintro h p x s hx hne hhead
    cases x with
    | nil => cases hx
    | cons a x =>
      cases hhead
      exact hne (List.cons.inj hx).1
  have hne : ∀ {h : UInt8}, lower 13 ≠ h → lower 32 ≠ h → lower c ≠ h := by
    intro h h13 h32
    obtain rfl | rfl := hc
    · exact h13
    · exact h32
  cases l with
  | host name before value after =>
    rw [octets, List.append_assoc]
    exact hspelling (h := 104) _ name.lowered_eq (hne (by decide) (by decide))
  | dnt name before on after =>
    rw [octets, List.append_assoc]
    exact hspelling (h := 100) _ name.lowered_eq (hne (by decide) (by decide))
  | acceptEncoding name value =>
    rw [octets, List.append_assoc]
    exact hspelling (h := 97) _ name.lowered_eq (hne (by decide) (by decide))
  | other name value =>
    obtain ⟨a, x, hname⟩ := List.exists_cons_of_ne_nil name.other.ne_nil
    have hchar : isNameChar a = true := name.other.chars a (hname ▸ List.mem_cons_self)
    rw [octets, hname]
    rintro ⟨⟩
    obtain rfl | rfl := hc <;> exact absurd hchar (by decide)

theorem headerLines_taken (ls : List HeaderLine) {post : Bytes} (hpost : post.head? ≠ some 32) :
    ∃ lines, Reads table .headerName (ls.flatMap HeaderLine.octets ++ post) lines.flatten .headerName
        post ∧
      ∀ r req, Takes header lines (lines.flatten ++ r) req r (ls.foldl HeaderLine.apply req) := by
  induction ls with
  | nil => exact ⟨[], .nil, fun r req => .nil⟩
  | cons l ls ih =>
    obtain ⟨lines, hreads, htakes⟩ := ih
    have hrest : (ls.flatMap HeaderLine.octets ++ post).head? ≠ some 32 := by
      cases ls with
      | nil => exact hpost
      | cons l' ls =>
        rw [List.flatMap_cons, List.append_assoc]
        exact l'.head?_ne (.inr rfl) _
    obtain ⟨ts, hline, hheader⟩ := headerLine_taken l _ hrest
    refine ⟨ts :: lines, ?_, fun r req => ?_⟩
    · rw [List.flatMap_cons, List.append_assoc, List.flatten_cons]
      exact reads_append.mpr ⟨_, _, hline, hreads⟩
    · rw [List.flatten_cons, List.append_assoc]
      exact .cons (hheader _ req) (htakes r _)

end HeaderLine

/-! ## The request line -/

section RequestLine

variable {w p s : Bytes}

theorem le_of_word {q q' : LexerState} (hq : WordState q q') (w : Word) (s : Bytes) :
    ∀ d ∈ table q, ∀ m, d.pattern (w.octets ++ 32 :: s) = some m → m ≤ w.octets.length := by
  have hspace : 32 ∉ w.octets := fun hmem => absurd (w.visible 32 hmem) (by decide)
  exact fun d hd m => (within_start hq d hd).le (sound_table q d hd) w.ne_nil hspace

theorem caseless_beq (hp : 32 ∉ p) :
    (caseless p (w ++ 32 :: s) == some w.length) = decide (lowered w = p) := by
  have hlength : (lowered w).length = w.length := List.length_map lower
  rw [Bool.eq_iff_iff, beq_iff_eq, decide_eq_true_iff, caseless_eq_some, lowered_append_cons (by decide),
    prefix_append_cons hp, ← hlength]
  exact ⟨fun h => (h.1.eq_of_length h.2).symm, fun h => h ▸ ⟨List.prefix_rfl, rfl⟩⟩

/-- **The method is read as the first definition that is as long as the word.** -/
theorem next_method (w : Word) (s : Bytes) : ∃ d : TokenDef, next table .initial (w.octets ++ 32 :: s) =
    some (⟨d.id, .initial, w.octets⟩, .initial, 32 :: s) ∧
      ∀ r, method (⟨d.id, .initial, w.octets⟩ :: r) {} = (some r, { method := methodOf w.octets }) := by
  have hany : mAny.pattern (w.octets ++ 32 :: s) = some w.octets.length :=
    many1_append_cons w.visible w.ne_nil rfl s
  have hword : ∀ d : TokenDef, ∀ p, 32 ∉ p → d.pattern = caseless p →
      (d.pattern (w.octets ++ 32 :: s) == some w.octets.length) = decide (lowered w.octets = p) := by
    intro d p hp hd
    rw [hd]
    exact caseless_beq hp
  have hnext : ∀ {d : TokenDef}, (table .initial).find?
      (fun e => e.pattern (w.octets ++ 32 :: s) == some w.octets.length) = some d → d.target = none →
      next table .initial (w.octets ++ 32 :: s) =
        some (⟨d.id, .initial, w.octets⟩, .initial, 32 :: s) := by
    intro d hd htarget
    rw [next_of_find (le_of_word .method w s) hd, htarget]
    rfl
  simp only [table, goto, List.find?_cons, hword mGet _ (by decide) rfl,
    hword mOptions _ (by decide) rfl, hword mHead _ (by decide) rfl, hword mPost _ (by decide) rfl,
    hword mPut _ (by decide) rfl, hword mDelete _ (by decide) rfl, hword mTrace _ (by decide) rfl,
    hword mConnect _ (by decide) rfl, hany, beq_self_eq_true] at hnext
  unfold methodOf
  by_cases hGet : lowered w.octets = ascii "get"
  · rw [if_pos hGet]
    exact ⟨mGet, hnext (by rw [decide_eq_true hGet]) rfl, fun r => rfl⟩
  rw [if_neg hGet]
  simp only [decide_eq_false hGet] at hnext
  by_cases hOptions : lowered w.octets = ascii "options"
  · rw [if_pos hOptions]
    exact ⟨mOptions, hnext (by rw [decide_eq_true hOptions]) rfl, fun r => rfl⟩
  rw [if_neg hOptions]
  simp only [decide_eq_false hOptions] at hnext
  by_cases hHead : lowered w.octets = ascii "head"
  · rw [if_pos hHead]
    exact ⟨mHead, hnext (by rw [decide_eq_true hHead]) rfl, fun r => rfl⟩
  rw [if_neg hHead]
  simp only [decide_eq_false hHead] at hnext
  by_cases hPost : lowered w.octets = ascii "post"
  · rw [if_pos hPost]
    exact ⟨mPost, hnext (by rw [decide_eq_true hPost]) rfl, fun r => rfl⟩
  rw [if_neg hPost]
  simp only [decide_eq_false hPost] at hnext
  by_cases hPut : lowered w.octets = ascii "put"
  · rw [if_pos hPut]
    exact ⟨mPut, hnext (by rw [decide_eq_true hPut]) rfl, fun r => rfl⟩
  rw [if_neg hPut]
  simp only [decide_eq_false hPut] at hnext
  by_cases hDelete : lowered w.octets = ascii "delete"
  · rw [if_pos hDelete]
    exact ⟨mDelete, hnext (by rw [decide_eq_true hDelete]) rfl, fun r => rfl⟩
  rw [if_neg hDelete]
  simp only [decide_eq_false hDelete] at hnext
  by_cases hTrace : lowered w.octets = ascii "trace"
  · rw [if_pos hTrace]
    exact ⟨mTrace, hnext (by rw [decide_eq_true hTrace]) rfl, fun r => rfl⟩
  rw [if_neg hTrace]
  simp only [decide_eq_false hTrace] at hnext
  by_cases hConnect : lowered w.octets = ascii "connect"
  · rw [if_pos hConnect]
    exact ⟨mConnect, hnext (by rw [decide_eq_true hConnect]) rfl, fun r => rfl⟩
  rw [if_neg hConnect]
  simp only [decide_eq_false hConnect] at hnext
  exact ⟨mAny, hnext rfl rfl, fun r => rfl⟩

theorem next_uri (w : Word) (s : Bytes) : next table .uri (w.octets ++ 32 :: s) =
    some (⟨uri.id, .uri, w.octets⟩, .uri, 32 :: s) := by
  have huri : uri.pattern (w.octets ++ 32 :: s) = some w.octets.length :=
    many1_append_cons w.visible w.ne_nil rfl s
  exact next_of_find (d := uri) (le_of_word .uri w s) (by simp [table, huri])

/-- The token of a version. -/
def HttpVersion.token : HttpVersion → HttpToken
  | http10 name => ⟨HeaderLexer.http10.id, .httpVersion, name.octets⟩
  | http11 name => ⟨HeaderLexer.http11.id, .httpVersion, name.octets⟩

theorem next_httpVersion (v : HttpVersion) (s : Bytes) :
    next table .httpVersion (v.octets ++ s) = some (v.token, .httpVersion, s) := by
  have hother : ∀ {x p q : Bytes}, lowered x = p → q ≠ p → q.length = p.length →
      caseless q (x ++ s) = none := by
    rintro x p q rfl hne hlength
    refine if_neg fun hpre => hne ?_
    rw [lowered, List.map_append, ← lowered] at hpre
    exact (List.prefix_of_prefix_length_le hpre (List.prefix_append ..) hlength.le).eq_of_length hlength
  cases v with
  | http10 name =>
    have hlower : lowered name.octets = 104 :: ascii "ttp/1.0" := name.lowered_eq
    refine next_of_only [] [http11, goto httpCrlf .headerName] (d := http10) rfl
      (List.forall_mem_nil _) ?_ (caseless_of_lowered name.lowered_eq)
    exact List.forall_mem_cons.mpr ⟨hother name.lowered_eq (by decide) (by decide),
      List.forall_mem_singleton.mpr (literal_eq_none hlower (by decide))⟩
  | http11 name =>
    have hlower : lowered name.octets = 104 :: ascii "ttp/1.1" := name.lowered_eq
    refine next_of_only [http10] [goto httpCrlf .headerName] (d := http11) rfl
      (List.forall_mem_singleton.mpr (hother name.lowered_eq (by decide) (by decide))) ?_
      (caseless_of_lowered name.lowered_eq)
    exact List.forall_mem_singleton.mpr (literal_eq_none hlower (by decide))

/-- The request line up to the version is read and taken. -/
theorem requestLine_taken (method uri : Word) (s : Bytes) : ∃ ts,
    Reads table .initial (method.octets ++ 32 :: (uri.octets ++ 32 :: s)) ts .httpVersion s ∧
      ∀ v c r version, c.id = tokCrlf →
        (∀ r req, httpVersion (v :: r) req = (some r, { req with version := version })) →
        RequestGrammar.request (ts ++ v :: c :: r) {} = (some r,
          { method := methodOf method.octets, uri := uri.octets, version := version }) := by
  obtain ⟨d, hmethod, htaken⟩ := next_method method (uri.octets ++ 32 :: s)
  refine ⟨[⟨d.id, .initial, method.octets⟩, ⟨32, .initial, [32]⟩,
    ⟨HeaderLexer.uri.id, .uri, uri.octets⟩, ⟨32, .uri, [32]⟩], ?_, fun v c r version hc hv => ?_⟩
  · exact .cons hmethod (.cons (next_gap .method _) (.cons (next_uri ..) (.cons (next_gap .uri _) .nil)))
  · have hspace : ∀ (q : LexerState) (r : List HttpToken) (req : HttpRequest),
        ws (⟨32, q, [32]⟩ :: r) req = (some r, req) := fun _ _ _ => rfl
    have hend : ∀ req, RequestGrammar.crlf (c :: r) req = (some r, req) := by
      intro req
      rw [RequestGrammar.crlf, ← hc]
      exact tokenId_of_eq c
    refine (seq_some (htaken _)).trans ((seq_some (hspace ..)).trans ?_)
    refine Eq.trans (seq_some (r := ⟨32, .uri, [32]⟩ :: v :: c :: r) rfl) ?_
    exact (seq_some (hspace ..)).trans ((seq_some (hv ..)).trans (hend _))

theorem httpVersion_of_token (v : HttpVersion) (r : List HttpToken) (req : HttpRequest) :
    httpVersion (v.token :: r) req = (some r, { req with version := v.version }) := by
  cases v <;> rfl

end RequestLine

/-! ## Heads -/

section Head

variable (stop : Bytes → ℕ) (h : RequestHead) (rest : Bytes)

theorem next_lineBreak {q : LexerState} (hq : q = .httpVersion ∨ q = .headerName) (s : Bytes) :
    next table q (13 :: 10 :: s) = some (⟨tokCrlf, q, [13, 10]⟩, .headerName, s) := by
  obtain rfl | rfl := hq
  · exact next_crlf (d := goto httpCrlf .headerName) (by simp [table]) rfl (by rintro ⟨⟩)
  · exact next_crlf (d := HeaderLexer.crlf) (by simp [table]) rfl (by rintro ⟨⟩)

/-- **The tokens after the URI**: what stands for the version and for the line break after it, the header
lines, and what stands for the last line break. -/
theorem ending_read (e : Ending) : ∃ v c lines last q,
    Reads table .httpVersion (e.octets ++ rest) (v :: c :: (lines.flatten ++ [last])) q rest ∧
      c.id = tokCrlf ∧ last.id = tokCrlf ∧
      (∀ r req, httpVersion (v :: r) req = (some r, { req with version := e.version })) ∧
      ∀ r req, Takes header lines (lines.flatten ++ r) req r (e.headers.foldl HeaderLine.apply req) := by
  have hlast : ∀ rest : Bytes, (13 :: 10 :: rest).head? ≠ some 32 := by simp
  cases e with
  | lines version headers =>
    obtain ⟨lines, hreads, htakes⟩ := headerLines_taken headers (hlast rest)
    refine ⟨version.token, ⟨tokCrlf, .httpVersion, [13, 10]⟩, lines, ⟨tokCrlf, .headerName, [13, 10]⟩,
      .headerName, ?_, rfl, rfl, httpVersion_of_token version, htakes⟩
    simp only [Ending.octets, List.cons_append, List.append_assoc, List.nil_append]
    exact .cons (next_httpVersion ..) (.cons (next_lineBreak (.inl rfl) _)
      (reads_append.mpr ⟨_, _, hreads, .cons (next_lineBreak (.inr rfl) _) .nil⟩))
  | noVersion headers =>
    obtain ⟨lines, hreads, htakes⟩ := headerLines_taken headers (hlast rest)
    refine ⟨⟨tokCrlf, .httpVersion, [13, 10]⟩, ⟨tokCrlf, .headerName, [13, 10]⟩, lines,
      ⟨tokCrlf, .headerName, [13, 10]⟩, .headerName, ?_, rfl, rfl, fun r req => rfl, htakes⟩
    simp only [Ending.octets, List.cons_append, List.append_assoc, List.nil_append]
    exact .cons (next_lineBreak (.inl rfl) _) (.cons (next_lineBreak (.inr rfl) _)
      (reads_append.mpr ⟨_, _, hreads, .cons (next_lineBreak (.inr rfl) _) .nil⟩))
  | lineBreak version name =>
    refine ⟨version.token, (HttpVersion.http10 name).token, [], ⟨tokCrlf, .httpVersion, [13, 10]⟩,
      .headerName, ?_, rfl, rfl, httpVersion_of_token version, fun r req => .nil⟩
    simp only [Ending.octets, List.append_assoc]
    exact .cons (next_httpVersion ..) (.cons (next_httpVersion (.http10 name) _)
      (.cons (next_lineBreak (.inl rfl) _) .nil))
  | versions version name name' =>
    refine ⟨version.token, (HttpVersion.http10 name).token, [], (HttpVersion.http10 name').token,
      .httpVersion, ?_, rfl, rfl, httpVersion_of_token version, fun r req => .nil⟩
    simp only [Ending.octets, List.append_assoc]
    exact .cons (next_httpVersion ..) (.cons (next_httpVersion (.http10 name) _)
      (.cons (next_httpVersion (.http10 name') _) .nil))

/-- **A head is read and taken, whatever follows it**: the request line, the header lines and a
`TOK_CRLF`. -/
theorem head_read : ∃ ts q, Reads table .initial (h.octets ++ rest) ts q rest ∧
    ∀ r, RequestGrammar.start (ts ++ r) {} = (some r, h.request) := by
  obtain ⟨ts, hstart, hrequest⟩ := requestLine_taken h.method h.uri (h.ending.octets ++ rest)
  obtain ⟨v, c, lines, last, q, hending, hc, hlast, hversion, htakes⟩ := ending_read rest h.ending
  have htext : h.octets ++ rest =
      h.method.octets ++ 32 :: (h.uri.octets ++ 32 :: (h.ending.octets ++ rest)) := by
    simp [RequestHead.octets]
  refine ⟨ts ++ v :: c :: (lines.flatten ++ [last]), q, ?_, fun r => ?_⟩
  · rw [htext]
    exact reads_append.mpr ⟨_, _, hstart, hending⟩
  · have hsplit : ts ++ v :: c :: (lines.flatten ++ [last]) ++ r =
        ts ++ v :: c :: (lines.flatten ++ last :: r) := by simp
    have hstar := takes_star lineOf_header.consumes (htakes (last :: r) h.started)
      (header_of_break hlast r _)
    have hcrlf : RequestGrammar.crlf (last :: r) h.request = (some r, h.request) := by
      rw [RequestGrammar.crlf, ← hlast]
      exact tokenId_of_eq last
    rw [hsplit]
    exact (seq_some (hrequest v c _ h.ending.version hc hversion)).trans ((seq_some hstar).trans hcrlf)

/-- **A head is accepted, whatever follows it**, as the request that it says. -/
theorem head_accepted : parseHttpRequest (requestGrammar stop) (h.octets ++ rest) =
    some { h.request with requestLength := stop (h.octets ++ rest) } := by
  obtain ⟨ts, q, hreads, hstart⟩ := head_read h rest
  rw [parseHttpRequest, requestGrammar, tokens, hreads.lex sound_table, hstart]
  rfl

end Head

end VUbercool.Http
