import VUbercool.Http.HttpRequestParser

/-!
# The lines of a request head

The lexer reads a head up to a line break whatever follows, and the grammar takes the headers line by
line.

* `next_break`: what is read at a line break. **`reads_of_break`**: what ends in one is read whatever
  follows it.
* `lineOf_header`: a header takes a line; `header_of_break`: there is none at a line break.
* **`Parsed`**, `exists_parsed`, `accepted_of_takes`: the parts of a head that is accepted.
* `IsLine`, `reads_of_takes`: the lexer stays within the headers, and reads each from its name on.
-/

namespace VUbercool.Http

open Octets Lexer Peg
open HeaderLexer (table)

/-! ## What the lexer reads -/

namespace HeaderLexer

theorem sound_table : table.Sound := by
  intro state
  cases state <;> simp only [table, goto, List.forall_mem_cons]
  · exact ⟨sound_caseless (by decide), sound_caseless (by decide), sound_caseless (by decide),
      sound_caseless (by decide), sound_caseless (by decide), sound_caseless (by decide),
      sound_caseless (by decide), sound_caseless (by decide), sound_many1 _,
      sound_literal (by decide), List.forall_mem_nil _⟩
  · exact ⟨sound_many1 _, sound_literal (by decide), List.forall_mem_nil _⟩
  · exact ⟨sound_caseless (by decide), sound_caseless (by decide), sound_literal (by decide),
      List.forall_mem_nil _⟩
  · exact ⟨sound_literal (by decide), sound_caseless (by decide), sound_caseless (by decide),
      sound_caseless (by decide), sound_many1 _, sound_literal (by decide),
      List.forall_mem_nil _⟩
  · exact ⟨sound_literal (by decide), sound_classes (List.cons_ne_nil _ _), sound_many1 _,
      sound_literal (by decide), List.forall_mem_nil _⟩
  · exact ⟨sound_classes (List.cons_ne_nil _ _), sound_literal (by decide), sound_literal (by decide),
      sound_literal (by decide), List.forall_mem_nil _⟩
  · exact ⟨sound_classes (List.cons_ne_nil _ _), sound_literal (by decide), sound_caseless (by decide),
      sound_caseless (by decide), sound_literal (by decide), sound_classes (List.cons_ne_nil _ _),
      sound_classes (List.cons_ne_nil _ _), List.forall_mem_nil _⟩

/-- **No match goes past a line break** that it does not begin with. -/
theorem within_table (state : LexerState) : ∀ d ∈ table state, Within 13 d.pattern := by
  cases state <;> simp only [table, goto, List.forall_mem_cons]
  · exact ⟨within_caseless (by decide) (by decide), within_caseless (by decide) (by decide),
      within_caseless (by decide) (by decide), within_caseless (by decide) (by decide),
      within_caseless (by decide) (by decide), within_caseless (by decide) (by decide),
      within_caseless (by decide) (by decide), within_caseless (by decide) (by decide),
      within_many1 rfl, within_literal (by decide), List.forall_mem_nil _⟩
  · exact ⟨within_many1 rfl, within_literal (by decide), List.forall_mem_nil _⟩
  · exact ⟨within_caseless (by decide) (by decide), within_caseless (by decide) (by decide),
      within_literal_cons _ _, List.forall_mem_nil _⟩
  · exact ⟨within_literal_cons _ _, within_caseless (by decide) (by decide),
      within_caseless (by decide) (by decide), within_caseless (by decide) (by decide),
      within_many1 rfl, within_literal (by decide), List.forall_mem_nil _⟩
  · exact ⟨within_literal_cons _ _, within_classes rfl, within_many1 rfl,
      within_literal_cons _ _, List.forall_mem_nil _⟩
  · exact ⟨within_classes rfl, within_literal (by decide), within_literal (by decide),
      within_literal_cons _ _, List.forall_mem_nil _⟩
  · exact ⟨within_classes rfl, within_literal (by decide),
      within_caseless (by decide) (by decide), within_caseless (by decide) (by decide),
      within_literal_cons _ _, within_classes rfl, within_classes rfl,
      List.forall_mem_nil _⟩

theorem break_table (state : LexerState) : ∀ d ∈ table state,
    Avoids 13 d.pattern ∨
      (d.pattern = literal [13, 10] ∧ d.id = tokCrlf ∧ d.target.getD state = .headerName) ∨
      (state = .headerContent ∧ d = lws) := by
  cases state <;> simp only [table, goto, List.forall_mem_cons]
  · exact ⟨.inl (avoids_caseless (by decide)), .inl (avoids_caseless (by decide)),
      .inl (avoids_caseless (by decide)), .inl (avoids_caseless (by decide)),
      .inl (avoids_caseless (by decide)), .inl (avoids_caseless (by decide)),
      .inl (avoids_caseless (by decide)), .inl (avoids_caseless (by decide)), .inl (avoids_many1 rfl),
      .inl (avoids_literal (by decide)), List.forall_mem_nil _⟩
  · exact ⟨.inl (avoids_many1 rfl), .inl (avoids_literal (by decide)),
      List.forall_mem_nil _⟩
  · exact ⟨.inl (avoids_caseless (by decide)), .inl (avoids_caseless (by decide)),
      .inr (.inl ⟨rfl, rfl, rfl⟩), List.forall_mem_nil _⟩
  · exact ⟨.inr (.inl ⟨rfl, rfl, rfl⟩), .inl (avoids_caseless (by decide)),
      .inl (avoids_caseless (by decide)), .inl (avoids_caseless (by decide)), .inl (avoids_many1 rfl),
      .inl (avoids_literal (by decide)), List.forall_mem_nil _⟩
  · exact ⟨.inr (.inr ⟨trivial, trivial⟩), .inl (avoids_classes rfl), .inl (avoids_many1 rfl),
      .inr (.inl ⟨rfl, rfl, rfl⟩), List.forall_mem_nil _⟩
  · exact ⟨.inl (avoids_classes rfl), .inl (avoids_literal (by decide)),
      .inl (avoids_literal (by decide)), .inr (.inl ⟨rfl, rfl, rfl⟩),
      List.forall_mem_nil _⟩
  · exact ⟨.inl (avoids_classes rfl), .inl (avoids_literal (by decide)),
      .inl (avoids_caseless (by decide)), .inl (avoids_caseless (by decide)),
      .inr (.inl ⟨rfl, rfl, rfl⟩), .inl (avoids_classes rfl), .inl (avoids_classes rfl),
      List.forall_mem_nil _⟩

/-- **What is read at a line break**: it, if no blank folds the line, or else the blank with it. -/
theorem next_break {state state' : LexerState} {w s' : Bytes} {t : HttpToken}
    (h : next table state (13 :: w) = some (t, state', s')) :
    (t = ⟨tokCrlf, state, [13, 10]⟩ ∧ state' = .headerName ∧ w = 10 :: s' ∧
        (∃ d ∈ table state, d.pattern = literal [13, 10]) ∧
        (state = .headerContent → s'.head? ≠ some 32)) ∨
      (state = .headerContent ∧ t = ⟨32, state, [13, 10, 32]⟩ ∧ state' = state ∧
        w = 10 :: 32 :: s') := by
  obtain ⟨d, hd, hid, hstate, htarget, hw, -, hpat, hmax⟩ := next_eq_some sound_table h
  obtain hnone | ⟨hcrlf, hidd, hgoto⟩ | ⟨rfl, rfl⟩ := break_table state d hd
  · rw [hnone w] at hpat
    cases hpat
  · rw [hcrlf] at hpat
    obtain ⟨⟨r, hr⟩, hlength⟩ := literal_eq_some.mp hpat
    obtain ⟨htext, rfl⟩ := List.append_inj (hr.trans hw) hlength
    refine .inl ⟨Token.ext (hid.trans hidd) hstate htext.symm, htarget.trans hgoto,
      (List.cons.inj hr).2.symm, ⟨d, hd, hcrlf⟩, fun hcontent hhead => ?_⟩
    -- two octets are matched, so there is no blank after them
    subst hcontent
    obtain ⟨r, rfl⟩ := List.head?_eq_some_iff.mp hhead
    rw [← hr] at hmax
    have hle := hmax lws List.mem_cons_self 3 rfl
    rw [← hlength] at hle
    exact absurd hle (by decide)
  · obtain ⟨⟨r, hr⟩, hlength⟩ := literal_eq_some.mp hpat
    obtain ⟨htext, rfl⟩ := List.append_inj (hr.trans hw) hlength
    exact .inr ⟨rfl, Token.ext hid hstate htext.symm, htarget, (List.cons.inj hr).2.symm⟩

theorem next_crlf {state : LexerState} {d : TokenDef} {s : Bytes} (hd : d ∈ table state)
    (hpat : d.pattern = literal [13, 10]) (hs : state = .headerContent → s.head? ≠ some 32) :
    next table state (13 :: 10 :: s) = some (⟨tokCrlf, state, [13, 10]⟩, .headerName, s) := by
  have hmatch : d.pattern (13 :: 10 :: s) = some 2 := by
    rw [hpat, literal_eq_some]
    exact ⟨List.prefix_append [13, 10] s, rfl⟩
  cases h : next table state (13 :: 10 :: s) with
  | none =>
    have hnone := longest_eq_none.mp (Option.map_eq_none_iff.mp h) d hd
    rw [hmatch] at hnone
    cases hnone
  | some r =>
    obtain ⟨t, state', s'⟩ := r
    obtain ⟨rfl, rfl, hw, -⟩ | ⟨hcontent, -, -, hw⟩ := next_break h
    · cases hw
      rfl
    · exact absurd (congrArg List.head? (List.cons.inj hw).2) (hs hcontent)

theorem next_lws (s : Bytes) : next table .headerContent (13 :: 10 :: 32 :: s) =
    some (⟨32, .headerContent, [13, 10, 32]⟩, .headerContent, s) := by
  have hspace : Avoids 13 space.pattern := avoids_classes rfl
  have hstr : Avoids 13 str.pattern := avoids_many1 rfl
  refine next_of_longest (d := lws) (x := [13, 10, 32]) ?_
  refine longest_of_max [] [space, str, goto hdrCrlf .headerName] rfl
    (List.forall_mem_nil _) ?_
  simp only [List.forall_mem_cons]
  refine ⟨fun m hm => ?_, fun m hm => ?_, fun m hm => ?_, List.forall_mem_nil _⟩
  · cases (hspace _).symm.trans hm
  · cases (hstr _).symm.trans hm
  · cases hm
    exact Nat.le_succ 2

/-- **What ends in a line break is read whatever follows**, if that is no blank. -/
theorem reads_of_break {c : HttpToken} (hc : c.text = [13, 10]) {s s' : Bytes}
    (hs : s'.head? ≠ some 32) : ∀ {ts : List HttpToken} {state state' : LexerState},
      Reads table state (text (ts ++ [c]) ++ s) (ts ++ [c]) state' s →
      Reads table state (text (ts ++ [c]) ++ s') (ts ++ [c]) state' s'
  | [], state, state', h => by
    obtain ⟨_, _, hnext, hnil⟩ := reads_cons.mp h
    obtain ⟨rfl, rfl⟩ := reads_nil.mp hnil
    have htext : ∀ v, text ([] ++ [c]) ++ v = 13 :: 10 :: v := by
      intro v
      simp [hc]
    rw [htext] at hnext ⊢
    obtain ⟨rfl, rfl, -, ⟨d, hd, hpat⟩, -⟩ | ⟨-, rfl, -⟩ := next_break hnext
    · exact .cons (next_crlf hd hpat fun _ => hs) .nil
    · cases hc
  | t :: ts, state, state', h => by
    rw [List.cons_append] at h ⊢
    obtain ⟨q, r, hnext, hts⟩ := reads_cons.mp h
    obtain rfl := hts.text sound_table
    have hmem : (13 : UInt8) ∈ text (t :: (ts ++ [c])) := by
      simp [hc]
    obtain ⟨u, w, huw, hu⟩ := List.eq_append_cons_of_mem hmem
    have htext : ∀ v, text (t :: (ts ++ [c])) ++ v = u ++ 13 :: (w ++ v) := by
      intro v
      rw [huw, List.append_assoc, List.cons_append]
    have hnext' : next table state (text (t :: (ts ++ [c])) ++ s') =
        some (t, q, text (ts ++ [c]) ++ s') := by
      by_cases hnil : u = []
      · -- the token is a line break, or one that a blank follows
        subst hnil
        rw [htext] at hnext ⊢
        obtain ⟨rfl, rfl, hw, ⟨d, hd, hpat⟩, hblank⟩ | ⟨rfl, rfl, rfl, hw⟩ := next_break hnext
        · obtain rfl : w = 10 :: text (ts ++ [c]) := List.append_cancel_right (hw.trans rfl)
          refine next_crlf hd hpat fun hcontent => ?_
          have hne : text (ts ++ [c]) ≠ [] := by simp [hc]
          have hhead : ∀ v, (text (ts ++ [c]) ++ v).head? = (text (ts ++ [c])).head? :=
            fun v => List.head?_append_of_ne_nil _ hne
          exact fun h => hblank hcontent ((hhead s).trans ((hhead s').symm.trans h))
        · obtain rfl : w = 10 :: 32 :: text (ts ++ [c]) := List.append_cancel_right (hw.trans rfl)
          exact next_lws _
      · -- the token lies before the first line break
        rw [htext] at hnext ⊢
        obtain ⟨u', rfl, hr, hall⟩ := next_within sound_table (within_table state) hnil hu hnext
        rw [hall (w ++ s')]
        have hrest : text (ts ++ [c]) = u' ++ 13 :: w := by
          refine (List.append_left_inj s).mp (hr.trans ?_)
          rw [List.append_assoc, List.cons_append]
        rw [hrest, List.append_assoc, List.cons_append]
    exact reads_cons.mpr ⟨q, _, hnext', reads_of_break hc hs hts⟩

/-- **The lexer stays within the headers**, and there only a line break is a `TOK_CRLF`. -/
theorem ofHeader_table {state : LexerState} (hstate : state.ofHeader = true) : ∀ d ∈ table state,
    (d.target.getD state).ofHeader = true ∧
      (d.id = tokCrlf → d.pattern = literal [13, 10] ∧ d.target.getD state = .headerName) := by
  have hid : ∀ {id : ℕ} {P : Prop}, id ≠ tokCrlf → id = tokCrlf → P := fun hne h => absurd h hne
  cases state with
  | initial => cases hstate
  | uri => cases hstate
  | httpVersion => cases hstate
  | headerName =>
    simp only [table, goto, List.forall_mem_cons]
    exact ⟨⟨rfl, fun _ => ⟨rfl, rfl⟩⟩, ⟨rfl, hid (by decide)⟩, ⟨rfl, hid (by decide)⟩,
      ⟨rfl, hid (by decide)⟩, ⟨rfl, hid (by decide)⟩, ⟨rfl, hid (by decide)⟩,
      List.forall_mem_nil _⟩
  | headerContent =>
    simp only [table, goto, List.forall_mem_cons]
    exact ⟨⟨rfl, hid (by decide)⟩, ⟨rfl, hid (by decide)⟩, ⟨rfl, hid (by decide)⟩,
      ⟨rfl, fun _ => ⟨rfl, rfl⟩⟩, List.forall_mem_nil _⟩
  | headerDnt =>
    simp only [table, goto, List.forall_mem_cons]
    exact ⟨⟨rfl, hid (by decide)⟩, ⟨rfl, hid (by decide)⟩, ⟨rfl, hid (by decide)⟩,
      ⟨rfl, fun _ => ⟨rfl, rfl⟩⟩, List.forall_mem_nil _⟩
  | acceptEncoding =>
    simp only [table, goto, List.forall_mem_cons]
    exact ⟨⟨rfl, hid (by decide)⟩, ⟨rfl, hid (by decide)⟩, ⟨rfl, hid (by decide)⟩,
      ⟨rfl, hid (by decide)⟩, ⟨rfl, fun _ => ⟨rfl, rfl⟩⟩, ⟨rfl, hid (by decide)⟩,
      ⟨rfl, hid (by decide)⟩, List.forall_mem_nil _⟩

theorem next_ofHeader {state state' : LexerState} {s s' : Bytes} {t : HttpToken}
    (hstate : state.ofHeader = true) (h : next table state s = some (t, state', s')) :
    state'.ofHeader = true ∧ (t.id = tokCrlf → t.text = [13, 10] ∧ state' = .headerName) := by
  obtain ⟨d, hd, hid, -, rfl, hs, -, hpat, -⟩ := next_eq_some sound_table h
  obtain ⟨hgoto, hcrlf⟩ := ofHeader_table hstate d hd
  refine ⟨hgoto, fun ht => ?_⟩
  obtain ⟨hliteral, hname⟩ := hcrlf (hid ▸ ht)
  rw [hliteral] at hpat
  obtain ⟨⟨r, hr⟩, hlength⟩ := literal_eq_some.mp hpat
  exact ⟨(List.append_inj (hr.trans hs) hlength).1.symm, hname⟩

/-- **A line of a header ends with a line break**, and the next line begins. -/
theorem reads_ofHeader {c : HttpToken} (hc : c.id = tokCrlf) : ∀ {ts : List HttpToken}
    {state state' : LexerState} {s s' : Bytes}, state.ofHeader = true →
      Reads table state s (ts ++ [c]) state' s' → c.text = [13, 10] ∧ state' = .headerName
  | [], state, state', s, s', hstate, h => by
    obtain ⟨_, _, hnext, hnil⟩ := reads_cons.mp h
    obtain ⟨rfl, rfl⟩ := reads_nil.mp hnil
    exact (next_ofHeader hstate hnext).2 hc
  | t :: ts, state, state', s, s', hstate, h => by
    obtain ⟨_, _, hnext, hts⟩ := reads_cons.mp h
    exact reads_ofHeader hc (next_ofHeader hstate hnext).1 hts

end HeaderLexer

/-! ## What the grammar takes -/

namespace RequestGrammar

open HeaderLexer

/-- A token that ends a line. -/
def endsLine (t : HttpToken) : Bool := t.id == tokCrlf

theorem single_tokWith (d : TokenDef) (state : LexerState)
    (action : HttpToken → HttpRequest → HttpRequest) : Single (tokWith d state action) :=
  single_token _ _

theorem single_tokenId (id : ℕ) : Single (tokenId id) := single_token _ _

theorem single_method : Single method :=
  (single_tokWith ..).alt <| (single_tokWith ..).alt <| (single_tokWith ..).alt <|
  (single_tokWith ..).alt <| (single_tokWith ..).alt <| (single_tokWith ..).alt <|
  (single_tokWith ..).alt <| (single_tokWith ..).alt (single_tokWith ..)

theorem single_httpVersion : Single httpVersion := (single_tokWith ..).alt (single_tokWith ..)

theorem inline_tokWith {d : TokenDef} (hid : d.id ≠ tokCrlf) (state : LexerState)
    (action : HttpToken → HttpRequest → HttpRequest) : Inline endsLine (tokWith d state action) := by
  refine inline_token _ fun t ht => ?_
  rw [beq_iff_eq.mp ht, beq_eq_false_iff_ne.mpr hid.symm]
  rfl

theorem inline_tokenId {id : ℕ} (hid : id ≠ tokCrlf) : Inline endsLine (tokenId id) := by
  refine inline_token _ fun t ht => ?_
  rw [beq_iff_eq.mp ht]
  exact beq_eq_false_iff_ne.mpr hid.symm

theorem consumes_ws : Consumes ws := (single_tokenId _).consumes

theorem inline_ws : Inline endsLine (star ws) := (inline_tokenId (by decide)).star consumes_ws

theorem lineOf_hvCrlf : LineOf endsLine hvCrlf :=
  inline_ws.lineOf _ (suffixes_star consumes_ws) fun _ => rfl

theorem lineOf_hostHdr : LineOf endsLine hostHdr :=
  .seq_left (inline_tokWith (by decide) _ _) (single_tokWith ..).consumes.suffixes <|
  .seq_left (inline_tokenId (by decide)) (single_tokenId _).consumes.suffixes <|
  .seq_left inline_ws (suffixes_star consumes_ws) <|
  .seq_left (inline_tokWith (by decide) _ _) (single_tokWith ..).consumes.suffixes lineOf_hvCrlf

theorem lineOf_dntHdr : LineOf endsLine dntHdr :=
  .seq_left (inline_tokWith (by decide) _ _) (single_tokWith ..).consumes.suffixes <|
  .seq_left inline_ws (suffixes_star consumes_ws) <|
  .seq_left ((inline_tokWith (by decide) _ _).alt (inline_tokWith (by decide) _ _))
    ((single_tokWith ..).alt (single_tokWith ..)).consumes.suffixes lineOf_hvCrlf

theorem single_acceptEncodingValue : Single acceptEncodingValue :=
  (single_tokWith ..).alt <| (single_tokWith ..).alt (single_tokWith ..)

theorem inline_acceptEncodingValue : Inline endsLine acceptEncodingValue :=
  (inline_tokWith (by decide) _ _).alt <|
  (inline_tokWith (by decide) _ _).alt (inline_tokWith (by decide) _ _)

theorem consumes_coding : Consumes coding :=
  .seq_right (suffixes_star consumes_ws) <|
  single_acceptEncodingValue.consumes.seq_left <|
  (suffixes_star (single_tokWith ..).consumes).seq (suffixes_star (single_tokenId _).consumes)

theorem inline_coding : Inline endsLine coding :=
  inline_ws.seq <| inline_acceptEncodingValue.seq <|
  ((inline_tokWith (by decide) _ _).star (single_tokWith ..).consumes).seq
    ((inline_tokenId (by decide)).star (single_tokenId _).consumes)

theorem lineOf_acceptEncodingHdr : LineOf endsLine acceptEncodingHdr :=
  .seq_left (inline_tokWith (by decide) _ _) (single_tokWith ..).consumes.suffixes <|
  .seq_left (inline_coding.star consumes_coding) (suffixes_star consumes_coding) lineOf_hvCrlf

theorem consumes_word : Consumes (seq (star ws) str) :=
  .seq_right (suffixes_star consumes_ws) (single_tokenId _).consumes

theorem inline_word : Inline endsLine (seq (star ws) str) := inline_ws.seq (inline_tokenId (by decide))

theorem lineOf_anyHdr : LineOf endsLine anyHdr :=
  .seq_left (inline_tokWith (by decide) _ _) (single_tokWith ..).consumes.suffixes <|
  .seq_left (inline_tokenId (by decide)) (single_tokenId _).consumes.suffixes <|
  .seq_left (inline_word.seq (inline_word.star consumes_word))
    (consumes_word.suffixes.seq (suffixes_star consumes_word)) lineOf_hvCrlf

/-- **A header is a line.** -/
theorem lineOf_header : LineOf endsLine header :=
  lineOf_hostHdr.alt <| lineOf_dntHdr.alt <| lineOf_acceptEncodingHdr.alt lineOf_anyHdr

theorem determined_request : Determined request ∧ Suffixes request :=
  (single_method.seq_determined <| (single_tokenId _).seq_determined <|
    (single_tokWith ..).seq_determined <| (single_tokenId _).seq_determined <|
    single_httpVersion.seq_determined
      ⟨(single_tokenId _).determined, (single_tokenId _).consumes.suffixes⟩)

theorem tokWith_eq_some {d : TokenDef} {state : LexerState}
    {action : HttpToken → HttpRequest → HttpRequest} {ts r : List HttpToken} {req req' : HttpRequest}
    (h : tokWith d state action ts req = (some r, req')) :
    ∃ t, ts = t :: r ∧ t.id = d.id ∧ t.state = state ∧ req' = action t req := by
  obtain ⟨t, hts, ht, hreq⟩ := token_some h
  obtain ⟨hid, hstate⟩ := Bool.and_eq_true_iff.mp ht
  exact ⟨t, hts, beq_iff_eq.mp hid, beq_iff_eq.mp hstate, hreq⟩

theorem takesOne_tokWith {P : HttpToken → Prop} (d : TokenDef) (state : LexerState)
    (action : HttpToken → HttpRequest → HttpRequest) (h : ∀ t, t.id = d.id → t.state = state → P t) :
    TakesOne P (tokWith d state action) := by
  intro ts req r req' hrun
  obtain ⟨t, hts, hid, hstate, -⟩ := tokWith_eq_some hrun
  exact ⟨t, hts, h t hid hstate⟩

theorem takesOne_tokenId (id : ℕ) : TakesOne (fun t => t.id = id) (tokenId id) :=
  takesOne_token _ fun _ => beq_iff_eq.mp

theorem exists_request {ts r : List HttpToken} {req req' : HttpRequest}
    (h : request ts req = (some r, req')) : ∃ m w u w' v c, ts = [m, w, u, w', v, c] ++ r ∧
      m.id ≠ 32 ∧ w.id = 32 ∧ u.id ≠ 32 ∧ w'.id = 32 ∧ v.state = .httpVersion ∧ c.id = tokCrlf := by
  have hne : ∀ {d : TokenDef} {state : LexerState} {action : HttpToken → HttpRequest → HttpRequest},
      d.id ≠ 32 → TakesOne (fun t => t.id ≠ 32) (tokWith d state action) :=
    fun hd => takesOne_tokWith _ _ _ fun t ht _ => ht ▸ hd
  have hmethod : TakesOne (fun t => t.id ≠ 32) method :=
    (hne (by decide)).alt <| (hne (by decide)).alt <| (hne (by decide)).alt <|
    (hne (by decide)).alt <| (hne (by decide)).alt <| (hne (by decide)).alt <|
    (hne (by decide)).alt <| (hne (by decide)).alt (hne (by decide))
  have hversion : TakesOne (fun t => t.state = .httpVersion) httpVersion :=
    (takesOne_tokWith _ _ _ fun _ _ hstate => hstate).alt
      (takesOne_tokWith _ _ _ fun _ _ hstate => hstate)
  obtain ⟨ts₁, req₁, h₁, h⟩ := exists_of_seq h
  obtain ⟨ts₂, req₂, h₂, h⟩ := exists_of_seq h
  obtain ⟨ts₃, req₃, h₃, h⟩ := exists_of_seq h
  obtain ⟨ts₄, req₄, h₄, h⟩ := exists_of_seq h
  obtain ⟨ts₅, req₅, h₅, h₆⟩ := exists_of_seq h
  obtain ⟨m, rfl, hm⟩ := hmethod _ _ _ _ h₁
  obtain ⟨w, rfl, hw⟩ := takesOne_tokenId 32 _ _ _ _ h₂
  obtain ⟨u, rfl, hu⟩ := hne (by decide) _ _ _ _ h₃
  obtain ⟨w', rfl, hw'⟩ := takesOne_tokenId 32 _ _ _ _ h₄
  obtain ⟨v, rfl, hv⟩ := hversion _ _ _ _ h₅
  obtain ⟨c, rfl, hc⟩ := takesOne_tokenId tokCrlf _ _ _ _ h₆
  exact ⟨m, w, u, w', v, c, rfl, hm, hw, hu, hw', hv, hc⟩

theorem seq_tok_of_ne {d : TokenDef} {t : HttpToken} (hid : t.id ≠ d.id) (state : LexerState)
    (rule : Rule) (ts : List HttpToken) (req : HttpRequest) :
    seq (tok d state) rule (t :: ts) req = (none, req) := by
  refine seq_none ?_
  rw [tok, tokWith, token_cons, beq_eq_false_iff_ne.mpr hid]
  rfl

theorem name_of_seq {d : TokenDef} {rule : Rule} {ts r : List HttpToken} {req req' : HttpRequest}
    (h : seq (tok d .headerName) rule ts req = (some r, req')) :
    ∃ t ts', ts = t :: ts' ∧ t.id = d.id ∧ t.state = .headerName := by
  obtain ⟨m, req₁, h₁, -⟩ := exists_of_seq h
  obtain ⟨t, rfl, hid, hstate, -⟩ := tokWith_eq_some h₁
  exact ⟨t, m, rfl, hid, hstate⟩

theorem name_of_header {ts r : List HttpToken} {req req' : HttpRequest}
    (h : header ts req = (some r, req')) : ∃ t ts', ts = t :: ts' ∧ t.state = .headerName := by
  have hname : ∀ {d : TokenDef} {rule : Rule} {req : HttpRequest},
      seq (tok d .headerName) rule ts req = (some r, req') →
        ∃ t ts', ts = t :: ts' ∧ t.state = .headerName := by
    intro d rule req h
    obtain ⟨t, ts', hts, -, hstate⟩ := name_of_seq h
    exact ⟨t, ts', hts, hstate⟩
  obtain h | ⟨_, -, h⟩ := exists_of_alt h
  · exact hname h
  obtain h | ⟨_, -, h⟩ := exists_of_alt h
  · exact hname h
  obtain h | ⟨_, -, h⟩ := exists_of_alt h
  · exact hname h
  · exact hname h

/-- There is no header at a line break. -/
theorem header_of_break {c : HttpToken} (hc : c.id = tokCrlf) (r : List HttpToken)
    (req : HttpRequest) : header (c :: r) req = (none, req) := by
  have hne : ∀ {id : ℕ}, id ≠ tokCrlf → c.id ≠ id := fun h heq => h (heq ▸ hc)
  have hhost : hostHdr (c :: r) req = (none, req) := seq_tok_of_ne (hne (by decide)) ..
  have hdnt : dntHdr (c :: r) req = (none, req) := seq_tok_of_ne (hne (by decide)) ..
  have haccept : acceptEncodingHdr (c :: r) req = (none, req) := seq_tok_of_ne (hne (by decide)) ..
  have hany : anyHdr (c :: r) req = (none, req) := seq_tok_of_ne (hne (by decide)) ..
  exact (alt_none hhost).trans ((alt_none hdnt).trans ((alt_none haccept).trans hany))

end RequestGrammar

/-! ## What is accepted -/

open RequestGrammar

/-- **The parts of a head** in the tokens of a buffer, and the request that its headers leave. -/
structure Parsed (b : Bytes) (req : HttpRequest) where
  start : List HttpToken
  lines : List (List HttpToken)
  last : HttpToken
  rest : List HttpToken
  started : HttpRequest
  tokens_eq : tokens b = start ++ (lines.flatten ++ last :: rest)
  request : RequestGrammar.request (tokens b) {} = (some (lines.flatten ++ last :: rest), started)
  takes : Takes header lines (lines.flatten ++ last :: rest) started (last :: rest) req
  last_id : last.id = tokCrlf
  requestPart : Http.requestPart b = text start
  headerLines : Http.headerLines b = lines.map text

/-- **A head that is accepted has its parts.** -/
theorem exists_parsed {stop : Bytes → ℕ} {b : Bytes} {req : HttpRequest}
    (h : parseHttpRequest (requestGrammar stop) b = some req) :
    ∃ req', Nonempty (Parsed b req') ∧ req = { req' with requestLength := stop b } := by
  unfold parseHttpRequest requestGrammar at h
  rcases hstart : RequestGrammar.start (tokens b) {} with ⟨_ | rest, req'⟩
  · rw [hstart] at h
    cases h
  · rw [hstart] at h
    cases h
    refine ⟨req', ?_, rfl⟩
    obtain ⟨ts, started, hrequest, hheaders⟩ := exists_of_seq hstart
    obtain ⟨ts', req₁, hstar, hcrlf⟩ := exists_of_seq hheaders
    obtain ⟨last, rfl, hlast, rfl⟩ := token_some hcrlf
    obtain ⟨a, ha⟩ := determined_request.2 _ _ _ _ hrequest
    have hid : last.id = tokCrlf := beq_iff_eq.mp hlast
    -- the repetition ends at the line break, where no header is
    obtain ⟨r, s, s', htakes, hfail, hstar'⟩ :=
      star_takes lineOf_header.consumes (ts.length + 1) ts started (Nat.lt_succ_self _)
    rw [hstar] at hstar'
    cases hstar'
    rw [header_of_break hid] at hfail
    cases hfail
    have hts := htakes.flatten
    have hpieces : Http.headerLines b = (pieces header ts started).map text := by
      rw [headerLines, hrequest]
    have hpart : Http.requestPart b = text a := by
      rw [requestPart, hrequest]
      simp only
      rw [ha, List.length_append, Nat.add_sub_cancel, List.take_left]
    exact ⟨{
      start := a
      lines := pieces header ts started
      last := last
      rest := rest
      started := started
      tokens_eq := ha.trans (congrArg (a ++ ·) hts)
      request := hts ▸ hrequest
      takes := hts ▸ htakes
      last_id := hid
      requestPart := hpart
      headerLines := hpieces }⟩

/-- **A head that has its parts is accepted.** -/
theorem accepted_of_takes {b : Bytes} {ts rest : List HttpToken} {lines : List (List HttpToken)}
    {last : HttpToken} {started req : HttpRequest} (stop : Bytes → ℕ)
    (hrequest : RequestGrammar.request (tokens b) {} = (some ts, started))
    (htakes : Takes header lines ts started (last :: rest) req) (hlast : last.id = tokCrlf) :
    parseHttpRequest (requestGrammar stop) b = some { req with requestLength := stop b } := by
  have hstar := takes_star lineOf_header.consumes htakes (header_of_break hlast rest req)
  have hcrlf : RequestGrammar.crlf (last :: rest) req = (some rest, req) := by
    unfold RequestGrammar.crlf tokenId
    rw [token_cons, if_pos (beq_iff_eq.mpr hlast)]
  have hstart : RequestGrammar.start (tokens b) {} = (some rest, req) :=
    (seq_some hrequest).trans ((seq_some hstar).trans hcrlf)
  unfold parseHttpRequest requestGrammar
  rw [hstart]
  rfl

/-- **A header line as it is read**: from its name to its line break. -/
def IsLine (line : List HttpToken) : Prop :=
  ∃ t body c s s', line = t :: (body ++ [c]) ∧ (∀ u ∈ body, u.id ≠ tokCrlf) ∧ c.id = tokCrlf ∧
    c.text = [13, 10] ∧ Reads table .headerName s line .headerName s'

theorem isLine_of_header {a ts : List HttpToken} {req req' : HttpRequest}
    (h : header (a ++ ts) req = (some ts, req')) {state state' : LexerState} {s s' : Bytes}
    (hreads : Reads table state s a state' s') : IsLine a ∧ state' = .headerName := by
  obtain ⟨body, c, hsplit, hbody, hc⟩ := lineOf_header.exists_line h
  obtain rfl : a = body ++ [c] := by
    refine (List.append_left_inj ts).mp ?_
    rw [hsplit, List.append_assoc]
    rfl
  have hid : c.id = tokCrlf := beq_iff_eq.mp hc
  cases body with
  | nil =>
    have hnone := header_of_break hid ts req
    rw [← List.singleton_append, ← List.nil_append [c], h] at hnone
    cases hnone
  | cons t body =>
    obtain ⟨t', ts', hts, ht⟩ := name_of_header h
    obtain ⟨rfl, -⟩ := List.cons_eq_cons.mp hts
    have hstate : state = .headerName := by
      obtain ⟨_, _, hnext, -⟩ := reads_cons.mp hreads
      obtain ⟨-, -, -, hq, -⟩ := next_eq_some HeaderLexer.sound_table hnext
      exact hq.symm.trans ht
    subst hstate
    obtain ⟨htext, rfl⟩ := HeaderLexer.reads_ofHeader hid rfl hreads
    have hne : ∀ u ∈ body, u.id ≠ tokCrlf := fun u hu =>
      beq_eq_false_iff_ne.mp (hbody u (List.mem_cons_of_mem _ hu))
    exact ⟨⟨t, body, c, s, s', rfl, hne, hid, htext, hreads⟩, rfl⟩

/-- **The header lines are read** from a name to where the next name is. -/
theorem reads_of_takes {lines : List (List HttpToken)} {ts r : List HttpToken}
    {req req' : HttpRequest} (h : Takes header lines ts req r req') {state state' : LexerState}
    {s s' : Bytes} (hreads : Reads table state s lines.flatten state' s') :
    (∀ line ∈ lines, IsLine line) ∧ (lines = [] ∨ state' = .headerName) := by
  induction h generalizing state s with
  | nil => exact ⟨List.forall_mem_nil _, .inl rfl⟩
  | cons hrun _ ih =>
    rw [List.flatten_cons, reads_append] at hreads
    obtain ⟨q, x, hline, hrest⟩ := hreads
    obtain ⟨hisLine, rfl⟩ := isLine_of_header hrun hline
    obtain ⟨hlines, hlast⟩ := ih hrest
    refine ⟨List.forall_mem_cons.mpr ⟨hisLine, hlines⟩, .inr ?_⟩
    obtain rfl | hlast := hlast
    · exact (reads_nil.mp hrest).1
    · exact hlast

theorem Parsed.isLine {b : Bytes} {req : HttpRequest} (h : Parsed b req) :
    ∀ line ∈ h.lines, IsLine line := by
  obtain ⟨_, _, -, hlex⟩ := exists_reads HeaderLexer.sound_table h.tokens_eq
  obtain ⟨_, _, hreads, -⟩ := exists_reads HeaderLexer.sound_table hlex
  exact (reads_of_takes h.takes hreads).1

theorem Parsed.exists_start {b : Bytes} {req : HttpRequest} (h : Parsed b req) :
    ∃ m w u w' v c, h.start = [m, w, u, w', v, c] ∧ m.id ≠ 32 ∧ w.id = 32 ∧ u.id ≠ 32 ∧ w'.id = 32 ∧
      v.state = .httpVersion ∧ c.id = tokCrlf := by
  obtain ⟨m, w, u, w', v, c, hts, hids⟩ := exists_request h.request
  exact ⟨m, w, u, w', v, c, List.append_cancel_right (h.tokens_eq.symm.trans hts), hids⟩

end VUbercool.Http
