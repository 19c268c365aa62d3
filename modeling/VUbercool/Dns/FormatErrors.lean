import VUbercool.Dns.Accounting
import VUbercool.Dns.Grammar
import VUbercool.Dns.Questions

/-!
# Which malformed queries are format errors

The parser raises exceptions of six classes. The `catch` clauses of `ProcesssQuerey` that reply with a
format error name three of them and `InvalidQuery`.

* `labelStep_formatError`: which errors of a round of the label loop are among these.
* `OwnPointer.loop_error`: a name that points into itself ends as one that is too long.
* `NameReported`, `parse_formatError_iff`: the names that lead to one.
* `repliesBad_iff`: **the queries that are reported** as format errors.
-/

namespace VUbercool.Dns

open Octets Rfc1035 Proc

variable {mem : Memory} {p stop n : ℕ} {ls : List Label} {e : Fault}

/-! ## Names -/

/-- **The errors of a round that are format errors** are those of its last check: no labels, an illegal
character, an unknown pointer. -/
theorem labelStep_formatError {st : LabelState} (h : labelStep mem stop st = .error e) :
    formatError e = true ↔ mem st.p = 0 ∧ st.size + 1 ≤ 255 ∨
      (mem st.p ≠ 0 ∧ (mem st.p).toNat < 64 ∧ st.p + 1 + (mem st.p).toNat ≤ stop ∧
        st.size + (mem st.p).toNat ≤ 255) ∨
      mem st.p &&& 0xC0 = 0xC0 ∧ st.p + 1 < stop ∧ st.size + 2 ≤ 255 := by
  by_cases h0 : mem st.p = 0
  · have hptr : ¬ (0 : UInt8) &&& 0xC0 = 0xC0 := by decide
    simp only [h0, hptr, true_and, ne_eq, not_true, false_and, or_false]
    by_cases hsize : st.size + 1 > 255
    · simp only [labelStep, if_pos h0, validateSize, if_pos hsize, bind, Except.bind] at h
      cases h
      exact iff_of_false (by decide) (by omega)
    · simp only [labelStep, if_pos h0, validateSize, if_neg hsize, bind, Except.bind] at h
      split_ifs at h
      cases h
      exact iff_of_true (by decide) (by omega)
  by_cases h64 : (mem st.p).toNat < 64
  · have hptr : ¬ mem st.p &&& 0xC0 = 0xC0 := fun hp => (ne_zero_of_pointer hp).2 h64
    simp only [hptr, h0, h64, ne_eq, not_false_iff, true_and, false_and, or_false, false_or]
    by_cases hend : st.p + 1 + (mem st.p).toNat > stop
    · simp only [labelStep, if_neg h0, if_pos h64, if_pos hend] at h
      cases h
      exact iff_of_false (by decide) (by omega)
    by_cases hsize : st.size + (mem st.p).toNat > 255
    · simp only [labelStep, if_neg h0, if_pos h64, if_neg hend, validateSize, if_pos hsize, bind,
        Except.bind] at h
      cases h
      exact iff_of_false (by decide) (by omega)
    · simp only [labelStep, if_neg h0, if_pos h64, if_neg hend, validateSize, if_neg hsize, bind,
        Except.bind] at h
      split_ifs at h
      cases h
      exact iff_of_true (by decide) ⟨by omega, by omega⟩
  by_cases hptr : mem st.p &&& 0xC0 = 0xC0
  · simp only [hptr, h0, h64, ne_eq, not_false_iff, true_and, false_and, and_false, false_or]
    by_cases hend : st.p + 1 ≥ stop
    · simp only [labelStep, if_neg h0, if_neg h64, if_pos hptr, if_pos hend] at h
      cases h
      exact iff_of_false (by decide) (by omega)
    by_cases hsize : st.size + 2 > 255
    · simp only [labelStep, if_neg h0, if_neg h64, if_pos hptr, if_neg hend, validateSize, if_pos hsize,
        bind, Except.bind] at h
      cases h
      exact iff_of_false (by decide) (by omega)
    · simp only [labelStep, if_neg h0, if_neg h64, if_pos hptr, if_neg hend, validateSize, if_neg hsize,
        bind, Except.bind] at h
      cases hf : findPointer (load16 mem st.p &&& ~~~0xC000) st.knownLabels with
      | ok v =>
        rw [hf] at h
        cases h
      | error e' =>
        rw [hf] at h
        cases h
        unfold findPointer at hf
        split at hf
        · cases hf
        · cases hf
          exact iff_of_true (by decide) ⟨by omega, by omega⟩
  · simp only [labelStep, if_neg h0, if_neg h64, if_neg hptr] at h
    cases h
    simp only [hptr, h0, h64, ne_eq, not_false_iff, true_and, false_and, or_false]
    exact iff_of_false (by decide) id

/-- **A name that points into itself** gets too long, and that is no format error. -/
theorem OwnPointer.loop_error {v : StringRef} (h : OwnPointer mem p stop ls v) : ∀ (fuel : ℕ)
    {st : LabelState}, Among p ls st → labelLoop mem stop fuel st = .error e → formatError e = false
  | 0, _, _, he => by
    cases he
    rfl
  | fuel + 1, st, hst, he => by
    obtain ⟨-, ⟨st', hs, hst'⟩ | ⟨what, hs⟩⟩ := h.step hst
    · rw [labelLoop_next hs] at he
      exact h.loop_error fuel hst' he
    · rw [labelLoop, hs] at he
      cases he
      rfl

/-- **The names that are reported**: the root name; labels with an illegal character in the next one,
which is complete and not too long; labels and a complete pointer to none of them. -/
inductive NameReported (mem : Memory) (p stop : ℕ) : Prop
  | root : mem p = 0 → NameReported mem p stop
  | illegalChar {ls : List Label} {q : ℕ} : Explicit mem p stop ls → q = p + (encodeLabels ls).length →
      mem q ≠ 0 → (mem q).toNat < 64 → q + 1 + (mem q).toNat ≤ stop →
      textLength ls + (mem q).toNat ≤ 255 →
      matchesPat (readBytes mem (q + 1) (mem q).toNat) = false → NameReported mem p stop
  | unknownPointer {ls : List Label} {q : ℕ} : Explicit mem p stop ls →
      q = p + (encodeLabels ls).length → mem q &&& 0xC0 = 0xC0 → q + 1 < stop →
      textLength ls + 2 ≤ 255 → (∀ v ∈ labelRefs p ls, v.pos ≠ hostOffset (mem q) (mem (q + 1))) →
      NameReported mem p stop

@[simp] theorem explicitState_size : (explicitState p [] ls).size = textLength ls := Nat.zero_add _

theorem parse_of_step (h : Explicit mem p stop ls) (hp : p < stop)
    (hs : labelStep mem stop (explicitState p [] ls) = .error e) :
    LabelHeader.parse mem p (stop - p) [] = .error e := by
  obtain ⟨fuel, -, hparse, -⟩ := labels_explicit h hp []
  rw [hparse, labelLoop, hs]
  rfl

theorem parse_of_reported (hp : p < stop) (h : NameReported mem p stop) :
    ∃ e, LabelHeader.parse mem p (stop - p) [] = .error e ∧ formatError e = true := by
  cases h with
  | root h0 =>
    obtain ⟨e, he⟩ := @labelStep_root mem stop (explicitState p [] []) h0
    rw [if_neg fun h => h.2 rfl] at he
    exact ⟨e, parse_of_step (.nil hp.le) hp he,
      (labelStep_formatError he).mpr (.inl ⟨h0, by simp [textLength]⟩)⟩
  | illegalChar hls hq h0 h64 hend hsize hpat =>
    subst hq
    obtain ⟨e, he⟩ := @labelStep_label mem stop (explicitState p [] _) h0 h64
    rw [if_neg fun h => by rw [explicitState_p, hpat] at h; exact absurd h.2.2 (by decide)] at he
    exact ⟨e, parse_of_step hls hp he, (labelStep_formatError he).mpr
      (.inr (.inl ⟨h0, h64, hend, by simpa using hsize⟩))⟩
  | @unknownPointer ls q hls hq hptr hend hsize hno =>
    subst hq
    rcases @labelStep_pointer mem stop (explicitState p [] ls) hptr with ⟨v, -, -, hf, -⟩ | ⟨⟨e, he⟩, -⟩
    · obtain ⟨hv, hpos⟩ := findPointer_mem hf
      rw [explicitState_p, toNat_hostPointer] at hpos
      exact absurd hpos (hno v hv)
    · exact ⟨e, parse_of_step hls hp he, (labelStep_formatError he).mpr
        (.inr (.inr ⟨hptr, hend, by simpa using hsize⟩))⟩

theorem reported_of_parse (hp : p < stop) (h : LabelHeader.parse mem p (stop - p) [] = .error e)
    (he : formatError e = true) : NameReported mem p stop := by
  obtain ⟨ls, hls, hmax⟩ := @exists_explicit mem _ _ hp.le
  obtain ⟨fuel, -, hparse, -⟩ := labels_explicit hls hp []
  rcases @step_explicit _ _ _ [] _ hls hmax with ⟨-, hs⟩ | ⟨v, hptr, hend, hf, hs⟩ | ⟨e', hs⟩
  · rw [hparse, labelLoop_done hs] at h
    cases h
  · rw [hparse, labelLoop_next hs] at h
    have hown : OwnPointer mem p stop ls v := ⟨hls.legal, hls.holds, hptr, hend, hf⟩
    cases hl : labelLoop mem stop fuel ((explicitState p [] ls).afterPointer v) with
    | error e' =>
      rw [hl] at h
      cases h
      rw [hown.loop_error fuel (among_stop (findPointer_mem hf).1 rfl rfl rfl) hl] at he
      cases he
    | ok st =>
      rw [hl] at h
      cases h
  · rw [parse_of_step hls hp hs] at h
    cases h
    rcases (labelStep_formatError hs).mp he with ⟨h0, hsize⟩ | ⟨h0, h64, hend, hsize⟩ |
      ⟨hptr, hend, hsize⟩
    · obtain ⟨e', hroot⟩ := @labelStep_root mem stop (explicitState p [] ls) h0
      rw [hs] at hroot
      split_ifs at hroot with hc
      have hnil : ls = [] := by
        cases ls with
        | nil => rfl
        | cons l ls => exact absurd ⟨hsize, by simp [explicitState, LabelState.afterLabels, labelRefs]⟩ hc
      rw [hnil] at h0
      exact .root h0
    · obtain ⟨e', hlabel⟩ := @labelStep_label mem stop (explicitState p [] ls) h0 h64
      rw [hs] at hlabel
      split_ifs at hlabel with hc
      rw [explicitState_size] at hsize
      refine .illegalChar hls rfl h0 h64 hend hsize (Bool.eq_false_iff.mpr fun hpat => hc ?_)
      exact ⟨hend, by simpa using hsize, hpat⟩
    · rw [explicitState_size] at hsize
      refine .unknownPointer hls rfl hptr hend hsize fun v hv hpos => ?_
      rcases @labelStep_pointer mem stop (explicitState p [] ls) hptr with ⟨_, -, -, -, hok⟩ | ⟨-, hno⟩
      · rw [hs] at hok
        cases hok
      · have hfind : ∃ v, findPointer (load16 mem (p + (encodeLabels ls).length) &&& ~~~0xC000)
            (labelRefs p ls) = .ok v := by
          cases hf : (labelRefs p ls).find?
              (·.pos == (load16 mem (p + (encodeLabels ls).length) &&& ~~~0xC000).toNat) with
          | some w => exact ⟨w, findPointer_ok.mpr hf⟩
          | none =>
            have hne := List.find?_eq_none.mp hf v hv
            rw [toNat_hostPointer, ← hpos] at hne
            exact absurd (beq_self_eq_true _) hne
        exact hno ⟨hend, by simpa using hsize, hfind⟩

/-- **Which names are format errors.** -/
theorem parse_formatError_iff (hp : p < stop) :
    (∃ e, LabelHeader.parse mem p (stop - p) [] = .error e ∧ formatError e = true) ↔
      NameReported mem p stop :=
  ⟨fun ⟨_, h, he⟩ => reported_of_parse hp h he, parse_of_reported hp⟩

/-! ## Queries -/

/-- **The queries that are reported**: nothing stands behind the header, or the first name is reported,
or the first question is complete and of a supported class. -/
inductive Reported (mem : Memory) (n : ℕ) : Prop
  | nothing : n = 12 → Reported mem n
  | name : 12 < n → NameReported mem 12 n → Reported mem n
  | complete {q : Rfc1035.Question} : PlainQuestion mem n q → Reported mem n

theorem question_formatError (hp : p < stop) {offset : UInt16}
    (h : Question.parse mem p (stop - p) [] offset = .error e) :
    formatError e = true ↔ NameReported mem p stop := by
  rw [← parse_formatError_iff hp]
  rw [Question.parse] at h
  cases hl : LabelHeader.parse mem p (stop - p) [] with
  | error e' =>
    rw [hl] at h
    cases h
    constructor
    · exact fun he => ⟨e, rfl, he⟩
    · rintro ⟨_, ⟨⟩, he⟩
      exact he
  | ok r =>
    rw [hl] at h
    simp only [bind, Except.bind] at h
    split_ifs at h
    cases h
    apply iff_of_false (by decide)
    rintro ⟨_, ⟨⟩, -⟩

theorem plainQuestion_iff {q : Rfc1035.Question} (hn : 12 ≤ n) : PlainQuestion mem n q ↔
    QuestionAtStart (readBytes mem 12 (n - 12)) q ∧ (q.qclass = 1 ∨ q.qclass = 255) := by
  constructor
  · rintro ⟨hname, hclass, hholds, hinside⟩
    exact ⟨⟨hname, begins_readBytes.mpr ⟨by omega, hholds⟩⟩, hclass⟩
  · rintro ⟨⟨hname, hbegins⟩, hclass⟩
    obtain ⟨hlen, hholds⟩ := begins_readBytes.mp hbegins
    exact ⟨hname, hclass, hholds, by omega⟩

theorem questionRound_refused {q : Rfc1035.Question} (hn : 12 < n)
    (hq : QuestionAtStart (readBytes mem 12 (n - 12)) q) (hclass : ¬ (q.qclass = 1 ∨ q.qclass = 255))
    (s : Parsed) : ∃ s', questionRound mem n (n - MessageHeader.size) s =
      (.error (warThrow .refused "Unsupported Qclass"), s') := by
  obtain ⟨hlen, hholds⟩ := begins_readBytes.mp hq.begins
  have hparse := question_parse_plain hq.name hholds hlen s.pointers (UInt16.ofNat s.replyBuffer.length)
  rw [show n - 12 = n - MessageHeader.size from rfl] at hparse
  refine ⟨{ s with
    questions := s.questions ++ [asked q (UInt16.ofNat s.replyBuffer.length)]
    pointers := s.pointers ++ labelRefs 12 q.name }, ?_⟩
  rw [questionRound, if_neg (by rw [MessageHeader.size]; omega), bind_ok (get_apply s), parseQuestion,
    show n - (n - MessageHeader.size) = 12 by rw [MessageHeader.size]; omega, hparse,
    bind_ok (ofExcept_apply _ s)]
  dsimp only
  rw [bind_ok (modify_apply _ s), if_pos (not_or.mp hclass)]
  rfl

/-- **What the parser raises, other than for the class of a question,** is a format error exactly if the
query is reported. -/
theorem parseQuestions_formatError {header : MessageHeader} {s : Parsed} (hn : 12 ≤ n)
    (h : parseQuestions mem n header ⟨[], [], 0, resize [] MessageHeader.size⟩ = (.error e, s))
    (hclass : ∀ what, e ≠ warThrow .refused what) : formatError e = true ↔ Reported mem n := by
  unfold parseQuestions at h
  generalize header.qdcount.toNat = k at h
  cases k with
  | zero => cases h
  | succ k =>
    obtain rfl | hlt := Nat.eq_or_lt_of_le hn
    · -- there is nothing behind the header
      rw [forM_range_succ, bind_error (show questionRound mem 12 (12 - MessageHeader.size) _ = _ from rfl)]
        at h
      cases h
      exact iff_of_true (by decide) (.nothing rfl)
    cases hparse : Question.parse mem 12 (n - 12) [] 12 with
    | error e' =>
      have hround : questionRound mem n (n - MessageHeader.size) ⟨[], [], 0, resize [] MessageHeader.size⟩ =
          (.error e', ⟨[], [], 0, resize [] MessageHeader.size⟩) := by
        rw [questionRound, if_neg (by rw [MessageHeader.size]; omega), bind_ok (get_apply _), parseQuestion,
          show n - (n - MessageHeader.size) = 12 by rw [MessageHeader.size]; omega]
        exact bind_error (by rw [ofExcept_apply]; exact congrArg (fun r => (r, _)) hparse)
      rw [forM_range_succ, bind_error hround] at h
      cases h
      rw [question_formatError hlt hparse]
      refine ⟨.name hlt, fun hr => ?_⟩
      cases hr with
      | nothing h12 => omega
      | name _ hname => exact hname
      | complete hq =>
        obtain ⟨⟨hname, hbegins⟩, -⟩ := (plainQuestion_iff hn).mp hq
        obtain ⟨hlen, hholds⟩ := begins_readBytes.mp hbegins
        rw [question_parse_plain hname hholds hlen] at hparse
        cases hparse
    | ok r =>
      obtain ⟨q, hq⟩ := question_parse_first hparse
      by_cases hsupported : q.qclass = 1 ∨ q.qclass = 255
      · have hplain : PlainQuestion mem n q := (plainQuestion_iff hn).mpr ⟨hq, hsupported⟩
        by_cases hfit : (resize [] MessageHeader.size).length + (k + 1) * (encodeQuestion q).length <
            maxReplyBuffer
        · obtain ⟨s', hrun, -⟩ := rounds_ok hplain (s := ⟨[], [], 0, resize [] MessageHeader.size⟩)
            fun _ => hfit
          rw [hrun] at h
          cases h
        · obtain ⟨s', hrun⟩ := rounds_error hplain (s := ⟨[], [], 0, resize [] MessageHeader.size⟩)
            (Nat.succ_pos k) (Nat.le_of_not_lt hfit)
          rw [hrun] at h
          cases h
          exact iff_of_true (by decide) (.complete hplain)
      · obtain ⟨s', hround⟩ := questionRound_refused hlt hq hsupported
          ⟨[], [], 0, resize [] MessageHeader.size⟩
        rw [forM_range_succ, bind_error hround] at h
        cases h
        exact absurd rfl (hclass _)

/-! ## Replies -/

theorem formatError_caught (h : formatError e = true) :
    ∃ ex, e = .raised ex ∧ catchClause ex.type = some (.formatError, true) := by
  cases e with
  | raised ex =>
    refine ⟨ex, rfl, ?_⟩
    rw [formatError] at h
    revert h
    cases ex.type <;> decide
  | diverged => cases h
  | wildRead => cases h

/-- **The reply to a malformed query**: nothing is raised, it is a bare header with the code of a format
error, and the state is `BAD`. -/
structure RepliesBad (zones : List Zone) (mem : Memory) (n : ℕ) (header : MessageHeader) (b : Bytes) :
    Prop where
  result : (processsQuerey zones mem n b).result = .ok ()
  reply : (processsQuerey zones mem n b).replyBuffer = (errorHeader .formatError header).octets
  state : (processsQuerey zones mem n b).state = .bad

/-- **Which malformed queries are reported as format errors.** The parser raises something at a standard
query, other than for the class of a question: then the reply is a format error and the state `BAD`
exactly if the query is `Reported`. -/
theorem repliesBad_iff {header : MessageHeader} {s : Parsed} (zones : List Zone) (b : Bytes)
    (hh : MessageHeader.ofBuffer mem n = .ok header) (hqr : header.getQr = false)
    (hopcode : header.getOpcode = 0)
    (hfail : parseQuestions mem n header ⟨[], [], 0, resize [] MessageHeader.size⟩ = (.error e, s))
    (hclass : ∀ what, e ≠ warThrow .refused what) :
    RepliesBad zones mem n header b ↔ Reported mem n := by
  have hop : processOpcode zones mem n header [] = (.error e, s.replyBuffer) := by
    rw [processOpcode, hqr, if_neg (by decide), if_pos hopcode, processQuestions, hfail]
  rw [← parseQuestions_formatError (MessageHeader.holds_of_ofBuffer hh).1 hfail hclass]
  constructor
  · intro h
    have hstate := h.state
    rw [processsQuerey_replyBuffer, state_bad_iff hh hop] at hstate
    obtain ⟨_, ⟨⟩, he⟩ := hstate
    exact he
  · intro he
    obtain ⟨ex, rfl, hc⟩ := formatError_caught he
    have hq := processsQuerey_caught hh hop hc
    rw [← processsQuerey_replyBuffer zones mem n b] at hq
    exact ⟨by rw [hq], by rw [hq], by rw [hq]; rfl⟩

/-- A query for the root name. -/
theorem repliesBad_root : RepliesBad []
    (memoryOf ((⟨7, 0, 1, 0, 0, 0⟩ : MessageHeader).octets ++ [0, 0, 1, 0, 1]))
    17 ⟨7, 0, 1, 0, 0, 0⟩ [] :=
  (repliesBad_iff (e := warThrow .noLabelsException "No labels found in header")
    (s := ⟨[], [], 0, resize [] MessageHeader.size⟩) [] [] (by decide +kernel) (by decide) (by decide)
    (by decide +kernel) (by rintro _ ⟨⟩)).mpr (.name (by decide) (.root (by decide +kernel)))

/-- The reply to a length octet of 64 is a server failure. -/
theorem not_repliesBad : ¬ ∀ (zones : List Zone) (mem : Memory) (n : ℕ) (header : MessageHeader) (e : Fault)
    (s : Parsed) (b : Bytes), MessageHeader.ofBuffer mem n = .ok header → header.getQr = false →
    header.getOpcode = 0 →
    parseQuestions mem n header ⟨[], [], 0, resize [] MessageHeader.size⟩ = (.error e, s) →
    (∀ what, e ≠ warThrow .refused what) → RepliesBad zones mem n header b := by
  intro h
  have hbad := h [] (memoryOf ((⟨7, 0, 1, 0, 0, 0⟩ : MessageHeader).octets ++ [64])) 13 ⟨7, 0, 1, 0, 0, 0⟩
    (warThrow .labelHeaderException "Invalid label length!") ⟨[], [], 0, resize [] MessageHeader.size⟩ []
    (by decide +kernel) (by decide) (by decide) (by decide +kernel) (by rintro _ ⟨⟩)
  exact absurd hbad.state (by decide +kernel)

end VUbercool.Dns
