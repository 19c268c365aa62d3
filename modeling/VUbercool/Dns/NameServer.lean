import VUbercool.Dns.Copies
import VUbercool.Dns.CutReply

/-!
# The name server

What a name server makes of a datagram, in terms of messages and of the forest, and that the daemon does
that.

* `reaction`: **the name server**.
* `Shows`: what is sent shows a reaction: the message of it, cut where it does not fit.
* `replyTo_shows`: the daemon shows the reaction to every datagram.
* `run_shows`: so does the receive loop, in every run.
-/

namespace VUbercool.Dns

open Octets Rfc1035 Proc

variable {zones : List Zone} {d : Bytes} {h : Header} {q : Rfc1035.Question}

/-! ## What is to happen -/

/-- **What a name server does with a datagram**: nothing, it comes to no end, or it replies. -/
inductive Reaction where
  | silent
  | hangs
  | message (full : Message)

/-- The message that tells an error. -/
def errorMessage (code : Rcode) (h : Header) : Message :=
  .ofSections h.id (errorFlags code h.flags) [] [] [] []

/-- The message that answers `k` copies of a question about `z`, which `s` governs: the answers `k` times,
the other records once. -/
def answerMessage (zones : List Zone) (h : Header) (k : ℕ) (q : Rfc1035.Question) (z s : ZonePtr) :
    Message :=
  .ofSections h.id (answerFlags z.authoritative h.flags) (List.replicate k q)
    (List.replicate k (answersOf zones z s q)).flatten (authorityOf s q) (additionalOf zones z s q)

/-- The question a datagram begins with behind its header. -/
def questionOf (d : Bytes) : Option Rfc1035.Question :=
  ((readQuestion d 12).map Prod.fst).filter fun q => QuestionAtStart (d.drop 12) q

open Classical in
/-- **The reaction to a question**, announced `k` times. -/
noncomputable def reactTo (zones : List Zone) (h : Header) (k : ℕ) (q : Rfc1035.Question) : Reaction :=
  match lookup zones q.name with
  | (none, true) => .message (errorMessage .nameError h)
  | (none, false) => .silent
  | (some z, _) =>
    if ¬ Shallow z then .hangs
    else if q.qtype = 6 ∧ (z.governing.getD noZone).zone.ns = [] then
      .message (errorMessage .serverFailure h)
    else .message (answerMessage zones h k q z (z.governing.getD noZone))

open Classical in
/-- **The reaction to a datagram.** Only the first question counts; it is answered as often as the header
announces questions. -/
noncomputable def reaction (zones : List Zone) (d : Bytes) : Reaction :=
  match readHeader d with
  | none => .silent
  | some h =>
    if h.flags &&& 0x8000 ≠ 0 then .message (errorMessage .formatError h)
    else if (h.flags >>> 11) &&& 0xF ≠ 0 then .message (errorMessage .notImplemented h)
    else if h.qdcount = 0 then .message (.ofSections h.id (answerFlags true h.flags) [] [] [] [])
    else match questionOf d with
      | none =>
        .message (errorMessage (if Reported (memoryOf d) d.length then .formatError else .serverFailure) h)
      | some q =>
        if ¬ (q.qclass = 1 ∨ q.qclass = 255) then .message (errorMessage .refused h)
        else if 512 ≤ 12 + h.qdcount.toNat * (encodeQuestion q).length then
          .message (errorMessage .formatError h)
        else reactTo zones h h.qdcount.toNat q

/-- **What is sent shows a reaction**: a reply has at most 512 octets, and is the message, cut where it does
not fit; no record is missing that would fit if no name were compressed. -/
inductive Shows : Outcome → Reaction → Prop
  | silent : Shows .silent .silent
  | hangs : Shows .stuck .hangs
  | message {reply : Bytes} {full : Message} (j : ℕ) : reply.length ≤ 512 →
      decode reply = some (full.cut j) →
      (∀ i ≤ full.records.length, (full.cut i).encode.length ≤ 512 → i ≤ j) →
      Shows (.sent reply) (.message full)

/-! ## Datagrams -/

/-- The header that a decoder reads. -/
def MessageHeader.toHeader (header : MessageHeader) : Header :=
  ⟨header.id, header.flags, header.qdcount, header.ancount, header.nscount, header.arcount⟩

theorem readHeader_none {e : Fault} (he : MessageHeader.ofBuffer (memoryOf d) d.length = .error e) :
    readHeader d = none := by
  rw [MessageHeader.ofBuffer] at he
  split_ifs at he with hlen
  have hlast : d[11]? = none := List.getElem?_eq_none (by unfold MessageHeader.size at hlen; omega)
  have hcount : u16 (view d) 10 = none := by simp [u16, view, hlast]
  simp [readHeader, hcount]

theorem readHeader_some {header : MessageHeader}
    (hh : MessageHeader.ofBuffer (memoryOf d) d.length = .ok header) :
    readHeader d = some header.toHeader := by
  obtain ⟨h12, hholds⟩ := MessageHeader.holds_of_ofBuffer hh
  have htake := holds_memoryOf [] (d.take 12) (d.drop 12)
  rw [List.nil_append, List.take_append_drop, List.length_nil, Holds, List.length_take_of_le h12] at htake
  have hd : d = header.octets ++ d.drop 12 := by
    rw [← hholds, MessageHeader.length_octets, htake, List.take_append_drop]
  rw [hd]
  exact readHeader_octets header _

theorem readBytes_body (h12 : 12 ≤ d.length) : readBytes (memoryOf d) 12 (d.length - 12) = d.drop 12 := by
  have hdrop := holds_memoryOf (d.take 12) (d.drop 12) []
  rwa [List.append_nil, List.take_append_drop, List.length_take_of_le h12, Holds, List.length_drop] at hdrop

theorem questionOf_eq_some : questionOf d = some q ↔ 12 ≤ d.length ∧ QuestionAtStart (d.drop 12) q := by
  rw [questionOf, Option.filter_eq_some_iff, decide_eq_true_iff]
  constructor
  · rintro ⟨hread, hq⟩
    refine ⟨?_, hq⟩
    have hlen := hq.begins.length_le
    rw [length_encodeQuestion, List.length_drop] at hlen
    omega
  · rintro ⟨h12, hq⟩
    refine ⟨?_, hq⟩
    obtain ⟨rest, hrest⟩ := hq.begins
    have hd : d = d.take 12 ++ encodeQuestion q ++ rest := by
      rw [List.append_assoc, hrest, List.take_append_drop]
    have hat := @questionAt_encode [] q hq.name.fit (d.take 12) rest fun i _ => List.not_mem_nil
    rw [← hd, known_nil, List.length_take_of_le h12] at hat
    rw [readQuestion_of_at hat]
    rfl

theorem replyTo_of_header {header : MessageHeader} (hd : d.length ≤ maxQueryBuffer)
    (hh : MessageHeader.ofBuffer (memoryOf d) d.length = .ok header) :
    replyTo zones d = outcomeOf header (processOpcode zones (memoryOf d) d.length header []) := by
  have hreceived : received (fun _ => 0) d = memoryOf d := by
    funext i
    rw [received, memoryOf, List.take_of_length_le hd]
  have hout := @receive_outcome zones (fun _ => 0) d header
  rw [hreceived, List.take_of_length_le hd] at hout
  exact hout hh

theorem replyTo_underflow {e : Fault} (hd : d.length ≤ maxQueryBuffer)
    (he : MessageHeader.ofBuffer (memoryOf d) d.length = .error e) : replyTo zones d = .silent := by
  have hreceived : received (fun _ => 0) d = memoryOf d := by
    funext i
    rw [received, memoryOf, List.take_of_length_le hd]
  have hout := @receive_underflow zones (fun _ => 0) d e
  rw [hreceived, List.take_of_length_le hd] at hout
  exact hout he

/-! ## Errors -/

theorem shows_error (code : Rcode) (header : MessageHeader) :
    Shows (.sent (errorHeader code header).octets) (.message (errorMessage code header.toHeader)) := by
  have hlen : (errorHeader code header).octets.length = 12 := MessageHeader.length_octets _
  refine .message 0 (by omega) ?_ fun i hi _ => hi
  have hread := readHeader_octets (errorHeader code header) []
  rw [List.append_nil, errorHeader_flags] at hread
  rw [decode, hread]
  simp [readMany, errorMessage, Message.cut, Message.ofSections, Message.records, errorHeader,
    MessageHeader.toHeader, MessageHeader.setQr, MessageHeader.setRcode, MessageHeader.resetAllCounters]

theorem parse_no_question {header : MessageHeader}
    (hh : MessageHeader.ofBuffer (memoryOf d) d.length = .ok header) (hqd : header.qdcount ≠ 0)
    (hnone : ∀ q, ¬ QuestionAtStart (d.drop 12) q) : ∃ e s,
    parseQuestions (memoryOf d) d.length header ⟨[], [], 0, resize [] MessageHeader.size⟩ = (.error e, s) ∧
      (formatError e = true ↔ Reported (memoryOf d) d.length) ∧ ∃ ex bad, e = .raised ex ∧
      catchClause ex.type = some (if formatError e then .formatError else .serverFailure, bad) := by
  obtain ⟨h12, -⟩ := MessageHeader.holds_of_ofBuffer hh
  obtain ⟨k, hk⟩ : ∃ k, header.qdcount.toNat = k + 1 :=
    Nat.exists_eq_succ_of_ne_zero fun h => hqd (UInt16.toNat_inj.mp h)
  obtain ⟨e, s, hround, hclass, hcaught⟩ : ∃ e s, questionRound (memoryOf d) d.length
      (d.length - MessageHeader.size) ⟨[], [], 0, resize [] MessageHeader.size⟩ = (.error e, s) ∧
      (∀ what, e ≠ warThrow .refused what) ∧ ∃ ex bad, e = .raised ex ∧
      catchClause ex.type = some (if formatError e then .formatError else .serverFailure, bad) := by
    rw [questionRound]
    by_cases hlen : d.length - MessageHeader.size = 0
    · rw [if_pos hlen]
      exact ⟨_, _, rfl, fun what h => (by cases h), _, _, rfl, rfl⟩
    · have hleft : d.length - (d.length - MessageHeader.size) = 12 := by
        rw [MessageHeader.size] at hlen ⊢
        omega
      rw [if_neg hlen, bind_ok (get_apply _), parseQuestion, hleft]
      cases hparse : Question.parse (memoryOf d) 12 (d.length - MessageHeader.size) []
          (UInt16.ofNat (resize [] MessageHeader.size).length) with
      | ok r =>
        obtain ⟨q, hq⟩ := question_parse_first hparse
        rw [MessageHeader.size, readBytes_body h12] at hq
        exact absurd hq (hnone q)
      | error e =>
        have hfault := question_fails _ _ _ _ e hparse
        refine ⟨e, _, bind_error (ofExcept_apply _ _), ?_, hfault.caught⟩
        rintro what rfl
        obtain ⟨type, htype, what', he⟩ := hfault
        cases he
        revert htype
        decide
  have hfail : parseQuestions (memoryOf d) d.length header ⟨[], [], 0, resize [] MessageHeader.size⟩ =
      (.error e, s) := by
    rw [parseQuestions, hk, forM_range_succ, bind_error hround]
  exact ⟨e, s, hfail, parseQuestions_formatError h12 hfail hclass, hcaught⟩

/-! ## Questions that lead to nothing -/

section

variable {limit : Option ℕ} {question : Question} {z : ZonePtr} {soaZone : Option ZonePtr} {au : Bool}

theorem store_soa_error {hole : List ℕ} {w : Wire} {p : UInt16} {ls : List Label} {s : ZonePtr}
    (hw : Open hole w) (hat : StoredAt (known hole w.buffer) p ls) (hsoa : s.zone.soa.isSome = true)
    (hns : s.zone.ns = []) :
    ∃ w', store limit (.soa (.namePtr p) s) w =
      (.error (warThrow .outOfRange "vector::_M_range_check"), w') := by
  obtain ⟨soa, hsoa⟩ := Option.isSome_iff_exists.mp hsoa
  obtain ⟨ob, labels, hheader, -⟩ := writeHeader_spec hw (.namePtr hat) 6 0
  have hdata : ∀ w', writeSoaData s w' = (.error (warThrow .outOfRange "vector::_M_range_check"), w') := by
    intro w'
    rw [writeSoaData, bind_ok (Wire.size_apply w'), hsoa]
    dsimp only
    rw [getMname, hns]
    exact bind_error (ofExcept_apply _ w')
  exact ⟨_, bind_error ((bind_ok hheader).trans (bind_error (hdata _)))⟩

theorem processQtype_soa_error {hole : List ℕ} {o : Outgoing} {ls : List Label} (h6 : question.qtype = 6)
    (hw : Open hole o.wire) (hat : StoredAt (known hole o.wire.buffer) question.offset ls)
    (hsoa : ∀ s, soaZone = some s → s.zone.soa.isSome = true) (hns : (soaZone.getD noZone).zone.ns = [])
    (t : Referrals) : ∃ ex x,
      processQtype limit zones question z soaZone (o, t) = (.error (.raised ex), x) ∧
      ex.type ≠ .truncated ∧ catchClause ex.type = some (.serverFailure, false) := by
  unfold processQtype
  rw [h6, if_neg (by decide), if_neg (by decide), if_pos rfl]
  cases soaZone with
  | none => exact ⟨_, _, rfl, by decide, rfl⟩
  | some s =>
    obtain ⟨w', hstore⟩ := @store_soa_error limit _ _ _ _ s hw hat (hsoa s rfl) hns
    have hstoreIn : storeIn limit (.answer, .soa (.namePtr question.offset) s) o =
        (.error (warThrow .outOfRange "vector::_M_range_check"), { o with wire := w' }) := by
      rw [storeIn, hstore]
    exact ⟨_, _, bind_error (onFst_apply hstoreIn), by decide, rfl⟩

theorem answer_error {rest : List Question} {e : Fault} {x x' : Outgoing × Referrals}
    (h : processQuestion limit zones question x = (.error e, x')) :
    answer limit zones (question :: rest) x = (.error e, x') := by
  rw [answer, forM_cons]
  exact bind_error (bind_error h)

theorem processQuestions_error {header : MessageHeader} {mem : Memory} {n : ℕ} {b : Bytes} {s : Parsed}
    {e : Fault} {x : Outgoing × Referrals}
    (hparse : parseQuestions mem n header ⟨[], [], 0, resize b MessageHeader.size⟩ = (.ok (), s))
    (h : answer limit zones s.questions ({ wire := ⟨s.replyBuffer, []⟩ }, {}) = (.error e, x))
    (he : ∀ ex, e = .raised ex → ex.type ≠ .truncated) :
    ∃ b', processQuestions limit zones mem n header b = (.error e, b') := by
  rw [processQuestions, hparse]
  simp only [h]
  cases e with
  | raised ex => exact ⟨x.1.wire.buffer, by simp only [if_neg (he ex rfl)]⟩
  | diverged => exact ⟨_, rfl⟩
  | wildRead => exact ⟨_, rfl⟩

end

/-! ## The daemon -/

section

variable {mem : Memory} {n : ℕ} {header : MessageHeader}

theorem shows_reply {reply : Bytes} {full : Message} {j : ℕ}
    (hreply : processQuestions (some maxReplyBuffer) zones mem n header [] = (.ok (), reply))
    (hlen : reply.length ≤ maxReplyBuffer) (hdecode : decode reply = some (full.cut j))
    (hmost : ∀ i ≤ full.records.length, (full.cut i).encode.length ≤ maxReplyBuffer → i ≤ j) :
    Shows (outcomeOf header (.ok (), reply)) (.message full) := by
  have hne : reply.isEmpty = false := by
    obtain ⟨num, truncated, o, t, body, rfl⟩ := processQuestions_header hreply
    rfl
  rw [outcomeOf, hne]
  exact .message j hlen hdecode hmost

theorem outcome_parse_error {ex : Exception} {s : Parsed} {code : Rcode} {bad : Bool}
    (hfail : parseQuestions mem n header ⟨[], [], 0, resize [] MessageHeader.size⟩ =
      (.error (.raised ex), s))
    (hcatch : catchClause ex.type = some (code, bad)) :
    outcomeOf header (processQuestions (some maxReplyBuffer) zones mem n header []) =
      .sent (errorHeader code header).octets := by
  rw [processQuestions, hfail]
  dsimp only
  rw [outcomeOf, hcatch]

theorem shows_parse_error {ex : Exception} {s : Parsed} {code : Rcode} {bad : Bool}
    (hfail : parseQuestions mem n header ⟨[], [], 0, resize [] MessageHeader.size⟩ =
      (.error (.raised ex), s))
    (hcatch : catchClause ex.type = some (code, bad)) :
    Shows (outcomeOf header (processQuestions (some maxReplyBuffer) zones mem n header []))
      (.message (errorMessage code header.toHeader)) := by
  rw [outcome_parse_error hfail hcatch]
  exact shows_error code header

theorem parseQuestions_refused (hqd : header.qdcount ≠ 0)
    (hq : QuestionAtStart (readBytes mem 12 (n - 12)) q) (hclass : ¬ (q.qclass = 1 ∨ q.qclass = 255)) :
    ∃ s, parseQuestions mem n header ⟨[], [], 0, resize [] MessageHeader.size⟩ =
      (.error (warThrow .refused "Unsupported Qclass"), s) := by
  have hlen := hq.begins.length_le
  rw [length_readBytes, length_encodeQuestion] at hlen
  obtain ⟨k, hk⟩ : ∃ k, header.qdcount.toNat = k + 1 :=
    Nat.exists_eq_succ_of_ne_zero fun h => hqd (UInt16.toNat_inj.mp h)
  obtain ⟨s, hround⟩ := questionRound_refused (by omega) hq hclass ⟨[], [], 0, resize [] MessageHeader.size⟩
  exact ⟨s, by rw [parseQuestions, hk, forM_range_succ, bind_error hround]⟩

theorem processQuestions_empty (hqd : header.qdcount = 0) : ∃ reply j,
    processQuestions (some maxReplyBuffer) zones mem n header [] = (.ok (), reply) ∧
    reply.length ≤ maxReplyBuffer ∧
    decode reply =
      some ((Message.ofSections header.id (answerFlags true header.flags) [] [] [] []).cut j) := by
  have hparse : parseQuestions mem n header ⟨[], [], 0, resize [] MessageHeader.size⟩ =
      (.ok (), ⟨[], [], 0, List.replicate 12 0⟩) := by
    rw [parseQuestions, hqd]
    rfl
  obtain ⟨reply, j, hreply, hlen, hdecode, -⟩ :=
    @reply_cut zones _ _ _ _ (List.replicate 12 0) _ _ true [] [] [] [] hparse rfl rfl
      (fun q h => absurd h List.not_mem_nil) rfl rfl .nil .nil .nil fun r o t hrun => by cases hrun; rfl
  exact ⟨reply, j, hreply, hlen, hdecode⟩

theorem shows_empty (hqd : header.qdcount = 0) :
    Shows (outcomeOf header (processQuestions (some maxReplyBuffer) zones mem n header []))
      (.message (.ofSections header.id (answerFlags true header.flags) [] [] [] [])) := by
  obtain ⟨reply, j, hreply, hlen, hdecode⟩ := @processQuestions_empty zones mem n header hqd
  rw [hreply]
  exact shows_reply hreply hlen hdecode fun i hi _ => hi.trans (Nat.zero_le j)

/-- **What processing a question leads to**, as far as the zone it is about tells. -/
inductive Processes (zones : List Zone) (header : MessageHeader) (q : Rfc1035.Question) :
    Except Fault Unit × Bytes → Prop
  | missing {au : Bool} {b : Bytes} : lookup zones q.name = (none, au) →
      Processes zones header q (.error (missing au), b)
  | endless {z : ZonePtr} {au : Bool} {b : Bytes} : lookup zones q.name = (some z, au) → ¬ Shallow z →
      Processes zones header q (.error .diverged, b)
  | failure {z : ZonePtr} {au : Bool} {ex : Exception} {b : Bytes} : lookup zones q.name = (some z, au) →
      Shallow z → q.qtype = 6 ∧ (z.governing.getD noZone).zone.ns = [] →
      catchClause ex.type = some (.serverFailure, false) → Processes zones header q (.error (.raised ex), b)
  | answered {z : ZonePtr} {au : Bool} {full : Message} {reply : Bytes} {j : ℕ} :
      lookup zones q.name = (some z, au) → Shallow z →
      ¬ (q.qtype = 6 ∧ (z.governing.getD noZone).zone.ns = []) →
      full = answerMessage zones header.toHeader header.qdcount.toNat q z (z.governing.getD noZone) →
      reply.length ≤ maxReplyBuffer → decode reply = some (full.cut j) →
      (∀ i ≤ full.records.length, (full.cut i).encode.length ≤ maxReplyBuffer → i ≤ j) →
      Processes zones header q (.ok (), reply)

theorem question_processes (hz : LegalForest zones) (hq : PlainQuestion mem n q) (hqd : header.qdcount ≠ 0)
    (hfit : 12 + header.qdcount.toNat * (encodeQuestion q).length < maxReplyBuffer) :
    Processes zones header q (processQuestions (some maxReplyBuffer) zones mem n header []) := by
  obtain ⟨s, hparse, hcopies⟩ := parseQuestions_copies hq rfl hfit
  have hne : s.questions ≠ [] := by
    intro hnil
    have hlen := hcopies.length
    rw [hnil] at hlen
    exact hqd (UInt16.toNat_inj.mp hlen.symm)
  obtain ⟨question, rest, hquestions⟩ := List.exists_cons_of_ne_nil hne
  obtain ⟨hcontent, hat⟩ := hcopies.asks question (by rw [hquestions]; exact List.mem_cons_self)
  have hname : question.getLabels = q.name := congrArg Rfc1035.Question.name hcontent
  -- what the first question raises is raised by the second pass
  have hraises : ∀ {e : Fault} {x : Outgoing × Referrals},
      processQuestion (some maxReplyBuffer) zones question ({ wire := ⟨s.replyBuffer, []⟩ }, {}) =
        (.error e, x) → (∀ ex, e = .raised ex → ex.type ≠ .truncated) →
      ∃ b', processQuestions (some maxReplyBuffer) zones mem n header [] = (.error e, b') := fun h he =>
    processQuestions_error hparse (by rw [hquestions]; exact answer_error h) he
  rcases hl : lookup zones q.name with ⟨- | z, au⟩
  · have hmissing : ∀ x,
        processQuestion (some maxReplyBuffer) zones question x = (.error (missing au), x) := by
      intro x
      rw [processQuestion, hname, hl]
      cases au <;> rfl
    obtain ⟨b', hrun⟩ := hraises (hmissing _) (by cases au <;> rintro ex ⟨⟩ <;> decide)
    rw [hrun]
    exact .missing hl
  by_cases hshallow : Shallow z
  swap
  · have hdiverged : ∀ x,
        processQuestion (some maxReplyBuffer) zones question x = (.error .diverged, x) := by
      intro x
      rw [processQuestion, hname, hl]
      dsimp only
      rw [getSoaZone_of_not_shallow hshallow]
      exact bind_error (ofExcept_apply _ x)
    obtain ⟨b', hrun⟩ := hraises (hdiverged _) (by rintro ex ⟨⟩)
    rw [hrun]
    exact .endless hl hshallow
  have hs := getSoaZone_of_shallow hshallow
  by_cases h6 : q.qtype = 6 ∧ (z.governing.getD noZone).zone.ns = []
  · obtain ⟨t', hwhen⟩ : ∃ t', Proc.when (!z.governing.any (·.zone.authorative))
        (refer fun t => { t with authorative := false }) ({ wire := ⟨s.replyBuffer, []⟩ }, {}) =
        (.ok (), ({ wire := ⟨s.replyBuffer, []⟩ }, t')) := by
      unfold Proc.when
      split_ifs
      · exact ⟨_, rfl⟩
      · exact ⟨_, rfl⟩
    obtain ⟨h12, h512⟩ := parseQuestions_length hparse
    have hopen : Open headerHole ⟨s.replyBuffer, []⟩ :=
      ⟨fun l hl => (by cases hl), Nat.le_trans (Nat.le_of_lt h512) (by decide), fun i hi => by
        have := List.mem_range.mp hi
        simp only
        omega⟩
    have hqtype : question.qtype = 6 := (congrArg Rfc1035.Question.qtype hcontent).trans h6.1
    have hsoa : ∀ g, z.governing = some g → g.zone.soa.isSome = true := by
      intro g hg
      rw [hg] at hs
      obtain ⟨soa, hsoa⟩ := (getSoaZone_spec hs).1
      rw [hsoa]
      rfl
    obtain ⟨ex, x, hraised, htype, hcatch⟩ :=
      @processQtype_soa_error zones (some maxReplyBuffer) question z _ _ { wire := ⟨s.replyBuffer, []⟩ } _
        hqtype hopen hat hsoa h6.2 t'
    have hl' : lookup zones question.getLabels = (some z, au) := hname ▸ hl
    have hfound : processQuestion (some maxReplyBuffer) zones question = _ := processQuestion_found hl' hs
    obtain ⟨b', hrun⟩ := hraises (by rw [hfound, bind_ok hwhen]; exact bind_error hraised)
      (by rintro _ ⟨⟩; exact htype)
    rw [hrun]
    exact .failure hl hshallow h6 hcatch
  · have hasks : ∀ question ∈ s.questions, question.content = q ∧
        NamedAt s.replyBuffer question.offset q.name := fun question hmem =>
      ⟨(hcopies.asks question hmem).1, (hcopies.asks question hmem).2, hq.name.ne_nil⟩
    obtain ⟨R, hR, han, hns, har⟩ := records_copies hz hne hasks hl hs fun h => fun hnil => h6 ⟨h, hnil⟩
    rw [hcopies.length] at han
    have hnum : s.numQuestions.toNat = (List.replicate header.qdcount.toNat q).length := by
      rw [hcopies.numQuestions, UInt16.ofNat_toNat, List.length_replicate]
    have hfits : ∀ q' ∈ List.replicate header.qdcount.toNat q, Fit q'.name := fun q' hmem => by
      rw [List.eq_of_mem_replicate hmem]
      exact hq.name.fit
    obtain ⟨reply, j, hreply, hlen, hdecode, hmost⟩ := reply_cut hparse hcopies.buffer
      (List.length_replicate) hfits hnum hR han hns har fun r o t hrun =>
        authorative_copies hne (fun question hmem => (hasks question hmem).1) hl hs hrun
    rw [hreply]
    exact .answered hl hshallow h6 rfl hlen hdecode hmost

theorem shows_question (hz : LegalForest zones) (hq : PlainQuestion mem n q) (hqd : header.qdcount ≠ 0)
    (hfit : 12 + header.qdcount.toNat * (encodeQuestion q).length < maxReplyBuffer) :
    Shows (outcomeOf header (processQuestions (some maxReplyBuffer) zones mem n header []))
      (reactTo zones header.toHeader header.qdcount.toNat q) := by
  have hprocesses := question_processes hz hq hqd hfit
  unfold reactTo
  generalize hrun : processQuestions (some maxReplyBuffer) zones mem n header [] = r at hprocesses ⊢
  cases hprocesses with
  | @missing au b hl =>
    rw [hl]
    cases au with
    | false => exact .silent
    | true => exact shows_error .nameError header
  | endless hl hshallow =>
    rw [hl]
    dsimp only
    rw [if_pos hshallow]
    exact .hangs
  | failure hl hshallow h6 hcatch =>
    rw [hl, outcomeOf, hcatch]
    dsimp only
    rw [if_neg (not_not_intro hshallow), if_pos h6]
    exact shows_error .serverFailure header
  | answered hl hshallow h6 hfull hlen hdecode hmost =>
    rw [hl]
    dsimp only
    rw [if_neg (not_not_intro hshallow), if_neg h6, ← hfull]
    exact shows_reply hrun hlen hdecode hmost

end

/-- **The daemon shows the reaction to every datagram.** -/
theorem replyTo_shows (hz : LegalForest zones) (hd : d.length ≤ maxQueryBuffer) :
    Shows (replyTo zones d) (reaction zones d) := by
  cases hh : MessageHeader.ofBuffer (memoryOf d) d.length with
  | error e =>
    rw [replyTo_underflow hd hh, reaction, readHeader_none hh]
    exact .silent
  | ok header =>
    rw [replyTo_of_header hd hh, reaction, readHeader_some hh, processOpcode]
    dsimp only
    have hqr' : header.toHeader.flags &&& 0x8000 ≠ 0 ↔ header.getQr = true := by
      rw [MessageHeader.getQr, getFlag, bne_iff_ne]
      exact Iff.rfl
    have hopcode' : (header.toHeader.flags >>> 11) &&& 0xF ≠ 0 ↔ header.getOpcode ≠ 0 := Iff.rfl
    by_cases hqr : header.getQr = true
    · rw [if_pos hqr, if_pos (hqr'.mpr hqr)]
      exact shows_error .formatError header
    rw [if_neg hqr, if_neg (hqr'.not.mpr hqr)]
    by_cases hopcode : header.getOpcode = 0
    swap
    · rw [if_neg hopcode, if_pos (hopcode'.mpr hopcode), createErrorReply_eq]
      exact shows_error .notImplemented header
    rw [if_pos hopcode, if_neg (hopcode'.not.mpr (not_not_intro hopcode))]
    by_cases hqd : header.qdcount = 0
    · rw [if_pos (show header.toHeader.qdcount = 0 from hqd)]
      exact shows_empty hqd
    rw [if_neg (show ¬ header.toHeader.qdcount = 0 from hqd)]
    obtain ⟨h12, -⟩ := MessageHeader.holds_of_ofBuffer hh
    have hbody := readBytes_body h12
    cases hq : questionOf d with
    | none =>
      obtain ⟨e, s, hfail, hformat, ex, bad, rfl, hcatch⟩ := parse_no_question hh hqd fun q hstart => by
        rw [questionOf_eq_some.mpr ⟨h12, hstart⟩] at hq
        cases hq
      by_cases hr : Reported (memoryOf d) d.length
      · rw [if_pos (hformat.mpr hr)] at hcatch
        rw [if_pos hr]
        exact shows_parse_error hfail hcatch
      · rw [if_neg (hformat.not.mpr hr)] at hcatch
        rw [if_neg hr]
        exact shows_parse_error hfail hcatch
    | some q =>
      obtain ⟨-, hstart⟩ := questionOf_eq_some.mp hq
      rw [← hbody] at hstart
      dsimp only
      by_cases hclass : q.qclass = 1 ∨ q.qclass = 255
      swap
      · obtain ⟨s', hfail⟩ := parseQuestions_refused hqd hstart hclass
        rw [if_pos hclass]
        exact shows_parse_error hfail rfl
      rw [if_neg (not_not_intro hclass)]
      have hplain : PlainQuestion (memoryOf d) d.length q := (plainQuestion_iff h12).mpr ⟨hstart, hclass⟩
      by_cases hfit : 512 ≤ 12 + header.qdcount.toNat * (encodeQuestion q).length
      · obtain ⟨s', hfail⟩ := rounds_error hplain (s := ⟨[], [], 0, resize [] MessageHeader.size⟩)
          (Nat.pos_of_ne_zero fun h => hqd (UInt16.toNat_inj.mp h)) hfit
        rw [if_pos (show 512 ≤ 12 + header.toHeader.qdcount.toNat * _ from hfit)]
        exact shows_parse_error hfail rfl
      · rw [if_neg (show ¬ 512 ≤ 12 + header.toHeader.qdcount.toNat * _ from hfit)]
        exact shows_question hz hplain hqd (Nat.lt_of_not_le hfit)

/-! ## Runs -/

/-- The reaction comes to an end. -/
def Reaction.ends : Reaction → Bool
  | .hangs => false
  | _ => true

theorem Shows.ends {o : Outcome} {r : Reaction} (h : Shows o r) : decide (o ≠ .stuck) = r.ends := by
  cases h <;> rfl

theorem shows_takeWhile : ∀ {os : List Outcome} {rs : List Reaction}, List.Forall₂ Shows os rs →
    List.Forall₂ Shows (os.takeWhile (· ≠ .stuck)) (rs.takeWhile Reaction.ends)
  | [], _, .nil => .nil
  | o :: os, r :: rs, .cons h hrest => by
    have hends := h.ends
    rw [List.takeWhile_cons, List.takeWhile_cons, hends]
    split
    · exact .cons h (shows_takeWhile hrest)
    · exact .nil

/-- **The receive loop is a name server.** In every run, whatever is in the buffers and in memory behind
them, what is sent shows the reaction to each datagram in turn, up to one that is never done with. -/
theorem run_shows (hz : LegalForest zones) (queryBuffer : Memory) (replyBuffer : Bytes)
    (arrivals : List Arrival) : List.Forall₂ Shows
      (Run.run (ReceiveLoop.handle zones) ⟨queryBuffer, replyBuffer, {}, false, []⟩ arrivals).outcomes
      ((arrivals.map fun a => reaction zones (a.datagram.take maxQueryBuffer)).takeWhile Reaction.ends) := by
  rw [outcomes_run arrivals rfl]
  exact shows_takeWhile (forall₂_map fun a _ => replyTo_shows hz (List.length_take_le _ _))

/-- The addresses of `a` are asked for, and then a response is received. -/
theorem run_shows_a : List.Forall₂ Shows
    (Run.run (ReceiveLoop.handle [zoneA]) ⟨fun _ => 0, [], {}, false, []⟩
      [⟨queryOctets ⟨7, 0, 1, 0, 0, 0⟩ [⟨[[97]], 1, 1⟩], fun _ => 0⟩,
        ⟨queryOctets ⟨8, 0x8000, 0, 0, 0, 0⟩ [], fun _ => 0⟩]).outcomes
    [.message (answerMessage [zoneA] ⟨7, 0, 1, 0, 0, 0⟩ 1 ⟨[[97]], 1, 1⟩ ⟨zoneA, [], [0]⟩ ⟨zoneA, [], [0]⟩),
      .message (errorMessage .formatError ⟨8, 0x8000, 0, 0, 0, 0⟩)] := by
  have hlegal : LegalForest [zoneA] := fun z hz => by
    rw [reached_zoneA hz]
    constructor <;> decide +kernel
  have hshallow : Shallow ⟨zoneA, [], [0]⟩ := .inl rfl
  have hfirst : reaction [zoneA] ((queryOctets ⟨7, 0, 1, 0, 0, 0⟩ [⟨[[97]], 1, 1⟩]).take maxQueryBuffer) =
      .message (answerMessage [zoneA] ⟨7, 0, 1, 0, 0, 0⟩ 1 ⟨[[97]], 1, 1⟩ ⟨zoneA, [], [0]⟩ ⟨zoneA, [], [0]⟩) := by
    have hheader : readHeader ((queryOctets ⟨7, 0, 1, 0, 0, 0⟩ [⟨[[97]], 1, 1⟩]).take maxQueryBuffer) =
        some ⟨7, 0, 1, 0, 0, 0⟩ := by decide +kernel
    have hquestion : questionOf ((queryOctets ⟨7, 0, 1, 0, 0, 0⟩ [⟨[[97]], 1, 1⟩]).take maxQueryBuffer) =
        some ⟨[[97]], 1, 1⟩ := by decide +kernel
    rw [reaction, hheader]
    dsimp only
    rw [if_neg (by decide), if_neg (by decide), if_neg (by decide), hquestion]
    dsimp only
    rw [if_neg (by decide), if_neg (by decide), reactTo,
      show lookup [zoneA] [[97]] = (some ⟨zoneA, [], [0]⟩, true) from rfl]
    dsimp only
    rw [if_neg (not_not_intro hshallow), if_neg (by decide)]
    rfl
  have hsecond : reaction [zoneA] ((queryOctets ⟨8, 0x8000, 0, 0, 0, 0⟩ []).take maxQueryBuffer) =
      .message (errorMessage .formatError ⟨8, 0x8000, 0, 0, 0, 0⟩) := by
    have hheader : readHeader ((queryOctets ⟨8, 0x8000, 0, 0, 0, 0⟩ []).take maxQueryBuffer) =
        some ⟨8, 0x8000, 0, 0, 0, 0⟩ := by decide +kernel
    rw [reaction, hheader]
    exact if_pos (by decide)
  have hrun := run_shows hlegal (fun _ => 0) [] [⟨queryOctets ⟨7, 0, 1, 0, 0, 0⟩ [⟨[[97]], 1, 1⟩], fun _ => 0⟩,
    ⟨queryOctets ⟨8, 0x8000, 0, 0, 0, 0⟩ [], fun _ => 0⟩]
  rw [List.map_cons, List.map_cons, List.map_nil, hfirst, hsecond] at hrun
  exact hrun

end VUbercool.Dns
