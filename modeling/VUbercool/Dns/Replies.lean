import VUbercool.Dns.Frame
import VUbercool.Dns.LabelHeader

/-!
# What is sent

* `sent_spec`: a reply that is sent is a bare header that tells an error, or `ProcessQuestions` built it.
* `reply_atomic`: **error replies are atomic**, and every reply has the ID, the opcode and the RD bit of
  the query.
* `receive_response`: a response is answered with a format error.
* `exchange_endless`: two servers that get each other's replies never stop.
-/

namespace VUbercool.Dns

open Octets

variable {zones : List Zone} {queryBuffer : Memory} {datagram reply : Bytes}

/-! ## Headers of replies -/

theorem createErrorReply_eq (code : Rcode) (hdr : MessageHeader) (b : Bytes) :
    createErrorReply code hdr b = (errorHeader code hdr).octets := by
  have h : (resize b MessageHeader.size).drop MessageHeader.size = [] :=
    List.drop_of_length_le (by simp)
  rw [createErrorReply, MessageHeader.write, h, List.append_nil]

/-- **A header that answers `header`**: a response with its ID, its opcode and its RD bit. -/
structure Answers (header h : MessageHeader) : Prop where
  id : h.id = header.id
  qr : h.getQr = true
  opcode : h.getOpcode = header.getOpcode
  rd : h.getRd = header.getRd

theorem answers_errorHeader (code : Rcode) (header : MessageHeader) :
    Answers header (errorHeader code header) where
  id := rfl
  qr := (getFlag_congr (MessageHeader.setRcode_and _ (by decide) code)).trans
    (getFlag_setFlag (by decide) true header.flags)
  opcode := MessageHeader.getOpcode_congr <|
    (MessageHeader.setRcode_and _ (by decide) code).trans (setFlag_and (by decide) _ _)
  rd := getFlag_congr <|
    (MessageHeader.setRcode_and _ (by decide) code).trans (setFlag_and (by decide) _ _)

theorem replyHeader_and {field : UInt16}
    (h9 : (1 : UInt16) <<< (9 : UInt16) &&& field = 0)
    (h15 : (1 : UInt16) <<< (15 : UInt16) &&& field = 0)
    (h7 : (1 : UInt16) <<< (7 : UInt16) &&& field = 0)
    (h10 : (1 : UInt16) <<< (10 : UInt16) &&& field = 0)
    (header : MessageHeader) (num : UInt16) (truncated : Bool) (o : Outgoing) (t : Referrals) :
    (replyHeader header num truncated o t).flags &&& field = header.flags &&& field :=
  (setFlag_and h10 _ _).trans <| (setFlag_and h7 _ _).trans <| (setFlag_and h15 _ _).trans <|
    setFlag_and h9 _ _

theorem answers_replyHeader (header : MessageHeader) (num : UInt16) (truncated : Bool) (o : Outgoing)
    (t : Referrals) : Answers header (replyHeader header num truncated o t) where
  id := rfl
  qr := (getFlag_setFlag_of_ne (by decide) _ _).trans <| (getFlag_setFlag_of_ne (by decide) _ _).trans <|
    getFlag_setFlag (by decide) _ _
  opcode := MessageHeader.getOpcode_congr (replyHeader_and (by decide) (by decide) (by decide)
    (by decide) ..)
  rd := getFlag_congr (replyHeader_and (by decide) (by decide) (by decide)
    (by decide) ..)

/-! ## Replies -/

theorem catchClause_ne_ok {type : ExceptionType} {code : Rcode} {bad : Bool}
    (h : catchClause type = some (code, bad)) : code ≠ .ok := by
  cases type <;> cases h <;> decide

theorem catchClause_none {type : ExceptionType} (h : catchClause type = none) :
    type = .unknownDomain := by
  cases type <;> first | rfl | cases h

theorem caught_or_passed (r : Except Fault Unit) :
    (∃ ex c, r = .error (.raised ex) ∧ catchClause ex.type = some c) ∨
      ∀ ex, r = .error (.raised ex) → catchClause ex.type = none := by
  by_cases h : ∃ ex c, r = .error (.raised ex) ∧ catchClause ex.type = some c
  · exact .inl h
  · exact .inr fun ex hr => Option.eq_none_iff_forall_ne_some.mpr fun c hc => h ⟨ex, c, hr, hc⟩

section

variable {query : Memory} {n : ℕ} {header : MessageHeader} {b : Bytes}
  (hh : MessageHeader.ofBuffer query n = .ok header)

include hh

theorem processsQuerey_caught {ex : Exception} {code : Rcode} {bad : Bool}
    (hop : processOpcode zones query n header [] = (.error (.raised ex), b))
    (hc : catchClause ex.type = some (code, bad)) : processsQuerey zones query n =
      ⟨.ok (), (errorHeader code header).octets, if bad then .bad else .unset⟩ := by
  rw [processsQuerey, hh]
  dsimp only
  rw [resize_zero, hop]
  dsimp only
  rw [hc]
  exact congrArg (fun b => (⟨.ok (), b, _⟩ : Processed)) (createErrorReply_eq _ _ _)

theorem processsQuerey_passed {r : Except Fault Unit}
    (hop : processOpcode zones query n header [] = (r, b))
    (hr : ∀ ex, r = .error (.raised ex) → catchClause ex.type = none) :
    processsQuerey zones query n = ⟨r, b, .unset⟩ := by
  rw [processsQuerey, hh]
  dsimp only
  rw [resize_zero, hop]
  split
  · next ex _ heq =>
    cases heq
    rw [hr ex rfl]
  · next heq =>
    cases heq
    rfl

end

/-- What a query whose header is parsed leads to, from what its `try` block leads to: the reply that was
built, or the error reply of a `catch` clause. -/
def outcomeOf (header : MessageHeader) : Except Fault Unit × Bytes → Outcome
  | (.ok (), reply) => if reply.isEmpty then .silent else .sent reply
  | (.error (.raised ex), _) =>
    match catchClause ex.type with
    | some (code, _) => .sent (errorHeader code header).octets
    | none => .silent
  | (.error _, _) => .stuck

theorem receive_underflow {e : Fault}
    (h : MessageHeader.ofBuffer (received queryBuffer datagram) (datagram.take maxQueryBuffer).length =
      .error e) : (receive zones queryBuffer datagram).outcome = .silent := by
  obtain ⟨ex, rfl⟩ : ∃ ex, e = .raised ex := by
    rw [MessageHeader.ofBuffer] at h
    split_ifs at h
    cases h
    exact ⟨_, rfl⟩
  have hp : processsQuerey zones (received queryBuffer datagram) (datagram.take maxQueryBuffer).length =
      ⟨.error (.raised ex), [], .unset⟩ := by
    rw [processsQuerey, h]
    rfl
  rw [receive, hp]
  by_cases hex : ex.type = .unknownDomain
  · simp only [if_pos hex]
  · simp only [if_neg hex, List.isEmpty_nil, if_true]

theorem receive_outcome {header : MessageHeader}
    (h : MessageHeader.ofBuffer (received queryBuffer datagram) (datagram.take maxQueryBuffer).length =
      .ok header) : (receive zones queryBuffer datagram).outcome = outcomeOf header
        (processOpcode zones (received queryBuffer datagram) (datagram.take maxQueryBuffer).length header
          []) := by
  rcases hop : processOpcode zones (received queryBuffer datagram) (datagram.take maxQueryBuffer).length
    header [] with ⟨(ex | - | -) | u, b⟩
  · cases hc : catchClause ex.type with
    | some c =>
      rw [receive, processsQuerey_caught h hop hc]
      simp only [outcomeOf, hc]
      rfl
    | none =>
      rw [receive, processsQuerey_passed h hop fun _ heq => by cases heq; exact hc]
      simp only [outcomeOf, hc, if_pos (catchClause_none hc)]
  · rw [receive, processsQuerey_passed h hop fun _ heq => by cases heq]
    rfl
  · rw [receive, processsQuerey_passed h hop fun _ heq => by cases heq]
    rfl
  · rw [receive, processsQuerey_passed h hop fun _ heq => by cases heq]
    simp only [outcomeOf]
    split_ifs <;> rfl

theorem receive_standard {header : MessageHeader}
    (h : MessageHeader.ofBuffer (received queryBuffer datagram) (datagram.take maxQueryBuffer).length =
      .ok header) (hqr : header.getQr = false) (hopcode : header.getOpcode = 0) :
    (receive zones queryBuffer datagram).outcome = outcomeOf header (processQuestions
      (some maxReplyBuffer) zones (received queryBuffer datagram) (datagram.take maxQueryBuffer).length
      header []) := by
  rw [receive_outcome h, processOpcode, hqr, if_neg (by decide), if_pos hopcode]

theorem outcomeOf_sent {header : MessageHeader} {r : Except Fault Unit × Bytes}
    (h : outcomeOf header r = .sent reply) :
    (∃ code, code ≠ Rcode.ok ∧ reply = (errorHeader code header).octets) ∨ r = (.ok (), reply) := by
  rcases r with ⟨(ex | - | -) | u, b⟩
  · rw [outcomeOf] at h
    split at h
    · next hc =>
      cases h
      exact .inl ⟨_, catchClause_ne_ok hc, rfl⟩
    · cases h
  · cases h
  · cases h
  · rw [outcomeOf] at h
    split_ifs at h
    cases h
    exact .inr rfl

/-- **What is sent**: the query had a header, and the reply is a bare header with an error code, or it
was built by `ProcessQuestions`. -/
theorem sent_spec (h : (receive zones queryBuffer datagram).outcome = .sent reply) : ∃ header,
    MessageHeader.ofBuffer (received queryBuffer datagram) (datagram.take maxQueryBuffer).length =
      .ok header ∧
    ((∃ code, code ≠ Rcode.ok ∧ reply = (errorHeader code header).octets) ∨
      processQuestions (some maxReplyBuffer) zones (received queryBuffer datagram)
        (datagram.take maxQueryBuffer).length header [] = (.ok (), reply)) := by
  cases hh : MessageHeader.ofBuffer (received queryBuffer datagram)
      (datagram.take maxQueryBuffer).length with
  | error e =>
    rw [receive_underflow hh] at h
    cases h
  | ok header =>
    rw [receive_outcome hh] at h
    refine ⟨header, rfl, ?_⟩
    rcases outcomeOf_sent h with hcode | hbuilt
    · exact .inl hcode
    unfold processOpcode at hbuilt
    split_ifs at hbuilt
    · cases hbuilt
    · exact .inr hbuilt
    · cases hbuilt
      exact .inl ⟨.notImplemented, by decide, createErrorReply_eq _ _ _⟩

theorem processQuestions_header {limit : Option ℕ} {query : Memory} {n : ℕ} {header : MessageHeader}
    {b : Bytes} (h : processQuestions limit zones query n header b = (.ok (), reply)) :
    ∃ num truncated o t body, reply = (replyHeader header num truncated o t).octets ++ body := by
  obtain ⟨s, truncated, o, t, -, -, rfl⟩ := processQuestions_ok h
  exact ⟨_, truncated, o, t, _, rfl⟩

/-- **Error replies are atomic.** Where processing ends, nothing is sent; or the reply is a response
with the ID, the opcode and the RD bit of the query, and it has exactly the twelve octets of the header,
with an error code and without counts, or `ProcessQuestions` built it and raised nothing. -/
theorem reply_atomic (hlen : datagram.length ≤ maxQueryBuffer)
    (hends : (receive zones queryBuffer datagram).outcome ≠ .stuck) :
    (receive zones queryBuffer datagram).outcome = .silent ∨
    ∃ reply header h, (receive zones queryBuffer datagram).outcome = .sent reply ∧
      MessageHeader.ofBuffer (received queryBuffer datagram) datagram.length = .ok header ∧
      MessageHeader.ofBuffer (memoryOf reply) reply.length = .ok h ∧ Answers header h ∧
      ((reply.length = 12 ∧ h.getRcode ≠ 0 ∧ h.qdcount = 0 ∧ h.ancount = 0 ∧ h.nscount = 0 ∧
          h.arcount = 0) ∨
        (processQuestions (some maxReplyBuffer) zones (received queryBuffer datagram) datagram.length
          header [] = (.ok (), reply) ∧ h.getRcode = header.getRcode)) := by
  cases hout : (receive zones queryBuffer datagram).outcome with
  | silent => exact .inl rfl
  | stuck => exact absurd hout hends
  | sent reply =>
    obtain ⟨header, hh, hspec⟩ := sent_spec hout
    rw [List.take_of_length_le hlen] at hh hspec
    refine .inr ⟨reply, header, ?_⟩
    rcases hspec with ⟨code, hcode, rfl⟩ | hq
    · have hrcode : (errorHeader code header).getRcode = code.toUInt16 :=
        MessageHeader.getRcode_setRcode _ code
      have hne : code.toUInt16 ≠ 0 := by cases code <;> first | exact absurd rfl hcode | decide
      have hparse := MessageHeader.ofBuffer_append (errorHeader code header) []
      rw [List.append_nil] at hparse
      exact ⟨_, rfl, hh, hparse, answers_errorHeader code header,
        .inl ⟨rfl, by rwa [hrcode], rfl, rfl, rfl, rfl⟩⟩
    · obtain ⟨num, truncated, o, t, body, rfl⟩ := processQuestions_header hq
      exact ⟨_, rfl, hh, MessageHeader.ofBuffer_append _ body, answers_replyHeader .., .inr ⟨hq,
        replyHeader_and (by decide) (by decide) (by decide) (by decide) ..⟩⟩

/-- A query for the address of `b.a`. -/
def queryBA : Bytes := (⟨7, 0, 1, 0, 0, 0⟩ : MessageHeader).octets ++ [1, 98, 1, 97, 0, 0, 1, 0, 1]

/-- There is no zone `b.a`: the question was written to the buffer, and it is not in the reply. -/
theorem reply_atomic_nameError : ∃ reply header h,
    (receive [{ label := [97] }] (fun _ => 0) queryBA).outcome = .sent reply ∧
    MessageHeader.ofBuffer (received (fun _ => 0) queryBA) queryBA.length = .ok header ∧
    (processQuestions (some maxReplyBuffer) [{ label := [97] }] (received (fun _ => 0) queryBA)
      queryBA.length header []).2.length = 21 ∧
    MessageHeader.ofBuffer (memoryOf reply) reply.length = .ok h ∧ h.id = 7 ∧ reply.length = 12 ∧
    h.getRcode ≠ 0 ∧ h.qdcount = 0 ∧ h.ancount = 0 ∧ h.nscount = 0 ∧ h.arcount = 0 := by
  have hheader : MessageHeader.ofBuffer (received (fun _ => 0) queryBA) queryBA.length =
      .ok ⟨7, 0, 1, 0, 0, 0⟩ := by decide +kernel
  have hwritten : ((processQuestions (some maxReplyBuffer) [{ label := [97] }]
      (received (fun _ => 0) queryBA) queryBA.length ⟨7, 0, 1, 0, 0, 0⟩ []).2.length = 21) := by
    decide +kernel
  have herror : (processQuestions (some maxReplyBuffer) [{ label := [97] }]
      (received (fun _ => 0) queryBA) queryBA.length ⟨7, 0, 1, 0, 0, 0⟩ []).1 ≠ .ok () := by
    decide +kernel
  rcases @reply_atomic [{ label := [97] }] (fun _ => 0) queryBA (by decide) (by decide +kernel) with
    h | ⟨reply, header, h, hsent, hh, hparse, ha, hbare | ⟨hbuilt, -⟩⟩
  · exact absurd h (by decide +kernel)
  · cases hheader.symm.trans hh
    exact ⟨reply, _, h, hsent, hh, hwritten, hparse, ha.id, hbare⟩
  · cases hheader.symm.trans hh
    exact absurd (congrArg Prod.fst hbuilt) herror

/-! ## Responses -/

theorem holds_received {a : Bytes} (ha : a.length ≤ maxQueryBuffer) (queryBuffer : Memory)
    (body : Bytes) : Holds (received queryBuffer (a ++ body)) 0 a := by
  refine holds_of_forall fun i hi => ?_
  have h : ((a ++ body).take maxQueryBuffer)[i]? = some a[i] := by
    rw [List.getElem?_take_of_lt (by omega), List.getElem?_append_left hi, List.getElem?_eq_getElem hi]
  rw [received, Nat.zero_add, List.getD, h, Option.getD_some]

theorem prefix_received {a : Bytes} (queryBuffer : Memory) (datagram : Bytes)
    (ha : a.length ≤ (datagram.take maxQueryBuffer).length) :
    Holds (received queryBuffer datagram) 0 a ↔ a <+: datagram.take maxQueryBuffer := by
  have hall := holds_received (a := datagram.take maxQueryBuffer)
    ((List.length_take_le _ _)) queryBuffer (datagram.drop maxQueryBuffer)
  rw [List.take_append_drop] at hall
  constructor
  · intro h
    rw [← h, ← hall]
    obtain ⟨k, hk⟩ := Nat.exists_eq_add_of_le ha
    rw [hk, readBytes, readBytes, List.range_add, List.map_append]
    exact List.prefix_append _ _
  · rintro ⟨t, ht⟩
    rw [← ht, holds_append] at hall
    exact hall.1

theorem ofBuffer_received (hdr : MessageHeader) (queryBuffer : Memory) (body : Bytes) :
    MessageHeader.ofBuffer (received queryBuffer (hdr.octets ++ body))
      ((hdr.octets ++ body).take maxQueryBuffer).length = .ok hdr :=
  MessageHeader.ofBuffer_of_holds (holds_received (by rw [MessageHeader.length_octets]; decide) _ _) (by
    simp [maxQueryBuffer])

/-- **A response is answered** with a format error that has its ID and its flags. -/
theorem receive_response {hdr : MessageHeader} (hqr : hdr.getQr = true) (zones : List Zone)
    (queryBuffer : Memory) (body : Bytes) :
    (receive zones queryBuffer (hdr.octets ++ body)).outcome =
      .sent (errorHeader .formatError hdr).octets := by
  rw [receive_outcome (ofBuffer_received hdr queryBuffer body), processOpcode, if_pos hqr]
  rfl

theorem errorHeader_idem (code : Rcode) (hdr : MessageHeader) :
    errorHeader code (errorHeader code hdr) = errorHeader code hdr := by
  have h : ∀ f m low code : UInt16, ((((f ||| m) &&& ~~~low ||| code &&& low) ||| m) &&& ~~~low) |||
      code &&& low = (f ||| m) &&& ~~~low ||| code &&& low := by
    intro f m low code
    apply UInt16.toBitVec_inj.mp
    simp only [UInt16.toBitVec_and, UInt16.toBitVec_or, UInt16.toBitVec_not]
    ext i hi
    simp
    grind
  simp only [errorHeader, MessageHeader.setQr, MessageHeader.setRcode, MessageHeader.resetAllCounters,
    setFlag, if_true, clear_or, h]

/-- What is sent after `k` more rounds where a datagram goes to the first server, and what a server
sends to the next. Each server has its own zones, and its query buffer holds whatever it holds. -/
def exchange (servers : ℕ → List Zone × Memory) (datagram : Bytes) : ℕ → Outcome
  | 0 => (receive (servers 0).1 (servers 0).2 datagram).outcome
  | k + 1 =>
    match exchange servers datagram k with
    | .sent reply => (receive (servers (k + 1)).1 (servers (k + 1)).2 reply).outcome
    | outcome => outcome

/-- **An exchange between servers never ends.** A reply that is sent is a response; a server that gets
it sends a format error with its ID and its flags, and so does every server after it. -/
theorem exchange_endless {servers : ℕ → List Zone × Memory}
    (h : exchange servers datagram 0 = .sent reply) : ∃ hdr,
      MessageHeader.ofBuffer (memoryOf reply) reply.length = .ok hdr ∧ hdr.getQr = true ∧
      ∀ k, exchange servers datagram (k + 1) = .sent (errorHeader .formatError hdr).octets := by
  obtain ⟨header, -, hspec⟩ := sent_spec h
  obtain ⟨hdr, body, rfl, hqr⟩ : ∃ (hdr : MessageHeader) (body : Bytes),
      reply = hdr.octets ++ body ∧ hdr.getQr = true := by
    rcases hspec with ⟨code, -, rfl⟩ | hq
    · exact ⟨errorHeader code header, [], by simp, (answers_errorHeader code header).qr⟩
    · obtain ⟨num, truncated, o, t, body, rfl⟩ := processQuestions_header hq
      exact ⟨_, body, rfl, (answers_replyHeader header num truncated o t).qr⟩
  refine ⟨hdr, MessageHeader.ofBuffer_append hdr body, hqr, fun k => ?_⟩
  induction k with
  | zero =>
    rw [exchange, h]
    exact receive_response hqr _ _ body
  | succ k ih =>
    have hbounce := receive_response (answers_errorHeader .formatError hdr).qr
      (servers (k + 1 + 1)).1 (servers (k + 1 + 1)).2 []
    rw [errorHeader_idem, List.append_nil] at hbounce
    rw [exchange, ih]
    exact hbounce

/-- A server status request. -/
def statusRequest : Bytes := (⟨7, 0x1000, 0, 0, 0, 0⟩ : MessageHeader).octets

/-- The reply to a server status request is answered by a server without zones. -/
theorem response_not_dropped : ¬ ∀ (zones zones' : List Zone) (queryBuffer queryBuffer' : Memory)
    (datagram reply : Bytes), (receive zones queryBuffer datagram).outcome = .sent reply →
      (receive zones' queryBuffer' reply).outcome = .silent := by
  intro h
  have hsilent := h [] [] (fun _ => 0) (fun _ => 0) statusRequest
    (errorHeader .notImplemented ⟨7, 0x1000, 0, 0, 0, 0⟩).octets (by decide +kernel)
  exact absurd hsilent (by decide +kernel)

/-- The exchange that begins with a server status request. -/
theorem exchange_endless_status : ∃ hdr : MessageHeader, hdr.getQr = true ∧ ∀ k,
    exchange (fun _ => ([], fun _ => 0)) statusRequest (k + 1) =
      .sent (errorHeader .formatError hdr).octets := by
  obtain ⟨hdr, -, hqr, h⟩ := @exchange_endless statusRequest
    (errorHeader .notImplemented ⟨7, 0x1000, 0, 0, 0, 0⟩).octets (fun _ => ([], fun _ => 0))
    (by decide +kernel)
  exact ⟨hdr, hqr, h⟩

end VUbercool.Dns
