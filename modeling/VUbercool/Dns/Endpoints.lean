import VUbercool.Dns.Accounting
import VUbercool.Dns.NameServer
import VUbercool.Lib.Family

/-!
# The endpoints of the name server

The coroutines of `StartReceivingUdpAt` (`DnsDaemon.cpp`), one for each endpoint, on the threads of the
pipelines, in any order, with sends and receives that may fail.

* `Endpoint`, `Endpoint.resume`: a coroutine, and what it does when what it waits for ends.
* `DnsDaemon`, `DnsDaemon.step`: all of them, `UpdateStats` and the tasks of `AddStat`.
* `unknownNames_agree`: whether a name is unknown does not depend on what is in the buffers.
* `AsksUnknown`: a query for a name without a zone. `asksUnknown_eq`: these are counted in `unknown_names`.
* `Moves`: what a coroutine can do. `Keeps.moves`: it keeps its replies in order and counts what it does.
* **`queries_served`**: in every run each query is replied to once and in order, and counted.
* **`unknownNames_counted`**: in every run the queries for names without a zone are.
-/

namespace VUbercool.Dns

open Octets Rfc1035 Proc

/-! ## A coroutine -/

/-- What a coroutine waits for: a datagram, or that a reply is sent, while the request has a state. Or the
processing of a datagram does not end, or it has thrown. -/
inductive Waiting (α : Type)
  | receiving
  | sending (senderEndpoint : α) (state : RequestState)
  | stuck
  | ended

/-- How it ends. `behind` is what is in memory behind the query buffer. -/
inductive Completion (α : Type)
  | received (senderEndpoint : α) (datagram : Bytes) (behind : Memory)
  | sent
  | failed

/-- **A coroutine** with its buffers; and, for the record, what it was asked, and the replies that were sent
and those that were lost. -/
structure Endpoint (α : Type) where
  queryBuffer : Memory := fun _ => 0
  replyBuffer : Bytes := List.replicate maxReplyBuffer 0
  waiting : Waiting α := .receiving
  asked : List (α × Bytes) := []
  sent : List (α × Bytes) := []
  lost : List (RequestState × α × Bytes) := []

/-- What the destructor of `RequestStats` counts. -/
def RequestState.counted : RequestState → List (Counter × ℕ)
  | .sucess => [(.okRequests, 1)]
  | .ignore => []
  | .fail => [(.failedRequests, 1)]
  | .unset => [(.failedRequests, 1)]
  | .bad => [(.badRequests, 1)]

/-- What an exception in `ProcesssQuerey` adds to `unknown_names`. -/
def unknownIn : Except Fault Unit → ℕ
  | .error (.raised ex) => if ex.type = .unknownDomain ∨ ex.type = .unknownSubDomain then 1 else 0
  | _ => 0

/-- What `ProcesssQuerey` adds to `unknown_names`. -/
def unknownNames (zones : List Zone) (query : Memory) (queryLen : ℕ) : ℕ :=
  match MessageHeader.ofBuffer query queryLen with
  | .error _ => 0
  | .ok header => unknownIn (processOpcode zones query queryLen header []).1

namespace Endpoint

variable {α : Type}

/-- A datagram is received and processed. -/
def receive (zones : List Zone) (e : Endpoint α) (senderEndpoint : α) (a : Arrival) :
    Endpoint α × List (Counter × ℕ) :=
  let loop : ReceiveLoop := { queryBuffer := e.queryBuffer, replyBuffer := e.replyBuffer }
  let octets := a.datagram.take maxQueryBuffer
  let served := loop.served zones a
  let state := (loop.processed zones a).state
  let counted := [(.bytesReceived, octets.length),
    (.unknownNames, unknownNames zones (loop.query a) octets.length)]
  let e := { e with
    queryBuffer := served.queryBuffer
    replyBuffer := served.replyBuffer
    asked := e.asked ++ [(senderEndpoint, octets)] }
  match served.outcome with
  | .silent => (e, counted ++ state.counted)
  | .sent _ => ({ e with waiting := .sending senderEndpoint state }, counted)
  | .stuck => ({ e with waiting := .stuck }, counted)

/-- **The coroutine runs on**, when what it waits for has ended: a failure is thrown out of it. -/
def resume (zones : List Zone) (e : Endpoint α) (c : Completion α) : Endpoint α × List (Counter × ℕ) :=
  match e.waiting, c with
  | .receiving, .received senderEndpoint datagram behind =>
    e.receive zones senderEndpoint ⟨datagram, behind⟩
  | .receiving, .failed => ({ e with waiting := .ended }, [])
  | .sending senderEndpoint _, .sent =>
    ({ e with waiting := .receiving, sent := e.sent ++ [(senderEndpoint, e.replyBuffer)] },
      (.bytesSent, e.replyBuffer.length) :: RequestState.sucess.counted)
  | .sending senderEndpoint state, .failed =>
    ({ e with waiting := .ended, lost := e.lost ++ [(state, senderEndpoint, e.replyBuffer)] },
      state.counted)
  | _, _ => (e, [])

end Endpoint

/-! ## The daemon -/

/-- **The coroutines** of the endpoints, and the statistics. -/
structure DnsDaemon (n m : ℕ) (α : Type) where
  endpoints : Fin m → Endpoint α := fun _ => {}
  stats : Collection n := {}

/-- What may happen: a coroutine runs on, `UpdateStats` of a pipeline, a task of `AddStat`. -/
inductive DnsEvent (n m : ℕ) (α : Type)
  | resume (endpoint : Fin m) (c : Completion α)
  | updateStats (pipeline : Fin n)
  | deliver (task : ℕ)

namespace DnsDaemon

variable {n m : ℕ} {α : Type}

/-- The thread of a pipeline is in the processing of a datagram that does not end. -/
def hangs (pipeline : Fin m → Fin n) (d : DnsDaemon n m α) (p : Fin n) : Bool :=
  (List.finRange m).any fun i => pipeline i = p && match (d.endpoints i).waiting with
    | .stuck => true
    | _ => false

/-- **One step**. `pipeline` is what `GetAnyPipeline` chose for each endpoint. -/
def step (zones : List Zone) (pipeline : Fin m → Fin n) (d : DnsDaemon n m α) :
    DnsEvent n m α → DnsDaemon n m α
  | .resume i c =>
    if d.hangs pipeline (pipeline i) then d
    else
      let r := (d.endpoints i).resume zones c
      { endpoints := Function.update d.endpoints i r.1, stats := d.stats.count (pipeline i) .dns r.2 }
  | .updateStats p => if d.hangs pipeline p then d else { d with stats := d.stats.updateStats p .dns }
  | .deliver task => { d with stats := d.stats.deliver task }

end DnsDaemon

/-! ## Unknown names -/

section

variable {zones : List Zone} {mem mem' : Memory} {n : ℕ} {header : MessageHeader}

theorem unknownIn_caught {ex : Exception} {code : Rcode} {bad : Bool}
    (h : catchClause ex.type = some (code, bad)) (hcode : code ≠ .nameError) :
    unknownIn (.error (.raised ex)) = 0 := by
  refine if_neg ?_
  rintro (htype | htype)
  · rw [htype] at h
    cases h
  · rw [htype] at h
    cases h
    exact hcode rfl

theorem unknownIn_parse_error {ex : Exception} {s : Parsed} {code : Rcode} {bad : Bool}
    (hfail : parseQuestions mem n header ⟨[], [], 0, resize [] MessageHeader.size⟩ =
      (.error (.raised ex), s))
    (hcatch : catchClause ex.type = some (code, bad)) (hcode : code ≠ .nameError) :
    unknownIn (processQuestions (some maxReplyBuffer) zones mem n header []).1 = 0 := by
  rw [processQuestions, hfail]
  exact unknownIn_caught hcatch hcode

/-- **Whether a name is unknown** is determined by the octets received. -/
theorem unknownNames_agree (zones : List Zone) (hagree : Agree mem mem' (List.range n)) :
    unknownNames zones mem' n = unknownNames zones mem n := by
  unfold unknownNames
  rw [hagree.ofBuffer]
  cases hh : MessageHeader.ofBuffer mem n with
  | error e => rfl
  | ok header =>
    dsimp only
    rw [processOpcode, processOpcode]
    split_ifs
    · rfl
    · have hbehind : Agree mem mem' (List.range' 12 (n - 12)) := fun i hi =>
        hagree i (List.mem_range.mpr (by
          have := List.mem_range'_1.mp hi
          omega))
      rcases parseQuestions_agree (MessageHeader.holds_of_ofBuffer hh).1 hbehind rfl
        (resize [] MessageHeader.size) with hparse | ⟨ex, s, ex', s', hparse, hcatch, hparse', hcatch'⟩
      · rw [processQuestions, processQuestions, hparse]
      · -- both are server failures, and no name is looked up
        rw [unknownIn_parse_error hparse hcatch (by decide),
          unknownIn_parse_error hparse' hcatch' (by decide)]
    · rfl

/-- What a query adds to `unknown_names`. -/
def asksUnknown (zones : List Zone) (octets : Bytes) : ℕ :=
  unknownNames zones (received (fun _ => 0) octets) octets.length

theorem unknownNames_query (zones : List Zone) (s : ReceiveLoop) (a : Arrival) :
    unknownNames zones (s.query a) (a.datagram.take maxQueryBuffer).length =
      asksUnknown zones (a.datagram.take maxQueryBuffer) := by
  refine unknownNames_agree zones fun i hi => ?_
  have hlt := List.mem_range.mp hi
  rw [ReceiveLoop.query, received, received, List.take_take, Nat.min_self, List.getD, List.getD,
    List.getElem?_eq_getElem hlt, Option.getD_some, Option.getD_some]

/-- **A query for a name without a zone**: a standard query, whose first question is plain, fits as often as
it is announced and names no zone. -/
structure AsksUnknown (zones : List Zone) (d : Bytes) (h : Header) (q : Rfc1035.Question) : Prop where
  header : readHeader d = some h
  question : questionOf d = some q
  query : h.flags &&& 0x8000 = 0
  opcode : (h.flags >>> 11) &&& 0xF = 0
  qdcount : h.qdcount ≠ 0
  qclass : q.qclass = 1 ∨ q.qclass = 255
  fits : 12 + h.qdcount.toNat * (encodeQuestion q).length < 512
  lookup : (lookup zones q.name).1 = none

open Classical in
/-- **Unknown names are counted** for the queries for names without a zone. -/
theorem asksUnknown_eq {d : Bytes} (hz : LegalForest zones) (hd : d.length ≤ maxQueryBuffer) :
    asksUnknown zones d = if ∃ h q, AsksUnknown zones d h q then 1 else 0 := by
  have hreceived : received (fun _ => 0) d = memoryOf d := by
    funext i
    rw [received, memoryOf, List.take_of_length_le hd]
  rw [asksUnknown, hreceived, unknownNames]
  cases hh : MessageHeader.ofBuffer (memoryOf d) d.length with
  | error e =>
    rw [if_neg]
    rintro ⟨h, q, hasks⟩
    have hheader := hasks.header
    rw [readHeader_none hh] at hheader
    cases hheader
  | ok header =>
    have hasks : ∀ {h q}, AsksUnknown zones d h q → h = header.toHeader := fun hasks =>
      Option.some.inj (hasks.header.symm.trans (readHeader_some hh))
    have hqr' : header.toHeader.flags &&& 0x8000 = 0 ↔ ¬ header.getQr = true := by
      rw [MessageHeader.getQr, getFlag, bne_iff_ne, not_not]
      exact Iff.rfl
    dsimp only
    rw [processOpcode]
    by_cases hqr : header.getQr = true
    · rw [if_pos hqr, if_neg]
      · rfl
      · rintro ⟨h, q, hq⟩
        obtain rfl := hasks hq
        exact hqr'.mp hq.query hqr
    rw [if_neg hqr]
    by_cases hopcode : header.getOpcode = 0
    swap
    · rw [if_neg hopcode, if_neg]
      · rfl
      · rintro ⟨h, q, hq⟩
        obtain rfl := hasks hq
        exact hopcode hq.opcode
    rw [if_pos hopcode]
    by_cases hqd : header.qdcount = 0
    · obtain ⟨reply, -, hreply, -⟩ := @processQuestions_empty zones (memoryOf d) d.length header hqd
      rw [hreply, if_neg]
      · rfl
      · rintro ⟨h, q, hq⟩
        obtain rfl := hasks hq
        exact hq.qdcount hqd
    obtain ⟨h12, -⟩ := MessageHeader.holds_of_ofBuffer hh
    have hbody := readBytes_body h12
    cases hquestion : questionOf d with
    | none =>
      obtain ⟨e, s, hfail, -, ex, bad, rfl, hcatch⟩ := parse_no_question hh hqd fun q hstart => by
        rw [questionOf_eq_some.mpr ⟨h12, hstart⟩] at hquestion
        cases hquestion
      rw [unknownIn_parse_error hfail hcatch (by split_ifs <;> decide), if_neg]
      rintro ⟨h, q, hq⟩
      cases hquestion.symm.trans hq.question
    | some q =>
      have hsame : ∀ {h q'}, AsksUnknown zones d h q' → q' = q := fun hq =>
        Option.some.inj (hq.question.symm.trans hquestion)
      obtain ⟨-, hstart⟩ := questionOf_eq_some.mp hquestion
      rw [← hbody] at hstart
      by_cases hclass : q.qclass = 1 ∨ q.qclass = 255
      swap
      · obtain ⟨s', hfail⟩ := parseQuestions_refused hqd hstart hclass
        rw [unknownIn_parse_error hfail rfl (by decide), if_neg]
        rintro ⟨h, q', hq⟩
        obtain rfl := hsame hq
        exact hclass hq.qclass
      have hplain : PlainQuestion (memoryOf d) d.length q := (plainQuestion_iff h12).mpr ⟨hstart, hclass⟩
      by_cases hfit : 512 ≤ 12 + header.qdcount.toNat * (encodeQuestion q).length
      · obtain ⟨s', hfail⟩ := rounds_error hplain (s := ⟨[], [], 0, resize [] MessageHeader.size⟩)
          (Nat.pos_of_ne_zero fun h => hqd (UInt16.toNat_inj.mp h)) hfit
        rw [unknownIn_parse_error hfail rfl (by decide), if_neg]
        rintro ⟨h, q', hq⟩
        obtain rfl := hasks hq
        obtain rfl := hsame hq
        exact Nat.not_lt_of_le hfit hq.fits
      -- the name is looked up
      have hprocesses := question_processes hz hplain hqd (Nat.lt_of_not_le hfit)
      have hfound : (Dns.lookup zones q.name).1 ≠ none → ¬ ∃ h q, AsksUnknown zones d h q := by
        rintro hne ⟨h, q', hq⟩
        obtain rfl := hsame hq
        exact hne hq.lookup
      generalize processQuestions (some maxReplyBuffer) zones (memoryOf d) d.length header [] = r
        at hprocesses ⊢
      cases hprocesses with
      | @missing au b hl =>
        rw [if_pos ⟨header.toHeader, q, readHeader_some hh, hquestion, hqr'.mpr hqr, hopcode, hqd, hclass,
          Nat.lt_of_not_le hfit, by rw [hl]⟩]
        cases au <;> rfl
      | endless hl =>
        rw [if_neg (hfound (by rw [hl]; exact Option.some_ne_none _))]
        rfl
      | failure hl hshallow h6 hcatch =>
        rw [if_neg (hfound (by rw [hl]; exact Option.some_ne_none _))]
        exact unknownIn_caught hcatch (by decide)
      | answered hl =>
        rw [if_neg (hfound (by rw [hl]; exact Option.some_ne_none _))]
        rfl

theorem replyBuffer_of_sent {queryBuffer : Memory} {datagram b reply : Bytes}
    (h : (receive zones queryBuffer datagram b).outcome = .sent reply) :
    (receive zones queryBuffer datagram b).replyBuffer = reply := by
  unfold receive at h ⊢
  dsimp only at h ⊢
  split at h
  · split_ifs at h ⊢
    cases h
    rfl
  · split_ifs at h ⊢
    cases h
    rfl
  · cases h

end

/-! ## What a coroutine does -/

namespace Endpoint

variable {zones : List Zone} {α : Type} {e e' : Endpoint α} {counted : List (Counter × ℕ)}

/-- **What a coroutine can do**, and what it counts. -/
inductive Moves (zones : List Zone) (e : Endpoint α) : Endpoint α → List (Counter × ℕ) → Prop
  | same : Moves zones e e []
  | silent {queryBuffer : Memory} {replyBuffer : Bytes} {sender : α} {octets : Bytes} :
    e.waiting = .receiving → octets.length ≤ maxQueryBuffer → replyTo zones octets = .silent →
    Moves zones e { e with queryBuffer, replyBuffer, asked := e.asked ++ [(sender, octets)] }
      [(.bytesReceived, octets.length), (.unknownNames, asksUnknown zones octets), (.failedRequests, 1)]
  | replies {queryBuffer : Memory} {reply : Bytes} {sender : α} {octets : Bytes} {state : RequestState} :
    e.waiting = .receiving → octets.length ≤ maxQueryBuffer → replyTo zones octets = .sent reply →
    state = .unset ∨ state = .bad →
    Moves zones e { e with
        queryBuffer
        replyBuffer := reply
        waiting := .sending sender state
        asked := e.asked ++ [(sender, octets)] }
      [(.bytesReceived, octets.length), (.unknownNames, asksUnknown zones octets)]
  | hangs {queryBuffer : Memory} {replyBuffer : Bytes} {sender : α} {octets : Bytes} :
    e.waiting = .receiving → octets.length ≤ maxQueryBuffer → replyTo zones octets = .stuck →
    Moves zones e { e with
        queryBuffer
        replyBuffer
        waiting := .stuck
        asked := e.asked ++ [(sender, octets)] }
      [(.bytesReceived, octets.length), (.unknownNames, asksUnknown zones octets)]
  | throws : e.waiting = .receiving → Moves zones e { e with waiting := .ended } []
  | sent {sender : α} {state : RequestState} : e.waiting = .sending sender state →
    Moves zones e { e with waiting := .receiving, sent := e.sent ++ [(sender, e.replyBuffer)] }
      [(.bytesSent, e.replyBuffer.length), (.okRequests, 1)]
  | loses {sender : α} {state : RequestState} : e.waiting = .sending sender state →
    Moves zones e { e with waiting := .ended, lost := e.lost ++ [(state, sender, e.replyBuffer)] }
      state.counted

theorem moves_receive (h : e.waiting = .receiving) (sender : α) (a : Arrival) :
    Moves zones e (e.receive zones sender a).1 (e.receive zones sender a).2 := by
  unfold receive
  set loop : ReceiveLoop := { queryBuffer := e.queryBuffer, replyBuffer := e.replyBuffer } with hloop
  have hreply := @served_eq_replyTo zones loop a
  have hunknown := unknownNames_query zones loop a
  have hshort : (a.datagram.take maxQueryBuffer).length ≤ maxQueryBuffer := List.length_take_le ..
  rcases ReceiveLoop.served_cases zones loop a with ⟨hout, -⟩ | ⟨hout, -, hstate⟩ | ⟨reply, hout, -⟩
  · rw [hout] at hreply
    simp only [hout, hunknown]
    exact .hangs h hshort hreply.symm
  · rw [hout] at hreply
    simp only [hout, hunknown, hstate]
    exact .silent h hshort hreply.symm
  · rw [hout] at hreply
    have hbuffer : (loop.served zones a).replyBuffer = reply := replyBuffer_of_sent hout
    have hstate : (loop.processed zones a).state = .unset ∨ (loop.processed zones a).state = .bad :=
      (processsQuerey_cases zones (loop.query a) _ loop.replyBuffer).imp_right And.left
    simp only [hout, hunknown, hbuffer]
    exact .replies h hshort hreply.symm hstate

theorem moves_resume (zones : List Zone) (e : Endpoint α) (c : Completion α) :
    Moves zones e (e.resume zones c).1 (e.resume zones c).2 := by
  unfold resume
  split
  · next h => exact moves_receive h _ _
  · next h => exact .throws h
  · next h => exact .sent h
  · next h => exact .loses h
  · exact .same

/-! ## What is asked for -/

/-- **The replies to queries**, each for the sender of its query. -/
def repliesTo (zones : List Zone) (asked : List (α × Bytes)) : List (α × Bytes) :=
  asked.filterMap fun q =>
    match replyTo zones q.2 with
    | .sent reply => some (q.1, reply)
    | _ => none

/-- The reply that is being sent. -/
def outgoing (e : Endpoint α) : List (α × Bytes) :=
  match e.waiting with
  | .sending sender _ => [(sender, e.replyBuffer)]
  | _ => []

/-- **What an endpoint has to count.** -/
def tally (zones : List Zone) (e : Endpoint α) : Counter → ℕ
  | .bytesReceived => (e.asked.map fun q => q.2.length).sum
  | .unknownNames => (e.asked.map fun q => asksUnknown zones q.2).sum
  | .bytesSent => (e.sent.map fun r => r.2.length).sum
  | .okRequests => e.sent.length
  | .badRequests => e.lost.countP fun r => r.1 = .bad
  | .failedRequests =>
    (e.asked.countP fun q => replyTo zones q.2 = .silent) + e.lost.countP fun r => r.1 ≠ .bad
  | _ => 0

/-- **The invariant of an endpoint**: it has replied to what it was asked, in order and up to the reply that
is being sent; only an endpoint that has ended has lost a reply. -/
structure Keeps (zones : List Zone) (e : Endpoint α) : Prop where
  inOrder : e.sent ++ e.lost.map Prod.snd ++ e.outgoing = repliesTo zones e.asked
  lost : e.waiting ≠ .ended → e.lost = []
  state : ∀ sender state, e.waiting = .sending sender state → state = .unset ∨ state = .bad
  short : ∀ q ∈ e.asked, q.2.length ≤ maxQueryBuffer

theorem repliesTo_concat (asked : List (α × Bytes)) (sender : α) (octets : Bytes) :
    repliesTo zones (asked ++ [(sender, octets)]) = repliesTo zones asked ++
      match replyTo zones octets with
      | .sent reply => [(sender, reply)]
      | _ => [] := by
  rw [repliesTo, List.filterMap_append, repliesTo]
  cases h : replyTo zones octets with
  | silent => simp [h]
  | sent reply => simp [h]
  | stuck => simp [h]

/-- **One move** keeps the replies in order. -/
theorem Keeps.moves (h : Keeps zones e) (hm : Moves zones e e' counted) : Keeps zones e' := by
  have hreceiving : e.waiting = .receiving → e.outgoing = [] ∧ e.lost = [] := fun hw =>
    ⟨by rw [outgoing, hw], h.lost (by rw [hw]; exact fun h => by cases h)⟩
  have hshort : ∀ {sender : α} {octets : Bytes}, octets.length ≤ maxQueryBuffer →
      ∀ q ∈ e.asked ++ [(sender, octets)], q.2.length ≤ maxQueryBuffer := by
    intro sender octets hle q hq
    obtain hq | hq := List.mem_append.mp hq
    · exact h.short q hq
    · rwa [List.mem_singleton.mp hq]
  have hin := h.inOrder
  cases hm with
  | same => exact h
  | silent hw hle hreply =>
    obtain ⟨hout, hlost⟩ := hreceiving hw
    refine ⟨?_, fun _ => hlost, h.state, hshort hle⟩
    rw [hout] at hin
    rw [repliesTo_concat, hreply, ← hin]
    simp [outgoing, hw]
  | replies hw hle hreply hstate =>
    obtain ⟨hout, hlost⟩ := hreceiving hw
    refine ⟨?_, fun _ => hlost, ?_, hshort hle⟩
    · rw [hout] at hin
      rw [repliesTo_concat, hreply, ← hin]
      simp [outgoing]
    · rintro sender' state' ⟨⟩
      exact hstate
  | hangs hw hle hreply =>
    obtain ⟨hout, hlost⟩ := hreceiving hw
    refine ⟨?_, fun _ => hlost, ?_, hshort hle⟩
    · rw [hout] at hin
      rw [repliesTo_concat, hreply, ← hin]
      simp [outgoing]
    · rintro sender' state' ⟨⟩
  | throws hw =>
    obtain ⟨hout, -⟩ := hreceiving hw
    refine ⟨?_, fun h => absurd rfl h, ?_, h.short⟩
    · rw [hout] at hin
      exact hin
    · rintro sender' state' ⟨⟩
  | sent hw =>
    have hlost := h.lost (by rw [hw]; exact fun h => by cases h)
    refine ⟨?_, fun _ => hlost, ?_, h.short⟩
    · rw [hlost, outgoing, hw] at hin
      rw [← hin]
      simp [outgoing, hlost]
    · rintro sender' state' ⟨⟩
  | loses hw =>
    have hlost := h.lost (by rw [hw]; exact fun h => by cases h)
    refine ⟨?_, fun h => absurd rfl h, ?_, h.short⟩
    · rw [hlost, outgoing, hw] at hin
      rw [← hin]
      simp [outgoing, hlost]
    · rintro sender' state' ⟨⟩

theorem Keeps.tally_moves (h : Keeps zones e) (hm : Moves zones e e' counted) (k : Counter) :
    e'.tally zones k = e.tally zones k + amount k counted := by
  cases hm with
  | same => rfl
  | silent hw hle hreply => cases k <;> simp [tally, amount, hreply, Nat.add_right_comm]
  | replies hw hle hreply => cases k <;> simp [tally, amount, hreply]
  | hangs hw hle hreply => cases k <;> simp [tally, amount, hreply]
  | throws hw => cases k <;> rfl
  | sent hw => cases k <;> simp [tally, amount]
  | @loses sender state hw =>
    obtain rfl | rfl := h.state sender state hw
    · cases k <;> simp [tally, amount, RequestState.counted, Nat.add_assoc]
    · cases k <;> simp [tally, amount, RequestState.counted]

open Classical in
theorem sum_asksUnknown (hz : LegalForest zones) : ∀ asked : List (α × Bytes),
    (∀ q ∈ asked, q.2.length ≤ maxQueryBuffer) → (asked.map fun q => asksUnknown zones q.2).sum =
      asked.countP fun q => ∃ hdr question, AsksUnknown zones q.2 hdr question
  | [], _ => rfl
  | q :: asked, h => by
    have ih := sum_asksUnknown hz asked fun q hq => h q (List.mem_cons_of_mem _ hq)
    rw [List.map_cons, List.sum_cons, List.countP_cons, ih, asksUnknown_eq hz (h q List.mem_cons_self),
      Nat.add_comm]
    simp only [decide_eq_true_eq]

end Endpoint

/-! ## Runs -/

namespace DnsDaemon

variable {zones : List Zone} {n m : ℕ} {α : Type} {pipeline : Fin m → Fin n} {d : DnsDaemon n m α}

/-- **The daemon keeps its account**: every endpoint its replies, and the statistics what all of them have
to count; what was counted is in the total, in a task or in a thread. -/
structure Accounted (zones : List Zone) (d : DnsDaemon n m α) : Prop where
  keeps : ∀ i, (d.endpoints i).Keeps zones
  counts : ∀ k, d.stats.added .dns k = ∑ i, (d.endpoints i).tally zones k
  conserved : ∀ k, k ≠ .timeoutDroppedConnections → d.stats.ConservedAt .dns k

theorem accounted_start : ({} : DnsDaemon n m α).Accounted zones where
  keeps _ := ⟨rfl, fun _ => rfl, fun _ _ h => (by cases h), fun q hq => (by cases hq)⟩
  counts k := by
    have hzero : ∀ i, (({} : DnsDaemon n m α).endpoints i).tally zones k = 0 := fun _ => by cases k <;> rfl
    rw [Finset.sum_eq_zero fun i _ => hzero i]
  conserved k _ := Collection.conserved_start .dns k

/-- **One step** keeps the account. -/
theorem Accounted.step (h : d.Accounted zones) (event : DnsEvent n m α) :
    (d.step zones pipeline event).Accounted zones := by
  cases event with
  | resume i c =>
    rw [DnsDaemon.step]
    split_ifs
    · exact h
    · have hm := Endpoint.moves_resume zones (d.endpoints i) c
      refine ⟨Family.forall_update h.keeps ((h.keeps i).moves hm), fun k => ?_, fun k hk => ?_⟩
      · have hsum := Family.sum_update_add (fun e : Endpoint α => e.tally zones k) d.endpoints i
          ((d.endpoints i).resume zones c).1
        have hone := (h.keeps i).tally_moves hm k
        have hall := h.counts k
        rw [Collection.added_count]
        simp only at hsum ⊢
        omega
      · exact Collection.conserved_count (pipeline i) .dns _ (h.conserved k hk)
  | updateStats p =>
    rw [DnsDaemon.step]
    split_ifs
    · exact h
    · exact ⟨h.keeps, h.counts, fun k hk => Collection.conserved_updateStats (h.conserved k hk) p .dns⟩
  | deliver task =>
    rw [DnsDaemon.step]
    refine ⟨h.keeps, fun k => ?_, fun k hk => Collection.conserved_deliver (h.conserved k hk) hk task⟩
    rw [Collection.added_deliver]
    exact h.counts k

/-- **Every run** keeps it. -/
theorem Accounted.run : ∀ (events : List (DnsEvent n m α)) {d : DnsDaemon n m α}, d.Accounted zones →
    (Run.run (DnsDaemon.step zones pipeline) d events).Accounted zones
  | [], _, h => h
  | event :: events, _, h => Accounted.run events (h.step event)

/-- **Every query is served once.** In every run of the coroutines of any endpoints on any pipelines, each
endpoint has replied to the queries that it was asked, to their senders and in order, up to the reply that
is being sent; a reply is lost only with its endpoint; and the counters count that. -/
theorem queries_served (zones : List Zone) (pipeline : Fin m → Fin n) (events : List (DnsEvent n m α)) :
    (Run.run (step zones pipeline) {} events).Accounted zones := accounted_start.run events

open Classical in
/-- **Unknown names are counted.** Over legal zones, in every run, `unknown_names` counts the queries for
names without a zone that any endpoint was asked, each once, and none of them gets lost. -/
theorem unknownNames_counted (hz : LegalForest zones) (pipeline : Fin m → Fin n)
    (events : List (DnsEvent n m α)) :
    let d := Run.run (step zones pipeline) {} events
    (d.stats.added .dns .unknownNames = ∑ i, (d.endpoints i).asked.countP fun q =>
      ∃ hdr question, AsksUnknown zones q.2 hdr question) ∧ d.stats.ConservedAt .dns .unknownNames := by
  intro d
  have h : d.Accounted zones := accounted_start.run events
  refine ⟨?_, h.conserved .unknownNames (by decide)⟩
  rw [h.counts]
  exact Finset.sum_congr rfl fun i _ => Endpoint.sum_asksUnknown hz _ (h.keeps i).short

open Classical in
/-- The second endpoint is asked for `b`, and the statistics are collected. -/
theorem unknownNames_counted_b :
    let d : DnsDaemon 1 2 ℕ := Run.run (step [zoneA] fun _ => 0) {}
      [.resume 1 (.received 5 (queryOctets ⟨7, 0, 1, 0, 0, 0⟩ [⟨[[98]], 1, 1⟩]) fun _ => 0),
        .updateStats 0, .deliver 0]
    (d.stats.added .dns .unknownNames = ∑ i, (d.endpoints i).asked.countP fun q =>
      ∃ hdr question, AsksUnknown [zoneA] q.2 hdr question) ∧ d.stats.ConservedAt .dns .unknownNames := by
  have hlegal : LegalForest [zoneA] := fun z hz => by
    rw [reached_zoneA hz]
    constructor <;> decide +kernel
  exact unknownNames_counted hlegal _ _

end DnsDaemon

end VUbercool.Dns
