import VUbercool.Dns.Inside
import VUbercool.Statistics

/-!
# The receive loop

* `ReceiveLoop`, `handle`: the loop over the datagrams, with the buffers it uses again and the counters of
  its thread.
* `question_cut`: at a label that ends the datagram every octet behind it leads to the same error reply.
* `parseQuestions_agree`: the questions are determined by the octets behind the header.
* `receive_agree`: what a datagram leads to does not depend on what was in the buffers.
* **`outcomes_independent`**: nor on the datagrams before it.
-/

namespace VUbercool.Dns

open Octets Rfc1035 Proc

variable {zones : List Zone} {mem mem' : Memory} {stop p n : ℕ} {known : List StringRef}
  {header : MessageHeader}

/-! ## The loop -/

/-- The destructor of `RequestStats`. -/
def RequestState.count (stats : Statistics) : RequestState → Statistics
  | .sucess => stats.increment 1 .okRequests
  | .ignore => stats
  | .fail => stats.increment 1 .failedRequests
  | .unset => stats.increment 1 .failedRequests
  | .bad => stats.increment 1 .badRequests

/-- A datagram whose processing has ended: the state that `ProcesssQuerey` set, and what was sent. -/
structure Handled where
  state : RequestState
  outcome : Outcome

/-- **The receive loop**: its buffers, the counters of its thread, and whether the processing of a datagram
does not end; and, for the record, the datagrams handled before. -/
structure ReceiveLoop where
  queryBuffer : Memory
  replyBuffer : Bytes
  stats : Statistics := {}
  stuck : Bool := false
  log : List Handled := []

/-- A datagram, and what is in memory behind the query buffer when it is received. -/
structure Arrival where
  datagram : Bytes
  behind : Memory

namespace ReceiveLoop

/-- What is in memory when a datagram has been received. -/
def query (s : ReceiveLoop) (a : Arrival) : Memory :=
  received (fun i => if i < maxQueryBuffer then s.queryBuffer i else a.behind i) a.datagram

/-- What `ProcesssQuerey` makes of a datagram. -/
def processed (zones : List Zone) (s : ReceiveLoop) (a : Arrival) : Processed :=
  processsQuerey zones (s.query a) (a.datagram.take maxQueryBuffer).length s.replyBuffer

/-- What the loop makes of a datagram. -/
def served (zones : List Zone) (s : ReceiveLoop) (a : Arrival) : Served :=
  receive zones (fun i => if i < maxQueryBuffer then s.queryBuffer i else a.behind i) a.datagram
    s.replyBuffer

/-- The counters after a datagram: the octets received and sent, and at the end of its processing the
state of the request. -/
def count (s : ReceiveLoop) (datagram : Bytes) (served : Served) : Statistics :=
  let stats := s.stats.increment (UInt64.ofNat (datagram.take maxQueryBuffer).length) .bytesReceived
  match served.outcome with
  | .silent => served.state.count stats
  | .sent reply => served.state.count (stats.increment (UInt64.ofNat reply.length) .bytesSent)
  | .stuck => stats

/-- **One round of the loop**, in which every send succeeds. -/
def handle (zones : List Zone) (s : ReceiveLoop) (a : Arrival) : ReceiveLoop :=
  if s.stuck then s
  else
    let served := s.served zones a
    { queryBuffer := served.queryBuffer
      replyBuffer := served.replyBuffer
      stats := s.count a.datagram served
      stuck := served.outcome = .stuck
      log := if served.outcome = .stuck then s.log
        else s.log ++ [⟨(s.processed zones a).state, served.outcome⟩] }

/-- What was sent for every datagram handled. -/
def outcomes (s : ReceiveLoop) : List Outcome := s.log.map Handled.outcome

end ReceiveLoop

/-! ## What a datagram determines -/

theorem Agree.ofBuffer (h : Agree mem mem' (List.range n)) :
    MessageHeader.ofBuffer mem' n = MessageHeader.ofBuffer mem n := by
  rw [MessageHeader.ofBuffer, MessageHeader.ofBuffer]
  split_ifs with hn
  · rfl
  · have hword : ∀ i < 12, mem' i = mem i := fun i hi => h i (List.mem_range.mpr (by
      unfold MessageHeader.size at hn
      omega))
    have hload : ∀ i < 11, Dns.load16 mem' i = Dns.load16 mem i := fun i hi =>
      Agree.load16 (hword i (by omega)) (hword (i + 1) (by omega))
    rw [hload 0 (by decide), hload 2 (by decide), hload 4 (by decide), hload 6 (by decide),
      hload 8 (by decide), hload 10 (by decide)]

theorem CutBehindLabel.agree (hagree : Agree mem mem' (List.range' p (stop - p)))
    (h : CutBehindLabel mem p stop) : CutBehindLabel mem' p stop := by
  obtain ⟨ls, hne, h, hstop⟩ := h
  have hread : Agree mem mem' (List.range' p (encodeLabels ls).length) := fun i hi =>
    hagree i (List.mem_range'_1.mpr (by
      have := List.mem_range'_1.mp hi
      omega))
  refine ⟨ls, hne, ⟨h.legal, ?_, h.inside, h.size⟩, hstop⟩
  rw [Holds, hread.readBytes]
  exact h.holds

theorem labelStep_end {s : LabelState} (hp : s.p = stop) (hn : s.names ≠ []) :
    labelStep mem stop s = .ok (true, s.afterRoot) ∨
      ∃ what, labelStep mem stop s = .error (warThrow .labelHeaderException what) := by
  by_cases h0 : mem s.p = 0
  · obtain ⟨e, he⟩ := @labelStep_root mem stop s h0
    by_cases hsize : s.size + 1 ≤ 255
    · rw [if_pos ⟨hsize, hn⟩] at he
      exact .inl he
    · refine .inr ⟨"The labels exeeds the 255 bytes limit", ?_⟩
      simp only [labelStep, if_pos h0, validateSize, if_pos (Nat.lt_of_not_le hsize), bind, Except.bind]
  refine .inr ?_
  by_cases h64 : (mem s.p).toNat < 64
  · exact ⟨_, by simp only [labelStep, if_neg h0, if_pos h64,
      if_pos (show s.p + 1 + (mem s.p).toNat > stop by omega)]; rfl⟩
  by_cases hptr : mem s.p &&& 0xC0 = 0xC0
  · exact ⟨_, by simp only [labelStep, if_neg h0, if_neg h64, if_pos hptr,
      if_pos (show s.p + 1 ≥ stop by omega)]; rfl⟩
  · exact ⟨_, by simp only [labelStep, if_neg h0, if_neg h64, if_neg hptr]; rfl⟩

/-- **A question that is cut behind a label** leads to an error reply, and to the same one whatever octet
stands behind the label. -/
theorem question_cut (hcut : CutBehindLabel mem p stop) (known : List StringRef) (offset : UInt16) :
    ∃ ex, Question.parse mem p (stop - p) known offset = .error (.raised ex) ∧
      catchClause ex.type = some (.serverFailure, false) := by
  obtain ⟨ls, hne, h, hstop⟩ := hcut
  obtain ⟨l, ls', hls⟩ := List.exists_cons_of_ne_nil hne
  have hp : p < stop := by
    rw [← hstop, hls, encodeLabels]
    simp
  have hn : (explicitState p known ls).names ≠ [] := by
    simp [explicitState, LabelState.afterLabels, hls, labelRefs]
  obtain ⟨fuel, -, hparse, -⟩ := labels_explicit h hp known
  rw [Question.parse, hparse]
  rcases @labelStep_end mem stop (explicitState p known ls) hstop hn with hs | ⟨what, hs⟩
  · rw [labelLoop_done hs]
    simp only [bind, Except.bind, LabelHeader.getSize, explicitState, LabelState.afterRoot,
      LabelState.afterLabels]
    refine ⟨⟨.questionHeaderException, "Buffer underflow"⟩, if_pos ?_, rfl⟩
    simp only [Bool.false_eq_true, if_false]
    omega
  · rw [labelLoop, hs]
    exact ⟨_, rfl, rfl⟩

theorem parseQuestions_cut (hcut : CutBehindLabel mem 12 n) (hqd : header.qdcount ≠ 0) (b : Bytes) :
    ∃ ex s, parseQuestions mem n header ⟨[], [], 0, b⟩ = (.error (.raised ex), s) ∧
      catchClause ex.type = some (.serverFailure, false) := by
  have hn : 12 < n := by
    obtain ⟨ls, hne, -, hstop⟩ := hcut
    obtain ⟨l, ls', hls⟩ := List.exists_cons_of_ne_nil hne
    rw [← hstop, hls, encodeLabels]
    simp
  obtain ⟨ex, hparse, hcatch⟩ := question_cut hcut [] (UInt16.ofNat b.length)
  obtain ⟨k, hk⟩ : ∃ k, header.qdcount.toNat = k + 1 :=
    Nat.exists_eq_succ_of_ne_zero fun h => hqd (UInt16.toNat_inj.mp h)
  have hround : questionRound mem n (n - MessageHeader.size) ⟨[], [], 0, b⟩ =
      (.error (.raised ex), ⟨[], [], 0, b⟩) := by
    have hleft : n - (n - MessageHeader.size) = 12 := by rw [MessageHeader.size]; omega
    rw [questionRound, if_neg (by rw [MessageHeader.size]; omega), bind_ok (get_apply _), parseQuestion,
      hleft, MessageHeader.size, hparse]
    rfl
  exact ⟨ex, _, by rw [parseQuestions, hk, forM_range_succ, bind_error hround], hcatch⟩

/-- **The questions are determined by the octets behind the header**; or there is an error, and the octets
behind the datagram do not change the reply that it leads to. -/
theorem parseQuestions_agree {header' : MessageHeader} (hn : 12 ≤ n)
    (hagree : Agree mem mem' (List.range' 12 (n - 12))) (hqd : header'.qdcount = header.qdcount)
    (b : Bytes) :
    parseQuestions mem' n header' ⟨[], [], 0, b⟩ = parseQuestions mem n header ⟨[], [], 0, b⟩ ∨
    ∃ ex s ex' s', parseQuestions mem n header ⟨[], [], 0, b⟩ = (.error (.raised ex), s) ∧
      catchClause ex.type = some (.serverFailure, false) ∧
      parseQuestions mem' n header' ⟨[], [], 0, b⟩ = (.error (.raised ex'), s') ∧
      catchClause ex'.type = some (.serverFailure, false) := by
  by_cases hcut : header.qdcount ≠ 0 ∧ CutBehindLabel mem 12 n
  · -- the octet behind the datagram is read, and every value of it leads to the same reply
    obtain ⟨ex, s, hparse, hcatch⟩ := parseQuestions_cut hcut.2 hcut.1 b
    obtain ⟨ex', s', hparse', hcatch'⟩ := parseQuestions_cut (hcut.2.agree hagree)
      (hqd ▸ hcut.1 : header'.qdcount ≠ 0) b
    exact .inr ⟨ex, s, ex', s', hparse, hcatch, hparse', hcatch'⟩
  · -- only octets of the datagram behind the header are read
    have hsize : n - (n - MessageHeader.size) = 12 := by rw [MessageHeader.size]; omega
    have hnone : Behind 12 ([] : List StringRef) := fun r hr => absurd hr List.not_mem_nil
    have hinside := (@questionsReads_iff mem _ hn header.qdcount.toNat b).mpr fun hqd hc =>
      hcut ⟨fun h0 => hqd (by rw [h0]; rfl), hc⟩
    have hreads : Agree mem mem' (questionsReads mem n (n - MessageHeader.size) header.qdcount.toNat
        ⟨[], [], 0, b⟩) := by
      intro i hi
      have hlt := hinside i hi
      have hle := le_questionsReads hsize.ge hnone i hi
      exact hagree i (List.mem_range'_1.mpr (by omega))
    rw [parseQuestions, parseQuestions, hqd]
    exact .inl (Agree.questions (by rw [hsize]; exact hagree) hreads)

/-- **What a datagram leads to is determined by the octets received.** -/
theorem receive_agree (zones : List Zone) (queryBuffer queryBuffer' : Memory)
    (datagram replyBuffer replyBuffer' : Bytes) :
    (receive zones queryBuffer' datagram replyBuffer').outcome =
      (receive zones queryBuffer datagram replyBuffer).outcome := by
  rw [receive_replyBuffer _ _ _ replyBuffer, receive_replyBuffer _ _ _ replyBuffer']
  have hagree : Agree (received queryBuffer datagram) (received queryBuffer' datagram)
      (List.range (datagram.take maxQueryBuffer).length) := by
    intro i hi
    have hlt := List.mem_range.mp hi
    rw [received, received, List.getD, List.getD, List.getElem?_eq_getElem hlt, Option.getD_some,
      Option.getD_some]
  cases hh : MessageHeader.ofBuffer (received queryBuffer datagram)
      (datagram.take maxQueryBuffer).length with
  | error e => rw [receive_underflow hh, receive_underflow (hagree.ofBuffer.trans hh)]
  | ok header =>
    rw [receive_outcome hh, receive_outcome (hagree.ofBuffer.trans hh), processOpcode, processOpcode]
    by_cases hqr : header.getQr = true
    · rw [if_pos hqr, if_pos hqr]
    by_cases hopcode : header.getOpcode = 0
    swap
    · rw [if_neg hqr, if_neg hqr, if_neg hopcode, if_neg hopcode]
    rw [if_neg hqr, if_neg hqr, if_pos hopcode, if_pos hopcode, processQuestions, processQuestions]
    have hbehind : Agree (received queryBuffer datagram) (received queryBuffer' datagram)
        (List.range' 12 ((datagram.take maxQueryBuffer).length - 12)) := fun i hi =>
      hagree i (List.mem_range.mpr (by
        have := List.mem_range'_1.mp hi
        omega))
    rcases parseQuestions_agree (MessageHeader.holds_of_ofBuffer hh).1 hbehind rfl
      (resize [] MessageHeader.size) with hparse | ⟨ex, s, ex', s', hparse, hcatch, hparse', hcatch'⟩
    · rw [hparse]
    · rw [hparse, hparse']
      simp only [outcomeOf, hcatch, hcatch']

/-! ## Runs -/

theorem run_stuck {s : ReceiveLoop} (hs : s.stuck = true) : ∀ as,
    Run.run (ReceiveLoop.handle zones) s as = s
  | [] => rfl
  | a :: as => by
    rw [Run.run, List.foldl_cons, ReceiveLoop.handle, if_pos hs]
    exact run_stuck hs as

/-- What a datagram leads to, as a function of the octets received of it. -/
def replyTo (zones : List Zone) (octets : Bytes) : Outcome := (receive zones (fun _ => 0) octets).outcome

theorem served_eq_replyTo (s : ReceiveLoop) (a : Arrival) :
    (s.served zones a).outcome = replyTo zones (a.datagram.take maxQueryBuffer) := by
  have hreceived : ∀ queryBuffer, received queryBuffer (a.datagram.take maxQueryBuffer) =
      received queryBuffer a.datagram := fun queryBuffer => by
    unfold received
    rw [List.take_take, Nat.min_self]
  have htake : receive zones (fun _ => 0) (a.datagram.take maxQueryBuffer) =
      receive zones (fun _ => 0) a.datagram := by
    rw [receive, receive, hreceived, List.take_take, Nat.min_self]
  rw [replyTo, htake]
  exact receive_agree zones (fun _ => 0) _ a.datagram [] _

theorem outcomes_run : ∀ (as : List Arrival) {s : ReceiveLoop}, s.stuck = false →
    (Run.run (ReceiveLoop.handle zones) s as).outcomes = s.outcomes ++
      (as.map fun a => replyTo zones (a.datagram.take maxQueryBuffer)).takeWhile (· ≠ .stuck)
  | [], s, _ => (List.append_nil _).symm
  | a :: as, s, hs => by
    have hserved := @served_eq_replyTo zones s a
    rw [List.map_cons]
    by_cases hstuck : replyTo zones (a.datagram.take maxQueryBuffer) = .stuck
    · have hnext : (s.handle zones a).stuck = true := by
        rw [ReceiveLoop.handle, hs, if_neg (by decide)]
        simp only [hserved, hstuck, decide_true]
      have hlog : (s.handle zones a).outcomes = s.outcomes := by
        rw [ReceiveLoop.handle, hs, if_neg (by decide)]
        simp only [hserved, hstuck, if_true, ReceiveLoop.outcomes]
      have hrun := @run_stuck zones _ hnext as
      unfold Run.run at hrun
      rw [Run.run, List.foldl_cons, hrun, hlog, List.takeWhile_cons_of_neg (by simpa using hstuck),
        List.append_nil]
    · have hnext : (s.handle zones a).stuck = false := by
        rw [ReceiveLoop.handle, hs, if_neg (by decide)]
        simp only [hserved, hstuck, decide_false]
      have hlog : (s.handle zones a).outcomes =
          s.outcomes ++ [replyTo zones (a.datagram.take maxQueryBuffer)] := by
        rw [ReceiveLoop.handle, hs, if_neg (by decide)]
        simp only [hserved, hstuck, if_false, ReceiveLoop.outcomes, List.map_append, List.map_cons,
          List.map_nil]
      have hrun := outcomes_run as hnext
      unfold Run.run at hrun
      rw [Run.run, List.foldl_cons, hrun, hlog, List.takeWhile_cons_of_pos (by simpa using hstuck),
        List.append_assoc, List.singleton_append]

/-- **No datagram influences another's reply.** Whatever the buffers hold at first, what is in memory
behind them and which datagrams come before, every datagram that is handled leads to what the forest and
the octets received of it determine. -/
theorem outcomes_independent : ∃ f : List Zone → Bytes → Outcome, ∀ (zones : List Zone)
    (queryBuffer : Memory) (replyBuffer : Bytes) (arrivals : List Arrival),
    (Run.run (ReceiveLoop.handle zones) ⟨queryBuffer, replyBuffer, {}, false, []⟩ arrivals).outcomes =
      (arrivals.map fun a => f zones (a.datagram.take maxQueryBuffer)).takeWhile (· ≠ .stuck) :=
  ⟨replyTo, fun _ _ _ arrivals => outcomes_run arrivals rfl⟩

end VUbercool.Dns
