import VUbercool.Dns.ReceiveLoop
import VUbercool.Dns.Records

/-!
# Request accounting

* `answer_raises`: what the second pass of `ProcessQuestions` may raise. `bad_iff`: which requests
  `ProcesssQuerey` sets to `BAD`.
* `Accounted`: what the counters of a thread are to show.
* **`accounted_iff`**: they show it along a run exactly where no request of the run is malformed.
-/

namespace VUbercool.Dns

open Octets Proc

variable {limit : Option ℕ} {zones : List Zone} {n : ℕ} {header : MessageHeader}

/-! ## What the second pass raises -/

/-- The exceptions that may be raised once the questions have been parsed. -/
def lateTypes : List ExceptionType :=
  [.unknownDomain, .unknownSubDomain, .noSoaRecord, .outOfRange, .truncated]

/-- How the second pass may end other than by `return`. -/
def LateFault : Fault → Prop
  | .raised ex => ex.type ∈ lateTypes
  | .diverged => True
  | .wildRead => True

theorem late_throw {type : ExceptionType} (h : type ∈ lateTypes) (what : String) :
    LateFault (warThrow type what) := h

theorem octetAt_fails (buffer : Bytes) (p : ℕ) : Fails LateFault (octetAt buffer p) := by
  unfold octetAt
  split
  · exact .ok _
  · exact .error trivial

theorem wordAt_fails (buffer : Bytes) (p : ℕ) : Fails LateFault (wordAt buffer p) := by
  unfold wordAt
  split
  · exact .ok _
  · exact .error trivial

theorem octetsAt_fails (buffer : Bytes) (p len : ℕ) : Fails LateFault (octetsAt buffer p len) := by
  unfold octetsAt
  split
  · exact .ok _
  · exact .error trivial

theorem reverseCompare_fails (buffer : Bytes) (frags : List Bytes) : ∀ (fuel : ℕ) (label : UInt16)
    (currFrag : ℤ) (best : UInt16), Fails LateFault (reverseCompare buffer frags fuel label currFrag best)
  | 0, _, _, _ => .error trivial
  | fuel + 1, label, currFrag, best => by
    unfold reverseCompare
    refine (octetAt_fails _ _).bind fun c => ?_
    dsimp only
    split_ifs
    · exact .ok _
    · refine (reverseCompare_fails buffer frags fuel _ _ _).bind fun r => ?_
      split_ifs
      · exact .ok _
      · refine (octetsAt_fails _ _ _).bind fun name => ?_
        split_ifs
        · exact .ok _
        · exact .ok _
      · exact .ok _
    · exact (wordAt_fails _ _).bind fun v => reverseCompare_fails buffer frags fuel _ _ _
    · exact .ok _

theorem searchLoop_fails (buffer : Bytes) (frags : List Bytes) : ∀ (labels : List UInt16)
    (best : Option (ℕ × UInt16)), Fails LateFault (searchLoop buffer frags labels best)
  | [], _ => .ok _
  | label :: labels, best => by
    unfold searchLoop
    refine (reverseCompare_fails buffer frags _ _ _ _).bind fun r => ?_
    split_ifs
    · exact .ok _
    · exact searchLoop_fails buffer frags labels _
    · exact searchLoop_fails buffer frags labels best

theorem size_raises : Raises LateFault Wire.size := nofun

theorem addLabel_raises (offset : UInt16) : Raises LateFault (addLabel offset) := by
  refine .bind .get fun w => .bind (.ofExcept ?_) fun _ => .modify _
  refine (octetAt_fails _ _).bind fun c => ?_
  have hlist : ∀ dst : UInt16, Fails LateFault (if dst ∈ w.labels then .ok w.labels
      else .ok (w.labels ++ [offset ||| 0xC000]) : Except Fault (List UInt16)) := fun dst => by
    split
    · exact .ok _
    · exact .ok _
  dsimp only
  split_ifs
  · exact ((wordAt_fails _ _).map).bind hlist
  · exact (Fails.ok _).bind hlist

theorem writeDomainName_raises (name : Bytes) : Raises LateFault (writeDomainName name) := by
  refine .bind .get fun w => .bind (.ofExcept (searchLoop_fails _ _ _ _)) fun found => ?_
  cases found <;> exact .bind (.modify _) fun _ => size_raises.bind fun _ => .pure _

theorem writeZoneName_raises (name : Bytes) (zone : Option ZonePtr) :
    Raises LateFault (writeZoneName name zone) :=
  size_raises.bind fun _ => .bind (writeDomainName_raises _) fun _ => .bind (addLabel_raises _) fun _ =>
    size_raises.bind fun _ => .pure _

theorem writeHeader_raises (a : AnswerBase) : Raises LateFault a.writeHeader := by
  refine size_raises.bind fun _ => .bind ?_ fun _ => .bind (.modify _) fun _ =>
    size_raises.bind fun _ => .bind (.modify _) fun _ => .pure _
  cases a.owner with
  | namePtr namePtr =>
    exact size_raises.bind fun _ => .bind (.modify _) fun _ => .bind (.modify _) fun _ =>
      .bind (addLabel_raises _) fun _ => .pure _
  | name name =>
    rw [writeOwner]
    split
    · exact .bind (writeZoneName_raises _ _) fun _ => size_raises.bind fun _ =>
        .bind (.modify _) fun _ => .pure _
    · exact size_raises.bind fun _ => .bind (.modify _) fun _ => .pure _

theorem write_raises (r : ResourceRecord) : Raises LateFault r.write := by
  have hrecord : ∀ (x : Writer ℕ) (base : AnswerBase), Raises LateFault x →
      Raises LateFault (base.writeHeader >>= fun a => x >>= fun n => a.writeRdlength n) :=
    fun x base hx => .bind (writeHeader_raises base) fun _ => .bind hx fun _ =>
      .bind (.modify _) fun _ => .pure _
  cases r with
  | a owner ip => exact .bind (writeHeader_raises _) fun _ => .bind (.modify _) fun _ => .pure _
  | cname namePtr name => exact hrecord _ _ (writeZoneName_raises _ _)
  | mx namePtr fqdn pri =>
    exact hrecord _ _ (.bind (.modify _) fun _ => .bind (writeZoneName_raises _ _) fun _ => .pure _)
  | ns domain fqdn => exact hrecord _ _ (writeZoneName_raises _ _)
  | soa owner zone =>
    refine hrecord _ _ (size_raises.bind fun _ => ?_)
    cases zone.zone.soa with
    | none => exact .raise trivial
    | some s =>
      refine .bind (.ofExcept ?_) fun _ => .bind (writeZoneName_raises _ _) fun _ =>
        .bind (writeZoneName_raises _ _) fun _ => .bind (.modify _) fun _ =>
          size_raises.bind fun _ => .pure _
      unfold getMname
      split
      · exact .ok _
      · exact .error (late_throw (by decide) _)

theorem emit_raises (x : Section × ResourceRecord) : Raises LateFault (emit limit x) := by
  have hstore : Raises LateFault (store limit x.2) := by
    refine .bind (write_raises _) fun _ => size_raises.bind fun _ => ?_
    split
    · exact .bind (.modify _) fun _ => .raise (late_throw (by decide) _)
    · exact .pure _
  rintro ⟨o, t⟩ e s' h
  rcases hrun : store limit x.2 o.wire with ⟨e' | u, w⟩
  · have he : emit limit x (o, t) = (.error e', ({ o with wire := w }, t)) :=
      onFst_apply (by rw [storeIn, hrun])
    rw [he] at h
    cases h
    exact hstore _ _ _ hrun
  · have he : emit limit x (o, t) = (.ok (), (Outgoing.count { o with wire := w } x.1, t)) :=
      onFst_apply (by rw [storeIn, hrun])
    rw [he] at h
    cases h

theorem refer_raises (f : Referrals → Referrals) : Raises LateFault (refer f) := nofun

theorem storeCname_raises (zone : ZonePtr) (question : Question) :
    Raises LateFault (storeCname limit zone question) := (emit_raises _).bind fun _ => .pure _

theorem processQtype_raises (question : Question) (zone : ZonePtr) (soaZone : Option ZonePtr) :
    Raises LateFault (processQtype limit zones question zone soaZone) := by
  unfold processQtype
  split_ifs
  · refine (storeCname_raises zone question).bind fun _ => .when ?_
    split
    · exact .forM fun _ => emit_raises _
    · exact .pure _
  · exact .forM fun _ => emit_raises _
  · exact .when ((storeCname_raises zone question).bind fun _ => .pure _)
  · split
    · exact .raise (late_throw (by decide) _)
    · exact (emit_raises _).bind fun _ => refer_raises _
  · exact refer_raises _
  · exact .forM fun _ => (emit_raises _).bind fun _ => refer_raises _
  · exact .pure _

theorem getSoaZone_fails (zone : ZonePtr) : Fails LateFault (getSoaZone zone) := by
  have hloop : ∀ fuel z, Fails LateFault (soaLoop zone fuel z) := by
    intro fuel
    induction fuel with
    | zero =>
      rintro (- | z)
      · exact .ok _
      · exact .error trivial
    | succ fuel ih =>
      rintro (- | z)
      · exact .ok _
      · unfold soaLoop
        split
        · exact .ok _
        · exact ih _
  exact hloop 3 _

theorem processQuestion_raises (question : Question) :
    Raises LateFault (processQuestion limit zones question) := by
  unfold processQuestion
  split
  · exact .raise (late_throw (by decide) _)
  · exact .raise (late_throw (by decide) _)
  · exact .bind (.ofExcept (getSoaZone_fails _)) fun _ => .bind (.when (refer_raises _)) fun _ =>
      .bind (processQtype_raises _ _ _) fun _ => .when (refer_raises _)

/-- **What the second pass raises.** -/
theorem answer_raises (questions : List Question) : Raises LateFault (answer limit zones questions) :=
  .bind (.forM processQuestion_raises) fun _ => .bind .get fun _ =>
    .bind (.forM fun _ => .forM fun _ => (emit_raises _).bind fun _ => refer_raises _) fun _ =>
      .bind .get fun _ => .forM fun _ => .forM fun _ => emit_raises _

/-! ## Malformed requests -/

/-- Whether what is raised is caught as a format error. -/
def formatError : Fault → Bool
  | .raised ex => (catchClause ex.type).any (·.2)
  | _ => false

theorem not_formatError_late {e : Fault} (h : LateFault e) : formatError e ≠ true := by
  have hall : ∀ type ∈ lateTypes, ((catchClause type).any (·.2)) = false := by decide
  cases e with
  | raised ex => simp [formatError, hall ex.type h]
  | diverged => decide
  | wildRead => decide

/-- **A malformed request**: a response, or a standard query with a question that is a format error. -/
def malformed (query : Memory) (n : ℕ) : Bool :=
  match MessageHeader.ofBuffer query n with
  | .error _ => false
  | .ok header => header.getQr || header.getOpcode = 0 &&
    match (parseQuestions query n header ⟨[], [], 0, resize [] MessageHeader.size⟩).1 with
    | .error e => formatError e
    | .ok () => false

theorem processsQuerey_cases (zones : List Zone) (query : Memory) (n : ℕ) (b : Bytes) :
    (processsQuerey zones query n b).state = .unset ∨
      (processsQuerey zones query n b).state = .bad ∧ (processsQuerey zones query n b).result = .ok () ∧
        (processsQuerey zones query n b).replyBuffer.isEmpty = false := by
  rw [processsQuerey_replyBuffer]
  cases hh : MessageHeader.ofBuffer query n with
  | error e =>
    rw [processsQuerey, hh]
    exact .inl rfl
  | ok header =>
    rcases hop : processOpcode zones query n header [] with ⟨r, b'⟩
    rcases caught_or_passed r with ⟨ex, ⟨code, - | -⟩, rfl, hc⟩ | hnone
    · rw [processsQuerey_caught hh hop hc]
      exact .inl rfl
    · rw [processsQuerey_caught hh hop hc]
      exact .inr ⟨rfl, rfl, rfl⟩
    · rw [processsQuerey_passed hh hop hnone]
      exact .inl rfl

theorem state_bad_iff {query : Memory} {b : Bytes} {r : Except Fault Unit}
    (hh : MessageHeader.ofBuffer query n = .ok header)
    (hop : processOpcode zones query n header [] = (r, b)) :
    (processsQuerey zones query n).state = .bad ↔ ∃ e, r = .error e ∧ formatError e = true := by
  rcases caught_or_passed r with ⟨ex, ⟨code, bad⟩, rfl, hc⟩ | hnone
  · rw [processsQuerey_caught hh hop hc]
    cases bad <;> simp [formatError, hc]
  · rw [processsQuerey_passed hh hop hnone]
    apply iff_of_false nofun
    rintro ⟨ex | - | -, hex, hformat⟩
    · simp [formatError, hnone ex hex] at hformat
    · cases hformat
    · cases hformat

theorem processQuestions_formatError {query : Memory} {b : Bytes} :
    (∃ e, (processQuestions limit zones query n header b).1 = .error e ∧ formatError e = true) ↔
      ∃ e, (parseQuestions query n header ⟨[], [], 0, resize b MessageHeader.size⟩).1 = .error e ∧
        formatError e = true := by
  rcases processQuestions_cases limit zones query n header b with
    ⟨e, s, hparse, heq⟩ | ⟨s, r, o, t, hparse, hrun, ⟨truncated, -, heq⟩ | ⟨e, rfl, heq⟩⟩
  · rw [hparse, heq]
  · rw [hparse, heq]
  · rw [hparse, heq]
    refine iff_of_false ?_ (by rintro ⟨e, ⟨⟩, -⟩)
    rintro ⟨_, ⟨⟩, hformat⟩
    exact not_formatError_late (answer_raises s.questions _ _ _ hrun) hformat

/-- **`ProcesssQuerey` sets the state to `BAD`** exactly for a malformed request. -/
theorem bad_iff (zones : List Zone) (query : Memory) (n : ℕ) (b : Bytes) :
    (processsQuerey zones query n b).state = .bad ↔ malformed query n = true := by
  rw [processsQuerey_replyBuffer, malformed]
  cases hh : MessageHeader.ofBuffer query n with
  | error e =>
    rw [processsQuerey, hh]
    exact iff_of_false (by rintro ⟨⟩) (by rintro ⟨⟩)
  | ok header =>
    rw [state_bad_iff hh Prod.mk.eta.symm, processOpcode]
    by_cases hqr : header.getQr = true
    · rw [if_pos hqr]
      simp [hqr, formatError, warThrow, catchClause]
    by_cases hopcode : header.getOpcode = 0
    swap
    · rw [if_neg hqr, if_neg hopcode]
      simp [hqr, hopcode]
    rw [if_neg hqr, if_pos hopcode, processQuestions_formatError]
    rcases hparse : parseQuestions query n header ⟨[], [], 0, resize [] MessageHeader.size⟩
      with ⟨e | u, s⟩
    · simp [hqr, hopcode, hparse]
    · simp [hqr, hopcode, hparse]

/-! ## The counters -/

/-- The counter that is to show a datagram. -/
def Handled.counter (h : Handled) : Counter :=
  if h.state = .bad then .badRequests
  else
    match h.outcome with
    | .sent _ => .okRequests
    | _ => .failedRequests

/-- The counters that `RequestStats` counts the requests in. -/
def requestCounters : List Counter := [.badRequests, .okRequests, .failedRequests]

theorem Handled.counter_mem (h : Handled) : h.counter ∈ requestCounters := by
  unfold Handled.counter
  split_ifs
  · decide
  · split <;> decide

namespace ReceiveLoop

variable {s : ReceiveLoop} {a : Arrival}

/-- **What the counters of a thread are to show**: `bad_requests` the datagrams that were set to `BAD`,
`ok_requests` the other ones that were answered, `failed_requests` the rest; and together all of them. -/
structure Accounted (s : ReceiveLoop) : Prop where
  counters : ∀ i ∈ requestCounters, s.stats.get i = UInt64.ofNat (s.log.countP (·.counter = i))
  total : s.stats.badRequests + s.stats.okRequests + s.stats.failedRequests =
    UInt64.ofNat s.log.length

theorem countP_total : ∀ log : List Handled,
    log.countP (·.counter = .badRequests) + log.countP (·.counter = .okRequests) +
      log.countP (·.counter = .failedRequests) = log.length
  | [] => rfl
  | h :: log => by
    have ih := countP_total log
    have hmem := h.counter_mem
    simp only [requestCounters, List.mem_cons, List.not_mem_nil, or_false] at hmem
    rw [List.countP_cons, List.countP_cons, List.countP_cons, List.length_cons]
    rcases hmem with hc | hc | hc
    all_goals
      simp [hc]
      omega

theorem Accounted.of_counters
    (h : ∀ i ∈ requestCounters, s.stats.get i = UInt64.ofNat (s.log.countP (·.counter = i))) :
    s.Accounted where
  counters := h
  total := by
    have hbad : s.stats.badRequests = _ := h .badRequests (by decide)
    have hok : s.stats.okRequests = _ := h .okRequests (by decide)
    have hfailed : s.stats.failedRequests = _ := h .failedRequests (by decide)
    rw [hbad, hok, hfailed, ← UInt64.ofNat_add, ← UInt64.ofNat_add, countP_total]

theorem accounted_snoc {s' : ReceiveLoop} {h : Handled} {i : Counter} (hs : s.Accounted)
    (hlog : s'.log = s.log ++ [h])
    (hstats : ∀ j ∈ requestCounters, s'.stats.get j = s.stats.get j + if j = i then 1 else 0) :
    s'.Accounted ↔ h.counter = i := by
  have hcount : ∀ j, UInt64.ofNat (s'.log.countP (·.counter = j)) =
      UInt64.ofNat (s.log.countP (·.counter = j)) + if h.counter = j then 1 else 0 := by
    intro j
    rw [hlog, List.countP_append, List.countP_singleton, UInt64.ofNat_add]
    by_cases hj : h.counter = j
    · simp [hj]
    · simp [hj]
  constructor
  · intro hs'
    by_contra hne
    have hmem := h.counter_mem
    have hkept := hs'.counters _ hmem
    rw [hstats _ hmem, hcount, hs.counters _ hmem, if_neg hne, if_pos rfl] at hkept
    exact absurd (add_left_cancel hkept) (by decide)
  · rintro rfl
    refine .of_counters fun j hj => ?_
    rw [hstats j hj, hcount, hs.counters j hj]
    simp only [eq_comm]

theorem served_cases (zones : List Zone) (s : ReceiveLoop) (a : Arrival) :
    ((s.served zones a).outcome = .stuck ∧ (s.processed zones a).state = .unset) ∨
    ((s.served zones a).outcome = .silent ∧ (s.served zones a).state = .unset ∧
      (s.processed zones a).state = .unset) ∨
    ∃ reply, (s.served zones a).outcome = .sent reply ∧ (s.served zones a).state = .sucess := by
  rcases hp : s.processed zones a with ⟨result, b, state⟩
  have hcases := processsQuerey_cases zones (s.query a) (a.datagram.take maxQueryBuffer).length
    s.replyBuffer
  unfold processed at hp
  rw [hp] at hcases
  unfold query at hp
  rw [served, receive]
  dsimp only at hcases ⊢
  rw [hp]
  rcases hcases with rfl | ⟨rfl, rfl, hb⟩
  · -- no state is set
    rcases result with (ex | - | -) | u
    · dsimp only
      split_ifs
      · exact .inr (.inl ⟨rfl, rfl, rfl⟩)
      · exact .inr (.inl ⟨rfl, rfl, rfl⟩)
      · exact .inr (.inr ⟨b, rfl, rfl⟩)
    · exact .inl ⟨rfl, rfl⟩
    · exact .inl ⟨rfl, rfl⟩
    · dsimp only
      split_ifs
      · exact .inr (.inl ⟨rfl, rfl, rfl⟩)
      · exact .inr (.inr ⟨b, rfl, rfl⟩)
  · -- the state is `BAD`, and what is sent sets it to `SUCESS`
    rw [hb]
    exact .inr (.inr ⟨b, rfl, rfl⟩)

/-- **One datagram.** The counters show what they are to show exactly if it is not malformed. -/
theorem accounted_handle (hs : s.Accounted) (hrun : s.stuck = false) (zones : List Zone) (a : Arrival) :
    (s.handle zones a).Accounted ↔
      malformed (s.query a) (a.datagram.take maxQueryBuffer).length = false := by
  have hbad : (s.processed zones a).state = .bad ↔
      malformed (s.query a) (a.datagram.take maxQueryBuffer).length = true := bad_iff ..
  have hbytes : ∀ j ∈ requestCounters, j ≠ .bytesReceived ∧ j ≠ .bytesSent := by decide
  have hhandle : s.handle zones a = _ := if_neg (by rw [hrun]; decide)
  rw [← Bool.not_eq_true, ← hbad]
  rcases served_cases zones s a with ⟨hout, hstate⟩ | ⟨hout, hserved, hstate⟩ | ⟨reply, hout, hserved⟩
  · -- its processing does not end: nothing is counted
    rw [hstate]
    refine iff_of_true (.of_counters fun j hj => ?_) (by decide)
    rw [hhandle]
    simp only [hout, count, if_true, Statistics.get_increment, if_neg (hbytes j hj).1, add_zero]
    exact hs.counters j hj
  · -- nothing is sent
    have hlog : (s.handle zones a).log = s.log ++ [⟨.unset, .silent⟩] := by
      rw [hhandle]
      simp only [hout, hstate, reduceCtorEq, if_false]
    rw [accounted_snoc (i := .failedRequests) hs hlog fun j hj => ?_, hstate]
    · exact iff_of_true rfl (by decide)
    · rw [hhandle]
      simp only [count, hout, hserved, RequestState.count, Statistics.get_increment,
        if_neg (hbytes j hj).1, add_zero]
  · -- a reply is sent
    have hlog : (s.handle zones a).log = s.log ++ [⟨(s.processed zones a).state, .sent reply⟩] := by
      rw [hhandle]
      simp only [hout, reduceCtorEq, if_false]
    rw [accounted_snoc (i := .okRequests) hs hlog fun j hj => ?_]
    · unfold Handled.counter
      split_ifs with hstate
      · exact iff_of_false (by decide) (fun h => h hstate)
      · exact iff_of_true rfl hstate
    · rw [hhandle]
      simp only [count, hout, hserved, RequestState.count, Statistics.get_increment,
        if_neg (hbytes j hj).1, if_neg (hbytes j hj).2, add_zero]

theorem accounted_start (queryBuffer : Memory) (replyBuffer : Bytes) :
    Accounted ⟨queryBuffer, replyBuffer, {}, false, []⟩ :=
  .of_counters fun i _ => Statistics.get_zero i

/-- **Request accounting.** In every run of the loop, after each datagram the counters show what they are
to show, exactly if no datagram that is processed is malformed: for such a datagram the state is `BAD`
until the error reply has been sent, and `SUCESS` when it is counted. -/
theorem accounted_iff (zones : List Zone) (queryBuffer : Memory) (replyBuffer : Bytes)
    (arrivals : List Arrival) :
    Run.Along (handle zones) (fun s a => (s.handle zones a).Accounted)
        ⟨queryBuffer, replyBuffer, {}, false, []⟩ arrivals ↔
      Run.Along (handle zones) (fun s a => s.stuck = false →
        malformed (s.query a) (a.datagram.take maxQueryBuffer).length = false)
        ⟨queryBuffer, replyBuffer, {}, false, []⟩ arrivals := by
  have hstep : ∀ (s : ReceiveLoop) (a : Arrival), s.Accounted → True →
      ((s.handle zones a).Accounted ↔ (s.stuck = false →
        malformed (s.query a) (a.datagram.take maxQueryBuffer).length = false)) := by
    intro s a hs _
    cases hrun : s.stuck with
    | false =>
      rw [accounted_handle hs hrun]
      exact ⟨fun h _ => h, fun h => h rfl⟩
    | true =>
      rw [handle, if_pos hrun]
      exact iff_of_true hs (by rintro ⟨⟩)
  refine @Run.Along.congr _ _ (handle zones) Accounted (fun _ _ => True) _ _ ?_ hstep _ _
    (accounted_start queryBuffer replyBuffer) (Run.Along.always _ _)
  exact fun s a hs hl hq => (hstep s a hs hl).mpr hq

/-- A response, of twelve octets. -/
def aResponse : Arrival := ⟨(⟨7, 0x8000, 0, 0, 0, 0⟩ : MessageHeader).octets, fun _ => 0⟩

/-- A response is counted as a request that was answered. -/
theorem not_accounted : ¬ Run.Along (handle []) (fun s a => (s.handle [] a).Accounted)
    ⟨fun _ => 0, [], {}, false, []⟩ [aResponse] := by
  rintro ⟨h, -⟩
  exact absurd (h.counters .badRequests (by decide)) (by decide +kernel)

end ReceiveLoop

end VUbercool.Dns
