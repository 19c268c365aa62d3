import VUbercool.Http.Pipelining

/-!
# What one request does to the next

* `Idle`: a connection that has served requests and waits with an empty buffer.
* **`answer_eq_iff`**: two of them answer the same octets in the same way exactly if these are a request
  or the requests before were of the same version and both or neither `HEAD`.
-/

namespace VUbercool.Http

open Octets Reader

variable {η : Type} {env : Environment η}

/-! ## What distinguishes replies -/

/-- Requests of the same version, both or neither `HEAD`. -/
structure Alike (req req' : HttpRequest) : Prop where
  version : req.version = req'.version
  head : req.method = .head ↔ req'.method = .head

theorem version_of_name {req req' : HttpRequest}
    (h : req.getHttpVersionName = req'.getHttpVersionName) : req.version = req'.version := by
  unfold HttpRequest.getHttpVersionName at h
  cases hv : req.version <;> cases hv' : req'.version <;> rw [hv, hv'] at h <;>
    first | rfl | exact absurd h (by decide +kernel)

theorem space_notMem_name (req : HttpRequest) : 32 ∉ req.getHttpVersionName := by
  unfold HttpRequest.getHttpVersionName
  cases req.version with
  | http10 => decide +kernel
  | http11 => decide +kernel
  | unknown => decide +kernel

/-- What a reply says after its version and before its date. -/
def afterVersion (code : Int) (msg : Bytes) : Bytes := decimalInt code ++ ascii " " ++ msg ++ crlf

/-- What a reply says after its date. -/
def afterDate (p : Plan) (req : HttpRequest) : Bytes :=
  crlf ++ CurrentReply.fields p.body.length p.compressionType p.closeOnReply ++ crlf ++
    if req.method = .head then [] else p.body

theorem octets_sent (p : Plan) (s : Session η) (req : HttpRequest) : (p.sent s req).octets =
    req.getHttpVersionName ++ 32 :: (afterVersion p.code p.msg ++
      ((s.date.refresh (s.clock p.reading)).text ++ afterDate p req)) := by
  have hspace : ascii " " = [32] := by decide +kernel
  simp only [Plan.sent, Plan.dated, CurrentReply.wire, CurrentReply.head, afterVersion, afterDate, hspace,
    List.append_assoc, List.cons_append, List.nil_append]

/-- **Replies to the same request** differ by their dates. -/
theorem sent_eq_iff_date (p : Plan) (s s' : Session η) (req : HttpRequest) :
    p.sent s req = p.sent s' req ↔
      (s.date.refresh (s.clock p.reading)).text = (s'.date.refresh (s'.clock p.reading)).text := by
  rw [Sent.mk.injEq, octets_sent, octets_sent]
  simp [Plan.sent, Plan.dated]

theorem refresh_eq_iff (date date' : CachedDate) (now : Int) :
    (date.refresh now).text = (date'.refresh now).text ↔ now ≠ 0 ∨ date.text = date'.text := by
  unfold CachedDate.refresh
  by_cases h : now = 0
  · simp [h]
  · simp [h]

theorem afterDate_bad : ∃ l : Bytes, ∀ req' : HttpRequest,
    afterDate .bad req' = l ++ 10 :: if req'.method = .head then [] else ascii "Bad Request!" := by
  refine ⟨crlf ++ CurrentReply.fields Plan.bad.body.length none true ++ [13], fun req' => ?_⟩
  simp only [afterDate, List.append_assoc, crlf]
  rfl

theorem ne_of_last (u v : Bytes) : u ++ [10] ≠ v ++ 10 :: ascii "Bad Request!" := by
  intro h
  have hbody : ascii "Bad Request!" = ascii "Bad Request" ++ [33] := by decide +kernel
  have hlast := congrArg List.getLast? h
  rw [hbody, ← List.cons_append, ← List.append_assoc, List.getLast?_concat, List.getLast?_concat] at hlast
  exact absurd hlast (by decide)

/-- **Replies to octets that are no request** differ by the version and the method of the request before,
and by their dates. -/
theorem sent_bad_eq_iff (s s' : Session η) (req req' : HttpRequest) :
    Plan.bad.sent s req = Plan.bad.sent s' req' ↔ Alike req req' ∧
      (s.date.refresh (s.clock 0)).text = (s'.date.refresh (s'.clock 0)).text := by
  rw [Sent.mk.injEq, octets_sent, octets_sent,
    append_cons_inj (space_notMem_name req) (space_notMem_name req'),
    List.append_cancel_left_eq]
  obtain ⟨l, hl⟩ := afterDate_bad
  rw [hl, hl]
  constructor
  · rintro ⟨-, hname, hrest⟩
    rw [← List.append_assoc, ← List.append_assoc] at hrest
    have hhead : req.method = .head ↔ req'.method = .head := by
      by_cases h : req.method = .head <;> by_cases h' : req'.method = .head
      · exact iff_of_true h h'
      · rw [if_pos h, if_neg h'] at hrest
        exact absurd hrest (ne_of_last _ _)
      · rw [if_neg h, if_pos h'] at hrest
        exact absurd hrest.symm (ne_of_last _ _)
      · exact iff_of_false h h'
    refine ⟨⟨version_of_name hname, hhead⟩, ?_⟩
    simp only [hhead] at hrest
    exact List.append_cancel_right (List.append_cancel_right hrest)
  · rintro ⟨halike, hdate⟩
    have hname : req.getHttpVersionName = req'.getHttpVersionName := by
      rw [HttpRequest.getHttpVersionName, HttpRequest.getHttpVersionName, halike.version]
    refine ⟨rfl, hname, ?_⟩
    have hdate' : (s.date.refresh (s.clock Plan.bad.reading)).text =
      (s'.date.refresh (s'.clock Plan.bad.reading)).text := hdate
    simp only [hdate', halike.head]

/-! ## Connections that wait -/

/-- **A connection that has served some requests and waits with an empty buffer.** -/
structure Idle (env : Environment η) (c : RequestLoop η) : Prop where
  reached : ∃ date clock hosts pieces rest,
    (RequestLoop.machine env).Reaches (start date clock hosts, pieces) (c, rest)
  isOpen : c.isOpen = true
  empty : c.requestBytes = 0
  waits : c.needModeData = true

/-- **What a connection does with a buffer**: what it sends, and whether it stays open. -/
def answer (env : Environment η) (c : RequestLoop η) (content : Bytes) : List Sent × Bool :=
  let c' := (c.read content).round env
  (c'.session.sent.drop c.session.sent.length, c'.isOpen)

/-- A buffer that `ParseRequest` does not call incomplete. -/
def Decided (env : Environment η) (content : Bytes) : Prop :=
  (parseHttpRequest env.grammar content).isSome ∨ bufferSize - 1 ≤ content.length ∨ eohMarker <:+: content

theorem abs_answer {c : RequestLoop η} (hc : Idle env c) (content : Bytes) :
    ((c.read content).round env).abs =
      (⟨c.session, content, true, true⟩ : Reader (Session η) UInt8).act (look env c.session content) := by
  have hempty : c.buffered = [] := by rw [RequestLoop.buffered, hc.empty]; rfl
  have habs : (c.read content).abs = ⟨c.session, content, true, true⟩ := by
    rw [RequestLoop.abs, RequestLoop.buffered_read, hempty, List.nil_append]
    exact congrArg₂ (Reader.mk c.session content) hc.waits hc.isOpen
  rw [RequestLoop.abs_round, habs]
  rfl

theorem answer_request {c : RequestLoop η} (hc : Idle env c) {content : Bytes} {req : HttpRequest}
    (hreq : parseHttpRequest env.grammar content = some req) :
    answer env c content =
      (((plan env c.session.hosts req).map fun p => p.sent c.session req).toList,
        (plan env c.session.hosts req).any fun p => !p.closeOnReply) := by
  obtain ⟨hsent, hopen⟩ := @processRequest_plan η env { c.session with currentReq := req }
  have habs := abs_answer hc content
  rw [look_some hreq, verdict] at habs
  rcases hserved : { c.session with currentReq := req }.processRequest env with ⟨s', isOpen⟩
  rw [hserved] at habs hsent hopen
  have hafter : ((c.read content).round env).session = s' ∧
      ((c.read content).round env).isOpen = isOpen := by
    cases isOpen with
    | false => exact ⟨congrArg Reader.state habs, congrArg Reader.isOpen habs⟩
    | true => exact ⟨congrArg Reader.state habs, congrArg Reader.isOpen habs⟩
  rw [answer, hafter.1, hafter.2]
  refine Prod.ext ?_ hopen
  exact (congrArg (List.drop _) hsent).trans List.drop_left

theorem answer_bad {c : RequestLoop η} (hc : Idle env c) {content : Bytes}
    (hnone : parseHttpRequest env.grammar content = none)
    (hbad : bufferSize - 1 ≤ content.length ∨ eohMarker <:+: content) :
    answer env c content = ([Plan.bad.sent c.session c.session.currentReq], false) := by
  have habs := abs_answer hc content
  rw [look_none hnone, if_pos hbad] at habs
  have hsession : ((c.read content).round env).session = c.session.badRequest env :=
    congrArg Reader.state habs
  rw [answer, hsession, sent_badRequest]
  exact Prod.ext List.drop_left (congrArg Reader.isOpen habs)

/-- Which reading of the clock dates the reply to a request, if there is a reply. -/
def dating (env : Environment η) (hosts : η) (req : HttpRequest) : Option ℕ :=
  match env.getHost req.host with
  | none => none
  | some host =>
    match (env.processRequest host req hosts).1.outcome with
    | .ok => some 0
    | .invalidResource | .unsupportedMethod => some 1
    | .exception => none

theorem map_reading_plan (hosts : η) (req : HttpRequest) :
    (plan env hosts req).map Plan.reading = dating env hosts req := by
  rw [plan, dating]
  cases env.getHost req.host with
  | none => rfl
  | some host =>
    simp only
    cases (env.processRequest host req hosts).1.outcome with
    | ok => rfl
    | invalidResource => rfl
    | unsupportedMethod => rfl
    | exception => rfl

/-- **Two connections that wait do the same with a buffer exactly if it is a request or the requests before
were alike**, and the clock is not at the value that leaves their threads with the dates they had. -/
theorem answer_eq_iff (env : Environment η) (c c' : RequestLoop η) (hc : Idle env c) (hc' : Idle env c')
    (hhosts : c.session.hosts = c'.session.hosts) (hclock : c.session.clock = c'.session.clock)
    (content : Bytes) (hcontent : Decided env content) :
    answer env c content = answer env c' content ↔
      match parseHttpRequest env.grammar content with
      | some req => ∀ n, dating env c.session.hosts req = some n →
          c.session.clock n ≠ 0 ∨ c.session.date.text = c'.session.date.text
      | none => Alike c.session.currentReq c'.session.currentReq ∧
          (c.session.clock 0 ≠ 0 ∨ c.session.date.text = c'.session.date.text) := by
  cases hreq : parseHttpRequest env.grammar content with
  | some req =>
    simp only
    rw [answer_request hc hreq, answer_request hc' hreq, ← hhosts, ← map_reading_plan]
    cases plan env c.session.hosts req with
    | none => simp
    | some p => simp [sent_eq_iff_date, ← hclock, refresh_eq_iff]
  | none =>
    have hbad : bufferSize - 1 ≤ content.length ∨ eohMarker <:+: content := by
      rcases hcontent with h | h
      · rw [hreq] at h
        cases h
      · exact h
    simp only
    rw [answer_bad hc hreq hbad, answer_bad hc' hreq hbad, Prod.mk.injEq, List.singleton_inj,
      sent_bad_eq_iff, ← hclock, refresh_eq_iff]
    simp

/-! ## A connection that has served a request -/

theorem clock_processRequest (s : Session η) :
    ∃ k, (s.processRequest env).1.clock = fun n => s.clock (n + k) := by
  unfold Session.processRequest
  cases env.getHost s.currentReq.host with
  | none => exact ⟨0, rfl⟩
  | some host =>
    simp only
    rcases hhand : (s.prepare env).hand env host with ⟨outcome, s'⟩
    have hs' : s' = ((s.prepare env).hand env host).2 := congrArg Prod.snd hhand.symm
    subst hs'
    cases outcome with
    | ok => exact ⟨1, rfl⟩
    | invalidResource => exact ⟨2, rfl⟩
    | unsupportedMethod => exact ⟨2, rfl⟩
    | exception => exact ⟨1, rfl⟩

/-- A new connection. -/
def sampleStart : RequestLoop Unit := start .empty (fun _ => 1) ()

/-- The connection after the sample request. -/
def sampleServed : RequestLoop Unit := (sampleStart.read (sampleText ++ crlf)).round sampleEnvironment

theorem idle_sampleStart : Idle sampleEnvironment sampleStart :=
  ⟨⟨_, _, _, [], [], .refl⟩, rfl, rfl, rfl⟩

theorem parse_sampleText :
    parseHttpRequest sampleEnvironment.grammar (sampleText ++ crlf) = some sampleParsed := by
  decide +kernel

/-- The session of the new connection with the sample request. -/
def sampleSession : Session Unit := { sampleStart.session with currentReq := sampleParsed }

theorem session_sampleServed : ∃ s : Session Unit,
    sampleSession.processRequest sampleEnvironment = (s, true) ∧ sampleServed.abs = fresh s := by
  obtain ⟨s, hserved⟩ : ∃ s, sampleSession.processRequest sampleEnvironment = (s, true) :=
    ⟨_, @Session.processRequest_ok _ sampleEnvironment sampleSession 1 rfl rfl⟩
  have hlen : (sampleText ++ crlf).length = 29 := by decide +kernel
  have hlook : look sampleEnvironment sampleStart.session (sampleText ++ crlf) =
      .take (sampleText ++ crlf).length s := by
    rw [look_some parse_sampleText, hlen]
    exact congrArg (fun e : Session Unit × Bool => match e with
      | (s, true) => Verdict.take 29 s
      | (s, false) => Verdict.stop s) hserved
  refine ⟨s, hserved, ?_⟩
  rw [sampleServed, abs_answer idle_sampleStart]
  exact round_fresh hlook

theorem idle_sampleServed : Idle sampleEnvironment sampleServed := by
  obtain ⟨s, -, habs⟩ := session_sampleServed
  refine ⟨⟨.empty, fun _ => 1, (), [sampleText ++ crlf], [], .single ?_⟩, congrArg Reader.isOpen habs, ?_,
    congrArg Reader.asks habs⟩
  · exact Machine.step_read rfl rfl _ _
  · rw [← RequestLoop.length_buffered]
    exact congrArg (fun r => r.pending.length) habs

theorem clock_sampleServed : sampleStart.session.clock = sampleServed.session.clock := by
  obtain ⟨s, hserved, habs⟩ := session_sampleServed
  obtain ⟨k, hk⟩ := @clock_processRequest _ sampleEnvironment sampleSession
  rw [hserved] at hk
  have hs : sampleServed.session = s := congrArg Reader.state habs
  rw [hs]
  exact hk.symm

theorem currentReq_sampleServed : sampleServed.session.currentReq = sampleParsed := by
  obtain ⟨s, hserved, habs⟩ := session_sampleServed
  have hs : sampleServed.session = s := congrArg Reader.state habs
  have hreq := RequestLoop.currentReq_processRequest sampleEnvironment sampleSession
  rw [hserved] at hreq
  rw [hs]
  exact hreq

/-- The same request is answered in the same way again. -/
theorem answer_eq_again : answer sampleEnvironment sampleStart (sampleText ++ crlf) =
    answer sampleEnvironment sampleServed (sampleText ++ crlf) := by
  refine (answer_eq_iff sampleEnvironment sampleStart sampleServed idle_sampleStart idle_sampleServed rfl
    clock_sampleServed (sampleText ++ crlf) (.inl (by rw [parse_sampleText]; rfl))).mpr ?_
  rw [parse_sampleText]
  exact fun n _ => .inl (by decide : (1 : Int) ≠ 0)

/-- **An empty line is answered in one way by a new connection, and in another after a request.** -/
theorem not_answer_eq : Idle sampleEnvironment sampleStart ∧ Idle sampleEnvironment sampleServed ∧
    sampleStart.session.hosts = sampleServed.session.hosts ∧
    sampleStart.session.clock = sampleServed.session.clock ∧ Decided sampleEnvironment eohMarker ∧
    answer sampleEnvironment sampleStart eohMarker ≠ answer sampleEnvironment sampleServed eohMarker := by
  have hnone : parseHttpRequest sampleEnvironment.grammar eohMarker = none := by decide +kernel
  have hbad : bufferSize - 1 ≤ eohMarker.length ∨ eohMarker <:+: eohMarker := .inr (List.infix_refl _)
  refine ⟨idle_sampleStart, idle_sampleServed, rfl, clock_sampleServed, .inr hbad, ?_⟩
  rw [answer_bad idle_sampleStart hnone hbad, answer_bad idle_sampleServed hnone hbad]
  intro h
  obtain ⟨halike, -⟩ := (sent_bad_eq_iff _ _ _ _).mp (List.singleton_inj.mp (Prod.mk.inj h).1)
  have hversion := halike.version
  rw [currentReq_sampleServed] at hversion
  cases hversion

end VUbercool.Http
