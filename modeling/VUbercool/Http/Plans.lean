import VUbercool.Http.ProcessRequests

/-!
# Plans

What a connection replies to requests, which is decided by the requests and the hosts, and by the clock.

* `Plan`: what a reply is going to say but for its date. `plan`: that of a request. `plans`: those of a list
  of requests, up to the first one that closes the connection.
* `sents`: what is sent for plans, with the dates that the thread formats.
* `processRequest_plan`: **what is sent is what was planned**.
* `Replied`, `replied_processRequest`: what is left of the session then.
-/

namespace VUbercool.Http

open Octets

variable {η : Type} {env : Environment η}

/-! ## Plans -/

/-- **What a reply is going to say**, but for its date, which is that of a reading of the clock. -/
structure Plan where
  reading : ℕ
  code : Int
  msg : Bytes
  compressionType : Option Compression
  body : Bytes
  closeOnReply : Bool

/-- An error. -/
def Plan.error (reading : ℕ) (code : Int) (content : Bytes) : Plan :=
  ⟨reading, code, content, none, content, true⟩

/-- The reply to octets that are no request. -/
def Plan.bad : Plan := .error 0 400 (ascii "Bad Request!")

/-- **The reply to a request**, if there is one: an error is dated by a reading of its own. -/
def plan (env : Environment η) (hosts : η) (req : HttpRequest) : Option Plan :=
  match env.getHost req.host with
  | none => none
  | some host =>
    let r := (env.processRequest host req hosts).1
    match r.outcome with
    | .ok =>
      let type := CurrentReply.encoding req env.config
      some ⟨0, 200, ascii "OK", type, CurrentReply.filter env.compress type r.text, req.closeOnReply⟩
    | .invalidResource => some (.error 1 404 (ascii "Not Found"))
    | .unsupportedMethod => some (.error 1 405 (ascii "Method not allowed"))
    | .exception => none

/-- The data of the hosts after a request. -/
def hostsAfter (env : Environment η) (hosts : η) (req : HttpRequest) : η :=
  match env.getHost req.host with
  | none => hosts
  | some host => (env.processRequest host req hosts).2

/-- **The replies to a list of requests**, and whether the connection is open after them. What is behind a
request that gets no reply, or one that closes the connection, is not answered. -/
def plans (env : Environment η) : η → List HttpRequest → List (Plan × HttpRequest) × Bool
  | _, [] => ([], true)
  | hosts, req :: reqs =>
    match plan env hosts req with
    | none => ([], false)
    | some p =>
      if p.closeOnReply then ([(p, req)], false)
      else
        let r := plans env (hostsAfter env hosts req) reqs
        ((p, req) :: r.1, r.2)

/-! ## What is sent -/

/-- A reply, with the date string that the thread has before it and what the clock is going to show. -/
def Plan.dated (p : Plan) (date : CachedDate) (clock : ℕ → Int) (req : HttpRequest) : Sent where
  code := p.code
  octets := CurrentReply.wire (date.refresh (clock p.reading)) p.code p.msg req p.compressionType p.body
    p.closeOnReply

/-- **What is sent for plans**, each reply with the date that the thread formats for it. -/
def sents : CachedDate → (ℕ → Int) → List (Plan × HttpRequest) → List Sent
  | _, _, [] => []
  | date, clock, (p, req) :: ps =>
    p.dated date clock req :: sents (date.refresh (clock p.reading)) (fun n => clock (n + (p.reading + 1))) ps

/-- The reply of a session. -/
def Plan.sent (p : Plan) (s : Session η) (req : HttpRequest) : Sent := p.dated s.date s.clock req

theorem code_sents (ps : List (Plan × HttpRequest)) : ∀ (date : CachedDate) (clock : ℕ → Int),
    (sents date clock ps).map Sent.code = ps.map fun p => p.1.code := by
  induction ps with
  | nil => exact fun _ _ => rfl
  | cons p ps ih => exact fun date clock => congrArg (p.1.code :: ·) (ih _ _)

/-- **What is sent for a request is what was planned**, whatever the session was used for before. -/
theorem processRequest_plan (s : Session η) :
    (s.processRequest env).1.sent =
      s.sent ++ ((plan env s.hosts s.currentReq).map fun p => p.sent s s.currentReq).toList ∧
    (s.processRequest env).2 = (plan env s.hosts s.currentReq).any fun p => !p.closeOnReply := by
  rw [Session.processRequest, plan]
  cases hhost : env.getHost s.currentReq.host with
  | none => exact ⟨(List.append_nil _).symm, rfl⟩
  | some host =>
    simp only
    rcases hhand : (s.prepare env).hand env host with ⟨outcome, s'⟩
    have hreply : (env.processRequest host s.currentReq s.hosts).1.outcome = outcome :=
      congrArg Prod.fst hhand
    have hs' : s' = ((s.prepare env).hand env host).2 := congrArg Prod.snd hhand.symm
    rw [hreply]
    subst hs'
    cases outcome with
    | ok =>
      refine ⟨congrArg (fun o => s.sent ++ [⟨200, o⟩]) ?_, congrArg not ?_⟩
      · exact CurrentReply.octets_reply _ _ _ _ _ _ _
      · exact CurrentReply.closeOnReply_reply _ _ _ _
    | invalidResource =>
      refine ⟨congrArg (fun o => s.sent ++ [⟨404, o⟩]) ?_, ?_⟩
      · exact CurrentReply.octets_replyWithError _ _ _ _ _ _
      · exact congrArg not (CurrentReply.closeOnReply_replyWithError _ _ _ _ _ _)
    | unsupportedMethod =>
      refine ⟨congrArg (fun o => s.sent ++ [⟨405, o⟩]) ?_, ?_⟩
      · exact CurrentReply.octets_replyWithError _ _ _ _ _ _
      · exact congrArg not (CurrentReply.closeOnReply_replyWithError _ _ _ _ _ _)
    | exception => exact ⟨(List.append_nil _).symm, rfl⟩

theorem sent_badRequest (s : Session η) :
    (s.badRequest env).sent = s.sent ++ [Plan.bad.sent s s.currentReq] := by
  refine congrArg (fun o => s.sent ++ [⟨400, o⟩]) ?_
  exact CurrentReply.octets_replyWithError _ _ _ _ _ _

theorem hosts_processRequest (env : Environment η) (s : Session η) :
    (s.processRequest env).1.hosts = hostsAfter env s.hosts s.currentReq := by
  rw [Session.processRequest, hostsAfter]
  cases env.getHost s.currentReq.host with
  | none => rfl
  | some host =>
    simp only [Session.hand]
    cases (env.processRequest host (s.prepare env).currentReq (s.prepare env).hosts).1.outcome with
    | ok => rfl
    | invalidResource => rfl
    | unsupportedMethod => rfl
    | exception => rfl

/-- **What is left of a session** that has replied to a request. -/
structure Replied (env : Environment η) (s : Session η) (req : HttpRequest) (p : Plan) (s' : Session η) :
    Prop where
  sent : s'.sent = s.sent ++ [p.sent s req]
  hosts : s'.hosts = hostsAfter env s.hosts req
  date : s'.date = s.date.refresh (s.clock p.reading)
  clock : s'.clock = fun n => s.clock (n + (p.reading + 1))
  handled : s'.handled.map (Prod.map some id) =
    s.handled.map (Prod.map some id) ++ [(env.getHost req.host, req)]

theorem replied_processRequest {s : Session η} {p : Plan} (hplan : plan env s.hosts s.currentReq = some p) :
    Replied env s s.currentReq p (s.processRequest env).1 := by
  obtain ⟨hsent, -⟩ := @processRequest_plan η env s
  have hhosts := hosts_processRequest env s
  rw [hplan] at hsent
  rw [plan] at hplan
  rw [Session.processRequest] at hsent hhosts ⊢
  cases hhost : env.getHost s.currentReq.host with
  | none =>
    rw [hhost] at hplan
    cases hplan
  | some host =>
    rw [hhost] at hplan hsent hhosts
    simp only at hplan hsent hhosts ⊢
    rcases hhand : (s.prepare env).hand env host with ⟨outcome, s'⟩
    have hreply : (env.processRequest host s.currentReq s.hosts).1.outcome = outcome :=
      congrArg Prod.fst hhand
    have hs' : s' = ((s.prepare env).hand env host).2 := congrArg Prod.snd hhand.symm
    rw [hreply] at hplan
    rw [hhand] at hsent hhosts
    subst hs'
    have hhandled : ∀ l : List (ℕ × HttpRequest), (l ++ [(host, s.currentReq)]).map (Prod.map some id) =
        l.map (Prod.map some id) ++ [(env.getHost s.currentReq.host, s.currentReq)] := by
      intro l
      rw [List.map_append, hhost]
      rfl
    cases outcome with
    | ok =>
      cases hplan
      exact ⟨hsent, hhosts, CurrentReply.date_reply _ _ _ _ _ _ _, rfl, hhandled _⟩
    | invalidResource =>
      cases hplan
      exact ⟨hsent, hhosts, CurrentReply.date_replyWithError _ _ _ _ _ _, rfl, hhandled _⟩
    | unsupportedMethod =>
      cases hplan
      exact ⟨hsent, hhosts, CurrentReply.date_replyWithError _ _ _ _ _ _, rfl, hhandled _⟩
    | exception => cases hplan

end VUbercool.Http
