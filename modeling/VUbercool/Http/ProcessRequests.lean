import VUbercool.Http.CurrentReply
import VUbercool.Lib.Reader

/-!
# Connections

`Connection::ProcessRequests` and `Connection::ParseRequest` (`HttpDaemon.cpp`).

* `Environment`: the parser, the compression, the configuration and the hosts.
* `Session`: what a connection carries from request to request. `processRequest`: the case of a request
  that was parsed; `badRequest`: the case of one that was not.
* `RequestLoop`: the loop with its buffer. `round`, `read`; `machine`: the loop over the pieces it reads.
* `refines`: **the loop is a `Reader`**, of which `look` says what it makes of what it has read.
-/

namespace VUbercool.Http

open Octets Reader

/-- How `Host::ProcessRequest` ends. -/
inductive HostOutcome where
  | ok
  | invalidResource
  | unsupportedMethod
  | exception
  deriving DecidableEq

/-- What a host writes, and how it ends. -/
structure HostReply where
  text : Bytes
  outcome : HostOutcome

/-- **What a connection runs in**: the grammar, the compression filters, the configuration and the hosts,
whose data are of type `η`. `getHost` is `VhostManager::GetHost`, which may throw. -/
structure Environment (η : Type) where
  grammar : Grammar
  compress : Compression → Bytes → Bytes
  config : HttpConfig
  getHost : Bytes → Option ℕ
  processRequest : ℕ → HttpRequest → η → HostReply × η

/-- A reply that was sent. -/
structure Sent where
  code : Int
  octets : Bytes
  deriving DecidableEq

/-- **What a connection carries from request to request**: `current_req_`, `current_reply_`, the date
string of its thread, what the clock is going to show and the data of the hosts; and, for the record,
what the hosts were handed and what was sent. -/
structure Session (η : Type) where
  currentReq : HttpRequest := {}
  currentReply : CurrentReply := {}
  date : CachedDate
  clock : ℕ → Int
  hosts : η
  handled : List (ℕ × HttpRequest) := []
  sent : List Sent := []

variable {η : Type} (env : Environment η)

namespace Session

/-- The clock is read. -/
def tick (s : Session η) : Session η := { s with clock := fun n => s.clock (n + 1) }

/-- `current_reply_.Prepare`. -/
def prepare (s : Session η) : Session η :=
  { s.tick with
    currentReply := s.currentReply.prepare env.compress (s.clock 0) s.currentReq env.config }

/-- `host->ProcessRequest`. -/
def hand (s : Session η) (host : ℕ) : HostOutcome × Session η :=
  let r := env.processRequest host s.currentReq s.hosts
  (r.1.outcome, { s with
    currentReply := s.currentReply.out r.1.text
    hosts := r.2
    handled := s.handled ++ [(host, s.currentReq)] })

/-- `current_reply_.Reply`, and `async_write`. -/
def reply (s : Session η) (code : Int) : Session η :=
  let r := s.currentReply.reply env.compress s.date code s.currentReq
  { s with currentReply := r.1, date := r.2, sent := s.sent ++ [⟨code, r.1.octets⟩] }

/-- `current_reply_.ReplyWithError`, and `async_write`. -/
def replyWithError (s : Session η) (code : Int) (content : Bytes) : Session η :=
  let r := s.currentReply.replyWithError env.compress s.date (s.clock 0) code content s.currentReq
  { s.tick with currentReply := r.1, date := r.2, sent := s.sent ++ [⟨code, r.1.octets⟩] }

/-- The case `ParseResult::OK`, and whether the connection stays open. -/
def processRequest (s : Session η) : Session η × Bool :=
  match env.getHost s.currentReq.host with
  | none => (s, false)
  | some host =>
    match (s.prepare env).hand env host with
    | (.ok, s) =>
      let s := s.reply env 200
      (s, !s.currentReply.closeOnReply)
    | (.invalidResource, s) =>
      let s := s.replyWithError env 404 (ascii "Not Found")
      (s, !s.currentReply.closeOnReply)
    | (.unsupportedMethod, s) =>
      let s := s.replyWithError env 405 (ascii "Method not allowed")
      (s, !s.currentReply.closeOnReply)
    | (.exception, s) => (s, false)

/-- The case `ParseResult::BAD`. -/
def badRequest (s : Session η) : Session η := s.replyWithError env 400 (ascii "Bad Request!")

end Session

/-! ### What becomes of a request -/

namespace Session

variable {env}

theorem processRequest_ok {s : Session η} {host : ℕ} (hhost : env.getHost s.currentReq.host = some host)
    (hok : (env.processRequest host s.currentReq s.hosts).1.outcome = .ok) :
    s.processRequest env =
      (((s.prepare env).hand env host).2.reply env 200, !s.currentReq.closeOnReply) := by
  have hhand : (s.prepare env).hand env host = (.ok, ((s.prepare env).hand env host).2) := by
    rw [← hok]
    rfl
  rw [processRequest, hhost]
  simp only
  rw [hhand]
  exact congrArg (fun b => (_, !b)) (CurrentReply.closeOnReply_reply _ _ _ _)

/-- **A request gets one reply, which is not 400**, or none, and then the connection closes. -/
theorem sent_processRequest (s : Session η) :
    (∃ sent, sent.code ≠ 400 ∧ (s.processRequest env).1.sent = s.sent ++ [sent]) ∨
      ((s.processRequest env).1.sent = s.sent ∧ (s.processRequest env).2 = false) := by
  unfold processRequest
  cases env.getHost s.currentReq.host with
  | none => exact .inr ⟨rfl, rfl⟩
  | some host =>
    rcases hhand : (s.prepare env).hand env host with ⟨outcome, s'⟩
    have hsent : s'.sent = s.sent := congrArg (fun e => e.2.sent) hhand.symm
    rw [← hsent]
    simp only
    rw [hhand]
    cases outcome with
    | ok => exact .inl ⟨_, (by decide : (200 : Int) ≠ 400), rfl⟩
    | invalidResource => exact .inl ⟨_, (by decide : (404 : Int) ≠ 400), rfl⟩
    | unsupportedMethod => exact .inl ⟨_, (by decide : (405 : Int) ≠ 400), rfl⟩
    | exception => exact .inr ⟨rfl, rfl⟩

end Session

/-! ## The loop -/

/-- **`Connection::ProcessRequests`**: `request_buffer_`, `request_bytes`, `need_mode_data`, the request
that the grammar of the thread was left with, and whether the socket is open. -/
structure RequestLoop (η : Type) where
  requestBuffer : ℕ → UInt8 := fun _ => 0
  requestBytes : ℕ := 0
  needModeData : Bool := true
  parser : HttpRequest := {}
  session : Session η
  isOpen : Bool := true

/-- `ParseResult`. -/
inductive ParseResult where
  | ok | incomplete | bad
  deriving DecidableEq

/-- The size of `request_buffer_`. -/
def bufferSize : ℕ := 1024 * 8

namespace RequestLoop

/-- What has been received and not consumed. -/
def buffered (c : RequestLoop η) : Bytes := (List.range c.requestBytes).map c.requestBuffer

/-- `ParseRequest`. The buffer counts as full one octet early. -/
def parseRequest (c : RequestLoop η) : ParseResult × RequestLoop η :=
  let buffer := c.buffered
  match parse env.grammar buffer c.parser c.session.currentReq with
  | (success, parser, currentReq) =>
    let c := { c with parser, session := { c.session with currentReq } }
    if success then (.ok, c)
    else if bufferSize - 1 ≤ c.requestBytes then (.bad, c)
    else if eohMarker <:+: buffer then (.bad, c)
    else (.incomplete, c)

/-- `async_read_some`. -/
def read (c : RequestLoop η) (piece : Bytes) : RequestLoop η :=
  { c with
    requestBuffer := fun i =>
      if c.requestBytes ≤ i ∧ i < c.requestBytes + piece.length then piece.getD (i - c.requestBytes) 0
      else c.requestBuffer i
    requestBytes := c.requestBytes + piece.length }

/-- What is left of the buffer when `n` octets of it have been consumed. -/
def consume (c : RequestLoop η) (n : ℕ) : RequestLoop η :=
  if c.requestBytes = n then { c with requestBytes := 0 }
  else
    -- `memmove`
    { c with
      requestBuffer := fun i =>
        if i < c.requestBytes - n then c.requestBuffer (n + i) else c.requestBuffer i
      requestBytes := c.requestBytes - n
      needModeData := false }

/-- One round on what has been read. -/
def round (c : RequestLoop η) : RequestLoop η :=
  match { c with needModeData := true }.parseRequest env with
  | (.ok, c) =>
    match c.session.processRequest env with
    | (session, true) => { c with session }.consume session.currentReq.requestLength
    | (session, false) => { c with session, isOpen := false }
  | (.bad, c) => { c with session := c.session.badRequest env, isOpen := false }
  | (.incomplete, c) => c

/-- The loop as a machine. -/
def machine : Machine (RequestLoop η) UInt8 where
  isOpen c := c.isOpen
  asks c := c.needModeData
  held c := c.requestBytes
  read c piece := c.read piece
  round c := c.round env

/-- A connection with the data and the dates that there are now. -/
def resume (c : RequestLoop η) (hosts : η) (date : CachedDate) (clock : ℕ → Int) : RequestLoop η :=
  { c with session := { c.session with hosts, date, clock } }

end RequestLoop

/-- A new connection. -/
def start (date : CachedDate) (clock : ℕ → Int) (hosts : η) : RequestLoop η :=
  { session := { date, clock, hosts } }

/-! ## The loop as a reader -/

/-- **What the loop makes of what it has read.** -/
def look (s : Session η) (buffer : Bytes) : Verdict (Session η) :=
  match parseHttpRequest env.grammar buffer with
  | some req =>
    match { s with currentReq := req }.processRequest env with
    | (s, true) => .take req.requestLength s
    | (s, false) => .stop s
  | none =>
    if bufferSize - 1 ≤ buffer.length ∨ eohMarker <:+: buffer then .stop (s.badRequest env) else .wait

/-- The loop as a reader: the session and what is buffered. -/
def RequestLoop.abs (c : RequestLoop η) : Reader (Session η) UInt8 :=
  ⟨c.session, c.buffered, c.needModeData, c.isOpen⟩

namespace RequestLoop

theorem length_buffered (c : RequestLoop η) : c.buffered.length = c.requestBytes := by
  rw [buffered, List.length_map, List.length_range]

theorem buffered_read (c : RequestLoop η) (piece : Bytes) :
    (c.read piece).buffered = c.buffered ++ piece := by
  apply List.ext_getElem?
  intro i
  by_cases hi : i < c.requestBytes
  · rw [List.getElem?_append_left (by rwa [length_buffered])]
    have hi' : i < c.requestBytes + piece.length := by omega
    simp [buffered, read, hi, hi', Nat.not_le.mpr hi]
  · rw [List.getElem?_append_right (by rw [length_buffered]; omega), length_buffered]
    by_cases hi' : i < c.requestBytes + piece.length
    · have hp : i - c.requestBytes < piece.length := by omega
      simp [buffered, read, hi', Nat.not_lt.mp hi, List.getD_eq_getElem?_getD, hp]
    · have hp : piece.length ≤ i - c.requestBytes := by omega
      simp [buffered, read, hi', hp]

/-- **`memmove` drops what has been consumed.** -/
theorem abs_consume (c : RequestLoop η) (h : c.needModeData = true) (n : ℕ) :
    (c.consume n).abs = { c.abs with
      pending := c.buffered.drop n, asks := c.buffered.length == n } := by
  rw [consume, length_buffered]
  split_ifs with hn
  · have hdrop : c.buffered.drop n = [] := List.drop_eq_nil_of_le (by rw [length_buffered, hn])
    rw [hdrop]
    simp [abs, buffered, h, hn]
  · have hdrop : (List.range (c.requestBytes - n)).map (fun i => c.requestBuffer (n + i)) =
        c.buffered.drop n := by
      apply List.ext_getElem?
      intro i
      rw [List.getElem?_drop]
      by_cases hi : i < c.requestBytes - n
      · have hi' : n + i < c.requestBytes := by omega
        simp [buffered, hi, hi']
      · have hi' : ¬ n + i < c.requestBytes := by omega
        simp [buffered, hi, hi']
    have hmove : (List.range (c.requestBytes - n)).map (fun i =>
        if i < c.requestBytes - n then c.requestBuffer (n + i) else c.requestBuffer i) =
        c.buffered.drop n := by
      rw [← hdrop]
      refine List.map_congr_left fun i hi => ?_
      rw [if_pos (List.mem_range.mp hi)]
    simp only [abs]
    unfold buffered
    simp only [hmove]
    congr 1
    exact (beq_eq_false_iff_ne.mpr hn).symm

theorem currentReq_processRequest (s : Session η) :
    (s.processRequest env).1.currentReq = s.currentReq := by
  unfold Session.processRequest
  cases env.getHost s.currentReq.host with
  | none => rfl
  | some host =>
    simp only [Session.hand]
    cases (env.processRequest host (s.prepare env).currentReq (s.prepare env).hosts).1.outcome with
    | ok => rfl
    | invalidResource => rfl
    | unsupportedMethod => rfl
    | exception => rfl

theorem abs_round (c : RequestLoop η) : (c.round env).abs = c.abs.round (look env) := by
  rw [round, parseRequest, parse_eq, Reader.round, look]
  simp only [abs]
  have hbuf : { c with needModeData := true }.buffered = c.buffered := rfl
  rw [hbuf]
  cases hp : parseHttpRequest env.grammar c.buffered with
  | none =>
    simp only [Option.isSome_none, Bool.false_eq_true, if_false, Option.getD_none, length_buffered]
    by_cases hfull : bufferSize - 1 ≤ c.requestBytes
    · rw [if_pos hfull, if_pos (Or.inl hfull)]
      rfl
    · rw [if_neg hfull]
      by_cases heoh : eohMarker <:+: c.buffered
      · rw [if_pos heoh, if_pos (Or.inr heoh)]
        rfl
      · rw [if_neg heoh, if_neg (not_or.mpr ⟨hfull, heoh⟩)]
        rfl
  | some req =>
    simp only [Option.isSome_some, if_true, Option.getD_some]
    have hreq := currentReq_processRequest env { c.session with currentReq := req }
    generalize { c.session with currentReq := req }.processRequest env = e at hreq
    rcases e with ⟨session, _ | _⟩
    · rfl
    · simp only at hreq
      have h := abs_consume { c with needModeData := true, parser := (env.grammar c.buffered {}).2, session }
        rfl session.currentReq.requestLength
      rw [hreq] at h
      simp only [hreq]
      exact h

/-- **The loop does in its own terms what the reader does.** -/
theorem refines : (machine env).Refines (Reader.machine (look env)) abs where
  isOpen _ := rfl
  asks _ := rfl
  held c := length_buffered c
  read c piece := congrArg (fun b => (⟨c.session, b, c.needModeData, c.isOpen⟩ : Reader _ _))
    (buffered_read c piece)
  round c := abs_round env c

end RequestLoop

end VUbercool.Http
