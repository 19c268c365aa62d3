import VUbercool.Http.ProcessRequests
import VUbercool.Http.Worker

/-!
# The rounds of the loop and what becomes of a buffer

`ParseRequest`, the hosts and `CurrentReply` (`HttpDaemon.cpp`) give each round of `ProcessRequests` what
its coroutine does next.

* `RequestLoop.look`: what a round makes of its buffer, from the request and the reply.
* `Follows`: the loop goes on as the coroutine does. **`follows_round`**: so does every round.
-/

namespace VUbercool.Http

open Octets

variable {η : Type} {env : Environment η}

/-- **What a round of the loop makes of its buffer.** -/
def RequestLoop.look (env : Environment η) (c : RequestLoop η) : Looked :=
  match { c with needModeData := true }.parseRequest env with
  | (.incomplete, _) => .incomplete
  | (.bad, _) => .bad
  | (.ok, c) =>
    let s := (c.session.processRequest env).1
    if s.sent = c.session.sent then .raised
    else
      .replies
        { time := s.currentReply.now
          success := s.sent.getLast?.any fun sent => sent.code = 200
          bytes := s.currentReply.bytesInReply
          closeOnReply := s.currentReply.closeOnReply
          more := c.requestBytes ≠ s.currentReq.requestLength }

/-- **A round does what becomes of its buffer**: it sends the reply, and the loop goes on as
`ProcessRequests` does when it is written. -/
def Follows (c c' : RequestLoop η) : Looked → Prop
  | .incomplete => c'.isOpen = c.isOpen ∧ c'.needModeData = true ∧ c'.session.sent = c.session.sent
  | .bad => c'.isOpen = false ∧ ∃ sent, c'.session.sent = c.session.sent ++ [sent] ∧ sent.code = 400
  | .raised => c'.isOpen = false ∧ c'.session.sent = c.session.sent
  | .replies reply => (∃ sent, c'.session.sent = c.session.sent ++ [sent] ∧ sent.code ≠ 400 ∧
        (reply.success = true ↔ sent.code = 200) ∧ reply.bytes = sent.octets.length) ∧
      c'.isOpen = (c.isOpen && !reply.closeOnReply) ∧
      (reply.closeOnReply = false → c'.needModeData = !reply.more)

/-- **The octets that are counted are those that are sent.** -/
theorem CurrentReply.bytesInReply_doReply {compress : Compression → Bytes → Bytes} (r : CurrentReply)
    (date : CachedDate) (now : Int) (config : HttpConfig) (text : Bytes) (code : Int) (msg : Bytes)
    (req : HttpRequest) (close : Bool) :
    ({ (r.prepare compress now req config).out text with closeOnReply := close }.doReply compress date code
        msg req).1.bytesInReply =
      ({ (r.prepare compress now req config).out text with closeOnReply := close }.doReply compress date
        code msg req).1.octets.length := by
  rw [doReply_prepare, octets]
  by_cases h : req.method = .head
  · simp [h]
  · simp [h]

namespace Session

theorem bytesInReply_reply (env : Environment η) (s : Session η) (host : ℕ) (code : Int) :
    (((s.prepare env).hand env host).2.reply env code).currentReply.bytesInReply =
      (((s.prepare env).hand env host).2.reply env code).currentReply.octets.length :=
  CurrentReply.bytesInReply_doReply s.currentReply s.date (s.clock 0) env.config
    (env.processRequest host s.currentReq s.hosts).1.text code (ascii "OK") s.currentReq
    s.currentReq.closeOnReply

theorem bytesInReply_replyWithError (s : Session η) (code : Int) (content : Bytes) :
    (s.replyWithError env code content).currentReply.bytesInReply =
      (s.replyWithError env code content).currentReply.octets.length := by
  simp only [replyWithError, CurrentReply.replyWithError_eq_doReply]
  exact CurrentReply.bytesInReply_doReply s.currentReply s.date (s.clock 0) {} content code content
    s.currentReq true

theorem processRequest_cases (env : Environment η) (s : Session η) :
    (s.processRequest env).1.sent = s.sent ∧ (s.processRequest env).2 = false ∨
      ∃ code, (s.processRequest env).1.sent =
          s.sent ++ [⟨code, (s.processRequest env).1.currentReply.octets⟩] ∧ code ≠ 400 ∧
        (s.processRequest env).1.currentReply.bytesInReply =
          (s.processRequest env).1.currentReply.octets.length ∧
        (s.processRequest env).2 = !(s.processRequest env).1.currentReply.closeOnReply := by
  unfold processRequest
  cases env.getHost s.currentReq.host with
  | none => exact .inl ⟨rfl, rfl⟩
  | some host =>
    have hbytes := bytesInReply_reply env s host 200
    rcases hhand : (s.prepare env).hand env host with ⟨outcome, s'⟩
    have hsent : s'.sent = s.sent := congrArg (fun e => e.2.sent) hhand.symm
    rw [hhand] at hbytes
    rw [← hsent]
    simp only
    rw [hhand]
    cases outcome with
    | ok => exact .inr ⟨200, rfl, by decide, hbytes, rfl⟩
    | invalidResource => exact .inr ⟨404, rfl, by decide, bytesInReply_replyWithError s' 404 _, rfl⟩
    | unsupportedMethod => exact .inr ⟨405, rfl, by decide, bytesInReply_replyWithError s' 405 _, rfl⟩
    | exception => exact .inl ⟨rfl, rfl⟩

end Session

namespace RequestLoop

theorem parseRequest_same {c c' : RequestLoop η} {result : ParseResult}
    (h : c.parseRequest env = (result, c')) :
    c'.session.sent = c.session.sent ∧ c'.isOpen = c.isOpen ∧ c'.needModeData = c.needModeData := by
  unfold parseRequest at h
  simp only at h
  split_ifs at h
  all_goals
    cases h
    exact ⟨rfl, rfl, rfl⟩

theorem consume_same (c : RequestLoop η) (n : ℕ) (hmode : c.needModeData = true) :
    (c.consume n).session = c.session ∧ (c.consume n).isOpen = c.isOpen ∧
      (c.consume n).needModeData = !decide (c.requestBytes ≠ n) := by
  unfold consume
  split_ifs with h
  · exact ⟨rfl, rfl, by simp [hmode, h]⟩
  · exact ⟨rfl, rfl, by simp [h]⟩

/-- **Every round** does what becomes of its buffer. -/
theorem follows_round (c : RequestLoop η) : Follows c (c.round env) (c.look env) := by
  rcases hparse : { c with needModeData := true }.parseRequest env with ⟨result, c'⟩
  obtain ⟨hsent, hopen, hmode⟩ := parseRequest_same hparse
  rw [look, round, hparse]
  simp only at hsent hopen hmode
  cases result with
  | incomplete => exact ⟨hopen, hmode, hsent⟩
  | bad => exact ⟨rfl, _, congrArg (· ++ _) hsent, rfl⟩
  | ok =>
    have hcases := c'.session.processRequest_cases env
    rcases hprocess : c'.session.processRequest env with ⟨session, isOpen⟩
    simp only
    rw [hprocess] at hcases ⊢
    simp only at hcases ⊢
    obtain ⟨hnone, rfl⟩ | ⟨code, hone, hbad, hbytes, rfl⟩ := hcases
    · rw [if_pos hnone]
      exact ⟨rfl, hnone.trans hsent⟩
    · have hne : session.sent ≠ c'.session.sent := by
        rw [hone]
        simp
      have hcode : (session.sent.getLast?.any fun sent => sent.code = 200) = true ↔ code = 200 := by
        rw [hone]
        simp
      rw [if_neg hne]
      cases hflag : session.currentReply.closeOnReply with
      | true =>
        refine ⟨⟨⟨code, session.currentReply.octets⟩, ?_, hbad, hcode, hbytes⟩, ?_, fun h => by cases h⟩
        · exact hone.trans (congrArg (· ++ _) hsent)
        · exact (Bool.and_false _).symm
      | false =>
        obtain ⟨hsession, hopen', hmode'⟩ := consume_same { c' with session } session.currentReq.requestLength
          hmode
        refine ⟨⟨⟨code, session.currentReply.octets⟩, ?_, hbad, hcode, hbytes⟩, ?_, fun _ => hmode'⟩
        · show (RequestLoop.consume _ _).session.sent = _
          rw [hsession]
          exact hone.trans (congrArg (· ++ _) hsent)
        · show (RequestLoop.consume _ _).isOpen = _
          rw [hopen']
          simpa using hopen

end RequestLoop

end VUbercool.Http
