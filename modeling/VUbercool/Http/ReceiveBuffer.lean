import Mathlib.Algebra.GroupWithZero.Nat
import Mathlib.Data.List.Chain
import VUbercool.Http.Pipelining

/-!
# The receive buffer

* `iterate`: one iteration of the loop of `ProcessRequests` on a socket that may fail, with what it does
  to the buffer (`Iteration`).
* `BoundedRequests`: all that is asked of the parser.
* `Buffered`: **the invariant of the loop**. `receiveBuffer`: it holds through every run.
* `iterates_of_reaches`: a run of the machine is a run of iterations, where nothing fails.
-/

namespace VUbercool.Http

open Octets Reader

variable {η : Type} (env : Environment η)

/-! ## Iterations -/

/-- What the socket makes of an iteration: what its read delivers, `none` for an error, and whether its
write succeeds. -/
structure Service where
  piece : Option Bytes
  writes : Bool

/-- **What an iteration does to the buffer**: where its read begins and what that delivers,
`request_bytes` when it parses, source and length of its `memmove`, the length of the request it
consumes, and whether it closes the connection. -/
structure Iteration where
  read : Option (ℕ × Bytes) := none
  held : ℕ
  move : Option (ℕ × ℕ) := none
  took : ℕ := 0
  closes : Bool

namespace Iteration

/-- The octets that an iteration receives. -/
def received (it : Iteration) : Bytes := (it.read.map Prod.snd).getD []

/-- An iteration that reads an octet, consumes one or closes the connection. -/
def Progress (it : Iteration) : Prop := it.received ≠ [] ∨ 0 < it.took ∨ it.closes = true

end Iteration

namespace RequestLoop

/-- The length of the request that a round consumes, where it consumes one. -/
def consumed (c : RequestLoop η) : Option ℕ :=
  match { c with needModeData := true }.parseRequest env with
  | (.ok, c) =>
    match c.session.processRequest env with
    | (session, true) => some session.currentReq.requestLength
    | (_, false) => none
  | (.bad, _) => none
  | (.incomplete, _) => none

/-- A round that has something to write. -/
def answers (c : RequestLoop η) : Bool :=
  ({ c with needModeData := true }.parseRequest env).1 != .incomplete

/-- The rest of an iteration, after `read`. A write that fails closes the connection. -/
def finish (c : RequestLoop η) (writes : Bool) (read : Option (ℕ × Bytes)) :
    RequestLoop η × Iteration :=
  if c.answers env && !writes then
    ({ c with session := (c.round env).session, isOpen := false },
      { read, held := c.requestBytes, closes := true })
  else
    match c.consumed env with
    | none => (c.round env, { read, held := c.requestBytes, closes := !(c.round env).isOpen })
    | some n => (c.round env,
        { read, held := c.requestBytes, took := n, closes := false
          move := if c.requestBytes = n then none else some (n, c.requestBytes - n) })

/-- **One iteration** of the loop. -/
def iterate (c : RequestLoop η) (service : Service) : RequestLoop η × Iteration :=
  if c.needModeData then
    match service.piece with
    | none => ({ c with isOpen := false }, { held := c.requestBytes, closes := true })
    | some piece => (c.read piece).finish env service.writes (some (c.requestBytes, piece))
  else c.finish env service.writes none

end RequestLoop

/-- **What a read may deliver**: at least one octet, and no more than the buffer it was given has room
for. -/
def Delivers (c : RequestLoop η) (service : Service) : Prop :=
  ∀ piece ∈ service.piece, c.needModeData = true →
    piece ≠ [] ∧ piece.length ≤ bufferSize - c.requestBytes

/-- **Runs of the loop**: the iterations of a connection, and what it has come to. -/
inductive Iterates (c₀ : RequestLoop η) : List Iteration → RequestLoop η → Prop
  | nil : Iterates c₀ [] c₀
  | next {its : List Iteration} {c : RequestLoop η} {service : Service} : Iterates c₀ its c →
      c.isOpen = true → Delivers c service →
      Iterates c₀ (its ++ [(c.iterate env service).2]) (c.iterate env service).1

/-- **What is asked of the parser**: a request it reports has octets, and no more than it was given. -/
def BoundedRequests : Prop :=
  ∀ b req, parseHttpRequest env.grammar b = some req →
    0 < req.requestLength ∧ req.requestLength ≤ b.length

variable {env}

/-! ## One iteration -/

namespace RequestLoop

/-- **What a round does to the buffer.** -/
inductive Rounded (c c' : RequestLoop η) : Option ℕ → Bool → Prop
  | waits : c'.buffered = c.buffered → c.requestBytes ≤ 8190 → c'.needModeData = true →
      c'.isOpen = c.isOpen → Rounded c c' none false
  | closes : c'.buffered = c.buffered → c'.isOpen = false → Rounded c c' none true
  | takes {n : ℕ} : 0 < n → n ≤ c.requestBytes → c'.buffered = c.buffered.drop n →
      c'.needModeData = (c.requestBytes == n) → c'.isOpen = c.isOpen → Rounded c c' (some n) true

theorem parseRequest_eq (c : RequestLoop η) : c.parseRequest env =
    match parseHttpRequest env.grammar c.buffered with
    | some req => (.ok, { c with
        parser := (env.grammar c.buffered {}).2, session := { c.session with currentReq := req } })
    | none => (if bufferSize - 1 ≤ c.buffered.length ∨ eohMarker <:+: c.buffered then .bad
        else .incomplete, { c with parser := (env.grammar c.buffered {}).2 }) := by
  rw [parseRequest, parse_eq, length_buffered]
  cases hp : parseHttpRequest env.grammar c.buffered with
  | some req => rfl
  | none =>
    simp only [Option.isSome_none, Bool.false_eq_true, if_false, Option.getD_none]
    by_cases hfull : bufferSize - 1 ≤ c.requestBytes
    · rw [if_pos hfull, if_pos (Or.inl hfull)]
    · by_cases heoh : eohMarker <:+: c.buffered
      · rw [if_neg hfull, if_pos heoh, if_pos (Or.inr heoh)]
      · rw [if_neg hfull, if_neg heoh, if_neg (not_or.mpr ⟨hfull, heoh⟩)]

theorem consumed_eq (c : RequestLoop η) : c.consumed env =
    match look env c.session c.buffered with
    | .take n _ => some n
    | .stop _ => none
    | .wait => none := by
  have hbuf : { c with needModeData := true }.buffered = c.buffered := rfl
  rw [consumed, parseRequest_eq, hbuf]
  cases hp : parseHttpRequest env.grammar c.buffered with
  | none =>
    rw [look_none hp]
    split_ifs <;> rfl
  | some req =>
    rw [look_some hp, verdict]
    simp only
    have hreq := currentReq_processRequest env { c.session with currentReq := req }
    generalize { c.session with currentReq := req }.processRequest env = e at hreq
    rcases e with ⟨session, _ | _⟩
    · rfl
    · exact congrArg (fun r => some (HttpRequest.requestLength r)) hreq

theorem answers_eq (c : RequestLoop η) : c.answers env =
    match look env c.session c.buffered with
    | .take _ _ => true
    | .stop _ => true
    | .wait => false := by
  have hbuf : { c with needModeData := true }.buffered = c.buffered := rfl
  rw [answers, parseRequest_eq, hbuf]
  cases hp : parseHttpRequest env.grammar c.buffered with
  | none =>
    rw [look_none hp]
    split_ifs <;> rfl
  | some req =>
    rw [look_some hp, verdict]
    generalize { c.session with currentReq := req }.processRequest env = e
    rcases e with ⟨session, _ | _⟩ <;> rfl

theorem rounded (hb : BoundedRequests env) (c : RequestLoop η) :
    Rounded c (c.round env) (c.consumed env) (c.answers env) := by
  have habs : (c.round env).abs = c.abs.act (look env c.session c.buffered) := abs_round env c
  rw [consumed_eq, answers_eq]
  cases hv : look env c.session c.buffered with
  | wait =>
    rw [hv] at habs
    have hlt := (of_look_wait hv).2.1
    rw [length_buffered] at hlt
    have hle : c.requestBytes ≤ 8190 := Nat.le_of_lt_succ hlt
    exact .waits (congrArg Reader.pending habs) hle (congrArg Reader.asks habs)
      (congrArg Reader.isOpen habs)
  | stop s =>
    rw [hv] at habs
    exact .closes (congrArg Reader.pending habs) (congrArg Reader.isOpen habs)
  | take n s =>
    rw [hv] at habs
    obtain ⟨req, hp, rfl, -⟩ := of_look_take hv
    obtain ⟨hpos, hle⟩ := hb _ _ hp
    rw [length_buffered] at hle
    refine .takes hpos hle (congrArg Reader.pending habs) ?_ (congrArg Reader.isOpen habs)
    rw [← length_buffered c]
    exact congrArg Reader.asks habs

/-- **What the rest of an iteration leaves.** -/
structure Finished (c : RequestLoop η) (read : Option (ℕ × Bytes)) (r : RequestLoop η × Iteration) :
    Prop where
  read : r.2.read = read
  held : r.2.held = c.requestBytes
  took : r.2.took ≤ c.requestBytes
  move : ∀ m ∈ r.2.move, m.1 + m.2 = c.requestBytes
  buffered : r.1.buffered = c.buffered.drop r.2.took
  room : r.1.isOpen = true → r.1.needModeData = true → r.1.requestBytes ≤ 8190
  progress : r.2.Progress ∨ r.1.needModeData = true

theorem requestBytes_of_buffered {c c' : RequestLoop η} {n : ℕ}
    (h : c'.buffered = c.buffered.drop n) : c'.requestBytes = c.requestBytes - n := by
  rw [← length_buffered c', h, List.length_drop, length_buffered]

theorem finished (hb : BoundedRequests env) (c : RequestLoop η) (writes : Bool)
    (read : Option (ℕ × Bytes)) : Finished c read (c.finish env writes read) := by
  have hround := rounded hb c
  rw [finish]
  split_ifs with hfail
  · -- the write fails: the buffer stays as it is
    exact { read := rfl, held := rfl, took := Nat.zero_le _, move := by simp, buffered := rfl,
            room := fun h => by simp at h, progress := .inl (.inr (.inr rfl)) }
  · generalize c.answers env = answers at hround
    cases hn : c.consumed env with
    | none =>
      rw [hn] at hround
      refine { read := rfl, held := rfl, took := Nat.zero_le _, move := by simp, buffered := ?_,
               room := fun ho ha => ?_, progress := ?_ }
      · cases hround with
        | waits hbuf => exact hbuf
        | closes hbuf => exact hbuf
      · cases hround with
        | waits hbuf hle => rwa [requestBytes_of_buffered (n := 0) hbuf]
        | closes _ hclosed => rw [hclosed] at ho; cases ho
      · cases hround with
        | waits _ _ hasks => exact .inr hasks
        | closes _ hclosed => exact .inl (.inr (.inr (by simp [hclosed])))
    | some n =>
      rw [hn] at hround
      cases hround with
      | takes hpos hle hbuf hasks =>
        refine { read := rfl, held := rfl, took := hle, move := fun m hm => ?_, buffered := hbuf,
                 room := fun ho ha => ?_, progress := .inl (.inr (.inl hpos)) }
        · simp only at hm
          split_ifs at hm
          · cases hm
          · cases hm
            simp only
            omega
        · -- the loop asks for more only where the whole buffer was consumed
          have hall : c.requestBytes = n := by
            have := hasks.symm.trans ha
            simpa using this
          rw [requestBytes_of_buffered hbuf]
          omega

end RequestLoop

/-! ## Runs -/

/-- What has been received. -/
def received (its : List Iteration) : Bytes := its.flatMap Iteration.received

/-- How much of it has been consumed. -/
def taken (its : List Iteration) : ℕ := (its.map Iteration.took).sum

/-- An iteration whose read begins where there is room and ends in the buffer, and whose `memmove` stays
inside what has been received and not consumed. -/
structure InBounds (it : Iteration) : Prop where
  read : ∀ r ∈ it.read, r.1 ≤ 8190 ∧ r.1 + r.2.length ≤ bufferSize
  move : ∀ m ∈ it.move, m.1 + m.2 ≤ it.held
  held : it.held ≤ bufferSize

/-- **The invariant of the loop**: a read that comes next has room; the buffer is what has been received
without what has been consumed; of two iterations in a row one makes progress. -/
structure Buffered (its : List Iteration) (c : RequestLoop η) : Prop where
  le : c.requestBytes ≤ bufferSize
  room : c.isOpen = true → c.needModeData = true → c.requestBytes ≤ 8190
  inBounds : ∀ it ∈ its, InBounds it
  taken_le : taken its ≤ (received its).length
  content : c.buffered = (received its).drop (taken its)
  chain : its.IsChain fun it it' => it.Progress ∨ it'.Progress
  last : ∀ it ∈ its.getLast?, it.Progress ∨ c.needModeData = true

theorem received_append (its : List Iteration) (it : Iteration) :
    received (its ++ [it]) = received its ++ it.received := by
  rw [received, List.flatMap_append, List.flatMap_singleton]
  rfl

theorem taken_append (its : List Iteration) (it : Iteration) :
    taken (its ++ [it]) = taken its + it.took := by
  simp [taken]

theorem Buffered.finish (hb : BoundedRequests env) {its : List Iteration} {c m : RequestLoop η}
    (h : Buffered its c) (writes : Bool) {read : Option (ℕ × Bytes)}
    (hm : m.buffered = c.buffered ++ (read.map Prod.snd).getD []) (hle : m.requestBytes ≤ bufferSize)
    (hread : ∀ r ∈ read, r.1 ≤ 8190 ∧ r.1 + r.2.length ≤ bufferSize)
    (hasks : c.needModeData = true → (read.map Prod.snd).getD [] ≠ []) :
    Buffered (its ++ [(m.finish env writes read).2]) (m.finish env writes read).1 := by
  have hf := RequestLoop.finished hb m writes read
  generalize m.finish env writes read = r at hf ⊢
  obtain ⟨c', it⟩ := r
  have hrec : it.received = (read.map Prod.snd).getD [] := by rw [Iteration.received, hf.read]
  have hbytes : c'.requestBytes = m.requestBytes - it.took :=
    RequestLoop.requestBytes_of_buffered hf.buffered
  have htook := hf.took
  have hlen : m.requestBytes = (received its).length - taken its + it.received.length := by
    rw [← RequestLoop.length_buffered, hm, h.content, hrec, List.length_append, List.length_drop]
  have htaken := h.taken_le
  simp only at hf htook ⊢
  refine { le := by omega, room := hf.room, inBounds := fun x hx => ?_, taken_le := ?_, content := ?_,
           chain := ?_, last := fun x hx => ?_ }
  · rcases List.mem_append.mp hx with hx | hx
    · exact h.inBounds x hx
    · rw [List.mem_singleton.mp hx]
      refine ⟨fun r hr => hread r (hf.read ▸ hr), fun m' hm' => ?_, by rw [hf.held]; exact hle⟩
      rw [hf.held, hf.move m' hm']
  · rw [taken_append, received_append, List.length_append]
    omega
  · rw [hf.buffered, hm, h.content, ← hrec, received_append, taken_append, ← List.drop_drop,
      List.drop_append_of_le_length htaken]
  · refine List.isChain_append.mpr ⟨h.chain, List.isChain_singleton _, fun x hx y hy => ?_⟩
    cases hy
    refine (h.last x hx).imp_right fun ha => .inl ?_
    rw [hrec]
    exact hasks ha
  · rw [List.getLast?_concat] at hx
    cases hx
    exact hf.progress

/-- **An iteration keeps the invariant.** -/
theorem Buffered.iterate (hb : BoundedRequests env) {its : List Iteration} {c : RequestLoop η}
    (h : Buffered its c) (ho : c.isOpen = true) {service : Service} (hs : Delivers c service) :
    Buffered (its ++ [(c.iterate env service).2]) (c.iterate env service).1 := by
  rw [RequestLoop.iterate]
  cases hn : c.needModeData with
  | false =>
    rw [if_neg (by simp)]
    exact h.finish hb service.writes (by simp) h.le (by simp) (by simp [hn])
  | true =>
    rw [if_pos rfl]
    have hroom := h.room ho hn
    cases hp : service.piece with
    | none =>
      refine { le := h.le, room := fun h' => by simp at h', inBounds := fun x hx => ?_, taken_le := ?_,
               content := ?_, chain := ?_, last := fun x hx => ?_ }
      · rcases List.mem_append.mp hx with hx | hx
        · exact h.inBounds x hx
        · rw [List.mem_singleton.mp hx]
          exact ⟨by simp, by simp, h.le⟩
      · simpa [taken_append, received_append, Iteration.received] using h.taken_le
      · show c.buffered = _
        simpa [taken_append, received_append, Iteration.received] using h.content
      · refine List.isChain_append.mpr ⟨h.chain, List.isChain_singleton _, fun x hx y hy => ?_⟩
        cases hy
        exact .inr (.inr (.inr rfl))
      · rw [List.getLast?_concat] at hx
        cases hx
        exact .inl (.inr (.inr rfl))
    | some piece =>
      obtain ⟨hne, hfit⟩ := hs piece hp hn
      have hbytes : (c.read piece).requestBytes = c.requestBytes + piece.length := rfl
      have hsize : bufferSize = 8192 := rfl
      refine h.finish hb service.writes (RequestLoop.buffered_read c piece) (by omega) ?_ fun _ => hne
      intro r hr
      cases hr
      exact ⟨hroom, by simp only; omega⟩

theorem buffered_of_iterates (hb : BoundedRequests env) {date : CachedDate} {clock : ℕ → Int}
    {hosts : η} {its : List Iteration} {c : RequestLoop η}
    (h : Iterates env (start date clock hosts) its c) : Buffered its c := by
  induction h with
  | nil =>
    exact { le := Nat.zero_le _, room := fun _ _ => Nat.zero_le _, inBounds := by simp,
            taken_le := Nat.zero_le _, content := rfl, chain := List.isChain_nil, last := by simp }
  | next _ ho hs ih => exact ih.iterate hb ho hs

/-- **The receive buffer.** Whatever a connection receives and however it is cut: where the loop reads
next there is room; every read ends in the buffer and every `memmove` stays inside what has been
received; the buffer is what has been received without the requests consumed; and of two iterations in a
row one reads an octet, consumes one or closes the connection. -/
theorem receiveBuffer (hb : BoundedRequests env) {date : CachedDate} {clock : ℕ → Int} {hosts : η}
    {its : List Iteration} {c : RequestLoop η} (h : Iterates env (start date clock hosts) its c) :
    (c.isOpen = true → c.needModeData = true → c.requestBytes ≤ 8190) ∧ (∀ it ∈ its, InBounds it) ∧
      (taken its ≤ (received its).length ∧ c.buffered = (received its).drop (taken its)) ∧
      its.IsChain fun it it' => it.Progress ∨ it'.Progress :=
  have hbuf := buffered_of_iterates hb h
  ⟨hbuf.room, hbuf.inBounds, ⟨hbuf.taken_le, hbuf.content⟩, hbuf.chain⟩

/-! ## Runs of the machine -/

theorem RequestLoop.finish_writes (m : RequestLoop η) (read : Option (ℕ × Bytes)) :
    (m.finish env true read).1 = m.round env ∧ (m.finish env true read).2.read = read := by
  rw [finish, if_neg (by simp)]
  cases m.consumed env with
  | none => exact ⟨rfl, rfl⟩
  | some n => exact ⟨rfl, rfl⟩

theorem iterate_of_step {c c' : RequestLoop η} {pieces rest : List Bytes}
    (h : (RequestLoop.machine env).step (c, pieces) = some (c', rest)) :
    c.isOpen = true ∧ ∃ service : Service, c' = (c.iterate env service).1 ∧
      (c.iterate env service).2.received ++ rest.flatten = pieces.flatten ∧
      ∀ piece ∈ service.piece, pieces = piece :: rest := by
  cases ho : c.isOpen with
  | false =>
    rw [Machine.step_closed (M := RequestLoop.machine env) ho] at h
    cases h
  | true =>
    refine ⟨rfl, ?_⟩
    cases hn : c.needModeData with
    | false =>
      obtain ⟨hround, hread⟩ := @RequestLoop.finish_writes η env c none
      rw [Machine.step_again (M := RequestLoop.machine env) ho hn] at h
      cases h
      refine ⟨⟨none, true⟩, ?_, ?_, fun piece hp => by cases hp⟩
      · rw [RequestLoop.iterate, hn, if_neg Bool.false_ne_true, hround]
        rfl
      · rw [RequestLoop.iterate, hn, if_neg Bool.false_ne_true, Iteration.received, hread]
        rfl
    | true =>
      cases pieces with
      | nil =>
        rw [Machine.step_waits (M := RequestLoop.machine env) ho hn] at h
        cases h
      | cons piece pieces =>
        obtain ⟨hround, hread⟩ :=
          @RequestLoop.finish_writes η env (c.read piece) (some (c.requestBytes, piece))
        rw [Machine.step_read (M := RequestLoop.machine env) ho hn] at h
        cases h
        refine ⟨⟨some piece, true⟩, ?_, ?_, fun piece' hp => ?_⟩
        · rw [RequestLoop.iterate, hn, if_pos rfl, hround]
          rfl
        · rw [RequestLoop.iterate, hn, if_pos rfl, Iteration.received, hread]
          rfl
        · cases hp
          rfl

/-- **A run of the machine is a run of iterations** that receive the pieces. -/
theorem iterates_of_reaches {p q : RequestLoop η × List Bytes}
    (hf : (RequestLoop.machine env).Fits bufferSize p) (h : (RequestLoop.machine env).Reaches p q) :
    ∃ its, Iterates env p.1 its q.1 ∧ received its ++ q.2.flatten = p.2.flatten := by
  induction h with
  | refl => exact ⟨[], .nil, rfl⟩
  | @tail q q' hreach hstep ih =>
    obtain ⟨its, hits, hreceived⟩ := ih
    obtain ⟨c, pieces⟩ := q
    obtain ⟨c', rest⟩ := q'
    obtain ⟨ho, service, rfl, hrec, hpiece⟩ := iterate_of_step hstep
    refine ⟨_, .next hits ho fun piece hp ha => ?_, ?_⟩
    · obtain rfl := hpiece piece hp
      obtain ⟨hne, hle⟩ := hf c piece rest hreach ho ha
      exact ⟨hne, Nat.le_sub_of_add_le' hle⟩
    · rw [received_append, List.append_assoc, hrec, hreceived]

/-- **The buffer of the machine** is what it has read of the stream, without the requests consumed. -/
theorem buffered_of_reaches (hb : BoundedRequests env) {date : CachedDate} {clock : ℕ → Int} {hosts : η}
    {pieces rest : List Bytes} {c : RequestLoop η}
    (hf : (RequestLoop.machine env).Fits bufferSize (start date clock hosts, pieces))
    (h : (RequestLoop.machine env).Reaches (start date clock hosts, pieces) (c, rest)) :
    ∃ its, Buffered its c ∧ received its ++ rest.flatten = pieces.flatten := by
  obtain ⟨its, hits, hreceived⟩ := iterates_of_reaches hf h
  exact ⟨its, buffered_of_iterates hb hits, hreceived⟩

theorem boundedRequests_of_prefixDecided (hg : PrefixDecided env.grammar) : BoundedRequests env := by
  intro b req hp
  obtain ⟨r, rest, rfl, hr, -, hlen⟩ := hg.exists_head hp
  have := hr.length_le
  rw [hlen, List.length_append]
  omega

/-- A request is read with the beginning of the next one, which is moved and looked at before it is read
on. -/
theorem receiveBuffer_sample : ∃ its c,
    Iterates sampleEnvironment (start .empty (fun _ => 0) ()) its c ∧
      its.map Iteration.move = [some (29, 3), none, none] ∧ its.map Iteration.took = [29, 0, 0] ∧
      received its = sampleText ++ crlf ++ ascii "GET /" ∧
      ((c.isOpen = true → c.needModeData = true → c.requestBytes ≤ 8190) ∧
        (∀ it ∈ its, InBounds it) ∧
        (taken its ≤ (received its).length ∧ c.buffered = (received its).drop (taken its)) ∧
        its.IsChain fun it it' => it.Progress ∨ it'.Progress) := by
  have hb : BoundedRequests sampleEnvironment :=
    boundedRequests_of_prefixDecided prefixDecided_sampleGrammar
  let c₀ : RequestLoop Unit := start .empty (fun _ => 0) ()
  let first : Service := ⟨some (sampleText ++ crlf ++ ascii "GET"), true⟩
  let second : Service := ⟨none, true⟩
  let third : Service := ⟨some (ascii " /"), true⟩
  have hfirst : Delivers c₀ first := fun piece hp _ => by
    cases hp
    exact ⟨by decide +kernel, by decide +kernel⟩
  have hsecond : Delivers (c₀.iterate sampleEnvironment first).1 second := fun piece hp _ => by cases hp
  have hthird : Delivers ((c₀.iterate sampleEnvironment first).1.iterate sampleEnvironment second).1
      third := fun piece hp _ => by
    cases hp
    exact ⟨by decide +kernel, by decide +kernel⟩
  have h : Iterates sampleEnvironment c₀ _ _ :=
    .next (.next (.next .nil rfl hfirst) (by decide +kernel) hsecond) (by decide +kernel) hthird
  exact ⟨_, _, h, by decide +kernel, by decide +kernel, by decide +kernel, receiveBuffer hb h⟩

end VUbercool.Http
