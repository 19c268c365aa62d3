import VUbercool.Http.Holdings
import VUbercool.Statistics

/-!
# The connections of a pipeline

`OnNewConnection` and the coroutines `Connection::ProcessRequests`, with the points where they are
suspended (`HttpDaemon.cpp`), as the thread of one pipeline runs them.

* `Reply`, `Looked`: what a round of `ProcessRequests` makes of the buffer, whatever is in it.
* `Coroutine`: where a coroutine is suspended. `Worker`: a pipeline with its connections.
* `resume`: a coroutine runs on to the next point, and what it adds to the counters of its thread.
* `Moves`: what a coroutine does to its pipeline, one by one. `moves_resume`: it does no more.
* `Lives`: a connection is closed exactly if its coroutine has ended. `Lives.resume`.
* `countP_socketIsOpen_le`: no more sockets are open than there are live entries.
-/

namespace VUbercool.Http

open ConnectionMgr

/-! ## Coroutines -/

/-- What is in `current_reply_` when it is written: the time of `Prepare`, whether the host answered, the
octets, whether the connection is closed after it; and whether there is more in the buffer. -/
structure Reply where
  time : Int
  success : Bool
  bytes : ℕ
  closeOnReply : Bool
  more : Bool
  deriving DecidableEq

/-- **What becomes of a buffer**: no request yet, no request at all, one for which `GetHost` or its host
throws what is not a reply, or one with a reply. -/
inductive Looked
  | incomplete
  | bad
  | raised
  | replies (reply : Reply)
  deriving DecidableEq

/-- **Where `ProcessRequests` is suspended**: before its first round, in `async_read_some`, in the
`async_write` of a reply or in that of a 400; or it has ended. -/
inductive Coroutine
  | spawned
  | reading
  | replying (reply : Reply)
  | refusing
  | ended
  deriving DecidableEq

/-- How the operation ended that a coroutine waits for: its `ec`, the octets that were read and what
becomes of the buffer if it is parsed next. -/
structure Completion where
  ec : Bool
  bytes : ℕ
  looked : Looked
  deriving DecidableEq

/-- **A pipeline**: the sockets for which `OnNewConnection` is to be run, the one for which
`CreateConnection` has drawn a key, the connections, and for each of these its socket and its
coroutine. -/
structure Worker where
  dispatched : List ℕ := []
  creating : Option (ℕ × ConnKey) := none
  mgr : ConnectionMgr
  coroutines : List (ℕ × Coroutine) := []
  deriving DecidableEq

/-- The counter that `RequestStats` increments at its end. -/
def Reply.counter (reply : Reply) : Counter := if reply.success then .okRequests else .failedRequests

namespace Worker

/-- `socket_.is_open()`. -/
def socketIsOpen (i : ℕ) (w : Worker) : Bool := (w.mgr.created[i]?.map Connection.socketIsOpen).getD false

/-- The coroutine of a connection is suspended, or ends. -/
def suspend (i : ℕ) (at' : Coroutine) (w : Worker) : Worker :=
  { w with coroutines := w.coroutines.modify i fun c => (c.1, at') }

/-- `CloseSocket`. -/
def closeSocket (i : ℕ) (w : Worker) : Worker := { w with mgr := w.mgr.closeSocket i }

/-- The end of `ProcessRequests`, where `cleanup` calls `Close`. -/
def finish (i : ℕ) (w : Worker) : Worker := { w with mgr := w.mgr.close i }.suspend i .ended

/-- `while(socket_.is_open())`, when more data are needed. -/
def await (i : ℕ) (w : Worker) : Worker :=
  if w.socketIsOpen i then w.suspend i .reading else w.finish i

/-- `mgr_.SetEndOfLife`, if there is a timeout. -/
def setEndOfLife (timeout i : ℕ) (time : Int) (w : Worker) : Worker :=
  match w.mgr.created[i]? with
  | some c => if timeout ≠ 0 then { w with mgr := w.mgr.setEndOfLife c.key (time + timeout) } else w
  | none => w

/-- A round from `ParseRequest` to where it is suspended. -/
def look (timeout i : ℕ) (looked : Looked) (w : Worker) : Worker × List (Counter × ℕ) :=
  match looked with
  | .incomplete => (w.await i, [])
  | .bad => (w.suspend i .refusing, [])
  | .raised => ((w.closeSocket i).finish i, [(.failedRequests, 1)])
  | .replies reply => ((w.setEndOfLife timeout i reply.time).suspend i (.replying reply), [])

/-- `async_read_some` has returned. -/
def read (timeout i : ℕ) (c : Completion) (w : Worker) : Worker × List (Counter × ℕ) :=
  if c.ec then ((w.closeSocket i).finish i, [])
  else
    match w.look timeout i c.looked with
    | (w, counted) => (w, (.bytesReceived, c.bytes) :: counted)

/-- The `async_write` of a reply has returned. -/
def written (timeout i : ℕ) (reply : Reply) (c : Completion) (w : Worker) :
    Worker × List (Counter × ℕ) :=
  if c.ec then ((w.closeSocket i).finish i, [(reply.counter, 1)])
  else
    let counted := [(.bytesSent, reply.bytes), (reply.counter, 1)]
    if w.socketIsOpen i = false then (w.finish i, counted)
    else if reply.closeOnReply then ((w.closeSocket i).await i, counted)
    else if reply.more then
      match w.look timeout i c.looked with
      | (w, counted') => (w, counted ++ counted')
    else (w.await i, counted)

/-- **A coroutine runs on.** -/
def resume (timeout i : ℕ) (c : Completion) (w : Worker) : Worker × List (Counter × ℕ) :=
  match w.coroutines[i]? with
  | some (_, .spawned) => (w.await i, [])
  | some (_, .reading) => w.read timeout i c
  | some (_, .replying reply) => w.written timeout i reply c
  -- the write of a 400 throws its error, and the connection is closed either way
  | some (_, .refusing) => ((w.closeSocket i).finish i, [(.badRequests, 1)])
  | _ => (w, [])

/-- `OnNewConnection` is to be run for a socket. -/
def dispatch (socket : ℕ) (w : Worker) : Worker := { w with dispatched := w.dispatched ++ [socket] }

/-- `OnNewConnection` begins, and `CreateConnection` draws its key. -/
def draw (key : ConnKey) (w : Worker) : Worker :=
  match w.dispatched with
  | socket :: dispatched => { w with dispatched, creating := some (socket, key) }
  | [] => w

/-- What becomes of the buffer, where a coroutine that runs on comes to parse it. -/
def takes (i : ℕ) (c : Completion) (w : Worker) : List Looked :=
  match w.coroutines[i]? with
  | some (_, .reading) => if c.ec then [] else [c.looked]
  | some (_, .replying reply) =>
    if c.ec = false ∧ w.socketIsOpen i ∧ reply.closeOnReply = false ∧ reply.more then [c.looked] else []
  | _ => []

/-- `OnNewConnection` after `GetNextKey`: the connection is created and its coroutine spawned. -/
def create (now : Int) (w : Worker) : Worker :=
  match w.creating with
  | some (socket, key) => { w with
      creating := none
      mgr := w.mgr.createWith key now
      coroutines := w.coroutines ++ [(socket, .spawned)] }
  | none => w

/-- `RemoveExpieredConnections`, with what it adds to the counters. -/
def removeExpieredConnections (now : Int) (w : Worker) : Worker × List (Counter × ℕ) :=
  let s := CountedMgr.removeExpieredConnections now { mgr := w.mgr }
  ({ w with mgr := s.mgr }, [(.timeoutDroppedConnections, s.timeoutDroppedConnections),
    (.overflowDroppedConnections, s.overflowDroppedConnections)])

end Worker

/-! ## What a coroutine does to its pipeline -/

namespace Worker

/-- The coroutine has not ended. -/
def Alive (i : ℕ) (w : Worker) : Prop := ∃ c, w.coroutines[i]? = some c ∧ c.2 ≠ .ended

/-- **What a coroutine does** until it is suspended or ends. -/
inductive Moves (i : ℕ) : Worker → Worker → Prop
  | suspend {w : Worker} {at' : Coroutine} : at' ≠ .ended → Moves i w (w.suspend i at')
  | finish {w : Worker} : Moves i w (w.finish i)
  | closeSocket {w w' : Worker} : Moves i (w.closeSocket i) w' → Moves i w w'
  | setEndOfLife {w w' : Worker} (key : ConnKey) (eol : Int) :
      Moves i { w with mgr := w.mgr.setEndOfLife key eol } w' → Moves i w w'

variable {w w' : Worker} {i : ℕ}

theorem moves_await (i : ℕ) (w : Worker) : Moves i w (w.await i) := by
  unfold await
  split
  · exact .suspend nofun
  · exact .finish

theorem moves_look (timeout i : ℕ) (looked : Looked) (w : Worker) :
    Moves i w (w.look timeout i looked).1 := by
  cases looked with
  | incomplete => exact moves_await i w
  | bad => exact .suspend nofun
  | raised => exact .closeSocket .finish
  | replies reply =>
    simp only [look, setEndOfLife]
    split
    · split
      · exact .setEndOfLife _ _ (.suspend nofun)
      · exact .suspend nofun
    · exact .suspend nofun

theorem moves_written (timeout i : ℕ) (reply : Reply) (c : Completion) (w : Worker) :
    Moves i w (w.written timeout i reply c).1 := by
  unfold written
  split_ifs
  · exact .closeSocket .finish
  · exact .finish
  · exact .closeSocket (moves_await i _)
  · exact moves_look timeout i c.looked w
  · exact moves_await i w

/-- **A coroutine that has not ended** does no more than that; one that has ended does nothing. -/
theorem moves_resume (timeout i : ℕ) (c : Completion) (w : Worker) :
    (w.Alive i ∧ Moves i w (w.resume timeout i c).1) ∨ w.resume timeout i c = (w, []) := by
  cases hi : w.coroutines[i]? with
  | none =>
    right
    rw [resume, hi]
  | some co =>
    obtain ⟨socket, at'⟩ := co
    by_cases hended : at' = .ended
    · right
      simp only [resume, hi, hended]
    · refine .inl ⟨⟨_, hi, hended⟩, ?_⟩
      rw [resume, hi]
      cases at' with
      | spawned => exact moves_await i w
      | reading =>
        simp only [read]
        split
        · exact .closeSocket .finish
        · exact moves_look timeout i c.looked w
      | replying reply => exact moves_written timeout i reply c w
      | refusing => exact .closeSocket .finish
      | ended => exact absurd rfl hended

/-! ## The connections and their coroutines -/

/-- **A connection is closed exactly if its coroutine has ended**, and the manager holds what it is to
hold. -/
structure Lives (w : Worker) : Prop where
  keeps : w.mgr.Keeps
  ended : w.mgr.ledger.map Prod.snd = w.coroutines.map fun c => decide (c.2 = .ended)

theorem Lives.length (h : w.Lives) : w.mgr.created.length = w.coroutines.length := by
  simpa [ledger] using congrArg List.length h.ended

theorem Lives.closed_iff (h : w.Lives) {c : Connection} {co : ℕ × Coroutine}
    (hc : w.mgr.created[i]? = some c) (hco : w.coroutines[i]? = some co) :
    c.closed = true ↔ co.2 = .ended := by
  have hi := congrArg (fun l => l[i]?) h.ended
  simp only [ledger, List.getElem?_map, hc, hco, Option.map_some, Option.some.injEq] at hi
  rw [hi, decide_eq_true_iff]

theorem map_suspend (i : ℕ) (at' : Coroutine) (w : Worker) :
    ((w.suspend i at').coroutines.map fun c => decide (c.2 = .ended)) =
      (w.coroutines.map fun c => decide (c.2 = .ended)).set i (decide (at' = .ended)) := by
  rw [← List.modify_eq_set fun _ => decide (at' = .ended)]
  apply List.ext_getElem?
  intro j
  simp only [suspend, List.getElem?_map, List.getElem?_modify]
  by_cases hij : i = j
  · simp [hij, Function.comp_def]
  · simp [hij]

/-- **One coroutine** keeps the others. -/
theorem Lives.moves (h : w.Lives) (hi : w.Alive i) (hm : Moves i w w') : w'.Lives := by
  induction hm with
  | @suspend w at' hne =>
    obtain ⟨co, hco, hrun⟩ := hi
    refine ⟨h.keeps, ?_⟩
    have hget : (w.coroutines.map fun c => decide (c.2 = .ended))[i]? = some false := by
      simp [hco, hrun]
    obtain ⟨hlt, hsame⟩ := List.getElem?_eq_some_iff.mp hget
    rw [map_suspend, decide_eq_false hne, ← hsame, List.set_getElem_self]
    exact h.ended
  | @finish w =>
    obtain ⟨co, hco, hrun⟩ := hi
    have hget : (w.coroutines.map fun c => decide (c.2 = .ended))[i]? = some false := by
      simp [hco, hrun]
    obtain ⟨c, hc, hopen⟩ : ∃ c, w.mgr.created[i]? = some c ∧ c.closed = false := by
      have hsnd := h.ended ▸ hget
      simpa [ledger] using hsnd
    refine ⟨h.keeps.close hc hopen, ?_⟩
    rw [finish, map_suspend, ← h.ended]
    show ((w.mgr.close i).ledger.map Prod.snd) = _
    rw [ledger_close h.keeps.nodup hc hopen, List.map_set]
    rfl
  | closeSocket _ ih =>
    exact ih ⟨h.keeps.closeSocket i, (congrArg _ (ledger_closeSocket i _)).trans h.ended⟩ hi
  | setEndOfLife key eol _ ih =>
    refine ih ⟨h.keeps.setEndOfLife key eol, ?_⟩ hi
    rw [← h.ended, ledger_setEndOfLife]

theorem Lives.resume (h : w.Lives) (timeout i : ℕ) (c : Completion) :
    (w.resume timeout i c).1.Lives := by
  obtain ⟨hi, hm⟩ | hsame := moves_resume timeout i c w
  · exact h.moves hi hm
  · rwa [hsame]

theorem mgr_removeExpieredConnections (now : Int) (w : Worker) :
    (w.removeExpieredConnections now).1.mgr = w.mgr.removeExpieredConnections now :=
  CountedMgr.mgr_call { mgr := w.mgr } (.removeExpieredConnections now)

theorem Lives.removeExpieredConnections (h : w.Lives) (now : Int) :
    (w.removeExpieredConnections now).1.Lives := by
  refine ⟨?_, ?_⟩
  · rw [mgr_removeExpieredConnections]
    exact h.keeps.removeExpieredConnections now
  · rw [mgr_removeExpieredConnections, (holdings_removeExpieredConnections now w.mgr).2.1]
    exact h.ended

theorem Lives.create (h : w.Lives) (now : Int) (hkey : ∀ socket key, w.creating = some (socket, key) →
    key.toNat < 2 ^ 32 ∧ ∀ p ∈ w.mgr.ledger, p.1 ≠ key) : (w.create now).Lives := by
  unfold Worker.create
  split
  · next socket key hc =>
    obtain ⟨hsmall, hfresh⟩ := hkey socket key hc
    refine ⟨h.keeps.createWith now hsmall hfresh, ?_⟩
    rw [ledger_createWith, List.map_append, List.map_append, h.ended]
    rfl
  · exact h

/-! ## The limit -/

variable {max : ℕ}

theorem limitInv_close {m : ConnectionMgr} (h : LimitInv max m) (i : ℕ) : LimitInv max (m.close i) := by
  cases hc : m.created[i]? with
  | none => rwa [show m.close i = m by rw [ConnectionMgr.close, hc]]
  | some c =>
    cases hopen : c.closed with
    | true =>
      rwa [show m.close i = m by
        rw [ConnectionMgr.close, hc]
        exact if_pos hopen]
    | false =>
      set m' : ConnectionMgr := ConnectionMgr.closeSocket i { m with
        created := m.created.modify i fun c => { c with closed := true } } with hm'
      have hrun : m.close i = m'.remove (toInt c.key) := by
        rw [ConnectionMgr.close, hc]
        simp [hopen, hm']
      have hsame : Same m m' := ⟨rfl, rfl, by simp [hm', ConnectionMgr.closeSocket]⟩
      obtain ⟨⟨hmax, hkey, hlength⟩, hsub, -⟩ := drops_remove 0 (toInt c.key) m'
      rw [hrun]
      exact (h.of_sublist hsame (List.Sublist.refl _)).of_sublist ⟨hmax, hkey, hlength⟩ hsub

theorem limitInv_moves (hmax : 0 < max) (h : LimitInv max w.mgr) (hm : Moves i w w') :
    LimitInv max w'.mgr := by
  induction hm with
  | suspend _ => exact h
  | finish => exact limitInv_close h i
  | @closeSocket w w' _ ih =>
    exact ih (h.of_sublist ⟨rfl, rfl, List.length_modify ..⟩ (List.Sublist.refl _))
  | setEndOfLife key eol _ ih => exact ih (limited_call hmax h (.setEndOfLife key eol)).2

theorem limitInv_resume (hmax : 0 < max) (h : LimitInv max w.mgr) (timeout i : ℕ) (c : Completion) :
    LimitInv max (w.resume timeout i c).1.mgr := by
  obtain ⟨-, hm⟩ | hsame := moves_resume timeout i c w
  · exact limitInv_moves hmax h hm
  · rwa [hsame]

theorem limitInv_removeExpieredConnections (hmax : 0 < max) (h : LimitInv max w.mgr) (now : Int) :
    LimitInv max (w.removeExpieredConnections now).1.mgr := by
  rw [mgr_removeExpieredConnections]
  exact (limited_call hmax h (.removeExpieredConnections now)).2

theorem limitInv_create (hmax : 0 < max) (h : LimitInv max w.mgr) (now : Int) :
    LimitInv max (w.create now).mgr := by
  unfold Worker.create
  split
  · next socket key _ =>
    have hrun : w.mgr.createWith key now =
        { w.mgr with nextKey := key - 1 }.createConnection now := by
      rw [ConnectionMgr.createConnection_eq, UInt64.sub_add_cancel]
      rfl
    have hkey : LimitInv max { w.mgr with nextKey := key - 1 } :=
      ⟨h.maxConnections, ⟨h.limited.1, h.limited.2⟩, h.owner⟩
    show LimitInv max (w.mgr.createWith key now)
    rw [hrun]
    exact (limited_call hmax hkey (.createConnection now)).2
  · exact h

/-- **No more sockets are open than there are live entries.** -/
theorem Lives.countP_socketIsOpen_le (h : w.Lives) :
    w.mgr.created.countP Connection.socketIsOpen ≤ w.mgr.connections.length := by
  set found := w.mgr.created.zipIdx.filter fun p => p.1.socketIsOpen with hfound
  have hcount : w.mgr.created.countP Connection.socketIsOpen = (found.map Prod.snd).length := by
    conv_lhs => rw [← List.zipIdx_map_fst 0 w.mgr.created, List.countP_map]
    rw [List.length_map, hfound, List.countP_eq_length_filter]
    rfl
  have hnodup : (found.map Prod.snd).Nodup := by
    refine List.Nodup.sublist (List.filter_sublist.map Prod.snd) ?_
    rw [List.zipIdx_map_snd]
    exact List.nodup_range'
  have hsub : found.map Prod.snd ⊆ w.mgr.connections.map ConnectionEntry.connection := by
    intro i hi
    obtain ⟨⟨c, j⟩, hmem, rfl⟩ := List.mem_map.mp hi
    obtain ⟨hmem, hopen⟩ := List.mem_filter.mp hmem
    obtain ⟨-, ce, hce, rfl⟩ := h.keeps.sockets j c (List.mem_zipIdx_iff_getElem?.mp hmem) hopen
    exact List.mem_map_of_mem hce
  rw [hcount, ← List.length_map ConnectionEntry.connection]
  exact (hnodup.subperm hsub).length_le

/-! ## What is counted -/

end Worker

/-- The counter of a request, if it is one. -/
def Looked.counter : Looked → Option Counter
  | .incomplete => none
  | .bad => some .badRequests
  | .raised => some .failedRequests
  | .replies reply => some reply.counter

/-- The counter of the request that a coroutine is about to count. -/
def Coroutine.counter : Coroutine → Option Counter
  | .replying reply => some reply.counter
  | .refusing => some .badRequests
  | _ => none

/-- The counters of requests. -/
def OfRequests (k : Counter) : Prop :=
  k = .okRequests ∨ k = .failedRequests ∨ k = .badRequests

namespace Worker

/-- The requests of a pipeline that are in flight. -/
def inFlight (k : Counter) (w : Worker) : ℕ := w.coroutines.countP fun c => c.2.counter = some k

theorem countP_modify {α : Type} (p : α → Bool) (f : α → α) {l : List α} {a : α} (h : l[i]? = some a) :
    (l.modify i f).countP p + (if p a then 1 else 0) = l.countP p + if p (f a) then 1 else 0 := by
  obtain ⟨hlt, rfl⟩ := List.getElem?_eq_some_iff.mp h
  obtain ⟨l₁, b, l₂, hl, hlength, hmodify⟩ := List.exists_of_modify f hlt
  have hb : l[i] = b := by simp [hl, ← hlength]
  rw [hmodify, hb, hl]
  simp only [List.countP_append, List.countP_cons]
  omega

/-- Where a coroutine is then, and what it has counted. -/
def Ends (k : Counter) (i : ℕ) (w : Worker) (total : ℕ) (r : Worker × List (Counter × ℕ)) : Prop :=
  ∃ at' : Coroutine, r.1.coroutines = (w.coroutines.modify i fun c => (c.1, at')) ∧
    (if at'.counter = some k then 1 else 0) + amount k r.2 = total

theorem Ends.cons {k : Counter} {total : ℕ} {c : Counter × ℕ} {w' : Worker}
    {counted : List (Counter × ℕ)} (h : Ends k i w total (w', counted)) :
    Ends k i w ((if c.1 = k then c.2 else 0) + total) (w', c :: counted) := by
  obtain ⟨at', hrun, htotal⟩ := h
  refine ⟨at', hrun, ?_⟩
  simp only [amount_cons, ← htotal]
  omega

theorem ends_finish (k : Counter) (i : ℕ) (w w₀ : Worker) (h : w.coroutines = w₀.coroutines) :
    Ends k i w₀ 0 (w.finish i, []) :=
  ⟨.ended, congrArg (List.modify · i _) h, rfl⟩

theorem ends_await (k : Counter) (i : ℕ) (w w₀ : Worker) (h : w.coroutines = w₀.coroutines) :
    Ends k i w₀ 0 (w.await i, []) := by
  unfold await
  split
  · exact ⟨.reading, congrArg (List.modify · i _) h, rfl⟩
  · exact ends_finish k i w w₀ h

theorem ends_look (k : Counter) (timeout i : ℕ) (looked : Looked) (w : Worker) :
    Ends k i w (if looked.counter = some k then 1 else 0) (w.look timeout i looked) := by
  cases looked with
  | incomplete => exact ends_await k i w w rfl
  | bad => exact ⟨.refusing, rfl, Nat.add_zero _⟩
  | raised =>
    have h := (ends_finish k i (w.closeSocket i) w rfl).cons (c := (.failedRequests, 1))
    simpa [look, Looked.counter] using h
  | replies reply =>
    refine ⟨.replying reply, ?_, Nat.add_zero _⟩
    simp only [look, setEndOfLife]
    split
    · split
      · rfl
      · rfl
    · rfl

theorem ends_written {k : Counter} (hk : OfRequests k) (timeout i : ℕ) (reply : Reply) (c : Completion)
    (w : Worker) (hi : ∃ socket, w.coroutines[i]? = some (socket, .replying reply)) :
    Ends k i w ((if reply.counter = k then 1 else 0) +
      (w.takes i c).countP fun looked => looked.counter = some k) (w.written timeout i reply c) := by
  obtain ⟨socket, hi⟩ := hi
  have hbytes : ∀ (w' : Worker) (counted : List (Counter × ℕ)) (total : ℕ),
      Ends k i w total (w', counted) → Ends k i w ((if reply.counter = k then 1 else 0) + total)
        (w', (.bytesSent, reply.bytes) :: (reply.counter, 1) :: counted) := by
    intro w' counted total h
    have hne : Counter.bytesSent ≠ k := by
      rintro rfl
      exact absurd hk (by simp [OfRequests])
    have := (h.cons (c := (reply.counter, 1))).cons (c := (.bytesSent, reply.bytes))
    simpa [hne] using this
  unfold written takes
  rw [hi]
  by_cases hec : c.ec = true
  · simpa [hec] using (ends_finish k i (w.closeSocket i) w rfl).cons (c := (reply.counter, 1))
  · by_cases hopen : w.socketIsOpen i = true
    · by_cases hclose : reply.closeOnReply = true
      · simpa [hec, hopen, hclose] using hbytes _ _ _ (ends_await k i (w.closeSocket i) w rfl)
      · by_cases hmore : reply.more = true
        · have h := ends_look k timeout i c.looked w
          rcases hlook : w.look timeout i c.looked with ⟨w', counted⟩
          rw [hlook] at h
          simpa [hec, hopen, hclose, hmore, List.countP_cons, hlook] using hbytes _ _ _ h
        · simpa [hec, hopen, hclose, hmore] using hbytes _ _ _ (ends_await k i w w rfl)
    · simpa [hec, hopen] using hbytes _ _ _ (ends_finish k i w w rfl)

/-- **A coroutine counts what it had in flight, or takes a request into flight.** -/
theorem inFlight_resume {k : Counter} (hk : OfRequests k) (timeout i : ℕ) (c : Completion) (w : Worker) :
    (w.resume timeout i c).1.inFlight k + amount k (w.resume timeout i c).2 =
      w.inFlight k + (w.takes i c).countP fun looked => looked.counter = some k := by
  have hends : ∀ {co : ℕ × Coroutine} {total : ℕ} {r : Worker × List (Counter × ℕ)},
      w.coroutines[i]? = some co → Ends k i w total r →
      r.1.inFlight k + amount k r.2 + (if co.2.counter = some k then 1 else 0) =
        w.inFlight k + total := by
    rintro co total r hi ⟨at', hrun, rfl⟩
    have hmodify := countP_modify (fun c : ℕ × Coroutine => decide (c.2.counter = some k))
      (fun c => (c.1, at')) hi
    simp only [decide_eq_true_eq] at hmodify
    simp only [inFlight, hrun]
    omega
  unfold resume
  cases hi : w.coroutines[i]? with
  | none => simp [takes, hi, amount]
  | some co =>
    obtain ⟨socket, at'⟩ := co
    cases at' with
    | spawned => simpa [takes, hi, Coroutine.counter] using hends hi (ends_await k i w w rfl)
    | reading =>
      have hne : Counter.bytesReceived ≠ k := by
        rintro rfl
        exact absurd hk (by simp [OfRequests])
      by_cases hec : c.ec = true
      · simpa [takes, hi, read, hec, Coroutine.counter] using
          hends hi (ends_finish k i (w.closeSocket i) w rfl)
      · have h := ends_look k timeout i c.looked w
        rcases hlook : w.look timeout i c.looked with ⟨w', counted⟩
        rw [hlook] at h
        simpa [takes, hi, read, hec, hne, hlook, Coroutine.counter, List.countP_cons] using
          hends hi (h.cons (c := (.bytesReceived, c.bytes)))
    | replying reply =>
      have h := hends hi (ends_written hk timeout i reply c w ⟨socket, hi⟩)
      simp only [Coroutine.counter, Option.some.injEq] at h ⊢
      omega
    | refusing =>
      have h := hends hi ((ends_finish k i (w.closeSocket i) w rfl).cons (c := (.badRequests, 1)))
      simp only [takes, hi, List.countP_nil, Coroutine.counter, Option.some.injEq] at h ⊢
      omega
    | ended => simp [takes, hi, amount]

end Worker

end VUbercool.Http
