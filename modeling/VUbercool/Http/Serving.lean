import Mathlib.Data.List.Forall2
import VUbercool.Http.RequestCounts
import VUbercool.Http.Rounds

/-!
# The daemon and what it serves

The pipelines of `HttpDaemonImpl` with the loops of their connections: what a coroutine makes of a buffer is
what the round of its loop does.

* `Serving`, `step`: the daemon, the loops and the data of the hosts, which all loops share.
* `Wired`: a coroutine and its loop are at the same place. `wired_round`: a round is a step of the machine.
* **`replies_counted`**: in every run the replies that the loops have sent are counted, or about to be.
-/

namespace VUbercool.Http

open Octets Run

variable {η : Type} {env : Environment η}

/-! ## The daemon with its loops -/

/-- What comes in: what is read, and the date string and the clock of the thread. -/
structure Input where
  piece : Bytes
  date : CachedDate
  clock : ℕ → Int

/-- **The daemon, the loops of its connections and the data of the hosts.** -/
structure Serving (η : Type) (n : ℕ) where
  daemon : HttpDaemon n
  loops : Fin n → List (RequestLoop η)
  hosts : η

/-- The loop with what its coroutine has read, if it has. -/
def RequestLoop.feed (at' : Coroutine) (x : Input) (c : RequestLoop η) : RequestLoop η :=
  match at' with
  | .reading => c.read x.piece
  | _ => c

namespace Serving

variable {n : ℕ}

def start (n maxConnections : ℕ) (hosts : η) : Serving η n where
  daemon := .start n maxConnections
  loops _ := []
  hosts := hosts

/-- **A coroutine runs on**, and its loop does a round if it comes to parse its buffer. -/
def resume (env : Environment η) (timeout : ℕ) (p : Fin n) (i : ℕ) (ec : Bool) (x : Input)
    (s : Serving η n) : Serving η n :=
  match (s.daemon.workers p).coroutines[i]?, (s.loops p)[i]? with
  | some (_, at'), some c =>
    let c := (c.resume s.hosts x.date x.clock).feed at' x
    let completion : Completion := ⟨ec, x.piece.length, c.look env⟩
    let daemon := s.daemon.resume timeout p i completion
    if (s.daemon.workers p).takes i completion = [] then { s with daemon }
    else
      { daemon
        loops := Function.update s.loops p ((s.loops p).set i (c.round env))
        hosts := (c.round env).session.hosts }
  | _, _ => s

/-- **One step.** A connection that is created has a loop. -/
def step (env : Environment η) (timeout : ℕ) (s : Serving η n) : DaemonEvent n × Input → Serving η n
  | (.resume p i c, x) => if s.daemon.idle p then s.resume env timeout p i c.ec x else s
  | (.createConnection p now, x) =>
    { s with
      daemon := s.daemon.step timeout (.createConnection p now)
      loops := Function.update s.loops p (s.loops p ++
        (s.daemon.workers p).creating.toList.map fun _ => Http.start x.date x.clock s.hosts) }
  | (e, _) => { s with daemon := s.daemon.step timeout e }

end Serving

/-! ## A coroutine and its loop -/

/-- **A coroutine and its loop are at the same place.** -/
def Wired : Coroutine → RequestLoop η → Prop
  | .spawned, c => c.isOpen = true ∧ c.needModeData = true
  | .reading, c => c.isOpen = true ∧ c.needModeData = true
  | .replying reply, c =>
    c.isOpen = !reply.closeOnReply ∧ (reply.closeOnReply = false → c.needModeData = !reply.more)
  | .refusing, c => c.isOpen = false
  | .ended, _ => True

/-- Where a coroutine is after a round. -/
def Coroutine.After : Looked → Coroutine → Prop
  | .incomplete, at' => at' = .reading ∨ at' = .ended
  | .bad, at' => at' = .refusing
  | .raised, at' => at' = .ended
  | .replies reply, at' => at' = .replying reply

/-- A coroutine that parses its buffer when it runs on, if nothing fails. -/
def Coroutine.Looks : Coroutine → Prop
  | .reading => True
  | .replying reply => reply.closeOnReply = false ∧ reply.more = true
  | _ => False

/-- Where a coroutine goes that does not parse its buffer. -/
def Coroutine.Goes (at' : Coroutine) : Coroutine → Prop
  | .ended => True
  | .reading => at' = .spawned ∨
    ∃ reply, at' = .replying reply ∧ reply.closeOnReply = false ∧ reply.more = false
  | _ => False

theorem wired_of_follows {c c' : RequestLoop η} {looked : Looked} {at' : Coroutine}
    (h : Follows c c' looked) (ho : c.isOpen = true) (hafter : Coroutine.After looked at') :
    Wired at' c' := by
  cases looked with
  | incomplete =>
    obtain ⟨hopen, hmode, -⟩ := h
    obtain rfl | rfl := hafter
    · exact ⟨hopen.trans ho, hmode⟩
    · trivial
  | bad =>
    obtain rfl := hafter
    exact h.1
  | raised =>
    obtain rfl := hafter
    trivial
  | replies reply =>
    obtain rfl := hafter
    obtain ⟨-, hopen, hmode⟩ := h
    rw [ho, Bool.true_and] at hopen
    exact ⟨hopen, hmode⟩

theorem wired_of_goes {c : RequestLoop η} {at₀ at' : Coroutine} (h : Wired at₀ c) (hg : at₀.Goes at') :
    Wired at' c := by
  cases at' with
  | ended => trivial
  | reading =>
    obtain rfl | ⟨reply, rfl, hclose, hmore⟩ := hg
    · exact h
    · refine ⟨h.1.trans ?_, (h.2 hclose).trans ?_⟩
      · rw [hclose]
        rfl
      · rw [hmore]
        rfl
  | spawned => cases hg
  | replying reply => cases hg
  | refusing => cases hg

/-- **A round is a step of the machine**: the loop of a coroutine that comes to parse its buffer is open, and
it asks for what the coroutine has read. -/
theorem wired_round {c : RequestLoop η} {at' : Coroutine} (h : Wired at' c) (hlooks : at'.Looks)
    (x : Input) : c.isOpen = true ∧ ∃ rest,
      (RequestLoop.machine env).step (c, [x.piece]) = some ((c.feed at' x).round env, rest) := by
  cases at' with
  | reading => exact ⟨h.1, _, Machine.step_read (M := RequestLoop.machine env) h.1 h.2 x.piece []⟩
  | replying reply =>
    obtain ⟨hclose, hmore⟩ := hlooks
    have hopen : c.isOpen = true := by rw [h.1, hclose]; rfl
    have hmode : c.needModeData = false := by rw [h.2 hclose, hmore]; rfl
    exact ⟨hopen, _, Machine.step_again (M := RequestLoop.machine env) hopen hmode [x.piece]⟩
  | spawned => cases hlooks
  | refusing => cases hlooks
  | ended => cases hlooks

namespace Worker

variable {i : ℕ} {w : Worker}

theorem coroutines_await (i : ℕ) (w : Worker) : ∃ at' : Coroutine, (at' = .reading ∨ at' = .ended) ∧
    (w.await i).coroutines = w.coroutines.modify i fun c => (c.1, at') := by
  unfold await
  split
  · exact ⟨.reading, .inl rfl, rfl⟩
  · exact ⟨.ended, .inr rfl, rfl⟩

theorem coroutines_look (timeout i : ℕ) (looked : Looked) (w : Worker) : ∃ at' : Coroutine,
    Coroutine.After looked at' ∧
      (w.look timeout i looked).1.coroutines = w.coroutines.modify i fun c => (c.1, at') := by
  cases looked with
  | incomplete => exact coroutines_await i w
  | bad => exact ⟨.refusing, rfl, rfl⟩
  | raised => exact ⟨.ended, rfl, rfl⟩
  | replies reply =>
    refine ⟨.replying reply, rfl, ?_⟩
    simp only [look, setEndOfLife]
    split
    · split
      · rfl
      · rfl
    · rfl

theorem socketIsOpen_closeSocket (i : ℕ) (w : Worker) : (w.closeSocket i).socketIsOpen i = false := by
  simp only [socketIsOpen, closeSocket, ConnectionMgr.closeSocket, List.getElem?_modify]
  cases w.mgr.created[i]? with
  | none => rfl
  | some c => simp

/-- **What a coroutine does that has not ended**: it comes to parse its buffer, or it does not. -/
theorem coroutines_resume (timeout : ℕ) (c : Completion) {socket : ℕ} {at₀ : Coroutine}
    (hi : w.coroutines[i]? = some (socket, at₀)) (hrun : at₀ ≠ .ended) : ∃ at' : Coroutine,
      (w.resume timeout i c).1.coroutines = (w.coroutines.modify i fun c => (c.1, at')) ∧
        (w.takes i c = [c.looked] ∧ at₀.Looks ∧ Coroutine.After c.looked at' ∨
          w.takes i c = [] ∧ at₀.Goes at') := by
  unfold resume takes
  rw [hi]
  cases at₀ with
  | spawned =>
    obtain ⟨at', rfl | rfl, hco⟩ := coroutines_await i w
    · exact ⟨_, hco, .inr ⟨rfl, .inl rfl⟩⟩
    · exact ⟨_, hco, .inr ⟨rfl, trivial⟩⟩
  | reading =>
    simp only [read]
    split
    · exact ⟨.ended, rfl, .inr ⟨rfl, trivial⟩⟩
    · obtain ⟨at', hafter, hco⟩ := coroutines_look timeout i c.looked w
      exact ⟨at', hco, .inl ⟨rfl, trivial, hafter⟩⟩
  | replying reply =>
    simp only [written]
    by_cases hec : c.ec = true
    · exact ⟨.ended, by simp only [if_pos hec]; rfl, .inr ⟨by simp [hec], trivial⟩⟩
    by_cases hopen : w.socketIsOpen i = false
    · exact ⟨.ended, by simp only [if_neg hec, if_pos hopen]; rfl, .inr ⟨by simp [hopen], trivial⟩⟩
    by_cases hclose : reply.closeOnReply = true
    · refine ⟨.ended, ?_, .inr ⟨by simp [hclose], trivial⟩⟩
      simp only [if_neg hec, if_neg hopen, if_pos hclose]
      rw [await, socketIsOpen_closeSocket, if_neg Bool.false_ne_true]
      rfl
    by_cases hmore : reply.more = true
    · obtain ⟨at', hafter, hco⟩ := coroutines_look timeout i c.looked w
      refine ⟨at', ?_, .inl ⟨?_, ⟨by simpa using hclose, hmore⟩, hafter⟩⟩
      · simp only [if_neg hec, if_neg hopen, if_neg hclose, if_pos hmore]
        exact hco
      · simp only [Bool.not_eq_true] at hec hclose
        simp only [Bool.not_eq_false] at hopen
        exact if_pos ⟨hec, hopen, hclose, hmore⟩
    · obtain ⟨at', hat, hco⟩ := coroutines_await i w
      refine ⟨at', by simp only [if_neg hec, if_neg hopen, if_neg hclose, if_neg hmore]; exact hco,
        .inr ⟨by simp [hmore], ?_⟩⟩
      obtain rfl | rfl := hat
      · exact .inr ⟨reply, rfl, by simpa using hclose, by simpa using hmore⟩
      · trivial
  | refusing => exact ⟨.ended, rfl, .inr ⟨rfl, trivial⟩⟩
  | ended => exact absurd rfl hrun

end Worker

/-! ## The replies -/

/-- **The counter of the replies with a code.** -/
def Tells (k : Counter) (code : Int) : Prop :=
  k = .okRequests ∧ code = 200 ∨ k = .badRequests ∧ code = 400

theorem Tells.ofRequests {k : Counter} {code : Int} (h : Tells k code) : OfRequests k := by
  obtain ⟨rfl, -⟩ | ⟨rfl, -⟩ := h
  · exact .inl rfl
  · exact .inr (.inr rfl)

/-- How many replies with a code a loop has sent. -/
def RequestLoop.repliesWith (code : Int) (c : RequestLoop η) : ℕ :=
  c.session.sent.countP fun sent => sent.code = code

/-- **A round sends the replies that are counted for it.** -/
theorem Follows.repliesWith {c c' : RequestLoop η} {looked : Looked} (h : Follows c c' looked)
    {k : Counter} {code : Int} (hk : Tells k code) :
    c'.repliesWith code = c.repliesWith code + if looked.counter = some k then 1 else 0 := by
  have hsent : ∀ sent, c'.session.sent = c.session.sent ++ [sent] →
      c'.repliesWith code = c.repliesWith code + if sent.code = code then 1 else 0 := by
    intro sent hsent
    rw [RequestLoop.repliesWith, hsent, List.countP_append, List.countP_singleton]
    simp [RequestLoop.repliesWith]
  cases looked with
  | incomplete => exact congrArg (List.countP _) h.2.2
  | bad =>
    obtain ⟨-, sent, hs, h400⟩ := h
    rw [hsent sent hs, h400]
    obtain ⟨rfl, rfl⟩ | ⟨rfl, rfl⟩ := hk
    · rfl
    · rfl
  | raised =>
    obtain ⟨-, hs⟩ := h
    obtain ⟨rfl, rfl⟩ | ⟨rfl, rfl⟩ := hk
    · exact congrArg (List.countP _) hs
    · exact congrArg (List.countP _) hs
  | replies reply =>
    obtain ⟨⟨sent, hs, hbad, hok, -⟩, -⟩ := h
    rw [hsent sent hs, Looked.counter, Reply.counter]
    obtain ⟨rfl, rfl⟩ | ⟨rfl, rfl⟩ := hk
    · simp only [← hok]
      cases reply.success <;> rfl
    · rw [if_neg hbad]
      cases reply.success <;> rfl

theorem sum_map_set {α : Type} (f : α → ℕ) {l : List α} {i : ℕ} {a : α} (h : l[i]? = some a) (b : α) :
    ((l.set i b).map f).sum + f a = (l.map f).sum + f b := by
  obtain ⟨hlt, rfl⟩ := List.getElem?_eq_some_iff.mp h
  induction l generalizing i with
  | nil => cases hlt
  | cons x l ih =>
    cases i with
    | zero =>
      simp only [List.set_cons_zero, List.map_cons, List.sum_cons, List.getElem_cons_zero]
      omega
    | succ i =>
      have hlt' := Nat.lt_of_succ_lt_succ hlt
      have hrest := ih hlt' (List.getElem?_eq_getElem hlt')
      simp only [List.set_cons_succ, List.map_cons, List.sum_cons, List.getElem_cons_succ]
      omega

/-- The coroutines of a pipeline and their loops. -/
def Beside (w : Worker) (loops : List (RequestLoop η)) : Prop :=
  List.Forall₂ (fun co c => Wired co.2 c) w.coroutines loops

section Beside

variable {w w' : Worker} {loops : List (RequestLoop η)} {i : ℕ}

theorem Beside.wired (h : Beside w loops) {co : ℕ × Coroutine} {c : RequestLoop η}
    (hco : w.coroutines[i]? = some co) (hc : loops[i]? = some c) : Wired co.2 c := by
  obtain ⟨hlt, rfl⟩ := List.getElem?_eq_some_iff.mp hco
  obtain ⟨hlt', rfl⟩ := List.getElem?_eq_some_iff.mp hc
  exact h.get hlt hlt'

/-- A coroutine and its loop go on. -/
theorem Beside.set (h : Beside w loops) {at' : Coroutine}
    (hw : w'.coroutines = w.coroutines.modify i fun co => (co.1, at')) {c : RequestLoop η}
    (hc : Wired at' c) : Beside w' (loops.set i c) := by
  unfold Beside at h ⊢
  rw [hw]
  clear hw
  generalize w.coroutines = coroutines at h
  induction h generalizing i with
  | nil =>
    rw [List.modify_nil]
    exact .nil
  | cons hco hrest ih =>
    cases i with
    | zero => exact .cons hc hrest
    | succ i => exact .cons hco ih

end Beside

namespace Serving

variable {n : ℕ} {s : Serving η n} {timeout : ℕ}

/-- How many replies with a code were sent, on all connections. -/
def sentWith (code : Int) (s : Serving η n) : ℕ :=
  ∑ p, ((s.loops p).map (RequestLoop.repliesWith code)).sum

/-- **The invariant**: every coroutine has its loop, which is at the same place; the requests are counted, and
what became of the buffers is what was replied. -/
structure Keeps (s : Serving η n) : Prop where
  accounted : s.daemon.Accounted
  beside : ∀ p, Beside (s.daemon.workers p) (s.loops p)
  replies : ∀ k code, Tells k code →
    s.daemon.looked.countP (fun looked => looked.counter = some k) = s.sentWith code

/-- Where no coroutine runs on and none is spawned, the loops stay as they are. -/
theorem Keeps.of_same (h : s.Keeps) {d : HttpDaemon n} (haccounted : d.Accounted)
    (hco : ∀ p, (d.workers p).coroutines = (s.daemon.workers p).coroutines)
    (hlooked : d.looked = s.daemon.looked) : Keeps { s with daemon := d } where
  accounted := haccounted
  beside p := by
    rw [Beside, hco]
    exact h.beside p
  replies k code hk := (congrArg (List.countP _) hlooked).trans (h.replies k code hk)

theorem coroutines_update {d : HttpDaemon n} {p : Fin n} {w : Worker}
    (hw : w.coroutines = (d.workers p).coroutines) (q : Fin n) :
    ((d.update p w).workers q).coroutines = (d.workers q).coroutines :=
  Family.forall_update (P := fun q w => Worker.coroutines w = (d.workers q).coroutines) (fun _ => rfl) hw q

theorem coroutines_draw (key : ConnKey) (w : Worker) : (w.draw key).coroutines = w.coroutines := by
  unfold Worker.draw
  split
  · rfl
  · rfl

/-- **A connection that is created** has a loop that has not begun. -/
theorem Keeps.create (h : s.Keeps) (p : Fin n) (now : Int) (x : Input) :
    (s.step env timeout (.createConnection p now, x)).Keeps := by
  have hzero : ∀ code, (Http.start x.date x.clock s.hosts).repliesWith code = 0 := fun _ => rfl
  have haccounted := @HttpDaemon.accounted_step n s.daemon timeout h.accounted (.createConnection p now)
  refine ⟨haccounted, ?_, fun k code hk => ?_⟩
  · refine Family.forall_update₂ (P := Beside) h.beside ?_
    unfold Beside Worker.create
    cases (s.daemon.workers p).creating with
    | none =>
      rw [Option.toList_none, List.map_nil, List.append_nil]
      exact h.beside p
    | some drawn => exact List.rel_append (h.beside p) (.cons ⟨rfl, rfl⟩ .nil)
  · have hsum := Family.sum_update_of_eq (f := fun l => (l.map (RequestLoop.repliesWith code)).sum)
      (s := s.loops) (p := p) (x := s.loops p ++
        (s.daemon.workers p).creating.toList.map fun _ => Http.start x.date x.clock s.hosts) (by
          cases (s.daemon.workers p).creating with
          | none => simp
          | some drawn => simp [hzero])
    exact (h.replies k code hk).trans hsum.symm

/-- The loop of a coroutine, with the data of the hosts, is where it was. -/
theorem feed_resume {c : RequestLoop η} {at' : Coroutine} (hosts : η) (x : Input) :
    ((c.resume hosts x.date x.clock).feed at' x).isOpen = c.isOpen ∧
      ∀ code, ((c.resume hosts x.date x.clock).feed at' x).repliesWith code = c.repliesWith code := by
  cases at'
  all_goals exact ⟨rfl, fun _ => rfl⟩

/-- **A coroutine that runs on** keeps the invariant, with its loop. -/
theorem Keeps.resume (h : s.Keeps) (p : Fin n) (i : ℕ) (ec : Bool) (x : Input) :
    (s.resume env timeout p i ec x).Keeps := by
  unfold Serving.resume
  split
  swap
  · exact h
  next socket at₀ c hi hc =>
    obtain ⟨hopen, hreplies⟩ := @feed_resume η c at₀ s.hosts x
    simp only
    generalize (c.resume s.hosts x.date x.clock).feed at₀ x = c' at hopen hreplies
    have haccounted := h.accounted.resume timeout p i ⟨ec, x.piece.length, c'.look env⟩
    have hwired : Wired at₀ c := (h.beside p).wired hi hc
    by_cases hended : at₀ = .ended
    · -- the coroutine has ended
      subst hended
      have htakes : (s.daemon.workers p).takes i ⟨ec, x.piece.length, c'.look env⟩ = [] := by
        rw [Worker.takes, hi]
      have hsame : (s.daemon.workers p).resume timeout i ⟨ec, x.piece.length, c'.look env⟩ =
          (s.daemon.workers p, []) := by
        rw [Worker.resume, hi]
      rw [if_pos htakes]
      refine h.of_same haccounted (coroutines_update ?_) ?_
      · rw [hsame]
      · exact (congrArg (s.daemon.looked ++ ·) htakes).trans (List.append_nil _)
    obtain ⟨at', hco, ⟨htakes, hlooks, hafter⟩ | ⟨htakes, hgoes⟩⟩ :=
      Worker.coroutines_resume timeout ⟨ec, x.piece.length, c'.look env⟩ hi hended
    · -- a round
      have hne : (s.daemon.workers p).takes i ⟨ec, x.piece.length, c'.look env⟩ ≠ [] := by
        rw [htakes]
        exact List.cons_ne_nil _ _
      have hfollows := @RequestLoop.follows_round η env c'
      rw [if_neg hne]
      refine ⟨haccounted, Family.forall_update₂ (P := Beside) h.beside ((h.beside p).set hco ?_),
        fun k code hk => ?_⟩
      · exact wired_of_follows hfollows (hopen.trans (@wired_round η env c at₀ hwired hlooks x).1) hafter
      · have hsum := Family.sum_update_add (fun l => (l.map (RequestLoop.repliesWith code)).sum) s.loops p
          ((s.loops p).set i (c'.round env))
        have hone := sum_map_set (RequestLoop.repliesWith code) hc (c'.round env)
        have hround := hfollows.repliesWith hk
        have hall := h.replies k code hk
        rw [hreplies] at hround
        show (s.daemon.looked ++ (s.daemon.workers p).takes i _).countP _ = ∑ q, _
        rw [htakes, List.countP_append, List.countP_singleton]
        simp only [decide_eq_true_eq]
        unfold sentWith at hall
        omega
    · -- no round
      rw [if_pos htakes]
      have hset : (s.loops p).set i c = s.loops p := by
        obtain ⟨hlt, rfl⟩ := List.getElem?_eq_some_iff.mp hc
        exact List.set_getElem_self hlt
      refine ⟨haccounted, ?_, fun k code hk => ?_⟩
      · refine Family.forall_update (P := fun q w => Beside w (s.loops q)) h.beside ?_
        rw [← hset]
        exact (h.beside p).set hco (wired_of_goes hwired hgoes)
      · refine Eq.trans ?_ (h.replies k code hk)
        exact congrArg (List.countP _) ((congrArg (s.daemon.looked ++ ·) htakes).trans (List.append_nil _))

/-- **One step** keeps the invariant. -/
theorem Keeps.step (h : s.Keeps) (e : DaemonEvent n × Input) : (s.step env timeout e).Keeps := by
  obtain ⟨e, x⟩ := e
  have haccounted := @HttpDaemon.accounted_step n s.daemon timeout h.accounted e
  cases e with
  | resume p i c =>
    rw [Serving.step]
    split
    · exact h.resume p i c.ec x
    · exact h
  | createConnection p now => exact h.create p now x
  | accept acceptor target =>
    refine h.of_same haccounted ?_ ?_
    all_goals
      rw [HttpDaemon.step]
      split
    · exact coroutines_update rfl
    · exact fun _ => rfl
    · rfl
    · rfl
  | acceptError acceptor =>
    refine h.of_same haccounted ?_ ?_
    all_goals
      rw [HttpDaemon.step]
      split
    · exact fun _ => rfl
    · exact fun _ => rfl
    · rfl
    · rfl
  | getNextKey p =>
    refine h.of_same haccounted ?_ ?_
    all_goals
      rw [HttpDaemon.step, HttpDaemon.getNextKey]
      split_ifs
    · exact fun _ => rfl
    · exact coroutines_update (coroutines_draw _ _)
    · exact fun _ => rfl
    · rfl
    · rfl
    · rfl
  | housekeeping p now =>
    refine h.of_same haccounted ?_ ?_
    all_goals
      rw [HttpDaemon.step]
      split
    · exact coroutines_update rfl
    · exact fun _ => rfl
    · rfl
    · rfl
  | deliver task => exact h.of_same haccounted (fun _ => rfl) rfl

/-- **The replies are counted.** In every run of any number of pipelines, whatever the connections receive
and the hosts make of it, the replies with the code 200 or 400 that were sent are in the counter of such
requests, or about to be when their write returns. -/
theorem replies_counted (env : Environment η) (timeout maxConnections : ℕ) (hosts : η)
    (events : List (DaemonEvent n × Input)) {k : Counter} {code : Int} (hk : Tells k code) :
    let s := run (step env timeout) (start n maxConnections hosts) events
    s.daemon.stats.added .http k + ∑ p, (s.daemon.workers p).inFlight k = s.sentWith code := by
  have hkeeps : (run (Serving.step env timeout) (start n maxConnections hosts) events).Keeps := by
    induction events using List.reverseRecOn with
    | nil =>
      refine ⟨HttpDaemon.accounted_start n maxConnections, fun p => .nil, fun k code _ => ?_⟩
      simp [start, run, sentWith, HttpDaemon.start]
    | append_singleton events e ih =>
      rw [run, List.foldl_append, ← run]
      exact ih.step e
  exact (hkeeps.accounted.requests k hk.ofRequests).trans (hkeeps.replies k code hk)

end Serving

end VUbercool.Http
