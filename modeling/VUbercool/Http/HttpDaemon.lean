import VUbercool.Http.Worker
import VUbercool.Lib.Family

/-!
# The daemon on its pipelines

`HttpDaemonImpl` (`HttpDaemon.cpp`): the acceptors, `OnNewConnection`, the coroutines and the housekeeping
of any number of pipelines, in any order, and `GetNextKey`, whose counter they share.

* `HttpDaemon`, `step`: the pipelines and the statistics, and what may happen next.
* `Started`: what the steps keep of the pipelines, one by one. `drawsOf`: who drew which key.
* **`connections_served`**: no coroutine runs on a connection that was destroyed, in every run that
  accepts fewer than `2 ^ 32` connections.
* **`sockets_served`**: every socket that was accepted is in one place. **`sockets_limited`**: the limit.
-/

namespace VUbercool.Http

open Run ConnectionMgr

/-- **`HttpDaemonImpl`**: the counter of `GetNextKey`, the number of sockets that were accepted, the
pipelines and the statistics; and, for the record, who drew the keys and what became of the buffers. -/
structure HttpDaemon (n : ℕ) where
  nextKey : ConnKey := 0
  sockets : ℕ := 0
  workers : Fin n → Worker
  stats : Collection n := {}
  drawn : List (Fin n) := []
  looked : List Looked := []

/-- What may happen. `acceptor` is the pipeline of an acceptor, and `target` the one that it chose for the
socket. -/
inductive DaemonEvent (n : ℕ)
  | accept (acceptor target : Fin n)
  | acceptError (acceptor : Fin n)
  | getNextKey (pipeline : Fin n)
  | createConnection (pipeline : Fin n) (now : Int)
  | resume (pipeline : Fin n) (connection : ℕ) (c : Completion)
  | housekeeping (pipeline : Fin n) (now : Int)
  | deliver (task : ℕ)

namespace HttpDaemon

variable {n : ℕ}

/-- The constructor, with the `max_connections` of the configuration. -/
def start (n maxConnections : ℕ) : HttpDaemon n where
  workers _ := { mgr := { maxConnections } }

/-- A pipeline changes. -/
def update (p : Fin n) (w : Worker) (d : HttpDaemon n) : HttpDaemon n :=
  { d with workers := Function.update d.workers p w }

/-- The thread of a pipeline adds to `thd_http_stats_`. -/
def count (p : Fin n) (counted : List (Counter × ℕ)) (d : HttpDaemon n) : HttpDaemon n :=
  { d with stats := d.stats.count p .http counted }

/-- The thread of a pipeline is between two tasks. -/
def idle (p : Fin n) (d : HttpDaemon n) : Prop := (d.workers p).creating = none

instance (p : Fin n) (d : HttpDaemon n) : Decidable (d.idle p) := inferInstanceAs (Decidable (_ = _))

/-- `async_accept` has returned a socket, and `OnNewConnection` is dispatched. -/
def accept (acceptor target : Fin n) (d : HttpDaemon n) : HttpDaemon n :=
  ({ d with sockets := d.sockets + 1 }.update target
    ((d.workers target).dispatch d.sockets)).count acceptor [(.connections, 1)]

/-- `GetNextKey`, in `OnNewConnection`, if there is one to be run. -/
def getNextKey (p : Fin n) (d : HttpDaemon n) : HttpDaemon n :=
  if (d.workers p).dispatched = [] then d
  else
    { d with nextKey := d.nextKey + 1, drawn := d.drawn ++ [p] }.update p
      ((d.workers p).draw (d.nextKey + 1))

/-- `OnNewConnection` after `GetNextKey`. -/
def createConnection (p : Fin n) (now : Int) (d : HttpDaemon n) : HttpDaemon n :=
  d.update p ((d.workers p).create now)

/-- A coroutine runs on. -/
def resume (timeout : ℕ) (p : Fin n) (connection : ℕ) (c : Completion) (d : HttpDaemon n) :
    HttpDaemon n :=
  let r := (d.workers p).resume timeout connection c
  ({ d with looked := d.looked ++ (d.workers p).takes connection c }.update p r.1).count p r.2

/-- The task of `ScheduleHttpHousekeeping`: `RemoveExpieredConnections` and `UpdateStats`. -/
def housekeeping (p : Fin n) (now : Int) (d : HttpDaemon n) : HttpDaemon n :=
  let r := (d.workers p).removeExpieredConnections now
  let d := (d.update p r.1).count p r.2
  { d with stats := d.stats.updateStats p .http }

/-- **One step**, with the `connection_timeout` of the configuration. The thread of a pipeline takes up a
task when it is done with the last one. -/
def step (timeout : ℕ) (d : HttpDaemon n) : DaemonEvent n → HttpDaemon n
  | .accept acceptor target => if d.idle acceptor then d.accept acceptor target else d
  | .acceptError acceptor => if d.idle acceptor then d.count acceptor [(.failedConnections, 1)] else d
  | .getNextKey p => if d.idle p then d.getNextKey p else d
  | .createConnection p now => d.createConnection p now
  | .resume p connection c => if d.idle p then d.resume timeout p connection c else d
  | .housekeeping p now => if d.idle p then d.housekeeping p now else d
  | .deliver task => { d with stats := d.stats.deliver task }

/-! ## What a step does -/

variable {d d' : HttpDaemon n} {timeout : ℕ}

/-- What the thread of a pipeline does with its connections alone. -/
inductive Runs (timeout : ℕ) (w : Worker) : Worker → Prop
  | create (now : Int) : Runs timeout w (w.create now)
  | resume (i : ℕ) (c : Completion) : Runs timeout w (w.resume timeout i c).1
  | housekeeping (now : Int) : Runs timeout w (w.removeExpieredConnections now).1

/-- **What a step does** to the pipelines and to what they share: one of them runs on, or a socket is
dispatched to it, or it draws a key. -/
inductive Acts (timeout : ℕ) (d d' : HttpDaemon n) : Prop
  | quiet : d'.workers = d.workers → d'.nextKey = d.nextKey → d'.sockets = d.sockets →
      d'.drawn = d.drawn → Acts timeout d d'
  | runs (p : Fin n) (w : Worker) : Runs timeout (d.workers p) w →
      d'.workers = Function.update d.workers p w → d'.nextKey = d.nextKey → d'.sockets = d.sockets →
      d'.drawn = d.drawn → Acts timeout d d'
  | accepts (p : Fin n) :
      d'.workers = Function.update d.workers p ((d.workers p).dispatch d.sockets) →
      d'.nextKey = d.nextKey → d'.sockets = d.sockets + 1 → d'.drawn = d.drawn → Acts timeout d d'
  | draws (p : Fin n) : (d.workers p).dispatched ≠ [] → (d.workers p).creating = none →
      d'.workers = Function.update d.workers p ((d.workers p).draw (d.nextKey + 1)) →
      d'.nextKey = d.nextKey + 1 → d'.sockets = d.sockets → d'.drawn = d.drawn ++ [p] →
      Acts timeout d d'

theorem acts_step (timeout : ℕ) (d : HttpDaemon n) (e : DaemonEvent n) :
    Acts timeout d (d.step timeout e) := by
  cases e with
  | accept acceptor target =>
    rw [step]
    split
    · exact .accepts target rfl rfl rfl rfl
    · exact .quiet rfl rfl rfl rfl
  | acceptError acceptor =>
    rw [step]
    split
    · exact .quiet rfl rfl rfl rfl
    · exact .quiet rfl rfl rfl rfl
  | getNextKey p =>
    rw [step]
    split
    · next hidle =>
      unfold HttpDaemon.getNextKey
      split
      · exact .quiet rfl rfl rfl rfl
      · next hsockets => exact .draws p hsockets hidle rfl rfl rfl rfl
    · exact .quiet rfl rfl rfl rfl
  | createConnection p now => exact .runs p _ (.create now) rfl rfl rfl rfl
  | resume p connection c =>
    rw [step]
    split
    · exact .runs p _ (.resume connection c) rfl rfl rfl rfl
    · exact .quiet rfl rfl rfl rfl
  | housekeeping p now =>
    rw [step]
    split
    · exact .runs p _ (.housekeeping now) rfl rfl rfl rfl
    · exact .quiet rfl rfl rfl rfl
  | deliver task => exact .quiet rfl rfl rfl rfl

/-! ## The sockets -/

end HttpDaemon

/-- The sockets that a pipeline was given, wherever they are. -/
def Worker.places (w : Worker) : List ℕ :=
  w.dispatched ++ w.creating.toList.map Prod.fst ++ w.coroutines.map Prod.fst

namespace HttpDaemon

variable {n : ℕ} {d d' : HttpDaemon n} {timeout : ℕ}

theorem map_fst_moves {i : ℕ} {w w' : Worker} (h : Worker.Moves i w w') :
    w'.dispatched = w.dispatched ∧ w'.creating = w.creating ∧
      w'.coroutines.map Prod.fst = w.coroutines.map Prod.fst := by
  have hsuspend : ∀ (at' : Coroutine) (w : Worker),
      (w.suspend i at').coroutines.map Prod.fst = w.coroutines.map Prod.fst := by
    intro at' w
    apply List.ext_getElem?
    intro j
    simp only [Worker.suspend, List.getElem?_map, List.getElem?_modify]
    by_cases hij : i = j
    · simp [hij, Function.comp_def]
    · simp [hij]
  induction h with
  | suspend _ => exact ⟨rfl, rfl, hsuspend _ _⟩
  | @finish w => exact ⟨rfl, rfl, hsuspend .ended { w with mgr := w.mgr.close i }⟩
  | closeSocket _ ih => exact ih
  | setEndOfLife _ _ _ ih => exact ih

theorem places_runs {w w' : Worker} (h : Runs timeout w w') : w'.places.Perm w.places := by
  cases h with
  | create now =>
    unfold Worker.create
    split
    · next socket key hc =>
      simp only [Worker.places, hc, Option.toList_none, Option.toList_some, List.map_nil,
        List.map_cons, List.map_append, List.append_nil, List.append_assoc]
      exact List.perm_append_comm.append_left _
    · exact List.Perm.refl _
  | resume i c =>
    obtain ⟨-, hm⟩ | hsame := w.moves_resume timeout i c
    · obtain ⟨hd, hc, hco⟩ := map_fst_moves hm
      rw [Worker.places, hd, hc, hco, Worker.places]
    · rw [hsame]
  | housekeeping now => exact List.Perm.refl _

/-- **Every socket that was accepted is in one place**, and in no other. -/
def SocketsOnce (d : HttpDaemon n) : Prop :=
  ∀ socket, ∑ p, (d.workers p).places.count socket = if socket < d.sockets then 1 else 0

theorem places_draw {w : Worker} (hc : w.creating = none) (key : ConnKey) :
    (w.draw key).places.Perm w.places := by
  unfold Worker.draw
  split
  · next socket dispatched hd =>
    simp only [Worker.places, hd, hc, Option.toList_none, Option.toList_some, List.map_nil,
      List.map_cons, List.append_nil, List.cons_append]
    rw [List.append_assoc]
    exact List.perm_middle
  · exact List.Perm.refl _

theorem socketsOnce_acts (h : d.SocketsOnce) (ha : Acts timeout d d') : d'.SocketsOnce := by
  intro socket
  have hs := h socket
  cases ha with
  | quiet hworkers _ hsockets _ => rw [hworkers, hsockets, hs]
  | runs p w hw hworkers _ hsockets _ =>
    rw [hworkers, hsockets]
    exact (Family.sum_update_of_eq (f := fun w : Worker => w.places.count socket)
      ((places_runs hw).count_eq socket)).trans hs
  | accepts p hworkers _ hsockets _ =>
    have hcount : ((d.workers p).dispatch d.sockets).places.count socket =
        (d.workers p).places.count socket + if socket = d.sockets then 1 else 0 := by
      simp only [Worker.places, Worker.dispatch, List.count_append, List.count_singleton, beq_iff_eq]
      split_ifs
      all_goals omega
    have hsum := Family.sum_update_add (fun w : Worker => w.places.count socket) d.workers p
      ((d.workers p).dispatch d.sockets)
    rw [hworkers, hsockets]
    split_ifs at hs hcount ⊢
    all_goals omega
  | draws p _ hc hworkers _ hsockets _ =>
    rw [hworkers, hsockets]
    exact (Family.sum_update_of_eq (f := fun w : Worker => w.places.count socket)
      ((places_draw hc _).count_eq socket)).trans hs

/-- The keys that were drawn are those of sockets that are no longer dispatched. -/
def DrawsOnce (d : HttpDaemon n) : Prop :=
  d.drawn.length + ∑ p, (d.workers p).dispatched.length = d.sockets

theorem dispatched_runs {w w' : Worker} (h : Runs timeout w w') : w'.dispatched = w.dispatched := by
  cases h with
  | create now =>
    unfold Worker.create
    split
    · rfl
    · rfl
  | resume i c =>
    obtain ⟨-, hm⟩ | hsame := w.moves_resume timeout i c
    · exact (map_fst_moves hm).1
    · rw [hsame]
  | housekeeping now => rfl

theorem drawsOnce_acts (h : d.DrawsOnce) (ha : Acts timeout d d') : d'.DrawsOnce := by
  unfold DrawsOnce at h ⊢
  cases ha with
  | quiet hworkers _ hsockets hdrawn => rw [hworkers, hsockets, hdrawn, h]
  | runs p w hw hworkers _ hsockets hdrawn =>
    have hsum := Family.sum_update_of_eq (f := fun w : Worker => w.dispatched.length)
      (congrArg List.length (dispatched_runs hw))
    rw [hworkers, hsockets, hdrawn, hsum, h]
  | accepts p hworkers _ hsockets hdrawn =>
    have hsum := Family.sum_update_add (fun w : Worker => w.dispatched.length) d.workers p
      ((d.workers p).dispatch d.sockets)
    have hlength : ((d.workers p).dispatch d.sockets).dispatched.length =
        (d.workers p).dispatched.length + 1 := List.length_append
    rw [hworkers, hsockets, hdrawn]
    omega
  | draws p hd hc hworkers _ hsockets hdrawn =>
    have hsum := Family.sum_update_add (fun w : Worker => w.dispatched.length) d.workers p
      ((d.workers p).draw (d.nextKey + 1))
    have hlength : ((d.workers p).draw (d.nextKey + 1)).dispatched.length + 1 =
        (d.workers p).dispatched.length := by
      unfold Worker.draw
      split
      · next socket dispatched hd' => rw [hd', List.length_cons]
      · next hd' => exact absurd hd' hd
    rw [hworkers, hsockets, hdrawn, List.length_append, List.length_singleton]
    omega

/-! ## The keys -/

end HttpDaemon

/-- The keys of a pipeline, as numbers: those of its connections and the one it has just drawn. -/
def Worker.keys (w : Worker) : List ℕ :=
  w.mgr.ledger.map (fun p => p.1.toNat) ++ w.creating.toList.map fun p => p.2.toNat

namespace HttpDaemon

variable {n : ℕ} {d d' : HttpDaemon n} {timeout : ℕ}

/-- The numbers of the draws of a pipeline, the first one being 1. -/
def drawsOf (p : Fin n) (drawn : List (Fin n)) : List ℕ :=
  ((drawn.zipIdx 1).filter fun x => x.1 = p).map Prod.snd

theorem drawsOf_append (p q : Fin n) (drawn : List (Fin n)) :
    drawsOf p (drawn ++ [q]) = drawsOf p drawn ++ if q = p then [drawn.length + 1] else [] := by
  rw [drawsOf, List.zipIdx_append, List.filter_append, List.map_append, drawsOf]
  congr 1
  by_cases h : q = p
  · simp [h, Nat.add_comm]
  · simp [h]

theorem mem_drawsOf {p : Fin n} {drawn : List (Fin n)} {k : ℕ} :
    k ∈ drawsOf p drawn ↔ 1 ≤ k ∧ drawn[k - 1]? = some p := by
  simp only [drawsOf, List.mem_map, List.mem_filter, decide_eq_true_eq, Prod.exists,
    List.mk_mem_zipIdx_iff_le_and_getElem?_sub]
  constructor
  · rintro ⟨q, k, ⟨hk, rfl⟩, rfl⟩
    exact hk
  · intro hk
    exact ⟨p, k, ⟨hk, rfl⟩, rfl⟩

theorem nodup_drawsOf (p : Fin n) (drawn : List (Fin n)) : (drawsOf p drawn).Nodup := by
  refine List.Nodup.sublist (List.filter_sublist.map Prod.snd) ?_
  rw [List.zipIdx_map_snd]
  exact List.nodup_range'

theorem keys_close (i : ℕ) (m : ConnectionMgr) :
    (m.close i).ledger.map Prod.fst = m.ledger.map Prod.fst := by
  have hmap : ∀ (f : Connection → Connection), (∀ c, (f c).key = c.key) → ∀ l : List Connection,
      (l.modify i f).map Connection.key = l.map Connection.key := by
    intro f hf l
    apply List.ext_getElem?
    intro j
    simp only [List.getElem?_map, List.getElem?_modify]
    by_cases hij : i = j
    · simp [hij, Function.comp_def, hf]
    · simp [hij]
  have hremove : ∀ (key : Int32) (m : ConnectionMgr), (m.remove key).created = m.created := by
    intro key m
    obtain h | ⟨it, h⟩ | ⟨it, h⟩ := remove_cases key m
    all_goals rw [h]
  have hkeys : (m.close i).created.map Connection.key = m.created.map Connection.key := by
    unfold ConnectionMgr.close
    split
    · rfl
    · split
      · rfl
      · rw [hremove]
        exact (hmap (fun c => { c with socketIsOpen := false }) (fun _ => rfl) _).trans
          (hmap (fun c => { c with closed := true }) (fun _ => rfl) _)
  simpa [ledger, Function.comp_def] using hkeys

theorem keys_runs {w w' : Worker} (h : Runs timeout w w') : w'.keys = w.keys := by
  cases h with
  | create now =>
    unfold Worker.create
    split
    · next socket key hc => simp [Worker.keys, hc, ledger_createWith]
    · rfl
  | resume i c =>
    obtain ⟨-, hm⟩ | hsame := w.moves_resume timeout i c
    · have hledger : ∀ {w w' : Worker}, Worker.Moves i w w' →
          w'.mgr.ledger.map Prod.fst = w.mgr.ledger.map Prod.fst := by
        intro w w' hm
        induction hm with
        | suspend _ => rfl
        | finish => exact keys_close i _
        | @closeSocket w w' _ ih => exact ih.trans (congrArg _ (ledger_closeSocket i w.mgr))
        | @setEndOfLife w w' key eol _ ih =>
          exact ih.trans (congrArg _ (ledger_setEndOfLife key eol w.mgr))
      have hmap := congrArg (List.map UInt64.toNat) (hledger hm)
      simp only [List.map_map] at hmap
      rw [Worker.keys, (map_fst_moves hm).2.1, Worker.keys]
      exact congrArg (· ++ _) hmap
    · rw [hsame]
  | housekeeping now =>
    rw [Worker.keys, Worker.mgr_removeExpieredConnections,
      (holdings_removeExpieredConnections now w.mgr).2.1, Worker.keys]
    rfl

/-- **The invariant**, as long as fewer than `2 ^ 32` keys were drawn: the keys of a pipeline are the
numbers of its draws, and its connections live. -/
structure Started (d : HttpDaemon n) : Prop where
  nextKey : d.nextKey.toNat = d.drawn.length
  keys : ∀ p, (d.workers p).keys = drawsOf p d.drawn
  lives : ∀ p, (d.workers p).Lives

theorem lives_runs {w w' : Worker} (h : w.Lives) (hr : Runs timeout w w')
    (hsmall : ∀ k ∈ w.keys, k < 2 ^ 32) (hnodup : w.keys.Nodup) : w'.Lives := by
  cases hr with
  | create now =>
    refine h.create now fun socket key hc => ?_
    simp only [Worker.keys, hc, Option.toList_some, List.map_cons, List.map_nil] at hsmall hnodup
    refine ⟨hsmall _ (List.mem_append_right _ List.mem_cons_self), ?_⟩
    rintro p hp rfl
    exact (List.nodup_append.mp hnodup).2.2 _ (List.mem_map_of_mem (f := fun p => p.1.toNat) hp) _
      List.mem_cons_self rfl
  | resume i c => exact h.resume timeout i c
  | housekeeping now => exact h.removeExpieredConnections now

theorem started_acts (h : d.Started) (ha : Acts timeout d d') (hsmall : d'.drawn.length < 2 ^ 32) :
    d'.Started := by
  have hlt : ∀ p, ∀ k ∈ drawsOf p d.drawn, k ≤ d.drawn.length := fun p k hk => by
    obtain ⟨-, hget⟩ := mem_drawsOf.mp hk
    have := (List.getElem?_eq_some_iff.mp hget).1
    omega
  cases ha with
  | quiet hworkers hkey _ hdrawn =>
    refine ⟨by rw [hkey, hdrawn, h.nextKey], fun p => ?_, fun p => ?_⟩
    · rw [hworkers, hdrawn, h.keys]
    · rw [hworkers]
      exact h.lives p
  | runs p w hw hworkers hkey _ hdrawn =>
    rw [hdrawn] at hsmall
    refine ⟨by rw [hkey, hdrawn, h.nextKey], fun q => ?_, fun q => ?_⟩
    · rw [hworkers, hdrawn]
      exact Family.forall_update (P := fun q w => Worker.keys w = drawsOf q d.drawn) h.keys
        ((keys_runs hw).trans (h.keys p)) q
    · rw [hworkers]
      refine Family.forall_update (P := fun _ w => Worker.Lives w) h.lives (lives_runs (h.lives p) hw ?_ ?_) q
      · rw [h.keys]
        exact fun k hk => Nat.lt_of_le_of_lt (hlt p k hk) hsmall
      · rw [h.keys]
        exact nodup_drawsOf p d.drawn
  | accepts p hworkers hkey _ hdrawn =>
    refine ⟨by rw [hkey, hdrawn, h.nextKey], fun q => ?_, fun q => ?_⟩
    · rw [hworkers, hdrawn]
      exact Family.forall_update (P := fun q w => Worker.keys w = drawsOf q d.drawn)
        (x := (d.workers p).dispatch d.sockets) h.keys (h.keys p) q
    · rw [hworkers]
      exact Family.forall_update (P := fun _ w => Worker.Lives w)
        (x := (d.workers p).dispatch d.sockets) h.lives ⟨(h.lives p).1, (h.lives p).2⟩ q
  | draws p hd hc hworkers hkey _ hdrawn =>
    rw [hdrawn, List.length_append, List.length_singleton] at hsmall
    have hnext : (d.nextKey + 1).toNat = d.drawn.length + 1 := by
      have hone : (1 : UInt64).toNat = 1 := rfl
      rw [UInt64.toNat_add, h.nextKey, hone, Nat.mod_eq_of_lt (by omega)]
    obtain ⟨socket, dispatched, hd'⟩ := List.exists_cons_of_ne_nil hd
    have hdraw : (d.workers p).draw (d.nextKey + 1) =
        { d.workers p with dispatched, creating := some (socket, d.nextKey + 1) } := by
      unfold Worker.draw
      rw [hd']
    refine ⟨?_, fun q => ?_, fun q => ?_⟩
    · rw [hkey, hdrawn, hnext, List.length_append, List.length_singleton]
    · have hown := h.keys p
      rw [Worker.keys, hc, Option.toList_none, List.map_nil, List.append_nil] at hown
      rw [hworkers, hdrawn, drawsOf_append]
      by_cases hq : q = p
      · subst hq
        rw [Function.update_self, if_pos rfl, ← hown, hdraw, ← hnext]
        rfl
      · rw [Function.update_of_ne hq, if_neg (Ne.symm hq), List.append_nil]
        exact h.keys q
    · rw [hworkers]
      refine Family.forall_update (P := fun _ w => Worker.Lives w) h.lives ?_ q
      rw [hdraw]
      exact ⟨(h.lives p).1, (h.lives p).2⟩

/-! ## Runs -/

theorem started_start (n maxConnections : ℕ) : (start n maxConnections).Started where
  nextKey := rfl
  keys _ := rfl
  lives _ :=
    { keeps :=
        { nodup := List.nodup_nil
          small := List.forall_mem_nil _
          held := fun k i => by simp [holdings, ledger, start]
          sockets := fun i c hc => by simp [start] at hc }
      ended := rfl }

theorem socketsOnce_start (n maxConnections : ℕ) : (start n maxConnections).SocketsOnce := by
  intro socket
  simp [start, Worker.places]

theorem drawsOnce_start (n maxConnections : ℕ) : (start n maxConnections).DrawsOnce := by
  simp [DrawsOnce, start]

theorem once_run (timeout n maxConnections : ℕ) (events : List (DaemonEvent n)) :
    (run (step timeout) (start n maxConnections) events).SocketsOnce ∧
      (run (step timeout) (start n maxConnections) events).DrawsOnce := by
  induction events using List.reverseRecOn with
  | nil => exact ⟨socketsOnce_start n maxConnections, drawsOnce_start n maxConnections⟩
  | append_singleton events e ih =>
    rw [run, List.foldl_append, ← run]
    have ha := acts_step timeout (run (step timeout) (start n maxConnections) events) e
    exact ⟨socketsOnce_acts ih.1 ha, drawsOnce_acts ih.2 ha⟩

theorem sockets_acts (ha : Acts timeout d d') : d.sockets ≤ d'.sockets ∧
    d.drawn.length ≤ d'.drawn.length := by
  cases ha with
  | quiet _ _ hsockets hdrawn => rw [hsockets, hdrawn]; exact ⟨Nat.le_refl _, Nat.le_refl _⟩
  | runs _ _ _ _ _ hsockets hdrawn => rw [hsockets, hdrawn]; exact ⟨Nat.le_refl _, Nat.le_refl _⟩
  | accepts _ _ _ hsockets hdrawn => rw [hsockets, hdrawn]; exact ⟨Nat.le_succ _, Nat.le_refl _⟩
  | draws _ _ _ _ _ hsockets hdrawn =>
    rw [hsockets, hdrawn, List.length_append]
    exact ⟨Nat.le_refl _, Nat.le_add_right ..⟩

theorem started_run (timeout maxConnections : ℕ) (events : List (DaemonEvent n))
    (hsmall : (run (step timeout) (start n maxConnections) events).sockets < 2 ^ 32) :
    (run (step timeout) (start n maxConnections) events).Started := by
  induction events using List.reverseRecOn with
  | nil => exact started_start n maxConnections
  | append_singleton events e ih =>
    have hdraws := (once_run timeout n maxConnections (events ++ [e])).2
    rw [run, List.foldl_append, ← run] at hsmall hdraws ⊢
    have ha := acts_step timeout (run (step timeout) (start n maxConnections) events) e
    refine started_acts (ih (Nat.lt_of_le_of_lt (sockets_acts ha).1 hsmall)) ha ?_
    exact Nat.lt_of_le_of_lt (Nat.le.intro hdraws) hsmall

/-- **The connections are served.** Each has one coroutine. While it runs, one entry of the manager of its
own pipeline holds the connection; when it has ended the socket is closed and the connection is gone,
unless its key does not fit. No two connections have the same key. -/
structure Served (d : HttpDaemon n) : Prop where
  length : ∀ p, (d.workers p).mgr.created.length = (d.workers p).coroutines.length
  running : ∀ p i c co, (d.workers p).mgr.created[i]? = some c → (d.workers p).coroutines[i]? = some co →
    co.2 ≠ .ended → c.closed = false ∧
      holders i (d.workers p).mgr.connections + holders i (d.workers p).mgr.deadConnections = 1
  ended : ∀ p i c co, (d.workers p).mgr.created[i]? = some c → (d.workers p).coroutines[i]? = some co →
    co.2 = .ended → c.closed = true ∧ c.socketIsOpen = false ∧
      holders i (d.workers p).mgr.connections + holders i (d.workers p).mgr.deadConnections =
        if c.key.toNat < 2 ^ 31 then 0 else 1
  keys : ∀ p q (i j : ℕ) (c c' : Connection), (d.workers p).mgr.created[i]? = some c →
    (d.workers q).mgr.created[j]? = some c' → c.key = c'.key → p = q ∧ i = j

/-- **The invariant serves the connections.** -/
theorem Started.served (h : d.Started) : d.Served where
  length p := (h.lives p).length
  running p i c co hc hco hrun := by
    have hopen : c.closed = false := by
      rw [← Bool.not_eq_true, (h.lives p).closed_iff hc hco]
      exact hrun
    rw [(h.lives p).keeps.holders_eq hc, if_pos (.inl hopen)]
    exact ⟨hopen, rfl⟩
  ended p i c co hc hco hended := by
    have hclosed : c.closed = true := ((h.lives p).closed_iff hc hco).mpr hended
    have hsmall := (h.lives p).keeps.small (c.key, c.closed)
      (List.mem_map_of_mem (f := fun c => (c.key, c.closed)) (List.mem_of_getElem? hc))
    refine ⟨hclosed, ?_, ?_⟩
    · by_contra hopen
      have := ((h.lives p).keeps.sockets i c hc (by simpa using hopen)).1
      rw [hclosed] at this
      cases this
    · have hfits : Fits c.key ↔ c.key.toNat < 2 ^ 31 := by
        rw [fits_iff]
        simp only at hsmall
        omega
      rw [(h.lives p).keeps.holders_eq hc, hclosed]
      simp only [Bool.true_eq_false, false_or, hfits]
      split_ifs
      all_goals rfl
  keys p q i j c c' hc hc' hkey := by
    have hget : ∀ (p : Fin n) (i : ℕ) (c : Connection), (d.workers p).mgr.created[i]? = some c →
        (drawsOf p d.drawn)[i]? = some c.key.toNat := by
      intro p i c hc
      have hledger : ((d.workers p).mgr.ledger.map fun p => p.1.toNat)[i]? = some c.key.toNat := by
        simp [ledger, hc]
      rw [← h.keys p, Worker.keys, List.getElem?_append_left (List.getElem?_eq_some_iff.mp hledger).1]
      exact hledger
    have hp := hget p i c hc
    have hq := hget q j c' hc'
    have hdraw := (mem_drawsOf.mp (List.mem_of_getElem? hp)).2
    rw [hkey, (mem_drawsOf.mp (List.mem_of_getElem? hq)).2] at hdraw
    obtain rfl : q = p := Option.some.inj hdraw
    refine ⟨rfl, ?_⟩
    rw [hkey, ← hq] at hp
    exact (List.getElem?_inj (List.getElem?_eq_some_iff.mp (hp.trans hq)).1 (nodup_drawsOf q _)).mp hp

/-- **No coroutine outlives its connection.** In every run of any number of pipelines that accepts fewer
than `2 ^ 32` connections, whatever the order of the steps, the connections are served. -/
theorem connections_served (timeout maxConnections : ℕ) (events : List (DaemonEvent n))
    (hsmall : (run (step timeout) (start n maxConnections) events).sockets < 2 ^ 32) :
    (run (step timeout) (start n maxConnections) events).Served :=
  (started_run timeout maxConnections events hsmall).served

/-- Two pipelines draw their keys before either creates its connection, and the one that is read from
after it was killed is gone. -/
theorem connections_served_two : (run (step 3) (start 2 1)
    [.accept 0 0, .accept 0 1, .getNextKey 1, .getNextKey 0, .createConnection 0 10, .resume 0 0 ⟨false, 0,
      .incomplete⟩, .createConnection 1 10, .accept 1 0, .getNextKey 0, .createConnection 0 11,
      .resume 0 0 ⟨true, 0, .incomplete⟩]).Served :=
  connections_served 3 1 _ (by decide +kernel)

/-- **Every socket is somewhere.** In every run each socket that was accepted is dispatched to one
pipeline, or in the hands of its `CreateConnection`, or that of one of its connections. -/
theorem sockets_served (timeout maxConnections : ℕ) (events : List (DaemonEvent n)) :
    (run (step timeout) (start n maxConnections) events).SocketsOnce :=
  (once_run timeout n maxConnections events).1

theorem limitInv_run {max : ℕ} (hmax : 0 < max) (timeout : ℕ) (events : List (DaemonEvent n)) :
    ∀ p, LimitInv max ((run (step timeout) (start n max) events).workers p).mgr := by
  induction events using List.reverseRecOn with
  | nil => exact fun _ => ⟨rfl, ⟨Nat.zero_le _, List.Pairwise.nil⟩, List.forall_mem_nil _⟩
  | append_singleton events e ih =>
    rw [run, List.foldl_append, ← run]
    show ∀ p, LimitInv max ((step timeout (run (step timeout) (start n max) events) e).workers p).mgr
    cases acts_step timeout (run (step timeout) (start n max) events) e with
    | quiet hworkers _ _ _ => rwa [hworkers]
    | runs p w hw hworkers _ _ _ =>
      rw [hworkers]
      refine Family.forall_update (P := fun _ w => LimitInv max (Worker.mgr w)) ih ?_
      cases hw with
      | create now => exact Worker.limitInv_create hmax (ih p) now
      | resume i c => exact Worker.limitInv_resume hmax (ih p) timeout i c
      | housekeeping now => exact Worker.limitInv_removeExpieredConnections hmax (ih p) now
    | accepts p hworkers _ _ _ =>
      rw [hworkers]
      exact Family.forall_update (P := fun _ w => LimitInv max (Worker.mgr w)) ih (ih p)
    | draws p _ _ hworkers _ _ _ =>
      have hdraw : ∀ (key : ConnKey) (w : Worker), (w.draw key).mgr = w.mgr := by
        intro key w
        unfold Worker.draw
        split
        · rfl
        · rfl
      rw [hworkers]
      refine Family.forall_update (P := fun _ w => LimitInv max (Worker.mgr w)) ih ?_
      rw [hdraw]
      exact ih p

/-- **The limit of the open sockets.** In every run that accepts fewer than `2 ^ 32` connections, no
pipeline has more than `max_connections` connections with an open socket. -/
theorem sockets_limited {max : ℕ} (hmax : 0 < max) (timeout : ℕ) (events : List (DaemonEvent n))
    (hsmall : (run (step timeout) (start n max) events).sockets < 2 ^ 32) (p : Fin n) :
    ((run (step timeout) (start n max) events).workers p).mgr.created.countP
      Connection.socketIsOpen ≤ max :=
  Nat.le_trans ((started_run timeout max events hsmall).lives p).countP_socketIsOpen_le
    (limitInv_run hmax timeout events p).limited.length_le

/-- The second connection of a pipeline closes the socket of the first one. -/
theorem sockets_limited_one : ((run (step 3) (start 1 1)
    [.accept 0 0, .accept 0 0, .getNextKey 0, .createConnection 0 10, .getNextKey 0,
      .createConnection 0 11]).workers 0).mgr.created.countP Connection.socketIsOpen ≤ 1 :=
  sockets_limited Nat.one_pos 3 _ (by decide +kernel) 0

end HttpDaemon

end VUbercool.Http
