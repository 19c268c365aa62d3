import VUbercool.Http.HttpDaemon

/-!
# What the daemon counts

`RequestStats` (`Statistics.h`) in `ProcessRequests`, the counters of the acceptors and `UpdateStats`
(`HttpDaemon.cpp`), with the coroutines of all pipelines in any order.

* `Accounted`: every request that was taken from a buffer is in flight or was counted once.
* **`requests_counted`**: so it is in every run.
-/

namespace VUbercool.Http

open Run ConnectionMgr

namespace HttpDaemon

variable {n : ℕ} {d d' : HttpDaemon n} {timeout : ℕ}

/-- **The daemon has counted its requests**: those that were taken from buffers are in flight or counted, the
sockets that were accepted are counted, and what was counted is in the total, in a task or in a thread. -/
structure Accounted (d : HttpDaemon n) : Prop where
  requests : ∀ k, OfRequests k → d.stats.added .http k + ∑ p, (d.workers p).inFlight k =
    d.looked.countP fun looked => looked.counter = some k
  connections : d.stats.added .http .connections = d.sockets
  conserved : ∀ k, k ≠ .timeoutDroppedConnections → d.stats.ConservedAt .http k

theorem counters_resume (timeout i : ℕ) (c : Completion) (w : Worker) :
    ∀ x ∈ (w.resume timeout i c).2, x.1 = .bytesReceived ∨ x.1 = .bytesSent ∨ OfRequests x.1 := by
  have hreply : ∀ reply : Reply, OfRequests reply.counter := by
    intro reply
    unfold Reply.counter
    split
    · exact .inl rfl
    · exact .inr (.inl rfl)
  have hlook : ∀ looked, ∀ x ∈ (w.look timeout i looked).2, OfRequests x.1 := by
    intro looked x hx
    cases looked with
    | raised =>
      rw [List.mem_singleton.mp hx]
      exact .inr (.inl rfl)
    | incomplete => cases hx
    | bad => cases hx
    | replies reply => cases hx
  have hread : ∀ x ∈ (w.read timeout i c).2, x.1 = .bytesReceived ∨ OfRequests x.1 := by
    intro x hx
    unfold Worker.read at hx
    split at hx
    · cases hx
    · obtain rfl | hx := List.mem_cons.mp hx
      · exact .inl rfl
      · exact .inr (hlook c.looked x hx)
  have hwritten : ∀ reply, ∀ x ∈ (w.written timeout i reply c).2, x.1 = .bytesSent ∨ OfRequests x.1 := by
    intro reply x hx
    have htwo : ∀ x ∈ [(Counter.bytesSent, reply.bytes), (reply.counter, 1)],
        x.1 = .bytesSent ∨ OfRequests x.1 := by
      intro x hx
      obtain rfl | hx := List.mem_cons.mp hx
      · exact .inl rfl
      · rw [List.mem_singleton.mp hx]
        exact .inr (hreply reply)
    unfold Worker.written at hx
    split_ifs at hx
    · rw [List.mem_singleton.mp hx]
      exact .inr (hreply reply)
    · exact htwo x hx
    · exact htwo x hx
    · obtain hx | hx := List.mem_append.mp hx
      · exact htwo x hx
      · exact .inr (hlook c.looked x hx)
    · exact htwo x hx
  intro x hx
  unfold Worker.resume at hx
  split at hx
  · cases hx
  · exact (hread x hx).elim .inl fun h => .inr (.inr h)
  · exact .inr (hwritten _ x hx)
  · rw [List.mem_singleton.mp hx]
    exact .inr (.inr (.inr (.inr rfl)))
  · cases hx

theorem inFlight_create (k : Counter) (now : Int) (w : Worker) :
    (w.create now).inFlight k = w.inFlight k := by
  unfold Worker.create
  split
  · simp [Worker.inFlight, Coroutine.counter]
  · rfl

theorem inFlight_draw (k : Counter) (key : ConnKey) (w : Worker) :
    (w.draw key).inFlight k = w.inFlight k := by
  unfold Worker.draw
  split
  · rfl
  · rfl

theorem Accounted.of_same (h : d.Accounted) (p : Fin n) (w : Worker) (counted : List (Counter × ℕ))
    (hw : ∀ k, w.inFlight k = (d.workers p).inFlight k)
    (hc : ∀ c ∈ counted, ¬ OfRequests c.1 ∧ c.1 ≠ .connections) :
    ((d.update p w).count p counted).Accounted where
  requests k hk := by
    have hsum := Family.sum_update_of_eq (f := fun w : Worker => w.inFlight k) (hw k)
    rw [count, Collection.added_count, amount_eq_zero fun c hcm heq => (hc c hcm).1 (heq ▸ hk)]
    exact (congrArg (_ + ·) hsum).trans (h.requests k hk)
  connections := by
    rw [count, Collection.added_count, amount_eq_zero fun c hcm => (hc c hcm).2]
    exact h.connections
  conserved k hk := Collection.conserved_count p .http counted (h.conserved k hk)

theorem Accounted.of_stats (h : d.Accounted) {stats : Collection n} (hadded : stats.added = d.stats.added)
    (hc : ∀ k, k ≠ .timeoutDroppedConnections → stats.ConservedAt .http k) :
    Accounted { d with stats } where
  requests k hk := by
    rw [hadded]
    exact h.requests k hk
  connections := by
    rw [hadded]
    exact h.connections
  conserved := hc

/-- **A coroutine that runs on** keeps the account. -/
theorem Accounted.resume (h : d.Accounted) (timeout : ℕ) (p : Fin n) (i : ℕ) (c : Completion) :
    (d.resume timeout p i c).Accounted := by
  have hcounters := counters_resume timeout i c (d.workers p)
  constructor
  · intro k hk
    have hsum := Family.sum_update_add (fun w : Worker => w.inFlight k) d.workers p
      ((d.workers p).resume timeout i c).1
    have hone := Worker.inFlight_resume hk timeout i c (d.workers p)
    have hall := h.requests k hk
    rw [HttpDaemon.resume, count, Collection.added_count]
    show d.stats.added .http k + amount k ((d.workers p).resume timeout i c).2 +
        ∑ q, (Function.update d.workers p ((d.workers p).resume timeout i c).1 q).inFlight k =
      (d.looked ++ (d.workers p).takes i c).countP fun looked => looked.counter = some k
    rw [List.countP_append]
    omega
  · rw [HttpDaemon.resume, count, Collection.added_count, amount_eq_zero]
    · exact h.connections
    · intro x hx heq
      have := hcounters x hx
      rw [heq] at this
      simp [OfRequests] at this
  · exact fun k hk => Collection.conserved_count p .http _ (h.conserved k hk)

/-- **One step** keeps the account. -/
theorem accounted_step (h : d.Accounted) (e : DaemonEvent n) : (d.step timeout e).Accounted := by
  cases e with
  | accept acceptor target =>
    rw [step]
    split
    · constructor
      · intro k hk
        have hne : Counter.connections ≠ k := by
          rintro rfl
          simp [OfRequests] at hk
        have hsum := Family.sum_update_of_eq (f := fun w : Worker => w.inFlight k)
          (s := d.workers) (p := target) (x := (d.workers target).dispatch d.sockets) rfl
        rw [accept, count, Collection.added_count, amount_eq_zero fun c hc => by
          rw [List.mem_singleton.mp hc]
          exact hne]
        exact (congrArg (_ + ·) hsum).trans (h.requests k hk)
      · rw [accept, count, Collection.added_count]
        exact congrArg (· + 1) h.connections
      · exact fun k hk => Collection.conserved_count acceptor .http _ (h.conserved k hk)
    · exact h
  | acceptError acceptor =>
    rw [step]
    split
    · have hsame := h.of_same acceptor (d.workers acceptor) [(.failedConnections, 1)]
        (fun _ => rfl) fun c hc => by
          rw [List.mem_singleton.mp hc]
          simp [OfRequests]
      rwa [update, Function.update_eq_self] at hsame
    · exact h
  | getNextKey p =>
    rw [step]
    split
    · unfold HttpDaemon.getNextKey
      split
      · exact h
      · have hsame := h.of_same p ((d.workers p).draw (d.nextKey + 1)) []
          (fun k => inFlight_draw k _ _) (List.forall_mem_nil _)
        exact ⟨hsame.1, hsame.2, hsame.3⟩
    · exact h
  | createConnection p now =>
    exact h.of_same _ _ [] (fun k => inFlight_create k now _) (List.forall_mem_nil _)
  | resume p i c =>
    rw [step]
    split
    · exact h.resume timeout p i c
    · exact h
  | housekeeping p now =>
    rw [step]
    split
    · have hsame := h.of_same p ((d.workers p).removeExpieredConnections now).1
        ((d.workers p).removeExpieredConnections now).2 (fun _ => rfl) fun c hc => by
          obtain rfl | hc := List.mem_cons.mp hc
          · simp [OfRequests]
          · rw [List.mem_singleton.mp hc]
            simp [OfRequests]
      exact hsame.of_stats rfl fun k hk => Collection.conserved_updateStats (hsame.conserved k hk) p .http
    · exact h
  | deliver task =>
    rw [step]
    exact h.of_stats (Collection.added_deliver _ _) fun k hk =>
      Collection.conserved_deliver (h.conserved k hk) hk task

theorem accounted_start (n maxConnections : ℕ) : (start n maxConnections).Accounted := by
  refine ⟨fun k hk => ?_, rfl, fun k _ => Collection.conserved_start .http k⟩
  simp [start, Worker.inFlight]

/-- **Every request is in flight or counted once.** In every run of any number of pipelines, whatever the
order of the steps, the daemon has counted its requests. -/
theorem requests_counted (timeout maxConnections : ℕ) (events : List (DaemonEvent n)) :
    (run (step timeout) (start n maxConnections) events).Accounted := by
  induction events using List.reverseRecOn with
  | nil => exact accounted_start n maxConnections
  | append_singleton events e ih =>
    rw [run, List.foldl_append, ← run]
    exact accounted_step ih e

end HttpDaemon

end VUbercool.Http
