import Mathlib.Algebra.BigOperators.Fin
import Mathlib.Algebra.BigOperators.Group.List.Basic
import Mathlib.Data.UInt
import Mathlib.Tactic.Abel
import VUbercool.Lib.Run

/-!
# Statistics

`Statistics` and `RequestStats` (`Statistics.h`), `AddStat` (`StatisticsManager.cpp`) and the two
`UpdateStats` (`HttpDaemon.cpp`, `DnsDaemon.cpp`).

* `Statistics`: `copy`, `add`, `reset`. `get_add`: nine counters are added, one is doubled.
* `Collection`: the totals, the tasks that are on their way to them and the counters of the threads.
  `step`: a counter is incremented, a thread hands over its counters, a task is run.
* **`conserved_iff`**: in every run everything is where it should be exactly if no task that is run
  brings connections that were dropped on timeouts.
* `count`: a thread adds to several counters. `added_count`, `conserved_count`.
-/

namespace VUbercool

/-- `Statistics`. -/
structure Statistics where
  connections : UInt64 := 0
  failedConnections : UInt64 := 0
  okRequests : UInt64 := 0
  failedRequests : UInt64 := 0
  badRequests : UInt64 := 0
  timeoutDroppedConnections : UInt64 := 0
  overflowDroppedConnections : UInt64 := 0
  bytesReceived : UInt64 := 0
  bytesSent : UInt64 := 0
  unknownNames : UInt64 := 0
  deriving DecidableEq

/-- The counters. -/
inductive Counter where
  | connections
  | failedConnections
  | okRequests
  | failedRequests
  | badRequests
  | timeoutDroppedConnections
  | overflowDroppedConnections
  | bytesReceived
  | bytesSent
  | unknownNames
  deriving DecidableEq

namespace Statistics

/-- The copy constructor. -/
def copy (v : Statistics) : Statistics where
  connections := v.connections
  failedConnections := v.failedConnections
  okRequests := v.okRequests
  failedRequests := v.failedRequests
  badRequests := v.badRequests
  timeoutDroppedConnections := v.timeoutDroppedConnections
  overflowDroppedConnections := v.overflowDroppedConnections
  bytesReceived := v.bytesReceived
  bytesSent := v.bytesSent
  unknownNames := v.unknownNames

/-- `operator +=`. One counter is added to itself. -/
def add (s v : Statistics) : Statistics where
  connections := s.connections + v.connections
  failedConnections := s.failedConnections + v.failedConnections
  okRequests := s.okRequests + v.okRequests
  failedRequests := s.failedRequests + v.failedRequests
  badRequests := s.badRequests + v.badRequests
  timeoutDroppedConnections := s.timeoutDroppedConnections + s.timeoutDroppedConnections
  overflowDroppedConnections := s.overflowDroppedConnections + v.overflowDroppedConnections
  bytesReceived := s.bytesReceived + v.bytesReceived
  bytesSent := s.bytesSent + v.bytesSent
  unknownNames := s.unknownNames + v.unknownNames

/-- `Reset`. -/
def reset (s : Statistics) : Statistics :=
  { s with
    connections := 0
    failedConnections := 0
    okRequests := 0
    failedRequests := 0
    badRequests := 0
    timeoutDroppedConnections := 0
    overflowDroppedConnections := 0
    bytesReceived := 0
    bytesSent := 0
    unknownNames := 0 }

/-- What a counter shows. -/
def get (s : Statistics) : Counter → UInt64
  | .connections => s.connections
  | .failedConnections => s.failedConnections
  | .okRequests => s.okRequests
  | .failedRequests => s.failedRequests
  | .badRequests => s.badRequests
  | .timeoutDroppedConnections => s.timeoutDroppedConnections
  | .overflowDroppedConnections => s.overflowDroppedConnections
  | .bytesReceived => s.bytesReceived
  | .bytesSent => s.bytesSent
  | .unknownNames => s.unknownNames

/-- A counter is incremented. -/
def increment (s : Statistics) (amount : UInt64) : Counter → Statistics
  | .connections => { s with connections := s.connections + amount }
  | .failedConnections => { s with failedConnections := s.failedConnections + amount }
  | .okRequests => { s with okRequests := s.okRequests + amount }
  | .failedRequests => { s with failedRequests := s.failedRequests + amount }
  | .badRequests => { s with badRequests := s.badRequests + amount }
  | .timeoutDroppedConnections =>
    { s with timeoutDroppedConnections := s.timeoutDroppedConnections + amount }
  | .overflowDroppedConnections =>
    { s with overflowDroppedConnections := s.overflowDroppedConnections + amount }
  | .bytesReceived => { s with bytesReceived := s.bytesReceived + amount }
  | .bytesSent => { s with bytesSent := s.bytesSent + amount }
  | .unknownNames => { s with unknownNames := s.unknownNames + amount }

theorem copy_eq (v : Statistics) : v.copy = v := rfl

theorem get_reset (s : Statistics) (i : Counter) : s.reset.get i = 0 := by
  cases i <;> rfl

theorem get_zero (i : Counter) : ({} : Statistics).get i = 0 := by
  cases i <;> rfl

/-- **Nine counters are added, and one is doubled.** -/
theorem get_add (s v : Statistics) (i : Counter) :
    (s.add v).get i = s.get i + if i = .timeoutDroppedConnections then s.get i else v.get i := by
  cases i <;> rfl

theorem get_increment (s : Statistics) (amount : UInt64) (i j : Counter) :
    (s.increment amount i).get j = s.get j + if j = i then amount else 0 := by
  cases i <;> cases j <;> simp [increment, get]

end Statistics

/-! ## Collecting -/

/-- `StatType`. -/
inductive StatType where
  | http | dns
  deriving DecidableEq

/-- **What has been counted and where it is**: the totals of the manager, the tasks that are to be run on
its pipeline, the counters of the threads; and, for the record, what was added to every counter. -/
structure Collection (threads : ℕ) where
  stats : StatType → Statistics := fun _ => {}
  pending : List (StatType × Statistics) := []
  counters : Fin threads → StatType → Statistics := fun _ _ => {}
  added : StatType → Counter → ℕ := fun _ _ => 0

/-- What may happen. -/
inductive StatOp (threads : ℕ) where
  | increment (thread : Fin threads) (stype : StatType) (i : Counter) (amount : ℕ)
  | updateStats (thread : Fin threads) (stype : StatType)
  | deliver (task : ℕ)

namespace Collection

variable {threads : ℕ}

/-- A thread adds to a counter of its own. -/
def increment (s : Collection threads) (thread : Fin threads) (stype : StatType) (i : Counter)
    (amount : ℕ) : Collection threads :=
  { s with
    counters := fun t y => if t = thread ∧ y = stype then
      (s.counters t y).increment (UInt64.ofNat amount) i else s.counters t y
    added := fun y j => if y = stype ∧ j = i then s.added y j + amount else s.added y j }

/-- `UpdateStats`: a task with a copy of the counters of the thread, which are reset. -/
def updateStats (s : Collection threads) (thread : Fin threads) (stype : StatType) :
    Collection threads :=
  { s with
    pending := s.pending ++ [(stype, (s.counters thread stype).copy)]
    counters := fun t y => if t = thread ∧ y = stype then (s.counters t y).reset else s.counters t y }

/-- A task of `AddStat` is run. -/
def deliver (s : Collection threads) (task : ℕ) : Collection threads :=
  match s.pending[task]? with
  | some (stype, v) =>
    { s with
      stats := fun y => if y = stype then (s.stats y).add v else s.stats y
      pending := s.pending.eraseIdx task }
  | none => s

/-- One step. -/
def step (s : Collection threads) : StatOp threads → Collection threads
  | .increment thread stype i amount => s.increment thread stype i amount
  | .updateStats thread stype => s.updateStats thread stype
  | .deliver task => s.deliver task

/-! ## Conservation -/

/-- What a task brings to a counter. -/
def brings (stype : StatType) (i : Counter) (task : StatType × Statistics) : UInt64 :=
  if task.1 = stype then task.2.get i else 0

/-- What is in the tasks. -/
def inTasks (s : Collection threads) (stype : StatType) (i : Counter) : UInt64 :=
  (s.pending.map (brings stype i)).sum

/-- What is in the threads. -/
def inThreads (s : Collection threads) (stype : StatType) (i : Counter) : UInt64 :=
  ∑ t, (s.counters t stype).get i

/-- **A counter is conserved**: the total, what is in the tasks and what is in the threads make up what
was added. -/
def ConservedAt (s : Collection threads) (stype : StatType) (i : Counter) : Prop :=
  (s.stats stype).get i + s.inTasks stype i + s.inThreads stype i = UInt64.ofNat (s.added stype i)

instance (s : Collection threads) (stype : StatType) (i : Counter) : Decidable (s.ConservedAt stype i) :=
  inferInstanceAs (Decidable (_ = _))

/-- **All counters are conserved.** -/
def Conserved (s : Collection threads) : Prop := ∀ stype i, s.ConservedAt stype i

theorem conserved_start : ({} : Collection threads).Conserved := by
  intro stype i
  simp [ConservedAt, inTasks, inThreads, Statistics.get_zero]

theorem sum_ite_add (f : Fin threads → UInt64) (thread : Fin threads) (a : UInt64) :
    ∑ t, (f t + if t = thread then a else 0) = ∑ t, f t + a := by
  rw [Finset.sum_add_distrib, Finset.sum_ite_eq' Finset.univ thread fun _ => a,
    if_pos (Finset.mem_univ thread)]

theorem inThreads_increment (s : Collection threads) (thread : Fin threads) (stype : StatType)
    (i : Counter) (amount : ℕ) (stype' : StatType) (j : Counter) :
    (s.increment thread stype i amount).inThreads stype' j = s.inThreads stype' j +
      if stype' = stype ∧ j = i then UInt64.ofNat amount else 0 := by
  rw [inThreads, inThreads, ← sum_ite_add _ thread]
  refine Finset.sum_congr rfl fun t _ => ?_
  simp only [increment]
  by_cases ht : t = thread ∧ stype' = stype
  · rw [if_pos ht, Statistics.get_increment]
    simp [ht.1, ht.2]
  · rw [if_neg ht]
    by_cases h : t = thread
    · have hne : stype' ≠ stype := fun h' => ht ⟨h, h'⟩
      simp [hne]
    · simp [h]

theorem conserved_increment {s : Collection threads} {stype' : StatType} {j : Counter}
    (h : s.ConservedAt stype' j) (thread : Fin threads) (stype : StatType) (i : Counter) (amount : ℕ) :
    (s.increment thread stype i amount).ConservedAt stype' j := by
  have hadded : (s.increment thread stype i amount).added stype' j = s.added stype' j +
      if stype' = stype ∧ j = i then amount else 0 := by
    simp only [increment]
    split_ifs
    · rfl
    · rfl
  rw [ConservedAt, inThreads_increment, hadded, UInt64.ofNat_add, ← h, ← add_assoc]
  split_ifs
  · rfl
  · rfl

theorem inThreads_updateStats (s : Collection threads) (thread : Fin threads) (stype stype' : StatType)
    (j : Counter) : s.inThreads stype' j = (s.updateStats thread stype).inThreads stype' j +
      brings stype' j (stype, s.counters thread stype) := by
  rw [inThreads, inThreads, ← sum_ite_add _ thread]
  refine Finset.sum_congr rfl fun t _ => ?_
  simp only [updateStats, brings]
  by_cases ht : t = thread
  · by_cases hy : stype' = stype
    · rw [if_pos ⟨ht, hy⟩, Statistics.get_reset, if_pos ht, if_pos hy.symm, ht, hy, zero_add]
    · rw [if_neg (fun h => hy h.2), if_pos ht, if_neg (Ne.symm hy), add_zero]
  · rw [if_neg (fun h => ht h.1), if_neg ht, add_zero]

theorem conserved_updateStats {s : Collection threads} {stype' : StatType} {j : Counter}
    (h : s.ConservedAt stype' j) (thread : Fin threads) (stype : StatType) :
    (s.updateStats thread stype).ConservedAt stype' j := by
  have htasks : (s.updateStats thread stype).inTasks stype' j =
      s.inTasks stype' j + brings stype' j (stype, s.counters thread stype) := by
    simp [inTasks, updateStats, Statistics.copy_eq]
  rw [ConservedAt, inThreads_updateStats s thread stype] at h
  have hadded : (s.updateStats thread stype).added = s.added := rfl
  have hstats : (s.updateStats thread stype).stats = s.stats := rfl
  rw [ConservedAt, htasks, hadded, hstats, ← h]
  abel

theorem inTasks_deliver {s : Collection threads} {task : ℕ} {p : StatType × Statistics}
    (hp : s.pending[task]? = some p) (stype : StatType) (i : Counter) :
    s.inTasks stype i = brings stype i p + (s.deliver task).inTasks stype i := by
  obtain ⟨hlt, rfl⟩ := List.getElem?_eq_some_iff.mp hp
  have hperm := (List.getElem_cons_eraseIdx_perm hlt).map (brings stype i)
  rw [inTasks, ← hperm.sum_eq, List.map_cons, List.sum_cons, inTasks, deliver, hp]

theorem get_deliver {s : Collection threads} {task : ℕ} {stype : StatType} {v : Statistics}
    (hp : s.pending[task]? = some (stype, v)) (stype' : StatType) (i : Counter) :
    ((s.deliver task).stats stype').get i = (s.stats stype').get i +
      if stype = stype' then
        if i = .timeoutDroppedConnections then (s.stats stype').get i else v.get i
      else 0 := by
  rw [deliver, hp]
  simp only
  by_cases h : stype' = stype
  · rw [if_pos h, if_pos h.symm, Statistics.get_add]
  · rw [if_neg h, if_neg (Ne.symm h), add_zero]

/-- **A task that is run leaves nine counters conserved**, and the other one if it brings as many
connections that were dropped on timeouts as there are. -/
theorem conserved_deliver_iff {s : Collection threads} {task : ℕ} {stype : StatType} {v : Statistics}
    (hp : s.pending[task]? = some (stype, v)) {stype' : StatType} {i : Counter}
    (h : s.ConservedAt stype' i) : (s.deliver task).ConservedAt stype' i ↔
      (stype = stype' → i = .timeoutDroppedConnections →
        v.timeoutDroppedConnections = (s.stats stype').timeoutDroppedConnections) := by
  have hthreads : (s.deliver task).inThreads stype' i = s.inThreads stype' i := by rw [deliver, hp]; rfl
  have hadded : (s.deliver task).added = s.added := by rw [deliver, hp]
  rw [ConservedAt, inTasks_deliver hp] at h
  rw [ConservedAt, get_deliver hp, hthreads, hadded, ← h, brings]
  by_cases hy : stype = stype'
  · by_cases hi : i = .timeoutDroppedConnections
    · subst hy hi
      simp [Statistics.get, add_assoc, eq_comm]
    · simp [hy, hi, add_assoc]
  · simp [hy]

theorem added_deliver (s : Collection threads) (task : ℕ) : (s.deliver task).added = s.added := by
  rw [deliver]
  split <;> rfl

theorem conserved_deliver {s : Collection threads} {stype : StatType} {i : Counter}
    (h : s.ConservedAt stype i) (hi : i ≠ .timeoutDroppedConnections) (task : ℕ) :
    (s.deliver task).ConservedAt stype i := by
  rcases hp : s.pending[task]? with _ | ⟨stype', v⟩
  · rwa [show s.deliver task = s by rw [deliver, hp]]
  · exact (conserved_deliver_iff hp h).mpr fun _ h' => absurd h' hi

/-! ## Runs -/

/-- The total of the connections that were dropped on timeouts starts at 0, and is only ever doubled. -/
def Undropped (s : Collection threads) : Prop := ∀ stype, (s.stats stype).timeoutDroppedConnections = 0

theorem undropped_step {s : Collection threads} (h : s.Undropped) (op : StatOp threads) :
    (s.step op).Undropped := by
  cases op with
  | increment thread stype i amount => exact h
  | updateStats thread stype => exact h
  | deliver task =>
    intro stype'
    rw [step, deliver]
    rcases s.pending[task]? with _ | ⟨stype, v⟩
    · exact h stype'
    · by_cases hy : stype' = stype
      · simp [hy, Statistics.add, h stype]
      · simp [hy, h stype']

/-- **No connections that were dropped on timeouts** are in a task that is run. -/
def BringsNone (s : Collection threads) (op : StatOp threads) : Prop :=
  ∀ task stype v, op = .deliver task → s.pending[task]? = some (stype, v) →
    v.timeoutDroppedConnections = 0

/-- **A step leaves every counter conserved exactly if it brings no such connections.** -/
theorem conserved_step_iff {s : Collection threads} (h : s.Conserved) (hnone : s.Undropped)
    (op : StatOp threads) : (s.step op).Conserved ↔ s.BringsNone op := by
  cases op with
  | increment thread stype i amount =>
    exact iff_of_true (fun y j => conserved_increment (h y j) thread stype i amount) (fun _ _ _ => nofun)
  | updateStats thread stype =>
    exact iff_of_true (fun y j => conserved_updateStats (h y j) thread stype) (fun _ _ _ => nofun)
  | deliver task =>
    rcases hp : s.pending[task]? with _ | ⟨stype, v⟩
    · refine iff_of_true (fun y j => ?_) fun task' stype v heq hp' => ?_
      · rw [step, deliver, hp]
        exact h y j
      · cases heq
        rw [hp] at hp'
        cases hp'
    · constructor
      · intro hc task' stype' v' heq hp'
        cases heq
        rw [hp] at hp'
        cases hp'
        rw [(conserved_deliver_iff hp (h stype .timeoutDroppedConnections)).mp (hc _ _) rfl rfl]
        exact hnone stype
      · intro hbrings y j
        refine (conserved_deliver_iff hp (h y j)).mpr fun _ _ => ?_
        rw [hbrings task stype v rfl hp, hnone y]

/-- **In every run everything that was added is accounted for exactly if no task that is run brings
connections that were dropped on timeouts.** -/
theorem conserved_iff (threads : ℕ) (ops : List (StatOp threads)) :
    Run.Along step (fun s op => (s.step op).Conserved) {} ops ↔ Run.Along step BringsNone {} ops := by
  have hstart : ({} : Collection threads).Conserved ∧ ({} : Collection threads).Undropped :=
    ⟨conserved_start, fun _ => rfl⟩
  refine @Run.Along.congr _ _ step (fun s => s.Conserved ∧ s.Undropped) (fun _ _ => True) _ _ ?_ ?_ _ _
    hstart (Run.Along.always _ _)
  · exact fun s op hs _ hq => ⟨(conserved_step_iff hs.1 hs.2 op).mpr hq, undropped_step hs.2 op⟩
  · exact fun s op hs _ => conserved_step_iff hs.1 hs.2 op

/-- **A connection that is dropped on a timeout gets lost** on the way to the total. -/
theorem not_conserved : ¬ Run.Along step (fun s op => (s.step op).Conserved) ({} : Collection 1)
    [.increment 0 .http .timeoutDroppedConnections 1, .updateStats 0 .http, .deliver 0] := by
  rintro ⟨-, -, h, -⟩
  exact absurd (h .http .timeoutDroppedConnections) (by decide +kernel)

end Collection

/-! ## Several counters -/

/-- What is added to a counter. -/
def amount (k : Counter) (counted : List (Counter × ℕ)) : ℕ :=
  ((counted.filter fun c => c.1 = k).map Prod.snd).sum

theorem amount_cons (k : Counter) (c : Counter × ℕ) (counted : List (Counter × ℕ)) :
    amount k (c :: counted) = (if c.1 = k then c.2 else 0) + amount k counted := by
  unfold amount
  by_cases h : c.1 = k
  · simp [h]
  · simp [h]

theorem amount_eq_zero {k : Counter} {counted : List (Counter × ℕ)} (h : ∀ c ∈ counted, c.1 ≠ k) :
    amount k counted = 0 := by
  rw [amount, List.filter_eq_nil_iff.mpr fun c hc => by simpa using h c hc]
  rfl

namespace Collection

variable {threads : ℕ}

/-- A thread adds to counters of its own. -/
def count (s : Collection threads) (thread : Fin threads) (stype : StatType)
    (counted : List (Counter × ℕ)) : Collection threads :=
  counted.foldl (fun s c => s.increment thread stype c.1 c.2) s

theorem added_count (thread : Fin threads) (stype : StatType) (k : Counter) :
    ∀ (counted : List (Counter × ℕ)) (s : Collection threads),
      (s.count thread stype counted).added stype k = s.added stype k + amount k counted
  | [], _ => rfl
  | c :: counted, s => by
    have hone : (s.increment thread stype c.1 c.2).added stype k =
        s.added stype k + if c.1 = k then c.2 else 0 := by
      simp only [increment, true_and]
      by_cases hk : c.1 = k
      · rw [if_pos hk.symm, if_pos hk]
      · rw [if_neg (Ne.symm hk), if_neg hk, Nat.add_zero]
    refine (added_count thread stype k counted (s.increment thread stype c.1 c.2)).trans ?_
    rw [amount_cons, hone, Nat.add_assoc]

theorem conserved_count (thread : Fin threads) (stype : StatType) {stype' : StatType} {k : Counter} :
    ∀ (counted : List (Counter × ℕ)) {s : Collection threads}, s.ConservedAt stype' k →
      (s.count thread stype counted).ConservedAt stype' k
  | [], _, h => h
  | c :: counted, _, h =>
    conserved_count thread stype counted (conserved_increment h thread stype c.1 c.2)

end Collection

end VUbercool
