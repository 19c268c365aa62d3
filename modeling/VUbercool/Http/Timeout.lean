import VUbercool.Http.ConnectionLimit

/-!
# The timeout of a connection

Where the expiry of an entry is written, `ConnectionEntry`, `SetEndOfLife` and `ProcessRequests`, and
where it is compared, `RemoveExpieredConnections` (`HttpDaemon.cpp`).

* `Timed`, `timed`: `ConnectionMgr` beside the times at which connections were created and answered.
* `mem_killed`: the housekeeping kills the entries whose time has passed, when all keys fit.
* `TimedInv`: the expiry of an entry is what the times of its connection say.
* **`timeout_respected`**: no connection is killed before its timeout if the keys fit and no
  housekeeping comes between the expiry and the timeout, and only then.
* `respected_iff_waitsOut`: where the clock does not go back and no request is refused, only the
  housekeeping between 3 seconds and the timeout after a creation comes too early.
-/

namespace VUbercool.Http

open Run ConnectionMgr

/-- The times of a connection: of its creation, of the last reply that set the end of its life and of
the last reply. -/
structure Activity where
  created : Int
  answered : Option Int := none
  replied : Option Int := none
  deriving DecidableEq

namespace Activity

/-- The later one of the creation and the last reply. -/
def last (a : Activity) : Int := max a.created (a.replied.getD a.created)

/-- **The expiry**: 3 seconds for the first request and the timeout for the next ones. -/
def due (timeout : ℕ) (a : Activity) : Int :=
  match a.answered with
  | none => a.created + 3
  | some t => t + timeout

end Activity

/-- `ConnectionMgr` and the times of the connections it created. -/
structure Timed where
  mgr : ConnectionMgr
  activities : List Activity := []
  deriving DecidableEq

/-- The events. A connection is answered in the usual way, or its request is refused: `reply` and
`refuse`, at the time of `Prepare`. -/
inductive Event
  | createConnection (now : Int)
  | otherKey
  | reply (connection : ℕ) (now : Int)
  | refuse (connection : ℕ) (now : Int)
  | close (connection : ℕ)
  | removeExpieredConnections (now : Int)
  deriving DecidableEq

/-- The time of an event. -/
def Event.time : Event → Option Int
  | .createConnection now | .reply _ now | .refuse _ now | .removeExpieredConnections now => some now
  | .otherKey | .close _ => none

namespace Timed

/-- `reply` in `ProcessRequests`: the end of life is set if there is a timeout. -/
def reply (timeout : ℕ) (connection : ℕ) (now : Int) (s : Timed) : Timed :=
  match s.mgr.created[connection]? with
  | none => s
  | some c =>
    if c.closed then s
    else
      { mgr := if timeout ≠ 0 then s.mgr.setEndOfLife c.key (now + timeout) else s.mgr
        activities := s.activities.modify connection fun a =>
          { a with answered := some now, replied := some now } }

/-- A reply to what is no request: no end of life is set. -/
def refuse (connection : ℕ) (now : Int) (s : Timed) : Timed :=
  { s with activities := s.activities.modify connection fun a => { a with replied := some now } }

end Timed

/-- One event, with the `connection_timeout` of the configuration. -/
def timed (timeout : ℕ) (s : Timed) : Event → Timed
  | .createConnection now =>
    { mgr := s.mgr.createConnection now, activities := s.activities ++ [{ created := now }] }
  | .otherKey => { s with mgr := s.mgr.getNextKey }
  | .reply connection now => s.reply timeout connection now
  | .refuse connection now => s.refuse connection now
  | .close connection => { s with mgr := s.mgr.close connection }
  | .removeExpieredConnections now => { s with mgr := s.mgr.removeExpieredConnections now }

/-! ## What is asked for -/

/-- **The timeout is respected**: the housekeeping kills no connection whose last activity is not a
timeout ago. -/
def Respected (timeout : ℕ) (s : Timed) : Event → Prop
  | .removeExpieredConnections now =>
    ∀ ce ∈ killed s.mgr (s.mgr.removeExpieredConnections now),
      ∀ a, s.activities[ce.connection]? = some a → a.last + timeout ≤ now
  | _ => True

/-- A new connection has a key that fits and is not that of an open connection. -/
def Keyed (s : Timed) : Event → Prop
  | .createConnection _ => Fits (s.mgr.nextKey + 1) ∧
      ∀ c ∈ s.mgr.created, c.closed = false → c.key ≠ s.mgr.nextKey + 1
  | _ => True

/-- **No housekeeping comes too early**: it finds no connection after its expiry and before its
timeout. -/
def OnTime (timeout : ℕ) (s : Timed) : Event → Prop
  | .removeExpieredConnections now =>
    ∀ ce ∈ s.mgr.connections, ∀ a, s.activities[ce.connection]? = some a →
      a.due timeout ≠ 0 → a.due timeout < now → a.last + timeout ≤ now
  | _ => True

/-! ## What the housekeeping kills -/

namespace ConnectionMgr

variable {m : ConnectionMgr}

theorem removeOne_spec {key : ConnKey} (hn : (m.connections.map ConnectionEntry.key).Nodup)
    (hfits : Fits key) :
    (m.removeOne key).connections = m.connections.filter (fun ce => ce.key ≠ key) ∧
      (m.removeOne key).deadConnections =
        m.deadConnections ++ m.connections.filter fun ce => ce.key = key := by
  have hkeys : ofInt (toInt key) = key := hfits
  unfold removeOne
  split
  · next it h =>
    have herase := eraseIdx_lookup hn h
    obtain ⟨pre, ce, post, hsplit, rfl, hkey, hpre⟩ := lookup_some h
    rw [hkeys] at herase hkey hpre
    have hpost : ∀ x ∈ post, x.key ≠ key := hkey ▸ key_ne_of_nodup (hsplit ▸ hn)
    have hget : m.connections[pre.length]? = some ce := by simp [hsplit]
    have hone : m.connections.filter (fun ce => ce.key = key) = [ce] := by
      rw [hsplit, List.filter_append, List.filter_cons_of_pos (by simpa using hkey),
        List.filter_eq_nil_iff.mpr (by simpa using hpre),
        List.filter_eq_nil_iff.mpr (by simpa using hpost)]
      rfl
    refine ⟨?_, ?_⟩
    · rw [← herase, ConnectionMgr.kill, hget]
    · rw [(Moved.kill pre.length m).dead, hget, hone]
      rfl
  · next h =>
    have hnone := lookup_none h
    rw [hkeys] at hnone
    rw [filter_key_ne hnone, List.filter_eq_nil_iff.mpr (by simpa using hnone), List.append_nil]
    exact ⟨rfl, rfl⟩

theorem removeConnections_spec : ∀ {keys : List ConnKey} {m : ConnectionMgr},
    (m.connections.map ConnectionEntry.key).Nodup → (∀ key ∈ keys, Fits key) →
    (m.removeConnections keys).connections = m.connections.filter (fun ce => ce.key ∉ keys) ∧
      ∃ dropped, (m.removeConnections keys).deadConnections = m.deadConnections ++ dropped ∧
        ∀ ce, ce ∈ dropped ↔ ce ∈ m.connections ∧ ce.key ∈ keys
  | [], m, _, _ => by
    refine ⟨?_, [], (List.append_nil _).symm, fun ce => ?_⟩
    · simp [removeConnections]
    · simp
  | key :: keys, m, hn, hfits => by
    rw [List.forall_mem_cons] at hfits
    obtain ⟨hlive, hdead⟩ := removeOne_spec hn hfits.1
    have hn' : ((m.removeOne key).connections.map ConnectionEntry.key).Nodup := by
      rw [hlive]
      exact hn.sublist (List.filter_sublist.map _)
    obtain ⟨hlive', dropped, hdead', hmem⟩ := removeConnections_spec hn' hfits.2
    refine ⟨?_, m.connections.filter (fun ce => ce.key = key) ++ dropped, ?_, fun ce => ?_⟩
    · exact hlive'.trans (by rw [hlive, List.filter_filter]; simp [Bool.and_comm])
    · exact hdead'.trans (by rw [hdead, List.append_assoc])
    · rw [List.mem_append, hmem, hlive, List.mem_filter, List.mem_filter, List.mem_cons]
      by_cases hkey : ce.key = key <;> simp [hkey]

/-- **What the housekeeping kills**: the entries whose time has passed. -/
theorem mem_killed (hn : (m.connections.map ConnectionEntry.key).Nodup)
    (hfits : ∀ ce ∈ m.connections, Fits ce.key) (now : Int) (ce : ConnectionEntry) :
    ce ∈ killed m (m.removeExpieredConnections now) ↔ ce ∈ m.connections ∧ ce.expired now = true := by
  unfold killed removeExpieredConnections
  split
  · next h =>
    rw [List.isEmpty_iff] at h
    simp [h]
  · have hkeys : ∀ key ∈ (m.connections.filter (ConnectionEntry.expired now)).map
        ConnectionEntry.key, Fits key := by
      intro key hkey
      obtain ⟨ce, hce, rfl⟩ := List.mem_map.mp hkey
      exact hfits ce (List.mem_of_mem_filter hce)
    obtain ⟨-, dropped, hdead, hmem⟩ := removeConnections_spec hn hkeys
    have hdrop := congrArg (List.drop m.deadConnections.length) hdead
    rw [List.drop_left] at hdrop
    refine Iff.trans (iff_of_eq (congrArg (ce ∈ ·) hdrop)) ((hmem ce).trans ?_)
    refine and_congr_right fun hce => ?_
    constructor
    · intro hkey
      obtain ⟨ce', hce', heq⟩ := List.mem_map.mp hkey
      rw [List.mem_filter] at hce'
      rw [← List.inj_on_of_nodup_map hn hce'.1 hce heq]
      exact hce'.2
    · intro hexpired
      exact List.mem_map_of_mem (List.mem_filter.mpr ⟨hce, hexpired⟩)

end ConnectionMgr

/-! ## The invariant -/

/-- **The expiry of an entry is what the times of its connection say.** -/
structure TimedInv (timeout : ℕ) (s : Timed) : Prop where
  inv : s.mgr.Inv
  fits : ∀ p ∈ s.mgr.holdings, Fits p.1
  length : s.activities.length = s.mgr.created.length
  due : ∀ ce ∈ s.mgr.connections, ∃ a, s.activities[ce.connection]? = some a ∧
    ce.expire = a.due timeout

namespace TimedInv

variable {timeout : ℕ} {s : Timed}

theorem start (timeout maxConnections : ℕ) (nextKey : ConnKey) :
    TimedInv timeout { mgr := { maxConnections, nextKey } } where
  inv := ⟨List.nodup_nil, fun k i => by simp [holdings]⟩
  fits := List.forall_mem_nil _
  length := rfl
  due := List.forall_mem_nil _

theorem nodup_live (h : TimedInv timeout s) : (s.mgr.connections.map ConnectionEntry.key).Nodup := by
  have hn := h.inv.nodup_keys
  rw [List.map_append] at hn
  exact (List.nodup_append.mp hn).1

theorem mem_holdings {m : ConnectionMgr} {ce : ConnectionEntry} (hce : ce ∈ m.connections) :
    (ce.key, ce.connection) ∈ m.holdings :=
  List.mem_map_of_mem (List.mem_append_left _ hce)

theorem fits_live (h : TimedInv timeout s) : ∀ ce ∈ s.mgr.connections, Fits ce.key :=
  fun ce hce => h.fits (ce.key, ce.connection) (mem_holdings hce)

theorem of_subset (h : TimedInv timeout s) {m' : ConnectionMgr} (hinv : m'.Inv)
    (hheld : ∀ p ∈ m'.holdings, p ∈ s.mgr.holdings)
    (hlength : m'.created.length = s.mgr.created.length)
    (hlive : ∀ ce ∈ m'.connections, ce ∈ s.mgr.connections) :
    TimedInv timeout { s with mgr := m' } where
  inv := hinv
  fits p hp := h.fits p (hheld p hp)
  length := h.length.trans hlength.symm
  due ce hce := h.due ce (hlive ce hce)

theorem removeExpieredConnections (h : TimedInv timeout s) (now : Int) :
    TimedInv timeout { s with mgr := s.mgr.removeExpieredConnections now } := by
  obtain ⟨⟨-, -, hlength⟩, dropped, hmoved⟩ := moved_removeExpieredConnections now s.mgr
  have hinv := h.inv.removeExpieredConnections now
  refine h.of_subset hinv (fun p hp => ?_) hlength fun ce hce => hmoved.sublist.subset hce
  have hperm : ((s.mgr.removeExpieredConnections now).connections ++
      (s.mgr.removeExpieredConnections now).deadConnections).Perm
        (s.mgr.connections ++ s.mgr.deadConnections) := by
    rw [hmoved.dead]
    refine (List.perm_append_comm.append_left _).trans ?_
    rw [← List.append_assoc]
    exact hmoved.perm.append_right _
  exact (hperm.map fun ce => (ce.key, ce.connection)).mem_iff.mp hp

theorem close (h : TimedInv timeout s) (i : ℕ) :
    TimedInv timeout { s with mgr := s.mgr.close i } := by
  cases hc : s.mgr.created[i]? with
  | none =>
    have hrun : s.mgr.close i = s.mgr := by rw [ConnectionMgr.close, hc]
    rw [hrun]
    exact h
  | some c =>
    cases hopen : c.closed with
    | true =>
      have hrun : s.mgr.close i = s.mgr := by
        rw [ConnectionMgr.close, hc]
        exact if_pos hopen
      rw [hrun]
      exact h
    | false =>
      have hfits : Fits c.key := h.fits (c.key, i) ((h.inv.mem_iff _ _).mpr ⟨c, hc, rfl, hopen⟩)
      obtain ⟨hlive, hdead, hledger⟩ := close_spec h.inv hc hopen
      have hlength : (s.mgr.close i).created.length = s.mgr.created.length := by
        simpa [ledger] using congrArg List.length hledger
      refine h.of_subset (h.inv.close hc hopen hfits) (fun p hp => ?_) hlength fun ce hce => ?_
      · obtain ⟨ce, hce, rfl⟩ := List.mem_map.mp hp
        rw [hlive, hdead, ← List.filter_append] at hce
        exact List.mem_map_of_mem (List.mem_of_mem_filter hce)
      · rw [hlive] at hce
        exact List.mem_of_mem_filter hce

theorem createConnection (h : TimedInv timeout s) (now : Int) (hfits : Fits (s.mgr.nextKey + 1))
    (hfresh : ∀ c ∈ s.mgr.created, c.closed = false → c.key ≠ s.mgr.nextKey + 1) :
    TimedInv timeout { mgr := s.mgr.createConnection now
                       activities := s.activities ++ [{ created := now }] } := by
  have hinv := h.inv.createConnection now hfresh
  refine ⟨hinv, fun p hp => ?_, ?_, fun ce hce => ?_⟩
  · -- the keys of the open connections and the new one
    have hledger : (s.mgr.createConnection now).ledger =
        s.mgr.ledger ++ [(s.mgr.nextKey + 1, false)] := by
      have hnew : (s.mgr.getNextKey.emplaceBack now).ledger =
          s.mgr.ledger ++ [(s.mgr.nextKey + 1, false)] := by
        simp [ledger, emplaceBack, getNextKey]
      obtain ⟨-, hrun⟩ | ⟨-, -, hrun⟩ := createConnection_cases now s.mgr
      · rw [hrun, hnew]
      · rw [hrun, ledger_kill, hnew]
    have hopen := exists_open_iff.mp ((hinv.mem_iff p.1 p.2).mp hp)
    rw [hledger] at hopen
    obtain hold | hnew := List.mem_append.mp (List.mem_of_getElem? hopen)
    · obtain ⟨j, hj⟩ := List.getElem?_of_mem hold
      exact h.fits (p.1, j) ((h.inv.mem_iff _ _).mpr (exists_open_iff.mpr hj))
    · rw [(Prod.mk.inj (List.mem_singleton.mp hnew)).1]
      exact hfits
  · rw [List.length_append, h.length, (created_createConnection now s.mgr).2]
    rfl
  · have hmem : ce ∈ s.mgr.connections ++ [s.mgr.newEntry now] := by
      obtain ⟨-, hrun⟩ | ⟨-, -, hrun⟩ := createConnection_cases now s.mgr
      · rw [hrun] at hce
        exact hce
      · rw [hrun] at hce
        exact (Moved.kill 0 (s.mgr.getNextKey.emplaceBack now)).sublist.subset hce
    obtain hold | hnew := List.mem_append.mp hmem
    · obtain ⟨a, ha, hdue⟩ := h.due ce hold
      refine ⟨a, ?_, hdue⟩
      rw [List.getElem?_append_left (List.getElem?_eq_some_iff.mp ha).1]
      exact ha
    · rw [List.mem_singleton.mp hnew]
      refine ⟨{ created := now }, ?_, rfl⟩
      simp [newEntry, ← h.length]

theorem key_eq_iff (h : TimedInv timeout s) {ce : ConnectionEntry} (hce : ce ∈ s.mgr.connections)
    {i : ℕ} {c : Connection} (hc : s.mgr.created[i]? = some c) (hopen : c.closed = false) :
    ce.key = c.key ↔ ce.connection = i := by
  have hmem := mem_holdings hce
  have hown : (c.key, i) ∈ s.mgr.holdings := (h.inv.mem_iff _ _).mpr ⟨c, hc, rfl, hopen⟩
  constructor
  · intro hkey
    exact congrArg Prod.snd (List.inj_on_of_nodup_map h.inv.nodup hmem hown hkey)
  · intro hi
    obtain ⟨c', hc', hkey, -⟩ := (h.inv.mem_iff _ _).mp hmem
    rw [hi, hc] at hc'
    cases hc'
    exact hkey.symm

theorem getElem?_activity {activities : List Activity} {j : ℕ} {a : Activity}
    (ha : activities[j]? = some a) (f : Activity → Activity) (i : ℕ) :
    (activities.modify i f)[j]? = some (if i = j then f a else a) := by
  rw [List.getElem?_modify, ha]
  rfl

theorem reply (h : TimedInv timeout s) (htimeout : timeout ≠ 0) (i : ℕ) (now : Int) :
    TimedInv timeout (s.reply timeout i now) := by
  unfold Timed.reply
  split
  · exact h
  · next c hc =>
    split
    · exact h
    · next hclosed =>
      have hopen : c.closed = false := by simpa using hclosed
      have hfits : ofInt (toInt c.key) = c.key :=
        h.fits (c.key, i) ((h.inv.mem_iff _ _).mpr ⟨c, hc, rfl, hopen⟩)
      have hinv := h.inv.setEndOfLife c.key (now + timeout)
      have hrun := setEndOfLife_eq c.key (now + timeout) h.nodup_live
      rw [hfits] at hrun
      rw [hrun]
      rw [hrun] at hinv
      refine ⟨hinv, fun p hp => ?_, ?_, fun ce' hce' => ?_⟩
      · obtain ⟨c', hc', hkey, hopen'⟩ := (hinv.mem_iff p.1 p.2).mp hp
        exact h.fits p ((h.inv.mem_iff p.1 p.2).mpr ⟨c', hc', hkey, hopen'⟩)
      · rw [List.length_modify]
        exact h.length
      · obtain ⟨ce, hce, rfl⟩ := List.mem_map.mp hce'
        obtain ⟨a, ha, hdue⟩ := h.due ce hce
        by_cases hkey : ce.key = c.key
        · have hi := (h.key_eq_iff hce hc hopen).mp hkey
          rw [if_pos hkey]
          refine ⟨{ a with answered := some now, replied := some now }, ?_, rfl⟩
          exact (getElem?_activity ha _ i).trans (by rw [if_pos hi.symm])
        · have hi : i ≠ ce.connection := fun heq => hkey ((h.key_eq_iff hce hc hopen).mpr heq.symm)
          rw [if_neg hkey]
          refine ⟨a, ?_, hdue⟩
          exact (getElem?_activity ha _ i).trans (by rw [if_neg hi])

theorem refuse (h : TimedInv timeout s) (i : ℕ) (now : Int) :
    TimedInv timeout (s.refuse i now) := by
  refine ⟨h.inv, h.fits, (List.length_modify ..).trans h.length, fun ce hce => ?_⟩
  obtain ⟨a, ha, hdue⟩ := h.due ce hce
  refine ⟨if i = ce.connection then { a with replied := some now } else a, ?_, ?_⟩
  · exact getElem?_activity ha _ i
  · rw [hdue]
    split <;> rfl

/-- **One event** keeps the invariant. -/
theorem timed (h : TimedInv timeout s) (htimeout : timeout ≠ 0) (e : Event) (hk : Keyed s e) :
    TimedInv timeout (timed timeout s e) := by
  cases e with
  | createConnection now => exact h.createConnection now hk.1 hk.2
  | otherKey => exact ⟨h.inv.of_perm (List.Perm.refl _) rfl, h.fits, h.length, h.due⟩
  | reply i now => exact h.reply htimeout i now
  | refuse i now => exact h.refuse i now
  | close i => exact h.close i
  | removeExpieredConnections now => exact h.removeExpieredConnections now

/-- **A housekeeping** respects the timeout exactly if it does not come too early. -/
theorem respected_iff (h : TimedInv timeout s) (e : Event) :
    Respected timeout s e ↔ OnTime timeout s e := by
  cases e with
  | removeExpieredConnections now =>
    have hexpired : ∀ ce ∈ s.mgr.connections, ∀ a, s.activities[ce.connection]? = some a →
        (ce.expired now = true ↔ a.due timeout ≠ 0 ∧ a.due timeout < now) := by
      intro ce hce a ha
      obtain ⟨a', ha', hdue⟩ := h.due ce hce
      rw [ha] at ha'
      cases ha'
      rw [ConnectionEntry.expired, hdue, decide_eq_true_iff]
    constructor
    · intro hresp ce hce a ha hne hlt
      have hdead := (mem_killed h.nodup_live h.fits_live now ce).mpr
        ⟨hce, (hexpired ce hce a ha).mpr ⟨hne, hlt⟩⟩
      exact hresp ce hdead a ha
    · intro hontime ce hdead a ha
      obtain ⟨hce, hpassed⟩ := (mem_killed h.nodup_live h.fits_live now ce).mp hdead
      obtain ⟨hne, hlt⟩ := (hexpired ce hce a ha).mp hpassed
      exact hontime ce hce a ha hne hlt
  | _ => exact Iff.rfl

end TimedInv

theorem along_respected_iff {timeout : ℕ} (htimeout : 0 < timeout) {maxConnections : ℕ} {nextKey : ConnKey}
    {events : List Event}
    (hkeyed : Along (timed timeout) Keyed { mgr := { maxConnections, nextKey } } events) :
    Along (timed timeout) (Respected timeout) { mgr := { maxConnections, nextKey } } events ↔
      Along (timed timeout) (OnTime timeout) { mgr := { maxConnections, nextKey } } events :=
  Along.congr (fun _ e h hk _ => h.timed (Nat.pos_iff_ne_zero.mp htimeout) e hk)
    (fun _ e h _ => h.respected_iff e) (TimedInv.start timeout maxConnections nextKey) hkeyed

/-- **The timeout.** In every run from an empty `ConnectionMgr`, no connection is killed before its
timeout if the keys fit and no housekeeping comes too early; and where the keys fit, only then. -/
theorem timeout_respected {timeout : ℕ} (htimeout : 0 < timeout) (maxConnections : ℕ)
    (nextKey : ConnKey) (events : List Event) :
    (Along (timed timeout) (fun s e => Keyed s e ∧ OnTime timeout s e)
        { mgr := { maxConnections, nextKey } } events →
      Along (timed timeout) (Respected timeout) { mgr := { maxConnections, nextKey } } events) ∧
    (Along (timed timeout) Keyed { mgr := { maxConnections, nextKey } } events →
      Along (timed timeout) (Respected timeout) { mgr := { maxConnections, nextKey } } events →
      Along (timed timeout) (OnTime timeout) { mgr := { maxConnections, nextKey } } events) := by
  constructor
  · intro h
    obtain ⟨hkeyed, hontime⟩ := Along.and_iff.mp h
    exact (along_respected_iff htimeout hkeyed).mpr hontime
  · exact fun hkeyed => (along_respected_iff htimeout hkeyed).mp

/-- A connection is answered before its expiry, and killed after its timeout. -/
theorem timeout_respected_one : Along (timed 3) (Respected 3) { mgr := {} }
    [.createConnection 0, .reply 0 2, .removeExpieredConnections 4, .removeExpieredConnections 6] := by
  refine (timeout_respected (by decide) 0 0 _).1
    ⟨⟨⟨by decide, ?_⟩, trivial⟩, ⟨trivial, trivial⟩, ⟨trivial, ?_⟩, ⟨trivial, ?_⟩, trivial⟩
  · exact List.forall_mem_nil _
  · intro ce hce a ha
    obtain rfl : ce = ⟨1, 5, 0⟩ := List.mem_singleton.mp hce
    cases ha
    decide
  · intro ce hce a ha
    obtain rfl : ce = ⟨1, 5, 0⟩ := List.mem_singleton.mp hce
    cases ha
    decide

/-- With a timeout of 10 seconds, a connection whose first request is late is killed after 4. -/
theorem not_timeout_respected : ¬ ∀ (timeout maxConnections : ℕ) (events : List Event), 0 < timeout →
    (events.filterMap Event.time).Pairwise (· ≤ ·) →
    Along (timed timeout) (Respected timeout) { mgr := { maxConnections } } events := by
  intro h
  obtain ⟨-, hkilled, -⟩ := h 10 0 [.createConnection 100, .removeExpieredConnections 104]
    (by decide) (by decide)
  exact absurd (hkilled ⟨1, 103, 0⟩ (by decide) { created := 100 } rfl) (by decide)

/-! ## Clocks that do not go back -/

/-- An event that is no refusal. -/
def Event.Usual : Event → Prop
  | .refuse _ _ => False
  | _ => True

/-- **No housekeeping between 3 seconds and the timeout** after a connection was created that waits for its
first reply. -/
def WaitsOut (timeout : ℕ) (s : Timed) : Event → Prop
  | .removeExpieredConnections now =>
    ∀ ce ∈ s.mgr.connections, ∀ a, s.activities[ce.connection]? = some a → a.answered = none →
      a.created + 3 ≠ 0 → a.created + 3 < now → a.created + timeout ≤ now
  | _ => True

/-- **The last reply** of a connection is the one that set the end of its life. -/
def Ordered (s : Timed) : Prop :=
  ∀ a ∈ s.activities, a.replied = a.answered ∧ ∀ t ∈ a.answered, a.created ≤ t

namespace Ordered

variable {timeout : ℕ} {s : Timed}

theorem onTime_iff (h : Ordered s) (e : Event) : OnTime timeout s e ↔ WaitsOut timeout s e := by
  cases e with
  | removeExpieredConnections now =>
    refine forall₂_congr fun ce _ => forall₂_congr fun a ha => ?_
    obtain ⟨hreplied, hcreated⟩ := h a (List.mem_of_getElem? ha)
    rw [Activity.last, hreplied, Activity.due]
    cases hanswered : a.answered with
    | none => simp
    | some t =>
      have hle := hcreated t hanswered
      simp only [reduceCtorEq, IsEmpty.forall_iff, iff_true, Option.getD_some]
      intro _ hlt
      omega
  | _ => exact Iff.rfl

theorem timed (h : Ordered s) {e : Event} (husual : e.Usual)
    (hclock : ∀ a ∈ s.activities, ∀ t ∈ e.time, a.created ≤ t) : Ordered (timed timeout s e) := by
  cases e with
  | createConnection now =>
    intro a ha
    obtain hold | hnew := List.mem_append.mp ha
    · exact h a hold
    · rw [List.mem_singleton.mp hnew]
      exact ⟨rfl, by simp⟩
  | reply i now =>
    rw [Http.timed, Timed.reply]
    split
    · exact h
    · split
      · exact h
      · intro a ha
        obtain ⟨j, hj⟩ := List.getElem?_of_mem ha
        rw [List.getElem?_modify] at hj
        obtain ⟨b, hb, rfl⟩ := Option.map_eq_some_iff.mp hj
        have hmem := List.mem_of_getElem? hb
        split_ifs
        · refine ⟨rfl, fun t ht => ?_⟩
          cases ht
          exact hclock b hmem now rfl
        · exact h b hmem
  | refuse => cases husual
  | _ => exact h

theorem created_le {times : List Int} {e : Event}
    (hsorted : (e.time.toList ++ times).Pairwise (· ≤ ·))
    (hclock : ∀ a ∈ s.activities, ∀ t ∈ e.time.toList ++ times, a.created ≤ t) :
    ∀ a ∈ (Http.timed timeout s e).activities, ∀ t ∈ times, a.created ≤ t := by
  have hold : ∀ a ∈ s.activities, ∀ t ∈ times, a.created ≤ t :=
    fun a ha t ht => hclock a ha t (List.mem_append_right _ ht)
  have hmodify : ∀ (i : ℕ) (f : Activity → Activity), (∀ a, (f a).created = a.created) →
      ∀ a ∈ s.activities.modify i f, ∀ t ∈ times, a.created ≤ t := by
    intro i f hf a ha
    obtain ⟨j, hj⟩ := List.getElem?_of_mem ha
    rw [List.getElem?_modify] at hj
    obtain ⟨b, hb, rfl⟩ := Option.map_eq_some_iff.mp hj
    have := hold b (List.mem_of_getElem? hb)
    split_ifs
    · rwa [hf]
    · exact this
  cases e with
  | createConnection now =>
    intro a ha t ht
    obtain hmem | hnew := List.mem_append.mp ha
    · exact hold a hmem t ht
    · rw [List.mem_singleton.mp hnew]
      exact (List.pairwise_append.mp hsorted).2.2 now (List.mem_singleton.mpr rfl) t ht
  | reply i now =>
    rw [Http.timed, Timed.reply]
    split
    · exact hold
    · split
      · exact hold
      · exact hmodify i _ fun _ => rfl
  | refuse i now => exact hmodify i _ fun _ => rfl
  | _ => exact hold

theorem along_iff : ∀ {events : List Event} {s : Timed}, Ordered s → (∀ e ∈ events, e.Usual) →
    (events.filterMap Event.time).Pairwise (· ≤ ·) →
    (∀ a ∈ s.activities, ∀ t ∈ events.filterMap Event.time, a.created ≤ t) →
    (Along (Http.timed timeout) (OnTime timeout) s events ↔
      Along (Http.timed timeout) (WaitsOut timeout) s events)
  | [], _, _, _, _, _ => Iff.rfl
  | e :: events, s, h, husual, hsorted, hclock => by
    have hsplit : (e :: events).filterMap Event.time = e.time.toList ++ events.filterMap Event.time := by
      rw [List.filterMap_cons]
      cases e.time <;> rfl
    rw [hsplit] at hsorted hclock
    rw [List.forall_mem_cons] at husual
    refine and_congr (h.onTime_iff e) (along_iff ?_ husual.2 (List.pairwise_append.mp hsorted).2.1
      (created_le hsorted hclock))
    exact h.timed husual.1 fun a ha t ht => hclock a ha t (List.mem_append_left _ (by
      simpa using ht))

end Ordered

/-- **Where the clock does not go back**, no request is refused and the keys fit, the timeout is respected
exactly if no housekeeping comes between 3 seconds and the timeout after the creation of a connection that
waits for its first reply. -/
theorem respected_iff_waitsOut {timeout : ℕ} (htimeout : 0 < timeout) {maxConnections : ℕ}
    {nextKey : ConnKey} {events : List Event} (husual : ∀ e ∈ events, e.Usual)
    (hclock : (events.filterMap Event.time).Pairwise (· ≤ ·))
    (hkeyed : Along (timed timeout) Keyed { mgr := { maxConnections, nextKey } } events) :
    Along (timed timeout) (Respected timeout) { mgr := { maxConnections, nextKey } } events ↔
      Along (timed timeout) (WaitsOut timeout) { mgr := { maxConnections, nextKey } } events :=
  (along_respected_iff htimeout hkeyed).trans <| Ordered.along_iff
    (fun _ hmem => absurd hmem List.not_mem_nil) husual hclock fun _ hmem => absurd hmem List.not_mem_nil

end VUbercool.Http
