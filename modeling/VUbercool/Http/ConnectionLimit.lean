import VUbercool.Http.ConnectionMgr

/-!
# The limit of the connections, and the counters of those that were dropped

`ConnectionMgr` (`HttpDaemon.cpp`), called with any keys.

* `Call`, `call`: the calls. `Limited`: the entries are few enough and in the order of creation.
* `Moved`: a call that destroys nothing; `Moved.kill`, `Moved.removeExpieredConnections`.
* **`connection_limit`**: in every run the limit holds, and a creation drops only the oldest entry.
* `Counted`, `count`: the same calls with what they add to the counters.
* **`counted_iff`**: the totals are right after each call exactly in the quiet runs.
-/

namespace VUbercool.Http

open Run ConnectionMgr

/-- The calls. `otherKey` is `GetNextKey` in another pipeline. -/
inductive Call
  | createConnection (now : Int)
  | otherKey
  | setEndOfLife (key : ConnKey) (eol : Int)
  | remove (key : Int32)
  | removeExpieredConnections (now : Int)
  deriving DecidableEq

/-- One call. -/
def call (m : ConnectionMgr) : Call → ConnectionMgr
  | .createConnection now => m.createConnection now
  | .otherKey => m.getNextKey
  | .setEndOfLife key eol => m.setEndOfLife key eol
  | .remove key => m.remove key
  | .removeExpieredConnections now => m.removeExpieredConnections now

/-! ## What is asked for -/

/-- **The limit**: there are at most `max` entries, and they are in the order of creation. -/
structure Limited (max : ℕ) (m : ConnectionMgr) : Prop where
  length_le : m.connections.length ≤ max
  order : m.connections.Pairwise fun a b => a.connection < b.connection

/-- The entry of the connection that `CreateConnection` returns. -/
def ConnectionMgr.newEntry (now : Int) (m : ConnectionMgr) : ConnectionEntry :=
  ⟨m.nextKey + 1, now + 3, m.created.length⟩

/-- `CreateConnection` appended its entry, and there was room or the oldest entry is now dead. -/
def Creates (max : ℕ) (now : Int) (m m' : ConnectionMgr) : Prop :=
  (m.connections.length < max ∧ m'.connections = m.connections ++ [m.newEntry now] ∧
      m'.deadConnections = m.deadConnections) ∨
    ∃ oldest rest, m.connections = oldest :: rest ∧ m.connections.length = max ∧
      (∀ ce ∈ rest, oldest.connection < ce.connection) ∧
      m'.connections = rest ++ [m.newEntry now] ∧ m'.deadConnections = m.deadConnections ++ [oldest]

/-- **Nothing is destroyed**: the entries that were `dropped` are among the dead ones. -/
structure Moved (dropped : List ConnectionEntry) (m m' : ConnectionMgr) : Prop where
  sublist : m'.connections.Sublist m.connections
  perm : (m'.connections ++ dropped).Perm m.connections
  dead : m'.deadConnections = m.deadConnections ++ dropped

/-- What a call may do to the containers. -/
def Drops (max : ℕ) (m : ConnectionMgr) : Call → Prop
  | .createConnection now => Creates max now m (m.createConnection now) ∧
      (m.createConnection now).created[m.created.length]? = some { key := m.nextKey + 1 }
  | .otherKey => Moved [] m m.getNextKey
  | .setEndOfLife key eol =>
      ((m.setEndOfLife key eol).connections.map fun ce => (ce.key, ce.connection)) =
        (m.connections.map fun ce => (ce.key, ce.connection)) ∧
      (m.setEndOfLife key eol).deadConnections = m.deadConnections
  | .remove key => ((m.remove key).connections.Sublist m.connections) ∧
      (m.remove key).deadConnections.Sublist m.deadConnections
  | .removeExpieredConnections now =>
      ∃ dropped, Moved dropped m (m.removeExpieredConnections now)

/-! ## The calls, one by one -/

section Calls

variable {m m' m'' : ConnectionMgr} {max : ℕ}

theorem Moved.refl (m : ConnectionMgr) : Moved [] m m where
  sublist := List.Sublist.refl _
  perm := by rw [List.append_nil]
  dead := (List.append_nil _).symm

theorem Moved.trans {d d' : List ConnectionEntry} (h : Moved d m m') (h' : Moved d' m' m'') :
    Moved (d ++ d') m m'' where
  sublist := h'.sublist.trans h.sublist
  perm := by
    have hswap : (m''.connections ++ (d ++ d')).Perm ((m''.connections ++ d') ++ d) := by
      rw [List.append_assoc]
      exact List.perm_append_comm.append_left _
    exact hswap.trans ((h'.perm.append_right d).trans h.perm)
  dead := by rw [h'.dead, h.dead, List.append_assoc]

/-- What is killed is moved to the dead entries. -/
theorem Moved.kill (it : ℕ) (m : ConnectionMgr) : Moved m.connections[it]?.toList m (m.kill it) := by
  unfold ConnectionMgr.kill
  split
  · next h =>
    rw [h]
    exact Moved.refl m
  · next ce h =>
    obtain ⟨hlt, hce⟩ := List.getElem?_eq_some_iff.mp h
    rw [h]
    constructor
    · exact List.eraseIdx_sublist ..
    · rw [← hce]
      exact (List.perm_append_singleton _ _).trans (List.getElem_cons_eraseIdx_perm hlt)
    · rfl

/-- What does not change when connections are only moved. -/
def Same (m m' : ConnectionMgr) : Prop :=
  m'.maxConnections = m.maxConnections ∧ m'.nextKey = m.nextKey ∧ m'.created.length = m.created.length

theorem same_kill (it : ℕ) (m : ConnectionMgr) : Same m (m.kill it) := by
  unfold Same ConnectionMgr.kill
  split
  · exact ⟨rfl, rfl, rfl⟩
  · exact ⟨rfl, rfl, List.length_modify ..⟩

theorem moved_removeOne (m : ConnectionMgr) (key : ConnKey) :
    Same m (m.removeOne key) ∧ ∃ dropped, Moved dropped m (m.removeOne key) := by
  unfold removeOne
  split
  · exact ⟨same_kill _ m, _, Moved.kill _ m⟩
  · exact ⟨⟨rfl, rfl, rfl⟩, _, Moved.refl m⟩

theorem moved_removeConnections : ∀ (keys : List ConnKey) (m : ConnectionMgr),
    Same m (m.removeConnections keys) ∧ ∃ dropped, Moved dropped m (m.removeConnections keys)
  | [], m => ⟨⟨rfl, rfl, rfl⟩, _, Moved.refl m⟩
  | key :: keys, m => by
    obtain ⟨⟨hmax, hkey, hlength⟩, d, hd⟩ := moved_removeOne m key
    obtain ⟨⟨hmax', hkey', hlength'⟩, d', hd'⟩ := moved_removeConnections keys (m.removeOne key)
    exact ⟨⟨hmax'.trans hmax, hkey'.trans hkey, hlength'.trans hlength⟩, d ++ d', hd.trans hd'⟩

/-- **`RemoveExpieredConnections` destroys nothing.** -/
theorem moved_removeExpieredConnections (now : Int) (m : ConnectionMgr) :
    Same m (m.removeExpieredConnections now) ∧
      ∃ dropped, Moved dropped m (m.removeExpieredConnections now) := by
  unfold removeExpieredConnections
  split
  · exact ⟨⟨rfl, rfl, rfl⟩, _, Moved.refl m⟩
  · exact moved_removeConnections _ m

theorem setEndOfLife_cases (key : ConnKey) (eol : Int) (m : ConnectionMgr) :
    m.setEndOfLife key eol = m ∨ ∃ it, m.setEndOfLife key eol = { m with
      connections := m.connections.modify it fun ce => { ce with expire := eol } } := by
  unfold setEndOfLife
  split
  · exact .inr ⟨_, rfl⟩
  · exact .inl rfl

theorem remove_cases (key : Int32) (m : ConnectionMgr) : m.remove key = m ∨
    (∃ it, m.remove key = { m with connections := m.connections.eraseIdx it }) ∨
      ∃ it, m.remove key = { m with deadConnections := m.deadConnections.eraseIdx it } := by
  unfold remove
  split
  · exact .inr (.inl ⟨_, rfl⟩)
  · split
    · exact .inr (.inr ⟨_, rfl⟩)
    · exact .inl rfl

theorem drops_setEndOfLife (max : ℕ) (key : ConnKey) (eol : Int) (m : ConnectionMgr) :
    Same m (m.setEndOfLife key eol) ∧ Drops max m (.setEndOfLife key eol) := by
  simp only [Drops]
  obtain h | ⟨it, h⟩ := setEndOfLife_cases key eol m
  · rw [h]
    exact ⟨⟨rfl, rfl, rfl⟩, rfl, rfl⟩
  · rw [h]
    refine ⟨⟨rfl, rfl, rfl⟩, ?_, rfl⟩
    apply List.ext_getElem?
    intro i
    simp only [List.getElem?_map, List.getElem?_modify]
    cases m.connections[i]? with
    | none => rfl
    | some ce =>
      simp only [Option.map_eq_map, Option.map_some]
      split <;> rfl

theorem drops_remove (max : ℕ) (key : Int32) (m : ConnectionMgr) :
    Same m (m.remove key) ∧ Drops max m (.remove key) := by
  simp only [Drops]
  obtain h | ⟨it, h⟩ | ⟨it, h⟩ := remove_cases key m
  · rw [h]
    exact ⟨⟨rfl, rfl, rfl⟩, List.Sublist.refl _, List.Sublist.refl _⟩
  · rw [h]
    exact ⟨⟨rfl, rfl, rfl⟩, List.eraseIdx_sublist .., List.Sublist.refl _⟩
  · rw [h]
    exact ⟨⟨rfl, rfl, rfl⟩, List.Sublist.refl _, List.eraseIdx_sublist ..⟩

theorem createConnection_cases (now : Int) (m : ConnectionMgr) :
    ((m.maxConnections = 0 ∨ m.connections.length < m.maxConnections) ∧
      m.createConnection now = m.getNextKey.emplaceBack now) ∨
    (m.maxConnections ≠ 0 ∧ m.maxConnections ≤ m.connections.length ∧
      m.createConnection now = (m.getNextKey.emplaceBack now).kill 0) := by
  have hlength : (m.getNextKey.emplaceBack now).connections.length = m.connections.length + 1 := by
    simp [emplaceBack, getNextKey]
  have hmax : (m.getNextKey.emplaceBack now).maxConnections = m.maxConnections := rfl
  unfold createConnection
  simp only [hlength, hmax]
  split
  · next h => exact .inr ⟨h.1, by omega, rfl⟩
  · next h => exact .inl ⟨by omega, rfl⟩

theorem created_createConnection (now : Int) (m : ConnectionMgr) :
    (m.createConnection now).maxConnections = m.maxConnections ∧
      (m.createConnection now).created.length = m.created.length + 1 := by
  have hlength : (m.getNextKey.emplaceBack now).created.length = m.created.length + 1 := by
    simp [emplaceBack, getNextKey]
  obtain ⟨-, hrun⟩ | ⟨-, -, hrun⟩ := createConnection_cases now m
  · rw [hrun]
    exact ⟨rfl, hlength⟩
  · rw [hrun]
    obtain ⟨hsame, -, hcreated⟩ := same_kill 0 (m.getNextKey.emplaceBack now)
    exact ⟨hsame, hcreated.trans hlength⟩

/-- **`CreateConnection` drops at most the oldest entry.** -/
theorem drops_createConnection (now : Int) (hmax : 0 < m.maxConnections)
    (h : Limited m.maxConnections m) (hold : ∀ ce ∈ m.connections, ce.connection < m.created.length) :
    Drops m.maxConnections m (.createConnection now) := by
  simp only [Drops, Creates]
  obtain ⟨hroom, hrun⟩ | ⟨-, hfull, hrun⟩ := createConnection_cases now m
  · rw [hrun]
    refine ⟨.inl ⟨by omega, rfl, rfl⟩, ?_⟩
    simp [emplaceBack, getNextKey]
  · have hlength := Nat.le_antisymm h.length_le hfull
    have horder := h.order
    rw [hrun]
    cases hlive : m.connections with
    | nil =>
      rw [hlive, List.length_nil] at hlength
      omega
    | cons oldest rest =>
      rw [hlive, List.length_cons] at hlength
      rw [hlive, List.pairwise_cons] at horder
      have hlt := hold oldest (by rw [hlive]; exact List.mem_cons_self)
      have hkill : (m.getNextKey.emplaceBack now).kill 0 =
          { closeSocket oldest.connection (m.getNextKey.emplaceBack now) with
            deadConnections := m.deadConnections ++ [oldest]
            connections := rest ++ [m.newEntry now] } := by
        simp [ConnectionMgr.kill, emplaceBack, getNextKey, hlive, newEntry]
      rw [hkill]
      refine ⟨.inr ⟨oldest, rest, rfl, hlength, horder.1, rfl, rfl⟩, ?_⟩
      simp only [closeSocket, emplaceBack, getNextKey, List.getElem?_modify, Nat.ne_of_lt hlt]
      simp

/-! ## Runs -/

/-- **The invariant**: the limit, and that the entries are of connections that were created. -/
structure LimitInv (max : ℕ) (m : ConnectionMgr) : Prop where
  maxConnections : m.maxConnections = max
  limited : Limited max m
  owner : ∀ ce ∈ m.connections, ce.connection < m.created.length

theorem LimitInv.of_sublist (h : LimitInv max m) (hsame : Same m m')
    (hsub : m'.connections.Sublist m.connections) : LimitInv max m' where
  maxConnections := hsame.1.trans h.maxConnections
  limited := ⟨Nat.le_trans hsub.length_le h.limited.length_le, h.limited.order.sublist hsub⟩
  owner ce hce := by
    rw [hsame.2.2]
    exact h.owner ce (hsub.subset hce)

theorem LimitInv.of_map (h : LimitInv max m) (hsame : Same m m')
    (hmap : (m'.connections.map fun ce => (ce.key, ce.connection)) =
      m.connections.map fun ce => (ce.key, ce.connection)) : LimitInv max m' := by
  have howners : m'.connections.map ConnectionEntry.connection =
      m.connections.map ConnectionEntry.connection := by
    have := congrArg (List.map Prod.snd) hmap
    simpa [List.map_map, Function.comp_def] using this
  have hlength : m'.connections.length = m.connections.length := by
    simpa using congrArg List.length howners
  have horder : (m'.connections.map ConnectionEntry.connection).Pairwise (· < ·) := by
    rw [howners]
    exact List.pairwise_map.mpr h.limited.order
  refine ⟨hsame.1.trans h.maxConnections, ⟨?_, List.pairwise_map.mp horder⟩, fun ce hce => ?_⟩
  · rw [hlength]
    exact h.limited.length_le
  · have hmem : ce.connection ∈ m.connections.map ConnectionEntry.connection := by
      rw [← howners]
      exact List.mem_map_of_mem hce
    obtain ⟨ce', hce', heq⟩ := List.mem_map.mp hmem
    rw [hsame.2.2, ← heq]
    exact h.owner ce' hce'

theorem LimitInv.of_creates (h : LimitInv max m) {now : Int}
    (hsame : m'.maxConnections = m.maxConnections)
    (hcreated : m'.created.length = m.created.length + 1) (hc : Creates max now m m') :
    LimitInv max m' := by
  obtain ⟨older, hsub, hlength, hlive⟩ : ∃ older : List ConnectionEntry,
      older.Sublist m.connections ∧ older.length < max ∧
        m'.connections = older ++ [m.newEntry now] := by
    obtain ⟨hroom, hlive, -⟩ | ⟨oldest, rest, heq, hfull, -, hlive, -⟩ := hc
    · exact ⟨_, List.Sublist.refl _, hroom, hlive⟩
    · rw [heq, List.length_cons] at hfull
      exact ⟨rest, heq ▸ List.sublist_cons_self .., by omega, hlive⟩
  have hold : ∀ ce ∈ older, ce.connection < m.created.length :=
    fun ce hce => h.owner ce (hsub.subset hce)
  refine ⟨hsame.trans h.maxConnections, ⟨?_, ?_⟩, fun ce hce => ?_⟩
  · rw [hlive, List.length_append, List.length_singleton]
    omega
  · rw [hlive, List.pairwise_append]
    refine ⟨h.limited.order.sublist hsub, List.pairwise_singleton .., fun a ha b hb => ?_⟩
    rw [List.mem_singleton.mp hb]
    exact hold a ha
  · rw [hcreated]
    rw [hlive, List.mem_append, List.mem_singleton] at hce
    obtain hce | rfl := hce
    · exact Nat.lt_succ_of_lt (hold ce hce)
    · exact Nat.lt_succ_self _

theorem limited_call (hmax : 0 < max) (h : LimitInv max m) (c : Call) :
    Drops max m c ∧ LimitInv max (call m c) := by
  cases c with
  | createConnection now =>
    have hlim := h.maxConnections
    subst hlim
    have hdrops := drops_createConnection now hmax h.limited h.owner
    obtain ⟨hsame, hcreated⟩ := created_createConnection now m
    exact ⟨hdrops, h.of_creates hsame hcreated hdrops.1⟩
  | otherKey =>
    have hmoved : Moved [] m m.getNextKey := ⟨(Moved.refl m).1, (Moved.refl m).2, (Moved.refl m).3⟩
    exact ⟨hmoved, h.maxConnections, ⟨h.limited.1, h.limited.2⟩, h.owner⟩
  | setEndOfLife key eol =>
    obtain ⟨hsame, hdrops⟩ := drops_setEndOfLife max key eol m
    exact ⟨hdrops, h.of_map hsame hdrops.1⟩
  | remove key =>
    obtain ⟨hsame, hdrops⟩ := drops_remove max key m
    exact ⟨hdrops, h.of_sublist hsame hdrops.1⟩
  | removeExpieredConnections now =>
    obtain ⟨hsame, dropped, hmoved⟩ := moved_removeExpieredConnections now m
    exact ⟨⟨dropped, hmoved⟩, h.of_sublist hsame hmoved.sublist⟩

end Calls

/-- **The limit of the connections.** In every run, with any keys and times, each call leaves at most
`max` entries in the order of creation, and drops what it may drop. -/
theorem connection_limit {max : ℕ} (hmax : 0 < max) (k : ConnKey) (calls : List Call) :
    Along call (fun m c => Drops max m c ∧ Limited max (call m c))
      { maxConnections := max, nextKey := k } calls := by
  have hstart : LimitInv max { maxConnections := max, nextKey := k } :=
    ⟨rfl, ⟨Nat.zero_le _, List.Pairwise.nil⟩, List.forall_mem_nil _⟩
  refine Along.of_inv (fun m c h => ?_) calls hstart
  obtain ⟨hdrops, hkeep⟩ := limited_call hmax h c
  exact ⟨⟨hdrops, hkeep.limited⟩, hkeep⟩

/-- The second of two connections replaces the first one. -/
theorem connection_limit_one : Along call (fun m c => Drops 1 m c ∧ Limited 1 (call m c))
    { maxConnections := 1, nextKey := 0 } [.createConnection 0, .createConnection 1] :=
  connection_limit Nat.one_pos 0 _

/-! ## The counters -/

/-- **`ConnectionMgr` with its counters**: the totals that were added to them. -/
structure CountedMgr where
  mgr : ConnectionMgr
  timeoutDroppedConnections : ℕ := 0
  overflowDroppedConnections : ℕ := 0
  deriving DecidableEq

/-- The time of the entry has passed. -/
def ConnectionEntry.expired (now : Int) (c : ConnectionEntry) : Bool :=
  decide (c.expire ≠ 0 ∧ c.expire < now)

namespace CountedMgr

/-- One round of `RemoveConnections`. -/
def removeOne (s : CountedMgr) (key : ConnKey) : CountedMgr :=
  match lookup (toInt key) s.mgr.connections with
  | some it => { s with
      overflowDroppedConnections := s.overflowDroppedConnections + 1
      mgr := s.mgr.kill it }
  | none => s

/-- `RemoveConnections`. -/
def removeConnections (keys : List ConnKey) (s : CountedMgr) : CountedMgr := keys.foldl removeOne s

/-- `RemoveExpieredConnections` at the time `now`. -/
def removeExpieredConnections (now : Int) (s : CountedMgr) : CountedMgr :=
  if s.mgr.connections.isEmpty then s
  else
    let expiered := (s.mgr.connections.filter (ConnectionEntry.expired now)).map ConnectionEntry.key
    removeConnections expiered
      { s with timeoutDroppedConnections := s.timeoutDroppedConnections + expiered.length }

/-- One call; the others count nothing. -/
def call (s : CountedMgr) : Call → CountedMgr
  | .removeExpieredConnections now => s.removeExpieredConnections now
  | c => { s with mgr := Http.call s.mgr c }

end CountedMgr

/-- The entries that were killed between two states. -/
def killed (m m' : ConnectionMgr) : List ConnectionEntry :=
  m'.deadConnections.drop m.deadConnections.length

/-- The counters beside the numbers of the connections that were killed: by the housekeeping, when
their time had passed, and at a creation, when there were too many. -/
structure Counted where
  counted : CountedMgr
  timedOut : ℕ := 0
  overflowed : ℕ := 0
  deriving DecidableEq

/-- One call. -/
def count (s : Counted) (c : Call) : Counted :=
  let counted := s.counted.call c
  let dropped := killed s.counted.mgr counted.mgr
  match c with
  | .createConnection _ => { s with counted, overflowed := s.overflowed + dropped.length }
  | .removeExpieredConnections now =>
    { s with counted, timedOut := s.timedOut + dropped.countP (ConnectionEntry.expired now) }
  | _ => { s with counted }

/-- **What is asked for**: each counter is the number of the connections killed for its reason. -/
def Right (s : Counted) : Prop :=
  s.counted.timeoutDroppedConnections = s.timedOut ∧
    s.counted.overflowDroppedConnections = s.overflowed

/-- **The calls that need no counter**: a creation while there is room, and a housekeeping that finds no
entry whose time has passed. -/
def Quiet (s : Counted) : Call → Prop
  | .createConnection _ => s.counted.mgr.maxConnections = 0 ∨
      s.counted.mgr.connections.length < s.counted.mgr.maxConnections
  | .removeExpieredConnections now => ∀ ce ∈ s.counted.mgr.connections, ce.expired now = false
  | _ => True

/-! ## What is counted -/

namespace CountedMgr

theorem mgr_call (s : CountedMgr) (c : Call) : (s.call c).mgr = Http.call s.mgr c := by
  have hone : ∀ (s : CountedMgr) (key : ConnKey), (s.removeOne key).mgr = s.mgr.removeOne key := by
    intro s key
    unfold CountedMgr.removeOne ConnectionMgr.removeOne
    cases lookup (toInt key) s.mgr.connections <;> rfl
  have hall : ∀ (keys : List ConnKey) (s : CountedMgr),
      (s.removeConnections keys).mgr = s.mgr.removeConnections keys := by
    intro keys
    induction keys with
    | nil => exact fun _ => rfl
    | cons key keys ih => exact fun s => (ih _).trans (congrArg _ (hone s key))
  cases c with
  | removeExpieredConnections now =>
    simp only [call, removeExpieredConnections, Http.call, ConnectionMgr.removeExpieredConnections]
    split
    · rfl
    · exact hall _ _
  | _ => rfl

theorem removeOne_counts (s : CountedMgr) (key : ConnKey) :
    (s.removeOne key).timeoutDroppedConnections = s.timeoutDroppedConnections ∧
      ∃ dropped, (s.removeOne key).mgr.deadConnections = s.mgr.deadConnections ++ dropped ∧
        (s.removeOne key).overflowDroppedConnections =
          s.overflowDroppedConnections + dropped.length := by
  unfold removeOne
  split
  · next it h =>
    obtain ⟨pre, ce, post, hsplit, rfl, -, -⟩ := lookup_some h
    have hget : s.mgr.connections[pre.length]? = some ce := by simp [hsplit]
    refine ⟨rfl, [ce], ?_, rfl⟩
    rw [(Moved.kill pre.length s.mgr).dead, hget]
    rfl
  · exact ⟨rfl, [], (List.append_nil _).symm, rfl⟩

/-- **The kills of the housekeeping** are added to the counter of the overflows. -/
theorem removeConnections_counts : ∀ (keys : List ConnKey) (s : CountedMgr),
    (s.removeConnections keys).timeoutDroppedConnections = s.timeoutDroppedConnections ∧
      ∃ dropped, (s.removeConnections keys).mgr.deadConnections = s.mgr.deadConnections ++ dropped ∧
        (s.removeConnections keys).overflowDroppedConnections =
          s.overflowDroppedConnections + dropped.length
  | [], _ => ⟨rfl, [], (List.append_nil _).symm, rfl⟩
  | key :: keys, s => by
    obtain ⟨htimeout, d, hdead, hoverflow⟩ := removeOne_counts s key
    obtain ⟨htimeout', d', hdead', hoverflow'⟩ := removeConnections_counts keys (s.removeOne key)
    refine ⟨htimeout'.trans htimeout, d ++ d', ?_, ?_⟩
    · exact hdead'.trans (by rw [hdead, List.append_assoc])
    · exact hoverflow'.trans (by rw [hoverflow, List.length_append, Nat.add_assoc])

theorem removeExpieredConnections_counts (now : Int) (s : CountedMgr) :
    (s.removeExpieredConnections now).timeoutDroppedConnections = s.timeoutDroppedConnections +
        s.mgr.connections.countP (ConnectionEntry.expired now) ∧
      (s.removeExpieredConnections now).overflowDroppedConnections = s.overflowDroppedConnections +
        (killed s.mgr (s.removeExpieredConnections now).mgr).length := by
  unfold removeExpieredConnections killed
  split
  · next h =>
    rw [List.isEmpty_iff] at h
    simp [h]
  · obtain ⟨htimeout, dropped, hdead, hoverflow⟩ := removeConnections_counts
      ((s.mgr.connections.filter (ConnectionEntry.expired now)).map ConnectionEntry.key)
      { s with timeoutDroppedConnections := s.timeoutDroppedConnections +
        ((s.mgr.connections.filter (ConnectionEntry.expired now)).map ConnectionEntry.key).length }
    refine ⟨?_, ?_⟩
    · rw [htimeout, List.length_map, List.countP_eq_length_filter]
    · rw [hoverflow, hdead, List.drop_left]

theorem killed_nil {now : Int} (s : CountedMgr)
    (h : s.mgr.connections.countP (ConnectionEntry.expired now) = 0) :
    killed s.mgr (s.removeExpieredConnections now).mgr = [] := by
  rw [List.countP_eq_length_filter, List.length_eq_zero_iff] at h
  unfold killed removeExpieredConnections
  rw [h]
  split <;> exact List.drop_length

end CountedMgr

variable {s : Counted}

theorem right_createConnection_iff (hs : Right s) (now : Int) :
    Right (count s (.createConnection now)) ↔ Quiet s (.createConnection now) := by
  have hkilled : (killed s.counted.mgr (s.counted.mgr.createConnection now)).length = 0 ↔
      s.counted.mgr.maxConnections = 0 ∨
        s.counted.mgr.connections.length < s.counted.mgr.maxConnections := by
    unfold killed
    obtain ⟨hroom, hrun⟩ | ⟨hmax, hfull, hrun⟩ := createConnection_cases now s.counted.mgr
    · rw [hrun]
      exact iff_of_true (by simp [emplaceBack, getNextKey]) hroom
    · rw [hrun, (Moved.kill 0 _).dead]
      refine iff_of_false ?_ (by omega)
      cases hlive : s.counted.mgr.connections <;> simp [emplaceBack, getNextKey, hlive]
  simp only [Right, count, CountedMgr.call, call, Quiet]
  rw [hs.1, hs.2, ← hkilled]
  omega

theorem right_removeExpieredConnections_iff (hs : Right s) (now : Int) :
    Right (count s (.removeExpieredConnections now)) ↔ Quiet s (.removeExpieredConnections now) := by
  obtain ⟨htimeout, hoverflow⟩ := s.counted.removeExpieredConnections_counts now
  have hquiet : s.counted.mgr.connections.countP (ConnectionEntry.expired now) = 0 ↔
      Quiet s (.removeExpieredConnections now) := by
    simp [Quiet, List.countP_eq_zero]
  simp only [Right, count, CountedMgr.call]
  rw [htimeout, hoverflow, hs.1, hs.2, ← hquiet]
  set dropped := killed s.counted.mgr (s.counted.removeExpieredConnections now).mgr with hdropped
  constructor
  · rintro ⟨hsame, hnone⟩
    have hnil : dropped = [] := List.eq_nil_of_length_eq_zero (by omega)
    rw [hnil, List.countP_nil] at hsame
    omega
  · intro hzero
    have hnil : dropped = [] := by
      rw [hdropped, s.counted.killed_nil hzero]
    rw [hnil, hzero]
    exact ⟨rfl, rfl⟩

theorem right_count_iff (hs : Right s) (c : Call) : Right (count s c) ↔ Quiet s c := by
  cases c with
  | createConnection now => exact right_createConnection_iff hs now
  | removeExpieredConnections now => exact right_removeExpieredConnections_iff hs now
  | _ => exact iff_of_true hs trivial

/-- **The counters of the dropped connections.** In every run the totals are right after each call
exactly if no creation finds the container full and no housekeeping finds an entry whose time has
passed. -/
theorem counted_iff (maxConnections : ℕ) (nextKey : ConnKey) (calls : List Call) :
    Along count (fun s c => Right (count s c)) { counted.mgr := { maxConnections, nextKey } } calls ↔
      Along count Quiet { counted.mgr := { maxConnections, nextKey } } calls := by
  have hkeep : ∀ s c, Right s → True → Quiet s c → Right (count s c) :=
    fun s c hs _ hq => (right_count_iff hs c).mpr hq
  exact Along.congr hkeep (fun s c hs _ => right_count_iff hs c) ⟨rfl, rfl⟩ (Along.always _ _)

/-- The first of two connections is dropped at the limit, and no counter tells. -/
theorem not_counted : ¬ ∀ (maxConnections : ℕ) (nextKey : ConnKey) (calls : List Call),
    Along count (fun s c => Right (count s c))
      { counted.mgr := { maxConnections, nextKey } } calls := by
  intro h
  obtain ⟨-, hlimit, -⟩ := h 1 0 [.createConnection 0, .createConnection 1]
  exact absurd hlimit.2 (by decide)

end VUbercool.Http
