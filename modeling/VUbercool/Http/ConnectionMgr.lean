import VUbercool.Lib.Run
import Mathlib.Algebra.Group.Nat.Defs
import Mathlib.Data.List.Nodup
import Mathlib.Data.List.Perm.Basic

/-!
# Ownership of connections

`ConnectionMgr` and `Connection::Close` (`HttpDaemon.cpp`).

* `ConnectionMgr`: the two containers, the counter of keys and all connections that were created.
* `lookup`: `Lookup`, whose parameter is an `int`. `Fits`: the keys that survive the conversion to it,
  `fits_iff`.
* `createConnection`, `setEndOfLife`, `removeExpieredConnections`, `close`: the operations.
* `ownership_iff`: the containers own what they are to own, and each operation changes what it is to
  change, **exactly in the runs that look up keys that fit**.
-/

namespace VUbercool.Http

open Run

/-- `conn_key_t`. -/
abbrev ConnKey : Type := UInt64

/-- The conversion of a key to the `int` that `Lookup` and `Remove` take. -/
def toInt (key : ConnKey) : Int32 := key.toUInt32.toInt32

/-- The conversion of the `int` back, in the comparison with the key of an entry. -/
def ofInt (key : Int32) : ConnKey := key.toInt64.toUInt64

/-- **The keys that survive the conversion.** -/
def Fits (key : ConnKey) : Prop := ofInt (toInt key) = key

instance (key : ConnKey) : Decidable (Fits key) := inferInstanceAs (Decidable (_ = _))

/-- These are the keys of the numbers that an `int` holds. -/
theorem fits_iff (key : ConnKey) :
    Fits key ↔ key.toNat < 2 ^ 31 ∨ 2 ^ 64 - 2 ^ 31 ≤ key.toNat := by
  have hbits : (ofInt (toInt key)).toBitVec = (key.toBitVec.setWidth 32).signExtend 64 := rfl
  have hnat : key.toBitVec.toNat = key.toNat := rfl
  have hlt := key.toNat_lt
  rw [Fits, ← UInt64.toBitVec_inj, hbits, ← BitVec.toInt_inj,
    BitVec.toInt_signExtend_of_le (by decide), BitVec.toInt_setWidth, BitVec.toInt_eq_toNat_bmod, hnat]
  simp only [Int.bmod_def]
  omega

/-- `ConnectionEntry`; `connection` is the number of the connection it owns. -/
structure ConnectionEntry where
  key : ConnKey
  expire : Int
  connection : ℕ
  deriving DecidableEq

/-- What `ConnectionMgr` sees of a `Connection`, and its `closed_`. -/
structure Connection where
  key : ConnKey
  closed : Bool := false
  socketIsOpen : Bool := true
  deriving DecidableEq

/-- **`ConnectionMgr`**, with the static counter of `GetNextKey` and the connections it created. -/
structure ConnectionMgr where
  maxConnections : ℕ := 0
  nextKey : ConnKey := 0
  connections : List ConnectionEntry := []
  deadConnections : List ConnectionEntry := []
  created : List Connection := []
  deriving DecidableEq

namespace ConnectionMgr

/-- `Lookup`: the place of the first entry with the key. -/
def lookup (key : Int32) (list : List ConnectionEntry) : Option ℕ :=
  list.findIdx? fun ce => ce.key == ofInt key

/-- `GetNextKey`. -/
def getNextKey (m : ConnectionMgr) : ConnectionMgr := { m with nextKey := m.nextKey + 1 }

/-- `CloseSocket` of a connection. -/
def closeSocket (connection : ℕ) (m : ConnectionMgr) : ConnectionMgr :=
  { m with created := m.created.modify connection fun c => { c with socketIsOpen := false } }

/-- `Kill`: the entry at `it` is moved to the dead ones. -/
def kill (it : ℕ) (m : ConnectionMgr) : ConnectionMgr :=
  match m.connections[it]? with
  | none => m
  | some ce => { closeSocket ce.connection m with
      deadConnections := m.deadConnections ++ [ce]
      connections := m.connections.eraseIdx it }

/-- A new connection with the key of the counter. -/
def emplaceBack (now : Int) (m : ConnectionMgr) : ConnectionMgr :=
  { m with
    connections := m.connections ++ [⟨m.nextKey, now + 3, m.created.length⟩]
    created := m.created ++ [{ key := m.nextKey }] }

/-- `CreateConnection` at the time `now`. -/
def createConnection (now : Int) (m : ConnectionMgr) : ConnectionMgr :=
  let m := m.getNextKey.emplaceBack now
  if m.maxConnections ≠ 0 ∧ m.maxConnections < m.connections.length then m.kill 0 else m

/-- `Remove`. -/
def remove (key : Int32) (m : ConnectionMgr) : ConnectionMgr :=
  match lookup key m.connections with
  | some myEntry => { m with connections := m.connections.eraseIdx myEntry }
  | none =>
    match lookup key m.deadConnections with
    | some deadEntry => { m with deadConnections := m.deadConnections.eraseIdx deadEntry }
    | none => m

/-- `SetEndOfLife`. -/
def setEndOfLife (key : ConnKey) (eol : Int) (m : ConnectionMgr) : ConnectionMgr :=
  match lookup (toInt key) m.connections with
  | some myEntry => { m with
      connections := m.connections.modify myEntry fun ce => { ce with expire := eol } }
  | none => m

/-- One round of `RemoveConnections`. -/
def removeOne (m : ConnectionMgr) (key : ConnKey) : ConnectionMgr :=
  match lookup (toInt key) m.connections with
  | some it => m.kill it
  | none => m

/-- `RemoveConnections`. -/
def removeConnections (keys : List ConnKey) (m : ConnectionMgr) : ConnectionMgr :=
  keys.foldl removeOne m

/-- `RemoveExpieredConnections` at the time `now`. -/
def removeExpieredConnections (now : Int) (m : ConnectionMgr) : ConnectionMgr :=
  if m.connections.isEmpty then m
  else m.removeConnections
    ((m.connections.filter fun c => c.expire ≠ 0 ∧ c.expire < now).map ConnectionEntry.key)

/-- `Connection::Close`. -/
def close (connection : ℕ) (m : ConnectionMgr) : ConnectionMgr :=
  match m.created[connection]? with
  | none => m
  | some c =>
    if c.closed then m
    else
      let m := { m with created := m.created.modify connection fun c => { c with closed := true } }
      (m.closeSocket connection).remove (toInt c.key)

end ConnectionMgr

/-- The operations. `otherKey` is `GetNextKey` in another pipeline. -/
inductive Op
  | createConnection (now : Int)
  | otherKey
  | setEndOfLife (key : ConnKey) (eol : Int)
  | removeExpieredConnections (now : Int)
  | close (connection : ℕ)
  deriving DecidableEq

/-- One operation. -/
def step (m : ConnectionMgr) : Op → ConnectionMgr
  | .createConnection now => m.createConnection now
  | .otherKey => m.getNextKey
  | .setEndOfLife key eol => m.setEndOfLife key eol
  | .removeExpieredConnections now => m.removeExpieredConnections now
  | .close connection => m.close connection

/-! ## What is asked for -/

/-- The entries of a container that hold a connection. -/
def holders (connection : ℕ) (list : List ConnectionEntry) : ℕ :=
  list.countP fun ce => ce.connection == connection

/-- **Ownership.** A connection that is not closed is held by one entry of one container, under its own
key; a closed one is held by none. -/
structure Owned (m : ConnectionMgr) : Prop where
  held : ∀ i c, m.created[i]? = some c →
    holders i m.connections + holders i m.deadConnections = if c.closed then 0 else 1
  own : ∀ ce ∈ m.connections ++ m.deadConnections, ∀ c, m.created[ce.connection]? = some c →
    ce.key = c.key

/-- What an operation is to change. -/
def Effect (m : ConnectionMgr) : Op → Prop
  | .setEndOfLife key eol =>
    (step m (.setEndOfLife key eol)).connections =
        m.connections.map (fun ce => if ce.key = key then { ce with expire := eol } else ce) ∧
      (step m (.setEndOfLife key eol)).deadConnections = m.deadConnections
  | .close connection => ∀ c, m.created[connection]? = some c →
      (step m (.close connection)).connections = m.connections.filter (fun ce => ce.key ≠ c.key) ∧
      (step m (.close connection)).deadConnections = m.deadConnections.filter fun ce => ce.key ≠ c.key
  | _ => True

/-- A step that leaves everything owned and changes what it is to change. -/
def Sound (m : ConnectionMgr) (op : Op) : Prop := Owned (step m op) ∧ Effect m op

/-- The operations there are: a new key is not that of an open connection, and a connection is closed
once. -/
def Legal (m : ConnectionMgr) : Op → Prop
  | .createConnection _ => ∀ c ∈ m.created, c.closed = false → c.key ≠ m.nextKey + 1
  | .close connection => ∃ c, m.created[connection]? = some c ∧ c.closed = false
  | _ => True

instance (m : ConnectionMgr) : (op : Op) → Decidable (Legal m op)
  | .createConnection _ =>
    inferInstanceAs (Decidable (∀ c ∈ m.created, c.closed = false → c.key ≠ m.nextKey + 1))
  | .close connection => inferInstanceAs (Decidable (∃ c ∈ m.created[connection]?, c.closed = false))
  | .otherKey | .setEndOfLife _ _ | .removeExpieredConnections _ => instDecidableTrue

/-- **The steps that look up keys that fit.** A key given to `SetEndOfLife` may also be one for which
nothing is to be changed and, with what it is converted to, nothing is changed. -/
def LooksUpFitting (m : ConnectionMgr) : Op → Prop
  | .setEndOfLife key eol => Fits key ∨
      ∀ ce ∈ m.connections, ce.key = key ∨ ce.key = ofInt (toInt key) → ce.expire = eol
  | .close connection => ∀ c, m.created[connection]? = some c → Fits c.key
  | _ => True

/-! ## What the containers hold -/

namespace ConnectionMgr

/-- The keys of the entries, with the connections they hold. -/
def holdings (m : ConnectionMgr) : List (ConnKey × ℕ) :=
  (m.connections ++ m.deadConnections).map fun ce => (ce.key, ce.connection)

/-- **The invariant**: the entries are those of the open connections, and their keys differ. -/
structure Inv (m : ConnectionMgr) : Prop where
  nodup : (m.holdings.map Prod.fst).Nodup
  mem_iff : ∀ k i, (k, i) ∈ m.holdings ↔ ∃ c, m.created[i]? = some c ∧ c.key = k ∧ c.closed = false

/-- The keys of the connections and which of them are closed. -/
def ledger (m : ConnectionMgr) : List (ConnKey × Bool) := m.created.map fun c => (c.key, c.closed)

theorem ledger_closeSocket (i : ℕ) (m : ConnectionMgr) : (m.closeSocket i).ledger = m.ledger := by
  unfold ledger closeSocket
  refine List.ext_getElem? fun j => ?_
  simp only [List.getElem?_map, List.getElem?_modify]
  split <;> cases m.created[j]? <;> simp_all

theorem exists_open_iff {m : ConnectionMgr} {k : ConnKey} {i : ℕ} :
    (∃ c, m.created[i]? = some c ∧ c.key = k ∧ c.closed = false) ↔ m.ledger[i]? = some (k, false) := by
  simp [ledger, List.getElem?_map]

theorem Inv.of_perm {m m' : ConnectionMgr} (h : m.Inv) (hp : m'.holdings.Perm m.holdings)
    (hl : m'.ledger = m.ledger) : m'.Inv where
  nodup := (hp.map _).nodup_iff.mpr h.nodup
  mem_iff k i := by rw [hp.mem_iff, h.mem_iff, exists_open_iff, exists_open_iff, hl]

/-! ## `Lookup` -/

theorem lookup_some {key : Int32} {list : List ConnectionEntry} {it : ℕ}
    (h : lookup key list = some it) : ∃ pre ce post, list = pre ++ ce :: post ∧ pre.length = it ∧
      ce.key = ofInt key ∧ ∀ x ∈ pre, x.key ≠ ofInt key := by
  obtain ⟨hlt, hkey, hbefore⟩ := List.findIdx?_eq_some_iff_getElem.mp h
  refine ⟨list.take it, list[it], list.drop (it + 1), ?_, by simp; omega, by simpa using hkey, ?_⟩
  · rw [← List.drop_eq_getElem_cons hlt, List.take_append_drop]
  · intro x hx
    obtain ⟨j, hj, rfl⟩ := List.mem_take_iff_getElem.mp hx
    simpa using hbefore j (by omega)

theorem lookup_none {key : Int32} {list : List ConnectionEntry} (h : lookup key list = none) :
    ∀ x ∈ list, x.key ≠ ofInt key := by
  intro x hx
  simpa using List.findIdx?_eq_none_iff.mp h x hx

/-! ## The operations keep the invariant -/

theorem holdings_kill (it : ℕ) (m : ConnectionMgr) : (m.kill it).holdings.Perm m.holdings := by
  unfold kill
  split
  · exact List.Perm.refl _
  · next ce h =>
    obtain ⟨hlt, hce⟩ := List.getElem?_eq_some_iff.mp h
    apply List.Perm.map _
    have herase : (ce :: m.connections.eraseIdx it).Perm m.connections := by
      rw [← hce]
      exact List.getElem_cons_eraseIdx_perm hlt
    rw [← List.append_assoc]
    exact (List.perm_append_singleton ce _).trans (herase.append_right _)

theorem ledger_kill (it : ℕ) (m : ConnectionMgr) : (m.kill it).ledger = m.ledger := by
  unfold kill
  split
  · rfl
  · exact ledger_closeSocket _ m

theorem Inv.kill {m : ConnectionMgr} (h : m.Inv) (it : ℕ) : (m.kill it).Inv :=
  h.of_perm (holdings_kill it m) (ledger_kill it m)

theorem Inv.removeConnections : ∀ {keys : List ConnKey} {m : ConnectionMgr}, m.Inv →
    (m.removeConnections keys).Inv
  | [], _, h => h
  | key :: keys, m, h => by
    apply Inv.removeConnections (m := m.removeOne key)
    unfold removeOne
    split
    · exact h.kill _
    · exact h

theorem Inv.removeExpieredConnections {m : ConnectionMgr} (h : m.Inv) (now : Int) :
    (m.removeExpieredConnections now).Inv := by
  unfold ConnectionMgr.removeExpieredConnections
  split
  · exact h
  · exact h.removeConnections

theorem Inv.createConnection {m : ConnectionMgr} (h : m.Inv) (now : Int)
    (hfresh : ∀ c ∈ m.created, c.closed = false → c.key ≠ m.nextKey + 1) :
    (m.createConnection now).Inv := by
  have hnew : (m.getNextKey.emplaceBack now).Inv := by
    have hperm : (m.getNextKey.emplaceBack now).holdings.Perm
        ((m.nextKey + 1, m.created.length) :: m.holdings) := by
      simp only [holdings, emplaceBack, getNextKey, List.append_assoc, List.map_append]
      exact List.perm_middle
    have hnotin : ∀ i, (m.nextKey + 1, i) ∉ m.holdings := fun i hi => by
      obtain ⟨c, hc, hkey, hopen⟩ := (h.mem_iff _ i).mp hi
      exact hfresh c (List.mem_of_getElem? hc) hopen hkey
    constructor
    · rw [(hperm.map Prod.fst).nodup_iff, List.map_cons, List.nodup_cons]
      refine ⟨fun hmem => ?_, h.nodup⟩
      obtain ⟨⟨k, i⟩, hki, rfl⟩ := List.mem_map.mp hmem
      exact hnotin i hki
    · intro k i
      rw [hperm.mem_iff, List.mem_cons, h.mem_iff, Prod.mk.injEq]
      simp only [emplaceBack, getNextKey, List.getElem?_append]
      by_cases hi : i < m.created.length
      · simp [hi, Nat.ne_of_lt hi]
      · by_cases heq : i = m.created.length
        · simp [heq]
          exact eq_comm
        · have : i - m.created.length ≠ 0 := by omega
          simp [hi, heq, this]
  unfold ConnectionMgr.createConnection
  simp only
  split
  · exact hnew.kill 0
  · exact hnew

/-! ## One entry of a container whose keys differ -/

section Keyed

variable {list : List ConnectionEntry} {pre post : List ConnectionEntry} {ce : ConnectionEntry}

theorem key_ne_of_nodup (h : ((pre ++ ce :: post).map ConnectionEntry.key).Nodup) :
    ∀ x ∈ post, x.key ≠ ce.key := by
  rw [List.map_append, List.map_cons] at h
  have hce := (List.nodup_cons.mp (List.nodup_append.mp h).2.1).1
  intro x hx heq
  exact hce (heq ▸ List.mem_map_of_mem hx)

theorem filter_key_ne {k : ConnKey} (h : ∀ x ∈ list, x.key ≠ k) :
    list.filter (fun ce => ce.key ≠ k) = list :=
  List.filter_eq_self.mpr fun x hx => by simpa using h x hx

theorem eraseIdx_lookup {key : Int32} {it : ℕ} (hn : (list.map ConnectionEntry.key).Nodup)
    (h : lookup key list = some it) : list.eraseIdx it = list.filter fun ce => ce.key ≠ ofInt key := by
  obtain ⟨pre, ce, post, rfl, rfl, hkey, hpre⟩ := lookup_some h
  have hpost := key_ne_of_nodup hn
  rw [hkey] at hpost
  rw [List.eraseIdx_append_of_length_le (Nat.le_refl _), Nat.sub_self, List.eraseIdx_cons_zero,
    List.filter_append, List.filter_cons_of_neg (by simpa using hkey), filter_key_ne hpre,
    filter_key_ne hpost]

theorem map_key_ne {k : ConnKey} {f : ConnectionEntry → ConnectionEntry} (h : ∀ x ∈ list, x.key ≠ k) :
    list.map (fun ce => if ce.key = k then f ce else ce) = list := by
  refine (List.map_congr_left fun x hx => ?_).trans (List.map_id _)
  rw [if_neg (h x hx), id]

theorem modify_lookup {key : Int32} {it : ℕ} (f : ConnectionEntry → ConnectionEntry)
    (hn : (list.map ConnectionEntry.key).Nodup) (h : lookup key list = some it) :
    list.modify it f = list.map fun ce => if ce.key = ofInt key then f ce else ce := by
  obtain ⟨pre, ce, post, rfl, rfl, hkey, hpre⟩ := lookup_some h
  have hpost := key_ne_of_nodup hn
  rw [hkey] at hpost
  have hmodify : (pre ++ ce :: post).modify pre.length f = pre ++ f ce :: post :=
    List.modifyTailIdx_add (List.modifyHead f) 0 pre (ce :: post)
  rw [hmodify, List.map_append, List.map_cons, map_key_ne hpre, map_key_ne hpost, if_pos hkey]

end Keyed

theorem Inv.nodup_keys {m : ConnectionMgr} (h : m.Inv) :
    ((m.connections ++ m.deadConnections).map ConnectionEntry.key).Nodup := by
  have := h.nodup
  rwa [holdings, List.map_map] at this

/-- **`Remove` keeps the entries with other keys**, in both containers. -/
theorem remove_eq {m : ConnectionMgr} (key : Int32)
    (hn : ((m.connections ++ m.deadConnections).map ConnectionEntry.key).Nodup) :
    m.remove key = { m with
      connections := m.connections.filter fun ce => ce.key ≠ ofInt key
      deadConnections := m.deadConnections.filter fun ce => ce.key ≠ ofInt key } := by
  rw [List.map_append] at hn
  obtain ⟨hlive, hdead, hdisjoint⟩ := List.nodup_append.mp hn
  unfold remove
  split
  · next it h =>
    obtain ⟨pre, ce, post, hsplit, -, hkey, -⟩ := lookup_some h
    have hnone : ∀ x ∈ m.deadConnections, x.key ≠ ofInt key := fun x hx heq =>
      hdisjoint ce.key (List.mem_map_of_mem (by rw [hsplit]; simp)) x.key (List.mem_map_of_mem hx)
        (hkey.trans heq.symm)
    rw [eraseIdx_lookup hlive h, filter_key_ne hnone]
  · next h =>
    rw [filter_key_ne (lookup_none h)]
    split
    · next it h' => rw [eraseIdx_lookup hdead h']
    · next h' => rw [filter_key_ne (lookup_none h')]

/-- **`SetEndOfLife`** changes the entries with the key that its own is converted to. -/
theorem setEndOfLife_eq {m : ConnectionMgr} (key : ConnKey) (eol : Int)
    (hn : (m.connections.map ConnectionEntry.key).Nodup) :
    m.setEndOfLife key eol = { m with
      connections := m.connections.map fun ce =>
        if ce.key = ofInt (toInt key) then { ce with expire := eol } else ce } := by
  unfold setEndOfLife
  split
  · next it h => rw [modify_lookup _ hn h]
  · next h =>
    rw [map_key_ne (lookup_none h)]

/-- The expiry of an entry is not part of what is held. -/
theorem Inv.setEndOfLife {m : ConnectionMgr} (h : m.Inv) (key : ConnKey) (eol : Int) :
    (m.setEndOfLife key eol).Inv := by
  have hn := h.nodup_keys
  rw [List.map_append] at hn
  rw [setEndOfLife_eq key eol (List.nodup_append.mp hn).1]
  refine h.of_perm (List.Perm.of_eq ?_) rfl
  simp only [holdings, List.map_append, List.map_map]
  congr 1
  refine List.map_congr_left fun ce _ => ?_
  simp only [Function.comp_apply]
  split <;> rfl

theorem close_spec {m : ConnectionMgr} (h : m.Inv) {i : ℕ} {c : Connection}
    (hc : m.created[i]? = some c) (hopen : c.closed = false) :
    (m.close i).connections = m.connections.filter (fun ce => ce.key ≠ ofInt (toInt c.key)) ∧
      (m.close i).deadConnections = m.deadConnections.filter (fun ce => ce.key ≠ ofInt (toInt c.key)) ∧
      (m.close i).ledger = m.ledger.set i (c.key, true) := by
  set m' : ConnectionMgr := { m with
    created := m.created.modify i fun c => { c with closed := true } } with hm'
  have hrun : m.close i = (m'.closeSocket i).remove (toInt c.key) := by
    rw [close, hc]
    simp [hopen, hm']
  have hledger : m'.ledger = m.ledger.set i (c.key, true) := by
    refine List.ext_getElem? fun j => ?_
    simp only [ledger, hm', List.getElem?_map, List.getElem?_modify, List.getElem?_set]
    by_cases hij : i = j
    · subst hij
      obtain ⟨hlt, rfl⟩ := List.getElem?_eq_some_iff.mp hc
      simp [hlt]
    · simp [hij]
  rw [hrun, remove_eq (m := m'.closeSocket i) _ h.nodup_keys]
  exact ⟨rfl, rfl, (ledger_closeSocket i m').trans hledger⟩

/-- `Close` of a connection whose key fits keeps the invariant. -/
theorem Inv.close {m : ConnectionMgr} (h : m.Inv) {i : ℕ} {c : Connection}
    (hc : m.created[i]? = some c) (hopen : c.closed = false) (hfits : Fits c.key) : (m.close i).Inv := by
  obtain ⟨hlive, hdead, hledger⟩ := close_spec h hc hopen
  rw [show ofInt (toInt c.key) = c.key from hfits] at hlive hdead
  have hheld : (m.close i).holdings = m.holdings.filter fun p => p.1 ≠ c.key := by
    rw [holdings, hlive, hdead, ← List.filter_append, holdings, List.filter_map]
    rfl
  have hmem : (c.key, i) ∈ m.holdings := (h.mem_iff _ _).mpr ⟨c, hc, rfl, hopen⟩
  have hlt : i < m.ledger.length := by
    rw [ledger, List.length_map]
    exact (List.getElem?_eq_some_iff.mp hc).1
  constructor
  · rw [hheld]
    exact h.nodup.sublist (List.filter_sublist.map _)
  · intro k j
    rw [hheld, List.mem_filter, h.mem_iff, exists_open_iff, exists_open_iff, hledger,
      List.getElem?_set]
    by_cases hij : i = j
    · -- the connection itself
      subst hij
      have hown : m.ledger[i]? = some (c.key, false) := exists_open_iff.mp ⟨c, hc, rfl, hopen⟩
      rw [hown, if_pos rfl, if_pos hlt]
      constructor
      · rintro ⟨heq, hne⟩
        cases heq
        simp at hne
      · intro heq
        cases heq
    · -- another connection has another key
      rw [if_neg hij]
      refine ⟨And.left, fun hj => ⟨hj, ?_⟩⟩
      have hmem' : (k, j) ∈ m.holdings := (h.mem_iff _ _).mpr (exists_open_iff.mpr hj)
      simp only [ne_eq, decide_not, Bool.not_eq_true', decide_eq_false_iff_not]
      rintro rfl
      exact hij (Prod.mk.inj (List.inj_on_of_nodup_map h.nodup hmem hmem' rfl)).2

/-! ## Ownership -/

theorem Inv.owned {m : ConnectionMgr} (h : m.Inv) : Owned m where
  held i c hc := by
    have hcount : holders i m.connections + holders i m.deadConnections =
        m.holdings.countP fun p => p.2 == i := by
      rw [holders, holders, ← List.countP_append, holdings, List.countP_map]
      rfl
    rw [hcount]
    cases hopen : c.closed with
    | true =>
      refine List.countP_eq_zero.mpr fun ⟨k, j⟩ hp hj => ?_
      obtain rfl : j = i := by simpa using hj
      obtain ⟨c', hc', -, hopen'⟩ := (h.mem_iff _ _).mp hp
      rw [hc] at hc'
      cases hc'
      rw [hopen] at hopen'
      cases hopen'
    | false =>
      have hmem : (c.key, i) ∈ m.holdings := (h.mem_iff _ _).mpr ⟨c, hc, rfl, hopen⟩
      have hcongr : m.holdings.countP (fun p => p.2 == i) = m.holdings.count (c.key, i) := by
        refine List.countP_congr fun ⟨k, j⟩ hp => ?_
        obtain ⟨c', hc', rfl, -⟩ := (h.mem_iff _ _).mp hp
        constructor
        · intro hj
          obtain rfl : j = i := by simpa using hj
          rw [hc] at hc'
          cases hc'
          simp
        · intro hj
          simpa using (Prod.mk.inj (by simpa using hj)).2
      rw [hcongr, List.count_eq_one_of_mem (List.Nodup.of_map _ h.nodup) hmem]
      rfl
  own ce hce c hc := by
    have hmem : (ce.key, ce.connection) ∈ m.holdings := List.mem_map_of_mem hce
    obtain ⟨c', hc', hkey, -⟩ := (h.mem_iff _ _).mp hmem
    rw [hc] at hc'
    cases hc'
    exact hkey.symm

theorem Inv.start (maxConnections : ℕ) : Inv { maxConnections } where
  nodup := List.nodup_nil
  mem_iff k i := by simp [holdings]

end ConnectionMgr

open ConnectionMgr

variable {m : ConnectionMgr} {op : Op}

theorem inv_step (h : m.Inv) (hl : Legal m op) (hf : LooksUpFitting m op) : (step m op).Inv := by
  cases op with
  | createConnection now => exact h.createConnection now hl
  | otherKey => exact h.of_perm (List.Perm.refl _) rfl
  | setEndOfLife key eol => exact h.setEndOfLife key eol
  | removeExpieredConnections now => exact h.removeExpieredConnections now
  | close i =>
    obtain ⟨c, hc, hopen⟩ := hl
    exact h.close hc hopen (hf c hc)

theorem effect_setEndOfLife_iff (h : m.Inv) {key : ConnKey} {eol : Int} :
    Effect m (.setEndOfLife key eol) ↔ LooksUpFitting m (.setEndOfLife key eol) := by
  have hn := h.nodup_keys
  rw [List.map_append] at hn
  have hrun := setEndOfLife_eq key eol (List.nodup_append.mp hn).1
  simp only [Effect, LooksUpFitting, step, hrun, and_true, List.map_inj_left]
  by_cases hfits : Fits key
  · rw [show ofInt (toInt key) = key from hfits]
    exact ⟨fun _ => .inl hfits, fun _ _ _ => rfl⟩
  · have hne : key ≠ ofInt (toInt key) := fun heq => hfits heq.symm
    have hsame : ∀ ce : ConnectionEntry, ({ ce with expire := eol } = ce) ↔ ce.expire = eol := fun ce => by
      cases ce
      simp [eq_comm]
    simp only [hfits, false_or]
    refine forall₂_congr fun ce _ => ?_
    by_cases hkey : ce.key = key
    · rw [if_neg fun heq => hne (hkey.symm.trans heq), if_pos hkey]
      exact ⟨fun heq _ => (hsame ce).mp heq.symm, fun himp => ((hsame ce).mpr (himp (.inl hkey))).symm⟩
    · rw [if_neg hkey]
      by_cases hkey' : ce.key = ofInt (toInt key)
      · rw [if_pos hkey']
        exact ⟨fun heq _ => (hsame ce).mp heq, fun himp => (hsame ce).mpr (himp (.inr hkey'))⟩
      · simp [hkey, hkey']

theorem not_owned_close (h : m.Inv) {i : ℕ} {c : Connection} (hc : m.created[i]? = some c)
    (hopen : c.closed = false) (hfits : ¬ Fits c.key) : ¬ Owned (m.close i) := by
  intro howned
  obtain ⟨hlive, hdead, hledger⟩ := close_spec h hc hopen
  -- the connection is closed
  have hlt : i < m.ledger.length := by
    rw [ledger, List.length_map]
    exact (List.getElem?_eq_some_iff.mp hc).1
  have hclosed : (m.close i).ledger[i]? = some (c.key, true) := by
    rw [hledger, List.getElem?_set_self hlt]
  obtain ⟨c', hc', hflags⟩ : ∃ c', (m.close i).created[i]? = some c' ∧
      (c'.key, c'.closed) = (c.key, true) := by
    simpa [ledger] using hclosed
  have hzero := howned.held i c' hc'
  rw [(Prod.mk.inj hflags).2, if_pos rfl] at hzero
  -- and an entry holds it
  obtain ⟨ce, hce, heq⟩ := List.mem_map.mp ((h.mem_iff _ _).mpr ⟨c, hc, rfl, hopen⟩)
  obtain ⟨hkey, hholds⟩ := Prod.mk.inj heq
  have hstays : ce ∈ (m.connections ++ m.deadConnections).filter
      fun ce => ce.key ≠ ofInt (toInt c.key) :=
    List.mem_filter.mpr ⟨hce, decide_eq_true fun heq => hfits (heq.symm.trans hkey)⟩
  have hpos : 0 < ((m.close i).connections ++ (m.close i).deadConnections).countP
      fun ce => ce.connection == i := by
    rw [hlive, hdead, ← List.filter_append]
    exact List.countP_pos_iff.mpr ⟨ce, hstays, beq_iff_eq.mpr hholds⟩
  rw [List.countP_append] at hpos
  exact absurd hzero (Nat.ne_of_gt hpos)

theorem sound_iff (h : m.Inv) (hl : Legal m op) : Sound m op ↔ LooksUpFitting m op := by
  refine ⟨fun ⟨howned, heffect⟩ => ?_, fun hf => ⟨(inv_step h hl hf).owned, ?_⟩⟩
  · cases op with
    | setEndOfLife key eol => exact (effect_setEndOfLife_iff h).mp heffect
    | close i =>
      obtain ⟨c, hc, hopen⟩ := hl
      intro c' hc'
      rw [hc] at hc'
      cases hc'
      by_contra hfits
      exact not_owned_close h hc hopen hfits howned
    | _ => trivial
  · cases op with
    | setEndOfLife key eol => exact (effect_setEndOfLife_iff h).mpr hf
    | close i =>
      obtain ⟨c, hc, hopen⟩ := hl
      obtain ⟨hlive, hdead, -⟩ := close_spec h hc hopen
      rw [show ofInt (toInt c.key) = c.key from hf c hc] at hlive hdead
      intro c' hc'
      rw [hc] at hc'
      cases hc'
      exact ⟨hlive, hdead⟩
    | _ => trivial

/-- **Ownership of connections.** In a run from an empty `ConnectionMgr` every step leaves each open
connection with one entry and each closed one with none, and changes what it is to change, exactly if
all steps look up keys that fit. -/
theorem ownership_iff {maxConnections : ℕ} {ops : List Op}
    (hl : Along step Legal { maxConnections } ops) :
    Along step Sound { maxConnections } ops ↔ Along step LooksUpFitting { maxConnections } ops :=
  Along.congr (fun _ _ => inv_step) (fun _ _ => sound_iff) (Inv.start maxConnections) hl

/-- Three connections where two are allowed: the oldest is killed, the others expire, and two of them
are closed. -/
def threeConnections : List Op :=
  [.createConnection 0, .createConnection 1, .createConnection 2, .setEndOfLife 2 7,
    .removeExpieredConnections 10, .close 0, .close 2]

theorem ownership_first : Along step Sound { maxConnections := 2 } threeConnections ∧
    (run step { maxConnections := 2 } (threeConnections.take 5)).deadConnections.length = 3 := by
  have hlegal : Along step Legal { maxConnections := 2 } threeConnections :=
    ⟨by decide, by decide, by decide, by decide, by decide, by decide, by decide, trivial⟩
  have hfits : Along step LooksUpFitting { maxConnections := 2 } threeConnections :=
    ⟨trivial, trivial, trivial, .inl (by decide), trivial, fun c hc => by cases hc; decide,
      fun c hc => by cases hc; decide, trivial⟩
  exact ⟨(ownership_iff hlegal).mpr hfits, by decide +kernel⟩
theorem run_otherKey (n : ℕ) (m : ConnectionMgr) : run step m (List.replicate n .otherKey) =
    { m with nextKey := m.nextKey + UInt64.ofNat n } := by
  induction n generalizing m with
  | zero => simp [run]
  | succ n ih =>
    rw [List.replicate_succ, run, List.foldl_cons, ← run, ih]
    simp only [step, getNextKey]
    congr 1
    rw [UInt64.ofNat_add, UInt64.add_assoc, UInt64.add_comm 1]
    rfl

/-- The run in which one pipeline draws all keys below `2 ^ 31`, and the next one is that of a
connection. -/
def longRun : List Op :=
  List.replicate (2 ^ 31 - 1) .otherKey ++ [.createConnection 0, .close 0]

/-- A connection with the key `2 ^ 31` is not removed when it is closed. -/
theorem not_ownership : ¬ ∀ (maxConnections : ℕ) (ops : List Op),
    Along step Legal { maxConnections } ops → Along step Sound { maxConnections } ops := by
  intro h
  have hrun : run step {} (List.replicate (2 ^ 31 - 1) Op.otherKey) = { nextKey := 2147483647 } :=
    (run_otherKey _ _).trans rfl
  have hsound := h 0 longRun <| Along.append (Along.replicate (fun _ => trivial) _ _) <| by
    rw [hrun]
    exact ⟨fun c hc => (by cases hc), ⟨_, rfl, rfl⟩, trivial⟩
  obtain ⟨-, ⟨howned, -⟩, -⟩ := hsound.of_append
  rw [hrun] at howned
  exact absurd (howned.held 0 _ rfl) (by decide)

end VUbercool.Http
