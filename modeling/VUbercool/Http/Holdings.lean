import VUbercool.Http.Timeout

/-!
# What holds the connections when keys do not fit

`CreateConnection`, `Remove` and `Close` (`HttpDaemon.cpp`), for keys below `2 ^ 32`.

* `createWith`: `CreateConnection` after `GetNextKey`.
* `SocketsLive`: an open socket is that of a connection with a live entry.
* **`Keeps`**: the connections that are not closed are held, and those whose keys do not fit are held for
  ever. The operations keep it: `Keeps.createWith`, `Keeps.removeExpieredConnections`, `Keeps.close`.
-/

namespace VUbercool.Http

open ConnectionMgr

/-- `CreateConnection` after `GetNextKey`. -/
def ConnectionMgr.createWith (key : ConnKey) (now : Int) (m : ConnectionMgr) : ConnectionMgr :=
  let m := { m with nextKey := key }.emplaceBack now
  if m.maxConnections ≠ 0 ∧ m.maxConnections < m.connections.length then m.kill 0 else m

theorem ConnectionMgr.createConnection_eq (now : Int) (m : ConnectionMgr) :
    m.createConnection now = m.createWith (m.nextKey + 1) now := rfl

/-! ## What holds the connections -/

namespace ConnectionMgr

variable {m m' : ConnectionMgr}

/-- An open socket is that of a connection that is not closed and that has a live entry. -/
def SocketsLive (m : ConnectionMgr) : Prop := ∀ i c, m.created[i]? = some c → c.socketIsOpen = true →
  c.closed = false ∧ ∃ ce ∈ m.connections, ce.connection = i

/-- **What holds the connections**, as long as the keys are below `2 ^ 32`: those that are not closed are
held, and so are those whose keys do not fit, for ever. -/
structure Keeps (m : ConnectionMgr) : Prop where
  nodup : (m.holdings.map Prod.fst).Nodup
  small : ∀ p ∈ m.ledger, p.1.toNat < 2 ^ 32
  held : ∀ k i, (k, i) ∈ m.holdings ↔
    ∃ closed, m.ledger[i]? = some (k, closed) ∧ (closed = false ∨ ¬ Fits k)
  sockets : m.SocketsLive

theorem Keeps.of_perm (h : m.Keeps) (hp : m'.holdings.Perm m.holdings) (hl : m'.ledger = m.ledger)
    (hs : m'.SocketsLive) : m'.Keeps where
  nodup := (hp.map _).nodup_iff.mpr h.nodup
  small := by rw [hl]; exact h.small
  held k i := by rw [hp.mem_iff, h.held, hl]
  sockets := hs

theorem created_closeSocket {i j : ℕ} {c : Connection} (hc : (m.closeSocket i).created[j]? = some c) :
    ∃ c', m.created[j]? = some c' ∧ c.key = c'.key ∧ c.closed = c'.closed ∧
      (c.socketIsOpen = true → i ≠ j ∧ c = c') := by
  simp only [ConnectionMgr.closeSocket, List.getElem?_modify, Option.map_eq_map,
    Option.map_eq_some_iff] at hc
  obtain ⟨c', hc', rfl⟩ := hc
  refine ⟨c', hc', ?_⟩
  by_cases hij : i = j
  · simp [hij]
  · simp [hij]

theorem SocketsLive.closeSocket (h : m.SocketsLive) (i : ℕ) : (m.closeSocket i).SocketsLive := by
  intro j c hc hopen
  obtain ⟨c', hc', -, -, hsame⟩ := created_closeSocket hc
  obtain ⟨-, rfl⟩ := hsame hopen
  exact h j c hc' hopen

/-- **Only the connection that is killed loses its entry**, and its socket is closed. -/
theorem SocketsLive.kill (h : m.SocketsLive) (it : ℕ) : (m.kill it).SocketsLive := by
  unfold ConnectionMgr.kill
  split
  · exact h
  · next ce hce =>
    intro j c hc hopen
    obtain ⟨hclosed, ce', hce', hj⟩ := h.closeSocket ce.connection j c hc hopen
    refine ⟨hclosed, ce', ?_, hj⟩
    have hne : ce' ≠ ce := by
      rintro rfl
      obtain ⟨c', -, -, -, hsame⟩ := created_closeSocket hc
      exact (hsame hopen).1 hj
    obtain ⟨hlt, hget⟩ := List.getElem?_eq_some_iff.mp hce
    have hperm := (List.getElem_cons_eraseIdx_perm hlt).mem_iff (a := ce')
    rw [hget, List.mem_cons] at hperm
    exact (hperm.mpr hce').resolve_left hne

theorem holdings_removeExpieredConnections (now : Int) (m : ConnectionMgr) :
    (m.removeExpieredConnections now).holdings.Perm m.holdings ∧
      (m.removeExpieredConnections now).ledger = m.ledger ∧
      (m.SocketsLive → (m.removeExpieredConnections now).SocketsLive) := by
  have hone : ∀ (key : ConnKey) (m : ConnectionMgr), (m.removeOne key).holdings.Perm m.holdings ∧
      (m.removeOne key).ledger = m.ledger ∧ (m.SocketsLive → (m.removeOne key).SocketsLive) := by
    intro key m
    unfold removeOne
    split
    · exact ⟨holdings_kill _ m, ledger_kill _ m, fun h => h.kill _⟩
    · exact ⟨List.Perm.refl _, rfl, id⟩
  have hall : ∀ (keys : List ConnKey) (m : ConnectionMgr),
      (m.removeConnections keys).holdings.Perm m.holdings ∧
        (m.removeConnections keys).ledger = m.ledger ∧
        (m.SocketsLive → (m.removeConnections keys).SocketsLive) := by
    intro keys
    induction keys with
    | nil => exact fun m => ⟨List.Perm.refl _, rfl, id⟩
    | cons key keys ih =>
      intro m
      obtain ⟨hp, hl, hs⟩ := hone key m
      obtain ⟨hp', hl', hs'⟩ := ih (m.removeOne key)
      exact ⟨hp'.trans hp, hl'.trans hl, fun h => hs' (hs h)⟩
  unfold removeExpieredConnections
  split
  · exact ⟨List.Perm.refl _, rfl, id⟩
  · exact hall _ m

theorem Keeps.removeExpieredConnections (h : m.Keeps) (now : Int) :
    (m.removeExpieredConnections now).Keeps := by
  obtain ⟨hp, hl, hs⟩ := holdings_removeExpieredConnections now m
  exact h.of_perm hp hl (hs h.sockets)

theorem Keeps.closeSocket (h : m.Keeps) (i : ℕ) : (m.closeSocket i).Keeps :=
  h.of_perm (List.Perm.refl _) (ledger_closeSocket i m) (h.sockets.closeSocket i)

theorem created_setEndOfLife (key : ConnKey) (eol : Int) (m : ConnectionMgr) :
    (m.setEndOfLife key eol).created = m.created := by
  obtain hrun | ⟨it, hrun⟩ := setEndOfLife_cases key eol m
  · rw [hrun]
  · rw [hrun]

theorem ledger_setEndOfLife (key : ConnKey) (eol : Int) (m : ConnectionMgr) :
    (m.setEndOfLife key eol).ledger = m.ledger := by
  rw [ledger, created_setEndOfLife, ledger]

/-- The expiry of an entry is not part of what is held. -/
theorem Keeps.setEndOfLife (h : m.Keeps) (key : ConnKey) (eol : Int) : (m.setEndOfLife key eol).Keeps := by
  obtain ⟨-, hmap, hdead⟩ := drops_setEndOfLife 0 key eol m
  have hcreated := created_setEndOfLife key eol m
  refine h.of_perm (List.Perm.of_eq ?_) ?_ ?_
  · rw [holdings, holdings, List.map_append, List.map_append, hmap, hdead]
  · exact ledger_setEndOfLife key eol m
  · intro i c hc hopen
    rw [hcreated] at hc
    obtain ⟨hclosed, ce, hce, hi⟩ := h.sockets i c hc hopen
    have hmem : (ce.key, ce.connection) ∈
        (m.setEndOfLife key eol).connections.map fun ce => (ce.key, ce.connection) := by
      rw [hmap]
      exact List.mem_map_of_mem (f := fun ce : ConnectionEntry => (ce.key, ce.connection)) hce
    obtain ⟨ce', hce', heq⟩ := List.mem_map.mp hmem
    exact ⟨hclosed, ce', hce', (Prod.mk.inj heq).2.trans hi⟩

theorem ledger_createWith (key : ConnKey) (now : Int) (m : ConnectionMgr) :
    (m.createWith key now).ledger = m.ledger ++ [(key, false)] := by
  have hnew : ({ m with nextKey := key }.emplaceBack now).ledger = m.ledger ++ [(key, false)] := by
    simp [ledger, emplaceBack]
  unfold createWith
  simp only
  split
  · exact (ledger_kill 0 _).trans hnew
  · exact hnew

/-- A connection with a new key. -/
theorem Keeps.createWith (h : m.Keeps) {key : ConnKey} (now : Int) (hsmall : key.toNat < 2 ^ 32)
    (hfresh : ∀ p ∈ m.ledger, p.1 ≠ key) : (m.createWith key now).Keeps := by
  set new := { m with nextKey := key }.emplaceBack now with hnew
  have hperm : new.holdings.Perm ((key, m.created.length) :: m.holdings) := by
    simp only [hnew, holdings, emplaceBack, List.append_assoc, List.map_append]
    exact List.perm_middle
  have hledger : new.ledger = m.ledger ++ [(key, false)] := by simp [hnew, ledger, emplaceBack]
  have hlength : m.ledger.length = m.created.length := List.length_map ..
  have hkeeps : new.Keeps := by
    constructor
    · rw [(hperm.map Prod.fst).nodup_iff, List.map_cons, List.nodup_cons]
      refine ⟨fun hmem => ?_, h.nodup⟩
      obtain ⟨⟨k, i⟩, hki, rfl⟩ := List.mem_map.mp hmem
      obtain ⟨closed, hk, -⟩ := (h.held k i).mp hki
      exact hfresh _ (List.mem_of_getElem? hk) rfl
    · intro p hp
      rw [hledger, List.mem_append, List.mem_singleton] at hp
      obtain hp | rfl := hp
      · exact h.small p hp
      · exact hsmall
    · intro k i
      rw [hperm.mem_iff, List.mem_cons, h.held, Prod.mk.injEq, hledger]
      obtain hi | hi | hi := Nat.lt_trichotomy i m.created.length
      · rw [List.getElem?_append_left (by omega)]
        simp [Nat.ne_of_lt hi]
      · rw [List.getElem?_append_right (by omega), List.getElem?_eq_none (l := m.ledger) (by omega)]
        simp [hi, hlength, eq_comm]
      · rw [List.getElem?_eq_none (l := m.ledger) (by omega),
          List.getElem?_eq_none (l := m.ledger ++ [(key, false)]) (by simp; omega)]
        simp [Nat.ne_of_gt hi]
    · intro i c hc hopen
      simp only [hnew, emplaceBack, List.getElem?_append] at hc ⊢
      split at hc
      · obtain ⟨hclosed, ce, hce, hi⟩ := h.sockets i c hc hopen
        exact ⟨hclosed, ce, List.mem_append_left _ hce, hi⟩
      · next hi =>
        obtain ⟨hlt, rfl⟩ := List.getElem?_eq_some_iff.mp hc
        rw [List.length_singleton] at hlt
        refine ⟨by simp, _, List.mem_append_right _ (List.mem_singleton_self _), ?_⟩
        simp only
        omega
  unfold ConnectionMgr.createWith
  simp only
  split
  · exact hkeeps.of_perm (holdings_kill 0 _) (ledger_kill 0 _) (hkeeps.sockets.kill 0)
  · exact hkeeps

theorem le_ofInt {key : ConnKey} (hsmall : key.toNat < 2 ^ 32) (hfits : ¬ Fits key) :
    2 ^ 32 ≤ (ofInt (toInt key)).toNat := by
  have hbits : (ofInt (toInt key)).toBitVec = (key.toBitVec.setWidth 32).signExtend 64 := rfl
  have hnat : key.toBitVec.toNat = key.toNat := rfl
  rw [fits_iff] at hfits
  show 2 ^ 32 ≤ (ofInt (toInt key)).toBitVec.toNat
  have hint : (ofInt (toInt key)).toBitVec.toInt = Int.bmod key.toNat (2 ^ 32) := by
    rw [hbits, BitVec.toInt_signExtend_of_le (by decide), BitVec.toInt_setWidth, hnat]
  rw [BitVec.toInt_eq_toNat_bmod] at hint
  have hlt := (ofInt (toInt key)).toBitVec.isLt
  simp only [Int.bmod_def] at hint
  omega

theorem close_eq (hn : (m.holdings.map Prod.fst).Nodup) {i : ℕ} {c : Connection}
    (hc : m.created[i]? = some c) (hopen : c.closed = false) :
    m.close i = { m with
      created := (m.created.modify i fun c => { c with closed := true }).modify i fun c =>
        { c with socketIsOpen := false }
      connections := m.connections.filter fun ce => ce.key ≠ ofInt (toInt c.key)
      deadConnections := m.deadConnections.filter fun ce => ce.key ≠ ofInt (toInt c.key) } := by
  have hkeys : ((m.connections ++ m.deadConnections).map ConnectionEntry.key).Nodup := by
    rwa [holdings, List.map_map] at hn
  rw [close, hc]
  simp only [hopen, Bool.false_eq_true, if_false]
  exact remove_eq (m := { m with
    created := m.created.modify i fun c => { c with closed := true } }.closeSocket i) _ hkeys

theorem Keeps.key_eq_iff (h : m.Keeps) {i : ℕ} {c : Connection} (hc : m.created[i]? = some c)
    (hopen : c.closed = false) {k : ConnKey} {j : ℕ} (hj : (k, j) ∈ m.holdings) :
    k = ofInt (toInt c.key) ↔ j = i ∧ Fits c.key := by
  have hi : m.ledger[i]? = some (c.key, false) := by simp [ledger, hc, hopen]
  have hmem : (c.key, i) ∈ m.holdings := (h.held _ _).mpr ⟨_, hi, .inl rfl⟩
  constructor
  · intro hkey
    by_cases hfits : Fits c.key
    · rw [show ofInt (toInt c.key) = c.key from hfits] at hkey
      exact ⟨(Prod.mk.inj (List.inj_on_of_nodup_map h.nodup hj hmem hkey)).2, hfits⟩
    · obtain ⟨closed, hk, -⟩ := (h.held k j).mp hj
      have hlt := h.small _ (List.mem_of_getElem? hk)
      have hle := le_ofInt (h.small _ (List.mem_of_getElem? hi)) hfits
      rw [← hkey] at hle
      exact absurd hlt (Nat.not_lt.mpr hle)
  · rintro ⟨rfl, hfits⟩
    obtain ⟨closed, hk, -⟩ := (h.held k j).mp hj
    rw [hi] at hk
    cases hk
    exact hfits.symm

theorem ledger_close {i : ℕ} {c : Connection} (hn : (m.holdings.map Prod.fst).Nodup)
    (hc : m.created[i]? = some c) (hopen : c.closed = false) :
    (m.close i).ledger = m.ledger.set i (c.key, true) := by
  refine List.ext_getElem? fun j => ?_
  rw [close_eq hn hc hopen]
  simp only [ledger, List.getElem?_map, List.getElem?_modify, List.getElem?_set]
  by_cases hij : i = j
  · subst hij
    obtain ⟨hlt, rfl⟩ := List.getElem?_eq_some_iff.mp hc
    simp [hlt]
  · simp [hij]

theorem Keeps.socketsLive_close (h : m.Keeps) {i : ℕ} {c : Connection} (hc : m.created[i]? = some c)
    (hopen : c.closed = false) : (m.close i).SocketsLive := by
  intro j c' hc' hopen'
  rw [close_eq h.nodup hc hopen] at hc' ⊢
  obtain ⟨c'', hc'', -, -, hsame⟩ := created_closeSocket
    (m := { m with created := m.created.modify i fun c => { c with closed := true } }) hc'
  obtain ⟨hij, rfl⟩ := hsame hopen'
  simp only [List.getElem?_modify, if_neg hij, Option.map_eq_map, Option.map_id'] at hc''
  obtain ⟨hclosed, ce, hce, hj⟩ := h.sockets j c' hc'' hopen'
  refine ⟨hclosed, ce, List.mem_filter.mpr ⟨hce, decide_eq_true fun hkey => ?_⟩, hj⟩
  have hmem : (ce.key, ce.connection) ∈ m.holdings :=
    List.mem_map_of_mem (f := fun ce : ConnectionEntry => (ce.key, ce.connection))
      (List.mem_append_left _ hce)
  exact hij (((h.key_eq_iff hc hopen hmem).mp hkey).1.symm.trans hj)

/-- **`Close` removes the entry of its connection, if the key fits, and no other.** -/
theorem Keeps.close (h : m.Keeps) {i : ℕ} {c : Connection} (hc : m.created[i]? = some c)
    (hopen : c.closed = false) : (m.close i).Keeps := by
  have hheld : (m.close i).holdings = m.holdings.filter fun p => p.1 ≠ ofInt (toInt c.key) := by
    rw [close_eq h.nodup hc hopen, holdings, ← List.filter_append, holdings, List.filter_map]
    rfl
  have hledger := ledger_close h.nodup hc hopen
  have hi : m.ledger[i]? = some (c.key, false) := by simp [ledger, hc, hopen]
  have hown : (c.key, i) ∈ m.holdings := (h.held _ _).mpr ⟨false, hi, .inl rfl⟩
  have hlt : i < m.ledger.length := (List.getElem?_eq_some_iff.mp hi).1
  constructor
  · rw [hheld]
    exact h.nodup.sublist (List.filter_sublist.map _)
  · intro p hp
    rw [hledger] at hp
    obtain hp | rfl := List.mem_or_eq_of_mem_set hp
    · exact h.small p hp
    · exact h.small (c.key, false) (List.mem_of_getElem? hi)
  · intro k j
    rw [hheld, List.mem_filter, hledger, List.getElem?_set]
    by_cases hij : i = j
    · -- the connection itself
      subst hij
      rw [if_pos rfl, if_pos hlt]
      constructor
      · rintro ⟨hj, hne⟩
        obtain ⟨closed, hk, -⟩ := (h.held k i).mp hj
        rw [hi] at hk
        cases hk
        refine ⟨true, rfl, .inr fun hfits => ?_⟩
        exact of_decide_eq_true hne ((h.key_eq_iff hc hopen hj).mpr ⟨rfl, hfits⟩)
      · rintro ⟨closed, hk, hor⟩
        cases hk
        refine ⟨hown, decide_eq_true fun hkey => ?_⟩
        obtain hclosed | hfits := hor
        · cases hclosed
        · exact hfits ((h.key_eq_iff hc hopen hown).mp hkey).2
    · -- another connection
      rw [if_neg hij, ← h.held]
      refine ⟨And.left, fun hj => ⟨hj, decide_eq_true fun hkey => ?_⟩⟩
      exact hij ((h.key_eq_iff hc hopen hj).mp hkey).1.symm
  · exact h.socketsLive_close hc hopen

/-- **How many entries hold a connection.** -/
theorem Keeps.holders_eq (h : m.Keeps) {i : ℕ} {c : Connection} (hc : m.created[i]? = some c) :
    holders i m.connections + holders i m.deadConnections =
      if c.closed = false ∨ ¬ Fits c.key then 1 else 0 := by
  have hi : m.ledger[i]? = some (c.key, c.closed) := by simp [ledger, hc]
  have hcount : holders i m.connections + holders i m.deadConnections =
      m.holdings.countP fun p => p.2 == i := by
    rw [holders, holders, ← List.countP_append, holdings, List.countP_map]
    rfl
  have hown : ∀ k j, (k, j) ∈ m.holdings → j = i → k = c.key ∧ (c.closed = false ∨ ¬ Fits c.key) := by
    rintro k j hj rfl
    obtain ⟨closed, hk, hor⟩ := (h.held k j).mp hj
    rw [hi] at hk
    cases hk
    exact ⟨rfl, hor⟩
  rw [hcount]
  by_cases hheld : c.closed = false ∨ ¬ Fits c.key
  · have hmem : (c.key, i) ∈ m.holdings := (h.held _ _).mpr ⟨_, hi, hheld⟩
    have hcongr : m.holdings.countP (fun p => p.2 == i) = m.holdings.count (c.key, i) := by
      refine List.countP_congr ?_
      rintro ⟨k, j⟩ hp
      constructor
      · intro hj
        obtain rfl : j = i := by simpa using hj
        rw [(hown k j hp rfl).1]
        exact beq_self_eq_true _
      · intro hj
        simpa using (Prod.mk.inj (by simpa using hj)).2
    rw [hcongr, if_pos hheld]
    exact List.count_eq_one_of_mem (List.Nodup.of_map _ h.nodup) hmem
  · rw [if_neg hheld]
    refine List.countP_eq_zero.mpr ?_
    rintro ⟨k, j⟩ hp hj
    exact hheld (hown k j hp (by simpa using hj)).2

end ConnectionMgr

end VUbercool.Http
