import Mathlib.Data.List.Basic
import Mathlib.Logic.Relation
import Mathlib.Tactic.Common

/-!
# Servers that read a stream in pieces

* `Machine`: a server that goes round after round and asks for a piece before some of them. `step`: one
  round. `Ends`: a whole run. `Fits`: every piece that is read fits the buffer.
* `Machine.Refines`: **a machine that does in its own terms what another one does has its runs**.
* `Reader`: the server as what it makes of what it has read (`Verdict`), which is all it depends on.
  `exists_ends`: **every run ends**.
* `Serves`: what becomes of a stream as a whole. `serves_of_ends`: **a run over its pieces amounts to it**.
* `Serves.unique`: the outcome is unique where the verdicts on the beginnings of a stream agree.
-/

/-- **A server that reads a stream**: whether it goes on, whether it asks for a piece before it does, how
much it holds, what it does with a piece and what it does in a round. -/
structure Machine (μ α : Type) where
  isOpen : μ → Bool
  asks : μ → Bool
  held : μ → ℕ
  read : μ → List α → μ
  round : μ → μ

namespace Machine

variable {μ ν α : Type} (M : Machine μ α)

/-- **One round**, with the pieces that are still to be read: none where the server has stopped or waits
for a piece that does not come. -/
def step : μ × List (List α) → Option (μ × List (List α))
  | (m, pieces) =>
    if M.isOpen m then
      if M.asks m then
        match pieces with
        | [] => none
        | piece :: pieces => some (M.round (M.read m piece), pieces)
      else some (M.round m, pieces)
    else none

/-- Rounds one after the other. -/
def Reaches : μ × List (List α) → μ × List (List α) → Prop :=
  Relation.ReflTransGen fun p p' => M.step p = some p'

/-- **A run**: rounds until there is none. -/
def Ends (p p' : μ × List (List α)) : Prop := M.Reaches p p' ∧ M.step p' = none

/-- **Every piece that is read is not empty and fits** a buffer of `capacity` symbols. -/
def Fits (capacity : ℕ) (p : μ × List (List α)) : Prop :=
  ∀ m piece pieces, M.Reaches p (m, piece :: pieces) → M.isOpen m = true → M.asks m = true →
    piece ≠ [] ∧ M.held m + piece.length ≤ capacity

variable {M} {p p' p'' : μ × List (List α)} {capacity : ℕ}

theorem step_closed {m : μ} {pieces : List (List α)} (h : M.isOpen m = false) :
    M.step (m, pieces) = none := by
  simp [step, h]

theorem step_waits {m : μ} (ho : M.isOpen m = true) (ha : M.asks m = true) :
    M.step (m, []) = none := by
  simp [step, ho, ha]

theorem step_read {m : μ} (ho : M.isOpen m = true) (ha : M.asks m = true) (piece : List α)
    (pieces : List (List α)) :
    M.step (m, piece :: pieces) = some (M.round (M.read m piece), pieces) := by
  simp [step, ho, ha]

theorem step_again {m : μ} (ho : M.isOpen m = true) (ha : M.asks m = false)
    (pieces : List (List α)) : M.step (m, pieces) = some (M.round m, pieces) := by
  simp [step, ho, ha]

theorem waits_of_step_eq_none {m : μ} {pieces : List (List α)} (h : M.step (m, pieces) = none)
    (ho : M.isOpen m = true) : M.asks m = true ∧ pieces = [] := by
  cases ha : M.asks m with
  | false =>
    rw [step_again ho ha] at h
    cases h
  | true =>
    cases pieces with
    | nil => exact ⟨rfl, rfl⟩
    | cons piece pieces =>
      rw [step_read ho ha] at h
      cases h

/-! ## Runs -/

theorem Ends.head (h : M.step p = some p') (h' : M.Ends p' p'') : M.Ends p p'' :=
  ⟨.head h h'.1, h'.2⟩

theorem Ends.tail (h : M.step p = some p') (h' : M.Ends p p'') : M.Ends p' p'' := by
  refine ⟨?_, h'.2⟩
  rcases Relation.ReflTransGen.cases_head h'.1 with rfl | ⟨x, hx, hrest⟩
  · rw [h'.2] at h
    cases h
  · rw [h] at hx
    cases hx
    exact hrest

theorem Ends.eq (h : M.step p = none) (h' : M.Ends p p'') : p'' = p := by
  rcases Relation.ReflTransGen.cases_head h'.1 with rfl | ⟨x, hx, -⟩
  · rfl
  · rw [h] at hx
    cases hx

/-- **A run has one end.** -/
theorem Ends.unique (h : M.Ends p p') (h' : M.Ends p p'') : p' = p'' := by
  obtain ⟨hreach, hend⟩ := h
  induction hreach using Relation.ReflTransGen.head_induction_on with
  | refl => exact (h'.eq hend).symm
  | head hstep _ ih => exact ih (h'.tail hstep)

theorem Fits.tail (h : M.step p = some p') (hf : M.Fits capacity p) : M.Fits capacity p' :=
  fun m piece pieces hr => hf m piece pieces (.head h hr)

theorem Fits.cons {m : μ} {piece : List α} {pieces : List (List α)} (ho : M.isOpen m = true)
    (ha : M.asks m = true) (hne : piece ≠ []) (hle : M.held m + piece.length ≤ capacity)
    (hf : M.Fits capacity (M.round (M.read m piece), pieces)) : M.Fits capacity (m, piece :: pieces) := by
  intro m' piece' pieces' hr ho' ha'
  rcases Relation.ReflTransGen.cases_head hr with heq | ⟨x, hx, hrest⟩
  · cases heq
    exact ⟨hne, hle⟩
  · rw [step_read ho ha] at hx
    cases hx
    exact hf m' piece' pieces' hrest ho' ha'

theorem Fits.closed {m : μ} {pieces : List (List α)} (h : M.isOpen m = false) :
    M.Fits capacity (m, pieces) := by
  intro m' piece' pieces' hr ho' _
  rcases Relation.ReflTransGen.cases_head hr with heq | ⟨x, hx, -⟩
  · cases heq
    rw [h] at ho'
    cases ho'
  · rw [step_closed h] at hx
    cases hx

/-! ## Refinement -/

variable (M) in
/-- **`M` does in its own terms what `N` does.** -/
structure Refines (N : Machine ν α) (abs : μ → ν) : Prop where
  isOpen : ∀ m, N.isOpen (abs m) = M.isOpen m
  asks : ∀ m, N.asks (abs m) = M.asks m
  held : ∀ m, N.held (abs m) = M.held m
  read : ∀ m piece, abs (M.read m piece) = N.read (abs m) piece
  round : ∀ m, abs (M.round m) = N.round (abs m)

namespace Refines

variable {N : Machine ν α} {abs : μ → ν}

/-- A round of the one is a round of the other. -/
theorem step (h : M.Refines N abs) (p : μ × List (List α)) :
    N.step (p.map abs id) = (M.step p).map (Prod.map abs id) := by
  obtain ⟨m, pieces⟩ := p
  simp only [Machine.step, Prod.map_apply, id_eq, h.isOpen, h.asks]
  split_ifs
  · cases pieces with
    | nil => rfl
    | cons piece pieces => simp [h.round, h.read]
  · simp [h.round]
  · rfl

/-- **What the one reaches the other reaches.** -/
theorem reaches (h : M.Refines N abs) (hr : M.Reaches p p') :
    N.Reaches (p.map abs id) (p'.map abs id) := by
  induction hr with
  | refl => exact .refl
  | @tail q q' _ hstep ih =>
    apply ih.tail
    rw [h.step, hstep]
    rfl

theorem of_reaches (h : M.Refines N abs) {q : ν × List (List α)} (hr : N.Reaches (p.map abs id) q) :
    ∃ p', M.Reaches p p' ∧ p'.map abs id = q := by
  induction hr with
  | refl => exact ⟨p, .refl, rfl⟩
  | tail _ hstep ih =>
    obtain ⟨p', hp, rfl⟩ := ih
    rw [h.step, Option.map_eq_some_iff] at hstep
    obtain ⟨p'', hp', rfl⟩ := hstep
    exact ⟨p'', hp.tail hp', rfl⟩

theorem ends (h : M.Refines N abs) (he : M.Ends p p') : N.Ends (p.map abs id) (p'.map abs id) := by
  refine ⟨h.reaches he.1, ?_⟩
  rw [h.step, he.2]
  rfl

theorem of_ends (h : M.Refines N abs) {q : ν × List (List α)} (he : N.Ends (p.map abs id) q) :
    ∃ p', M.Ends p p' ∧ p'.map abs id = q := by
  obtain ⟨p', hp, rfl⟩ := h.of_reaches he.1
  have hend := he.2
  rw [h.step, Option.map_eq_none_iff] at hend
  exact ⟨p', ⟨hp, hend⟩, rfl⟩

/-- **The same pieces fit.** -/
theorem fits_iff (h : M.Refines N abs) : N.Fits capacity (p.map abs id) ↔ M.Fits capacity p := by
  constructor
  · intro hf m piece pieces hr ho ha
    have hfit := hf _ _ _ (h.reaches hr) ((h.isOpen m).trans ho) ((h.asks m).trans ha)
    rwa [h.held] at hfit
  · intro hf n piece pieces hr ho ha
    obtain ⟨⟨m, pieces'⟩, hp, heq⟩ := h.of_reaches hr
    obtain ⟨rfl, rfl⟩ := Prod.mk.inj heq
    rw [h.isOpen] at ho
    rw [h.asks] at ha
    rw [h.held]
    exact hf m piece pieces hp ho ha

end Refines

end Machine

namespace Reader

/-- What a server in a state `σ` makes of what it has read. -/
inductive Verdict (σ : Type) where
  | wait
  | take (n : ℕ) (s : σ)
  | stop (s : σ)

end Reader

/-- **A server as what it has read**: its state, what it has read and not taken, whether it asks for
more before it goes on, and whether it goes on at all. -/
@[ext] structure Reader (σ α : Type) where
  state : σ
  pending : List α
  asks : Bool := true
  isOpen : Bool := true

namespace Reader

open Machine

variable {σ α : Type} (look : σ → List α → Verdict σ)

/-- What a verdict does. -/
def act (r : Reader σ α) : Verdict σ → Reader σ α
  | .wait => { r with asks := true }
  | .take n s => { r with
      state := s, pending := r.pending.drop n, asks := r.pending.length == n }
  | .stop s => { r with state := s, asks := true, isOpen := false }

/-- A round on what has been read. -/
def round (r : Reader σ α) : Reader σ α := r.act (look r.state r.pending)

/-- A piece is read. -/
def read (r : Reader σ α) (piece : List α) : Reader σ α := { r with pending := r.pending ++ piece }

/-- The server as a machine. -/
def machine : Machine (Reader σ α) α where
  isOpen r := r.isOpen
  asks r := r.asks
  held r := r.pending.length
  read r piece := r.read piece
  round r := r.round look

variable {look} {m m' : Reader σ α × List (List α)} {capacity : ℕ}

/-- A server with nothing read. -/
def fresh (s : σ) : Reader σ α := ⟨s, [], true, true⟩

theorem round_fresh {s s' : σ} {p : List α} (h : look s p = .take p.length s') :
    (machine look).round ((machine look).read (fresh s) p) = fresh s' := by
  simp [machine, read, round, fresh, act, h]

theorem round_fresh_stop {s s' : σ} {p : List α} (h : look s p = .stop s') :
    (machine look).round ((machine look).read (fresh s) p) = ⟨s', p, true, false⟩ := by
  simp [machine, read, round, fresh, act, h]

/-! ## Every run ends -/

variable (look) in
/-- What a server keeps to: it takes something, and no more than it has; nothing is decided about
nothing, what is decided stays so, and a full buffer is decided about. -/
structure Lawful (capacity : ℕ) : Prop where
  nil : ∀ s, look s [] = .wait
  take_le : ∀ {s p n s'}, look s p = .take n s' → 0 < n ∧ n ≤ p.length
  mono : ∀ {s p q}, p <+: q → q.length ≤ capacity → look s q = .wait → look s p = .wait
  full : ∀ {s p}, look s p = .wait → p.length < capacity

theorem round_cases (hl : Lawful look capacity) (r : Reader σ α) (ho : r.isOpen = true) :
    (look r.state r.pending = .wait ∧ r.round look = { r with asks := true }) ∨
    (∃ n s', look r.state r.pending = .take n s' ∧ 0 < n ∧ n ≤ r.pending.length ∧
      r.round look = ⟨s', r.pending.drop n, r.pending.length == n, true⟩) ∨
    ∃ s', look r.state r.pending = .stop s' ∧ r.round look = ⟨s', r.pending, true, false⟩ := by
  rw [round]
  cases h : look r.state r.pending with
  | wait => exact .inl ⟨rfl, rfl⟩
  | take n s' =>
    obtain ⟨hpos, hle⟩ := hl.take_le h
    exact .inr (.inl ⟨n, s', rfl, hpos, hle, by rw [act, ho]⟩)
  | stop s' => exact .inr (.inr ⟨s', rfl, rfl⟩)

theorem exists_ends_of_asks (hl : Lawful look capacity) {pieces : List (List α)}
    (hasks : ∀ r : Reader σ α, r.isOpen = true → r.asks = true → ∃ m', (machine look).Ends (r, pieces) m') :
    ∀ (k : ℕ) (r : Reader σ α), r.pending.length < k → ∃ m', (machine look).Ends (r, pieces) m'
  | 0, _, h => absurd h (Nat.not_lt_zero _)
  | k + 1, r, h => by
    by_cases ho : r.isOpen = true
    · by_cases ha : r.asks = true
      · exact hasks r ho ha
      · have hstep : (machine look).step (r, pieces) = _ := step_again ho (Bool.not_eq_true _ ▸ ha) pieces
        rcases round_cases hl r ho with ⟨-, hr⟩ | ⟨n, s', -, hpos, hle, hr⟩ | ⟨s', -, hr⟩
        · -- what is there is not enough
          obtain ⟨m', hm⟩ := hasks (r.round look) (by rw [hr]; exact ho) (by rw [hr])
          exact ⟨m', hm.head hstep⟩
        · -- less is left
          obtain ⟨m', hm⟩ := exists_ends_of_asks hl hasks k (r.round look) (by
            rw [hr, List.length_drop]
            omega)
          exact ⟨m', hm.head hstep⟩
        · exact ⟨_, Ends.head hstep ⟨.refl, step_closed (congrArg Reader.isOpen hr)⟩⟩
    · exact ⟨_, .refl, step_closed (Bool.not_eq_true _ ▸ ho)⟩

/-- **Every run ends.** -/
theorem exists_ends (hl : Lawful look capacity) :
    ∀ (pieces : List (List α)) (r : Reader σ α), ∃ m', (machine look).Ends (r, pieces) m'
  | [], r => exists_ends_of_asks hl (fun _ ho ha => ⟨_, .refl, step_waits ho ha⟩) _ r (Nat.lt_succ_self _)
  | piece :: pieces, r => by
    refine exists_ends_of_asks hl (fun r ho ha => ?_) _ r (Nat.lt_succ_self _)
    obtain ⟨m', hm⟩ := exists_ends hl pieces ((r.read piece).round look)
    exact ⟨m', hm.head (step_read ho ha piece pieces)⟩

/-! ## The stream as a whole -/

variable (look capacity) in
/-- **What becomes of a stream**: the state in the end and, unless the server has stopped, what it has
not taken. Every verdict is on some beginning of the stream that fits the buffer. -/
inductive Serves : σ → List α → σ × Option (List α) → Prop
  | wait {s : σ} {t : List α} : (∀ p, p <+: t → p.length ≤ capacity → look s p = .wait) →
      Serves s t (s, some t)
  | take {s s' : σ} {t p : List α} {n : ℕ} {e : σ × Option (List α)} : p <+: t → p.length ≤ capacity →
      look s p = .take n s' → Serves s' (t.drop n) e → Serves s t e
  | stop {s s' : σ} {t p : List α} : p <+: t → p.length ≤ capacity → look s p = .stop s' →
      Serves s t (s', none)

/-- What a run led to. -/
def outcome (r : Reader σ α) : σ × Option (List α) :=
  (r.state, if r.isOpen then some r.pending else none)

theorem of_outcome_some {r : Reader σ α} {s : σ} {t : List α} (h : outcome r = (s, some t)) :
    r.isOpen = true ∧ r.state = s ∧ r.pending = t := by
  unfold outcome at h
  obtain ⟨hstate, hpending⟩ := Prod.mk.inj h
  split_ifs at hpending with ho
  exact ⟨ho, hstate, Option.some.inj hpending⟩

theorem isSome_outcome (r : Reader σ α) : (outcome r).2.isSome = r.isOpen := by
  unfold outcome
  cases r.isOpen with
  | false => rfl
  | true => rfl

/-- A buffer that fits, and that the server has decided to wait on if it asks for more. -/
structure Ready (look : σ → List α → Verdict σ) (capacity : ℕ) (r : Reader σ α) : Prop where
  isOpen : r.isOpen = true
  fits : r.pending.length ≤ capacity
  asks : r.asks = true → look r.state r.pending = .wait

theorem ready_round (hl : Lawful look capacity) {r : Reader σ α} (ho : r.isOpen = true)
    (hfits : r.pending.length ≤ capacity) (ho' : (r.round look).isOpen = true) :
    Ready look capacity (r.round look) := by
  rcases round_cases hl r ho with ⟨hw, hr⟩ | ⟨n, s', -, -, -, hr⟩ | ⟨s', -, hr⟩
  · rw [hr]
    exact ⟨ho, hfits, fun _ => hw⟩
  · rw [hr]
    refine ⟨rfl, by simp only [List.length_drop]; omega, fun ha => ?_⟩
    have hlen : r.pending.length = n := by simpa using ha
    simp only [List.drop_of_length_le (Nat.le_of_eq hlen)]
    exact hl.nil s'
  · rw [hr] at ho'
    cases ho'

/-- **A round amounts to a verdict on the stream**: where the rest is served, the whole is. -/
theorem serves_round (hl : Lawful look capacity) {r : Reader σ α} (ho : r.isOpen = true)
    (hfits : r.pending.length ≤ capacity) {rest : List α} {e : σ × Option (List α)}
    (hready : Ready look capacity (r.round look) →
      Serves look capacity (r.round look).state ((r.round look).pending ++ rest) e)
    (hclosed : (r.round look).isOpen = false → e = outcome (r.round look)) :
    Serves look capacity r.state (r.pending ++ rest) e := by
  have hnext := ready_round hl ho hfits
  rcases round_cases hl r ho with ⟨-, hr⟩ | ⟨n, s', ht, hpos, hle, hr⟩ | ⟨s', hs, hr⟩
  · have h := hready (hnext (by rw [hr]; exact ho))
    rwa [hr] at h
  · have h := hready (hnext (by rw [hr]))
    rw [hr] at h
    refine .take (List.prefix_append _ _) hfits ht ?_
    rwa [List.drop_append_of_le_length hle]
  · rw [hr] at hclosed
    rw [hclosed rfl]
    exact .stop (List.prefix_append _ _) hfits hs

/-- **A run over the pieces of a stream serves the stream.** -/
theorem serves_of_ends (hl : Lawful look capacity) (h : (machine look).Ends m m')
    (hf : (machine look).Fits capacity m) (hr : Ready look capacity m.1) :
    Serves look capacity m.1.state (m.1.pending ++ m.2.flatten) (outcome m'.1) := by
  obtain ⟨hreach, hend⟩ := h
  induction hreach using Relation.ReflTransGen.head_induction_on with
  | refl =>
    obtain ⟨r, pieces⟩ := m'
    obtain ⟨ha, rfl⟩ := waits_of_step_eq_none hend hr.isOpen
    have hout : outcome r = (r.state, some (r.pending ++ [].flatten)) := by
      rw [outcome, hr.isOpen]
      simp
    rw [hout]
    refine .wait fun p hp _ => ?_
    rw [List.flatten_nil, List.append_nil] at hp
    exact hl.mono hp hr.fits (hr.asks ha)
  | @head m₁ m₂ hstep hrest ih =>
    obtain ⟨r, pieces⟩ := m₁
    have hf' := hf.tail hstep
    have hclosed : m₂.1.isOpen = false → outcome m'.1 = outcome m₂.1 := fun hc => by
      rw [Ends.eq (step_closed hc) ⟨hrest, hend⟩]
    cases ha : r.asks with
    | false =>
      rw [step_again hr.isOpen ha] at hstep
      cases hstep
      exact serves_round hl hr.isOpen hr.fits (ih hf') hclosed
    | true =>
      cases pieces with
      | nil =>
        rw [step_waits hr.isOpen ha] at hstep
        cases hstep
      | cons piece pieces =>
        rw [step_read hr.isOpen ha] at hstep
        cases hstep
        obtain ⟨-, hfit⟩ := hf r piece pieces .refl hr.isOpen ha
        have h := serves_round hl (r := r.read piece) hr.isOpen (List.length_append ▸ hfit) (ih hf')
          hclosed
        rwa [read, List.append_assoc] at h

theorem Serves.keeps {R : σ → σ → Prop} (hrefl : ∀ s, R s s)
    (htrans : ∀ {s s' s''}, R s s' → R s' s'' → R s s'')
    (htake : ∀ {s p n s'}, look s p = .take n s' → R s s')
    (hstop : ∀ {s p s'}, look s p = .stop s' → R s s') {s : σ} {t : List α}
    {e : σ × Option (List α)} (h : Serves look capacity s t e) : R s e.1 := by
  induction h with
  | wait _ => exact hrefl _
  | take _ _ ht _ ih => exact htrans (htake ht) ih
  | stop _ _ hs => exact hstop hs

/-! ## Pieces of one symbol -/

theorem ready_step (hl : Lawful look capacity) {r r' : Reader σ α} {pieces pieces' : List (List α)}
    (hr : Ready look capacity r) (hone : ∀ piece ∈ pieces, piece.length = 1)
    (h : (machine look).step (r, pieces) = some (r', pieces')) :
    (r'.isOpen = true → Ready look capacity r') ∧ ∀ piece ∈ pieces', piece.length = 1 := by
  cases ha : r.asks with
  | false =>
    rw [step_again hr.isOpen ha] at h
    cases h
    exact ⟨ready_round hl hr.isOpen hr.fits, hone⟩
  | true =>
    cases pieces with
    | nil =>
      rw [step_waits hr.isOpen ha] at h
      cases h
    | cons piece pieces =>
      rw [step_read hr.isOpen ha] at h
      cases h
      have hlt := hl.full (hr.asks ha)
      have hlen := hone piece List.mem_cons_self
      refine ⟨ready_round hl (r := r.read piece) hr.isOpen ?_, fun p hp =>
        hone p (List.mem_cons_of_mem _ hp)⟩
      rw [read, List.length_append]
      omega

theorem fits_of_singles (hl : Lawful look capacity) {r : Reader σ α} (hr : Ready look capacity r)
    {pieces : List (List α)} (hone : ∀ piece ∈ pieces, piece.length = 1) :
    (machine look).Fits capacity (r, pieces) := by
  intro r' piece rest hreach
  generalize hq : (r', piece :: rest) = q at hreach
  suffices h : (q.1.isOpen = true → Ready look capacity q.1) ∧ ∀ piece ∈ q.2, piece.length = 1 by
    subst hq
    intro ho ha
    have hlt : r'.pending.length < capacity := hl.full ((h.1 ho).asks ha)
    have hlen := h.2 piece List.mem_cons_self
    refine ⟨?_, ?_⟩
    · rintro rfl
      cases hlen
    · rw [hlen]
      exact hlt
  clear hq
  induction hreach with
  | refl => exact ⟨fun _ => hr, hone⟩
  | @tail q q' _ hstep ih =>
    cases ho : q.1.isOpen with
    | false =>
      rw [step_closed ho] at hstep
      cases hstep
    | true => exact ready_step hl (ih.1 ho) ih.2 hstep

/-- A stream cut into single symbols. -/
def singles (t : List α) : List (List α) := t.map fun x => [x]

theorem flatten_singles (t : List α) : (singles t).flatten = t := by
  rw [singles, ← List.flatMap_def]
  exact List.flatMap_singleton' t

theorem fits_singles (hl : Lawful look capacity) {r : Reader σ α} (hr : Ready look capacity r)
    (t : List α) : (machine look).Fits capacity (r, singles t) := by
  refine fits_of_singles hl hr fun piece hp => ?_
  obtain ⟨x, -, rfl⟩ := List.mem_map.mp hp
  rfl

/-! ## Uniqueness -/

variable (look capacity) in
/-- What is left of a stream after some of it has been taken. -/
inductive Leaves : σ → List α → σ → List α → Prop
  | refl {s : σ} {t : List α} : Leaves s t s t
  | take {s s' s'' : σ} {t t'' p : List α} {n : ℕ} : p <+: t → p.length ≤ capacity →
      look s p = .take n s' → Leaves s' (t.drop n) s'' t'' → Leaves s t s'' t''

variable (look capacity) in
/-- **The verdicts on the beginnings of a stream agree**, those to wait apart. -/
def Agree (s : σ) (t : List α) : Prop :=
  ∀ p q, p <+: t → q <+: t → p.length ≤ capacity → q.length ≤ capacity → look s p ≠ .wait →
    look s q ≠ .wait → look s p = look s q

/-- **The outcome is unique** where the verdicts agree all along the stream. -/
theorem Serves.unique {s : σ} {t : List α} {e e' : σ × Option (List α)}
    (h : Serves look capacity s t e) (h' : Serves look capacity s t e')
    (hagree : ∀ s' t', Leaves look capacity s t s' t' → Agree look capacity s' t') : e = e' := by
  induction h generalizing e' with
  | wait hw =>
    cases h' with
    | wait => rfl
    | take hp hc ht _ => rw [hw _ hp hc] at ht; cases ht
    | stop hp hc hs => rw [hw _ hp hc] at hs; cases hs
  | @take s s' t p n e hp hc ht hrest ih =>
    cases h' with
    | wait hw => rw [hw _ hp hc] at ht; cases ht
    | take hp' hc' ht' hrest' =>
      have heq := hagree _ _ .refl _ _ hp hp' hc hc' (by rw [ht]; nofun) (by rw [ht']; nofun)
      rw [ht, ht'] at heq
      cases heq
      exact ih hrest' fun s'' t'' hl => hagree s'' t'' (.take hp hc ht hl)
    | stop hp' hc' hs' =>
      have heq := hagree _ _ .refl _ _ hp hp' hc hc' (by rw [ht]; nofun) (by rw [hs']; nofun)
      rw [ht, hs'] at heq
      cases heq
  | stop hp hc hs =>
    cases h' with
    | wait hw => rw [hw _ hp hc] at hs; cases hs
    | take hp' hc' ht' _ =>
      have heq := hagree _ _ .refl _ _ hp hp' hc hc' (by rw [hs]; nofun) (by rw [ht']; nofun)
      rw [hs, ht'] at heq
      cases heq
    | stop hp' hc' hs' =>
      have heq := hagree _ _ .refl _ _ hp hp' hc hc' (by rw [hs]; nofun) (by rw [hs']; nofun)
      rw [hs, hs'] at heq
      cases heq
      rfl

end Reader
