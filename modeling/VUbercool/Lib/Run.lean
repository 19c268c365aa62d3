import Mathlib.Data.List.Basic

/-!
# Runs of a machine

A machine is a function `step : σ → α → σ` from a state and an operation to the next state.

* `run`: the state after a list of operations. `Along`: what every step of a run satisfies.
* `Along.of_inv`: what an invariant gives holds along runs.
* `Along.congr`: two properties of steps that agree where an invariant holds agree along runs.

A loop is a step that may fail and that says whether the loop is done.

* `Rounds`: the number of rounds of a loop and how it ends. `exists_rounds`: a measure that grows with
  every round bounds them.
-/

namespace Run

variable {σ α : Type} {step : σ → α → σ}

/-- The state after a run. -/
def run (step : σ → α → σ) (s : σ) (as : List α) : σ := as.foldl step s

/-- **Every step of a run satisfies `P`**, which is about the state before the step and the operation. -/
def Along (step : σ → α → σ) (P : σ → α → Prop) : σ → List α → Prop
  | _, [] => True
  | s, a :: as => P s a ∧ Along step P (step s a) as

theorem Along.append {P : σ → α → Prop} : ∀ {as bs : List α} {s : σ}, Along step P s as →
    Along step P (run step s as) bs → Along step P s (as ++ bs)
  | [], _, _, _, hb => hb
  | _ :: _, _, _, ha, hb => ⟨ha.1, ha.2.append hb⟩

theorem Along.of_append {P : σ → α → Prop} : ∀ {as bs : List α} {s : σ},
    Along step P s (as ++ bs) → Along step P (run step s as) bs
  | [], _, _, h => h
  | _ :: _, _, _, h => h.2.of_append

theorem Along.always : ∀ (s : σ) (as : List α), Along step (fun _ _ => True) s as
  | _, [] => True.intro
  | s, a :: as => ⟨True.intro, Along.always (step s a) as⟩

theorem Along.and_iff {P Q : σ → α → Prop} : ∀ {as : List α} {s : σ},
    Along step (fun s a => P s a ∧ Q s a) s as ↔ Along step P s as ∧ Along step Q s as
  | [], _ => (and_self_iff (a := True)).symm
  | _ :: _, _ => (and_congr_right fun _ => Along.and_iff).trans and_and_and_comm

theorem Along.replicate {P : σ → α → Prop} {a : α} (h : ∀ s, P s a) : ∀ (n : ℕ) (s : σ),
    Along step P s (List.replicate n a)
  | 0, _ => trivial
  | n + 1, s => ⟨h s, Along.replicate h n (step s a)⟩

/-- **What holds at each step that keeps an invariant holds along runs.** -/
theorem Along.of_inv {inv : σ → Prop} {P : σ → α → Prop}
    (hstep : ∀ s a, inv s → P s a ∧ inv (step s a)) : ∀ (as : List α) {s : σ}, inv s →
    Along step P s as
  | [], _, _ => True.intro
  | a :: as, s, hs => ⟨(hstep s a hs).1, Along.of_inv hstep as (hstep s a hs).2⟩

/-- **Properties that agree under an invariant agree along runs** whose steps are legal, where the steps
that satisfy the second one keep the invariant. -/
theorem Along.congr {inv : σ → Prop} {legal P Q : σ → α → Prop}
    (hkeep : ∀ s a, inv s → legal s a → Q s a → inv (step s a))
    (hiff : ∀ s a, inv s → legal s a → (P s a ↔ Q s a)) : ∀ {as : List α} {s : σ}, inv s →
    Along step legal s as → (Along step P s as ↔ Along step Q s as)
  | [], _, _, _ => Iff.rfl
  | a :: as, s, hs, ⟨hl, hls⟩ => by
    have hfirst := hiff s a hs hl
    constructor
    · rintro ⟨hp, hps⟩
      have hq := hfirst.mp hp
      exact ⟨hq, (Along.congr hkeep hiff (hkeep s a hs hl hq) hls).mp hps⟩
    · rintro ⟨hq, hqs⟩
      exact ⟨hfirst.mpr hq, (Along.congr hkeep hiff (hkeep s a hs hl hq) hls).mpr hqs⟩

/-! ## Loops -/

section Loops

variable {ε : Type} {body : σ → Except ε (Bool × σ)}

/-- **The loop ends in this number of rounds**, where it fails or is done. -/
inductive Rounds (body : σ → Except ε (Bool × σ)) : σ → ℕ → Except ε σ → Prop
  | failed {s e} : body s = .error e → Rounds body s 1 (.error e)
  | done {s s'} : body s = .ok (true, s') → Rounds body s 1 (.ok s')
  | next {s s' n r} : body s = .ok (false, s') → Rounds body s' n r → Rounds body s (n + 1) r

/-- **A loop whose rounds grow a bounded measure ends.** -/
theorem exists_rounds (measure : σ → ℕ) {bound : ℕ} (hgrow : ∀ s s', body s = .ok (false, s') →
    measure s < measure s' ∧ measure s' ≤ bound) :
    ∀ (fuel : ℕ) (s : σ), bound ≤ measure s + fuel → ∃ n r, n ≤ fuel + 1 ∧ Rounds body s n r := by
  intro fuel
  induction fuel with
  | zero =>
    intro s hs
    cases hbody : body s with
    | error e => exact ⟨1, _, Nat.le_refl _, .failed hbody⟩
    | ok r =>
      obtain ⟨done, s'⟩ := r
      cases done with
      | true => exact ⟨1, _, Nat.le_refl _, .done hbody⟩
      | false =>
        obtain ⟨hlt, hle⟩ := hgrow s s' hbody
        omega
  | succ fuel ih =>
    intro s hs
    cases hbody : body s with
    | error e => exact ⟨1, _, Nat.le_add_left .., .failed hbody⟩
    | ok r =>
      obtain ⟨done, s'⟩ := r
      cases done with
      | true => exact ⟨1, _, Nat.le_add_left .., .done hbody⟩
      | false =>
        obtain ⟨hlt, -⟩ := hgrow s s' hbody
        obtain ⟨n, r, hn, hr⟩ := ih s' (by omega)
        exact ⟨n + 1, r, Nat.succ_le_succ hn, .next hbody hr⟩

theorem Rounds.error {s : σ} {n : ℕ} {e : ε} (h : Rounds body s n (.error e)) :
    ∃ s', body s' = .error e := by
  generalize hr : Except.error e = r at h
  induction h with
  | failed hbody =>
    cases hr
    exact ⟨_, hbody⟩
  | done _ => cases hr
  | next _ _ ih => exact ih hr

end Loops

end Run
