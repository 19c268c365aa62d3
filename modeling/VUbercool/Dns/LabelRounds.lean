import VUbercool.Dns.LabelParser
import VUbercool.Lib.Run

/-!
# The label parser ends

The loop of the constructor of `LabelHeader` (`Message.h`), whose position may move backwards.

* `size_lt`: **every round that goes on adds to the size**, which is validated.
* `labelLoop_of_rounds`: the model of the loop is granted rounds enough.
* **`labelHeader_stops`**: the loop ends in at most 256 rounds, whatever it reads.
-/

namespace VUbercool.Dns

open Octets Run

variable {mem : Memory} {stop : ℕ}

/-- **Every round that goes on adds to the size**, which stays below the limit. -/
theorem size_lt (st st' : LabelState) (h : labelStep mem stop st = .ok (false, st')) :
    st.size < st'.size ∧ st'.size ≤ 255 := by
  obtain ⟨-, hd, -⟩ | ⟨h0, h64, -⟩ | ⟨hp, -⟩ := labelStep_ok h
  · cases hd
  · -- a label has at least one octet
    obtain ⟨e, he⟩ := @labelStep_label mem stop st h0 h64
    rw [he] at h
    split at h
    · next hc =>
      cases h
      have hlen : 0 < (mem st.p).toNat :=
        Nat.pos_of_ne_zero fun hzero => h0 (UInt8.toNat_inj.mp hzero)
      simp only [LabelState.afterLabel, labelAt, length_readBytes]
      omega
    · cases h
  · -- a pointer has two octets, wherever it leads
    obtain ⟨v, -, hsize, -, he⟩ | ⟨⟨e, he⟩, -⟩ := @labelStep_pointer mem stop st hp
    · rw [he] at h
      cases h
      simp only [LabelState.afterPointer]
      omega
    · rw [he] at h
      cases h

theorem validateSize_cases (size : ℕ) :
    validateSize size = .ok () ∨ ∃ type what, validateSize size = .error (warThrow type what) := by
  unfold validateSize
  split
  · exact .inr ⟨_, _, rfl⟩
  · exact .inl rfl

theorem findPointer_cases (pointer : UInt16) (labels : List StringRef) :
    (∃ v, findPointer pointer labels = .ok v) ∨
      ∃ type what, findPointer pointer labels = .error (warThrow type what) := by
  unfold findPointer
  split
  · exact .inl ⟨_, rfl⟩
  · exact .inr ⟨_, _, rfl⟩

theorem labelStep_error {st : LabelState} {e : Fault} (h : labelStep mem stop st = .error e) :
    ∃ type what, e = warThrow type what := by
  unfold labelStep at h
  split at h
  · obtain hok | ⟨type, what, hraise⟩ := validateSize_cases (st.size + 1)
    · simp only [hok, bind, Except.bind] at h
      split at h
      · cases h
        exact ⟨_, _, rfl⟩
      · cases h
    · simp only [hraise, bind, Except.bind] at h
      cases h
      exact ⟨_, _, rfl⟩
  · simp only at h
    split at h
    · split at h
      · cases h
        exact ⟨_, _, rfl⟩
      · obtain hok | ⟨type, what, hraise⟩ := validateSize_cases (st.size + (mem st.p).toNat)
        · simp only [hok, bind, Except.bind] at h
          split at h
          · cases h
          · cases h
            exact ⟨_, _, rfl⟩
        · simp only [hraise, bind, Except.bind] at h
          cases h
          exact ⟨_, _, rfl⟩
    · split at h
      · split at h
        · cases h
          exact ⟨_, _, rfl⟩
        · obtain hok | ⟨type, what, hraise⟩ := validateSize_cases (st.size + 2)
          · simp only [hok, bind, Except.bind] at h
            obtain ⟨v, hfound⟩ | ⟨type, what, hraise⟩ :=
              findPointer_cases (load16 mem st.p &&& ~~~0xC000) st.knownLabels
            · rw [hfound] at h
              cases h
            · rw [hraise] at h
              cases h
              exact ⟨_, _, rfl⟩
          · simp only [hraise, bind, Except.bind] at h
            cases h
            exact ⟨_, _, rfl⟩
      · cases h
        exact ⟨_, _, rfl⟩

/-- **The loop of the model**, which is granted rounds enough. -/
theorem labelLoop_of_rounds {st : LabelState} {n : ℕ} {r : Except Fault LabelState}
    (h : Rounds (labelStep mem stop) st n r) : ∀ fuel, n ≤ fuel → labelLoop mem stop fuel st = r := by
  induction h with
  | failed hs =>
    intro fuel hfuel
    obtain ⟨fuel, rfl⟩ := Nat.exists_eq_add_of_le' hfuel
    rw [labelLoop, hs]
    rfl
  | done hs =>
    intro fuel hfuel
    obtain ⟨fuel, rfl⟩ := Nat.exists_eq_add_of_le' hfuel
    exact labelLoop_done hs
  | next hs _ ih =>
    intro fuel hfuel
    obtain ⟨fuel, rfl⟩ := Nat.exists_eq_add_of_le' (Nat.le_trans (Nat.le_add_left 1 _) hfuel)
    rw [labelLoop_next hs]
    exact ih fuel (Nat.le_of_succ_le_succ hfuel)

/-- **The label parser ends on every input.** Whatever is in the memory and whatever labels are known,
wherever they are, the loop ends in at most 256 rounds, by success or by an exception. -/
theorem labelHeader_stops (mem : Memory) (buffer size : ℕ) (knownLabels : List StringRef) :
    ∃ n r, n ≤ 256 ∧
      Rounds (labelStep mem (buffer + size)) ⟨buffer, false, [], 0, 0, knownLabels⟩ n r ∧
      (∀ e, r = .error e → ∃ type what, e = warThrow type what) ∧
      labelLoop mem (buffer + size) labelRounds ⟨buffer, false, [], 0, 0, knownLabels⟩ = r := by
  obtain ⟨n, r, hn, hrounds⟩ := exists_rounds LabelState.size size_lt 255
    ⟨buffer, false, [], 0, 0, knownLabels⟩ (Nat.le_add_left ..)
  refine ⟨n, r, hn, hrounds, fun e he => ?_, labelLoop_of_rounds hrounds _ hn⟩
  subst he
  obtain ⟨st, herror⟩ := hrounds.error
  exact labelStep_error herror

end VUbercool.Dns
