import VUbercool.Lib.Octets

/-!
# ASCII letters and digits

* `lower`, `lowered`: the lower case of ASCII letters. `lower_eq_iff`: octets that no letter folds to.
* `isDigit`, `decimalValue`: decimal digits and the number they spell.
* `takeWhile_lowered`: what precedes a separator that is no letter.
-/

namespace Octets

/-- The lower case of an octet. -/
def lower (c : UInt8) : UInt8 := if 65 ≤ c ∧ c ≤ 90 then c + 32 else c

/-- **An octet string without its case.** -/
def lowered (s : Bytes) : Bytes := s.map lower

/-- The octet is no letter, in neither case. -/
def Caseless (x : UInt8) : Prop := (x < 65 ∨ 90 < x) ∧ (x < 97 ∨ 122 < x)

instance (x : UInt8) : Decidable (Caseless x) := inferInstanceAs (Decidable (_ ∧ _))

/-- A digit. -/
def isDigit (c : UInt8) : Bool := 48 ≤ c && c ≤ 57

/-- The number that the digits spell. -/
def decimalValue (s : Bytes) : ℕ := s.foldl (fun n c => 10 * n + (c.toNat - 48)) 0

/-- **Only itself folds to an octet that is no letter.** -/
theorem lower_eq_iff {c x : UInt8} (hx : Caseless x) : lower c = x ↔ c = x := by
  unfold Caseless at hx
  simp only [UInt8.lt_iff_toNat_lt] at hx
  have h65 : UInt8.toNat 65 = 65 := rfl
  have h90 : UInt8.toNat 90 = 90 := rfl
  have h97 : UInt8.toNat 97 = 97 := rfl
  have h122 : UInt8.toNat 122 = 122 := rfl
  unfold lower
  split
  · next h =>
    simp only [UInt8.le_iff_toNat_le] at h
    have hsum : (c + 32).toNat = c.toNat + 32 := by
      rw [UInt8.toNat_add, Nat.mod_eq_of_lt]
      · rfl
      · have h32 : UInt8.toNat 32 = 32 := rfl
        omega
    refine iff_of_false (fun heq => ?_) (fun heq => ?_)
    · rw [← heq, hsum] at hx
      omega
    · rw [← heq] at hx
      omega
  · exact Iff.rfl

theorem lower_of_caseless {x : UInt8} (hx : Caseless x) : lower x = x := (lower_eq_iff hx).mpr rfl

theorem lowered_append_cons {x : UInt8} (hx : Caseless x) (s t : Bytes) :
    lowered (s ++ x :: t) = lowered s ++ x :: lowered t := by
  simp [lowered, lower_of_caseless hx]

theorem lowered_of_caseless {s : Bytes} (h : ∀ c ∈ s, Caseless c) : lowered s = s :=
  (List.map_congr_left fun c hc => lower_of_caseless (h c hc)).trans (List.map_id _)

theorem eq_lowered_of_caseless {s : Bytes} (h : ∀ c ∈ lowered s, Caseless c) : s = lowered s := by
  have hall : ∀ c ∈ s, id c = lower c := fun c hc =>
    (lower_eq_iff (h (lower c) (List.mem_map_of_mem hc))).mp rfl
  exact (List.map_id _).symm.trans (List.map_congr_left hall)

theorem caseless_of_isDigit {c : UInt8} (h : isDigit c = true) : Caseless c := by
  unfold isDigit at h
  unfold Caseless
  simp only [Bool.and_eq_true, decide_eq_true_eq, UInt8.le_iff_toNat_le] at h
  simp only [UInt8.lt_iff_toNat_lt]
  have h57 : UInt8.toNat 57 = 57 := rfl
  have h65 : UInt8.toNat 65 = 65 := rfl
  have h97 : UInt8.toNat 97 = 97 := rfl
  omega

/-- What precedes a separator that is no letter. -/
theorem takeWhile_lowered {x : UInt8} (hx : Caseless x) (s : Bytes) :
    (lowered s).takeWhile (· ≠ x) = lowered (s.takeWhile (· ≠ x)) := by
  unfold lowered
  induction s with
  | nil => rfl
  | cons c s ih =>
    by_cases hc : c = x
    · simp [hc, lower_of_caseless hx]
    · have hlower : lower c ≠ x := fun h => hc ((lower_eq_iff hx).mp h)
      simpa [hc, hlower] using ih

theorem mem_lowered {x : UInt8} (hx : Caseless x) (s : Bytes) : x ∈ lowered s ↔ x ∈ s := by
  unfold lowered
  rw [List.mem_map]
  constructor
  · rintro ⟨c, hc, heq⟩
    rwa [← (lower_eq_iff hx).mp heq]
  · exact fun h => ⟨x, h, lower_of_caseless hx⟩

end Octets
