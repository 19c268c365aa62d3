import Mathlib.Data.List.Basic
import Mathlib.Tactic.Common

/-!
# Octets and what is known of them

* `Bytes`, `be16`, `be32`: octet strings and numbers in network order.
* `View`: what is known of a message, an octet or nothing at every offset; `View.Le` orders views by
  how much they know, `known hole b` is the octet string `b` with the offsets in `hole` left open.
* `u16`, `u32`, `slice`: fields of a view. A larger view reads the same fields.
-/

namespace Octets

/-- An octet string. -/
abbrev Bytes : Type := List UInt8

/-! ## The first separator -/

/-- **What precedes the first separator is unique.** -/
theorem append_cons_inj {a : UInt8} : ∀ {u v x y : Bytes}, a ∉ u → a ∉ v →
    (u ++ a :: x = v ++ a :: y ↔ u = v ∧ x = y)
  | [], [], x, y, _, _ => by simp
  | [], b :: v, x, y, _, hv => by
    have hne : a ≠ b := fun h => hv (h ▸ List.mem_cons_self)
    simp [hne]
  | b :: u, [], x, y, hu, _ => by
    have hne : b ≠ a := fun h => hu (h ▸ List.mem_cons_self)
    simp [hne]
  | b :: u, d :: v, x, y, hu, hv => by
    have ih := @append_cons_inj a u v x y (fun h => hu (List.mem_cons_of_mem _ h))
      (fun h => hv (List.mem_cons_of_mem _ h))
    rw [List.cons_append, List.cons_append, List.cons_eq_cons, List.cons_eq_cons, ih, and_assoc]

theorem append_cons_ne {a b : UInt8} (hab : a ≠ b) : ∀ {u v x y : Bytes}, b ∉ u → a ∉ v →
    u ++ a :: x ≠ v ++ b :: y
  | [], [], x, y, _, _ => by simp [hab]
  | [], d :: v, x, y, _, hv => by
    have hne : a ≠ d := fun h => hv (h ▸ List.mem_cons_self)
    simp [hne]
  | d :: u, [], x, y, hu, _ => by
    have hne : d ≠ b := fun h => hu (h ▸ List.mem_cons_self)
    simp [hne]
  | d :: u, e :: v, x, y, hu, hv => by
    intro h
    rw [List.cons_append, List.cons_append, List.cons_eq_cons] at h
    exact append_cons_ne hab (fun h => hu (List.mem_cons_of_mem _ h))
      (fun h => hv (List.mem_cons_of_mem _ h)) h.2

/-! ## Numbers in network order -/

/-- The two octets of `v`, most significant first. -/
def be16 (v : UInt16) : Bytes := [UInt8.ofNat (v.toNat / 256), UInt8.ofNat v.toNat]

/-- The number two octets in network order stand for. -/
def ofBe16 (a b : UInt8) : UInt16 := UInt16.ofNat (a.toNat * 256 + b.toNat)

/-- The four octets of `v`, most significant first. -/
def be32 (v : UInt32) : Bytes :=
  [UInt8.ofNat (v.toNat / 16777216), UInt8.ofNat (v.toNat / 65536), UInt8.ofNat (v.toNat / 256),
    UInt8.ofNat v.toNat]

/-- The number four octets in network order stand for. -/
def ofBe32 (a b c d : UInt8) : UInt32 :=
  UInt32.ofNat (a.toNat * 16777216 + b.toNat * 65536 + c.toNat * 256 + d.toNat)

@[simp] theorem length_be16 (v : UInt16) : (be16 v).length = 2 := rfl
@[simp] theorem length_be32 (v : UInt32) : (be32 v).length = 4 := rfl

theorem ofBe16_be16 (v : UInt16) :
    ofBe16 (UInt8.ofNat (v.toNat / 256)) (UInt8.ofNat v.toNat) = v := by
  have := v.toNat_lt
  apply UInt16.toNat_inj.mp
  simp only [ofBe16, UInt8.toNat_ofNat', UInt16.toNat_ofNat']
  omega

theorem ofBe32_be32 (v : UInt32) :
    ofBe32 (UInt8.ofNat (v.toNat / 16777216)) (UInt8.ofNat (v.toNat / 65536))
      (UInt8.ofNat (v.toNat / 256)) (UInt8.ofNat v.toNat) = v := by
  have := v.toNat_lt
  apply UInt32.toNat_inj.mp
  simp only [ofBe32, UInt8.toNat_ofNat', UInt32.toNat_ofNat']
  omega

theorem toNat_ofBe16 (a b : UInt8) : (ofBe16 a b).toNat = a.toNat * 256 + b.toNat := by
  have := a.toNat_lt
  have := b.toNat_lt
  simp only [ofBe16, UInt16.toNat_ofNat']
  omega

theorem be16_ofBe16 (a b : UInt8) : be16 (ofBe16 a b) = [a, b] := by
  have ha := a.toNat_lt
  have hb := b.toNat_lt
  rw [be16, toNat_ofBe16]
  congr 1
  · apply UInt8.toNat_inj.mp
    rw [UInt8.toNat_ofNat']
    omega
  · congr 1
    apply UInt8.toNat_inj.mp
    rw [UInt8.toNat_ofNat']
    omega

/-! ## Views -/

/-- What is known of a message: the octet at every offset, where it is known. -/
abbrev View : Type := ℕ → Option UInt8

/-- `m'` knows everything that `m` knows. -/
def View.Le (m m' : View) : Prop := ∀ i c, m i = some c → m' i = some c

theorem View.Le.trans {m m' m'' : View} (h : m.Le m') (h' : m'.Le m'') : m.Le m'' :=
  fun i c hc => h' i c (h i c hc)

/-- Everything is known of an octet string. -/
def view (b : Bytes) : View := fun i => b[i]?

/-- The octet string `b` with the offsets in `hole` left open. -/
def known (hole : List ℕ) (b : Bytes) : View := fun i => if i ∈ hole then none else b[i]?

theorem known_nil (b : Bytes) : known [] b = view b := by
  funext i; simp [known, view]

theorem known_of_notMem {hole : List ℕ} {i : ℕ} (h : i ∉ hole) (b : Bytes) :
    known hole b i = b[i]? := if_neg h

theorem known_le_view (hole : List ℕ) (b : Bytes) : (known hole b).Le (view b) := by
  intro i c h
  unfold known at h
  split_ifs at h
  exact h

theorem known_le_append (hole : List ℕ) (b c : Bytes) :
    (known hole b).Le (known hole (b ++ c)) := by
  intro i x h
  unfold known at h ⊢
  split_ifs at h ⊢
  rw [List.getElem?_append_left]
  · exact h
  · exact (List.getElem?_eq_some_iff.mp h).1

theorem hole_lt_append {hole : List ℕ} {b : Bytes} (h : ∀ i ∈ hole, i < b.length) (c : Bytes) :
    ∀ i ∈ hole, i < (b ++ c).length := fun i hi => by
  rw [List.length_append]
  exact Nat.lt_add_right c.length (h i hi)

theorem known_le_widen {hole more : List ℕ} {b : Bytes} (h : ∀ i ∈ more, b.length ≤ i) :
    (known hole b).Le (known (hole ++ more) b) := by
  intro i x hx
  unfold known at hx ⊢
  split_ifs at hx with h1
  have hi := (List.getElem?_eq_some_iff.mp hx).1
  rw [if_neg]
  · exact hx
  · rw [List.mem_append]
    rintro (h2 | h2)
    · exact h1 h2
    · have := h i h2; omega

theorem known_le_of_agree {hole hole' : List ℕ} {b b' : Bytes} (hh : ∀ i, i ∈ hole' → i ∈ hole)
    (h : ∀ i, i ∉ hole → i < b.length → b'[i]? = b[i]?) : (known hole b).Le (known hole' b') := by
  intro i x hx
  unfold known at hx ⊢
  split_ifs at hx with h1
  have hi := (List.getElem?_eq_some_iff.mp hx).1
  rw [if_neg (fun h2 => h1 (hh i h2)), h i h1 hi, hx]

theorem known_le_fill {hole : List ℕ} {a z : Bytes} (v v' : UInt16) :
    (known (hole ++ [a.length, a.length + 1]) (a ++ be16 v ++ z)).Le
      (known hole (a ++ be16 v' ++ z)) := by
  refine known_le_of_agree (fun i hi => List.mem_append_left _ hi) fun i hi _ => ?_
  have h0 : i ≠ a.length := fun e => hi (by simp [e])
  have h1 : i ≠ a.length + 1 := fun e => hi (by simp [e])
  rw [List.append_assoc, List.append_assoc]
  rcases Nat.lt_or_ge i a.length with hlt | hge
  · rw [List.getElem?_append_left hlt, List.getElem?_append_left hlt]
  · obtain ⟨k, rfl⟩ : ∃ k, i = a.length + (k + 2) := ⟨i - a.length - 2, by omega⟩
    have e : ∀ u, (a ++ (be16 u ++ z))[a.length + (k + 2)]? = z[k]? := fun u => by
      rw [List.getElem?_append_right (by omega), Nat.add_sub_cancel_left]
      rfl
    rw [e, e]

theorem lt_of_known {hole : List ℕ} {b : Bytes} {i : ℕ} {c : UInt8} (h : known hole b i = some c) :
    i < b.length :=
  (List.getElem?_eq_some_iff.mp (known_le_view hole b i c h)).1

/-! ## Fields of a view -/

/-- The `n` octets from `off` on. -/
def slice (m : View) : ℕ → ℕ → Option Bytes
  | _, 0 => some []
  | off, n + 1 => do
    let c ← m off
    let cs ← slice m (off + 1) n
    pure (c :: cs)

/-- The 16-bit number at `off`. -/
def u16 (m : View) (off : ℕ) : Option UInt16 := do
  let a ← m off
  let b ← m (off + 1)
  pure (ofBe16 a b)

/-- The 32-bit number at `off`. -/
def u32 (m : View) (off : ℕ) : Option UInt32 := do
  let a ← m off
  let b ← m (off + 1)
  let c ← m (off + 2)
  let d ← m (off + 3)
  pure (ofBe32 a b c d)

theorem slice_succ_eq_some {m : View} {off n : ℕ} {l : Bytes} :
    slice m off (n + 1) = some l ↔
      ∃ c cs, m off = some c ∧ slice m (off + 1) n = some cs ∧ l = c :: cs := by
  cases h : m off <;> cases h' : slice m (off + 1) n <;> simp [slice, h, h', eq_comm]

theorem slice_mono {m m' : View} (hm : m.Le m') : ∀ {n off : ℕ} {l : Bytes},
    slice m off n = some l → slice m' off n = some l
  | 0, _, _, h => h
  | n + 1, off, l, h => by
    obtain ⟨c, cs, hc, hcs, rfl⟩ := slice_succ_eq_some.mp h
    exact slice_succ_eq_some.mpr ⟨c, cs, hm _ _ hc, slice_mono hm hcs, rfl⟩

theorem length_slice {m : View} : ∀ {n off : ℕ} {l : Bytes}, slice m off n = some l → l.length = n
  | 0, _, l, h => by cases h; rfl
  | n + 1, off, l, h => by
    obtain ⟨c, cs, hc, hcs, rfl⟩ := slice_succ_eq_some.mp h
    rw [List.length_cons, length_slice hcs]

theorem slice_eq_some {m : View} : ∀ {l : Bytes} {off : ℕ},
    (∀ i (h : i < l.length), m (off + i) = some l[i]) → slice m off l.length = some l
  | [], _, _ => rfl
  | c :: l, off, h => by
    refine slice_succ_eq_some.mpr ⟨c, l, h 0 (by simp), slice_eq_some fun i hi => ?_, rfl⟩
    have := h (i + 1) (by simpa using hi)
    rwa [show off + (i + 1) = off + 1 + i by omega, List.getElem_cons_succ] at this

theorem slice_get {m : View} : ∀ {n off : ℕ} {l : Bytes}, slice m off n = some l →
    ∀ i, i < n → m (off + i) = l[i]?
  | 0, _, _, _, _, hi => by omega
  | n + 1, off, l, h, i, hi => by
    obtain ⟨c, cs, hc, hcs, rfl⟩ := slice_succ_eq_some.mp h
    cases i with
    | zero => simpa using hc
    | succ i =>
      rw [List.getElem?_cons_succ, ← slice_get hcs i (by omega)]
      congr 1; omega

theorem take_drop_of_slice {b l : Bytes} {off n : ℕ} (h : slice (view b) off n = some l) (hn : 0 < n) :
    off + n ≤ b.length ∧ (b.drop off).take n = l := by
  have hg := slice_get h
  have hl := length_slice h
  have hlast : off + (n - 1) < b.length := by
    have := hg (n - 1) (by omega)
    rw [List.getElem?_eq_getElem (by omega)] at this
    exact (List.getElem?_eq_some_iff.mp this).1
  refine ⟨by omega, List.ext_getElem? fun i => ?_⟩
  by_cases hi : i < n
  · rw [List.getElem?_take_of_lt hi, List.getElem?_drop]
    exact hg i hi
  · rw [List.getElem?_eq_none (by simp; omega), List.getElem?_eq_none (by omega)]

theorem u16_eq_some {m : View} {off : ℕ} {v : UInt16} :
    u16 m off = some v ↔ ∃ a b, m off = some a ∧ m (off + 1) = some b ∧ v = ofBe16 a b := by
  cases h : m off <;> cases h' : m (off + 1) <;> simp [u16, h, h', eq_comm]

theorem u32_eq_some {m : View} {off : ℕ} {v : UInt32} :
    u32 m off = some v ↔ ∃ a b c d, m off = some a ∧ m (off + 1) = some b ∧
      m (off + 2) = some c ∧ m (off + 3) = some d ∧ v = ofBe32 a b c d := by
  cases h : m off <;> cases h1 : m (off + 1) <;> cases h2 : m (off + 2) <;>
    cases h3 : m (off + 3) <;> simp [u32, h, h1, h2, h3, eq_comm]

theorem u16_mono {m m' : View} (hm : m.Le m') {off : ℕ} {v : UInt16} (h : u16 m off = some v) :
    u16 m' off = some v := by
  obtain ⟨a, b, ha, hb, rfl⟩ := u16_eq_some.mp h
  exact u16_eq_some.mpr ⟨a, b, hm _ _ ha, hm _ _ hb, rfl⟩

theorem u32_mono {m m' : View} (hm : m.Le m') {off : ℕ} {v : UInt32} (h : u32 m off = some v) :
    u32 m' off = some v := by
  obtain ⟨a, b, c, d, ha, hb, hc, hd, rfl⟩ := u32_eq_some.mp h
  exact u32_eq_some.mpr ⟨a, b, c, d, hm _ _ ha, hm _ _ hb, hm _ _ hc, hm _ _ hd, rfl⟩

/-! ## Fields of an octet string with holes -/

theorem known_get {hole : List ℕ} {a l c : Bytes} {i : ℕ} (hi : i < l.length)
    (hh : a.length + i ∉ hole) : known hole (a ++ l ++ c) (a.length + i) = some l[i] := by
  rw [known_of_notMem hh, List.append_assoc, List.getElem?_append_right (by omega),
    Nat.add_sub_cancel_left, List.getElem?_append_left hi, List.getElem?_eq_getElem hi]

theorem slice_known {hole : List ℕ} {a l c : Bytes}
    (hh : ∀ i, a.length ≤ i → i < a.length + l.length → i ∉ hole) :
    slice (known hole (a ++ l ++ c)) a.length l.length = some l :=
  slice_eq_some fun i hi => known_get hi (hh _ (by omega) (by omega))

theorem u16_known {hole : List ℕ} {a c : Bytes} {v : UInt16}
    (hh : ∀ i, a.length ≤ i → i < a.length + 2 → i ∉ hole) :
    u16 (known hole (a ++ be16 v ++ c)) a.length = some v := by
  refine u16_eq_some.mpr ⟨_, _, known_get (l := be16 v) (i := 0) (by simp) (hh _ (by omega)
    (by omega)), known_get (l := be16 v) (i := 1) (by simp) (hh _ (by omega) (by omega)), ?_⟩
  exact (ofBe16_be16 v).symm

theorem u32_known {hole : List ℕ} {a c : Bytes} {v : UInt32}
    (hh : ∀ i, a.length ≤ i → i < a.length + 4 → i ∉ hole) :
    u32 (known hole (a ++ be32 v ++ c)) a.length = some v := by
  have g : ∀ i (hi : i < (be32 v).length),
      known hole (a ++ be32 v ++ c) (a.length + i) = some (be32 v)[i] := fun i hi =>
    known_get hi (hh _ (by omega) (by rw [length_be32] at hi; omega))
  refine u32_eq_some.mpr ⟨_, _, _, _, g 0 (by simp), g 1 (by simp), g 2 (by simp),
    g 3 (by simp), ?_⟩
  exact (ofBe32_be32 v).symm

end Octets
