import VUbercool.Lib.Octets

/-!
# Files of records

A file is an array of records that have a fixed width.

* `Codec`: how a record is written. `write`, `read`: the file of a list of records, and the records of a
  file.
* **`read_write`**, **`write_read`**: a file of the right length is the same as its records.
* `overwrite`: a file with some octets replaced. **`write_set`**: a record is replaced in its place.
-/

namespace RecordFile

open Octets

/-- **How a record is written**: each string of the right length is a record. -/
structure Codec (α : Type) (width : ℕ) where
  octets : α → Bytes
  ofOctets : Bytes → α
  length_octets : ∀ a, (octets a).length = width
  ofOctets_octets : ∀ a, ofOctets (octets a) = a
  octets_ofOctets : ∀ s, s.length = width → octets (ofOctets s) = s

/-- A file with the octets from an offset on replaced. -/
def overwrite (file : Bytes) (offset : ℕ) (s : Bytes) : Bytes :=
  file.take offset ++ (s ++ file.drop (offset + s.length))

theorem length_overwrite {file s : Bytes} {offset : ℕ} (h : offset + s.length ≤ file.length) :
    (overwrite file offset s).length = file.length := by
  simp only [overwrite, List.length_append, List.length_take, List.length_drop]
  omega

namespace Codec

variable {α : Type} {width : ℕ} (c : Codec α width)

/-- The file of some records. -/
def write (as : List α) : Bytes := as.flatMap c.octets

/-- The records of a file. -/
def read : ℕ → Bytes → List α
  | 0, _ => []
  | n + 1, file => c.ofOctets (file.take width) :: read n (file.drop width)

@[simp] theorem write_cons (a : α) (as : List α) : c.write (a :: as) = c.octets a ++ c.write as := rfl

@[simp] theorem length_write (as : List α) : (c.write as).length = width * as.length := by
  induction as with
  | nil => rfl
  | cons a as ih =>
    rw [write_cons, List.length_append, c.length_octets, ih, List.length_cons, Nat.mul_succ, Nat.add_comm]

@[simp] theorem length_read : ∀ (n : ℕ) (file : Bytes), (c.read n file).length = n
  | 0, _ => rfl
  | n + 1, file => congrArg (· + 1) (length_read n (file.drop width))

/-- **Records that are written are read.** -/
theorem read_write (as : List α) : c.read as.length (c.write as) = as := by
  induction as with
  | nil => rfl
  | cons a as ih =>
    have hwidth : (c.octets a).length = width := c.length_octets a
    rw [List.length_cons, read, write_cons, List.take_left' hwidth, List.drop_left' hwidth,
      c.ofOctets_octets, ih]

/-- **A file is the same after its records are written again.** -/
theorem write_read : ∀ {n : ℕ} {file : Bytes}, file.length = width * n → c.write (c.read n file) = file
  | 0, file, h => (List.length_eq_zero_iff.mp h).symm
  | n + 1, file, h => by
    rw [Nat.mul_succ] at h
    have htake : (file.take width).length = width := by
      rw [List.length_take]
      omega
    have hdrop : (file.drop width).length = width * n := by
      rw [List.length_drop]
      omega
    rw [read, write_cons, c.octets_ofOctets _ htake, write_read hdrop, List.take_append_drop]

/-- **A record is replaced in its place**: the rest of the file stays. -/
theorem write_set {as : List α} {i : ℕ} (h : i < as.length) (a : α) :
    c.write (as.set i a) = overwrite (c.write as) (width * i) (c.octets a) := by
  have hwrite : ∀ bs ds : List α, c.write (bs ++ ds) = c.write bs ++ c.write ds := fun bs ds =>
    List.flatMap_append
  have hsplit : as = as.take i ++ (as[i] :: as.drop (i + 1)) := by
    rw [← List.drop_eq_getElem_cons h, List.take_append_drop]
  have htake : (c.write (as.take i)).length = width * i := by
    rw [length_write, List.length_take, Nat.min_eq_left (Nat.le_of_lt h)]
  have hprefix : (c.write as).take (width * i) = c.write (as.take i) := by
    conv_lhs => rw [hsplit, hwrite]
    exact List.take_left' htake
  have hsuffix : (c.write as).drop (width * i + (c.octets a).length) = c.write (as.drop (i + 1)) := by
    conv_lhs => rw [hsplit, hwrite, write_cons, ← List.append_assoc]
    apply List.drop_left'
    rw [List.length_append, htake, c.length_octets, c.length_octets]
  rw [overwrite, hprefix, hsuffix, List.set_eq_take_append_cons_drop, if_pos h, hwrite, write_cons]

theorem write_replicate {a : α} {x : UInt8} (ha : c.octets a = List.replicate width x) (n : ℕ) :
    c.write (List.replicate n a) = List.replicate (width * n) x := by
  induction n with
  | zero => rfl
  | succ n ih =>
    rw [List.replicate_succ, write_cons, ih, ha, List.replicate_append_replicate, Nat.mul_succ, Nat.add_comm]

end Codec

end RecordFile
