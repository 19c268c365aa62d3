import VUbercool.Lib.Octets
import VUbercool.Lib.Proc
import Mathlib.Tactic.IntervalCases

/-!
# The host and the message header

* `load16`, `store16`, `htons`, `ntohs`, `htonl`: 16 and 32-bit numbers in the memory of a little-endian
  host, and that a stored `htons v` is `v` in network order (`store16_htons`, `ntohs_load16`).
* `Exception`, `Fault`: what leaves a function other than by `return`.
* `MessageHeader` (`Message.h`): parsing, flags, setters and `write`.
* `getFlag_setFlag`, `setFlag_and`: a setter sets its bit and no other.
-/

namespace VUbercool.Dns

open Octets

/-! ## Numbers in memory -/

/-- Memory: the octet at every offset. Past the end of an object it holds whatever is there. -/
abbrev Memory : Type := ℕ → UInt8

/-- Memory that holds `b` at offset 0, and zeros after it. -/
def memoryOf (b : Bytes) : Memory := fun i => b.getD i 0

/-- Read a `uint16_t`, least significant octet first. -/
def load16 (mem : Memory) (p : ℕ) : UInt16 := UInt16.ofNat ((mem p).toNat + 256 * (mem (p + 1)).toNat)

/-- The octets of a `uint16_t`, least significant first. -/
def store16 (v : UInt16) : Bytes := [UInt8.ofNat v.toNat, UInt8.ofNat (v.toNat / 256)]

/-- The octets of a `uint32_t`, least significant first. -/
def store32 (v : UInt32) : Bytes :=
  [UInt8.ofNat v.toNat, UInt8.ofNat (v.toNat / 256), UInt8.ofNat (v.toNat / 65536),
    UInt8.ofNat (v.toNat / 16777216)]

/-- Swap the octets of a 16-bit number. -/
def ntohs (v : UInt16) : UInt16 := UInt16.ofNat (v.toNat % 256 * 256 + v.toNat / 256)

/-- Swap the octets of a 16-bit number. -/
def htons (v : UInt16) : UInt16 := ntohs v

/-- Reverse the octets of a 32-bit number. -/
def htonl (v : UInt32) : UInt32 :=
  UInt32.ofNat (v.toNat % 256 * 16777216 + v.toNat / 256 % 256 * 65536 +
    v.toNat / 65536 % 256 * 256 + v.toNat / 16777216)

theorem toNat_load16 (mem : Memory) (p : ℕ) :
    (load16 mem p).toNat = (mem p).toNat + 256 * (mem (p + 1)).toNat := by
  have h0 := (mem p).toNat_lt
  have h1 := (mem (p + 1)).toNat_lt
  rw [load16, UInt16.toNat_ofNat']
  omega

theorem ntohs_load16 (mem : Memory) (p : ℕ) : ntohs (load16 mem p) = ofBe16 (mem p) (mem (p + 1)) := by
  have h0 := (mem p).toNat_lt
  have h1 := (mem (p + 1)).toNat_lt
  have hlo : (load16 mem p).toNat % 256 = (mem p).toNat := by rw [toNat_load16]; omega
  have hhi : (load16 mem p).toNat / 256 = (mem (p + 1)).toNat := by rw [toNat_load16]; omega
  rw [ntohs, hlo, hhi, ofBe16]

/-- **A number stored in network order.** -/
theorem store16_htons (v : UInt16) : store16 (htons v) = be16 v := by
  have hv := v.toNat_lt
  have hs : (htons v).toNat = v.toNat % 256 * 256 + v.toNat / 256 := by
    simp only [htons, ntohs, UInt16.toNat_ofNat']; omega
  have hhi : (htons v).toNat % 256 = v.toNat / 256 := by omega
  have hlo : (htons v).toNat / 256 = v.toNat % 256 := by omega
  simp only [store16, be16, hlo, List.cons.injEq, and_true]
  constructor <;> apply UInt8.toNat_inj.mp <;> simp only [UInt8.toNat_ofNat'] <;> omega

theorem digits_of_lt {n : ℕ} (hn : n < 2 ^ 32) : ∃ a b c d, a < 256 ∧ b < 256 ∧ c < 256 ∧
    d < 256 ∧ n = a * 16777216 + b * 65536 + c * 256 + d :=
  ⟨n / 16777216, n / 65536 % 256, n / 256 % 256, n % 256, by omega, by omega, by omega, by omega,
    by omega⟩

theorem digits_eq {n a b c d : ℕ} (hb : b < 256) (hc : c < 256) (hd : d < 256)
    (hn : n = a * 16777216 + b * 65536 + c * 256 + d) : n / 16777216 = a ∧
      n / 65536 % 256 = b ∧ n / 256 % 256 = c ∧ n % 256 = d :=
  ⟨by omega, by omega, by omega, by omega⟩

theorem store32_htonl (v : UInt32) : store32 (htonl v) = be32 v := by
  obtain ⟨a, b, c, d, ha, hb, hc, hd, hv⟩ := digits_of_lt v.toNat_lt
  obtain ⟨e1, e2, e3, e4⟩ := digits_eq hb hc hd hv
  have hs : (htonl v).toNat = d * 16777216 + c * 65536 + b * 256 + a := by
    simp only [htonl, UInt32.toNat_ofNat', e1, e2, e3, e4]
    omega
  obtain ⟨g1, g2, g3, g4⟩ := digits_eq hc hb ha hs
  simp only [store32, be32, List.cons.injEq, and_true]
  refine ⟨?_, ?_, ?_, ?_⟩ <;> apply UInt8.toNat_inj.mp <;>
    simp only [UInt8.toNat_ofNat', e1, e2, e3, e4, g1, g2, g3, g4, Nat.reducePow,
      Nat.mod_eq_of_lt ha, Nat.mod_eq_of_lt hd]

/-- `vector::resize`: cut, or fill up with zeros. -/
def resize (b : Bytes) (n : ℕ) : Bytes := b.take n ++ List.replicate (n - b.length) 0

@[simp] theorem length_resize (b : Bytes) (n : ℕ) : (resize b n).length = n := by
  simp [resize]; omega

theorem resize_of_le {b : Bytes} {n : ℕ} (h : n ≤ b.length) : resize b n = b.take n := by
  simp [resize, Nat.sub_eq_zero_of_le h]

theorem resize_zero (b : Bytes) : resize b 0 = [] := by
  rw [resize_of_le (Nat.zero_le _), List.take_zero]

/-! ## Exceptions -/

/-- The exception classes of `Message.h` and `DnsDaemon.cpp`, and `std::out_of_range`. -/
inductive ExceptionType where
  | messageHeaderException
  | labelHeaderException
  | noLabelsException
  | illegalLabelException
  | illegalPointereException
  | questionHeaderException
  | invalidQuery
  | refused
  | unknownDomain
  | unknownSubDomain
  | noSoaRecord
  | truncated
  | outOfRange
  deriving DecidableEq

/-- An exception with its text. -/
structure Exception where
  type : ExceptionType
  what : String
  deriving DecidableEq

/-- How a function ends other than by `return`: it raises an exception, it runs for ever, or it reads
outside of the reply buffer, which C++ leaves undefined. -/
inductive Fault where
  | raised (ex : Exception)
  | diverged
  | wildRead
  deriving DecidableEq

/-- `WAR_THROW_T`. -/
def warThrow (type : ExceptionType) (what : String) : Fault := .raised ⟨type, what⟩

/-! ## Flags -/

/-- A bit of the flags. -/
def getFlag (bit : UInt16) (flags : UInt16) : Bool := (flags &&& (1 <<< bit)) != 0

/-- Set or clear a bit of the flags. -/
def setFlag (bit : UInt16) (b : Bool) (flags : UInt16) : UInt16 :=
  let flags := flags &&& ~~~(1 <<< bit)
  if b then flags ||| (1 <<< bit) else flags

theorem clear_and (f m : UInt16) : (f &&& ~~~m) &&& m = 0 := by
  apply UInt16.toBitVec_inj.mp
  simp only [UInt16.toBitVec_and, UInt16.toBitVec_not]
  ext i hi
  simp

theorem set_and (f m : UInt16) : (f ||| m) &&& m = m := by
  apply UInt16.toBitVec_inj.mp
  simp only [UInt16.toBitVec_and, UInt16.toBitVec_or]
  ext i hi
  simp
  tauto

theorem or_and_right (a b m : UInt16) : (a ||| b) &&& m = (a &&& m) ||| (b &&& m) := by
  apply UInt16.toBitVec_inj.mp
  simp only [UInt16.toBitVec_and, UInt16.toBitVec_or]
  ext i hi
  simp [Bool.and_or_distrib_right]

theorem clear_and_of_disjoint {m m' : UInt16} (h : m &&& m' = 0) (f : UInt16) :
    (f &&& ~~~m) &&& m' = f &&& m' := by
  apply UInt16.toBitVec_inj.mp
  have h := congrArg UInt16.toBitVec h
  simp only [UInt16.toBitVec_and, UInt16.toBitVec_not] at h ⊢
  ext i hi
  have h := congrArg (·.getLsbD i) h
  simp at h ⊢
  grind

theorem set_and_of_disjoint {m m' : UInt16} (h : m &&& m' = 0) (f : UInt16) :
    (f ||| m) &&& m' = f &&& m' := by
  apply UInt16.toBitVec_inj.mp
  have h := congrArg UInt16.toBitVec h
  simp only [UInt16.toBitVec_and, UInt16.toBitVec_or] at h ⊢
  ext i hi
  have h := congrArg (·.getLsbD i) h
  simp at h ⊢
  grind

theorem clear_or (f m : UInt16) : (f &&& ~~~m) ||| m = f ||| m := by
  apply UInt16.toBitVec_inj.mp
  simp only [UInt16.toBitVec_and, UInt16.toBitVec_or, UInt16.toBitVec_not]
  ext i hi
  simp
  grind

theorem or_clear (f m : UInt16) : (f ||| m) &&& ~~~m = f &&& ~~~m := by
  apply UInt16.toBitVec_inj.mp
  simp only [UInt16.toBitVec_and, UInt16.toBitVec_or, UInt16.toBitVec_not]
  ext i hi
  simp
  grind

/-- A setter leaves every field alone that does not contain its bit. -/
theorem setFlag_and {bit field : UInt16} (h : 1 <<< bit &&& field = 0) (b : Bool) (flags : UInt16) :
    setFlag bit b flags &&& field = flags &&& field := by
  cases b with
  | false => exact clear_and_of_disjoint h flags
  | true =>
    show ((flags &&& ~~~(1 <<< bit)) ||| 1 <<< bit) &&& field = _
    rw [set_and_of_disjoint h, clear_and_of_disjoint h]

theorem getFlag_setFlag {bit : UInt16} (h : (1 : UInt16) <<< bit ≠ 0) (b : Bool) (flags : UInt16) :
    getFlag bit (setFlag bit b flags) = b := by
  cases b with
  | false => simp [getFlag, setFlag, clear_and]
  | true => simpa [getFlag, setFlag, set_and] using h

theorem getFlag_congr {bit f f' : UInt16} (h : f &&& 1 <<< bit = f' &&& 1 <<< bit) :
    getFlag bit f = getFlag bit f' := by
  rw [getFlag, getFlag, h]

theorem getFlag_setFlag_of_ne {bit bit' : UInt16} (h : (1 : UInt16) <<< bit &&& 1 <<< bit' = 0)
    (b : Bool) (flags : UInt16) : getFlag bit' (setFlag bit b flags) = getFlag bit' flags :=
  getFlag_congr (setFlag_and h b flags)

/-! ## Pointers -/

theorem and_0xC0_eq_iff (c : UInt8) : c &&& 0xC0 = 0xC0 ↔ 192 ≤ c := by
  have h : ∀ n : Fin 256, (UInt8.ofNat n.val &&& 0xC0 = 0xC0 ↔ 192 ≤ UInt8.ofNat n.val) := by
    decide +kernel
  have := h ⟨c.toNat, c.toNat_lt⟩
  rwa [UInt8.ofNat_toNat] at this

theorem toNat_mask (p : UInt16) : (p &&& ~~~0xC000).toNat = p.toNat % 0x4000 := by
  rw [show (~~~0xC000 : UInt16) = 0x3FFF from rfl, UInt16.toNat_and]
  exact Nat.and_two_pow_sub_one_eq_mod p.toNat 14

theorem toNat_or (p : UInt16) : (p ||| 0xC000).toNat = 0xC000 + p.toNat % 0x4000 := by
  have hlt : p.toNat % 0x4000 < 2 ^ 14 := Nat.mod_lt _ (by decide)
  rw [← clear_or, UInt16.toNat_or, toNat_mask, Nat.or_comm]
  exact (Nat.two_pow_add_eq_or_of_lt hlt 3).symm

theorem toNat_or_mod (p : UInt16) : (p ||| 0xC000).toNat % 0x4000 = p.toNat % 0x4000 := by
  rw [toNat_or]; omega

/-! ## The message header -/

/-- Response codes. -/
inductive Rcode where
  | ok | formatError | serverFailure | nameError | notImplemented | refused
  deriving DecidableEq

/-- The number of a response code. -/
def Rcode.toUInt16 : Rcode → UInt16
  | ok => 0
  | formatError => 1
  | serverFailure => 2
  | nameError => 3
  | notImplemented => 4
  | refused => 5

/-- `MessageHeader`: the header fields in native byte order. -/
structure MessageHeader where
  id : UInt16
  flags : UInt16
  qdcount : UInt16
  ancount : UInt16
  nscount : UInt16
  arcount : UInt16
  deriving DecidableEq

namespace MessageHeader

/-- The length of the header. -/
def size : ℕ := 2 * 6

/-- The constructor: parse the header at the start of `buffer`. -/
def ofBuffer (buffer : Memory) (size : ℕ) : Except Fault MessageHeader :=
  if size < MessageHeader.size then
    .error (warThrow .messageHeaderException "Header-length underflow")
  else
    .ok
      { id := ntohs (load16 buffer 0)
        flags := ntohs (load16 buffer 2)
        qdcount := ntohs (load16 buffer 4)
        ancount := ntohs (load16 buffer 6)
        nscount := ntohs (load16 buffer 8)
        arcount := ntohs (load16 buffer 10) }

variable (h : MessageHeader)

def getQr : Bool := getFlag 15 h.flags
def getOpcode : UInt16 := (h.flags >>> 11) &&& 0xF
def getAa : Bool := getFlag 10 h.flags
def getTc : Bool := getFlag 9 h.flags
def getRd : Bool := getFlag 8 h.flags
def getRcode : UInt16 := h.flags &&& 0xF

def setQr (qr : Bool) : MessageHeader := { h with flags := setFlag 15 qr h.flags }
def setTc (tc : Bool) : MessageHeader := { h with flags := setFlag 9 tc h.flags }
def setRa (ra : Bool) : MessageHeader := { h with flags := setFlag 7 ra h.flags }
def setAa (aa : Bool) : MessageHeader := { h with flags := setFlag 10 aa h.flags }

def setRcode (rcode : Rcode) : MessageHeader :=
  { h with flags := (h.flags &&& ~~~0xF) ||| (rcode.toUInt16 &&& 0xF) }

def setQdCount (val : UInt16) : MessageHeader := { h with qdcount := val }
def setAnCount (val : UInt16) : MessageHeader := { h with ancount := val }
def setNsCount (val : UInt16) : MessageHeader := { h with nscount := val }
def setArCount (val : UInt16) : MessageHeader := { h with arcount := val }

def resetAllCounters : MessageHeader :=
  { h with qdcount := 0, ancount := 0, nscount := 0, arcount := 0 }

/-- The octets `Write` stores. -/
def octets : Bytes :=
  store16 (htons h.id) ++ store16 (htons h.flags) ++ store16 (htons h.qdcount) ++
    store16 (htons h.ancount) ++ store16 (htons h.nscount) ++ store16 (htons h.arcount)

/-- `Write`: store the header over the first octets of `buffer`. -/
def write (buffer : Bytes) : Bytes := h.octets ++ buffer.drop size

@[simp] theorem length_octets : h.octets.length = 12 := rfl

theorem length_write {buffer : Bytes} (hb : 12 ≤ buffer.length) :
    (h.write buffer).length = buffer.length := by
  simp [write, size]; omega

theorem opcode_eq (f : UInt16) : (f >>> 11) &&& (0xF : UInt16) = (f &&& 0x7800) >>> 11 := by
  apply UInt16.toBitVec_inj.mp
  simp only [UInt16.toBitVec_and, UInt16.toBitVec_shiftRight]
  ext i hi
  simp
  interval_cases i <;> simp

theorem getOpcode_congr {h h' : MessageHeader} (hf : h.flags &&& 0x7800 = h'.flags &&& 0x7800) :
    h.getOpcode = h'.getOpcode := by
  rw [getOpcode, getOpcode, opcode_eq, opcode_eq, hf]

theorem setRcode_and {field : UInt16} (hf : 0xF &&& field = 0) (rcode : Rcode) :
    (h.setRcode rcode).flags &&& field = h.flags &&& field := by
  have hr : (rcode.toUInt16 &&& 0xF) &&& field = 0 := by
    rw [UInt16.and_assoc, hf, UInt16.and_zero]
  show ((h.flags &&& ~~~0xF) ||| (rcode.toUInt16 &&& 0xF)) &&& field = _
  rw [set_and_of_disjoint hr, clear_and_of_disjoint hf]

theorem getRcode_setRcode (rcode : Rcode) : (h.setRcode rcode).getRcode = rcode.toUInt16 := by
  have hr : rcode.toUInt16 &&& 0xF = rcode.toUInt16 := by cases rcode <;> decide
  show ((h.flags &&& ~~~0xF) ||| (rcode.toUInt16 &&& 0xF)) &&& 0xF = _
  rw [hr, or_and_right, clear_and, hr, UInt16.zero_or]

end MessageHeader

end VUbercool.Dns
