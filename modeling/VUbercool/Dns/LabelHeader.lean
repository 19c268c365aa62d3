import VUbercool.Dns.MessageHeader

/-!
# The question parser

`LabelHeader` and `Question` (`Message.h`).

* `StringRef`: a `boost::string_ref` into the query buffer.
* `labelStep`, `labelLoop`, `LabelHeader.parse`: the constructor of `LabelHeader`; one round of its
  loop, the loop, the constructor.
* `Question.parse`: the constructor of `Question`.
-/

namespace VUbercool.Dns

open Octets

/-- A `boost::string_ref` into the query buffer: the offset of its first character and its text. -/
structure StringRef where
  pos : ℕ
  data : Bytes
  deriving DecidableEq

/-- `v.end()`: the offset past the last character. -/
def StringRef.stop (v : StringRef) : ℕ := v.pos + v.data.length

/-- The `len` octets at `p`. -/
def readBytes (mem : Memory) (p len : ℕ) : Bytes := (List.range len).map fun i => mem (p + i)

@[simp] theorem length_readBytes (mem : Memory) (p len : ℕ) : (readBytes mem p len).length = len := by
  simp [readBytes]

/-- The octets `b` are in memory at `p`. -/
def Holds (mem : Memory) (p : ℕ) (b : Bytes) : Prop := readBytes mem p b.length = b

instance (mem : Memory) (p : ℕ) (b : Bytes) : Decidable (Holds mem p b) := instDecidableEqList _ _

theorem readBytes_succ (mem : Memory) (p len : ℕ) :
    readBytes mem p (len + 1) = mem p :: readBytes mem (p + 1) len := by
  simp only [readBytes, List.range_succ_eq_map, List.map_cons, List.map_map, Nat.add_zero]
  congr 1
  refine List.map_congr_left fun i _ => ?_
  show mem (p + (i + 1)) = mem (p + 1 + i)
  congr 1; omega

theorem holds_nil (mem : Memory) (p : ℕ) : Holds mem p [] := rfl

theorem holds_cons {mem : Memory} {p : ℕ} {c : UInt8} {b : Bytes} :
    Holds mem p (c :: b) ↔ mem p = c ∧ Holds mem (p + 1) b := by
  rw [Holds, List.length_cons, readBytes_succ, List.cons.injEq, Holds]

theorem holds_append {mem : Memory} {p : ℕ} {a b : Bytes} :
    Holds mem p (a ++ b) ↔ Holds mem p a ∧ Holds mem (p + a.length) b := by
  induction a generalizing p with
  | nil => simp [holds_nil]
  | cons c a ih =>
    rw [List.cons_append, holds_cons, holds_cons, ih, and_assoc, List.length_cons,
      show p + (a.length + 1) = p + 1 + a.length by omega]

theorem holds_of_forall {mem : Memory} {p : ℕ} {b : Bytes}
    (h : ∀ i (hi : i < b.length), mem (p + i) = b[i]) : Holds mem p b :=
  List.ext_getElem (by simp) fun i _ h2 => by simp [readBytes, h i h2]

theorem holds_memoryOf (pre a post : Bytes) : Holds (memoryOf (pre ++ (a ++ post))) pre.length a :=
  holds_of_forall fun i hi => by
    rw [memoryOf, List.getD, List.getElem?_append_right (by omega), Nat.add_sub_cancel_left,
      List.getElem?_append_left hi, List.getElem?_eq_getElem hi, Option.getD_some]

theorem word_of_holds {mem : Memory} {p : ℕ} {v : UInt16} (h : Holds mem p (be16 v)) :
    ntohs (load16 mem p) = v := by
  rw [be16, holds_cons, holds_cons] at h
  rw [ntohs_load16, h.1, h.2.1]
  exact ofBe16_be16 v

theorem MessageHeader.ofBuffer_of_holds {mem : Memory} {n : ℕ} {h : MessageHeader}
    (hm : Holds mem 0 h.octets) (hn : 12 ≤ n) : MessageHeader.ofBuffer mem n = .ok h := by
  simp only [octets, store16_htons, holds_append, length_be16, List.length_append] at hm
  obtain ⟨⟨⟨⟨⟨h0, h2⟩, h4⟩, h6⟩, h8⟩, h10⟩ := hm
  rw [ofBuffer, if_neg (by rw [MessageHeader.size]; omega), word_of_holds h0, word_of_holds h2,
    word_of_holds h4, word_of_holds h6, word_of_holds h8, word_of_holds h10]

theorem MessageHeader.holds_of_ofBuffer {mem : Memory} {n : ℕ} {h : MessageHeader}
    (hp : MessageHeader.ofBuffer mem n = .ok h) : 12 ≤ n ∧ Holds mem 0 h.octets := by
  rw [ofBuffer] at hp
  split_ifs at hp with hn
  cases hp
  refine ⟨Nat.le_of_not_lt hn, ?_⟩
  simp only [octets, store16_htons, ntohs_load16, be16_ofBe16]
  rfl

theorem MessageHeader.ofBuffer_append (h : MessageHeader) (body : Bytes) :
    MessageHeader.ofBuffer (memoryOf (h.octets ++ body)) (h.octets ++ body).length = .ok h :=
  ofBuffer_of_holds (by simpa using holds_memoryOf [] h.octets body) (by simp)

/-- The label at `p`. -/
def labelAt (mem : Memory) (p len : ℕ) : StringRef := ⟨p, readBytes mem p len⟩

@[simp] theorem stop_labelAt (mem : Memory) (p len : ℕ) : (labelAt mem p len).stop = p + len := by
  simp [labelAt, StringRef.stop]

/-- `[a-z0-9\.\-]`, ignoring case. -/
def isLabelChar (c : UInt8) : Bool :=
  (97 ≤ c && c ≤ 122) || (65 ≤ c && c ≤ 90) || (48 ≤ c && c ≤ 57) || c == 46 || c == 45

/-- `boost::regex_match` with `[a-z0-9\.\-]+`. -/
def matchesPat (label : Bytes) : Bool := !label.isEmpty && label.all isLabelChar

/-! ## `LabelHeader` -/

/-- The local variables and the members of the constructor's loop. -/
structure LabelState where
  p : ℕ
  isTraversingPointer : Bool
  names : List StringRef
  size : ℕ
  bufferSize : ℕ
  knownLabels : List StringRef
  deriving DecidableEq

/-- `FindPointer`. -/
def findPointer (pointer : UInt16) (labels : List StringRef) : Except Fault StringRef :=
  match labels.find? fun v => v.pos == pointer.toNat with
  | some v => .ok v
  | none => .error (warThrow .illegalPointereException
      "Invalid label pointer (potential hostile request)!")

/-- `ValidateSize`. -/
def validateSize (size : ℕ) : Except Fault Unit :=
  if size > 255 then
    .error (warThrow .labelHeaderException "The labels exeeds the 255 bytes limit")
  else .ok ()

/-- **One round of the loop** in the constructor of `LabelHeader`, in the segment that ends at `stop`;
`true` where the loop breaks. -/
def labelStep (mem : Memory) (stop : ℕ) (st : LabelState) : Except Fault (Bool × LabelState) :=
  if mem st.p = 0 then do
    let st := { st with
      size := st.size + 1
      bufferSize := if st.isTraversingPointer then st.bufferSize else st.bufferSize + 1 }
    validateSize st.size
    if st.names.isEmpty then
      .error (warThrow .noLabelsException "No labels found in header")
    else .ok (true, st)
  else
    let len := (mem st.p).toNat
    if len < 64 then do
      let p := st.p + 1
      let labelEnd := p + len
      if labelEnd > stop then
        .error (warThrow .labelHeaderException
          "Buffer underflow in label (potential hostile request)")
      else do
        let st := { st with size := st.size + len }
        validateSize st.size
        let label := labelAt mem p len
        let st := { st with
          bufferSize := if st.isTraversingPointer then st.bufferSize else st.bufferSize + (len + 1)
          knownLabels := if st.isTraversingPointer then st.knownLabels else st.knownLabels ++ [label]
          names := st.names ++ [label] }
        if matchesPat label.data then .ok (false, { st with p := labelEnd })
        else .error (warThrow .illegalLabelException "Invalid char in label")
    else if (mem st.p) &&& 0xC0 = 0xC0 then do
      if st.p + 1 ≥ stop then
        .error (warThrow .labelHeaderException
          "Buffer underflow in label (potential hostile request")
      else do
        let st := { st with size := st.size + 2 }
        validateSize st.size
        let st := { st with
          bufferSize := if st.isTraversingPointer then st.bufferSize else st.bufferSize + 2 }
        -- no `ntohs` here: the two octets are taken in host order
        let pointer := load16 mem st.p &&& ~~~0xC000
        let label ← findPointer pointer st.knownLabels
        .ok (false, { st with
          names := st.names ++ [label], isTraversingPointer := true, p := label.stop })
    else .error (warThrow .labelHeaderException "Invalid label length!")

/-- The loop, for at most `fuel` rounds. -/
def labelLoop (mem : Memory) (stop : ℕ) : ℕ → LabelState → Except Fault LabelState
  | 0, _ => .error .diverged
  | fuel + 1, st => do
    let (done, st) ← labelStep mem stop st
    if done then .ok st else labelLoop mem stop fuel st

/-- `LabelHeader`. -/
structure LabelHeader where
  names : List StringRef
  size : ℕ
  bufferSize : ℕ
  deriving DecidableEq

/-- The rounds granted to the loop: each adds an octet to `size_`, which may not pass 255. -/
def labelRounds : ℕ := 256

/-- The constructor of `LabelHeader` for the segment of `size` octets at `buffer`: the header, and the
known labels it leaves. -/
def LabelHeader.parse (mem : Memory) (buffer size : ℕ) (knownLabels : List StringRef) :
    Except Fault (LabelHeader × List StringRef) :=
  if size < 1 then
    .error (warThrow .labelHeaderException "Label-length underflow")
  else do
    let st ← labelLoop mem (buffer + size) labelRounds
      { p := buffer, isTraversingPointer := false, names := [], size := 0, bufferSize := 0,
        knownLabels := knownLabels }
    .ok (⟨st.names, st.size, st.bufferSize⟩, st.knownLabels)

/-- `GetLabels`, as texts. -/
def LabelHeader.getLabels (h : LabelHeader) : List Bytes := h.names.map StringRef.data

/-- `GetSize`. -/
def LabelHeader.getSize (h : LabelHeader) : ℕ := h.bufferSize

/-! ## `Question` -/

/-- `Question`. -/
structure Question extends LabelHeader where
  qtype : UInt16
  qclass : UInt16
  offset : UInt16
  deriving DecidableEq

/-- The constructor of `Question`. -/
def Question.parse (mem : Memory) (buffer size : ℕ) (knownLabels : List StringRef)
    (offsetIntoReplyBuffer : UInt16) : Except Fault (Question × List StringRef) := do
  let (header, knownLabels) ← LabelHeader.parse mem buffer size knownLabels
  let stop := buffer + size
  let start := buffer + header.getSize
  if start + 4 > stop then
    .error (warThrow .questionHeaderException "Buffer underflow")
  else
    .ok ({ toLabelHeader := header
           qtype := ntohs (load16 mem start)
           qclass := ntohs (load16 mem (start + 2))
           offset := offsetIntoReplyBuffer }, knownLabels)

/-- `Question::GetSize`. -/
def Question.getSize (q : Question) : ℕ := q.toLabelHeader.getSize + 4

end VUbercool.Dns
