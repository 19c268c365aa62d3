import VUbercool.Lib.DomainName

/-!
# Messages

Messages as RFC 1035 section 4.1 stores them: a header of twelve octets, questions and resource
records of three sections.

* `Question`, `Record`, `Message`: the contents of a message.
* `QuestionAt`, `RecordAt`, `Stored`: what is stored where, for any view of the message.
* `readQuestion`, `readRecord`, `readMany`, `decode`: the decoder, and that it reads what is stored.
-/

namespace Rfc1035

open Octets

/-! ## Contents -/

/-- A question: RFC 1035 section 4.1.2. -/
structure Question where
  name : List Label
  qtype : UInt16
  qclass : UInt16
  deriving DecidableEq

/-- The data of a resource record, by type. -/
inductive RData where
  | a (ip : UInt32)
  | ns (name : List Label)
  | cname (name : List Label)
  | soa (mname rname : List Label) (serial refresh retry expire minimum : UInt32)
  | mx (preference : UInt16) (exchange : List Label)
  | other (type : UInt16) (octets : Bytes)
  deriving DecidableEq

/-- A resource record: RFC 1035 section 4.1.3. The constructor of `data` is the TYPE. RDLENGTH only
says where the data ends: the decoder refuses a record whose data does not end there. -/
structure Record where
  owner : List Label
  class_ : UInt16
  ttl : UInt32
  data : RData
  deriving DecidableEq

/-- The header: RFC 1035 section 4.1.1. -/
structure Header where
  id : UInt16
  flags : UInt16
  qdcount : UInt16
  ancount : UInt16
  nscount : UInt16
  arcount : UInt16
  deriving DecidableEq

/-- A message. -/
structure Message where
  header : Header
  questions : List Question
  answers : List Record
  authority : List Record
  additional : List Record
  deriving DecidableEq

/-! ## What is stored where -/

/-- At `off` the question `q` is stored, up to `next`. -/
def QuestionAt (m : View) (off : ℕ) (q : Question) (next : ℕ) : Prop :=
  ∃ e, NameAt m off off q.name e ∧ u16 m e = some q.qtype ∧ u16 m (e + 2) = some q.qclass ∧
    next = e + 4

/-- At `off` data of type `type` is stored, in exactly the octets up to `stop`. -/
inductive RDataAt (m : View) (off stop : ℕ) : UInt16 → RData → Prop
  | a {ip : UInt32} : u32 m off = some ip → stop = off + 4 → RDataAt m off stop 1 (.a ip)
  | ns {ls : List Label} : NameAt m off off ls stop → RDataAt m off stop 2 (.ns ls)
  | cname {ls : List Label} : NameAt m off off ls stop → RDataAt m off stop 5 (.cname ls)
  | soa {ms rs : List Label} {e f : ℕ} {v1 v2 v3 v4 v5 : UInt32} :
      NameAt m off off ms e → NameAt m e e rs f → u32 m f = some v1 → u32 m (f + 4) = some v2 →
      u32 m (f + 8) = some v3 → u32 m (f + 12) = some v4 → u32 m (f + 16) = some v5 →
      stop = f + 20 → RDataAt m off stop 6 (.soa ms rs v1 v2 v3 v4 v5)
  | mx {p : UInt16} {ls : List Label} : u16 m off = some p → NameAt m (off + 2) (off + 2) ls stop →
      RDataAt m off stop 15 (.mx p ls)

/-- At `off` the record `r` is stored, up to `next`. -/
def RecordAt (m : View) (off : ℕ) (r : Record) (next : ℕ) : Prop :=
  ∃ e type len, NameAt m off off r.owner e ∧ u16 m e = some type ∧
    u16 m (e + 2) = some r.class_ ∧ u32 m (e + 4) = some r.ttl ∧ u16 m (e + 8) = some len ∧
    RDataAt m (e + 10) next type r.data ∧ next = e + 10 + len.toNat

/-- **A run of items**, each with the number of octets it takes. -/
inductive Stored {α : Type} (at_ : ℕ → α → ℕ → Prop) : ℕ → List (α × ℕ) → ℕ → Prop
  | nil {off : ℕ} : Stored at_ off [] off
  | cons {off next stop : ℕ} {x : α} {xs : List (α × ℕ)} : at_ off x next → off ≤ next →
      Stored at_ next xs stop → Stored at_ off ((x, next - off) :: xs) stop

namespace Stored

variable {α : Type} {p p' : ℕ → α → ℕ → Prop}

theorem mono (h : ∀ i x j, p i x j → p' i x j) {off stop : ℕ} {xs : List (α × ℕ)}
    (hs : Stored p off xs stop) : Stored p' off xs stop := by
  induction hs with
  | nil => exact nil
  | cons hx hle _ ih => exact cons (h _ _ _ hx) hle ih

theorem split {off stop : ℕ} {ys : List (α × ℕ)} : ∀ {xs : List (α × ℕ)},
    Stored p off (xs ++ ys) stop → ∃ mid, Stored p off xs mid ∧ Stored p mid ys stop
  | [], h => ⟨off, nil, h⟩
  | x :: xs, h => by
    cases h with
    | cons hx hle h =>
      obtain ⟨mid, h1, h2⟩ := split h
      exact ⟨mid, cons hx hle h1, h2⟩

end Stored

theorem RDataAt.mono {m m' : View} (hm : m.Le m') {off stop : ℕ} {type : UInt16} {d : RData}
    (h : RDataAt m off stop type d) : RDataAt m' off stop type d := by
  cases h with
  | a h1 h2 => exact .a (u32_mono hm h1) h2
  | ns h => exact .ns (h.mono hm)
  | cname h => exact .cname (h.mono hm)
  | soa h1 h2 h3 h4 h5 h6 h7 h8 =>
    exact .soa (h1.mono hm) (h2.mono hm) (u32_mono hm h3) (u32_mono hm h4) (u32_mono hm h5)
      (u32_mono hm h6) (u32_mono hm h7) h8
  | mx h1 h2 => exact .mx (u16_mono hm h1) (h2.mono hm)

theorem RecordAt.mono {m m' : View} (hm : m.Le m') {off next : ℕ} {r : Record}
    (h : RecordAt m off r next) : RecordAt m' off r next := by
  obtain ⟨e, type, len, h1, h2, h3, h4, h5, h6, h7⟩ := h
  exact ⟨e, type, len, h1.mono hm, u16_mono hm h2, u16_mono hm h3, u32_mono hm h4, u16_mono hm h5,
    h6.mono hm, h7⟩

theorem QuestionAt.mono {m m' : View} (hm : m.Le m') {off next : ℕ} {q : Question}
    (h : QuestionAt m off q next) : QuestionAt m' off q next := by
  obtain ⟨e, h1, h2, h3, h4⟩ := h
  exact ⟨e, h1.mono hm, u16_mono hm h2, u16_mono hm h3, h4⟩

/-! ## Questions without compression -/

/-- A question as it is stored without compression. -/
def encodeQuestion (q : Question) : Bytes :=
  encodeLabels q.name ++ 0 :: (be16 q.qtype ++ be16 q.qclass)

theorem length_encodeQuestion (q : Question) :
    (encodeQuestion q).length = (encodeLabels q.name).length + 5 := by
  simp [encodeQuestion]

theorem questionAt_encode {hole : List ℕ} {q : Question} (hf : Fit q.name) {a c : Bytes}
    (hh : ∀ i, a.length ≤ i → i ∉ hole) :
    QuestionAt (known hole (a ++ encodeQuestion q ++ c)) a.length q
      (a.length + (encodeQuestion q).length) := by
  have hroot : known hole (a ++ encodeQuestion q ++ c)
      (a.length + (encodeLabels q.name).length) = some 0 := by
    have := known_get (a := a ++ encodeLabels q.name) (l := [0])
      (c := be16 q.qtype ++ be16 q.qclass ++ c) (i := 0) (by simp) (hh _ (by simp))
    simpa [encodeQuestion] using this
  have htype : u16 (known hole (a ++ encodeQuestion q ++ c))
      (a.length + (encodeLabels q.name).length + 1) = some q.qtype := by
    have := u16_known (a := a ++ encodeLabels q.name ++ [0]) (v := q.qtype)
      (c := be16 q.qclass ++ c) (fun i hi _ => hh i (by simp at hi; omega))
    simpa [encodeQuestion, Nat.add_assoc] using this
  have hclass : u16 (known hole (a ++ encodeQuestion q ++ c))
      (a.length + (encodeLabels q.name).length + 1 + 2) = some q.qclass := by
    have := u16_known (a := a ++ encodeLabels q.name ++ [0] ++ be16 q.qtype)
      (v := q.qclass) (c := c) (fun i hi _ => hh i (by simp at hi; omega))
    simpa [encodeQuestion, Nat.add_assoc] using this
  refine ⟨a.length + (encodeLabels q.name).length + 1, ?_, htype, hclass, ?_⟩
  · have hname := nameAt_encodeLabels (s := a.length) hf hh (.root (by
        simpa [encodeQuestion] using hroot))
    simpa [encodeQuestion] using hname
  · rw [length_encodeQuestion]; omega

theorem stored_questions {hole : List ℕ} : ∀ {qs : List Question} {a c : Bytes},
    (∀ q ∈ qs, Fit q.name) → (∀ i, a.length ≤ i → i ∉ hole) →
    Stored (QuestionAt (known hole (a ++ qs.flatMap encodeQuestion ++ c))) a.length
      (qs.map fun q => (q, (encodeQuestion q).length))
      (a.length + (qs.flatMap encodeQuestion).length)
  | [], a, c, _, _ => by simpa using Stored.nil
  | q :: qs, a, c, hf, hh => by
    have hq := questionAt_encode
      (c := qs.flatMap encodeQuestion ++ c) (hf q List.mem_cons_self) hh
    have hrest := stored_questions (a := a ++ encodeQuestion q)
      (c := c) (fun x hx => hf x (List.mem_cons_of_mem _ hx))
      (fun i hi => hh i (by rw [List.length_append] at hi; omega))
    rw [List.length_append] at hrest
    have hcons := Stored.cons hq
      (by omega) (by simpa [List.append_assoc] using hrest)
    simpa [List.append_assoc, Nat.add_assoc] using hcons

theorem encodeQuestion_split {qs : List Question} {i : ℕ} {q : Question} (hq : qs[i]? = some q) :
    qs.flatMap encodeQuestion = (qs.take i).flatMap encodeQuestion ++
      (encodeQuestion q ++ (qs.drop (i + 1)).flatMap encodeQuestion) := by
  obtain ⟨hi, rfl⟩ := List.getElem?_eq_some_iff.mp hq
  rw [← List.flatMap_cons, ← List.drop_eq_getElem_cons hi, ← List.flatMap_append,
    List.take_append_drop]

theorem nameAt_question {hole : List ℕ} {qs : List Question} {a c : Bytes} {i : ℕ} {q : Question}
    (hf : ∀ q ∈ qs, Fit q.name) (hh : ∀ i, a.length ≤ i → i ∉ hole) (hq : qs[i]? = some q) :
    ∃ next, NameAt (known hole (a ++ qs.flatMap encodeQuestion ++ c))
      (a.length + ((qs.take i).flatMap encodeQuestion).length)
      (a.length + ((qs.take i).flatMap encodeQuestion).length) q.name next := by
  obtain ⟨e, hn, -⟩ := questionAt_encode
    (a := a ++ (qs.take i).flatMap encodeQuestion) (hf q (List.mem_of_getElem? hq))
    (fun j hj => hh j (by rw [List.length_append] at hj; omega))
  refine ⟨e, ?_⟩
  rw [encodeQuestion_split hq]
  simpa [List.append_assoc] using hn

/-! ## The decoder -/

/-- Decode the question at `off`. -/
def readQuestion (b : Bytes) (off : ℕ) : Option (Question × ℕ) := do
  let (name, e) ← nameAt? b off
  let qtype ← u16 (view b) e
  let qclass ← u16 (view b) (e + 2)
  pure (⟨name, qtype, qclass⟩, e + 4)

/-- Decode the data of type `type` in the octets from `off` up to `stop`. -/
def readRData (b : Bytes) (type : UInt16) (off stop : ℕ) : Option RData :=
  if type = 1 then do
    let ip ← u32 (view b) off
    if stop = off + 4 then pure (.a ip) else none
  else if type = 2 then do
    let (ls, e) ← nameAt? b off
    if e = stop then pure (.ns ls) else none
  else if type = 5 then do
    let (ls, e) ← nameAt? b off
    if e = stop then pure (.cname ls) else none
  else if type = 6 then do
    let (ms, e) ← nameAt? b off
    let (rs, e') ← nameAt? b e
    let v1 ← u32 (view b) e'
    let v2 ← u32 (view b) (e' + 4)
    let v3 ← u32 (view b) (e' + 8)
    let v4 ← u32 (view b) (e' + 12)
    let v5 ← u32 (view b) (e' + 16)
    if stop = e' + 20 then pure (.soa ms rs v1 v2 v3 v4 v5) else none
  else if type = 15 then do
    let p ← u16 (view b) off
    let (ls, e) ← nameAt? b (off + 2)
    if e = stop then pure (.mx p ls) else none
  else do
    let octets ← slice (view b) off (stop - off)
    pure (.other type octets)

/-- Decode the record at `off`. -/
def readRecord (b : Bytes) (off : ℕ) : Option (Record × ℕ) := do
  let (owner, e) ← nameAt? b off
  let type ← u16 (view b) e
  let class_ ← u16 (view b) (e + 2)
  let ttl ← u32 (view b) (e + 4)
  let len ← u16 (view b) (e + 8)
  let data ← readRData b type (e + 10) (e + 10 + len.toNat)
  pure (⟨owner, class_, ttl, data⟩, e + 10 + len.toNat)

/-- Decode `n` items in a row, each with the number of octets it takes. -/
def readMany {α : Type} (read : ℕ → Option (α × ℕ)) : ℕ → ℕ → Option (List (α × ℕ) × ℕ)
  | 0, off => some ([], off)
  | n + 1, off => do
    let (x, next) ← read off
    let (xs, stop) ← readMany read n next
    pure ((x, next - off) :: xs, stop)

/-- Decode the header. -/
def readHeader (b : Bytes) : Option Header := do
  let id ← u16 (view b) 0
  let flags ← u16 (view b) 2
  let qdcount ← u16 (view b) 4
  let ancount ← u16 (view b) 6
  let nscount ← u16 (view b) 8
  let arcount ← u16 (view b) 10
  pure ⟨id, flags, qdcount, ancount, nscount, arcount⟩

/-- **Decode a message**, with no octet left over. -/
def decode (b : Bytes) : Option Message := do
  let h ← readHeader b
  let (qs, o1) ← readMany (readQuestion b) h.qdcount.toNat 12
  let (an, o2) ← readMany (readRecord b) h.ancount.toNat o1
  let (ns, o3) ← readMany (readRecord b) h.nscount.toNat o2
  let (ar, o4) ← readMany (readRecord b) h.arcount.toNat o3
  if o4 = b.length then
    pure ⟨h, qs.map Prod.fst, an.map Prod.fst, ns.map Prod.fst, ar.map Prod.fst⟩
  else none

theorem readQuestion_of_at {b : Bytes} {off next : ℕ} {q : Question}
    (h : QuestionAt (view b) off q next) : readQuestion b off = some (q, next) := by
  obtain ⟨e, h1, h2, h3, rfl⟩ := h
  simp [readQuestion, nameAt?_eq_some h1, h2, h3]

theorem readRData_of_at {b : Bytes} {type : UInt16} {off stop : ℕ} {d : RData}
    (h : RDataAt (view b) off stop type d) : readRData b type off stop = some d := by
  cases h with
  | a h1 h2 => simp [readRData, h1, h2]
  | ns h => simp [readRData, nameAt?_eq_some h]
  | cname h => simp [readRData, nameAt?_eq_some h]
  | soa h1 h2 h3 h4 h5 h6 h7 h8 =>
    simp [readRData, nameAt?_eq_some h1, nameAt?_eq_some h2, h3, h4, h5, h6, h7, h8]
  | mx h1 h2 => simp [readRData, h1, nameAt?_eq_some h2]

theorem readRecord_of_at {b : Bytes} {off next : ℕ} {r : Record}
    (h : RecordAt (view b) off r next) : readRecord b off = some (r, next) := by
  obtain ⟨e, type, len, h1, h2, h3, h4, h5, h6, rfl⟩ := h
  simp [readRecord, nameAt?_eq_some h1, h2, h3, h4, h5, readRData_of_at h6]

theorem readMany_of_stored {α : Type} {r : ℕ → Option (α × ℕ)} {p : ℕ → α → ℕ → Prop}
    (hread : ∀ i x j, p i x j → r i = some (x, j)) {off stop : ℕ} {xs : List (α × ℕ)}
    (h : Stored p off xs stop) : readMany r xs.length off = some (xs, stop) := by
  induction h with
  | nil => rfl
  | cons hx _ _ ih => simp [readMany, hread _ _ _ hx, ih]

/-- **The decoder reads every message** that is stored: a header, questions, and records whose numbers
in the three sections the header tells. -/
theorem decode_of_stored {b : Bytes} {h : Header} {mid : ℕ} {qs : List (Question × ℕ)}
    {xs : List (Record × ℕ)} {an ns ar : List Record} (hh : readHeader b = some h)
    (hq : Stored (QuestionAt (view b)) 12 qs mid) (hr : Stored (RecordAt (view b)) mid xs b.length)
    (hxs : xs.map Prod.fst = an ++ ns ++ ar) (hqd : h.qdcount.toNat = qs.length)
    (han : h.ancount.toNat = an.length) (hns : h.nscount.toNat = ns.length)
    (har : h.arcount.toNat = ar.length) : decode b = some ⟨h, qs.map Prod.fst, an, ns, ar⟩ := by
  obtain ⟨xs₁, xs₂, rfl, hxs₁, rfl⟩ := List.map_eq_append_iff.mp hxs
  obtain ⟨xs₃, xs₄, rfl, rfl, rfl⟩ := List.map_eq_append_iff.mp hxs₁
  obtain ⟨o3, hr, har'⟩ := hr.split
  obtain ⟨o2, han', hns'⟩ := hr.split
  rw [List.length_map] at han hns har
  have hread : ∀ {i j : ℕ} {xs : List (Record × ℕ)}, Stored (RecordAt (view b)) i xs j →
      readMany (readRecord b) xs.length i = some (xs, j) :=
    fun h => readMany_of_stored (r := readRecord b) (fun _ _ _ => readRecord_of_at) h
  have hquestions : readMany (readQuestion b) qs.length 12 = some (qs, mid) :=
    readMany_of_stored (r := readQuestion b) (fun _ _ _ => readQuestion_of_at) hq
  simp [decode, hh, hqd, han, hns, har, hquestions, hread han', hread hns', hread har']

end Rfc1035
