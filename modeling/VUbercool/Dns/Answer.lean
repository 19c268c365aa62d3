import VUbercool.Dns.Zone

/-!
# The reply encoder

`AnswerBase` and the resource records (`Message.h`), and `Store` (`DnsDaemon.cpp`).

* `Wire`: the reply buffer and `label_start_points_`, the offsets of the names written so far.
* `reverseCompare`, `searchForDomainName`: find the longest suffix of a name that is stored already.
* `writeDomainName`, `writeZoneName`, `writeHeader`, `ResourceRecord.write`, `store`.
-/

namespace VUbercool.Dns

open Octets

/-- The reply buffer and `label_start_points_`. -/
structure Wire where
  buffer : Bytes
  labels : List UInt16
  deriving DecidableEq

/-- A computation on the reply buffer. -/
abbrev Writer : Type → Type := Proc Fault Wire

namespace Wire

/-- `buffer.size()`. -/
def size : Writer ℕ := fun w => (.ok w.buffer.length, w)

/-- Append octets to the buffer. -/
def append (octets : Bytes) : Writer Unit := Proc.modify fun w => { w with buffer := w.buffer ++ octets }

/-- Resize the buffer. -/
def resize (n : ℕ) : Writer Unit := Proc.modify fun w => { w with buffer := Dns.resize w.buffer n }

/-- Store octets at an offset of the buffer. -/
def poke (p : ℕ) (octets : Bytes) : Writer Unit :=
  Proc.modify fun w => { w with
    buffer := w.buffer.take p ++ octets ++ w.buffer.drop (p + octets.length) }

theorem size_apply (w : Wire) : size w = (.ok w.buffer.length, w) := rfl

theorem append_apply (octets : Bytes) (w : Wire) :
    append octets w = (.ok (), ⟨w.buffer ++ octets, w.labels⟩) := rfl

theorem resize_add (b : Bytes) (n : ℕ) (ls : List UInt16) :
    resize (b.length + n) ⟨b, ls⟩ = (.ok (), ⟨b ++ List.replicate n 0, ls⟩) := by
  show (Except.ok (), Wire.mk (Dns.resize b (b.length + n)) ls) = _
  rw [Dns.resize, List.take_of_length_le (by omega), Nat.add_sub_cancel_left]

theorem poke_append {a x c y : Bytes} (h : x.length = y.length) (ls : List UInt16) :
    poke a.length y ⟨a ++ (x ++ c), ls⟩ = (.ok (), ⟨a ++ (y ++ c), ls⟩) := by
  show (Except.ok (), Wire.mk ((a ++ (x ++ c)).take a.length ++ y ++
    (a ++ (x ++ c)).drop (a.length + y.length)) ls) = _
  rw [List.take_left, ← h, ← List.append_assoc a x, ← List.length_append, List.drop_left,
    List.append_assoc]

end Wire

/-! ## Reading the buffer -/

/-- Read an octet of the buffer. -/
def octetAt (buffer : Bytes) (p : ℕ) : Except Fault UInt8 :=
  match buffer[p]? with
  | some c => .ok c
  | none => .error .wildRead

/-- Read a `uint16_t` in the buffer. -/
def wordAt (buffer : Bytes) (p : ℕ) : Except Fault UInt16 :=
  if p + 1 < buffer.length then .ok (load16 (memoryOf buffer) p) else .error .wildRead

/-- Read `len` octets of the buffer. -/
def octetsAt (buffer : Bytes) (p len : ℕ) : Except Fault Bytes :=
  if p + len ≤ buffer.length then .ok ((buffer.drop p).take len) else .error .wildRead

/-- What `ReverseCompare` returns, and leaves in its reference arguments. -/
structure Compared where
  matched : Bool
  currFrag : ℤ
  bestMatchedOffset : UInt16
  deriving DecidableEq

/-- `ReverseCompare`, at most `fuel` calls deep. -/
def reverseCompare (buffer : Bytes) (frags : List Bytes) :
    ℕ → UInt16 → ℤ → UInt16 → Except Fault Compared
  | 0, _, _, _ => .error .diverged
  | fuel + 1, label, currFrag, bestMatchedOffset => do
    let labelOffset := label &&& ~~~0xC000
    let c ← octetAt buffer labelOffset.toNat
    let len := c.toNat
    if len = 0 then .ok ⟨true, frags.length, bestMatchedOffset⟩
    else if len < 64 then do
      let r ← reverseCompare buffer frags fuel (label + UInt16.ofNat (len + 1)) currFrag
        bestMatchedOffset
      if r.matched then
        if r.currFrag - 1 < 0 then .ok { r with currFrag := r.currFrag - 1 }
        else do
          let myName ← octetsAt buffer (labelOffset.toNat + 1) len
          if frags[(r.currFrag - 1).toNat]? = some myName then
            .ok ⟨true, r.currFrag - 1, labelOffset⟩
          else .ok { r with matched := false }
      else .ok r
    else if c &&& 0xC0 = 0xC0 then do
      let pointer := ntohs (← wordAt buffer labelOffset.toNat) &&& ~~~0xC000
      reverseCompare buffer frags fuel pointer currFrag bestMatchedOffset
    else .ok ⟨false, currFrag, bestMatchedOffset⟩

/-- The depth granted to `ReverseCompare`. Where it goes next depends on the label alone, so one that
goes deeper than there are labels comes back to one and never ends. -/
def compareDepth : ℕ := 4294967296

/-- The loop of `SearchForDomainName` over the labels; `best` holds `pos` and `labelStart` once
`have_match` is set. -/
def searchLoop (buffer : Bytes) (frags : List Bytes) :
    List UInt16 → Option (ℕ × UInt16) → Except Fault (Option (ℕ × UInt16))
  | [], best => .ok best
  | label :: labels, best => do
    let r ← reverseCompare buffer frags compareDepth label (-1) 0
    if 0 ≤ r.currFrag ∧ r.currFrag < frags.length ∧ ∀ m ∈ best, r.currFrag < m.1 then
      if r.currFrag = 0 then .ok (some (0, r.bestMatchedOffset))
      else searchLoop buffer frags labels (some (r.currFrag.toNat, r.bestMatchedOffset))
    else searchLoop buffer frags labels best

/-- `SearchForDomainName`: the place in `frags` where the best match begins, and its offset. -/
def searchForDomainName (buffer : Bytes) (frags : List Bytes) (labels : List UInt16) :
    Except Fault (Option (ℕ × UInt16)) :=
  searchLoop buffer frags labels none

/-! ## Writing names -/

/-- Fragments as they are pushed to the buffer. -/
def pushFrags (frags : List Bytes) : Bytes := frags.flatMap fun f => UInt8.ofNat f.length :: f

/-- The two-argument `WriteDomainName`: write a name, compressed where possible. -/
def writeDomainName (domainName : Bytes) : Writer ℕ := do
  let w ← Proc.get
  let frags := toFraments domainName
  match ← Proc.ofExcept (searchForDomainName w.buffer frags w.labels) with
  | some (fragIndex, label) =>
    Wire.append (pushFrags (frags.take fragIndex) ++ store16 (htons (label ||| 0xC000)))
  | none => Wire.append (pushFrags frags ++ [0])
  pure ((← Wire.size) - w.buffer.length)

/-- `AddLabelForCompression`: the list with a label in the buffer added. -/
def addLabelForCompression (buffer : Bytes) (labels : List UInt16) (offset : UInt16) :
    Except Fault (List UInt16) := do
  let myOffset := offset ||| 0xC000
  let ofs := (myOffset &&& ~~~0xC000).toNat
  let c ← octetAt buffer ofs
  let dstOffset ← if c &&& 0xC0 = 0xC0 then (wordAt buffer ofs).map ntohs else .ok myOffset
  if dstOffset ∈ labels then .ok labels else .ok (labels ++ [myOffset])

/-- `AddLabelForCompression` on the buffer and its labels. -/
def addLabel (offset : UInt16) : Writer Unit := do
  let w ← Proc.get
  let labels ← Proc.ofExcept (addLabelForCompression w.buffer w.labels offset)
  Proc.modify fun w => { w with labels := labels }

/-- The name the three-argument `WriteDomainName` writes: the labels of the zone follow it unless it is
empty or ends with a dot. -/
def nameInZone (domainName : Bytes) (zone : Option ZonePtr) : Bytes :=
  if !domainName.isEmpty && domainName.getLast? != some 46 then
    (zone.elim [] ZonePtr.labels).foldl (fun myName label => myName ++ 46 :: label) domainName
  else domainName

/-- The three-argument `WriteDomainName`. -/
def writeZoneName (domainName : Bytes) (zone : Option ZonePtr) : Writer ℕ := do
  let startOffset ← Wire.size
  let _ ← writeDomainName (nameInZone domainName zone)
  addLabel (UInt16.ofNat startOffset)
  pure ((← Wire.size) - startOffset)

/-! ## Records -/

/-- `name_ptr_` or `name_`: the owner is an offset in the reply or a name. -/
inductive Owner where
  | namePtr (namePtr : UInt16)
  | name (name : Bytes)
  deriving DecidableEq

/-- The arguments of the constructors of `AnswerBase`. -/
structure AnswerBase where
  owner : Owner
  type : UInt16
  rdlength : UInt16

/-- `orig_len_`, `rdlength_hdr_` and `size_`. -/
structure Written where
  origLen : ℕ
  rdlengthHdr : ℕ
  size : ℕ
  deriving DecidableEq

/-- The first part of `WriteHeader`: the name or the pointer, and room for the ten octets that follow
it. Returns where these begin. -/
def writeOwner : Owner → Writer ℕ
  | .name name => do
    if !name.isEmpty then
      let _ ← writeZoneName name none
    let p ← Wire.size
    Wire.resize (p + 10)
    pure p
  | .namePtr namePtr => do
    let p ← Wire.size
    Wire.resize (p + 12)
    Wire.poke p (store16 (htons (namePtr ||| 0xC000)))
    addLabel (namePtr ||| 0xC000)
    pure (p + 2)

/-- `WriteHeader`. -/
def AnswerBase.writeHeader (a : AnswerBase) : Writer Written := do
  let origLen ← Wire.size
  let p ← writeOwner a.owner
  Wire.poke p (store16 (htons a.type) ++ store16 (htons 1) ++ store32 (htonl 300))
  let n ← Wire.size
  Wire.poke (n - 2) (store16 (htons a.rdlength))
  pure ⟨origLen, n - 2, n - origLen⟩

/-- The end of `Write` where the data has `rdlength` octets. -/
def Written.writeRdlength (a : Written) (rdlength : ℕ) : Writer Written := do
  let rdlength := UInt16.ofNat rdlength
  Wire.poke a.rdlengthHdr (store16 (htons rdlength))
  pure { a with size := a.size + rdlength.toNat }

/-- `RdataA`, `RdataCname`, `RdataMx`, `RdataNs`, `RdataSoa`. -/
inductive ResourceRecord where
  | a (owner : Owner) (ip : AddressV4)
  | cname (namePtr : UInt16) (cname : Bytes)
  | mx (namePtr : UInt16) (fqdn : Bytes) (pri : UInt16)
  | ns (domain fdqn : Bytes)
  | soa (owner : Owner) (zone : ZonePtr)

/-- `soa->GetMname()`: the first `ns` entry. -/
def getMname (zone : Zone) : Except Fault Ns :=
  match zone.ns with
  | ns :: _ => .ok ns
  | [] => .error (warThrow .outOfRange "vector::_M_range_check")

/-- The numerical fields of an SOA record. -/
def Soa.numbers (soa : Soa) : Bytes :=
  store32 (htonl soa.serial) ++ store32 (htonl soa.refresh) ++ store32 (htonl soa.retry) ++
    store32 (htonl soa.expire) ++ store32 (htonl soa.minimum)

/-- The data `RdataMx::Write` writes; returns its length. -/
def writeMxData (fqdn : Bytes) (pri : UInt16) : Writer ℕ := do
  Wire.append (store16 (htons pri))
  let n ← writeZoneName fqdn none
  pure (2 + n)

/-- The data `RdataSoa::Write` writes; returns its length. -/
def writeSoaData (zone : ZonePtr) : Writer ℕ := do
  let origSize ← Wire.size
  match zone.zone.soa with
  | none => Proc.raise .wildRead
  | some s =>
    let mname ← Proc.ofExcept (getMname zone.zone)
    let _ ← writeZoneName mname.fqdn (some zone)
    let _ ← writeZoneName s.rname (some zone)
    Wire.append s.numbers
    pure ((← Wire.size) - origSize)

/-- `Write`. -/
def ResourceRecord.write : ResourceRecord → Writer Written
  | .a owner ip => do
    let a ← AnswerBase.writeHeader ⟨owner, 1, 4⟩
    Wire.append ip.toBytes
    pure { a with size := a.size + 4 }
  | .cname namePtr name => do
    let a ← AnswerBase.writeHeader ⟨.namePtr namePtr, 5, 0⟩
    let n ← writeZoneName name none
    a.writeRdlength n
  | .mx namePtr fqdn pri => do
    let a ← AnswerBase.writeHeader ⟨.namePtr namePtr, 15, 0⟩
    let n ← writeMxData fqdn pri
    a.writeRdlength n
  | .ns domain fdqn => do
    let a ← AnswerBase.writeHeader ⟨.name domain, 2, 0⟩
    let n ← writeZoneName fdqn none
    a.writeRdlength n
  | .soa owner zone => do
    let a ← AnswerBase.writeHeader ⟨owner, 6, 0⟩
    let n ← writeSoaData zone
    a.writeRdlength n

/-- `max_reply_buffer_`. -/
def maxReplyBuffer : ℕ := 512

/-- `Store`, with the limit `max_reply_buffer_` or, where `limit` is `none`, with no limit. Returns
`GetSize()`. -/
def store (limit : Option ℕ) (a : ResourceRecord) : Writer ℕ := do
  let written ← a.write
  let n ← Wire.size
  if ∃ m ∈ limit, m < n then
    Wire.resize written.origLen
    Proc.raise (warThrow .truncated "Truncated reply")
  else pure written.size

end VUbercool.Dns
