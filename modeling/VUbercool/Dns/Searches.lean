import VUbercool.Lib.Log
import VUbercool.Dns.Daemon

/-!
# The calls of `SearchForDomainName`

The server with a log of its calls of `SearchForDomainName`. Only the two-argument `WriteDomainName` makes
one; in the namespace `Logged` it enters the call, and what calls it, up to the round of the receive loop, is
repeated with the log.
-/

namespace VUbercool.Dns

open Octets Proc

/-- **A call of `SearchForDomainName`**: the reply buffer and `label_start_points_` then, and the
fragments that are searched for. -/
structure Search where
  wire : Wire
  frags : List Bytes
  deriving DecidableEq

namespace Logged

/-! ## Records -/

abbrev Writer : Type → Type := Proc Fault (Wire × List Search)

/-- The two-argument `WriteDomainName`: its search is entered first. -/
def writeDomainName (domainName : Bytes) : Writer ℕ := do
  note fun w => ⟨w, toFraments domainName⟩
  onFst (Dns.writeDomainName domainName)

def writeZoneName (domainName : Bytes) (zone : Option ZonePtr) : Writer ℕ := do
  let startOffset ← onFst Wire.size
  let _ ← writeDomainName (nameInZone domainName zone)
  onFst (addLabel (UInt16.ofNat startOffset))
  pure ((← onFst Wire.size) - startOffset)

def writeOwner : Owner → Writer ℕ
  | .name name => do
    if !name.isEmpty then
      let _ ← writeZoneName name none
    let p ← onFst Wire.size
    onFst (Wire.resize (p + 10))
    pure p
  | .namePtr namePtr => onFst (Dns.writeOwner (.namePtr namePtr))

def writeHeader (a : AnswerBase) : Writer Written := do
  let origLen ← onFst Wire.size
  let p ← writeOwner a.owner
  onFst (Wire.poke p (store16 (htons a.type) ++ store16 (htons 1) ++
    store32 (htonl 300)))
  let n ← onFst Wire.size
  onFst (Wire.poke (n - 2) (store16 (htons a.rdlength)))
  pure ⟨origLen, n - 2, n - origLen⟩

def writeMxData (fqdn : Bytes) (pri : UInt16) : Writer ℕ := do
  onFst (Wire.append (store16 (htons pri)))
  let n ← writeZoneName fqdn none
  pure (2 + n)

def writeSoaData (zone : ZonePtr) : Writer ℕ := do
  let origSize ← onFst Wire.size
  match zone.zone.soa with
  | none => Proc.raise .wildRead
  | some s =>
    let mname ← onFst (Proc.ofExcept (getMname zone.zone))
    let _ ← writeZoneName mname.fqdn (some zone)
    let _ ← writeZoneName s.rname (some zone)
    onFst (Wire.append s.numbers)
    pure ((← onFst Wire.size) - origSize)

/-- `Write`. -/
def write : ResourceRecord → Writer Written
  | .a owner ip => do
    let a ← writeHeader ⟨owner, 1, 4⟩
    onFst (Wire.append ip.toBytes)
    pure { a with size := a.size + 4 }
  | .cname namePtr name => do
    let a ← writeHeader ⟨.namePtr namePtr, 5, 0⟩
    let n ← writeZoneName name none
    onFst (a.writeRdlength n)
  | .mx namePtr fqdn pri => do
    let a ← writeHeader ⟨.namePtr namePtr, 15, 0⟩
    let n ← writeMxData fqdn pri
    onFst (a.writeRdlength n)
  | .ns domain fqdn => do
    let a ← writeHeader ⟨.name domain, 2, 0⟩
    let n ← writeZoneName fqdn none
    onFst (a.writeRdlength n)
  | .soa owner zone => do
    let a ← writeHeader ⟨owner, 6, 0⟩
    let n ← writeSoaData zone
    onFst (a.writeRdlength n)

def store (limit : Option ℕ) (a : ResourceRecord) : Writer ℕ := do
  let written ← write a
  let n ← onFst Wire.size
  if ∃ m ∈ limit, m < n then
    onFst (Wire.resize written.origLen)
    Proc.raise (warThrow .truncated "Truncated reply")
  else pure written.size

/-! ## Questions -/

abbrev Processing : Type → Type := Proc Fault ((Outgoing × Referrals) × List Search)

def storeIn (limit : Option ℕ) (x : Section × ResourceRecord) : Proc Fault (Outgoing × List Search) Unit :=
  fun s =>
    match store limit x.2 (s.1.wire, s.2) with
    | (.ok _, w, log) => (.ok (), Outgoing.count { s.1 with wire := w } x.1, log)
    | (.error e, w, log) => (.error e, { s.1 with wire := w }, log)

section

variable (limit : Option ℕ) (zones : List Zone)

def emit (x : Section × ResourceRecord) : Processing Unit := onFstLog (storeIn limit x)

def storeCname (zone : ZonePtr) (question : Question) : Processing Bytes := do
  emit limit (.answer, .cname question.offset (fullCname zone))
  pure (fullCname zone)

def processQtype (question : Question) (zone : ZonePtr) (soaZone : Option ZonePtr) : Processing Unit :=
  if question.qtype = 1 ∨ question.qtype = 255 then
    if !zone.zone.cname.isEmpty then do
      let name ← storeCname limit zone question
      Proc.when (question.qtype = 1)
        (match (lookup zones (toFraments name)).1 with
        | some zone => zone.zone.a.forM fun ip => emit limit (.answer, .a (.name name) ip)
        | none => pure ())
    else zone.zone.a.forM fun ip => emit limit (.answer, .a (.namePtr question.offset) ip)
  else if question.qtype = 5 then
    Proc.when (!zone.zone.cname.isEmpty) do
      let _ ← storeCname limit zone question
  else if question.qtype = 6 then
    match soaZone with
    | none => Proc.raise (warThrow .noSoaRecord "No SOA record found")
    | some soaZone => do
      emit limit (.answer, .soa (.namePtr question.offset) soaZone)
      onFst (refer fun t => t.addAuthorativeZone (some soaZone))
  else if question.qtype = 2 then onFst (refer fun t => t.addAuthorativeZone soaZone)
  else if question.qtype = 15 then
    zone.zone.mx.forM fun mx => do
      let fdqn := zone.getFdqn mx.toNs
      emit limit (.answer, .mx question.offset fdqn mx.priority)
      onFst (refer fun t => t.addNsZone (lookup zones (toFraments fdqn)).1)
  else pure ()

def processQuestion (question : Question) : Processing Unit :=
  match lookup zones question.getLabels with
  | (none, true) => Proc.raise (warThrow .unknownSubDomain "Unknown sub-domain")
  | (none, false) => Proc.raise (warThrow .unknownDomain "Unknown domain")
  | (some zone, _) => do
    let soaZone ← onFst (Proc.ofExcept (getSoaZone zone))
    Proc.when (!soaZone.any (·.zone.authorative)) (onFst (refer fun t => { t with authorative := false }))
    processQtype limit zones question zone soaZone
    Proc.when (question.qtype = 255) (onFst (refer fun t => t.addAuthorativeZone soaZone))

def processNsAuthZone (zone : ZonePtr) : Processing Unit :=
  zone.zone.ns.forM fun ns => do
    let nameserverFdqn := zone.getFdqn ns
    emit limit (.authority, .ns zone.getDomainName nameserverFdqn)
    onFst (refer fun t => t.addNsZone (lookup zones (toFraments nameserverFdqn)).1)

def processNsZone (zone : ZonePtr) : Processing Unit :=
  zone.zone.a.forM fun ip => emit limit (.additional, .a (.name zone.getDomainName) ip)

def answer (questions : List Question) : Processing Unit := do
  questions.forM (processQuestion limit zones)
  (← onFst Proc.get).2.authorativeZones.forM (processNsAuthZone limit zones)
  (← onFst Proc.get).2.nsZones.forM (processNsZone limit)

end

/-! ## The reply -/

def processQuestions (limit : Option ℕ) (zones : List Zone) (query : Memory) (queryLen : ℕ)
    (header : MessageHeader) (replyBuffer : Bytes) : (Except Fault Unit × Bytes) × List Search :=
  match parseQuestions query queryLen header ⟨[], [], 0, resize replyBuffer MessageHeader.size⟩ with
  | (.error e, s) => ((.error e, s.replyBuffer), [])
  | (.ok (), s) =>
    match answer limit zones s.questions (({ wire := ⟨s.replyBuffer, []⟩ }, {}), []) with
    | (.ok (), (o, t), log) => ((.ok (), finish header s.numQuestions false o t), log)
    | (.error (.raised ex), (o, t), log) =>
      if ex.type = .truncated then ((.ok (), finish header s.numQuestions true o t), log)
      else ((.error (.raised ex), o.wire.buffer), log)
    | (.error e, (o, _), log) => ((.error e, o.wire.buffer), log)

def processOpcode (zones : List Zone) (query : Memory) (queryLen : ℕ) (header : MessageHeader)
    (replyBuffer : Bytes) : (Except Fault Unit × Bytes) × List Search :=
  if header.getQr then ((.error (warThrow .invalidQuery "Not a question"), replyBuffer), [])
  else if header.getOpcode = 0 then
    processQuestions (some maxReplyBuffer) zones query queryLen header replyBuffer
  else ((.ok (), createErrorReply .notImplemented header replyBuffer), [])

def processsQuerey (zones : List Zone) (query : Memory) (queryLen : ℕ) (replyBuffer : Bytes) :
    Processed × List Search :=
  let replyBuffer := resize replyBuffer 0
  match MessageHeader.ofBuffer query queryLen with
  | .error e => (⟨.error e, replyBuffer, .unset⟩, [])
  | .ok header =>
    match processOpcode zones query queryLen header replyBuffer with
    | ((.error (.raised ex), replyBuffer), log) =>
      match catchClause ex.type with
      | some (code, bad) =>
        (⟨.ok (), createErrorReply code header replyBuffer, if bad then .bad else .unset⟩, log)
      | none => (⟨.error (.raised ex), replyBuffer, .unset⟩, log)
    | ((result, replyBuffer), log) => (⟨result, replyBuffer, .unset⟩, log)

/-- **One round of the receive loop**, and its calls of `SearchForDomainName`. -/
def receive (zones : List Zone) (queryBuffer : Memory) (datagram replyBuffer : Bytes) :
    Served × List Search :=
  let query := received queryBuffer datagram
  let (r, log) := processsQuerey zones query (datagram.take maxQueryBuffer).length replyBuffer
  let send := if r.replyBuffer.isEmpty then ⟨.silent, r.state, query, r.replyBuffer⟩
    else ⟨.sent r.replyBuffer, .sucess, query, r.replyBuffer⟩
  match r.result with
  | .ok () => (send, log)
  | .error (.raised ex) =>
    if ex.type = .unknownDomain then (⟨.silent, r.state, query, r.replyBuffer⟩, log) else (send, log)
  | .error _ => (⟨.stuck, r.state, query, r.replyBuffer⟩, log)

end Logged

end VUbercool.Dns
