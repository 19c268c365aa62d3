import VUbercool.Dns.LabelHeader
import VUbercool.Dns.Answer

/-!
# The DNS daemon

`DnsDaemonImpl` (`DnsDaemon.cpp`), from a datagram to what is sent.

* `parseQuestions`: the first pass of `ProcessQuestions`, over the questions.
* `processQuestion`, `processNsAuthZone`, `processNsZone`, `answer`: the second pass, over the records.
* `processQuestions`, `createErrorReply`, `processsQuerey`: the reply to a query.
* `receive`: one round of the receive loop.

`limit` is the size `Store` allows, `some maxReplyBuffer` in the daemon.
-/

namespace VUbercool.Dns

open Octets

/-! ## Questions -/

/-- The variables of the loop over the questions. -/
structure Parsed where
  questions : List Question
  pointers : List StringRef
  numQuestions : UInt16
  replyBuffer : Bytes
  deriving DecidableEq

/-- The question that the loop over the questions parses: `bytes_left` is never decremented. -/
def parseQuestion (query : Memory) (queryLen bytesLeft : ℕ) (s : Parsed) :
    Except Fault (Question × List StringRef) :=
  Question.parse query (queryLen - bytesLeft) bytesLeft s.pointers
    (UInt16.ofNat s.replyBuffer.length)

/-- One round of the loop over the questions. -/
def questionRound (query : Memory) (queryLen bytesLeft : ℕ) : Proc Fault Parsed Unit := do
  if bytesLeft = 0 then
    Proc.raise (warThrow .invalidQuery "Buffer underrun preparing next query")
  else
    let p := queryLen - bytesLeft
    let (question, pointers) ← Proc.ofExcept (parseQuestion query queryLen bytesLeft (← Proc.get))
    Proc.modify fun s => { s with questions := s.questions ++ [question], pointers := pointers }
    if question.qclass ≠ 1 ∧ question.qclass ≠ 255 then
      Proc.raise (warThrow .refused "Unsupported Qclass")
    else
      let newLen := (← Proc.get).replyBuffer.length + question.getSize
      if newLen < maxReplyBuffer then
        Proc.modify fun s => { s with
          replyBuffer := s.replyBuffer ++ readBytes query p question.getSize
          numQuestions := s.numQuestions + 1 }
      else Proc.raise (warThrow .invalidQuery "Too many or too thick questions!")

/-- The loop over the questions. -/
def parseQuestions (query : Memory) (queryLen : ℕ) (header : MessageHeader) : Proc Fault Parsed Unit :=
  (List.range header.qdcount.toNat).forM fun _ =>
    questionRound query queryLen (queryLen - MessageHeader.size)

/-! ## Records -/

/-- The sections of a reply that hold records. -/
inductive Section where
  | answer | authority | additional
  deriving DecidableEq

/-- The reply buffer with its labels, `num_answers`, `num_ns` and `num_opt`. -/
structure Outgoing where
  wire : Wire
  numAnswers : UInt16 := 0
  numNs : UInt16 := 0
  numOpt : UInt16 := 0
  deriving DecidableEq

/-- `++numAnswers`, on the counter of a section. -/
def Outgoing.count (o : Outgoing) : Section → Outgoing
  | .answer => { o with numAnswers := o.numAnswers + 1 }
  | .authority => { o with numNs := o.numNs + 1 }
  | .additional => { o with numOpt := o.numOpt + 1 }

/-- `Store` with the counter of a section. -/
def storeIn (limit : Option ℕ) (x : Section × ResourceRecord) : Proc Fault Outgoing Unit := fun o =>
  match store limit x.2 o.wire with
  | (.ok _, w) => (.ok (), Outgoing.count { o with wire := w } x.1)
  | (.error e, w) => (.error e, { o with wire := w })

/-- `authorative`, `authorative_zones` and `ns_zones`. -/
structure Referrals where
  authorative : Bool := true
  authorativeZones : List ZonePtr := []
  nsZones : List ZonePtr := []

/-- A computation on a reply. -/
abbrev Processing : Type → Type := Proc Fault (Outgoing × Referrals)

/-- `AddZone`. -/
def addZone (authorativeZones : List ZonePtr) (zone : Option ZonePtr) : List ZonePtr :=
  match zone with
  | none => authorativeZones
  | some zone =>
    if authorativeZones.any zone.same then authorativeZones else authorativeZones ++ [zone]

/-- `AddZone` to `authorative_zones`. -/
def Referrals.addAuthorativeZone (t : Referrals) (zone : Option ZonePtr) : Referrals :=
  { t with authorativeZones := addZone t.authorativeZones zone }

/-- `AddZone` to `ns_zones`. -/
def Referrals.addNsZone (t : Referrals) (zone : Option ZonePtr) : Referrals :=
  { t with nsZones := addZone t.nsZones zone }

/-- The loop of `GetSoaZone`, for at most `fuel` rounds. Every round goes to the parent of the zone the
search began with. -/
def soaLoop (zone : ZonePtr) : ℕ → Option ZonePtr → Except Fault (Option ZonePtr)
  | _, none => .ok none
  | 0, some _ => .error .diverged
  | fuel + 1, some z => if z.zone.soa.isSome then .ok (some z) else soaLoop zone fuel zone.parent

/-- `GetSoaZone`: a third round is at the same zone as the second, and so are all after it. -/
def getSoaZone (zone : ZonePtr) : Except Fault (Option ZonePtr) := soaLoop zone 3 (some zone)

/-- The full name in `StoreCname`. -/
def fullCname (zone : ZonePtr) : Bytes :=
  if zone.zone.cname.getLast? != some 46 then
    match zone.parent with
    | some parent => zone.zone.cname ++ [46] ++ parent.getDomainName
    | none => zone.zone.cname
  else zone.zone.cname

section

variable (limit : Option ℕ) (zones : List Zone)

/-- Store a record of a section. -/
def emit (x : Section × ResourceRecord) : Processing Unit := Proc.onFst (storeIn limit x)

/-- Change the lists of zones. -/
def refer (f : Referrals → Referrals) : Processing Unit := Proc.onSnd (Proc.modify f)

/-- `StoreCname`. -/
def storeCname (zone : ZonePtr) (question : Question) : Processing Bytes := do
  emit limit (.answer, .cname question.offset (fullCname zone))
  pure (fullCname zone)

/-- The branches over `qtype` in `ProcessQuestion`. -/
def processQtype (question : Question) (zone : ZonePtr) (soaZone : Option ZonePtr) : Processing Unit :=
  if question.qtype = 1 ∨ question.qtype = 255 then
    if !zone.zone.cname.isEmpty then do
      let name ← storeCname limit zone question
      Proc.when (question.qtype = 1)
        (match (lookup zones (toFraments name)).1 with
        | some zone => zone.zone.a.forM fun ip => emit limit (.answer, .a (.name name) ip)
        | none => pure ())
    else zone.zone.a.forM fun ip => emit limit (.answer, .a (.namePtr question.offset) ip)
  else if question.qtype = 5 then
    Proc.when (!zone.zone.cname.isEmpty) do
      let _ ← storeCname limit zone question
  else if question.qtype = 6 then
    match soaZone with
    | none => Proc.raise (warThrow .noSoaRecord "No SOA record found")
    | some soaZone => do
      emit limit (.answer, .soa (.namePtr question.offset) soaZone)
      refer fun t => t.addAuthorativeZone (some soaZone)
  else if question.qtype = 2 then refer fun t => t.addAuthorativeZone soaZone
  else if question.qtype = 15 then
    zone.zone.mx.forM fun mx => do
      let fdqn := zone.getFdqn mx.toNs
      emit limit (.answer, .mx question.offset fdqn mx.priority)
      refer fun t => t.addNsZone (lookup zones (toFraments fdqn)).1
  else pure ()

/-- `ProcessQuestion`. -/
def processQuestion (question : Question) : Processing Unit :=
  match lookup zones question.getLabels with
  | (none, true) => Proc.raise (warThrow .unknownSubDomain "Unknown sub-domain")
  | (none, false) => Proc.raise (warThrow .unknownDomain "Unknown domain")
  | (some zone, _) => do
    let soaZone ← Proc.ofExcept (getSoaZone zone)
    Proc.when (!soaZone.any (·.zone.authorative)) (refer fun t => { t with authorative := false })
    processQtype limit zones question zone soaZone
    Proc.when (question.qtype = 255) (refer fun t => t.addAuthorativeZone soaZone)

/-- `ProcessNsAuthZone`. -/
def processNsAuthZone (zone : ZonePtr) : Processing Unit :=
  zone.zone.ns.forM fun ns => do
    let nameserverFdqn := zone.getFdqn ns
    emit limit (.authority, .ns zone.getDomainName nameserverFdqn)
    refer fun t => t.addNsZone (lookup zones (toFraments nameserverFdqn)).1

/-- `ProcessNsZone`. -/
def processNsZone (zone : ZonePtr) : Processing Unit :=
  zone.zone.a.forM fun ip => emit limit (.additional, .a (.name zone.getDomainName) ip)

/-- The second pass of `ProcessQuestions`: the part that may raise `Truncated`. -/
def answer (questions : List Question) : Processing Unit := do
  questions.forM (processQuestion limit zones)
  (← Proc.get).2.authorativeZones.forM (processNsAuthZone limit zones)
  (← Proc.get).2.nsZones.forM (processNsZone limit)

end

/-! ## The reply -/

/-- The header at the end of `ProcessQuestions`. -/
def replyHeader (header : MessageHeader) (numQuestions : UInt16) (truncated : Bool) (o : Outgoing)
    (t : Referrals) : MessageHeader :=
  (((((((header.setTc truncated).setQr true).setRa false).setAa t.authorative).setQdCount
    numQuestions).setAnCount o.numAnswers).setNsCount o.numNs).setArCount o.numOpt

/-- The end of `ProcessQuestions`: the reply with its header. -/
def finish (header : MessageHeader) (numQuestions : UInt16) (truncated : Bool) (o : Outgoing)
    (t : Referrals) : Bytes :=
  (replyHeader header numQuestions truncated o t).write o.wire.buffer

/-- `ProcessQuestions`: what it raises, and the reply buffer then. -/
def processQuestions (limit : Option ℕ) (zones : List Zone) (query : Memory) (queryLen : ℕ)
    (header : MessageHeader) (replyBuffer : Bytes) : Except Fault Unit × Bytes :=
  match parseQuestions query queryLen header ⟨[], [], 0, resize replyBuffer MessageHeader.size⟩ with
  | (.error e, s) => (.error e, s.replyBuffer)
  | (.ok (), s) =>
    match answer limit zones s.questions ({ wire := ⟨s.replyBuffer, []⟩ }, {}) with
    | (.ok (), o, t) => (.ok (), finish header s.numQuestions false o t)
    | (.error (.raised ex), o, t) =>
      if ex.type = .truncated then (.ok (), finish header s.numQuestions true o t)
      else (.error (.raised ex), o.wire.buffer)
    | (.error e, o, _) => (.error e, o.wire.buffer)

/-- The header `CreateErrorReply` writes. -/
def errorHeader (errCode : Rcode) (hdr : MessageHeader) : MessageHeader :=
  ((hdr.setQr true).setRcode errCode).resetAllCounters

/-- `CreateErrorReply`. -/
def createErrorReply (errCode : Rcode) (hdr : MessageHeader) (replyBuffer : Bytes) : Bytes :=
  (errorHeader errCode hdr).write (resize replyBuffer MessageHeader.size)

/-- `RequestStats::State`. -/
inductive RequestState where
  | sucess | ignore | fail | bad | unset
  deriving DecidableEq

/-- The `catch` clauses of `ProcesssQuerey`: the code of the error reply, and whether the request is
counted as bad. An `UnknownDomain` is passed on. The last clauses catch every other class. -/
def catchClause : ExceptionType → Option (Rcode × Bool)
  | .invalidQuery => some (.formatError, true)
  | .unknownDomain => none
  | .unknownSubDomain => some (.nameError, false)
  | .noSoaRecord => some (.serverFailure, false)
  | .refused => some (.refused, false)
  | .noLabelsException => some (.formatError, true)
  | .illegalLabelException => some (.formatError, true)
  | .illegalPointereException => some (.formatError, true)
  | _ => some (.serverFailure, false)

/-- What `ProcesssQuerey` raises, and the reply buffer and the state of the statistics then. -/
structure Processed where
  result : Except Fault Unit
  replyBuffer : Bytes
  state : RequestState

/-- The `try` block of `ProcesssQuerey`. -/
def processOpcode (zones : List Zone) (query : Memory) (queryLen : ℕ) (header : MessageHeader)
    (replyBuffer : Bytes) : Except Fault Unit × Bytes :=
  if header.getQr then (.error (warThrow .invalidQuery "Not a question"), replyBuffer)
  else if header.getOpcode = 0 then
    processQuestions (some maxReplyBuffer) zones query queryLen header replyBuffer
  else (.ok (), createErrorReply .notImplemented header replyBuffer)

/-- `ProcesssQuerey`, in a reply buffer that earlier replies were built in. The header is parsed outside
of the `try` block. -/
def processsQuerey (zones : List Zone) (query : Memory) (queryLen : ℕ) (replyBuffer : Bytes := []) :
    Processed :=
  let replyBuffer := resize replyBuffer 0
  match MessageHeader.ofBuffer query queryLen with
  | .error e => ⟨.error e, replyBuffer, .unset⟩
  | .ok header =>
    match processOpcode zones query queryLen header replyBuffer with
    | (.error (.raised ex), replyBuffer) =>
      match catchClause ex.type with
      | some (code, bad) =>
        ⟨.ok (), createErrorReply code header replyBuffer, if bad then .bad else .unset⟩
      | none => ⟨.error (.raised ex), replyBuffer, .unset⟩
    | (result, replyBuffer) => ⟨result, replyBuffer, .unset⟩

/-- What a datagram leads to: silence, a reply, or processing that never ends or is undefined. -/
inductive Outcome where
  | silent
  | sent (reply : Bytes)
  | stuck
  deriving DecidableEq

/-- One round of the receive loop: what is sent, the state of the statistics, and the buffers. -/
structure Served where
  outcome : Outcome
  state : RequestState
  queryBuffer : Memory
  replyBuffer : Bytes

/-- `max_query_buffer_`. -/
def maxQueryBuffer : ℕ := 512

/-- The query buffer after a datagram was received into it. -/
def received (queryBuffer : Memory) (datagram : Bytes) : Memory :=
  fun i => (datagram.take maxQueryBuffer).getD i (queryBuffer i)

/-- **One round of the receive loop.** -/
def receive (zones : List Zone) (queryBuffer : Memory) (datagram : Bytes) (replyBuffer : Bytes := []) :
    Served :=
  let query := received queryBuffer datagram
  let r := processsQuerey zones query (datagram.take maxQueryBuffer).length replyBuffer
  let send := if r.replyBuffer.isEmpty then ⟨.silent, r.state, query, r.replyBuffer⟩
    else ⟨.sent r.replyBuffer, .sucess, query, r.replyBuffer⟩
  match r.result with
  | .ok () => send
  | .error (.raised ex) =>
    if ex.type = .unknownDomain then ⟨.silent, r.state, query, r.replyBuffer⟩ else send
  | .error _ => ⟨.stuck, r.state, query, r.replyBuffer⟩

theorem processsQuerey_replyBuffer (zones : List Zone) (query : Memory) (queryLen : ℕ)
    (replyBuffer : Bytes) :
    processsQuerey zones query queryLen replyBuffer = processsQuerey zones query queryLen := by
  rw [processsQuerey, processsQuerey, resize_zero, resize_zero]

theorem receive_replyBuffer (zones : List Zone) (queryBuffer : Memory) (datagram replyBuffer : Bytes) :
    receive zones queryBuffer datagram replyBuffer = receive zones queryBuffer datagram := by
  rw [receive, receive, processsQuerey_replyBuffer]

end VUbercool.Dns
