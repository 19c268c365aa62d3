import VUbercool.Dns.NameServer

/-!
# Only the first question counts

* `replyTo_rest`: **what stands behind the first question of a query does not change the reply**, nor do
  the numbers of records that its header tells.
* `Reaction.folded`: a reaction without the case of the letters that the query used.
* `reaction_folded`, `shows_folded`: **the case of the letters in a query** only comes back in its reply.
-/

namespace VUbercool.Dns

open Octets Rfc1035 Proc

variable {zones : List Zone} {header header' : MessageHeader} {q q' : Rfc1035.Question}

/-! ## What stands behind the first question -/

/-- **What counts in a header**: the ID, the flags and the number of questions. -/
structure SameHeader (header header' : MessageHeader) : Prop where
  id : header'.id = header.id
  flags : header'.flags = header.flags
  qdcount : header'.qdcount = header.qdcount

namespace SameHeader

variable (h : SameHeader header header')

include h

theorem errorHeader (code : Rcode) : Dns.errorHeader code header' = Dns.errorHeader code header := by
  unfold Dns.errorHeader MessageHeader.setRcode MessageHeader.setQr MessageHeader.resetAllCounters
  simp only [h.id, h.flags]

theorem replyHeader (num : UInt16) (truncated : Bool) (o : Outgoing) (t : Referrals) :
    Dns.replyHeader header' num truncated o t = Dns.replyHeader header num truncated o t := by
  unfold Dns.replyHeader MessageHeader.setTc MessageHeader.setQr MessageHeader.setRa MessageHeader.setAa
    MessageHeader.setQdCount MessageHeader.setAnCount MessageHeader.setNsCount MessageHeader.setArCount
  simp only [h.id, h.flags]

theorem outcomeOf (r : Except Fault Unit × Bytes) : Dns.outcomeOf header' r = Dns.outcomeOf header r := by
  unfold Dns.outcomeOf
  simp only [h.errorHeader]

end SameHeader

section

variable {mem mem' : Memory} {n n' : ℕ}

theorem processQuestions_same (h : SameHeader header header') {b : Bytes} {s : Parsed}
    (hparse : parseQuestions mem n header ⟨[], [], 0, resize b MessageHeader.size⟩ = (.ok (), s))
    (hparse' : parseQuestions mem' n' header' ⟨[], [], 0, resize b MessageHeader.size⟩ = (.ok (), s))
    (limit : Option ℕ) : processQuestions limit zones mem' n' header' b =
      processQuestions limit zones mem n header b := by
  rw [processQuestions, processQuestions, hparse, hparse']
  simp only [finish, h.replyHeader]

/-- **Queries with the same first question** lead to the same. -/
theorem processQuestions_rest (h : SameHeader header header') (hn : 12 ≤ n) (hn' : 12 ≤ n')
    (hq : QuestionAtStart (readBytes mem 12 (n - 12)) q)
    (hq' : QuestionAtStart (readBytes mem' 12 (n' - 12)) q) :
    outcomeOf header' (processQuestions (some maxReplyBuffer) zones mem' n' header' []) =
      outcomeOf header (processQuestions (some maxReplyBuffer) zones mem n header []) := by
  by_cases hqd : header.qdcount = 0
  · have hzero : ∀ (mem : Memory) (n : ℕ) {header : MessageHeader}, header.qdcount = 0 →
        parseQuestions mem n header ⟨[], [], 0, resize [] MessageHeader.size⟩ =
          (.ok (), ⟨[], [], 0, resize [] MessageHeader.size⟩) := by
      intro mem n header h0
      rw [parseQuestions, h0]
      rfl
    rw [processQuestions_same h (hzero mem n hqd) (hzero mem' n' (h.qdcount.trans hqd)), h.outcomeOf]
  have hqd' : header'.qdcount ≠ 0 := fun h0 => hqd (h.qdcount.symm.trans h0)
  by_cases hclass : q.qclass = 1 ∨ q.qclass = 255
  swap
  · obtain ⟨s, hfail⟩ := parseQuestions_refused hqd hq hclass
    obtain ⟨s', hfail'⟩ := parseQuestions_refused hqd' hq' hclass
    rw [outcome_parse_error hfail rfl, outcome_parse_error hfail' rfl, h.errorHeader]
  have hplain : PlainQuestion mem n q := (plainQuestion_iff hn).mpr ⟨hq, hclass⟩
  have hplain' : PlainQuestion mem' n' q := (plainQuestion_iff hn').mpr ⟨hq', hclass⟩
  have hpos : 0 < header.qdcount.toNat := Nat.pos_of_ne_zero fun h0 => hqd (UInt16.toNat_inj.mp h0)
  by_cases hfit : 12 + header.qdcount.toNat * (encodeQuestion q).length < maxReplyBuffer
  · have hparse : ∀ {mem : Memory} {n : ℕ} {header₁ : MessageHeader}, PlainQuestion mem n q →
        header₁.qdcount = header.qdcount →
        parseQuestions mem n header₁ ⟨[], [], 0, resize [] MessageHeader.size⟩ =
          (.ok (), Parsed.addCopies ⟨[], [], 0, resize [] MessageHeader.size⟩ q header.qdcount.toNat) := by
      intro mem n header₁ hplain hcount
      rw [parseQuestions, hcount]
      exact rounds_copies hplain fun _ => hfit
    rw [processQuestions_same h (hparse hplain rfl) (hparse hplain' h.qdcount), h.outcomeOf]
  · have hparse : ∀ {mem : Memory} {n : ℕ} {header₁ : MessageHeader}, PlainQuestion mem n q →
        header₁.qdcount = header.qdcount →
        ∃ s, parseQuestions mem n header₁ ⟨[], [], 0, resize [] MessageHeader.size⟩ =
          (.error (warThrow .invalidQuery "Too many or too thick questions!"), s) := by
      intro mem n header₁ hplain hcount
      rw [parseQuestions, hcount]
      exact rounds_error hplain hpos (Nat.le_of_not_lt hfit)
    obtain ⟨s, hfail⟩ := hparse hplain rfl
    obtain ⟨s', hfail'⟩ := hparse hplain' h.qdcount
    rw [outcome_parse_error hfail rfl, outcome_parse_error hfail' rfl, h.errorHeader]

end

/-- **Only the first question counts.** Two datagrams with the same first question, whose headers have the
same ID, flags and number of questions, get the same reply octet for octet, whatever follows. -/
theorem replyTo_rest (h : SameHeader header header') (hname : PlainName q.name) {rest rest' : Bytes}
    (hlen : (header.octets ++ (encodeQuestion q ++ rest)).length ≤ maxQueryBuffer)
    (hlen' : (header'.octets ++ (encodeQuestion q ++ rest')).length ≤ maxQueryBuffer) :
    replyTo zones (header'.octets ++ (encodeQuestion q ++ rest')) =
      replyTo zones (header.octets ++ (encodeQuestion q ++ rest)) := by
  have hh := MessageHeader.ofBuffer_append header (encodeQuestion q ++ rest)
  have hh' := MessageHeader.ofBuffer_append header' (encodeQuestion q ++ rest')
  have hstart : ∀ (header : MessageHeader) (rest : Bytes), QuestionAtStart (readBytes
      (memoryOf (header.octets ++ (encodeQuestion q ++ rest))) 12
      ((header.octets ++ (encodeQuestion q ++ rest)).length - 12)) q := by
    intro header rest
    rw [readBytes_body (by simp), List.drop_left' header.length_octets]
    exact ⟨hname, List.prefix_append _ _⟩
  have hqr : header'.getQr = header.getQr := by rw [MessageHeader.getQr, MessageHeader.getQr, h.flags]
  have hopcode : header'.getOpcode = header.getOpcode := by
    rw [MessageHeader.getOpcode, MessageHeader.getOpcode, h.flags]
  rw [replyTo_of_header hlen hh, replyTo_of_header hlen' hh', processOpcode, processOpcode, hqr, hopcode]
  split_ifs
  · exact h.outcomeOf _
  · exact processQuestions_rest h (by simp) (by simp) (hstart header rest) (hstart header' rest')
  · rw [createErrorReply_eq, createErrorReply_eq, h.errorHeader, h.outcomeOf]

/-- The addresses of `a` are asked for, and behind that those of `b`. -/
theorem replyTo_rest_ab : replyTo [zoneA] ((⟨7, 0, 1, 0, 0, 1⟩ : MessageHeader).octets ++
      (encodeQuestion ⟨[[97]], 1, 1⟩ ++ encodeQuestion ⟨[[98]], 1, 1⟩)) =
    replyTo [zoneA] ((⟨7, 0, 1, 0, 0, 0⟩ : MessageHeader).octets ++ (encodeQuestion ⟨[[97]], 1, 1⟩ ++ [])) := by
  have hsame : SameHeader ⟨7, 0, 1, 0, 0, 0⟩ ⟨7, 0, 1, 0, 0, 1⟩ := ⟨rfl, rfl, rfl⟩
  have hname : PlainName (⟨[[97]], 1, 1⟩ : Rfc1035.Question).name := by decide
  exact replyTo_rest hsame hname (by decide) (by decide)

/-! ## The case of letters -/

/-- A record without the case of the letters of its owner if that is one of some names. -/
def foldOwner (names : List (List Label)) (r : Rfc1035.Record) : Rfc1035.Record :=
  if folded r.owner ∈ names then { r with owner := folded r.owner } else r

/-- A message without the case of the letters of its questions and of the owners of answers that repeat
them. -/
def foldMessage (m : Message) : Message :=
  { m with
    questions := m.questions.map fun q => { q with name := folded q.name }
    answers := m.answers.map (foldOwner (m.questions.map fun q => folded q.name)) }

/-- A reaction without the case of the letters that come back. -/
def Reaction.folded : Reaction → Reaction
  | .silent => .silent
  | .hangs => .hangs
  | .message full => .message (foldMessage full)

/-- **The same question** but for the case of the letters of its name. -/
structure SameQuestion (q q' : Rfc1035.Question) : Prop where
  name : folded q'.name = folded q.name
  qtype : q'.qtype = q.qtype
  qclass : q'.qclass = q.qclass

theorem selectZone_folded {label label' : Bytes} (h : label'.map toLower = label.map toLower) :
    ∀ (zones : List Zone) (i : ℕ) (wildchard : Option (ℕ × Zone)),
      selectZone label' zones i wildchard = selectZone label zones i wildchard
  | [], _, _ => rfl
  | zone :: zones, i, wildchard => by
    have hequals : iequals label' zone.label = iequals label zone.label := by rw [iequals, iequals, h]
    rw [selectZone, selectZone, hequals, selectZone_folded h zones]

theorem lookupIn_folded : ∀ {key key' : List Bytes}, folded key' = folded key → ∀ (ancestors : List Zone)
    (address : List ℕ) (zones : List Zone) (au : Bool),
    lookupIn ancestors address key' zones au = lookupIn ancestors address key zones au
  | [], [], _, _, _, _, _ => rfl
  | label :: more, label' :: more', h, ancestors, address, zones, au => by
    obtain ⟨hlabel, hmore⟩ := List.cons.inj h
    have hempty : more'.isEmpty = more.isEmpty := by
      cases more <;> cases more' <;> first | rfl | cases hmore
    have hnext := @lookupIn_folded more more' hmore
    rw [lookupIn, lookupIn, selectZone_folded hlabel]
    simp only [hempty, hnext]

/-- **`Lookup` does not see the case of letters.** -/
theorem lookup_folded {key key' : List Bytes} (h : folded key' = folded key) :
    lookup zones key' = lookup zones key := by
  refine lookupIn_folded ?_ _ _ _ _
  rw [folded, folded, List.map_reverse, List.map_reverse]
  exact congrArg List.reverse h

theorem foldOwner_record {names : List (List Label)} (hmem : folded q.name ∈ names)
    (h : folded q'.name = folded q.name) (data : RData) :
    foldOwner names (record q'.name data) = foldOwner names (record q.name data) := by
  have howner : folded (record q.name data).owner ∈ names := hmem
  have howner' : folded (record q'.name data).owner ∈ names := h.symm ▸ hmem
  rw [foldOwner, foldOwner, if_pos howner', if_pos howner]
  exact congrArg (fun owner => record owner data) h

theorem answersOf_folded {names : List (List Label)} (hmem : folded q.name ∈ names) (h : SameQuestion q q')
    (z s : ZonePtr) :
    (answersOf zones z s q').map (foldOwner names) = (answersOf zones z s q).map (foldOwner names) := by
  have hrecord := foldOwner_record hmem h.name
  have hmap : ∀ {α : Type} (l : List α) (data : α → RData),
      (l.map fun a => record q'.name (data a)).map (foldOwner names) =
        (l.map fun a => record q.name (data a)).map (foldOwner names) := by
    intro α l data
    rw [List.map_map, List.map_map]
    exact List.map_congr_left fun a _ => hrecord (data a)
  unfold answersOf
  rw [h.qtype]
  split_ifs
  · rw [List.map_cons, List.map_cons, hrecord]
  · rw [List.map_cons, List.map_cons, hrecord]
  · exact hmap z.zone.a RData.a
  · exact hmap z.zone.mx _
  · exact hmap s.zone.soa.toList _
  · rfl

theorem answerMessage_folded (h : SameQuestion q q') (hdr : Header) (k : ℕ) (z s : ZonePtr) :
    foldMessage (answerMessage zones hdr k q' z s) = foldMessage (answerMessage zones hdr k q z s) := by
  have hanswers : (List.replicate k (answersOf zones z s q')).flatten.map
      (foldOwner (List.replicate k (folded q.name))) =
      (List.replicate k (answersOf zones z s q)).flatten.map (foldOwner (List.replicate k (folded q.name))) := by
    cases k with
    | zero => rfl
    | succ k =>
      have hmem : folded q.name ∈ List.replicate (k + 1) (folded q.name) :=
        List.mem_replicate.mpr ⟨Nat.succ_ne_zero k, rfl⟩
      rw [List.map_flatten, List.map_flatten, List.map_replicate, List.map_replicate,
        answersOf_folded hmem h z s]
  have hlen := congrArg List.length hanswers
  have hwith : WithNs q' ↔ WithNs q := by rw [WithNs, WithNs, h.qtype]
  have hauthority : authorityOf s q' = authorityOf s q := by simp only [authorityOf, hwith]
  have hadditional : additionalOf zones z s q' = additionalOf zones z s q := by
    simp only [additionalOf, targets, hwith, h.qtype]
  rw [List.length_map, List.length_map] at hlen
  simp only [foldMessage, answerMessage, Message.ofSections, hauthority, hadditional, List.map_replicate,
    hanswers, hlen, h.name, h.qtype, h.qclass, List.length_replicate]

theorem reactTo_folded (h : SameQuestion q q') (hdr : Header) (k : ℕ) :
    (reactTo zones hdr k q').folded = (reactTo zones hdr k q).folded := by
  unfold reactTo
  rw [lookup_folded h.name, h.qtype]
  rcases lookup zones q.name with ⟨- | z, au⟩
  · cases au <;> rfl
  · dsimp only
    split_ifs
    · rfl
    · exact congrArg Reaction.message (answerMessage_folded h hdr k z _)
    · rfl

/-- **The case of the letters in a query only comes back in its reply.** -/
theorem reaction_folded (h : SameQuestion q q') {d d' : Bytes} (hheader : readHeader d' = readHeader d)
    (hq : questionOf d = some q) (hq' : questionOf d' = some q') :
    (reaction zones d').folded = (reaction zones d).folded := by
  have hlen : (encodeQuestion q').length = (encodeQuestion q).length := by
    rw [length_encodeQuestion, length_encodeQuestion, length_encodeLabels_folded h.name]
  unfold reaction
  rw [hheader]
  cases readHeader d with
  | none => rfl
  | some hdr =>
    simp only [hq, hq', h.qclass, hlen]
    split_ifs
    all_goals first | rfl | exact reactTo_folded h hdr _

/-- **Two queries that differ in the case of letters** get the same message, but for the case of the letters
that come back. -/
theorem shows_folded (hz : LegalForest zones) (h : SameQuestion q q') {d d' : Bytes}
    (hd : d.length ≤ maxQueryBuffer) (hd' : d'.length ≤ maxQueryBuffer)
    (hheader : readHeader d' = readHeader d) (hq : questionOf d = some q) (hq' : questionOf d' = some q') :
    Shows (replyTo zones d) (reaction zones d) ∧ Shows (replyTo zones d') (reaction zones d') ∧
      (reaction zones d').folded = (reaction zones d).folded :=
  ⟨replyTo_shows hz hd, replyTo_shows hz hd', reaction_folded h hheader hq hq'⟩

/-- The addresses of `a` and of `A` are asked for. -/
theorem shows_folded_a :
    let d := queryOctets ⟨7, 0, 1, 0, 0, 0⟩ [⟨[[97]], 1, 1⟩]
    let d' := queryOctets ⟨7, 0, 1, 0, 0, 0⟩ [⟨[[65]], 1, 1⟩]
    Shows (replyTo [zoneA] d) (reaction [zoneA] d) ∧ Shows (replyTo [zoneA] d') (reaction [zoneA] d') ∧
      (reaction [zoneA] d').folded = (reaction [zoneA] d).folded := by
  have hlegal : LegalForest [zoneA] := fun z hz => by
    rw [reached_zoneA hz]
    constructor <;> decide +kernel
  have hsame : SameQuestion ⟨[[97]], 1, 1⟩ ⟨[[65]], 1, 1⟩ := ⟨by decide, rfl, rfl⟩
  exact shows_folded hlegal hsame (by decide) (by decide) (by decide +kernel) (by decide +kernel)
    (by decide +kernel)

end VUbercool.Dns
