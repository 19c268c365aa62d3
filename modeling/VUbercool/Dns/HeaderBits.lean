import VUbercool.Dns.ReceiveLoop

/-!
# The header bits of a reply

* `Twins`: standard queries that differ only in the bits of the header that are for the server to set.
* `Path`, `pathOf`: how the reply to a standard query comes about. `Path.echoed`: the bits that no setter
  on this path sets.
* `replyHeader_eq_iff`, `errorHeader_eq_iff`: where the headers of the replies are equal.
* **`headerBlind_iff`**: the bits of the query do not matter exactly where those that are echoed agree.
-/

namespace VUbercool.Dns

open Octets Rfc1035

variable {zones : List Zone} {mem mem' : Memory} {n : ℕ} {header header' : MessageHeader} {body : Bytes}

/-! ## Bits -/

theorem and_or (f m m' : UInt16) : f &&& (m ||| m') = f &&& m ||| f &&& m' := by
  rw [UInt16.and_comm, or_and_right, UInt16.and_comm, UInt16.and_comm m']

theorem and_eq_of_part {f f' field m : UInt16} (hpart : field &&& m = m)
    (h : f' &&& field = f &&& field) : f' &&& m = f &&& m := by
  rw [← hpart, ← UInt16.and_assoc, h, UInt16.and_assoc]

theorem and_or_eq_iff {f f' m m' : UInt16} :
    f' &&& (m ||| m') = f &&& (m ||| m') ↔ f' &&& m = f &&& m ∧ f' &&& m' = f &&& m' := by
  constructor
  · intro h
    exact ⟨and_eq_of_part (by rw [UInt16.or_comm, set_and]) h, and_eq_of_part (set_and m m') h⟩
  · rintro ⟨h, h'⟩
    rw [and_or, and_or, h, h']

theorem setFlag_congr {f f' m : UInt16} (h : f' &&& m = f &&& m) (bit : UInt16) (b : Bool) :
    setFlag bit b f' &&& (m ||| 1 <<< bit) = setFlag bit b f &&& (m ||| 1 <<< bit) := by
  have hclear : (f' &&& ~~~(1 <<< bit)) &&& (m ||| 1 <<< bit) =
      (f &&& ~~~(1 <<< bit)) &&& (m ||| 1 <<< bit) := by
    rw [and_or_eq_iff, clear_and, clear_and]
    refine ⟨?_, rfl⟩
    rw [UInt16.and_assoc, UInt16.and_comm _ m, ← UInt16.and_assoc, h, UInt16.and_assoc, UInt16.and_assoc,
      UInt16.and_comm _ m]
  cases b with
  | false => exact hclear
  | true =>
    show ((f' &&& ~~~(1 <<< bit)) ||| 1 <<< bit) &&& _ = ((f &&& ~~~(1 <<< bit)) ||| 1 <<< bit) &&& _
    rw [or_and_right, or_and_right, hclear]

/-! ## Two queries -/

/-- **Two standard queries that are the same to a server**: their headers differ in `AA`, `TC`, `RA`, `Z`
and `RCODE` only. -/
structure Twins (header header' : MessageHeader) : Prop where
  qr : header.getQr = false
  opcode : header.getOpcode = 0
  rest : header' = { header with flags := header'.flags }
  bits : header'.flags &&& 0xF900 = header.flags &&& 0xF900

namespace Twins

theorem qr' (h : Twins header header') : header'.getQr = false :=
  (getFlag_congr (and_eq_of_part (by decide) h.bits)).trans h.qr

theorem opcode' (h : Twins header header') : header'.getOpcode = 0 :=
  (MessageHeader.getOpcode_congr (and_eq_of_part (by decide) h.bits)).trans h.opcode

theorem qdcount (h : Twins header header') : header'.qdcount = header.qdcount := by
  rw [h.rest]

theorem and_eq (h : Twins header header') {m : UInt16} (hm : header'.flags &&& m = header.flags &&& m) :
    header'.flags &&& (m ||| 0x7900) = header.flags &&& (m ||| 0x7900) :=
  and_or_eq_iff.mpr ⟨hm, and_eq_of_part (by decide) h.bits⟩

end Twins

/-- How the reply to a standard query comes about: `ProcessQuestions` builds it, or a `catch` clause
creates an error reply; or nothing is sent, or processing does not end. -/
inductive Path where
  | built | error | silent | stuck
  deriving DecidableEq

/-- The path of a query for which something is raised. -/
def Path.ofFault : Fault → Path
  | .raised ex => if (catchClause ex.type).isSome then .error else .silent
  | _ => .stuck

/-- The path of a standard query. -/
def pathOf (zones : List Zone) (query : Memory) (queryLen : ℕ) (header : MessageHeader) : Path :=
  match parseQuestions query queryLen header ⟨[], [], 0, resize [] MessageHeader.size⟩ with
  | (.error e, _) => .ofFault e
  | (.ok (), s) =>
    match (answer (some maxReplyBuffer) zones s.questions ({ wire := ⟨s.replyBuffer, []⟩ }, {})).1 with
    | .ok () => .built
    | .error (.raised ex) => if ex.type = .truncated then .built else .ofFault (.raised ex)
    | .error e => .ofFault e

/-- **The bits of a query that no setter on its path sets**: `Z` and `RCODE` of a reply that is built; `AA`,
`TC`, `RA` and `Z` of an error reply. -/
def Path.echoed : Path → UInt16
  | .built => 0x007F
  | .error => 0x06F0
  | .silent => 0
  | .stuck => 0

theorem processQuestions_path (zones : List Zone) (mem : Memory) (n : ℕ) (header : MessageHeader) :
    (pathOf zones mem n header = .built ∧ ∃ num truncated o t rest, ∀ mem' header',
      parseQuestions mem' n header' ⟨[], [], 0, resize [] MessageHeader.size⟩ =
        parseQuestions mem n header ⟨[], [], 0, resize [] MessageHeader.size⟩ →
      processQuestions (some maxReplyBuffer) zones mem' n header' [] =
        (.ok (), (replyHeader header' num truncated o t).octets ++ rest)) ∨
    ∃ e b, pathOf zones mem n header = .ofFault e ∧ ∀ mem' header',
      parseQuestions mem' n header' ⟨[], [], 0, resize [] MessageHeader.size⟩ =
        parseQuestions mem n header ⟨[], [], 0, resize [] MessageHeader.size⟩ →
      processQuestions (some maxReplyBuffer) zones mem' n header' [] = (.error e, b) := by
  rcases hparse : parseQuestions mem n header ⟨[], [], 0, resize [] MessageHeader.size⟩ with ⟨e | u, s⟩
  · refine .inr ⟨e, s.replyBuffer, by rw [pathOf, hparse], fun mem' header' h => ?_⟩
    rw [processQuestions, h]
  rcases hanswer : answer (some maxReplyBuffer) zones s.questions ({ wire := ⟨s.replyBuffer, []⟩ }, {})
    with ⟨(ex | - | -) | u, o, t⟩
  · by_cases htruncated : ex.type = .truncated
    · refine .inl ⟨by simp only [pathOf, hparse, hanswer, if_pos htruncated],
        s.numQuestions, true, o, t, o.wire.buffer.drop MessageHeader.size, fun mem' header' h => ?_⟩
      simp only [processQuestions, h, hanswer, if_pos htruncated]
      rfl
    · refine .inr ⟨.raised ex, o.wire.buffer, by simp only [pathOf, hparse, hanswer, if_neg htruncated],
        fun mem' header' h => ?_⟩
      simp only [processQuestions, h, hanswer, if_neg htruncated]
  · refine .inr ⟨.diverged, o.wire.buffer, by simp only [pathOf, hparse, hanswer], fun mem' header' h => ?_⟩
    simp only [processQuestions, h, hanswer]
  · refine .inr ⟨.wildRead, o.wire.buffer, by simp only [pathOf, hparse, hanswer], fun mem' header' h => ?_⟩
    simp only [processQuestions, h, hanswer]
  · refine .inl ⟨by simp only [pathOf, hparse, hanswer], s.numQuestions, false, o, t,
      o.wire.buffer.drop MessageHeader.size, fun mem' header' h => ?_⟩
    simp only [processQuestions, h, hanswer]
    rfl

/-- The header of a reply that is built. -/
theorem replyHeader_eq_iff (h : Twins header header') (num : UInt16) (truncated : Bool) (o : Outgoing)
    (t : Referrals) : replyHeader header' num truncated o t = replyHeader header num truncated o t ↔
      header'.flags &&& Path.built.echoed = header.flags &&& Path.built.echoed := by
  constructor
  · intro heq
    have hkeep : ∀ hdr : MessageHeader, (replyHeader hdr num truncated o t).flags &&& 0x7F =
        hdr.flags &&& 0x7F := fun hdr =>
      replyHeader_and (by decide) (by decide) (by decide) (by decide) hdr num truncated o t
    exact (hkeep header').symm.trans (heq ▸ hkeep header)
  · intro hbits
    -- the setters set the other bits that the queries may differ in, and `QR`
    have hfield : header'.flags &&& 0x797F = header.flags &&& 0x797F := h.and_eq hbits
    have hflags := setFlag_congr (setFlag_congr (setFlag_congr (setFlag_congr hfield 9 truncated) 15 true)
      7 false) 10 t.authorative
    have hall : (0x797F : UInt16) ||| (1 : UInt16) <<< (9 : UInt16) ||| (1 : UInt16) <<< (15 : UInt16) |||
      (1 : UInt16) <<< (7 : UInt16) ||| (1 : UInt16) <<< (10 : UInt16) = -1 := by decide
    rw [hall, UInt16.and_neg_one, UInt16.and_neg_one] at hflags
    rw [h.rest]
    exact congrArg (MessageHeader.mk header.id · num o.numAnswers o.numNs o.numOpt) hflags

/-- The header of an error reply. -/
theorem errorHeader_eq_iff (h : Twins header header') (code : Rcode) :
    errorHeader code header' = errorHeader code header ↔
      header'.flags &&& Path.error.echoed = header.flags &&& Path.error.echoed := by
  constructor
  · intro heq
    have hkeep : ∀ hdr : MessageHeader, (errorHeader code hdr).flags &&& 0x06F0 = hdr.flags &&& 0x06F0 :=
      fun hdr => (MessageHeader.setRcode_and _ (by decide) code).trans (setFlag_and (by decide) _ _)
    exact (hkeep header').symm.trans (heq ▸ hkeep header)
  · intro hbits
    -- `QR` and `RCODE` are set
    have hfield : header'.flags &&& 0x7FF0 = header.flags &&& 0x7FF0 := h.and_eq hbits
    have hflags : setFlag 15 true header'.flags &&& ~~~0xF = setFlag 15 true header.flags &&& ~~~0xF :=
      setFlag_congr hfield 15 true
    rw [h.rest]
    exact congrArg (fun f => MessageHeader.mk header.id (f ||| (code.toUInt16 &&& 0xF)) 0 0 0 0) hflags

theorem sent_inj {rest : Bytes} :
    Outcome.sent (header'.octets ++ rest) = .sent (header.octets ++ rest) ↔ header' = header := by
  constructor
  · intro h
    have hparse := MessageHeader.ofBuffer_append header rest
    rw [← Outcome.sent.inj h, MessageHeader.ofBuffer_append header' rest] at hparse
    exact Except.ok.inj hparse
  · rintro rfl
    rfl

theorem errorReply_eq_iff (h : Twins header header') (code : Rcode) :
    Outcome.sent (errorHeader code header').octets = .sent (errorHeader code header).octets ↔
      header'.flags &&& Path.error.echoed = header.flags &&& Path.error.echoed := by
  have hsent := @sent_inj (errorHeader code header) (errorHeader code header') []
  rw [List.append_nil, List.append_nil] at hsent
  rw [hsent, errorHeader_eq_iff h]

/-! ## The replies -/

/-- **A reply that is built is no error reply**: it has `RCODE` 0. -/
def RcodeOk (r : Except Fault Unit × Bytes) : Prop :=
  ∀ reply, r = (.ok (), reply) →
    ∃ h, MessageHeader.ofBuffer (memoryOf reply) reply.length = .ok h ∧ h.getRcode = 0

/-- **The bits do not matter**: the server does the same for both queries, and a reply that is built has
`RCODE` 0. -/
structure HeaderBlind (zones : List Zone) (queryBuffer queryBuffer' : Memory)
    (header header' : MessageHeader) (body : Bytes) : Prop where
  same : (receive zones queryBuffer' (header'.octets ++ body)).outcome =
    (receive zones queryBuffer (header.octets ++ body)).outcome
  rcode : RcodeOk (processQuestions (some maxReplyBuffer) zones
    (received queryBuffer (header.octets ++ body)) ((header.octets ++ body).take maxQueryBuffer).length
    header [])
  rcode' : RcodeOk (processQuestions (some maxReplyBuffer) zones
    (received queryBuffer' (header'.octets ++ body)) ((header'.octets ++ body).take maxQueryBuffer).length
    header' [])

theorem rcodeOk_error (e : Fault) (b : Bytes) : RcodeOk (.error e, b) := fun _ h => by cases h

theorem rcodeOk_built {num : UInt16} {truncated : Bool} {o : Outgoing} {t : Referrals} {rest : Bytes} :
    RcodeOk (.ok (), (replyHeader header num truncated o t).octets ++ rest) ↔ header.getRcode = 0 := by
  have hparse := MessageHeader.ofBuffer_append (replyHeader header num truncated o t) rest
  have hrcode : (replyHeader header num truncated o t).getRcode = header.getRcode :=
    replyHeader_and (by decide) (by decide) (by decide) (by decide) ..
  constructor
  · intro h
    obtain ⟨hdr, hhdr, h0⟩ := h _ rfl
    cases hparse.symm.trans hhdr
    rw [← hrcode, h0]
  · rintro h0 reply ⟨⟩
    exact ⟨_, hparse, hrcode.trans h0⟩

theorem blind_iff (h : Twins header header') (hn : 12 ≤ n)
    (hagree : Agree mem mem' (List.range' 12 (n - 12))) :
    (outcomeOf header' (processQuestions (some maxReplyBuffer) zones mem' n header' []) =
        outcomeOf header (processQuestions (some maxReplyBuffer) zones mem n header []) ∧
      RcodeOk (processQuestions (some maxReplyBuffer) zones mem n header []) ∧
      RcodeOk (processQuestions (some maxReplyBuffer) zones mem' n header' [])) ↔
    header'.flags &&& (pathOf zones mem n header).echoed =
        header.flags &&& (pathOf zones mem n header).echoed ∧
      (pathOf zones mem n header = .built → header.getRcode = 0) := by
  rcases parseQuestions_agree hn hagree h.qdcount (resize [] MessageHeader.size) with
    heq | ⟨ex, s, ex', s', hparse, hcatch, hparse', hcatch'⟩
  · rcases processQuestions_path zones mem n header with
      ⟨hpath, num, truncated, o, t, rest, hbuilt⟩ | ⟨e, b, hpath, herror⟩
    · rw [hpath, hbuilt mem header rfl, hbuilt mem' header' heq, rcodeOk_built, rcodeOk_built]
      have hout : ∀ hdr, outcomeOf hdr (.ok (), (replyHeader hdr num truncated o t).octets ++ rest) =
        .sent ((replyHeader hdr num truncated o t).octets ++ rest) := fun _ => rfl
      rw [hout, hout, sent_inj, replyHeader_eq_iff h]
      constructor
      · rintro ⟨hbits, hrcode, -⟩
        exact ⟨hbits, fun _ => hrcode⟩
      · rintro ⟨hbits, hrcode⟩
        have hrcode' : header'.getRcode = header.getRcode := and_eq_of_part (by decide) hbits
        exact ⟨hbits, hrcode rfl, hrcode'.trans (hrcode rfl)⟩
    · rw [hpath, herror mem header rfl, herror mem' header' heq]
      simp only [rcodeOk_error, and_true]
      rcases e with ex | - | -
      · cases hc : catchClause ex.type with
        | none => simp [outcomeOf, Path.ofFault, hc, Path.echoed]
        | some c =>
          have hpath : Path.ofFault (.raised ex) = .error := by simp [Path.ofFault, hc]
          simp only [outcomeOf, hc]
          rw [hpath, errorReply_eq_iff h]
          simp
      · simp [outcomeOf, Path.ofFault, Path.echoed]
      · simp [outcomeOf, Path.ofFault, Path.echoed]
  · have hpath : pathOf zones mem n header = .error := by
      simp only [pathOf, hparse, Path.ofFault, hcatch, Option.isSome_some, if_true]
    simp only [hpath, processQuestions, hparse, hparse', outcomeOf, hcatch, hcatch', rcodeOk_error, and_true]
    rw [errorReply_eq_iff h]
    simp

theorem received_body {a : Bytes} {i : ℕ} (queryBuffer : Memory)
    (hi : i < ((a ++ body).take maxQueryBuffer).length) (ha : a.length ≤ i) :
    received queryBuffer (a ++ body) i = body.getD (i - a.length) 0 := by
  have hbody : i - a.length < body.length := by
    rw [List.length_take, List.length_append] at hi
    omega
  rw [received, List.getD, List.getElem?_eq_getElem hi, Option.getD_some, List.getElem_take,
    List.getElem_append_right ha, List.getD, List.getElem?_eq_getElem hbody, Option.getD_some]

/-- **The bits of two queries that differ in them do not matter** exactly where those that are echoed agree,
and `RCODE` is 0 where it is echoed. -/
theorem headerBlind_iff (h : Twins header header') (zones : List Zone) (queryBuffer queryBuffer' : Memory)
    (body : Bytes) : HeaderBlind zones queryBuffer queryBuffer' header header' body ↔
      let path := pathOf zones (received queryBuffer (header.octets ++ body))
        ((header.octets ++ body).take maxQueryBuffer).length header
      header'.flags &&& path.echoed = header.flags &&& path.echoed ∧
        (path = .built → header.getRcode = 0) := by
  dsimp only
  have hlen : ((header'.octets ++ body).take maxQueryBuffer).length =
      ((header.octets ++ body).take maxQueryBuffer).length := by
    simp
  have hh := ofBuffer_received header queryBuffer body
  have hn := (MessageHeader.holds_of_ofBuffer hh).1
  have hout : (receive zones queryBuffer (header.octets ++ body)).outcome = _ :=
    receive_standard hh h.qr h.opcode
  have hout' : (receive zones queryBuffer' (header'.octets ++ body)).outcome = _ :=
    receive_standard (ofBuffer_received header' queryBuffer' body) h.qr' h.opcode'
  have hagree : Agree (received queryBuffer (header.octets ++ body))
      (received queryBuffer' (header'.octets ++ body))
      (List.range' 12 (((header.octets ++ body).take maxQueryBuffer).length - 12)) := by
    intro i hi
    have hi := List.mem_range'_1.mp hi
    rw [received_body _ (by rw [hlen]; omega) hi.1, received_body _ (by omega) hi.1,
      MessageHeader.length_octets, MessageHeader.length_octets]
  rw [hlen] at hout'
  rw [← blind_iff h hn hagree, ← hout, ← hout']
  constructor
  · rintro ⟨hsame, hrcode, hrcode'⟩
    rw [hlen] at hrcode'
    exact ⟨hsame, hrcode, hrcode'⟩
  · rintro ⟨hsame, hrcode, hrcode'⟩
    refine ⟨hsame, hrcode, ?_⟩
    rw [hlen]
    exact hrcode'

/-- A zone with an address. -/
def zoneWithAddress : Zone := { label := [97], a := [1], soa := some {} }

/-- The question for its address. -/
def addressQuestion : Bytes := encodeQuestion ⟨[[97]], 1, 1⟩

/-- A query with `RCODE` 3 is answered with the address and a name error. -/
theorem not_headerBlind : ¬ ∀ (zones : List Zone) (queryBuffer queryBuffer' : Memory)
    (header header' : MessageHeader) (body : Bytes), Twins header header' →
      HeaderBlind zones queryBuffer queryBuffer' header header' body := by
  intro h
  have hblind := h [zoneWithAddress] (fun _ => 0) (fun _ => 0) ⟨7, 0, 1, 0, 0, 0⟩ ⟨7, 3, 1, 0, 0, 0⟩
    addressQuestion (by constructor <;> decide)
  exact absurd hblind.same (by decide +kernel)

/-- The bit `AA` of a query that is answered does not matter. -/
theorem headerBlind_aa : HeaderBlind [zoneWithAddress] (fun _ => 0) (fun _ => 1) ⟨7, 0, 1, 0, 0, 0⟩
    ⟨7, 0x0400, 1, 0, 0, 0⟩ addressQuestion :=
  (headerBlind_iff (by constructor <;> decide) _ _ _ _).mpr ⟨by decide +kernel, fun _ => by decide⟩

end VUbercool.Dns
