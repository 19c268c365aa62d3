import VUbercool.Dns.LabelParser
import VUbercool.Dns.Frame

/-!
# The question section

What `ProcessQuestions` makes of the questions of a query: `bytes_left` is never decremented, so every
round of its loop is about the first question.

* `questionRound_plain`, `rounds_ok`, `rounds_error`: a round, and all rounds.
* `StandardQuery`: a query with uncompressed questions. `QuestionsKept`: they are parsed one by one, and
  every reply repeats them.
* `questionsKept_iff`: that is so exactly where all questions are equal.
-/

namespace VUbercool.Dns

open Octets Rfc1035 Proc

variable {mem : Memory} {n k : ℕ} {q : Rfc1035.Question}

/-! ## The loop -/

/-- The question that is parsed from `q` at the start of the body. -/
def asked (q : Rfc1035.Question) (offset : UInt16) : Question :=
  { names := labelRefs 12 q.name
    size := textLength q.name + 1
    bufferSize := (encodeLabels q.name).length + 1
    qtype := q.qtype
    qclass := q.qclass
    offset := offset }

/-- What a question asks. -/
def Question.content (q : Question) : Rfc1035.Question := ⟨q.getLabels, q.qtype, q.qclass⟩

theorem content_asked (q : Rfc1035.Question) (offset : UInt16) : (asked q offset).content = q := by
  simp [Question.content, asked, LabelHeader.getLabels, map_data_labelRefs]

theorem getSize_asked (q : Rfc1035.Question) (offset : UInt16) :
    (asked q offset).getSize = (encodeQuestion q).length := by
  simp [Question.getSize, asked, LabelHeader.getSize, length_encodeQuestion]

/-- A question the parser accepts, at the start of a body that goes on to `n`. -/
structure PlainQuestion (mem : Memory) (n : ℕ) (q : Rfc1035.Question) : Prop where
  name : PlainName q.name
  class_ : q.qclass = 1 ∨ q.qclass = 255
  holds : Holds mem 12 (encodeQuestion q)
  inside : 12 + (encodeQuestion q).length ≤ n

/-- What a round adds. -/
def Parsed.add (s : Parsed) (q : Rfc1035.Question) : Parsed :=
  { questions := s.questions ++ [asked q (UInt16.ofNat s.replyBuffer.length)]
    pointers := s.pointers ++ labelRefs 12 q.name
    numQuestions := s.numQuestions + 1
    replyBuffer := s.replyBuffer ++ encodeQuestion q }

/-- **A round**: it is about the first question. -/
theorem questionRound_plain (h : PlainQuestion mem n q) (s : Parsed) :
    ∃ s', questionRound mem n (n - MessageHeader.size) s =
      if s.replyBuffer.length + (encodeQuestion q).length < maxReplyBuffer then (.ok (), s.add q)
      else (.error (warThrow .invalidQuery "Too many or too thick questions!"), s') := by
  have hin := h.inside
  have hp : n - (n - MessageHeader.size) = 12 := by rw [MessageHeader.size]; omega
  have hpos : ¬ n - MessageHeader.size = 0 := by
    rw [length_encodeQuestion] at hin; rw [MessageHeader.size]; omega
  have hparse : parseQuestion mem n (n - MessageHeader.size) s =
      .ok (asked q (UInt16.ofNat s.replyBuffer.length), s.pointers ++ labelRefs 12 q.name) := by
    rw [parseQuestion, hp]
    exact question_parse_plain h.name h.holds (by rw [MessageHeader.size]; omega) _ _
  have hclass : ¬ ((asked q (UInt16.ofNat s.replyBuffer.length)).qclass ≠ 1 ∧
      (asked q (UInt16.ofNat s.replyBuffer.length)).qclass ≠ 255) := by
    have := h.class_
    simp only [asked]
    tauto
  have hread : readBytes mem 12 (encodeQuestion q).length = encodeQuestion q := h.holds
  refine ⟨{ s with
    questions := s.questions ++ [asked q (UInt16.ofNat s.replyBuffer.length)]
    pointers := s.pointers ++ labelRefs 12 q.name }, ?_⟩
  rw [questionRound, if_neg hpos, bind_ok (get_apply s), hparse, bind_ok (ofExcept_apply _ s)]
  dsimp only
  rw [bind_ok (modify_apply _ s), if_neg hclass, bind_ok (get_apply _), hp, getSize_asked, hread]
  split_ifs <;> rfl

theorem flatMap_replicate_length (k : ℕ) (q : Rfc1035.Question) :
    ((List.replicate k q).flatMap encodeQuestion).length = k * (encodeQuestion q).length := by
  simp [List.length_flatMap]

theorem forM_range_succ {ε σ : Type} (k : ℕ) (x : Proc ε σ Unit) :
    ((List.range (k + 1)).forM fun _ => x) = x >>= fun _ => (List.range k).forM fun _ => x := by
  rw [List.range_succ_eq_map, forM_cons, forM_const x (b := List.range k) (by simp)]

/-- The rounds, where they fit. -/
theorem rounds_ok (h : PlainQuestion mem n q) : ∀ {k : ℕ} {s : Parsed},
    (0 < k → s.replyBuffer.length + k * (encodeQuestion q).length < maxReplyBuffer) →
    ∃ s', ((List.range k).forM fun _ => questionRound mem n (n - MessageHeader.size)) s = (.ok (), s') ∧
      s'.questions.map Question.content = s.questions.map Question.content ++ List.replicate k q ∧
      s'.numQuestions = s.numQuestions + UInt16.ofNat k ∧
      s'.replyBuffer = s.replyBuffer ++ (List.replicate k q).flatMap encodeQuestion
  | 0, s, _ => ⟨s, rfl, by simp, by simp, by simp⟩
  | k + 1, s, hfit => by
    have hfit := hfit (Nat.succ_pos k)
    have hlen : (s.add q).replyBuffer.length =
        s.replyBuffer.length + (encodeQuestion q).length := by simp [Parsed.add]
    rw [Nat.succ_mul] at hfit
    obtain ⟨_, hround⟩ := questionRound_plain h s
    rw [if_pos (by omega)] at hround
    obtain ⟨s', hrun, hq, hn, hb⟩ := rounds_ok h (k := k) (s := s.add q) fun _ => by omega
    refine ⟨s', by rw [forM_range_succ, bind_ok hround, hrun], ?_, ?_, ?_⟩
    · rw [hq, List.replicate_succ]
      simp [Parsed.add, content_asked]
    · rw [hn]
      simp only [Parsed.add, UInt16.ofNat_add, UInt16.add_assoc, UInt16.reduceOfNat]
      rw [UInt16.add_comm 1]
    · rw [hb, List.replicate_succ, List.flatMap_cons]
      simp [Parsed.add]

/-- The rounds, where they do not fit. -/
theorem rounds_error (h : PlainQuestion mem n q) : ∀ {k : ℕ} {s : Parsed}, 0 < k →
    maxReplyBuffer ≤ s.replyBuffer.length + k * (encodeQuestion q).length →
    ∃ s', ((List.range k).forM fun _ => questionRound mem n (n - MessageHeader.size)) s =
      (.error (warThrow .invalidQuery "Too many or too thick questions!"), s')
  | k + 1, s, _, hfit => by
    rw [Nat.succ_mul] at hfit
    rw [forM_range_succ]
    obtain ⟨s₁, hround⟩ := questionRound_plain h s
    split_ifs at hround with hlt
    · have hlen : (s.add q).replyBuffer.length =
          s.replyBuffer.length + (encodeQuestion q).length := by simp [Parsed.add]
      obtain rfl | hk := Nat.eq_zero_or_pos k
      · omega
      obtain ⟨s', hrun⟩ := rounds_error h (k := k) (s := s.add q) hk (by omega)
      exact ⟨s', by rw [bind_ok hround, hrun]⟩
    · exact ⟨_, bind_error hround⟩

/-! ## The reply -/

/-- **A standard query** whose header announces the uncompressed questions `qs` its body begins with;
they fit in the reply buffer. -/
structure StandardQuery (mem : Memory) (n : ℕ) (header : MessageHeader) (qs : List Rfc1035.Question) :
    Prop where
  parsed : MessageHeader.ofBuffer mem n = .ok header
  qr : header.getQr = false
  opcode : header.getOpcode = 0
  qdcount : header.qdcount.toNat = qs.length
  ne_nil : qs ≠ []
  name : ∀ q ∈ qs, PlainName q.name
  class_ : ∀ q ∈ qs, q.qclass = 1 ∨ q.qclass = 255
  holds : Holds mem 12 (qs.flatMap encodeQuestion)
  inside : 12 + (qs.flatMap encodeQuestion).length ≤ n
  fits : 12 + (qs.flatMap encodeQuestion).length ≤ maxReplyBuffer

theorem StandardQuery.first {header : MessageHeader} {qs : List Rfc1035.Question}
    (h : StandardQuery mem n header (q :: qs)) : PlainQuestion mem n q where
  name := h.name q List.mem_cons_self
  class_ := h.class_ q List.mem_cons_self
  holds := (holds_append.mp (by simpa using h.holds)).1
  inside := by
    have := h.inside
    rw [List.flatMap_cons, List.length_append] at this
    omega

theorem StandardQuery.parse_one {header : MessageHeader} (h : StandardQuery mem n header [q])
    (hfit : 12 + (encodeQuestion q).length < maxReplyBuffer) (b : Bytes) :
    parseQuestions mem n header ⟨[], [], 0, resize b MessageHeader.size⟩ =
      (.ok (), Parsed.add ⟨[], [], 0, resize b MessageHeader.size⟩ q) := by
  obtain ⟨_, hround⟩ := questionRound_plain h.first ⟨[], [], 0, resize b MessageHeader.size⟩
  rw [if_pos (by rw [length_resize, MessageHeader.size]; omega)] at hround
  rw [parseQuestions, h.qdcount, List.length_singleton, forM_range_succ, bind_ok hround]
  rfl

/-- **What the questions of a query are to lead to**: every question is parsed, and every reply built by
`ProcessQuestions` repeats the question section. -/
def QuestionsKept (mem : Memory) (n : ℕ) (header : MessageHeader) (qs : List Rfc1035.Question) : Prop :=
  ∃ s, parseQuestions mem n header ⟨[], [], 0, resize [] MessageHeader.size⟩ = (.ok (), s) ∧
    s.questions.map Question.content = qs ∧
    ∀ zones reply,
      processQuestions (some maxReplyBuffer) zones mem n header [] = (.ok (), reply) →
      (∃ h, MessageHeader.ofBuffer (memoryOf reply) reply.length = .ok h ∧ h.qdcount = header.qdcount) ∧
        (reply.drop 12).take (qs.flatMap encodeQuestion).length = qs.flatMap encodeQuestion

/-- **When the questions are kept.** They are so exactly where all questions are equal and do not fill
the reply buffer. -/
theorem questionsKept_iff {header : MessageHeader} {qs : List Rfc1035.Question}
    (h : StandardQuery mem n header qs) : QuestionsKept mem n header qs ↔
      (∀ q ∈ qs, ∀ q' ∈ qs, q = q') ∧ 12 + (qs.flatMap encodeQuestion).length < maxReplyBuffer := by
  obtain ⟨q, rest, rfl⟩ := List.exists_cons_of_ne_nil h.ne_nil
  have hlen : (resize [] MessageHeader.size).length = 12 := rfl
  have hpos : 0 < header.qdcount.toNat := by rw [h.qdcount]; simp
  constructor
  · rintro ⟨s, hparse, hcontent, -⟩
    have hfit : 12 + header.qdcount.toNat * (encodeQuestion q).length < maxReplyBuffer := by
      by_contra hno
      obtain ⟨s', hrun⟩ := rounds_error h.first (s := ⟨[], [], 0, resize [] MessageHeader.size⟩) hpos
        (by simp only [hlen]; omega)
      rw [parseQuestions, hrun] at hparse
      cases hparse
    obtain ⟨s', hrun, hq, -⟩ := rounds_ok h.first (s := ⟨[], [], 0, resize [] MessageHeader.size⟩)
      (k := header.qdcount.toNat) fun _ => by simpa only [hlen] using hfit
    rw [parseQuestions, hrun] at hparse
    cases hparse
    have hall : q :: rest = List.replicate header.qdcount.toNat q := by simpa [hcontent] using hq
    refine ⟨fun x hx y hy => ?_, ?_⟩
    · rw [hall] at hx hy
      rw [List.eq_of_mem_replicate hx, List.eq_of_mem_replicate hy]
    · rw [hall, flatMap_replicate_length]
      exact hfit
  · rintro ⟨hall, hfit⟩
    have hrep : q :: rest = List.replicate header.qdcount.toNat q := by
      rw [h.qdcount]
      exact List.eq_replicate_of_mem fun x hx => hall x hx q List.mem_cons_self
    rw [hrep, flatMap_replicate_length] at hfit
    obtain ⟨s, hrun, hq, hn, hb⟩ := rounds_ok h.first (s := ⟨[], [], 0, resize [] MessageHeader.size⟩)
      (k := header.qdcount.toNat) fun _ => by simpa only [hlen] using hfit
    rw [← hrep] at hq hb
    refine ⟨s, hrun, by simpa using hq, fun zones reply hreply => ?_⟩
    obtain ⟨s', truncated, o, t, hparse, ⟨rb, ho⟩, rfl⟩ := processQuestions_ok hreply
    rw [parseQuestions, hrun] at hparse
    cases hparse
    have hreply : finish header s.numQuestions truncated o t =
        (replyHeader header s.numQuestions truncated o t).octets ++
          ((q :: rest).flatMap encodeQuestion ++ rb) := by
      rw [finish, MessageHeader.write, ← ho, hb, List.append_assoc]
      rfl
    rw [hreply]
    refine ⟨⟨_, MessageHeader.ofBuffer_append _ _, ?_⟩, ?_⟩
    · simp [replyHeader, MessageHeader.setQdCount, MessageHeader.setAnCount, MessageHeader.setNsCount,
        MessageHeader.setArCount, hn]
    · rw [← MessageHeader.length_octets (replyHeader header s.numQuestions truncated o t),
        List.drop_left, List.take_left]

/-- The octets of a query. -/
def queryOctets (header : MessageHeader) (qs : List Rfc1035.Question) : Bytes :=
  header.octets ++ qs.flatMap encodeQuestion

theorem standardQuery_ab : StandardQuery
    (memoryOf (queryOctets ⟨7, 0, 2, 0, 0, 0⟩ [⟨[[97]], 1, 1⟩, ⟨[[98]], 1, 1⟩])) 26
    ⟨7, 0, 2, 0, 0, 0⟩ [⟨[[97]], 1, 1⟩, ⟨[[98]], 1, 1⟩] := by
  constructor <;> decide +kernel

/-- Of two different questions the second is not parsed. -/
theorem not_questionsKept : ¬ ∀ (mem : Memory) (n : ℕ) (header : MessageHeader)
    (qs : List Rfc1035.Question), StandardQuery mem n header qs → QuestionsKept mem n header qs := by
  intro h
  obtain ⟨s, hparse, hcontent, -⟩ := h _ _ _ _ standardQuery_ab
  have hcomputed := congrArg (fun r => r.2.questions.map Question.content) hparse
  exact absurd (hcomputed.trans hcontent) (by decide +kernel)

/-- One question is kept. -/
theorem questionsKept_a : QuestionsKept (memoryOf (queryOctets ⟨7, 0, 1, 0, 0, 0⟩ [⟨[[97]], 1, 1⟩])) 19
    ⟨7, 0, 1, 0, 0, 0⟩ [⟨[[97]], 1, 1⟩] :=
  (questionsKept_iff (by constructor <;> decide +kernel)).mpr (by decide)

end VUbercool.Dns
