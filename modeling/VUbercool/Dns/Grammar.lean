import VUbercool.Dns.Inside

/-!
# The grammar of a question

* `QuestionAtStart`: an octet string begins with a question.
* `question_parse_first`: what the constructor of `Question` accepts, with no label known before, begins
  with one.
* `question_parse_iff`: it accepts exactly these, and what it leaves is the question they begin with.
-/

namespace VUbercool.Dns

open Octets Rfc1035

variable {mem : Memory} {p size : ℕ} {offset : UInt16}

/-- **The grammar**: `b` begins with labels of 1 to 63 legal characters, whose lengths plus one add up
to at most 255, with a zero octet behind them, and with the four octets of a type and a class. -/
structure QuestionAtStart (b : Bytes) (q : Rfc1035.Question) : Prop where
  name : PlainName q.name
  begins : encodeQuestion q <+: b

instance (b : Bytes) (q : Rfc1035.Question) : Decidable (QuestionAtStart b q) :=
  decidable_of_iff (PlainName q.name ∧ encodeQuestion q <+: b) ⟨fun h => ⟨h.1, h.2⟩, fun h => ⟨h.1, h.2⟩⟩

theorem begins_readBytes {l : Bytes} :
    l <+: readBytes mem p size ↔ l.length ≤ size ∧ Holds mem p l := by
  rw [List.prefix_iff_eq_take, Holds, readBytes, readBytes, ← List.map_take, List.take_range]
  constructor
  · intro h
    have hle : l.length ≤ size := by
      have hlen := congrArg List.length h
      rw [List.length_map, List.length_range] at hlen
      omega
    rw [min_eq_left hle] at h
    exact ⟨hle, h.symm⟩
  · rintro ⟨hle, h⟩
    rw [min_eq_left hle, h]

theorem holds_be16 (mem : Memory) (p : ℕ) : Holds mem p (be16 (ntohs (load16 mem p))) := by
  rw [ntohs_load16, be16_ofBe16]
  rfl

/-- **What the constructor accepts** begins with a question. -/
theorem question_parse_first {r : Question × List StringRef}
    (h : Question.parse mem p size [] offset = .ok r) :
    ∃ q, QuestionAtStart (readBytes mem p size) q := by
  rw [Question.parse] at h
  cases hl : LabelHeader.parse mem p size [] with
  | error e =>
    rw [hl] at h
    cases h
  | ok s =>
    obtain ⟨header, known⟩ := s
    rw [hl] at h
    simp only [bind, Except.bind] at h
    split_ifs at h with hend
    have hpos : p < p + size := by
      rw [LabelHeader.parse] at hl
      split_ifs at hl
      omega
    rw [show size = p + size - p by omega] at hl
    obtain ⟨ls, hname, hls, h0, hsize⟩ := parse_first hpos hl
    rw [hsize] at hend
    refine ⟨⟨ls, ntohs (load16 mem (p + (encodeLabels ls).length + 1)),
      ntohs (load16 mem (p + (encodeLabels ls).length + 1 + 2))⟩, hname, begins_readBytes.mpr ⟨?_, ?_⟩⟩
    · rw [length_encodeQuestion]
      dsimp only
      omega
    · rw [encodeQuestion, holds_append, holds_cons, holds_append]
      exact ⟨hls.holds, h0, holds_be16 _ _, holds_be16 _ _⟩

/-- **The question parser accepts exactly its grammar.** With no label known before, the constructor of
`Question` succeeds exactly if the octets of its segment begin with a question. That question is what it
then holds: its labels in order, which become the known ones, its type and class, and `getSize` is the
number of octets they are stored in. -/
theorem question_parse_iff (mem : Memory) (p size : ℕ) (offset : UInt16) :
    ((∃ r, Question.parse mem p size [] offset = .ok r) ↔
      ∃ q, QuestionAtStart (readBytes mem p size) q) ∧
    ∀ q known, Question.parse mem p size [] offset = .ok (q, known) →
      QuestionAtStart (readBytes mem p size) q.content ∧ q.names = labelRefs p q.getLabels ∧
      known = q.names ∧ q.getSize = (encodeQuestion q.content).length ∧
      encodeQuestion q.content = (readBytes mem p size).take q.getSize := by
  have hparse : ∀ q, QuestionAtStart (readBytes mem p size) q → _ := fun q hq =>
    question_parse_plain hq.name (begins_readBytes.mp hq.begins).2 (begins_readBytes.mp hq.begins).1 [] offset
  refine ⟨⟨fun ⟨_, h⟩ => question_parse_first h, fun ⟨q, hq⟩ => ⟨_, hparse q hq⟩⟩, ?_⟩
  intro q known h
  obtain ⟨c, hc⟩ := question_parse_first h
  rw [hparse c hc, List.nil_append] at h
  cases h
  have hlabels : (labelRefs p c.name).map StringRef.data = c.name := map_data_labelRefs p c.name
  refine ⟨?_, ?_, rfl, ?_, ?_⟩
  · simpa only [Question.content, LabelHeader.getLabels, hlabels] using hc
  · simp only [LabelHeader.getLabels, hlabels]
  · simp only [Question.content, LabelHeader.getLabels, hlabels, Question.getSize, LabelHeader.getSize,
      length_encodeQuestion, Nat.add_assoc]
  · have htake := List.prefix_iff_eq_take.mp hc.begins
    rw [length_encodeQuestion] at htake
    simpa only [Question.content, LabelHeader.getLabels, hlabels, Question.getSize, LabelHeader.getSize,
      Nat.add_assoc] using htake

/-- The question for the address of `a`, with one octet behind it, is accepted; cut in front of its end
it is not. -/
example : (Question.parse (memoryOf (encodeQuestion ⟨[[97]], 1, 1⟩ ++ [7])) 0 8 [] 12).isOk = true ∧
    (Question.parse (memoryOf (encodeQuestion ⟨[[97]], 1, 1⟩ ++ [7])) 0 6 [] 12).isOk = false := by
  decide +kernel

end VUbercool.Dns
