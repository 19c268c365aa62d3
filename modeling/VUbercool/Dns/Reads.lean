import VUbercool.Dns.Questions

/-!
# What the parser reads

* `labelStepReads`, `labelLoopReads`, `LabelHeader.reads`, `Question.reads`, `questionsReads`,
  `datagramReads`: the offsets that `MessageHeader`, `LabelHeader` and `Question` read.
* `Agree.question`, `Agree.questions`: memories that agree on what is read lead to the same questions.
* `le_questionsReads`: the questions are read behind the header.
-/

namespace VUbercool.Dns

open Octets Rfc1035 Proc

variable {mem mem' : Memory} {stop n : ℕ} {known : List StringRef}

/-! ## Reads -/

/-- The offsets that a round of the loop in the constructor of `LabelHeader` reads: the length octet, and
the octets of a label that fits or both octets of a pointer that fits. -/
def labelStepReads (mem : Memory) (stop : ℕ) (st : LabelState) : List ℕ :=
  if mem st.p = 0 then [st.p]
  else if (mem st.p).toNat < 64 then
    if st.p + 1 + (mem st.p).toNat > stop ∨ st.size + (mem st.p).toNat > 255 then [st.p]
    else st.p :: List.range' (st.p + 1) (mem st.p).toNat
  else if mem st.p &&& 0xC0 = 0xC0 then
    if st.p + 1 ≥ stop ∨ st.size + 2 > 255 then [st.p] else [st.p, st.p, st.p + 1]
  else [st.p]

/-- The offsets that the loop reads. -/
def labelLoopReads (mem : Memory) (stop : ℕ) : ℕ → LabelState → List ℕ
  | 0, _ => []
  | fuel + 1, st => labelStepReads mem stop st ++
    match labelStep mem stop st with
    | .ok (false, st) => labelLoopReads mem stop fuel st
    | _ => []

/-- The offsets that the constructor of `LabelHeader` reads. -/
def LabelHeader.reads (mem : Memory) (buffer size : ℕ) (knownLabels : List StringRef) : List ℕ :=
  if size < 1 then []
  else labelLoopReads mem (buffer + size) labelRounds
    { p := buffer, isTraversingPointer := false, names := [], size := 0, bufferSize := 0,
      knownLabels := knownLabels }

/-- The offsets that the constructor of `Question` reads. -/
def Question.reads (mem : Memory) (buffer size : ℕ) (knownLabels : List StringRef) : List ℕ :=
  LabelHeader.reads mem buffer size knownLabels ++
    match LabelHeader.parse mem buffer size knownLabels with
    | .ok (header, _) =>
      let stop := buffer + size
      let start := buffer + header.getSize
      if start + 4 > stop then [] else List.range' start 4
    | .error _ => []

/-- The offsets that the questions read in at most `rounds` rounds of the loop of `ProcessQuestions`. -/
def questionsReads (query : Memory) (queryLen bytesLeft : ℕ) : ℕ → Parsed → List ℕ
  | 0, _ => []
  | rounds + 1, s =>
    (if bytesLeft = 0 then [] else Question.reads query (queryLen - bytesLeft) bytesLeft s.pointers) ++
    match questionRound query queryLen bytesLeft s with
    | (.ok (), s) => questionsReads query queryLen bytesLeft rounds s
    | (.error _, _) => []

/-- The offsets that the constructor of `MessageHeader` reads. -/
def MessageHeader.reads (size : ℕ) : List ℕ :=
  if size < MessageHeader.size then [] else List.range MessageHeader.size

/-- **The offsets that are read of a datagram**: by its header, and in `ProcessQuestions` by its
questions. -/
def datagramReads (query : Memory) (queryLen : ℕ) : List ℕ :=
  MessageHeader.reads queryLen ++
    match MessageHeader.ofBuffer query queryLen with
    | .ok header =>
      if header.getQr = false ∧ header.getOpcode = 0 then
        questionsReads query queryLen (queryLen - MessageHeader.size) header.qdcount.toNat
          ⟨[], [], 0, resize [] MessageHeader.size⟩
      else []
    | .error _ => []

/-! ## Rounds -/

theorem p_mem_labelStepReads (st : LabelState) : st.p ∈ labelStepReads mem stop st := by
  unfold labelStepReads
  split_ifs <;> simp

/-- **A round reads its length octet, and else nothing behind the segment.** -/
theorem mem_labelStepReads {st : LabelState} {i : ℕ} (h : i ∈ labelStepReads mem stop st) :
    i = st.p ∨ st.p < i ∧ i < stop := by
  unfold labelStepReads at h
  split_ifs at h with h0 h64 hfit hptr hfit
  · exact .inl (List.mem_singleton.mp h)
  · exact .inl (List.mem_singleton.mp h)
  · rcases List.mem_cons.mp h with h | h
    · exact .inl h
    · have := List.mem_range'_1.mp h
      exact .inr (by omega)
  · exact .inl (List.mem_singleton.mp h)
  · simp only [List.mem_cons, List.not_mem_nil, or_false] at h
    rcases h with h | h | h
    · exact .inl h
    · exact .inl h
    · exact .inr (by omega)
  · exact .inl (List.mem_singleton.mp h)

theorem labelStepReads_lt {st : LabelState} (hp : st.p < stop) {i : ℕ}
    (h : i ∈ labelStepReads mem stop st) : i < stop := by
  rcases mem_labelStepReads h with rfl | h
  · exact hp
  · exact h.2

theorem labelLoopReads_next {st st' : LabelState} {fuel : ℕ}
    (h : labelStep mem stop st = .ok (false, st')) : labelLoopReads mem stop (fuel + 1) st =
      labelStepReads mem stop st ++ labelLoopReads mem stop fuel st' := by
  rw [labelLoopReads, h]

theorem labelLoopReads_done {st st' : LabelState} {fuel : ℕ}
    (h : labelStep mem stop st = .ok (true, st')) :
    labelLoopReads mem stop (fuel + 1) st = labelStepReads mem stop st := by
  rw [labelLoopReads, h]
  exact List.append_nil _

theorem labelLoopReads_error {st : LabelState} {fuel : ℕ} {e : Fault}
    (h : labelStep mem stop st = .error e) :
    labelLoopReads mem stop (fuel + 1) st = labelStepReads mem stop st := by
  rw [labelLoopReads, h]
  exact List.append_nil _

/-! ## What is read determines what is parsed -/

/-- Two memories agree on the offsets of a list. -/
def Agree (mem mem' : Memory) (is : List ℕ) : Prop := ∀ i ∈ is, mem' i = mem i

namespace Agree

theorem left {is js : List ℕ} (h : Agree mem mem' (is ++ js)) : Agree mem mem' is := fun i hi =>
  h i (List.mem_append_left _ hi)

theorem right {is js : List ℕ} (h : Agree mem mem' (is ++ js)) : Agree mem mem' js := fun i hi =>
  h i (List.mem_append_right _ hi)

theorem readBytes {p len : ℕ} (h : Agree mem mem' (List.range' p len)) :
    readBytes mem' p len = readBytes mem p len :=
  List.map_congr_left fun i hi => h _ (List.mem_range'_1.mpr (by
    have := List.mem_range.mp hi
    omega))

theorem load16 {p : ℕ} (h0 : mem' p = mem p) (h1 : mem' (p + 1) = mem (p + 1)) :
    load16 mem' p = load16 mem p := by
  rw [Dns.load16, Dns.load16, h0, h1]

theorem step {st : LabelState} (h : Agree mem mem' (labelStepReads mem stop st)) :
    labelStep mem' stop st = labelStep mem stop st := by
  have hp : mem' st.p = mem st.p := h _ (p_mem_labelStepReads st)
  unfold labelStepReads at h
  by_cases h0 : mem st.p = 0
  · simp only [labelStep, hp, if_pos h0]
  by_cases h64 : (mem st.p).toNat < 64
  · simp only [labelStep, hp, if_neg h0, if_pos h64]
    by_cases hend : st.p + 1 + (mem st.p).toNat > stop
    · simp only [if_pos hend]
    by_cases hsize : st.size + (mem st.p).toNat > 255
    · simp only [if_neg hend, validateSize, if_pos hsize, bind, Except.bind]
    · rw [if_neg h0, if_pos h64, if_neg (by omega)] at h
      have hlabel : labelAt mem' (st.p + 1) (mem st.p).toNat = labelAt mem (st.p + 1) (mem st.p).toNat := by
        rw [labelAt, labelAt, Agree.readBytes fun i hi => h i (List.mem_cons_of_mem _ hi)]
      rw [hlabel]
  by_cases hptr : mem st.p &&& 0xC0 = 0xC0
  · simp only [labelStep, hp, if_neg h0, if_neg h64, if_pos hptr]
    by_cases hend : st.p + 1 ≥ stop
    · simp only [if_pos hend]
    by_cases hsize : st.size + 2 > 255
    · simp only [if_neg hend, validateSize, if_pos hsize, bind, Except.bind]
    · rw [if_neg h0, if_neg h64, if_pos hptr, if_neg (by omega)] at h
      rw [Agree.load16 hp (h _ (by simp))]
  · simp only [labelStep, hp, if_neg h0, if_neg h64, if_neg hptr]

theorem loop : ∀ {fuel : ℕ} {st : LabelState}, Agree mem mem' (labelLoopReads mem stop fuel st) →
    labelLoop mem' stop fuel st = labelLoop mem stop fuel st
  | 0, _, _ => rfl
  | fuel + 1, st, h => by
    unfold labelLoopReads at h
    have hright := h.right
    rw [labelLoop, labelLoop, step h.left]
    cases hs : labelStep mem stop st with
    | error e => rfl
    | ok r =>
      obtain ⟨- | -, st'⟩ := r
      · rw [hs] at hright
        simpa [bind, Except.bind] using loop hright
      · rfl

theorem labels {buffer size : ℕ} (h : Agree mem mem' (LabelHeader.reads mem buffer size known)) :
    LabelHeader.parse mem' buffer size known = LabelHeader.parse mem buffer size known := by
  unfold LabelHeader.reads at h
  unfold LabelHeader.parse
  split_ifs at h ⊢
  · rfl
  · rw [@loop _ _ _ labelRounds _ h]

/-- **A question is determined by what it reads.** -/
theorem question {buffer size : ℕ} (offset : UInt16)
    (h : Agree mem mem' (Question.reads mem buffer size known)) :
    Question.parse mem' buffer size known offset = Question.parse mem buffer size known offset := by
  unfold Question.reads at h
  have hright := h.right
  rw [Question.parse, Question.parse, labels h.left]
  cases hs : LabelHeader.parse mem buffer size known with
  | error e => simp only [bind, Except.bind]
  | ok r =>
    obtain ⟨header, known'⟩ := r
    rw [hs] at hright
    dsimp only at hright
    simp only [bind, Except.bind]
    split_ifs at hright ⊢ with hend
    · rfl
    · have hword : ∀ j < 4, mem' (buffer + header.getSize + j) = mem (buffer + header.getSize + j) :=
        fun j hj => hright _ (List.mem_range'_1.mpr (by omega))
      have h0 : mem' (buffer + header.getSize) = mem (buffer + header.getSize) := hword 0 (by omega)
      rw [Agree.load16 h0 (hword 1 (by omega)), Agree.load16 (hword 2 (by omega)) (hword 3 (by omega))]

end Agree

theorem getSize_le {buffer size : ℕ} {offset : UInt16} {q : Question} {known' : List StringRef}
    (h : Question.parse mem buffer size known offset = .ok (q, known')) : q.getSize ≤ size := by
  rw [Question.parse] at h
  cases hs : LabelHeader.parse mem buffer size known with
  | error e => rw [hs] at h; cases h
  | ok r =>
    rw [hs] at h
    simp only [bind, Except.bind] at h
    split_ifs at h
    cases h
    simp only [Question.getSize]
    omega

/-- **A round is determined by what its question reads and by the rest of the datagram.** -/
theorem Agree.round {left : ℕ} {s : Parsed} (hn : Agree mem mem' (List.range' (n - left) left))
    (h : Agree mem mem' (if left = 0 then [] else Question.reads mem (n - left) left s.pointers)) :
    questionRound mem' n left s = questionRound mem n left s := by
  by_cases h0 : left = 0
  · rw [questionRound, questionRound, if_pos h0, if_pos h0]
  rw [if_neg h0] at h
  have hparse : parseQuestion mem' n left s = parseQuestion mem n left s := h.question _
  rw [questionRound, questionRound, if_neg h0, if_neg h0, bind_ok (get_apply s),
    bind_ok (get_apply s), hparse]
  cases hq : parseQuestion mem n left s with
  | error e => rfl
  | ok r =>
    obtain ⟨question, pointers⟩ := r
    have hsize := getSize_le hq
    have hread : Dns.readBytes mem' (n - left) question.getSize =
        Dns.readBytes mem (n - left) question.getSize :=
      Agree.readBytes fun i hi => hn i (List.mem_range'_1.mpr (by
        have := List.mem_range'_1.mp hi
        omega))
    rw [bind_ok (ofExcept_apply _ s), bind_ok (ofExcept_apply _ s)]
    dsimp only
    rw [hread]

/-- **The questions are determined by what they read and by the rest of the datagram.** -/
theorem Agree.questions {left : ℕ} (hn : Agree mem mem' (List.range' (n - left) left)) :
    ∀ {rounds : ℕ} {s : Parsed}, Agree mem mem' (questionsReads mem n left rounds s) →
      ((List.range rounds).forM fun _ => questionRound mem' n left) s =
        ((List.range rounds).forM fun _ => questionRound mem n left) s
  | 0, _, _ => rfl
  | rounds + 1, s, h => by
    unfold questionsReads at h
    have hright := h.right
    have hround := hn.round h.left
    rw [forM_range_succ, forM_range_succ]
    rcases hr : questionRound mem n left s with ⟨e | u, s'⟩
    · rw [bind_error (hround.trans hr), bind_error hr]
    · rw [hr] at hright
      rw [bind_ok (hround.trans hr), bind_ok hr, Agree.questions hn hright]

/-! ## Where the questions are read -/

theorem questionRound_parsed {left : ℕ} {s s' : Parsed} (h : questionRound mem n left s = (.ok (), s')) :
    left ≠ 0 ∧ ∃ q, parseQuestion mem n left s = .ok (q, s'.pointers) := by
  by_cases h0 : left = 0
  · rw [questionRound, if_pos h0] at h
    cases h
  refine ⟨h0, ?_⟩
  rw [questionRound, if_neg h0, bind_ok (get_apply s)] at h
  cases hq : parseQuestion mem n left s with
  | error e =>
    rw [hq, bind_error (ofExcept_apply _ s)] at h
    cases h
  | ok r =>
    obtain ⟨q, pointers⟩ := r
    rw [hq, bind_ok (ofExcept_apply _ s)] at h
    dsimp only at h
    rw [bind_ok (modify_apply _ s)] at h
    split_ifs at h with hclass
    · cases h
    · rw [bind_ok (get_apply _)] at h
      dsimp only at h
      split_ifs at h with hfits
      · cases h
        exact ⟨q, rfl⟩
      · cases h

/-- The labels of a list begin at `start` or behind it. -/
def Behind (start : ℕ) (known : List StringRef) : Prop := ∀ v ∈ known, start ≤ v.pos

section

variable {start : ℕ}

theorem Behind.step {st st' : LabelState} {done : Bool} (hp : start ≤ st.p)
    (h : Behind start st.knownLabels) (hs : labelStep mem stop st = .ok (done, st')) :
    start ≤ st'.p ∧ Behind start st'.knownLabels := by
  rcases labelStep_ok hs with ⟨-, -, rfl, -⟩ | ⟨-, -, -, -, -, rfl⟩ | ⟨-, -, -, v, hf, rfl⟩
  · exact ⟨hp, h⟩
  · refine ⟨by simp only [LabelState.afterLabel]; omega, fun v hv => ?_⟩
    simp only [LabelState.afterLabel] at hv
    split_ifs at hv
    · exact h v hv
    · rcases List.mem_append.mp hv with hv | hv
      · exact h v hv
      · rw [List.mem_singleton.mp hv]
        exact Nat.le_succ_of_le hp
  · have hv := h v (findPointer_mem hf).1
    exact ⟨by simp only [LabelState.afterPointer, StringRef.stop]; omega, h⟩

theorem Behind.loop : ∀ {fuel : ℕ} {st st' : LabelState}, start ≤ st.p → Behind start st.knownLabels →
    labelLoop mem stop fuel st = .ok st' → Behind start st'.knownLabels
  | 0, _, _, _, _, hl => by cases hl
  | fuel + 1, st, st', hp, h, hl => by
    obtain hs | ⟨st₁, hs, hl⟩ := labelLoop_ok hl
    · exact (h.step hp hs).2
    · obtain ⟨hp₁, h₁⟩ := h.step hp hs
      exact Behind.loop hp₁ h₁ hl

theorem Behind.question {buffer size : ℕ} {offset : UInt16} {q : Question} {known' : List StringRef}
    (hp : start ≤ buffer) (h : Behind start known)
    (hq : Question.parse mem buffer size known offset = .ok (q, known')) : Behind start known' := by
  rw [Question.parse] at hq
  cases hs : LabelHeader.parse mem buffer size known with
  | error e => rw [hs] at hq; cases hq
  | ok r =>
    rw [hs] at hq
    simp only [bind, Except.bind] at hq
    split_ifs at hq
    cases hq
    rw [LabelHeader.parse] at hs
    split_ifs at hs
    cases hl : labelLoop mem (buffer + size) labelRounds ⟨buffer, false, [], 0, 0, known⟩ with
    | error e => rw [hl] at hs; cases hs
    | ok st =>
      rw [hl] at hs
      cases hs
      exact h.loop hp hl

/-- **What the loop reads** is where it stands, or at a label that it knows, or behind. -/
theorem le_labelLoopReads : ∀ {fuel : ℕ} {st : LabelState}, start ≤ st.p → Behind start st.knownLabels →
    ∀ i ∈ labelLoopReads mem stop fuel st, start ≤ i
  | 0, _, _, _ => nofun
  | fuel + 1, st, hp, h => by
    intro i hi
    unfold labelLoopReads at hi
    rcases List.mem_append.mp hi with hi | hi
    · rcases mem_labelStepReads hi with rfl | hi
      · exact hp
      · omega
    split at hi
    · next st₁ hs =>
      obtain ⟨hp₁, h₁⟩ := h.step hp hs
      exact le_labelLoopReads hp₁ h₁ i hi
    · cases hi

theorem le_questionReads {buffer size : ℕ} (hp : start ≤ buffer) (h : Behind start known) :
    ∀ i ∈ Question.reads mem buffer size known, start ≤ i := by
  intro i hi
  rcases List.mem_append.mp hi with hi | hi
  · unfold LabelHeader.reads at hi
    split_ifs at hi
    · cases hi
    · exact le_labelLoopReads hp h i hi
  split at hi
  · dsimp only at hi
    split_ifs at hi
    · cases hi
    · have := List.mem_range'_1.mp hi
      omega
  · cases hi

/-- **The questions are read behind what comes before the first one.** -/
theorem le_questionsReads {left : ℕ} (hstart : start ≤ n - left) : ∀ {rounds : ℕ} {s : Parsed},
    Behind start s.pointers → ∀ i ∈ questionsReads mem n left rounds s, start ≤ i
  | 0, _, _ => nofun
  | rounds + 1, s, h => by
    intro i hi
    unfold questionsReads at hi
    rcases List.mem_append.mp hi with hi | hi
    · split_ifs at hi
      · cases hi
      · exact le_questionReads hstart h i hi
    split at hi
    · next s' hround =>
      obtain ⟨-, q, hparse⟩ := questionRound_parsed hround
      exact le_questionsReads hstart (h.question hstart hparse) i hi
    · cases hi

end

end VUbercool.Dns
