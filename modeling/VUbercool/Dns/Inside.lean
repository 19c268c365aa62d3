import VUbercool.Dns.Pointers
import VUbercool.Dns.Reads
import VUbercool.Dns.Replies

/-!
# Where the parser reads behind the datagram

* `Explicit`: the labels a name begins with. `exists_explicit`: after all of them there is no further label.
* `labelLoopReads_explicit`: what the loop reads at labels.
* `OwnPointer`: a pointer into the labels in front of it. `OwnPointer.step`: the loop stays among them.
* `labelReads_iff`: the constructor of `LabelHeader` reads behind its segment exactly where the segment ends
  behind a label.
* `readsInside_iff`: so does the parser as a whole, at the first question of a standard query.
-/

namespace VUbercool.Dns

open Octets Rfc1035 Proc

variable {mem : Memory} {stop p n : ℕ} {known : List StringRef} {ls : List Label}

/-! ## The labels a name begins with -/

/-- The labels `ls` are accepted at the start of a segment from `p` to `stop`. -/
structure Explicit (mem : Memory) (p stop : ℕ) (ls : List Label) : Prop where
  legal : LegalLabels ls
  holds : Holds mem p (encodeLabels ls)
  inside : p + (encodeLabels ls).length ≤ stop
  size : textLength ls ≤ 255

theorem Explicit.nil (h : p ≤ stop) : Explicit mem p stop [] where
  legal := ⟨nofun, nofun⟩
  holds := holds_nil mem p
  inside := by simpa [encodeLabels] using h
  size := by simp [textLength]

theorem encodeLabels_snoc (ls : List Label) (l : Label) :
    encodeLabels (ls ++ [l]) = encodeLabels ls ++ UInt8.ofNat l.length :: l := by
  rw [encodeLabels_append, encodeLabels, encodeLabels, List.append_nil]

theorem Explicit.snoc (h : Explicit mem p stop ls) {len : ℕ}
    (hlen : (mem (p + (encodeLabels ls).length)).toNat = len) (h0 : len ≠ 0) (h64 : len < 64)
    (hend : p + (encodeLabels ls).length + 1 + len ≤ stop) (hsize : textLength ls + len ≤ 255)
    (hpat : matchesPat (readBytes mem (p + (encodeLabels ls).length + 1) len) = true) :
    Explicit mem p stop (ls ++ [readBytes mem (p + (encodeLabels ls).length + 1) len]) where
  legal := by
    refine ⟨fun x hx => ?_, fun x hx => ?_⟩ <;>
      rcases List.mem_append.mp hx with hx | hx
    · exact h.legal.fit x hx
    · rw [List.mem_singleton.mp hx, length_readBytes]
      exact ⟨Nat.pos_of_ne_zero h0, h64⟩
    · exact h.legal.chars x hx
    · rw [List.mem_singleton.mp hx]
      rw [matchesPat, Bool.and_eq_true] at hpat
      exact hpat.2
  holds := by
    rw [encodeLabels_snoc, holds_append, holds_cons, length_readBytes]
    refine ⟨h.holds, ?_, ?_⟩
    · rw [← hlen, UInt8.ofNat_toNat]
    · rw [Holds, length_readBytes]
  inside := by
    rw [encodeLabels_snoc, List.length_append, List.length_cons, length_readBytes]
    omega
  size := by
    simp only [textLength, List.map_append, List.sum_append, List.map_cons, List.map_nil, List.sum_cons,
      List.sum_nil, length_readBytes] at hsize ⊢
    omega

/-- There is a longest list of labels that are accepted. -/
theorem exists_explicit (h : p ≤ stop) :
    ∃ ls, Explicit mem p stop ls ∧ ∀ l, ¬ Explicit mem p stop (ls ++ [l]) := by
  suffices hall : ∀ k ls, Explicit mem p stop ls → stop ≤ (encodeLabels ls).length + k →
      ∃ ls, Explicit mem p stop ls ∧ ∀ l, ¬ Explicit mem p stop (ls ++ [l]) from
    hall stop [] (.nil h) (Nat.le_add_left _ _)
  intro k
  induction k with
  | zero =>
    intro ls hls hk
    refine ⟨ls, hls, fun l hl => ?_⟩
    have hinside := hl.inside
    rw [encodeLabels_snoc, List.length_append, List.length_cons] at hinside
    omega
  | succ k ih =>
    intro ls hls hk
    by_cases hmore : ∃ l, Explicit mem p stop (ls ++ [l])
    · obtain ⟨l, hl⟩ := hmore
      apply ih _ hl
      rw [encodeLabels_snoc, List.length_append, List.length_cons]
      omega
    · exact ⟨ls, hls, not_exists.mp hmore⟩

/-- The state of the loop after labels at the start of a name. -/
def explicitState (p : ℕ) (known : List StringRef) (ls : List Label) : LabelState :=
  LabelState.afterLabels ⟨p, false, [], 0, 0, known⟩ ls

@[simp] theorem explicitState_p : (explicitState p known ls).p = p + (encodeLabels ls).length := rfl

/-- **What follows all labels of a name**: its end, a pointer, or an error. -/
theorem step_explicit (h : Explicit mem p stop ls) (hmax : ∀ l, ¬ Explicit mem p stop (ls ++ [l])) :
    (mem (p + (encodeLabels ls).length) = 0 ∧
      labelStep mem stop (explicitState p known ls) = .ok (true, (explicitState p known ls).afterRoot)) ∨
    (∃ v, mem (p + (encodeLabels ls).length) &&& 0xC0 = 0xC0 ∧ p + (encodeLabels ls).length + 1 < stop ∧
      findPointer (load16 mem (p + (encodeLabels ls).length) &&& ~~~0xC000) (known ++ labelRefs p ls) =
        .ok v ∧
      labelStep mem stop (explicitState p known ls) =
        .ok (false, (explicitState p known ls).afterPointer v)) ∨
    ∃ e, labelStep mem stop (explicitState p known ls) = .error e := by
  cases hs : labelStep mem stop (explicitState p known ls) with
  | error e => exact .inr (.inr ⟨e, rfl⟩)
  | ok r =>
    obtain ⟨done, st'⟩ := r
    rcases labelStep_ok hs with ⟨h0, rfl, rfl, -⟩ | ⟨h0, h64, -⟩ | ⟨hptr, hend, rfl, v, hf, rfl⟩
    · exact .inl ⟨h0, rfl⟩
    · obtain ⟨e, he⟩ := @labelStep_label mem stop _ h0 h64
      rw [he] at hs
      split_ifs at hs with hfits
      obtain ⟨hend, hsize, hpat⟩ := hfits
      have hne : (mem (p + (encodeLabels ls).length)).toNat ≠ 0 := fun e => h0 (UInt8.toNat_inj.mp e)
      exact absurd (h.snoc rfl hne h64 hend (by simpa [explicitState, LabelState.afterLabels] using hsize)
        hpat) (hmax _)
    · exact .inr (.inl ⟨v, hptr, hend, hf, rfl⟩)

/-! ## What is read -/

/-- What the loop reads at labels before any pointer. -/
theorem labelLoopReads_explicit {fuel : ℕ} : ∀ {ls : List Label} {st : LabelState}, LegalLabels ls →
    Holds mem st.p (encodeLabels ls) → st.p + (encodeLabels ls).length ≤ stop →
    st.isTraversingPointer = false → st.size + textLength ls ≤ 255 →
    ∃ is, labelLoopReads mem stop (fuel + ls.length) st =
      is ++ labelLoopReads mem stop fuel (st.afterLabels ls) ∧ ∀ i ∈ is, i < stop
  | [], st, _, _, _, ht, _ => by
    obtain ⟨p, tr, names, size, bs, known⟩ := st
    cases ht
    exact ⟨[], by simp [LabelState.afterLabels, encodeLabels, labelRefs, textLength], nofun⟩
  | l :: ls, st, hl, hm, hend, ht, hsize => by
    obtain ⟨hne, hlen, hl64, hread, hpat, hrest⟩ := holds_label hl hm
    simp only [encodeLabels, List.length_cons, List.length_append] at hend
    simp only [textLength, List.map_cons, List.sum_cons] at hsize
    obtain ⟨e, he⟩ := @labelStep_label mem stop st hne (by omega)
    rw [hlen, hread, if_pos ⟨by omega, by omega, hpat⟩, labelAt, hread] at he
    obtain ⟨is, his, hin⟩ := @labelLoopReads_explicit fuel _ (st.afterLabel ⟨st.p + 1, l⟩) hl.tail
      (by simpa [LabelState.afterLabel] using hrest)
      (by simp [LabelState.afterLabel]; omega) (by simp [LabelState.afterLabel, ht])
      (by simp [LabelState.afterLabel, textLength]; omega)
    refine ⟨labelStepReads mem stop st ++ is, ?_, fun i hi => ?_⟩
    · rw [List.length_cons, ← Nat.add_assoc, labelLoopReads_next he, his, afterLabels_cons ht,
        List.append_assoc]
    · rcases List.mem_append.mp hi with hi | hi
      · exact labelStepReads_lt (by omega) hi
      · exact hin i hi

/-! ## Pointers into a name's own labels -/

/-- **A pointer behind the labels `ls`** that leads to one of them. -/
structure OwnPointer (mem : Memory) (p stop : ℕ) (ls : List Label) (v : StringRef) : Prop where
  legal : LegalLabels ls
  holds : Holds mem p (encodeLabels ls)
  pointer : mem (p + (encodeLabels ls).length) &&& 0xC0 = 0xC0
  inside : p + (encodeLabels ls).length + 1 < stop
  found : findPointer (load16 mem (p + (encodeLabels ls).length) &&& ~~~0xC000) (labelRefs p ls) = .ok v

/-- The loop has followed a pointer, and it is in front of one of the labels `ls` or behind them. -/
structure Among (p : ℕ) (ls : List Label) (st : LabelState) : Prop where
  place : ∃ pre post, ls = pre ++ post ∧ st.p = p + (encodeLabels pre).length
  known : st.knownLabels = labelRefs p ls
  traversing : st.isTraversingPointer = true

theorem among_stop {st : LabelState} {v : StringRef} (hv : v ∈ labelRefs p ls) (hp : st.p = v.stop)
    (hk : st.knownLabels = labelRefs p ls) (ht : st.isTraversingPointer = true) : Among p ls st where
  place := by
    obtain ⟨pre, ms, hsplit, hpos⟩ := mem_labelRefs hv
    refine ⟨pre ++ [v.data], ms, ?_, ?_⟩
    · rw [hsplit, List.append_assoc, List.singleton_append]
    · rw [hp, encodeLabels_snoc, List.length_append, List.length_cons, StringRef.stop, hpos]
      omega
  known := hk
  traversing := ht

/-- **A round among the labels** goes to the next one, or it finds the name too long. -/
theorem OwnPointer.step {v : StringRef} {st : LabelState} (h : OwnPointer mem p stop ls v)
    (hst : Among p ls st) : st.p < stop ∧
      ((∃ st', labelStep mem stop st = .ok (false, st') ∧ Among p ls st') ∨
        ∃ what, labelStep mem stop st = .error (warThrow .labelHeaderException what)) := by
  have hinside := h.inside
  obtain ⟨pre, post, hls, hp⟩ := hst.place
  cases post with
  | nil =>
    -- at the pointer
    rw [List.append_nil] at hls
    subst hls
    have hptr : mem st.p &&& 0xC0 = 0xC0 := by rw [hp]; exact h.pointer
    refine ⟨by omega, ?_⟩
    rcases @labelStep_pointer mem stop st hptr with ⟨v', -, -, hf, he⟩ | ⟨-, hno⟩
    · refine .inl ⟨_, he, among_stop (v := v') ?_ rfl hst.known rfl⟩
      rw [← hst.known]
      exact (findPointer_mem hf).1
    · have hsize : st.size + 2 > 255 := by
        by_contra hle
        refine hno ⟨by omega, by omega, v, ?_⟩
        rw [hst.known, hp]
        exact h.found
      obtain ⟨h0, h64⟩ := ne_zero_of_pointer hptr
      refine .inr ⟨"The labels exeeds the 255 bytes limit", ?_⟩
      simp only [labelStep, if_neg h0, if_neg h64, if_pos hptr, if_neg (show ¬ st.p + 1 ≥ stop by omega),
        validateSize, if_pos hsize, bind, Except.bind]
  | cons l post =>
    -- at a label
    have hlegal : LegalLabels (l :: post) := LegalLabels.of_append (hls ▸ h.legal)
    have hlen : (encodeLabels ls).length =
        (encodeLabels pre).length + (1 + l.length + (encodeLabels post).length) := by
      rw [hls, encodeLabels_append, encodeLabels]
      simp only [List.length_append, List.length_cons]
      omega
    have hat : Holds mem st.p (encodeLabels (l :: post)) := by
      have hm := h.holds
      rw [hls, encodeLabels_append, holds_append] at hm
      rw [hp]
      exact hm.2
    obtain ⟨hne, hlenl, hl64, hread, hpat, -⟩ := holds_label hlegal hat
    refine ⟨by omega, ?_⟩
    by_cases hsize : st.size + (mem st.p).toNat > 255
    · refine .inr ⟨"The labels exeeds the 255 bytes limit", ?_⟩
      simp only [labelStep, if_neg hne, if_pos (show (mem st.p).toNat < 64 by omega),
        if_neg (show ¬ st.p + 1 + (mem st.p).toNat > stop by omega), validateSize, if_pos hsize, bind,
        Except.bind]
    · obtain ⟨e, he⟩ := @labelStep_label mem stop st hne (by omega)
      rw [hlenl, labelAt, hread, if_pos ⟨by omega, by omega, hpat⟩] at he
      refine .inl ⟨_, he, ⟨pre ++ [l], post, ?_, ?_⟩, ?_, hst.traversing⟩
      · rw [hls, List.append_assoc, List.singleton_append]
      · rw [encodeLabels_snoc, List.length_append, List.length_cons]
        simp only [LabelState.afterLabel, hp]
        omega
      · simp only [LabelState.afterLabel, hst.traversing, if_true, hst.known]

/-- **After a pointer into its own labels, a name is read up to that pointer**, over and over. -/
theorem OwnPointer.loopReads {v : StringRef} (h : OwnPointer mem p stop ls v) : ∀ (fuel : ℕ)
    {st : LabelState}, Among p ls st → ∀ i ∈ labelLoopReads mem stop fuel st, i < stop
  | 0, _, _ => nofun
  | fuel + 1, st, hst => by
    intro i hi
    obtain ⟨hhere, ⟨st', he, hst'⟩ | ⟨what, he⟩⟩ := h.step hst
    · rw [labelLoopReads_next he] at hi
      rcases List.mem_append.mp hi with hi | hi
      · exact labelStepReads_lt hhere hi
      · exact h.loopReads fuel hst' i hi
    · rw [labelLoopReads_error he] at hi
      exact labelStepReads_lt hhere hi

/-! ## The first name -/

/-- The segment ends behind a label of the name it begins with. -/
def CutBehindLabel (mem : Memory) (p stop : ℕ) : Prop :=
  ∃ ls, ls ≠ [] ∧ Explicit mem p stop ls ∧ p + (encodeLabels ls).length = stop

theorem labels_explicit (h : Explicit mem p stop ls) (hp : p < stop) (known : List StringRef) :
    ∃ fuel is, LabelHeader.parse mem p (stop - p) known =
        (labelLoop mem stop (fuel + 1) (explicitState p known ls)).bind (fun st =>
          .ok (⟨st.names, st.size, st.bufferSize⟩, st.knownLabels)) ∧
      LabelHeader.reads mem p (stop - p) known =
        is ++ labelLoopReads mem stop (fuel + 1) (explicitState p known ls) ∧ ∀ i ∈ is, i < stop := by
  obtain ⟨fuel, hfuel, hparse⟩ := @parse_explicit _ _ known _ _ h.legal h.holds hp h.inside h.size
  obtain ⟨is, his, hin⟩ := @labelLoopReads_explicit _ _ (fuel + 1) ls ⟨p, false, [], 0, 0, known⟩ h.legal
    h.holds h.inside rfl (by simpa using h.size)
  refine ⟨fuel, is, hparse, ?_, hin⟩
  rw [LabelHeader.reads, if_neg (by omega), show p + (stop - p) = stop by omega,
    show labelRounds = fuel + 1 + ls.length by rw [labelRounds]; omega, his]
  rfl

theorem labelReads_root (h : Explicit mem p stop ls) (hp : p + (encodeLabels ls).length < stop)
    (h0 : mem (p + (encodeLabels ls).length) = 0) (known : List StringRef) :
    ∀ i ∈ LabelHeader.reads mem p (stop - p) known, i < stop := by
  obtain ⟨fuel, is, -, hreads, hin⟩ := labels_explicit h (by omega) known
  have hstep : labelLoopReads mem stop (fuel + 1) (explicitState p known ls) =
      labelStepReads mem stop (explicitState p known ls) := by
    obtain ⟨e, he⟩ := @labelStep_root mem stop (explicitState p known ls) h0
    split_ifs at he
    · exact labelLoopReads_done he
    · exact labelLoopReads_error he
  intro i hi
  rw [hreads, hstep, List.mem_append] at hi
  rcases hi with hi | hi
  · exact hin i hi
  · exact labelStepReads_lt hp hi

/-- **The first name**: with no label known before, it is read behind its segment exactly where the segment
ends behind a label. -/
theorem labelReads_iff (hp : p < stop) :
    (∀ i ∈ LabelHeader.reads mem p (stop - p) [], i < stop) ↔ ¬ CutBehindLabel mem p stop := by
  constructor
  · rintro hin ⟨ls, -, h, hcut⟩
    obtain ⟨fuel, is, -, hreads, -⟩ := labels_explicit h hp []
    have hmem : stop ∈ LabelHeader.reads mem p (stop - p) [] := by
      have hst := @p_mem_labelStepReads mem stop (explicitState p [] ls)
      rw [explicitState_p, hcut] at hst
      rw [hreads, labelLoopReads]
      exact List.mem_append_right _ (List.mem_append_left _ hst)
    exact absurd (hin stop hmem) (Nat.lt_irrefl _)
  · intro hcut
    obtain ⟨ls, h, hmax⟩ := @exists_explicit mem _ _ hp.le
    have hlt : p + (encodeLabels ls).length < stop :=
      lt_of_le_of_ne h.inside fun heq => hcut ⟨ls, fun hnil => by
        rw [hnil, encodeLabels] at heq
        exact absurd heq (by simpa using hp.ne), h, heq⟩
    obtain ⟨fuel, is, -, hreads, hin⟩ := labels_explicit h hp []
    have hstep : ∀ i ∈ labelStepReads mem stop (explicitState p [] ls), i < stop := fun i hi =>
      labelStepReads_lt hlt hi
    intro i hi
    rw [hreads, List.mem_append] at hi
    rcases hi with hi | hi
    · exact hin i hi
    rcases @step_explicit _ _ _ [] _ h hmax with ⟨-, hs⟩ | ⟨v, hptr, hend, hf, hs⟩ | ⟨e, hs⟩
    · rw [labelLoopReads_done hs] at hi
      exact hstep i hi
    · rw [labelLoopReads_next hs, List.mem_append] at hi
      rcases hi with hi | hi
      · exact hstep i hi
      have hown : OwnPointer mem p stop ls v := ⟨h.legal, h.holds, hptr, hend, hf⟩
      exact hown.loopReads fuel (among_stop (findPointer_mem hf).1 rfl rfl rfl) i hi
    · rw [labelLoopReads_error hs] at hi
      exact hstep i hi

theorem Explicit.plainName {r : Bool × LabelState} (h : Explicit mem p stop ls)
    (h0 : mem (p + (encodeLabels ls).length) = 0)
    (hstep : labelStep mem stop (explicitState p [] ls) = .ok r) : PlainName ls := by
  obtain ⟨e, he⟩ := @labelStep_root mem stop (explicitState p [] ls) h0
  rw [hstep] at he
  split_ifs at he with hc
  obtain ⟨hsize, hne⟩ := hc
  refine ⟨h.legal, ?_, ?_⟩
  · rintro rfl
    exact hne rfl
  · simpa [explicitState, LabelState.afterLabels] using hsize

theorem parse_first (hp : p < stop) {h : LabelHeader} {known' : List StringRef}
    (hparse : LabelHeader.parse mem p (stop - p) [] = .ok (h, known')) : ∃ ls, PlainName ls ∧
      Explicit mem p stop ls ∧ mem (p + (encodeLabels ls).length) = 0 ∧
      h.getSize = (encodeLabels ls).length + 1 := by
  obtain ⟨ls, hls, hmax⟩ := @exists_explicit mem _ _ hp.le
  obtain ⟨fuel, is, heq, -⟩ := labels_explicit hls hp []
  rw [heq] at hparse
  cases hl : labelLoop mem stop (fuel + 1) (explicitState p [] ls) with
  | error e => rw [hl] at hparse; cases hparse
  | ok st =>
    rw [hl] at hparse
    cases hparse
    rcases @step_explicit _ _ _ [] _ hls hmax with ⟨h0, hs⟩ | ⟨v, hptr, hend, hf, hs⟩ | ⟨e, hs⟩
    · rw [labelLoop_done hs] at hl
      cases hl
      exact ⟨ls, hls.plainName h0 hs, hls, h0, by simp [LabelHeader.getSize, explicitState, LabelState.afterRoot,
        LabelState.afterLabels]⟩
    · rw [labelLoop_next hs] at hl
      obtain ⟨rest, cost, more, hw, -, -, -, hk, -, htrav⟩ := labelLoop_walk hl
      rw [htrav rfl, List.append_nil] at hk
      rw [hk] at hw
      exact absurd hw (not_walk_own hls.legal hls.holds hptr hend hf (findPointer_mem hf).1)
    · rw [labelLoop, hs] at hl
      cases hl

/-! ## The datagram -/

theorem questionReads_iff (hp : p ≤ stop) (known : List StringRef) :
    (∀ i ∈ Question.reads mem p (stop - p) known, i < stop) ↔
      ∀ i ∈ LabelHeader.reads mem p (stop - p) known, i < stop := by
  refine ⟨fun h i hi => h i (List.mem_append_left _ hi), fun h i hi => ?_⟩
  rcases List.mem_append.mp hi with hi | hi
  · exact h i hi
  cases hs : LabelHeader.parse mem p (stop - p) known with
  | error e => rw [hs] at hi; cases hi
  | ok r =>
    rw [hs] at hi
    dsimp only at hi
    split_ifs at hi with hend
    · cases hi
    · have := List.mem_range'_1.mp hi
      omega

theorem questionsReads_root (hn : 12 < n) (h : Explicit mem 12 n ls)
    (hlt : 12 + (encodeLabels ls).length < n) (h0 : mem (12 + (encodeLabels ls).length) = 0) :
    ∀ (rounds : ℕ) (s : Parsed), ∀ i ∈ questionsReads mem n (n - 12) rounds s, i < n
  | 0, _ => nofun
  | rounds + 1, s => by
    intro i hi
    rw [questionsReads, if_neg (by omega), show n - (n - 12) = 12 by omega] at hi
    rcases List.mem_append.mp hi with hi | hi
    · exact (questionReads_iff hn.le _).mpr (labelReads_root h hlt h0 _) i hi
    split at hi
    · exact questionsReads_root hn h hlt h0 rounds _ i hi
    · cases hi

/-- **The questions of a query** are read behind the datagram exactly where it ends behind a label of the
first one. -/
theorem questionsReads_iff (hn : 12 ≤ n) (rounds : ℕ) (b : Bytes) :
    (∀ i ∈ questionsReads mem n (n - 12) rounds ⟨[], [], 0, b⟩, i < n) ↔
      (rounds ≠ 0 → ¬ CutBehindLabel mem 12 n) := by
  cases rounds with
  | zero => exact ⟨fun _ h => absurd rfl h, fun _ i hi => absurd hi List.not_mem_nil⟩
  | succ rounds =>
    unfold questionsReads
    obtain rfl | hlt := Nat.eq_or_lt_of_le hn
    · -- there is nothing behind the header
      have hcut : ¬ CutBehindLabel mem 12 12 := by
        rintro ⟨- | ⟨l, ls⟩, hne, -, h⟩
        · exact hne rfl
        · simp [encodeLabels] at h
      have hraise : questionRound mem 12 (12 - 12) ⟨[], [], 0, b⟩ =
          (.error (warThrow .invalidQuery "Buffer underrun preparing next query"), ⟨[], [], 0, b⟩) := rfl
      rw [hraise]
      exact ⟨fun _ _ => hcut, fun _ i hi => absurd hi List.not_mem_nil⟩
    rw [if_neg (by omega), show n - (n - 12) = 12 by omega]
    have hfirst := (@questionReads_iff mem _ _ hn []).trans (labelReads_iff hlt)
    constructor
    · exact fun h _ => hfirst.mp fun i hi => h i (List.mem_append_left _ hi)
    · intro hcut i hi
      rcases List.mem_append.mp hi with hi | hi
      · exact hfirst.mpr (hcut (Nat.succ_ne_zero _)) i hi
      split at hi
      · next s' hround =>
        obtain ⟨-, q, hparse⟩ := questionRound_parsed hround
        rw [parseQuestion, show n - (n - 12) = 12 by omega] at hparse
        have hsize := getSize_le hparse
        rw [Question.parse] at hparse
        cases hl : LabelHeader.parse mem 12 (n - 12) [] with
        | error e => rw [hl] at hparse; cases hparse
        | ok r =>
          obtain ⟨ls, -, h, h0, hgetSize⟩ := parse_first hlt hl
          rw [hl] at hparse
          simp only [bind, Except.bind] at hparse
          split_ifs at hparse
          exact questionsReads_root hlt h (by omega) h0 rounds _ i hi
      · cases hi

/-- **A datagram that is cut behind a label** of the first question of a standard query. -/
def CutDatagram (datagram : Bytes) : Prop := ∃ (header : MessageHeader) (ls : List Label),
  datagram = header.octets ++ encodeLabels ls ∧ header.getQr = false ∧ header.getOpcode = 0 ∧
    header.qdcount ≠ 0 ∧ ls ≠ [] ∧ LegalLabels ls ∧ textLength ls ≤ 255

section

variable {queryBuffer : Memory} {datagram : Bytes}

theorem cutDatagram_iff : CutDatagram (datagram.take maxQueryBuffer) ↔ ∃ header,
    MessageHeader.ofBuffer (received queryBuffer datagram) (datagram.take maxQueryBuffer).length =
      .ok header ∧ header.getQr = false ∧ header.getOpcode = 0 ∧ header.qdcount ≠ 0 ∧
    CutBehindLabel (received queryBuffer datagram) 12 (datagram.take maxQueryBuffer).length := by
  constructor
  · rintro ⟨header, ls, hd, hqr, hopcode, hqd, hne, hlegal, hsize⟩
    have hlen : (datagram.take maxQueryBuffer).length = 12 + (encodeLabels ls).length := by
      rw [hd, List.length_append, MessageHeader.length_octets]
    have hholds := (prefix_received queryBuffer datagram (Nat.le_refl _)).mpr (List.prefix_refl _)
    rw [hd, holds_append] at hholds
    rw [hlen]
    exact ⟨header, MessageHeader.ofBuffer_of_holds hholds.1 (Nat.le_add_right _ _), hqr, hopcode, hqd, ls,
      hne, ⟨hlegal, by simpa using hholds.2, Nat.le_refl _, hsize⟩, rfl⟩
  · rintro ⟨header, hparse, hqr, hopcode, hqd, ls, hne, h, hlen⟩
    have hholds : Holds (received queryBuffer datagram) 0 (header.octets ++ encodeLabels ls) := by
      rw [holds_append]
      exact ⟨(MessageHeader.holds_of_ofBuffer hparse).2, by simpa using h.holds⟩
    have hlength : (header.octets ++ encodeLabels ls).length = (datagram.take maxQueryBuffer).length := by
      rw [List.length_append, MessageHeader.length_octets, hlen]
    have hpre := (prefix_received queryBuffer datagram hlength.le).mp hholds
    exact ⟨header, ls, (hpre.eq_of_length hlength).symm, hqr, hopcode, hqd, hne, h.legal, h.size⟩

theorem reads_lt {n : ℕ} : ∀ i ∈ MessageHeader.reads n, i < n := by
  intro i hi
  unfold MessageHeader.reads at hi
  split_ifs at hi with hn
  · exact absurd hi List.not_mem_nil
  · have := List.mem_range.mp hi
    omega

/-- **When parsing stays inside the datagram.** Every octet that the header and the questions read of a
datagram lies in front of its end, exactly if it is not cut behind a label of its first question. -/
theorem readsInside_iff (queryBuffer : Memory) (datagram : Bytes) :
    (∀ i ∈ datagramReads (received queryBuffer datagram) (datagram.take maxQueryBuffer).length,
      i < (datagram.take maxQueryBuffer).length) ↔ ¬ CutDatagram (datagram.take maxQueryBuffer) := by
  rw [@cutDatagram_iff queryBuffer datagram]
  generalize received queryBuffer datagram = query
  generalize (datagram.take maxQueryBuffer).length = n
  have hall : ∀ {is : List ℕ}, (∀ i ∈ MessageHeader.reads n ++ is, i < n) ↔ ∀ i ∈ is, i < n :=
    List.forall_mem_append.trans (and_iff_right reads_lt)
  cases hp : MessageHeader.ofBuffer query n with
  | error e =>
    rw [datagramReads, hp, hall]
    refine ⟨?_, fun _ i hi => absurd hi List.not_mem_nil⟩
    rintro - ⟨_, h, -⟩
    cases h
  | ok header =>
    have hn := (MessageHeader.holds_of_ofBuffer hp).1
    rw [datagramReads, hp, hall]
    dsimp only
    split_ifs with hstandard
    · rw [MessageHeader.size, questionsReads_iff hn]
      constructor
      · rintro h ⟨_, ⟨⟩, -, -, hqd, hcut⟩
        exact h (fun h0 => hqd (UInt16.toNat_inj.mp h0)) hcut
      · intro h hqd hcut
        exact h ⟨header, rfl, hstandard.1, hstandard.2, fun h0 => hqd (by rw [h0]; rfl), hcut⟩
    · refine ⟨?_, fun _ i hi => absurd hi List.not_mem_nil⟩
      rintro - ⟨_, ⟨⟩, hqr, hopcode, -⟩
      exact hstandard ⟨hqr, hopcode⟩

/-- A query with one question that is cut behind the label `a`. -/
def cutQuery : Bytes := (⟨7, 0, 1, 0, 0, 0⟩ : MessageHeader).octets ++ encodeLabels [[97]]

/-- The octet behind a query that is cut behind a label is read. -/
theorem not_readsInside : ¬ ∀ (queryBuffer : Memory) (datagram : Bytes),
    datagram.length ≤ maxQueryBuffer →
    ∀ i ∈ datagramReads (received queryBuffer datagram) datagram.length, i < datagram.length := by
  intro h
  have hread : 14 ∈ datagramReads (received (fun _ => 0) cutQuery) cutQuery.length := by decide +kernel
  exact absurd (h (fun _ => 0) cutQuery (by decide) 14 hread) (by decide)

end

end VUbercool.Dns
