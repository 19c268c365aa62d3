import VUbercool.Dns.PlainLength
import VUbercool.Dns.Questions
import VUbercool.Dns.Records
import VUbercool.Dns.Replies

/-!
# Truncation

The reply with a size limit is the reply without one, cut before the first record that would pass the
limit.

* `run_storeIn`: the second pass as a run of stores, and the counters it leaves.
* `storeUntil_limit`: a run with a limit and the same run without.
* `encoded`: the buffer after some of the records of a run.
* `truncation_exact`: **truncation is an exact prefix cut**.
-/

namespace VUbercool.Dns

open Octets Rfc1035 Proc

variable {zones : List Zone} {limit : Option ℕ} {m : ℕ}

/-! ## Runs of stores -/

/-- The counter of a section. -/
def Outgoing.counter (o : Outgoing) : Section → UInt16
  | .answer => o.numAnswers
  | .authority => o.numNs
  | .additional => o.numOpt

/-- The same counters with another buffer. -/
def Outgoing.withWire (o : Outgoing) (w : Wire) : Outgoing := { o with wire := w }

/-- The counters after records of some sections. -/
def Outgoing.counts (o : Outgoing) (R : List (Section × ResourceRecord)) : Outgoing :=
  R.foldl (fun o x => o.count x.1) o

theorem count_withWire (o : Outgoing) (w : Wire) (s : Section) :
    (o.withWire w).count s = (o.count s).withWire w := by
  cases s <;> rfl

theorem counts_withWire (R : List (Section × ResourceRecord)) (o : Outgoing) (w : Wire) :
    (o.withWire w).counts R = (o.counts R).withWire w := by
  induction R generalizing o with
  | nil => rfl
  | cons x R ih =>
    rw [Outgoing.counts, Outgoing.counts, List.foldl_cons, List.foldl_cons, count_withWire]
    exact ih (o.count x.1)

theorem counter_count (o : Outgoing) (s s' : Section) :
    (o.count s).counter s' = o.counter s' + if s = s' then 1 else 0 := by
  cases s <;> cases s' <;> simp [Outgoing.count, Outgoing.counter]

theorem counter_counts (R : List (Section × ResourceRecord)) (o : Outgoing) (s : Section) :
    (o.counts R).counter s = o.counter s + UInt16.ofNat (R.countP fun x => x.1 = s) := by
  induction R generalizing o with
  | nil => simp [Outgoing.counts]
  | cons x R ih =>
    rw [Outgoing.counts, List.foldl_cons]
    apply (ih (o.count x.1)).trans
    rw [counter_count, List.countP_cons]
    by_cases h : x.1 = s
    · simp only [h, if_true, decide_true, UInt16.ofNat_add, UInt16.reduceOfNat, UInt16.add_assoc]
      rw [UInt16.add_comm 1]
    · simp [h]

/-- How a run of stores ended. -/
def ended : Option Fault → Except Fault Unit
  | none => .ok ()
  | some e => .error e

/-- **The second pass is a run of stores** with the counters of what was stored. -/
theorem run_storeIn : ∀ {R : List (Section × ResourceRecord)} {o : Outgoing} {sizes : List ℕ}
    {fault : Option Fault} {w : Wire},
    storeUntil limit (R.map Prod.snd) o.wire = (sizes, fault, w) →
    R.forM (storeIn limit) o = (ended fault, (o.counts (R.take sizes.length)).withWire w)
  | [], o, _, _, _, h => by
    cases h
    rfl
  | x :: R, o, sizes, fault, w, h => by
    rw [List.map_cons] at h
    rw [forM_cons]
    cases hs : store limit x.2 o.wire with
    | mk r w₁ =>
      cases r with
      | error e =>
        have hst : storeIn limit x o = (.error e, o.withWire w₁) := by rw [storeIn, hs]; rfl
        rw [storeUntil_error hs] at h
        rw [bind_error hst]
        cases h
        rfl
      | ok n =>
        have hst : storeIn limit x o = (.ok (), (o.count x.1).withWire w₁) := by
          rw [storeIn, hs, ← count_withWire]; rfl
        obtain ⟨sizes', fault', w', hu⟩ : ∃ sizes' fault' w',
            storeUntil limit (R.map Prod.snd) w₁ = (sizes', fault', w') := ⟨_, _, _, rfl⟩
        rw [storeUntil_ok hs, hu] at h
        cases h
        rw [bind_ok hst, run_storeIn (o := (o.count x.1).withWire w₁) hu, counts_withWire]
        rfl

/-! ## With and without a limit -/

theorem store_none {r : ResourceRecord} {w w' : Wire} {n : ℕ} (h : store none r w = (.ok n, w')) :
    w.buffer <+: w'.buffer ∧ w.buffer.length + 10 ≤ w'.buffer.length ∧
      store (some m) r w = if m < w'.buffer.length then (.error truncated, ⟨w.buffer, w'.labels⟩)
        else (.ok n, w') := by
  obtain ⟨written, w₁, hw, hrest⟩ := bind_eq_ok h
  obtain ⟨⟨hpre, hlen⟩, horig⟩ := ((write_frame (E := fun _ _ => True) (fun _ _ _ => trivial) r) w rfl).1
    written w₁ hw
  rw [bind_ok (Wire.size_apply w₁), if_neg (by simp), pure_apply] at hrest
  cases hrest
  refine ⟨hpre, hlen, ?_⟩
  obtain ⟨t, ht⟩ := hpre
  rw [store_of_write hw, horig, resize_of_le (by omega), ← ht, List.take_left]
  simp

/-- The buffer after the first `k` records of a run without a limit. -/
def encoded (rs : List ResourceRecord) (w : Wire) (k : ℕ) : Bytes :=
  (storeUntil none (rs.take k) w).2.2.buffer

/-- **The longest prefix** of a run whose records stay within the limit, `k` records. -/
structure LongestPrefix (m : ℕ) (rs : List ResourceRecord) (w : Wire) (k : ℕ) : Prop where
  le_length : k ≤ rs.length
  fits : ∀ j ≤ k, (encoded rs w j).length ≤ m
  next : k < rs.length → m < (encoded rs w (k + 1)).length

theorem encoded_zero (rs : List ResourceRecord) (w : Wire) : encoded rs w 0 = w.buffer := by
  cases rs <;> rfl

theorem encoded_succ {r : ResourceRecord} {rs : List ResourceRecord} {w w' : Wire} {n : ℕ}
    (h : store none r w = (.ok n, w')) (k : ℕ) : encoded (r :: rs) w (k + 1) = encoded rs w' k := by
  rw [encoded, List.take_succ_cons, storeUntil_ok h, encoded]

theorem length_of_storeUntil : ∀ {rs : List ResourceRecord} {w w' : Wire} {sizes : List ℕ},
    storeUntil limit rs w = (sizes, none, w') → sizes.length = rs.length
  | [], _, _, _, h => by cases h; rfl
  | r :: rs, w, _, _, h => by
    cases hs : store limit r w with
    | mk x w₁ =>
      cases x with
      | error e => rw [storeUntil_error hs] at h; cases h
      | ok n =>
        obtain ⟨sizes', fault', w', hu⟩ : ∃ sizes' fault' w',
            storeUntil limit rs w₁ = (sizes', fault', w') := ⟨_, _, _, rfl⟩
        rw [storeUntil_ok hs, hu] at h
        cases h
        rw [List.length_cons, List.length_cons, length_of_storeUntil hu]

/-- **The run with a limit** stores the longest prefix of the run without that stays within it. -/
theorem storeUntil_limit : ∀ {rs : List ResourceRecord} {w w₀ : Wire} {sizes₀ : List ℕ},
    storeUntil none rs w = (sizes₀, none, w₀) → w.buffer.length ≤ m →
    ∃ k w', LongestPrefix m rs w k ∧ w'.buffer = encoded rs w k ∧
      w.buffer.length + 10 * k ≤ w'.buffer.length ∧
      storeUntil (some m) rs w =
        (sizes₀.take k, if k < rs.length then some truncated else none, w')
  | [], w, _, _, h, hm => by
    cases h
    refine ⟨0, w, ⟨Nat.le_refl _, fun j _ => ?_, nofun⟩, rfl, by omega, rfl⟩
    rwa [encoded, List.take_nil]
  | r :: rs, w, w₀, sizes₀, h, hm => by
    cases hs : store none r w with
    | mk x w₁ =>
      cases x with
      | error e => rw [storeUntil_error hs] at h; cases h
      | ok n =>
        obtain ⟨sizes', fault', w', hu⟩ : ∃ sizes' fault' w',
            storeUntil none rs w₁ = (sizes', fault', w') := ⟨_, _, _, rfl⟩
        rw [storeUntil_ok hs, hu] at h
        cases h
        obtain ⟨hpre, hlen, hlimit⟩ := store_none (m := m) hs
        by_cases hfit : w₁.buffer.length ≤ m
        · obtain ⟨k, w', hk, hw', hten, hrun⟩ := storeUntil_limit hu hfit
          rw [if_neg (by omega)] at hlimit
          refine ⟨k + 1, w', ⟨by simpa using hk.le_length, fun j hj => ?_, fun hj => ?_⟩, ?_, by omega,
            ?_⟩
          · cases j with
            | zero => rwa [encoded_zero]
            | succ j => rw [encoded_succ hs]; exact hk.fits j (by omega)
          · rw [encoded_succ hs]
            exact hk.next (by simpa using hj)
          · rw [encoded_succ hs, hw']
          · rw [storeUntil_ok hlimit, hrun]
            simp
        · rw [if_pos (by omega)] at hlimit
          refine ⟨0, ⟨w.buffer, w₁.labels⟩, ⟨Nat.zero_le _, fun j hj => ?_, fun _ => ?_⟩, ?_, by simp, ?_⟩
          · rw [Nat.le_zero.mp hj, encoded_zero]
            exact hm
          · rw [encoded_succ hs, encoded_zero]
            omega
          · rw [encoded_zero]
          · rw [storeUntil_error hlimit]
            simp

theorem storeUntil_ten : ∀ {rs : List ResourceRecord} {w w' : Wire} {sizes : List ℕ},
    storeUntil none rs w = (sizes, none, w') → w.buffer.length + 10 * rs.length ≤ w'.buffer.length
  | [], _, _, _, h => by cases h; simp
  | r :: rs, w, _, _, h => by
    cases hs : store none r w with
    | mk x w₁ =>
      cases x with
      | error e => rw [storeUntil_error hs] at h; cases h
      | ok n =>
        obtain ⟨sizes', fault', w', hu⟩ : ∃ sizes' fault' w',
            storeUntil none rs w₁ = (sizes', fault', w') := ⟨_, _, _, rfl⟩
        rw [storeUntil_ok hs, hu] at h
        cases h
        have h1 := (store_none (m := 0) hs).2.1
        have h2 := storeUntil_ten hu
        rw [List.length_cons]
        omega

theorem prefix_storeUntil {m : Option ℕ} : ∀ (rs : List ResourceRecord) (w : Wire),
    w.buffer <+: (storeUntil m rs w).2.2.buffer
  | [], w => List.prefix_refl _
  | r :: rs, w => by
    obtain ⟨hok, herr⟩ := store_frame m r w (Begins.refl w)
    cases hs : store m r w with
    | mk x w₁ =>
      cases x with
      | error e =>
        rw [storeUntil_error hs]
        exact (herr e w₁ hs).1
      | ok n =>
        rw [storeUntil_ok hs]
        exact (hok n w₁ hs).1.trans (prefix_storeUntil rs w₁)

theorem LongestPrefix.lt_length {m k : ℕ} {rs : List ResourceRecord} {w w' : Wire} {sizes : List ℕ}
    (hk : LongestPrefix m rs w k) (h : storeUntil none rs w = (sizes, none, w'))
    (hm : m < w.buffer.length + 10 * rs.length) : k < rs.length := by
  refine Nat.lt_of_le_of_ne hk.le_length fun he => ?_
  have hfits := hk.fits k (Nat.le_refl k)
  rw [he, encoded, List.take_length, h] at hfits
  have := storeUntil_ten h
  simp only at hfits
  omega

/-- **A run without a limit that stays within one** raises nothing, and is the run with the limit. -/
theorem storeUntil_fits {hole : List ℕ} (hm : m ≤ 0x2000) : ∀ {rs : List ResourceRecord}
    {recs : List Rfc1035.Record} {w w₀ : Wire} {sizes : List ℕ} {fault : Option Fault}, Sound hole w →
    (∀ i ∈ hole, i < w.buffer.length) →
    List.Forall₂ (Means (StoredAt (known hole w.buffer))) rs recs →
    storeUntil none rs w = (sizes, fault, w₀) → w₀.buffer.length ≤ m →
    fault = none ∧ storeUntil (some m) rs w = (sizes, none, w₀)
  | [], _, w, _, _, _, _, _, _, h, _ => by
    cases h
    exact ⟨rfl, rfl⟩
  | r :: rs, _, w, w₀, sizes, fault, hs, hh, .cons hr hrs, h, hle => by
    have hw : w.buffer.length ≤ w₀.buffer.length := by
      have := (prefix_storeUntil (m := none) (r :: rs) w).length_le
      rwa [h] at this
    obtain ⟨rb, labels, hs', -, hstore⟩ := store_spec ⟨hs, by omega, hh⟩ hr
    have hnone : store none r w = (.ok rb.length, ⟨w.buffer ++ rb, labels⟩) := by
      rw [hstore, if_neg (by simp)]
    obtain ⟨sizes', fault', w', hu⟩ : ∃ sizes' fault' w', storeUntil none rs ⟨w.buffer ++ rb, labels⟩ =
        (sizes', fault', w') := ⟨_, _, _, rfl⟩
    rw [storeUntil_ok hnone, hu] at h
    cases h
    have hw₁ : (w.buffer ++ rb).length ≤ w₀.buffer.length := by
      have := (prefix_storeUntil (m := none) rs ⟨w.buffer ++ rb, labels⟩).length_le
      rwa [hu] at this
    have hsome : store (some m) r w = (.ok rb.length, ⟨w.buffer ++ rb, labels⟩) := by
      rw [hstore, if_neg]
      rintro ⟨m', hm', hlt⟩
      cases hm'; omega
    obtain ⟨hf, hrun⟩ := storeUntil_fits hm hs' (hole_lt_append hh _)
      (hrs.imp fun _ _ => Means.imp (StoredAt.mono (known_le_append _ _ _))) hu hle
    exact ⟨hf, by rw [storeUntil_ok hsome, hrun]⟩

/-! ## The reply -/

theorem parseQuestions_length {query : Memory} {n : ℕ} {header : MessageHeader} {b : Bytes}
    {s : Parsed}
    (h : parseQuestions query n header ⟨[], [], 0, resize b MessageHeader.size⟩ = (.ok (), s)) :
    12 ≤ s.replyBuffer.length ∧ s.replyBuffer.length < maxReplyBuffer := by
  have hround : Triple (fun s : Parsed => 12 ≤ s.replyBuffer.length ∧
      s.replyBuffer.length < maxReplyBuffer)
      (questionRound query n (n - MessageHeader.size)) (fun _ s => 12 ≤ s.replyBuffer.length ∧
      s.replyBuffer.length < maxReplyBuffer) (fun _ _ => True) := by
    refine fun s hs => ⟨fun _ s' h => ?_, fun _ _ _ => trivial⟩
    unfold questionRound at h
    split_ifs at h with hb
    · cases h
    · rw [bind_ok (get_apply s)] at h
      obtain ⟨⟨question, pointers⟩, s₁, hparse, h⟩ := bind_eq_ok h
      rw [ofExcept_apply] at hparse
      obtain ⟨-, rfl⟩ := Prod.mk.inj hparse
      dsimp only at h
      rw [bind_ok (modify_apply _ s)] at h
      split_ifs at h with hclass
      · cases h
      · rw [bind_ok (get_apply _)] at h
        split_ifs at h with hfit
        · cases h
          simp only [List.length_append, length_readBytes] at hfit ⊢
          omega
        · cases h
  have hloop := @Triple.forM _ _ _ _ _ (fun _ => questionRound query n (n - MessageHeader.size))
    (List.range header.qdcount.toNat) fun _ _ => hround
  exact (hloop _ ⟨by simp [MessageHeader.size], by simp [MessageHeader.size, maxReplyBuffer]⟩).1 () s h

theorem answer_of_run {questions : List Question} {R : Script} {wire w : Wire}
    {sizes : List ℕ} (hR : recordsOf zones questions = .ok R)
    (h : storeUntil limit (R.all.map Prod.snd) wire = (sizes, none, w)) :
    ∃ o t, answer limit zones questions ({ wire := wire }, {}) = (.ok (), o, t) := by
  obtain ⟨t, hp⟩ := @answer_performs limit zones questions R hR
  exact ⟨_, t, (hp { wire := wire } _).1 (run_storeIn (o := { wire := wire }) h)⟩

theorem length_finish (header : MessageHeader) (num : UInt16) (truncated : Bool) (o : Outgoing)
    (t : Referrals) {w : Wire} (hw : 12 ≤ w.buffer.length) :
    (finish header num truncated (o.withWire w) t).length = w.buffer.length :=
  MessageHeader.length_write _ hw

section

variable {query : Memory} {n : ℕ} {header : MessageHeader} {b : Bytes} {s : Parsed} {R : Script}

theorem processQuestions_of_run {sizes : List ℕ} {fault : Option Fault} {w : Wire}
    (hparse : parseQuestions query n header ⟨[], [], 0, resize b MessageHeader.size⟩ = (.ok (), s))
    (hR : recordsOf zones s.questions = .ok R)
    (hrun : storeUntil limit (R.all.map Prod.snd) ⟨s.replyBuffer, []⟩ = (sizes, fault, w))
    (hfault : ∀ e ∈ fault, e = truncated) :
    ∃ t, processQuestions limit zones query n header b = (.ok (), finish header s.numQuestions
      fault.isSome ((Outgoing.counts { wire := ⟨s.replyBuffer, []⟩ } (R.all.take sizes.length)).withWire w)
        t) := by
  obtain ⟨t', hp⟩ := answer_performs hR
  have hstores := run_storeIn (o := { wire := ⟨s.replyBuffer, []⟩ }) hrun
  rw [processQuestions, hparse]
  cases fault with
  | none => exact ⟨t', by simp [(hp _ _).1 hstores]⟩
  | some e =>
    obtain ⟨t'', ha⟩ := (hp _ _).2 _ hstores
    rw [hfault e rfl] at ha
    exact ⟨t'', by simp [ha, truncated, warThrow]⟩

theorem length_processQuestions {sizes : List ℕ} {fault : Option Fault} {w : Wire}
    (hparse : parseQuestions query n header ⟨[], [], 0, resize b MessageHeader.size⟩ = (.ok (), s))
    (hR : recordsOf zones s.questions = .ok R)
    (hrun : storeUntil limit (R.all.map Prod.snd) ⟨s.replyBuffer, []⟩ = (sizes, fault, w))
    (hw : 12 ≤ w.buffer.length) :
    (processQuestions limit zones query n header b).2.length = w.buffer.length := by
  obtain ⟨t', hp⟩ := answer_performs hR
  have hstores := run_storeIn (o := { wire := ⟨s.replyBuffer, []⟩ }) hrun
  rw [processQuestions, hparse]
  cases fault with
  | none =>
    simp only [(hp _ _).1 hstores]
    exact length_finish _ _ _ _ _ hw
  | some e =>
    obtain ⟨t'', ha⟩ := (hp _ _).2 _ hstores
    simp only [ha]
    cases e with
    | raised ex =>
      simp only
      split_ifs
      · exact length_finish _ _ _ _ _ hw
      · rfl
    | diverged => rfl
    | wildRead => rfl

theorem counter_reply {k : ℕ} {w : Wire} (hten : s.replyBuffer.length + 10 * k ≤ w.buffer.length)
    (hle : w.buffer.length ≤ maxReplyBuffer) (x : Section) :
    (Outgoing.counter ((Outgoing.counts { wire := ⟨s.replyBuffer, []⟩ } (R.all.take k)).withWire w)
      x).toNat = (R.all.take k).countP fun y => y.1 = x := by
  have hcount : (R.all.take k).countP (fun y => y.1 = x) < 2 ^ 16 := by
    have h1 : (R.all.take k).countP (fun y => decide (y.1 = x)) ≤ k :=
      (List.countP_le_length).trans (by simp)
    simp only [maxReplyBuffer] at hle
    omega
  have h0 : Outgoing.counter { wire := ⟨s.replyBuffer, []⟩ } x = 0 := by cases x <;> rfl
  have hc := counter_counts (R.all.take k) { wire := ⟨s.replyBuffer, []⟩ } x
  rw [h0, UInt16.zero_add] at hc
  rw [← Nat.mod_eq_of_lt hcount, ← UInt16.toNat_ofNat', ← hc]
  cases x <;> rfl

/-- **Truncation is an exact prefix cut.** Where processing without a limit stores the records `R` and
succeeds, the reply has at most 512 octets; after the questions it holds the octets of the longest
prefix of `R` that stays within them, the counters count its records by section, and TC is set exactly
when the prefix is proper. A decoder reads what these records mean. -/
theorem truncation_exact {o : Outgoing} {t : Referrals}
    (hparse : parseQuestions query n header ⟨[], [], 0, resize b MessageHeader.size⟩ = (.ok (), s))
    (hrun : answer none zones s.questions ({ wire := ⟨s.replyBuffer, []⟩ }, {}) = (.ok (), o, t)) :
    ∃ (R : Script) (k : ℕ) (reply : Bytes) (h : MessageHeader), recordsOf zones s.questions = .ok R ∧
      R.all.forM (storeIn none) { wire := ⟨s.replyBuffer, []⟩ } = (.ok (), o) ∧
      LongestPrefix maxReplyBuffer (R.all.map Prod.snd) ⟨s.replyBuffer, []⟩ k ∧
      processQuestions (some maxReplyBuffer) zones query n header b = (.ok (), reply) ∧
      reply.length ≤ maxReplyBuffer ∧
      reply.drop 12 = (encoded (R.all.map Prod.snd) ⟨s.replyBuffer, []⟩ k).drop 12 ∧
      MessageHeader.ofBuffer (memoryOf reply) reply.length = .ok h ∧
      h.ancount.toNat = (R.all.take k).countP (fun x => x.1 = Section.answer) ∧
      h.nscount.toNat = (R.all.take k).countP (fun x => x.1 = Section.authority) ∧
      h.arcount.toNat = (R.all.take k).countP (fun x => x.1 = Section.additional) ∧
      h.getTc = decide (k < R.all.length) ∧
      ∀ recs, List.Forall₂ (Means (StoredAt (known headerHole s.replyBuffer))) (R.all.map Prod.snd) recs →
        ∃ sizes, readMany (readRecord reply) k s.replyBuffer.length =
          some ((recs.take k).zip sizes, reply.length) := by
  obtain ⟨R, hR, hstores⟩ := recordsOf_of_answer hrun
  obtain ⟨h12, h512⟩ := parseQuestions_length hparse
  obtain ⟨sizes₀, fault, w₀, hu⟩ : ∃ sizes₀ fault w₀,
      storeUntil none (R.all.map Prod.snd) ⟨s.replyBuffer, []⟩ = (sizes₀, fault, w₀) := ⟨_, _, _, rfl⟩
  have hnone : fault = none := by
    have h := run_storeIn (o := { wire := ⟨s.replyBuffer, []⟩ }) hu
    rw [hstores] at h
    cases fault with
    | none => rfl
    | some e => cases h
  subst hnone
  obtain ⟨k, w', hk, hw', hten, hlim⟩ := storeUntil_limit hu (Nat.le_of_lt h512)
  replace hten : s.replyBuffer.length + 10 * k ≤ w'.buffer.length := hten
  have hle : w'.buffer.length ≤ maxReplyBuffer := by rw [hw']; exact hk.fits k (Nat.le_refl k)
  have hsizes : (sizes₀.take k).length = k := by
    have := hk.le_length
    rw [List.length_take, length_of_storeUntil hu]; omega
  obtain ⟨t', hreply⟩ := processQuestions_of_run hparse hR hlim (by split_ifs <;> simp)
  have htc : (if k < (R.all.map Prod.snd).length then some truncated else none).isSome =
      decide (k < R.all.length) := by
    rw [List.length_map]; split_ifs with h <;> simp [h]
  have hcounter := counter_reply (R := R) hten hle
  rw [htc, hsizes] at hreply
  refine ⟨R, k, _, _, hR, hstores, hk, hreply, ?_, ?_, MessageHeader.ofBuffer_append _ _,
    hcounter .answer, hcounter .authority, hcounter .additional, ?_, fun recs hrecs => ?_⟩
  · rw [length_finish _ _ _ _ _ (by omega)]
    exact hle
  · rw [← hw']
    exact List.drop_left' rfl
  · exact (getFlag_setFlag_of_ne (by decide) _ _).trans <|
      (getFlag_setFlag_of_ne (by decide) _ _).trans <|
      (getFlag_setFlag_of_ne (by decide) _ _).trans <| getFlag_setFlag (by decide) _ _
  · obtain ⟨sizes, fault, rb, labels, hspec, -, -, hst, -⟩ := storeUntil_spec
      (w := ⟨s.replyBuffer, []⟩) (by decide) (fun l hl => by cases hl)
      (fun i hi => by have := List.mem_range.mp hi; simp only; omega) (Nat.le_of_lt h512) hrecs
    rw [hlim] at hspec
    cases hspec
    have hlen : ((recs.take (sizes₀.take k).length).zip (sizes₀.take k)).length = k := by
      have := hk.le_length
      rw [List.length_zip, List.length_take, ← hrecs.length_eq, hsizes]; omega
    have hread := fun h : MessageHeader => readRecords_of_stored h.length_octets hst
    rw [hlen, hsizes] at hread
    refine ⟨sizes₀.take k, ?_⟩
    rw [length_finish _ _ _ _ _ (by omega)]
    exact hread _

end

/-- A zone `a` with fifty addresses. -/
def manyAddresses : Zone := { label := [97], a := (List.range 50).map UInt32.ofNat }

/-- Where the fifty addresses of the zone `a` are asked for, some are cut off. -/
theorem truncation_exact_a : ∃ (R : Script) (k : ℕ) (reply : Bytes) (h : MessageHeader),
    recordsOf [manyAddresses] [asked ⟨[[97]], 1, 1⟩ 12] = .ok R ∧ R.all.length = 50 ∧ k < 50 ∧
    processQuestions (some maxReplyBuffer) [manyAddresses]
      (memoryOf (queryOctets ⟨7, 0, 1, 0, 0, 0⟩ [⟨[[97]], 1, 1⟩])) 19 ⟨7, 0, 1, 0, 0, 0⟩ [] =
        (.ok (), reply) ∧
    MessageHeader.ofBuffer (memoryOf reply) reply.length = .ok h ∧
    h.ancount.toNat = (R.all.take k).countP (fun x => x.1 = Section.answer) ∧ h.getTc = true := by
  have hparse : parseQuestions (memoryOf (queryOctets ⟨7, 0, 1, 0, 0, 0⟩ [⟨[[97]], 1, 1⟩])) 19
      ⟨7, 0, 1, 0, 0, 0⟩ ⟨[], [], 0, resize [] MessageHeader.size⟩ = (.ok (),
        ⟨[asked ⟨[[97]], 1, 1⟩ 12], labelRefs 12 [[97]], 1,
          List.replicate 12 0 ++ encodeQuestion ⟨[[97]], 1, 1⟩⟩) := by decide +kernel
  have hcomputed : recordsOf [manyAddresses] [asked ⟨[[97]], 1, 1⟩ 12] =
      .ok ⟨manyAddresses.a.map (.a (.namePtr 12)), [], []⟩ := rfl
  have hbuffer : List.replicate 12 (0 : UInt8) ++ encodeQuestion ⟨[[97]], 1, 1⟩ =
      List.replicate 12 0 ++ [⟨[[97]], 1, 1⟩].flatMap encodeQuestion := by simp
  have hstored : StoredAt (known headerHole (List.replicate 12 0 ++ encodeQuestion ⟨[[97]], 1, 1⟩)) 12
      [[97]] := by
    have h := @storedAt_of_question [⟨[[97]], 1, 1⟩] (List.replicate 12 0) [] rfl
      (by decide +kernel) (by decide) 12 [[97]] ⟨0, _, rfl, rfl, rfl⟩
    rwa [List.append_nil, ← hbuffer] at h
  have hmeans : List.Forall₂ (Means (StoredAt (known headerHole
      (List.replicate 12 0 ++ encodeQuestion ⟨[[97]], 1, 1⟩))))
      (manyAddresses.a.map (.a (.namePtr 12))) (manyAddresses.a.map fun ip => ⟨[[97]], 1, 300, .a ip⟩) := by
    rw [List.forall₂_map_left_iff, List.forall₂_map_right_iff]
    exact List.forall₂_same.mpr fun ip _ => .a (.namePtr hstored)
  obtain ⟨sizes, w, hstores⟩ := @storeUntil_plain headerHole _ _
    ⟨List.replicate 12 0 ++ encodeQuestion ⟨[[97]], 1, 1⟩, []⟩
    (fun l hl => by cases hl) (by decide) hmeans (by decide)
  have hall : (Script.all ⟨manyAddresses.a.map (.a (.namePtr 12)), [], []⟩).map Prod.snd =
      manyAddresses.a.map (.a (.namePtr 12)) := rfl
  obtain ⟨o, t, hrun⟩ := @answer_of_run [manyAddresses] none _ _ _ _ _ hcomputed (by rw [hall]; exact hstores)
  obtain ⟨R, k, reply, h, hR, -, hk, hreply, hle, -, hh, hcount, -, -, htc, -⟩ :=
    truncation_exact hparse hrun
  cases hcomputed.symm.trans hR
  have hlt : k < 50 := hk.lt_length hstores (by decide)
  exact ⟨_, k, reply, h, hR, rfl, hlt, hreply, hh, hcount, htc.trans (decide_eq_true hlt)⟩

end VUbercool.Dns
