import VUbercool.Dns.PlainLength
import VUbercool.Dns.Resolution

/-!
# Replies are cut messages

* `answerFlags`, `errorFlags`: the flags of a reply.
* `Script.take`: the sections when so many records are stored.
* `reply_cut`: **a reply is the full message, cut**, and no earlier than it would be without compression.
-/

namespace VUbercool.Dns

open Octets Rfc1035 Proc

variable {zones : List Zone} {header : MessageHeader}

/-! ## Flags -/

/-- The flags of an answer: those of the query with QR set and RA cleared, AA as `aa` tells, and TC
cleared. -/
def answerFlags (aa : Bool) (flags : UInt16) : UInt16 :=
  ((flags ||| 0x8000) &&& ~~~0x0680) ||| if aa then 0x0400 else 0

/-- The flags of an error reply: those of the query with QR set, and the code. -/
def errorFlags (code : Rcode) (flags : UInt16) : UInt16 := ((flags ||| 0x8000) &&& 0xFFF0) ||| code.toUInt16

theorem replyHeader_flags (num : UInt16) (truncated : Bool) (o : Outgoing) (t : Referrals) :
    (replyHeader header num truncated o t).flags =
      if truncated then answerFlags t.authorative header.flags ||| 0x0200
      else answerFlags t.authorative header.flags := by
  show setFlag 10 t.authorative (setFlag 7 false (setFlag 15 true (setFlag 9 truncated header.flags))) = _
  generalize header.flags = f
  cases truncated <;> cases t.authorative <;>
  · simp only [setFlag, answerFlags, if_true, if_false, Bool.false_eq_true, clear_or]
    apply UInt16.toBitVec_inj.mp
    ext i hi
    simp
    interval_cases i <;> simp

theorem errorHeader_flags (code : Rcode) :
    (errorHeader code header).flags = errorFlags code header.flags := by
  have hcode : code.toUInt16 &&& 0xF = code.toUInt16 := by cases code <;> rfl
  show (setFlag 15 true header.flags &&& ~~~0xF) ||| (code.toUInt16 &&& 0xF) = _
  rw [hcode]
  simp only [setFlag, errorFlags, if_true, clear_or]
  rfl

theorem finish_inj {num num' : UInt16} {tr tr' : Bool} {o o' : Outgoing} {t t' : Referrals}
    (h : finish header num tr o t = finish header num' tr' o' t') :
    replyHeader header num tr o t = replyHeader header num' tr' o' t' := by
  have hleft : MessageHeader.ofBuffer (memoryOf (finish header num tr o t))
      (finish header num tr o t).length = .ok (replyHeader header num tr o t) := MessageHeader.ofBuffer_append _ _
  have hright : MessageHeader.ofBuffer (memoryOf (finish header num' tr' o' t'))
      (finish header num' tr' o' t').length = .ok (replyHeader header num' tr' o' t') :=
    MessageHeader.ofBuffer_append _ _
  rw [h, hright] at hleft
  exact (Except.ok.inj hleft).symm

/-! ## Sections -/

/-- The first `n` records. -/
def Script.take (R : Script) (n : ℕ) : Script where
  answers := R.answers.take n
  authority := R.authority.take (n - R.answers.length)
  additional := R.additional.take (n - R.answers.length - R.authority.length)

theorem all_take (R : Script) (n : ℕ) : (R.take n).all = R.all.take n := by
  simp only [Script.take, Script.all, List.map_take, List.take_append, List.length_append, List.length_map,
    Nat.sub_sub]

theorem storeUntil_ten_le {limit : Option ℕ} : ∀ {rs : List ResourceRecord} {w w' : Wire} {sizes : List ℕ}
    {fault : Option Fault}, storeUntil limit rs w = (sizes, fault, w') →
    w.buffer.length + 10 * sizes.length ≤ w'.buffer.length
  | [], _, _, _, _, h => by
    cases h
    exact Nat.le_refl _
  | r :: rs, w, _, _, _, h => by
    cases hs : store limit r w with
    | mk x w₁ =>
      cases x with
      | error e =>
        rw [storeUntil_error hs] at h
        cases h
        exact ((store_frame limit r w (Begins.refl w)).2 e _ hs).2
      | ok size =>
        obtain ⟨sizes', fault', w', hu⟩ : ∃ sizes' fault' w', storeUntil limit rs w₁ = (sizes', fault', w') :=
          ⟨_, _, _, rfl⟩
        rw [storeUntil_ok hs, hu] at h
        cases h
        obtain ⟨a, w₂, hwrite, -⟩ := bind_eq_ok hs
        obtain ⟨⟨-, hten⟩, -⟩ :=
          ((write_frame (E := fun _ _ => True) (fun _ _ _ => trivial) r) w rfl).1 a w₂ hwrite
        have hlast : w₁ = w₂ := by
          rw [store_of_write hwrite] at hs
          split_ifs at hs
          · cases hs
          · cases hs
            rfl
        have hrest := storeUntil_ten_le hu
        rw [hlast] at hrest
        simp only [List.length_cons]
        omega

theorem roomOf_le {at_ : UInt16 → List Label → Prop} (hne : ∀ p ls, at_ p ls → ls ≠ [])
    {rs : List ResourceRecord} {recs : List Rfc1035.Record} (h : List.Forall₂ (Means at_) rs recs) :
    roomOf rs ≤ (recs.map fun r => r.encode.length).sum := by
  induction h with
  | nil => exact Nat.le_refl _
  | cons h hrest ih =>
    have hone := room_le_encode hne h
    rw [roomOf] at ih
    rw [roomOf, List.map_cons, List.map_cons, List.sum_cons, List.sum_cons]
    exact Nat.add_le_add hone ih

/-! ## Replies -/

/-- An offset where a name other than that of the root is stored. -/
def NamedAt (b : Bytes) (p : UInt16) (ls : List Label) : Prop :=
  StoredAt (known headerHole b) p ls ∧ ls ≠ []

/-- **A reply is the full message, cut**: it has at most 512 octets, and holds at least as many records as
would fit without compression. -/
theorem reply_cut {query : Memory} {n : ℕ} {b hdr : Bytes} {s : Parsed} {R : Script} {aa : Bool}
    {qs : List Rfc1035.Question} {an ns ar : List Rfc1035.Record}
    (hparse : parseQuestions query n header ⟨[], [], 0, resize b MessageHeader.size⟩ = (.ok (), s))
    (hbuf : s.replyBuffer = hdr ++ qs.flatMap encodeQuestion) (h12 : hdr.length = 12)
    (hq : ∀ q ∈ qs, Fit q.name) (hnum : s.numQuestions.toNat = qs.length)
    (hR : recordsOf zones s.questions = .ok R)
    (ha : List.Forall₂ (Means (NamedAt s.replyBuffer)) R.answers an)
    (hau : List.Forall₂ (Means (NamedAt s.replyBuffer)) R.authority ns)
    (had : List.Forall₂ (Means (NamedAt s.replyBuffer)) R.additional ar)
    (haa : ∀ r o t, answer (some maxReplyBuffer) zones s.questions ({ wire := ⟨s.replyBuffer, []⟩ }, {}) =
      (r, o, t) → t.authorative = aa) :
    let full := Message.ofSections header.id (answerFlags aa header.flags) qs an ns ar
    ∃ reply j, processQuestions (some maxReplyBuffer) zones query n header b = (.ok (), reply) ∧
      reply.length ≤ maxReplyBuffer ∧ decode reply = some (full.cut j) ∧
      ∀ i ≤ full.records.length, (full.cut i).encode.length ≤ maxReplyBuffer → i ≤ j := by
  intro full
  have hmeans : List.Forall₂ (Means (NamedAt s.replyBuffer)) (R.all.map Prod.snd) (an ++ ns ++ ar) := by
    rw [map_snd_all]
    exact List.rel_append (List.rel_append ha hau) had
  have hcount : (R.all.map Prod.snd).length = full.records.length := hmeans.length_eq
  obtain ⟨h12', h512⟩ := parseQuestions_length hparse
  have hhole : ∀ i ∈ headerHole, i < s.replyBuffer.length := fun i hi => by
    have := List.mem_range.mp hi
    omega
  -- the stores, and what a decoder reads in the buffer
  obtain ⟨sizes, fault, rb, labels, hrun, hle, hlen, hst, hend⟩ := storeUntil_spec
    (w := ⟨s.replyBuffer, []⟩) (by decide) (fun l hl => by cases hl) hhole (Nat.le_of_lt h512)
    (hmeans.imp fun _ _ => Means.imp fun _ _ h => h.1)
  have hfault : (∀ e ∈ fault, e = truncated) ∧
      fault.isSome = decide (sizes.length < full.records.length) := by
    rw [← hcount]
    rcases hend with ⟨hnone, hall⟩ | ⟨r, _, _, _, hget, -, hsome, -⟩
    · rw [show fault = none from hnone, show sizes.length = _ from hall]
      simp
    · have hlt : sizes.length < (R.all.map Prod.snd).length := (List.getElem?_eq_some_iff.mp hget).1
      rw [show fault = some truncated from hsome, decide_eq_true hlt]
      simp
  obtain ⟨t, hreply⟩ := processQuestions_of_run hparse hR hrun hfault.1
  obtain ⟨o, ho, hwire⟩ : ∃ o, o = (Outgoing.counts { wire := ⟨s.replyBuffer, []⟩ }
      (R.all.take sizes.length)).withWire ⟨s.replyBuffer ++ rb, labels⟩ ∧
      o.wire.buffer = s.replyBuffer ++ rb := ⟨_, rfl, rfl⟩
  rw [← ho] at hreply
  -- the AA bit
  have ht : t.authorative = aa := by
    obtain ⟨s', r, truncated, o', t', hparse', hanswer, -, hsame⟩ := processQuestions_run hreply
    cases hparse.symm.trans hparse'
    have hbit := congrArg MessageHeader.getAa (finish_inj hsame)
    rw [← haa r o' t' hanswer]
    exact (getFlag_setFlag (by decide) _ _).symm.trans (hbit.trans (getFlag_setFlag (by decide) _ _))
  have hw : 12 ≤ (s.replyBuffer ++ rb).length := by
    rw [List.length_append]
    omega
  refine ⟨_, sizes.length, hreply, ?_, ?_, ?_⟩
  · rw [ho, length_finish _ _ _ _ _ hw]
    exact hle
  · have hxs : (((an ++ ns ++ ar).take sizes.length).zip sizes).map Prod.fst =
        an.take sizes.length ++ ns.take (sizes.length - an.length) ++
          ar.take (sizes.length - an.length - ns.length) := by
      rw [List.map_fst_zip (by simp), List.take_append, List.take_append, List.length_append, Nat.sub_sub]
    have hcounter := counter_reply (R := R) (w := ⟨s.replyBuffer ++ rb, labels⟩) (storeUntil_ten_le hrun) hle
    rw [← ho] at hcounter
    have hsection : ∀ x, _ = _ := fun x => (hcounter x).trans (all_take R sizes.length ▸
      countP_all (R.take sizes.length) x)
    have han : o.numAnswers.toNat = (an.take sizes.length).length :=
      (hsection .answer).trans (by simp only [Script.take, List.length_take, ha.length_eq])
    have hns : o.numNs.toNat = (ns.take (sizes.length - an.length)).length :=
      (hsection .authority).trans (by simp only [Script.take, List.length_take, ha.length_eq, hau.length_eq])
    have har : o.numOpt.toNat = (ar.take (sizes.length - an.length - ns.length)).length :=
      (hsection .additional).trans
        (by simp only [Script.take, List.length_take, ha.length_eq, hau.length_eq, had.length_eq])
    have hdec := decode_reply (h := replyHeader header s.numQuestions fault.isSome o t) h12 hq
      (by rw [← hbuf]; exact hst) hxs hnum han hns har
    have hflags := @replyHeader_flags header s.numQuestions fault.isSome o t
    rw [ht, hfault.2] at hflags
    simp only [decide_eq_true_eq] at hflags
    have hofNat : ∀ {v : UInt16} {k : ℕ}, v.toNat = k → v = UInt16.ofNat k := fun h => by
      rw [← h, UInt16.ofNat_toNat]
    rw [finish, hwire, hbuf]
    refine hdec.trans (congrArg some ?_)
    show Message.mk ⟨header.id, _, s.numQuestions, o.numAnswers, o.numNs, o.numOpt⟩ qs _ _ _ = _
    rw [hfault.2, hflags, hofNat hnum, hofNat han, hofNat hns, hofNat har]
    rfl
  · intro i hi hfits
    refine hend.le_of_plain (hcount ▸ hi) (Nat.le_trans ?_ hfits)
    have hroom := roomOf_le (fun _ _ h => h.2) (List.forall₂_take i hmeans)
    rw [Message.length_encode, Message.records_cut, hbuf, List.length_append, h12]
    exact Nat.add_le_add_left hroom _

end VUbercool.Dns
