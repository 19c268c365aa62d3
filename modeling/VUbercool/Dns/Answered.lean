import VUbercool.Dns.FormatErrors
import VUbercool.Dns.SoaSearch
import VUbercool.Dns.Wildcard

/-!
# Queries that are answered

What `ProcessQuestions` went through where it raised nothing.

* `plain_of_parse`, `AllAsk`: the questions that were parsed ask the same, and their names are in the
  reply.
* `contribution_content`, `contribution_error`: questions that ask the same lead to the same, and not to
  a truncated reply.
* `answered`: **the reply is what storing its records left**, behind the header.
-/

namespace VUbercool.Dns

open Octets Rfc1035 Proc

variable {zones : List Zone} {mem : Memory} {n : ℕ} {header : MessageHeader} {b reply : Bytes} {s : Parsed}
  {q : Rfc1035.Question} {limit : Option ℕ}

/-! ## The questions -/

/-- Where questions were parsed, the body of the query begins with one. -/
theorem plain_of_parse {k : ℕ} {s₀ : Parsed} (hempty : s₀.pointers = [])
    (h : ((List.range (k + 1)).forM fun _ => questionRound mem n (n - MessageHeader.size)) s₀ = (.ok (), s)) :
    ∃ q, PlainQuestion mem n q := by
  rw [forM_range_succ] at h
  obtain ⟨u, s₁, hround, -⟩ := bind_eq_ok h
  have hround' := hround
  unfold questionRound at hround
  split_ifs at hround with hb
  · cases hround
  unfold MessageHeader.size at hb
  rw [bind_ok (get_apply s₀)] at hround
  obtain ⟨r, s₂, hparse, -⟩ := bind_eq_ok hround
  rw [ofExcept_apply, parseQuestion, hempty, show n - (n - MessageHeader.size) = 12 by
    rw [MessageHeader.size]; omega] at hparse
  obtain ⟨q, hq⟩ := question_parse_first (Prod.mk.inj hparse).1
  refine ⟨q, (plainQuestion_iff (by omega)).mpr ⟨hq, ?_⟩⟩
  by_contra hclass
  obtain ⟨s', hrefused⟩ := questionRound_refused (by omega) hq hclass s₀
  rw [hrefused] at hround'
  cases hround'

/-- **What the loop over the questions keeps** where they all ask `q`: the name each asks about is in
the reply buffer. -/
structure AllAsk (q : Rfc1035.Question) (s : Parsed) : Prop where
  header_le : 12 ≤ s.replyBuffer.length
  length_lt : s.replyBuffer.length < maxReplyBuffer
  asks : ∀ question ∈ s.questions, question.content = q ∧
    ∃ ls, StoredAt (known headerHole s.replyBuffer) question.offset ls

theorem AllAsk.add (h : AllAsk q s) (hname : PlainName q.name)
    (hfit : s.replyBuffer.length + (encodeQuestion q).length < maxReplyBuffer) : AllAsk q (s.add q) where
  header_le := by
    have := h.header_le
    simp only [Parsed.add, List.length_append]
    omega
  length_lt := by simpa [Parsed.add] using hfit
  asks question hmem := by
    have hle := known_le_append headerHole s.replyBuffer (encodeQuestion q)
    rcases List.mem_append.mp hmem with hmem | hmem
    · obtain ⟨hcontent, ls, hstored⟩ := h.asks question hmem
      exact ⟨hcontent, ls, hstored.mono hle⟩
    · obtain rfl := List.mem_singleton.mp hmem
      refine ⟨content_asked _ _, q.name, ?_⟩
      have h12 := h.header_le
      obtain ⟨next, hn⟩ := @nameAt_question headerHole [q] s.replyBuffer [] 0 q
        (fun x hx => by rw [List.mem_singleton.mp hx]; exact hname.fit)
        (fun i hi => not_mem_headerHole (by omega)) rfl
      have hoff : (UInt16.ofNat s.replyBuffer.length).toNat % 0x4000 = s.replyBuffer.length := by
        have hmax : maxReplyBuffer = 512 := rfl
        have := h.length_lt
        rw [UInt16.toNat_ofNat']
        omega
      refine ⟨next, ?_⟩
      rw [show (asked q (UInt16.ofNat s.replyBuffer.length)).offset =
          UInt16.ofNat s.replyBuffer.length from rfl,
        hoff]
      simpa [Parsed.add] using hn

theorem allAsk_of_parse
    (h : parseQuestions mem n header ⟨[], [], 0, resize b MessageHeader.size⟩ = (.ok (), s)) :
    ∃ q, AllAsk q s := by
  unfold parseQuestions at h
  have hstart : ∀ q, AllAsk q ⟨[], [], 0, resize b MessageHeader.size⟩ := fun q =>
    ⟨by simp [MessageHeader.size], by simp [MessageHeader.size, maxReplyBuffer], by simp⟩
  cases hk : header.qdcount.toNat with
  | zero =>
    rw [hk] at h
    cases h
    exact ⟨⟨[], 0, 0⟩, hstart _⟩
  | succ k =>
    rw [hk] at h
    obtain ⟨q, hq⟩ := plain_of_parse rfl h
    refine ⟨q, (Triple.forM (P := AllAsk q) (E := fun _ _ => True) (fun _ _ s hs => ?_) _
      (hstart q)).1 () s h⟩
    obtain ⟨s', hround⟩ := questionRound_plain hq s
    rw [hround]
    refine ⟨fun _ _ h' => ?_, fun _ _ _ => trivial⟩
    split_ifs at h' with hfit
    · cases h'
      exact hs.add hq.name hfit
    · cases h'

/-! ## What they lead to -/

/-- A question that asks the same as one that leads to something leads to something. -/
theorem contribution_content {question question' : Question} (h : question.content = question'.content)
    {c : Contribution} (hc : contribution zones question = .ok c) :
    ∃ c', contribution zones question' = .ok c' := by
  obtain ⟨hlabels, htype, -⟩ : question.getLabels = question'.getLabels ∧ question.qtype = question'.qtype ∧
      question.qclass = question'.qclass := by
    simpa [Question.content] using h
  obtain ⟨zone, au, soaZone, c₀, hl, hs, hc₀, -⟩ := contribution_cases hc
  rw [contribution_found (hlabels ▸ hl) hs]
  cases hc₁ : qtypeContribution zones question' zone soaZone with
  | ok c₁ => exact ⟨_, rfl⟩
  | error e =>
    -- the same branch leads to nothing for both
    have herror := qtypeContribution_eq_error.mp hc₁
    rw [← htype] at herror
    cases hc₀.symm.trans (qtypeContribution_eq_error.mpr herror)

/-- Where a question leads to nothing, no reply is cut. -/
theorem contribution_error {question : Question} {e : Fault} (h : contribution zones question = .error e) :
    ∀ ex, e = .raised ex → ex.type ≠ .truncated := by
  rintro ex rfl
  rcases hl : lookup zones question.getLabels with ⟨- | zone, au⟩
  · rw [contribution, hl] at h
    cases au <;> cases h <;> decide
  by_cases hshallow : Shallow zone
  · rw [contribution_found hl (getSoaZone_of_shallow hshallow)] at h
    cases hc : qtypeContribution zones question zone zone.governing with
    | ok c =>
      rw [hc] at h
      cases h
    | error e =>
      obtain ⟨-, -, rfl⟩ := qtypeContribution_eq_error.mp hc
      rw [hc] at h
      cases h
      decide
  · rw [contribution, hl] at h
    simp only [getSoaZone_of_not_shallow hshallow] at h
    cases h

theorem recordsOf_of_run {r : Except Fault Unit} {o o' : Outgoing} {t : Referrals} (hs : AllAsk q s)
    (h : answer limit zones s.questions (o, {}) = (r, o', t))
    (hr : ∀ e, r = .error e → ∃ ex, e = .raised ex ∧ ex.type = .truncated) :
    ∃ R, recordsOf zones s.questions = .ok R := by
  obtain ⟨cs, hcs⟩ : ∃ cs, s.questions.mapM (contribution zones) = .ok cs := by
    cases hq : s.questions with
    | nil => exact ⟨[], rfl⟩
    | cons question rest =>
      have hasks := hs.asks
      rw [hq] at h hasks
      rcases @question_performs limit zones question {} with ⟨c, hc, -⟩ | ⟨e, he, herr⟩
      · refine exists_mapM_ok fun question' hmem => contribution_content ?_ hc
        exact (hasks question List.mem_cons_self).1.trans (hasks question' hmem).1.symm
      · obtain ⟨s', hs'⟩ := herr o
        rw [answer, forM_cons, bind_error (bind_error hs')] at h
        cases h
        obtain ⟨ex, rfl, htype⟩ := hr e rfl
        exact absurd htype (contribution_error he ex rfl)
  exact ⟨_, by rw [recordsOf, hcs]; rfl⟩

/-- **A query that is answered**: its questions ask the same, they lead to records, and the reply is
what storing these left, behind a header. -/
theorem answered (h : processQuestions limit zones mem n header b = (.ok (), reply)) : ∃ q s R hdr,
    parseQuestions mem n header ⟨[], [], 0, resize b MessageHeader.size⟩ = (.ok (), s) ∧ AllAsk q s ∧
    recordsOf zones s.questions = .ok R ∧ hdr.length = 12 ∧
    reply = hdr ++ (storeUntil limit (R.all.map Prod.snd) ⟨s.replyBuffer, []⟩).2.2.buffer.drop 12 := by
  obtain ⟨s, r, truncated, o, t, hparse, hrun, hr, rfl⟩ := processQuestions_run h
  obtain ⟨q, hs⟩ := allAsk_of_parse hparse
  obtain ⟨R, hR⟩ := recordsOf_of_run hs hrun hr
  refine ⟨q, s, R, (replyHeader header s.numQuestions truncated o t).octets, hparse, hs, hR, rfl, ?_⟩
  obtain ⟨sizes, fault, w, hstores⟩ : ∃ sizes fault w, storeUntil limit (R.all.map Prod.snd)
      ⟨s.replyBuffer, []⟩ = (sizes, fault, w) := ⟨_, _, _, rfl⟩
  obtain ⟨t', hp⟩ := @answer_performs limit zones _ _ hR
  have hforM := run_storeIn (o := { wire := ⟨s.replyBuffer, []⟩ }) hstores
  have hwire : o.wire = w := by
    cases fault with
    | none =>
      cases hrun.symm.trans ((hp _ _).1 hforM)
      rfl
    | some e =>
      obtain ⟨t'', ha⟩ := (hp _ _).2 _ hforM
      cases hrun.symm.trans ha
      rfl
  rw [hstores, finish, MessageHeader.write, hwire]
  rfl

end VUbercool.Dns
