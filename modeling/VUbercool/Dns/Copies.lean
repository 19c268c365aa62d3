import VUbercool.Dns.Answered
import VUbercool.Dns.Authority
import VUbercool.Dns.FormatErrors
import VUbercool.Dns.LabelRounds
import VUbercool.Dns.Resolution

/-!
# Copies of a question

The loop over the questions parses the first question of a query as often as the header says.

* `ParserFault`, `question_fails`: what the parser raises.
* `Copies`: what `k` copies of a question leave. `parseQuestions_copies`: where they are parsed.
* `records_copies`: the records for `k` copies: the answers `k` times, the other sections once.
* `authorative_copies`: the AA bit.
-/

namespace VUbercool.Dns

open Octets Rfc1035 Proc

variable {zones : List Zone} {mem : Memory} {n k : ℕ} {q : Rfc1035.Question} {s : Parsed}

/-! ## What the parser raises -/

/-- The exceptions of the parser. -/
def parserTypes : List ExceptionType :=
  [.labelHeaderException, .noLabelsException, .illegalLabelException, .illegalPointereException,
    .questionHeaderException]

/-- How the constructors of `LabelHeader` and `Question` end other than by `return`. -/
def ParserFault (e : Fault) : Prop := ∃ type ∈ parserTypes, ∃ what, e = warThrow type what

theorem parser_throw {α : Type} {type : ExceptionType} {what : String} (h : type ∈ parserTypes) :
    Fails ParserFault (.error (warThrow type what) : Except Fault α) :=
  .error ⟨type, h, what, rfl⟩

theorem validateSize_fails (size : ℕ) : Fails ParserFault (validateSize size) :=
  .ite (parser_throw (by decide)) (.ok _)

theorem findPointer_fails (pointer : UInt16) (labels : List StringRef) :
    Fails ParserFault (findPointer pointer labels) := by
  unfold findPointer
  split
  · exact .ok _
  · exact parser_throw (by decide)

theorem labelStep_fails (stop : ℕ) (st : LabelState) : Fails ParserFault (labelStep mem stop st) := by
  refine .ite ?_ (.ite ?_ (.ite ?_ ?_))
  · exact (validateSize_fails _).bind fun _ => .ite (parser_throw (by decide)) (.ok _)
  · refine .ite (parser_throw (by decide)) ?_
    exact (validateSize_fails _).bind fun _ => .ite (.ok _) (parser_throw (by decide))
  · refine .ite (parser_throw (by decide)) ?_
    exact (validateSize_fails _).bind fun _ => (findPointer_fails _ _).bind fun _ => .ok _
  · exact parser_throw (by decide)

theorem labelHeader_fails (buffer size : ℕ) (known : List StringRef) :
    Fails ParserFault (LabelHeader.parse mem buffer size known) := by
  refine .ite (parser_throw (by decide)) (.bind (fun e he => ?_) fun _ => .ok _)
  obtain ⟨n, r, hn, hrounds⟩ : ∃ n r, n ≤ 256 ∧
      Run.Rounds (labelStep mem (buffer + size)) ⟨buffer, false, [], 0, 0, known⟩ n r :=
    Run.exists_rounds LabelState.size size_lt 255 _ (Nat.le_add_left ..)
  rw [labelLoop_of_rounds hrounds labelRounds hn] at he
  subst he
  obtain ⟨st, herror⟩ := hrounds.error
  exact labelStep_fails _ _ e herror

theorem question_fails (buffer size : ℕ) (known : List StringRef) (offset : UInt16) :
    Fails ParserFault (Question.parse mem buffer size known offset) :=
  (labelHeader_fails _ _ _).bind fun _ => .ite (parser_throw (by decide)) (.ok _)

theorem ParserFault.caught {e : Fault} (h : ParserFault e) : ∃ ex bad, e = .raised ex ∧
    catchClause ex.type = some (if formatError e then .formatError else .serverFailure, bad) := by
  obtain ⟨type, htype, what, rfl⟩ := h
  refine ⟨_, formatError (warThrow type what), rfl, ?_⟩
  simp only [parserTypes, List.mem_cons, List.not_mem_nil, or_false] at htype
  rcases htype with rfl | rfl | rfl | rfl | rfl
  all_goals rfl

/-! ## The loop over the questions -/

/-- What `k` copies of a question add. -/
def Parsed.addCopies (s : Parsed) (q : Rfc1035.Question) : ℕ → Parsed
  | 0 => s
  | k + 1 => (s.add q).addCopies q k

theorem rounds_copies (h : PlainQuestion mem n q) : ∀ {k : ℕ} {s : Parsed},
    (0 < k → s.replyBuffer.length + k * (encodeQuestion q).length < maxReplyBuffer) →
    ((List.range k).forM fun _ => questionRound mem n (n - MessageHeader.size)) s =
      (.ok (), s.addCopies q k)
  | 0, _, _ => rfl
  | k + 1, s, hfit => by
    have hfit := hfit (Nat.succ_pos k)
    rw [Nat.succ_mul] at hfit
    have hlen : (s.add q).replyBuffer.length = s.replyBuffer.length + (encodeQuestion q).length :=
      List.length_append
    obtain ⟨_, hround⟩ := questionRound_plain h s
    rw [if_pos (by omega)] at hround
    rw [forM_range_succ, bind_ok hround]
    exact rounds_copies h fun _ => by omega

/-- **What `k` copies of a question leave.** -/
structure Copies (q : Rfc1035.Question) (k : ℕ) (s : Parsed) : Prop where
  buffer : s.replyBuffer = List.replicate 12 0 ++ (List.replicate k q).flatMap encodeQuestion
  numQuestions : s.numQuestions = UInt16.ofNat k
  length : s.questions.length = k
  asks : ∀ question ∈ s.questions, question.content = q ∧
    StoredAt (known headerHole s.replyBuffer) question.offset q.name

theorem copies_zero (q : Rfc1035.Question) : Copies q 0 ⟨[], [], 0, resize [] MessageHeader.size⟩ where
  buffer := rfl
  numQuestions := rfl
  length := rfl
  asks _ h := absurd h List.not_mem_nil

theorem Copies.add (h : Copies q k s) (hname : PlainName q.name)
    (hfit : s.replyBuffer.length < maxReplyBuffer) : Copies q (k + 1) (s.add q) where
  buffer := by
    have hcopies : (List.replicate (k + 1) q).flatMap encodeQuestion =
        (List.replicate k q).flatMap encodeQuestion ++ encodeQuestion q := by
      rw [List.replicate_succ', List.flatMap_append, List.flatMap_singleton]
    rw [hcopies, ← List.append_assoc, ← h.buffer]
    rfl
  numQuestions := by
    rw [UInt16.ofNat_add, ← h.numQuestions]
    rfl
  length := by
    rw [← h.length]
    exact List.length_append
  asks question hmem := by
    have hle := known_le_append headerHole s.replyBuffer (encodeQuestion q)
    rcases List.mem_append.mp hmem with hmem | hmem
    · obtain ⟨hcontent, hstored⟩ := h.asks question hmem
      exact ⟨hcontent, hstored.mono hle⟩
    · obtain rfl := List.mem_singleton.mp hmem
      refine ⟨content_asked _ _, ?_⟩
      have h12 : 12 ≤ s.replyBuffer.length := by
        rw [h.buffer, List.length_append, List.length_replicate]
        omega
      obtain ⟨next, hn⟩ := @nameAt_question headerHole [q] s.replyBuffer [] 0 q
        (fun x hx => by rw [List.mem_singleton.mp hx]; exact hname.fit)
        (fun i hi => not_mem_headerHole (by omega)) rfl
      have hoff : (UInt16.ofNat s.replyBuffer.length).toNat % 0x4000 = s.replyBuffer.length := by
        have hmax : maxReplyBuffer = 512 := rfl
        rw [UInt16.toNat_ofNat']
        omega
      refine ⟨next, ?_⟩
      rw [show (asked q (UInt16.ofNat s.replyBuffer.length)).offset =
        UInt16.ofNat s.replyBuffer.length from rfl, hoff]
      simpa [Parsed.add] using hn

theorem Copies.addCopies (hname : PlainName q.name) : ∀ {k j : ℕ} {s : Parsed}, Copies q j s →
    (0 < k → s.replyBuffer.length + k * (encodeQuestion q).length < maxReplyBuffer) →
    Copies q (j + k) (s.addCopies q k)
  | 0, _, _, h, _ => h
  | k + 1, j, s, h, hfit => by
    have hfit := hfit (Nat.succ_pos k)
    rw [Nat.succ_mul] at hfit
    have hlen : (s.add q).replyBuffer.length = s.replyBuffer.length + (encodeQuestion q).length :=
      List.length_append
    rw [show j + (k + 1) = j + 1 + k by omega]
    exact (h.add hname (by omega)).addCopies hname fun _ => by omega

/-- **Where copies of a question are parsed.** -/
theorem parseQuestions_copies {header : MessageHeader} (h : PlainQuestion mem n q)
    (hk : header.qdcount.toNat = k)
    (hfit : 12 + k * (encodeQuestion q).length < maxReplyBuffer) : ∃ s,
      parseQuestions mem n header ⟨[], [], 0, resize [] MessageHeader.size⟩ = (.ok (), s) ∧
        Copies q k s := by
  refine ⟨Parsed.addCopies ⟨[], [], 0, resize [] MessageHeader.size⟩ q k, ?_, ?_⟩
  · rw [parseQuestions, hk]
    exact rounds_copies h fun _ => hfit
  · have hcopies := (copies_zero q).addCopies (k := k) h.name fun _ => hfit
    rwa [Nat.zero_add] at hcopies

/-! ## What copies lead to -/

/-- What stands for the governing zone of a zone that has none: it has no records. -/
def noZone : ZonePtr := ⟨{ label := [] }, [], []⟩

/-- What a question about `z` adds to the lists of zones. -/
def mention (zones : List Zone) (z : ZonePtr) (soaZone : Option ZonePtr) (q : Rfc1035.Question)
    (t : Referrals) : Referrals where
  authorative := t.authorative && soaZone.any (·.zone.authorative)
  authorativeZones := if WithNs q then addZone t.authorativeZones soaZone else t.authorativeZones
  nsZones :=
    if q.qtype = 15 then
      (z.zone.mx.map fun mx => (lookup zones (toFraments (z.getFdqn mx.toNs))).1).foldl addZone t.nsZones
    else t.nsZones

section

variable {z : ZonePtr} {soaZone : Option ZonePtr} {question : Question} {c : Contribution}

theorem found_refer (hq : question.qtype = q.qtype)
    (hc : qtypeContribution zones question z soaZone = .ok c) (t : Referrals) :
    (Contribution.found question soaZone c).refer t = mention zones z soaZone q t := by
  obtain ⟨t₀, ht₀, hauthorative, hzones, hns⟩ : ∃ t₀ : Referrals,
      t₀ = (if !soaZone.any (·.zone.authorative) then { t with authorative := false } else t) ∧
        t₀.authorative = (t.authorative && soaZone.any (·.zone.authorative)) ∧
        t₀.authorativeZones = t.authorativeZones ∧ t₀.nsZones = t.nsZones := by
    refine ⟨_, rfl, ?_, ?_, ?_⟩
    · cases soaZone.any (·.zone.authorative) <;> simp
    · split_ifs <;> rfl
    · split_ifs <;> rfl
  have hext : ∀ t' : Referrals, t'.authorative = t₀.authorative →
      t'.authorativeZones = (if WithNs q then addZone t₀.authorativeZones soaZone else t₀.authorativeZones) →
      t'.nsZones = (if q.qtype = 15 then (z.zone.mx.map fun mx =>
        (lookup zones (toFraments (z.getFdqn mx.toNs))).1).foldl addZone t₀.nsZones else t₀.nsZones) →
      t' = mention zones z soaZone q t := by
    rintro ⟨a, zs, ns⟩ rfl rfl rfl
    rw [mention, hauthorative, hzones, hns]
  simp only [Contribution.found, ← ht₀]
  unfold qtypeContribution at hc
  rw [hq] at hc ⊢
  split_ifs at hc with h1 hcname ht h5 hcname h6 h2 h15
  · cases hc
    refine hext _ ?_ ?_ ?_ <;> simp [ht, WithNs]
  · cases hc
    refine hext _ ?_ ?_ ?_ <;> simp [h1.resolve_left ht, WithNs, Referrals.addAuthorativeZone]
  · cases hc
    rcases h1 with h | h
    · refine hext _ ?_ ?_ ?_ <;> simp [h, WithNs]
    · refine hext _ ?_ ?_ ?_ <;> simp [h, WithNs, Referrals.addAuthorativeZone]
  · cases hc
    refine hext _ ?_ ?_ ?_ <;> simp [h5, WithNs]
  · cases hc
    refine hext _ ?_ ?_ ?_ <;> simp [h5, WithNs]
  · cases soaZone with
    | none => cases hc
    | some s =>
      cases hc
      refine hext _ ?_ ?_ ?_ <;> simp [h6, WithNs, Referrals.addAuthorativeZone]
  · cases hc
    refine hext _ ?_ ?_ ?_ <;> simp [h2, WithNs, Referrals.addAuthorativeZone]
  · cases hc
    refine hext _ ?_ ?_ ?_ <;> simp [h15, WithNs, foldl_addNsZone]
  · cases hc
    have h255 : q.qtype ≠ 255 := fun h => h1 (.inr h)
    refine hext _ ?_ ?_ ?_ <;> simp [h2, h6, h15, h255, WithNs]

theorem addZone_addZone (l : List ZonePtr) (x : Option ZonePtr) :
    addZone (addZone l x) x = addZone l x := by
  cases x with
  | none => rfl
  | some z =>
    have hsame : z.same z = true := beq_self_eq_true _
    by_cases h : l.any z.same = true
    · have hold : addZone l (some z) = l := if_pos h
      rw [hold, hold]
    · have hnew : addZone l (some z) = l ++ [z] := if_neg h
      rw [hnew]
      exact if_pos (by simp [hsame])

theorem foldl_addZone_twice (found : List (Option ZonePtr)) (acc : List ZonePtr) :
    found.foldl addZone (found.foldl addZone acc) = found.foldl addZone acc := by
  have hall : ∀ z ∈ distinct (found.filterMap id), (found.foldl addZone acc).any z.same = true := by
    intro z hz
    rw [foldl_addZone, List.any_append, Bool.or_eq_true]
    by_cases h : acc.any z.same = true
    · exact .inl h
    · refine .inr (List.any_eq_true.mpr ⟨z, List.mem_filter.mpr ⟨hz, by simpa using h⟩, ?_⟩)
      exact beq_self_eq_true _
  rw [foldl_addZone found (found.foldl addZone acc), List.filter_eq_nil_iff.mpr fun z hz => by
    simp [hall z hz], List.append_nil]

theorem mention_mention (t : Referrals) :
    mention zones z soaZone q (mention zones z soaZone q t) = mention zones z soaZone q t := by
  simp only [mention, Bool.and_assoc, Bool.and_self]
  congr 1
  · split_ifs
    · exact addZone_addZone _ _
    · rfl
  · split_ifs
    · exact foldl_addZone_twice _ _
    · rfl

end

/-! ## The records for copies -/

section

variable {at_ : UInt16 → List Label → Prop} {z s' : ZonePtr} {soaZone : Option ZonePtr} {question : Question}
  (hz : LegalForest zones)

include hz

theorem answers_mean_other (h6 : q.qtype ≠ 6) (hq : question.qtype = q.qtype)
    (hat : at_ question.offset q.name) (hr : Reached zones z) :
    ∃ c, qtypeContribution zones question z soaZone = .ok c ∧
      List.Forall₂ (Means at_) c.records (answersOf zones z s' q) := by
  have howner : OwnerMeans at_ (.namePtr question.offset) q.name := .namePtr hat
  have hcname : z.zone.cname ≠ [] → Means at_ (.cname question.offset (fullCname z))
      (record q.name (.cname (cnameTarget z))) := fun h => .cname howner (spells_fullCname hz hr h)
  unfold qtypeContribution
  rw [hq]
  split_ifs with h1 hc ht h5 hc h2 h15
  · have hne : z.zone.cname ≠ [] := by simpa using hc
    have hspell := spells_fullCname hz hr hne
    refine ⟨_, rfl, ?_⟩
    rw [answersOf, if_pos ⟨ht, hne⟩, targetRecords, toFraments_of_spells hspell]
    refine .cons (hcname hne) ?_
    cases (lookup zones (cnameTarget z)).1 with
    | none => exact .nil
    | some t => exact forall₂_map fun ip _ => .a (.name hspell)
  · have hne : z.zone.cname ≠ [] := by simpa using hc
    refine ⟨_, rfl, ?_⟩
    rw [answersOf, if_neg (fun h => ht h.1), if_pos ⟨.inl (h1.resolve_left ht), hne⟩]
    exact .cons (hcname hne) .nil
  · have he : z.zone.cname = [] := by simpa using hc
    refine ⟨_, rfl, ?_⟩
    rw [answersOf, if_neg (fun h => h.2 he), if_neg (fun h => h.2 he), if_pos h1]
    exact forall₂_map fun ip _ => .a howner
  · have hne : z.zone.cname ≠ [] := by simpa using hc
    refine ⟨_, rfl, ?_⟩
    rw [answersOf, if_neg (fun h => h1 (.inl h.1)), if_pos ⟨.inr h5, hne⟩]
    exact .cons (hcname hne) .nil
  · have he : z.zone.cname = [] := by simpa using hc
    refine ⟨_, rfl, ?_⟩
    rw [answersOf, if_neg (fun h => h.2 he), if_neg (fun h => h.2 he), if_neg h1]
    simp [h5]
  · refine ⟨_, rfl, ?_⟩
    simp [answersOf, h2]
  · refine ⟨_, rfl, ?_⟩
    rw [show answersOf zones z s' q = z.zone.mx.map fun mx =>
      record q.name (.mx mx.priority (entryLabels z mx.fqdn)) by simp [answersOf, h15]]
    exact forall₂_map fun mx hmx => .mx howner (spells_getFdqn (hz z hr) ((hz z hr).mx mx hmx))
  · have h255 : q.qtype ≠ 255 := fun h => h1 (.inr h)
    have h1' : q.qtype ≠ 1 := fun h => h1 (.inl h)
    refine ⟨_, rfl, ?_⟩
    simp [answersOf, h1', h255, h5, h6, h15]

/-- **What a question leads to**, as records that mean something. -/
theorem contribution_means {au : Bool} (hq : question.content = q) (hat : at_ question.offset q.name)
    (hl : lookup zones q.name = (some z, au)) (hs : getSoaZone z = .ok soaZone)
    (h6 : q.qtype = 6 → (soaZone.getD noZone).zone.ns ≠ []) : ∃ c, contribution zones question = .ok c ∧
      List.Forall₂ (Means at_) c.records (answersOf zones z (soaZone.getD noZone) q) ∧
      c.refer = mention zones z soaZone q := by
  subst hq
  have hr := lookup_reached hl
  obtain ⟨c, hc, hmeans⟩ : ∃ c, qtypeContribution zones question z soaZone = .ok c ∧
      List.Forall₂ (Means at_) c.records (answersOf zones z (soaZone.getD noZone) question.content) := by
    by_cases hsoa : question.content.qtype = 6
    · cases soaZone with
      | none => exact absurd rfl (h6 hsoa)
      | some s => exact answers_mean hz rfl hat hr hs (h6 hsoa)
    · exact answers_mean_other hz hsoa rfl hat hr
  refine ⟨Contribution.found question soaZone c, ?_, hmeans, funext fun t => found_refer rfl hc t⟩
  rw [contribution_found hl hs, hc]
  rfl

theorem contributions_copies {au : Bool} (hl : lookup zones q.name = (some z, au))
    (hs : getSoaZone z = .ok soaZone) (h6 : q.qtype = 6 → (soaZone.getD noZone).zone.ns ≠ []) :
    ∀ {questions : List Question},
      (∀ question ∈ questions, question.content = q ∧ at_ question.offset q.name) →
      ∃ cs, questions.mapM (contribution zones) = .ok cs ∧ cs.length = questions.length ∧
        List.Forall₂ (Means at_) (cs.flatMap Contribution.records)
          (List.replicate questions.length (answersOf zones z (soaZone.getD noZone) q)).flatten ∧
        ∀ c ∈ cs, c.refer = mention zones z soaZone q
  | [], _ => ⟨[], rfl, rfl, .nil, fun c hc => absurd hc List.not_mem_nil⟩
  | question :: questions, h => by
    obtain ⟨⟨hq, hat⟩, hrest⟩ := List.forall_mem_cons.mp h
    obtain ⟨c, hc, hmeans, hrefer⟩ := contribution_means hz hq hat hl hs h6
    obtain ⟨cs, hcs, hlen, hmeans', hrefer'⟩ := contributions_copies hl hs h6 hrest
    refine ⟨c :: cs, mapM_cons_eq_ok.mpr ⟨c, cs, hc, hcs, rfl⟩, congrArg (· + 1) hlen, ?_,
      List.forall_mem_cons.mpr ⟨hrefer, hrefer'⟩⟩
    rw [List.flatMap_cons, List.length_cons, List.replicate_succ, List.flatten_cons]
    exact List.rel_append hmeans hmeans'

omit hz in
theorem referAll_copies {cs : List Contribution} (hcs : cs ≠ [])
    (h : ∀ c ∈ cs, c.refer = mention zones z soaZone q) : referAll cs = mention zones z soaZone q {} := by
  obtain ⟨c, cs, rfl⟩ := List.exists_cons_of_ne_nil hcs
  obtain ⟨hc, hrest⟩ := List.forall_mem_cons.mp h
  rw [referAll, List.foldl_cons, hc]
  clear hcs h hc
  induction cs with
  | nil => rfl
  | cons c cs ih =>
    obtain ⟨hc, hrest⟩ := List.forall_mem_cons.mp hrest
    rw [List.foldl_cons, hc, mention_mention]
    exact ih hrest

omit hz in
theorem targets_noZone (q : Rfc1035.Question) (z s' : ZonePtr) :
    targets z noZone q = if q.qtype = 15 then targets z s' q else [] := by
  unfold targets noZone
  split_ifs <;> rfl

/-- **The zones whose addresses are added**, with a governing zone or without one. -/
theorem nsZones_copies (hr : Reached zones z) (hs : getSoaZone z = .ok soaZone) :
    let t := mention zones z soaZone q {}
    (t.authorativeZones.foldl (referNs zones) t).nsZones =
      distinct ((targets z (soaZone.getD noZone) q).filterMap fun n => (lookup zones n).1) := by
  intro t
  cases soaZone with
  | some s =>
    refine referred_zones hz hr (soa_reached hr hs) ?_ ?_
    · simp [t, mention, addZone]
    · simp only [t, mention]
      split_ifs <;> rfl
  | none =>
    have hzones : t.authorativeZones = [] := by simp [t, mention, addZone]
    have hns : t.nsZones = (if q.qtype = 15 then z.zone.mx.map fun mx =>
        (lookup zones (toFraments (z.getFdqn mx.toNs))).1 else []).foldl addZone [] := by
      simp only [t, mention]
      split_ifs <;> rfl
    rw [Option.getD_none, targets_noZone q z z]
    by_cases h15 : q.qtype = 15
    · rw [if_pos h15]
      refine referred_zones hz hr hr ?_ hns
      rw [hzones, if_neg (by simp [WithNs, h15])]
    · rw [hzones, List.foldl_nil, hns, if_neg h15, if_neg h15]
      rfl

/-- **The records for `k` copies of a question**: its answers `k` times, the other sections once. -/
theorem records_copies {au : Bool} {questions : List Question} (hne : questions ≠ [])
    (hasks : ∀ question ∈ questions, question.content = q ∧ at_ question.offset q.name)
    (hl : lookup zones q.name = (some z, au)) (hs : getSoaZone z = .ok soaZone)
    (h6 : q.qtype = 6 → (soaZone.getD noZone).zone.ns ≠ []) : ∃ R, recordsOf zones questions = .ok R ∧
      List.Forall₂ (Means at_) R.answers
        (List.replicate questions.length (answersOf zones z (soaZone.getD noZone) q)).flatten ∧
      List.Forall₂ (Means at_) R.authority (authorityOf (soaZone.getD noZone) q) ∧
      List.Forall₂ (Means at_) R.additional (additionalOf zones z (soaZone.getD noZone) q) := by
  obtain ⟨cs, hcs, hlen, hanswers, hrefer⟩ := contributions_copies hz hl hs h6 hasks
  have hr := lookup_reached hl
  have hcs' : cs ≠ [] := by
    rintro rfl
    exact hne (List.length_eq_zero_iff.mp hlen.symm)
  have hall := referAll_copies hcs' hrefer
  refine ⟨script zones cs, by rw [recordsOf, hcs]; rfl, hanswers, ?_, ?_⟩
  · simp only [script, hall]
    cases soaZone with
    | some s =>
      have hauth : List.Forall₂ (Means at_) _ (authorityOf s q) := authority_means hz (soa_reached hr hs)
      have hzones : (mention zones z (some s) q {}).authorativeZones = if WithNs q then [s] else [] := by
        simp [mention, addZone]
      rwa [hzones]
    | none =>
      have hzones : (mention zones z none q {}).authorativeZones = [] := by simp [mention, addZone]
      have hnone : authorityOf noZone q = [] := by
        unfold authorityOf noZone
        split_ifs <;> rfl
      rw [hzones, Option.getD_none, hnone]
      exact .nil
  · simp only [script, hall]
    rw [nsZones_copies hz hr hs]
    exact additional_means hz

end

/-! ## The AA bit -/

section

variable {z : ZonePtr} {au : Bool} {limit : Option ℕ}

theorem processQuestion_again {question : Question} (hl : lookup zones question.getLabels = (some z, au))
    (hs : getSoaZone z = .ok z.governing) : Triple (fun s => s.2.authorative = z.authoritative)
      (processQuestion limit zones question) (fun _ s => s.2.authorative = z.authoritative)
      (fun _ s => s.2.authorative = z.authoritative) := by
  by_cases hz : z.authoritative = true
  · intro s h
    exact processQuestion_authorative hl hs s (h.trans hz)
  · have hfalse : z.authoritative = false := by simpa using hz
    have hstable := stable_authorative limit z.authoritative
    rw [processQuestion_found hl hs]
    refine .bind (.when fun _ => ?_) fun _ => (hstable.processQtype question z z.governing).bind fun _ =>
      .when fun _ => hstable.authorativeZone _
    rintro ⟨o, t⟩ h
    exact ⟨fun _ _ h' => (by cases h'; exact hfalse.symm), fun _ _ h' => by cases h'⟩

/-- **The AA bit for copies of a question** tells whether `z` is under authority, however they end. -/
theorem authorative_copies {questions : List Question} (hne : questions ≠ [])
    (hasks : ∀ question ∈ questions, question.content = q) (hl : lookup zones q.name = (some z, au))
    (hs : getSoaZone z = .ok z.governing) {o o' : Outgoing} {r : Except Fault Unit} {t : Referrals}
    (h : answer limit zones questions (o, {}) = (r, o', t)) : t.authorative = z.authoritative := by
  have hlookup : ∀ question ∈ questions, lookup zones question.getLabels = (some z, au) := by
    intro question hmem
    rw [← hl, ← hasks question hmem]
    rfl
  obtain ⟨question, rest, rfl⟩ := List.exists_cons_of_ne_nil hne
  obtain ⟨hfirst, hrest⟩ := List.forall_mem_cons.mp hlookup
  have hanswer : Triple (fun s => s.2.authorative = true) (answer limit zones (question :: rest))
      (fun _ s => s.2.authorative = z.authoritative) (fun _ s => s.2.authorative = z.authoritative) := by
    rw [answer, forM_cons]
    refine .bind (.bind (processQuestion_authorative hfirst hs) fun _ => .forM fun question' hmem =>
      processQuestion_again (hrest question' hmem) hs) fun _ => (stable_authorative _ _).rest
  obtain ⟨hok, herr⟩ := hanswer (o, {}) rfl
  cases r with
  | ok u => exact hok _ _ h
  | error e => exact herr _ _ h

end

end VUbercool.Dns
