import VUbercool.Dns.Frame

/-!
# The records of a reply

The second pass of `ProcessQuestions` as a script of stores.

* `Contribution`: the records a question asks for, and what it adds to the lists of zones.
* `recordsOf`: the records of a reply, by section.
* `answer_performs`: the second pass stores these records, one after the other.
-/

namespace VUbercool.Dns

open Octets Proc

variable {limit : Option ℕ} {zones : List Zone}

/-! ## The records -/

/-- What a question leads to: records of the answer section, and a change of the lists of zones. -/
structure Contribution where
  records : List ResourceRecord := []
  refer : Referrals → Referrals := id

/-- The `A` records that follow a `CNAME` record. -/
def targetRecords (zones : List Zone) (name : Bytes) : List ResourceRecord :=
  ((lookup zones (toFraments name)).1.elim [] (·.zone.a)).map (.a (.name name))

/-- What the branches over `qtype` lead to. -/
def qtypeContribution (zones : List Zone) (question : Question) (zone : ZonePtr)
    (soaZone : Option ZonePtr) : Except Fault Contribution :=
  if question.qtype = 1 ∨ question.qtype = 255 then
    if !zone.zone.cname.isEmpty then
      .ok { records := .cname question.offset (fullCname zone) ::
              if question.qtype = 1 then targetRecords zones (fullCname zone) else [] }
    else .ok { records := zone.zone.a.map (.a (.namePtr question.offset)) }
  else if question.qtype = 5 then
    .ok { records := if !zone.zone.cname.isEmpty then [.cname question.offset (fullCname zone)] else [] }
  else if question.qtype = 6 then
    match soaZone with
    | none => .error (warThrow .noSoaRecord "No SOA record found")
    | some soaZone => .ok
        { records := [.soa (.namePtr question.offset) soaZone]
          refer := fun t => t.addAuthorativeZone (some soaZone) }
  else if question.qtype = 2 then .ok { refer := fun t => t.addAuthorativeZone soaZone }
  else if question.qtype = 15 then
    .ok { records := zone.zone.mx.map fun mx =>
            .mx question.offset (zone.getFdqn mx.toNs) mx.priority
          refer := fun t => zone.zone.mx.foldl (fun t mx =>
            t.addNsZone (lookup zones (toFraments (zone.getFdqn mx.toNs))).1) t }
  else .ok {}

/-- What a question adds to the lists of zones before and after its branch over `qtype`. -/
def Contribution.found (question : Question) (soaZone : Option ZonePtr) (c : Contribution) :
    Contribution where
  records := c.records
  refer t :=
    let t := if !soaZone.any (·.zone.authorative) then { t with authorative := false } else t
    if question.qtype = 255 then (c.refer t).addAuthorativeZone soaZone else c.refer t

/-- **What a question leads to.** -/
def contribution (zones : List Zone) (question : Question) : Except Fault Contribution :=
  match lookup zones question.getLabels with
  | (none, true) => .error (warThrow .unknownSubDomain "Unknown sub-domain")
  | (none, false) => .error (warThrow .unknownDomain "Unknown domain")
  | (some zone, _) => do
    let soaZone ← getSoaZone zone
    (qtypeContribution zones question zone soaZone).map (Contribution.found question soaZone)

/-- The `NS` records of a zone. -/
def authorityRecords (zone : ZonePtr) : List ResourceRecord :=
  zone.zone.ns.map fun ns => .ns zone.getDomainName (zone.getFdqn ns)

/-- The zones of the name servers of a zone are added to `ns_zones`. -/
def referNs (zones : List Zone) (t : Referrals) (zone : ZonePtr) : Referrals :=
  zone.zone.ns.foldl (fun t ns => t.addNsZone (lookup zones (toFraments (zone.getFdqn ns))).1) t

/-- The `A` records of a zone. -/
def additionalRecords (zone : ZonePtr) : List ResourceRecord :=
  zone.zone.a.map (.a (.name zone.getDomainName))

/-- The records of a reply, by section. -/
structure Script where
  answers : List ResourceRecord
  authority : List ResourceRecord
  additional : List ResourceRecord

/-- All records of a reply in order, each with its section. -/
def Script.all (x : Script) : List (Section × ResourceRecord) :=
  x.answers.map (Section.answer, ·) ++ x.authority.map (Section.authority, ·) ++
    x.additional.map (Section.additional, ·)

/-- What questions do to the lists of zones. -/
def referAll (cs : List Contribution) : Referrals := cs.foldl (fun t c => c.refer t) {}

/-- The records of a reply where the questions lead to `cs`: answers, then `NS` records, then the
addresses of `MX` and `NS` targets. -/
def script (zones : List Zone) (cs : List Contribution) : Script where
  answers := cs.flatMap Contribution.records
  authority := (referAll cs).authorativeZones.flatMap authorityRecords
  additional := ((referAll cs).authorativeZones.foldl (referNs zones) (referAll cs)).nsZones.flatMap
    additionalRecords

/-- **The records of a reply** to questions. -/
def recordsOf (zones : List Zone) (questions : List Question) : Except Fault Script :=
  (questions.mapM (contribution zones)).map (script zones)

/-! ## The second pass -/

theorem emits_performs {γ : Type} {f : γ → Section × ResourceRecord} {cs : List γ} {t : Referrals} :
    Performs (storeIn limit) (cs.forM fun c => emit limit (f c)) t (cs.map f) (.ok ()) t := by
  have h : Performs (storeIn limit) (cs.forM fun c => emit limit (f c)) t _ _ (cs.foldl (fun t _ => t) t) :=
    Performs.forM_map fun c _ t => Performs.action (f c)
  rwa [show cs.foldl (fun t _ => t) t = t from by induction cs <;> simp_all] at h

theorem refer_performs (f : Referrals → Referrals) (t : Referrals) :
    Performs (storeIn limit) (refer f) t [] (.ok ()) (f t) :=
  Performs.silent fun _ => rfl

theorem when_refer_performs {c : Prop} [Decidable c] (f : Referrals → Referrals) (t : Referrals) :
    Performs (storeIn limit) (when c (refer f)) t [] (.ok ()) (if c then f t else t) := by
  by_cases h : c
  · rw [when_pos h, if_pos h]
    exact refer_performs f t
  · rw [when_neg h, if_neg h]
    exact Performs.pure ()

theorem storeCname_performs (zone : ZonePtr) (question : Question) (t : Referrals) :
    Performs (storeIn limit) (storeCname limit zone question) t
      [(.answer, .cname question.offset (fullCname zone))] (.ok (fullCname zone)) t :=
  (Performs.action _).bind (Performs.pure _)

theorem qtype_performs {question : Question} {zone : ZonePtr} {soaZone : Option ZonePtr}
    {c : Contribution} {t : Referrals} (h : qtypeContribution zones question zone soaZone = .ok c) :
    Performs (storeIn limit) (processQtype limit zones question zone soaZone) t
      (c.records.map (.answer, ·)) (.ok ()) (c.refer t) := by
  unfold qtypeContribution at h
  unfold processQtype
  split_ifs at h ⊢ with h1 hc ht h5 hc h6 h2 h15
  · cases h
    apply (storeCname_performs zone question t).bind
    rw [when_pos ht, targetRecords, List.map_map]
    cases (lookup zones (toFraments (fullCname zone))).1 with
    | none => exact Performs.pure ()
    | some target => exact emits_performs
  · cases h
    apply (storeCname_performs zone question t).bind
    rw [when_neg ht]
    exact Performs.pure ()
  · cases h
    rw [List.map_map]
    exact emits_performs
  · cases h
    rw [when_pos hc]
    exact (storeCname_performs zone question t).bind (Performs.pure ())
  · cases h
    rw [when_neg hc]
    exact Performs.pure ()
  · cases soaZone with
    | none => cases h
    | some soaZone =>
      cases h
      exact (Performs.action _).bind (refer_performs _ t)
  · cases h
    exact refer_performs _ t
  · cases h
    rw [List.map_map]
    exact Performs.forM_map fun mx _ t => (Performs.action _).bind (refer_performs _ t)
  · cases h
    exact Performs.pure ()

theorem processQuestion_found {question : Question} {zone : ZonePtr} {au : Bool}
    {soaZone : Option ZonePtr} (hl : lookup zones question.getLabels = (some zone, au))
    (hs : getSoaZone zone = .ok soaZone) : processQuestion limit zones question =
      when (!soaZone.any (·.zone.authorative)) (refer fun t => { t with authorative := false }) >>=
        fun _ => processQtype limit zones question zone soaZone >>=
        fun _ => when (question.qtype = 255) (refer fun t => t.addAuthorativeZone soaZone) := by
  rw [processQuestion, hl]
  dsimp only
  rw [hs]
  rfl

theorem contribution_found {question : Question} {zone : ZonePtr} {au : Bool}
    {soaZone : Option ZonePtr} (hl : lookup zones question.getLabels = (some zone, au))
    (hs : getSoaZone zone = .ok soaZone) : contribution zones question =
      (qtypeContribution zones question zone soaZone).map (Contribution.found question soaZone) := by
  rw [contribution, hl]
  dsimp only
  rw [hs]
  rfl

theorem contribution_cases {question : Question} {c : Contribution}
    (h : contribution zones question = .ok c) :
    ∃ zone au soaZone c₀, lookup zones question.getLabels = (some zone, au) ∧ getSoaZone zone = .ok soaZone ∧
      qtypeContribution zones question zone soaZone = .ok c₀ ∧
      c = Contribution.found question soaZone c₀ := by
  rcases hl : lookup zones question.getLabels with ⟨- | zone, au⟩
  · rw [contribution, hl] at h
    cases au <;> cases h
  cases hs : getSoaZone zone with
  | error e =>
    rw [contribution, hl] at h
    simp only [hs] at h
    cases h
  | ok soaZone =>
    rw [contribution_found hl hs] at h
    cases hc : qtypeContribution zones question zone soaZone with
    | error e =>
      rw [hc] at h
      cases h
    | ok c₀ =>
      rw [hc] at h
      cases h
      exact ⟨zone, au, soaZone, c₀, rfl, hs, hc, rfl⟩

/-- **The branches over `qtype` lead to nothing** only for an `SOA` query, and only without an `SOA` zone. -/
theorem qtypeContribution_eq_error {question : Question} {zone : ZonePtr} {soaZone : Option ZonePtr}
    {e : Fault} : qtypeContribution zones question zone soaZone = .error e ↔
      question.qtype = 6 ∧ soaZone = none ∧ e = warThrow .noSoaRecord "No SOA record found" := by
  constructor
  · intro h
    unfold qtypeContribution at h
    split_ifs at h with _ _ _ h6
    cases soaZone with
    | none =>
      cases h
      exact ⟨h6, rfl, rfl⟩
    | some soaZone => cases h
  · rintro ⟨h6, rfl, rfl⟩
    unfold qtypeContribution
    rw [h6]
    rfl

theorem qtype_raises {question : Question} {zone : ZonePtr} {soaZone : Option ZonePtr} {e : Fault}
    (h : qtypeContribution zones question zone soaZone = .error e) (s : Outgoing × Referrals) :
    processQtype limit zones question zone soaZone s = (.error e, s) := by
  obtain ⟨h6, rfl, rfl⟩ := qtypeContribution_eq_error.mp h
  unfold processQtype
  rw [h6]
  rfl

theorem question_performs (question : Question) (t : Referrals) :
    (∃ c, contribution zones question = .ok c ∧
      Performs (storeIn limit) (processQuestion limit zones question) t
        (c.records.map (.answer, ·)) (.ok ()) (c.refer t)) ∨
    ∃ e, contribution zones question = .error e ∧
      ∀ o, ∃ s', processQuestion limit zones question (o, t) = (.error e, s') := by
  rcases hl : lookup zones question.getLabels with ⟨- | zone, au⟩
  · refine .inr ?_
    cases au <;> exact ⟨_, by rw [contribution, hl], fun o => ⟨(o, t), by rw [processQuestion, hl]; rfl⟩⟩
  cases hs : getSoaZone zone with
  | error e => exact .inr ⟨e, by rw [contribution, hl]; simp only [hs]; rfl,
      fun o => ⟨(o, t), by rw [processQuestion, hl]; simp only [hs]; rfl⟩⟩
  | ok soaZone =>
    rw [processQuestion_found hl hs, contribution_found hl hs]
    have hwhen := @when_refer_performs limit ((!soaZone.any (·.zone.authorative)) = true) _
      (fun t => { t with authorative := false }) t
    cases hc : qtypeContribution zones question zone soaZone with
    | error e =>
      refine .inr ⟨e, rfl, fun o => ?_⟩
      rw [bind_ok ((hwhen o o).1 rfl)]
      exact ⟨_, bind_error (qtype_raises hc _)⟩
    | ok c =>
      refine .inl ⟨_, rfl, ?_⟩
      have hrest := hwhen.bind (f := fun _ => processQtype limit zones question zone soaZone >>=
          fun _ => when (question.qtype = 255) (refer fun t => t.addAuthorativeZone soaZone))
        ((qtype_performs hc).bind (when_refer_performs _ _))
      rwa [List.nil_append, List.append_nil] at hrest

theorem authority_performs (zone : ZonePtr) (t : Referrals) :
    Performs (storeIn limit) (processNsAuthZone limit zones zone) t
      ((authorityRecords zone).map (Section.authority, ·)) (.ok ()) (referNs zones t zone) := by
  rw [authorityRecords, List.map_map]
  exact Performs.forM_map fun ns _ t => (Performs.action _).bind (refer_performs _ t)

theorem additional_performs (zone : ZonePtr) (t : Referrals) :
    Performs (storeIn limit) (processNsZone limit zone) t
      ((additionalRecords zone).map (Section.additional, ·)) (.ok ()) t := by
  rw [additionalRecords, List.map_map]
  exact emits_performs

theorem questions_perform : ∀ {questions : List Question} {cs : List Contribution} {t : Referrals},
    questions.mapM (contribution zones) = .ok cs →
    Performs (storeIn limit) (questions.forM (processQuestion limit zones)) t
      (cs.flatMap fun c => c.records.map (Section.answer, ·)) (.ok ())
      (cs.foldl (fun t c => c.refer t) t)
  | [], cs, t, h => by
    cases h
    exact Performs.pure ()
  | question :: questions, cs, t, h => by
    obtain ⟨c, cs', hc, hcs, rfl⟩ := mapM_cons_eq_ok.mp h
    rw [forM_cons, List.flatMap_cons, List.foldl_cons]
    rcases question_performs question t with ⟨c', hc', h⟩ | ⟨e, he, -⟩
    · cases hc.symm.trans hc'
      exact h.bind (questions_perform hcs)
    · cases hc.symm.trans he

/-- **The second pass stores the records of the reply**, one after the other. -/
theorem answer_performs {questions : List Question} {R : Script}
    (h : recordsOf zones questions = .ok R) :
    ∃ t, Performs (storeIn limit) (answer limit zones questions) {} R.all (.ok ()) t := by
  unfold recordsOf at h
  cases hcs : questions.mapM (contribution zones) with
  | error e => rw [hcs] at h; cases h
  | ok cs =>
    rw [hcs] at h
    cases h
    let t := referAll cs
    let t' := t.authorativeZones.foldl (referNs zones) t
    refine ⟨t'.nsZones.foldl (fun t _ => t) t', ?_⟩
    have hadditional : Performs (storeIn limit) (Proc.get >>= fun s => s.2.nsZones.forM
        (processNsZone limit)) t' (t'.nsZones.flatMap fun z =>
          (additionalRecords z).map (Section.additional, ·)) (.ok ())
        (t'.nsZones.foldl (fun t _ => t) t') :=
      Performs.get_snd (f := fun t : Referrals => t.nsZones.forM (processNsZone limit))
        (Performs.forM fun zone _ t => additional_performs zone t)
    simp only [Script.all, script, List.map_flatMap, List.append_assoc]
    exact (questions_perform hcs).bind <| Performs.get_snd
      (f := fun t : Referrals => t.authorativeZones.forM (processNsAuthZone limit zones) >>= fun _ =>
        Proc.get >>= fun s => s.2.nsZones.forM (processNsZone limit)) <|
      (Performs.forM fun zone _ t => authority_performs zone t).bind hadditional

theorem contributions_of_ok : ∀ {questions : List Question} {s s' : Outgoing × Referrals},
    questions.forM (processQuestion limit zones) s = (.ok (), s') →
    ∃ cs, questions.mapM (contribution zones) = .ok cs
  | [], _, _, _ => ⟨[], rfl⟩
  | question :: questions, (o, t), s', h => by
    obtain ⟨u, s₁, hq, hrest⟩ := bind_eq_ok h
    obtain ⟨cs, hcs⟩ := contributions_of_ok hrest
    rcases question_performs question t with ⟨c, hc, -⟩ | ⟨e, -, herr⟩
    · exact ⟨c :: cs, mapM_cons_eq_ok.mpr ⟨c, cs, hc, hcs, rfl⟩⟩
    · obtain ⟨s₂, hs₂⟩ := herr o
      rw [hs₂] at hq
      cases hq

theorem recordsOf_of_answer {questions : List Question} {o o' : Outgoing} {t' : Referrals}
    (h : answer limit zones questions (o, {}) = (.ok (), o', t')) :
    ∃ R, recordsOf zones questions = .ok R ∧ R.all.forM (storeIn limit) o = (.ok (), o') := by
  obtain ⟨u, s₁, hq, -⟩ := bind_eq_ok h
  obtain ⟨cs, hcs⟩ := contributions_of_ok hq
  have hR : recordsOf zones questions = .ok (script zones cs) := by
    rw [recordsOf, hcs]
    rfl
  obtain ⟨t, hp⟩ := answer_performs hR
  exact ⟨_, hR, (hp.of_ok h).1⟩

end VUbercool.Dns
