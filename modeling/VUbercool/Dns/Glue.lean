import VUbercool.Dns.Answered

/-!
# Addresses of name servers

The records of the additional section are those of the zones that were found for the targets of `MX` and
`NS` records. Their owner is the name of the zone, not the target.

* `TargetAt`: the target that is read off a record. `GlueAnswers`: an address record belongs to a
  target.
* `GlueLegal`, `glueLegal_iff`: when the name of a zone that was found is a target.
* `glueAnswers_iff`: **when the addresses that are added belong to a target**.
-/

namespace VUbercool.Dns

open Octets Rfc1035 Proc

/-! ## Targets -/

/-- **The target of an `NS` or `MX` record** in a message: the name its data is, or the name behind the
preference, up to the end of the record. -/
def TargetAt (m : View) (r : ResourceRecord) (a : Written) (ls : List Label) : Prop :=
  match r with
  | .ns .. => NameAt m (a.rdlengthHdr + 2) (a.rdlengthHdr + 2) ls (a.origLen + a.size)
  | .mx .. => NameAt m (a.rdlengthHdr + 4) (a.rdlengthHdr + 4) ls (a.origLen + a.size)
  | _ => False

/-- **An address record belongs to a target**: what was written as `a` is a complete `A` record whose
owner is, up to case, the target of a record of the same reply. -/
def GlueAnswers (reply : Bytes) (puts : Section × ResourceRecord → Written → Prop) (a : Written) : Prop :=
  ∃ ls ip, RecordAt (view reply) a.origLen ⟨ls, 1, 300, .a ip⟩ (a.origLen + a.size) ∧
    ∃ x a' ls', puts x a' ∧ TargetAt (view reply) x.2 a' ls' ∧ folded ls = folded ls'

/-- **A zone whose name is a target**: no label on its path is empty; or only that of the root is, and
the others are, up to case, one of `targets`. -/
def GlueLegal (targets : List Bytes) (t : ZonePtr) : Prop :=
  (∀ l ∈ t.labels, l ≠ []) ∨ (∀ l ∈ t.labels.dropLast, l ≠ []) ∧ t.labels ≠ [[]] ∧
    ∃ n ∈ targets, [] ∉ toFraments n ∧ folded (toFraments n) = folded t.labels.dropLast

variable {b : Bytes} {r : ResourceRecord} {a : Written} {m m' : View}

theorem LaidAt.mono (hm : m.Le m') (h : LaidAt m r a) : LaidAt m' r a := by
  obtain ⟨m₀, e, hhdr, hown, hf, hd⟩ := h
  exact ⟨m₀, e, hhdr, hown.mono hm, hf.mono hm, hd.mono hm⟩

/-- **The target that is read**: that of the record, where it has no empty fragment. -/
theorem LaidAt.targetAt_iff (h : LaidAt (view b) r a) {ls : List Label} :
    TargetAt (view b) r a ls ↔ ∃ n, r.target = some n ∧ [] ∉ toFraments n ∧ ls = toFraments n := by
  obtain ⟨m₀, e, hhdr, -, -, hd⟩ := h
  cases r with
  | a => exact iff_of_false id (by rintro ⟨n, ⟨⟩, -⟩)
  | cname => exact iff_of_false id (by rintro ⟨n, ⟨⟩, -⟩)
  | soa => exact iff_of_false id (by rintro ⟨n, ⟨⟩, -⟩)
  | mx p n pri =>
    simp only [TargetAt, ResourceRecord.target, hhdr, Option.some.injEq, exists_eq_left']
    exact hd.2.nameAt_iff
  | ns d n =>
    simp only [TargetAt, ResourceRecord.target, hhdr, Option.some.injEq, exists_eq_left']
    exact ReadsAs.nameAt_iff hd

/-! ## The zone that was found -/

/-- **When the name of a zone that was found for a target is a target.** -/
theorem glueLegal_iff {targets : List Bytes} {t : ZonePtr} {n : Bytes} (ht : ZoneLabels t) (hn : n ∈ targets)
    (hfound : List.Forall₂ (fun l k => l = [] ∨ iequals k l = true) t.labels (toFraments n)) :
    GlueLegal targets t ↔ t.getDomainName ≠ [] ∧ [] ∉ toFraments t.getDomainName ∧
      ∃ n ∈ targets, [] ∉ toFraments n ∧ folded (toFraments t.getDomainName) = folded (toFraments n) := by
  have hdots : ∀ l ∈ t.labels, dot ∉ l := fun l hl => (ht l hl).2
  have hempty : [] ∉ toFraments t.getDomainName ↔ ∀ l ∈ t.labels.dropLast, l ≠ [] := by
    rw [t.getDomainName_eq, nil_notMem_toFraments_dotted hdots]
  by_cases hall : ∀ l ∈ t.labels, l ≠ []
  · -- no wildcard zone on the path: the name is the target the zone was found for
    have hlabels : toFraments t.getDomainName = t.labels := by
      rw [t.getDomainName_eq, toFraments_dotted_of_ne_nil hdots hall]
    obtain ⟨hfold, hne⟩ := folded_of_labels hfound hall
    refine iff_of_true (.inl hall) ⟨?_, ?_, n, hn, hne, by rw [hlabels, hfold]⟩
    · rw [Ne, ← toFraments_eq_nil, hlabels]
      exact List.cons_ne_nil _ _
    · rw [hlabels]
      exact fun h => hall [] h rfl
  · rw [GlueLegal, or_iff_right hall, hempty]
    obtain ⟨init, last, hlabels⟩ : ∃ init last, t.labels = init ++ [last] :=
      ⟨_, _, (List.dropLast_append_getLast (List.cons_ne_nil _ _)).symm⟩
    have hinit : t.labels.dropLast = init := by rw [hlabels, List.dropLast_concat]
    rw [hinit]
    -- a label is empty: where no other is, that of the root, which is not read off the name
    have hlast : (∀ l ∈ init, l ≠ []) → last = [] := by
      intro hdrop
      by_contra hne
      refine hall fun l hl => ?_
      rw [hlabels, List.mem_append, List.mem_singleton] at hl
      rcases hl with hl | rfl
      · exact hdrop l hl
      · exact hne
    have hroot : (∀ l ∈ init, l ≠ []) → toFraments t.getDomainName = init := by
      intro hdrop
      rw [t.getDomainName_eq, toFraments_dotted hdots, hinit, if_pos]
      rw [hlabels, hlast hdrop, List.getLast?_concat]
    have htext : (∀ l ∈ init, l ≠ []) → (t.getDomainName ≠ [] ↔ t.labels ≠ [[]]) := by
      intro hdrop
      rw [Ne, ← toFraments_eq_nil, hroot hdrop, hlabels, hlast hdrop]
      simp
    constructor
    · rintro ⟨hdrop, hne, n', hn', hnot, hfold⟩
      exact ⟨(htext hdrop).mpr hne, hdrop, n', hn', hnot, by rw [hroot hdrop, hfold]⟩
    · rintro ⟨hne, hdrop, n', hn', hnot, hfold⟩
      rw [hroot hdrop] at hfold
      exact ⟨hdrop, (htext hdrop).mp hne, n', hn', hnot, hfold.symm⟩

/-! ## The additional section -/

variable {zones : List Zone} {mem : Memory} {n : ℕ} {header : MessageHeader} {b reply : Bytes}

theorem target_mem {s : Parsed} {R : Script} (hR : recordsOf zones s.questions = .ok R)
    {x : Section × ResourceRecord} (hx : x ∈ R.all) {n : Bytes} (hn : x.2.target = some n) :
    n ∈ R.targets := by
  simp only [Script.all, List.mem_append, List.mem_map] at hx
  rcases hx with (⟨r, hr, rfl⟩ | ⟨r, hr, rfl⟩) | ⟨r, hr, rfl⟩
  · exact List.mem_filterMap.mpr ⟨r, List.mem_append_left _ hr, hn⟩
  · exact List.mem_filterMap.mpr ⟨r, List.mem_append_right _ hr, hn⟩
  · obtain ⟨t, ip, -, rfl, -⟩ := mem_additional hR hr
    cases hn

theorem puts_target {R : Script} {w : Wire} {limit : ℕ} (h : Puts (some limit) R.all w (.additional, r) a)
    {n : Bytes} (hn : n ∈ R.targets) : ∃ x a', Puts (some limit) R.all w x a' ∧ x.2.target = some n := by
  have hno : (Section.additional, r) ∉
      R.answers.map (Section.answer, ·) ++ R.authority.map (Section.authority, ·) := by
    simp
  obtain ⟨r', hr', htarget⟩ := List.mem_filterMap.mp hn
  rcases List.mem_append.mp hr' with hr' | hr'
  · obtain ⟨a', ha'⟩ := Puts.before h hno (.answer, r') (List.mem_append_left _ (List.mem_map_of_mem hr'))
    exact ⟨_, a', ha', htarget⟩
  · obtain ⟨a', ha'⟩ := Puts.before h hno (.authority, r') (List.mem_append_right _ (List.mem_map_of_mem hr'))
    exact ⟨_, a', ha', htarget⟩

/-- **When the addresses that are added belong to a target.** Every record of the additional section of
a reply is an address of a zone that was found for a target, and belongs to one exactly if the name of
that zone is one. -/
theorem glueAnswers_iff (hz : WildForest zones)
    (h : processQuestions (some maxReplyBuffer) zones mem n header b = (.ok (), reply)) : ∃ s R,
      parseQuestions mem n header ⟨[], [], 0, resize b MessageHeader.size⟩ = (.ok (), s) ∧
      recordsOf zones s.questions = .ok R ∧
      ∀ r a, Puts (some maxReplyBuffer) R.all ⟨s.replyBuffer, []⟩ (.additional, r) a → ∃ t ip target,
        target ∈ R.targets ∧ (lookup zones (toFraments target)).1 = some t ∧
        r = .a (.name t.getDomainName) ip ∧
        (GlueAnswers reply (Puts (some maxReplyBuffer) R.all ⟨s.replyBuffer, []⟩) a ↔
          GlueLegal R.targets t) := by
  obtain ⟨q, s, R, hdr, hparse, hs, hR, h12, rfl⟩ := answered h
  refine ⟨s, R, hparse, hR, fun r a hput => ?_⟩
  have hlaid : ∀ x a', Puts (some maxReplyBuffer) R.all ⟨s.replyBuffer, []⟩ x a' → LaidAt (view (hdr ++
      (storeUntil (some maxReplyBuffer) (R.all.map Prod.snd) ⟨s.replyBuffer, []⟩).2.2.buffer.drop 12)) x.2 a' := by
    intro x a' hx
    refine (hx.laidAt (by decide) (fun l hl => (List.not_mem_nil hl).elim) (fun i hi => ?_) hs.length_lt.le
      (storable_records hz hR fun question hq => (hs.asks question hq).2)).mono (known_headerHole_le h12)
    exact Nat.lt_of_lt_of_le (List.mem_range.mp hi) hs.header_le
  have hr : r ∈ R.additional := by
    have hmem := hput.mem
    simpa [Script.all] using hmem
  obtain ⟨t, ip, n₀, rfl, hn₀, hpath⟩ := mem_additional hR hr
  refine ⟨t, ip, n₀, hn₀, lookupIn_eq_some.mpr hpath, rfl, ?_⟩
  rw [glueLegal_iff (hz t hpath.reached).labels hn₀ hpath.labels]
  have hown := fun ls ip' => @LaidAt.recordAt_a_iff a _ _ ip ip' ls (hlaid _ _ hput)
  constructor
  · rintro ⟨ls, ip', hrec, x, a', ls', hx, htarget, hfold⟩
    obtain ⟨hne, hnot, rfl, -⟩ := (hown ls ip').mp hrec
    obtain ⟨n', hn', hnot', rfl⟩ := (hlaid x a' hx).targetAt_iff.mp htarget
    exact ⟨hne, hnot, n', target_mem hR hx.mem hn', hnot', hfold⟩
  · rintro ⟨hne, hnot, n', hn', hnot', hfold⟩
    obtain ⟨x, a', hx, htarget⟩ := puts_target hput hn'
    exact ⟨_, ip, (hown _ ip).mpr ⟨hne, hnot, rfl, rfl⟩, x, a', _, hx,
      (hlaid x a' hx).targetAt_iff.mpr ⟨n', htarget, hnot', rfl⟩, hfold⟩

/-- The zone `a` with the name server `n`, and under it one zone with an address. -/
def hostForest (label : Bytes) : List Zone :=
  [{ label := [97], ns := [⟨[110]⟩], soa := some {}, children := [{ label := label, a := [1] }] }]

theorem reached_hostForest {label : Bytes} {z : ZonePtr} (h : Reached (hostForest label) z) :
    z = ⟨(hostForest label).head (List.cons_ne_nil _ _), [], [0]⟩ ∨
      z = ⟨{ label := label, a := [1] }, [(hostForest label).head (List.cons_ne_nil _ _)], [0, 0]⟩ := by
  induction h with
  | @root i z hz =>
    cases i with
    | zero =>
      cases hz
      exact .inl rfl
    | succ i => cases hz
  | @child p i z _ hz ih =>
    rcases ih with rfl | rfl
    · cases i with
      | zero =>
        cases hz
        exact .inr rfl
      | succ i => cases hz
    · cases hz

theorem wildForest_host {label : Bytes} (h : label.length < 64 ∧ dot ∉ label) :
    WildForest (hostForest label) := by
  intro z hz
  rcases reached_hostForest hz with rfl | rfl
  · refine ⟨fun l hl => ?_, fun ns hns => ?_, nofun, fun h => absurd rfl h, fun soa hsoa => ?_⟩
    · obtain rfl := List.mem_singleton.mp hl
      exact (by decide : [97].length < 64 ∧ dot ∉ [97])
    · obtain rfl := List.mem_singleton.mp hns
      decide
    · cases hsoa
      decide
  · refine ⟨fun l hl => ?_, nofun, nofun, fun h => absurd rfl h, nofun⟩
    rcases List.mem_cons.mp hl with rfl | hl
    · exact h
    · obtain rfl := List.mem_singleton.mp hl
      exact (by decide : [97].length < 64 ∧ dot ∉ [97])

/-- The name servers of `a` are asked for. -/
def nsQuery : Memory := memoryOf (queryOctets ⟨7, 0, 1, 0, 0, 0⟩ [⟨[[97]], 2, 1⟩])

/-- Its question. -/
def nsParsed : Parsed := Parsed.add ⟨[], [], 0, resize [] MessageHeader.size⟩ ⟨[[97]], 2, 1⟩

/-- The records of the reply, where the zone under `a` has the name `name`. -/
def hostScript (name : Bytes) : Script := ⟨[], [.ns [97] [110, 46, 97]], [.a (.name name) 1]⟩

/-- The reply before and after the `A` record. -/
def nsWire : Wire := ((ResourceRecord.ns [97] [110, 46, 97]).write ⟨nsParsed.replyBuffer, []⟩).2

def hostWire (name : Bytes) : Wire := ((ResourceRecord.a (.name name) 1).write nsWire).2

theorem puts_host {name : Bytes} {a : Written}
    (h : (ResourceRecord.a (.name name) 1).write nsWire = (.ok a, hostWire name))
    (hlen : (hostWire name).buffer.length ≤ maxReplyBuffer) :
    Puts (some maxReplyBuffer) (hostScript name).all ⟨nsParsed.replyBuffer, []⟩
      (.additional, .a (.name name) 1) a := by
  have hns : store (some maxReplyBuffer) (.ns [97] [110, 46, 97]) ⟨nsParsed.replyBuffer, []⟩ =
      (.ok 17, nsWire) := by decide +kernel
  refine .there hns (.here h ?_)
  rw [store_of_write h, if_neg]
  rintro ⟨m, ⟨⟩, hlt⟩
  omega

/-- The address of the name server `n.a` belongs to the target `n.a`. -/
theorem glueAnswers_host : GlueAnswers
    (processQuestions (some maxReplyBuffer) (hostForest [110]) nsQuery 19 ⟨7, 0, 1, 0, 0, 0⟩ []).2
    (Puts (some maxReplyBuffer) (hostScript [110, 46, 97]).all ⟨nsParsed.replyBuffer, []⟩) ⟨36, 46, 16⟩ := by
  obtain ⟨s, R, hparse, hR, hglue⟩ := @glueAnswers_iff (hostForest [110]) nsQuery 19 ⟨7, 0, 1, 0, 0, 0⟩ [] _
    (wildForest_host (by decide)) (Prod.fst_eq_iff.mp (by decide +kernel))
  have hcomputed : parseQuestions nsQuery 19 ⟨7, 0, 1, 0, 0, 0⟩ ⟨[], [], 0, resize [] MessageHeader.size⟩ =
      (.ok (), nsParsed) := by decide +kernel
  obtain rfl : nsParsed = s := congrArg Prod.snd (hcomputed.symm.trans hparse)
  obtain rfl : hostScript [110, 46, 97] = R :=
    Except.ok.inj ((show recordsOf (hostForest [110]) nsParsed.questions = _ from rfl).symm.trans hR)
  obtain ⟨t, ip, target, htarget, hl, -, hiff⟩ := hglue _ ⟨36, 46, 16⟩
    (puts_host (Prod.fst_eq_iff.mp (by decide +kernel)) (by decide +kernel))
  obtain rfl : target = [110, 46, 97] := List.mem_singleton.mp htarget
  obtain rfl : _ = t := Option.some.inj hl
  exact hiff.mpr (.inl (by decide))

/-- The address of a wildcard zone is no complete record: its name begins with the empty label. -/
theorem not_glueAnswers : ¬ ∀ (zones : List Zone) (mem : Memory) (n : ℕ) (header : MessageHeader)
    (b reply : Bytes) (s : Parsed) (R : Script), WildForest zones →
    processQuestions (some maxReplyBuffer) zones mem n header b = (.ok (), reply) →
    parseQuestions mem n header ⟨[], [], 0, resize b MessageHeader.size⟩ = (.ok (), s) →
    recordsOf zones s.questions = .ok R → ∀ r a,
      Puts (some maxReplyBuffer) R.all ⟨s.replyBuffer, []⟩ (.additional, r) a →
      GlueAnswers reply (Puts (some maxReplyBuffer) R.all ⟨s.replyBuffer, []⟩) a := by
  intro h
  obtain ⟨ls, ip, hrec, -⟩ := h (hostForest []) nsQuery 19 ⟨7, 0, 1, 0, 0, 0⟩ [] _ nsParsed
    (hostScript [46, 97])
    (wildForest_host (by decide)) (Prod.fst_eq_iff.mp (by decide +kernel)) (by decide +kernel) rfl
    (.a (.name [46, 97]) 1) ⟨36, 47, 17⟩
    (puts_host (Prod.fst_eq_iff.mp (by decide +kernel)) (by decide +kernel))
  have hread : (readRecord (processQuestions (some maxReplyBuffer) (hostForest []) nsQuery 19
      ⟨7, 0, 1, 0, 0, 0⟩ []).2 36).isSome = true := by rw [readRecord_of_at hrec]; rfl
  exact absurd hread (by decide +kernel)

end VUbercool.Dns
