import VUbercool.Dns.Layout
import VUbercool.Dns.Lookup
import VUbercool.Dns.Resolution

/-!
# Forests with wildcard zones

A wildcard zone has the empty label, at any level of the forest. `ns` and `mx` entries may end with a
dot.

* `ZoneLabels`, `fragments_of_entry`: what the two paths to the full name of an entry read off it.
* `WildForest`: names are legal, labels are legal or empty.
* `storable_records`: every record of a reply can be stored.
* `mem_additional`: the zones whose addresses are added were found for the target of a record.
* `ZonePath.labels`: their labels are those of the target, or empty.
-/

namespace VUbercool.Dns

open Octets Rfc1035 Proc

/-! ## Names of entries -/

/-- The labels of a zone are legal, or empty. -/
def ZoneLabels (z : ZonePtr) : Prop := ∀ l ∈ z.labels, l.length < 64 ∧ dot ∉ l

instance (z : ZonePtr) : Decidable (ZoneLabels z) :=
  inferInstanceAs (Decidable (∀ l ∈ z.labels, l.length < 64 ∧ dot ∉ l))

variable {z : ZonePtr} {n : Ns} {most : ℕ} {own : List Label}

theorem getFdqn_relative (hn : Spells most n.fqdn own) (hd : n.fqdn.getLast? ≠ some dot) :
    z.getFdqn n = dotted (own ++ z.labels) := by
  rw [dotted_append hn.ne_nil (show z.labels ≠ [] from List.cons_ne_nil _ _), ← hn.eq_dotted hd,
    ← z.getDomainName_eq, ZonePtr.getFdqn, List.append_assoc]
  rfl

theorem getFdqn_absolute (hn : Spells most n.fqdn own) (hd : n.fqdn.getLast? = some dot) :
    z.getFdqn n = dotted (own ++ [] :: z.labels) := by
  rw [dotted_append hn.ne_nil (List.cons_ne_nil _ _),
    dotted_cons (show z.labels ≠ [] from List.cons_ne_nil _ _),
    ← z.getDomainName_eq, ZonePtr.getFdqn, hn.eq_dotted_dot hd]
  simp [dot]

theorem labels_of_entry (hz : ZoneLabels z) (hn : Spells most n.fqdn own) :
    ∀ l ∈ own ++ z.labels, l.length < 64 ∧ dot ∉ l := fun l hl => by
  rcases List.mem_append.mp hl with hl | hl
  · exact ⟨(hn.fit l hl).2, hn.noDot l hl⟩
  · exact hz l hl

/-- **What both paths read off an entry**: the fragments are those of the same text, or those of the
entry, and the `NS` record has an empty one behind them. -/
theorem fragments_of_entry (hz : ZoneLabels z) (hn : Spells most n.fqdn own) :
    Short (toFraments (nameInZone n.fqdn (some z))) ∧ Short (toFraments (z.getFdqn n)) ∧
      untilEmpty (toFraments (nameInZone n.fqdn (some z))) = untilEmpty (toFraments (z.getFdqn n)) ∧
      ([] ∉ toFraments (z.getFdqn n) ↔ n.fqdn.getLast? ≠ some dot ∧ ∀ l ∈ z.labels.dropLast, l ≠ []) := by
  have hall := labels_of_entry hz hn
  have hlabels : z.labels ≠ [] := List.cons_ne_nil _ _
  by_cases hd : n.fqdn.getLast? = some dot
  · have hempty : ∀ l ∈ own ++ [] :: z.labels, l.length < 64 ∧ dot ∉ l := fun l hl => by
      simp only [List.mem_append, List.mem_cons] at hl
      rcases hl with hl | rfl | hl
      · exact hall l (List.mem_append_left _ hl)
      · exact ⟨by decide, List.not_mem_nil⟩
      · exact hall l (List.mem_append_right _ hl)
    have hmem : [] ∈ (own ++ [] :: z.labels).dropLast := by
      rw [List.dropLast_append_of_ne_nil (List.cons_ne_nil _ _), List.dropLast_cons_of_ne_nil hlabels]
      exact List.mem_append_right _ List.mem_cons_self
    have hfr : ∃ post, toFraments (dotted (own ++ [] :: z.labels)) = own ++ [] :: post := by
      rw [toFraments_dotted fun l hl => (hempty l hl).2]
      split_ifs
      · rw [List.dropLast_append_of_ne_nil (List.cons_ne_nil _ _), List.dropLast_cons_of_ne_nil hlabels]
        exact ⟨_, rfl⟩
      · exact ⟨_, rfl⟩
    obtain ⟨post, hpost⟩ := hfr
    rw [nameInZone_absolute hd, toFraments_of_spells hn, getFdqn_absolute hn hd]
    have hshort := short_toFraments_dotted fun l hl => (hempty l hl).1
    refine ⟨hn.fit.short, hshort, ?_, iff_of_false ?_ fun h => h.1 hd⟩
    · rw [hpost, untilEmpty_append_nil hn.fit.nil_notMem, untilEmpty_eq hn.fit.nil_notMem]
    · rw [nil_notMem_toFraments_dotted fun l hl => (hempty l hl).2]
      exact fun h => h [] hmem rfl
  · have htext : nameInZone n.fqdn (some z) = z.getFdqn n := by
      rw [nameInZone_relative hn.text_ne_nil hd, ZonePtr.getFdqn, List.append_assoc]
      rfl
    rw [htext, getFdqn_relative hn hd]
    have hshort := short_toFraments_dotted fun l hl => (hall l hl).1
    refine ⟨hshort, hshort, rfl, ?_⟩
    rw [nil_notMem_toFraments_dotted fun l hl => (hall l hl).2, List.dropLast_append_of_ne_nil hlabels]
    constructor
    · exact fun h => ⟨hd, fun l hl => h l (List.mem_append_right _ hl)⟩
    · rintro ⟨-, h⟩ l hl
      rcases List.mem_append.mp hl with hl | hl
      · exact List.ne_nil_of_length_pos (hn.fit l hl).1
      · exact h l hl

/-! ## Forests -/

/-- A zone whose names are legal; its labels may be empty. -/
structure WildZone (z : ZonePtr) : Prop where
  labels : ZoneLabels z
  ns : ∀ ns ∈ z.zone.ns, LegalName ns.fqdn
  mx : ∀ mx ∈ z.zone.mx, LegalName mx.fqdn
  cname : z.zone.cname ≠ [] → LegalName z.zone.cname
  rname : ∀ soa ∈ z.zone.soa, LegalName soa.rname

/-- **A forest with legal names**, where zones may have the empty label. -/
def WildForest (zones : List Zone) : Prop := ∀ z, Reached zones z → WildZone z

variable {zones : List Zone} {m : View}

theorem short_getFdqn (hz : WildZone z) {n : Ns} (hn : LegalName n.fqdn) :
    Short (toFraments (z.getFdqn n)) := by
  obtain ⟨own, hown⟩ := hn
  exact (fragments_of_entry hz.labels hown).2.1

theorem short_getDomainName (hz : WildZone z) : Short (toFraments z.getDomainName) := by
  rw [z.getDomainName_eq]
  exact short_toFraments_dotted fun l hl => (hz.labels l hl).1

theorem short_fullCname (hz : WildForest zones) (hr : Reached zones z) (hc : z.zone.cname ≠ []) :
    Short (toFraments (fullCname z)) := by
  obtain ⟨own, hown⟩ := (hz z hr).cname hc
  have hself : Short (toFraments z.zone.cname) := by
    rw [toFraments_of_spells hown]
    exact hown.fit.short
  unfold fullCname
  split_ifs
  · cases hp : z.parent with
    | none => exact hself
    | some p => exact short_getFdqn (n := ⟨z.zone.cname⟩) (hz p (hr.parent hp)) ⟨own, hown⟩
  · exact hself

theorem storable_contribution (hz : WildForest zones) {question : Question} {c : Contribution}
    (h : contribution zones question = .ok c) (hq : ∃ ls, StoredAt m question.offset ls) :
    ∀ r ∈ c.records, Storable m r := by
  obtain ⟨zone, au, soaZone, c₀, hl, hs, hc, rfl⟩ := contribution_cases h
  have hr := lookup_reached hl
  have hzone := hz zone hr
  have ha : ∀ ip, Storable m (.a (.namePtr question.offset) ip) := fun _ => ⟨hq, trivial, trivial⟩
  have hcname : zone.zone.cname.isEmpty = false →
      Storable m (.cname question.offset (fullCname zone)) := fun hne =>
    ⟨hq, short_fullCname hz hr (List.isEmpty_eq_false_iff.mp hne), trivial⟩
  intro r hmem
  change r ∈ c₀.records at hmem
  unfold qtypeContribution at hc
  split_ifs at hc with h1 hne ht h5 hne h6 h2 h15
  · cases hc
    rcases List.mem_cons.mp hmem with rfl | hmem
    · exact hcname (by simpa using hne)
    · obtain ⟨ip, -, rfl⟩ := List.mem_map.mp hmem
      exact ⟨short_fullCname hz hr (by simpa using hne), trivial, trivial⟩
  · cases hc
    obtain rfl := List.mem_singleton.mp hmem
    exact hcname (by simpa using hne)
  · cases hc
    obtain ⟨ip, -, rfl⟩ := List.mem_map.mp hmem
    exact ha ip
  · cases hc
    obtain rfl := List.mem_singleton.mp hmem
    exact hcname (by simpa using hne)
  · cases hc
    cases hmem
  · cases soaZone with
    | none => cases hc
    | some s =>
      cases hc
      obtain rfl := List.mem_singleton.mp hmem
      have hsoa := hz s (soa_reached hr hs)
      refine ⟨hq, fun n hn => ?_, fun soa hsoa' => ?_⟩
      · obtain ⟨own, hown⟩ := hsoa.ns n (List.mem_of_mem_head? hn)
        exact (fragments_of_entry hsoa.labels hown).1
      · obtain ⟨own, hown⟩ := hsoa.rname soa hsoa'
        exact (fragments_of_entry (n := ⟨soa.rname⟩) hsoa.labels hown).1
  · cases hc
    cases hmem
  · cases hc
    obtain ⟨mx, hmx, rfl⟩ := List.mem_map.mp hmem
    exact ⟨hq, short_getFdqn hzone (hzone.mx mx hmx), trivial⟩
  · cases hc
    cases hmem

theorem storable_authority (hz : WildForest zones) (hr : Reached zones z) :
    ∀ r ∈ authorityRecords z, Storable m r := by
  intro r hmem
  obtain ⟨n, hn, rfl⟩ := List.mem_map.mp hmem
  have hzone := hz z hr
  exact ⟨short_getDomainName hzone, short_getFdqn hzone (hzone.ns n hn), trivial⟩

theorem storable_additional (hz : WildForest zones) (hr : Reached zones z) :
    ∀ r ∈ additionalRecords z, Storable m r := by
  intro r hmem
  obtain ⟨ip, -, rfl⟩ := List.mem_map.mp hmem
  exact ⟨short_getDomainName (hz z hr), trivial, trivial⟩

/-! ## Targets -/

/-- The name in the data of an `MX` or `NS` record. -/
def ResourceRecord.target : ResourceRecord → Option Bytes
  | .mx _ n _ => some n
  | .ns _ n => some n
  | _ => none

/-- The targets of the `MX` and `NS` records of a reply. -/
def Script.targets (x : Script) : List Bytes := (x.answers ++ x.authority).filterMap ResourceRecord.target

/-- **The lists of zones that questions refer to**: zones of the forest, and zones found for one of
`names`. -/
structure Refers (zones : List Zone) (names : List Bytes) (t : Referrals) : Prop where
  reached : ∀ z ∈ t.authorativeZones, Reached zones z
  found : ∀ z ∈ t.nsZones, ∃ n ∈ names, (lookup zones (toFraments n)).1 = some z

variable {names : List Bytes} {t : Referrals}

theorem mem_addZone {l : List ZonePtr} {x : Option ZonePtr} (h : z ∈ addZone l x) : z ∈ l ∨ x = some z := by
  cases x with
  | none => exact .inl h
  | some y =>
    rw [addZone] at h
    split_ifs at h
    · exact .inl h
    · rcases List.mem_append.mp h with h | h
      · exact .inl h
      · exact .inr (congrArg some (List.mem_singleton.mp h).symm)

theorem Refers.addAuthorativeZone (h : Refers zones names t) {x : Option ZonePtr}
    (hx : ∀ z ∈ x, Reached zones z) : Refers zones names (t.addAuthorativeZone x) :=
  ⟨fun z hz => (mem_addZone hz).elim (h.reached z) (hx z), h.found⟩

theorem Refers.addNsZone (h : Refers zones names t) {n : Bytes} (hn : n ∈ names) :
    Refers zones names (t.addNsZone (lookup zones (toFraments n)).1) :=
  ⟨h.reached, fun z hz => (mem_addZone hz).elim (h.found z) fun hz => ⟨n, hn, hz⟩⟩

theorem Refers.contribution {question : Question} {c : Contribution} (h : Refers zones names t)
    (hc : Dns.contribution zones question = .ok c)
    (hn : ∀ r ∈ c.records, ∀ n ∈ r.target, n ∈ names) : Refers zones names (c.refer t) := by
  obtain ⟨zone, au, soaZone, c₀, hl, hs, hc₀, rfl⟩ := contribution_cases hc
  have hsoa : ∀ s ∈ soaZone, Reached zones s := fun s hmem => by
    obtain rfl := Option.mem_def.mp hmem
    exact soa_reached (lookup_reached hl) hs
  have hrefer : ∀ t, Refers zones names t → Refers zones names (c₀.refer t) := by
    intro t ht
    unfold qtypeContribution at hc₀
    split_ifs at hc₀ with h1 hne ht5 h5 hne' h6 h2 h15
    · cases hc₀; exact ht
    · cases hc₀; exact ht
    · cases hc₀; exact ht
    · cases hc₀; exact ht
    · cases hc₀; exact ht
    · cases soaZone with
      | none => cases hc₀
      | some s =>
        cases hc₀
        exact ht.addAuthorativeZone hsoa
    · cases hc₀
      exact ht.addAuthorativeZone hsoa
    · cases hc₀
      refine List.foldlRecOn zone.zone.mx _ ht fun t' ht' mx hmx => ht'.addNsZone ?_
      exact hn _ (List.mem_map_of_mem hmx) _ rfl
    · cases hc₀; exact ht
  obtain ⟨t₀, ht₀, ht⟩ : ∃ t₀, t₀ = (if !soaZone.any (·.zone.authorative) then
      { t with authorative := false } else t) ∧ Refers zones names t₀ := by
    refine ⟨_, rfl, ?_⟩
    split_ifs
    · exact ⟨h.reached, h.found⟩
    · exact h
  simp only [Contribution.found, ← ht₀]
  split_ifs
  · exact (hrefer t₀ ht).addAuthorativeZone hsoa
  · exact hrefer t₀ ht

/-! ## The records of a reply -/

variable {questions : List Question} {R : Script}

/-- **What the questions of a reply refer to**, first in the answers and then in the `NS` records. -/
theorem refers_script (h : recordsOf zones questions = .ok R) :
    ∃ cs, questions.mapM (contribution zones) = .ok cs ∧
    R = script zones cs ∧ Refers zones R.targets (referAll cs) ∧
    Refers zones R.targets ((referAll cs).authorativeZones.foldl (referNs zones) (referAll cs)) := by
  unfold recordsOf at h
  cases hcs : questions.mapM (contribution zones) with
  | error e =>
    rw [hcs] at h
    cases h
  | ok cs =>
    rw [hcs] at h
    cases h
    refine ⟨cs, rfl, rfl, ?_⟩
    have hall : Refers zones (script zones cs).targets (referAll cs) := by
      refine List.foldlRecOn cs _ ⟨fun _ h => (List.not_mem_nil h).elim, fun _ h => (List.not_mem_nil h).elim⟩
        fun t ht c hc => ?_
      obtain ⟨question, -, hq⟩ := exists_of_mapM_ok hcs hc
      refine ht.contribution hq fun r hr n hn => List.mem_filterMap.mpr ⟨r, List.mem_append_left _ ?_, hn⟩
      exact List.mem_flatMap.mpr ⟨c, hc, hr⟩
    refine ⟨hall, List.foldlRecOn _ _ hall fun t ht z hz => ?_⟩
    refine List.foldlRecOn z.zone.ns _ ht fun t' ht' n hn => ht'.addNsZone ?_
    refine List.mem_filterMap.mpr ⟨.ns z.getDomainName (z.getFdqn n), List.mem_append_right _ ?_, rfl⟩
    exact List.mem_flatMap.mpr ⟨z, hz, List.mem_map_of_mem hn⟩

/-- **The records of a reply can be stored**, where the names the questions ask about are. -/
theorem storable_records (hz : WildForest zones) (h : recordsOf zones questions = .ok R)
    (hq : ∀ question ∈ questions, ∃ ls, StoredAt m question.offset ls) : ∀ x ∈ R.all, Storable m x.2 := by
  obtain ⟨cs, hcs, rfl, hanswers, hns⟩ := refers_script h
  intro x hx
  simp only [Script.all, List.mem_append, List.mem_map] at hx
  rcases hx with (⟨r, hr, rfl⟩ | ⟨r, hr, rfl⟩) | ⟨r, hr, rfl⟩
  · obtain ⟨c, hc, hr⟩ := List.mem_flatMap.mp hr
    obtain ⟨question, hmem, hcq⟩ := exists_of_mapM_ok hcs hc
    exact storable_contribution hz hcq (hq question hmem) r hr
  · obtain ⟨z, hmem, hr⟩ := List.mem_flatMap.mp hr
    exact storable_authority hz (hanswers.reached z hmem) r hr
  · obtain ⟨z, hmem, hr⟩ := List.mem_flatMap.mp hr
    obtain ⟨n, -, hl⟩ := hns.found z hmem
    exact storable_additional hz (lookup_reached (Prod.ext hl rfl)) r hr

/-- **The addresses that are added** are those of zones that were found for a target. -/
theorem mem_additional (h : recordsOf zones questions = .ok R) {r : ResourceRecord} (hr : r ∈ R.additional) :
    ∃ t ip n, r = .a (.name t.getDomainName) ip ∧ n ∈ R.targets ∧ ZonePath zones (toFraments n) t := by
  obtain ⟨cs, -, rfl, -, hns⟩ := refers_script h
  obtain ⟨t, ht, hr⟩ := List.mem_flatMap.mp hr
  obtain ⟨ip, -, rfl⟩ := List.mem_map.mp hr
  obtain ⟨n, hn, hl⟩ := hns.found t ht
  exact ⟨t, ip, n, rfl, hn, lookupIn_eq_some.mp hl⟩

/-! ## What is found -/

/-- **The labels of a zone that was found** are those of the key, or empty. -/
theorem ZonePath.labels {key : List Bytes} (h : ZonePath zones key z) :
    List.Forall₂ (fun l k => l = [] ∨ iequals k l = true) z.labels key := by
  have hchosen : ∀ {label : Bytes} {siblings : List Zone} {i : ℕ} {x : Zone}, Chosen label siblings i x →
      x.label = [] ∨ iequals label x.label = true := fun hc => by
    cases hc with
    | full _ he _ => exact .inr he
    | wildchard _ _ hl _ => exact .inl hl
  induction h with
  | root hc => exact .cons (hchosen hc) .nil
  | child _ hc ih => exact .cons (hchosen hc) ih

/-- **Where no zone on the path is a wildcard zone**, they are those of the key up to case, and it has
no empty one either. -/
theorem folded_of_labels {labels key : List Bytes}
    (h : List.Forall₂ (fun l k => l = [] ∨ iequals k l = true) labels key) (hne : ∀ l ∈ labels, l ≠ []) :
    folded labels = folded key ∧ [] ∉ key := by
  induction h with
  | nil => exact ⟨rfl, List.not_mem_nil⟩
  | @cons l k ls ks hlk _ ih =>
    obtain ⟨hfold, hnot⟩ := ih fun x hx => hne x (List.mem_cons_of_mem _ hx)
    have hl := hne l List.mem_cons_self
    have heq : k.map toLower = l.map toLower := by simpa [iequals] using hlk.resolve_left hl
    refine ⟨?_, ?_⟩
    · rw [folded, folded, List.map_cons, List.map_cons, heq]
      exact congrArg _ hfold
    · rw [List.mem_cons, not_or]
      refine ⟨fun hk => hl ?_, hnot⟩
      rw [← hk] at heq
      exact List.map_eq_nil_iff.mp heq.symm

end VUbercool.Dns
