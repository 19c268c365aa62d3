import VUbercool.Dns.Records

/-!
# The `SOA` search

* `ZonePtr.governing`: the nearest zone with a `SOA` record, from a zone up to the root.
* `soaLoop_never`: `GetSoaZone` steps from the zone it began with, so it never gets above the parent.
* `governed_iff`: it ends, with the governing zone, exactly where it need not climb twice.
-/

namespace VUbercool.Dns

open Proc

variable {limit : Option ℕ} {zones : List Zone} {z p : ZonePtr} {question : Question}

/-! ## The governing zone -/

/-- The zones of a list, each below those after it. -/
def lineageOf : List Zone → List ℕ → List ZonePtr
  | [], _ => []
  | z :: zs, address => ⟨z, zs, address⟩ :: lineageOf zs address.tail

namespace ZonePtr

/-- `z`, its parent, its grandparent and so on up to the root. -/
def lineage (z : ZonePtr) : List ZonePtr := lineageOf (z.zone :: z.ancestors) z.address

/-- **The zone that governs `z`**: the nearest of `z` and the zones above it with a `SOA` record. -/
def governing (z : ZonePtr) : Option ZonePtr := z.lineage.find? (·.zone.soa.isSome)

theorem lineage_root (h : z.parent = none) : z.lineage = [z] := by
  obtain ⟨zone, - | ⟨a, as⟩, address⟩ := z
  · rfl
  · cases h

theorem lineage_child (h : z.parent = some p) : z.lineage = z :: p.lineage := by
  obtain ⟨zone, - | ⟨a, as⟩, address⟩ := z
  · cases h
  · cases h
    rfl

theorem governing_self (h : z.zone.soa.isSome = true) : z.governing = some z := by
  cases hp : z.parent with
  | none => simp [governing, lineage_root hp, h]
  | some p => simp [governing, lineage_child hp, h]

theorem governing_root (h : ¬ z.zone.soa.isSome = true) (hp : z.parent = none) : z.governing = none := by
  simp [governing, lineage_root hp, h]

theorem governing_child (h : ¬ z.zone.soa.isSome = true) (hp : z.parent = some p) :
    z.governing = p.governing := by
  simp [governing, lineage_child hp, h]

end ZonePtr

/-! ## The search -/

theorem soaLoop_self (h : z.zone.soa.isSome = true) (k : ℕ) :
    soaLoop z (k + 1) (some z) = .ok (some z) := by
  rw [soaLoop, if_pos h]

theorem soaLoop_root (h : ¬ z.zone.soa.isSome = true) (hp : z.parent = none) (k : ℕ) :
    soaLoop z (k + 1) (some z) = .ok none := by
  rw [soaLoop, if_neg h, hp, soaLoop]

theorem soaLoop_parent (h : ¬ z.zone.soa.isSome = true) (hp : z.parent = some p)
    (hs : p.zone.soa.isSome = true) (k : ℕ) : soaLoop z (k + 2) (some z) = .ok (some p) := by
  rw [soaLoop, if_neg h, hp, soaLoop, if_pos hs]

/-- **The search never ends**: after the parent it goes to the parent again. -/
theorem soaLoop_never (h : ¬ z.zone.soa.isSome = true) (hp : z.parent = some p)
    (hs : ¬ p.zone.soa.isSome = true) : ∀ k, soaLoop z k (some z) = .error .diverged := by
  have hparent : ∀ k, soaLoop z k (some p) = .error .diverged := by
    intro k
    induction k with
    | zero => rfl
    | succ k ih => rw [soaLoop, if_neg hs, hp, ih]
  intro k
  cases k with
  | zero => rfl
  | succ k => rw [soaLoop, if_neg h, hp, hparent]

/-- A zone from which the search need not climb twice: it has a `SOA` record, or it is a root, or its
parent has a `SOA` record. -/
def Shallow (z : ZonePtr) : Prop :=
  z.zone.soa.isSome = true ∨ z.parent = none ∨ ∃ p, z.parent = some p ∧ p.zone.soa.isSome = true

theorem soaLoop_cases (z : ZonePtr) :
    (Shallow z ∧ ∀ k, soaLoop z (k + 2) (some z) = .ok z.governing) ∨
      (¬ Shallow z ∧ ∀ k, soaLoop z k (some z) = .error .diverged) := by
  by_cases h : z.zone.soa.isSome = true
  · refine .inl ⟨.inl h, fun k => ?_⟩
    rw [soaLoop_self h, ZonePtr.governing_self h]
  cases hp : z.parent with
  | none =>
    refine .inl ⟨.inr (.inl hp), fun k => ?_⟩
    rw [soaLoop_root h hp, ZonePtr.governing_root h hp]
  | some p =>
    by_cases hs : p.zone.soa.isSome = true
    · refine .inl ⟨.inr (.inr ⟨p, hp, hs⟩), fun k => ?_⟩
      rw [soaLoop_parent h hp hs, ZonePtr.governing_child h hp, ZonePtr.governing_self hs]
    · refine .inr ⟨?_, soaLoop_never h hp hs⟩
      rintro (h' | h' | ⟨p', hp', hs'⟩)
      · exact h h'
      · cases hp.symm.trans h'
      · cases hp.symm.trans hp'
        exact hs hs'

theorem getSoaZone_of_shallow (h : Shallow z) : getSoaZone z = .ok z.governing := by
  rcases soaLoop_cases z with ⟨-, hloop⟩ | ⟨hno, -⟩
  · exact hloop 1
  · exact absurd h hno

theorem getSoaZone_of_not_shallow (h : ¬ Shallow z) : getSoaZone z = .error .diverged := by
  rcases soaLoop_cases z with ⟨hyes, -⟩ | ⟨-, hloop⟩
  · exact absurd hyes h
  · exact hloop 3

/-! ## Questions -/

/-- **`ProcessQuestion` ends**: it runs for ever only where storing the records of its answer does. -/
def QuestionEnds (zones : List Zone) (question : Question) : Prop :=
  ∀ limit o t, (processQuestion limit zones question (o, t)).1 = .error .diverged →
    ∃ c o', contribution zones question = .ok c ∧
      (c.records.map (Section.answer, ·)).forM (storeIn limit) o = (.error .diverged, o')

theorem questionEnds_iff {au : Bool} (hl : lookup zones question.getLabels = (some z, au)) :
    QuestionEnds zones question ↔ Shallow z := by
  constructor
  · intro hends
    by_contra hz
    have hs := getSoaZone_of_not_shallow hz
    have hq : processQuestion none zones question ({ wire := ⟨[], []⟩ }, {}) =
        (.error .diverged, ({ wire := ⟨[], []⟩ }, {})) := by
      rw [processQuestion, hl]
      simp only [hs]
      rfl
    obtain ⟨c, o', hc, -⟩ := hends _ _ _ (congrArg Prod.fst hq)
    rw [contribution, hl] at hc
    simp only [hs] at hc
    cases hc
  · intro hz limit o t hdiv
    rcases @question_performs limit zones question t with ⟨c, hc, hperf⟩ | ⟨e, he, hraise⟩
    · refine ⟨c, (((c.records.map (Section.answer, ·)).forM (storeIn limit)) o).2, hc, ?_⟩
      rcases hrun : ((c.records.map (Section.answer, ·)).forM (storeIn limit)) o with ⟨e | u, o'⟩
      · obtain ⟨t', ht'⟩ := (hperf o o').2 e hrun
        rw [ht'] at hdiv
        cases hdiv
        rfl
      · rw [(hperf o o').1 hrun] at hdiv
        cases hdiv
    · obtain ⟨s', hs'⟩ := hraise o
      rw [hs'] at hdiv
      cases hdiv
      rw [contribution_found hl (getSoaZone_of_shallow hz)] at he
      cases hc : qtypeContribution zones question z z.governing with
      | error e =>
        obtain ⟨-, -, rfl⟩ := qtypeContribution_eq_error.mp hc
        rw [hc] at he
        cases he
      | ok c =>
        rw [hc] at he
        cases he

/-- **The search ends with the governing zone**, and so `ProcessQuestion` ends for every question whose
name is found to be `z`. -/
structure Governed (zones : List Zone) (z : ZonePtr) : Prop where
  search : ∃ rounds, soaLoop z rounds (some z) = .ok z.governing
  questions : ∀ question au, lookup zones question.getLabels = (some z, au) →
    QuestionEnds zones question

theorem shallow_of_soaLoop {rounds : ℕ} {r : Option ZonePtr} (h : soaLoop z rounds (some z) = .ok r) :
    Shallow z := by
  rcases soaLoop_cases z with ⟨hz, -⟩ | ⟨-, hnever⟩
  · exact hz
  · rw [hnever rounds] at h
    cases h

/-- **When the search ends with the governing zone.** -/
theorem governed_iff (zones : List Zone) (z : ZonePtr) : Governed zones z ↔ Shallow z := by
  constructor
  · rintro ⟨⟨rounds, h⟩, -⟩
    exact shallow_of_soaLoop h
  · intro hz
    rcases soaLoop_cases z with ⟨-, hloop⟩ | ⟨hno, -⟩
    · exact ⟨⟨2, hloop 0⟩, fun question au hl => (questionEnds_iff hl).mpr hz⟩
    · exact absurd hz hno

/-- `@a { soa { } @b { @c { } } }`. -/
def deepForest : List Zone :=
  [{ label := [97], soa := some {}, authorative := false, children :=
      [{ label := [98], authorative := false, children := [{ label := [99], authorative := false }] }] }]

/-- The search does not end two zones below a `SOA` record. -/
theorem not_governed : ¬ ∀ (zones : List Zone) (z : ZonePtr), Reached zones z → Governed zones z := by
  intro h
  obtain ⟨z, hz, hparent⟩ : ∃ z, (lookup deepForest [[99], [98], [97]]).1 = some z ∧
      z.zone.soa.isSome = false ∧ z.parent.map (·.zone.soa.isSome) = some false := ⟨_, rfl, rfl, rfl⟩
  have hreached : Reached deepForest z := lookup_reached (Prod.ext hz rfl)
  obtain ⟨rounds, hsearch⟩ := (h _ _ hreached).search
  rcases shallow_of_soaLoop hsearch with hs | hroot | ⟨p, hp, hs⟩
  · exact absurd hs (by simp [hparent.1])
  · simp [hroot] at hparent
  · simp [hp, hs] at hparent

end VUbercool.Dns
