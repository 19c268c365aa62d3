import VUbercool.Dns.Wildcard

/-!
# The primary name server of a zone, written twice

In the data of an `SOA` record, where the encoder completes the name of the first `ns` entry, and in an
`NS` record, where `GetFdqn` does.

* `MnameAgrees`: both are the same name.
* `mname_read`: where both were written, the same labels are read up to the first zero octet.
* `mnameAgrees_iff`: both are the same name exactly where the entry does not end with a dot and no label
  of the zone but that of its root is empty.
-/

namespace VUbercool.Dns

open Octets Rfc1035

/-- **The primary name server is the same name in both records**: a decoder reads labels at the start of
the data of the `SOA` record, and the data of the `NS` record is the name of these labels. -/
def MnameAgrees (soaReply nsReply : Bytes) (soa ns : Written) : Prop :=
  ∃ ls next, nameAt? soaReply (soa.rdlengthHdr + 2) = some (ls, next) ∧
    nameAt? nsReply (ns.rdlengthHdr + 2) = some (ls, ns.origLen + ns.size)

/-! ## Both records -/

variable {z : ZonePtr} {n : Ns} {most : ℕ} {own : List Label} {rest : List Ns} {hole hole' : List ℕ}
  {w w₁ w' w₂ : Wire} {a a' : Written} {owner : Owner}

/-- **Where both records were written**, the same labels are read at the start of their data, and those
of the `NS` record end where the record does exactly if the entry and the zones above it have no empty
label. -/
theorem mname_read (hw : Open hole w) (hw' : Open hole' w') (hns : z.zone.ns = n :: rest) (hz : ZoneLabels z)
    (hn : Spells most n.fqdn own) (ho : owner.Writable (known hole w.buffer))
    (hsoa : (ResourceRecord.soa owner z).write w = (.ok a, w₁)) (hlen : w₁.buffer.length ≤ maxReplyBuffer)
    (hnsr : (ResourceRecord.ns z.getDomainName (z.getFdqn n)).write w' = (.ok a', w₂))
    (hlen' : w₂.buffer.length ≤ maxReplyBuffer) : ∃ ls next next',
      nameAt? w₁.buffer (a.rdlengthHdr + 2) = some (ls, next) ∧
      nameAt? w₂.buffer (a'.rdlengthHdr + 2) = some (ls, next') ∧
      (next' = a'.origLen + a'.size ↔ n.fqdn.getLast? ≠ some dot ∧ ∀ l ∈ z.labels.dropLast, l ≠ []) := by
  obtain ⟨hm, hf, huntil, hempty⟩ := fragments_of_entry hz hn
  have hmax : maxReplyBuffer < 0x4000 := by decide
  have hmname : ∀ x ∈ z.zone.ns.head?, Short (toFraments (nameInZone x.fqdn (some z))) := fun x hx => by
    rw [hns] at hx
    cases hx
    exact hm
  obtain ⟨e, hl⟩ := write_laid (r := .soa owner z) hw ho hmname hsoa (by omega)
  have hdomain : Short (toFraments z.getDomainName) := by
    rw [z.getDomainName_eq]
    exact short_toFraments_dotted fun l hl => (hz l hl).1
  obtain ⟨e', hl'⟩ := write_laid (r := .ns z.getDomainName (z.getFdqn n)) hw' hdomain hf hnsr (by omega)
  obtain ⟨x, rest', mid, hx, next, hread, -⟩ := hl.data.mono (known_le_view _ _)
  obtain ⟨rfl, rfl⟩ := List.cons.inj (hns.symm.trans hx)
  obtain ⟨next', hread', hstop⟩ := hl'.data.mono (known_le_view _ _)
  have hwritten := hl'.written
  have hbegins := hl'.begins.length_le
  refine ⟨untilEmpty (toFraments (z.getFdqn n)), next, next', ?_, ?_, ?_⟩
  · rw [hl.written, ← huntil]
    exact nameAt?_eq_some hread
  · rw [hwritten]
    exact nameAt?_eq_some hread'
  · rw [← hempty, ← hstop, hwritten]
    simp only
    omega

/-- **When the primary name server is the same name in both records.** -/
theorem mnameAgrees_iff (hw : Open hole w) (hw' : Open hole' w') (hns : z.zone.ns = n :: rest)
    (hz : ZoneLabels z) (hn : Spells most n.fqdn own) (ho : owner.Writable (known hole w.buffer))
    (hsoa : (ResourceRecord.soa owner z).write w = (.ok a, w₁)) (hlen : w₁.buffer.length ≤ maxReplyBuffer)
    (hnsr : (ResourceRecord.ns z.getDomainName (z.getFdqn n)).write w' = (.ok a', w₂))
    (hlen' : w₂.buffer.length ≤ maxReplyBuffer) : MnameAgrees w₁.buffer w₂.buffer a a' ↔
      n.fqdn.getLast? ≠ some dot ∧ ∀ l ∈ z.labels.dropLast, l ≠ [] := by
  obtain ⟨ls, next, next', hread, hread', hstop⟩ := mname_read hw hw' hns hz hn ho hsoa hlen hnsr hlen'
  rw [← hstop]
  constructor
  · rintro ⟨ls', next₁, -, h⟩
    rw [hread'] at h
    exact congrArg Prod.snd (Option.some.inj h)
  · rintro rfl
    exact ⟨ls, next, hread, hread'⟩

/-- A reply that repeats the question about `b`. -/
def replyB : Wire := ⟨List.replicate 12 0 ++ [⟨[[98]], 255, 1⟩].flatMap encodeQuestion, []⟩

theorem open_replyB : Open headerHole replyB :=
  ⟨fun _ h => (List.not_mem_nil h).elim, by decide, by decide⟩

theorem writable_replyB : (Owner.namePtr 12).Writable (known headerHole replyB.buffer) := by
  refine ⟨[[98]], ?_⟩
  have h := @storedAt_of_question [⟨[[98]], 255, 1⟩] (List.replicate 12 0) [] rfl (by decide) (by decide) 12
    [[98]] ⟨0, _, rfl, rfl, rfl⟩
  rwa [List.append_nil] at h

/-- The name server `n` of the zone `b` is the same name in both records. -/
theorem mnameAgrees_b : MnameAgrees ((ResourceRecord.soa (.namePtr 12) zoneB).write replyB).2.buffer
    ((ResourceRecord.ns zoneB.getDomainName (zoneB.getFdqn ⟨[110]⟩)).write replyB).2.buffer ⟨19, 29, 40⟩
    ⟨19, 30, 17⟩ :=
  (@mnameAgrees_iff zoneB ⟨[110]⟩ 255 [[110]] [] headerHole headerHole replyB _ replyB _ _ _ (.namePtr 12)
    open_replyB open_replyB rfl (by decide) (by decide) writable_replyB (Prod.ext (by decide +kernel) rfl)
    (by decide +kernel) (Prod.ext (by decide +kernel) rfl) (by decide +kernel)).mpr (by decide)

/-- The zone `b` with the name server `n.`. -/
def dottedB : ZonePtr := ⟨{ label := [98], ns := [⟨[110, 46]⟩], soa := some { rname := [104] } }, [], [0]⟩

/-- The data of the `NS` record that has an empty label ends behind it. -/
theorem not_mnameAgrees : ¬ ∀ (z : ZonePtr) (n : Ns) (rest : List Ns) (most : ℕ) (own : List Label)
    (owner : Owner) (hole hole' : List ℕ) (w w₁ w' w₂ : Wire) (a a' : Written), Open hole w → Open hole' w' →
    z.zone.ns = n :: rest → ZoneLabels z → Spells most n.fqdn own → owner.Writable (known hole w.buffer) →
    (ResourceRecord.soa owner z).write w = (.ok a, w₁) → w₁.buffer.length ≤ maxReplyBuffer →
    (ResourceRecord.ns z.getDomainName (z.getFdqn n)).write w' = (.ok a', w₂) →
    w₂.buffer.length ≤ maxReplyBuffer → MnameAgrees w₁.buffer w₂.buffer a a' := by
  intro h
  obtain ⟨ls, next, -, hns⟩ := h dottedB ⟨[110, 46]⟩ [] 255 [[110]] (.namePtr 12) headerHole headerHole
    replyB _ replyB _ ⟨19, 29, 39⟩ ⟨19, 30, 18⟩ open_replyB open_replyB rfl (by decide) (by decide) writable_replyB
    (Prod.ext (by decide +kernel) rfl) (by decide +kernel) (Prod.ext (by decide +kernel) rfl)
    (by decide +kernel)
  have hread : (nameAt? ((ResourceRecord.ns dottedB.getDomainName (dottedB.getFdqn ⟨[110, 46]⟩)).write
      replyB).2.buffer 32).map Prod.snd = some 37 := congrArg (Option.map Prod.snd) hns
  exact absurd hread (by decide +kernel)

end VUbercool.Dns
