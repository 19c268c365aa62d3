import VUbercool.Dns.Encoder
import VUbercool.Dns.Records

/-!
# Forests with legal names

* `LegalForest`: labels and names are legal, `ns` and `mx` entries are relative.
* `lookup_labels`: `Lookup` finds the zone whose labels the key spells, up to case.
* `getSoaZone_spec`: the `SOA` search ends at the zone or at its parent.
* `spells_getFdqn`, `spells_fullCname`: the names that are put together from entries are legal.
-/

namespace VUbercool.Dns

open Octets Rfc1035

variable {zones : List Zone}

/-- A legal name of at most 255 octets. -/
def LegalName (n : Bytes) : Prop := ∃ ls, Spells 255 n ls

theorem legalName_iff {n : Bytes} : LegalName n ↔ Spells 255 n (toFraments n) :=
  ⟨fun ⟨ls, h⟩ => by rwa [toFraments_of_spells h], fun h => ⟨_, h⟩⟩

instance (n : Bytes) : Decidable (LegalName n) := decidable_of_iff _ legalName_iff.symm

/-- A legal name without a dot at its end. -/
def Relative (n : Bytes) : Prop := LegalName n ∧ n.getLast? ≠ some dot

instance (n : Bytes) : Decidable (Relative n) := inferInstanceAs (Decidable (_ ∧ _))

/-- A zone with legal names. Its own name is that of its labels. -/
structure LegalZone (z : ZonePtr) : Prop where
  name : Spells 255 z.getDomainName z.labels
  ns : ∀ ns ∈ z.zone.ns, Relative ns.fqdn
  mx : ∀ mx ∈ z.zone.mx, Relative mx.fqdn
  cname : z.zone.cname ≠ [] → LegalName z.zone.cname
  rname : ∀ soa ∈ z.zone.soa, LegalName soa.rname

/-- **A forest with legal names.** -/
def LegalForest (zones : List Zone) : Prop := ∀ z, Reached zones z → LegalZone z

theorem LegalZone.label_ne_nil {z : ZonePtr} (h : LegalZone z) : z.zone.label ≠ [] := by
  have := (h.name.fit z.zone.label List.mem_cons_self).1
  exact List.ne_nil_of_length_pos this

/-! ## `Lookup` -/

/-- Labels with their case folded. -/
def folded (ls : List Label) : List Label := ls.map (List.map toLower)

theorem selectZone_iequals {label : Bytes} {j : ℕ} {z : Zone} : ∀ {zones : List Zone} {i : ℕ},
    (∀ x ∈ zones, x.label ≠ []) → selectZone label zones i none = some (j, z) →
    iequals label z.label = true
  | [], _, _, h => by cases h
  | zone :: zones, i, hne, h => by
    have hempty : zone.label.isEmpty = false := by simpa using hne zone List.mem_cons_self
    rw [selectZone, hempty] at h
    split at h
    · next heq => cases h; exact heq
    · exact selectZone_iequals (fun x hx => hne x (List.mem_cons_of_mem _ hx)) (by simpa using h)

theorem lookupIn_labels {all : List Zone} (hall : ∀ z, Reached all z → z.zone.label ≠ [])
    {z : ZonePtr} : ∀ {key : List Bytes} {ancestors : List Zone} {address : List ℕ}
    {zones : List Zone} {au au' : Bool},
    (∀ i x, zones[i]? = some x → Reached all ⟨x, ancestors, i :: address⟩) →
    lookupIn ancestors address key zones au = (some z, au') →
    folded z.labels = folded key.reverse ++ folded (ancestors.map Zone.label)
  | [], _, _, _, _, _, _, h => by cases h
  | label :: more, ancestors, address, zones, au, au', hz, h => by
    unfold lookupIn at h
    split at h
    · cases h
    · next i rval hs =>
      have hr := hz i rval (selectZone_mem (i := 0) (by simp) (by simp) hs)
      have hlabel : List.map toLower label = List.map toLower rval.label := by
        have hne : ∀ x ∈ zones, x.label ≠ [] := fun x hx => by
          obtain ⟨j, hj⟩ := List.mem_iff_getElem?.mp hx
          exact hall _ (hz j x hj)
        simpa [iequals] using selectZone_iequals hne hs
      split_ifs at h with hmore
      · cases h
        cases List.isEmpty_iff.mp hmore
        simp [folded, ZonePtr.labels, hlabel]
      · rw [lookupIn_labels hall (fun i x hx => .child hr hx) h]
        simp [folded, hlabel]

/-- **`Lookup` finds the zone whose labels the key spells**, up to case. -/
theorem lookup_labels (hz : LegalForest zones) {key : List Bytes} {z : ZonePtr} {au : Bool}
    (h : lookup zones key = (some z, au)) : folded z.labels = folded key := by
  have := lookupIn_labels (fun z hr => (hz z hr).label_ne_nil) (fun _ _ hx => .root hx) h
  simpa [folded] using this

/-! ## `GetSoaZone` -/

/-- **The `SOA` search** ends at the zone or at its parent. -/
theorem getSoaZone_spec {z s : ZonePtr} (h : getSoaZone z = .ok (some s)) :
    (∃ soa, s.zone.soa = some soa) ∧ (s = z ∨ z.parent = some s) := by
  have hsome : ∀ {x : ZonePtr}, x.zone.soa.isSome = true → ∃ soa, x.zone.soa = some soa :=
    Option.isSome_iff_exists.mp
  rw [getSoaZone, soaLoop] at h
  split_ifs at h with hz
  · cases h
    exact ⟨hsome hz, .inl rfl⟩
  · cases hp : z.parent with
    | none => rw [hp, soaLoop] at h; cases h
    | some p =>
      rw [hp, soaLoop] at h
      split_ifs at h with hps
      · cases h
        exact ⟨hsome hps, .inr rfl⟩
      · rw [hp, soaLoop, if_neg hps, hp] at h
        cases h

/-! ## Names -/

/-- The labels the name of an entry of a zone stands for. -/
def entryLabels (z : ZonePtr) (n : Bytes) : List Label := toFraments n ++ z.labels

/-- The labels of the target of a `CNAME`. -/
def cnameTarget (z : ZonePtr) : List Label :=
  if z.zone.cname.getLast? = some dot then toFraments z.zone.cname
  else toFraments z.zone.cname ++ z.ancestors.map Zone.label

theorem spells_getFdqn {z : ZonePtr} {ns : Ns} (h : LegalZone z) (hn : Relative ns.fqdn) :
    Spells 511 (z.getFdqn ns) (entryLabels z ns.fqdn) := by
  have := (legalName_iff.mp hn.1).append h.name hn.2
  rwa [show z.getFdqn ns = ns.fqdn ++ dot :: z.getDomainName by simp [ZonePtr.getFdqn, dot]]

theorem spells_fullCname {z : ZonePtr} (hz : LegalForest zones) (hr : Reached zones z)
    (hc : z.zone.cname ≠ []) : Spells 511 (fullCname z) (cnameTarget z) := by
  have hname := legalName_iff.mp ((hz z hr).cname hc)
  by_cases hd : z.zone.cname.getLast? = some dot
  · have hd' : (z.zone.cname.getLast? != some 46) = false := by rw [hd]; rfl
    rw [fullCname, hd', cnameTarget, if_pos hd]
    exact hname.mono (by omega)
  · have hd' : (z.zone.cname.getLast? != some 46) = true := by rw [bne_iff_ne]; exact hd
    rw [fullCname, if_pos hd', cnameTarget, if_neg hd]
    cases hp : z.parent with
    | none =>
      have hroot : z.ancestors = [] := by
        cases ha : z.ancestors with
        | nil => rfl
        | cons p ps => rw [ZonePtr.parent, ha] at hp; cases hp
      rw [hroot, List.map_nil, List.append_nil]
      exact hname.mono (by omega)
    | some p =>
      have hlabels : p.labels = z.ancestors.map Zone.label := by
        cases ha : z.ancestors with
        | nil => rw [ZonePtr.parent, ha] at hp; cases hp
        | cons a as => rw [ZonePtr.parent, ha] at hp; cases hp; rfl
      have := hname.append (hz p (hr.parent hp)).name hd
      rw [hlabels] at this
      simpa [dot] using this

theorem inZone_of_legalName (z : ZonePtr) {n : Bytes} (hn : LegalName n) : InZone z.labels n
    (if n.getLast? = some dot then toFraments n else entryLabels z n) :=
  ⟨toFraments n, legalName_iff.mp hn, rfl⟩

end VUbercool.Dns
