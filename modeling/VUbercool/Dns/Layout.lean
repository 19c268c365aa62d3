import VUbercool.Dns.Truncation

/-!
# Records as they are laid out

What a decoder finds where a record was written, also where its names have empty labels: a wildcard zone
has the empty label, and `ns::GetFdqn` puts a dot behind a name that ends with one.

* `WritesData`: what the data of a record is read as.
* `write_laid`: where a record was written, its owner, its fields and its data are read.
* `LaidAt.recordAt_a_iff`: whether an address record is stored.
* `Puts`, `Puts.laidAt`: the records of a run of stores are laid out in what it leaves.
-/

namespace VUbercool.Dns

open Octets Rfc1035 Proc

/-! ## What records are made of -/

namespace ResourceRecord

/-- The owner of a record. -/
def owner : ResourceRecord → Owner
  | a owner _ => owner
  | cname namePtr _ => .namePtr namePtr
  | mx namePtr _ _ => .namePtr namePtr
  | ns domain _ => .name domain
  | soa owner _ => owner

/-- The type of a record. -/
def type : ResourceRecord → UInt16
  | a .. => 1
  | cname .. => 5
  | mx .. => 15
  | ns .. => 2
  | soa .. => 6

/-- The name in the data of a record has short fragments; of an `SOA` record, its primary name server. -/
def DataShort : ResourceRecord → Prop
  | a .. => True
  | cname _ n => Short (toFraments n)
  | mx _ n _ => Short (toFraments n)
  | ns _ n => Short (toFraments n)
  | soa _ z => ∀ n ∈ z.zone.ns.head?, Short (toFraments (nameInZone n.fqdn (some z)))

/-- So has the mailbox of an `SOA` record. -/
def RnameShort : ResourceRecord → Prop
  | soa _ z => ∀ s ∈ z.zone.soa, Short (toFraments (nameInZone s.rname (some z)))
  | _ => True

end ResourceRecord

/-- **What is read where data was written**, up to `stop`. -/
def DataReads (m : View) (off : ℕ) : ResourceRecord → ℕ → Prop
  | .a _ ip, stop => u32 m off = some ip ∧ stop = off + 4
  | .cname _ n, stop => ReadsAs m off (toFraments n) stop
  | .mx _ n pri, stop => u16 m off = some pri ∧ ReadsAs m (off + 2) (toFraments n) stop
  | .ns _ n, stop => ReadsAs m off (toFraments n) stop
  | .soa _ z, _ => ∃ n rest mid, z.zone.ns = n :: rest ∧
      ReadsAs m off (toFraments (nameInZone n.fqdn (some z))) mid

theorem DataReads.mono {m m' : View} (hm : m.Le m') {off stop : ℕ} {r : ResourceRecord}
    (h : DataReads m off r stop) : DataReads m' off r stop := by
  cases r with
  | a o ip => exact ⟨u32_mono hm h.1, h.2⟩
  | cname p n => exact ReadsAs.mono hm h
  | mx p n pri => exact ⟨u16_mono hm h.1, h.2.mono hm⟩
  | ns d n => exact ReadsAs.mono hm h
  | soa o z =>
    obtain ⟨n, rest, mid, hns, hreads⟩ := h
    exact ⟨n, rest, mid, hns, hreads.mono hm⟩

/-! ## Data -/

/-- **Where `x` ended, it wrote data**: it appended octets and returned their number, a view of the
buffer has `P` between the old end and the new one, and where `q` holds the label list stays sound. -/
def WritesData (x : Writer ℕ) (q : Prop) (P : View → ℕ → ℕ → Prop) : Prop :=
  ∀ (hole : List ℕ) (w : Wire) (n : ℕ) (w' : Wire), Sound hole w → (∀ i ∈ hole, i < w.buffer.length) →
    x w = (.ok n, w') → w'.buffer.length < 0x4000 →
    ∃ rb : Bytes, w'.buffer = w.buffer ++ rb ∧ n = rb.length ∧ (q → Sound hole w') ∧
      P (known hole w'.buffer) w.buffer.length w'.buffer.length

theorem WritesData.imp {x : Writer ℕ} {q q' : Prop} {P : View → ℕ → ℕ → Prop} (h : WritesData x q P)
    (hq : q' → q) : WritesData x q' P := by
  intro hole w n w' hs hh hrun hlt
  obtain ⟨rb, hb, hn, hs', hP⟩ := h hole w n w' hs hh hrun hlt
  exact ⟨rb, hb, hn, fun hq' => hs' (hq hq'), hP⟩

theorem prefix_writeZoneName {name : Bytes} {zone : Option ZonePtr} {w w' : Wire} {n : ℕ}
    (h : writeZoneName name zone w = (.ok n, w')) : w.buffer <+: w'.buffer :=
  ((writeZoneName_frame (E := fun _ _ => True) (fun _ _ _ => trivial) name zone w (Begins.refl w)).1 n w'
    h).1

theorem writesData_name {name : Bytes} {zone : Option ZonePtr}
    (hshort : Short (toFraments (nameInZone name zone))) : WritesData (writeZoneName name zone) True
      fun m off stop => ReadsAs m off (toFraments (nameInZone name zone)) stop := by
  intro hole w n w' hs hh hrun hlt
  have hlen := (prefix_writeZoneName hrun).length_le
  obtain ⟨nb, labels, hw, hs', -, hreads⟩ := writeZoneName_reads ⟨hs, by omega, hh⟩ (by omega) hshort
  rw [hw] at hrun
  cases hrun
  refine ⟨nb, rfl, rfl, fun _ => hs', ?_⟩
  rw [List.length_append]
  exact hreads

theorem writesData_mx {name : Bytes} {pri : UInt16} (hshort : Short (toFraments name)) :
    WritesData (writeMxData name pri) True fun m off stop =>
      u16 m off = some pri ∧ ReadsAs m (off + 2) (toFraments name) stop := by
  intro hole w n w' hs hh hrun hlt
  rw [writeMxData, bind_ok (Wire.append_apply _ _), store16_htons] at hrun
  obtain ⟨k, w₁, hname, hend⟩ := bind_eq_ok hrun
  cases hend
  obtain ⟨nb, hb, rfl, hs', hreads⟩ := @writesData_name name none (by rw [nameInZone_none]; exact hshort)
    hole _ _ _ (hs.of_le (known_le_append _ _ _)) (hole_lt_append hh _) hname hlt
  rw [nameInZone_none] at hreads
  refine ⟨be16 pri ++ nb, by rw [hb, List.append_assoc], by simp [Nat.add_comm], hs', ?_,
    by simpa using hreads⟩
  rw [hb]
  exact u16_known fun i hi _ hm => by have := hh i hm; omega

theorem writesData_soa {z : ZonePtr}
    (hshort : ∀ n ∈ z.zone.ns.head?, Short (toFraments (nameInZone n.fqdn (some z)))) :
    WritesData (writeSoaData z) (∀ s ∈ z.zone.soa, Short (toFraments (nameInZone s.rname (some z))))
      fun m off _ => ∃ n rest mid, z.zone.ns = n :: rest ∧
        ReadsAs m off (toFraments (nameInZone n.fqdn (some z))) mid := by
  intro hole w k w' hs hh hrun hlt
  rw [writeSoaData, bind_ok (Wire.size_apply w)] at hrun
  cases hsoa : z.zone.soa with
  | none =>
    rw [hsoa] at hrun
    cases hrun
  | some s =>
    rw [hsoa] at hrun
    dsimp only at hrun
    cases hns : z.zone.ns with
    | nil =>
      rw [getMname, hns] at hrun
      cases hrun
    | cons n rest =>
      rw [getMname, hns, bind_ok (ofExcept_apply _ w)] at hrun
      obtain ⟨k₁, w₁, hmname, hrun⟩ := bind_eq_ok hrun
      obtain ⟨k₂, w₂, hrname, hrun⟩ := bind_eq_ok hrun
      rw [bind_ok (Wire.append_apply _ _), bind_ok (Wire.size_apply _)] at hrun
      cases hrun
      obtain ⟨tail, htail⟩ := prefix_writeZoneName hrname
      rw [List.length_append, ← htail, List.length_append] at hlt
      obtain ⟨mb, hb, -, hs₁, hreads⟩ := writesData_name (hshort n (by rw [hns]; rfl)) hole w k₁ w₁ hs hh
        hmname (by omega)
      have hh₁ : ∀ i ∈ hole, i < w₁.buffer.length := by
        rw [hb]
        exact hole_lt_append hh mb
      have hall : w₂.buffer ++ s.numbers = w.buffer ++ (mb ++ tail ++ s.numbers) := by
        rw [← htail, hb]
        simp only [List.append_assoc]
      refine ⟨mb ++ tail ++ s.numbers, hall, ?_, fun hrshort => ?_, n, rest, w₁.buffer.length, rfl, ?_⟩
      · simp only [hall, List.length_append]
        omega
      · obtain ⟨-, -, -, hs₂, -⟩ := writesData_name (hrshort s rfl) hole w₁ k₂ w₂ (hs₁ trivial) hh₁ hrname
          (by rw [← htail, List.length_append]; omega)
        exact (hs₂ trivial).of_le (known_le_append _ _ _)
      · apply hreads.mono
        dsimp only
        rw [← htail, List.append_assoc]
        exact known_le_append _ _ _

/-! ## Records -/

/-- **Where a record was written.** The label list stays sound; the owner is read at the old end of the
buffer, up to `e`, the fields and the data behind it. -/
structure Laid (hole : List ℕ) (w : Wire) (r : ResourceRecord) (a : Written) (w' : Wire) (e : ℕ) : Prop where
  begins : w.buffer <+: w'.buffer
  sound : r.RnameShort → Sound hole w'
  written : a = ⟨w.buffer.length, e + 8, w'.buffer.length - w.buffer.length⟩
  owner : OwnerReads (known hole w.buffer) (known hole w'.buffer) w.buffer.length r.owner e
  fields : FieldsAt (known hole w'.buffer) e r.type w'.buffer.length
  data : DataReads (known hole w'.buffer) (e + 10) r w'.buffer.length

variable {hole : List ℕ} {w w' : Wire} {r : ResourceRecord} {a : Written}

theorem laid_of_parts {ob rb : Bytes} {labels : List UInt16} {old : UInt16}
    (hh : ∀ i ∈ hole, i < w.buffer.length)
    (ho : OwnerReads (known hole w.buffer) (known hole (w.buffer ++ ob)) w.buffer.length r.owner
      (w.buffer ++ ob).length) (hlen : rb.length < 65536)
    (hs : r.RnameShort → Sound (hole ++ rdlengthHole (w.buffer ++ ob).length)
      ⟨w.buffer ++ ob ++ fixedFields r.type ++ be16 old ++ rb, labels⟩)
    (hd : DataReads (known (hole ++ rdlengthHole (w.buffer ++ ob).length)
      (w.buffer ++ ob ++ fixedFields r.type ++ be16 old ++ rb)) ((w.buffer ++ ob).length + 10) r
      ((w.buffer ++ ob).length + 10 + rb.length)) :
    Laid hole w r ⟨w.buffer.length, (w.buffer ++ ob).length + 8, ob.length + 10 + rb.length⟩
      ⟨w.buffer ++ ob ++ fixedFields r.type ++ be16 (UInt16.ofNat rb.length) ++ rb, labels⟩
      (w.buffer ++ ob).length := by
  have hle := @known_le_rdlength hole (w.buffer ++ ob) rb r.type old (UInt16.ofNat rb.length)
  have hend : (w.buffer ++ ob ++ fixedFields r.type ++ be16 (UInt16.ofNat rb.length) ++ rb).length =
      (w.buffer ++ ob).length + 10 + rb.length := by
    simp only [List.length_append, length_fixedFields, length_be16]
  have hout : ∀ i, (w.buffer ++ ob).length ≤ i → i ∉ hole := fun i hi hm => by
    have := hh i hm
    rw [List.length_append] at hi
    omega
  constructor
  · exact ⟨ob ++ fixedFields r.type ++ be16 (UInt16.ofNat rb.length) ++ rb, by simp only [List.append_assoc]⟩
  · exact fun hr => (hs hr).of_le hle
  · simp only [hend]
    rw [List.length_append]
    congr 1
    omega
  · have hpre := known_le_append hole (w.buffer ++ ob)
      (fixedFields r.type ++ be16 (UInt16.ofNat rb.length) ++ rb)
    simp only [← List.append_assoc] at hpre
    exact ho.mono hpre
  · rw [hend]
    exact fieldsAt_of_parts hout hlen
  · rw [hend]
    exact hd.mono hle

theorem length_le_poke {p : ℕ} {octets : Bytes} {u : Unit} (h : Wire.poke p octets w = (.ok u, w')) :
    w.buffer.length ≤ w'.buffer.length := by
  cases h
  simp only [List.length_append, List.length_take, List.length_drop]
  omega

theorem laid_of_data {x : Writer ℕ} (h : Open hole w) (ho : r.owner.Writable (known hole w.buffer))
    (hx : WritesData x r.RnameShort fun m off stop => DataReads m off r stop)
    (hrun : (AnswerBase.writeHeader ⟨r.owner, r.type, 0⟩ >>= fun a => x >>= fun n => a.writeRdlength n) w =
      (.ok a, w')) (hlt : w'.buffer.length < 0x4000) : ∃ e, Laid hole w r a w' e := by
  obtain ⟨ob, labels, hw, hs, hh, -, hreads⟩ := writeHeader_reads h ho r.type 0
  rw [bind_ok hw] at hrun
  obtain ⟨n, w₁, hdata, hend⟩ := bind_eq_ok hrun
  unfold Written.writeRdlength at hend
  obtain ⟨u, w₂, hpoke, hpure⟩ := bind_eq_ok hend
  cases hpure
  have hlen := length_le_poke hpoke
  obtain ⟨rb, hb, rfl, hs', hd⟩ := hx _ _ n w₁ hs hh hdata (by omega)
  obtain ⟨buffer, labels'⟩ := w₁
  simp only at hb hlen
  have hhdr : (w.buffer ++ ob ++ fixedFields r.type ++ be16 0).length = (w.buffer ++ ob).length + 10 := by
    rw [List.length_append, List.length_append, length_fixedFields, length_be16]
  rw [hb, List.length_append, hhdr] at hlen
  have hvalue : (UInt16.ofNat rb.length).toNat = rb.length := by
    rw [UInt16.toNat_ofNat']
    omega
  subst hb
  simp only [hhdr, @List.length_append _ _ rb] at hd
  have hpoked := Wire.poke_append (a := w.buffer ++ ob ++ fixedFields r.type) (x := be16 0) (c := rb)
    (y := store16 (htons (UInt16.ofNat rb.length))) rfl labels'
  simp only [← List.append_assoc] at hpoked
  cases hpoked.symm.trans hpoke
  refine ⟨(w.buffer ++ ob).length, ?_⟩
  have hlaid := laid_of_parts h.hole_lt hreads (by omega) hs' hd
  rw [← store16_htons] at hlaid
  rw [hvalue]
  simpa only [List.length_append, length_fixedFields] using hlaid

theorem laid_a {o : Owner} {ip : AddressV4} (h : Open hole w) (ho : o.Writable (known hole w.buffer))
    (hrun : (ResourceRecord.a o ip).write w = (.ok a, w')) : ∃ e, Laid hole w (.a o ip) a w' e := by
  obtain ⟨ob, labels, hw, hs, hh, -, hreads⟩ := writeHeader_reads h ho 1 4
  rw [ResourceRecord.write, bind_ok hw, bind_ok (Wire.append_apply _ _)] at hrun
  cases hrun
  refine ⟨(w.buffer ++ ob).length, ?_⟩
  have hhdr : (w.buffer ++ ob ++ fixedFields 1 ++ be16 4).length = (w.buffer ++ ob).length + 10 := by
    rw [List.length_append, List.length_append, length_fixedFields, length_be16]
  have hip := u32_known (a := w.buffer ++ ob ++ fixedFields 1 ++ be16 4) (v := ip) (c := [])
    fun i hi _ hm => absurd (hh i hm) (by omega)
  rw [List.append_nil, hhdr] at hip
  have hlaid := @laid_of_parts hole w (.a o ip) ob (be32 ip) labels 4 h.hole_lt hreads (by simp)
    (fun _ => hs.of_le (known_le_append _ _ _)) ⟨hip, by simp⟩
  rw [show be16 (UInt16.ofNat (be32 ip).length) = be16 4 from rfl] at hlaid
  simpa only [List.length_append, length_fixedFields, length_be32, ResourceRecord.type,
    AddressV4.toBytes] using hlaid

/-- **Where a record was written**, its owner, its fields and its data are read. -/
theorem write_laid (h : Open hole w) (ho : r.owner.Writable (known hole w.buffer)) (hd : r.DataShort)
    (hrun : r.write w = (.ok a, w')) (hlt : w'.buffer.length < 0x4000) : ∃ e, Laid hole w r a w' e := by
  have hname : ∀ n, Short (toFraments n) → ∀ q : Prop, WritesData (writeZoneName n none) q
      fun m off stop => ReadsAs m off (toFraments n) stop := fun n hn q => by
    have := @writesData_name n none (by rwa [nameInZone_none])
    rw [nameInZone_none] at this
    exact this.imp fun _ => trivial
  cases r with
  | a o ip => exact laid_a h ho hrun
  | cname p n => exact laid_of_data h ho (hname n hd _) hrun hlt
  | mx p n pri => exact laid_of_data h ho ((writesData_mx hd).imp fun _ => trivial) hrun hlt
  | ns d n => exact laid_of_data h ho (hname n hd _) hrun hlt
  | soa o z => exact laid_of_data h ho (writesData_soa hd) hrun hlt

/-! ## What is stored -/

/-- **A record as it is read** where its `Write` says it is. -/
def LaidAt (m : View) (r : ResourceRecord) (a : Written) : Prop :=
  ∃ (m₀ : View) (e : ℕ), a.rdlengthHdr = e + 8 ∧ OwnerReads m₀ m a.origLen r.owner e ∧
    FieldsAt m e r.type (a.origLen + a.size) ∧ DataReads m (e + 10) r (a.origLen + a.size)

theorem Laid.laidAt {m : View} {e : ℕ} (h : Laid hole w r a w' e) (hm : (known hole w'.buffer).Le m) :
    LaidAt m r a := by
  have hlen := h.begins.length_le
  have hstop : a.origLen + a.size = w'.buffer.length := by
    rw [h.written]
    exact Nat.add_sub_of_le hlen
  have horig : a.origLen = w.buffer.length := by rw [h.written]
  refine ⟨known hole w.buffer, e, by rw [h.written], ?_, ?_, ?_⟩
  · rw [horig]
    exact h.owner.mono hm
  · rw [hstop]
    exact h.fields.mono hm
  · rw [hstop]
    exact h.data.mono hm

/-- **Whether an address record whose owner is a name is stored**: its owner has labels, and none is
empty. -/
theorem LaidAt.recordAt_a_iff {b n : Bytes} {ip ip' : AddressV4} {ls : List Label}
    (h : LaidAt (view b) (.a (.name n) ip) a) :
    RecordAt (view b) a.origLen ⟨ls, 1, 300, .a ip'⟩ (a.origLen + a.size) ↔
      n ≠ [] ∧ [] ∉ toFraments n ∧ ls = toFraments n ∧ ip' = ip := by
  obtain ⟨m₀, e, -, hown, hf, hu, hstop⟩ := h
  simp only [ResourceRecord.owner, ResourceRecord.type, OwnerReads] at hown hf
  constructor
  · rintro ⟨e', type, len, hn, htype, -, -, hlen, hdata, hend⟩
    cases hdata with
    | a hu' hstop' =>
      -- the data has four octets, so the owner ends where it was written to end
      obtain rfl : e' = e := by omega
      rw [hu] at hu'
      split_ifs at hown with hnil
      · exact absurd hn.lt_next (by omega)
      · obtain ⟨hne, rfl⟩ := hown.nameAt_iff.mp hn
        exact ⟨hnil, hne, rfl, (Option.some.inj hu').symm⟩
  · rintro ⟨hnil, hne, rfl, rfl⟩
    rw [if_neg hnil] at hown
    exact hf.recordAt (hown.nameAt_iff.mpr ⟨hne, rfl⟩) (.a hu hstop)

/-! ## Runs of stores -/

/-- A record that can be stored behind what `m` shows. -/
structure Storable (m : View) (r : ResourceRecord) : Prop where
  owner : r.owner.Writable m
  data : r.DataShort
  rname : r.RnameShort

theorem Storable.mono {m m' : View} (hm : m.Le m') (h : Storable m r) : Storable m' r := by
  obtain ⟨howner, hdata, hrname⟩ := h
  refine ⟨?_, hdata, hrname⟩
  cases hr : r.owner with
  | name n =>
    rw [hr] at howner
    exact howner
  | namePtr p =>
    rw [hr] at howner
    exact howner.imp (StoredAt.mono hm p)

/-- **The records a run of stores stores**, each with what its `Write` left. -/
inductive Puts (limit : Option ℕ) : List (Section × ResourceRecord) → Wire → Section × ResourceRecord →
    Written → Prop
  | here {x : Section × ResourceRecord} {xs : List (Section × ResourceRecord)} {w w' : Wire} {a : Written} :
      x.2.write w = (.ok a, w') → store limit x.2 w = (.ok a.size, w') → Puts limit (x :: xs) w x a
  | there {x y : Section × ResourceRecord} {xs : List (Section × ResourceRecord)} {w w' : Wire} {n : ℕ}
      {a : Written} : store limit x.2 w = (.ok n, w') → Puts limit xs w' y a → Puts limit (x :: xs) w y a

theorem Puts.mem {limit : Option ℕ} {xs : List (Section × ResourceRecord)} {y : Section × ResourceRecord}
    (h : Puts limit xs w y a) : y ∈ xs := by
  induction h with
  | here => exact List.mem_cons_self
  | there _ _ ih => exact List.mem_cons_of_mem _ ih

theorem write_of_store {m n : ℕ} (h : store (some m) r w = (.ok n, w')) :
    ∃ a, r.write w = (.ok a, w') ∧ n = a.size ∧ w'.buffer.length ≤ m := by
  obtain ⟨a, w₁, hwrite, -⟩ := bind_eq_ok h
  rw [store_of_write hwrite] at h
  split_ifs at h with hlimit
  · cases h
  · obtain ⟨hsize, rfl⟩ := Prod.mk.inj h
    exact ⟨a, hwrite, (Except.ok.inj hsize).symm, Nat.le_of_not_lt fun hlt => hlimit ⟨m, rfl, hlt⟩⟩

theorem Puts.before {m : ℕ} {y : Section × ResourceRecord} : ∀ {xs ys : List (Section × ResourceRecord)}
    {w : Wire}, Puts (some m) (xs ++ ys) w y a → y ∉ xs → ∀ x ∈ xs, ∃ a, Puts (some m) (xs ++ ys) w x a
  | [], _, _, _, _, _, hx => absurd hx List.not_mem_nil
  | x :: xs, ys, w, h, hy, x', hx' => by
    cases h with
    | here => exact absurd List.mem_cons_self hy
    | there hstore hrest =>
      rcases List.mem_cons.mp hx' with rfl | hx'
      · obtain ⟨a, hwrite, rfl, -⟩ := write_of_store hstore
        exact ⟨a, .here hwrite hstore⟩
      · obtain ⟨a, ha⟩ := hrest.before (fun hm => hy (List.mem_cons_of_mem _ hm)) x' hx'
        exact ⟨a, .there hstore ha⟩

theorem known_le_of_isPrefix {b b' : Bytes} (h : b <+: b') : (known hole b).Le (known hole b') := by
  obtain ⟨t, rfl⟩ := h
  exact known_le_append _ _ _

/-- **The records of a run are laid out** in what it leaves. -/
theorem Puts.laidAt {m : ℕ} (hm : m ≤ 0x2000) {xs : List (Section × ResourceRecord)}
    {y : Section × ResourceRecord} (h : Puts (some m) xs w y a) (hs : Sound hole w)
    (hh : ∀ i ∈ hole, i < w.buffer.length) (hlen : w.buffer.length ≤ m)
    (hxs : ∀ x ∈ xs, Storable (known hole w.buffer) x.2) :
    LaidAt (known hole (storeUntil (some m) (xs.map Prod.snd) w).2.2.buffer) y.2 a := by
  induction h with
  | @here x xs w w' a hwrite hstore =>
    obtain ⟨a', -, -, hle⟩ := write_of_store hstore
    have hx := hxs x List.mem_cons_self
    obtain ⟨e, hl⟩ := write_laid ⟨hs, by omega, hh⟩ hx.owner hx.data hwrite (by omega)
    rw [List.map_cons, storeUntil_ok hstore]
    exact hl.laidAt (known_le_of_isPrefix (prefix_storeUntil (xs.map Prod.snd) w'))
  | @there x y xs w w' n a hstore hrest ih =>
    obtain ⟨a', hwrite, -, hle⟩ := write_of_store hstore
    have hx := hxs x List.mem_cons_self
    obtain ⟨e, hl⟩ := write_laid ⟨hs, by omega, hh⟩ hx.owner hx.data hwrite (by omega)
    have hbegins := hl.begins.length_le
    rw [List.map_cons, storeUntil_ok hstore]
    refine ih (hl.sound hx.rname) (fun i hi => ?_) hle fun x' hx' => ?_
    · have := hh i hi
      omega
    · exact (hxs x' (List.mem_cons_of_mem _ hx')).mono (known_le_of_isPrefix hl.begins)

end VUbercool.Dns
