import VUbercool.Dns.Compression
import VUbercool.Lib.Message
import Mathlib.Data.List.Forall2

/-!
# The encoder writes what a decoder reads

* `Means`: the record a decoder is to read for a record that is stored.
* `writeHeader_spec`, `write_spec`: a record is stored at the old end of the buffer, with `GetSize()`
  octets, and the label list stays sound.
* `storeUntil`: records stored one after the other until `Store` raises.
* `storeUntil_decodes`: **the round trip**.
-/

namespace VUbercool.Dns

open Octets Rfc1035

/-! ## The record that is meant -/

/-- The labels the owner of a record stands for: those at its offset, as `at_` tells, or those it
spells. Names have up to 511 octets: 255 for an entry, a dot and 255 for its zone. -/
inductive OwnerMeans (at_ : UInt16 → List Label → Prop) : Owner → List Label → Prop
  | namePtr {p : UInt16} {ls : List Label} : at_ p ls → OwnerMeans at_ (.namePtr p) ls
  | name {n : Bytes} {ls : List Label} : Spells 511 n ls → OwnerMeans at_ (.name n) ls

/-- **The record a decoder is to read** for a record that is stored in a reply. -/
inductive Means (at_ : UInt16 → List Label → Prop) : ResourceRecord → Rfc1035.Record → Prop
  | a {o : Owner} {ls : List Label} {ip : AddressV4} : OwnerMeans at_ o ls →
      Means at_ (.a o ip) ⟨ls, 1, 300, .a ip⟩
  | cname {p : UInt16} {n : Bytes} {ls ns : List Label} : OwnerMeans at_ (.namePtr p) ls →
      Spells 511 n ns → Means at_ (.cname p n) ⟨ls, 1, 300, .cname ns⟩
  | mx {p pri : UInt16} {n : Bytes} {ls ns : List Label} : OwnerMeans at_ (.namePtr p) ls →
      Spells 511 n ns → Means at_ (.mx p n pri) ⟨ls, 1, 300, .mx pri ns⟩
  | ns {d n : Bytes} {ls ns : List Label} : Spells 511 d ls → Spells 511 n ns →
      Means at_ (.ns d n) ⟨ls, 1, 300, .ns ns⟩
  | soa {o : Owner} {z : ZonePtr} {s : Soa} {n : Ns} {rest : List Ns}
      {ls origin ms rs : List Label} : OwnerMeans at_ o ls → z.zone.soa = some s →
      z.zone.ns = n :: rest → Spells 255 z.getDomainName origin → InZone origin n.fqdn ms →
      InZone origin s.rname rs → Means at_ (.soa o z)
        ⟨ls, 1, 300, .soa ms rs s.serial s.refresh s.retry s.expire s.minimum⟩

theorem OwnerMeans.imp {p p' : UInt16 → List Label → Prop} (hp : ∀ x ls, p x ls → p' x ls) {o : Owner}
    {ls : List Label} (h : OwnerMeans p o ls) : OwnerMeans p' o ls := by
  cases h with
  | namePtr h => exact .namePtr (hp _ _ h)
  | name h => exact .name h

theorem Means.imp {p p' : UInt16 → List Label → Prop} (hp : ∀ x ls, p x ls → p' x ls)
    {r : ResourceRecord} {rec : Rfc1035.Record} (h : Means p r rec) : Means p' r rec := by
  cases h with
  | a h => exact .a (h.imp hp)
  | cname h h' => exact .cname (h.imp hp) h'
  | mx h h' => exact .mx (h.imp hp) h'
  | ns h h' => exact .ns h h'
  | soa h h1 h2 h3 h4 h5 => exact .soa (h.imp hp) h1 h2 h3 h4 h5

/-- An offset of a reply where labels are stored. -/
def StoredAt (m : View) (p : UInt16) (ls : List Label) : Prop :=
  ∃ next, NameAt m (p.toNat % 0x4000) (p.toNat % 0x4000) ls next

theorem StoredAt.mono {m m' : View} (hm : m.Le m') (p : UInt16) (ls : List Label)
    (h : StoredAt m p ls) : StoredAt m' p ls :=
  h.imp fun _ hn => hn.mono hm

/-- The offset of a question and the name it asks about. -/
def QuestionOffset (qs : List Rfc1035.Question) (p : UInt16) (ls : List Label) : Prop :=
  ∃ i q, qs[i]? = some q ∧ p.toNat = 12 + ((qs.take i).flatMap encodeQuestion).length ∧ ls = q.name

/-! ## The header of a record -/

/-- A buffer the encoder may append a record to. -/
structure Open (hole : List ℕ) (w : Wire) : Prop where
  sound : Sound hole w
  length_le : w.buffer.length ≤ 0x2000
  hole_lt : ∀ i ∈ hole, i < w.buffer.length

theorem Open.ready {hole : List ℕ} {w : Wire} (h : Open hole w) : Ready hole w :=
  ⟨h.sound, by have := h.length_le; omega, h.hole_lt⟩

/-- An owner that can be written: its offset stands for a name, or its fragments are short. -/
def Owner.Writable (m : View) : Owner → Prop
  | .namePtr p => ∃ ls, StoredAt m p ls
  | .name n => Short (toFraments n)

/-- The octets an owner takes at most. -/
def Owner.room : Owner → ℕ
  | .namePtr _ => 2
  | .name n => (encodeLabels (toFraments n)).length + 1

/-- **What is read where an owner was written**: the name its offset stood for in `m`, or its fragments;
an empty name takes no octets. -/
def OwnerReads (m m' : View) (off : ℕ) : Owner → ℕ → Prop
  | .namePtr p, stop => ∀ ls, StoredAt m p ls → NameAt m' off off ls stop
  | .name n, stop => if n = [] then stop = off else ReadsAs m' off (toFraments n) stop

theorem OwnerReads.mono {m m' m'' : View} (hm : m'.Le m'') {off stop : ℕ} {o : Owner}
    (h : OwnerReads m m' off o stop) : OwnerReads m m'' off o stop := by
  cases o with
  | namePtr p => exact fun ls hp => (h ls hp).mono hm
  | name n =>
    simp only [OwnerReads] at h ⊢
    split_ifs at h ⊢
    · exact h
    · exact h.mono hm

theorem OwnerMeans.writable {m : View} {o : Owner} {ls : List Label} (h : OwnerMeans (StoredAt m) o ls) :
    o.Writable m := by
  cases h with
  | namePtr hp => exact ⟨_, hp⟩
  | name hsp => exact show Short _ from (toFraments_of_spells hsp).symm ▸ hsp.fit.short

theorem OwnerMeans.room_le {at_ : UInt16 → List Label → Prop} {o : Owner} {ls : List Label}
    (h : OwnerMeans at_ o ls) : o.room ≤ 513 := by
  cases h with
  | namePtr => exact (by decide : 2 ≤ 513)
  | name hsp =>
    have := length_dotted_le hsp
    rw [Owner.room, toFraments_of_spells hsp, length_encodeLabels _ hsp.ne_nil]
    omega

theorem OwnerReads.nameAt {m m' : View} {off stop : ℕ} {o : Owner} {ls : List Label}
    (h : OwnerReads m m' off o stop) (ho : OwnerMeans (StoredAt m) o ls) : NameAt m' off off ls stop := by
  cases ho with
  | namePtr hp => exact h _ hp
  | @name n _ hsp =>
    have hne : n ≠ [] := by
      have := dotted_ne_nil hsp.ne_nil hsp.fit
      rcases hsp.text with e | e <;> simp [e, this]
    rw [OwnerReads, if_neg hne, toFraments_of_spells hsp] at h
    obtain ⟨next, hn, hstop⟩ := h
    rw [untilEmpty_eq hsp.fit.nil_notMem] at hn
    exact hstop.mpr hsp.fit.nil_notMem ▸ hn

theorem writeOwner_spec {hole : List ℕ} {w : Wire} {o : Owner} (h : Open hole w)
    (ho : o.Writable (known hole w.buffer)) : ∃ (ob : Bytes) (labels : List UInt16),
      writeOwner o w = (.ok (w.buffer ++ ob).length,
        ⟨w.buffer ++ ob ++ List.replicate 10 0, labels⟩) ∧
      Sound hole ⟨w.buffer ++ ob, labels⟩ ∧ ob.length ≤ o.room ∧
      OwnerReads (known hole w.buffer) (known hole (w.buffer ++ ob)) w.buffer.length o
        (w.buffer ++ ob).length := by
  have hle := h.length_le
  cases o with
  | name n =>
    by_cases hn : n = []
    · refine ⟨[], w.labels, ?_, by simpa using h.sound, Nat.zero_le _, ?_⟩
      · rw [hn, writeOwner, List.append_nil]
        simp only [List.isEmpty_nil, Bool.not_true, Bool.false_eq_true, if_false]
        rw [Proc.bind_ok (Wire.size_apply _), Proc.bind_ok (Wire.resize_add _ _ _), Proc.pure_apply]
      · rw [OwnerReads, if_pos hn, List.append_nil]
    · obtain ⟨ob, labels, hw, hs, hlen, hreads⟩ := @writeZoneName_reads hole w n none h.ready
        (by omega) (by rw [nameInZone_none]; exact ho)
      rw [nameInZone_none] at hlen hreads
      refine ⟨ob, labels, ?_, hs, hlen, ?_⟩
      · simp only [writeOwner, List.isEmpty_eq_false_iff.mpr hn, Bool.not_false, if_true]
        rw [Proc.bind_ok hw, Proc.bind_ok (Wire.size_apply _),
          Proc.bind_ok (Wire.resize_add _ _ _), Proc.pure_apply]
      · rw [OwnerReads, if_neg hn, List.length_append]
        exact hreads
  | namePtr p =>
    have hstored : ∀ ls, StoredAt (known hole w.buffer) p ls →
        NameAt (known hole (w.buffer ++ store16 (htons (p ||| 0xC000)))) w.buffer.length w.buffer.length ls
          (w.buffer.length + 2) := by
      rintro ls ⟨next, hn⟩
      obtain ⟨c, hc⟩ := hn.some_of
      exact nameAt_pointer hn (lt_of_known hc) h.hole_lt
    obtain ⟨ls, next, hn⟩ := ho
    obtain ⟨labels, hadd, hs⟩ := addLabel_spec
      (w := ⟨w.buffer ++ (store16 (htons (p ||| 0xC000)) ++ List.replicate 10 0), w.labels⟩)
      (b := w.buffer) h.sound ((known_le_append _ _ _).trans (known_le_view _ _))
      (by rw [toNat_or_mod]; exact hn)
    have hs' := hs.of_le (known_le_append hole w.buffer (store16 (htons (p ||| 0xC000))))
    refine ⟨store16 (htons (p ||| 0xC000)), labels, ?_, hs', by simp [store16, Owner.room], fun ls hp => ?_⟩
    · rw [writeOwner, Proc.bind_ok (Wire.size_apply _), Proc.bind_ok (Wire.resize_add _ _ _),
        show List.replicate 12 (0 : UInt8) = List.replicate 2 0 ++ List.replicate 10 0 from rfl,
        Proc.bind_ok (Wire.poke_append (x := List.replicate 2 0)
          (y := store16 (htons (p ||| 0xC000))) rfl _), Proc.bind_ok hadd, Proc.pure_apply]
      simp [store16]
    · simpa [store16] using hstored ls hp

/-- The fields of a record between its owner and RDLENGTH. -/
def fixedFields (type : UInt16) : Bytes := be16 type ++ be16 1 ++ be32 300

@[simp] theorem length_fixedFields (type : UInt16) : (fixedFields type).length = 8 := rfl

/-- The octets of RDLENGTH behind an owner that ends at `p`. -/
def rdlengthHole (p : ℕ) : List ℕ := [p + 8, p + 9]

/-- **`WriteHeader`** writes the owner and the fields after it. Until RDLENGTH is final its two octets
are a hole. -/
theorem writeHeader_reads {hole : List ℕ} {w : Wire} {o : Owner} (h : Open hole w)
    (ho : o.Writable (known hole w.buffer)) (type rdlength : UInt16) :
    ∃ (ob : Bytes) (labels : List UInt16),
      AnswerBase.writeHeader ⟨o, type, rdlength⟩ w =
        (.ok ⟨w.buffer.length, (w.buffer ++ ob ++ fixedFields type).length, ob.length + 10⟩,
          ⟨w.buffer ++ ob ++ fixedFields type ++ be16 rdlength, labels⟩) ∧
      Sound (hole ++ rdlengthHole (w.buffer ++ ob).length)
        ⟨w.buffer ++ ob ++ fixedFields type ++ be16 rdlength, labels⟩ ∧
      (∀ i ∈ hole ++ rdlengthHole (w.buffer ++ ob).length,
        i < (w.buffer ++ ob ++ fixedFields type ++ be16 rdlength).length) ∧ ob.length ≤ o.room ∧
      OwnerReads (known hole w.buffer) (known hole (w.buffer ++ ob)) w.buffer.length o
        (w.buffer ++ ob).length := by
  obtain ⟨ob, labels, hw, hs, hlen, hreads⟩ := writeOwner_spec h ho
  refine ⟨ob, labels, ?_, ?_, fun i hi => ?_, hlen, hreads⟩
  · have hfields : store16 (htons type) ++ store16 (htons 1) ++ store32 (htonl 300) =
        fixedFields type := by
      rw [store16_htons, store16_htons, store32_htonl]; rfl
    have hpoke := Wire.poke_append (a := w.buffer ++ ob ++ fixedFields type)
      (x := List.replicate 2 0) (c := []) (y := store16 (htons rdlength)) rfl labels
    simp only [List.append_nil] at hpoke
    rw [AnswerBase.writeHeader, Proc.bind_ok (Wire.size_apply _), Proc.bind_ok hw, hfields,
      show List.replicate 10 (0 : UInt8) = List.replicate 8 0 ++ List.replicate 2 0 from rfl,
      Proc.bind_ok (Wire.poke_append (x := List.replicate 8 0) (y := fixedFields type) rfl _),
      ← List.append_assoc,
      Proc.bind_ok (Wire.size_apply _)]
    have hsize : (w.buffer ++ ob ++ fixedFields type ++ List.replicate 2 0).length - 2 =
        (w.buffer ++ ob ++ fixedFields type).length := by simp; omega
    rw [hsize, Proc.bind_ok hpoke, store16_htons, Proc.pure_apply]
    simp
  · refine hs.of_le ((known_le_widen fun i hi => ?_).trans ((known_le_append _ _ _).trans
      (known_le_append _ _ _)))
    simp only [rdlengthHole, List.mem_cons, List.not_mem_nil, or_false] at hi
    simp only
    omega
  · simp only [rdlengthHole, List.mem_append, List.mem_cons, List.not_mem_nil, or_false] at hi
    simp only [List.length_append, length_fixedFields, length_be16] at hi ⊢
    rcases hi with hi | hi
    · have := h.hole_lt i hi; omega
    · omega

/-- Where the owner means labels, these are stored. -/
theorem writeHeader_spec {hole : List ℕ} {w : Wire} {o : Owner} {ls : List Label} (h : Open hole w)
    (ho : OwnerMeans (StoredAt (known hole w.buffer)) o ls) (type rdlength : UInt16) :
    ∃ (ob : Bytes) (labels : List UInt16),
      AnswerBase.writeHeader ⟨o, type, rdlength⟩ w =
        (.ok ⟨w.buffer.length, (w.buffer ++ ob ++ fixedFields type).length, ob.length + 10⟩,
          ⟨w.buffer ++ ob ++ fixedFields type ++ be16 rdlength, labels⟩) ∧
      Ready (hole ++ rdlengthHole (w.buffer ++ ob).length)
        ⟨w.buffer ++ ob ++ fixedFields type ++ be16 rdlength, labels⟩ ∧ ob.length ≤ 513 ∧
      NameAt (known hole (w.buffer ++ ob)) w.buffer.length w.buffer.length ls
        (w.buffer ++ ob).length := by
  obtain ⟨ob, labels, hw, hs, hlt, hlen, hreads⟩ := writeHeader_reads h ho.writable type rdlength
  have hlen := hlen.trans ho.room_le
  have hle := h.length_le
  exact ⟨ob, labels, hw, ⟨hs, by simp; omega, hlt⟩, hlen, hreads.nameAt ho⟩

/-! ## The data of a record -/

/-- Type, class and time to live of a record from `e` on, and an RDLENGTH that leads to `stop`. -/
structure FieldsAt (m : View) (e : ℕ) (type : UInt16) (stop : ℕ) : Prop where
  type : u16 m e = some type
  class_ : u16 m (e + 2) = some 1
  ttl : u32 m (e + 4) = some 300
  rdlength : ∃ len, u16 m (e + 8) = some len ∧ stop = e + 10 + len.toNat

theorem FieldsAt.recordAt {m : View} {off e stop : ℕ} {type : UInt16} {ls : List Label} {data : RData}
    (h : FieldsAt m e type stop) (hn : NameAt m off off ls e) (hd : RDataAt m (e + 10) stop type data) :
    RecordAt m off ⟨ls, 1, 300, data⟩ stop := by
  obtain ⟨len, hlen, rfl⟩ := h.rdlength
  exact ⟨e, type, len, hn, h.type, h.class_, h.ttl, hlen, hd, rfl⟩

theorem FieldsAt.mono {m m' : View} (hm : m.Le m') {e stop : ℕ} {type : UInt16}
    (h : FieldsAt m e type stop) : FieldsAt m' e type stop where
  type := u16_mono hm h.type
  class_ := u16_mono hm h.class_
  ttl := u32_mono hm h.ttl
  rdlength := h.rdlength.imp fun _ hlen => ⟨u16_mono hm hlen.1, hlen.2⟩

theorem fieldsAt_of_parts {hole : List ℕ} {pre rb : Bytes} {type : UInt16}
    (hout : ∀ i, pre.length ≤ i → i ∉ hole) (hlen : rb.length < 65536) :
    FieldsAt (known hole (pre ++ fixedFields type ++ be16 (UInt16.ofNat rb.length) ++ rb)) pre.length type
      (pre.length + 10 + rb.length) where
  type := by
    have := u16_known (v := type)
      (c := be16 1 ++ be32 300 ++ be16 (UInt16.ofNat rb.length) ++ rb) (fun i hi _ => hout i hi)
    simpa [fixedFields, List.append_assoc] using this
  class_ := by
    have := u16_known (a := pre ++ be16 type) (v := 1)
      (c := be32 300 ++ be16 (UInt16.ofNat rb.length) ++ rb)
      (fun i hi _ => hout i (by simp at hi ⊢; omega))
    simpa [fixedFields, List.append_assoc, Nat.add_assoc] using this
  ttl := by
    have := u32_known (a := pre ++ be16 type ++ be16 1) (v := 300)
      (c := be16 (UInt16.ofNat rb.length) ++ rb)
      (fun i hi _ => hout i (by simp at hi ⊢; omega))
    simpa [fixedFields, List.append_assoc, Nat.add_assoc] using this
  rdlength := by
    have := u16_known (a := pre ++ fixedFields type)
      (v := UInt16.ofNat rb.length) (c := rb)
      (fun i hi _ => hout i (by simp at hi ⊢; omega))
    refine ⟨UInt16.ofNat rb.length, by simpa [List.append_assoc, Nat.add_assoc] using this, ?_⟩
    rw [UInt16.toNat_ofNat', Nat.mod_eq_of_lt hlen]

theorem known_le_rdlength {hole : List ℕ} {pre rb : Bytes} {type : UInt16} (old new : UInt16) :
    (known (hole ++ rdlengthHole pre.length) (pre ++ fixedFields type ++ be16 old ++ rb)).Le
      (known hole (pre ++ fixedFields type ++ be16 new ++ rb)) := by
  have h := @known_le_fill hole (pre ++ fixedFields type) rb old new
  rwa [show (pre ++ fixedFields type).length = pre.length + 8 by
    rw [List.length_append, length_fixedFields]] at h

/-- **A record put together.** Where the owner, the fixed fields and the data are stored, and RDLENGTH
is the length of the data, the whole is stored, also once RDLENGTH is no hole any more. -/
theorem recordAt_of_parts {hole : List ℕ} {pre ob rb : Bytes} {type old : UInt16} {ls : List Label}
    {data : RData} {labels : List UInt16} (hh : ∀ i ∈ hole, i < pre.length)
    (hn : NameAt (known hole (pre ++ ob)) pre.length pre.length ls (pre ++ ob).length)
    (hlen : rb.length < 65536)
    (hs : Sound (hole ++ rdlengthHole (pre ++ ob).length)
      ⟨pre ++ ob ++ fixedFields type ++ be16 old ++ rb, labels⟩)
    (hd : RDataAt (known (hole ++ rdlengthHole (pre ++ ob).length)
      (pre ++ ob ++ fixedFields type ++ be16 old ++ rb)) ((pre ++ ob).length + 10)
      ((pre ++ ob).length + 10 + rb.length) type data) :
    Sound hole ⟨pre ++ ob ++ fixedFields type ++ be16 (UInt16.ofNat rb.length) ++ rb, labels⟩ ∧
    RecordAt (known hole (pre ++ ob ++ fixedFields type ++ be16 (UInt16.ofNat rb.length) ++ rb))
      pre.length ⟨ls, 1, 300, data⟩ ((pre ++ ob).length + 10 + rb.length) := by
  have hout : ∀ i, (pre ++ ob).length ≤ i → i ∉ hole := fun i hi hm => by
    have := hh i hm
    rw [List.length_append] at hi; omega
  have hle := @known_le_rdlength hole (pre ++ ob) rb type old (UInt16.ofNat rb.length)
  have hname := hn.mono (known_le_append hole (pre ++ ob)
    (fixedFields type ++ be16 (UInt16.ofNat rb.length) ++ rb))
  exact ⟨hs.of_le hle, (fieldsAt_of_parts hout hlen).recordAt
    (by simpa only [List.append_assoc] using hname) (hd.mono hle)⟩

/-- **`x` stores the record `rec`** at the old end of the buffer; `size_` is the octets it takes. -/
def Stores (hole : List ℕ) (w : Wire) (x : Writer Written) (rec : Rfc1035.Record) : Prop :=
  ∃ (rb : Bytes) (labels : List UInt16) (written : Written),
    x w = (.ok written, ⟨w.buffer ++ rb, labels⟩) ∧ written.origLen = w.buffer.length ∧
    written.size = rb.length ∧ rb.length ≤ 2000 ∧ Sound hole ⟨w.buffer ++ rb, labels⟩ ∧
    RecordAt (known hole (w.buffer ++ rb)) w.buffer.length rec (w.buffer.length + rb.length)

/-- **`x` stores the data** of a record and returns its length. -/
def StoresData (x : Writer ℕ) (type : UInt16) (data : RData) : Prop :=
  ∀ (hole : List ℕ) (w : Wire), Ready hole w → w.buffer.length ≤ 0x3000 →
    ∃ (rb : Bytes) (labels : List UInt16), x w = (.ok rb.length, ⟨w.buffer ++ rb, labels⟩) ∧
      Sound hole ⟨w.buffer ++ rb, labels⟩ ∧ rb.length ≤ 1100 ∧
      RDataAt (known hole (w.buffer ++ rb)) w.buffer.length (w.buffer.length + rb.length) type data

variable {hole : List ℕ} {w : Wire} {o : Owner} {ls : List Label}

theorem stores_of_data {x : Writer ℕ} {type : UInt16} {data : RData} (h : Open hole w)
    (ho : OwnerMeans (StoredAt (known hole w.buffer)) o ls) (hx : StoresData x type data) :
    Stores hole w (AnswerBase.writeHeader ⟨o, type, 0⟩ >>= fun a => x >>= fun n => a.writeRdlength n)
      ⟨ls, 1, 300, data⟩ := by
  obtain ⟨ob, labels, hw, hready, hlen, hn⟩ := writeHeader_spec h ho type 0
  obtain ⟨rb, labels', hrb, hs, hrlen, hd⟩ := hx _ _ hready (by
    have := h.length_le
    simp; omega)
  have hhdr : (w.buffer ++ ob ++ fixedFields type ++ be16 0).length = (w.buffer ++ ob).length + 10 := by
    simp; omega
  simp only [hhdr] at hd
  obtain ⟨hs', hrec⟩ := recordAt_of_parts h.hole_lt hn (by omega) hs hd
  have hval : (UInt16.ofNat rb.length).toNat = rb.length := by
    rw [UInt16.toNat_ofNat']; omega
  have hpoke := Wire.poke_append (a := w.buffer ++ ob ++ fixedFields type) (x := be16 0) (c := rb)
    (y := store16 (htons (UInt16.ofNat rb.length))) rfl labels'
  refine ⟨ob ++ fixedFields type ++ be16 (UInt16.ofNat rb.length) ++ rb, labels',
    ⟨w.buffer.length, (w.buffer ++ ob ++ fixedFields type).length, ob.length + 10 + rb.length⟩,
    ?_, rfl, ?_, ?_, ?_, ?_⟩
  · rw [Proc.bind_ok hw, Proc.bind_ok hrb, Written.writeRdlength]
    simp only [List.append_assoc] at hpoke ⊢
    rw [Proc.bind_ok hpoke, Proc.pure_apply, store16_htons, hval]
  · simp; omega
  · simp; omega
  · simpa [List.append_assoc] using hs'
  · have hend : w.buffer.length + (ob ++ fixedFields type ++ be16 (UInt16.ofNat rb.length) ++
        rb).length = (w.buffer ++ ob).length + 10 + rb.length := by simp; omega
    rw [hend]
    simpa only [List.append_assoc] using hrec

theorem stores_a {ip : AddressV4} (h : Open hole w) (ho : OwnerMeans (StoredAt (known hole w.buffer)) o ls) :
    Stores hole w (ResourceRecord.a o ip).write ⟨ls, 1, 300, .a ip⟩ := by
  obtain ⟨ob, labels, hw, hready, hlen, hn⟩ := writeHeader_spec h ho 1 4
  have hhdr : (w.buffer ++ ob ++ fixedFields 1 ++ be16 4).length = (w.buffer ++ ob).length + 10 := by
    simp; omega
  have hd : RDataAt (known (hole ++ rdlengthHole (w.buffer ++ ob).length)
      (w.buffer ++ ob ++ fixedFields 1 ++ be16 4 ++ be32 ip)) ((w.buffer ++ ob).length + 10)
      ((w.buffer ++ ob).length + 10 + (be32 ip).length) 1 (.a ip) := by
    refine .a ?_ (by simp)
    rw [← hhdr, ← List.append_nil (w.buffer ++ ob ++ fixedFields 1 ++ be16 4 ++ be32 ip)]
    refine u32_known fun i hi _ hm => ?_
    have := hready.hole_lt i hm
    simp only at this
    omega
  obtain ⟨hs', hrec⟩ := recordAt_of_parts h.hole_lt hn (by simp)
    (hready.sound.of_le (known_le_append _ _ _)) hd
  rw [show be16 (UInt16.ofNat (be32 ip).length) = be16 4 from rfl] at hs' hrec
  refine ⟨ob ++ fixedFields 1 ++ be16 4 ++ be32 ip, labels,
    ⟨w.buffer.length, (w.buffer ++ ob ++ fixedFields 1).length, ob.length + 10 + 4⟩, ?_, rfl, ?_, ?_,
    ?_, ?_⟩
  · rw [ResourceRecord.write, Proc.bind_ok hw, Proc.bind_ok (Wire.append_apply _ _), Proc.pure_apply]
    simp [AddressV4.toBytes, List.append_assoc]
  · simp
  · simp; omega
  · simpa [List.append_assoc] using hs'
  · have hend : w.buffer.length + (ob ++ fixedFields 1 ++ be16 4 ++ be32 ip).length =
        (w.buffer ++ ob).length + 10 + (be32 ip).length := by simp; omega
    rw [hend]
    simpa only [List.append_assoc] using hrec

theorem storesData_name {n : Bytes} {type : UInt16} {ls : List Label} {data : RData}
    (hn : Spells 511 n ls) (hd : ∀ m off stop, NameAt m off off ls stop → RDataAt m off stop type data) :
    StoresData (writeZoneName n none) type data := by
  intro hole w h hlen
  obtain ⟨nb, labels, hw, hs, hnlen, hname⟩ := writeZoneName_spec h (by omega)
    (by rw [nameInZone_none]; exact hn)
  exact ⟨nb, labels, hw, hs, by omega, hd _ _ _ hname⟩

theorem Ready.append {w : Wire} {hole : List ℕ} (h : Ready hole w) (b : Bytes)
    (hb : (w.buffer ++ b).length ≤ 0x4000) : Ready hole ⟨w.buffer ++ b, w.labels⟩ :=
  ⟨h.sound.of_le (known_le_append _ _ _), hb, hole_lt_append h.hole_lt b⟩

theorem storesData_mx {n : Bytes} {pri : UInt16} {ls : List Label} (hn : Spells 511 n ls) :
    StoresData (writeMxData n pri) 15 (.mx pri ls) := by
  intro hole w h hlen
  have hlen2 : (w.buffer ++ be16 pri).length = w.buffer.length + 2 := by simp
  obtain ⟨nb, labels, hw, hs, hnlen, hname⟩ := writeZoneName_spec
    (h.append (be16 pri) (by omega)) (by simp only; omega) (by rw [nameInZone_none]; exact hn)
  simp only [hlen2] at hw hs hname
  refine ⟨be16 pri ++ nb, labels, ?_, by rwa [← List.append_assoc], by simp; omega, .mx ?_ ?_⟩
  · rw [writeMxData, Proc.bind_ok (Wire.append_apply _ _), store16_htons, Proc.bind_ok hw,
      Proc.pure_apply]
    simp [Nat.add_comm]
  · have := u16_known (a := w.buffer) (v := pri) (c := nb) (fun i hi _ hm => by
      have := h.hole_lt i hm; omega)
    rwa [List.append_assoc] at this
  · simpa [List.append_assoc, Nat.add_assoc] using hname

theorem storesData_soa {z : ZonePtr} {s : Soa} {n : Ns} {rest : List Ns}
    {origin ms rs : List Label} (hsoa : z.zone.soa = some s) (hns : z.zone.ns = n :: rest)
    (hz : Spells 255 z.getDomainName origin) (hm : InZone origin n.fqdn ms)
    (hr : InZone origin s.rname rs) : StoresData (writeSoaData z) 6
      (.soa ms rs s.serial s.refresh s.retry s.expire s.minimum) := by
  intro hole w h hlen
  obtain ⟨mb, labels, hmw, hms, hmlen, hmn⟩ := writeZoneName_spec h (by omega)
    (spells_nameInZone hz hm)
  have hready : Ready hole ⟨w.buffer ++ mb, labels⟩ :=
    ⟨hms, by simp; omega, hole_lt_append h.hole_lt mb⟩
  obtain ⟨rb, labels', hrw, hrs, hrlen, hrn⟩ := writeZoneName_spec hready (by simp; omega)
    (spells_nameInZone hz hr)
  have hmname : getMname z.zone = .ok n := by rw [getMname, hns]
  have hnum : s.numbers = be32 s.serial ++ be32 s.refresh ++ be32 s.retry ++ be32 s.expire ++
      be32 s.minimum := by simp only [Soa.numbers, store32_htonl]
  have hout : ∀ i, (w.buffer ++ mb ++ rb).length ≤ i → i ∉ hole := fun i hi hmem => by
    have := h.hole_lt i hmem
    simp at hi; omega
  have hnumber : ∀ (pre post : Bytes) (v : UInt32), pre ++ be32 v ++ post = s.numbers →
      u32 (known hole (w.buffer ++ mb ++ rb ++ s.numbers)) ((w.buffer ++ mb ++ rb).length + pre.length) =
        some v := fun pre post v e => by
    have := u32_known (a := w.buffer ++ mb ++ rb ++ pre) (v := v) (c := post)
      (fun i hi _ => hout i (by simp at hi ⊢; omega))
    rw [← e]
    simpa [List.append_assoc, Nat.add_assoc] using this
  refine ⟨mb ++ rb ++ s.numbers, labels', ?_, ?_, by simp [hnum]; omega, .soa (e := (w.buffer ++ mb).length)
    (f := (w.buffer ++ mb ++ rb).length) ?_ ?_ ?_ ?_ ?_ ?_ ?_ ?_⟩
  · rw [writeSoaData, Proc.bind_ok (Wire.size_apply _), hsoa]
    simp only [hmname]
    rw [Proc.bind_ok (Proc.ofExcept_apply _ _), Proc.bind_ok hmw, Proc.bind_ok hrw,
      Proc.bind_ok (Wire.append_apply _ _),
      Proc.bind_ok (Wire.size_apply _), Proc.pure_apply]
    simp [List.append_assoc]
  · simpa [List.append_assoc] using hrs.of_le (known_le_append _ _ s.numbers)
  · simpa [List.append_assoc] using hmn.mono (known_le_append _ _ (rb ++ s.numbers))
  · simpa [List.append_assoc, Nat.add_assoc] using hrn.mono (known_le_append _ _ s.numbers)
  · simpa using hnumber [] _ s.serial (by rw [hnum]; simp; rfl)
  · simpa using hnumber (be32 s.serial) _ s.refresh (by rw [hnum]; simp; rfl)
  · simpa using hnumber (be32 s.serial ++ be32 s.refresh) _ s.retry (by rw [hnum]; simp; rfl)
  · simpa using hnumber (be32 s.serial ++ be32 s.refresh ++ be32 s.retry) _ s.expire
      (by rw [hnum])
  · simpa using hnumber (be32 s.serial ++ be32 s.refresh ++ be32 s.retry ++ be32 s.expire) []
      s.minimum (by rw [hnum]; simp)
  · simp [hnum]; omega

/-- **A record that means something is stored**, whatever was stored before. -/
theorem write_spec {r : ResourceRecord} {rec : Rfc1035.Record} (h : Open hole w)
    (hr : Means (StoredAt (known hole w.buffer)) r rec) : Stores hole w r.write rec := by
  cases hr with
  | a ho => exact stores_a h ho
  | cname ho hn => exact stores_of_data h ho (storesData_name hn fun _ _ _ => .cname)
  | mx ho hn => exact stores_of_data h ho (storesData_mx hn)
  | ns ho hn => exact stores_of_data h (.name ho) (storesData_name hn fun _ _ _ => .ns)
  | soa ho h1 h2 h3 h4 h5 => exact stores_of_data h ho (storesData_soa h1 h2 h3 h4 h5)

/-! ## Storing records -/

/-- The exception `Store` raises. -/
def truncated : Fault := warThrow .truncated "Truncated reply"

theorem store_of_write {limit : Option ℕ} {r : ResourceRecord} {w w' : Wire} {a : Written}
    (h : r.write w = (.ok a, w')) : store limit r w =
      if ∃ m ∈ limit, m < w'.buffer.length then
        (.error truncated, ⟨Dns.resize w'.buffer a.origLen, w'.labels⟩)
      else (.ok a.size, w') := by
  rw [store, Proc.bind_ok h, Proc.bind_ok (Wire.size_apply _)]
  split_ifs <;> rfl

/-- **One record stored**, or taken back because it would pass the limit. -/
theorem store_spec {r : ResourceRecord} {rec : Rfc1035.Record} (h : Open hole w)
    (hr : Means (StoredAt (known hole w.buffer)) r rec) : ∃ (rb : Bytes) (labels : List UInt16),
      Sound hole ⟨w.buffer ++ rb, labels⟩ ∧
      RecordAt (known hole (w.buffer ++ rb)) w.buffer.length rec (w.buffer ++ rb).length ∧
      ∀ limit, store limit r w = if ∃ m ∈ limit, m < (w.buffer ++ rb).length then
        (.error truncated, ⟨w.buffer, labels⟩) else (.ok rb.length, ⟨w.buffer ++ rb, labels⟩) := by
  obtain ⟨rb, labels, a, hw, horig, hsize, -, hs, hrec⟩ := write_spec h hr
  refine ⟨rb, labels, hs, by rwa [List.length_append], fun limit => ?_⟩
  rw [store_of_write hw, horig, hsize]
  simp only [resize_of_le (show w.buffer.length ≤ (w.buffer ++ rb).length by simp),
    List.take_left]

/-- Store records one after the other until `Store` raises: the values of `GetSize()` for those that
were stored, what was raised, and the buffer then. -/
def storeUntil (limit : Option ℕ) : List ResourceRecord → Wire → List ℕ × Option Fault × Wire
  | [], w => ([], none, w)
  | r :: rs, w =>
    match store limit r w with
    | (.ok n, w') => (n :: (storeUntil limit rs w').1, (storeUntil limit rs w').2)
    | (.error e, w') => ([], some e, w')

theorem storeUntil_ok {limit : Option ℕ} {r : ResourceRecord} {rs : List ResourceRecord} {w w' : Wire}
    {n : ℕ} (h : store limit r w = (.ok n, w')) : storeUntil limit (r :: rs) w =
      (n :: (storeUntil limit rs w').1, (storeUntil limit rs w').2) := by
  rw [storeUntil, h]

theorem storeUntil_error {limit : Option ℕ} {r : ResourceRecord} {rs : List ResourceRecord}
    {w w' : Wire} {e : Fault} (h : store limit r w = (.error e, w')) :
    storeUntil limit (r :: rs) w = ([], some e, w') := by
  rw [storeUntil, h]

/-- Why a run of stores ended: no record was left, or the next would pass the limit; then the buffer is
as the stores before left it. -/
def Ended (limit : ℕ) (rs : List ResourceRecord) (start : Wire) (out : List ℕ × Option Fault × Wire) :
    Prop :=
  out.2.1 = none ∧ out.1.length = rs.length ∨
    ∃ r w n w', rs[out.1.length]? = some r ∧
      storeUntil (some limit) (rs.take out.1.length) start = (out.1, none, w) ∧
      out.2.1 = some truncated ∧ out.2.2.buffer = w.buffer ∧
      store none r w = (.ok n, w') ∧ w'.buffer.length = w.buffer.length + n ∧ limit < w'.buffer.length

/-- **A run of stores**: by induction, each store on top of those before it. -/
theorem storeUntil_spec {limit : ℕ} (hl : limit ≤ 0x2000) : ∀ {rs : List ResourceRecord}
    {recs : List Rfc1035.Record} {w : Wire}, Sound hole w → (∀ i ∈ hole, i < w.buffer.length) →
    w.buffer.length ≤ limit → List.Forall₂ (Means (StoredAt (known hole w.buffer))) rs recs →
    ∃ (sizes : List ℕ) (fault : Option Fault) (rb : Bytes) (labels : List UInt16),
      storeUntil (some limit) rs w = (sizes, fault, ⟨w.buffer ++ rb, labels⟩) ∧
      (w.buffer ++ rb).length ≤ limit ∧ sizes.length ≤ rs.length ∧
      Stored (RecordAt (known hole (w.buffer ++ rb))) w.buffer.length
        ((recs.take sizes.length).zip sizes) (w.buffer ++ rb).length ∧
      Ended limit rs w (sizes, fault, ⟨w.buffer ++ rb, labels⟩)
  | [], _, w, _, _, hle, .nil => by
    refine ⟨[], none, [], w.labels, by simp [storeUntil], by simpa, Nat.le_refl _, ?_, .inl ⟨rfl, rfl⟩⟩
    simpa using Stored.nil
  | r :: rs, _, w, hs, hh, hle, .cons (b := rec) hr hrs => by
    obtain ⟨rb, labels, hs', hrec, hstore⟩ := store_spec ⟨hs, by omega, hh⟩ hr
    by_cases hfit : (w.buffer ++ rb).length ≤ limit
    · have hok : store (some limit) r w = (.ok rb.length, ⟨w.buffer ++ rb, labels⟩) := by
        rw [hstore, if_neg]
        rintro ⟨m, hm, hlt⟩
        cases hm; omega
      obtain ⟨sizes, fault, rb', labels', hrun, hle', hlen, hst, hend⟩ := storeUntil_spec hl
        (w := ⟨w.buffer ++ rb, labels⟩) hs' (hole_lt_append hh rb) hfit
        (hrs.imp fun _ _ => Means.imp (StoredAt.mono (known_le_append _ _ _)))
      simp only [List.append_assoc] at hrun hle' hst hend
      refine ⟨rb.length :: sizes, fault, rb ++ rb', labels', ?_, hle', by simpa using hlen, ?_, ?_⟩
      · rw [storeUntil_ok hok, hrun]
      · have hsize : rb.length = (w.buffer ++ rb).length - w.buffer.length := by simp
        rw [List.length_cons, List.take_succ_cons, List.zip_cons_cons, hsize]
        exact .cons (by simpa [List.append_assoc] using hrec.mono (known_le_append _ _ rb')) (by simp)
          hst
      · rcases hend with ⟨hf, hl'⟩ | ⟨r', w', n, w'', hget, htake, hf, hb, hst', hn, hlt⟩
        · exact .inl ⟨hf, by simpa using hl'⟩
        · refine .inr ⟨r', w', n, w'', hget, ?_, hf, hb, hst', hn, hlt⟩
          simp only [List.length_cons, List.take_succ_cons]
          rw [storeUntil_ok hok, htake]
    · have herr : store (some limit) r w = (.error truncated, ⟨w.buffer, labels⟩) := by
        rw [hstore, if_pos ⟨limit, rfl, by omega⟩]
      refine ⟨[], some truncated, [], labels, ?_, by simpa, Nat.zero_le _, by simpa using Stored.nil,
        .inr ⟨r, w, rb.length, ⟨w.buffer ++ rb, labels⟩, rfl, rfl, rfl, by simp, ?_, by simp, by
          simp only; omega⟩⟩
      · rw [storeUntil_error herr, List.append_nil]
      · rw [hstore, if_neg (by simp)]

/-! ## The round trip -/

/-- The octets of the message header: what they hold while records are stored does not matter. -/
def headerHole : List ℕ := List.range 12

theorem not_mem_headerHole {i : ℕ} (h : 12 ≤ i) : i ∉ headerHole := by
  simp [headerHole]; omega

theorem known_headerHole_le {b hdr : Bytes} (h12 : hdr.length = 12) :
    (known headerHole b).Le (view (hdr ++ b.drop 12)) := by
  rw [← known_nil]
  refine known_le_of_agree (fun i hi => by cases hi) fun i hi _ => ?_
  have h : 12 ≤ i := by
    by_contra hlt
    exact hi (List.mem_range.mpr (by omega))
  rw [List.getElem?_append_right (by omega), List.getElem?_drop, h12, Nat.add_sub_of_le h]

theorem readRecords_of_stored {b hdr : Bytes} (h12 : hdr.length = 12) {off stop : ℕ}
    {xs : List (Rfc1035.Record × ℕ)} (h : Stored (RecordAt (known headerHole b)) off xs stop) :
    readMany (readRecord (hdr ++ b.drop 12)) xs.length off = some (xs, stop) :=
  readMany_of_stored (fun _ _ _ hr => readRecord_of_at (hr.mono (known_headerHole_le h12))) h

theorem storedAt_of_question {qs : List Rfc1035.Question} {a c : Bytes} (h12 : a.length = 12)
    (hq : ∀ q ∈ qs, Fit q.name) (hlen : (a ++ qs.flatMap encodeQuestion).length ≤ 0x4000)
    (p : UInt16) (ls : List Label) (h : QuestionOffset qs p ls) :
    StoredAt (known headerHole (a ++ qs.flatMap encodeQuestion ++ c)) p ls := by
  obtain ⟨i, q, hi, hp, rfl⟩ := h
  obtain ⟨next, hn⟩ := nameAt_question (a := a) hq
    (fun j hj => not_mem_headerHole (by omega)) hi
  have hmod : p.toNat % 0x4000 = a.length + ((qs.take i).flatMap encodeQuestion).length := by
    rw [List.length_append, encodeQuestion_split hi, List.length_append, List.length_append,
      length_encodeQuestion] at hlen
    omega
  exact ⟨next, by rw [hmod]; exact hn⟩

/-- **Round trip of the reply encoder.** After the twelve octets of the header and uncompressed
questions, records are stored one after the other until `Store` raises. Then a decoder reads the
questions, and after them exactly the records that were stored, with no octet left over; the values of
`GetSize()` are the octets they take. A store raises nothing but `Truncated`, exactly where the record
would pass the limit, and leaves the buffer as it was. -/
theorem storeUntil_decodes {hdr : Bytes} {qs : List Rfc1035.Question} {rs : List ResourceRecord}
    {recs : List Rfc1035.Record} (h12 : hdr.length = 12) (hq : ∀ q ∈ qs, Fit q.name)
    (hlen : (hdr ++ qs.flatMap encodeQuestion).length ≤ maxReplyBuffer)
    (hrs : List.Forall₂ (Means (QuestionOffset qs)) rs recs) :
    ∃ (sizes : List ℕ) (fault : Option Fault) (w : Wire),
      storeUntil (some maxReplyBuffer) rs ⟨hdr ++ qs.flatMap encodeQuestion, []⟩ = (sizes, fault, w) ∧
      w.buffer.length ≤ maxReplyBuffer ∧ w.buffer.take 12 = hdr ∧
      readMany (readQuestion w.buffer) qs.length 12 =
        some (qs.map fun q => (q, (encodeQuestion q).length),
          (hdr ++ qs.flatMap encodeQuestion).length) ∧
      readMany (readRecord w.buffer) sizes.length (hdr ++ qs.flatMap encodeQuestion).length =
        some ((recs.take sizes.length).zip sizes, w.buffer.length) ∧
      Ended maxReplyBuffer rs ⟨hdr ++ qs.flatMap encodeQuestion, []⟩ (sizes, fault, w) := by
  have hlen' : (hdr ++ qs.flatMap encodeQuestion).length ≤ 0x4000 := Nat.le_trans hlen (by decide)
  obtain ⟨sizes, fault, rb, labels, hrun, hle, hsz, hst, hend⟩ := @storeUntil_spec headerHole _
    (by decide) _ _ ⟨hdr ++ qs.flatMap encodeQuestion, []⟩ (fun l hl => by cases hl)
    (fun i hi => by simp [headerHole] at hi; simp; omega) hlen (hrs.imp fun r rec h =>
      h.imp fun p ls hp => by simpa using storedAt_of_question (c := []) h12 hq hlen' p ls hp)
  refine ⟨sizes, fault, _, hrun, hle, ?_, ?_, ?_, hend⟩
  · rw [List.append_assoc, ← h12, List.take_left]
  · have hqs := stored_questions (a := hdr) (c := rb) hq
      (fun j hj => not_mem_headerHole (by omega))
    rw [h12, ← h12] at hqs
    have hread := readMany_of_stored
      (fun i x j h => readQuestion_of_at (h.mono (known_le_view _ _))) hqs
    rw [List.length_map, h12] at hread
    rw [hread, List.length_append, h12]
  · have hread := readMany_of_stored
      (fun i x j h => readRecord_of_at (h.mono (known_le_view _ _))) hst
    have hn : ((recs.take sizes.length).zip sizes).length = sizes.length := by
      rw [List.length_zip, List.length_take, ← hrs.length_eq]; omega
    rwa [hn] at hread

/-- The zone `b` with the name server `n`. -/
def zoneB : ZonePtr :=
  ⟨{ label := [98], ns := [⟨[110]⟩], soa := some { rname := [104] } }, [], [0]⟩

/-- A record of every kind. -/
def everyKind : List ResourceRecord :=
  [.a (.namePtr 12) 1, .a (.name [98, 46]) 2, .cname 12 [99, 46], .mx 12 [109, 46, 98] 10,
    .ns [98] [110, 46, 98], .soa (.namePtr 12) zoneB]

/-- The records a decoder is to read for them. -/
def everyKindMeant : List Rfc1035.Record :=
  [⟨[[98]], 1, 300, .a 1⟩, ⟨[[98]], 1, 300, .a 2⟩, ⟨[[98]], 1, 300, .cname [[99]]⟩,
    ⟨[[98]], 1, 300, .mx 10 [[109], [98]]⟩, ⟨[[98]], 1, 300, .ns [[110], [98]]⟩,
    ⟨[[98]], 1, 300, .soa [[110], [98]] [[104], [98]] 1 7200 600 3600000 60⟩]

theorem everyKind_means : List.Forall₂ (Means (QuestionOffset [⟨[[98]], 255, 1⟩])) everyKind
    everyKindMeant := by
  have hq : OwnerMeans (QuestionOffset [⟨[[98]], 255, 1⟩]) (.namePtr 12) [[98]] :=
    .namePtr ⟨0, _, rfl, rfl, rfl⟩
  have hmname : InZone [[98]] [110] [[110], [98]] := ⟨[[110]], by decide, rfl⟩
  have hrname : InZone [[98]] [104] [[104], [98]] := ⟨[[104]], by decide, rfl⟩
  refine .cons (.a hq) (.cons (.a (.name ?_)) (.cons (.cname hq ?_) (.cons (.mx hq ?_)
    (.cons (.ns ?_ ?_) (.cons (.soa (z := zoneB) hq rfl rfl ?_ hmname hrname) .nil)))))
  all_goals decide

/-- The round trip of a record of every kind. -/
theorem storeUntil_decodes_everyKind : ∃ (sizes : List ℕ) (fault : Option Fault) (w : Wire),
    storeUntil (some maxReplyBuffer) everyKind
      ⟨List.replicate 12 0 ++ [⟨[[98]], 255, 1⟩].flatMap encodeQuestion, []⟩ = (sizes, fault, w) ∧
    readMany (readRecord w.buffer) sizes.length 19 =
      some ((everyKindMeant.take sizes.length).zip sizes, w.buffer.length) := by
  obtain ⟨sizes, fault, w, hrun, -, -, -, hread, -⟩ := @storeUntil_decodes
    (List.replicate 12 0) _ _ _ rfl (by decide) (by decide) everyKind_means
  exact ⟨sizes, fault, w, hrun, hread⟩

end VUbercool.Dns
