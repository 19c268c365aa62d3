import VUbercool.Dns.Encoder
import VUbercool.Lib.Encode

/-!
# Compression does not make replies longer

* `ResourceRecord.room`: the octets a record takes where no name is compressed.
* `write_within`: `Write` takes no more, whatever the buffer and its labels are.
* `room_le_encode`: these are the octets of the record that it means.
* `storeUntil_plain`: without a limit, such records are stored.
* `Ended.le_of_plain`: records are stored at least as long as they would fit without compression.
-/

namespace VUbercool.Dns

open Octets Rfc1035 Proc

/-! ## The buffer grows by so much at most -/

/-- The buffer has `n` octets at most. -/
def AtMost (n : ℕ) (w : Wire) : Prop := w.buffer.length ≤ n

variable {n m : ℕ} {E : Fault → Wire → Prop}

theorem AtMost.mono {w : Wire} (h : AtMost n w) (hm : n ≤ m) : AtMost m w := Nat.le_trans h hm

namespace Wire

theorem size_within : Triple (AtMost n) size (fun k w => AtMost n w ∧ k ≤ n) E := fun _ h =>
  ⟨fun _ _ h' => (by cases h'; exact ⟨h, h⟩), fun _ _ h' => by cases h'⟩

theorem append_within (octets : Bytes) :
    Triple (AtMost n) (append octets) (fun _ => AtMost (n + octets.length)) E :=
  .modify fun w h => by
    have h : w.buffer.length ≤ n := h
    simp only [AtMost, List.length_append]
    omega

theorem resize_within (k : ℕ) : Triple (AtMost n) (resize k) (fun _ => AtMost k) E :=
  .modify fun w _ => by simp [AtMost]

theorem poke_within {p : ℕ} {octets : Bytes} (hp : p + octets.length ≤ n) :
    Triple (AtMost n) (poke p octets) (fun _ => AtMost n) E :=
  .modify fun w h => by
    have h : w.buffer.length ≤ n := h
    simp only [AtMost, List.length_append, List.length_take, List.length_drop]
    omega

end Wire

/-! ## Names -/

/-- The octets of a name that is written out. -/
def nameRoom (name : Bytes) : ℕ := (encodeName (toFraments name)).length

theorem searchLoop_lt {b : Bytes} {frags : List Bytes} {found : Option (ℕ × UInt16)} :
    ∀ {labels : List UInt16} {z : Option (ℕ × UInt16)}, (∀ x ∈ z, x.1 < frags.length) →
      searchLoop b frags labels z = .ok found → ∀ x ∈ found, x.1 < frags.length
  | [], z, hz, h => by
    cases h
    exact hz
  | label :: labels, z, hz, h => by
    obtain ⟨r, -, h⟩ := exists_of_bind_ok h
    split_ifs at h with hin h0
    · cases h
      intro x hx
      cases hx
      omega
    · refine searchLoop_lt (fun x hx => ?_) h
      cases hx
      omega
    · exact searchLoop_lt hz h

theorem length_pushFrags_take {frags : List Bytes} {i : ℕ} (hi : i < frags.length) :
    (pushFrags (frags.take i)).length + 1 ≤ (pushFrags frags).length := by
  have hsplit : pushFrags frags = pushFrags (frags.take i) ++ pushFrags (frags.drop i) := by
    rw [pushFrags, pushFrags, pushFrags, ← List.flatMap_append, List.take_append_drop]
  have hdrop : 1 ≤ (pushFrags (frags.drop i)).length := by
    rw [List.drop_eq_getElem_cons hi, pushFrags, List.flatMap_cons, List.length_append, List.length_cons]
    omega
  rw [hsplit, List.length_append]
  omega

section

variable (hE : ∀ e w, E e w)

include hE

theorem addLabel_within (offset : UInt16) :
    Triple (AtMost n) (addLabel offset) (fun _ => AtMost n) E :=
  .bind .get fun _ => .bind (.ofExcept fun e w _ => hE e w) fun _ => .modify fun _ h => h

theorem writeDomainName_within (name : Bytes) :
    Triple (AtMost n) (writeDomainName name) (fun _ => AtMost (n + nameRoom name)) E := by
  have hroom : nameRoom name = (pushFrags (toFraments name)).length + 1 := by
    rw [nameRoom, length_encodeName, pushFrags_eq]
  have hend : ∀ octets : Bytes, octets.length ≤ nameRoom name → ∀ k,
      Triple (AtMost n) (Wire.append octets >>= fun _ => Wire.size >>= fun size => pure (size - k))
        (fun _ => AtMost (n + nameRoom name)) E := by
    intro octets hlen k
    have happend : Triple (AtMost n) (Wire.append octets) (fun _ => AtMost (n + octets.length)) E :=
      Wire.append_within octets
    refine happend.bind fun _ => .bind Wire.size_within fun size => .pure fun w h => h.1.mono ?_
    exact Nat.add_le_add_left hlen n
  intro w hw
  rw [writeDomainName, bind_ok (get_apply w)]
  cases hfound : searchForDomainName w.buffer (toFraments name) w.labels with
  | error e =>
    rw [bind_error (ofExcept_apply _ w)]
    exact ⟨fun _ _ h => (by cases h), fun _ _ h => by cases h; exact hE _ _⟩
  | ok found =>
    rw [bind_ok (ofExcept_apply _ w)]
    cases found with
    | none =>
      refine hend _ ?_ _ w hw
      rw [hroom, List.length_append, List.length_singleton]
    | some best =>
      refine hend _ ?_ _ w hw
      have hlt := searchLoop_lt (by simp) hfound best rfl
      have := length_pushFrags_take hlt
      rw [hroom, List.length_append, store16]
      simp only [List.length_cons, List.length_nil]
      omega

theorem writeZoneName_within (name : Bytes) (zone : Option ZonePtr) :
    Triple (AtMost n) (writeZoneName name zone) (fun _ => AtMost (n + nameRoom (nameInZone name zone))) E :=
  Triple.bind Wire.size_within fun _ => .of_and fun _ => .bind (writeDomainName_within hE _) fun _ =>
    .bind (addLabel_within hE _) fun _ => .bind Wire.size_within fun _ => .pure fun _ h => h.1

theorem writeName_within (name : Bytes) :
    Triple (AtMost n) (writeZoneName name none) (fun _ => AtMost (n + nameRoom name)) E := by
  have hname := @writeZoneName_within n E hE name none
  rwa [nameInZone_none] at hname

end

/-! ## Records -/

/-- The octets of the data of an `SOA` record. -/
def soaRoom (z : ZonePtr) : ℕ :=
  (z.zone.ns.head?.elim 0 fun n => nameRoom (nameInZone n.fqdn (some z))) +
    (z.zone.soa.elim 0 fun s => nameRoom (nameInZone s.rname (some z))) + 20

/-- **The octets of a record** whose names are written out. -/
def ResourceRecord.room : ResourceRecord → ℕ
  | .a owner _ => owner.room + 10 + 4
  | .cname _ name => 2 + 10 + nameRoom name
  | .mx _ fqdn _ => 2 + 10 + (2 + nameRoom fqdn)
  | .ns domain fdqn => (Owner.name domain).room + 10 + nameRoom fdqn
  | .soa owner zone => owner.room + 10 + soaRoom zone

section

variable (hE : ∀ e w, E e w)

include hE

theorem writeOwner_within (o : Owner) :
    Triple (AtMost n) (writeOwner o) (fun p w => AtMost (n + o.room + 10) w ∧ p + 10 ≤ n + o.room + 10)
      E := by
  have hend : ∀ p, p ≤ n + o.room → Triple (AtMost (n + o.room)) (Wire.resize (p + 10) >>= fun _ => pure p)
      (fun p w => AtMost (n + o.room + 10) w ∧ p + 10 ≤ n + o.room + 10) E := fun p hp =>
    .bind (Wire.resize_within _) fun _ => .pure fun w h => ⟨h.mono (by omega), by omega⟩
  cases o with
  | namePtr namePtr =>
    refine .bind Wire.size_within fun p => .of_and fun hp => ?_
    refine .bind (Wire.resize_within (p + 12)) fun _ => ?_
    refine .bind (Wire.poke_within (by simp [store16])) fun _ => ?_
    refine .bind (addLabel_within hE _) fun _ => ?_
    refine .pure fun w h => ⟨h.mono ?_, ?_⟩
    · simp only [Owner.room]
      omega
    · simp only [Owner.room]
      omega
  | name name =>
    have hsize : ∀ k, k ≤ n + (Owner.name name).room → Triple (AtMost k)
        (Wire.size >>= fun p => Wire.resize (p + 10) >>= fun _ => pure p)
        (fun p w => AtMost (n + (Owner.name name).room + 10) w ∧
          p + 10 ≤ n + (Owner.name name).room + 10) E := fun k hk =>
      .bind Wire.size_within fun p => .of_and fun hp w hw => hend p (by omega) w (hw.mono hk)
    rw [writeOwner]
    split
    · refine .bind (writeName_within hE name) fun _ => hsize _ ?_
      rw [nameRoom, length_encodeName, Owner.room]
    · exact hsize n (Nat.le_add_right ..)

theorem writeHeader_within (a : AnswerBase) :
    Triple (AtMost n) a.writeHeader (fun r w => AtMost (n + a.owner.room + 10) w ∧
      r.rdlengthHdr + 2 ≤ n + a.owner.room + 10) E := by
  refine .bind Wire.size_within fun origLen => .of_and fun _ => ?_
  refine .bind (writeOwner_within hE a.owner) fun p => .of_and fun hp => ?_
  refine .bind (Wire.poke_within ?_) fun _ => ?_
  · simp only [store16, store32, List.length_append, List.length_cons, List.length_nil]
    omega
  refine .bind Wire.size_within fun k => .of_and fun hk => ?_
  refine .bind (Wire.poke_within ?_) fun _ => .pure fun w h => ⟨h, ?_⟩
  · simp only [store16, List.length_cons, List.length_nil]
    omega
  · simp only
    omega

theorem writeSoaData_within (z : ZonePtr) :
    Triple (AtMost n) (writeSoaData z) (fun _ => AtMost (n + soaRoom z)) E := by
  refine .bind Wire.size_within fun origSize => .of_and fun _ w hw => ?_
  cases hsoa : z.zone.soa with
  | none => exact ⟨fun _ _ h => (by cases h), fun e w' _ => hE e w'⟩
  | some s =>
    dsimp only
    cases hns : z.zone.ns with
    | nil =>
      rw [getMname, hns, bind_error (ofExcept_apply _ w)]
      exact ⟨fun _ _ h => (by cases h), fun e w' _ => hE e w'⟩
    | cons mname rest =>
      have hroom : soaRoom z = nameRoom (nameInZone mname.fqdn (some z)) +
          nameRoom (nameInZone s.rname (some z)) + 20 := by
        rw [soaRoom, hns, hsoa]
        rfl
      have hnumbers : s.numbers.length = 20 := by
        simp only [Soa.numbers, store32_htonl, List.length_append, length_be32]
      rw [getMname, hns, bind_ok (ofExcept_apply _ w)]
      have hrest : Triple (AtMost n) (writeZoneName mname.fqdn (some z) >>= fun _ =>
          writeZoneName s.rname (some z) >>= fun _ => Wire.append s.numbers >>= fun _ =>
          Wire.size >>= fun size => pure (size - origSize)) (fun _ => AtMost (n + soaRoom z)) E := by
        refine .bind (writeZoneName_within hE _ _) fun _ => .bind (writeZoneName_within hE _ _) fun _ => ?_
        refine .bind (Wire.append_within _) fun _ => .bind Wire.size_within fun _ => ?_
        refine .pure fun w' h => h.1.mono ?_
        rw [hroom, hnumbers]
        omega
      exact hrest w hw

/-- **A record takes its octets** at most. -/
theorem write_within (r : ResourceRecord) :
    Triple (AtMost n) r.write (fun _ => AtMost (n + r.room)) E := by
  have hlength : ∀ (a : Written) {k k' : ℕ} (len : ℕ), a.rdlengthHdr + 2 ≤ k → k ≤ k' →
      Triple (AtMost k) (a.writeRdlength len) (fun _ => AtMost k') E := fun a k k' len ha hk =>
    .bind (Wire.poke_within (by simpa [store16] using ha)) fun _ => .pure fun w h => h.mono hk
  have hrecord : ∀ (x : Writer ℕ) (base : AnswerBase) (room : ℕ),
      (∀ k, Triple (AtMost k) x (fun _ => AtMost (k + room)) E) → Triple (AtMost n)
        (base.writeHeader >>= fun a => x >>= fun len => a.writeRdlength len)
        (fun _ => AtMost (n + (base.owner.room + 10 + room))) E := fun x base room hx =>
    .bind (writeHeader_within hE base) fun a => .of_and fun ha => .bind (hx _) fun len =>
      hlength a len (by omega) (by omega)
  cases r with
  | a owner ip =>
    refine .bind (writeHeader_within hE _) fun a => .of_and fun _ => ?_
    refine .bind (Wire.append_within _) fun _ => .pure fun w h => h.mono ?_
    simp only [AddressV4.toBytes, length_be32, ResourceRecord.room]
    omega
  | cname namePtr name =>
    exact hrecord _ ⟨.namePtr namePtr, 5, 0⟩ (nameRoom name) fun k => writeName_within hE name
  | mx namePtr fqdn pri =>
    refine hrecord _ ⟨.namePtr namePtr, 15, 0⟩ (2 + nameRoom fqdn) fun k => ?_
    refine .bind (Wire.append_within _) fun _ => .bind (writeName_within hE fqdn) fun _ =>
      .pure fun w h => h.mono ?_
    rw [store16, List.length_cons, List.length_cons, List.length_nil]
    omega
  | ns domain fdqn => exact hrecord _ ⟨.name domain, 2, 0⟩ (nameRoom fdqn) fun k => writeName_within hE fdqn
  | soa owner zone => exact hrecord _ ⟨owner, 6, 0⟩ (soaRoom zone) fun k => writeSoaData_within hE zone

end

/-! ## The records that are meant -/

theorem nameRoom_eq {most : ℕ} {name : Bytes} {ls : List Label} (h : Spells most name ls) :
    nameRoom name = (encodeName ls).length := by
  rw [nameRoom, toFraments_of_spells h]

section

variable {at_ : UInt16 → List Label → Prop} (hne : ∀ p ls, at_ p ls → ls ≠ [])

include hne

theorem OwnerMeans.room_le_encode {o : Owner} {ls : List Label} (h : OwnerMeans at_ o ls) :
    o.room ≤ (encodeName ls).length := by
  cases h with
  | namePtr hp =>
    obtain ⟨l, ls, rfl⟩ := List.exists_cons_of_ne_nil (hne _ _ hp)
    simp only [Owner.room, length_encodeName, encodeLabels, List.length_append, List.length_cons]
    omega
  | name hsp => rw [Owner.room, toFraments_of_spells hsp, length_encodeName]

/-- **A record takes no more octets than the one that it means.** -/
theorem room_le_encode {r : ResourceRecord} {rec : Rfc1035.Record} (h : Means at_ r rec) :
    r.room ≤ rec.encode.length := by
  rw [Record.length_encode]
  cases h with
  | a ho =>
    have := ho.room_le_encode hne
    simp only [ResourceRecord.room, RData.encode, length_be32]
    omega
  | cname ho hn =>
    have := ho.room_le_encode hne
    simp only [ResourceRecord.room, RData.encode, nameRoom_eq hn]
    simp only [Owner.room] at this
    omega
  | mx ho hn =>
    have := ho.room_le_encode hne
    simp only [ResourceRecord.room, RData.encode, nameRoom_eq hn, List.length_append, length_be16]
    simp only [Owner.room] at this
    omega
  | ns hd hn =>
    simp only [ResourceRecord.room, RData.encode, nameRoom_eq hn, Owner.room, toFraments_of_spells hd,
      length_encodeName]
    omega
  | soa ho hsoa hns hz hm hr =>
    have := ho.room_le_encode hne
    simp only [ResourceRecord.room, soaRoom, hsoa, hns, List.head?_cons, Option.elim_some,
      nameRoom_eq (spells_nameInZone hz hm), nameRoom_eq (spells_nameInZone hz hr), RData.encode,
      List.length_append, length_be32]
    omega

end

/-! ## Runs of stores -/

/-- The octets of some records. -/
def roomOf (rs : List ResourceRecord) : ℕ := (rs.map ResourceRecord.room).sum

theorem roomOf_take_le (rs : List ResourceRecord) {i j : ℕ} (h : i ≤ j) :
    roomOf (rs.take i) ≤ roomOf (rs.take j) := by
  obtain ⟨k, rfl⟩ := Nat.exists_eq_add_of_le h
  rw [List.take_add, roomOf, roomOf, List.map_append, List.sum_append]
  exact Nat.le_add_right ..

theorem store_room {limit : Option ℕ} {r : ResourceRecord} {w w' : Wire} {size : ℕ}
    (h : store limit r w = (.ok size, w')) : w'.buffer.length ≤ w.buffer.length + r.room := by
  obtain ⟨a, w₁, hwrite, -⟩ := bind_eq_ok h
  have hlen : w₁.buffer.length ≤ w.buffer.length + r.room :=
    (write_within (E := fun _ _ => True) (fun _ _ => trivial) r w (Nat.le_refl w.buffer.length)).1 a w₁
      hwrite
  rw [store_of_write hwrite] at h
  split_ifs at h
  · cases h
  · cases h
    exact hlen

theorem storeUntil_room {limit : Option ℕ} : ∀ {rs : List ResourceRecord} {w w' : Wire} {sizes : List ℕ},
    storeUntil limit rs w = (sizes, none, w') → w'.buffer.length ≤ w.buffer.length + roomOf rs
  | [], _, _, _, h => by
    cases h
    exact Nat.le_add_right ..
  | r :: rs, w, _, _, h => by
    rcases hs : store limit r w with ⟨e | size, w₁⟩
    · rw [storeUntil_error hs] at h
      cases h
    · obtain ⟨sizes', fault', w', hu⟩ : ∃ sizes' fault' w', storeUntil limit rs w₁ = (sizes', fault', w') :=
        ⟨_, _, _, rfl⟩
      rw [storeUntil_ok hs, hu] at h
      cases h
      have hone := store_room hs
      have hrest := storeUntil_room hu
      rw [roomOf, List.map_cons, List.sum_cons]
      rw [roomOf] at hrest
      omega

/-- **Records that stay in reach of a pointer without compression are stored** where there is no limit. -/
theorem storeUntil_plain {hole : List ℕ} : ∀ {rs : List ResourceRecord} {recs : List Rfc1035.Record}
    {w : Wire}, Sound hole w → (∀ i ∈ hole, i < w.buffer.length) →
    List.Forall₂ (Means (StoredAt (known hole w.buffer))) rs recs →
    w.buffer.length + roomOf rs ≤ 0x2000 → ∃ sizes w', storeUntil none rs w = (sizes, none, w')
  | [], _, w, _, _, .nil, _ => ⟨[], w, rfl⟩
  | r :: rs, _, w, hs, hh, .cons hr hrs, hroom => by
    rw [roomOf, List.map_cons, List.sum_cons, ← roomOf] at hroom
    obtain ⟨rb, labels, hs', -, hstore⟩ := store_spec ⟨hs, by omega, hh⟩ hr
    have hnone : store none r w = (.ok rb.length, ⟨w.buffer ++ rb, labels⟩) := by
      rw [hstore, if_neg (by simp)]
    have hlen : (w.buffer ++ rb).length ≤ w.buffer.length + r.room := store_room hnone
    obtain ⟨sizes, w', hrun⟩ := storeUntil_plain hs' (hole_lt_append hh rb)
      (hrs.imp fun _ _ => Means.imp (StoredAt.mono (known_le_append _ _ _)))
      (by simp only at hlen ⊢; omega)
    exact ⟨_, w', by rw [storeUntil_ok hnone, hrun]⟩

/-- **Records that fit without compression are stored.** -/
theorem Ended.le_of_plain {limit i : ℕ} {rs : List ResourceRecord} {start : Wire}
    {out : List ℕ × Option Fault × Wire} (h : Ended limit rs start out) (hi : i ≤ rs.length)
    (hfits : start.buffer.length + roomOf (rs.take i) ≤ limit) : i ≤ out.1.length := by
  obtain ⟨-, hall⟩ | ⟨r, w, size, w', hget, hrun, -, -, hstore, -, hlt⟩ := h
  · exact hall ▸ hi
  · by_contra hno
    have hbefore := storeUntil_room hrun
    have hnext := store_room hstore
    have hsum : roomOf (rs.take (out.1.length + 1)) = roomOf (rs.take out.1.length) + r.room := by
      rw [List.take_add_one, hget, roomOf, roomOf, List.map_append, List.sum_append]
      simp
    have hle := roomOf_take_le rs (Nat.lt_of_not_le hno)
    rw [hsum] at hle
    omega

end VUbercool.Dns
