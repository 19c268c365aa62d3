import VUbercool.Dns.Searches
import VUbercool.Dns.Search
import VUbercool.Dns.Glue

/-!
# Every search is total

`ReverseCompare` checks neither bounds nor loops. Whatever the server is asked, at every call of
`SearchForDomainName` the listed offsets stand for names in the reply buffer, so it need not.

* `Search.Total`: what holds at a call. `ShortForest`: which zones there may be.
* `repeats_write`: the searches of one record. `Fitting`: the records the server writes.
* `Midway`, `searches_answer`: what holds between records.
* `search_total`: **every search of a round of the receive loop is total**.
-/

namespace VUbercool.Dns

open Octets Rfc1035 Proc

/-! ## Searches -/

/-- **A search that is total.** Every listed offset lies in the buffer and starts a name there, whose
pointers each lead to a smaller offset, and which ends in the buffer. `ReverseCompare` on it goes no
deeper than the buffer has octets, and reads nothing outside; so the search returns. -/
structure Search.Total (c : Search) : Prop where
  starts : ∀ l ∈ c.wire.labels, l.toNat % 0x4000 < c.wire.buffer.length ∧ ∃ ls next,
    NameAt (view c.wire.buffer) (l.toNat % 0x4000) (l.toNat % 0x4000) ls next ∧
      next ≤ c.wire.buffer.length
  compares : ∀ l ∈ c.wire.labels, ∀ depth, c.wire.buffer.length ≤ depth →
    ∃ r, reverseCompare c.wire.buffer c.frags depth l (-1) 0 = .ok r
  returns : ∃ found, searchForDomainName c.wire.buffer c.frags c.wire.labels = .ok found

/-- A reply buffer of at most `n` octets whose label list is sound. -/
def SoundUpTo (n : ℕ) (w : Wire) : Prop :=
  ∃ hole, Sound hole w ∧ (∀ i ∈ hole, i < w.buffer.length) ∧ w.buffer.length ≤ n

variable {n most : ℕ} {w w' : Wire}

theorem SoundUpTo.total (h : SoundUpTo n w) (hn : n < 0x4000) (frags : List Bytes) :
    Search.Total ⟨w, frags⟩ := by
  obtain ⟨hole, hs, -, hle⟩ := h
  have hsize : ∀ i c, view w.buffer i = some c → i < w.buffer.length := fun i c hc =>
    (List.getElem?_eq_some_iff.mp hc).1
  have hname : ∀ l ∈ w.labels, ∃ ls next,
      NameAt (view w.buffer) (l.toNat % 0x4000) (l.toNat % 0x4000) ls next := fun l hl => by
    obtain ⟨ls, next, hn⟩ := hs l hl
    exact ⟨ls, next, hn.mono (known_le_view _ _)⟩
  refine ⟨fun l hl => ?_, fun l hl depth hdepth => ?_, ?_⟩
  · obtain ⟨ls, next, hn⟩ := hname l hl
    obtain ⟨c, hc⟩ := hn.some_of
    exact ⟨hsize _ _ hc, ls, next, hn, hn.next_le hsize⟩
  · obtain ⟨ls, next, hn⟩ := hname l hl
    obtain ⟨steps, hsteps⟩ := hn.decodes
    have hlt := hsteps.lt_size hsize
    obtain ⟨r, hr, -⟩ := reverseCompare_exact (fun _ _ h => h)
      (fun i c hc => (hsize i c hc).trans_le (by omega)) hsteps rfl (hlt.trans_le hdepth) 0
    exact ⟨r, hr⟩
  · obtain ⟨found, hfound, -⟩ := searchLoop_spec (z := none) (fun _ _ h => h)
      (show w.buffer.length ≤ 0x4000 by omega) hname (by simp)
    exact ⟨found, hfound⟩

theorem SoundUpTo.append (h : SoundUpTo n w) (b : Bytes) :
    SoundUpTo (n + b.length) ⟨w.buffer ++ b, w.labels⟩ := by
  obtain ⟨hole, hs, hh, hle⟩ := h
  refine ⟨hole, hs.of_le (known_le_append _ _ _), hole_lt_append hh b, ?_⟩
  rw [List.length_append]
  omega

/-! ## Names -/

/-- A name of at most `most` octets whose labels have at most 63. Any of them may be empty. -/
structure ShortName (most : ℕ) (n : Bytes) : Prop where
  short : Short (toFraments n)
  length_le : n.length ≤ most

instance (most : ℕ) (n : Bytes) : Decidable (ShortName most n) :=
  decidable_of_iff (Short (toFraments n) ∧ n.length ≤ most) ⟨fun h => ⟨h.1, h.2⟩, fun h => ⟨h.1, h.2⟩⟩

theorem ShortName.mono {most' : ℕ} {n : Bytes} (h : ShortName most n) (hle : most ≤ most') :
    ShortName most' n := ⟨h.short, h.length_le.trans hle⟩

theorem ShortName.append {most' : ℕ} {n n' : Bytes} (h : ShortName most n) (h' : ShortName most' n') :
    ShortName (most + most' + 1) (n ++ dot :: n') := by
  refine ⟨short_toFraments_append h.short h'.short, ?_⟩
  have := h.length_le
  have := h'.length_le
  simp only [List.length_append, List.length_cons]
  omega

/-- Writing a short name leaves a sound buffer. -/
theorem SoundUpTo.writeZoneName {name : Bytes} {zone : Option ZonePtr} {k : ℕ} (h : SoundUpTo n w)
    (hn : n < 0x4000) (hname : ShortName most (nameInZone name zone))
    (hrun : writeZoneName name zone w = (.ok k, w')) : SoundUpTo (n + most + 2) w' := by
  obtain ⟨hole, hs, hh, hle⟩ := h
  obtain ⟨nb, labels, hw, hs', hlen, -⟩ := writeZoneName_reads ⟨hs, by omega, hh⟩ (by omega) hname.short
  have hbytes := length_encodeLabels_toFraments (nameInZone name zone)
  have hmost := hname.length_le
  rw [hrun] at hw
  cases hw
  refine ⟨hole, hs', hole_lt_append hh nb, ?_⟩
  rw [List.length_append]
  omega

/-! ## The searches of a record -/

theorem repeats_writeZoneName (h : SoundUpTo n w) (hn : n < 0x4000) (name : Bytes) (zone : Option ZonePtr) :
    Repeats Search.Total (Logged.writeZoneName name zone) (writeZoneName name zone) w := by
  unfold Logged.writeZoneName writeZoneName
  refine (Repeats.onFst _ w).bind fun start w₁ hsize => ?_
  cases hsize
  have hsearch : Repeats Search.Total (Logged.writeDomainName (nameInZone name zone))
      (writeDomainName (nameInZone name zone)) w := .note (h.total hn _) (.onFst _ w)
  exact hsearch.bind fun _ _ _ => (Repeats.onFst _ _).bind fun _ _ _ =>
    (Repeats.onFst _ _).bind fun _ _ _ => .pure _ _

theorem repeats_writeOwner (h : SoundUpTo n w) (hn : n < 0x4000) (o : Owner) :
    Repeats Search.Total (Logged.writeOwner o) (writeOwner o) w := by
  cases o with
  | namePtr p =>
    unfold Logged.writeOwner
    exact .onFst _ w
  | name name =>
    unfold Logged.writeOwner writeOwner
    by_cases hname : (!name.isEmpty) = true
    · simp only [hname, if_true]
      exact (repeats_writeZoneName h hn name none).bind fun _ _ _ => (Repeats.onFst _ _).bind fun _ _ _ =>
        (Repeats.onFst _ _).bind fun _ _ _ => .pure _ _
    · simp only [hname]
      exact (Repeats.onFst _ _).bind fun _ _ _ => (Repeats.onFst _ _).bind fun _ _ _ => .pure _ _

theorem repeats_writeHeader (h : SoundUpTo n w) (hn : n < 0x4000) (a : AnswerBase) :
    Repeats Search.Total (Logged.writeHeader a) a.writeHeader w := by
  unfold Logged.writeHeader AnswerBase.writeHeader
  refine (Repeats.onFst _ w).bind fun size w₁ hsize => ?_
  cases hsize
  exact (repeats_writeOwner h hn a.owner).bind fun _ _ _ => (Repeats.onFst _ _).bind fun _ _ _ =>
    (Repeats.onFst _ _).bind fun _ _ _ => (Repeats.onFst _ _).bind fun _ _ _ => .pure _ _

theorem repeats_writeMxData (h : SoundUpTo n w) (hn : n + 2 < 0x4000) (fqdn : Bytes) (pri : UInt16) :
    Repeats Search.Total (Logged.writeMxData fqdn pri) (writeMxData fqdn pri) w := by
  unfold Logged.writeMxData writeMxData
  refine (Repeats.onFst _ w).bind fun _ w₁ happend => ?_
  cases happend
  have hw := h.append (store16 (htons pri))
  exact (repeats_writeZoneName hw hn fqdn none).bind fun _ _ _ => .pure _ _

theorem repeats_writeSoaData {z : ZonePtr} (h : SoundUpTo n w) (hn : n + 513 < 0x4000)
    (hz : ∀ ns ∈ z.zone.ns.head?, ShortName 511 (nameInZone ns.fqdn (some z))) :
    Repeats Search.Total (Logged.writeSoaData z) (writeSoaData z) w := by
  unfold Logged.writeSoaData writeSoaData
  refine (Repeats.onFst _ w).bind fun size w₁ hsize => ?_
  cases hsize
  cases z.zone.soa with
  | none => exact .raise _ w
  | some s =>
    refine (Repeats.onFst _ w).bind fun mname w₁ hmname => ?_
    rw [ofExcept_apply] at hmname
    obtain ⟨hget, rfl⟩ := Prod.mk.inj hmname
    have hhead : z.zone.ns.head? = some mname := by
      unfold getMname at hget
      split at hget
      · next ns rest hns => rw [hns, ← Except.ok.inj hget]; rfl
      · cases hget
    refine (repeats_writeZoneName h (by omega) mname.fqdn (some z)).bind fun _ w₁ hrun => ?_
    have hw₁ := h.writeZoneName (by omega) (hz mname hhead) hrun
    exact (repeats_writeZoneName hw₁ hn s.rname (some z)).bind fun _ _ _ =>
      (Repeats.onFst _ _).bind fun _ _ _ => (Repeats.onFst _ _).bind fun _ _ _ => .pure _ _

/-! ## Records -/

/-- The names a record is written with. -/
def Owner.names : Owner → List Bytes
  | .namePtr _ => []
  | .name n => [n]

def ResourceRecord.names : ResourceRecord → List Bytes
  | .a o _ => o.names
  | .cname _ n => [n]
  | .mx _ n _ => [n]
  | .ns d n => [d, n]
  | .soa o z => o.names ++ (z.zone.ns.head?.toList.map fun ns => nameInZone ns.fqdn (some z)) ++
      z.zone.soa.toList.map fun s => nameInZone s.rname (some z)

/-- **A record the server writes**, where `m` shows what the reply begins with: a name is stored at the
offset of its owner, and the names it is written with are short, one of an entry with that of its zone. -/
structure Fitting (m : View) (r : ResourceRecord) : Prop where
  offset : ∀ p, r.owner = .namePtr p → ∃ ls, StoredAt m p ls
  names : ∀ n ∈ r.names, ShortName 511 n

variable {m m' : View} {r : ResourceRecord} {hole : List ℕ} {o : Owner}

theorem Fitting.mono (hm : m.Le m') (h : Fitting m r) : Fitting m' r :=
  ⟨fun p hp => (h.offset p hp).imp (StoredAt.mono hm p), h.names⟩

theorem mem_names_of_owner {n : Bytes} (h : r.owner = .name n) : n ∈ r.names := by
  cases r with
  | a o ip =>
    cases h
    exact List.mem_singleton_self n
  | cname p k => cases h
  | mx p k pri => cases h
  | ns d k =>
    cases h
    exact List.mem_cons_self
  | soa o z =>
    cases h
    exact List.mem_append_left _ (List.mem_append_left _ (List.mem_singleton_self n))

theorem Fitting.writable (h : Fitting m r) : r.owner.Writable m ∧ r.owner.room ≤ 513 := by
  cases ho : r.owner with
  | namePtr p => exact ⟨h.offset p ho, (by decide : 2 ≤ 513)⟩
  | name n =>
    have hn := h.names n (mem_names_of_owner ho)
    have hbytes := length_encodeLabels_toFraments n
    have hlen := hn.length_le
    exact ⟨hn.short, show _ + 1 ≤ 513 by omega⟩

theorem Fitting.mname {z : ZonePtr} (h : Fitting m (.soa o z)) :
    ∀ ns ∈ z.zone.ns.head?, ShortName 511 (nameInZone ns.fqdn (some z)) := fun ns hns =>
  h.names _ (List.mem_append_left _ (List.mem_append_right _ (List.mem_map_of_mem (by simpa using hns))))

theorem Fitting.storable (h : Fitting m r) : Storable m r := by
  refine ⟨h.writable.1, ?_, ?_⟩
  · cases r with
    | a => trivial
    | cname p n => exact (h.names n (List.mem_singleton_self n)).short
    | mx p n pri => exact (h.names n (List.mem_singleton_self n)).short
    | ns d n => exact (h.names n (List.mem_cons_of_mem d (List.mem_singleton_self n))).short
    | soa o z => exact fun ns hns => (h.mname ns hns).short
  · cases r with
    | soa o z =>
      intro s hs
      refine (h.names _ (List.mem_append_right _ (List.mem_map_of_mem ?_))).short
      simpa using hs
    | _ => trivial

theorem Open.soundUpTo (h : Open hole w) : SoundUpTo 0x2000 w := ⟨hole, h.sound, h.hole_lt, h.length_le⟩

/-- Writing the header leaves a sound buffer: 513 octets for the owner, ten for what follows it. -/
theorem Open.writeHeader {type rdlength : UInt16} {a : Written} (h : Open hole w)
    (ho : o.Writable (known hole w.buffer)) (hroom : o.room ≤ 513)
    (hrun : AnswerBase.writeHeader ⟨o, type, rdlength⟩ w = (.ok a, w')) : SoundUpTo (0x2000 + 523) w' := by
  obtain ⟨ob, labels, hw, hs, hh, hlen, -⟩ := writeHeader_reads h ho type rdlength
  have hle := h.length_le
  rw [hrun] at hw
  cases hw
  refine ⟨_, hs, hh, ?_⟩
  simp only [List.length_append, length_fixedFields, length_be16]
  omega

theorem repeats_of_data {type : UInt16} {x : Logged.Writer ℕ} {y : Writer ℕ} (h : Open hole w)
    (ho : o.Writable (known hole w.buffer) ∧ o.room ≤ 513)
    (hx : ∀ w', SoundUpTo (0x2000 + 523) w' → Repeats Search.Total x y w') :
    Repeats Search.Total
      (Logged.writeHeader ⟨o, type, 0⟩ >>= fun a => x >>= fun n => onFst (a.writeRdlength n))
      (AnswerBase.writeHeader ⟨o, type, 0⟩ >>= fun a => y >>= fun n => a.writeRdlength n) w :=
  (repeats_writeHeader h.soundUpTo (by decide) _).bind fun _ w' hrun =>
    (hx w' (h.writeHeader ho.1 ho.2 hrun)).bind fun _ _ _ => .onFst _ _

/-- **The searches of a record are total.** -/
theorem repeats_write (h : Open hole w) (hr : Fitting (known hole w.buffer) r) :
    Repeats Search.Total (Logged.write r) r.write w := by
  have ho := hr.writable
  cases r with
  | a o ip =>
    exact (repeats_writeHeader h.soundUpTo (by decide) _).bind fun _ _ _ => (Repeats.onFst _ _).bind
      fun _ _ _ => .pure _ _
  | cname p n => exact repeats_of_data h ho fun _ hw => repeats_writeZoneName hw (by decide) n none
  | mx p n pri => exact repeats_of_data h ho fun _ hw => repeats_writeMxData hw (by decide) n pri
  | ns d n => exact repeats_of_data h ho fun _ hw => repeats_writeZoneName hw (by decide) n none
  | soa o z => exact repeats_of_data h ho fun _ hw => repeats_writeSoaData hw (by decide) hr.mname

theorem repeats_store (h : Open hole w) (hr : Fitting (known hole w.buffer) r) (limit : Option ℕ) :
    Repeats Search.Total (Logged.store limit r) (store limit r) w := by
  unfold Logged.store store
  refine (repeats_write h hr).bind fun _ _ _ => (Repeats.onFst _ _).bind fun _ _ _ => ?_
  split_ifs
  · exact (Repeats.onFst _ _).bind fun _ _ _ => .raise _ _
  · exact .pure _ _

/-! ## Forests -/

/-- A zone whose labels have at most 63 octets and whose names have at most 255. Labels may be empty. -/
structure ShortZone (z : ZonePtr) : Prop where
  label : z.zone.label.length ≤ 63
  name : z.getDomainName.length ≤ 255
  ns : ∀ ns ∈ z.zone.ns, ShortName 255 ns.fqdn
  mx : ∀ mx ∈ z.zone.mx, ShortName 255 mx.fqdn
  cname : ShortName 255 z.zone.cname
  rname : ∀ soa ∈ z.zone.soa, ShortName 255 soa.rname

/-- **A forest with short names.** -/
def ShortForest (zones : List Zone) : Prop := ∀ z, Reached zones z → ShortZone z

variable {zones : List Zone} {z : ZonePtr}

theorem ShortForest.labels (hz : ShortForest zones) (hr : Reached zones z) : Short z.labels := by
  induction hr with
  | root h =>
    have hlabel := (hz _ (.root h)).label
    exact List.forall_mem_singleton.mpr (Nat.lt_succ_of_le hlabel)
  | child hp h ih =>
    have hlabel := (hz _ (.child hp h)).label
    exact List.forall_mem_cons.mpr ⟨Nat.lt_succ_of_le hlabel, ih⟩

theorem ShortForest.getDomainName (hz : ShortForest zones) (hr : Reached zones z) :
    ShortName 255 z.getDomainName := by
  refine ⟨?_, (hz z hr).name⟩
  rw [z.getDomainName_eq]
  exact short_toFraments_dotted (hz.labels hr)

theorem ShortForest.getFdqn (hz : ShortForest zones) (hr : Reached zones z) {ns : Ns}
    (hn : ShortName 255 ns.fqdn) : ShortName 511 (z.getFdqn ns) := by
  have := hn.append (hz.getDomainName hr)
  rwa [ZonePtr.getFdqn, List.append_assoc]

theorem ShortForest.nameInZone (hz : ShortForest zones) (hr : Reached zones z) {n : Bytes}
    (hn : ShortName 255 n) : ShortName 511 (nameInZone n (some z)) := by
  by_cases hd : n.getLast? = some dot
  · rw [nameInZone_absolute hd]
    exact hn.mono (by decide)
  by_cases hne : n = []
  · rw [hne]
    exact (⟨by decide, by decide⟩ : ShortName 511 [])
  · rw [nameInZone_relative hne hd]
    exact hn.append (hz.getDomainName hr)

theorem ShortForest.fullCname (hz : ShortForest zones) (hr : Reached zones z) :
    ShortName 511 (fullCname z) := by
  have hn := (hz z hr).cname
  unfold Dns.fullCname
  split_ifs
  · cases hp : z.parent with
    | none => exact hn.mono (by decide)
    | some p => exact @ShortForest.getFdqn zones p hz (hr.parent hp) ⟨z.zone.cname⟩ hn
  · exact hn.mono (by decide)

/-! ## Between records -/

/-- **What holds between records**, where the reply begins with `b`: the label list is sound, nothing has
passed the limit, and the zones that were referred to are zones of the forest. -/
structure Midway (zones : List Zone) (b : Bytes) (s : Outgoing × Referrals) : Prop where
  begins : b <+: s.1.wire.buffer
  sound : Sound headerHole s.1.wire
  length_le : s.1.wire.buffer.length ≤ maxReplyBuffer
  authorative : ∀ z ∈ s.2.authorativeZones, Reached zones z
  nsZones : ∀ z ∈ s.2.nsZones, Reached zones z

variable {b : Bytes} {s : Outgoing × Referrals} {zone : Option ZonePtr}

theorem Midway.opened (hb : 12 ≤ b.length) (h : Midway zones b s) : Open headerHole s.1.wire := by
  have hle := h.length_le
  have hbegins := h.begins.length_le
  refine ⟨h.sound, hle.trans (by decide), fun i hi => ?_⟩
  have := List.mem_range.mp hi
  omega

theorem Midway.addAuthorativeZone (hz : ∀ z ∈ zone, Reached zones z) (h : Midway zones b s) :
    Midway zones b (s.1, s.2.addAuthorativeZone zone) :=
  ⟨h.begins, h.sound, h.length_le, fun z hmem => (mem_addZone hmem).elim (h.authorative z) (hz z),
    h.nsZones⟩

theorem Midway.addNsZone (key : List Bytes) (h : Midway zones b s) :
    Midway zones b (s.1, s.2.addNsZone (lookup zones key).1) :=
  ⟨h.begins, h.sound, h.length_le, h.authorative, fun z hmem => (mem_addZone hmem).elim (h.nsZones z)
    fun hl => lookup_reached (Prod.ext hl rfl)⟩

theorem logs_refer {f : Referrals → Referrals}
    (h : ∀ s, Midway zones b s → Midway zones b (s.1, f s.2)) :
    Logs Search.Total (Midway zones b) (onFst (refer f)) (refer f) fun _ => Midway zones b :=
  .onFst fun s hs => ⟨fun _ _ h' => (by cases h'; exact h s hs), fun _ _ _ => trivial⟩

theorem Midway.emit (hb : 12 ≤ b.length) {x : Section × ResourceRecord}
    (hx : Fitting (known headerHole b) x.2) (h : Midway zones b s) {s' : Outgoing × Referrals}
    (hrun : emit (some maxReplyBuffer) x s = (.ok (), s')) : Midway zones b s' := by
  obtain ⟨o, t⟩ := s
  obtain ⟨sec, r⟩ := x
  have hopen := h.opened hb
  have hfits := (hx.mono (known_le_of_isPrefix h.begins)).storable
  rcases hstore : store (some maxReplyBuffer) r o.wire with ⟨e | n, w⟩
  · have hin : storeIn (some maxReplyBuffer) (sec, r) o = (.error e, { o with wire := w }) := by
      rw [storeIn, hstore]
    cases (onFst_apply hin).symm.trans hrun
  · have hin : storeIn (some maxReplyBuffer) (sec, r) o =
        (.ok (), Outgoing.count { o with wire := w } sec) := by
      rw [storeIn, hstore]
    cases (onFst_apply hin).symm.trans hrun
    obtain ⟨a, hwrite, -, hle⟩ := write_of_store hstore
    have hmax : maxReplyBuffer < 0x4000 := by decide
    obtain ⟨e, hl⟩ := write_laid hopen hfits.owner hfits.data hwrite (by omega)
    have hwire : (Outgoing.count { o with wire := w } sec).wire = w := by cases sec <;> rfl
    refine ⟨?_, ?_, ?_, h.authorative, h.nsZones⟩
    · rw [hwire]
      exact h.begins.trans hl.begins
    · rw [hwire]
      exact hl.sound hfits.rname
    · rwa [hwire]

theorem repeats_storeIn {limit : Option ℕ} {x : Section × ResourceRecord} {o : Outgoing}
    (h : Repeats Search.Total (Logged.store limit x.2) (store limit x.2) o.wire) :
    Repeats Search.Total (Logged.storeIn limit x) (storeIn limit x) o := by
  intro l
  obtain ⟨more, hstore, hmore⟩ := h l
  refine ⟨more, ?_, hmore⟩
  unfold Logged.storeIn storeIn
  simp only [hstore]
  rcases store limit x.2 o.wire with ⟨e | n, w⟩ <;> rfl

theorem logs_emit (hb : 12 ≤ b.length) {x : Section × ResourceRecord}
    (hx : Fitting (known headerHole b) x.2) :
    Logs Search.Total (Midway zones b) (Logged.emit (some maxReplyBuffer) x)
      (emit (some maxReplyBuffer) x) fun _ => Midway zones b where
  repeats s h := by
    have hfits := hx.mono (known_le_of_isPrefix h.begins)
    exact .onFstLog (repeats_storeIn (repeats_store (h.opened hb) hfits _))
  triple s h := ⟨fun _ _ hrun => h.emit hb hx hrun, fun _ _ _ => trivial⟩

/-! ## The second pass -/

theorem fitting_offset {p : UInt16} (hq : ∃ ls, StoredAt m p ls) (ho : r.owner = .namePtr p)
    (hn : ∀ n ∈ r.names, ShortName 511 n) : Fitting m r :=
  ⟨fun _ hp => Owner.namePtr.inj (ho.symm.trans hp) ▸ hq, hn⟩

theorem fitting_name {n : Bytes} (ho : r.owner = .name n) (hn : ∀ n ∈ r.names, ShortName 511 n) :
    Fitting m r :=
  ⟨fun _ hp => (by rw [ho] at hp; cases hp), hn⟩

/-- **The searches of a computation on a reply are total**, and it keeps what holds between records. -/
abbrev Searches (zones : List Zone) (b : Bytes) (x : Logged.Processing Unit) (y : Processing Unit) : Prop :=
  Logs Search.Total (Midway zones b) x y fun _ => Midway zones b

section

variable {question : Question} {questions : List Question}

theorem searches_processQtype (hz : ShortForest zones) (hb : 12 ≤ b.length) (hr : Reached zones z)
    (hs : ∀ s ∈ zone, Reached zones s) (hq : ∃ ls, StoredAt (known headerHole b) question.offset ls) :
    Searches zones b (Logged.processQtype (some maxReplyBuffer) zones question z zone)
      (processQtype (some maxReplyBuffer) zones question z zone) := by
  have hfull := hz.fullCname hr
  have hcname : Logs Search.Total (Midway zones b) (Logged.storeCname (some maxReplyBuffer) z question)
      (storeCname (some maxReplyBuffer) z question) fun name s => Midway zones b s ∧ name = fullCname z := by
    refine (logs_emit hb (fitting_offset hq rfl ?_)).bind fun _ => .pure fun _ h => ⟨h, rfl⟩
    exact List.forall_mem_singleton.mpr hfull
  have haddress : ∀ ip, Fitting (known headerHole b) (.a (.namePtr question.offset) ip) := fun _ =>
    fitting_offset hq rfl fun _ h => (List.not_mem_nil h).elim
  unfold Logged.processQtype processQtype
  split_ifs
  · refine hcname.bind fun name => .of_and fun hname => .when fun _ => ?_
    subst hname
    cases (lookup zones (toFraments (fullCname z))).1 with
    | none => exact .pure fun _ h => h
    | some found =>
      refine .forM fun ip _ => logs_emit hb (fitting_name rfl ?_)
      exact List.forall_mem_singleton.mpr hfull
  · exact .forM fun ip _ => logs_emit hb (haddress ip)
  · exact .when fun _ => hcname.bind fun _ => .pure fun _ h => h.1
  · cases zone with
    | none => exact .raise _
    | some soaZone =>
      have hsoa := hs soaZone rfl
      refine (logs_emit hb (fitting_offset hq rfl fun n hn => ?_)).bind fun _ =>
        logs_refer fun _ h => h.addAuthorativeZone hs
      simp only [ResourceRecord.names, Owner.names, List.nil_append, List.mem_append, List.mem_map,
        Option.mem_toList] at hn
      rcases hn with ⟨ns, hns, rfl⟩ | ⟨soa, hsoa', rfl⟩
      · exact hz.nameInZone hsoa ((hz _ hsoa).ns ns (List.mem_of_mem_head? hns))
      · exact hz.nameInZone hsoa ((hz _ hsoa).rname soa hsoa')
  · exact logs_refer fun _ h => h.addAuthorativeZone hs
  · refine .forM fun mx hmx => ?_
    dsimp only
    refine (logs_emit hb (fitting_offset hq rfl ?_)).bind fun _ => logs_refer fun _ h => h.addNsZone _
    exact List.forall_mem_singleton.mpr (hz.getFdqn hr ((hz z hr).mx mx hmx))
  · exact .pure fun _ h => h

theorem searches_processQuestion (hz : ShortForest zones) (hb : 12 ≤ b.length)
    (hq : ∃ ls, StoredAt (known headerHole b) question.offset ls) :
    Searches zones b (Logged.processQuestion (some maxReplyBuffer) zones question)
      (processQuestion (some maxReplyBuffer) zones question) := by
  unfold Logged.processQuestion processQuestion
  rcases hl : lookup zones question.getLabels with ⟨- | z, au⟩
  · cases au <;> exact .raise _
  · have hr := lookup_reached hl
    have hsoa : Logs Search.Total (Midway zones b) (onFst (Proc.ofExcept (getSoaZone z)))
        (Proc.ofExcept (getSoaZone z)) fun soaZone s => Midway zones b s ∧ ∀ s ∈ soaZone, Reached zones s := by
      refine .onFst fun s hs => ⟨fun soaZone s' h => ?_, fun _ _ _ => trivial⟩
      rw [ofExcept_apply] at h
      obtain ⟨hget, rfl⟩ := Prod.mk.inj h
      refine ⟨hs, fun x hx => ?_⟩
      obtain rfl := Option.mem_def.mp hx
      exact soa_reached hr hget
    refine hsoa.bind fun soaZone => .of_and fun hs => ?_
    refine (Logs.when fun _ => logs_refer fun _ h => ?_).bind fun _ =>
      (searches_processQtype hz hb hr hs hq).bind fun _ => .when fun _ => logs_refer fun _ h =>
        h.addAuthorativeZone hs
    exact ⟨h.begins, h.sound, h.length_le, h.authorative, h.nsZones⟩

theorem searches_processNsAuthZone (hz : ShortForest zones) (hb : 12 ≤ b.length) (hr : Reached zones z) :
    Searches zones b (Logged.processNsAuthZone (some maxReplyBuffer) zones z)
      (processNsAuthZone (some maxReplyBuffer) zones z) := by
  refine .forM fun ns hns => ?_
  dsimp only
  refine (logs_emit hb (fitting_name rfl ?_)).bind fun _ => logs_refer fun _ h => h.addNsZone _
  exact List.forall_mem_cons.mpr ⟨(hz.getDomainName hr).mono (by decide),
    List.forall_mem_singleton.mpr (hz.getFdqn hr ((hz z hr).ns ns hns))⟩

theorem searches_processNsZone (hz : ShortForest zones) (hb : 12 ≤ b.length) (hr : Reached zones z) :
    Searches zones b (Logged.processNsZone (some maxReplyBuffer) z)
      (processNsZone (some maxReplyBuffer) z) := by
  refine .forM fun ip _ => logs_emit hb (fitting_name rfl ?_)
  exact List.forall_mem_singleton.mpr ((hz.getDomainName hr).mono (by decide))

/-- **The second pass**, where the questions are stored. -/
theorem searches_answer (hz : ShortForest zones) (hb : 12 ≤ b.length)
    (hq : ∀ question ∈ questions, ∃ ls, StoredAt (known headerHole b) question.offset ls) :
    Searches zones b (Logged.answer (some maxReplyBuffer) zones questions)
      (answer (some maxReplyBuffer) zones questions) := by
  have hget : Logs Search.Total (Midway zones b) (onFst (Proc.get : Processing _)) Proc.get fun a s =>
      Midway zones b s ∧ Midway zones b a :=
    .onFst fun s hs => ⟨fun _ _ h => (by cases h; exact ⟨hs, hs⟩), fun _ _ _ => trivial⟩
  unfold Logged.answer answer
  refine (Logs.forM fun question hmem => searches_processQuestion hz hb (hq question hmem)).bind fun _ => ?_
  refine hget.bind fun a => .of_and fun ha => ?_
  refine (Logs.forM fun z hmem => searches_processNsAuthZone hz hb (ha.authorative z hmem)).bind fun _ => ?_
  refine hget.bind fun a => .of_and fun ha => ?_
  exact .forM fun z hmem => searches_processNsZone hz hb (ha.nsZones z hmem)

end

/-! ## The reply -/

section

variable {query : Memory} {queryLen : ℕ} {header : MessageHeader} {replyBuffer : Bytes}

/-- The server with a log does what the server does, and all its searches are total. -/
structure Faithful {α : Type} (logged : α × List Search) (a : α) : Prop where
  same : logged.1 = a
  total : ∀ c ∈ logged.2, c.Total

theorem faithful_processQuestions (hz : ShortForest zones) :
    Faithful (Logged.processQuestions (some maxReplyBuffer) zones query queryLen header replyBuffer)
      (processQuestions (some maxReplyBuffer) zones query queryLen header replyBuffer) := by
  unfold Logged.processQuestions processQuestions
  rcases hparse : parseQuestions query queryLen header ⟨[], [], 0, resize replyBuffer MessageHeader.size⟩
    with ⟨e | u, s⟩
  · exact ⟨rfl, fun _ h => (List.not_mem_nil h).elim⟩
  obtain ⟨q, hs⟩ := allAsk_of_parse hparse
  have hstart : Midway zones s.replyBuffer ({ wire := ⟨s.replyBuffer, []⟩ }, {}) :=
    ⟨List.prefix_refl _, fun l hl => (List.not_mem_nil hl).elim, hs.length_lt.le,
      fun _ h => (List.not_mem_nil h).elim, fun _ h => (List.not_mem_nil h).elim⟩
  have hlogs := searches_answer hz hs.header_le fun question hmem => (hs.asks question hmem).2
  obtain ⟨log, hrun, htotal⟩ := hlogs.repeats _ hstart []
  simp only [hrun, List.nil_append]
  rcases answer (some maxReplyBuffer) zones s.questions ({ wire := ⟨s.replyBuffer, []⟩ }, {})
    with ⟨(ex | - | -) | u, o, t⟩
  · simp only
    split_ifs <;> exact ⟨rfl, htotal⟩
  · exact ⟨rfl, htotal⟩
  · exact ⟨rfl, htotal⟩
  · exact ⟨rfl, htotal⟩

theorem faithful_processOpcode (hz : ShortForest zones) :
    Faithful (Logged.processOpcode zones query queryLen header replyBuffer)
      (processOpcode zones query queryLen header replyBuffer) := by
  unfold Logged.processOpcode processOpcode
  split_ifs
  · exact ⟨rfl, fun _ h => (List.not_mem_nil h).elim⟩
  · exact faithful_processQuestions hz
  · exact ⟨rfl, fun _ h => (List.not_mem_nil h).elim⟩

theorem faithful_processsQuerey (hz : ShortForest zones) :
    Faithful (Logged.processsQuerey zones query queryLen replyBuffer)
      (processsQuerey zones query queryLen replyBuffer) := by
  unfold Logged.processsQuerey processsQuerey
  cases MessageHeader.ofBuffer query queryLen with
  | error e => exact ⟨rfl, fun _ h => (List.not_mem_nil h).elim⟩
  | ok header =>
    obtain ⟨hsame, htotal⟩ := @faithful_processOpcode zones query queryLen header (resize replyBuffer 0) hz
    simp only [← hsame]
    generalize Logged.processOpcode zones query queryLen header (resize replyBuffer 0) = r at htotal ⊢
    rcases r with ⟨⟨(ex | - | -) | u, reply⟩, log⟩
    · simp only
      cases catchClause ex.type <;> exact ⟨rfl, htotal⟩
    · exact ⟨rfl, htotal⟩
    · exact ⟨rfl, htotal⟩
    · exact ⟨rfl, htotal⟩

end

/-- **Every search is total.** Whatever is received, a round of the receive loop with a log of its searches
does what a round does, and every search is total. -/
theorem search_total (hz : ShortForest zones) (queryBuffer : Memory) (datagram replyBuffer : Bytes) :
    (Logged.receive zones queryBuffer datagram replyBuffer).1 =
        receive zones queryBuffer datagram replyBuffer ∧
      ∀ c ∈ (Logged.receive zones queryBuffer datagram replyBuffer).2, c.Total := by
  obtain ⟨hsame, htotal⟩ := @faithful_processsQuerey zones (received queryBuffer datagram)
    (datagram.take maxQueryBuffer).length replyBuffer hz
  unfold Logged.receive receive
  simp only [← hsame]
  generalize Logged.processsQuerey zones (received queryBuffer datagram)
    (datagram.take maxQueryBuffer).length replyBuffer = r at htotal ⊢
  rcases r with ⟨⟨(ex | - | -) | u, reply, state⟩, log⟩
  · simp only
    split_ifs <;> exact ⟨rfl, htotal⟩
  · exact ⟨rfl, htotal⟩
  · exact ⟨rfl, htotal⟩
  · exact ⟨rfl, htotal⟩

theorem shortForest_host : ShortForest (hostForest []) := by
  intro z hz
  rcases reached_hostForest hz with rfl | rfl
  · refine ⟨by decide, by decide, fun ns hns => ?_, nofun, by decide, fun soa hsoa => ?_⟩
    · obtain rfl := List.mem_singleton.mp hns
      decide
    · cases hsoa
      decide
  · exact ⟨by decide, by decide, nofun, nofun, by decide, nofun⟩

/-- The name servers of `a` are asked for, where it has a wildcard zone with an address. -/
def nsDatagram : Bytes := queryOctets ⟨7, 0, 1, 0, 0, 0⟩ [⟨[[97]], 2, 1⟩]

/-- There are three searches, with more offsets each time. -/
theorem search_total_host : (Logged.receive (hostForest []) (memoryOf []) nsDatagram []).2.map
      (·.wire.labels) = [[], [0xC013], [0xC013, 0xC020]] ∧
    (Logged.receive (hostForest []) (memoryOf []) nsDatagram []).1 =
      receive (hostForest []) (memoryOf []) nsDatagram [] ∧
    ∀ c ∈ (Logged.receive (hostForest []) (memoryOf []) nsDatagram []).2, c.Total :=
  ⟨by decide +kernel, search_total shortForest_host _ _ _⟩

end VUbercool.Dns
