import VUbercool.Dns.Answer

/-!
# Name compression

The reply encoder writes names an RFC 1035 decoder reads back.

* `Sound`: every label of the list stands for the offset of a stored name.
* `Suffix`, `reverseCompare_spec`: what `ReverseCompare` finds is stored where it says.
* `writeDomainName_spec`, `writeZoneName_reads`: a name is read at the old end of the buffer, up to its
  first empty fragment. `writeZoneName_spec`: a legal name is stored there.
-/

namespace VUbercool.Dns

open Octets Rfc1035

/-- **The invariant of the label list**: every label stands for the offset of a stored name. -/
def Sound (hole : List ℕ) (w : Wire) : Prop :=
  ∀ l ∈ w.labels, ∃ ls next, NameAt (known hole w.buffer) (l.toNat % 0x4000) (l.toNat % 0x4000) ls next

theorem Sound.of_le {hole hole' : List ℕ} {w : Wire} {b : Bytes} (h : Sound hole w)
    (hle : (known hole w.buffer).Le (known hole' b)) : Sound hole' ⟨b, w.labels⟩ := by
  intro l hl
  obtain ⟨ls, next, hn⟩ := h l hl
  exact ⟨ls, next, hn.mono hle⟩

/-! ## Reading the buffer -/

theorem octetAt_eq {b : Bytes} {p : ℕ} {c : UInt8} (h : view b p = some c) : octetAt b p = .ok c := by
  have h : b[p]? = some c := h
  rw [octetAt, h]

theorem wordAt_eq {b : Bytes} {p : ℕ} {c d : UInt8} (hc : view b p = some c)
    (hd : view b (p + 1) = some d) : ∃ v, wordAt b p = .ok v ∧ ntohs v = ofBe16 c d := by
  have hc : b[p]? = some c := hc
  have hd : b[p + 1]? = some d := hd
  refine ⟨_, if_pos (List.getElem?_eq_some_iff.mp hd).1, ?_⟩
  rw [ntohs_load16]
  simp [memoryOf, List.getD, hc, hd]

theorem octetsAt_eq {b l : Bytes} {p len : ℕ} (hlen : 0 < len) (h : slice (view b) p len = some l) :
    octetsAt b p len = .ok l := by
  obtain ⟨h1, h2⟩ := take_drop_of_slice h hlen
  rw [octetsAt, if_pos h1, h2]

/-! ## Searching -/

/-- **What the comparison of a stored name with labels `ls` to `frags` found.** A match in range is a
suffix of `frags` that is stored at `bestMatchedOffset`; after `true` it is all of `ls`. -/
structure Suffix (m : View) (frags : List Bytes) (ls : List Label) (r : Compared) : Prop where
  stored : 0 ≤ r.currFrag → r.currFrag < frags.length → ∃ next,
    NameAt m r.bestMatchedOffset.toNat r.bestMatchedOffset.toNat (frags.drop r.currFrag.toNat) next
  matched : r.matched = true → 0 ≤ r.currFrag → frags.drop r.currFrag.toNat = ls

theorem Suffix.label {m : View} {frags : List Bytes} {l : Label} {ls : List Label} {r : Compared}
    {p : UInt16} {n : ℕ} (hr : Suffix m frags ls r) (hm : r.matched = true)
    (h0 : ¬ r.currFrag - 1 < 0) (hl : frags[(r.currFrag - 1).toNat]? = some l)
    (hn : NameAt m p.toNat p.toNat (l :: ls) n) :
    Suffix m frags (l :: ls) ⟨true, r.currFrag - 1, p⟩ := by
  have hdrop : frags.drop (r.currFrag - 1).toNat = l :: ls := by
    obtain ⟨hi, hl⟩ := List.getElem?_eq_some_iff.mp hl
    rw [List.drop_eq_getElem_cons hi, hl,
      show (r.currFrag - 1).toNat + 1 = r.currFrag.toNat by omega, hr.matched hm (by omega)]
  exact ⟨fun _ _ => ⟨n, by rw [hdrop]; exact hn⟩, fun _ _ => hdrop⟩

theorem toNat_next_label {label : UInt16} {off len : ℕ} (hl : label.toNat % 0x4000 = off)
    (h : off + 1 + len < 0x4000) : (label + UInt16.ofNat (len + 1)).toNat % 0x4000 = off + 1 + len := by
  simp only [UInt16.toNat_add, UInt16.toNat_ofNat']
  omega

theorem toNat_pointer (c d : UInt8) :
    (ofBe16 c d &&& ~~~0xC000).toNat % 0x4000 = pointerTarget c d := by
  have hd := d.toNat_lt
  rw [toNat_mask, toNat_ofBe16, pointerTarget]
  omega

theorem fuel_pointer {size t start off fuel : ℕ} (ht : t < start)
    (hf : start * (size + 1) + (size - off) < fuel + 1) : t * (size + 1) + (size - t) < fuel := by
  have h := Nat.mul_le_mul_right (size + 1) ht
  rw [Nat.succ_mul] at h
  omega

section Calls

variable {b : Bytes} {frags : List Bytes} {fuel off : ℕ} {label best : UInt16} {cur : ℤ}

theorem reverseCompare_root (h0 : view b off = some 0) (hl : label.toNat % 0x4000 = off) :
    reverseCompare b frags (fuel + 1) label cur best = .ok ⟨true, frags.length, best⟩ := by
  have hmask : (label &&& ~~~0xC000).toNat = off := by rw [toNat_mask, hl]
  rw [reverseCompare]
  simp only [hmask, octetAt_eq h0, bind, Except.bind, UInt8.toNat_zero, if_true]

theorem reverseCompare_label {c : UInt8} {l : Label} {r : Compared} (hc : view b off = some c)
    (h0 : c ≠ 0) (h64 : c < 64) (hs : slice (view b) (off + 1) c.toNat = some l)
    (hl : label.toNat % 0x4000 = off)
    (hr : reverseCompare b frags fuel (label + UInt16.ofNat (c.toNat + 1)) cur best = .ok r) :
    reverseCompare b frags (fuel + 1) label cur best =
      if r.matched then
        if r.currFrag - 1 < 0 then .ok { r with currFrag := r.currFrag - 1 }
        else if frags[(r.currFrag - 1).toNat]? = some l then
          .ok ⟨true, r.currFrag - 1, label &&& ~~~0xC000⟩
        else .ok { r with matched := false }
      else .ok r := by
  have hc0 : c.toNat ≠ 0 := fun h => h0 (UInt8.toNat_inj.mp h)
  have hname := octetsAt_eq (by omega) hs
  have hmask : (label &&& ~~~0xC000).toNat = off := by rw [toNat_mask, hl]
  rw [reverseCompare]
  simp only [hmask, octetAt_eq hc, bind, Except.bind, if_neg hc0,
    if_pos (show c.toNat < 64 from h64), hr, hname]

theorem reverseCompare_pointer {c d : UInt8} (hc : view b off = some c) (h192 : 192 ≤ c)
    (hd : view b (off + 1) = some d) (hl : label.toNat % 0x4000 = off) :
    reverseCompare b frags (fuel + 1) label cur best =
      reverseCompare b frags fuel (ofBe16 c d &&& ~~~0xC000) cur best := by
  obtain ⟨v, hv, hsw⟩ := wordAt_eq hc hd
  have hmask : (label &&& ~~~0xC000).toNat = off := by rw [toNat_mask, hl]
  have hc192 : 192 ≤ c.toNat := h192
  have hc0 : c.toNat ≠ 0 := by omega
  have hc64 : ¬ c.toNat < 64 := by omega
  have hmark := (and_0xC0_eq_iff c).mpr h192
  rw [reverseCompare]
  simp only [hmask, octetAt_eq hc, bind, Except.bind, if_neg hc0, if_neg hc64, if_pos hmark, hv, hsw]

end Calls

/-- **`ReverseCompare` on a stored name ends**, and what it finds is stored where it says. The
induction is on how the name is stored. -/
theorem reverseCompare_spec {m : View} {b : Bytes} {frags : List Bytes} (hm : m.Le (view b))
    (hb : b.length ≤ 0x4000) {start off next : ℕ} {ls : List Label} (h : NameAt m start off ls next) :
    start ≤ off → ∀ {f : ℕ} {label : UInt16}, label.toNat % 0x4000 = off →
      start * (0x4000 + 1) + (0x4000 - off) < f → ∀ best : UInt16,
      ∃ r, reverseCompare b frags f label (-1) best = .ok r ∧ Suffix m frags ls r := by
  have hlt : ∀ i c, m i = some c → i < 0x4000 := fun i c hc =>
    Nat.lt_of_lt_of_le (List.getElem?_eq_some_iff.mp (hm i c hc)).1 hb
  induction h with
  | @root start off h0 =>
    intro _ fuel label hl hf best
    obtain ⟨fuel, rfl⟩ : ∃ k, fuel = k + 1 := ⟨fuel - 1, by omega⟩
    refine ⟨_, reverseCompare_root (hm _ _ h0) hl, fun _ h => absurd h (Int.lt_irrefl _), fun _ _ => ?_⟩
    simp
  | @label start off next c l ls hc h0 h64 hs hn ih =>
    intro hso fuel label hl hf best
    obtain ⟨fuel, rfl⟩ : ∃ k, fuel = k + 1 := ⟨fuel - 1, by omega⟩
    obtain ⟨e, he⟩ := hn.some_of
    have hend := hlt _ _ he
    have hc0 : c.toNat ≠ 0 := fun h => h0 (UInt8.toNat_inj.mp h)
    obtain ⟨r, hr, hsuf⟩ := ih (by omega) (toNat_next_label hl hend) (f := fuel)
      (by omega) best
    have hlabel : NameAt m start off (l :: ls) next := .label hc h0 h64 hs hn
    have hmask : (label &&& ~~~0xC000).toNat = off := by rw [toNat_mask, hl]
    rw [reverseCompare_label (hm _ _ hc) h0 h64 (slice_mono hm hs) hl hr]
    split_ifs with hmatch hneg hfrag
    · exact ⟨_, rfl, fun h _ => by simp only at h; omega, fun _ h => by simp only at h; omega⟩
    · refine ⟨_, rfl, hsuf.label hmatch hneg hfrag (n := next) ?_⟩
      rw [hmask]
      exact hlabel.widen hso
    · exact ⟨_, rfl, hsuf.stored, fun h => by cases h⟩
    · exact ⟨_, rfl, hsuf.stored, fun h => absurd h hmatch⟩
  | @pointer start off next c d ls hc h192 hd ht hn ih =>
    intro hso fuel label hl hf best
    obtain ⟨fuel, rfl⟩ : ∃ k, fuel = k + 1 := ⟨fuel - 1, by omega⟩
    have hoff := hlt _ _ hc
    obtain ⟨r, hr, hsuf⟩ := ih (Nat.le_refl _) (toNat_pointer c d)
      (fuel_pointer ht hf) best
    exact ⟨r, (reverseCompare_pointer (hm _ _ hc) h192 (hm _ _ hd) hl).trans hr, hsuf⟩

/-- A match `SearchForDomainName` may return: a suffix of `frags` that is stored. -/
def Match (m : View) (frags : List Bytes) (best : ℕ × UInt16) : Prop :=
  best.1 < frags.length ∧ ∃ next, NameAt m best.2.toNat best.2.toNat (frags.drop best.1) next

theorem Match.of_suffix {m : View} {frags : List Bytes} {ls : List Label} {r : Compared}
    (h : Suffix m frags ls r) (h0 : 0 ≤ r.currFrag) (hn : r.currFrag < frags.length) :
    Match m frags (r.currFrag.toNat, r.bestMatchedOffset) :=
  ⟨by simp only; omega, h.stored h0 hn⟩

/-- **The loop over the labels**: where every comparison returns, and a place in range has `P` with its
offset, so does what the loop returns. -/
theorem searchLoop_keeps {b : Bytes} {frags : List Bytes} {P : ℕ × UInt16 → Prop} :
    ∀ {labels : List UInt16} {z : Option (ℕ × UInt16)},
    (∀ l ∈ labels, ∃ r, reverseCompare b frags compareDepth l (-1) 0 = .ok r ∧
      (0 ≤ r.currFrag → r.currFrag < frags.length → P (r.currFrag.toNat, r.bestMatchedOffset))) →
    (∀ x ∈ z, P x) → ∃ found, searchLoop b frags labels z = .ok found ∧ ∀ x ∈ found, P x
  | [], z, _, hz => ⟨z, rfl, hz⟩
  | label :: labels, z, h, hz => by
    obtain ⟨r, hr, hplace⟩ := h label List.mem_cons_self
    have hrest := fun l hl => h l (List.mem_cons_of_mem _ hl)
    unfold searchLoop
    simp only [hr, bind, Except.bind]
    split_ifs with hin h0
    · have hbest := hplace hin.1 hin.2.1
      rw [h0] at hbest
      exact ⟨_, rfl, fun x hx => Option.some.inj hx ▸ hbest⟩
    · exact searchLoop_keeps hrest fun x hx => Option.some.inj hx ▸ hplace hin.1 hin.2.1
    · exact searchLoop_keeps hrest hz

theorem searchLoop_spec {m : View} {b : Bytes} {frags : List Bytes} {labels : List UInt16}
    {z : Option (ℕ × UInt16)} (hm : m.Le (view b)) (hb : b.length ≤ 0x4000)
    (hl : ∀ l ∈ labels, ∃ ls next, NameAt m (l.toNat % 0x4000) (l.toNat % 0x4000) ls next)
    (hz : ∀ x ∈ z, Match m frags x) :
    ∃ found, searchLoop b frags labels z = .ok found ∧ ∀ x ∈ found, Match m frags x := by
  refine searchLoop_keeps (fun label hmem => ?_) hz
  obtain ⟨ls, next, hn⟩ := hl label hmem
  have hmod : label.toNat % 0x4000 < 0x4000 := Nat.mod_lt _ (by decide)
  have hfuel : label.toNat % 0x4000 * (0x4000 + 1) + (0x4000 - label.toNat % 0x4000) <
      compareDepth := by
    have h := Nat.mul_le_mul_right (0x4000 + 1) hmod.le
    have h' : 0x4000 * (0x4000 + 1) + 0x4000 < compareDepth := by decide
    exact Nat.lt_of_le_of_lt (Nat.add_le_add h (Nat.sub_le _ _)) h'
  obtain ⟨r, hr, hsuf⟩ := @reverseCompare_spec m b frags hm hb _ _ _ _ hn (Nat.le_refl _) _ label rfl hfuel 0
  exact ⟨r, hr, Match.of_suffix hsuf⟩

/-! ## Writing names -/

theorem pushFrags_eq (ls : List Label) : pushFrags ls = encodeLabels ls := by
  induction ls with
  | nil => rfl
  | cons l ls ih => rw [encodeLabels, ← ih]; rfl

theorem length_encodeLabels_take {ls : List Label} {i : ℕ} (hne : [] ∉ ls.drop i) (hi : i < ls.length) :
    (encodeLabels (ls.take i)).length + 2 ≤ (encodeLabels ls).length := by
  have hsplit : encodeLabels ls = encodeLabels (ls.take i) ++ encodeLabels (ls.drop i) := by
    rw [← encodeLabels_append, List.take_append_drop]
  rw [List.drop_eq_getElem_cons hi] at hne hsplit
  have hl : ls[i] ≠ [] := fun e => hne (by rw [e]; exact List.mem_cons_self)
  have := List.length_pos_iff.mpr hl
  rw [hsplit, List.length_append, encodeLabels]
  simp only [List.length_append, List.length_cons]
  omega

/-- **A pointer to a stored name**, written at the end of the buffer. -/
theorem nameAt_pointer {hole : List ℕ} {b : Bytes} {p : UInt16} {ls : List Label} {s next : ℕ}
    (hn : NameAt (known hole b) (p.toNat % 0x4000) (p.toNat % 0x4000) ls next)
    (hp : p.toNat % 0x4000 < s) (hh : ∀ i ∈ hole, i < b.length) :
    NameAt (known hole (b ++ store16 (htons (p ||| 0xC000)))) s b.length ls (b.length + 2) := by
  have hout : ∀ i, b.length ≤ i → i ∉ hole := fun i hi h => absurd (hh i h) (by omega)
  have hor := toNat_or p
  have hlt : p.toNat % 0x4000 < 0x4000 := Nat.mod_lt _ (by decide)
  rw [store16_htons]
  have h0 := known_get (a := b) (l := be16 (p ||| 0xC000)) (c := []) (i := 0)
    (by simp) (hout _ (by omega))
  have h1 := known_get (a := b) (l := be16 (p ||| 0xC000)) (c := []) (i := 1)
    (by simp) (hout _ (by omega))
  rw [List.append_nil] at h0 h1
  have htarget : pointerTarget (UInt8.ofNat ((p ||| 0xC000).toNat / 256))
      (UInt8.ofNat (p ||| 0xC000).toNat) = p.toNat % 0x4000 := by
    simp only [pointerTarget, UInt8.toNat_ofNat']
    omega
  refine @NameAt.pointer _ _ _ next _ _ _ h0 ?_ h1 ?_ ?_
  · show 192 ≤ (UInt8.ofNat ((p ||| 0xC000).toNat / 256)).toNat
    rw [UInt8.toNat_ofNat']
    omega
  · exact htarget ▸ hp
  · show NameAt _ (pointerTarget (UInt8.ofNat ((p ||| 0xC000).toNat / 256))
      (UInt8.ofNat (p ||| 0xC000).toNat)) (pointerTarget (UInt8.ofNat ((p ||| 0xC000).toNat / 256))
      (UInt8.ofNat (p ||| 0xC000).toNat)) _ _
    rw [htarget]
    exact hn.mono (known_le_append _ _ _)

/-- A place the encoder may append to: its labels are sound, its offsets fit a pointer, and nothing
past its end is a hole. -/
structure Ready (hole : List ℕ) (w : Wire) : Prop where
  sound : Sound hole w
  length_le : w.buffer.length ≤ 0x4000
  hole_lt : ∀ i ∈ hole, i < w.buffer.length

/-- **A name written by the two-argument `WriteDomainName`** at the old end of the buffer is read as its
fragments. -/
theorem writeDomainName_spec {hole : List ℕ} {w : Wire} {name : Bytes} (h : Ready hole w)
    (hshort : Short (toFraments name)) : ∃ nb : Bytes,
      writeDomainName name w = (.ok nb.length, ⟨w.buffer ++ nb, w.labels⟩) ∧
      nb.length ≤ (encodeLabels (toFraments name)).length + 1 ∧
      ReadsAs (known hole (w.buffer ++ nb)) w.buffer.length (toFraments name)
        (w.buffer.length + nb.length) := by
  have hout : ∀ i, w.buffer.length ≤ i → i ∉ hole := fun i hi hm =>
    absurd (h.hole_lt i hm) (by omega)
  obtain ⟨found, hfound, hmatch⟩ := searchLoop_spec (z := none)
    (known_le_view hole w.buffer) h.length_le h.sound (by simp)
  have hsearch : searchForDomainName w.buffer (toFraments name) w.labels = .ok found := hfound
  cases found with
  | none =>
    refine ⟨encodeLabels (toFraments name) ++ [0], ?_, by simp, ?_⟩
    · simp [writeDomainName, Proc.get, Proc.ofExcept, Proc.modify, Wire.append, Wire.size, bind, pure,
        hsearch, pushFrags_eq]
    by_cases hne : [] ∈ toFraments name
    · exact readsAs_of_empty hshort hne hout (by simp)
    · have htail : NameAt (known hole (w.buffer ++ encodeLabels (toFraments name) ++ [0]))
          w.buffer.length (w.buffer.length + (encodeLabels (toFraments name)).length) []
          (w.buffer.length + (encodeLabels (toFraments name)).length + 1) := by
        refine .root ?_
        rw [known_of_notMem (hout _ (by omega))]
        simp
      refine readsAs_of_nameAt ?_
      have := nameAt_encodeLabels (hshort.fit hne) hout htail
      simpa [Nat.add_assoc] using this
  | some best =>
    obtain ⟨i, p⟩ := best
    obtain ⟨hi, next, hn⟩ := hmatch _ rfl
    simp only at hi hn
    have hrest := hn.nil_notMem
    refine ⟨encodeLabels ((toFraments name).take i) ++ store16 (htons (p ||| 0xC000)), ?_, ?_, ?_⟩
    · simp [writeDomainName, Proc.get, Proc.ofExcept, Proc.modify, Wire.append, Wire.size, bind, pure,
        hsearch, pushFrags_eq]
    · have := length_encodeLabels_take hrest hi
      simp [store16]
      omega
    have hft : Short ((toFraments name).take i) := fun l hl => hshort l (List.mem_of_mem_take hl)
    by_cases hne : [] ∈ (toFraments name).take i
    · -- no match reaches over an empty label: it is in front of the pointer
      obtain ⟨next, hname, hstop⟩ := readsAs_of_empty hft hne hout
        (show store16 (htons (p ||| 0xC000)) ≠ [] by simp [store16])
      have hcut := @untilEmpty_append _ ((toFraments name).drop i) hne
      rw [List.take_append_drop] at hcut
      refine ⟨next, by rwa [hcut], hstop.trans (iff_of_false (fun h => h hne) fun h => h ?_)⟩
      exact List.mem_of_mem_take hne
    · obtain ⟨c, hc⟩ := hn.some_of
      have hp := lt_of_known hc
      have hmod : p.toNat % 0x4000 = p.toNat := Nat.mod_eq_of_lt (by have := h.length_le; omega)
      have htail := nameAt_pointer (b := w.buffer ++ encodeLabels ((toFraments name).take i))
        (s := w.buffer.length) (p := p)
        (by rw [hmod]; exact hn.mono (known_le_append _ _ _)) (by omega)
        (hole_lt_append h.hole_lt _)
      rw [List.length_append] at htail
      refine readsAs_of_nameAt ?_
      have := nameAt_encodeLabels (hft.fit hne) hout htail
      rw [List.take_append_drop] at this
      simpa [store16, Nat.add_assoc] using this

/-- **`AddLabelForCompression` of a stored name** keeps the list sound; this needs no more of the
buffer than `b`, where the name is stored. -/
theorem addLabel_spec {hole : List ℕ} {w : Wire} {b : Bytes} {offset : UInt16} {ls : List Label}
    {next : ℕ} (hs : Sound hole ⟨b, w.labels⟩) (hle : (known hole b).Le (view w.buffer))
    (hn : NameAt (known hole b) (offset.toNat % 0x4000) (offset.toNat % 0x4000) ls next) :
    ∃ labels, addLabel offset w = (.ok (), ⟨w.buffer, labels⟩) ∧ Sound hole ⟨b, labels⟩ := by
  obtain ⟨c, hc⟩ := hn.some_of
  have hofs : ((offset ||| 0xC000) &&& ~~~0xC000).toNat = offset.toNat % 0x4000 := by
    rw [or_clear, toNat_mask]
  have hdst : ∃ dst, (if c &&& 0xC0 = 0xC0 then
      (wordAt w.buffer (offset.toNat % 0x4000)).map ntohs else .ok (offset ||| 0xC000)) =
        .ok dst := by
    split_ifs with hmark
    · have h192 := (and_0xC0_eq_iff c).mp hmark
      cases hn with
      | root h => rw [hc] at h; cases h; exact absurd h192 (by decide)
      | label h _ h64 => rw [hc] at h; cases h; exact absurd h64 (not_lt_of_pointer h192)
      | pointer h _ hd =>
        obtain ⟨v, hv, -⟩ := wordAt_eq (hle _ _ h) (hle _ _ hd)
        exact ⟨ntohs v, by rw [hv]; rfl⟩
    · exact ⟨_, rfl⟩
  obtain ⟨dst, hdst⟩ := hdst
  have hadd : addLabelForCompression w.buffer w.labels offset =
      if dst ∈ w.labels then .ok w.labels else .ok (w.labels ++ [offset ||| 0xC000]) := by
    simp only [addLabelForCompression, hofs, octetAt_eq (hle _ _ hc), bind, Except.bind]
    by_cases hmark : c &&& 0xC0 = 0xC0
    · rw [if_pos hmark] at hdst ⊢
      rw [hdst]
    · rw [if_neg hmark] at hdst ⊢
      cases hdst; rfl
  by_cases hmem : dst ∈ w.labels
  · rw [if_pos hmem] at hadd
    refine ⟨w.labels, ?_, hs⟩
    simp [addLabel, Proc.get, Proc.ofExcept, Proc.modify, bind, hadd]
  · rw [if_neg hmem] at hadd
    refine ⟨w.labels ++ [offset ||| 0xC000], ?_, fun l hl => ?_⟩
    · simp [addLabel, Proc.get, Proc.ofExcept, Proc.modify, bind, hadd]
    · rcases List.mem_append.mp hl with hl | hl
      · exact hs l hl
      · rw [List.mem_singleton.mp hl, toNat_or_mod]
        exact ⟨ls, next, hn⟩

/-- **A name written by the three-argument `WriteDomainName`** at the old end of the buffer is read as
its fragments, and the label list stays sound. -/
theorem writeZoneName_reads {hole : List ℕ} {w : Wire} {name : Bytes} {zone : Option ZonePtr}
    (h : Ready hole w) (hlt : w.buffer.length < 0x4000)
    (hshort : Short (toFraments (nameInZone name zone))) : ∃ (nb : Bytes) (labels : List UInt16),
      writeZoneName name zone w = (.ok nb.length, ⟨w.buffer ++ nb, labels⟩) ∧
      Sound hole ⟨w.buffer ++ nb, labels⟩ ∧
      nb.length ≤ (encodeLabels (toFraments (nameInZone name zone))).length + 1 ∧
      ReadsAs (known hole (w.buffer ++ nb)) w.buffer.length (toFraments (nameInZone name zone))
        (w.buffer.length + nb.length) := by
  obtain ⟨nb, hw, hlen, hreads⟩ := writeDomainName_spec h hshort
  obtain ⟨next, hn, -⟩ := id hreads
  have hoff : (UInt16.ofNat w.buffer.length).toNat % 0x4000 = w.buffer.length := by
    rw [UInt16.toNat_ofNat']; omega
  obtain ⟨labels, hadd, hs⟩ := addLabel_spec (w := ⟨w.buffer ++ nb, w.labels⟩)
    (h.sound.of_le (known_le_append _ _ nb)) (known_le_view _ _) (by rw [hoff]; exact hn)
  refine ⟨nb, labels, ?_, hs, hlen, hreads⟩
  rw [writeZoneName, Proc.bind_ok (Wire.size_apply _), Proc.bind_ok hw, Proc.bind_ok hadd,
    Proc.bind_ok (Wire.size_apply _), Proc.pure_apply]
  simp

/-- **A legal name written by the three-argument `WriteDomainName` is stored** at the old end of the
buffer. -/
theorem writeZoneName_spec {hole : List ℕ} {w : Wire} {name : Bytes} {zone : Option ZonePtr}
    {ls : List Label} {most : ℕ} (h : Ready hole w) (hlt : w.buffer.length < 0x4000)
    (hsp : Spells most (nameInZone name zone) ls) : ∃ (nb : Bytes) (labels : List UInt16),
      writeZoneName name zone w = (.ok nb.length, ⟨w.buffer ++ nb, labels⟩) ∧
      Sound hole ⟨w.buffer ++ nb, labels⟩ ∧ nb.length ≤ most + 2 ∧
      NameAt (known hole (w.buffer ++ nb)) w.buffer.length w.buffer.length ls
        (w.buffer.length + nb.length) := by
  have hfr := toFraments_of_spells hsp
  obtain ⟨nb, labels, hw, hs, hlen, next, hn, hstop⟩ := @writeZoneName_reads hole w name zone h
    hlt (by rw [hfr]; exact hsp.fit.short)
  have hne := hsp.fit.nil_notMem
  rw [hfr, untilEmpty_eq hne] at hn
  rw [hfr] at hlen hstop
  refine ⟨nb, labels, hw, hs, ?_, hstop.mpr hne ▸ hn⟩
  rw [length_encodeLabels ls hsp.ne_nil] at hlen
  have := length_dotted_le hsp
  omega

/-! ## Names in a zone -/

theorem nameInZone_none (name : Bytes) : nameInZone name none = name := by
  unfold nameInZone; split <;> rfl

theorem nameInZone_relative {name : Bytes} (hne : name ≠ []) (hd : name.getLast? ≠ some dot) (z : ZonePtr) :
    nameInZone name (some z) = name ++ dot :: z.getDomainName := by
  have hd' : (name.getLast? != some 46) = true := by rw [bne_iff_ne]; exact hd
  rw [nameInZone, List.isEmpty_eq_false_iff.mpr hne, hd', ZonePtr.getDomainName_eq,
    ← dotted_cons (show z.labels ≠ [] from List.cons_ne_nil _ _)]
  exact foldl_dotted name z.labels

theorem nameInZone_absolute {name : Bytes} (hd : name.getLast? = some dot) (zone : Option ZonePtr) :
    nameInZone name zone = name := by
  have hd' : (name.getLast? != some 46) = false := by rw [hd]; rfl
  rw [nameInZone, hd', Bool.and_false, if_neg (by decide)]

theorem spells_nameInZone {z : ZonePtr} {origin ls : List Label} {name : Bytes}
    (hz : Spells 255 z.getDomainName origin) (h : InZone origin name ls) :
    Spells 511 (nameInZone name (some z)) ls := by
  obtain ⟨own, hown, rfl⟩ := h
  by_cases hd : name.getLast? = some dot
  · rw [if_pos hd, nameInZone_absolute hd]
    exact hown.mono (by omega)
  · rw [if_neg hd, nameInZone_relative hown.text_ne_nil hd]
    exact hown.append hz hd

end VUbercool.Dns
