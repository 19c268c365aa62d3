import VUbercool.Dns.LabelParser

/-!
# The length of an accepted name

A name may occupy 255 octets. `size_` is what `LabelHeader` compares with that limit: it counts the text
of a label, two octets for a pointer and one for the root.

* `ItemsAt`: the labels and pointers a name is written with.
* `labelLoop_items`: `size_` counts the items, one by one.
* `parse_ok_iff`: a name is accepted exactly if its items pass the checks and what is counted of them is
  within the limit. `accepted_beyond_limit_iff`: which of these names are too long.
* `name_within_limit_iff`: an accepted name is within the limit exactly where the octets that are not
  counted fit in what the counted ones leave of it.
-/

namespace VUbercool.Dns

open Octets Rfc1035

variable {mem : Memory} {stop p : ℕ} {known : List StringRef}

/-! ## Items -/

/-- What a name is written with: labels, and pointers to labels. -/
inductive NameItem where
  | label (v : StringRef)
  | pointer (v : StringRef)

/-- The label an item adds to the name. -/
def NameItem.target : NameItem → StringRef
  | label v => v
  | pointer v => v

/-- What a round of the loop adds to `size_`. -/
def NameItem.counted : NameItem → ℕ
  | label v => v.data.length
  | pointer _ => 2

/-- What the label of an item takes in uncompressed form beyond what is counted. -/
def NameItem.leftOut : NameItem → ℤ
  | label _ => 1
  | pointer v => v.data.length - 1

/-- **The items of the name at `p`.** A label in front of the first pointer is known to the pointers
behind it. -/
inductive ItemsAt (mem : Memory) : Bool → List StringRef → ℕ → List NameItem → Prop
  | root {pointing : Bool} {known : List StringRef} {p : ℕ} : mem p = 0 → ItemsAt mem pointing known p []
  | label {pointing : Bool} {known : List StringRef} {p : ℕ} {rest : List NameItem} : mem p ≠ 0 →
      (mem p).toNat < 64 →
      ItemsAt mem pointing (if pointing then known else known ++ [labelAt mem (p + 1) (mem p).toNat])
        (p + 1 + (mem p).toNat) rest →
      ItemsAt mem pointing known p (.label (labelAt mem (p + 1) (mem p).toNat) :: rest)
  | pointer {pointing : Bool} {known : List StringRef} {p : ℕ} {v : StringRef} {rest : List NameItem} :
      mem p &&& 0xC0 = 0xC0 → findPointer (load16 mem p &&& ~~~0xC000) known = .ok v →
      ItemsAt mem true known v.stop rest → ItemsAt mem pointing known p (.pointer v :: rest)

/-- A name has one list of items. -/
theorem ItemsAt.unique {pointing : Bool} {items items' : List NameItem}
    (h : ItemsAt mem pointing known p items) (h' : ItemsAt mem pointing known p items') : items' = items := by
  induction h generalizing items' with
  | root h0 =>
    cases h' with
    | root => rfl
    | label g0 => exact absurd h0 g0
    | pointer g => exact absurd h0 (ne_zero_of_pointer g).1
  | label h0 h64 _ ih =>
    cases h' with
    | root g => exact absurd g h0
    | label _ _ g => rw [ih g]
    | pointer g => exact absurd h64 (ne_zero_of_pointer g).2
  | pointer hp hf _ ih =>
    cases h' with
    | root g => exact absurd g (ne_zero_of_pointer hp).1
    | label _ g64 => exact absurd g64 (ne_zero_of_pointer hp).2
    | pointer _ gf g =>
      rw [hf] at gf
      cases gf
      rw [ih g]

/-! ## What is counted -/

/-- **`size_` counts the items** of what the loop accepts, and one octet for its end. -/
theorem labelLoop_items : ∀ {fuel : ℕ} {st st' : LabelState}, labelLoop mem stop fuel st = .ok st' →
    ∃ items, ItemsAt mem st.isTraversingPointer st.knownLabels st.p items ∧
      st'.names = st.names ++ items.map NameItem.target ∧
      st'.size = st.size + (items.map NameItem.counted).sum + 1
  | 0, _, _, h => by cases h
  | fuel + 1, st, st', h => by
    rcases labelLoop_ok h with hs | ⟨st₁, hs, hrest⟩
    · rcases labelStep_ok hs with ⟨h0, -, rfl, -⟩ | ⟨_, _, _, _, hd, _⟩ | ⟨_, _, hd, _⟩
      · exact ⟨[], .root h0, by simp [LabelState.afterRoot], rfl⟩
      · cases hd
      · cases hd
    · obtain ⟨items, hitems, hnames, hsize⟩ := labelLoop_items hrest
      rcases labelStep_ok hs with ⟨_, hd, _⟩ | ⟨h0, h64, -, -, -, rfl⟩ | ⟨hp, -, -, v, hf, rfl⟩
      · cases hd
      · refine ⟨.label (labelAt mem (st.p + 1) (mem st.p).toNat) :: items, .label h0 h64 ?_, ?_, ?_⟩
        · simpa [LabelState.afterLabel, labelAt] using hitems
        · simp [hnames, LabelState.afterLabel, NameItem.target]
        · simp only [LabelState.afterLabel] at hsize
          simp only [List.map_cons, List.sum_cons, NameItem.counted]
          omega
      · refine ⟨.pointer v :: items, .pointer hp hf hitems, ?_, ?_⟩
        · simp [hnames, LabelState.afterPointer, NameItem.target]
        · simp only [LabelState.afterPointer] at hsize
          simp only [List.map_cons, List.sum_cons, NameItem.counted]
          omega

theorem parse_items {size : ℕ} {h : LabelHeader} {known' : List StringRef}
    (hparse : LabelHeader.parse mem p size known = .ok (h, known')) :
    ∃ items, ItemsAt mem false known p items ∧ h.getLabels = (items.map fun i => i.target.data) ∧
      h.size = (items.map NameItem.counted).sum + 1 := by
  rw [LabelHeader.parse] at hparse
  split_ifs at hparse
  cases hl : labelLoop mem (p + size) labelRounds ⟨p, false, [], 0, 0, known⟩ with
  | error e =>
    rw [hl] at hparse
    cases hparse
  | ok st =>
    rw [hl] at hparse
    cases hparse
    obtain ⟨items, hitems, hnames, hsize⟩ := labelLoop_items hl
    refine ⟨items, hitems, ?_, by simpa using hsize⟩
    rw [LabelHeader.getLabels, hnames, List.nil_append, List.map_map]
    rfl

theorem length_encodeLabels_items (items : List NameItem) :
    ((encodeLabels (items.map fun i => i.target.data)).length : ℤ) =
      (items.map NameItem.counted).sum + (items.map NameItem.leftOut).sum := by
  induction items with
  | nil => rfl
  | cons i items ih =>
    have hi : (i.target.data.length : ℤ) + 1 = i.counted + i.leftOut := by
      cases i with
      | label v => rfl
      | pointer v =>
        simp only [NameItem.target, NameItem.counted, NameItem.leftOut]
        omega
    simp only [List.map_cons, encodeLabels, List.length_append, List.length_cons, List.sum_cons]
    simp only [Nat.cast_add, Nat.cast_one, ih]
    omega

/-! ## What is accepted -/

/-- **What else the loop checks** of the items from `p` on: a label has legal characters and ends in the
segment, a pointer lies in it. -/
def Checks (stop : ℕ) : ℕ → List NameItem → Prop
  | _, [] => True
  | _, .label v :: items => v.stop ≤ stop ∧ matchesPat v.data = true ∧ Checks stop v.stop items
  | p, .pointer v :: items => p + 1 < stop ∧ Checks stop v.stop items

theorem ItemsAt.length_le {pointing : Bool} {items : List NameItem}
    (h : ItemsAt mem pointing known p items) : items.length ≤ (items.map NameItem.counted).sum := by
  induction h with
  | root => exact Nat.le_refl 0
  | @label _ _ p _ h0 _ _ ih =>
    have hpos : (mem p).toNat ≠ 0 := fun h => h0 (UInt8.toNat_inj.mp h)
    simp only [List.length_cons, List.map_cons, List.sum_cons, NameItem.counted, labelAt, length_readBytes]
    omega
  | pointer _ _ _ ih =>
    simp only [List.length_cons, List.map_cons, List.sum_cons, NameItem.counted]
    omega

theorem labelLoop_raises {st : LabelState} {fuel : ℕ} {e : Fault} (h : labelStep mem stop st = .error e) :
    ¬ ∃ st', labelLoop mem stop (fuel + 1) st = .ok st' := by
  rintro ⟨st', hok⟩
  rw [labelLoop, h] at hok
  cases hok

/-- **The loop accepts items** that pass its checks and are not too long, by what is counted. -/
theorem labelLoop_iff {pointing : Bool} {items : List NameItem} (h : ItemsAt mem pointing known p items) :
    ∀ {fuel : ℕ} {st : LabelState}, st.p = p → st.knownLabels = known → st.isTraversingPointer = pointing →
      items.length < fuel → ((∃ st', labelLoop mem stop fuel st = .ok st') ↔ Checks stop p items ∧
        (st.names ≠ [] ∨ items ≠ []) ∧ st.size + (items.map NameItem.counted).sum + 1 ≤ 255) := by
  induction h with
  | root h0 =>
    rintro fuel st rfl rfl rfl hf
    obtain ⟨fuel, rfl⟩ : ∃ k, fuel = k + 1 := ⟨fuel - 1, by omega⟩
    obtain ⟨e, he⟩ := @labelStep_root mem stop st h0
    split_ifs at he with hc
    · exact iff_of_true ⟨_, labelLoop_done he⟩ ⟨trivial, .inl hc.2, hc.1⟩
    · refine iff_of_false (labelLoop_raises he) ?_
      rintro ⟨-, hn, hsize⟩
      exact hc ⟨hsize, hn.resolve_right fun h => h rfl⟩
  | label h0 h64 _ ih =>
    rintro fuel st rfl rfl rfl hf
    obtain ⟨fuel, rfl⟩ : ∃ k, fuel = k + 1 := ⟨fuel - 1, by omega⟩
    obtain ⟨e, he⟩ := @labelStep_label mem stop st h0 h64
    set v := labelAt mem (st.p + 1) (mem st.p).toNat with hv
    have hlen : v.data.length = (mem st.p).toNat := by rw [hv, labelAt, length_readBytes]
    have hstop : v.stop = st.p + 1 + (mem st.p).toNat := stop_labelAt ..
    simp only [Checks, hstop, List.map_cons, List.sum_cons, NameItem.counted, hlen]
    split_ifs at he with hc
    · have hrest := @ih fuel (st.afterLabel v) (by rw [LabelState.afterLabel, hlen]) rfl rfl
        (Nat.lt_of_succ_lt_succ hf)
      have hsum : (st.afterLabel v).size = st.size + (mem st.p).toNat := by rw [LabelState.afterLabel, hlen]
      have hnames : (st.afterLabel v).names ≠ [] := by simp [LabelState.afterLabel]
      rw [labelLoop_next he]
      constructor
      · intro h
        obtain ⟨hchecks, -, hsize⟩ := hrest.mp h
        exact ⟨⟨hc.1, hc.2.2, hchecks⟩, .inr (List.cons_ne_nil _ _), by omega⟩
      · rintro ⟨⟨-, -, hchecks⟩, -, hsize⟩
        exact hrest.mpr ⟨hchecks, .inl hnames, by omega⟩
    · refine iff_of_false (labelLoop_raises he) ?_
      rintro ⟨⟨hend, hpat, -⟩, -, hsize⟩
      exact hc ⟨hend, by omega, hpat⟩
  | @pointer _ _ _ v _ hp hfp _ ih =>
    rintro fuel st rfl rfl rfl hf
    obtain ⟨fuel, rfl⟩ : ∃ k, fuel = k + 1 := ⟨fuel - 1, by omega⟩
    simp only [Checks, List.map_cons, List.sum_cons, NameItem.counted]
    rcases @labelStep_pointer mem stop st hp with ⟨v', hend, hsize, hf', he⟩ | ⟨⟨e, he⟩, hno⟩
    · rw [hfp] at hf'
      cases hf'
      have hrest := @ih fuel (st.afterPointer v) rfl rfl rfl (Nat.lt_of_succ_lt_succ hf)
      have hsum : (st.afterPointer v).size = st.size + 2 := rfl
      rw [labelLoop_next he]
      constructor
      · intro h
        obtain ⟨hchecks, -, hle⟩ := hrest.mp h
        exact ⟨⟨hend, hchecks⟩, .inr (List.cons_ne_nil _ _), by omega⟩
      · rintro ⟨⟨-, hchecks⟩, -, hle⟩
        exact hrest.mpr ⟨hchecks, .inl (by simp [LabelState.afterPointer]), by omega⟩
    · refine iff_of_false (labelLoop_raises he) ?_
      rintro ⟨⟨hend, -⟩, -, hle⟩
      exact hno ⟨hend, by omega, _, hfp⟩

/-- **When the constructor succeeds**: on items that pass its checks, if what is counted of them and the root
is within the limit. -/
theorem parse_ok_iff {size : ℕ} : (∃ r, LabelHeader.parse mem p size known = .ok r) ↔ 0 < size ∧
    ∃ items, ItemsAt mem false known p items ∧ Checks (p + size) p items ∧ items ≠ [] ∧
      (items.map NameItem.counted).sum + 1 ≤ 255 := by
  have hloop : ∀ items, ItemsAt mem false known p items → (items.map NameItem.counted).sum + 1 ≤ 255 →
      ((∃ st', labelLoop mem (p + size) labelRounds ⟨p, false, [], 0, 0, known⟩ = .ok st') ↔
        Checks (p + size) p items ∧ items ≠ []) := by
    intro items hitems hle
    have hlen := hitems.length_le
    rw [labelLoop_iff hitems rfl rfl rfl (by rw [labelRounds]; omega)]
    simp only [ne_eq, not_true_eq_false, false_or]
    exact ⟨fun h => ⟨h.1, h.2.1⟩, fun h => ⟨h.1, h.2, by omega⟩⟩
  constructor
  · rintro ⟨⟨h, known'⟩, hparse⟩
    obtain ⟨items, hitems, -, hsize⟩ := parse_items hparse
    rw [LabelHeader.parse] at hparse
    split_ifs at hparse with hpos
    cases hl : labelLoop mem (p + size) labelRounds ⟨p, false, [], 0, 0, known⟩ with
    | error e =>
      rw [hl] at hparse
      cases hparse
    | ok st =>
      rw [hl] at hparse
      cases hparse
      simp only at hsize
      obtain ⟨_, _, _, -, -, -, hle, -⟩ := labelLoop_walk hl
      obtain ⟨hchecks, hne⟩ := (hloop items hitems (by omega)).mp ⟨st, hl⟩
      exact ⟨by omega, items, hitems, hchecks, hne, by omega⟩
  · rintro ⟨hpos, items, hitems, hchecks, hne, hle⟩
    obtain ⟨st, hl⟩ := (hloop items hitems hle).mpr ⟨hchecks, hne⟩
    refine ⟨(⟨st.names, st.size, st.bufferSize⟩, st.knownLabels), ?_⟩
    rw [LabelHeader.parse, if_neg (by omega), hl]
    rfl

/-! ## The limit -/

/-- **The octets of a name that are not counted**, one for each of its labels and for each pointer the
text of its target less one octet, fit in what the counted ones and the root leave of the limit. -/
def LeftOutFits (mem : Memory) (known : List StringRef) (p : ℕ) : Prop :=
  ∃ items, ItemsAt mem false known p items ∧
    (items.map NameItem.leftOut).sum ≤ 255 - ((items.map NameItem.counted).sum + 1 : ℤ)

/-- **When an accepted name is within the limit** of 255 octets in uncompressed form, its length octets
and the root included. -/
theorem name_within_limit_iff {size : ℕ} {h : LabelHeader} {known' : List StringRef}
    (hparse : LabelHeader.parse mem p size known = .ok (h, known')) :
    (encodeLabels h.getLabels ++ [0]).length ≤ 255 ↔ LeftOutFits mem known p := by
  obtain ⟨items, hitems, hlabels, -⟩ := parse_items hparse
  have hlen := length_encodeLabels_items items
  rw [← hlabels] at hlen
  have hfits : LeftOutFits mem known p ↔
      (items.map NameItem.leftOut).sum ≤ 255 - ((items.map NameItem.counted).sum + 1 : ℤ) := by
    constructor
    · rintro ⟨items', hitems', h⟩
      rwa [hitems.unique hitems'] at h
    · exact fun h => ⟨items, hitems, h⟩
  rw [hfits, List.length_append, List.length_singleton]
  omega

/-- **Names that are accepted beyond the limit**: what is counted of the items and the root is within it, and
with what is left out it is not. -/
theorem accepted_beyond_limit_iff {size : ℕ} : (∃ h known', LabelHeader.parse mem p size known = .ok (h, known') ∧
      255 < (encodeLabels h.getLabels ++ [0]).length) ↔ 0 < size ∧
    ∃ items, ItemsAt mem false known p items ∧ Checks (p + size) p items ∧ items ≠ [] ∧
      (items.map NameItem.counted).sum + 1 ≤ 255 ∧
      (255 : ℤ) < (items.map NameItem.counted).sum + (items.map NameItem.leftOut).sum + 1 := by
  have hlen : ∀ items : List NameItem, ItemsAt mem false known p items → ∀ {h : LabelHeader} {known'},
      LabelHeader.parse mem p size known = .ok (h, known') →
      ((encodeLabels h.getLabels ++ [0]).length : ℤ) =
        (items.map NameItem.counted).sum + (items.map NameItem.leftOut).sum + 1 := by
    intro items hitems h known' hparse
    obtain ⟨items', hitems', hlabels, -⟩ := parse_items hparse
    cases hitems.unique hitems'
    rw [List.length_append, hlabels, List.length_singleton, Nat.cast_add, length_encodeLabels_items]
    rfl
  constructor
  · rintro ⟨h, known', hparse, hlong⟩
    obtain ⟨hpos, items, hitems, hchecks, hne, hle⟩ := parse_ok_iff.mp ⟨_, hparse⟩
    exact ⟨hpos, items, hitems, hchecks, hne, hle, hlen items hitems hparse ▸ by exact_mod_cast hlong⟩
  · rintro ⟨hpos, items, hitems, hchecks, hne, hle, hlong⟩
    obtain ⟨⟨h, known'⟩, hparse⟩ := parse_ok_iff.mpr ⟨hpos, items, hitems, hchecks, hne, hle⟩
    refine ⟨h, known', hparse, ?_⟩
    rw [← hlen items hitems hparse] at hlong
    exact_mod_cast hlong

/-- Four labels of the greatest length. -/
def fourLabels : List Label := List.replicate 4 (List.replicate 63 97)

theorem parse_fourLabels : LabelHeader.parse (memoryOf (encodeLabels fourLabels ++ [0])) 0 257 [] =
    .ok (⟨labelRefs 0 fourLabels, 253, 257⟩, labelRefs 0 fourLabels) := by
  have hname : PlainName fourLabels := by decide +kernel
  have hmem : Holds (memoryOf (encodeLabels fourLabels ++ [0])) 0 (encodeLabels fourLabels ++ [0]) := by
    simpa using holds_memoryOf [] (encodeLabels fourLabels ++ [0]) []
  have htext : textLength fourLabels = 252 := by decide +kernel
  have hlen : (encodeLabels fourLabels).length = 256 := by decide +kernel
  rw [parse_plain hname hmem (by omega), htext, hlen, List.nil_append]

/-- They take 257 octets. -/
theorem name_exceeds_limit : ¬ ∀ (mem : Memory) (p size : ℕ) (known : List StringRef) (h : LabelHeader)
    (known' : List StringRef), LabelHeader.parse mem p size known = .ok (h, known') →
    (encodeLabels h.getLabels ++ [0]).length ≤ 255 := by
  intro hall
  have hlen := hall _ _ _ _ _ _ parse_fourLabels
  rw [LabelHeader.getLabels, map_data_labelRefs] at hlen
  exact absurd hlen (by decide +kernel)

/-- For four labels of the greatest length the octets left out do not fit. -/
theorem leftOutFits_fourLabels : ¬ LeftOutFits (memoryOf (encodeLabels fourLabels ++ [0])) [] 0 := by
  rw [← name_within_limit_iff parse_fourLabels, LabelHeader.getLabels, map_data_labelRefs]
  decide +kernel

end VUbercool.Dns
