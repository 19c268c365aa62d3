import Mathlib.Order.Bounds.Defs
import VUbercool.Dns.Compression

/-!
# What the search for a stored name finds

* `Exact`: where the comparison with one stored name ends. `reverseCompare_exact`.
* `Listed`: the name a label stands for. `BestMatch`: the longest suffix that is listed.
* `searchForDomainName_iff`: the search returns it unless a listed name goes on in front of all
  fragments.
* `searchForDomainName_match`: what it returns is stored where it says.
-/

namespace VUbercool.Dns

open Octets Rfc1035

variable {m : View} {b : Bytes} {frags : List Bytes} {ls : List Label}

/-! ## One name -/

/-- The name ends in all fragments and goes on in front of them. -/
def Beyond (frags : List Bytes) (ls : List Label) : Prop := frags <:+ ls ∧ ls ≠ frags

/-- **Where the comparison of the labels `ls` to `frags` ends**, from the last ones on: `whole` where
`ls` ran out, `past` where `frags` ran out before, `part` at the first difference. -/
inductive Exact (frags : List Bytes) (ls : List Label) (r : Compared) : Prop
  | whole (k : ℕ) : r.matched = true → r.currFrag = k → k ≤ frags.length → frags.drop k = ls →
      Exact frags ls r
  | past : r.matched = true → r.currFrag < 0 → Beyond frags ls → Exact frags ls r
  | part (k : ℕ) : r.matched = false → r.currFrag = (k + 1 : ℕ) → k < frags.length →
      frags.length < k + 1 + ls.length → frags.drop (k + 1) <:+ ls → ¬ frags.drop k <:+ ls →
      Exact frags ls r

theorem drop_eq_cons {k : ℕ} {l : Label} (hl : frags[k]? = some l)
    (hdrop : frags.drop (k + 1) = ls) : frags.drop k = l :: ls := by
  obtain ⟨hk, hl⟩ := List.getElem?_eq_some_iff.mp hl
  rw [List.drop_eq_getElem_cons hk, hl, hdrop]

theorem not_suffix_of_ne {k : ℕ} {l : Label} (hk : k < frags.length) (hl : frags[k]? ≠ some l)
    (hdrop : frags.drop (k + 1) = ls) : ¬ frags.drop k <:+ l :: ls := by
  intro h
  have hcons := List.drop_eq_getElem_cons hk
  have heq : frags.drop k = l :: ls := by
    apply h.eq_of_length
    rw [hcons, hdrop, List.length_cons, List.length_cons]
  rw [hcons] at heq
  exact hl (List.getElem?_eq_some_iff.mpr ⟨hk, (List.cons.inj heq).1⟩)

theorem Exact.label {r : Compared} (h : Exact frags ls r) (l : Label) (place : UInt16) :
    Exact frags (l :: ls)
      (if r.matched then
        if r.currFrag - 1 < 0 then { r with currFrag := r.currFrag - 1 }
        else if frags[(r.currFrag - 1).toNat]? = some l then ⟨true, r.currFrag - 1, place⟩
        else { r with matched := false }
      else r) := by
  cases h with
  | whole k hm hc hk hdrop =>
    rw [if_pos hm]
    cases k with
    | zero =>
      rw [if_pos (by omega)]
      rw [List.drop_zero] at hdrop
      refine .past hm (by simp only [hc]; omega) ?_
      rw [hdrop]
      exact ⟨List.suffix_cons l ls, List.cons_ne_self l ls⟩
    | succ k =>
      have hpos : (r.currFrag - 1).toNat = k := by omega
      rw [if_neg (by omega), hpos]
      split_ifs with hl
      · exact .whole k rfl (by simp only [hc]; omega) (by omega) (drop_eq_cons hl hdrop)
      · refine .part k rfl hc hk ?_ ?_ (not_suffix_of_ne hk hl hdrop)
        · have := congrArg List.length hdrop
          rw [List.length_drop] at this
          rw [List.length_cons]
          omega
        · rw [hdrop]
          exact List.suffix_cons l ls
  | past hm hc hb =>
    rw [if_pos hm, if_pos (by omega)]
    refine .past hm (by simp only; omega) ⟨hb.1.trans (List.suffix_cons l ls), fun he => ?_⟩
    have := hb.1.length_le
    rw [← he, List.length_cons] at this
    omega
  | part k hm hc hk hlen hs hno =>
    rw [if_neg (by simp [hm])]
    refine .part k hm hc hk (by rw [List.length_cons]; omega) (hs.trans (List.suffix_cons l ls)) ?_
    intro h
    rcases List.suffix_cons_iff.mp h with heq | h
    · have := congrArg List.length heq
      rw [List.length_drop, List.length_cons] at this
      omega
    · exact hno h

/-- **A place in range is stored**: the fragments from there on are the labels at `bestMatchedOffset`. -/
def Compared.Stored (m : View) (frags : List Bytes) (r : Compared) : Prop :=
  0 ≤ r.currFrag → r.currFrag < frags.length →
    Decodes m r.bestMatchedOffset.toNat (frags.drop r.currFrag.toNat)

theorem Compared.Stored.label {r : Compared} {l : Label} {place : UInt16} (h : r.Stored m frags)
    (he : Exact frags ls r) (hn : Decodes m place.toNat (l :: ls)) :
    Compared.Stored m frags
      (if r.matched then
        if r.currFrag - 1 < 0 then { r with currFrag := r.currFrag - 1 }
        else if frags[(r.currFrag - 1).toNat]? = some l then ⟨true, r.currFrag - 1, place⟩
        else { r with matched := false }
      else r) := by
  split_ifs with hm hneg hl
  · exact fun h0 => absurd h0 (by simp only; omega)
  · intro _ _
    cases he with
    | whole k _ hc _ hdrop =>
      rw [show k = (r.currFrag - 1).toNat + 1 by omega] at hdrop
      simp only
      rwa [drop_eq_cons hl hdrop]
    | past _ hc => omega
    | part _ hno => exact absurd (hm.symm.trans hno) (by decide)
  · exact h
  · exact h

/-- **`ReverseCompare`** on the labels an offset stands for ends, and where it ends is known. The
induction is on the steps that find the labels. -/
theorem reverseCompare_exact (hm : m.Le (view b)) (hlt : ∀ i c, m i = some c → i < 0x4000)
    {n off : ℕ} (h : DecodesIn m n off ls) : ∀ {f : ℕ} {label : UInt16},
      label.toNat % 0x4000 = off → n < f → ∀ best : UInt16,
      ∃ r, reverseCompare b frags f label (-1) best = .ok r ∧ Exact frags ls r ∧ r.Stored m frags := by
  induction h with
  | root h0 =>
    intro fuel label hl hf best
    obtain ⟨fuel, rfl⟩ : ∃ k, fuel = k + 1 := ⟨fuel - 1, by omega⟩
    refine ⟨_, reverseCompare_root (hm _ _ h0) hl, .whole frags.length rfl rfl (Nat.le_refl _) ?_, ?_⟩
    · exact List.drop_length
    · exact fun _ h => absurd h (Int.lt_irrefl _)
  | @label n off c l ls hc h0 h64 hs hn ih =>
    intro fuel label hl hf best
    obtain ⟨fuel, rfl⟩ : ∃ k, fuel = k + 1 := ⟨fuel - 1, by omega⟩
    obtain ⟨e, he⟩ := hn.some_of
    obtain ⟨r, hr, hexact, hstored⟩ := ih (toNat_next_label hl (hlt _ _ he)) (f := fuel) (by omega) best
    have hplace : Decodes m (label &&& ~~~0xC000).toNat (l :: ls) := by
      rw [toNat_mask, hl]
      exact ⟨n + 1, .label hc h0 h64 hs hn⟩
    have hlabel := hexact.label l (label &&& ~~~0xC000)
    have hlabel' := hstored.label hexact hplace
    rw [reverseCompare_label (hm _ _ hc) h0 h64 (slice_mono hm hs) hl hr]
    split_ifs at hlabel hlabel' ⊢
    · exact ⟨_, rfl, hlabel, hlabel'⟩
    · exact ⟨_, rfl, hlabel, hlabel'⟩
    · exact ⟨_, rfl, hlabel, hlabel'⟩
    · exact ⟨_, rfl, hlabel, hlabel'⟩
  | @pointer n off c d ls hc h192 hd hn ih =>
    intro fuel label hl hf best
    obtain ⟨fuel, rfl⟩ : ∃ k, fuel = k + 1 := ⟨fuel - 1, by omega⟩
    obtain ⟨r, hr, hexact⟩ := ih (toNat_pointer c d) (f := fuel) (by omega) best
    exact ⟨r, (reverseCompare_pointer (hm _ _ hc) h192 (hm _ _ hd) hl).trans hr, hexact⟩

theorem Exact.range {r : Compared} (h : Exact frags ls r) :
    (0 ≤ r.currFrag → r.currFrag < frags.length → frags.drop r.currFrag.toNat <:+ ls ∧
        ∀ k < r.currFrag.toNat, ¬ frags.drop k <:+ ls) ∧
      (r.currFrag = 0 → ls = frags) ∧
      (¬ (0 ≤ r.currFrag ∧ r.currFrag < frags.length) → ∀ k < frags.length,
        frags.drop k <:+ ls → Beyond frags ls) := by
  have hlonger : ∀ {k k' : ℕ}, k < k' → k' ≤ frags.length → ¬ frags.drop k <:+ frags.drop k' := by
    intro k k' hk hk' h
    have := h.length_le
    rw [List.length_drop, List.length_drop] at this
    omega
  cases h with
  | whole k _ hc hk hdrop =>
    have hk' : r.currFrag.toNat = k := by omega
    refine ⟨fun _ _ => ?_, fun h0 => ?_, fun hout i hi hs => ?_⟩
    · rw [hk', hdrop]
      exact ⟨List.suffix_rfl, fun i hi hs => hlonger hi hk (hdrop ▸ hs)⟩
    · rw [← hdrop, show k = 0 by omega, List.drop_zero]
    · exact absurd (hdrop ▸ hs) (hlonger (by omega) hk)
  | past _ hc hb =>
    exact ⟨fun h => absurd h (by omega), fun h => absurd h (by omega), fun _ _ _ _ => hb⟩
  | part k _ hc hk hlen hs hno =>
    have hk' : r.currFrag.toNat = k + 1 := by omega
    have hbefore : ∀ i ≤ k, ¬ frags.drop i <:+ ls := fun i hi h => by
      have : frags.drop k <:+ frags.drop i := by
        rw [show k = i + (k - i) by omega, ← List.drop_drop]
        exact List.drop_suffix _ _
      exact hno (this.trans h)
    refine ⟨fun _ _ => ?_, fun h0 => absurd h0 (by omega), fun hout i hi hs => ?_⟩
    · rw [hk']
      exact ⟨hs, fun i hi => hbefore i (by omega)⟩
    · exact absurd hs (hbefore i (by omega))

/-! ## All names -/

/-- **The name a label stands for**, among the offsets that a label can hold. -/
def Listed (b : Bytes) (label : UInt16) (ls : List Label) : Prop :=
  Decodes (view (b.take 0x4000)) (label.toNat % 0x4000) ls

/-- What the loop holds after the names `names`: the first place from which on the fragments end one of
them, where names beyond the fragments do not count. -/
structure Best (frags : List Bytes) (names : List (List Label)) (z : Option (ℕ × UInt16)) : Prop where
  lt : ∀ x ∈ z, x.1 < frags.length
  ends : ∀ x ∈ z, ∃ ls ∈ names, frags.drop x.1 <:+ ls ∧ (x.1 = 0 → ls = frags)
  first : ∀ k < (z.map Prod.fst).getD frags.length, ∀ ls ∈ names, frags.drop k <:+ ls → Beyond frags ls

theorem view_take_le (b : Bytes) (n : ℕ) : (view (b.take n)).Le (view b) := by
  intro i c h
  have h : (b.take n)[i]? = some c := h
  rw [List.getElem?_take] at h
  split_ifs at h
  exact h

theorem Listed.compare {label : UInt16} (h : Listed b label ls) (frags : List Bytes) :
    ∃ r, reverseCompare b frags compareDepth label (-1) 0 = .ok r ∧ Exact frags ls r ∧
      r.Stored (view (b.take 0x4000)) frags := by
  obtain ⟨n, hn⟩ := h
  have hlt : ∀ i c, view (b.take 0x4000) i = some c → i < 0x4000 := fun i c hc => by
    have := (List.getElem?_eq_some_iff.mp hc).1
    rw [List.length_take] at this
    omega
  have hsteps := hn.lt_size hlt
  have hdepth : 0x4000 ≤ compareDepth := by decide
  exact reverseCompare_exact (view_take_le b _) hlt hn rfl (by omega) 0

/-- One more name: `z` gives way to a place that is in range and before it. -/
theorem Best.step {names : List (List Label)} {z : Option (ℕ × UInt16)} {r : Compared}
    (hz : Best frags names z) (hr : Exact frags ls r) : Best frags (names ++ [ls])
      (if 0 ≤ r.currFrag ∧ r.currFrag < frags.length ∧ ∀ m ∈ z, r.currFrag < m.1 then
        some (r.currFrag.toNat, r.bestMatchedOffset) else z) := by
  obtain ⟨hin, hzero, hout⟩ := hr.range
  split_ifs with h
  · obtain ⟨h0, hn, hm⟩ := h
    obtain ⟨hs, hfirst⟩ := hin h0 hn
    refine ⟨fun x hx => ?_, fun x hx => ?_, fun k hk ls' hls' hdrop => ?_⟩
    · cases hx
      simp only
      omega
    · cases hx
      exact ⟨ls, by simp, hs, fun h => hzero (by simp only at h; omega)⟩
    · simp only [Option.map_some, Option.getD_some] at hk
      rcases List.mem_append.mp hls' with hls' | hls'
      · refine hz.first k ?_ ls' hls' hdrop
        cases z with
        | none => simp only [Option.map_none, Option.getD_none]; omega
        | some x =>
          have := hm x rfl
          simp only [Option.map_some, Option.getD_some]
          omega
      · rw [List.mem_singleton.mp hls'] at hdrop
        exact absurd hdrop (hfirst k hk)
  · refine ⟨hz.lt, fun x hx => ?_, fun k hk ls' hls' hdrop => ?_⟩
    · obtain ⟨ls', hls', hdrop⟩ := hz.ends x hx
      exact ⟨ls', List.mem_append_left _ hls', hdrop⟩
    · rcases List.mem_append.mp hls' with hls' | hls'
      · exact hz.first k hk ls' hls' hdrop
      · rw [List.mem_singleton.mp hls'] at hdrop ⊢
        have hkn : k < frags.length := by
          cases z with
          | none => exact hk
          | some x => exact Nat.lt_trans hk (hz.lt x rfl)
        by_cases hrange : 0 ≤ r.currFrag ∧ r.currFrag < frags.length
        · -- in range, but not before what the loop holds
          refine absurd hdrop ((hin hrange.1 hrange.2).2 k ?_)
          cases z with
          | none => exact absurd ⟨hrange.1, hrange.2, by simp⟩ h
          | some x =>
            simp only [Option.map_some, Option.getD_some] at hk
            by_contra hle
            exact h ⟨hrange.1, hrange.2, fun m hm => by cases hm; omega⟩
        · exact hout hrange k hkn hdrop

theorem best_nil : Best frags [] none := ⟨by simp, by simp, by simp⟩

theorem searchLoop_best : ∀ {labels : List UInt16} {names seen : List (List Label)}
    {z : Option (ℕ × UInt16)}, List.Forall₂ (Listed b) labels names → Best frags seen z →
    ∃ found, searchLoop b frags labels z = .ok found ∧ Best frags (seen ++ names) found
  | [], _, seen, z, .nil, hz => ⟨z, rfl, by rwa [List.append_nil]⟩
  | label :: labels, ls :: names, seen, z, .cons hl hls, hz => by
    obtain ⟨r, hr, hexact, -⟩ := hl.compare frags
    have hstep := hz.step hexact
    unfold searchLoop
    simp only [hr, bind, Except.bind]
    rw [List.append_cons]
    split_ifs at hstep ⊢ with hin h0
    · refine ⟨_, rfl, ?_⟩
      rw [h0] at hstep
      refine ⟨hstep.lt, fun x hx => ?_, fun k hk => absurd hk (by simp)⟩
      obtain ⟨ls', hls', hdrop⟩ := hstep.ends x hx
      exact ⟨ls', List.mem_append_left _ hls', hdrop⟩
    · exact searchLoop_best hls hstep
    · exact searchLoop_best hls hstep

/-- **The best match**: a place is found if and only if a listed name ends in fragments, and it is
where the longest such suffix of the fragments begins. -/
def BestMatch (frags : List Bytes) (names : List (List Label)) (found : Option (ℕ × UInt16)) : Prop :=
  (found.isSome ↔ ∃ ls ∈ names, ∃ s, s ≠ [] ∧ s <:+ frags ∧ s <:+ ls) ∧
    ∀ x ∈ found, ∃ longest, x.1 = frags.length - longest ∧
      IsGreatest {n | ∃ s, s <:+ frags ∧ s.length = n ∧ ∃ ls ∈ names, s <:+ ls} longest

theorem suffix_eq_drop {s : List Bytes} (h : s <:+ frags) :
    s = frags.drop (frags.length - s.length) := List.suffix_iff_eq_drop.mp h

theorem Best.bestMatch {names : List (List Label)} {found : Option (ℕ × UInt16)}
    (h : Best frags names found)
    (hc : frags = [] ∨ ∀ ls ∈ names, Beyond frags ls → frags ∈ names) :
    BestMatch frags names found := by
  have hfirst : ∀ k < (found.map Prod.fst).getD frags.length, ∀ ls ∈ names,
      ¬ frags.drop k <:+ ls := by
    intro k hk ls hls hdrop
    rcases hc with rfl | hc
    · cases found with
      | none => simp at hk
      | some x => exact absurd (h.lt x rfl) (by simp)
    · have hmem := hc ls hls (h.first k hk ls hls hdrop)
      have := h.first 0 (by omega) frags hmem List.suffix_rfl
      exact this.2 rfl
  refine ⟨⟨fun hs => ?_, ?_⟩, fun x hx => ?_⟩
  · obtain ⟨x, rfl⟩ := Option.isSome_iff_exists.mp hs
    obtain ⟨ls, hls, hdrop, _⟩ := h.ends x rfl
    refine ⟨ls, hls, _, ?_, List.drop_suffix _ _, hdrop⟩
    rw [Ne, List.drop_eq_nil_iff]
    have := h.lt x rfl
    omega
  · rintro ⟨ls, hls, s, hne, hsf, hsl⟩
    have hpos := List.length_pos_of_ne_nil hne
    have := hsf.length_le
    rw [suffix_eq_drop hsf] at hsl
    cases found with
    | none => exact absurd hsl (hfirst _ (by simp only [Option.map_none, Option.getD_none]; omega) ls hls)
    | some x => rfl
  · obtain ⟨ls, hls, hdrop, _⟩ := h.ends x hx
    have hlt := h.lt x hx
    refine ⟨frags.length - x.1, by omega, ⟨_, List.drop_suffix x.1 frags, List.length_drop, ls, hls, hdrop⟩,
      ?_⟩
    rintro n ⟨s, hsf, rfl, ls', hls', hsl⟩
    have := hsf.length_le
    rw [suffix_eq_drop hsf] at hsl
    by_contra hlen
    cases hx
    exact hfirst _ (by simp only [Option.map_some, Option.getD_some]; omega) ls' hls' hsl

/-- **`SearchForDomainName` finds the best match** among the listed names if and only if no listed name
goes on in front of all fragments, unless there are no fragments or they are listed themselves. -/
theorem searchForDomainName_iff {labels : List UInt16} {names : List (List Label)}
    (h : List.Forall₂ (Listed b) labels names) (frags : List Bytes) :
    ∃ found, searchForDomainName b frags labels = .ok found ∧
      (BestMatch frags names found ↔
        frags = [] ∨ ∀ ls ∈ names, Beyond frags ls → frags ∈ names) := by
  obtain ⟨found, hfound, hbest⟩ := searchLoop_best h (@best_nil frags)
  rw [List.nil_append] at hbest
  refine ⟨found, hfound, fun hmatch => ?_, hbest.bestMatch⟩
  by_cases hnil : frags = []
  · exact .inl hnil
  refine .inr fun ls hls hbeyond => ?_
  obtain ⟨x, rfl⟩ := Option.isSome_iff_exists.mp
    (hmatch.1.mpr ⟨ls, hls, frags, hnil, List.suffix_rfl, hbeyond.1⟩)
  obtain ⟨longest, hx, _, hub⟩ := hmatch.2 x rfl
  have hle : frags.length ≤ longest := hub ⟨frags, List.suffix_rfl, rfl, ls, hls, hbeyond.1⟩
  obtain ⟨ls', hls', _, hself⟩ := hbest.ends x rfl
  rw [← hself (by omega)]
  exact hls'

/-- A buffer that holds the name `a.b`. -/
def abBuffer : Bytes := [1, 97, 1, 98, 0]

def abName : List Label := [[97], [98]]

def xbFrags : List Bytes := [[120], [98]]

theorem abBuffer_listed : List.Forall₂ (Listed abBuffer) [0xC000] [abName] := by
  refine .cons ⟨2, ?_⟩ .nil
  exact .label (c := 1) rfl (by decide) (by decide) rfl
    (.label (c := 1) rfl (by decide) (by decide) rfl (.root rfl))

/-- `x.b` is found from its second fragment on. -/
theorem searchForDomainName_iff_ab : ∃ found,
    searchForDomainName abBuffer xbFrags [0xC000] = .ok found ∧
      (BestMatch xbFrags [abName] found ↔
        xbFrags = [] ∨ ∀ ls ∈ [abName], Beyond xbFrags ls → xbFrags ∈ [abName]) :=
  searchForDomainName_iff abBuffer_listed xbFrags

/-- **`b` is not found at the end of `a.b`.** -/
theorem searchForDomainName_misses : List.Forall₂ (Listed abBuffer) [0xC000] [abName] ∧
    searchForDomainName abBuffer [[98]] [0xC000] = .ok none ∧ ¬ BestMatch [[98]] [abName] none := by
  refine ⟨abBuffer_listed, by decide +kernel, fun h => ?_⟩
  have := h.1.mpr ⟨_, List.mem_singleton_self _, [[98]], by simp, List.suffix_rfl, by decide⟩
  cases this

/-! ## Where a match is stored -/

/-- **A match is never wrong.** In a buffer whose offsets all fit a label, where the listed offsets stand
for names, wherever their pointers lead, the place of a match is one of the fragments, and the labels at
its offset are the fragments from there on and no others. -/
theorem searchForDomainName_match {labels : List UInt16} (hb : b.length < 0x4000)
    (h : ∀ l ∈ labels, ∃ ls, Decodes (view b) (l.toNat % 0x4000) ls) (frags : List Bytes) :
    ∃ found, searchForDomainName b frags labels = .ok found ∧ ∀ pos labelStart,
      found = some (pos, labelStart) → pos < frags.length ∧
        ∀ ls, Decodes (view b) labelStart.toNat ls ↔ ls = frags.drop pos := by
  have htake : b.take 0x4000 = b := List.take_of_length_le (by omega)
  have hlisted : ∀ l ∈ labels, ∃ r, reverseCompare b frags compareDepth l (-1) 0 = .ok r ∧
      r.Stored (view b) frags := fun l hl => by
    obtain ⟨ls, hls⟩ := h l hl
    obtain ⟨r, hr, -, hstored⟩ := Listed.compare (by rwa [Listed, htake]) frags
    exact ⟨r, hr, by rwa [htake] at hstored⟩
  obtain ⟨found, hfound, hmatch⟩ := searchLoop_keeps
    (P := fun x => x.1 < frags.length ∧ Decodes (view b) x.2.toNat (frags.drop x.1)) (z := none)
    (fun l hl => (hlisted l hl).imp fun r hr => ⟨hr.1, fun h0 hlt => ⟨by simp only; omega, hr.2 h0 hlt⟩⟩)
    (by simp)
  refine ⟨found, hfound, fun pos labelStart hx => ?_⟩
  obtain ⟨hlt, n, hn⟩ := hmatch (pos, labelStart) hx
  refine ⟨hlt, fun ls => ⟨fun ⟨n', hn'⟩ => ?_, fun hls => hls ▸ ⟨n, hn⟩⟩⟩
  exact (hn'.unique hn).2

/-- A buffer that holds the name `b`, and `a.b` with a pointer to it. -/
def pointerBuffer : Bytes := [1, 98, 0, 1, 97, 192, 0]

/-- `x.b` is found from its second fragment on, where the name `a.b` leads. -/
theorem searchForDomainName_match_xb :
    searchForDomainName pointerBuffer xbFrags [0xC003, 0xC000] = .ok (some (1, 0)) ∧
      1 < xbFrags.length ∧ ∀ ls, Decodes (view pointerBuffer) 0 ls ↔ ls = [[98]] := by
  have hroot : DecodesIn (view pointerBuffer) 1 0 [[98]] :=
    .label (c := 1) rfl (by decide) (by decide) rfl (.root rfl)
  have hlabel : DecodesIn (view pointerBuffer) 3 3 abName :=
    .label (c := 1) rfl (by decide) (by decide) rfl (.pointer (c := 192) (d := 0) rfl (by decide) rfl hroot)
  have hfound : searchForDomainName pointerBuffer xbFrags [0xC003, 0xC000] = .ok (some (1, 0)) := by
    decide +kernel
  obtain ⟨found, hsearch, hmatch⟩ := @searchForDomainName_match pointerBuffer [0xC003, 0xC000] (by decide)
    (List.forall_mem_cons.mpr ⟨⟨_, 3, hlabel⟩, List.forall_mem_singleton.mpr ⟨_, 1, hroot⟩⟩) xbFrags
  exact ⟨hfound, hmatch 1 0 (Except.ok.inj (hsearch.symm.trans hfound))⟩

end VUbercool.Dns
