import VUbercool.Dns.LabelHeader
import VUbercool.Lib.Message

/-!
# What the label parser accepts

* `Walk`: the labels a name is made of, as the loop of `LabelHeader` goes through them.
* `labelLoop_walk`, `labelLoop_of_walk`: the loop succeeds where there is a walk that is not too long.
* `labelLoop_explicit`: the loop on labels before any pointer.
* `parse_plain`: the constructor on a name without pointers.
-/

namespace VUbercool.Dns

open Octets Rfc1035

/-- **The labels from `p` on**, and what they add to `size_`. Pointers lead to labels of `known`. -/
inductive Walk (mem : Memory) (stop : ℕ) (known : List StringRef) : ℕ → List StringRef → ℕ → Prop
  | root {p : ℕ} : mem p = 0 → Walk mem stop known p [] 1
  | label {p cost : ℕ} {rest : List StringRef} : mem p ≠ 0 → (mem p).toNat < 64 →
      p + 1 + (mem p).toNat ≤ stop → matchesPat (readBytes mem (p + 1) (mem p).toNat) = true →
      Walk mem stop known (p + 1 + (mem p).toNat) rest cost →
      Walk mem stop known p (labelAt mem (p + 1) (mem p).toNat :: rest) ((mem p).toNat + cost)
  | pointer {p cost : ℕ} {v : StringRef} {rest : List StringRef} : mem p &&& 0xC0 = 0xC0 →
      p + 1 < stop → findPointer (load16 mem p &&& ~~~0xC000) known = .ok v →
      Walk mem stop known v.stop rest cost → Walk mem stop known p (v :: rest) (2 + cost)

variable {mem : Memory} {stop : ℕ} {known : List StringRef}

theorem ne_zero_of_pointer {c : UInt8} (h : c &&& 0xC0 = 0xC0) : c ≠ 0 ∧ ¬ c.toNat < 64 := by
  have h192 : 192 ≤ c.toNat := (and_0xC0_eq_iff c).mp h
  exact ⟨fun e => by rw [e] at h192; exact absurd h192 (by decide), by omega⟩

namespace Walk

/-- There is one walk from any place. -/
theorem unique {p cost cost' : ℕ} {names names' : List StringRef} (h : Walk mem stop known p names cost)
    (h' : Walk mem stop known p names' cost') : names' = names ∧ cost' = cost := by
  induction h generalizing names' cost' with
  | root h0 =>
    cases h' with
    | root => exact ⟨rfl, rfl⟩
    | label g0 => exact absurd h0 g0
    | pointer g => exact absurd h0 (ne_zero_of_pointer g).1
  | label h0 h64 _ _ _ ih =>
    cases h' with
    | root g => exact absurd g h0
    | label _ _ _ _ g => obtain ⟨rfl, rfl⟩ := ih g; exact ⟨rfl, rfl⟩
    | pointer g => exact absurd h64 (ne_zero_of_pointer g).2
  | pointer hp _ hf _ ih =>
    cases h' with
    | root g => exact absurd g (ne_zero_of_pointer hp).1
    | label _ g64 => exact absurd g64 (ne_zero_of_pointer hp).2
    | pointer _ _ gf g =>
      rw [hf] at gf
      cases gf
      obtain ⟨rfl, rfl⟩ := ih g
      exact ⟨rfl, rfl⟩

theorem length_lt {p cost : ℕ} {names : List StringRef} (h : Walk mem stop known p names cost) :
    names.length < cost := by
  induction h with
  | root => simp
  | @label p _ _ h0 _ _ _ _ ih =>
    have : (mem p).toNat ≠ 0 := fun e => h0 (UInt8.toNat_inj.mp e)
    simp only [List.length_cons]; omega
  | pointer _ _ _ _ ih => simp only [List.length_cons]; omega

theorem drop {p cost i : ℕ} {names : List StringRef} {v : StringRef}
    (h : Walk mem stop known p names cost) (hi : names[i]? = some v) :
    ∃ cost', Walk mem stop known v.stop (names.drop (i + 1)) cost' := by
  induction h generalizing i with
  | root => simp at hi
  | label _ _ _ _ h ih =>
    cases i with
    | zero =>
      simp only [List.getElem?_cons_zero, Option.some.injEq] at hi
      subst hi
      exact ⟨_, by simpa using h⟩
    | succ i => simpa using ih (by simpa using hi)
  | pointer _ _ _ h ih =>
    cases i with
    | zero =>
      simp only [List.getElem?_cons_zero, Option.some.injEq] at hi
      subst hi
      exact ⟨_, by simpa using h⟩
    | succ i => simpa using ih (by simpa using hi)

end Walk

theorem findPointer_ok {pointer : UInt16} {v : StringRef} :
    findPointer pointer known = .ok v ↔ known.find? (·.pos == pointer.toNat) = some v := by
  unfold findPointer
  cases known.find? (·.pos == pointer.toNat) <;> simp

theorem findPointer_mem {pointer : UInt16} {v : StringRef} (h : findPointer pointer known = .ok v) :
    v ∈ known ∧ v.pos = pointer.toNat := by
  have h := findPointer_ok.mp h
  exact ⟨List.mem_of_find?_eq_some h, by simpa using List.find?_some h⟩

theorem findPointer_append {pointer : UInt16} {v : StringRef} (more : List StringRef)
    (h : findPointer pointer known = .ok v) : findPointer pointer (known ++ more) = .ok v := by
  rw [findPointer_ok] at h ⊢
  rw [List.find?_append, h]
  rfl

theorem Walk.append {p cost : ℕ} {names : List StringRef} (more : List StringRef)
    (h : Walk mem stop known p names cost) : Walk mem stop (known ++ more) p names cost := by
  induction h with
  | root h => exact .root h
  | label h0 h64 he hp _ ih => exact .label h0 h64 he hp ih
  | pointer h he hf _ ih => exact .pointer h he (findPointer_append more hf) ih

/-! ## One round -/

/-- What a round does at a label. -/
def LabelState.afterLabel (st : LabelState) (v : StringRef) : LabelState :=
  { p := st.p + 1 + v.data.length
    isTraversingPointer := st.isTraversingPointer
    names := st.names ++ [v]
    size := st.size + v.data.length
    bufferSize := if st.isTraversingPointer then st.bufferSize else
      st.bufferSize + (v.data.length + 1)
    knownLabels := if st.isTraversingPointer then st.knownLabels else st.knownLabels ++ [v] }

/-- What a round does at a pointer that leads to `v`. -/
def LabelState.afterPointer (st : LabelState) (v : StringRef) : LabelState :=
  { p := v.stop
    isTraversingPointer := true
    names := st.names ++ [v]
    size := st.size + 2
    bufferSize := if st.isTraversingPointer then st.bufferSize else st.bufferSize + 2
    knownLabels := st.knownLabels }

/-- What the last round does. -/
def LabelState.afterRoot (st : LabelState) : LabelState :=
  { st with
    size := st.size + 1
    bufferSize := if st.isTraversingPointer then st.bufferSize else st.bufferSize + 1 }

theorem labelStep_root {s : LabelState} (h0 : mem s.p = 0) : ∃ e, labelStep mem stop s =
    if s.size + 1 ≤ 255 ∧ s.names ≠ [] then .ok (true, s.afterRoot) else .error e := by
  by_cases hsize : s.size + 1 > 255
  · exact ⟨_, by
      simp only [labelStep, if_pos h0, validateSize, if_pos hsize, bind, Except.bind]
      rw [if_neg (by omega)]⟩
  · have hok : validateSize (s.size + 1) = .ok () := if_neg hsize
    by_cases hn : s.names = []
    · exact ⟨_, by
        simp only [labelStep, if_pos h0, hok, bind, Except.bind, hn, List.isEmpty_nil, if_true]
        rw [if_neg (by simp)]⟩
    · have hc : s.size + 1 ≤ 255 ∧ s.names ≠ [] := ⟨by omega, hn⟩
      refine ⟨.diverged, ?_⟩
      simp only [labelStep, if_pos h0, hok, bind, Except.bind, List.isEmpty_iff, if_neg hn]
      rw [if_pos hc]
      rfl

theorem labelStep_label {st : LabelState} (h0 : mem st.p ≠ 0) (h64 : (mem st.p).toNat < 64) :
    ∃ e, labelStep mem stop st =
      if st.p + 1 + (mem st.p).toNat ≤ stop ∧ st.size + (mem st.p).toNat ≤ 255 ∧
        matchesPat (readBytes mem (st.p + 1) (mem st.p).toNat) = true then
        .ok (false, st.afterLabel (labelAt mem (st.p + 1) (mem st.p).toNat))
      else .error e := by
  by_cases hend : st.p + 1 + (mem st.p).toNat > stop
  · exact ⟨_, by
      simp only [labelStep, if_neg h0, if_pos h64, if_pos hend]
      rw [if_neg (by omega)]⟩
  by_cases hsize : st.size + (mem st.p).toNat > 255
  · exact ⟨_, by
      simp only [labelStep, if_neg h0, if_pos h64, if_neg hend, validateSize, if_pos hsize, bind,
        Except.bind]
      rw [if_neg (by omega)]⟩
  have hok : validateSize (st.size + (mem st.p).toNat) = .ok () := if_neg hsize
  by_cases hpat : matchesPat (readBytes mem (st.p + 1) (mem st.p).toNat) = true
  · have hc : st.p + 1 + (mem st.p).toNat ≤ stop ∧ st.size + (mem st.p).toNat ≤ 255 ∧
        matchesPat (readBytes mem (st.p + 1) (mem st.p).toNat) = true :=
      ⟨by omega, by omega, hpat⟩
    refine ⟨.diverged, ?_⟩
    simp only [labelStep, if_neg h0, if_pos h64, if_neg hend, hok, bind, Except.bind, labelAt,
      if_pos hpat]
    rw [if_pos hc]
    simp [LabelState.afterLabel]
  · exact ⟨_, by
      simp only [labelStep, if_neg h0, if_pos h64, if_neg hend, hok, bind, Except.bind, labelAt]
      rw [if_neg hpat, if_neg (fun h => hpat h.2.2)]⟩

theorem labelStep_pointer {s : LabelState} (hp : mem s.p &&& 0xC0 = 0xC0) :
    (∃ v, s.p + 1 < stop ∧ s.size + 2 ≤ 255 ∧
      findPointer (load16 mem s.p &&& ~~~0xC000) s.knownLabels = .ok v ∧
      labelStep mem stop s = .ok (false, s.afterPointer v)) ∨
    (∃ e, labelStep mem stop s = .error e) ∧ ¬ (s.p + 1 < stop ∧ s.size + 2 ≤ 255 ∧
      ∃ v, findPointer (load16 mem s.p &&& ~~~0xC000) s.knownLabels = .ok v) := by
  obtain ⟨h0, h64⟩ := ne_zero_of_pointer hp
  by_cases hend : s.p + 1 ≥ stop
  · refine .inr ⟨⟨warThrow .labelHeaderException
      "Buffer underflow in label (potential hostile request", ?_⟩, fun h => by omega⟩
    simp only [labelStep, if_neg h0, if_neg h64, if_pos hp, if_pos hend]
  by_cases hsize : s.size + 2 > 255
  · refine .inr ⟨⟨warThrow .labelHeaderException "The labels exeeds the 255 bytes limit", ?_⟩,
      fun h => by omega⟩
    simp only [labelStep, if_neg h0, if_neg h64, if_pos hp, if_neg hend, validateSize, if_pos hsize,
      bind, Except.bind]
  have hok : validateSize (s.size + 2) = .ok () := if_neg hsize
  cases hf : findPointer (load16 mem s.p &&& ~~~0xC000) s.knownLabels with
  | error e =>
    refine .inr ⟨⟨e, ?_⟩, fun ⟨_, _, v, hv⟩ => by cases hv⟩
    simp only [labelStep, if_neg h0, if_neg h64, if_pos hp, if_neg hend, hok, bind, Except.bind, hf]
  | ok v =>
    refine .inl ⟨v, by omega, by omega, rfl, ?_⟩
    simp only [labelStep, if_neg h0, if_neg h64, if_pos hp, if_neg hend, hok, bind, Except.bind, hf]
    rfl

/-- **What a round that raises nothing did**: one case for each of the three forms of an item. -/
theorem labelStep_ok {st st' : LabelState} {done : Bool} (h : labelStep mem stop st = .ok (done, st')) :
    (mem st.p = 0 ∧ done = true ∧ st' = st.afterRoot ∧ st.size + 1 ≤ 255) ∨
    (mem st.p ≠ 0 ∧ (mem st.p).toNat < 64 ∧ st.p + 1 + (mem st.p).toNat ≤ stop ∧
      matchesPat (readBytes mem (st.p + 1) (mem st.p).toNat) = true ∧ done = false ∧
      st' = st.afterLabel (labelAt mem (st.p + 1) (mem st.p).toNat)) ∨
    (mem st.p &&& 0xC0 = 0xC0 ∧ st.p + 1 < stop ∧ done = false ∧ ∃ v,
      findPointer (load16 mem st.p &&& ~~~0xC000) st.knownLabels = .ok v ∧
      st' = st.afterPointer v) := by
  by_cases h0 : mem st.p = 0
  · obtain ⟨e, he⟩ := labelStep_root h0
    rw [he] at h
    split_ifs at h with hc
    cases h
    exact .inl ⟨h0, rfl, rfl, hc.1⟩
  by_cases h64 : (mem st.p).toNat < 64
  · obtain ⟨e, he⟩ := labelStep_label h0 h64
    rw [he] at h
    split_ifs at h with hc
    cases h
    exact .inr (.inl ⟨h0, h64, hc.1, hc.2.2, rfl, rfl⟩)
  by_cases hp : mem st.p &&& 0xC0 = 0xC0
  · rcases labelStep_pointer hp with ⟨v, hend, _, hf, he⟩ | ⟨⟨e, he⟩, -⟩
    · rw [he] at h
      cases h
      exact .inr (.inr ⟨hp, hend, rfl, v, hf, rfl⟩)
    · rw [he] at h; cases h
  · simp only [labelStep, if_neg h0, if_neg h64, if_neg hp] at h
    cases h

/-! ## The loop -/

theorem labelLoop_done {st st' : LabelState} {fuel : ℕ} (h : labelStep mem stop st = .ok (true, st')) :
    labelLoop mem stop (fuel + 1) st = .ok st' := by
  simp only [labelLoop, h, bind, Except.bind, if_true]

theorem labelLoop_next {st st' : LabelState} {fuel : ℕ} (h : labelStep mem stop st = .ok (false, st')) :
    labelLoop mem stop (fuel + 1) st = labelLoop mem stop fuel st' := by
  simp [labelLoop, h, bind, Except.bind]

theorem labelLoop_ok {st st' : LabelState} {fuel : ℕ} (h : labelLoop mem stop (fuel + 1) st = .ok st') :
    labelStep mem stop st = .ok (true, st') ∨
      ∃ st₁, labelStep mem stop st = .ok (false, st₁) ∧ labelLoop mem stop fuel st₁ = .ok st' := by
  cases hs : labelStep mem stop st with
  | error e => simp [labelLoop, hs, bind, Except.bind] at h
  | ok r =>
    obtain ⟨done, st₁⟩ := r
    cases done with
    | true => rw [labelLoop_done hs] at h; cases h; exact .inl rfl
    | false => exact .inr ⟨st₁, rfl, by rwa [labelLoop_next hs] at h⟩

/-- A known label: its text is in memory after its length octet. -/
def Placed (mem : Memory) (v : StringRef) : Prop :=
  ∃ p, mem p ≠ 0 ∧ (mem p).toNat < 64 ∧ v = labelAt mem (p + 1) (mem p).toNat

/-- **A loop that raises nothing went along a walk**; the labels it made known are part of the walk. -/
theorem labelLoop_walk : ∀ {fuel : ℕ} {st st' : LabelState}, labelLoop mem stop fuel st = .ok st' →
    ∃ rest cost more, Walk mem stop st'.knownLabels st.p rest cost ∧ st'.names = st.names ++ rest ∧
      st'.size = st.size + cost ∧ st'.size ≤ 255 ∧ st'.knownLabels = st.knownLabels ++ more ∧
      (∀ v ∈ more, v ∈ rest ∧ Placed mem v) ∧ (st.isTraversingPointer = true → more = [])
  | 0, _, _, h => by cases h
  | fuel + 1, st, st', h => by
    rcases labelLoop_ok h with hs | ⟨st₁, hs, hrest⟩
    · rcases labelStep_ok hs with ⟨h0, -, rfl, hsize⟩ | ⟨_, _, _, _, hd, _⟩ | ⟨_, _, hd, _⟩
      · exact ⟨[], 1, [], .root h0, by simp [LabelState.afterRoot], rfl, hsize,
          by simp [LabelState.afterRoot], by simp, fun _ => rfl⟩
      · cases hd
      · cases hd
    · obtain ⟨rest, cost, more, hw, hn, hsize, hle, hk, hmore, htrav⟩ := labelLoop_walk hrest
      rcases labelStep_ok hs with ⟨_, hd, _⟩ | ⟨h0, h64, hend, hpat, -, rfl⟩ | ⟨hp, hend, -, v, hf, rfl⟩
      · cases hd
      · have hw' : Walk mem stop st'.knownLabels st.p
            (labelAt mem (st.p + 1) (mem st.p).toNat :: rest) ((mem st.p).toNat + cost) :=
          .label h0 h64 hend hpat (by simpa [LabelState.afterLabel, labelAt] using hw)
        have hsz : st'.size = st.size + ((mem st.p).toNat + cost) := by
          simp [LabelState.afterLabel, labelAt] at hsize; omega
        by_cases ht : st.isTraversingPointer = true
        · refine ⟨_, _, more, hw', by simp [hn, LabelState.afterLabel], hsz, hle, ?_, ?_, ?_⟩
          · simpa [LabelState.afterLabel, ht] using hk
          · exact fun v hv => ⟨List.mem_cons_of_mem _ (hmore v hv).1, (hmore v hv).2⟩
          · exact fun _ => htrav ht
        · refine ⟨_, _, labelAt mem (st.p + 1) (mem st.p).toNat :: more, hw',
            by simp [hn, LabelState.afterLabel], hsz, hle, ?_, ?_, fun h => absurd h ht⟩
          · simpa [LabelState.afterLabel, ht] using hk
          · intro v hv
            rcases List.mem_cons.mp hv with rfl | hv
            · exact ⟨List.mem_cons_self, _, h0, h64, rfl⟩
            · exact ⟨List.mem_cons_of_mem _ (hmore v hv).1, (hmore v hv).2⟩
      · refine ⟨v :: rest, 2 + cost, more, .pointer hp hend ?_ hw, by simp [hn, LabelState.afterPointer],
          ?_, hle, hk, fun x hx => ⟨List.mem_cons_of_mem _ (hmore x hx).1, (hmore x hx).2⟩,
          fun _ => htrav rfl⟩
        · rw [hk]
          exact findPointer_append more hf
        · simp [LabelState.afterPointer] at hsize; omega

/-- **After a pointer, a loop succeeds where there is a walk** that is not too long. -/
theorem labelLoop_of_walk {p cost : ℕ} {rest : List StringRef} (h : Walk mem stop known p rest cost) :
    ∀ {f : ℕ} {s : LabelState}, s.p = p → s.knownLabels = known →
      s.isTraversingPointer = true → s.names ≠ [] → s.size + cost ≤ 255 → rest.length < f →
      ∃ st', labelLoop mem stop f s = .ok st' ∧ st'.names = s.names ++ rest ∧
        st'.bufferSize = s.bufferSize ∧ st'.knownLabels = known := by
  induction h with
  | root h0 =>
    rintro fuel st rfl rfl ht hn hsize hf
    obtain ⟨fuel, rfl⟩ : ∃ k, fuel = k + 1 := ⟨fuel - 1, by omega⟩
    obtain ⟨e, he⟩ := labelStep_root h0
    rw [if_pos ⟨hsize, hn⟩] at he
    exact ⟨_, labelLoop_done he, by simp [LabelState.afterRoot], by simp [LabelState.afterRoot, ht], rfl⟩
  | label h0 h64 hend hpat _ ih =>
    rintro fuel st rfl rfl ht hn hsize hf
    obtain ⟨fuel, rfl⟩ : ∃ k, fuel = k + 1 := ⟨fuel - 1, by omega⟩
    obtain ⟨e, he⟩ := labelStep_label h0 h64
    rw [if_pos ⟨hend, by omega, hpat⟩] at he
    obtain ⟨st', hl, hn', hb', hk'⟩ := ih
      (s := st.afterLabel (labelAt mem (st.p + 1) (mem st.p).toNat))
      (by simp [LabelState.afterLabel, labelAt]) (by simp [LabelState.afterLabel, ht])
      (by simp [LabelState.afterLabel, ht]) (by simp [LabelState.afterLabel])
      (by simp [LabelState.afterLabel, labelAt]; omega) (by simpa using hf)
    refine ⟨st', by rw [labelLoop_next he, hl], by simp [hn', LabelState.afterLabel], ?_, hk'⟩
    simp [hb', LabelState.afterLabel, ht]
  | @pointer p cost v rest hp hend hfp _ ih =>
    rintro fuel st rfl rfl ht hn hsize hf
    obtain ⟨fuel, rfl⟩ : ∃ k, fuel = k + 1 := ⟨fuel - 1, by omega⟩
    rcases labelStep_pointer hp with ⟨v', _, _, hf', he⟩ | ⟨-, hno⟩
    · rw [hfp] at hf'
      cases hf'
      obtain ⟨st', hl, hn', hb', hk'⟩ := ih (s := st.afterPointer v) rfl rfl rfl
        (by simp [LabelState.afterPointer]) (by simp [LabelState.afterPointer]; omega)
        (by simpa using hf)
      refine ⟨st', by rw [labelLoop_next he, hl], by simp [hn', LabelState.afterPointer], ?_, hk'⟩
      simp [hb', LabelState.afterPointer, ht]
    · exact absurd ⟨hend, by omega, v, hfp⟩ hno

/-! ## Names without pointers -/

/-- The labels `ls` of a name that begins at `p`, each with the place of its text. -/
def labelRefs (p : ℕ) : List Label → List StringRef
  | [] => []
  | l :: ls => ⟨p + 1, l⟩ :: labelRefs (p + 1 + l.length) ls

theorem map_data_labelRefs (p : ℕ) (ls : List Label) : (labelRefs p ls).map StringRef.data = ls := by
  induction ls generalizing p with
  | nil => rfl
  | cons l ls ih => rw [labelRefs, List.map_cons, ih]

/-- The octets of labels without their length octets, as the loop adds them to `size_`. -/
def textLength (ls : List Label) : ℕ := (ls.map List.length).sum

/-- Labels the loop accepts: one to 63 legal characters each. -/
structure LegalLabels (ls : List Label) : Prop where
  fit : Fit ls
  chars : ∀ l ∈ ls, l.all isLabelChar = true

instance (ls : List Label) : Decidable (LegalLabels ls) :=
  decidable_of_iff (Fit ls ∧ ∀ l ∈ ls, l.all isLabelChar = true) ⟨fun h => ⟨h.1, h.2⟩, fun h => ⟨h.1, h.2⟩⟩

theorem LegalLabels.tail {l : Label} {ls : List Label} (h : LegalLabels (l :: ls)) : LegalLabels ls :=
  ⟨fun x hx => h.fit x (List.mem_cons_of_mem _ hx), fun x hx => h.chars x (List.mem_cons_of_mem _ hx)⟩

theorem holds_label {p : ℕ} {l : Label} {ls : List Label} (h : LegalLabels (l :: ls))
    (hm : Holds mem p (encodeLabels (l :: ls))) :
    mem p ≠ 0 ∧ (mem p).toNat = l.length ∧ l.length < 64 ∧ readBytes mem (p + 1) l.length = l ∧
      matchesPat l = true ∧ Holds mem (p + 1 + l.length) (encodeLabels ls) := by
  obtain ⟨hl0, hl64⟩ := h.fit l List.mem_cons_self
  rw [encodeLabels, List.cons_append, holds_cons, holds_append] at hm
  obtain ⟨h0, htext, hrest⟩ := hm
  have hlen : (mem p).toNat = l.length := by
    rw [h0, UInt8.toNat_ofNat']; omega
  refine ⟨fun e => ?_, hlen, hl64, htext, ?_, hrest⟩
  · rw [e] at hlen
    have : (0 : UInt8).toNat = 0 := rfl
    omega
  · rw [matchesPat, Bool.and_eq_true]
    refine ⟨?_, h.chars l List.mem_cons_self⟩
    cases l with
    | nil => cases hl0
    | cons => rfl

/-- What the loop does at labels before any pointer. -/
def LabelState.afterLabels (st : LabelState) (ls : List Label) : LabelState :=
  { p := st.p + (encodeLabels ls).length
    isTraversingPointer := false
    names := st.names ++ labelRefs st.p ls
    size := st.size + textLength ls
    bufferSize := st.bufferSize + (encodeLabels ls).length
    knownLabels := st.knownLabels ++ labelRefs st.p ls }

theorem afterLabels_cons {st : LabelState} (ht : st.isTraversingPointer = false) (l : Label)
    (ls : List Label) :
    st.afterLabels (l :: ls) = (st.afterLabel ⟨st.p + 1, l⟩).afterLabels ls := by
  simp only [LabelState.afterLabels, LabelState.afterLabel, ht, encodeLabels, labelRefs, textLength,
    List.map_cons, List.sum_cons, List.length_cons, List.length_append, List.append_assoc,
    List.cons_append, List.nil_append, Bool.false_eq_true, if_false, LabelState.mk.injEq, true_and,
    and_true]
  exact ⟨by omega, by omega, by omega⟩

/-- **The loop on labels before any pointer.** -/
theorem labelLoop_explicit {fuel : ℕ} : ∀ {ls : List Label} {st : LabelState}, LegalLabels ls →
    Holds mem st.p (encodeLabels ls) → st.p + (encodeLabels ls).length ≤ stop →
    st.isTraversingPointer = false → st.size + textLength ls ≤ 255 →
    labelLoop mem stop (fuel + ls.length) st = labelLoop mem stop fuel (st.afterLabels ls)
  | [], st, _, _, _, ht, _ => by
    obtain ⟨p, tr, names, size, bs, known⟩ := st
    cases ht
    simp [LabelState.afterLabels, encodeLabels, labelRefs, textLength]
  | l :: ls, st, hl, hm, hend, ht, hsize => by
    obtain ⟨hne, hlen, hl64, hread, hpat, hrest⟩ := holds_label hl hm
    simp only [encodeLabels, List.length_cons, List.length_append] at hend
    simp only [textLength, List.map_cons, List.sum_cons] at hsize
    obtain ⟨e, he⟩ := @labelStep_label mem stop st hne (by omega)
    rw [hlen, hread, if_pos ⟨by omega, by omega, hpat⟩, labelAt, hread] at he
    have hrec := @labelLoop_explicit fuel _ (st.afterLabel ⟨st.p + 1, l⟩) hl.tail
      (by simpa [LabelState.afterLabel] using hrest)
      (by simp [LabelState.afterLabel]; omega) (by simp [LabelState.afterLabel, ht])
      (by simp [LabelState.afterLabel, textLength]; omega)
    rw [List.length_cons, ← Nat.add_assoc, labelLoop_next he, hrec, afterLabels_cons ht]

theorem length_le_textLength {ls : List Label} (h : Fit ls) : ls.length ≤ textLength ls := by
  induction ls with
  | nil => simp
  | cons l ls ih =>
    have hl := (h l List.mem_cons_self).1
    have := ih fun x hx => h x (List.mem_cons_of_mem _ hx)
    simp [textLength] at this ⊢
    omega

/-- A name the parser accepts where it holds no pointer. -/
structure PlainName (ls : List Label) : Prop extends LegalLabels ls where
  ne_nil : ls ≠ []
  size_le : textLength ls + 1 ≤ 255

instance (ls : List Label) : Decidable (PlainName ls) :=
  decidable_of_iff (LegalLabels ls ∧ ls ≠ [] ∧ textLength ls + 1 ≤ 255)
    ⟨fun h => ⟨h.1, h.2.1, h.2.2⟩, fun h => ⟨h.toLegalLabels, h.ne_nil, h.size_le⟩⟩

/-- **The constructor on a name without pointers.** -/
theorem parse_plain {p size : ℕ} {ls : List Label} (h : PlainName ls)
    (hm : Holds mem p (encodeLabels ls ++ [0])) (hs : (encodeLabels ls).length ≤ size)
    (known : List StringRef) : LabelHeader.parse mem p size known =
      .ok (⟨labelRefs p ls, textLength ls + 1, (encodeLabels ls).length + 1⟩,
        known ++ labelRefs p ls) := by
  rw [holds_append, holds_cons] at hm
  have hsize := h.size_le
  have hlen := length_le_textLength h.fit
  have hne := h.ne_nil
  have hpos : 1 ≤ size := by
    obtain ⟨l, ls', rfl⟩ := List.exists_cons_of_ne_nil h.ne_nil
    simp [encodeLabels] at hs; omega
  obtain ⟨fuel, hfuel⟩ : ∃ k, labelRounds = k + 1 + ls.length := ⟨255 - ls.length, by
    rw [labelRounds]; omega⟩
  have hloop : labelLoop mem (p + size) (fuel + 1 + ls.length) ⟨p, false, [], 0, 0, known⟩ = _ :=
    labelLoop_explicit h.toLegalLabels hm.1 (by simp only; omega) rfl (by simp only; omega)
  have hrefs : labelRefs p ls ≠ [] := by
    obtain ⟨l, ls', rfl⟩ := List.exists_cons_of_ne_nil h.ne_nil
    simp [labelRefs]
  obtain ⟨e, he⟩ := labelStep_root
    (s := LabelState.afterLabels ⟨p, false, [], 0, 0, known⟩ ls)
    (by simpa [LabelState.afterLabels] using hm.2.1)
  rw [if_pos ⟨by simp [LabelState.afterLabels]; omega, by simpa [LabelState.afterLabels] using hrefs⟩]
    at he
  rw [LabelHeader.parse, if_neg (by omega), hfuel, hloop, labelLoop_done he]
  simp [bind, Except.bind, LabelState.afterRoot, LabelState.afterLabels]

theorem question_parse_plain {p size : ℕ} {q : Rfc1035.Question} (h : PlainName q.name)
    (hm : Holds mem p (encodeQuestion q)) (hs : (encodeQuestion q).length ≤ size)
    (known : List StringRef) (offset : UInt16) : Question.parse mem p size known offset =
      .ok ({ names := labelRefs p q.name
             size := textLength q.name + 1
             bufferSize := (encodeLabels q.name).length + 1
             qtype := q.qtype
             qclass := q.qclass
             offset := offset }, known ++ labelRefs p q.name) := by
  have hlen := length_encodeQuestion q
  have hsplit : encodeQuestion q = (encodeLabels q.name ++ [0]) ++ (be16 q.qtype ++ be16 q.qclass) := by
    simp [encodeQuestion]
  rw [hsplit] at hm
  obtain ⟨hname, hrest⟩ := holds_append.mp hm
  obtain ⟨htype, hclass⟩ := holds_append.mp hrest
  simp only [List.length_append, List.length_cons, List.length_nil, Nat.zero_add, length_be16]
    at htype hclass
  rw [Question.parse, parse_plain h hname (by omega)]
  simp only [bind, Except.bind, LabelHeader.getSize, word_of_holds htype, word_of_holds hclass]
  exact if_neg (by omega)

end VUbercool.Dns
