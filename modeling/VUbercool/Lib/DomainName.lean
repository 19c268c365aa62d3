import Mathlib.Data.List.Perm.Subperm
import Mathlib.Data.List.Nodup
import VUbercool.Lib.Octets

/-!
# Domain names in messages

Domain names as RFC 1035 section 4.1.4 stores them: labels, then the root or a pointer to an
earlier place of the message.

* `NameAt m start off ls next`: at `off` the labels `ls` are stored, up to `next`; a pointer has to
  lead before `start`, where the present run of labels began.
* `Decodes`: the labels an offset stands for; `DecodesIn.lt_size`: they are found in few steps.
* `readName`: the decoder. `readName_of_nameAt`: it decodes these names.
* `encodeLabels`, `nameAt_encodeLabels`: labels written in front of a name.
* `ReadsAs`: labels that were written where one of them may be empty, as a decoder reads them.
* `dotted`, `Spells`: the text of a name.
-/

namespace Rfc1035

open Octets

/-- A label is a string of octets. -/
abbrev Label : Type := Bytes

/-- The offset a pointer with octets `c`, `d` stands for: fourteen bits in network order. -/
def pointerTarget (c d : UInt8) : ℕ := c.toNat % 64 * 256 + d.toNat

theorem not_lt_of_pointer {c : UInt8} (h : 192 ≤ c) : ¬ c < 64 :=
  UInt8.not_lt.mpr (UInt8.le_trans (by decide) h)

/-- **A stored name.** At `off` the labels `ls` are stored; `next` is the first offset after them. A
pointer leads before `start`, where the present run of labels began. -/
inductive NameAt (m : View) : ℕ → ℕ → List Label → ℕ → Prop
  | root {start off : ℕ} : m off = some 0 → NameAt m start off [] (off + 1)
  | label {start off next : ℕ} {c : UInt8} {l : Label} {ls : List Label} :
      m off = some c → c ≠ 0 → c < 64 → slice m (off + 1) c.toNat = some l →
      NameAt m start (off + 1 + c.toNat) ls next → NameAt m start off (l :: ls) next
  | pointer {start off next : ℕ} {c d : UInt8} {ls : List Label} :
      m off = some c → 192 ≤ c → m (off + 1) = some d → pointerTarget c d < start →
      NameAt m (pointerTarget c d) (pointerTarget c d) ls next → NameAt m start off ls (off + 2)

namespace NameAt

variable {m m' : View} {start off next : ℕ} {ls : List Label}

theorem mono (hm : m.Le m') (h : NameAt m start off ls next) : NameAt m' start off ls next := by
  induction h with
  | root h => exact root (hm _ _ h)
  | label h h0 h64 hs _ ih => exact label (hm _ _ h) h0 h64 (slice_mono hm hs) ih
  | pointer h h192 hd ht _ ih => exact pointer (hm _ _ h) h192 (hm _ _ hd) ht ih

theorem widen {start' : ℕ} (hs : start ≤ start') (h : NameAt m start off ls next) :
    NameAt m start' off ls next := by
  induction h with
  | root h => exact root h
  | label h h0 h64 hl _ ih => exact label h h0 h64 hl (ih hs)
  | pointer h h192 hd ht h' _ => exact pointer h h192 hd (by omega) h'

theorem some_of (h : NameAt m start off ls next) : ∃ c, m off = some c := by
  cases h with
  | root h => exact ⟨_, h⟩
  | label h => exact ⟨_, h⟩
  | pointer h => exact ⟨_, h⟩

theorem next_le {size : ℕ} (hsize : ∀ i c, m i = some c → i < size) (h : NameAt m start off ls next) :
    next ≤ size := by
  induction h with
  | root h => exact hsize _ _ h
  | label _ _ _ _ _ ih => exact ih
  | pointer _ _ hd _ _ _ => exact hsize _ _ hd

end NameAt

/-! ## What an offset stands for -/

/-- **The labels at `off`**, after `n` steps, wherever the pointers lead. -/
inductive DecodesIn (m : View) : ℕ → ℕ → List Label → Prop
  | root {off : ℕ} : m off = some 0 → DecodesIn m 0 off []
  | label {n off : ℕ} {c : UInt8} {l : Label} {ls : List Label} :
      m off = some c → c ≠ 0 → c < 64 → slice m (off + 1) c.toNat = some l →
      DecodesIn m n (off + 1 + c.toNat) ls → DecodesIn m (n + 1) off (l :: ls)
  | pointer {n off : ℕ} {c d : UInt8} {ls : List Label} :
      m off = some c → 192 ≤ c → m (off + 1) = some d → DecodesIn m n (pointerTarget c d) ls →
      DecodesIn m (n + 1) off ls

/-- The labels at `off`. -/
def Decodes (m : View) (off : ℕ) (ls : List Label) : Prop := ∃ n, DecodesIn m n off ls

theorem NameAt.decodes {m : View} {start off next : ℕ} {ls : List Label} (h : NameAt m start off ls next) :
    Decodes m off ls := by
  induction h with
  | root h => exact ⟨0, .root h⟩
  | label h h0 h64 hs _ ih => exact ih.imp' (· + 1) fun _ => .label h h0 h64 hs
  | pointer h h192 hd _ _ ih => exact ih.imp' (· + 1) fun _ => .pointer h h192 hd

namespace DecodesIn

variable {m : View} {n n' off : ℕ} {ls ls' : List Label}

theorem some_of (h : DecodesIn m n off ls) : ∃ c, m off = some c := by
  cases h with
  | root h => exact ⟨_, h⟩
  | label h => exact ⟨_, h⟩
  | pointer h => exact ⟨_, h⟩

/-- An offset stands for one list of labels, found in one number of steps. -/
theorem unique (h : DecodesIn m n off ls) (h' : DecodesIn m n' off ls') : n = n' ∧ ls = ls' := by
  induction h generalizing n' ls' with
  | root h =>
    cases h' with
    | root _ => exact ⟨rfl, rfl⟩
    | label hc h0 => rw [h] at hc; cases hc; exact absurd rfl h0
    | pointer hc h192 => rw [h] at hc; cases hc; exact absurd h192 (by decide)
  | label hc h0 h64 hs _ ih =>
    cases h' with
    | root h => rw [h] at hc; cases hc; exact absurd rfl h0
    | label hc' _ _ hs' hn' =>
      rw [hc] at hc'; cases hc'
      rw [hs] at hs'; cases hs'
      obtain ⟨rfl, rfl⟩ := ih hn'
      exact ⟨rfl, rfl⟩
    | pointer hc' h192 => rw [hc] at hc'; cases hc'; exact absurd h64 (not_lt_of_pointer h192)
  | pointer hc h192 hd _ ih =>
    cases h' with
    | root h => rw [h] at hc; cases hc; exact absurd h192 (by decide)
    | label hc' _ h64 => rw [hc] at hc'; cases hc'; exact absurd h64 (not_lt_of_pointer h192)
    | pointer hc' _ hd' hn' =>
      rw [hc] at hc'; cases hc'
      rw [hd] at hd'; cases hd'
      obtain ⟨rfl, rfl⟩ := ih hn'
      exact ⟨rfl, rfl⟩

theorem exists_of_le {i : ℕ} (h : DecodesIn m n off ls) (hi : i ≤ n) :
    ∃ off' ls', DecodesIn m i off' ls' := by
  induction h with
  | root h => exact ⟨_, _, (Nat.le_zero.mp hi) ▸ root h⟩
  | label hc h0 h64 hs hn ih =>
    rcases Nat.lt_or_eq_of_le hi with hi | rfl
    · exact ih (by omega)
    · exact ⟨_, _, label hc h0 h64 hs hn⟩
  | pointer hc h192 hd hn ih =>
    rcases Nat.lt_or_eq_of_le hi with hi | rfl
    · exact ih (by omega)
    · exact ⟨_, _, pointer hc h192 hd hn⟩

/-- **There are fewer steps than offsets**: each step is at an offset of its own. -/
theorem lt_size {size : ℕ} (hsize : ∀ i c, m i = some c → i < size) (h : DecodesIn m n off ls) :
    n < size := by
  choose! place labels hplace using fun (i : ℕ) (hi : i ≤ n) => h.exists_of_le hi
  have hlt : ∀ i ∈ List.range (n + 1), place i ∈ List.range size := fun i hi => by
    obtain ⟨c, hc⟩ := (hplace i (by simpa [Nat.lt_succ_iff] using hi)).some_of
    exact List.mem_range.mpr (hsize _ _ hc)
  have hinj : ((List.range (n + 1)).map place).Nodup := by
    refine List.Nodup.map_on (fun i hi j hj he => ?_) List.nodup_range
    have hi := hplace i (by simpa [Nat.lt_succ_iff] using hi)
    have hj := hplace j (by simpa [Nat.lt_succ_iff] using hj)
    rw [he] at hi
    exact (hi.unique hj).1
  have hsub : (List.range (n + 1)).map place ⊆ List.range size := fun p hp => by
    obtain ⟨i, hi, rfl⟩ := List.mem_map.mp hp
    exact hlt i hi
  have := (List.subperm_of_subset hinj hsub).length_le
  simp only [List.length_map, List.length_range] at this
  omega

end DecodesIn

/-! ## The decoder -/

/-- Decode the name at `off`: its labels and the first offset after it. Names that lead a pointer
forward, or deeper than `fuel`, are refused. -/
def readName (m : View) : ℕ → ℕ → ℕ → Option (List Label × ℕ)
  | 0, _, _ => none
  | fuel + 1, start, off =>
    match m off with
    | none => none
    | some c =>
      if c = 0 then some ([], off + 1)
      else if c < 64 then do
        let l ← slice m (off + 1) c.toNat
        let (ls, next) ← readName m fuel start (off + 1 + c.toNat)
        pure (l :: ls, next)
      else if 192 ≤ c then do
        let d ← m (off + 1)
        if pointerTarget c d < start then do
          let (ls, _) ← readName m fuel (pointerTarget c d) (pointerTarget c d)
          pure (ls, off + 2)
        else none
      else none

/-- Decode the name at `off` of an octet string. -/
def nameAt? (b : Bytes) (off : ℕ) : Option (List Label × ℕ) :=
  readName (view b) ((off + 1) * (b.length + 1)) off off

/-- The decoder finds every stored name, given fuel for the offsets it may visit. -/
theorem readName_of_nameAt {m : View} {size : ℕ} (hsize : ∀ i c, m i = some c → i < size)
    {start off next : ℕ} {ls : List Label} (h : NameAt m start off ls next) :
    ∀ {f : ℕ}, start * (size + 1) + (size - off) < f → readName m f start off = some (ls, next) := by
  induction h with
  | root h =>
    intro fuel hf
    obtain ⟨fuel, rfl⟩ : ∃ k, fuel = k + 1 := ⟨fuel - 1, by omega⟩
    simp [readName, h]
  | @label start off next c l ls h h0 h64 hs h' ih =>
    intro fuel hf
    obtain ⟨fuel, rfl⟩ : ∃ k, fuel = k + 1 := ⟨fuel - 1, by omega⟩
    have hoff := hsize _ _ h
    simp [readName, h, h0, h64, hs, ih (f := fuel) (by omega)]
  | @pointer start off next c d ls h h192 hd ht h' ih =>
    intro fuel hf
    obtain ⟨fuel, rfl⟩ : ∃ k, fuel = k + 1 := ⟨fuel - 1, by omega⟩
    obtain ⟨e, he⟩ := h'.some_of
    have htsize := hsize _ _ he
    have hmul : (pointerTarget c d + 1) * (size + 1) ≤ start * (size + 1) :=
      Nat.mul_le_mul_right _ ht
    rw [Nat.add_mul, Nat.one_mul] at hmul
    have hc0 : c ≠ 0 := fun e => by subst e; exact absurd h192 (by decide)
    have hc64 := not_lt_of_pointer h192
    simp [readName, h, hc0, hc64, h192, hd, ht, ih (f := fuel) (by omega)]

theorem nameAt?_eq_some {b : Bytes} {off next : ℕ} {ls : List Label}
    (h : NameAt (view b) off off ls next) : nameAt? b off = some (ls, next) := by
  refine readName_of_nameAt
    (fun i c hc => (List.getElem?_eq_some_iff.mp hc).1) h ?_
  rw [Nat.add_mul, Nat.one_mul]
  omega

/-- In an octet string, a name and its end are determined by its place. -/
theorem NameAt.unique {b : Bytes} {off next next' : ℕ} {ls ls' : List Label}
    (h : NameAt (view b) off off ls next) (h' : NameAt (view b) off off ls' next') :
    ls = ls' ∧ next = next' := by
  have heq := (nameAt?_eq_some h).symm.trans (nameAt?_eq_some h')
  cases heq
  exact ⟨rfl, rfl⟩

/-! ## Writing labels -/

/-- Labels as they are stored: a length octet in front of each. -/
def encodeLabels : List Label → Bytes
  | [] => []
  | l :: ls => UInt8.ofNat l.length :: l ++ encodeLabels ls

theorem encodeLabels_append (ls ls' : List Label) :
    encodeLabels (ls ++ ls') = encodeLabels ls ++ encodeLabels ls' := by
  induction ls with
  | nil => rfl
  | cons l ls ih => simp [encodeLabels, ih]

/-- Labels that fit their length octet. -/
def Fit (ls : List Label) : Prop := ∀ l ∈ ls, 0 < l.length ∧ l.length < 64

instance (ls : List Label) : Decidable (Fit ls) :=
  inferInstanceAs (Decidable (∀ l ∈ ls, 0 < l.length ∧ l.length < 64))

/-- **Labels in front of a name.** Where `ls` is written and a name follows, the whole is a name. -/
theorem nameAt_encodeLabels {hole : List ℕ} {s next : ℕ} {tail : List Label} :
    ∀ {ls : List Label} {a z : Bytes}, Fit ls →
      (∀ i, a.length ≤ i → i ∉ hole) →
      NameAt (known hole (a ++ encodeLabels ls ++ z)) s
        (a.length + (encodeLabels ls).length) tail next →
      NameAt (known hole (a ++ encodeLabels ls ++ z)) s a.length (ls ++ tail) next
  | [], a, z, _, _, h => by simpa [encodeLabels] using h
  | l :: ls, a, z, hfit, hh, h => by
    obtain ⟨hl0, hl64⟩ := hfit l List.mem_cons_self
    have hc : (UInt8.ofNat l.length).toNat = l.length := by
      rw [UInt8.toNat_ofNat']; omega
    have e : a ++ encodeLabels (l :: ls) ++ z =
        (a ++ (UInt8.ofNat l.length :: l)) ++ encodeLabels ls ++ z := by
      simp [encodeLabels]
    have hlen : (a ++ (UInt8.ofNat l.length :: l)).length = a.length + 1 + l.length := by
      simp; omega
    have hrec := nameAt_encodeLabels (a := a ++ (UInt8.ofNat l.length :: l))
      (fun x hx => hfit x (List.mem_cons_of_mem _ hx)) (fun i hi => hh i (by omega)) (by
        rw [← e]
        convert h using 1
        simp [encodeLabels]; omega)
    rw [← e] at hrec
    refine NameAt.label (c := UInt8.ofNat l.length) (l := l) ?_ ?_ ?_ ?_ ?_
    · have := known_get (a := a) (l := encodeLabels (l :: ls)) (c := z)
        (i := 0) (by simp [encodeLabels]) (hh _ (by omega))
      simpa [encodeLabels] using this
    · intro h0
      rw [h0] at hc
      have : (0 : UInt8).toNat = 0 := rfl
      omega
    · show (UInt8.ofNat l.length).toNat < 64
      omega
    · have := slice_known (a := a ++ [UInt8.ofNat l.length]) (l := l)
        (c := encodeLabels ls ++ z) (fun i hi _ => hh i (by
          rw [List.length_append] at hi; omega))
      rw [hc]
      simpa [encodeLabels] using this
    · rw [hc, ← hlen]
      exact hrec

/-! ## Labels that may be empty -/

/-- Labels that fit their length octet, or are empty. -/
def Short (ls : List Label) : Prop := ∀ l ∈ ls, l.length < 64

instance (ls : List Label) : Decidable (Short ls) :=
  inferInstanceAs (Decidable (∀ l ∈ ls, l.length < 64))

theorem Fit.short {ls : List Label} (h : Fit ls) : Short ls := fun l hl => (h l hl).2

theorem Short.fit {ls : List Label} (h : Short ls) (hne : [] ∉ ls) : Fit ls := fun l hl =>
  ⟨List.length_pos_iff.mpr fun e : l = [] => hne (e ▸ hl), h l hl⟩

theorem Fit.nil_notMem {ls : List Label} (h : Fit ls) : [] ∉ ls := fun hn =>
  absurd (h [] hn).1 (Nat.lt_irrefl 0)

/-- The labels in front of the first empty one, whose length octet ends the name. -/
def untilEmpty : List Label → List Label
  | [] => []
  | l :: ls => if l = [] then [] else l :: untilEmpty ls

theorem untilEmpty_eq {ls : List Label} (h : [] ∉ ls) : untilEmpty ls = ls := by
  induction ls with
  | nil => rfl
  | cons l ls ih =>
    have hl : l ≠ [] := fun e => h (by rw [e]; exact List.mem_cons_self)
    rw [untilEmpty, if_neg hl, ih fun hm => h (List.mem_cons_of_mem _ hm)]

theorem exists_untilEmpty {ls : List Label} (h : [] ∈ ls) : ∃ post, ls = untilEmpty ls ++ [] :: post := by
  induction ls with
  | nil => cases h
  | cons l ls ih =>
    by_cases hl : l = []
    · exact ⟨ls, by rw [untilEmpty, if_pos hl, hl]; rfl⟩
    · obtain ⟨post, hpost⟩ := ih ((List.mem_cons.mp h).resolve_left fun e => hl e.symm)
      refine ⟨post, ?_⟩
      rw [untilEmpty, if_neg hl, List.cons_append, ← hpost]

theorem nil_notMem_untilEmpty (ls : List Label) : [] ∉ untilEmpty ls := by
  induction ls with
  | nil => simp [untilEmpty]
  | cons l ls ih =>
    unfold untilEmpty
    split_ifs with hl
    · simp
    · rw [List.mem_cons, not_or]
      exact ⟨fun e => hl e.symm, ih⟩

theorem fit_untilEmpty {ls : List Label} (h : Short ls) : Fit (untilEmpty ls) := by
  refine Short.fit (fun l hl => ?_) (nil_notMem_untilEmpty ls)
  by_cases hne : [] ∈ ls
  · obtain ⟨post, hpost⟩ := exists_untilEmpty hne
    exact h l (hpost ▸ List.mem_append_left _ hl)
  · rw [untilEmpty_eq hne] at hl
    exact h l hl

theorem untilEmpty_append {ls ms : List Label} (h : [] ∈ ls) : untilEmpty (ls ++ ms) = untilEmpty ls := by
  induction ls with
  | nil => cases h
  | cons l ls ih =>
    rw [List.cons_append, untilEmpty, untilEmpty]
    split_ifs with hl
    · rfl
    · rw [ih ((List.mem_cons.mp h).resolve_left fun e => hl e.symm)]

theorem untilEmpty_append_nil {ls : List Label} (h : [] ∉ ls) (post : List Label) :
    untilEmpty (ls ++ [] :: post) = ls := by
  induction ls with
  | nil => rw [List.nil_append, untilEmpty, if_pos rfl]
  | cons l ls ih =>
    rw [List.mem_cons, not_or] at h
    rw [List.cons_append, untilEmpty, if_neg fun e => h.1 e.symm, ih h.2]

theorem NameAt.nil_notMem {m : View} {start off next : ℕ} {ls : List Label}
    (h : NameAt m start off ls next) : [] ∉ ls := by
  induction h with
  | root => simp
  | @label _ _ _ c l _ _ h0 _ hs _ ih =>
    rw [List.mem_cons, not_or]
    refine ⟨fun e => h0 (UInt8.toNat_inj.mp ?_), ih⟩
    rw [← length_slice hs, ← e]
    rfl
  | pointer _ _ _ _ _ ih => exact ih

theorem NameAt.lt_next {m : View} {start off next : ℕ} {ls : List Label}
    (h : NameAt m start off ls next) : off < next := by
  induction h with
  | root => omega
  | label _ _ _ _ _ ih => omega
  | pointer => omega

/-- **The octets from `off` to `stop` were written for the labels `ls`**: they are read up to the first
empty label, and read to their end exactly if there is none. -/
def ReadsAs (m : View) (off : ℕ) (ls : List Label) (stop : ℕ) : Prop :=
  ∃ next, NameAt m off off (untilEmpty ls) next ∧ (next = stop ↔ [] ∉ ls)

theorem ReadsAs.mono {m m' : View} (hm : m.Le m') {off stop : ℕ} {ls : List Label}
    (h : ReadsAs m off ls stop) : ReadsAs m' off ls stop :=
  h.imp fun _ hn => ⟨hn.1.mono hm, hn.2⟩

theorem readsAs_of_nameAt {m : View} {off stop : ℕ} {ls : List Label} (h : NameAt m off off ls stop) :
    ReadsAs m off ls stop :=
  ⟨stop, (untilEmpty_eq h.nil_notMem).symm ▸ h, iff_of_true rfl h.nil_notMem⟩

/-- **What is stored in exactly these octets**: the labels, if none is empty. -/
theorem ReadsAs.nameAt_iff {b : Bytes} {off stop : ℕ} {ls ls' : List Label}
    (h : ReadsAs (view b) off ls stop) : NameAt (view b) off off ls' stop ↔ [] ∉ ls ∧ ls' = ls := by
  obtain ⟨next, hn, hstop⟩ := h
  constructor
  · intro h'
    obtain ⟨rfl, rfl⟩ := hn.unique h'
    have hne := hstop.mp rfl
    exact ⟨hne, untilEmpty_eq hne⟩
  · rintro ⟨hne, rfl⟩
    rw [← hstop.mpr hne]
    rwa [untilEmpty_eq hne] at hn

theorem readsAs_of_empty {hole : List ℕ} {a tail : Bytes} {ls : List Label} (hs : Short ls) (hne : [] ∈ ls)
    (hh : ∀ i, a.length ≤ i → i ∉ hole) (htail : tail ≠ []) :
    ReadsAs (known hole (a ++ (encodeLabels ls ++ tail))) a.length ls
      (a.length + (encodeLabels ls ++ tail).length) := by
  obtain ⟨post, hpost⟩ := exists_untilEmpty hne
  have hsplit : encodeLabels ls ++ tail =
      encodeLabels (untilEmpty ls) ++ (0 :: (encodeLabels post ++ tail)) := by
    conv_lhs => rw [hpost, encodeLabels_append, encodeLabels]
    simp
  have hroot : known hole (a ++ encodeLabels (untilEmpty ls) ++ 0 :: (encodeLabels post ++ tail))
      (a.length + (encodeLabels (untilEmpty ls)).length) = some 0 := by
    rw [known_of_notMem (hh _ (by omega)), ← List.length_append, List.getElem?_append_right (Nat.le_refl _),
      Nat.sub_self]
    rfl
  have hname := nameAt_encodeLabels (s := a.length) (fit_untilEmpty hs) hh (.root hroot)
  rw [List.append_nil, List.append_assoc, ← hsplit] at hname
  refine ⟨_, hname, iff_of_false ?_ (fun h => h hne)⟩
  have := List.length_pos_iff.mpr htail
  rw [hsplit]
  simp only [List.length_append, List.length_cons]
  omega

/-! ## The text of a name -/

/-- The octet of a dot. -/
def dot : UInt8 := 46

/-- Labels separated with dots. -/
def dotted : List Label → Bytes
  | [] => []
  | [l] => l
  | l :: l' :: ls => l ++ dot :: dotted (l' :: ls)

/-- **A legal name.** The text `n` of at most `most` octets spells the labels `ls`: one or more labels
of one to 63 octets without dots, separated with dots, and optionally a dot at the end. -/
structure Spells (most : ℕ) (n : Bytes) (ls : List Label) : Prop where
  ne_nil : ls ≠ []
  fit : Fit ls
  noDot : ∀ l ∈ ls, dot ∉ l
  length_le : n.length ≤ most
  text : n = dotted ls ∨ n = dotted ls ++ [dot]

instance (most : ℕ) (n : Bytes) (ls : List Label) : Decidable (Spells most n ls) :=
  decidable_of_iff (ls ≠ [] ∧ Fit ls ∧ (∀ l ∈ ls, dot ∉ l) ∧ n.length ≤ most ∧
      (n = dotted ls ∨ n = dotted ls ++ [dot]))
    ⟨fun ⟨h1, h2, h3, h4, h5⟩ => ⟨h1, h2, h3, h4, h5⟩, fun ⟨h1, h2, h3, h4, h5⟩ => ⟨h1, h2, h3, h4, h5⟩⟩

theorem Spells.mono {most most' : ℕ} (h : most ≤ most') {n : Bytes} {ls : List Label}
    (hs : Spells most n ls) : Spells most' n ls :=
  { hs with length_le := Nat.le_trans hs.length_le h }

/-- The labels `ls` that an entry `n` of the zone `origin` stands for: the origin follows the name
unless a dot ends it. -/
def InZone (origin : List Label) (n : Bytes) (ls : List Label) : Prop :=
  ∃ own, Spells 255 n own ∧ ls = if n.getLast? = some dot then own else own ++ origin

theorem dotted_cons {l : Label} {ls : List Label} (h : ls ≠ []) :
    dotted (l :: ls) = l ++ dot :: dotted ls := by
  cases ls with
  | nil => exact absurd rfl h
  | cons => rfl

theorem dotted_ne_nil {ls : List Label} (h : ls ≠ []) (hf : Fit ls) : dotted ls ≠ [] := by
  obtain ⟨l, ls, rfl⟩ := List.exists_cons_of_ne_nil h
  have hl := (hf l List.mem_cons_self).1
  cases ls with
  | nil => exact fun he => by rw [dotted] at he; rw [he] at hl; cases hl
  | cons l' ls => rw [dotted_cons (by simp)]; simp

theorem Spells.text_ne_nil {most : ℕ} {n : Bytes} {ls : List Label} (h : Spells most n ls) : n ≠ [] := by
  have hne := dotted_ne_nil h.ne_nil h.fit
  rcases h.text with rfl | rfl
  · exact hne
  · exact List.append_ne_nil_of_left_ne_nil hne _

theorem dotted_append {ls ls' : List Label} (h : ls ≠ []) (h' : ls' ≠ []) :
    dotted (ls ++ ls') = dotted ls ++ dot :: dotted ls' := by
  induction ls with
  | nil => exact absurd rfl h
  | cons l ls ih =>
    cases ls with
    | nil => rw [List.cons_append, List.nil_append, dotted_cons h']; rfl
    | cons l' ls =>
      rw [List.cons_append, dotted_cons (by simp), ih (by simp), dotted_cons (l := l) (by simp)]
      simp

theorem Spells.eq_dotted {most : ℕ} {n : Bytes} {ls : List Label} (h : Spells most n ls)
    (hn : n.getLast? ≠ some dot) : n = dotted ls := by
  rcases h.text with e | e
  · exact e
  · exact absurd (by simp [e]) hn

theorem getLast?_dotted {ls : List Label} (h : ls ≠ []) (hf : Fit ls) : (dotted ls).getLast? =
    (ls.getLast h).getLast? := by
  induction ls with
  | nil => exact absurd rfl h
  | cons l ls ih =>
    cases ls with
    | nil => rfl
    | cons l' ls =>
      have hne : dotted (l' :: ls) ≠ [] :=
        dotted_ne_nil (List.cons_ne_nil _ _) fun x hx => hf x (List.mem_cons_of_mem _ hx)
      rw [dotted_cons (List.cons_ne_nil _ _), List.getLast_cons (List.cons_ne_nil _ _),
        ← ih (List.cons_ne_nil _ _) fun x hx => hf x (List.mem_cons_of_mem _ hx),
        List.getLast?_append_of_ne_nil _ (List.cons_ne_nil _ _), List.getLast?_cons_of_ne_nil hne]

theorem Spells.eq_dotted_dot {most : ℕ} {n : Bytes} {ls : List Label} (h : Spells most n ls)
    (hn : n.getLast? = some dot) : n = dotted ls ++ [dot] := by
  rcases h.text with e | e
  · rw [e, getLast?_dotted h.ne_nil h.fit] at hn
    exact absurd (List.mem_of_getLast? hn) (h.noDot _ (List.getLast_mem h.ne_nil))
  · exact e

theorem Spells.append {most most' : ℕ} {n n' : Bytes} {ls ls' : List Label} (h : Spells most n ls)
    (h' : Spells most' n' ls') (hn : n.getLast? ≠ some dot) :
    Spells (most + 1 + most') (n ++ dot :: n') (ls ++ ls') where
  ne_nil := by simp [h.ne_nil]
  fit l hl := (List.mem_append.mp hl).elim (h.fit l) (h'.fit l)
  noDot l hl := (List.mem_append.mp hl).elim (h.noDot l) (h'.noDot l)
  length_le := by
    have := h.length_le
    have := h'.length_le
    simp; omega
  text := by
    rw [h.eq_dotted hn, dotted_append h.ne_nil h'.ne_nil]
    rcases h'.text with e | e <;> simp [e]

theorem length_dotted_le {most : ℕ} {n : Bytes} {ls : List Label} (h : Spells most n ls) :
    (dotted ls).length ≤ most := by
  have := h.length_le
  rcases h.text with e | e <;> rw [e] at this
  · exact this
  · rw [List.length_append] at this; omega

theorem length_encodeLabels : ∀ (ls : List Label), ls ≠ [] →
    (encodeLabels ls).length = (dotted ls).length + 1
  | [], h => absurd rfl h
  | [l], _ => by simp [encodeLabels, dotted]
  | l :: l' :: ls, _ => by
    have := length_encodeLabels (l' :: ls) (by simp)
    rw [encodeLabels, dotted_cons (by simp)]
    simp only [List.cons_append, List.length_cons, List.length_append] at this ⊢
    omega

end Rfc1035
