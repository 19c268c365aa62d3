import Mathlib.Data.List.TakeWhile
import VUbercool.Lib.Ascii

/-!
# A lexer with states

A lexer has a table of token definitions for each of its states. It takes the longest match in the
current state, the first definition on a tie, and goes on in the state that the definition names.

* `Pattern`: what a definition matches, as the length of its match. `literal`, `caseless`, `classes`,
  `many1`: the patterns. `Sound`: matches have a length.
* `longest`, `next`, `lex`: the longest match, the next token and all tokens.
* `Reads`: tokens that are read one after the other; `Reads.lex`, `exists_reads`.
* `Within`: patterns that stop at an octet. **`next_within`**: what precedes such an octet is read
  whatever follows it.
-/

namespace Lexer

open Octets

/-! ## Patterns -/

/-- **A pattern**: the length of its longest match at the beginning, if it matches. -/
abbrev Pattern : Type := Bytes → Option ℕ

/-- These octets. -/
def literal (p : Bytes) : Pattern := fun s => if p <+: s then some p.length else none

/-- These octets in lower case, ignoring case. -/
def caseless (p : Bytes) : Pattern := fun s => if p <+: lowered s then some p.length else none

/-- One octet of each class. -/
def matchesClasses : List (UInt8 → Bool) → Bytes → Bool
  | [], _ => true
  | _ :: _, [] => false
  | p :: ps, c :: s => p c && matchesClasses ps s

/-- Octets of these classes. -/
def classes (ps : List (UInt8 → Bool)) : Pattern := fun s =>
  if matchesClasses ps s = true then some ps.length else none

/-- One octet of a class, or more. -/
def many1 (p : UInt8 → Bool) : Pattern := fun s =>
  if (s.takeWhile p).length = 0 then none else some (s.takeWhile p).length

theorem literal_eq_some {p s : Bytes} {n : ℕ} : literal p s = some n ↔ p <+: s ∧ p.length = n :=
  Option.ite_none_right_eq_some.trans (and_congr_right fun _ => Option.some_inj)

theorem caseless_eq_some {p s : Bytes} {n : ℕ} :
    caseless p s = some n ↔ p <+: lowered s ∧ p.length = n :=
  Option.ite_none_right_eq_some.trans (and_congr_right fun _ => Option.some_inj)

theorem lt_of_many1 {p : UInt8 → Bool} {s : Bytes} {n k : ℕ} {c : UInt8} (h : many1 p s = some n)
    (hc : c ∈ s.take k) (hp : p c = false) : n < k := by
  unfold many1 at h
  split at h
  · cases h
  · cases h
    by_contra hle
    have hpre : s.take k <+: s.takeWhile p :=
      List.prefix_of_prefix_length_le (List.take_prefix k s) (List.takeWhile_prefix p)
        (Nat.le_trans (List.length_take_le k s) (Nat.not_lt.mp hle))
    have htrue := List.mem_takeWhile_imp (hpre.subset hc)
    rw [hp] at htrue
    cases htrue

/-- A match has a length, and lies in the text. -/
def Sound (pat : Pattern) : Prop := ∀ s n, pat s = some n → 0 < n ∧ n ≤ s.length

theorem sound_literal {p : Bytes} (hp : p ≠ []) : Sound (literal p) := by
  intro s n h
  obtain ⟨hpre, rfl⟩ := literal_eq_some.mp h
  exact ⟨List.length_pos_iff.mpr hp, hpre.length_le⟩

theorem sound_caseless {p : Bytes} (hp : p ≠ []) : Sound (caseless p) := by
  intro s n h
  obtain ⟨hpre, rfl⟩ := caseless_eq_some.mp h
  have hlength := hpre.length_le
  rw [lowered, List.length_map] at hlength
  exact ⟨List.length_pos_iff.mpr hp, hlength⟩

theorem le_of_matchesClasses : ∀ {ps : List (UInt8 → Bool)} {s : Bytes},
    matchesClasses ps s = true → ps.length ≤ s.length
  | [], _, _ => Nat.zero_le _
  | _ :: _, [], h => by cases h
  | _ :: _, _ :: _, h => Nat.succ_le_succ (le_of_matchesClasses (Bool.and_eq_true_iff.mp h).2)

theorem sound_classes {ps : List (UInt8 → Bool)} (hps : ps ≠ []) : Sound (classes ps) := by
  intro s n h
  unfold classes at h
  split at h
  · next hmatch =>
    cases h
    exact ⟨List.length_pos_iff.mpr hps, le_of_matchesClasses hmatch⟩
  · cases h

theorem sound_many1 (p : UInt8 → Bool) : Sound (many1 p) := by
  intro s n h
  unfold many1 at h
  split at h
  · cases h
  · next hne =>
    cases h
    exact ⟨Nat.pos_of_ne_zero hne, (List.takeWhile_prefix p).length_le⟩

/-- No match begins with `c`. -/
def Avoids (c : UInt8) (pat : Pattern) : Prop := ∀ s, pat (c :: s) = none

theorem not_prefix_cons {p s : Bytes} {c : UInt8} (h : p.head?.all (· == c) = false) :
    ¬ p <+: c :: s := by
  intro hpre
  cases p with
  | nil => cases h
  | cons a p =>
    obtain ⟨rfl, -⟩ := List.cons_prefix_cons.mp hpre
    simp at h

theorem avoids_literal {c : UInt8} {p : Bytes} (h : p.head?.all (· == c) = false) :
    Avoids c (literal p) := fun _ => if_neg (not_prefix_cons h)

theorem avoids_caseless {c : UInt8} {p : Bytes} (h : p.head?.all (· == lower c) = false) :
    Avoids c (caseless p) := fun _ => if_neg (not_prefix_cons h)

theorem avoids_classes {c : UInt8} {p : UInt8 → Bool} {ps : List (UInt8 → Bool)} (h : p c = false) :
    Avoids c (classes (p :: ps)) := by
  intro s
  unfold classes
  rw [matchesClasses, h]
  rfl

theorem avoids_many1 {c : UInt8} {p : UInt8 → Bool} (h : p c = false) : Avoids c (many1 p) := by
  intro s
  unfold many1
  rw [List.takeWhile_cons_of_neg (by rw [h]; exact Bool.false_ne_true)]
  rfl

theorem eq_of_literal {p t s : Bytes} (h : literal p (t ++ s) = some t.length) : t = p := by
  obtain ⟨⟨r, hr⟩, hlength⟩ := literal_eq_some.mp h
  exact (List.append_inj hr hlength).1.symm

theorem lowered_of_caseless {p t s : Bytes} (h : caseless p (t ++ s) = some t.length) :
    lowered t = p := by
  obtain ⟨⟨r, hr⟩, hlength⟩ := caseless_eq_some.mp h
  rw [lowered, List.map_append] at hr
  exact (List.append_inj hr (hlength.trans (List.length_map _).symm)).1.symm

theorem forall_of_many1 {p : UInt8 → Bool} {t s : Bytes} (h : many1 p (t ++ s) = some t.length) :
    ∀ c ∈ t, p c = true := by
  unfold many1 at h
  split at h
  · cases h
  · have hpre : (t ++ s).takeWhile p <+: t ++ s := List.takeWhile_prefix p
    have heq := (List.prefix_of_prefix_length_le hpre (List.prefix_append ..)
      (Option.some.inj h).le).eq_of_length (Option.some.inj h)
    intro c hc
    rw [← heq] at hc
    exact List.mem_takeWhile_imp hc

theorem matchesClasses_of_append : ∀ {ps : List (UInt8 → Bool)} {t s : Bytes},
    matchesClasses ps (t ++ s) = true → ps.length = t.length → matchesClasses ps t = true
  | [], _, _, _, _ => rfl
  | _ :: _, [], _, _, hlength => by cases hlength
  | _ :: _, _ :: _, _, h, hlength => by
    obtain ⟨hp, hps⟩ := Bool.and_eq_true_iff.mp h
    exact Bool.and_eq_true_iff.mpr ⟨hp, matchesClasses_of_append hps (Nat.succ.inj hlength)⟩

theorem matchesClasses_of_classes {ps : List (UInt8 → Bool)} {t s : Bytes}
    (h : classes ps (t ++ s) = some t.length) : matchesClasses ps t = true ∧ t.length = ps.length := by
  obtain ⟨hmatch, hlength⟩ := Option.ite_none_right_eq_some.mp h
  have hlength' := Option.some.inj hlength
  exact ⟨matchesClasses_of_append hmatch hlength', hlength'.symm⟩

theorem prefix_append_cons {α : Type} {p u w : List α} {c : α} (hc : c ∉ p) :
    p <+: u ++ c :: w ↔ p <+: u := by
  refine ⟨fun h => ?_, fun h => h.trans (List.prefix_append ..)⟩
  by_cases hle : p.length ≤ u.length
  · exact List.prefix_of_prefix_length_le h (List.prefix_append ..) hle
  · -- the separator would be in the prefix
    obtain ⟨t, ht⟩ := h
    have hget : (p ++ t)[u.length]? = some c := by
      rw [ht]
      simp
    rw [List.getElem?_append_left (by omega)] at hget
    exact absurd (List.mem_of_getElem? hget) hc

theorem many1_append_cons {p : UInt8 → Bool} {c : UInt8} {x : Bytes} (hx : ∀ a ∈ x, p a = true)
    (hne : x ≠ []) (hc : p c = false) (s : Bytes) : many1 p (x ++ c :: s) = some x.length := by
  have htake : (x ++ c :: s).takeWhile p = x := by
    rw [List.takeWhile_append_of_pos hx, List.takeWhile_cons_of_neg (by simp [hc]), List.append_nil]
  unfold many1
  rw [htake, if_neg (List.length_pos_iff.mpr hne).ne']

theorem eq_of_prefix_append_cons {p u w : Bytes} {c : UInt8} (hp : c ∉ p) (hu : c ∉ u)
    (h : p ++ [c] <+: u ++ c :: w) : p = u := by
  have hpu : p <+: u := (prefix_append_cons hp).mp ((List.prefix_append p [c]).trans h)
  refine hpu.eq_of_length_le ?_
  by_contra hlt
  have hcu : p ++ [c] <+: u := by
    refine List.prefix_of_prefix_length_le h (List.prefix_append ..) ?_
    rw [List.length_append, List.length_singleton]
    omega
  exact hu (hcu.subset (List.mem_append_right p List.mem_cons_self))

/-- **The pattern stops at `c`**: what precedes it is matched whatever follows it. -/
def Within (c : UInt8) (pat : Pattern) : Prop :=
  ∀ u w, u ≠ [] → c ∉ u → pat (u ++ c :: w) = pat u

theorem Within.le {c : UInt8} {pat : Pattern} (h : Within c pat) (hsound : Sound pat) {u w : Bytes}
    (hu : u ≠ []) (hc : c ∉ u) {m : ℕ} (hm : pat (u ++ c :: w) = some m) : m ≤ u.length := by
  rw [h u w hu hc] at hm
  exact (hsound u m hm).2

theorem within_literal {c : UInt8} {p : Bytes} (hc : c ∉ p) : Within c (literal p) := by
  intro u w _ _
  unfold literal
  simp only [prefix_append_cons hc]

theorem within_literal_cons (c : UInt8) (p : Bytes) : Within c (literal (c :: p)) := by
  intro u w hu hcu
  have hnot : ∀ v, ¬ c :: p <+: u ++ v := by
    intro v h
    cases u with
    | nil => exact hu rfl
    | cons a u =>
      obtain ⟨rfl, -⟩ := List.cons_prefix_cons.mp h
      exact hcu List.mem_cons_self
  have hnot' : ¬ c :: p <+: u := List.append_nil u ▸ hnot []
  unfold literal
  rw [if_neg (hnot _), if_neg hnot']

theorem within_caseless {c : UInt8} {p : Bytes} (hcase : Caseless c) (hc : c ∉ p) :
    Within c (caseless p) := by
  intro u w _ _
  unfold caseless
  have hsplit : lowered (u ++ c :: w) = lowered u ++ c :: lowered w := by
    simp [lowered, lower_of_caseless hcase]
  simp only [hsplit, prefix_append_cons hc]

theorem matchesClasses_append_cons {c : UInt8} : ∀ {ps : List (UInt8 → Bool)}
    (_ : ∀ p ∈ ps, p c = false) (u w : Bytes), matchesClasses ps (u ++ c :: w) = matchesClasses ps u
  | [], _, _, _ => rfl
  | p :: ps, hps, [], w => by
    have hc : matchesClasses (p :: ps) (c :: w) = (p c && matchesClasses ps w) := rfl
    rw [List.nil_append, hc, hps p List.mem_cons_self]
    rfl
  | p :: ps, hps, a :: u, w => by
    rw [List.cons_append, matchesClasses, matchesClasses,
      matchesClasses_append_cons (fun q hq => hps q (List.mem_cons_of_mem _ hq)) u w]

theorem within_classes {c : UInt8} {ps : List (UInt8 → Bool)} (hps : ps.all (fun p => !p c) = true) :
    Within c (classes ps) := by
  intro u w _ _
  have hnone : ∀ p ∈ ps, p c = false := fun p hp => by simpa using List.all_eq_true.mp hps p hp
  unfold classes
  rw [matchesClasses_append_cons hnone]

theorem takeWhile_append_cons {c : UInt8} {p : UInt8 → Bool} (hc : p c = false) (w : Bytes) :
    ∀ u : Bytes, (u ++ c :: w).takeWhile p = u.takeWhile p
  | [] => by simp [hc]
  | a :: u => by
    have ih := takeWhile_append_cons hc w u
    cases ha : p a <;> simp [ha, ih]

theorem within_many1 {c : UInt8} {p : UInt8 → Bool} (hc : p c = false) : Within c (many1 p) := by
  intro u w _ _
  unfold many1
  rw [takeWhile_append_cons hc]

/-! ## Tokens -/

section Tokens

variable {ι κ : Type}

/-- A token definition: its id, its pattern and the state the lexer goes on in. -/
structure TokenDef (ι κ : Type) where
  id : ι
  pattern : Pattern
  target : Option κ := none

/-- A token: its id, the state it was read in and its text. -/
@[ext]
structure Token (ι κ : Type) where
  id : ι
  state : κ
  text : Bytes
  deriving DecidableEq

/-- The definitions of each state. -/
abbrev Table (ι κ : Type) : Type := κ → List (TokenDef ι κ)

/-- **The longest match**, of the first definition on a tie. -/
def longest : List (TokenDef ι κ) → Bytes → Option (ℕ × TokenDef ι κ)
  | [], _ => none
  | d :: ds, s =>
    match d.pattern s, longest ds s with
    | some n, some (m, e) => if m ≤ n then some (n, d) else some (m, e)
    | some n, none => some (n, d)
    | none, r => r

/-- The next token, the state after it and the rest of the text. -/
def next (table : Table ι κ) (state : κ) (s : Bytes) : Option (Token ι κ × κ × Bytes) :=
  (longest (table state) s).map fun (n, d) =>
    (⟨d.id, state, s.take n⟩, d.target.getD state, s.drop n)

/-- The tokens, `fuel` at most. -/
def lexFuel (table : Table ι κ) : ℕ → κ → Bytes → List (Token ι κ)
  | 0, _, _ => []
  | fuel + 1, state, s =>
    match next table state s with
    | none => []
    | some (t, state', s') => t :: lexFuel table fuel state' s'

/-- **The tokens of a text**, up to where no definition matches. -/
def lex (table : Table ι κ) (state : κ) (s : Bytes) : List (Token ι κ) :=
  lexFuel table s.length state s

/-- The text of tokens. -/
def text (ts : List (Token ι κ)) : Bytes := ts.flatMap Token.text

@[simp] theorem text_nil : text ([] : List (Token ι κ)) = [] := rfl

@[simp] theorem text_cons (t : Token ι κ) (ts : List (Token ι κ)) :
    text (t :: ts) = t.text ++ text ts := rfl

@[simp] theorem text_append (ts us : List (Token ι κ)) : text (ts ++ us) = text ts ++ text us :=
  List.flatMap_append

theorem text_flatten (tss : List (List (Token ι κ))) : text tss.flatten = (tss.map text).flatten := by
  induction tss with
  | nil => rfl
  | cons ts tss ih => rw [List.flatten_cons, text_append, ih, List.map_cons, List.flatten_cons]

theorem longest_eq_none {ds : List (TokenDef ι κ)} {s : Bytes} :
    longest ds s = none ↔ ∀ d ∈ ds, d.pattern s = none := by
  induction ds with
  | nil => exact iff_of_true rfl (List.forall_mem_nil _)
  | cons d ds ih =>
    rw [longest, List.forall_mem_cons, ← ih]
    cases d.pattern s with
    | none => simp
    | some n =>
      cases longest ds s with
      | none => simp
      | some r =>
        simp only
        split <;> simp

/-- **What the longest match is**: one of the definitions matches it, and none matches more. -/
theorem longest_eq_some {ds : List (TokenDef ι κ)} {s : Bytes} {n : ℕ} {d : TokenDef ι κ}
    (h : longest ds s = some (n, d)) :
    d ∈ ds ∧ d.pattern s = some n ∧ ∀ e ∈ ds, ∀ m, e.pattern s = some m → m ≤ n := by
  induction ds generalizing n d with
  | nil => cases h
  | cons c ds ih =>
    rw [longest] at h
    rw [List.forall_mem_cons]
    cases hc : c.pattern s with
    | none =>
      rw [hc] at h
      obtain ⟨hd, hpat, hmax⟩ := ih h
      exact ⟨List.mem_cons_of_mem _ hd, hpat, fun m hm => (by cases hm), hmax⟩
    | some k =>
      rw [hc] at h
      cases hrest : longest ds s with
      | none =>
        rw [hrest] at h
        cases h
        refine ⟨List.mem_cons_self, hc, fun m hm => (by cases hm; exact Nat.le_refl _), ?_⟩
        intro e he m hm
        rw [longest_eq_none.mp hrest e he] at hm
        cases hm
      | some r =>
        obtain ⟨m', e'⟩ := r
        obtain ⟨he', hpat', hmax'⟩ := ih hrest
        rw [hrest] at h
        simp only at h
        split at h
        · next hle =>
          cases h
          exact ⟨List.mem_cons_self, hc, fun m hm => (by cases hm; exact Nat.le_refl _),
            fun e he m hm => Nat.le_trans (hmax' e he m hm) hle⟩
        · next hlt =>
          cases h
          exact ⟨List.mem_cons_of_mem _ he', hpat', fun m hm => (by cases hm; omega), hmax'⟩

theorem longest_of_max (ds ds' : List (TokenDef ι κ)) {d : TokenDef ι κ} {s : Bytes} {n : ℕ}
    (hd : d.pattern s = some n) (hbefore : ∀ e ∈ ds, ∀ m, e.pattern s = some m → m < n)
    (hafter : ∀ e ∈ ds', ∀ m, e.pattern s = some m → m ≤ n) :
    longest (ds ++ d :: ds') s = some (n, d) := by
  induction ds with
  | nil =>
    rw [List.nil_append, longest, hd]
    cases hrest : longest ds' s with
    | none => rfl
    | some r =>
      obtain ⟨m, e⟩ := r
      obtain ⟨he, hpat, -⟩ := longest_eq_some hrest
      simp only
      rw [if_pos (hafter e he m hpat)]
  | cons c ds ih =>
    rw [List.forall_mem_cons] at hbefore
    rw [List.cons_append, longest, ih hbefore.2]
    cases hc : c.pattern s with
    | none => rfl
    | some m =>
      have hlt := hbefore.1 m hc
      simp only
      rw [if_neg (by omega)]

/-- **Maximal munch with ties**: of the definitions that match most, the first. -/
theorem longest_of_find {ds : List (TokenDef ι κ)} {d : TokenDef ι κ} {s : Bytes} {n : ℕ}
    (hmax : ∀ e ∈ ds, ∀ m, e.pattern s = some m → m ≤ n)
    (hd : ds.find? (fun e => e.pattern s == some n) = some d) : longest ds s = some (n, d) := by
  obtain ⟨hpat, ds₁, ds₂, rfl, hfirst⟩ := List.find?_eq_some_iff_append.mp hd
  refine longest_of_max ds₁ ds₂ (beq_iff_eq.mp hpat) (fun e he m hm => ?_)
    fun e he m hm => hmax e (by simp [he]) m hm
  refine lt_of_le_of_ne (hmax e (by simp [he]) m hm) ?_
  rintro rfl
  have hnot := hfirst e he
  rw [hm] at hnot
  simp at hnot

theorem longest_of_only (ds ds' : List (TokenDef ι κ)) {d : TokenDef ι κ} {s : Bytes}
    (hbefore : ∀ e ∈ ds, e.pattern s = none) (hafter : ∀ e ∈ ds', e.pattern s = none) :
    longest (ds ++ d :: ds') s = (d.pattern s).map fun n => (n, d) := by
  cases hd : d.pattern s with
  | none =>
    refine longest_eq_none.mpr fun e he => ?_
    obtain he | he := List.mem_append.mp he
    · exact hbefore e he
    · obtain rfl | he := List.mem_cons.mp he
      · exact hd
      · exact hafter e he
  | some n =>
    refine longest_of_max ds ds' hd (fun e he m hm => ?_) fun e he m hm => ?_
    · rw [hbefore e he] at hm
      cases hm
    · rw [hafter e he] at hm
      cases hm

/-! ## The next token -/

/-- All matches have a length and lie in the text. -/
def Table.Sound (table : Table ι κ) : Prop := ∀ state, ∀ d ∈ table state, Lexer.Sound d.pattern

variable {table : Table ι κ} {state state' state'' : κ} {s s' s'' : Bytes} {t : Token ι κ}
  {ts us : List (Token ι κ)}

/-- **The next token** is that of a definition of the state, and precedes the rest. -/
theorem next_eq_some (hsound : table.Sound) (h : next table state s = some (t, state', s')) :
    ∃ d ∈ table state, t.id = d.id ∧ t.state = state ∧ state' = d.target.getD state ∧
      s = t.text ++ s' ∧ t.text ≠ [] ∧ d.pattern s = some t.text.length ∧
      ∀ e ∈ table state, ∀ m, e.pattern s = some m → m ≤ t.text.length := by
  obtain ⟨⟨n, d⟩, hlongest, heq⟩ := Option.map_eq_some_iff.mp h
  obtain ⟨hd, hpat, hmax⟩ := longest_eq_some hlongest
  obtain ⟨hpos, hle⟩ := hsound state d hd s n hpat
  have hlength : (s.take n).length = n := List.length_take_of_le hle
  cases heq
  refine ⟨d, hd, rfl, rfl, rfl, (List.take_append_drop n s).symm, fun hnil => ?_, ?_, ?_⟩
  · have hzero := congrArg List.length hnil
    rw [hlength, List.length_nil] at hzero
    omega
  · rw [hlength]
    exact hpat
  · rw [hlength]
    exact hmax

theorem next_of_longest {d : TokenDef ι κ} {x y : Bytes}
    (h : longest (table state) (x ++ y) = some (x.length, d)) :
    next table state (x ++ y) = some (⟨d.id, state, x⟩, d.target.getD state, y) := by
  unfold next
  rw [h]
  simp only [Option.map_some, List.take_left, List.drop_left]

theorem next_of_find {d : TokenDef ι κ} {x y : Bytes}
    (hmax : ∀ e ∈ table state, ∀ m, e.pattern (x ++ y) = some m → m ≤ x.length)
    (hd : (table state).find? (fun e => e.pattern (x ++ y) == some x.length) = some d) :
    next table state (x ++ y) = some (⟨d.id, state, x⟩, d.target.getD state, y) :=
  next_of_longest (longest_of_find hmax hd)

theorem next_of_only (ds ds' : List (TokenDef ι κ)) {d : TokenDef ι κ} {x y : Bytes}
    (htable : table state = ds ++ d :: ds') (hbefore : ∀ e ∈ ds, e.pattern (x ++ y) = none)
    (hafter : ∀ e ∈ ds', e.pattern (x ++ y) = none) (hpat : d.pattern (x ++ y) = some x.length) :
    next table state (x ++ y) = some (⟨d.id, state, x⟩, d.target.getD state, y) := by
  refine next_of_longest ?_
  rw [htable, longest_of_only ds ds' hbefore hafter, hpat]
  rfl

/-- **The next token where no other definition begins so.** -/
theorem next_of_avoids (ds ds' : List (TokenDef ι κ)) {d : TokenDef ι κ} {c : UInt8} {x y : Bytes}
    (htable : table state = ds ++ d :: ds') (hbefore : ∀ e ∈ ds, Avoids c e.pattern)
    (hafter : ∀ e ∈ ds', Avoids c e.pattern) (hpat : d.pattern (c :: x ++ y) = some (c :: x).length) :
    next table state (c :: x ++ y) = some (⟨d.id, state, c :: x⟩, d.target.getD state, y) :=
  next_of_only ds ds' htable (fun e he => hbefore e he _) (fun e he => hafter e he _) hpat

theorem next_eq_none_of_avoids {c : UInt8} (h : ∀ d ∈ table state, Avoids c d.pattern) (s : Bytes) :
    next table state (c :: s) = none :=
  Option.map_eq_none_iff.mpr (longest_eq_none.mpr fun d hd => h d hd s)

theorem length_lt_of_next (hsound : table.Sound) (h : next table state s = some (t, state', s')) :
    s'.length < s.length := by
  obtain ⟨-, -, -, -, -, hs, hne, -⟩ := next_eq_some hsound h
  have hpos := List.length_pos_iff.mpr hne
  rw [hs, List.length_append]
  omega

theorem next_nil (hsound : table.Sound) : next table state [] = none := by
  cases h : next table state [] with
  | none => rfl
  | some r =>
    obtain ⟨t, state', s'⟩ := r
    exact absurd (length_lt_of_next hsound h) (Nat.not_lt_zero _)

theorem lexFuel_eq (hsound : table.Sound) : ∀ (n m : ℕ) (state : κ) (s : Bytes), s.length ≤ n →
    s.length ≤ m → lexFuel table n state s = lexFuel table m state s
  | 0, m, state, s, hn, _ => by
    obtain rfl : s = [] := List.length_eq_zero_iff.mp (Nat.le_zero.mp hn)
    cases m with
    | zero => rfl
    | succ m => rw [lexFuel, lexFuel, next_nil hsound]
  | n + 1, 0, state, s, _, hm => by
    obtain rfl : s = [] := List.length_eq_zero_iff.mp (Nat.le_zero.mp hm)
    rw [lexFuel, lexFuel, next_nil hsound]
  | n + 1, m + 1, state, s, hn, hm => by
    rw [lexFuel, lexFuel]
    cases h : next table state s with
    | none => rfl
    | some r =>
      obtain ⟨t, state', s'⟩ := r
      have hlt := length_lt_of_next hsound h
      exact congrArg (t :: ·) (lexFuel_eq hsound n m state' s' (by omega) (by omega))

theorem lex_of_next (hsound : table.Sound) (h : next table state s = some (t, state', s')) :
    lex table state s = t :: lex table state' s' := by
  obtain ⟨n, hn⟩ := Nat.exists_eq_succ_of_ne_zero
    (Nat.pos_iff_ne_zero.mp (Nat.zero_lt_of_lt (length_lt_of_next hsound h)))
  have hlt := length_lt_of_next hsound h
  unfold lex
  rw [hn, lexFuel, h]
  exact congrArg (t :: ·) (lexFuel_eq hsound n s'.length state' s' (by omega) (Nat.le_refl _))

theorem lex_of_stuck (h : next table state s = none) : lex table state s = [] := by
  unfold lex
  cases s.length with
  | zero => rfl
  | succ n => rw [lexFuel, h]

/-! ## Tokens that are read -/

/-- **The tokens are read** one after the other, which leaves a state and a rest. -/
inductive Reads (table : Table ι κ) : κ → Bytes → List (Token ι κ) → κ → Bytes → Prop
  | nil {q : κ} {s : Bytes} : Reads table q s [] q s
  | cons {q q' q'' : κ} {s s' s'' : Bytes} {t : Token ι κ} {ts : List (Token ι κ)} :
      next table q s = some (t, q', s') → Reads table q' s' ts q'' s'' →
      Reads table q s (t :: ts) q'' s''

theorem Reads.lex (hsound : table.Sound) (h : Reads table state s ts state' s') :
    Lexer.lex table state s = ts ++ Lexer.lex table state' s' := by
  induction h with
  | nil => rfl
  | cons hnext _ ih => rw [lex_of_next hsound hnext, ih, List.cons_append]

theorem Reads.text (hsound : table.Sound) (h : Reads table state s ts state' s') :
    s = Lexer.text ts ++ s' := by
  induction h with
  | nil => rfl
  | cons hnext _ ih =>
    obtain ⟨-, -, -, -, -, hs, -⟩ := next_eq_some hsound hnext
    rw [text_cons, List.append_assoc, ← ih]
    exact hs

theorem reads_nil : Reads table state s [] state' s' ↔ state' = state ∧ s' = s := by
  constructor
  · intro h
    cases h
    exact ⟨rfl, rfl⟩
  · rintro ⟨rfl, rfl⟩
    exact .nil

theorem reads_cons : Reads table state s (t :: ts) state'' s'' ↔
    ∃ state' s', next table state s = some (t, state', s') ∧ Reads table state' s' ts state'' s'' := by
  constructor
  · intro h
    cases h with
    | cons hnext h => exact ⟨_, _, hnext, h⟩
  · rintro ⟨state', s', hnext, h⟩
    exact .cons hnext h

theorem reads_append : Reads table state s (ts ++ us) state'' s'' ↔
    ∃ state' s', Reads table state s ts state' s' ∧ Reads table state' s' us state'' s'' := by
  induction ts generalizing state s with
  | nil =>
    rw [List.nil_append]
    constructor
    · exact fun h => ⟨state, s, .nil, h⟩
    · rintro ⟨state', s', hnil, h⟩
      obtain ⟨rfl, rfl⟩ := reads_nil.mp hnil
      exact h
  | cons t ts ih =>
    rw [List.cons_append, reads_cons]
    constructor
    · rintro ⟨q, r, hnext, h⟩
      obtain ⟨state', s', hts, hus⟩ := ih.mp h
      exact ⟨state', s', .cons hnext hts, hus⟩
    · rintro ⟨state', s', hts, hus⟩
      obtain ⟨q, r, hnext, hts⟩ := reads_cons.mp hts
      exact ⟨q, r, hnext, ih.mpr ⟨state', s', hts, hus⟩⟩

/-- Tokens that begin the tokens of a text are read. -/
theorem exists_reads (hsound : table.Sound) : ∀ {ts us : List (Token ι κ)} {state : κ} {s : Bytes},
    lex table state s = ts ++ us → ∃ state' s', Reads table state s ts state' s' ∧
      lex table state' s' = us
  | [], us, state, s, h => ⟨state, s, .nil, h⟩
  | t :: ts, us, state, s, h => by
    cases hnext : next table state s with
    | none =>
      rw [lex_of_stuck hnext] at h
      cases h
    | some r =>
      obtain ⟨t', state', s'⟩ := r
      rw [lex_of_next hsound hnext] at h
      obtain ⟨rfl, hrest⟩ := List.cons_eq_cons.mp h
      obtain ⟨state'', s'', hreads, hus⟩ := exists_reads hsound hrest
      exact ⟨state'', s'', .cons hnext hreads, hus⟩

/-- **Letters begin a token**, if the first of them is in no token but at its beginning. -/
theorem exists_token_of_letters {g : UInt8} {p : Bytes} : ∀ {ts : List (Token ι κ)},
    (∀ t ∈ ts, g ∉ (lowered t.text).tail) → g :: p <:+: lowered (text ts) →
      ∃ us t vs, ts = us ++ t :: vs ∧ g :: p <+: lowered (text (t :: vs))
  | [], _, h => absurd (List.infix_nil.mp h) (List.cons_ne_nil _ _)
  | t :: ts, hts, h => by
    rw [List.forall_mem_cons] at hts
    have hrest : g :: p <:+: lowered (text ts) →
        ∃ us u vs, t :: ts = us ++ u :: vs ∧ g :: p <+: lowered (text (u :: vs)) := by
      intro hin
      obtain ⟨us, u, vs, rfl, hpre⟩ := exists_token_of_letters hts.2 hin
      exact ⟨t :: us, u, vs, rfl, hpre⟩
    obtain ⟨x, y, hxy⟩ := h
    have hsplit : x ++ (g :: p ++ y) = lowered t.text ++ lowered (text ts) := by
      rw [← List.append_assoc, hxy, text_cons, lowered, lowered, lowered, List.map_append]
    obtain ⟨z, ht, hz⟩ | ⟨z, rfl, hz⟩ := List.append_eq_append_iff.mp hsplit
    · -- the letters begin in the first token
      cases z with
      | nil => exact hrest ⟨[], y, hz⟩
      | cons c z =>
        obtain ⟨rfl, -⟩ := List.cons_eq_cons.mp hz
        cases x with
        | nil => exact ⟨[], t, ts, rfl, y, hxy⟩
        | cons a x =>
          refine absurd ?_ hts.1
          rw [ht]
          exact List.mem_append_right _ List.mem_cons_self
    · exact hrest ⟨z, y, by rw [hz, List.append_assoc]⟩

/-! ## What follows a text -/

theorem longest_within {c : UInt8} {ds : List (TokenDef ι κ)} (hds : ∀ d ∈ ds, Within c d.pattern)
    {u : Bytes} (hu : u ≠ []) (hc : c ∉ u) (w : Bytes) : longest ds (u ++ c :: w) = longest ds u := by
  induction ds with
  | nil => rfl
  | cons d ds ih =>
    rw [List.forall_mem_cons] at hds
    rw [longest, longest, hds.1 u w hu hc, ih hds.2]

/-- **What precedes `c` is read whatever follows it.** -/
theorem next_within {c : UInt8} (hsound : table.Sound)
    (hstate : ∀ d ∈ table state, Within c d.pattern) {u w : Bytes} (hu : u ≠ []) (hc : c ∉ u)
    (h : next table state (u ++ c :: w) = some (t, state', s')) :
    ∃ u', u = t.text ++ u' ∧ s' = u' ++ c :: w ∧
      ∀ w', next table state (u ++ c :: w') = some (t, state', u' ++ c :: w') := by
  unfold next at h
  rw [longest_within hstate hu hc] at h
  obtain ⟨⟨n, d⟩, hlongest, heq⟩ := Option.map_eq_some_iff.mp h
  obtain ⟨hd, hpat, -⟩ := longest_eq_some hlongest
  have hle := (hsound state d hd u n hpat).2
  have htake : ∀ v, (u ++ v).take n = u.take n := fun v => List.take_append_of_le_length hle
  have hdrop : ∀ v, (u ++ v).drop n = u.drop n ++ v := fun v => List.drop_append_of_le_length hle
  simp only [htake, hdrop] at heq
  cases heq
  refine ⟨u.drop n, (List.take_append_drop n u).symm, rfl, fun w' => ?_⟩
  unfold next
  rw [longest_within hstate hu hc, hlongest]
  simp only [Option.map_some, htake, hdrop]

theorem notMem_of_next {c : UInt8} (hsound : table.Sound)
    (hstate : ∀ d ∈ table state, Within c d.pattern) (h : next table state s = some (t, state', s'))
    (hhead : t.text.head? ≠ some c) : c ∉ t.text := by
  intro hmem
  obtain ⟨-, -, -, -, -, rfl, -⟩ := next_eq_some hsound h
  obtain ⟨u, w, htext, hu⟩ := List.eq_append_cons_of_mem hmem
  have hne : u ≠ [] := by
    rintro rfl
    exact hhead (by rw [htext]; rfl)
  rw [htext, List.append_assoc, List.cons_append] at h
  obtain ⟨u', hlonger, -⟩ := next_within hsound hstate hne hu h
  have hlength := congrArg List.length hlonger
  rw [htext, List.length_append, List.length_append, List.length_cons] at hlength
  omega

theorem next_of_notMem {c : UInt8} (hsound : table.Sound)
    (hstate : ∀ d ∈ table state, Within c d.pattern) (hc : c ∉ t.text) {w : Bytes}
    (h : next table state (t.text ++ c :: w) = some (t, state', c :: w)) (w' : Bytes) :
    next table state (t.text ++ c :: w') = some (t, state', c :: w') := by
  obtain ⟨-, -, -, -, -, -, hne, -⟩ := next_eq_some hsound h
  obtain ⟨u', hu', -, hall⟩ := next_within hsound hstate hne hc h
  obtain rfl : u' = [] := List.self_eq_append_right.mp hu'
  exact hall w'

end Tokens

end Lexer
