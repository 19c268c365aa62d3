import Mathlib.Data.List.TakeWhile
import Mathlib.Tactic.Common

/-!
# Parsers with ordered choice and actions

A parser takes tokens and a state to what is left of the tokens, if it succeeds, and to the state that
its actions leave, also where it fails.

* `token`, `seq`, `alt`, `star`, `plus`: one token, and the combinations. Repetitions are greedy.
* `Consumes`: a parser that takes tokens; `star_none`, `star_some`: how a repetition goes on.
* `Takes`, `pieces`: what a repetition takes; `star_takes`, `takes_star`.
* `Determined`, `Single`: parsers to which the rest makes no difference, parsers of one token.
* `Inline`, `LineOf`: parsers that stay before a separator, or take a line with its separator;
  **`LineOf.takes`**: lines are taken whatever follows.
* `Keeps`, `Exact`: what the actions leave alone, and parsers whose actions are those of the tokens they
  take.
-/

namespace Peg

variable {τ σ α : Type}

/-- **A parser**, with actions on a state. -/
abbrev Parser (τ σ : Type) : Type := List τ → σ → Option (List τ) × σ

/-- One token that passes a test, with its action. -/
def token (p : τ → Bool) (f : τ → σ → σ) : Parser τ σ
  | [], s => (none, s)
  | t :: ts, s => if p t then (some ts, f t s) else (none, s)

/-- One parser, then the other. -/
def seq (p q : Parser τ σ) : Parser τ σ := fun ts s =>
  match p ts s with
  | (some r, s') => q r s'
  | (none, s') => (none, s')

/-- One parser, or else the other. -/
def alt (p q : Parser τ σ) : Parser τ σ := fun ts s =>
  match p ts s with
  | (some r, s') => (some r, s')
  | (none, s') => q ts s'

/-- A parser as often as it succeeds, `fuel` times at most. -/
def starFuel (p : Parser τ σ) : ℕ → Parser τ σ
  | 0, ts, s => (some ts, s)
  | fuel + 1, ts, s =>
    match p ts s with
    | (some r, s') => starFuel p fuel r s'
    | (none, s') => (some ts, s')

/-- **A parser as often as it succeeds.** -/
def star (p : Parser τ σ) : Parser τ σ := fun ts s => starFuel p (ts.length + 1) ts s

/-- A parser once, and then as often as it succeeds. -/
def plus (p : Parser τ σ) : Parser τ σ := seq p (star p)

variable {p q : Parser τ σ} {ts r : List τ} {s s' : σ}

theorem token_cons (test : τ → Bool) (f : τ → σ → σ) (t : τ) (ts : List τ) (s : σ) :
    token test f (t :: ts) s = if test t then (some ts, f t s) else (none, s) := rfl

theorem seq_some (h : p ts s = (some r, s')) : seq p q ts s = q r s' := by rw [seq, h]

theorem seq_none (h : p ts s = (none, s')) : seq p q ts s = (none, s') := by rw [seq, h]

theorem alt_some (h : p ts s = (some r, s')) : alt p q ts s = (some r, s') := by rw [alt, h]

theorem alt_none (h : p ts s = (none, s')) : alt p q ts s = q ts s' := by rw [alt, h]

theorem exists_of_seq (h : seq p q ts s = (some r, s')) :
    ∃ m s₁, p ts s = (some m, s₁) ∧ q m s₁ = (some r, s') := by
  rw [seq] at h
  rcases hp : p ts s with ⟨_ | m, s₁⟩
  · rw [hp] at h
    cases h
  · rw [hp] at h
    exact ⟨m, s₁, rfl, h⟩

theorem exists_of_alt (h : alt p q ts s = (some r, s')) :
    p ts s = (some r, s') ∨ ∃ s₁, p ts s = (none, s₁) ∧ q ts s₁ = (some r, s') := by
  rw [alt] at h
  rcases hp : p ts s with ⟨_ | m, s₁⟩
  · rw [hp] at h
    exact .inr ⟨s₁, rfl, h⟩
  · rw [hp] at h
    exact .inl h

theorem token_some {test : τ → Bool} {f : τ → σ → σ} (h : token test f ts s = (some r, s')) :
    ∃ t, ts = t :: r ∧ test t = true ∧ s' = f t s := by
  cases ts with
  | nil => cases h
  | cons t ts =>
    rw [token] at h
    split at h
    · next ht =>
      cases h
      exact ⟨t, rfl, ht, rfl⟩
    · cases h

/-! ## What is taken -/

/-- The parser takes tokens. -/
def Consumes (p : Parser τ σ) : Prop :=
  ∀ ts s r s', p ts s = (some r, s') → ∃ h, h ≠ [] ∧ ts = h ++ r

/-- The parser leaves a suffix. -/
def Suffixes (p : Parser τ σ) : Prop := ∀ ts s r s', p ts s = (some r, s') → ∃ h, ts = h ++ r

theorem Consumes.suffixes (h : Consumes p) : Suffixes p := by
  intro ts s r s' hp
  obtain ⟨a, -, ha⟩ := h ts s r s' hp
  exact ⟨a, ha⟩

theorem Suffixes.seq (hp : Suffixes p) (hq : Suffixes q) : Suffixes (seq p q) := by
  intro ts s r s' h
  obtain ⟨m, s₁, h₁, h₂⟩ := exists_of_seq h
  obtain ⟨a, rfl⟩ := hp ts s m s₁ h₁
  obtain ⟨b, rfl⟩ := hq m s₁ r s' h₂
  exact ⟨a ++ b, (List.append_assoc ..).symm⟩

theorem Consumes.seq_left (hp : Consumes p) (hq : Suffixes q) : Consumes (seq p q) := by
  intro ts s r s' h
  obtain ⟨m, s₁, h₁, h₂⟩ := exists_of_seq h
  obtain ⟨a, hne, rfl⟩ := hp ts s m s₁ h₁
  obtain ⟨b, rfl⟩ := hq m s₁ r s' h₂
  exact ⟨a ++ b, fun hnil => hne (List.append_eq_nil_iff.mp hnil).1, (List.append_assoc ..).symm⟩

theorem Consumes.seq_right (hp : Suffixes p) (hq : Consumes q) : Consumes (seq p q) := by
  intro ts s r s' h
  obtain ⟨m, s₁, h₁, h₂⟩ := exists_of_seq h
  obtain ⟨a, rfl⟩ := hp ts s m s₁ h₁
  obtain ⟨b, hne, rfl⟩ := hq m s₁ r s' h₂
  exact ⟨a ++ b, fun hnil => hne (List.append_eq_nil_iff.mp hnil).2, (List.append_assoc ..).symm⟩

theorem length_lt (hp : Consumes p) (h : p ts s = (some r, s')) : r.length < ts.length := by
  obtain ⟨a, hne, rfl⟩ := hp ts s r s' h
  have hpos := List.length_pos_iff.mpr hne
  rw [List.length_append]
  omega

/-! ## Repetitions -/

theorem starFuel_eq (hp : Consumes p) : ∀ (n m : ℕ) (ts : List τ) (s : σ), ts.length < n →
    ts.length < m → starFuel p n ts s = starFuel p m ts s
  | 0, _, _, _, hn, _ => absurd hn (Nat.not_lt_zero _)
  | _, 0, _, _, _, hm => absurd hm (Nat.not_lt_zero _)
  | n + 1, m + 1, ts, s, hn, hm => by
    rw [starFuel, starFuel]
    rcases h : p ts s with ⟨_ | r, s'⟩
    · rfl
    · have hlt := length_lt hp h
      exact starFuel_eq hp n m r s' (by omega) (by omega)

/-- A repetition ends where the parser fails. -/
theorem star_none (h : p ts s = (none, s')) : star p ts s = (some ts, s') := by
  rw [star, starFuel, h]

/-- A repetition goes on where the parser succeeds. -/
theorem star_some (hp : Consumes p) (h : p ts s = (some r, s')) : star p ts s = star p r s' := by
  have hlt := length_lt hp h
  unfold star
  rw [starFuel, h]
  exact starFuel_eq hp ts.length (r.length + 1) r s' hlt (Nat.lt_succ_self _)

/-- **The parser takes the pieces** one after the other. -/
inductive Takes (p : Parser τ σ) : List (List τ) → List τ → σ → List τ → σ → Prop
  | nil {ts : List τ} {s : σ} : Takes p [] ts s ts s
  | cons {a ts r : List τ} {as : List (List τ)} {s s₁ s' : σ} : p (a ++ ts) s = (some ts, s₁) →
      Takes p as ts s₁ r s' → Takes p (a :: as) (a ++ ts) s r s'

theorem Takes.flatten {as : List (List τ)} (h : Takes p as ts s r s') : ts = as.flatten ++ r := by
  induction h with
  | nil => rfl
  | cons _ _ ih => rw [List.flatten_cons, List.append_assoc, ← ih]

theorem Takes.append {as bs : List (List τ)} {m : List τ} {s₁ : σ} (h : Takes p as ts s m s₁)
    (h' : Takes p bs m s₁ r s') : Takes p (as ++ bs) ts s r s' := by
  induction h with
  | nil => exact h'
  | cons hp _ ih => exact .cons hp (ih h')

theorem Takes.of_append : ∀ {as bs : List (List τ)} {ts : List τ} {s : σ},
    Takes p (as ++ bs) ts s r s' → ∃ m s₁, Takes p as ts s m s₁ ∧ Takes p bs m s₁ r s'
  | [], _, ts, s, h => ⟨ts, s, .nil, h⟩
  | _ :: _, _, _, _, .cons hp h => by
    obtain ⟨m, s₁, h₁, h₂⟩ := Takes.of_append h
    exact ⟨m, s₁, .cons hp h₁, h₂⟩

/-- The pieces that a repetition takes, `fuel` at most. -/
def piecesFuel (p : Parser τ σ) : ℕ → List τ → σ → List (List τ)
  | 0, _, _ => []
  | fuel + 1, ts, s =>
    match p ts s with
    | (some r, s') => ts.take (ts.length - r.length) :: piecesFuel p fuel r s'
    | (none, _) => []

/-- **The pieces that a repetition takes.** -/
def pieces (p : Parser τ σ) (ts : List τ) (s : σ) : List (List τ) := piecesFuel p (ts.length + 1) ts s

/-- A repetition takes its pieces, and then the parser fails. -/
theorem star_takes (hp : Consumes p) : ∀ (fuel : ℕ) (ts : List τ) (s : σ), ts.length < fuel →
    ∃ r s₁ s', Takes p (piecesFuel p fuel ts s) ts s r s₁ ∧ p r s₁ = (none, s') ∧
      star p ts s = (some r, s')
  | 0, _, _, h => absurd h (Nat.not_lt_zero _)
  | fuel + 1, ts, s, h => by
    rw [piecesFuel]
    rcases hrun : p ts s with ⟨_ | m, s₁⟩
    · exact ⟨ts, s, s₁, .nil, hrun, star_none hrun⟩
    · obtain ⟨a, hne, rfl⟩ := hp ts s m s₁ hrun
      have hpos := List.length_pos_iff.mpr hne
      rw [List.length_append] at h
      obtain ⟨r, s₂, s', htakes, hfail, hstar⟩ := star_takes hp fuel m s₁ (by omega)
      have htake : (a ++ m).take ((a ++ m).length - m.length) = a := by
        rw [List.length_append, Nat.add_sub_cancel, List.take_left]
      refine ⟨r, s₂, s', ?_, hfail, (star_some hp hrun).trans hstar⟩
      simp only [htake]
      exact .cons hrun htakes

/-- A repetition whose pieces are known. -/
theorem takes_star (hp : Consumes p) {as : List (List τ)} {s₁ : σ} (h : Takes p as ts s r s₁)
    (hfail : p r s₁ = (none, s')) : star p ts s = (some r, s') := by
  induction h with
  | nil => exact star_none hfail
  | cons hrun _ ih => rw [star_some hp hrun, ih hfail]

theorem suffixes_star (hp : Consumes p) : Suffixes (star p) := by
  intro ts s r s' h
  obtain ⟨r', s₁, s'', htakes, -, hstar⟩ := star_takes hp (ts.length + 1) ts s (Nat.lt_succ_self _)
  rw [h] at hstar
  cases hstar
  exact ⟨_, htakes.flatten⟩

theorem exists_star (hp : Consumes p) (ts : List τ) (s : σ) : ∃ r s', star p ts s = (some r, s') := by
  obtain ⟨r, -, s', -, -, hstar⟩ := star_takes hp (ts.length + 1) ts s (Nat.lt_succ_self _)
  exact ⟨r, s', hstar⟩

theorem takes_of_star (hp : Consumes p) (h : star p ts s = (some r, s')) :
    ∃ as s₁, Takes p as ts s r s₁ := by
  obtain ⟨r', s₁, s₂, htakes, -, hstar⟩ := star_takes hp (ts.length + 1) ts s (Nat.lt_succ_self _)
  rw [h] at hstar
  cases hstar
  exact ⟨_, s₁, htakes⟩

theorem Takes.prepend {M : List τ → Prop}
    (hp : ∀ a ts s s₁, p (a ++ ts) s = (some ts, s₁) → ∀ us, M us → M (a ++ us)) {as : List (List τ)}
    (h : Takes p as ts s r s') {us : List τ} (hus : M us) : M (as.flatten ++ us) := by
  induction h with
  | nil => exact hus
  | cons hrun _ ih =>
    rw [List.flatten_cons, List.append_assoc]
    exact hp _ _ _ _ hrun _ ih

/-! ## Parsers that look at what they take -/

/-- **What is taken decides**: the rest makes no difference. -/
def Determined (p : Parser τ σ) : Prop :=
  ∀ a r s s', p (a ++ r) s = (some r, s') → ∀ r', p (a ++ r') s = (some r', s')

/-- A parser of one token. -/
def Single (p : Parser τ σ) : Prop :=
  (∀ s, (p [] s).1 = none) ∧
    ∀ t s, ∃ ok s', ∀ r, p (t :: r) s = (if ok = true then some r else none, s')

theorem single_token (test : τ → Bool) (f : τ → σ → σ) : Single (token test f) := by
  refine ⟨fun s => rfl, fun t s => ?_⟩
  cases ht : test t with
  | true => exact ⟨true, f t s, fun r => by rw [token_cons, ht]; rfl⟩
  | false => exact ⟨false, s, fun r => by rw [token_cons, ht]; rfl⟩

theorem Single.alt (hp : Single p) (hq : Single q) : Single (alt p q) := by
  constructor
  · intro s
    have hnone : p [] s = (none, (p [] s).2) := Prod.ext (hp.1 s) rfl
    rw [alt_none hnone]
    exact hq.1 _
  · intro t s
    obtain ⟨ok, s₁, h⟩ := hp.2 t s
    cases ok with
    | true => exact ⟨true, s₁, fun r => alt_some (h r)⟩
    | false =>
      obtain ⟨ok, s', h'⟩ := hq.2 t s₁
      exact ⟨ok, s', fun r => (alt_none (h r)).trans (h' r)⟩

theorem Single.consumes (hp : Single p) : Consumes p := by
  intro ts s r s' h
  cases ts with
  | nil =>
    have hnone := hp.1 s
    rw [h] at hnone
    cases hnone
  | cons t ts =>
    obtain ⟨ok, s₁, hrun⟩ := hp.2 t s
    rw [hrun] at h
    cases ok with
    | true =>
      cases h
      exact ⟨[t], List.cons_ne_nil _ _, rfl⟩
    | false => cases h

theorem Single.determined (hp : Single p) : Determined p := by
  intro a r s s' h r'
  cases a with
  | nil =>
    have hlt := length_lt hp.consumes h
    exact absurd hlt (Nat.lt_irrefl _)
  | cons t a =>
    obtain ⟨ok, s₁, hrun⟩ := hp.2 t s
    have h' := h
    rw [List.cons_append, hrun] at h'
    cases ok with
    | false => cases h'
    | true =>
      have ha : a = [] := by
        have hlength := congrArg (fun o => (Option.map List.length o.1)) h'
        simpa using hlength
      subst ha
      rw [List.cons_append, List.nil_append, hrun, (Prod.mk.inj h').2]
      rfl

/-- The parser takes one token, with this property. -/
def TakesOne (P : τ → Prop) (p : Parser τ σ) : Prop :=
  ∀ ts s r s', p ts s = (some r, s') → ∃ t, ts = t :: r ∧ P t

theorem takesOne_token {P : τ → Prop} {test : τ → Bool} (f : τ → σ → σ)
    (h : ∀ t, test t = true → P t) : TakesOne P (token test f) := by
  intro ts s r s' hrun
  obtain ⟨t, rfl, ht, -⟩ := token_some hrun
  exact ⟨t, rfl, h t ht⟩

theorem TakesOne.alt {P : τ → Prop} (hp : TakesOne P p) (hq : TakesOne P q) :
    TakesOne P (alt p q) := by
  intro ts s r s' h
  obtain h | ⟨s₁, -, h⟩ := exists_of_alt h
  · exact hp ts s r s' h
  · exact hq ts s₁ r s' h

theorem TakesOne.consumes {P : τ → Prop} (hp : TakesOne P p) : Consumes p := by
  intro ts s r s' h
  obtain ⟨t, rfl, -⟩ := hp ts s r s' h
  exact ⟨[t], List.cons_ne_nil _ _, rfl⟩

theorem TakesOne.exists_of_star {P : τ → Prop} (hp : TakesOne P p) (h : star p ts s = (some r, s')) :
    ∃ a, ts = a ++ r ∧ ∀ t ∈ a, P t := by
  obtain ⟨as, s₁, htakes⟩ := takes_of_star hp.consumes h
  refine ⟨as.flatten, htakes.flatten, ?_⟩
  rw [← List.append_nil as.flatten]
  refine htakes.prepend (M := fun a => ∀ t ∈ a, P t) (fun a ts s s₁ hrun us hus => ?_)
    (List.forall_mem_nil _)
  obtain ⟨t, ht, hP⟩ := hp _ _ _ _ hrun
  rw [show a = [t] from List.append_cancel_right ht]
  exact List.forall_mem_cons.mpr ⟨hP, hus⟩

theorem Determined.seq (hp : Determined p) (hps : Suffixes p) (hq : Determined q)
    (hqs : Suffixes q) : Determined (seq p q) := by
  intro a r s s' h r'
  obtain ⟨m, s₁, h₁, h₂⟩ := exists_of_seq h
  obtain ⟨b, hb⟩ := hps _ s m s₁ h₁
  obtain ⟨c, rfl⟩ := hqs m s₁ r s' h₂
  have ha : a = b ++ c := by
    refine (List.append_left_inj r).mp ?_
    rw [hb, List.append_assoc]
  subst ha
  rw [List.append_assoc] at h₁ ⊢
  rw [seq_some (hp _ _ _ _ h₁ _)]
  exact hq _ _ _ _ h₂ r'

theorem Single.seq_determined (hp : Single p) (hq : Determined q ∧ Suffixes q) :
    Determined (Peg.seq p q) ∧ Suffixes (Peg.seq p q) :=
  ⟨hp.determined.seq hp.consumes.suffixes hq.1 hq.2, hp.consumes.suffixes.seq hq.2⟩

/-! ## Lines -/

section Lines

variable {sep : τ → Bool}

/-- **A parser that stays before a separator**: what follows the separator makes no difference. -/
def Inline (sep : τ → Bool) (p : Parser τ σ) : Prop :=
  ∀ (body : List τ) (c : τ) (s : σ), (∀ t ∈ body, sep t = false) → sep c = true →
    (∃ s', ∀ r, p (body ++ c :: r) s = (none, s')) ∨
      ∃ rest s', rest <:+ body ∧ ∀ r, p (body ++ c :: r) s = (some (rest ++ c :: r), s')

/-- **A parser that takes a line** with its separator, whatever follows. -/
structure LineOf (sep : τ → Bool) (p : Parser τ σ) : Prop where
  line : ∀ (body : List τ) (c : τ) (s : σ), (∀ t ∈ body, sep t = false) → sep c = true →
    ∃ ok s', ∀ r, p (body ++ c :: r) s = (if ok = true then some r else none, s')
  needs : ∀ ts s r s', p ts s = (some r, s') → ∃ t ∈ ts, sep t = true

theorem inline_token {test : τ → Bool} (f : τ → σ → σ) (h : ∀ t, sep t = true → test t = false) :
    Inline sep (token test f) := by
  intro body c s _ hc
  cases body with
  | nil =>
    refine .inl ⟨s, fun r => ?_⟩
    rw [List.nil_append, token_cons, h c hc]
    rfl
  | cons t body =>
    cases ht : test t with
    | true => exact .inr ⟨body, f t s, List.suffix_cons t body, fun r => by
        rw [List.cons_append, token_cons, if_pos ht]⟩
    | false => exact .inl ⟨s, fun r => by rw [List.cons_append, token_cons, ht]; rfl⟩

theorem Inline.seq (hp : Inline sep p) (hq : Inline sep q) : Inline sep (seq p q) := by
  intro body c s hbody hc
  obtain ⟨s', h⟩ | ⟨rest, s₁, hrest, h⟩ := hp body c s hbody hc
  · exact .inl ⟨s', fun r => seq_none (h r)⟩
  · obtain ⟨s', h'⟩ | ⟨rest', s', hrest', h'⟩ :=
      hq rest c s₁ (fun t ht => hbody t (hrest.subset ht)) hc
    · exact .inl ⟨s', fun r => (seq_some (h r)).trans (h' r)⟩
    · exact .inr ⟨rest', s', hrest'.trans hrest, fun r => (seq_some (h r)).trans (h' r)⟩

theorem Inline.alt (hp : Inline sep p) (hq : Inline sep q) : Inline sep (alt p q) := by
  intro body c s hbody hc
  obtain ⟨s₁, h⟩ | ⟨rest, s', hrest, h⟩ := hp body c s hbody hc
  · obtain ⟨s', h'⟩ | ⟨rest', s', hrest', h'⟩ := hq body c s₁ hbody hc
    · exact .inl ⟨s', fun r => (alt_none (h r)).trans (h' r)⟩
    · exact .inr ⟨rest', s', hrest', fun r => (alt_none (h r)).trans (h' r)⟩
  · exact .inr ⟨rest, s', hrest, fun r => alt_some (h r)⟩

theorem Inline.star (hcons : Consumes p) (hp : Inline sep p) : Inline sep (star p) := by
  intro body
  induction hn : body.length using Nat.strongRecOn generalizing body with
  | ind n ih =>
    intro c s hbody hc
    obtain ⟨s', h⟩ | ⟨rest, s₁, hrest, h⟩ := hp body c s hbody hc
    · exact .inr ⟨body, s', List.suffix_refl body, fun r => star_none (h r)⟩
    · have hlt := length_lt hcons (h [])
      rw [List.length_append, List.length_append] at hlt
      obtain ⟨s', h'⟩ | ⟨rest', s', hrest', h'⟩ :=
        ih rest.length (by omega) rest rfl c s₁ (fun t ht => hbody t (hrest.subset ht)) hc
      · obtain ⟨r', s'', hstar⟩ := exists_star hcons (rest ++ c :: []) s₁
        rw [h'] at hstar
        cases hstar
      · exact .inr ⟨rest', s', hrest'.trans hrest, fun r => (star_some hcons (h r)).trans (h' r)⟩

theorem Inline.lineOf {test : τ → Bool} (f : τ → σ → σ) (hp : Inline sep p) (hsuffix : Suffixes p)
    (htest : ∀ t, test t = sep t) : LineOf sep (Peg.seq p (token test f)) where
  line body c s hbody hc := by
    obtain ⟨s', h⟩ | ⟨rest, s', hrest, h⟩ := hp body c s hbody hc
    · exact ⟨false, s', fun r => seq_none (h r)⟩
    · cases rest with
      | nil =>
        refine ⟨true, f c s', fun r => (seq_some (h r)).trans ?_⟩
        rw [List.nil_append, token_cons, htest, hc]
        rfl
      | cons t rest =>
        have ht := hbody t (hrest.subset List.mem_cons_self)
        refine ⟨false, s', fun r => (seq_some (h r)).trans ?_⟩
        rw [List.cons_append, token_cons, htest, ht]
        rfl
  needs ts s r s' h := by
    obtain ⟨m, s₁, h₁, h₂⟩ := exists_of_seq h
    obtain ⟨t, rfl, ht, -⟩ := token_some h₂
    obtain ⟨a, rfl⟩ := hsuffix ts s _ s₁ h₁
    exact ⟨t, List.mem_append_right _ List.mem_cons_self, htest t ▸ ht⟩

theorem LineOf.seq_left (hp : Inline sep p) (hsuffix : Suffixes p) (hq : LineOf sep q) :
    LineOf sep (seq p q) where
  line body c s hbody hc := by
    obtain ⟨s', h⟩ | ⟨rest, s₁, hrest, h⟩ := hp body c s hbody hc
    · exact ⟨false, s', fun r => seq_none (h r)⟩
    · obtain ⟨ok, s', h'⟩ := hq.line rest c s₁ (fun t ht => hbody t (hrest.subset ht)) hc
      exact ⟨ok, s', fun r => (seq_some (h r)).trans (h' r)⟩
  needs ts s r s' h := by
    obtain ⟨m, s₁, h₁, h₂⟩ := exists_of_seq h
    obtain ⟨a, rfl⟩ := hsuffix ts s m s₁ h₁
    obtain ⟨t, ht, hsep⟩ := hq.needs m s₁ r s' h₂
    exact ⟨t, List.mem_append_right _ ht, hsep⟩

theorem LineOf.alt (hp : LineOf sep p) (hq : LineOf sep q) : LineOf sep (alt p q) where
  line body c s hbody hc := by
    obtain ⟨ok, s₁, h⟩ := hp.line body c s hbody hc
    cases ok with
    | true => exact ⟨true, s₁, fun r => alt_some (h r)⟩
    | false =>
      obtain ⟨ok, s', h'⟩ := hq.line body c s₁ hbody hc
      exact ⟨ok, s', fun r => (alt_none (h r)).trans (h' r)⟩
  needs ts s r s' h := by
    obtain h | ⟨s₁, -, h⟩ := exists_of_alt h
    · exact hp.needs ts s r s' h
    · exact hq.needs ts s₁ r s' h

theorem LineOf.exists_line (hp : LineOf sep p) (h : p ts s = (some r, s')) :
    ∃ body c, ts = body ++ c :: r ∧ (∀ t ∈ body, sep t = false) ∧ sep c = true := by
  obtain ⟨t, ht, hsep⟩ := hp.needs ts s r s' h
  have hne : ts.dropWhile (fun t => !sep t) ≠ [] := by
    intro hnil
    have hall := List.dropWhile_eq_nil_iff.mp hnil t ht
    rw [hsep] at hall
    cases hall
  obtain ⟨c, r', hc⟩ := List.exists_cons_of_ne_nil hne
  have hsplit : ts = ts.takeWhile (fun t => !sep t) ++ c :: r' := by
    rw [← hc, List.takeWhile_append_dropWhile]
  have hbody : ∀ x ∈ ts.takeWhile (fun t => !sep t), sep x = false := by
    intro x hx
    simpa using List.mem_takeWhile_imp hx
  have hcsep : sep c = true := by
    have hhead := List.head_dropWhile_not (fun t => !sep t) hne
    simpa [hc] using hhead
  obtain ⟨ok, s₁, hline⟩ := hp.line _ c s hbody hcsep
  have hrun := hline r'
  rw [← hsplit, h] at hrun
  cases ok with
  | true =>
    obtain rfl : r = r' := by simpa using congrArg Prod.fst hrun
    exact ⟨_, c, hsplit, hbody, hcsep⟩
  | false => cases congrArg Prod.fst hrun

theorem LineOf.consumes (hp : LineOf sep p) : Consumes p := by
  intro ts s r s' h
  obtain ⟨body, c, rfl, -, -⟩ := hp.exists_line h
  exact ⟨body ++ [c], List.concat_ne_nil c body, by rw [List.append_assoc]; rfl⟩

theorem LineOf.determined (hp : LineOf sep p) : Determined p := by
  intro a r s s' h r'
  obtain ⟨body, c, hsplit, hbody, hc⟩ := hp.exists_line h
  have ha : a = body ++ [c] := by
    refine (List.append_left_inj r).mp ?_
    rw [hsplit, List.append_assoc]
    rfl
  obtain ⟨ok, s₁, hline⟩ := hp.line body c s hbody hc
  have hrun := hline r
  rw [← hsplit, h] at hrun
  have hrun' := hline r'
  rw [ha, List.append_assoc, List.singleton_append, hrun']
  cases ok with
  | true => rw [(Prod.mk.inj hrun).2, if_pos rfl]
  | false => cases congrArg Prod.fst hrun

/-- Lines are taken whatever follows. -/
theorem LineOf.takes (hp : LineOf sep p) {as : List (List τ)} (h : Takes p as ts s r s')
    (r' : List τ) : Takes p as (as.flatten ++ r') s r' s' := by
  induction h with
  | nil => exact .nil
  | @cons a ts r as s s₁ s' hrun _ ih =>
    rw [List.flatten_cons, List.append_assoc]
    exact .cons (hp.determined _ _ _ _ hrun _) ih

end Lines

/-! ## Actions -/

/-- The actions of the parser leave `g` alone. -/
def Keeps (g : σ → α) (p : Parser τ σ) : Prop := ∀ ts s, g (p ts s).2 = g s

section Keeps

variable {g : σ → α}

theorem Keeps.of_eq (hp : Keeps g p) {o : Option (List τ)} (h : p ts s = (o, s')) : g s' = g s := by
  have hkeeps := hp ts s
  rwa [h] at hkeeps

theorem keeps_token {test : τ → Bool} {f : τ → σ → σ} (h : ∀ t s, g (f t s) = g s) :
    Keeps g (token test f) := by
  intro ts s
  cases ts with
  | nil => rfl
  | cons t ts =>
    rw [token_cons]
    split
    · exact h t s
    · rfl

theorem Keeps.seq (hp : Keeps g p) (hq : Keeps g q) : Keeps g (seq p q) := by
  intro ts s
  rcases h : p ts s with ⟨_ | r, s₁⟩
  · rw [seq_none h]
    exact hp.of_eq h
  · rw [seq_some h, hq r s₁]
    exact hp.of_eq h

theorem Keeps.alt (hp : Keeps g p) (hq : Keeps g q) : Keeps g (alt p q) := by
  intro ts s
  rcases h : p ts s with ⟨_ | r, s₁⟩
  · rw [alt_none h, hq ts s₁]
    exact hp.of_eq h
  · rw [alt_some h]
    exact hp.of_eq h

theorem Keeps.starFuel (hp : Keeps g p) : ∀ n, Keeps g (starFuel p n)
  | 0, _, _ => rfl
  | n + 1, ts, s => by
    rw [Peg.starFuel]
    rcases h : p ts s with ⟨_ | r, s₁⟩
    · exact hp.of_eq h
    · exact (Keeps.starFuel hp n r s₁).trans (hp.of_eq h)

theorem Keeps.star (hp : Keeps g p) : Keeps g (star p) := fun ts s => hp.starFuel _ ts s

theorem Keeps.plus (hp : Keeps g p) : Keeps g (plus p) := hp.seq hp.star

end Keeps

/-- **The actions are those of the tokens that are taken**, and a parser that fails does nothing. -/
def Exact (eff : σ → τ → σ) (p : Parser τ σ) : Prop :=
  ∀ ts s, p ts s = (none, s) ∨ ∃ a r, ts = a ++ r ∧ p ts s = (some r, a.foldl eff s)

section Exact

variable {eff : σ → τ → σ}

theorem Exact.of_some (hp : Exact eff p) (h : p ts s = (some r, s')) :
    ∃ a, ts = a ++ r ∧ s' = a.foldl eff s := by
  obtain hnone | ⟨a, r', rfl, ha⟩ := hp ts s
  · rw [h] at hnone
    cases hnone
  · rw [h] at ha
    cases ha
    exact ⟨a, rfl, rfl⟩

theorem exact_token {test : τ → Bool} {f : τ → σ → σ} (h : ∀ t s, test t = true → f t s = eff s t) :
    Exact eff (token test f) := by
  intro ts s
  cases ts with
  | nil => exact .inl rfl
  | cons t ts =>
    rw [token_cons]
    split
    · next ht => exact .inr ⟨[t], ts, rfl, by rw [h t s ht]; rfl⟩
    · exact .inl rfl

theorem Exact.seq_left (hpure : Keeps id p) (hp : Exact eff p) (hq : Exact eff q) :
    Exact eff (seq p q) := by
  intro ts s
  obtain h | ⟨a, r, rfl, h⟩ := hp ts s
  · exact .inl (seq_none h)
  · have hsame : a.foldl eff s = s := by
      have := hpure (a ++ r) s
      rwa [h] at this
    rw [seq_some h, hsame]
    obtain h' | ⟨b, r', rfl, h'⟩ := hq r s
    · exact .inl h'
    · refine .inr ⟨a ++ b, r', (List.append_assoc ..).symm, ?_⟩
      rw [h', List.foldl_append, hsame]

theorem Exact.seq_right (hp : Exact eff p) (hq : Exact eff q)
    (htotal : ∀ ts s, ∃ r s', q ts s = (some r, s')) : Exact eff (seq p q) := by
  intro ts s
  obtain h | ⟨a, r, rfl, h⟩ := hp ts s
  · exact .inl (seq_none h)
  · rw [seq_some h]
    obtain h' | ⟨b, r', rfl, h'⟩ := hq r (a.foldl eff s)
    · obtain ⟨r', s', h''⟩ := htotal r (a.foldl eff s)
      rw [h'] at h''
      cases h''
    · exact .inr ⟨a ++ b, r', (List.append_assoc ..).symm, by rw [h', List.foldl_append]⟩

theorem Exact.alt (hp : Exact eff p) (hq : Exact eff q) : Exact eff (alt p q) := by
  intro ts s
  obtain h | ⟨a, r, rfl, h⟩ := hp ts s
  · rw [alt_none h]
    exact hq ts s
  · exact .inr ⟨a, r, rfl, alt_some h⟩

theorem starFuel_ne_none : ∀ (n : ℕ) (ts : List τ) (s : σ), (Peg.starFuel p n ts s).1 ≠ none
  | 0, _, _ => Option.some_ne_none _
  | n + 1, ts, s => by
    rw [Peg.starFuel]
    rcases p ts s with ⟨_ | r, s₁⟩
    · exact Option.some_ne_none _
    · exact starFuel_ne_none n r s₁

theorem Exact.starFuel (hp : Exact eff p) : ∀ n, Exact eff (starFuel p n)
  | 0, ts, _ => .inr ⟨[], ts, rfl, rfl⟩
  | n + 1, ts, s => by
    rw [Peg.starFuel]
    obtain h | ⟨a, r, rfl, h⟩ := hp ts s
    · rw [h]
      exact .inr ⟨[], ts, rfl, rfl⟩
    · rw [h]
      obtain h' | ⟨b, r', rfl, h'⟩ := Exact.starFuel hp n r (a.foldl eff s)
      · exact absurd (congrArg Prod.fst h') (starFuel_ne_none n r _)
      · exact .inr ⟨a ++ b, r', (List.append_assoc ..).symm, by rw [List.foldl_append]; exact h'⟩

theorem Exact.star (hp : Exact eff p) : Exact eff (star p) := fun ts s => hp.starFuel _ ts s

end Exact

end Peg
