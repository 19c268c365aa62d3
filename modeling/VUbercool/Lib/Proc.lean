import Mathlib.Data.List.Basic
import Mathlib.Tactic.Common

/-!
# Computations that raise and keep their state

* `Proc ε σ α`: a computation on a state `σ` that ends with a value or raises an `ε`; either way the
  state it reached is kept, as after a C++ exception that leaves a function with reference arguments.
* `onFst`, `onSnd`: computations on one half of the state.
* `Performs`: a computation that amounts to a script of actions on the first half of the state and to
  a change of the second half. The rules follow the computation: `pure`, `bind`, `forM`.
* `Triple`: Hoare triples with a postcondition for each way to end, and their rules.
* `Raises`: what a computation may raise, and the rules.
* `mapM_cons_eq_ok`: a list of results, one by one.
-/

/-- A computation on a state `σ` that may raise an `ε`. -/
def Proc (ε σ α : Type) : Type := σ → Except ε α × σ

namespace Proc

variable {ε σ α β : Type}

instance : Monad (Proc ε σ) where
  pure a := fun s => (.ok a, s)
  bind x f := fun s =>
    match x s with
    | (.ok a, s') => f a s'
    | (.error e, s') => (.error e, s')

/-- Raise `e`. -/
def raise (e : ε) : Proc ε σ α := fun s => (.error e, s)

/-- The state. -/
def get : Proc ε σ σ := fun s => (.ok s, s)

/-- Change the state. -/
def modify (f : σ → σ) : Proc ε σ Unit := fun s => (.ok (), f s)

/-- A value, or an error to raise. -/
def ofExcept (x : Except ε α) : Proc ε σ α := fun s => (x, s)

/-- Run `x` where `c` holds. -/
def when (c : Prop) [Decidable c] (x : Proc ε σ Unit) : Proc ε σ Unit := if c then x else pure ()

theorem when_pos {c : Prop} [Decidable c] (h : c) (x : Proc ε σ Unit) : when c x = x := if_pos h

theorem when_neg {c : Prop} [Decidable c] (h : ¬ c) (x : Proc ε σ Unit) : when c x = pure () :=
  if_neg h

theorem pure_apply (a : α) (s : σ) : (pure a : Proc ε σ α) s = (.ok a, s) := rfl

theorem get_apply (s : σ) : (get : Proc ε σ σ) s = (.ok s, s) := rfl

theorem modify_apply (f : σ → σ) (s : σ) : (modify f : Proc ε σ Unit) s = (.ok (), f s) := rfl

theorem ofExcept_apply (x : Except ε α) (s : σ) : (ofExcept x : Proc ε σ α) s = (x, s) := rfl

theorem bind_ok {x : Proc ε σ α} {f : α → Proc ε σ β} {s s' : σ} {a : α}
    (h : x s = (.ok a, s')) : (x >>= f) s = f a s' := by
  show (match x s with | (.ok a, s') => f a s' | (.error e, s') => (.error e, s')) = _
  rw [h]

theorem bind_error {x : Proc ε σ α} {f : α → Proc ε σ β} {s s' : σ} {e : ε}
    (h : x s = (.error e, s')) : (x >>= f) s = (.error e, s') := by
  show (match x s with | (.ok a, s') => f a s' | (.error e, s') => (.error e, s')) = _
  rw [h]

theorem bind_eq_ok {x : Proc ε σ α} {f : α → Proc ε σ β} {s s' : σ} {b : β}
    (h : (x >>= f) s = (.ok b, s')) : ∃ a t, x s = (.ok a, t) ∧ f a t = (.ok b, s') := by
  cases hx : x s with
  | mk r t =>
    cases r with
    | ok a => exact ⟨a, t, rfl, by rwa [bind_ok hx] at h⟩
    | error e => rw [bind_error hx] at h; cases h

/-! ## Results -/

section

variable {g : α → Except ε β}

theorem exists_of_bind_ok {x : Except ε α} {b : β} (h : (x >>= g) = .ok b) :
    ∃ a, x = .ok a ∧ g a = .ok b := by
  cases x with
  | error e => cases h
  | ok a => exact ⟨a, rfl, h⟩

theorem mapM_cons_eq_ok {a : α} {as : List α} {bs : List β} : (a :: as).mapM g = .ok bs ↔
    ∃ b bs', g a = .ok b ∧ as.mapM g = .ok bs' ∧ bs = b :: bs' := by
  rw [List.mapM_cons]
  constructor
  · intro h
    obtain ⟨b, hb, h⟩ := exists_of_bind_ok h
    obtain ⟨bs', hbs, h⟩ := exists_of_bind_ok h
    cases h
    exact ⟨b, bs', hb, hbs, rfl⟩
  · rintro ⟨b, bs', hb, hbs, rfl⟩
    rw [hb, hbs]
    rfl

theorem exists_of_mapM_ok {b : β} : ∀ {as : List α} {bs : List β}, as.mapM g = .ok bs → b ∈ bs →
    ∃ a ∈ as, g a = .ok b
  | [], bs, h, hb => by
    cases h
    cases hb
  | a :: as, bs, h, hb => by
    obtain ⟨b', bs', hb', hbs', rfl⟩ := mapM_cons_eq_ok.mp h
    rcases List.mem_cons.mp hb with rfl | hb
    · exact ⟨a, List.mem_cons_self, hb'⟩
    · obtain ⟨a', ha', hg⟩ := exists_of_mapM_ok hbs' hb
      exact ⟨a', List.mem_cons_of_mem _ ha', hg⟩

theorem exists_mapM_ok : ∀ {as : List α}, (∀ a ∈ as, ∃ b, g a = .ok b) → ∃ bs, as.mapM g = .ok bs
  | [], _ => ⟨[], rfl⟩
  | a :: as, h => by
    obtain ⟨b, hb⟩ := h a List.mem_cons_self
    obtain ⟨bs, hbs⟩ := exists_mapM_ok fun a' ha => h a' (List.mem_cons_of_mem _ ha)
    exact ⟨b :: bs, mapM_cons_eq_ok.mpr ⟨b, bs, hb, hbs, rfl⟩⟩

end

/-! ## Loops -/

theorem forM_nil (f : α → Proc ε σ Unit) : ([] : List α).forM f = pure () := rfl

theorem forM_cons (f : α → Proc ε σ Unit) (a : α) (as : List α) :
    (a :: as).forM f = f a >>= fun _ => as.forM f := rfl

theorem forM_const (x : Proc ε σ Unit) : ∀ {a : List α} {b : List β}, a.length = b.length →
    (a.forM fun _ => x) = b.forM fun _ => x
  | [], [], _ => rfl
  | _ :: a, _ :: b, h => by rw [forM_cons, forM_cons, forM_const x (Nat.succ.inj h)]

theorem forM_append (f : α → Proc ε σ Unit) (as bs : List α) (s : σ) :
    ((as ++ bs).forM f) s = (as.forM f >>= fun _ => bs.forM f) s := by
  induction as generalizing s with
  | nil => rw [forM_nil, bind_ok (pure_apply () s)]; rfl
  | cons a as ih =>
    rw [List.cons_append, forM_cons, forM_cons]
    cases h : f a s with
    | mk r t =>
      cases r with
      | error e => rw [bind_error h, bind_error (bind_error h)]
      | ok u =>
        rw [bind_ok h, ih t]
        cases h' : as.forM f t with
        | mk r' t' =>
          cases r' with
          | error e => rw [bind_error h', bind_error ((bind_ok h).trans h')]
          | ok u' => rw [bind_ok h', bind_ok ((bind_ok h).trans h')]

/-! ## Triples -/

/-- **A triple.** From a state in `P`, `x` ends with a value and a state in `Q`, or it raises and leaves
a state in `E`. -/
def Triple (P : σ → Prop) (x : Proc ε σ α) (Q : α → σ → Prop) (E : ε → σ → Prop) : Prop :=
  ∀ s, P s → (∀ a s', x s = (.ok a, s') → Q a s') ∧ ∀ e s', x s = (.error e, s') → E e s'

namespace Triple

variable {P : σ → Prop} {x : Proc ε σ α} {f : α → Proc ε σ β} {Q : α → σ → Prop}
  {R : β → σ → Prop} {E : ε → σ → Prop}

theorem of_and {p : Prop} (h : p → Triple P x Q E) : Triple (fun s => P s ∧ p) x Q E :=
  fun s hs => h hs.2 s hs.1

theorem pure {a : α} (h : ∀ s, P s → Q a s) : Triple P (pure a : Proc ε σ α) Q E := fun s hs =>
  ⟨fun _ _ h' => (by cases h'; exact h s hs), fun _ _ h' => by cases h'⟩

theorem raise {e : ε} (h : ∀ s, P s → E e s) : Triple P (raise e : Proc ε σ α) Q E := fun s hs =>
  ⟨fun _ _ h' => (by cases h'), fun _ _ h' => by cases h'; exact h s hs⟩

theorem ofExcept {y : Except ε α} (h : ∀ e s, P s → E e s) :
    Triple P (ofExcept y : Proc ε σ α) (fun _ => P) E := fun s hs =>
  ⟨fun _ _ h' => (by cases h'; exact hs), fun _ _ h' => by cases h'; exact h _ s hs⟩

theorem get : Triple P (get : Proc ε σ σ) (fun _ => P) E := fun _ hs =>
  ⟨fun _ _ h' => (by cases h'; exact hs), fun _ _ h' => by cases h'⟩

theorem modify {P' : σ → Prop} {g : σ → σ} (h : ∀ s, P s → P' (g s)) :
    Triple P (modify g : Proc ε σ Unit) (fun _ => P') E := fun s hs =>
  ⟨fun _ _ h' => (by cases h'; exact h s hs), fun _ _ h' => by cases h'⟩

theorem bind (hx : Triple P x Q E) (hf : ∀ a, Triple (Q a) (f a) R E) : Triple P (x >>= f) R E := by
  intro s hs
  obtain ⟨hok, herr⟩ := hx s hs
  cases h : x s with
  | mk r t =>
    cases r with
    | ok a => rw [bind_ok h]; exact hf a t (hok a t h)
    | error e =>
      rw [bind_error h]
      exact ⟨fun _ _ h' => (by cases h'), fun _ _ h' => by cases h'; exact herr e t h⟩

theorem when {c : Prop} [Decidable c] {x : Proc ε σ Unit} (h : c → Triple P x (fun _ => P) E) :
    Triple P (when c x) (fun _ => P) E := by
  unfold Proc.when
  split
  · exact h ‹_›
  · exact pure fun _ h => h

/-- A loop keeps an invariant that every round keeps. -/
theorem forM {γ : Type} {g : γ → Proc ε σ Unit} : ∀ {cs : List γ},
    (∀ c ∈ cs, Triple P (g c) (fun _ => P) E) → Triple P (cs.forM g) (fun _ => P) E
  | [], _ => pure fun _ h => h
  | c :: cs, h => by
    rw [forM_cons]
    exact (h c List.mem_cons_self).bind fun _ => forM fun c' hc => h c' (List.mem_cons_of_mem _ hc)

end Triple

/-! ## What may be raised -/

/-- Every error of `x` is in `E`. -/
def Fails (E : ε → Prop) (x : Except ε α) : Prop := ∀ e, x = .error e → E e

namespace Fails

variable {E : ε → Prop}

theorem ok (a : α) : Fails E (.ok a : Except ε α) := nofun

theorem error {e : ε} (h : E e) : Fails E (.error e : Except ε α) := by
  rintro _ ⟨⟩
  exact h

theorem bind {x : Except ε α} {f : α → Except ε β} (hx : Fails E x) (hf : ∀ a, Fails E (f a)) :
    Fails E (x >>= f) := by
  cases x with
  | error e => exact error (hx e rfl)
  | ok a => exact hf a

theorem ite {c : Prop} [Decidable c] {x y : Except ε α} (hx : Fails E x) (hy : Fails E y) :
    Fails E (if c then x else y) := by
  split
  · exact hx
  · exact hy

theorem map {x : Except ε α} {f : α → β} (hx : Fails E x) : Fails E (x.map f) := by
  cases x with
  | error e => exact error (hx e rfl)
  | ok a => exact ok _

end Fails

/-- **Everything that `x` raises is in `E`.** -/
def Raises (E : ε → Prop) (x : Proc ε σ α) : Prop := ∀ s e s', x s = (.error e, s') → E e

namespace Raises

variable {E : ε → Prop} {x : Proc ε σ α} {f : α → Proc ε σ β}

theorem pure (a : α) : Raises E (pure a : Proc ε σ α) := nofun

theorem raise {e : ε} (h : E e) : Raises E (raise e : Proc ε σ α) := by
  rintro s _ _ ⟨⟩
  exact h

theorem get : Raises E (get : Proc ε σ σ) := nofun

theorem modify (g : σ → σ) : Raises E (modify g : Proc ε σ Unit) := nofun

theorem ofExcept {y : Except ε α} (h : Fails E y) : Raises E (ofExcept y : Proc ε σ α) := by
  rintro s e _ ⟨⟩
  exact h e rfl

theorem bind (hx : Raises E x) (hf : ∀ a, Raises E (f a)) : Raises E (x >>= f) := by
  intro s e s' h
  rcases hr : x s with ⟨e' | a, t⟩
  · rw [bind_error hr] at h
    cases h
    exact hx s e _ hr
  · rw [bind_ok hr] at h
    exact hf a t e s' h

theorem when {c : Prop} [Decidable c] {x : Proc ε σ Unit} (h : Raises E x) : Raises E (when c x) := by
  unfold Proc.when
  split
  · exact h
  · exact pure ()

theorem forM {γ : Type} {g : γ → Proc ε σ Unit} : ∀ {cs : List γ}, (∀ c, Raises E (g c)) →
    Raises E (cs.forM g)
  | [], _ => pure ()
  | c :: cs, h => by
    rw [forM_cons]
    exact (h c).bind fun _ => forM h

end Raises

/-! ## Halves of the state -/

section Halves

variable {ω τ : Type}

/-- Run `x` on the first half of the state. -/
def onFst (x : Proc ε ω α) : Proc ε (ω × τ) α := fun s =>
  match x s.1 with
  | (r, w) => (r, (w, s.2))

/-- Run `x` on the second half of the state. -/
def onSnd (x : Proc ε τ α) : Proc ε (ω × τ) α := fun s =>
  match x s.2 with
  | (r, t) => (r, (s.1, t))

theorem onFst_apply {x : Proc ε ω α} {w w' : ω} {t : τ} {r : Except ε α} (h : x w = (r, w')) :
    onFst x (w, t) = (r, (w', t)) := by
  simp [onFst, h]

/-! ## Scripts -/

variable {ι : Type} (act : ι → Proc ε ω Unit)

/-- **`x` performs a script.** From the second half `t`, the computation `x` is the script `is` of
actions on the first half: if every action ends, `x` ends as `r` with second half `t'`, and if an
action raises, `x` raises the same at the same first half. -/
def Performs (x : Proc ε (ω × τ) α) (t : τ) (is : List ι) (r : Except ε α) (t' : τ) : Prop :=
  ∀ w w', (is.forM act w = (.ok (), w') → x (w, t) = (r, (w', t'))) ∧
    ∀ e, is.forM act w = (.error e, w') → ∃ t'', x (w, t) = (.error e, (w', t''))

variable {act} {x : Proc ε (ω × τ) α} {f : α → Proc ε (ω × τ) β} {t t' t'' : τ} {is js : List ι}

namespace Performs

theorem silent {r : Except ε α} (h : ∀ w, x (w, t) = (r, (w, t'))) :
    Performs act x t [] r t' := by
  intro w w'
  rw [forM_nil, pure_apply]
  refine ⟨fun hw => ?_, fun e hw => by cases hw⟩
  cases hw
  exact h w

theorem pure (a : α) : Performs act (pure a : Proc ε (ω × τ) α) t [] (.ok a) t :=
  silent fun _ => rfl

theorem action (i : ι) : Performs act (onFst (act i) : Proc ε (ω × τ) Unit) t [i] (.ok ()) t := by
  intro w w'
  rw [forM_cons, forM_nil]
  cases h : act i w with
  | mk r v =>
    cases r with
    | ok u => rw [bind_ok h, pure_apply]; simp [onFst, h]
    | error e => rw [bind_error h]; simp [onFst, h]

theorem get_snd {f : τ → Proc ε (ω × τ) α} {r : Except ε α} (h : Performs act (f t) t is r t') :
    Performs act (get >>= fun s => f s.2) t is r t' := h

/-- One script after another. -/
theorem bind {a : α} {r : Except ε β} (hx : Performs act x t is (.ok a) t')
    (hf : Performs act (f a) t' js r t'') : Performs act (x >>= f) t (is ++ js) r t'' := by
  intro w w'
  rw [forM_append]
  cases h : is.forM act w with
  | mk r' v =>
    cases r' with
    | ok u =>
      rw [bind_ok h, bind_ok ((hx w v).1 h)]
      exact hf v w'
    | error e =>
      obtain ⟨t₁, h₁⟩ := (hx w v).2 e h
      rw [bind_error h, bind_error h₁]
      refine ⟨fun h => (by cases h), fun e' h => ?_⟩
      cases h
      exact ⟨t₁, rfl⟩

/-- A loop whose rounds perform scripts performs their concatenation. -/
theorem forM {γ : Type} {g : γ → Proc ε (ω × τ) Unit} {script : γ → List ι} {step : τ → γ → τ} :
    ∀ {cs : List γ} {t : τ}, (∀ c ∈ cs, ∀ t, Performs act (g c) t (script c) (.ok ()) (step t c)) →
      Performs act (cs.forM g) t (cs.flatMap script) (.ok ()) (cs.foldl step t)
  | [], _, _ => pure ()
  | c :: cs, t, h => by
    rw [forM_cons, List.flatMap_cons, List.foldl_cons]
    exact (h c List.mem_cons_self t).bind
      (Performs.forM fun c' hc t => h c' (List.mem_cons_of_mem _ hc) t)

theorem forM_map {γ : Type} {g : γ → Proc ε (ω × τ) Unit} {i : γ → ι} {step : τ → γ → τ} {cs : List γ}
    (h : ∀ c ∈ cs, ∀ t, Performs act (g c) t [i c] (.ok ()) (step t c)) :
    Performs act (cs.forM g) t (cs.map i) (.ok ()) (cs.foldl step t) := by
  rw [List.map_eq_flatMap]
  exact Performs.forM h

theorem of_ok {r : Except ε α} {w w' : ω} {u : τ} {a : α} (h : Performs act x t is r t')
    (hx : x (w, t) = (.ok a, (w', u))) : is.forM act w = (.ok (), w') ∧ r = .ok a ∧ u = t' := by
  cases hrun : is.forM act w with
  | mk r' v =>
    cases r' with
    | ok u =>
      have hok := (h w v).1 hrun
      rw [hx] at hok
      cases hok
      exact ⟨rfl, rfl, rfl⟩
    | error e =>
      obtain ⟨t'', he⟩ := (h w v).2 e hrun
      rw [hx] at he
      cases he

end Performs

end Halves

end Proc
