import VUbercool.Lib.Proc

/-!
# Computations with a log

A copy of a computation that enters what it does into a log. Nothing reads the log, so the copy does what
the computation does.

* `note`: enter something into the log. `onFstLog`: a copy that works on one half of the state.
* `Repeats`: **the copy does what the computation does**, and what it enters is in `P`.
* `Logs`: the same from every state with an invariant, which is kept.
-/

namespace Proc

variable {ε σ τ α β ι : Type}

/-- Enter what `f` sees of the state. -/
def note (f : σ → ι) : Proc ε (σ × List ι) Unit := fun s => (.ok (), (s.1, s.2 ++ [f s.1]))

/-- Run `x` on the first half of the state, with the same log. -/
def onFstLog (x : Proc ε (σ × List ι) α) : Proc ε ((σ × τ) × List ι) α := fun s =>
  match x (s.1.1, s.2) with
  | (r, (w, l)) => (r, ((w, s.1.2), l))

/-- **From `s` on, `x` does what `y` does** and enters nothing into its log that is not in `P`. -/
def Repeats (P : ι → Prop) (x : Proc ε (σ × List ι) α) (y : Proc ε σ α) (s : σ) : Prop :=
  ∀ l, ∃ more, x (s, l) = ((y s).1, ((y s).2, l ++ more)) ∧ ∀ i ∈ more, P i

namespace Repeats

variable {P : ι → Prop} {x : Proc ε (σ × List ι) α} {y : Proc ε σ α} {f : α → Proc ε (σ × List ι) β}
  {g : α → Proc ε σ β} {s : σ}

/-- What does not know of the log enters nothing. -/
theorem onFst (y : Proc ε σ α) (s : σ) : Repeats P (onFst y) y s := fun l =>
  ⟨[], by rw [List.append_nil]; rfl, fun _ h => (List.not_mem_nil h).elim⟩

theorem pure (a : α) (s : σ) : Repeats P (pure a) (pure a : Proc ε σ α) s := fun l =>
  ⟨[], by rw [List.append_nil]; rfl, fun _ h => (List.not_mem_nil h).elim⟩

theorem raise (e : ε) (s : σ) : Repeats P (raise e) (raise e : Proc ε σ α) s := fun l =>
  ⟨[], by rw [List.append_nil]; rfl, fun _ h => (List.not_mem_nil h).elim⟩

theorem note {h : σ → ι} (hs : P (h s)) (hx : Repeats P x y s) :
    Repeats P (note h >>= fun _ => x) y s := by
  intro l
  obtain ⟨more, hx, hmore⟩ := hx (l ++ [h s])
  refine ⟨h s :: more, ?_, List.forall_mem_cons.mpr ⟨hs, hmore⟩⟩
  have hnote : (Proc.note h : Proc ε (σ × List ι) Unit) (s, l) = (.ok (), (s, l ++ [h s])) := rfl
  rw [bind_ok hnote, hx, List.append_assoc, List.singleton_append]

/-- A sequence: what comes second starts where the computation got to. -/
theorem bind (hx : Repeats P x y s) (hf : ∀ a s', y s = (.ok a, s') → Repeats P (f a) (g a) s') :
    Repeats P (x >>= f) (y >>= g) s := by
  intro l
  obtain ⟨more, hx, hmore⟩ := hx l
  rcases hy : y s with ⟨e | a, s'⟩
  · rw [hy] at hx
    exact ⟨more, by rw [bind_error hx, bind_error hy], hmore⟩
  · rw [hy] at hx
    obtain ⟨more', hf, hmore'⟩ := hf a s' hy (l ++ more)
    refine ⟨more ++ more', ?_, List.forall_mem_append.mpr ⟨hmore, hmore'⟩⟩
    rw [bind_ok hx, bind_ok hy, hf, List.append_assoc]

theorem onFstLog {w : σ} {t : τ} (hx : Repeats P x y w) :
    Repeats P (onFstLog x) (Proc.onFst y : Proc ε (σ × τ) α) (w, t) := by
  intro l
  obtain ⟨more, hx, hmore⟩ := hx l
  refine ⟨more, ?_, hmore⟩
  simp only [Proc.onFstLog, Proc.onFst, hx]

end Repeats

/-- **From every state in `I`, `x` does what `y` does**, enters nothing that is not in `P`, and where it
ends it is in `Q`. -/
structure Logs (P : ι → Prop) (I : σ → Prop) (x : Proc ε (σ × List ι) α) (y : Proc ε σ α)
    (Q : α → σ → Prop) : Prop where
  repeats : ∀ s, I s → Repeats P x y s
  triple : Triple I y Q fun _ _ => True

namespace Logs

variable {P : ι → Prop} {I : σ → Prop} {x : Proc ε (σ × List ι) α} {y : Proc ε σ α}
  {f : α → Proc ε (σ × List ι) β} {g : α → Proc ε σ β} {Q : α → σ → Prop} {R : β → σ → Prop}

theorem onFst (h : Triple I y Q fun _ _ => True) : Logs P I (onFst y) y Q :=
  ⟨fun s _ => .onFst y s, h⟩

theorem pure {a : α} (h : ∀ s, I s → Q a s) : Logs P I (pure a) (pure a : Proc ε σ α) Q :=
  ⟨fun s _ => .pure a s, .pure h⟩

theorem raise (e : ε) : Logs P I (raise e) (raise e : Proc ε σ α) Q :=
  ⟨fun s _ => .raise e s, .raise fun _ _ => trivial⟩

theorem of_and {p : Prop} (h : p → Logs P I x y Q) : Logs P (fun s => I s ∧ p) x y Q :=
  ⟨fun s hs => (h hs.2).repeats s hs.1, .of_and fun hp => (h hp).triple⟩

theorem bind (hx : Logs P I x y Q) (hf : ∀ a, Logs P (Q a) (f a) (g a) R) :
    Logs P I (x >>= f) (y >>= g) R :=
  ⟨fun s hs => (hx.repeats s hs).bind fun a s' h => (hf a).repeats s' ((hx.triple s hs).1 a s' h),
    hx.triple.bind fun a => (hf a).triple⟩

theorem when {c : Prop} [Decidable c] {x : Proc ε (σ × List ι) Unit} {y : Proc ε σ Unit}
    (h : c → Logs P I x y fun _ => I) : Logs P I (when c x) (when c y) fun _ => I := by
  unfold Proc.when
  split
  · exact h ‹_›
  · exact pure fun _ h => h

/-- A loop whose rounds keep an invariant. -/
theorem forM {γ : Type} {x : γ → Proc ε (σ × List ι) Unit} {y : γ → Proc ε σ Unit} : ∀ {cs : List γ},
    (∀ c ∈ cs, Logs P I (x c) (y c) fun _ => I) → Logs P I (cs.forM x) (cs.forM y) fun _ => I
  | [], _ => pure fun _ h => h
  | c :: cs, h => by
    rw [forM_cons, forM_cons]
    exact (h c List.mem_cons_self).bind fun _ => forM fun c' hc => h c' (List.mem_cons_of_mem _ hc)

end Logs

end Proc
