import VUbercool.Dns.Zone

/-!
# What `Lookup` finds

* `Chosen`: the zone that a label selects among siblings; `selectZone_eq_some`, `selectZone_eq_none`.
* `ZonePath`: the zones that the labels of a key select, from a root down. `Longest`: how far they go.
* `lookupIn_path`: `Lookup` goes down the path. `lookupFor_spec`: what it returns and writes.
-/

namespace VUbercool.Dns

open Octets

variable {zones : List Zone}

/-- `ZoneMgr::Lookup(key, authorative)`: the zone found, and what `*authorative` holds then. `none` is
the null pointer, which is not written through. -/
def lookupFor (zones : List Zone) (key : List Bytes) :
    Option Bool → Option ZonePtr × Option Bool
  | none => ((lookupIn [] [] key.reverse zones false).1, none)
  | some held =>
    let found := lookupIn [] [] key.reverse zones held
    (found.1, some found.2)

/-! ## One level -/

/-- **The zone a label selects among siblings**: the first that equals it, ignoring case, or, where none
does, the last with an empty label. -/
inductive Chosen (label : Bytes) (siblings : List Zone) (i : ℕ) (z : Zone) : Prop
  | full : siblings[i]? = some z → iequals label z.label = true →
      (∀ j y, j < i → siblings[j]? = some y → iequals label y.label = false) →
      Chosen label siblings i z
  | wildchard : siblings[i]? = some z → (∀ y ∈ siblings, iequals label y.label = false) →
      z.label = [] → (∀ j y, i < j → siblings[j]? = some y → y.label ≠ []) →
      Chosen label siblings i z

theorem Chosen.getElem {label : Bytes} {siblings : List Zone} {i : ℕ} {z : Zone}
    (h : Chosen label siblings i z) : siblings[i]? = some z := by
  cases h <;> assumption

theorem chosen_zero {label : Bytes} {y z : Zone} {ys : List Zone} :
    Chosen label (y :: ys) 0 z ↔ y = z ∧ (iequals label y.label = true ∨
      (y.label = [] ∧ ∀ x ∈ ys, iequals label x.label = false ∧ x.label ≠ [])) := by
  constructor
  · intro h
    obtain rfl : y = z := by simpa using h.getElem
    refine ⟨rfl, ?_⟩
    cases h with
    | full _ he _ => exact .inl he
    | wildchard _ hno hz hlast =>
      refine .inr ⟨hz, fun x hx => ⟨hno x (List.mem_cons_of_mem _ hx), ?_⟩⟩
      obtain ⟨j, hj⟩ := List.mem_iff_getElem?.mp hx
      exact hlast (j + 1) x (by omega) (by simpa using hj)
  · rintro ⟨rfl, he | ⟨hy, hys⟩⟩
    · exact .full rfl he fun j _ hj _ => by omega
    · cases hb : iequals label y.label with
      | true => exact .full rfl hb fun j _ hj _ => by omega
      | false =>
        refine .wildchard rfl (fun x hx => ?_) hy fun j x hj hx => ?_
        · rcases List.mem_cons.mp hx with rfl | hx
          · exact hb
          · exact (hys x hx).1
        · obtain ⟨j, rfl⟩ : ∃ k, j = k + 1 := ⟨j - 1, by omega⟩
          exact (hys x (List.mem_of_getElem? (by simpa using hx))).2

theorem chosen_succ {label : Bytes} {y z : Zone} {ys : List Zone} {i : ℕ} :
    Chosen label (y :: ys) (i + 1) z ↔ iequals label y.label = false ∧ Chosen label ys i z := by
  constructor
  · intro h
    cases h with
    | full hz he hno =>
      refine ⟨hno 0 y (by omega) rfl, .full (by simpa using hz) he fun j x hj hx => ?_⟩
      exact hno (j + 1) x (by omega) (by simpa using hx)
    | wildchard hz hno hl hlast =>
      refine ⟨hno y List.mem_cons_self, .wildchard (by simpa using hz)
        (fun x hx => hno x (List.mem_cons_of_mem _ hx)) hl fun j x hj hx => ?_⟩
      exact hlast (j + 1) x (by omega) (by simpa using hx)
  · rintro ⟨hy, hz | ⟨hz, hno, hl, hlast⟩⟩
    · rename_i he hno
      refine .full (by simpa using hz) he fun j x hj hx => ?_
      cases j with
      | zero =>
        obtain rfl : y = x := by simpa using hx
        exact hy
      | succ j => exact hno j x (by omega) (by simpa using hx)
    · refine .wildchard (by simpa using hz) (fun x hx => ?_) hl fun j x hj hx => ?_
      · rcases List.mem_cons.mp hx with rfl | hx
        · exact hy
        · exact hno x hx
      · obtain ⟨j, rfl⟩ : ∃ k, j = k + 1 := ⟨j - 1, by omega⟩
        exact hlast j x (by omega) (by simpa using hx)

theorem selectZone_iff {label : Bytes} {j : ℕ} {z : Zone} : ∀ {zones : List Zone} {i : ℕ}
    {w : Option (ℕ × Zone)}, selectZone label zones i w = some (j, z) ↔
      (∃ k, j = i + k ∧ Chosen label zones k z) ∨
        (w = some (j, z) ∧ ∀ x ∈ zones, iequals label x.label = false ∧ x.label ≠ [])
  | [], i, w => by
    have hno : ∀ k, ¬ Chosen label [] k z := fun k h => by simpa using h.getElem
    simp [selectZone, hno]
  | y :: ys, i, w => by
    unfold selectZone
    cases hb : iequals label y.label with
    | true =>
      rw [if_pos rfl]
      constructor
      · intro h
        cases h
        exact .inl ⟨0, rfl, chosen_zero.mpr ⟨rfl, .inl hb⟩⟩
      · rintro (⟨k, rfl, hk⟩ | ⟨_, hno⟩)
        · cases k with
          | zero => rw [(chosen_zero.mp hk).1]; rfl
          | succ k => rw [(chosen_succ.mp hk).1] at hb; cases hb
        · rw [(hno y List.mem_cons_self).1] at hb; cases hb
    | false =>
      rw [if_neg (by simp), selectZone_iff]
      constructor
      · rintro (⟨k, rfl, hk⟩ | ⟨hw, hno⟩)
        · exact .inl ⟨k + 1, by omega, chosen_succ.mpr ⟨hb, hk⟩⟩
        · split_ifs at hw with hy
          · cases hw
            exact .inl ⟨0, rfl, chosen_zero.mpr ⟨rfl, .inr ⟨by simpa using hy, hno⟩⟩⟩
          · refine .inr ⟨hw, fun x hx => ?_⟩
            rcases List.mem_cons.mp hx with rfl | hx
            · exact ⟨hb, by simpa using hy⟩
            · exact hno x hx
      · rintro (⟨k, rfl, hk⟩ | ⟨rfl, hno⟩)
        · cases k with
          | zero =>
            obtain ⟨rfl, he | ⟨hy, hys⟩⟩ := chosen_zero.mp hk
            · rw [he] at hb; cases hb
            · exact .inr ⟨by rw [if_pos (by simpa using hy)]; rfl, hys⟩
          | succ k => exact .inl ⟨k, by omega, (chosen_succ.mp hk).2⟩
        · have hy := (hno y List.mem_cons_self).2
          refine .inr ⟨if_neg (by simpa using hy), fun x hx => ?_⟩
          exact hno x (List.mem_cons_of_mem _ hx)

theorem selectZone_eq_some {label : Bytes} {i : ℕ} {z : Zone} :
    selectZone label zones 0 none = some (i, z) ↔ Chosen label zones i z := by
  rw [selectZone_iff]
  constructor
  · rintro (⟨k, rfl, hk⟩ | ⟨h, _⟩)
    · rwa [Nat.zero_add]
    · cases h
  · exact fun h => .inl ⟨i, by omega, h⟩

theorem selectZone_eq_none {label : Bytes} :
    selectZone label zones 0 none = none ↔ ∀ i z, ¬ Chosen label zones i z := by
  constructor
  · intro h i z hc
    rw [selectZone_eq_some.mpr hc] at h
    cases h
  · intro h
    rw [Option.eq_none_iff_forall_ne_some]
    rintro ⟨i, z⟩ hs
    exact h i z (selectZone_eq_some.mp hs)

/-! ## The way down -/

/-- **The path of a key**: its labels, from the last on, select a root, a child of that root, and so
on down to the zone. -/
inductive ZonePath (zones : List Zone) : List Bytes → ZonePtr → Prop
  | root {label : Bytes} {i : ℕ} {z : Zone} : Chosen label zones i z →
      ZonePath zones [label] ⟨z, [], [i]⟩
  | child {labels : List Bytes} {label : Bytes} {p : ZonePtr} {i : ℕ} {z : Zone} :
      ZonePath zones labels p → Chosen label p.zone.children i z →
      ZonePath zones (label :: labels) ⟨z, p.zone :: p.ancestors, i :: p.address⟩

/-- **The longest partial path** of a key. -/
structure Longest (zones : List Zone) (key labels : List Bytes) (z : ZonePtr) : Prop where
  suffix : labels <:+ key
  path : ZonePath zones labels z
  longest : ∀ labels' z', labels' <:+ key → ZonePath zones labels' z' → labels'.length ≤ labels.length

theorem ZonePath.ne_nil {key : List Bytes} {z : ZonePtr} (h : ZonePath zones key z) : key ≠ [] := by
  cases h <;> exact List.cons_ne_nil _ _

theorem ZonePath.reached {key : List Bytes} {z : ZonePtr} (h : ZonePath zones key z) :
    Reached zones z := by
  induction h with
  | root hc => exact .root hc.getElem
  | child _ hc ih => exact .child ih hc.getElem

theorem longest_or (zones : List Zone) : ∀ key : List Bytes,
    (∀ labels z, labels <:+ key → ¬ ZonePath zones labels z) ∨ ∃ labels z, Longest zones key labels z
  | [] => .inl fun labels z hl hp => hp.ne_nil (List.suffix_nil.mp hl)
  | label :: key => by
    by_cases hfull : ∃ z, ZonePath zones (label :: key) z
    · obtain ⟨z, hz⟩ := hfull
      exact .inr ⟨_, z, List.suffix_rfl, hz, fun _ _ hl _ => hl.length_le⟩
    · have hinner : ∀ labels z, labels <:+ label :: key → ZonePath zones labels z → labels <:+ key := by
        intro labels z hl hp
        rcases List.suffix_cons_iff.mp hl with rfl | hl
        · exact absurd ⟨z, hp⟩ hfull
        · exact hl
      rcases longest_or zones key with hno | ⟨labels, z, hl⟩
      · exact .inl fun labels z hl hp => hno labels z (hinner labels z hl hp) hp
      · refine .inr ⟨labels, z, hl.suffix.trans (List.suffix_cons _ _), hl.path, ?_⟩
        exact fun labels' z' hl' hp' => hl.longest labels' z' (hinner labels' z' hl' hp') hp'

/-- **`Lookup` goes down the path**: past the labels of a path it is at its end. -/
theorem lookupIn_path {labels : List Bytes} {z : ZonePtr} {held : Bool}
    (h : ZonePath zones labels z) (more : List Bytes) :
    lookupIn [] [] (labels.reverse ++ more) zones held =
      if more.isEmpty then (some z, z.zone.authorative)
      else lookupIn (z.zone :: z.ancestors) z.address more z.zone.children z.zone.authorative := by
  induction h generalizing more with
  | root hc =>
    rw [List.reverse_singleton, List.singleton_append, lookupIn, selectZone_eq_some.mpr hc]
  | child _ hc ih =>
    rw [List.reverse_cons, List.append_assoc, List.singleton_append, ih, if_neg (by simp), lookupIn,
      selectZone_eq_some.mpr hc]

theorem lookupIn_stop {ancestors : List Zone} {address : List ℕ} {label : Bytes}
    {more : List Bytes} {held : Bool} (h : ∀ i z, ¬ Chosen label zones i z) :
    lookupIn ancestors address (label :: more) zones held = (none, held) := by
  rw [lookupIn, selectZone_eq_none.mpr h]

theorem lookupIn_none {key : List Bytes} {held : Bool}
    (h : ∀ labels z, labels <:+ key → ¬ ZonePath zones labels z) :
    lookupIn [] [] key.reverse zones held = (none, held) := by
  cases hr : key.reverse with
  | nil => rw [lookupIn]
  | cons label more =>
    refine lookupIn_stop fun i z hc => h [label] _ ?_ (.root hc)
    exact ⟨more.reverse, by rw [← List.reverse_cons, ← hr, List.reverse_reverse]⟩

theorem lookupIn_longest {key labels : List Bytes} {z : ZonePtr} {held : Bool}
    (h : Longest zones key labels z) : lookupIn [] [] key.reverse zones held =
      (if labels = key then some z else none, z.zone.authorative) := by
  obtain ⟨front, rfl⟩ := h.suffix
  rw [List.reverse_append, lookupIn_path h.path]
  cases hr : front.reverse with
  | nil =>
    obtain rfl : front = [] := by simpa using hr
    rw [if_pos List.isEmpty_nil, if_pos (List.nil_append _).symm]
  | cons label more =>
    have hfront : front = more.reverse ++ [label] := by
      rw [← List.reverse_cons, ← hr, List.reverse_reverse]
    have hne : labels ≠ front ++ labels := fun he => by
      have := congrArg List.length he
      simp only [hfront, List.length_append, List.length_reverse, List.length_singleton] at this
      omega
    rw [if_neg (by simp), if_neg hne]
    refine lookupIn_stop fun i y hc => ?_
    have := h.longest (label :: labels) _ ⟨more.reverse, by simp [hfront]⟩ (.child h.path hc)
    simp at this

theorem lookupIn_eq_some {key : List Bytes} {z : ZonePtr} {held : Bool} :
    (lookupIn [] [] key.reverse zones held).1 = some z ↔ ZonePath zones key z := by
  constructor
  · intro h
    rcases longest_or zones key with hno | ⟨labels, p, hl⟩
    · rw [lookupIn_none hno] at h
      cases h
    · rw [lookupIn_longest hl] at h
      split_ifs at h with heq
      cases h
      exact heq ▸ hl.path
  · intro h
    have hdown := @lookupIn_path _ _ _ held h []
    rw [List.append_nil, if_pos List.isEmpty_nil] at hdown
    rw [hdown]

/-- **`Lookup`.** It returns the zone at the end of the key's path, and null where there is none. With
a pointer to write through, the flag of the last zone of the longest partial path is left there; what
was there stays where not even one level matches. -/
theorem lookupFor_spec (zones : List Zone) (key : List Bytes) :
    (∀ authorative z, (lookupFor zones key authorative).1 = some z ↔ ZonePath zones key z) ∧
      ∀ held, (∀ labels z, Longest zones key labels z →
          (lookupFor zones key (some held)).2 = some z.zone.authorative) ∧
        ((∀ labels z, labels <:+ key → ¬ ZonePath zones labels z) →
          (lookupFor zones key (some held)).2 = some held) := by
  refine ⟨fun authorative z => ?_, fun held => ⟨fun labels z hl => ?_, fun hno => ?_⟩⟩
  · cases authorative with
    | none => exact lookupIn_eq_some
    | some held => exact lookupIn_eq_some
  · simp only [lookupFor, lookupIn_longest hl]
  · simp only [lookupFor, lookupIn_none hno]

end VUbercool.Dns
