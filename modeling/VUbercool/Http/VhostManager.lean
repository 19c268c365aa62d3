import Mathlib.Data.List.TakeWhile
import VUbercool.Http.StaticPageHost
import VUbercool.Lib.Ascii

/-!
# Virtual hosts

`VectorVhostManager` (`VhostManager.cpp`): how the name of a host is resolved.

* `SiteConfig`: what the configuration says of sites. `VectorVhostManager`: one record for each site.
* `lexicalCast`: a number as `boost::lexical_cast` reads it.
* `getHost`: `GetHost`, through `getHostIndex` and `getHostIndexFromName`.
* `hostName_withPort`: a port makes no difference. **`honoured_iff`**: an alias or a redirect is honoured
  exactly if nothing before it in the resolution takes the name.
* **`sameOutcome_iff`**: two spellings have the same outcome exactly if the name is a number or the
  tables have the same for both (`SameEntries`).
-/

namespace VUbercool.Http

open Octets

/-- `HttpConfig`, with the tables of the sites. -/
structure SiteConfig extends HttpConfig where
  numSites : UInt32 := 0
  siteAliases : Bytes → Option UInt32 := fun _ => none
  httpRedirects : Bytes → Option Bytes := fun _ => none

/-- The classes of the host factories. -/
inductive HostClass where
  | defaultHost | staticPageHost
  deriving DecidableEq

/-- `host_factories_`. -/
def hostFactories : List HostClass := [.defaultHost, .staticPageHost]

/-- **`VectorVhostManager`**: the data file has one record for each site. -/
structure VectorVhostManager where
  config : SiteConfig
  data : List PackedHostData
  length_data : data.length = config.numSites.toNat

/-- A host as the factory creates it: its class, and its site index in the data. -/
structure HostPtr where
  hostClass : HostClass
  id : UInt32
  deriving DecidableEq

/-- What `GetHost` raises. A template without a factory is read past the end of `host_factories_`. -/
inductive GetHostError where
  | unknownHost (name : Bytes)
  | redirect (redirectTo : Bytes)
  | noFactory (id : UInt32)
  deriving DecidableEq

/-! ## Numbers -/

/-- Digits of a number that fits. -/
def unsignedCast (digits : Bytes) : Option UInt32 :=
  if digits ≠ [] ∧ digits.all isDigit = true ∧ decimalValue digits < UInt32.size then
    some (UInt32.ofNat (decimalValue digits))
  else none

/-- `boost::lexical_cast<std::uint32_t>`: there may be one sign, and a negative number wraps around. -/
def lexicalCast : Bytes → Option UInt32
  | [] => none
  | c :: s =>
    if c = 45 then (unsignedCast s).map (0 - ·)
    else if c = 43 then unsignedCast s
    else unsignedCast (c :: s)

/-- The first label of a name as a number, if there is a dot after it. -/
def number (name : Bytes) : Option UInt32 :=
  if 46 ∈ name then lexicalCast (name.takeWhile (· ≠ 46)) else none

/-! ## Names -/

namespace SiteConfig

/-- `GetHostIndexFromName`. -/
def getHostIndexFromName (config : SiteConfig) (name : Bytes) : Except GetHostError UInt32 :=
  match config.siteAliases name with
  | some ix => .ok ix
  | none =>
    match config.httpRedirects name with
    | some redirectTo => .error (.redirect redirectTo)
    | none => .error (.unknownHost name)

/-- `GetHostIndex`. -/
def getHostIndex (config : SiteConfig) (name : Bytes) : Except GetHostError UInt32 :=
  match number name with
  | some ix => .ok ix
  | none => config.getHostIndexFromName name

end SiteConfig

/-- The name without what follows the first colon. -/
def hostName (name : Bytes) : Bytes := name.takeWhile (· ≠ 58)

namespace VectorVhostManager

/-- The record of a site. -/
def record (m : VectorVhostManager) (ix : UInt32) (h : ix < m.config.numSites) : PackedHostData :=
  m.data.get ⟨ix.toNat, m.length_data ▸ UInt32.lt_iff_toNat_lt.mp h⟩

/-- The factory that the record names creates the host. -/
def create (m : VectorVhostManager) (ix : UInt32) (h : ix < m.config.numSites) :
    Except GetHostError HostPtr :=
  match hostFactories[(m.record ix h).hostTemplate.toNat]? with
  | some hostClass => .ok ⟨hostClass, ix⟩
  | none => .error (.noFactory ix)

/-- **`GetHost`.** -/
def getHost (m : VectorVhostManager) (name : Bytes) : Except GetHostError HostPtr :=
  match m.config.getHostIndex (hostName name) with
  | .error e => .error e
  | .ok ix => if h : ix < m.config.numSites then m.create ix h else .error (.unknownHost name)

end VectorVhostManager

/-! ## Configured names -/

/-- The name as a `Host` header may have it: with a port or without. -/
def withPort (name : Bytes) : Option Bytes → Bytes
  | none => name
  | some port => name ++ 58 :: port

/-- **What is asked for**: an alias in range yields its site, and otherwise a redirect is raised. -/
def Honoured (m : VectorVhostManager) (name : Bytes) (port : Option Bytes) : Prop :=
  (∀ id, m.config.siteAliases name = some id → ∀ h : id < m.config.numSites,
      m.getHost (withPort name port) = m.create id h) ∧
    ((∀ id, m.config.siteAliases name = some id → ¬ id < m.config.numSites) →
      ∀ target, m.config.httpRedirects name = some target →
        m.getHost (withPort name port) = .error (.redirect target))

/-- **Nothing takes the name before its entry**: no other number an alias in range, and no number and no
alias a redirect. -/
def Unshadowed (config : SiteConfig) (name : Bytes) : Prop :=
  (∀ id, config.siteAliases name = some id → id < config.numSites →
      ∀ n, number name = some n → n = id) ∧
    ((∀ id, config.siteAliases name = some id → ¬ id < config.numSites) →
      ∀ target, config.httpRedirects name = some target →
        number name = none ∧ config.siteAliases name = none)

/-- **A port makes no difference.** -/
theorem hostName_withPort {name : Bytes} (hname : 58 ∉ name) (port : Option Bytes) :
    hostName (withPort name port) = name := by
  have hall : ∀ c ∈ name, decide (c ≠ 58) = true := fun c hc =>
    decide_eq_true fun heq => hname (heq ▸ hc)
  unfold hostName withPort
  cases port with
  | none => exact List.takeWhile_eq_self_iff.mpr hall
  | some port => rw [List.takeWhile_append_of_pos hall, List.takeWhile_cons_of_neg (by simp),
      List.append_nil]

namespace VectorVhostManager

variable {m : VectorVhostManager}

theorem create_inj {n id : UInt32} {hn : n < m.config.numSites} {hid : id < m.config.numSites}
    (h : m.create n hn = m.create id hid) : n = id := by
  unfold create at h
  split at h <;> split at h
  · exact (HostPtr.mk.inj (Except.ok.inj h)).2
  · cases h
  · cases h
  · exact GetHostError.noFactory.inj (Except.error.inj h)

theorem create_error {id : UInt32} {h : id < m.config.numSites} {e : GetHostError}
    (herror : m.create id h = .error e) : e = .noFactory id := by
  unfold create at herror
  split at herror
  · cases herror
  · exact (Except.error.inj herror).symm

theorem getHost_number {name : Bytes} {n : UInt32} (h : number (hostName name) = some n) :
    m.getHost name =
      if h : n < m.config.numSites then m.create n h else .error (.unknownHost name) := by
  unfold getHost SiteConfig.getHostIndex
  rw [h]

theorem getHost_name {name : Bytes} (h : number (hostName name) = none) :
    m.getHost name =
      match m.config.siteAliases (hostName name) with
      | some id => if h : id < m.config.numSites then m.create id h else .error (.unknownHost name)
      | none =>
        match m.config.httpRedirects (hostName name) with
        | some target => .error (.redirect target)
        | none => .error (.unknownHost (hostName name)) := by
  unfold getHost SiteConfig.getHostIndex SiteConfig.getHostIndexFromName
  rw [h]
  cases m.config.siteAliases (hostName name) with
  | some id => rfl
  | none => cases m.config.httpRedirects (hostName name) <;> rfl

theorem alias_iff {name : Bytes} {id : UInt32}
    (halias : m.config.siteAliases (hostName name) = some id) (h : id < m.config.numSites) :
    m.getHost name = m.create id h ↔ ∀ n, number (hostName name) = some n → n = id := by
  cases hnum : number (hostName name) with
  | none =>
    rw [getHost_name hnum, halias]
    exact iff_of_true (dif_pos h) fun n hn => by cases hn
  | some n =>
    rw [getHost_number hnum]
    by_cases hn : n < m.config.numSites
    · rw [dif_pos hn]
      constructor
      · intro heq n' hn'
        cases hn'
        exact create_inj heq
      · intro heq
        obtain rfl := heq n rfl
        rfl
    · rw [dif_neg hn]
      refine iff_of_false (fun heq => by cases create_error heq.symm) fun heq => hn ?_
      rw [heq n rfl]
      exact h

theorem redirect_iff {name target : Bytes}
    (hredirect : m.config.httpRedirects (hostName name) = some target) :
    m.getHost name = .error (.redirect target) ↔
      number (hostName name) = none ∧ m.config.siteAliases (hostName name) = none := by
  cases hnum : number (hostName name) with
  | none =>
    rw [getHost_name hnum]
    cases halias : m.config.siteAliases (hostName name) with
    | none => simp only [hredirect, and_self]
    | some id =>
      simp only
      split
      · exact iff_of_false (fun h => by cases create_error h) fun h => by cases h.2
      · exact iff_of_false (fun h => by cases h) fun h => by cases h.2
  | some n =>
    rw [getHost_number hnum]
    split
    · exact iff_of_false (fun h => by cases create_error h) fun h => by cases h.1
    · exact iff_of_false (fun h => by cases h) fun h => by cases h.1

end VectorVhostManager

open VectorVhostManager

/-- **Configured names.** For every configuration, a name without a colon is honoured, with a port and
without, exactly if nothing takes it before its entry. -/
theorem honoured_iff (m : VectorVhostManager) {name : Bytes} (hname : 58 ∉ name)
    (port : Option Bytes) : Honoured m name port ↔ Unshadowed m.config name := by
  have hhost := hostName_withPort hname port
  unfold Honoured Unshadowed
  refine and_congr ?_ ?_
  · refine forall₂_congr fun id halias => forall_congr' fun h => ?_
    rw [← hhost] at halias
    rw [alias_iff halias h, hhost]
  · refine imp_congr_right fun _ => forall₂_congr fun target hredirect => ?_
    rw [← hhost] at hredirect
    rw [redirect_iff hredirect, hhost]

/-- A manager with one site, one alias and one redirect. -/
def sampleManager (aliasName redirectName : String) : VectorVhostManager where
  config :=
    { numSites := 1
      siteAliases := fun name => if name = ascii aliasName then some 0 else none
      httpRedirects := fun name => if name = ascii redirectName then some (ascii "a.b") else none }
  data := [{}]
  length_data := rfl

/-- The alias of a name whose first label is no number. -/
theorem honoured_iff_blog :
    Honoured (sampleManager "blog.b" "b") (ascii "blog.b") (some (ascii "80")) ↔
      Unshadowed (sampleManager "blog.b" "b").config (ascii "blog.b") :=
  honoured_iff _ (by decide) _

/-- The alias `1.b` of site 0 is taken for the number 1. -/
theorem not_honoured : ¬ ∀ (m : VectorVhostManager) (name : Bytes), 58 ∉ name →
    ∀ port, Honoured m name port := by
  intro h
  have halias := (h (sampleManager "1.b" "b") (ascii "1.b") (by decide) none).1 0 (by decide) (by decide)
  exact absurd halias (by decide)

/-! ## The case of a name -/

/-- The outcomes that are told apart: which site, where to, or none. -/
inductive Outcome where
  | site (id : UInt32)
  | redirect (target : Bytes)
  | unknownHost
  deriving DecidableEq

/-- The outcome of `GetHost`. -/
def outcome : Except GetHostError HostPtr → Outcome
  | .ok host => .site host.id
  | .error (.noFactory id) => .site id
  | .error (.redirect target) => .redirect target
  | .error (.unknownHost _) => .unknownHost

/-- What the tables have for a name: a site, a redirect or nothing. -/
def SiteConfig.entry (config : SiteConfig) (name : Bytes) : Outcome :=
  match config.siteAliases name with
  | some id => if id < config.numSites then .site id else .unknownHost
  | none =>
    match config.httpRedirects name with
    | some target => .redirect target
    | none => .unknownHost

/-- Two names that differ in case only. -/
def SameName (s t : Bytes) : Prop := lowered s = lowered t

instance (s t : Bytes) : Decidable (SameName s t) := inferInstanceAs (Decidable (_ = _))

theorem unsignedCast_caseless {s : Bytes} {n : UInt32} (h : unsignedCast s = some n) :
    ∀ c ∈ s, Caseless c := by
  unfold unsignedCast at h
  split at h
  · next hdigits => exact fun c hc => caseless_of_isDigit (List.all_eq_true.mp hdigits.2.1 c hc)
  · cases h

theorem lexicalCast_caseless {s : Bytes} {n : UInt32} (h : lexicalCast s = some n) :
    ∀ c ∈ s, Caseless c := by
  cases s with
  | nil => exact List.forall_mem_nil _
  | cons c s =>
    rw [lexicalCast] at h
    split at h
    · next hc =>
      obtain ⟨n', hn', -⟩ := Option.map_eq_some_iff.mp h
      exact List.forall_mem_cons.mpr ⟨hc ▸ by decide, unsignedCast_caseless hn'⟩
    · split at h
      · next hc => exact List.forall_mem_cons.mpr ⟨hc ▸ by decide, unsignedCast_caseless h⟩
      · exact unsignedCast_caseless h

theorem lexicalCast_lowered (s : Bytes) : lexicalCast (lowered s) = lexicalCast s := by
  cases h : lexicalCast (lowered s) with
  | some n => rw [eq_lowered_of_caseless (lexicalCast_caseless h), h]
  | none =>
    cases h' : lexicalCast s with
    | some n =>
      rw [lowered_of_caseless (lexicalCast_caseless h'), h'] at h
      cases h
    | none => rfl

theorem number_lowered (name : Bytes) : number (lowered name) = number name := by
  have hdot : Caseless 46 := by decide
  unfold number
  simp only [mem_lowered hdot, takeWhile_lowered hdot, lexicalCast_lowered]

theorem SameName.hostName {s t : Bytes} (h : SameName s t) : SameName (hostName s) (hostName t) := by
  have hcolon : Caseless 58 := by decide
  unfold SameName Http.hostName
  rw [← takeWhile_lowered hcolon, ← takeWhile_lowered hcolon, h]

theorem SameName.number {s t : Bytes} (h : SameName s t) : number s = number t := by
  rw [← number_lowered s, ← number_lowered t, h]

namespace VectorVhostManager

variable {m : VectorVhostManager}

theorem outcome_create {id : UInt32} (h : id < m.config.numSites) :
    outcome (m.create id h) = .site id := by
  unfold create
  split <;> rfl

theorem outcome_number {name : Bytes} {n : UInt32} (h : number (hostName name) = some n) :
    outcome (m.getHost name) = if n < m.config.numSites then .site n else .unknownHost := by
  rw [getHost_number h]
  split
  · next hn => exact outcome_create hn
  · rfl

theorem outcome_name {name : Bytes} (h : number (hostName name) = none) :
    outcome (m.getHost name) = m.config.entry (hostName name) := by
  rw [getHost_name h, SiteConfig.entry]
  cases m.config.siteAliases (hostName name) with
  | some id =>
    simp only
    split
    · next hid => exact outcome_create hid
    · rfl
  | none => cases m.config.httpRedirects (hostName name) <;> rfl

end VectorVhostManager

/-- **The tables have the same for two names**: an alias in range has one site under both, and a redirect
that no alias hides leads to the same place. -/
structure SameEntries (config : SiteConfig) (s t : Bytes) : Prop where
  siteAliases : ∀ id < config.numSites, config.siteAliases s = some id ↔ config.siteAliases t = some id
  httpRedirects : ∀ target, config.siteAliases s = none ∧ config.httpRedirects s = some target ↔
    config.siteAliases t = none ∧ config.httpRedirects t = some target

theorem Outcome.ext_iff {x y : Outcome} : x = y ↔
    (∀ id, x = .site id ↔ y = .site id) ∧ ∀ target, x = .redirect target ↔ y = .redirect target := by
  refine ⟨fun h => by simp [h], fun h => ?_⟩
  cases x with
  | site id => exact ((h.1 id).mp rfl).symm
  | redirect target => exact ((h.2 target).mp rfl).symm
  | unknownHost =>
    cases y with
    | site id => exact (h.1 id).mpr rfl
    | redirect target => exact (h.2 target).mpr rfl
    | unknownHost => rfl

namespace SiteConfig

variable {config : SiteConfig} {name : Bytes}

theorem entry_eq_site {id : UInt32} :
    config.entry name = .site id ↔ config.siteAliases name = some id ∧ id < config.numSites := by
  unfold entry
  cases config.siteAliases name with
  | some id' =>
    by_cases hid : id' < config.numSites
    · simp only [hid, if_true, Outcome.site.injEq, Option.some.injEq]
      exact ⟨fun h => ⟨h, h ▸ hid⟩, And.left⟩
    · simp only [hid, if_false, reduceCtorEq, Option.some.injEq, false_iff, not_and]
      exact fun h => h ▸ hid
  | none => cases config.httpRedirects name <;> simp

theorem entry_eq_redirect {target : Bytes} : config.entry name = .redirect target ↔
    config.siteAliases name = none ∧ config.httpRedirects name = some target := by
  unfold entry
  cases config.siteAliases name with
  | some id => by_cases hid : id < config.numSites <;> simp [hid]
  | none => cases config.httpRedirects name <;> simp

theorem entry_eq_iff {s t : Bytes} : config.entry s = config.entry t ↔ SameEntries config s t := by
  rw [Outcome.ext_iff]
  simp only [entry_eq_site, entry_eq_redirect]
  refine ⟨fun h => ⟨fun id hid => ?_, h.2⟩, fun h => ⟨fun id => ?_, h.httpRedirects⟩⟩
  · simpa only [hid, and_true] using h.1 id
  · exact and_congr_left fun hid => h.siteAliases id hid

end SiteConfig

/-- **The case of host names.** Two names that differ in case only have the same outcome exactly if they
are a number or the tables have the same for both. -/
theorem sameOutcome_iff (m : VectorVhostManager) {s t : Bytes} (h : SameName s t) :
    outcome (m.getHost s) = outcome (m.getHost t) ↔
      (number (hostName s)).isSome = true ∨ SameEntries m.config (hostName s) (hostName t) := by
  have hnumber := h.hostName.number
  cases hs : number (hostName s) with
  | some n =>
    rw [outcome_number hs, outcome_number (hnumber ▸ hs)]
    exact iff_of_true rfl (.inl rfl)
  | none =>
    rw [outcome_name hs, outcome_name (hnumber ▸ hs), SiteConfig.entry_eq_iff]
    simp

theorem sameOutcome_iff_blog :
    outcome ((sampleManager "blog" "b").getHost (ascii "B")) =
        outcome ((sampleManager "blog" "b").getHost (ascii "b")) ↔
      (number (hostName (ascii "B"))).isSome = true ∨
        SameEntries (sampleManager "blog" "b").config (hostName (ascii "B")) (hostName (ascii "b")) :=
  sameOutcome_iff _ (by decide)

/-- `BLOG` is unknown where `blog` is an alias. -/
theorem not_sameOutcome : ¬ ∀ (m : VectorVhostManager) (s t : Bytes), SameName s t →
    outcome (m.getHost s) = outcome (m.getHost t) := by
  intro h
  exact absurd (h (sampleManager "blog" "b") (ascii "blog") (ascii "BLOG") (by decide)) (by decide)

end VUbercool.Http
