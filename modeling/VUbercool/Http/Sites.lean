import Mathlib.Algebra.Group.Nat.Defs
import VUbercool.Http.VhostManager
import VUbercool.Lib.Run

/-!
# Sites and their data

`DefaultHost` (`Hosts.h`, `DefaultHost.cpp`) and the data file of `VectorVhostManager`
(`VhostManager.cpp`) over runs of requests.

* `DefaultHost.processRequest`: the page with the number of hits. `page_inj`: pages show their numbers.
* `HostPtr.processRequest`, `serve`: a request is answered by the host that is created for it.
* **`intact`**: in every run from a data file of zeros, each index is in range and each request changes no
  more than the counter of its site.
* **`counts_iff`**: every page shows how many there were exactly if no site answers `2 ^ 23` times.
-/

namespace VUbercool.Http

open Octets Run

/-! ## The default host -/

namespace DefaultHost

/-- The path of a request, without its arguments. -/
def realPath (uri : Bytes) : Bytes := uri.takeWhile (· ≠ 63)

/-- The page up to the number of hits. -/
def pageHead (id : UInt32) : Bytes :=
  ascii "<!DOCTYPE HTML PUBLIC \"-//IETF//DTD HTML 2.0//EN\">" ++ crlf ++
  ascii "<html><head>" ++ crlf ++
  ascii "<title>Welcome dear spider</title>" ++
  ascii "<!-- site id# " ++ decimal id.toNat ++ ascii " -->" ++ crlf ++
  ascii "</head><body>" ++ crlf ++
  ascii "<h1>This page is for you</h1>" ++ crlf ++
  ascii "<p>Please consume this jolly content with pride.</p>" ++ crlf ++
  ascii "<p>This fantastic, distinct site has had "

/-- The page after the number of hits. -/
def pageTail (doNotTrack : Bool) : Bytes :=
  ascii " page-hits so far.</p>" ++ crlf ++
  (if doNotTrack then ascii "<p>(I am not tracking you!)</p>" else []) ++
  ascii "<hr>" ++ crlf ++
  ascii "<address>vUbercool/0.20 Very High Performance HTTP/Web Application Server</address>" ++ crlf ++
  ascii "</body></html>" ++ crlf ++ crlf

/-- **The page** of a site. -/
def page (id : UInt32) (hitCount : ℕ) (doNotTrack : Bool) : Bytes :=
  pageHead id ++ decimal hitCount ++ pageTail doNotTrack

/-- The request gets the page. -/
def Serves (req : HttpRequest) : Prop :=
  (req.method = .get ∨ req.method = .head) ∧ realPath req.uri = ascii "/"

instance (req : HttpRequest) : Decidable (Serves req) := inferInstanceAs (Decidable (_ ∧ _))

/-- **`ProcessRequest`.** -/
def processRequest (id : UInt32) (req : HttpRequest) (data : PackedHostData) :
    HostReply × PackedHostData :=
  if req.method = .get ∨ req.method = .head then
    if realPath req.uri ≠ ascii "/" then (⟨[], .invalidResource⟩, data)
    else
      let data := data.incHitCount
      (⟨page id data.hostbits.toNat req.doNotTrack, .ok⟩, data)
  else (⟨[], .unsupportedMethod⟩, data)

theorem processRequest_serves {req : HttpRequest} (h : Serves req) (id : UInt32)
    (data : PackedHostData) : processRequest id req data =
      (⟨page id (data.hostbits + 1).toNat req.doNotTrack, .ok⟩, data.incHitCount) := by
  rw [processRequest, if_pos h.1, if_neg (not_not.mpr h.2)]
  rfl

theorem processRequest_not_serves {req : HttpRequest} (h : ¬ Serves req) (id : UInt32)
    (data : PackedHostData) : (processRequest id req data).2 = data := by
  unfold processRequest
  split
  · next hmethod => rw [if_pos fun hpath => h ⟨hmethod, hpath⟩]
  · rfl

end DefaultHost

/-- **The digits of a number spell it.** -/
theorem decimalValue_decimal (n : ℕ) : decimalValue (decimal n) = n := by
  have hdigit : ∀ d ∈ Nat.toDigits 10 n, (UInt8.ofNat d.toNat).toNat = d.toNat := by
    intro d hd
    have h := Nat.isDigit_of_mem_toDigits (by decide) (by decide) hd
    rw [Char.isDigit, Bool.and_eq_true, decide_eq_true_eq, decide_eq_true_eq] at h
    have hhigh : d.toNat ≤ 57 := h.2
    rw [UInt8.toNat_ofNat', Nat.mod_eq_of_lt]
    omega
  calc decimalValue (decimal n)
      = (Nat.toDigits 10 n).foldl
          (fun k d => 10 * k + ((UInt8.ofNat d.toNat).toNat - 48)) 0 := List.foldl_map
    _ = (Nat.toDigits 10 n).foldl (fun k d => 10 * k + (d.toNat - '0'.toNat)) 0 := by
        refine List.foldl_ext _ _ _ fun k d hd => ?_
        rw [hdigit d hd]
        rfl
    _ = n := by rw [← Nat.ofDigitChars_eq_foldl, Nat.ofDigitChars_ten_toDigits]

/-- **A page shows its number of hits.** -/
theorem DefaultHost.page_inj {id : UInt32} {doNotTrack : Bool} {n k : ℕ} :
    page id n doNotTrack = page id k doNotTrack ↔ n = k := by
  refine ⟨fun h => ?_, fun h => h ▸ rfl⟩
  have hdecimal : decimal n = decimal k :=
    List.append_cancel_left (List.append_cancel_right h)
  rw [← decimalValue_decimal n, hdecimal, decimalValue_decimal]

/-! ## Requests -/

/-- `ProcessRequest` of a host, whose files are `files`. -/
def HostPtr.processRequest (host : HostPtr) (files : FileSystem) (req : HttpRequest)
    (data : PackedHostData) : HostReply × PackedHostData :=
  match host.hostClass with
  | .defaultHost => DefaultHost.processRequest host.id req data
  | .staticPageHost => StaticPageHost.processRequest files req data

/-- A request and the `Host` header it came with. -/
structure Visit where
  host : Bytes
  req : HttpRequest

namespace VectorVhostManager

variable {m : VectorVhostManager}

/-- **An index is in range** when a host is created for it. -/
theorem getHost_lt {name : Bytes} {host : HostPtr} (h : m.getHost name = .ok host) :
    host.id < m.config.numSites := by
  unfold getHost at h
  split at h
  · cases h
  · split at h
    · next hlt =>
      unfold create at h
      split at h
      · cases h
        exact hlt
      · cases h
    · cases h

/-- The host writes to the record it was created with. -/
def setRecord (m : VectorVhostManager) (ix : UInt32) (d : PackedHostData) : VectorVhostManager where
  config := m.config
  data := m.data.set ix.toNat d
  length_data := List.length_set.trans m.length_data

/-- **A request**: what `GetHost` raises, or what the host answers. -/
def serve (files : FileSystem) (m : VectorVhostManager) (v : Visit) :
    Except GetHostError HostReply × VectorVhostManager :=
  match h : m.getHost v.host with
  | .error e => (.error e, m)
  | .ok host =>
    let r := host.processRequest files v.req (m.record host.id (getHost_lt h))
    (.ok r.1, m.setRecord host.id r.2)

theorem serve_cases (files : FileSystem) (m : VectorVhostManager) (v : Visit) :
    (∃ e, m.getHost v.host = .error e ∧ m.serve files v = (.error e, m)) ∨
      ∃ host, ∃ h : host.id < m.config.numSites, m.getHost v.host = .ok host ∧
        m.serve files v = (.ok (host.processRequest files v.req (m.record host.id h)).1,
          m.setRecord host.id (host.processRequest files v.req (m.record host.id h)).2) := by
  unfold serve
  split
  · next e h => exact .inl ⟨e, h, rfl⟩
  · next host h => exact .inr ⟨host, getHost_lt h, h, rfl⟩

/-- The data file of a new server. -/
def zeroed (config : SiteConfig) : VectorVhostManager where
  config := config
  data := List.replicate config.numSites.toNat {}
  length_data := List.length_replicate

end VectorVhostManager

open VectorVhostManager

/-! ## Indexes in range and data that stay intact -/

/-- **`GetHost` is safe**: it reads no factory that there is not, and the index of a host is in range. -/
def Safe (m : VectorVhostManager) (v : Visit) : Prop :=
  match m.getHost v.host with
  | .error e => ∀ id, e ≠ .noFactory id
  | .ok host => ∃ h : host.id < m.config.numSites,
      (m.record host.id h).hostTemplate.toNat < hostFactories.length

/-- **Only the counter of the site changes** in a request. -/
def Intact (m m' : VectorVhostManager) (v : Visit) : Prop :=
  m'.config = m.config ∧ m'.data.length = m.data.length ∧
    ∀ i d d', m.data[i]? = some d → m'.data[i]? = some d' →
      d'.hostTemplate = d.hostTemplate ∧ d'.reserved = d.reserved ∧
        (d' ≠ d → ∃ host, m.getHost v.host = .ok host ∧ host.id.toNat = i)

/-- Every template has a factory. -/
def Valid (m : VectorVhostManager) : Prop :=
  ∀ d ∈ m.data, d.hostTemplate.toNat < hostFactories.length

section Valid

variable {m : VectorVhostManager}

theorem record_mem (ix : UInt32) (h : ix < m.config.numSites) : m.record ix h ∈ m.data :=
  List.get_mem ..

theorem safe_of_valid (hm : Valid m) (v : Visit) : Safe m v := by
  have hcreate : ∀ ix (h : ix < m.config.numSites), ∃ hostClass, m.create ix h = .ok ⟨hostClass, ix⟩ := by
    intro ix h
    unfold create
    rw [List.getElem?_eq_getElem (hm _ (record_mem ix h))]
    exact ⟨_, rfl⟩
  unfold Safe
  cases hhost : m.getHost v.host with
  | ok host => exact ⟨getHost_lt hhost, hm _ (record_mem ..)⟩
  | error e =>
    rintro id rfl
    unfold getHost at hhost
    split at hhost
    · next e herror =>
      -- the tables have no site that is not in the data
      cases hhost
      unfold SiteConfig.getHostIndex SiteConfig.getHostIndexFromName at herror
      split at herror
      · cases herror
      · split at herror
        · cases herror
        · split at herror <;> cases herror
    · split at hhost
      · next ix _ h =>
        obtain ⟨hostClass, heq⟩ := hcreate ix h
        rw [heq] at hhost
        cases hhost
      · cases hhost

theorem processRequest_data (host : HostPtr) (files : FileSystem) (req : HttpRequest)
    (data : PackedHostData) : (host.processRequest files req data).2 = data ∨
      (host.processRequest files req data).2 = data.incHitCount := by
  unfold HostPtr.processRequest
  split
  · by_cases h : DefaultHost.Serves req
    · rw [DefaultHost.processRequest_serves h]
      exact .inr rfl
    · exact .inl (DefaultHost.processRequest_not_serves h _ _)
  · unfold StaticPageHost.processRequest StaticPageHost.serve
    split
    · exact .inl rfl
    · right
      simp only
      split
      · rfl
      · split <;> rfl

theorem frame_processRequest (host : HostPtr) (files : FileSystem) (req : HttpRequest)
    (data : PackedHostData) :
    (host.processRequest files req data).2.hostTemplate = data.hostTemplate ∧
      (host.processRequest files req data).2.reserved = data.reserved := by
  obtain h | h := processRequest_data host files req data
  · rw [h]
    exact ⟨rfl, rfl⟩
  · rw [h]
    exact ⟨rfl, rfl⟩

theorem intact_serve (files : FileSystem) (m : VectorVhostManager) (v : Visit) :
    Intact m (m.serve files v).2 v := by
  obtain ⟨e, -, hrun⟩ | ⟨host, h, hhost, hrun⟩ := serve_cases files m v
  · rw [hrun]
    refine ⟨rfl, rfl, fun i d d' hd hd' => ?_⟩
    rw [hd] at hd'
    cases hd'
    exact ⟨rfl, rfl, fun hne => absurd rfl hne⟩
  · rw [hrun]
    refine ⟨rfl, List.length_set, fun i d d' hd hd' => ?_⟩
    simp only [setRecord, List.getElem?_set] at hd'
    by_cases hi : host.id.toNat = i
    · have hlt := (List.getElem?_eq_some_iff.mp hd).1
      have hrecord : m.record host.id h = d := by
        subst hi
        rw [record, List.get_eq_getElem]
        exact (List.getElem?_eq_some_iff.mp hd).2
      rw [if_pos hi, hi, if_pos hlt] at hd'
      cases hd'
      obtain ⟨htemplate, hreserved⟩ :=
        frame_processRequest host files v.req (m.record host.id h)
      rw [hrecord] at htemplate hreserved
      rw [hrecord]
      exact ⟨htemplate, hreserved, fun _ => ⟨host, hhost, hi⟩⟩
    · rw [if_neg hi, hd] at hd'
      cases hd'
      exact ⟨rfl, rfl, fun hne => absurd rfl hne⟩

theorem Intact.valid {m' : VectorVhostManager} {v : Visit} (h : Intact m m' v) (hm : Valid m) :
    Valid m' := by
  obtain ⟨-, hlength, hdata⟩ := h
  intro d' hd'
  obtain ⟨i, hi⟩ := List.getElem?_of_mem hd'
  have hlt : i < m.data.length := hlength ▸ (List.getElem?_eq_some_iff.mp hi).1
  rw [(hdata i _ d' (List.getElem?_eq_getElem hlt) hi).1]
  exact hm _ (List.getElem_mem hlt)

end Valid

/-- **Site data stay intact.** In every run of requests from a data file of zeros, every `GetHost` is
safe, and every request changes the counter of its site at most. -/
theorem intact (config : SiteConfig) (files : FileSystem) (visits : List Visit) :
    Along (fun m v => (m.serve files v).2) (fun m v => Safe m v ∧ Intact m (m.serve files v).2 v)
      (zeroed config) visits := by
  have hzero : Valid (zeroed config) := by
    intro d hd
    rw [(List.mem_replicate.mp hd).2]
    decide
  refine Along.of_inv (fun m v hm => ?_) visits hzero
  have hintact := intact_serve files m v
  exact ⟨⟨safe_of_valid hm v, hintact⟩, hintact.valid hm⟩

/-! ## Hits -/

/-- The data, and the sites that answered with their page so far. -/
structure Visited where
  manager : VectorVhostManager
  answered : List UInt32 := []

/-- The site whose `DefaultHost` answers with its page. -/
def pageOfSite (m : VectorVhostManager) (v : Visit) : Option UInt32 :=
  match m.getHost v.host with
  | .ok host => if host.hostClass = .defaultHost ∧ DefaultHost.Serves v.req then some host.id else none
  | .error _ => none

/-- One request. -/
def visit (files : FileSystem) (s : Visited) (v : Visit) : Visited where
  manager := (s.manager.serve files v).2
  answered := s.answered ++ (pageOfSite s.manager v).toList

/-- How often a site answered with its page. -/
def Visited.hits (s : Visited) (id : UInt32) : ℕ := s.answered.count id

/-- **What is asked for**: the page shows how often the site has answered with it. -/
def Shown (files : FileSystem) (s : Visited) (v : Visit) : Prop :=
  ∀ id, pageOfSite s.manager v = some id →
    (s.manager.serve files v).1 = .ok ⟨DefaultHost.page id (s.hits id + 1) v.req.doNotTrack, .ok⟩

/-- **The counter of the site has room** for another hit. -/
def HasRoom (s : Visited) (v : Visit) : Prop :=
  ∀ id, pageOfSite s.manager v = some id → s.hits id + 1 < 2 ^ 23

/-- **The invariant**: the records count the hits of their sites, as far as the bits go. -/
def Counts (s : Visited) : Prop :=
  ∀ id (h : id < s.manager.config.numSites),
    s.manager.record id h = { hostbits := BitVec.ofNat 23 (s.hits id) }

section Counts

variable {s : Visited} {files : FileSystem} {v : Visit}

theorem record_setRecord (m : VectorVhostManager) (ix id : UInt32) (d : PackedHostData)
    (h : id < m.config.numSites) :
    (m.setRecord ix d).record id h = if ix = id then d else m.record id h := by
  unfold record
  rw [List.get_eq_getElem, List.get_eq_getElem]
  simp only [setRecord, List.getElem_set, UInt32.toNat_inj]

theorem Counts.hostClass (hs : Counts s) {name : Bytes} {host : HostPtr}
    (hhost : s.manager.getHost name = .ok host) : host.hostClass = .defaultHost := by
  unfold getHost at hhost
  split at hhost
  · cases hhost
  · split at hhost
    · next h =>
      rw [create, hs _ h] at hhost
      cases hhost
      rfl
    · cases hhost

theorem Counts.setRecord (hs : Counts s) (ix : UInt32) {answered : List UInt32} {d : PackedHostData}
    (hd : d = { hostbits := BitVec.ofNat 23 (answered.count ix) })
    (hother : ∀ id, id ≠ ix → answered.count id = s.answered.count id) :
    Counts ⟨s.manager.setRecord ix d, answered⟩ := by
  intro id h
  refine (record_setRecord s.manager ix id d h).trans ?_
  split
  · next heq => rw [hd, heq, Visited.hits]
  · next hne => rw [hs id h, Visited.hits, Visited.hits, hother id (Ne.symm hne)]

theorem Counts.visit (hs : Counts s) (files : FileSystem) (v : Visit) :
    Counts (visit files s v) ∧ ∀ id, pageOfSite s.manager v = some id →
      (s.manager.serve files v).1 =
        .ok ⟨DefaultHost.page id ((s.hits id + 1) % 2 ^ 23) v.req.doNotTrack, .ok⟩ := by
  unfold Http.visit
  obtain ⟨e, hhost, hrun⟩ | ⟨host, h, hhost, hrun⟩ := serve_cases files s.manager v
  · -- no host
    have hnone : pageOfSite s.manager v = none := by rw [pageOfSite, hhost]
    rw [hnone, hrun, Option.toList_none, List.append_nil]
    exact ⟨hs, fun id hid => by cases hid⟩
  · have hclass := hs.hostClass hhost
    have hpage : pageOfSite s.manager v =
        if DefaultHost.Serves v.req then some host.id else none := by
      rw [pageOfSite, hhost]
      simp only [hclass, true_and]
    have hprocess : host.processRequest files v.req (s.manager.record host.id h) =
        DefaultHost.processRequest host.id v.req (s.manager.record host.id h) := by
      rw [HostPtr.processRequest, hclass]
    rw [hprocess] at hrun
    by_cases hserves : DefaultHost.Serves v.req
    · -- a hit
      rw [if_pos hserves] at hpage
      rw [DefaultHost.processRequest_serves hserves, hs] at hrun
      have hadd : BitVec.ofNat 23 (s.hits host.id) + 1 = BitVec.ofNat 23 (s.hits host.id + 1) :=
        (BitVec.ofNat_add ..).symm
      rw [hpage, hrun, Option.toList_some]
      refine ⟨hs.setRecord host.id ?_ fun id hne => ?_, fun id hid => ?_⟩
      · rw [PackedHostData.incHitCount, List.count_append, List.count_singleton_self, hadd]
        rfl
      · rw [List.count_append, List.count_singleton, beq_false_of_ne hne.symm]
        rfl
      · cases hid
        rw [hadd, BitVec.toNat_ofNat]
    · -- another request to the site
      rw [if_neg hserves] at hpage
      rw [hpage, hrun, Option.toList_none, List.append_nil,
        DefaultHost.processRequest_not_serves hserves]
      exact ⟨hs.setRecord host.id (hs host.id h) fun _ _ => rfl, fun id hid => by cases hid⟩

theorem Counts.shown_iff (hs : Counts s) (files : FileSystem) (v : Visit) :
    Shown files s v ↔ HasRoom s v := by
  refine forall₂_congr fun id hid => ?_
  rw [(hs.visit files v).2 id hid]
  constructor
  · intro heq
    have hpage := congrArg HostReply.text (Except.ok.inj heq)
    have hmod := DefaultHost.page_inj.mp hpage
    rw [← hmod]
    exact Nat.mod_lt _ (by decide)
  · intro hlt
    rw [Nat.mod_eq_of_lt hlt]

end Counts

theorem counts_zeroed (config : SiteConfig) : Counts ⟨zeroed config, []⟩ := by
  intro id h
  rw [record, List.get_eq_getElem]
  exact List.getElem_replicate ..

/-- **The counters of the pages.** In every run of requests from a data file of zeros, every page shows
how often its site has answered exactly if no site answers `2 ^ 23` times. -/
theorem counts_iff (config : SiteConfig) (files : FileSystem) (visits : List Visit) :
    Along (visit files) (Shown files) ⟨zeroed config, []⟩ visits ↔
      Along (visit files) HasRoom ⟨zeroed config, []⟩ visits := by
  have hkeep : ∀ s v, Counts s → True → HasRoom s v → Counts (visit files s v) :=
    fun s v hs _ _ => (hs.visit files v).1
  exact Along.congr hkeep (fun s v hs _ => hs.shown_iff files v) (counts_zeroed config)
    (Along.always _ _)

/-- A visit to the page of the site 0. -/
def sampleVisit : Visit := ⟨ascii "0.a", { method := .get, uri := ascii "/" }⟩

theorem pageOfSite_sampleVisit {s : Visited} (hs : Counts s) (hconfig : s.manager.config = { numSites := 1 }) :
    pageOfSite s.manager sampleVisit = some 0 := by
  have hlt : (0 : UInt32) < s.manager.config.numSites := by
    rw [hconfig]
    decide
  have hhost : s.manager.getHost sampleVisit.host = .ok ⟨.defaultHost, 0⟩ := by
    have hnumber : number (hostName sampleVisit.host) = some 0 := by decide
    rw [getHost_number hnumber, dif_pos hlt, create, hs 0 hlt]
    rfl
  rw [pageOfSite, hhost]
  exact if_pos (by decide)

theorem run_sampleVisit (files : FileSystem) : ∀ n : ℕ,
    let s := run (visit files) ⟨zeroed { numSites := 1 }, []⟩ (List.replicate n sampleVisit)
    Counts s ∧ s.manager.config = { numSites := 1 } ∧ s.answered = List.replicate n 0
  | 0 => ⟨counts_zeroed _, rfl, rfl⟩
  | n + 1 => by
    obtain ⟨hs, hconfig, hanswered⟩ := run_sampleVisit files n
    simp only [List.replicate_succ', run, List.foldl_append] at *
    set s := List.foldl (visit files) ⟨zeroed { numSites := 1 }, []⟩ (List.replicate n sampleVisit)
    refine ⟨(hs.visit files sampleVisit).1, ?_, ?_⟩
    · exact (intact_serve files s.manager sampleVisit).1.trans hconfig
    · change s.answered ++ (pageOfSite s.manager sampleVisit).toList = _
      rw [pageOfSite_sampleVisit hs hconfig, hanswered]
      rfl

/-- The `2 ^ 23`-th page of a site shows 0 hits. -/
theorem not_counts : ¬ ∀ (config : SiteConfig) (files : FileSystem) (visits : List Visit),
    Along (visit files) (Shown files) ⟨zeroed config, []⟩ visits := by
  intro h
  obtain ⟨hs, hconfig, hanswered⟩ := run_sampleVisit (fun _ => none) (2 ^ 23 - 1)
  have hrun := h { numSites := 1 } (fun _ => none) (List.replicate (2 ^ 23 - 1) sampleVisit ++ [sampleVisit])
  have hroom := (hs.shown_iff _ _).mp hrun.of_append.1 0 (pageOfSite_sampleVisit hs hconfig)
  rw [Visited.hits, hanswered, List.count_replicate_self] at hroom
  exact absurd hroom (by decide)

end VUbercool.Http
