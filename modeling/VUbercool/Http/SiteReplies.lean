import VUbercool.Http.HeadReplies
import VUbercool.Http.Sites

/-!
# What the sites reply

A connection whose hosts are those of `VectorVhostManager`, from the octets that come in to the octets that
go out.

* `siteEnvironment`: what such a connection runs in.
* `siteReplies`: **what the sites are for**: the replies to a list of requests, from the numbers of hits.
* `plans_eq_siteReplies`: the hosts reply so as long as the counters have room.
* **`site_replies`**: so does a connection, however its octets are cut.
-/

namespace VUbercool.Http

open Octets Reader Run

/-! ## Sites -/

/-- The site that a name stands for. -/
def SiteConfig.site (config : SiteConfig) (name : Bytes) : Option UInt32 :=
  match config.getHostIndex (hostName name) with
  | .ok ix => if ix < config.numSites then some ix else none
  | .error _ => none

/-- What a connection to the sites runs in. -/
def siteEnvironment (config : SiteConfig) (files : FileSystem) (compress : Compression → Bytes → Bytes)
    (stop : Bytes → ℕ) : Environment VectorVhostManager where
  grammar := requestGrammar stop
  compress := compress
  config := config.toHttpConfig
  getHost name := (config.site name).map UInt32.toNat
  processRequest _ req m :=
    match m.serve files ⟨req.host, req⟩ with
    | (.ok reply, m') => (reply, m')
    | (.error _, m') => (⟨[], .exception⟩, m')

/-- **The reply of a site**: its page shows a number of hits. -/
def sitePlan (config : HttpConfig) (compress : Compression → Bytes → Bytes) (id : UInt32) (shown : ℕ)
    (req : HttpRequest) : Plan :=
  if DefaultHost.Serves req then
    let type := CurrentReply.encoding req config
    ⟨0, 200, ascii "OK", type,
      CurrentReply.filter compress type (DefaultHost.page id shown req.doNotTrack), req.closeOnReply⟩
  else if req.method = .get ∨ req.method = .head then .error 1 404 (ascii "Not Found")
  else .error 1 405 (ascii "Method not allowed")

/-- **What the sites are for**: each request to a site is answered by it and counted if it is a hit, up to
the first request that closes the connection. A name that is no site closes it without a reply. -/
def siteReplies (config : SiteConfig) (compress : Compression → Bytes → Bytes) :
    (UInt32 → ℕ) → List HttpRequest → List (Plan × HttpRequest) × Bool
  | _, [] => ([], true)
  | hits, req :: reqs =>
    match config.site req.host with
    | none => ([], false)
    | some id =>
      let p := sitePlan config.toHttpConfig compress id (hits id + 1) req
      if p.closeOnReply then ([(p, req)], false)
      else
        let hits' := if DefaultHost.Serves req then Function.update hits id (hits id + 1) else hits
        let r := siteReplies config compress hits' reqs
        ((p, req) :: r.1, r.2)

/-- The hits of a site among some requests. -/
def hitsIn (config : SiteConfig) (reqs : List HttpRequest) (id : UInt32) : ℕ :=
  reqs.countP fun req => config.site req.host = some id ∧ DefaultHost.Serves req

/-! ## The hosts of the sites -/

section Hosts

variable {s : Visited} {config : SiteConfig} {files : FileSystem} {compress : Compression → Bytes → Bytes}
  {stop : Bytes → ℕ}

theorem Counts.getHost_cases (hs : Counts s) (name : Bytes) :
    (∃ id, s.manager.config.site name = some id ∧ s.manager.getHost name = .ok ⟨.defaultHost, id⟩) ∨
      s.manager.config.site name = none ∧ ∃ e, s.manager.getHost name = .error e := by
  unfold SiteConfig.site VectorVhostManager.getHost
  cases s.manager.config.getHostIndex (hostName name) with
  | error e => exact .inr ⟨rfl, e, rfl⟩
  | ok ix =>
    by_cases h : ix < s.manager.config.numSites
    · refine .inl ⟨ix, if_pos h, ?_⟩
      simp only [dif_pos h]
      rw [VectorVhostManager.create, hs ix h]
      rfl
    · exact .inr ⟨if_neg h, _, dif_neg h⟩

theorem Counts.serve_site (hs : Counts s) (req : HttpRequest) {id : UInt32}
    (hsite : s.manager.config.site req.host = some id) :
    (s.manager.serve files ⟨req.host, req⟩).1 =
      .ok (if DefaultHost.Serves req then
          ⟨DefaultHost.page id ((s.hits id + 1) % 2 ^ 23) req.doNotTrack, .ok⟩
        else if req.method = .get ∨ req.method = .head then ⟨[], .invalidResource⟩
        else ⟨[], .unsupportedMethod⟩) := by
  obtain ⟨id', hsite', hhost⟩ | ⟨hnone, -⟩ := hs.getHost_cases req.host
  · rw [hsite] at hsite'
    cases hsite'
    by_cases hserves : DefaultHost.Serves req
    · have hpage : pageOfSite s.manager ⟨req.host, req⟩ = some id := by
        rw [pageOfSite, hhost]
        exact if_pos ⟨rfl, hserves⟩
      rw [if_pos hserves, (hs.visit files ⟨req.host, req⟩).2 id hpage]
    · rw [if_neg hserves]
      obtain ⟨e, herror, -⟩ | ⟨host, h, hhost', hrun⟩ :=
        VectorVhostManager.serve_cases files s.manager ⟨req.host, req⟩
      · rw [hhost] at herror
        cases herror
      · rw [hhost] at hhost'
        cases hhost'
        rw [hrun, HostPtr.processRequest, DefaultHost.processRequest]
        by_cases hmethod : req.method = .get ∨ req.method = .head
        · have hpath : DefaultHost.realPath req.uri ≠ ascii "/" := fun hpath => hserves ⟨hmethod, hpath⟩
          simp only [if_pos hmethod, if_pos hpath]
        · simp only [if_neg hmethod]
  · rw [hsite] at hnone
    cases hnone

theorem Counts.plan_site (hs : Counts s) (hconfig : s.manager.config = config) (req : HttpRequest) :
    plan (siteEnvironment config files compress stop) s.manager req =
      (config.site req.host).map fun id =>
        sitePlan config.toHttpConfig compress id ((s.hits id + 1) % 2 ^ 23) req := by
  rw [plan]
  simp only [siteEnvironment]
  cases hsite : config.site req.host with
  | none => rfl
  | some id =>
    have hserve := @Counts.serve_site s files hs req id (hconfig ▸ hsite)
    rcases hrun : s.manager.serve files ⟨req.host, req⟩ with ⟨reply, m'⟩
    rw [hrun] at hserve
    simp only at hserve
    subst hserve
    simp only [Option.map_some, sitePlan]
    split_ifs
    · rfl
    · rfl
    · rfl

theorem sitePlan_mod (config : HttpConfig) {id : UInt32} {shown : ℕ} {req : HttpRequest}
    (hroom : DefaultHost.Serves req → shown < 2 ^ 23) :
    sitePlan config compress id (shown % 2 ^ 23) req = sitePlan config compress id shown req := by
  unfold sitePlan
  split_ifs with hserves
  · rw [Nat.mod_eq_of_lt (hroom hserves)]
  · rfl
  · rfl

theorem Counts.hostsAfter_site (hs : Counts s) (hconfig : s.manager.config = config) (req : HttpRequest)
    {id : UInt32} (hsite : config.site req.host = some id) :
    hostsAfter (siteEnvironment config files compress stop) s.manager req =
        (Http.visit files s ⟨req.host, req⟩).manager ∧
      (Http.visit files s ⟨req.host, req⟩).hits =
        if DefaultHost.Serves req then Function.update s.hits id (s.hits id + 1) else s.hits := by
  obtain ⟨id', hsite', hhost⟩ | ⟨hnone, -⟩ := hs.getHost_cases req.host
  · rw [hconfig, hsite] at hsite'
    cases hsite'
    constructor
    · rw [hostsAfter]
      simp only [siteEnvironment, hsite, Option.map_some, Http.visit]
      rcases s.manager.serve files ⟨req.host, req⟩ with ⟨_ | _, m'⟩
      · rfl
      · rfl
    · funext id'
      have hpage : pageOfSite s.manager ⟨req.host, req⟩ =
          if DefaultHost.Serves req then some id else none := by
        rw [pageOfSite, hhost]
        simp only [true_and]
      rw [Visited.hits, Http.visit, hpage, List.count_append]
      by_cases hserves : DefaultHost.Serves req
      · rw [if_pos hserves, if_pos hserves, Function.update_apply, Option.toList_some, List.count_singleton]
        by_cases heq : id' = id
        · rw [if_pos heq, heq, beq_self_eq_true, if_pos rfl, Visited.hits]
        · rw [if_neg heq, beq_false_of_ne (Ne.symm heq)]
          rfl
      · rw [if_neg hserves, if_neg hserves]
        rfl
  · rw [hconfig, hsite] at hnone
    cases hnone

/-- **The hosts do what the sites are for** as long as the counters have room. -/
theorem plans_eq_siteReplies {reqs : List HttpRequest} (hs : Counts s) (hconfig : s.manager.config = config)
    (hroom : ∀ id, s.hits id + hitsIn config reqs id < 2 ^ 23) :
    plans (siteEnvironment config files compress stop) s.manager reqs =
      siteReplies config compress s.hits reqs := by
  induction reqs generalizing s with
  | nil => rfl
  | cons req reqs ih =>
    have hcons : ∀ id, hitsIn config (req :: reqs) id = hitsIn config reqs id +
        if config.site req.host = some id ∧ DefaultHost.Serves req then 1 else 0 := by
      intro id
      rw [hitsIn, List.countP_cons]
      simp [hitsIn]
    have hroom' : ∀ id, config.site req.host = some id → DefaultHost.Serves req →
        s.hits id + 1 < 2 ^ 23 := by
      intro id hsite hserves
      have h := hroom id
      rw [hcons, if_pos ⟨hsite, hserves⟩] at h
      omega
    rw [plans, siteReplies, hs.plan_site hconfig req]
    cases hsite : config.site req.host with
    | none => rfl
    | some id =>
      rw [Option.map_some, sitePlan_mod config.toHttpConfig (hroom' id hsite)]
      obtain ⟨hhosts, hhits⟩ :=
        @Counts.hostsAfter_site s config files compress stop hs hconfig req id hsite
      have hconfig' : (visit files s ⟨req.host, req⟩).manager.config = config :=
        (intact_serve files s.manager _).1.trans hconfig
      have hrest : ∀ id', (visit files s ⟨req.host, req⟩).hits id' + hitsIn config reqs id' < 2 ^ 23 := by
        intro id'
        have h := hroom id'
        rw [hcons, hsite] at h
        rw [hhits]
        by_cases hserves : DefaultHost.Serves req
        · rw [if_pos hserves, Function.update_apply]
          by_cases heq : id' = id
          · rw [if_pos ⟨congrArg some heq.symm, hserves⟩] at h
            rw [if_pos heq, ← heq]
            omega
          · rw [if_neg heq]
            omega
        · rw [if_neg hserves]
          omega
      simp only
      rw [hhosts, ih (hs.visit files _).1 hconfig' hrest, hhits]

end Hosts

/-! ## Connections to the sites -/

theorem counts_run (config : SiteConfig) (files : FileSystem) (visits : List Visit) :
    Counts (run (visit files) ⟨VectorVhostManager.zeroed config, []⟩ visits) ∧
      (run (visit files) ⟨VectorVhostManager.zeroed config, []⟩ visits).manager.config = config := by
  have hrun : ∀ (visits : List Visit) (s : Visited), Counts s ∧ s.manager.config = config →
      Counts (run (visit files) s visits) ∧ (run (visit files) s visits).manager.config = config := by
    intro visits
    induction visits with
    | nil => exact fun s hs => hs
    | cons v visits ih =>
      intro s hs
      exact ih _ ⟨(hs.1.visit files v).1, (intact_serve files s.manager v).1.trans hs.2⟩
  exact hrun visits _ ⟨counts_zeroed config, rfl⟩

theorem readsHeads_siteEnvironment (config : SiteConfig) (files : FileSystem)
    (compress : Compression → Bytes → Bytes) {stop : Bytes → ℕ} (hstop : StopsAfterHead stop) :
    ReadsHeads (siteEnvironment config files compress stop) := ⟨stop, rfl, hstop⟩

/-- **A connection to the sites does what they are for.** After any earlier visits, and however the octets of
its heads are cut, it sends the replies of the sites with the numbers of hits, in order and up to the first
request that closes it, as long as no site has `2 ^ 23` hits. -/
theorem site_replies (config : SiteConfig) (files : FileSystem) (compress : Compression → Bytes → Bytes)
    {stop : Bytes → ℕ} (hstop : StopsAfterHead stop) (earlier : List Visit) (date : CachedDate)
    (clock : ℕ → Int) (heads : List RequestHead)
    (hheads : ∀ h ∈ heads, h.octets.length ≤ bufferSize ∧ h.Steady)
    (hroom : ∀ id, (run (visit files) ⟨VectorVhostManager.zeroed config, []⟩ earlier).hits id +
      hitsIn config (heads.map RequestHead.parsed) id < 2 ^ 23)
    (pieces : List Bytes) (hpieces : pieces.flatten = heads.flatMap RequestHead.octets)
    (hfits : (RequestLoop.machine (siteEnvironment config files compress stop)).Fits bufferSize
      (start date clock (run (visit files) ⟨VectorVhostManager.zeroed config, []⟩ earlier).manager,
        pieces)) :
    let s := run (visit files) ⟨VectorVhostManager.zeroed config, []⟩ earlier
    let replies := siteReplies config compress s.hits (heads.map RequestHead.parsed)
    ∃ c rest, (RequestLoop.machine (siteEnvironment config files compress stop)).Ends
        (start date clock s.manager, pieces) (c, rest) ∧
      c.session.sent = sents date clock replies.1 ∧ c.isOpen = replies.2 := by
  obtain ⟨hs, hconfig⟩ := counts_run config files earlier
  have henv := readsHeads_siteEnvironment config files compress hstop
  obtain ⟨c, rest, hends, hserves⟩ := exists_ends_of_heads henv date clock _ hfits
  rw [hpieces] at hserves
  have hsent := sent_of_heads henv hheads hserves
  rw [plans_eq_siteReplies hs hconfig hroom] at hsent
  exact ⟨c, rest, hends, hsent⟩

/-- Two visits to the page of the site 1, octet by octet. -/
theorem site_replies_two :
    let env := siteEnvironment { numSites := 2 } (fun _ => none) (fun _ text => text) parsedLength
    ∃ c rest, (RequestLoop.machine env).Ends
        (start .empty (fun _ => 1) (VectorVhostManager.zeroed { numSites := 2 }),
          singles ([sampleHead, sampleHead].flatMap RequestHead.octets)) (c, rest) ∧
      c.session.sent = sents .empty (fun _ => 1)
        [(⟨0, 200, ascii "OK", none, DefaultHost.page 1 1 false, false⟩, sampleHead.parsed),
          (⟨0, 200, ascii "OK", none, DefaultHost.page 1 2 false, false⟩, sampleHead.parsed)] ∧
      c.isOpen = true := by
  have hstop : StopsAfterHead parsedLength := fun _ _ => rfl
  have henv := readsHeads_siteEnvironment { numSites := 2 } (fun _ => none) (fun _ text => text) hstop
  have hfits := fits_singles (lawful_of_heads henv)
    (ready_fresh henv (start .empty (fun _ => 1) (VectorVhostManager.zeroed { numSites := 2 })).session)
    ([sampleHead, sampleHead].flatMap RequestHead.octets)
  have hhead : sampleHead.octets.length ≤ bufferSize ∧ sampleHead.Steady :=
    ⟨by decide +kernel, by decide +kernel, fun ls h => by cases h⟩
  have hroom : ∀ id,
      (run (visit fun _ => none) ⟨VectorVhostManager.zeroed { numSites := 2 }, []⟩ []).hits id +
      hitsIn { numSites := 2 } ([sampleHead, sampleHead].map RequestHead.parsed) id < 2 ^ 23 := by
    intro id
    have hle : hitsIn { numSites := 2 } ([sampleHead, sampleHead].map RequestHead.parsed) id ≤ 2 :=
      List.countP_le_length
    have hzero : (run (visit fun _ => none) ⟨VectorVhostManager.zeroed { numSites := 2 }, []⟩ []).hits id =
        0 := rfl
    omega
  exact site_replies { numSites := 2 } (fun _ => none) (fun _ text => text) hstop [] .empty (fun _ => 1)
    [sampleHead, sampleHead] (by simpa using hhead) hroom _ (flatten_singles _)
    ((RequestLoop.refines _).fits_iff.mp hfits)

end VUbercool.Http
