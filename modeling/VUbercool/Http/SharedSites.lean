import VUbercool.Http.SiteReplies

/-!
# Connections that share the sites

Any number of connections whose hosts write to the same data, in any order of steps.

* `SharedSites`: the connections and the data. `SharedEvent`: a new connection, octets that come in, a
  round of a connection on what it has read.
* `InOrder`: **what is asked for**: in the order in which requests are replied to, whatever the connection,
  each reply is that of its site after the hits before it.
* **`sharedSites_inOrder`**: this holds in every run, as long as no site has `2 ^ 23` hits.
-/

namespace VUbercool.Http

open Octets Reader Run

/-! ## Connections and data -/

/-- A request that got a reply, and the date string and the clock of the thread at the time. -/
structure SharedReply where
  req : HttpRequest
  sent : Sent
  date : CachedDate
  clock : ℕ → Int

/-- **Connections that share data**; for the record, the requests that got replies, and these. -/
structure SharedSites (n : ℕ) where
  loops : Fin n → RequestLoop VectorVhostManager
  manager : VectorVhostManager
  replied : List SharedReply := []

/-- What happens to connections. The date string is that of a thread, which other connections use. -/
inductive SharedEvent (n : ℕ) where
  | connect (i : Fin n) (date : CachedDate) (clock : ℕ → Int)
  | read (i : Fin n) (piece : Bytes)
  | round (i : Fin n) (date : CachedDate) (clock : ℕ → Int)

/-- The request that a round replies to, and the reply. -/
def repliesOf {η : Type} (env : Environment η) (c : RequestLoop η) : List SharedReply :=
  match parseHttpRequest env.grammar c.buffered with
  | none => []
  | some req => ((c.round env).session.sent.drop c.session.sent.length).map fun sent =>
      ⟨req, sent, c.session.date, c.session.clock⟩

namespace SharedSites

variable {n : ℕ}

/-- No connection has read anything, and the data are those of a new server. -/
def start (n : ℕ) (config : SiteConfig) : SharedSites n where
  loops _ := Http.start .empty (fun _ => 0) (VectorVhostManager.zeroed config)
  manager := VectorVhostManager.zeroed config

/-- **One step.** -/
def step (env : Environment VectorVhostManager) (s : SharedSites n) : SharedEvent n → SharedSites n
  | .connect i date clock =>
    { s with loops := Function.update s.loops i (Http.start date clock s.manager) }
  | .read i piece => { s with loops := Function.update s.loops i ((s.loops i).read piece) }
  | .round i date clock =>
    if (s.loops i).isOpen then
      let c := (s.loops i).resume s.manager date clock
      { loops := Function.update s.loops i (c.round env)
        manager := (c.round env).session.hosts
        replied := s.replied ++ repliesOf env c }
    else s

end SharedSites

/-! ## A round -/

/-- **What was planned is sent**, with the date that the thread formats. -/
def SharedReply.Of (p : Plan) (r : SharedReply) : Prop := r.sent = p.dated r.date r.clock r.req

section Round

variable {η : Type} {env : Environment η}

/-- **What a round does to the data and what it replies.** -/
theorem round_cases (env : Environment η) (c : RequestLoop η) :
    (c.round env).session.hosts = c.session.hosts ∧ repliesOf env c = [] ∨
      ∃ req, (c.round env).session.hosts = hostsAfter env c.session.hosts req ∧
        ((plan env c.session.hosts req = none ∧ repliesOf env c = []) ∨
          ∃ p r, plan env c.session.hosts req = some p ∧ repliesOf env c = [r] ∧ r.req = req ∧ r.Of p) := by
  have hsession : (c.round env).session = (c.abs.round (look env)).state :=
    congrArg Reader.state (c.abs_round env)
  unfold repliesOf
  cases hparse : parseHttpRequest env.grammar c.buffered with
  | none =>
    refine .inl ⟨?_, rfl⟩
    rw [hsession, Reader.round]
    simp only [RequestLoop.abs]
    rw [look_none hparse]
    split_ifs
    · rfl
    · rfl
  | some req =>
    have hlook : (c.abs.round (look env)).state =
        ({ c.session with currentReq := req }.processRequest env).1 := by
      rw [Reader.round]
      simp only [RequestLoop.abs]
      rw [look_some hparse, verdict_eq]
      split_ifs
      · rfl
      · rfl
    rw [hlook] at hsession
    obtain ⟨hsent, -⟩ := @processRequest_plan η env { c.session with currentReq := req }
    have hhosts := hosts_processRequest env { c.session with currentReq := req }
    refine .inr ⟨req, hsession ▸ hhosts, ?_⟩
    have hdrop : (c.round env).session.sent.drop c.session.sent.length =
        ((plan env c.session.hosts req).map fun p =>
          p.sent { c.session with currentReq := req } req).toList := by
      rw [hsession, hsent]
      exact List.drop_left
    simp only [hdrop]
    cases hplan : plan env c.session.hosts req with
    | none => exact .inl ⟨rfl, rfl⟩
    | some p => exact .inr ⟨p, _, rfl, rfl, rfl, rfl⟩

end Round

/-! ## Replies in order -/

/-- The requests that got replies. -/
def requestsOf (replied : List SharedReply) : List HttpRequest := replied.map SharedReply.req

/-- **What is asked for**: each reply is that of its site after the hits before it. -/
def InOrder (config : SiteConfig) (compress : Compression → Bytes → Bytes)
    (replied : List SharedReply) : Prop :=
  ∀ (j : ℕ) (r : SharedReply), replied[j]? = some r → ∃ id, config.site r.req.host = some id ∧
    r.Of (sitePlan config.toHttpConfig compress id (hitsIn config (requestsOf (replied.take j)) id + 1) r.req)

section InOrder

variable {config : SiteConfig} {compress : Compression → Bytes → Bytes}

theorem InOrder.concat {replied : List SharedReply} (h : InOrder config compress replied)
    {r : SharedReply} {id : UInt32} (hsite : config.site r.req.host = some id)
    (hr : r.Of (sitePlan config.toHttpConfig compress id (hitsIn config (requestsOf replied) id + 1)
      r.req)) : InOrder config compress (replied ++ [r]) := by
  intro j r' hj
  obtain hlt | hle := Nat.lt_or_ge j replied.length
  · rw [List.getElem?_append_left hlt] at hj
    rw [List.take_append_of_le_length hlt.le]
    exact h j r' hj
  · rw [List.getElem?_append_right hle] at hj
    obtain ⟨hlast, hj⟩ := List.getElem?_eq_some_iff.mp hj
    have hlength : j = replied.length := by
      simp only [List.length_singleton] at hlast
      omega
    subst hlength
    simp only [Nat.sub_self, List.getElem_cons_zero] at hj
    cases hj
    exact ⟨id, hsite, by rwa [List.take_left]⟩

theorem hitsIn_concat (reqs : List HttpRequest) (req : HttpRequest) (id : UInt32) :
    hitsIn config (reqs ++ [req]) id = hitsIn config reqs id +
      if config.site req.host = some id ∧ DefaultHost.Serves req then 1 else 0 := by
  rw [hitsIn, hitsIn, List.countP_append, List.countP_singleton]
  simp

variable {n : ℕ}

/-- **The invariant**: the data count the hits that were replied to, and as long as the counters have room
the replies are in order. -/
structure SharedSites.Keeps (config : SiteConfig) (compress : Compression → Bytes → Bytes)
    (s : SharedSites n) : Prop where
  counts : ∃ answered, Counts ⟨s.manager, answered⟩ ∧
    ∀ id, answered.count id = hitsIn config (requestsOf s.replied) id
  sameConfig : s.manager.config = config
  inOrder : (∀ id, hitsIn config (requestsOf s.replied) id < 2 ^ 23) → InOrder config compress s.replied

/-- **One step** keeps the replies in order. -/
theorem SharedSites.Keeps.step {files : FileSystem} {stop : Bytes → ℕ} {s : SharedSites n}
    (h : s.Keeps config compress) (e : SharedEvent n) :
    (s.step (siteEnvironment config files compress stop) e).Keeps config compress := by
  cases e with
  | connect i date clock => exact ⟨h.counts, h.sameConfig, h.inOrder⟩
  | read i piece => exact ⟨h.counts, h.sameConfig, h.inOrder⟩
  | round i date clock =>
    rw [SharedSites.step]
    split
    swap
    · exact h
    obtain ⟨answered, hcounts, hhits⟩ := h.counts
    set c := (s.loops i).resume s.manager date clock with hc
    have hsession : c.session.hosts = s.manager := rfl
    obtain ⟨hhosts, hreplies⟩ | ⟨req, hhosts, hreplies⟩ :=
      round_cases (siteEnvironment config files compress stop) c
    · -- no request
      rw [hsession] at hhosts
      simp only [hhosts, hreplies, List.append_nil]
      exact ⟨h.counts, h.sameConfig, h.inOrder⟩
    · rw [hsession] at hhosts hreplies
      cases hsite : config.site req.host with
      | none =>
        -- no site
        have hnone : (siteEnvironment config files compress stop).getHost req.host = none := by
          simp only [siteEnvironment, hsite, Option.map_none]
        have hplan : plan (siteEnvironment config files compress stop) s.manager req = none := by
          rw [plan, hnone]
        have hsame : hostsAfter (siteEnvironment config files compress stop) s.manager req = s.manager := by
          rw [hostsAfter, hnone]
        obtain ⟨-, hempty⟩ | ⟨p, r, hsome, -⟩ := hreplies
        · simp only [hhosts, hsame, hempty, List.append_nil]
          exact ⟨h.counts, h.sameConfig, h.inOrder⟩
        · rw [hplan] at hsome
          cases hsome
      | some id =>
        obtain ⟨hafter, hhits'⟩ := @Counts.hostsAfter_site ⟨s.manager, answered⟩ config files
          compress stop hcounts h.sameConfig req id hsite
        have hplan := @Counts.plan_site ⟨s.manager, answered⟩ config files compress stop hcounts
          h.sameConfig req
        rw [hsite, Option.map_some] at hplan
        obtain ⟨hnone, -⟩ | ⟨p, r, hsome, hone, rfl, hr⟩ := hreplies
        · rw [hplan] at hnone
          cases hnone
        · rw [hplan] at hsome
          cases hsome
          have hconcat : ∀ id', hitsIn config (requestsOf (s.replied ++ [r])) id' =
              hitsIn config (requestsOf s.replied) id' +
                if config.site r.req.host = some id' ∧ DefaultHost.Serves r.req then 1 else 0 := by
            intro id'
            rw [requestsOf, List.map_append]
            exact hitsIn_concat _ r.req id'
          simp only [hhosts, hafter, hone]
          refine ⟨⟨_, (hcounts.visit files ⟨r.req.host, r.req⟩).1, fun id' => ?_⟩, ?_, fun hroom => ?_⟩
          · have hcount := congrFun hhits' id'
            rw [hconcat, hsite, ← hhits]
            refine hcount.trans ?_
            by_cases hserves : DefaultHost.Serves r.req
            · rw [if_pos hserves, Function.update_apply]
              by_cases heq : id' = id
              · rw [if_pos heq, if_pos ⟨congrArg some heq.symm, hserves⟩, heq, Visited.hits]
              · rw [if_neg heq, if_neg fun hand => heq (Option.some.inj hand.1).symm]
                rfl
            · rw [if_neg hserves, if_neg fun hand => hserves hand.2]
              rfl
          · exact (intact_serve files s.manager _).1.trans h.sameConfig
          · have hbefore : ∀ id', hitsIn config (requestsOf s.replied) id' < 2 ^ 23 := by
              intro id'
              have hlt := hroom id'
              rw [hconcat] at hlt
              omega
            refine (h.inOrder hbefore).concat hsite ?_
            have hhitsId : Visited.hits ⟨s.manager, answered⟩ id = hitsIn config (requestsOf s.replied) id :=
              hhits id
            rw [hhitsId, sitePlan_mod] at hr
            · exact hr
            · intro hserves
              have hlt := hroom id
              rwa [hconcat, if_pos ⟨hsite, hserves⟩] at hlt

theorem sharedSites_keeps (config : SiteConfig) (files : FileSystem) (compress : Compression → Bytes → Bytes)
    (stop : Bytes → ℕ) (events : List (SharedEvent n)) :
    (run (SharedSites.step (siteEnvironment config files compress stop)) (SharedSites.start n config)
      events).Keeps config compress := by
  have hrun : ∀ (events : List (SharedEvent n)) (s : SharedSites n), s.Keeps config compress →
      (run (SharedSites.step (siteEnvironment config files compress stop)) s events).Keeps config compress := by
    intro events
    induction events with
    | nil => exact fun s hs => hs
    | cons e events ih => exact fun s hs => ih _ (hs.step e)
  refine hrun events _ ⟨⟨[], counts_zeroed config, fun id => rfl⟩, rfl, fun _ j r hj => ?_⟩
  rw [SharedSites.start, List.getElem?_nil] at hj
  cases hj

/-- **The connections answer as one.** In every run of any number of connections that share the data of the
sites, and whatever the order of their steps, each reply to a request is that of its site after all the hits
before it, of any connection, as long as no site has `2 ^ 23` hits. -/
theorem sharedSites_inOrder (config : SiteConfig) (files : FileSystem)
    (compress : Compression → Bytes → Bytes) (stop : Bytes → ℕ) (events : List (SharedEvent n))
    (hroom : ∀ id, hitsIn config (requestsOf
      (run (SharedSites.step (siteEnvironment config files compress stop)) (SharedSites.start n config)
        events).replied) id < 2 ^ 23) :
    InOrder config compress (run (SharedSites.step (siteEnvironment config files compress stop))
      (SharedSites.start n config) events).replied :=
  (sharedSites_keeps config files compress stop events).inOrder hroom

theorem length_replied_run (env : Environment VectorVhostManager) (events : List (SharedEvent n)) :
    ∀ s : SharedSites n, (run (SharedSites.step env) s events).replied.length ≤
      s.replied.length + events.length := by
  induction events with
  | nil => exact fun s => Nat.le_refl _
  | cons e events ih =>
    intro s
    have hone : (s.step env e).replied.length ≤ s.replied.length + 1 := by
      cases e with
      | connect i date clock => exact Nat.le_succ _
      | read i piece => exact Nat.le_succ _
      | round i date clock =>
        rw [SharedSites.step]
        split
        · obtain ⟨-, hempty⟩ | ⟨req, -, ⟨-, hempty⟩ | ⟨p, r, -, hone, -⟩⟩ :=
            round_cases env ((s.loops i).resume s.manager date clock)
          · simp [hempty]
          · simp [hempty]
          · simp [hone]
        · exact Nat.le_succ _
    have hrest := ih (s.step env e)
    have hrun : run (SharedSites.step env) s (e :: events) = run (SharedSites.step env) (s.step env e) events :=
      rfl
    rw [hrun, List.length_cons]
    omega

/-- Two connections whose rounds interleave. -/
theorem sharedSites_inOrder_two :
    let env := siteEnvironment { numSites := 2 } (fun _ => none) (fun _ text => text) parsedLength
    InOrder { numSites := 2 } (fun _ text => text) (run (SharedSites.step env) (.start 2 { numSites := 2 })
      [.read 0 sampleHead.octets, .read 1 sampleHead.octets, .round 1 .empty fun _ => 1,
        .round 0 .empty fun _ => 1]).replied := by
  intro env
  refine sharedSites_inOrder _ _ _ _ _ fun id => ?_
  have hlength := length_replied_run env [.read 0 sampleHead.octets, .read 1 sampleHead.octets,
    .round 1 .empty fun _ => 1, .round 0 .empty fun _ => 1] (.start 2 { numSites := 2 })
  have hle : hitsIn { numSites := 2 } (requestsOf (run (SharedSites.step env) (.start 2 { numSites := 2 })
      [.read 0 sampleHead.octets, .read 1 sampleHead.octets, .round 1 .empty fun _ => 1,
        .round 0 .empty fun _ => 1]).replied) id ≤ _ := List.countP_le_length
  rw [requestsOf, List.length_map] at hle
  simp only [List.length_cons, List.length_nil, SharedSites.start] at hlength
  exact lt_of_le_of_lt (hle.trans hlength) (by decide)

end InOrder

end VUbercool.Http
