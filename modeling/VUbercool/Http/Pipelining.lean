import VUbercool.Http.Plans

/-!
# Pipelined requests

* `lawful`: the loop keeps to what a `Reader` keeps to, so that every run of it ends.
* `serves_plans`: what becomes of a stream of requests is what was planned.
* **`pipelining`**: however a stream of requests is cut, the hosts are handed these requests.
* `Reached`: what is reached of a stream. **`sameReplies_iff`**: how a stream is cut makes no difference
  exactly if no request that is reached fills the buffer to the last octet.
-/

namespace VUbercool.Http

open Octets Reader

variable {η : Type} {env : Environment η}

/-! ## Verdicts -/

/-- What the loop makes of a request that was parsed. -/
def verdict (env : Environment η) (s : Session η) (req : HttpRequest) : Verdict (Session η) :=
  match { s with currentReq := req }.processRequest env with
  | (s, true) => .take req.requestLength s
  | (s, false) => .stop s

theorem look_some {b : Bytes} {req : HttpRequest} (h : parseHttpRequest env.grammar b = some req)
    (s : Session η) : look env s b = verdict env s req := by
  rw [look, h]
  rfl

theorem look_none {b : Bytes} (h : parseHttpRequest env.grammar b = none) (s : Session η) :
    look env s b = if bufferSize - 1 ≤ b.length ∨ eohMarker <:+: b then .stop (s.badRequest env)
      else .wait := by
  rw [look, h]

theorem verdict_eq (env : Environment η) (s : Session η) (req : HttpRequest) : verdict env s req =
    if ({ s with currentReq := req }.processRequest env).2 then
      .take req.requestLength ({ s with currentReq := req }.processRequest env).1
    else .stop ({ s with currentReq := req }.processRequest env).1 := by
  rw [verdict]
  split
  · next s' h =>
    rw [h]
    rfl
  · next s' h =>
    rw [h]
    rfl

theorem verdict_none {s : Session η} {req : HttpRequest} (hplan : plan env s.hosts req = none) :
    ∃ s', verdict env s req = .stop s' ∧ s'.sent = s.sent := by
  obtain ⟨hsent, hopen⟩ := @processRequest_plan η env { s with currentReq := req }
  simp only [hplan, Option.map_none, Option.toList_none, List.append_nil, Option.any_none] at hsent hopen
  refine ⟨_, ?_, hsent⟩
  rw [verdict_eq, hopen, if_neg Bool.false_ne_true]

theorem verdict_replied {s : Session η} {req : HttpRequest} {p : Plan}
    (hplan : plan env s.hosts req = some p) : ∃ s', Replied env s req p s' ∧
      verdict env s req = if p.closeOnReply then .stop s' else .take req.requestLength s' := by
  obtain ⟨-, hopen⟩ := @processRequest_plan η env { s with currentReq := req }
  obtain ⟨hsent, hhosts, hdate, hclock, hhandled⟩ :=
    @replied_processRequest η env { s with currentReq := req } p hplan
  simp only [hplan, Option.any_some] at hopen
  refine ⟨_, ⟨hsent, hhosts, hdate, hclock, hhandled⟩, ?_⟩
  rw [verdict_eq, hopen]
  cases p.closeOnReply with
  | true => rfl
  | false => rfl

theorem of_look_wait {s : Session η} {b : Bytes} (h : look env s b = .wait) :
    parseHttpRequest env.grammar b = none ∧ b.length < bufferSize - 1 ∧ ¬ eohMarker <:+: b := by
  cases hp : parseHttpRequest env.grammar b with
  | some req =>
    rw [look_some hp, verdict] at h
    split at h
    · cases h
    · cases h
  | none =>
    rw [look_none hp] at h
    split_ifs at h with hbad
    obtain ⟨hlen, heoh⟩ := not_or.mp hbad
    exact ⟨rfl, Nat.not_le.mp hlen, heoh⟩

theorem of_look_take {s s' : Session η} {b : Bytes} {n : ℕ} (h : look env s b = .take n s') :
    ∃ req, parseHttpRequest env.grammar b = some req ∧ n = req.requestLength ∧
      { s with currentReq := req }.processRequest env = (s', true) := by
  cases hp : parseHttpRequest env.grammar b with
  | some req =>
    rw [look_some hp, verdict] at h
    rcases hs : { s with currentReq := req }.processRequest env with ⟨s'', _ | _⟩
    · rw [hs] at h
      cases h
    · rw [hs] at h
      cases h
      exact ⟨req, rfl, rfl, hs⟩
  | none =>
    rw [look_none hp] at h
    split_ifs at h

section

variable (hg : PrefixDecided env.grammar)

include hg

/-- **The loop keeps to what readers keep to.** -/
theorem lawful : Lawful (look env) bufferSize where
  nil s := by
    have heoh : ¬ eohMarker <:+: [] := by decide
    rw [look_none (hg.noHead [] heoh), if_neg]
    rintro (h | h)
    · exact absurd h (by decide)
    · exact heoh h
  take_le h := by
    obtain ⟨req, hp, rfl, -⟩ := of_look_take h
    obtain ⟨r, rest, rfl, hr, -, hlen⟩ := hg.exists_head hp
    have := hr.length_le
    rw [hlen, List.length_append]
    omega
  mono {s p q} hpq _ h := by
    obtain ⟨-, hlen, heoh⟩ := of_look_wait h
    have heoh' : ¬ eohMarker <:+: p := fun h' => heoh (h'.trans hpq.isInfix)
    rw [look_none (hg.noHead p heoh'), if_neg]
    rintro (h' | h')
    · have := hpq.length_le
      omega
    · exact heoh' h'
  full h := lt_of_lt_of_le (of_look_wait h).2.1 (Nat.sub_le _ _)

theorem look_head {r : Bytes} (hr : Head r) {req : HttpRequest}
    (hp : parseHttpRequest env.grammar r = some req) (rest : Bytes) (s : Session η) :
    look env s (r ++ rest) = verdict env s req := by
  refine look_some ?_ s
  rw [hg.head r rest hr, hp]

theorem agree {s : Session η} {t : Bytes}
    (h : ∀ r rest, t = r ++ rest → Head r → (parseHttpRequest env.grammar r).isSome →
      r.length ≠ bufferSize) : Agree (look env) bufferSize s t := by
  intro p q hp hq hpc hqc hpw hqw
  by_cases hhead : ∃ r rest, t = r ++ rest ∧ Head r ∧ (parseHttpRequest env.grammar r).isSome ∧
      r.length ≤ bufferSize
  · obtain ⟨r, rest, rfl, hr, hsome, hle⟩ := hhead
    obtain ⟨req, hreq⟩ := Option.isSome_iff_exists.mp hsome
    have hne := h r rest rfl hr hsome
    -- before the request is complete the buffer is not full
    have hverdict : ∀ b, b <+: r ++ rest → look env s b ≠ .wait → look env s b = verdict env s req := by
      intro b hb hw
      by_cases hlt : b.length < r.length
      · have heoh := hr.not_infix hb hlt
        rw [look_none (hg.noHead b heoh), if_neg] at hw
        · exact absurd rfl hw
        · rintro (hfull | h')
          · omega
          · exact heoh h'
      · obtain ⟨b', rfl⟩ := List.prefix_of_prefix_length_le (List.prefix_append r rest) hb
          (Nat.not_lt.mp hlt)
        exact look_head hg hr hreq b' s
    rw [hverdict p hp hpw, hverdict q hq hqw]
  · -- whatever fits the buffer is no request
    have hverdict : ∀ b, b <+: t → b.length ≤ bufferSize → look env s b ≠ .wait →
        look env s b = .stop (s.badRequest env) := by
      rintro b ⟨b', rfl⟩ hbc hw
      cases hpb : parseHttpRequest env.grammar b with
      | some req =>
        obtain ⟨r, rest, rfl, hr, hreq, -⟩ := hg.exists_head hpb
        refine absurd ⟨r, rest ++ b', List.append_assoc _ _ _, hr, by rw [hreq]; rfl, ?_⟩ hhead
        rw [List.length_append] at hbc
        omega
      | none =>
        rw [look_none hpb] at hw ⊢
        split_ifs at hw ⊢
        · rfl
        · exact absurd rfl hw
    rw [hverdict p hp hpc hpw, hverdict q hq hqc hqw]

end

/-! ## Connections -/

section

variable (hg : PrefixDecided env.grammar)

include hg

/-- **Every run of a connection over pieces that fit ends, and amounts to what becomes of the stream.** -/
theorem exists_ends_serves {c : RequestLoop η} (hr : Ready (look env) bufferSize c.abs)
    {pieces : List Bytes} (hf : (RequestLoop.machine env).Fits bufferSize (c, pieces)) :
    ∃ c' rest, (RequestLoop.machine env).Ends (c, pieces) (c', rest) ∧
      Serves (look env) bufferSize c.session (c.buffered ++ pieces.flatten) (outcome c'.abs) := by
  obtain ⟨⟨r, rest⟩, hends⟩ := exists_ends (lawful hg) pieces c.abs
  obtain ⟨⟨c', rest'⟩, hends', heq⟩ := (RequestLoop.refines env).of_ends (p := (c, pieces)) hends
  cases heq
  have hf' := (RequestLoop.refines env).fits_iff.mpr hf
  exact ⟨c', rest', hends', serves_of_ends (lawful hg) hends hf' hr⟩

omit hg in
/-- A connection that is open at the end waits for more with what is left. -/
theorem waits_of_outcome {c₀ c : RequestLoop η} {pieces rest : List Bytes} {s : Session η}
    (hends : (RequestLoop.machine env).Ends (c₀, pieces) (c, rest)) (hout : outcome c.abs = (s, some [])) :
    rest = [] ∧ c.session = s ∧ c.isOpen = true ∧ c.requestBytes = 0 ∧ c.needModeData = true := by
  obtain ⟨hopen, hstate, hempty⟩ := of_outcome_some hout
  obtain ⟨hasks, hrest⟩ := Machine.waits_of_step_eq_none hends.2 hopen
  refine ⟨hrest, hstate, hopen, ?_, hasks⟩
  rw [← c.length_buffered]
  exact congrArg List.length hempty

theorem ready_start (date : CachedDate) (clock : ℕ → Int) (hosts : η) :
    Ready (look env) bufferSize (start date clock hosts).abs :=
  ⟨rfl, Nat.zero_le _, fun _ => (lawful hg).nil _⟩

end

/-! ## What is reached of a stream -/

/-- **What is reached of a stream**: what is left of it after requests that are served and leave the
connection open. -/
inductive Reached (env : Environment η) : Session η → Bytes → Session η → Bytes → Prop
  | refl {s : Session η} {t : Bytes} : Reached env s t s t
  | next {s s' s'' : Session η} {r rest t : Bytes} {req : HttpRequest} : Head r →
      r.length ≤ bufferSize → parseHttpRequest env.grammar r = some req →
      { s with currentReq := req }.processRequest env = (s', true) → Reached env s' rest s'' t →
      Reached env s (r ++ rest) s'' t

theorem reached_of_leaves (hg : PrefixDecided env.grammar) {s s' : Session η} {t t' : Bytes}
    (h : Leaves (look env) bufferSize s t s' t') : Reached env s t s' t' := by
  induction h with
  | refl => exact .refl
  | take hp hc ht _ ih =>
    obtain ⟨b, rfl⟩ := hp
    obtain ⟨req, hparse, rfl, hserved⟩ := of_look_take ht
    obtain ⟨r, rest, rfl, hr, hreq, hlen⟩ := hg.exists_head hparse
    rw [List.append_assoc] at ih ⊢
    rw [hlen, List.drop_left] at ih
    rw [List.length_append] at hc
    exact .next hr (by omega) hreq hserved ih

theorem Reached.suffix {s s' : Session η} {t t' : Bytes} (h : Reached env s t s' t') : t' <:+ t := by
  induction h with
  | refl => exact List.suffix_rfl
  | next _ _ _ _ _ ih => exact ih.trans (List.suffix_append _ _)

theorem Reached.flatten {requests : List Bytes} (hheads : ∀ r ∈ requests, Head r) {s s' : Session η}
    {t : Bytes} (h : Reached env s requests.flatten s' t) :
    ∃ requests' : List Bytes, t = requests'.flatten ∧ ∀ r ∈ requests', r ∈ requests := by
  generalize hu : requests.flatten = u at h
  induction h generalizing requests with
  | refl => exact ⟨requests, hu.symm, fun _ hr => hr⟩
  | @next _ _ _ r rest _ _ hr _ _ _ _ ih =>
    cases requests with
    | nil =>
      have := hr.length_le
      obtain ⟨rfl, -⟩ := List.append_eq_nil_iff.mp hu.symm
      cases this
    | cons r' requests =>
      obtain rfl := (hheads r' List.mem_cons_self).unique hr hu
      obtain ⟨requests', ht, hmem⟩ := ih (fun q hq => hheads q (List.mem_cons_of_mem _ hq))
        (List.append_cancel_left hu)
      exact ⟨requests', ht, fun q hq => List.mem_cons_of_mem _ (hmem q hq)⟩

/-- **What becomes of a stream is unique** if no request that is reached fills the buffer to the last
octet. -/
theorem serves_unique (hg : PrefixDecided env.grammar) {s : Session η} {t : Bytes}
    (h : ∀ s' r rest, Reached env s t s' (r ++ rest) → Head r →
      (parseHttpRequest env.grammar r).isSome → r.length ≠ bufferSize)
    {e e' : Session η × Option Bytes} (hserves : Serves (look env) bufferSize s t e)
    (hserves' : Serves (look env) bufferSize s t e') : e = e' := by
  refine hserves.unique hserves' fun s' t' hleaves => agree hg fun r rest ht hr hsome => ?_
  subst ht
  exact h s' r rest (reached_of_leaves hg hleaves) hr hsome

/-! ## A parser -/

/-- The head of a sample request. -/
def sampleText : Bytes := ascii "GET / HTTP/1.1\r\nHost: 1.a\r\n"

/-- Where the head that the octets begin with ends. -/
def headLength (b : Bytes) : Option ℕ :=
  (List.range (b.length + 1)).find? fun n => eohMarker <:+ b.take n

theorem headLength_head {r : Bytes} (hr : Head r) (rest : Bytes) :
    headLength (r ++ rest) = some r.length := by
  rw [headLength, List.find?_range_eq_some]
  refine ⟨?_, ?_, fun n hn => ?_⟩
  · rw [List.take_left]
    simpa using hr.ends
  · rw [List.mem_range, List.length_append]
    omega
  · have hp : (r ++ rest).take n <+: r ++ rest := List.take_prefix _ _
    have heoh := hr.not_infix hp (lt_of_le_of_lt (List.length_take_le _ _) hn)
    simpa using fun h => heoh (List.IsSuffix.isInfix h)

theorem headLength_none {b : Bytes} (h : ¬ eohMarker <:+: b) : headLength b = none := by
  rw [headLength, List.find?_eq_none]
  intro n _ hn
  have hs : eohMarker <:+ b.take n := by simpa using hn
  exact h (hs.isInfix.trans (List.take_prefix _ _).isInfix)

/-- A grammar of the requests that begin like the sample one. -/
def sampleGrammar : Grammar := fun b own =>
  match headLength b with
  | some n =>
    if sampleText <+: b.take n then
      (some n, { own with version := .http11, method := .get, uri := ascii "/", host := ascii "1.a" })
    else (none, own)
  | none => (none, own)

theorem prefixDecided_sampleGrammar : PrefixDecided sampleGrammar where
  noHead b h := by rw [parseHttpRequest, sampleGrammar, headLength_none h]
  head r rest hr := by
    have hself := headLength_head hr []
    rw [List.append_nil] at hself
    simp only [parseHttpRequest, sampleGrammar, headLength_head hr rest, hself, List.take_left,
      List.take_length]
  length r req hr h := by
    have hself := headLength_head hr []
    rw [List.append_nil] at hself
    simp only [parseHttpRequest, sampleGrammar, hself] at h
    split_ifs at h
    cases h
    rfl

/-- One host that answers everything. -/
def sampleEnvironment : Environment Unit where
  grammar := sampleGrammar
  compress _ text := text
  config := {}
  getHost _ := some 1
  processRequest _ _ _ := (⟨ascii "Hello", .ok⟩, ())

/-! ## Streams of requests -/

/-- **What becomes of a stream of requests**: what was planned for them is sent, and the connection is open
with an empty buffer after them unless one of the replies closes it. -/
theorem serves_plans {α : Type} {octets : α → Bytes} {parsed : α → HttpRequest}
    (hnil : ∀ s, look env s [] = .wait) {as : List α} {s : Session η}
    (has : ∀ a ∈ as, (octets a).length ≤ bufferSize ∧
      parseHttpRequest env.grammar (octets a) = some (parsed a) ∧
      (parsed a).requestLength = (octets a).length) :
    ∃ s', Serves (look env) bufferSize s (as.flatMap octets)
        (s', if (plans env s.hosts (as.map parsed)).2 then some [] else none) ∧
      s'.sent = s.sent ++ sents s.date s.clock (plans env s.hosts (as.map parsed)).1 ∧
      ((plans env s.hosts (as.map parsed)).2 = true → s'.handled.map (Prod.map some id) =
        s.handled.map (Prod.map some id) ++ (as.map parsed).map fun req => (env.getHost req.host, req)) := by
  induction as generalizing s with
  | nil =>
    refine ⟨s, .wait fun p hp _ => ?_, (List.append_nil _).symm, fun _ => (List.append_nil _).symm⟩
    rw [List.flatMap_nil] at hp
    rw [List.prefix_nil.mp hp]
    exact hnil s
  | cons a as ih =>
    obtain ⟨⟨hle, hparse, hlength⟩, hrest⟩ := List.forall_mem_cons.mp has
    have hlook := look_some hparse s
    have hprefix : octets a <+: (a :: as).flatMap octets := by
      rw [List.flatMap_cons]
      exact List.prefix_append ..
    rw [List.map_cons, plans]
    cases hplan : plan env s.hosts (parsed a) with
    | none =>
      obtain ⟨s', hverdict, hsent⟩ := verdict_none hplan
      refine ⟨s', .stop hprefix hle (hlook.trans hverdict), hsent.trans (List.append_nil _).symm, ?_⟩
      rintro h
      cases h
    | some p =>
      obtain ⟨s', hreplied, hverdict⟩ := verdict_replied hplan
      cases hclose : p.closeOnReply with
      | true =>
        -- the last reply
        rw [hclose, if_pos rfl] at hverdict
        simp only [hclose, if_true]
        refine ⟨s', .stop hprefix hle (hlook.trans hverdict), hreplied.sent, ?_⟩
        rintro h
        cases h
      | false =>
        -- the connection stays open
        rw [hclose, if_neg Bool.false_ne_true] at hverdict
        obtain ⟨s'', hserves, hsent, hhandled⟩ := ih hrest (s := s')
        rw [hreplied.hosts] at hserves hsent hhandled
        rw [hreplied.date, hreplied.clock, hreplied.sent] at hsent
        simp only [hclose, Bool.false_eq_true, if_false]
        refine ⟨s'', .take hprefix hle (hlook.trans hverdict) ?_, ?_, fun hopen => ?_⟩
        · rwa [List.flatMap_cons, hlength, List.drop_left]
        · rw [hsent, List.append_assoc]
          rfl
        · rw [hhandled hopen, hreplied.handled, List.append_assoc]
          rfl

/-! ## Requests that are answered -/

/-- **The hosts answer every request normally**, one after the other. -/
def Answers (env : Environment η) : η → List HttpRequest → Prop
  | _, [] => True
  | hosts, req :: reqs => ∃ host, env.getHost req.host = some host ∧
      (env.processRequest host req hosts).1.outcome = .ok ∧
      Answers env (env.processRequest host req hosts).2 reqs

theorem plans_of_answers {reqs : List HttpRequest} {hosts : η}
    (hversions : ∀ req ∈ reqs, req.version = .http11) (hanswers : Answers env hosts reqs) :
    (plans env hosts reqs).2 = true ∧
      (plans env hosts reqs).1.map (fun p => p.1.code) = reqs.map fun _ => 200 := by
  induction reqs generalizing hosts with
  | nil => exact ⟨rfl, rfl⟩
  | cons req reqs ih =>
    obtain ⟨hversion, hversions⟩ := List.forall_mem_cons.mp hversions
    obtain ⟨host, hhost, hok, hanswers⟩ := hanswers
    have hopen : req.closeOnReply = false := by rw [HttpRequest.closeOnReply, hversion]; rfl
    have hafter : hostsAfter env hosts req = (env.processRequest host req hosts).2 := by
      rw [hostsAfter, hhost]
    rw [plans, plan, hhost]
    simp only [hok, hopen, hafter, Bool.false_eq_true, if_false, List.map_cons]
    obtain ⟨hrest, hcodes⟩ := ih hversions hanswers
    exact ⟨hrest, congrArg (200 :: ·) hcodes⟩

theorem parsed_of_map {requests : List Bytes} {reqs : List HttpRequest}
    (hparse : requests.map (parseHttpRequest env.grammar) = reqs.map some) :
    ∃ parsed : Bytes → HttpRequest, reqs = requests.map parsed ∧
      ∀ r ∈ requests, parseHttpRequest env.grammar r = some (parsed r) := by
  refine ⟨fun r => (parseHttpRequest env.grammar r).getD {}, ?_, fun r hr => ?_⟩
  · have hget := congrArg (List.map fun o => Option.getD o {}) hparse
    rw [List.map_map, List.map_map] at hget
    exact (hget.trans (List.map_id reqs)).symm
  · have hmem : parseHttpRequest env.grammar r ∈ reqs.map some := hparse ▸ List.mem_map_of_mem hr
    obtain ⟨req, -, hreq⟩ := List.mem_map.mp hmem
    simp only [← hreq, Option.getD_some]

/-- **Pipelined requests are neither lost nor duplicated nor reordered**: however a stream of requests of
the current version that their hosts answer is cut into pieces that fit the buffer, the hosts are handed
these requests, every one gets the reply that was planned for it, and the connection waits for more with an
empty buffer. -/
theorem pipelining (env : Environment η) (hg : PrefixDecided env.grammar) (date : CachedDate)
    (clock : ℕ → Int) (hosts : η) (requests : List Bytes) (reqs : List HttpRequest)
    (hparse : requests.map (parseHttpRequest env.grammar) = reqs.map some)
    (hheads : ∀ r ∈ requests, Head r ∧ r.length ≤ 8191)
    (hversions : ∀ req ∈ reqs, req.version = .http11) (hanswers : Answers env hosts reqs)
    (pieces : List Bytes) (hpieces : pieces.flatten = requests.flatten)
    (hfits : (RequestLoop.machine env).Fits bufferSize (start date clock hosts, pieces)) :
    ∃ c, (RequestLoop.machine env).Ends (start date clock hosts, pieces) (c, []) ∧
      c.session.handled.map (Prod.map some id) = reqs.map (fun req => (env.getHost req.host, req)) ∧
      c.session.sent = sents date clock (plans env hosts reqs).1 ∧
      c.session.sent.map Sent.code = reqs.map (fun _ => 200) ∧
      c.isOpen = true ∧ c.requestBytes = 0 ∧ c.needModeData = true := by
  obtain ⟨c, rest, hends, hserves⟩ := exists_ends_serves hg (ready_start hg date clock hosts) hfits
  obtain ⟨parsed, rfl, hparsed⟩ := parsed_of_map hparse
  obtain ⟨s', hserves', hsent, hhandled⟩ := @serves_plans η env Bytes id parsed (lawful hg).nil requests
    (start date clock hosts).session fun r hr => ⟨(hheads r hr).2.trans (by decide), hparsed r hr,
      hg.length r _ (hheads r hr).1 (hparsed r hr)⟩
  obtain ⟨hplans, hcodes⟩ := plans_of_answers hversions hanswers
  have hopened : (plans env (start date clock hosts).session.hosts (requests.map parsed)).2 = true := hplans
  rw [List.flatMap_id, if_pos hopened] at hserves'
  have hstream : (start date clock hosts).buffered ++ pieces.flatten = requests.flatten := by
    rw [hpieces]
    rfl
  rw [hstream] at hserves
  have hout : outcome c.abs = (s', some []) := serves_unique hg (fun s r rest' hreached hr _ => by
    -- what is reached begins with one of the requests
    obtain ⟨requests', ht, hmem⟩ := hreached.flatten fun r hr => (hheads r hr).1
    cases requests' with
    | nil =>
      have := hr.length_le
      obtain ⟨rfl, -⟩ := List.append_eq_nil_iff.mp ht
      cases this
    | cons r' requests' =>
      obtain ⟨hr', hle⟩ := hheads r' (hmem r' List.mem_cons_self)
      obtain rfl := hr.unique hr' ht
      exact Nat.ne_of_lt (Nat.lt_of_le_of_lt hle (by decide))) hserves hserves'
  obtain ⟨rfl, hsession, hwaits⟩ := waits_of_outcome hends hout
  rw [← hsession] at hsent hhandled
  refine ⟨c, hends, hhandled hopened, hsent, ?_, hwaits⟩
  exact (congrArg _ hsent).trans ((code_sents _ date clock).trans hcodes)

/-- What the sample request without any other field is parsed to. -/
def sampleParsed : HttpRequest :=
  { version := .http11, method := .get, requestLength := 29, uri := ascii "/", host := ascii "1.a" }

/-- What the host answers to it. -/
def sampleHello : Plan := ⟨0, 200, ascii "OK", none, ascii "Hello", false⟩

/-- Two requests, octet by octet. -/
theorem pipelining_two :
    ∃ c, (RequestLoop.machine sampleEnvironment).Ends
        (start .empty (fun _ => 1) (), singles (sampleText ++ crlf ++ (sampleText ++ crlf))) (c, []) ∧
      c.session.handled.map (Prod.map some id) = [(some 1, sampleParsed), (some 1, sampleParsed)] ∧
      c.session.sent =
        sents .empty (fun _ => 1) [(sampleHello, sampleParsed), (sampleHello, sampleParsed)] ∧
      c.session.sent.map Sent.code = [200, 200] ∧
      c.isOpen = true ∧ c.requestBytes = 0 ∧ c.needModeData = true := by
  have hg : PrefixDecided sampleEnvironment.grammar := prefixDecided_sampleGrammar
  have hr : Head (sampleText ++ crlf) := ⟨by decide +kernel, by decide +kernel⟩
  have hfits := fits_singles (lawful hg) (ready_start hg .empty (fun _ => 1) ())
    (sampleText ++ crlf ++ (sampleText ++ crlf))
  exact pipelining sampleEnvironment hg .empty (fun _ => 1) ()
    [sampleText ++ crlf, sampleText ++ crlf] [sampleParsed, sampleParsed] (by decide +kernel)
    (by simpa using ⟨hr, by decide +kernel⟩) (by decide) ⟨1, rfl, rfl, 1, rfl, rfl, trivial⟩
    (singles (sampleText ++ crlf ++ (sampleText ++ crlf))) (by rw [flatten_singles]; simp)
    ((RequestLoop.refines _).fits_iff.mp hfits)

/-! ## Cuts that make a difference -/

/-- **How a stream is cut makes no difference**: every connection that reads it in pieces that fit the
buffer sends the same replies, and is open or closed after them. -/
def SameReplies (env : Environment η) (date : CachedDate) (clock : ℕ → Int) (hosts : η)
    (stream : Bytes) : Prop :=
  ∃ sent isOpen, ∀ pieces : List Bytes, pieces.flatten = stream →
    (RequestLoop.machine env).Fits bufferSize (start date clock hosts, pieces) →
    ∃ c rest, (RequestLoop.machine env).Ends (start date clock hosts, pieces) (c, rest) ∧
      c.session.sent = sent ∧ c.isOpen = isOpen

/-- What is reached of a stream is reached by a cut that reads request by request. -/
theorem Reached.cut (hg : PrefixDecided env.grammar) {s s' : Session η} {t t' : Bytes}
    (h : Reached env s t s' t') : ∃ pieces : List Bytes, pieces.flatten ++ t' = t ∧ ∀ rest,
      ((Reader.machine (look env)).Fits bufferSize (fresh s', rest) →
        (Reader.machine (look env)).Fits bufferSize (fresh s, pieces ++ rest)) ∧
      ∀ e, (Reader.machine (look env)).Ends (fresh s', rest) e →
        (Reader.machine (look env)).Ends (fresh s, pieces ++ rest) e := by
  induction h with
  | refl => exact ⟨[], rfl, fun _ => ⟨id, fun _ => id⟩⟩
  | @next s s₁ s' r rest t' req hr hle hreq hserved _ ih =>
    obtain ⟨pieces, rfl, hpieces⟩ := ih
    have hlook : look env s r = .take r.length s₁ := by
      rw [look_some hreq, verdict, hserved, hg.length r req hr hreq]
    have hne : r ≠ [] := by
      rintro rfl
      cases hr.length_le
    refine ⟨r :: pieces, by simp, fun rest => ?_⟩
    obtain ⟨hfits, hends⟩ := hpieces rest
    rw [← round_fresh hlook] at hfits hends
    refine ⟨fun hf => .cons rfl rfl hne ?_ (hfits hf), fun e he => .head (Machine.step_read rfl rfl _ _)
      (hends e he)⟩
    exact (Nat.zero_add _).trans_le hle

theorem sent_of_serves {s : Session η} {t : Bytes} {e : Session η × Option Bytes}
    (h : Serves (look env) bufferSize s t e) : s.sent <+: e.1.sent := by
  have hkeep : ∀ (s : Session η) (req : HttpRequest),
      s.sent <+: ({ s with currentReq := req }.processRequest env).1.sent := fun s req => by
    rcases @Session.sent_processRequest η env { s with currentReq := req } with
      ⟨x, -, hx⟩ | ⟨hx, -⟩
    · rw [hx]
      exact List.prefix_append _ _
    · rw [hx]
  refine h.keeps (R := fun s s' => s.sent <+: s'.sent) (fun _ => List.prefix_rfl)
    (fun {a b d} (h : a.sent <+: b.sent) (h' : b.sent <+: d.sent) => h.trans h')
    (fun {s p n s'} ht => ?_) (fun {s p s'} hs => ?_)
  · obtain ⟨req, -, -, hserved⟩ := of_look_take ht
    have := hkeep s req
    rwa [hserved] at this
  · cases hp : parseHttpRequest env.grammar p with
    | some req =>
      have := hkeep s req
      rw [look_some hp, verdict] at hs
      split at hs
      · cases hs
      · rename_i heq
        cases hs
        rwa [heq] at this
    | none =>
      rw [look_none hp] at hs
      split_ifs at hs
      cases hs
      exact List.prefix_append _ _

section

variable (hg : PrefixDecided env.grammar)

include hg

theorem sent_at_once {s : Session η} {r : Bytes} (hr : Head r) (hlen : r.length = bufferSize)
    {req : HttpRequest} (hreq : parseHttpRequest env.grammar r = some req) (rest : Bytes) :
    (Reader.machine (look env)).Fits bufferSize (fresh s, r :: singles rest) ∧
      ∃ e, (Reader.machine (look env)).Ends (fresh s, r :: singles rest) e ∧
        ∀ x, e.1.state.sent = s.sent ++ [x] → x.code ≠ 400 := by
  have hlook : look env s r = verdict env s req := look_some hreq s
  have hread : 0 + r.length ≤ bufferSize := (Nat.zero_add _).trans_le hlen.le
  have hne : r ≠ [] := by
    rintro rfl
    cases hr.length_le
  have hsent := @Session.sent_processRequest η env { s with currentReq := req }
  rw [verdict, hg.length r req hr hreq] at hlook
  rcases hserved : { s with currentReq := req }.processRequest env with ⟨s', _ | _⟩
  · -- the connection closes
    rw [hserved] at hlook hsent
    have hround := round_fresh_stop hlook
    refine ⟨.cons rfl rfl hne hread (.closed (by rw [hround]; rfl)), (_, singles rest),
      .head (Machine.step_read rfl rfl _ _) ⟨.refl, Machine.step_closed (by rw [hround]; rfl)⟩,
      fun x hx => ?_⟩
    rw [hround] at hx
    rcases hsent with ⟨y, hy, hs⟩ | ⟨hs, -⟩
    · rw [hs] at hx
      obtain rfl := List.singleton_inj.mp (List.append_cancel_left hx)
      exact hy
    · rw [hs] at hx
      simp at hx
  · -- the connection goes on
    rw [hserved] at hlook hsent
    have hround := round_fresh hlook
    have hready : Ready (look env) bufferSize (fresh s') :=
      ⟨rfl, Nat.zero_le _, fun _ => (lawful hg).nil _⟩
    have hfits := fits_singles (lawful hg) hready rest
    obtain ⟨e, hends⟩ := exists_ends (lawful hg) (singles rest) (fresh s')
    refine ⟨.cons rfl rfl hne hread (by rwa [hround]), e,
      .head (Machine.step_read rfl rfl _ _) (by rwa [hround]), fun x hx => ?_⟩
    have hprefix : s'.sent <+: e.1.state.sent :=
      sent_of_serves (serves_of_ends (lawful hg) hends hfits hready)
    rcases hsent with ⟨y, hy, hs⟩ | ⟨-, hclosed⟩
    · rw [hx, hs, List.prefix_append_right_inj] at hprefix
      obtain rfl : y = x := by simpa using hprefix
      exact hy
    · cases hclosed

omit hg in
theorem sent_cut {s : Session η} {r : Bytes} (hlen : r.length = bufferSize)
    (hnone : parseHttpRequest env.grammar (r.take (bufferSize - 1)) = none) (rest : Bytes) :
    let pieces := [r.take (bufferSize - 1), r.drop (bufferSize - 1) ++ rest]
    (Reader.machine (look env)).Fits bufferSize (fresh s, pieces) ∧
      ∃ e, (Reader.machine (look env)).Ends (fresh s, pieces) e ∧
        ∃ x, e.1.state.sent = s.sent ++ [x] ∧ x.code = 400 := by
  have hpiece : (r.take (bufferSize - 1)).length = bufferSize - 1 := by
    rw [List.length_take, hlen]
    exact min_eq_left (Nat.sub_le _ _)
  have hlook : look env s (r.take (bufferSize - 1)) = .stop (s.badRequest env) := by
    rw [look_none hnone, if_pos (.inl hpiece.ge)]
  have hround := round_fresh_stop hlook
  refine ⟨.cons rfl rfl ?_ ?_ (.closed (by rw [hround]; rfl)), (_, _),
    .head (Machine.step_read rfl rfl _ _) ⟨.refl, Machine.step_closed (by rw [hround]; rfl)⟩, ?_⟩
  · intro h
    rw [h] at hpiece
    cases hpiece
  · exact (Nat.zero_add _).trans_le (hpiece.trans_le (Nat.sub_le _ _))
  · rw [hround]
    exact ⟨_, rfl, rfl⟩

/-- **A request that fills the buffer to the last octet may be cut so that it makes a difference.** -/
theorem not_sameReplies_of_reached {date : CachedDate} {clock : ℕ → Int} {hosts : η} {stream : Bytes}
    {s : Session η} {r rest : Bytes}
    (hreached : Reached env (start date clock hosts).session stream s (r ++ rest)) (hr : Head r)
    (hsome : (parseHttpRequest env.grammar r).isSome) (hlen : r.length = bufferSize) :
    ¬ SameReplies env date clock hosts stream := by
  rintro ⟨sent, isOpen, hsame⟩
  have hrefines := RequestLoop.refines env
  obtain ⟨req, hreq⟩ := Option.isSome_iff_exists.mp hsome
  obtain ⟨pieces, rfl, hcut⟩ := hreached.cut hg
  -- whatever the cut, this is what is sent
  have hsent : ∀ tail e, (pieces ++ tail).flatten = pieces.flatten ++ (r ++ rest) →
      (Reader.machine (look env)).Fits bufferSize (fresh s, tail) →
      (Reader.machine (look env)).Ends (fresh s, tail) e → e.1.state.sent = sent := by
    intro tail e hflat hfits hends
    obtain ⟨c, rest', hc, rfl, -⟩ := hsame (pieces ++ tail) hflat
      (hrefines.fits_iff.mp ((hcut tail).1 hfits))
    have heq := (hrefines.ends hc).unique ((hcut tail).2 e hends)
    rw [← heq]
    rfl
  obtain ⟨hfits, e, hends, hnot⟩ := sent_at_once hg (s := s) hr hlen hreq rest
  have hnone : parseHttpRequest env.grammar (r.take (bufferSize - 1)) = none := by
    have hp : r.take (bufferSize - 1) <+: r ++ [] := by
      rw [List.append_nil]
      exact List.take_prefix _ _
    refine hg.noHead _ (hr.not_infix hp ?_)
    rw [List.length_take, hlen]
    decide
  obtain ⟨hfits', e', hends', x, hx, hcode⟩ := sent_cut (s := s) hlen hnone rest
  have h := hsent _ e (by simp [flatten_singles]) hfits hends
  have h' := hsent _ e' (by simp [← List.append_assoc, List.take_append_drop]) hfits' hends'
  rw [← h', hx] at h
  exact hnot x h hcode

/-- **How a stream is cut makes no difference exactly if no request that is reached and would be parsed
fills the buffer to the last octet.** -/
theorem sameReplies_iff (date : CachedDate) (clock : ℕ → Int) (hosts : η) (stream : Bytes) :
    SameReplies env date clock hosts stream ↔
      ∀ s r rest, Reached env (start date clock hosts).session stream s (r ++ rest) → Head r →
        (parseHttpRequest env.grammar r).isSome → r.length ≠ 8192 := by
  have hrefines := RequestLoop.refines env
  constructor
  · intro hsame s r rest hreached hr hsome hlen
    exact not_sameReplies_of_reached hg hreached hr hsome hlen hsame
  · intro h
    have hstart := ready_start hg date clock hosts
    have hsingles : (RequestLoop.machine env).Fits bufferSize (start date clock hosts, singles stream) :=
      hrefines.fits_iff.mp (fits_singles (lawful hg) hstart stream)
    obtain ⟨c₀, rest₀, -, hserves₀⟩ := exists_ends_serves hg hstart hsingles
    rw [flatten_singles] at hserves₀
    refine ⟨c₀.session.sent, c₀.isOpen, fun pieces hpieces hfits => ?_⟩
    obtain ⟨c, rest, hends, hserves⟩ := exists_ends_serves hg hstart hfits
    rw [hpieces] at hserves
    have hout : outcome c.abs = outcome c₀.abs := serves_unique hg h hserves hserves₀
    refine ⟨c, rest, hends, congrArg (fun e => e.1.sent) hout, ?_⟩
    have hopen := congrArg (fun e => e.2.isSome) hout
    exact (isSome_outcome c.abs).symm.trans (hopen.trans (isSome_outcome c₀.abs))

end

/-- A stream with nothing that fills the buffer. -/
theorem sameReplies_one :
    SameReplies sampleEnvironment .empty (fun _ => 1) () (sampleText ++ crlf) := by
  refine (sameReplies_iff prefixDecided_sampleGrammar .empty (fun _ => 1) () _).mpr
    fun s r rest hreached _ _ hlen => ?_
  have hle := hreached.suffix.length_le
  have hone : (sampleText ++ crlf).length = 29 := by decide +kernel
  rw [List.length_append, hlen, hone] at hle
  omega

theorem infix_of_notMem {m x y : Bytes} {a : UInt8} (ha : a ∉ m) (h : m <:+: x ++ a :: y) :
    m <:+: x ∨ m <:+: y := by
  have hcons : ∀ {l : Bytes}, l ⊆ m → l <+: a :: y → l = [] := fun {l} hl hp => by
    cases l with
    | nil => rfl
    | cons b l =>
      obtain ⟨rfl, -⟩ := List.cons_prefix_cons.mp hp
      exact absurd (hl List.mem_cons_self) ha
  rcases List.infix_append_iff.mp h with hx | hy | ⟨l, l', rfl, hl, hl'⟩
  · exact .inl hx
  · rcases List.infix_cons_iff.mp hy with hp | hy
    · rw [hcons (List.Subset.refl m) hp]
      exact .inl List.nil_infix
    · exact .inr hy
  · rw [hcons (List.subset_append_right l l') hl', List.append_nil]
    exact .inl hl.isInfix

/-- The sample request with a field that fills the buffer to the last octet. -/
def fullRequest : Bytes :=
  sampleText ++ ascii "X: " ++ List.replicate 8158 97 ++ eohMarker

theorem length_fullRequest : fullRequest.length = 8192 := by
  have hlen : (sampleText ++ ascii "X: ").length = 30 := by decide +kernel
  rw [fullRequest, List.length_append, List.length_append, List.length_replicate, hlen]
  rfl

theorem head_fullRequest : Head fullRequest := by
  refine ⟨List.suffix_append _ _, ?_⟩
  have hfill : ∀ k, ¬ eohMarker <:+: List.replicate k 97 ++ [13, 10, 13] := by
    intro k
    induction k with
    | zero => decide
    | succ k ih =>
      intro h
      rcases infix_of_notMem (x := []) (by decide) h with h | h
      · exact absurd h (by decide)
      · exact ih h
  have hdrop : fullRequest.dropLast =
      (sampleText ++ ascii "X: ") ++ 97 :: (List.replicate 8157 97 ++ [13, 10, 13]) := by
    rw [fullRequest, List.dropLast_append_of_ne_nil (by decide), List.append_assoc]
    rfl
  rw [hdrop]
  intro h
  rcases infix_of_notMem (by decide) h with h | h
  · exact absurd h (by decide +kernel)
  · exact hfill _ h

/-- **The same request gets 200 when it is read at once, and 400 when its last octet comes later.** -/
theorem not_sameReplies : PrefixDecided sampleEnvironment.grammar ∧
    ¬ SameReplies sampleEnvironment .empty (fun _ => 1) () fullRequest := by
  have hparse : (parseHttpRequest sampleGrammar fullRequest).isSome := by
    have hhead := headLength_head head_fullRequest []
    rw [List.append_nil] at hhead
    have htext : sampleText <+: fullRequest := by
      rw [fullRequest, List.append_assoc, List.append_assoc]
      exact List.prefix_append _ _
    rw [parseHttpRequest, sampleGrammar, hhead]
    simp only [List.take_length, if_pos htext, Option.isSome_some]
  have hreached : Reached sampleEnvironment (start .empty (fun _ => 1) ()).session fullRequest
      (start .empty (fun _ => 1) ()).session (fullRequest ++ []) := by
    rw [List.append_nil]
    exact .refl
  refine ⟨prefixDecided_sampleGrammar,
    not_sameReplies_of_reached prefixDecided_sampleGrammar hreached head_fullRequest hparse
      length_fullRequest⟩

end VUbercool.Http
