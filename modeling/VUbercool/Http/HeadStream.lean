import VUbercool.Http.HeadTaken
import VUbercool.Http.Pipelining

/-!
# Streams of requests

The connection with its own parser, on which `Pipelining` puts conditions that this parser does not keep.

* `ReadsHeads`: `tokenize_and_parse` leaves its iterator right after the last token that is matched.
* `not_infix_head`: a head ends with its first empty line, unless a line break stands for its version.
* **`head_pipelining`**: however a stream of heads is cut, the hosts are handed what they say.
* **`head_sameReplies_iff`**: when it makes no difference how a stream is cut.
-/

namespace VUbercool.Http

open Octets Reader

/-! ## Where heads end -/

section Ends

variable {s v : Bytes}

/-- No line break is followed by another one at once. -/
def NoReturn (s : Bytes) : Prop := ¬ [10, 13] <:+: s

theorem noReturn_nil : NoReturn [] := by
  unfold NoReturn
  decide

theorem noReturn_cons {c : UInt8} (hs : NoReturn s) (h : c ≠ 10 ∨ s.head? ≠ some 13) :
    NoReturn (c :: s) := by
  intro hin
  obtain hpre | hin := List.infix_cons_iff.mp hin
  · obtain ⟨hc, hpre⟩ := List.cons_prefix_cons.mp hpre
    obtain h | h := h
    · exact h hc.symm
    · obtain ⟨r, rfl⟩ := hpre
      exact h rfl
  · exact hs hin

theorem noReturn_append {x : Bytes} (hx : 10 ∉ x) (hs : NoReturn s) : NoReturn (x ++ s) := by
  induction x with
  | nil => exact hs
  | cons c x ih =>
    obtain ⟨hc, hx⟩ := not_or.mp (List.mem_cons.not.mp hx)
    exact noReturn_cons (ih hx) (.inl (Ne.symm hc))

theorem noReturn_break (hs : NoReturn s) (hhead : s.head? ≠ some 13) : NoReturn (13 :: 10 :: s) :=
  noReturn_cons (noReturn_cons hs (.inr hhead)) (.inl (by decide))

theorem noReturn_content (hv : isContent v = true) (hs : NoReturn s) : NoReturn (v ++ s) := by
  induction hn : v.length using Nat.strongRecOn generalizing v with
  | ind n ih =>
    obtain rfl | ⟨v, rfl, hv'⟩ | ⟨c, v, rfl, hc, hv'⟩ := isContent_cases hv
    · exact hs
    · have hrest := ih v.length (by simp [← hn]; omega) hv' rfl
      exact noReturn_break (noReturn_cons hrest (.inl (by decide))) (by simp)
    · have hne : c ≠ 10 := by
        rintro rfl
        exact absurd hc (by decide)
      exact noReturn_cons (ih v.length (by simp [← hn]) hv' rfl) (.inl hne)

theorem notMem_codings {p : Place} (hv : isCodings p v = true) : 10 ∉ v := by
  induction hn : v.length using Nat.strongRecOn generalizing v p with
  | ind n ih =>
    have hne : ∀ {f : UInt8 → Bool} {c : UInt8}, f c = true → f 10 = false → 10 ≠ c := by
      rintro f c hc h rfl
      rw [h] at hc
      cases hc
    obtain rfl | ⟨c, v, rfl, hc, hv⟩ | ⟨c, v, rfl, hc, hv⟩ | ⟨d, e, v, rfl, -, hd, he, hv⟩ |
      ⟨v, rfl, -, hv⟩ := isCodings_cases hv
    · exact List.not_mem_nil
    · have hrest := ih v.length (by simp [← hn]) hv rfl
      simp [hrest, hne hc (by decide)]
    · have hrest := ih v.length (by simp [← hn]) hv rfl
      simp [hrest, hne hc (by decide)]
    · have hrest := ih v.length (by simp [← hn]; omega) hv rfl
      simp [hrest, hne hd (by decide), hne he (by decide)]
    · have hrest := ih v.length (by simp [← hn]) hv rfl
      simp [hrest]

theorem Spelling.notMem {name : Bytes} (x : Spelling name) (h : 10 ∉ name) : 10 ∉ x.octets := by
  rw [← mem_lowered (by decide), x.lowered_eq]
  exact h

theorem Word.notMem (w : Word) : 10 ∉ w.octets := fun h => absurd (w.visible 10 h) (by decide)

theorem Blanks.notMem (b : Blanks) : 10 ∉ b.octets := fun h => absurd (b.blank 10 h) (by decide)

theorem noReturn_headerLine (l : HeaderLine) (hs : NoReturn s) (hhead : s.head? ≠ some 13) :
    NoReturn (l.octets ++ s) := by
  have hbreak := noReturn_break hs hhead
  cases l with
  | host name before value after =>
    rw [HeaderLine.octets]
    simp only [List.append_assoc, List.cons_append, List.nil_append]
    refine noReturn_append (name.notMem (by decide)) (noReturn_cons ?_ (.inl (by decide)))
    exact noReturn_content before.content (noReturn_append value.notMem
      (noReturn_content after.content hbreak))
  | dnt name before on after =>
    rw [HeaderLine.octets]
    simp only [List.append_assoc, List.cons_append, List.nil_append]
    refine noReturn_append (name.notMem (by decide)) (noReturn_append before.notMem ?_)
    refine noReturn_cons (noReturn_append after.notMem hbreak) (.inl ?_)
    cases on <;> decide
  | acceptEncoding name value =>
    rw [HeaderLine.octets]
    simp only [List.append_assoc, List.cons_append, List.nil_append]
    exact noReturn_append (name.notMem (by decide)) (noReturn_append (notMem_codings value.codings) hbreak)
  | other name value =>
    rw [HeaderLine.octets]
    simp only [List.append_assoc, List.cons_append, List.nil_append]
    have hname : 10 ∉ name.octets := fun h => absurd (name.other.chars 10 h) (by decide)
    exact noReturn_append hname (noReturn_cons (noReturn_content value.content hbreak) (.inl (by decide)))

theorem noReturn_headerLines (ls : List HeaderLine) : NoReturn (ls.flatMap HeaderLine.octets) ∧
    (ls.flatMap HeaderLine.octets).head? ≠ some 13 := by
  induction ls with
  | nil => exact ⟨noReturn_nil, by simp⟩
  | cons l ls ih =>
    rw [List.flatMap_cons]
    exact ⟨noReturn_headerLine l ih.1 ih.2, l.head?_ne (.inl rfl) _⟩

theorem HttpVersion.notMem (v : HttpVersion) : 10 ∉ v.octets := by
  cases v with
  | http10 name => exact name.notMem (by decide)
  | http11 name => exact name.notMem (by decide)

theorem not_infix_dropLast {w : Bytes} (hw : NoReturn w) : ¬ eohMarker <:+: (w ++ [13, 10]).dropLast := by
  have hdrop : (w ++ [13, 10]).dropLast = w ++ [13] := by simp
  rw [hdrop, List.infix_concat_iff]
  rintro (⟨x, hx⟩ | hin)
  · have hlast := congrArg List.getLast? hx
    rw [List.getLast?_append_of_ne_nil _ (by decide), List.getLast?_concat] at hlast
    cases hlast
  · exact hw (List.IsInfix.trans ⟨[13], [10], rfl⟩ hin)

/-- **A head ends with its first empty line**, unless a line break stands for its version. -/
theorem not_infix_head {h : RequestHead} (hversion : ∀ ls, h.ending ≠ .noVersion ls) :
    ¬ eohMarker <:+: h.octets.dropLast := by
  have hstart : ∀ {e : Bytes}, NoReturn e →
      NoReturn (h.method.octets ++ 32 :: (h.uri.octets ++ 32 :: e)) := fun he =>
    noReturn_append h.method.notMem (noReturn_cons (noReturn_append h.uri.notMem
      (noReturn_cons he (.inl (by decide)))) (.inl (by decide)))
  cases hending : h.ending with
  | lines version ls =>
    obtain ⟨hlines, hhead⟩ := noReturn_headerLines ls
    have hw := not_infix_dropLast (hstart (noReturn_append version.notMem (noReturn_break hlines hhead)))
    have htext : h.octets = h.method.octets ++ 32 :: (h.uri.octets ++ 32 :: (version.octets ++
        13 :: 10 :: ls.flatMap HeaderLine.octets)) ++ [13, 10] := by
      simp [RequestHead.octets, hending, Ending.octets]
    rwa [htext]
  | noVersion ls => exact absurd hending (hversion ls)
  | lineBreak version name =>
    have hw := not_infix_dropLast (hstart (noReturn_append version.notMem
      (noReturn_append (name.notMem (by decide)) noReturn_nil)))
    have htext : h.octets = h.method.octets ++ 32 :: (h.uri.octets ++ 32 :: (version.octets ++
        (name.octets ++ []))) ++ [13, 10] := by
      simp [RequestHead.octets, hending, Ending.octets]
    rwa [htext]
  | versions version name name' =>
    have hw := hstart (noReturn_append version.notMem (noReturn_append (name.notMem (by decide))
      (noReturn_append (name'.notMem (by decide)) noReturn_nil)))
    have htext : h.octets = h.method.octets ++ 32 :: (h.uri.octets ++ 32 :: (version.octets ++
        (name.octets ++ (name'.octets ++ [])))) := by
      simp [RequestHead.octets, hending, Ending.octets]
    rw [← htext] at hw
    exact fun hin => hw (List.IsInfix.trans ⟨[13], [10], rfl⟩
      (hin.trans (List.dropLast_prefix _).isInfix))

/-- **And else it goes on after its first empty line.** -/
theorem exists_empty_line {h : RequestHead} {ls : List HeaderLine} (hending : h.ending = .noVersion ls) :
    ∃ p, p <+: h.octets ∧ p.length < h.octets.length ∧ eohMarker <:+: p := by
  refine ⟨h.method.octets ++ 32 :: (h.uri.octets ++ 32 :: eohMarker), ?_, ?_, ?_⟩
  · refine ⟨ls.flatMap HeaderLine.octets ++ [13, 10], ?_⟩
    simp [RequestHead.octets, hending, Ending.octets, eohMarker]
  · simp [RequestHead.octets, hending, Ending.octets, eohMarker]
  · refine List.IsSuffix.isInfix ⟨h.method.octets ++ 32 :: (h.uri.octets ++ [32]), ?_⟩
    simp

end Ends

variable {η : Type} {env : Environment η}

/-! ## Verdicts -/

/-- The connection has its own parser. -/
def ReadsHeads (env : Environment η) : Prop :=
  ∃ stop, env.grammar = requestGrammar stop ∧ StopsAfterHead stop

theorem RequestHead.octets_ne_nil (h : RequestHead) : h.octets ≠ [] := by
  simp [RequestHead.octets]

theorem RequestHead.version_parsed (h : RequestHead) : h.parsed.version = h.ending.version := by
  have hfold : ∀ (ls : List HeaderLine) (req : HttpRequest),
      (ls.foldl HeaderLine.apply req).version = req.version := by
    intro ls
    induction ls with
    | nil => exact fun _ => rfl
    | cons l ls ih =>
      intro req
      rw [List.foldl_cons, ih]
      cases l <;> rfl
  exact hfold _ _

/-- **A head that fits the buffer and whose octets are not taken for a bad request** while they come in: it
does not fill the buffer to the last octet, and no line break stands for its version. -/
structure RequestHead.Steady (h : RequestHead) : Prop where
  length : h.octets.length ≠ bufferSize
  version : ∀ ls, h.ending ≠ .noVersion ls

section Verdicts

variable (henv : ReadsHeads env)

include henv

theorem parse_head (h : RequestHead) (rest : Bytes) :
    parseHttpRequest env.grammar (h.octets ++ rest) = some h.parsed := by
  obtain ⟨stop, hgrammar, hstop⟩ := henv
  rw [hgrammar]
  exact head_parsed hstop h rest

theorem exists_of_parse {b : Bytes} {req : HttpRequest} (hp : parseHttpRequest env.grammar b = some req) :
    ∃ h : RequestHead, h.octets <+: b ∧ req = h.parsed := by
  obtain ⟨stop, hgrammar, -⟩ := id henv
  have hp' := hp
  rw [hgrammar] at hp'
  obtain ⟨h, rest, rfl⟩ := exists_head_of_accepted hp'
  rw [parse_head henv] at hp
  exact ⟨h, List.prefix_append .., (Option.some.inj hp).symm⟩

theorem parse_of_lt {h : RequestHead} {p rest : Bytes} (hp : p <+: h.octets ++ rest)
    (hlt : p.length < h.octets.length) : parseHttpRequest env.grammar p = none := by
  rw [Option.eq_none_iff_forall_ne_some]
  intro req hparse
  obtain ⟨h', hpre, -⟩ := exists_of_parse henv hparse
  have hpre' : h'.octets <+: h.octets :=
    List.prefix_of_prefix_length_le (hpre.trans hp) (List.prefix_append ..) (hpre.length_le.trans hlt.le)
  have hlength := congrArg List.length (head_unique hpre').1
  have hle := hpre.length_le
  omega

theorem lawful_of_heads : Lawful (look env) bufferSize where
  nil s := by
    have hnone : parseHttpRequest env.grammar [] = none := by
      rw [Option.eq_none_iff_forall_ne_some]
      intro req hparse
      obtain ⟨h, hpre, -⟩ := exists_of_parse henv hparse
      exact h.octets_ne_nil (List.prefix_nil.mp hpre)
    rw [look_none hnone, if_neg (by decide)]
  take_le h := by
    obtain ⟨req, hp, rfl, -⟩ := of_look_take h
    obtain ⟨g, hpre, rfl⟩ := exists_of_parse henv hp
    exact ⟨List.length_pos_iff.mpr g.octets_ne_nil, hpre.length_le⟩
  mono {s p q} hpq _ h := by
    obtain ⟨hnone, hlen, heoh⟩ := of_look_wait h
    have hnone' : parseHttpRequest env.grammar p = none := by
      rw [Option.eq_none_iff_forall_ne_some]
      intro req hparse
      obtain ⟨g, hpre, -⟩ := exists_of_parse henv hparse
      obtain ⟨rest, rfl⟩ := hpre.trans hpq
      rw [parse_head henv] at hnone
      cases hnone
    rw [look_none hnone', if_neg]
    rintro (hfull | hin)
    · have := hpq.length_le
      omega
    · exact heoh (hin.trans hpq.isInfix)
  full h := lt_of_lt_of_le (of_look_wait h).2.1 (Nat.sub_le _ _)

theorem look_of_head (h : RequestHead) (rest : Bytes) (s : Session η) :
    look env s (h.octets ++ rest) = verdict env s h.parsed := look_some (parse_head henv h rest) s

/-- **The verdicts on the beginnings of a stream agree** unless it begins with a head that is not steady. -/
theorem agree_of_heads {s : Session η} {t : Bytes}
    (h : ∀ (g : RequestHead) rest, t = g.octets ++ rest → g.octets.length ≤ bufferSize → g.Steady) :
    Agree (look env) bufferSize s t := by
  intro p q hp hq hpc hqc hpw hqw
  by_cases hhead : ∃ (g : RequestHead) (rest : Bytes), t = g.octets ++ rest ∧ g.octets.length ≤ bufferSize
  · obtain ⟨g, rest, rfl, hle⟩ := hhead
    obtain ⟨hlength, hversion⟩ := h g rest rfl hle
    -- before the head is complete the buffer is neither full nor does it hold an empty line
    have hverdict : ∀ b, b <+: g.octets ++ rest → look env s b ≠ .wait →
        look env s b = verdict env s g.parsed := by
      intro b hb hw
      by_cases hlt : b.length < g.octets.length
      · rw [look_none (parse_of_lt henv hb hlt), if_neg] at hw
        · exact absurd rfl hw
        · rintro (hfull | hin)
          · omega
          · refine not_infix_head hversion (hin.trans (List.IsPrefix.isInfix ?_))
            rw [List.dropLast_eq_take]
            apply List.prefix_of_prefix_length_le hb
              ((List.take_prefix _ _).trans (List.prefix_append _ _))
            rw [List.length_take]
            omega
      · obtain ⟨b', rfl⟩ := List.prefix_of_prefix_length_le (List.prefix_append g.octets rest) hb
          (Nat.not_lt.mp hlt)
        exact look_of_head henv g b' s
    rw [hverdict p hp hpw, hverdict q hq hqw]
  · -- whatever fits the buffer is no request
    have hverdict : ∀ b, b <+: t → b.length ≤ bufferSize → look env s b ≠ .wait →
        look env s b = .stop (s.badRequest env) := by
      intro b hb hbc hw
      cases hpb : parseHttpRequest env.grammar b with
      | some req =>
        obtain ⟨g, hpre, -⟩ := exists_of_parse henv hpb
        obtain ⟨rest, rfl⟩ := hpre.trans hb
        exact absurd ⟨g, rest, rfl, hpre.length_le.trans hbc⟩ hhead
      | none =>
        rw [look_none hpb] at hw ⊢
        split_ifs at hw ⊢
        · rfl
        · exact absurd rfl hw
    rw [hverdict p hp hpc hpw, hverdict q hq hqc hqw]

end Verdicts

/-! ## What is reached of a stream -/

/-- **What is reached of a stream**: what is left of it after heads that are served and leave the connection
open. -/
inductive ReachedHead (env : Environment η) : Session η → Bytes → Session η → Bytes → Prop
  | refl {s : Session η} {t : Bytes} : ReachedHead env s t s t
  | next {s s' s'' : Session η} {h : RequestHead} {rest t : Bytes} : h.octets.length ≤ bufferSize →
      { s with currentReq := h.parsed }.processRequest env = (s', true) → ReachedHead env s' rest s'' t →
      ReachedHead env s (h.octets ++ rest) s'' t

section Streams

variable (henv : ReadsHeads env)

include henv

theorem reachedHead_of_leaves {s s' : Session η} {t t' : Bytes}
    (h : Leaves (look env) bufferSize s t s' t') : ReachedHead env s t s' t' := by
  induction h with
  | refl => exact .refl
  | take hp hc ht _ ih =>
    obtain ⟨req, hparse, rfl, hserved⟩ := of_look_take ht
    obtain ⟨g, hpre, rfl⟩ := exists_of_parse henv hparse
    obtain ⟨rest, rfl⟩ := hpre.trans hp
    have hdrop : (g.octets ++ rest).drop g.parsed.requestLength = rest := List.drop_left
    rw [hdrop] at ih
    exact .next (hpre.length_le.trans hc) hserved ih

/-- **What becomes of a stream is unique** if all heads that are reached are steady. -/
theorem serves_unique_of_heads {s : Session η} {t : Bytes}
    (h : ∀ s' (g : RequestHead) rest, ReachedHead env s t s' (g.octets ++ rest) →
      g.octets.length ≤ bufferSize → g.Steady) {e e' : Session η × Option Bytes}
    (hserves : Serves (look env) bufferSize s t e) (hserves' : Serves (look env) bufferSize s t e') :
    e = e' := by
  refine hserves.unique hserves' fun s' t' hleaves => agree_of_heads henv fun g rest ht hle => ?_
  subst ht
  exact h s' g rest (reachedHead_of_leaves henv hleaves) hle

theorem ready_fresh (s : Session η) : Ready (look env) bufferSize (fresh s) :=
  ⟨rfl, Nat.zero_le _, fun _ => (lawful_of_heads henv).nil _⟩

theorem exists_ends_of_heads (date : CachedDate) (clock : ℕ → Int) (hosts : η) {pieces : List Bytes}
    (hf : (RequestLoop.machine env).Fits bufferSize (start date clock hosts, pieces)) :
    ∃ c rest, (RequestLoop.machine env).Ends (start date clock hosts, pieces) (c, rest) ∧
      Serves (look env) bufferSize (start date clock hosts).session pieces.flatten (outcome c.abs) := by
  have hl := lawful_of_heads henv
  obtain ⟨⟨r, rest⟩, hends⟩ := exists_ends hl pieces (start date clock hosts).abs
  obtain ⟨⟨c, rest'⟩, hends', heq⟩ := (RequestLoop.refines env).of_ends
    (p := (start date clock hosts, pieces)) hends
  cases heq
  have hf' := (RequestLoop.refines env).fits_iff.mpr hf
  exact ⟨c, rest', hends', serves_of_ends hl hends hf' (ready_fresh henv _)⟩

omit henv in
theorem ReachedHead.flatten {heads : List RequestHead} {s s' : Session η} {t : Bytes}
    (h : ReachedHead env s (heads.flatMap RequestHead.octets) s' t) :
    ∃ heads' : List RequestHead, t = heads'.flatMap RequestHead.octets ∧ ∀ g ∈ heads', g ∈ heads := by
  generalize hu : heads.flatMap RequestHead.octets = u at h
  induction h generalizing heads with
  | refl => exact ⟨heads, hu.symm, fun _ hg => hg⟩
  | @next _ _ _ g rest _ _ _ _ ih =>
    cases heads with
    | nil =>
      obtain ⟨hnil, -⟩ := List.append_eq_nil_iff.mp hu.symm
      exact absurd hnil g.octets_ne_nil
    | cons g' heads =>
      rw [List.flatMap_cons] at hu
      rw [(head_eq_of_append hu).1] at hu
      obtain ⟨heads', ht, hmem⟩ := ih (List.append_cancel_left hu)
      exact ⟨heads', ht, fun q hq => List.mem_cons_of_mem _ (hmem q hq)⟩

omit henv in
/-- What is reached begins with one of the heads. -/
theorem ReachedHead.mem {heads : List RequestHead} {s s' : Session η} {g : RequestHead} {rest : Bytes}
    (h : ReachedHead env s (heads.flatMap RequestHead.octets) s' (g.octets ++ rest)) :
    ∃ g' ∈ heads, g.octets = g'.octets ∧ g.request = g'.request := by
  obtain ⟨heads', ht, hmem⟩ := h.flatten
  cases heads' with
  | nil =>
    obtain ⟨hnil, -⟩ := List.append_eq_nil_iff.mp ht
    exact absurd hnil g.octets_ne_nil
  | cons g' heads' => exact ⟨g', hmem g' List.mem_cons_self, head_eq_of_append ht⟩

theorem serves_heads {heads : List RequestHead} {s : Session η}
    (hheads : ∀ h ∈ heads, h.octets.length ≤ bufferSize) :
    ∃ s', Serves (look env) bufferSize s (heads.flatMap RequestHead.octets)
        (s', if (plans env s.hosts (heads.map RequestHead.parsed)).2 then some [] else none) ∧
      s'.sent = s.sent ++ sents s.date s.clock (plans env s.hosts (heads.map RequestHead.parsed)).1 ∧
      ((plans env s.hosts (heads.map RequestHead.parsed)).2 = true → s'.handled.map (Prod.map some id) =
        s.handled.map (Prod.map some id) ++
          (heads.map RequestHead.parsed).map fun req => (env.getHost req.host, req)) := by
  refine serves_plans (lawful_of_heads henv).nil fun h hh => ⟨hheads h hh, ?_, rfl⟩
  have hparse := parse_head henv h []
  rwa [List.append_nil] at hparse

/-- **Pipelined requests are neither lost nor duplicated nor reordered**: however a stream of heads of the
current version that their hosts answer is cut into pieces that fit the buffer, the hosts are handed what
they say, every one gets one reply, and the connection waits for more with an empty buffer. -/
theorem head_pipelining (date : CachedDate) (clock : ℕ → Int) (hosts : η) (heads : List RequestHead)
    (hheads : ∀ h ∈ heads, h.octets.length < bufferSize ∧ h.ending.version = .http11)
    (hanswers : Answers env hosts (heads.map RequestHead.parsed)) (pieces : List Bytes)
    (hpieces : pieces.flatten = heads.flatMap RequestHead.octets)
    (hfits : (RequestLoop.machine env).Fits bufferSize (start date clock hosts, pieces)) :
    ∃ c, (RequestLoop.machine env).Ends (start date clock hosts, pieces) (c, []) ∧
      c.session.handled.map (Prod.map some id) =
        heads.map (fun h => (env.getHost h.request.host, h.parsed)) ∧
      c.session.sent.map Sent.code = heads.map (fun _ => 200) ∧
      c.isOpen = true ∧ c.requestBytes = 0 ∧ c.needModeData = true := by
  have hl := lawful_of_heads henv
  have hsteady : ∀ g : RequestHead, g.octets.length < bufferSize → g.ending.version = .http11 →
      g.Steady := by
    refine fun g hlt hversion => ⟨hlt.ne, fun ls hending => ?_⟩
    rw [hending] at hversion
    cases hversion
  obtain ⟨c, rest, hends, hserves⟩ := exists_ends_of_heads henv date clock hosts hfits
  have hversions : ∀ req ∈ heads.map RequestHead.parsed, req.version = .http11 := by
    intro req hreq
    obtain ⟨h, hh, rfl⟩ := List.mem_map.mp hreq
    exact h.version_parsed.trans (hheads h hh).2
  obtain ⟨hplans, hcodes⟩ := plans_of_answers hversions hanswers
  obtain ⟨s', hserves', hsent, hhandled⟩ := @serves_heads η env henv heads
    (start date clock hosts).session fun h hh => (hheads h hh).1.le
  have hopened : (plans env (start date clock hosts).session.hosts (heads.map RequestHead.parsed)).2 = true :=
    hplans
  rw [if_pos hopened] at hserves'
  rw [hpieces] at hserves
  have hout : outcome c.abs = (s', some []) := serves_unique_of_heads henv (fun s g rest' hreached _ => by
    obtain ⟨g', hmem, hoctets, hrequest⟩ := hreached.mem
    obtain ⟨hlt, hversion⟩ := hheads g' hmem
    refine hsteady g (hoctets ▸ hlt) ?_
    rw [← g.version_parsed, RequestHead.parsed, hrequest, ← hversion, ← g'.version_parsed]
    rfl) hserves hserves'
  obtain ⟨rfl, hsession, hwaits⟩ := waits_of_outcome hends hout
  rw [← hsession] at hsent hhandled
  have hhandled' := hhandled hopened
  rw [List.map_map] at hhandled' hcodes
  refine ⟨c, hends, hhandled', ?_, hwaits⟩
  exact (congrArg _ hsent).trans ((code_sents _ date clock).trans hcodes)

/-! ## Cuts that make a difference -/

/-- What is reached of a stream is reached by a cut that reads head by head. -/
theorem ReachedHead.cut {s s' : Session η} {t t' : Bytes} (h : ReachedHead env s t s' t') :
    ∃ pieces : List Bytes, pieces.flatten ++ t' = t ∧ ∀ rest,
      ((Reader.machine (look env)).Fits bufferSize (fresh s', rest) →
        (Reader.machine (look env)).Fits bufferSize (fresh s, pieces ++ rest)) ∧
      ∀ e, (Reader.machine (look env)).Ends (fresh s', rest) e →
        (Reader.machine (look env)).Ends (fresh s, pieces ++ rest) e := by
  induction h with
  | refl => exact ⟨[], rfl, fun _ => ⟨id, fun _ => id⟩⟩
  | @next s s₁ s' g rest t' hle hserved _ ih =>
    obtain ⟨pieces, rfl, hpieces⟩ := ih
    have hlook : look env s g.octets = .take g.octets.length s₁ := by
      rw [← List.append_nil g.octets, look_of_head henv, verdict, hserved, List.append_nil]
      rfl
    refine ⟨g.octets :: pieces, by simp, fun rest => ?_⟩
    obtain ⟨hfits, hends⟩ := hpieces rest
    rw [← round_fresh hlook] at hfits hends
    exact ⟨fun hf => .cons rfl rfl g.octets_ne_nil ((Nat.zero_add _).trans_le hle) (hfits hf),
      fun e he => .head (Machine.step_read rfl rfl _ _) (hends e he)⟩

theorem sent_of_whole {s : Session η} {h : RequestHead} (hle : h.octets.length ≤ bufferSize)
    (rest : Bytes) :
    (Reader.machine (look env)).Fits bufferSize (fresh s, h.octets :: singles rest) ∧
      ∃ e, (Reader.machine (look env)).Ends (fresh s, h.octets :: singles rest) e ∧
        ∀ x, e.1.state.sent = s.sent ++ [x] → x.code ≠ 400 := by
  have hl := lawful_of_heads henv
  have hlook := look_of_head henv h [] s
  have hread : 0 + h.octets.length ≤ bufferSize := (Nat.zero_add _).trans_le hle
  have hsent := @Session.sent_processRequest η env { s with currentReq := h.parsed }
  rw [verdict, List.append_nil] at hlook
  rcases hserved : { s with currentReq := h.parsed }.processRequest env with ⟨s', _ | _⟩
  · -- the connection closes
    rw [hserved] at hlook hsent
    have hround := round_fresh_stop hlook
    refine ⟨.cons rfl rfl h.octets_ne_nil hread (.closed (by rw [hround]; rfl)), (_, singles rest),
      .head (Machine.step_read rfl rfl _ _) ⟨.refl, Machine.step_closed (by rw [hround]; rfl)⟩,
      fun x hx => ?_⟩
    rw [hround] at hx
    rcases hsent with ⟨y, hy, hs⟩ | ⟨hs, -⟩
    · rw [hs] at hx
      obtain rfl := List.singleton_inj.mp (List.append_cancel_left hx)
      exact hy
    · rw [hs] at hx
      simp at hx
  · -- the connection goes on
    rw [hserved] at hlook hsent
    have hround := round_fresh (p := h.octets) hlook
    have hready := ready_fresh henv s'
    have hfits := fits_singles hl hready rest
    obtain ⟨e, hends⟩ := exists_ends hl (singles rest) (fresh s')
    refine ⟨.cons rfl rfl h.octets_ne_nil hread (by rwa [hround]), e,
      .head (Machine.step_read rfl rfl _ _) (by rwa [hround]), fun x hx => ?_⟩
    have hprefix : s'.sent <+: e.1.state.sent := sent_of_serves (serves_of_ends hl hends hfits hready)
    rcases hsent with ⟨y, hy, hs⟩ | ⟨-, hclosed⟩
    · rw [hx, hs, List.prefix_append_right_inj] at hprefix
      obtain rfl : y = x := by simpa using hprefix
      exact hy
    · cases hclosed

theorem exists_bad_cut {h : RequestHead} (hsteady : ¬ h.Steady) :
    ∃ p q, h.octets = p ++ q ∧ p ≠ [] ∧ ∀ s, look env s p = .stop (s.badRequest env) := by
  have hbad : ∀ {p : Bytes}, p <+: h.octets → p.length < h.octets.length →
      bufferSize - 1 ≤ p.length ∨ eohMarker <:+: p →
      ∃ p q, h.octets = p ++ q ∧ p ≠ [] ∧ ∀ s, look env s p = .stop (s.badRequest env) := by
    rintro p ⟨q, hq⟩ hlt hbad
    have hpre : p <+: h.octets ++ [] := by
      rw [List.append_nil, ← hq]
      exact List.prefix_append ..
    refine ⟨p, q, hq.symm, ?_, fun s => by rw [look_none (parse_of_lt henv hpre hlt), if_pos hbad]⟩
    rintro rfl
    revert hbad
    decide
  by_cases hlength : h.octets.length = bufferSize
  · refine hbad (List.take_prefix (bufferSize - 1) _) ?_ (.inl ?_)
    · rw [List.length_take, hlength]
      decide
    · rw [List.length_take, hlength]
      decide
  · by_cases hversion : ∀ ls, h.ending ≠ .noVersion ls
    · exact absurd ⟨hlength, hversion⟩ hsteady
    · obtain ⟨ls, hending⟩ := not_forall.mp hversion
      obtain ⟨p, hpre, hlt, heoh⟩ := exists_empty_line (not_not.mp hending)
      exact hbad hpre hlt (.inr heoh)

/-- **A head that is not steady may be cut so that it makes a difference.** -/
theorem not_sameReplies_of_head {date : CachedDate} {clock : ℕ → Int} {hosts : η} {stream : Bytes}
    {s : Session η} {h : RequestHead} {rest : Bytes}
    (hreached : ReachedHead env (start date clock hosts).session stream s (h.octets ++ rest))
    (hle : h.octets.length ≤ bufferSize) (hsteady : ¬ h.Steady) :
    ¬ SameReplies env date clock hosts stream := by
  rintro ⟨sent, isOpen, hsame⟩
  have hrefines := RequestLoop.refines env
  obtain ⟨pieces, rfl, hcut⟩ := hreached.cut henv
  -- whatever the cut, this is what is sent
  have hsent : ∀ tail e, (pieces ++ tail).flatten = pieces.flatten ++ (h.octets ++ rest) →
      (Reader.machine (look env)).Fits bufferSize (fresh s, tail) →
      (Reader.machine (look env)).Ends (fresh s, tail) e → e.1.state.sent = sent := by
    intro tail e hflat hfits hends
    obtain ⟨c, rest', hc, rfl, -⟩ := hsame (pieces ++ tail) hflat
      (hrefines.fits_iff.mp ((hcut tail).1 hfits))
    have heq := (hrefines.ends hc).unique ((hcut tail).2 e hends)
    rw [← heq]
    rfl
  obtain ⟨hfits, e, hends, hnot⟩ := sent_of_whole henv (s := s) hle rest
  obtain ⟨p, q, hpq, hne, hbad⟩ := exists_bad_cut henv hsteady
  have hround := round_fresh_stop (hbad s)
  have hp : 0 + p.length ≤ bufferSize := by
    rw [Nat.zero_add]
    refine Nat.le_trans ?_ hle
    rw [hpq, List.length_append]
    exact Nat.le_add_right _ _
  have hfits' : (Reader.machine (look env)).Fits bufferSize (fresh s, [p, q ++ rest]) :=
    .cons rfl rfl hne hp (.closed (by rw [hround]; rfl))
  have hends' : (Reader.machine (look env)).Ends (fresh s, [p, q ++ rest])
      ((Reader.machine (look env)).round ((Reader.machine (look env)).read (fresh s) p), [q ++ rest]) :=
    .head (Machine.step_read rfl rfl _ _) ⟨.refl, Machine.step_closed (by rw [hround]; rfl)⟩
  have hwhole := hsent _ e (by simp [flatten_singles]) hfits hends
  have hparts := hsent _ _ (by simp [hpq]) hfits' hends'
  rw [hround] at hparts
  rw [← hparts] at hwhole
  exact hnot _ hwhole rfl

/-- **How a stream is cut makes no difference exactly if all heads that are reached and fit the buffer are
steady.** -/
theorem head_sameReplies_iff (date : CachedDate) (clock : ℕ → Int) (hosts : η) (stream : Bytes) :
    SameReplies env date clock hosts stream ↔
      ∀ s (h : RequestHead) rest, ReachedHead env (start date clock hosts).session stream s
        (h.octets ++ rest) → h.octets.length ≤ bufferSize → h.Steady := by
  have hrefines := RequestLoop.refines env
  have hl := lawful_of_heads henv
  constructor
  · intro hsame s h rest hreached hle
    by_contra hsteady
    exact not_sameReplies_of_head henv hreached hle hsteady hsame
  · intro h
    have hsingles : (RequestLoop.machine env).Fits bufferSize (start date clock hosts, singles stream) :=
      hrefines.fits_iff.mp (fits_singles hl (ready_fresh henv _) stream)
    obtain ⟨c₀, rest₀, -, hserves₀⟩ := exists_ends_of_heads henv date clock hosts hsingles
    rw [flatten_singles] at hserves₀
    refine ⟨c₀.session.sent, c₀.isOpen, fun pieces hpieces hfits => ?_⟩
    obtain ⟨c, rest, hends, hserves⟩ := exists_ends_of_heads henv date clock hosts hfits
    rw [hpieces] at hserves
    have hout : outcome c.abs = outcome c₀.abs := serves_unique_of_heads henv h hserves hserves₀
    refine ⟨c, rest, hends, congrArg (fun e => e.1.sent) hout, ?_⟩
    have hopen := congrArg (fun e => e.2.isSome) hout
    exact (isSome_outcome c.abs).symm.trans (hopen.trans (isSome_outcome c₀.abs))

end Streams

/-! ## Two streams -/

/-- One host that answers everything, behind the parser. -/
def headEnvironment : Environment Unit :=
  { sampleEnvironment with grammar := requestGrammar parsedLength }

theorem readsHeads_headEnvironment : ReadsHeads headEnvironment := ⟨parsedLength, rfl, fun _ _ => rfl⟩

/-- Two heads, octet by octet. -/
theorem head_pipelining_two :
    ∃ c, (RequestLoop.machine headEnvironment).Ends (start .empty (fun _ => 1) (),
        singles ([sampleHead, sampleHead].flatMap RequestHead.octets)) (c, []) ∧
      c.session.handled.map (Prod.map some id) =
        [(some 1, sampleHead.parsed), (some 1, sampleHead.parsed)] ∧
      c.session.sent.map Sent.code = [200, 200] ∧
      c.isOpen = true ∧ c.requestBytes = 0 ∧ c.needModeData = true := by
  have hfits := fits_singles (lawful_of_heads readsHeads_headEnvironment)
    (ready_fresh readsHeads_headEnvironment (start .empty (fun _ => 1) ()).session)
    ([sampleHead, sampleHead].flatMap RequestHead.octets)
  exact head_pipelining readsHeads_headEnvironment .empty (fun _ => 1) () [sampleHead, sampleHead]
    (by simpa using ⟨by decide +kernel, rfl⟩) ⟨1, rfl, rfl, 1, rfl, rfl, trivial⟩ _
    (flatten_singles _) ((RequestLoop.refines _).fits_iff.mp hfits)

/-- **A line break in the place of the version** makes a difference. -/
theorem not_sameReplies_noVersion :
    ¬ SameReplies headEnvironment .empty (fun _ => 1) () (ascii "GET / \r\n\r\n\r\n") := by
  have hoctets : ({ sampleHead with ending := .noVersion [] } : RequestHead).octets ++ [] =
      ascii "GET / \r\n\r\n\r\n" := by decide +kernel
  rw [← hoctets]
  intro h
  have hsteady := (head_sameReplies_iff readsHeads_headEnvironment .empty (fun _ => 1) () _).mp h _
    { sampleHead with ending := .noVersion [] } [] .refl (by decide +kernel)
  exact hsteady.version [] rfl

end VUbercool.Http
