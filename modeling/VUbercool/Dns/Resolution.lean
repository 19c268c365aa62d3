import VUbercool.Dns.Forest
import VUbercool.Dns.Truncation

/-!
# Resolution

From a query to the decoded reply.

* `answersOf`, `authorityOf`, `additionalOf`: the records a reply is to hold.
* `records_mean`: these are what the records mean that the daemon stores.
* `resolution`: **a query is answered with them**.
-/

namespace VUbercool.Dns

open Octets Rfc1035 Proc

variable {zones : List Zone}

/-! ## What a reply is to hold -/

/-- A record of class `IN` with the time to live that is always sent. -/
def record (owner : List Label) (data : RData) : Rfc1035.Record := ⟨owner, 1, 300, data⟩

/-- The `A` records of a zone under a name. -/
def addresses (owner : List Label) (z : ZonePtr) : List Rfc1035.Record :=
  z.zone.a.map fun ip => record owner (.a ip)

/-- The data of the `SOA` record of `s`; its first name server is the primary one. -/
def soaData (s : ZonePtr) (soa : Soa) : RData :=
  .soa (entryLabels s (s.zone.ns.headD ⟨[]⟩).fqdn)
    (if soa.rname.getLast? = some dot then toFraments soa.rname else entryLabels s soa.rname)
    soa.serial soa.refresh soa.retry soa.expire soa.minimum

/-- **The answers** about the zone `z` whose `SOA` search ended at `s`. -/
def answersOf (zones : List Zone) (z s : ZonePtr) (q : Rfc1035.Question) : List Rfc1035.Record :=
  if q.qtype = 1 ∧ z.zone.cname ≠ [] then
    record q.name (.cname (cnameTarget z)) ::
      (lookup zones (cnameTarget z)).1.elim [] (addresses (cnameTarget z))
  else if (q.qtype = 255 ∨ q.qtype = 5) ∧ z.zone.cname ≠ [] then [record q.name (.cname (cnameTarget z))]
  else if q.qtype = 1 ∨ q.qtype = 255 then addresses q.name z
  else if q.qtype = 15 then
    z.zone.mx.map fun mx => record q.name (.mx mx.priority (entryLabels z mx.fqdn))
  else if q.qtype = 6 then s.zone.soa.toList.map fun soa => record q.name (soaData s soa)
  else []

/-- The queries that get the name servers of the zone. -/
def WithNs (q : Rfc1035.Question) : Prop := q.qtype = 6 ∨ q.qtype = 2 ∨ q.qtype = 255

instance (q : Rfc1035.Question) : Decidable (WithNs q) := inferInstanceAs (Decidable (_ ∨ _ ∨ _))

/-- **The authority section.** -/
def authorityOf (s : ZonePtr) (q : Rfc1035.Question) : List Rfc1035.Record :=
  if WithNs q then s.zone.ns.map fun ns => record s.labels (.ns (entryLabels s ns.fqdn)) else []

/-- The `MX` and `NS` targets a reply mentions. -/
def targets (z s : ZonePtr) (q : Rfc1035.Question) : List (List Label) :=
  if q.qtype = 15 then z.zone.mx.map fun mx => entryLabels z mx.fqdn
  else if WithNs q then s.zone.ns.map fun ns => entryLabels s ns.fqdn
  else []

/-- Each zone of a list once, in order of first mention. -/
def distinct : List ZonePtr → List ZonePtr
  | [] => []
  | z :: zs => z :: (distinct zs).filter fun z' => !z'.same z

/-- **The additional section.** -/
def additionalOf (zones : List Zone) (z s : ZonePtr) (q : Rfc1035.Question) : List Rfc1035.Record :=
  (distinct ((targets z s q).filterMap fun n => (lookup zones n).1)).flatMap fun t => addresses t.labels t

/-! ## The zones that are mentioned -/

/-- **`AddZone` keeps the first mention** of every zone. -/
theorem foldl_addZone : ∀ (found : List (Option ZonePtr)) (acc : List ZonePtr),
    found.foldl addZone acc = acc ++ (distinct (found.filterMap id)).filter fun z => !acc.any z.same
  | [], acc => by simp [distinct]
  | none :: found, acc => by
    rw [List.foldl_cons, addZone, foldl_addZone found acc]
    rfl
  | some z :: found, acc => by
    have hcons : (some z :: found).filterMap id = z :: found.filterMap id := rfl
    rw [List.foldl_cons, hcons, distinct, addZone]
    by_cases h : acc.any z.same = true
    · rw [if_pos h, foldl_addZone found acc, List.filter_cons, h, List.filter_filter]
      congr 1
      refine List.filter_congr fun x _ => ?_
      -- a zone at the place of `z` is in `acc` as `z` is
      obtain ⟨y, hy, hzy⟩ := List.any_eq_true.mp h
      by_cases hx : x.same z = true
      · have hxy : acc.any x.same = true := List.any_eq_true.mpr ⟨y, hy, by
          simp only [ZonePtr.same, beq_iff_eq] at *; rw [hx, hzy]⟩
        simp [hxy]
      · simp [hx]
    · rw [if_neg h, foldl_addZone found (acc ++ [z]), List.filter_cons, if_pos (by simpa using h),
        List.append_assoc, List.filter_filter]
      congr 1
      rw [List.singleton_append]
      congr 1
      refine List.filter_congr fun x _ => ?_
      simp [List.any_append]

theorem mem_distinct {z : ZonePtr} : ∀ {zs : List ZonePtr}, z ∈ distinct zs → z ∈ zs
  | [], h => h
  | z' :: zs, h => by
    rcases List.mem_cons.mp h with rfl | h
    · exact List.mem_cons_self
    · exact List.mem_cons_of_mem _ (mem_distinct (List.mem_filter.mp h).1)

theorem foldl_addNsZone {γ : Type} (f : γ → Option ZonePtr) : ∀ (l : List γ) (t : Referrals),
    l.foldl (fun t c => t.addNsZone (f c)) t = { t with nsZones := (l.map f).foldl addZone t.nsZones }
  | [], t => rfl
  | c :: l, t => by
    rw [List.foldl_cons, foldl_addNsZone f l, List.map_cons, List.foldl_cons]
    rfl

theorem refer_found {question : Question} {z s : ZonePtr} {c : Contribution} {q : Rfc1035.Question}
    (hq : question.qtype = q.qtype) (hc : qtypeContribution zones question z (some s) = .ok c) :
    let t := (Contribution.found question (some s) c).refer {}
    t.authorativeZones = (if WithNs q then [s] else []) ∧
      t.nsZones = (if q.qtype = 15 then z.zone.mx.map fun mx =>
        (lookup zones (toFraments (z.getFdqn mx.toNs))).1 else []).foldl addZone [] := by
  obtain ⟨t₀, ht₀, ht₁, ht₂⟩ : ∃ t : Referrals, t = (if !(some s).any (·.zone.authorative) then
      { ({} : Referrals) with authorative := false } else {}) ∧ t.authorativeZones = [] ∧
      t.nsZones = [] := ⟨_, rfl, by split_ifs <;> rfl, by split_ifs <;> rfl⟩
  simp only [Contribution.found, ← ht₀]
  unfold qtypeContribution at hc
  rw [hq] at hc ⊢
  split_ifs at hc with h1 hcname ht h5 hcname h6 h2 h15
  · cases hc
    simp [ht, WithNs, ht₁, ht₂]
  · cases hc
    simp [h1.resolve_left ht, WithNs, Referrals.addAuthorativeZone, addZone, ht₁, ht₂]
  · cases hc
    rcases h1 with h | h <;> simp [h, WithNs, Referrals.addAuthorativeZone, addZone, ht₁, ht₂]
  · cases hc
    simp [h5, WithNs, ht₁, ht₂]
  · cases hc
    simp [h5, WithNs, ht₁, ht₂]
  · cases hc
    simp [h6, WithNs, Referrals.addAuthorativeZone, addZone, ht₁, ht₂]
  · cases hc
    simp [h2, WithNs, Referrals.addAuthorativeZone, addZone, ht₁, ht₂]
  · cases hc
    simp [h15, WithNs, foldl_addNsZone, ht₁, ht₂]
  · cases hc
    have h255 : q.qtype ≠ 255 := fun h => h1 (.inr h)
    simp [h2, h6, h15, h255, WithNs, ht₁, ht₂]

/-! ## What the records mean -/

theorem forall₂_map {α β γ : Type} {R : β → γ → Prop} {f : α → β} {g : α → γ} {l : List α}
    (h : ∀ a ∈ l, R (f a) (g a)) : List.Forall₂ R (l.map f) (l.map g) := by
  rw [List.forall₂_map_left_iff, List.forall₂_map_right_iff]
  exact List.forall₂_same.mpr h

theorem forall₂_flatMap {α β γ : Type} {R : β → γ → Prop} {f : α → List β} {g : α → List γ} :
    ∀ {l : List α}, (∀ a ∈ l, List.Forall₂ R (f a) (g a)) →
      List.Forall₂ R (l.flatMap f) (l.flatMap g)
  | [], _ => .nil
  | a :: l, h => by
    rw [List.flatMap_cons, List.flatMap_cons]
    exact List.rel_append (h a List.mem_cons_self)
      (forall₂_flatMap fun x hx => h x (List.mem_cons_of_mem _ hx))

section

variable {at_ : UInt16 → List Label → Prop} {z s : ZonePtr} {q : Rfc1035.Question}
  (hz : LegalForest zones)

include hz

omit hz in
theorem soa_reached (hr : Reached zones z) (hs : getSoaZone z = .ok (some s)) : Reached zones s := by
  rcases (getSoaZone_spec hs).2 with rfl | hp
  · exact hr
  · exact hr.parent hp

theorem soa_means {o : Owner} {ls : List Label} {soa : Soa} (ho : OwnerMeans at_ o ls)
    (hr : Reached zones s) (hsoa : s.zone.soa = some soa) (hns : s.zone.ns ≠ []) :
    Means at_ (.soa o s) (record ls (soaData s soa)) := by
  obtain ⟨n, rest, hn⟩ := List.exists_cons_of_ne_nil hns
  obtain ⟨hlegal, hrel⟩ := (hz s hr).ns n (by rw [hn]; exact List.mem_cons_self)
  have hm := inZone_of_legalName s hlegal
  rw [if_neg hrel] at hm
  rw [soaData, hn]
  exact .soa ho hsoa hn (hz s hr).name hm (inZone_of_legalName s ((hz s hr).rname soa hsoa))

theorem answers_mean {question : Question} (hq : question.qtype = q.qtype)
    (hat : at_ question.offset q.name) (hr : Reached zones z) (hs : getSoaZone z = .ok (some s))
    (hns : s.zone.ns ≠ []) : ∃ c, qtypeContribution zones question z (some s) = .ok c ∧
      List.Forall₂ (Means at_) c.records (answersOf zones z s q) := by
  have howner : OwnerMeans at_ (.namePtr question.offset) q.name := .namePtr hat
  have hcname : z.zone.cname ≠ [] → Means at_ (.cname question.offset (fullCname z))
      (record q.name (.cname (cnameTarget z))) := fun h => .cname howner (spells_fullCname hz hr h)
  unfold qtypeContribution
  rw [hq]
  split_ifs with h1 hc ht h5 hc h6 h2 h15
  · have hne : z.zone.cname ≠ [] := by simpa using hc
    have hspell := spells_fullCname hz hr hne
    refine ⟨_, rfl, ?_⟩
    rw [answersOf, if_pos ⟨ht, hne⟩, targetRecords, toFraments_of_spells hspell]
    refine .cons (hcname hne) ?_
    cases (lookup zones (cnameTarget z)).1 with
    | none => exact .nil
    | some t => exact forall₂_map fun ip _ => .a (.name hspell)
  · have hne : z.zone.cname ≠ [] := by simpa using hc
    refine ⟨_, rfl, ?_⟩
    rw [answersOf, if_neg (fun h => ht h.1), if_pos ⟨.inl (h1.resolve_left ht), hne⟩]
    exact .cons (hcname hne) .nil
  · have he : z.zone.cname = [] := by simpa using hc
    refine ⟨_, rfl, ?_⟩
    rw [answersOf, if_neg (fun h => h.2 he), if_neg (fun h => h.2 he), if_pos h1]
    exact forall₂_map fun ip _ => .a howner
  · have hne : z.zone.cname ≠ [] := by simpa using hc
    refine ⟨_, rfl, ?_⟩
    rw [answersOf, if_neg (fun h => h1 (.inl h.1)), if_pos ⟨.inr h5, hne⟩]
    exact .cons (hcname hne) .nil
  · have he : z.zone.cname = [] := by simpa using hc
    refine ⟨_, rfl, ?_⟩
    rw [answersOf, if_neg (fun h => h.2 he), if_neg (fun h => h.2 he), if_neg h1]
    simp [h5]
  · obtain ⟨⟨soa, hsoa⟩, -⟩ := getSoaZone_spec hs
    refine ⟨_, rfl, ?_⟩
    rw [show answersOf zones z s q = [record q.name (soaData s soa)] by simp [answersOf, h6, hsoa]]
    exact .cons (soa_means hz howner (soa_reached hr hs) hsoa hns) .nil
  · refine ⟨_, rfl, ?_⟩
    simp [answersOf, h2]
  · refine ⟨_, rfl, ?_⟩
    rw [show answersOf zones z s q = z.zone.mx.map fun mx =>
      record q.name (.mx mx.priority (entryLabels z mx.fqdn)) by simp [answersOf, h15]]
    exact forall₂_map fun mx hmx => .mx howner (spells_getFdqn (hz z hr) ((hz z hr).mx mx hmx))
  · have h255 : q.qtype ≠ 255 := fun h => h1 (.inr h)
    have h1' : q.qtype ≠ 1 := fun h => h1 (.inl h)
    refine ⟨_, rfl, ?_⟩
    simp [answersOf, h1', h255, h5, h6, h15]

theorem authority_means (hr : Reached zones s) : List.Forall₂ (Means at_)
    ((if WithNs q then [s] else []).flatMap authorityRecords) (authorityOf s q) := by
  unfold authorityOf
  split_ifs
  · rw [List.flatMap_cons, List.flatMap_nil, List.append_nil]
    exact forall₂_map fun ns hns => .ns ((hz s hr).name.mono (by omega))
      (spells_getFdqn (hz s hr) ((hz s hr).ns ns hns))
  · exact .nil

/-- **The zones whose addresses are added** are those the targets lead to. -/
theorem referred_zones {t : Referrals} (hr : Reached zones z) (hrs : Reached zones s)
    (hauth : t.authorativeZones = if WithNs q then [s] else [])
    (hns : t.nsZones = (if q.qtype = 15 then z.zone.mx.map fun mx =>
      (lookup zones (toFraments (z.getFdqn mx.toNs))).1 else []).foldl addZone []) :
    (t.authorativeZones.foldl (referNs zones) t).nsZones =
      distinct ((targets z s q).filterMap fun n => (lookup zones n).1) := by
  have hdistinct : ∀ found : List (Option ZonePtr), found.foldl addZone [] =
      distinct (found.filterMap id) := fun found => by
    rw [foldl_addZone]; simp
  have hfound : ∀ {γ : Type} (l : List γ) (name : γ → Bytes) (ls : γ → List Label),
      (∀ c ∈ l, toFraments (name c) = ls c) →
      (l.map fun c => (lookup zones (toFraments (name c))).1).filterMap id =
        (l.map ls).filterMap fun n => (lookup zones n).1 := by
    intro γ l name ls h
    rw [List.filterMap_map, List.filterMap_map]
    exact List.filterMap_congr fun c hc => by simp [h c hc]
  rw [hauth, targets]
  by_cases h15 : q.qtype = 15
  · have hno : ¬ WithNs q := by simp [WithNs, h15]
    rw [if_neg hno, if_pos h15, List.foldl_nil, hns, if_pos h15, hdistinct]
    rw [hfound _ (fun mx : Mx => z.getFdqn mx.toNs) (fun mx => entryLabels z mx.fqdn) fun mx hmx =>
      toFraments_of_spells (spells_getFdqn (hz z hr) ((hz z hr).mx mx hmx))]
  · rw [if_neg h15, List.foldl_nil] at hns
    rw [if_neg h15]
    by_cases hno : WithNs q
    · rw [if_pos hno, if_pos hno, List.foldl_cons, List.foldl_nil, referNs, foldl_addNsZone, hns,
        hdistinct]
      rw [hfound _ (fun ns => s.getFdqn ns) (fun ns => entryLabels s ns.fqdn) fun ns hns' =>
        toFraments_of_spells (spells_getFdqn (hz s hrs) ((hz s hrs).ns ns hns'))]
    · rw [if_neg hno, if_neg hno, List.foldl_nil, hns]
      rfl

theorem additional_means : List.Forall₂ (Means at_)
    ((distinct ((targets z s q).filterMap fun n => (lookup zones n).1)).flatMap additionalRecords)
    (additionalOf zones z s q) := by
  refine forall₂_flatMap fun t ht => forall₂_map fun ip _ => .a (.name ?_)
  obtain ⟨n, -, hl⟩ := List.mem_filterMap.mp (mem_distinct ht)
  have hr : Reached zones t := lookup_reached (Prod.ext hl rfl)
  exact (hz t hr).name.mono (by omega)

/-- **What the records of a reply mean.** -/
theorem records_mean {question : Question} {au : Bool} (hq : question.content = q)
    (hat : at_ question.offset q.name) (hl : lookup zones q.name = (some z, au))
    (hs : getSoaZone z = .ok (some s)) (hns : s.zone.ns ≠ []) :
    ∃ R, recordsOf zones [question] = .ok R ∧
      List.Forall₂ (Means at_) R.answers (answersOf zones z s q) ∧
      List.Forall₂ (Means at_) R.authority (authorityOf s q) ∧
      List.Forall₂ (Means at_) R.additional (additionalOf zones z s q) := by
  subst hq
  have hr := lookup_reached hl
  obtain ⟨c, hc, hanswers⟩ := answers_mean hz rfl hat hr hs hns
  have hcontribution : contribution zones question = .ok (Contribution.found question (some s) c) := by
    rw [contribution_found hl hs, hc]
    rfl
  have hR : recordsOf zones [question] =
      .ok (script zones [Contribution.found question (some s) c]) := by
    rw [recordsOf, List.mapM_cons, hcontribution]
    rfl
  obtain ⟨hauth, hnszones⟩ := refer_found (q := question.content) rfl hc
  refine ⟨_, hR, by simpa [script, Contribution.found] using hanswers, ?_, ?_⟩
  · have h : List.Forall₂ (Means at_) _ (authorityOf s question.content) :=
      authority_means hz (soa_reached hr hs)
    rwa [← hauth] at h
  · have h : List.Forall₂ (Means at_) _ (additionalOf zones z s question.content) := additional_means hz
    rwa [← referred_zones hz hr (soa_reached hr hs) hauth hnszones] at h

end

/-! ## The decoded reply -/

theorem readHeader_octets (h : MessageHeader) (body : Bytes) : readHeader (h.octets ++ body) =
    some ⟨h.id, h.flags, h.qdcount, h.ancount, h.nscount, h.arcount⟩ := by
  simp only [readHeader, u16, view, MessageHeader.octets, store16_htons, be16]
  simp only [List.cons_append, List.nil_append, List.getElem?_cons_zero, List.getElem?_cons_succ,
    Option.bind_eq_bind, Option.bind_some, Option.pure_def, Option.some.injEq, Rfc1035.Header.mk.injEq]
  refine ⟨?_, ?_, ?_, ?_, ?_, ?_⟩ <;> exact ofBe16_be16 _

theorem map_snd_all (R : Script) : R.all.map Prod.snd = R.answers ++ R.authority ++ R.additional := by
  simp [Script.all, Function.comp_def]

theorem countP_all (R : Script) (x : Section) : R.all.countP (fun y => y.1 = x) =
    (match x with
    | .answer => R.answers
    | .authority => R.authority
    | .additional => R.additional).length := by
  cases x <;> simp [Script.all, List.countP_append, List.countP_map, Function.comp_def]

theorem length_encodeLabels_folded : ∀ {ls ls' : List Label}, folded ls = folded ls' →
    (encodeLabels ls).length = (encodeLabels ls').length
  | [], [], _ => rfl
  | l :: ls, l' :: ls', h => by
    obtain ⟨hl, hls⟩ := List.cons.inj h
    have hlen := congrArg List.length hl
    rw [List.length_map, List.length_map] at hlen
    simp [encodeLabels, hlen, length_encodeLabels_folded hls]

theorem length_question {z : ZonePtr} {q : Rfc1035.Question} {au : Bool} (hz : LegalForest zones)
    (hl : lookup zones q.name = (some z, au)) : (encodeQuestion q).length ≤ 261 := by
  have hname := (hz z (lookup_reached hl)).name
  have h1 := length_encodeLabels z.labels (by simp [ZonePtr.labels])
  have h2 := length_dotted_le hname
  rw [length_encodeQuestion, ← length_encodeLabels_folded (lookup_labels hz hl), h1]
  omega

theorem receive_of_processQuestions {queryBuffer : Memory} {datagram reply : Bytes}
    {header : MessageHeader} {qs : List Rfc1035.Question}
    (hquery : StandardQuery (received queryBuffer datagram) (datagram.take maxQueryBuffer).length header
      qs)
    (h : processQuestions (some maxReplyBuffer) zones (received queryBuffer datagram)
      (datagram.take maxQueryBuffer).length header [] = (.ok (), reply)) :
    (receive zones queryBuffer datagram).outcome = .sent reply := by
  have hne : reply.isEmpty = false := by
    obtain ⟨num, truncated, o, t, body, rfl⟩ := processQuestions_header h
    rfl
  rw [receive_standard hquery.parsed hquery.qr hquery.opcode, h, outcomeOf, if_neg (by simp [hne])]

/-- **A reply that was stored is decoded**: its header over the first twelve octets, its questions, and
its records, whose numbers by section the header tells. -/
theorem decode_reply {hdr rb : Bytes} {qs : List Rfc1035.Question} {xs : List (Rfc1035.Record × ℕ)}
    {an ns ar : List Rfc1035.Record} {h : MessageHeader} (h12 : hdr.length = 12)
    (hq : ∀ q ∈ qs, Fit q.name)
    (hst : Stored (RecordAt (known headerHole (hdr ++ qs.flatMap encodeQuestion ++ rb)))
      (hdr ++ qs.flatMap encodeQuestion).length xs (hdr ++ qs.flatMap encodeQuestion ++ rb).length)
    (hxs : xs.map Prod.fst = an ++ ns ++ ar) (hqd : h.qdcount.toNat = qs.length)
    (han : h.ancount.toNat = an.length) (hns : h.nscount.toNat = ns.length)
    (har : h.arcount.toNat = ar.length) :
    decode (h.write (hdr ++ qs.flatMap encodeQuestion ++ rb)) =
      some ⟨⟨h.id, h.flags, h.qdcount, h.ancount, h.nscount, h.arcount⟩, qs, an, ns, ar⟩ := by
  have hle := known_headerHole_le (b := hdr ++ qs.flatMap encodeQuestion ++ rb) h.length_octets
  have hqs := (stored_questions hq
    (fun j hj => not_mem_headerHole (by omega))).mono fun _ _ _ hr => hr.mono hle
  have hrs := hst.mono fun _ _ _ hr => hr.mono hle
  rw [List.length_append, h12] at hrs
  rw [h12] at hqs
  have hlen : (h.write (hdr ++ qs.flatMap encodeQuestion ++ rb)).length =
      (hdr ++ qs.flatMap encodeQuestion ++ rb).length := h.length_write (by simp; omega)
  have hdec := decode_of_stored (readHeader_octets h _) hqs (by rwa [← hlen] at hrs) hxs
    (by rw [List.length_map]; exact hqd) han hns har
  rwa [List.map_map, show Prod.fst ∘ (fun q : Rfc1035.Question => (q, (encodeQuestion q).length)) = id from
    rfl, List.map_id] at hdec

theorem reply_decodes {query : Memory} {n : ℕ} {header : MessageHeader} {b hdr : Bytes} {s : Parsed}
    {R : Script} {qs : List Rfc1035.Question} {an ns ar : List Rfc1035.Record}
    (hparse : parseQuestions query n header ⟨[], [], 0, resize b MessageHeader.size⟩ = (.ok (), s))
    (hbuf : s.replyBuffer = hdr ++ qs.flatMap encodeQuestion) (h12 : hdr.length = 12)
    (hq : ∀ q ∈ qs, Fit q.name) (hnum : s.numQuestions.toNat = qs.length)
    (hR : recordsOf zones s.questions = .ok R)
    (ha : List.Forall₂ (Means (StoredAt (known headerHole s.replyBuffer))) R.answers an)
    (hau : List.Forall₂ (Means (StoredAt (known headerHole s.replyBuffer))) R.authority ns)
    (had : List.Forall₂ (Means (StoredAt (known headerHole s.replyBuffer))) R.additional ar)
    (hfits : (processQuestions none zones query n header b).2.length ≤ maxReplyBuffer) :
    ∃ reply m, processQuestions (some maxReplyBuffer) zones query n header b = (.ok (), reply) ∧
      decode reply = some m ∧ m.header.id = header.id ∧ m.questions = qs ∧ m.answers = an ∧
      m.authority = ns ∧ m.additional = ar := by
  have hrecs : List.Forall₂ (Means (StoredAt (known headerHole s.replyBuffer)))
      (R.all.map Prod.snd) (an ++ ns ++ ar) := by
    rw [map_snd_all]
    exact List.rel_append (List.rel_append ha hau) had
  obtain ⟨h12', h512⟩ := parseQuestions_length hparse
  have hhole : ∀ i ∈ headerHole, i < s.replyBuffer.length := fun i hi => by
    have := List.mem_range.mp hi
    omega
  -- the stores of the run without a limit
  obtain ⟨sizes, fault, w, hu⟩ : ∃ sizes fault w,
      storeUntil none (R.all.map Prod.snd) ⟨s.replyBuffer, []⟩ = (sizes, fault, w) := ⟨_, _, _, rfl⟩
  have hw : s.replyBuffer.length ≤ w.buffer.length := by
    have := (prefix_storeUntil (m := none) (R.all.map Prod.snd) ⟨s.replyBuffer, []⟩).length_le
    rwa [hu] at this
  rw [length_processQuestions hparse hR hu (by omega)] at hfits
  obtain ⟨rfl, hlim⟩ := storeUntil_fits (by decide) (fun l hl => by cases hl) hhole
    hrecs hu hfits
  have hsizes := length_of_storeUntil hlim
  rw [List.length_map] at hsizes
  have hcounter := counter_reply (R := R) (by simpa using storeUntil_ten hu) hfits
  obtain ⟨t, hreply⟩ := processQuestions_of_run hparse hR hlim (by simp)
  rw [hsizes] at hreply
  -- what a decoder reads in the buffer
  obtain ⟨sizes', fault', rb, labels, hspec, -, -, hst, -⟩ := storeUntil_spec
    (w := ⟨s.replyBuffer, []⟩) (by decide) (fun l hl => by cases hl) hhole (Nat.le_of_lt h512) hrecs
  rw [hlim] at hspec
  cases hspec
  have hlen : (an ++ ns ++ ar).length = sizes.length := by
    rw [← hrecs.length_eq, List.length_map, hsizes]
  rw [List.take_of_length_le (Nat.le_of_eq hlen)] at hst
  simp only [hbuf] at hst
  rw [List.take_length] at hcounter hreply
  have hxs : ((an ++ ns ++ ar).zip sizes).map Prod.fst = an ++ ns ++ ar :=
    List.map_fst_zip (Nat.le_of_eq hlen)
  have hcount : ∀ x, _ = _ := fun x => (hcounter x).trans (countP_all R x)
  have hdec := decode_reply (h := replyHeader header s.numQuestions false _ t) h12 hq hst hxs hnum
    ((hcount .answer).trans ha.length_eq) ((hcount .authority).trans hau.length_eq)
    ((hcount .additional).trans had.length_eq)
  rw [← hbuf] at hdec
  exact ⟨_, _, hreply, hdec, rfl, rfl, rfl, rfl, rfl⟩

/-- **End-to-end resolution.** In a forest with legal names, a standard query with one question, whose
name resolves to a zone `z`, whose `SOA` search ends at a zone `s` with name servers and whose reply fits,
is answered; the decoded reply has the ID and the question of the query and exactly the records of
`answersOf`, `authorityOf` and `additionalOf`, in order. -/
theorem resolution {queryBuffer : Memory} {datagram : Bytes} {header : MessageHeader}
    {q : Rfc1035.Question} {z s : ZonePtr} {au : Bool} (hz : LegalForest zones)
    (hquery : StandardQuery (received queryBuffer datagram) (datagram.take maxQueryBuffer).length header
      [q])
    (hl : lookup zones q.name = (some z, au)) (hs : getSoaZone z = .ok (some s))
    (hns : s.zone.ns ≠ [])
    (hfits : (processQuestions none zones (received queryBuffer datagram)
      (datagram.take maxQueryBuffer).length header []).2.length ≤ maxReplyBuffer) :
    ∃ reply m, (receive zones queryBuffer datagram).outcome = .sent reply ∧ decode reply = some m ∧
      m.header.id = header.id ∧ m.questions = [q] ∧ m.answers = answersOf zones z s q ∧
      m.authority = authorityOf s q ∧ m.additional = additionalOf zones z s q := by
  have hlen := length_question hz hl
  have hparse := hquery.parse_one (by rw [maxReplyBuffer]; omega) []
  set s₀ := Parsed.add ⟨[], [], 0, resize [] MessageHeader.size⟩ q with hs₀
  have hbuf : s₀.replyBuffer = List.replicate 12 0 ++ [q].flatMap encodeQuestion := by
    simp [hs₀, Parsed.add, resize, MessageHeader.size]
  have hfit : ∀ q' ∈ [q], Fit q'.name := fun q' hq' => (hquery.name q' hq').fit
  have hat : StoredAt (known headerHole s₀.replyBuffer) 12 q.name := by
    have := storedAt_of_question (a := List.replicate 12 0) (c := []) rfl hfit
      (by simp; omega) 12 q.name ⟨0, q, rfl, rfl, rfl⟩
    rwa [List.append_nil, ← hbuf] at this
  obtain ⟨R, hR, ha, hau, had⟩ := records_mean hz (content_asked q 12) hat hl hs hns
  obtain ⟨reply, m, hreply, hdecode, hid, hrest⟩ := reply_decodes hparse hbuf rfl hfit rfl hR ha hau had
    hfits
  exact ⟨reply, m, receive_of_processQuestions hquery hreply, hdecode, hid, hrest⟩

/-- A zone `a` with a name server `n`. -/
def zoneA : Zone := { label := [97], a := [1, 2], ns := [⟨[110]⟩], soa := some {} }

theorem reached_zoneA {z : ZonePtr} (h : Reached [zoneA] z) : z = ⟨zoneA, [], [0]⟩ := by
  induction h with
  | @root i z hi =>
    obtain ⟨hlt, rfl⟩ := List.getElem?_eq_some_iff.mp hi
    obtain rfl : i = 0 := by simpa using hlt
    rfl
  | child hp hi ih => subst ih; cases hi

/-- The addresses of `a` are asked for. -/
theorem resolution_a : ∃ reply m, (receive [zoneA] (fun _ => 0)
      (queryOctets ⟨7, 0, 1, 0, 0, 0⟩ [⟨[[97]], 1, 1⟩])).outcome = .sent reply ∧ decode reply = some m ∧
    m.header.id = 7 ∧ m.questions = [⟨[[97]], 1, 1⟩] ∧
    m.answers = answersOf [zoneA] ⟨zoneA, [], [0]⟩ ⟨zoneA, [], [0]⟩ ⟨[[97]], 1, 1⟩ ∧
    m.authority = authorityOf ⟨zoneA, [], [0]⟩ ⟨[[97]], 1, 1⟩ ∧
    m.additional = additionalOf [zoneA] ⟨zoneA, [], [0]⟩ ⟨zoneA, [], [0]⟩ ⟨[[97]], 1, 1⟩ :=
  have hquery : StandardQuery
      (received (fun _ => 0) (queryOctets ⟨7, 0, 1, 0, 0, 0⟩ [⟨[[97]], 1, 1⟩])) 19 ⟨7, 0, 1, 0, 0, 0⟩
      [⟨[[97]], 1, 1⟩] := by constructor <;> decide +kernel
  have hlegal : LegalForest [zoneA] := fun z hz => by
    rw [reached_zoneA hz]
    constructor <;> decide +kernel
  resolution hlegal hquery rfl rfl (by decide) (by decide +kernel)

end VUbercool.Dns
