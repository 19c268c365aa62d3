import VUbercool.Dns.SoaSearch
import VUbercool.Dns.Questions
import VUbercool.Dns.Replies
import Mathlib.Data.List.Induction

/-!
# Authority

The server has two notions of authority: `Lookup` tells the flag of the last zone it matched, and the AA bit
is that of the zone the `SOA` search ends at.

* `DeepestMatch`, `lookup_deepest`: the deepest zone a name matches, and what `Lookup` tells of it.
* `receive_missing`: what a query about a name without a zone leads to.
* `getAa_existing`: the AA bit of a reply about a zone.
* `authorityAgrees_iff`: the two notions agree exactly where the flag of the deepest zone matched is that of
  the zone that governs it.
-/

namespace VUbercool.Dns

open Octets Rfc1035 Proc

variable {zones : List Zone} {d : ZonePtr} {queryBuffer : Memory} {datagram : Bytes}
  {header : MessageHeader} {q : Rfc1035.Question}

/-! ## The deepest match -/

theorem lookupIn_append {more : List Bytes} (hmore : more ≠ []) : ∀ {key : List Bytes}
    {ancestors : List Zone} {address : List ℕ} {zones : List Zone} {au au' : Bool},
    lookupIn ancestors address key zones au = (some d, au') →
    lookupIn ancestors address (key ++ more) zones au =
      lookupIn (d.zone :: d.ancestors) d.address more d.zone.children d.zone.authorative
  | [], _, _, _, _, _, h => by cases h
  | label :: key, ancestors, address, zones, au, au', h => by
    unfold lookupIn at h
    rw [List.cons_append, lookupIn]
    split at h
    · cases h
    · next i rval hs =>
      have hne : (key ++ more).isEmpty = false := by simp [hmore]
      simp only [hne, Bool.false_eq_true, if_false]
      split_ifs at h with hkey
      · cases h
        rw [List.isEmpty_iff.mp hkey, List.nil_append]
      · exact lookupIn_append hmore h

/-- `d` is the deepest zone that a name matches: it is the zone of the labels at the end of the name, and
with one label more there is none. -/
def DeepestMatch (zones : List Zone) (name : List Bytes) (d : ZonePtr) : Prop :=
  ∃ pre label rest au, name = pre ++ label :: rest ∧ lookup zones rest = (some d, au) ∧
    (lookup zones (label :: rest)).1 = none

/-- **`Lookup` tells the flag of the deepest zone it matched.** -/
theorem lookup_deepest {name : List Bytes} (h : DeepestMatch zones name d) :
    lookup zones name = (none, d.zone.authorative) := by
  obtain ⟨pre, label, rest, au, rfl, hd, hnone⟩ := h
  rw [lookup] at hd hnone ⊢
  have hselect : selectZone label d.zone.children 0 none = none := by
    rw [List.reverse_cons, lookupIn_append (by simp) hd, lookupIn] at hnone
    split at hnone
    · assumption
    · cases hnone
  rw [List.reverse_append, List.reverse_cons, List.append_assoc, lookupIn_append (by simp) hd,
    List.singleton_append, lookupIn, hselect]

/-! ## Queries with one question -/

/-- **A standard query with one question**, about a name of at most 255 octets. -/
structure OneQuestion (queryBuffer : Memory) (datagram : Bytes) (header : MessageHeader)
    (q : Rfc1035.Question) : Prop where
  query : StandardQuery (received queryBuffer datagram) (datagram.take maxQueryBuffer).length header [q]
  name_le : (encodeLabels q.name).length + 1 ≤ 255

theorem OneQuestion.parse (h : OneQuestion queryBuffer datagram header q) :
    parseQuestions (received queryBuffer datagram) (datagram.take maxQueryBuffer).length header
        ⟨[], [], 0, resize [] MessageHeader.size⟩ =
      (.ok (), Parsed.add ⟨[], [], 0, resize [] MessageHeader.size⟩ q) := by
  have hlen := h.name_le
  exact h.query.parse_one (by rw [length_encodeQuestion, maxReplyBuffer]; omega) []

/-- What a name without a zone leads to. -/
def missing (au : Bool) : Fault :=
  if au then warThrow .unknownSubDomain "Unknown sub-domain" else warThrow .unknownDomain "Unknown domain"

/-- **A query about a name without a zone** is answered with a name error if `Lookup` told the flag of a
zone, else it is not answered. -/
theorem receive_missing (h : OneQuestion queryBuffer datagram header q) {au : Bool}
    (hl : lookup zones q.name = (none, au)) : (receive zones queryBuffer datagram).outcome =
      if au then .sent (errorHeader .nameError header).octets else .silent := by
  set s₀ := Parsed.add ⟨[], [], 0, resize [] MessageHeader.size⟩ q with hs₀
  have hquestions : s₀.questions = [asked q 12] := rfl
  have hlookup : lookup zones (asked q 12).getLabels = (none, au) := by
    rw [← hl]
    exact congrArg (lookup zones) (map_data_labelRefs 12 q.name)
  have hraise : ∀ s, processQuestion (some maxReplyBuffer) zones (asked q 12) s =
      (.error (missing au), s) := by
    intro s
    rw [processQuestion, hlookup]
    cases au <;> rfl
  have hanswer : ∀ s, answer (some maxReplyBuffer) zones [asked q 12] s = (.error (missing au), s) := by
    intro s
    rw [answer, forM_cons]
    exact bind_error (bind_error (hraise s))
  rw [receive_standard h.query.parsed h.query.qr h.query.opcode, processQuestions, h.parse]
  simp only [← hs₀, hquestions, hanswer]
  cases au <;> rfl

/-! ## The AA bit -/

/-- What the two notions of authority share: the zone that governs `d` exists and is marked authorative. -/
def ZonePtr.authoritative (d : ZonePtr) : Bool := d.governing.any (·.zone.authorative)

theorem stable_authorative (limit : Option ℕ) (a : Bool) :
    Stable limit fun s => s.2.authorative = a where
  emit x := by
    rintro ⟨o, t⟩ h
    cases hrun : storeIn limit x o with
    | mk r o' =>
      have he : emit limit x (o, t) = (r, (o', t)) := onFst_apply hrun
      rw [he]
      exact ⟨fun _ _ h' => (by cases h'; exact h), fun _ _ h' => by cases h'; exact h⟩
  authorativeZone _ := fun _ h => ⟨fun _ _ h' => (by cases h'; exact h), fun _ _ h' => by cases h'⟩
  nsZone _ := fun _ h => ⟨fun _ _ h' => (by cases h'; exact h), fun _ _ h' => by cases h'⟩

theorem processQuestion_authorative {limit : Option ℕ} {question : Question} {au : Bool}
    (hl : lookup zones question.getLabels = (some d, au)) (hd : getSoaZone d = .ok d.governing) :
    Triple (fun s => s.2.authorative = true) (processQuestion limit zones question)
      (fun _ s => s.2.authorative = d.authoritative) (fun _ s => s.2.authorative = d.authoritative) := by
  have hs := stable_authorative limit d.authoritative
  rw [processQuestion_found hl hd]
  refine Triple.bind ?_ fun _ => (hs.processQtype question d d.governing).bind fun _ =>
    .when fun _ => hs.authorativeZone _
  rintro ⟨o, t⟩ h
  by_cases hg : d.governing.any (·.zone.authorative) = true
  · rw [when_neg (by simp [hg])]
    exact ⟨fun _ _ h' => (by cases h'; exact h.trans hg.symm), fun _ _ h' => by cases h'⟩
  · have hfalse : d.authoritative = false := by simpa [ZonePtr.authoritative] using hg
    rw [when_pos (by simpa using hg), hfalse]
    exact ⟨fun _ _ h' => (by cases h'; rfl), fun _ _ h' => by cases h'⟩

/-- **The AA bit of a reply about `d`.** -/
theorem getAa_existing (h : OneQuestion queryBuffer datagram header q) {au : Bool}
    (hl : lookup zones q.name = (some d, au)) (hd : getSoaZone d = .ok d.governing) {reply : Bytes}
    (hreply : processQuestions (some maxReplyBuffer) zones (received queryBuffer datagram)
      (datagram.take maxQueryBuffer).length header [] = (.ok (), reply)) :
    ∃ hdr, MessageHeader.ofBuffer (memoryOf reply) reply.length = .ok hdr ∧
      hdr.getAa = d.authoritative := by
  obtain ⟨s, r, truncated, o, t, hparse, hrun, -, rfl⟩ := processQuestions_run hreply
  rw [h.parse] at hparse
  cases hparse
  have hlookup : lookup zones (asked q 12).getLabels = (some d, au) := by
    rw [← hl]
    exact congrArg (lookup zones) (map_data_labelRefs 12 q.name)
  have hanswer : Triple (fun s => s.2.authorative = true) (answer (some maxReplyBuffer) zones [asked q 12])
      (fun _ s => s.2.authorative = d.authoritative) (fun _ s => s.2.authorative = d.authoritative) :=
    ((processQuestion_authorative hlookup hd).bind fun _ => .pure fun _ h => h).bind fun _ =>
      (stable_authorative _ _).rest
  have ht : t.authorative = d.authoritative := by
    obtain ⟨hok, herr⟩ := hanswer ({ wire := ⟨_, []⟩ }, {}) rfl
    cases r with
    | ok u => exact hok _ _ hrun
    | error e => exact herr _ _ hrun
  refine ⟨_, MessageHeader.ofBuffer_append _ _, ?_⟩
  rw [← ht]
  exact getFlag_setFlag (by decide) _ _

/-! ## Agreement -/

/-- **The two notions of authority agree about `d`**: a query about a name whose deepest match it is gets a
name error if `d` is under authority and nothing otherwise, and every reply about `d` itself tells that in
its AA bit. -/
structure AuthorityAgrees (zones : List Zone) (d : ZonePtr) (queryBuffer : Memory) (datagram : Bytes)
    (header : MessageHeader) : Prop where
  missing : (receive zones queryBuffer datagram).outcome =
    if d.authoritative then .sent (errorHeader .nameError header).octets else .silent
  existing : ∀ queryBuffer datagram header q au reply, OneQuestion queryBuffer datagram header q →
    lookup zones q.name = (some d, au) →
    processQuestions (some maxReplyBuffer) zones (received queryBuffer datagram)
      (datagram.take maxQueryBuffer).length header [] = (.ok (), reply) →
    ∃ hdr, MessageHeader.ofBuffer (memoryOf reply) reply.length = .ok hdr ∧
      hdr.getAa = d.authoritative

/-- **When the two notions of authority agree.** -/
theorem authorityAgrees_iff (hends : ∀ z, Reached zones z → ∃ s, getSoaZone z = .ok s)
    (h : OneQuestion queryBuffer datagram header q) (hd : DeepestMatch zones q.name d) :
    AuthorityAgrees zones d queryBuffer datagram header ↔ d.zone.authorative = d.authoritative := by
  have hout := receive_missing h (lookup_deepest hd)
  have hgoverned : getSoaZone d = .ok d.governing := by
    obtain ⟨-, -, rest, au, -, hrest, -⟩ := hd
    obtain ⟨s, hs⟩ := hends d (lookup_reached hrest)
    by_cases hshallow : Shallow d
    · exact getSoaZone_of_shallow hshallow
    · rw [getSoaZone_of_not_shallow hshallow] at hs
      cases hs
  constructor
  · rintro ⟨hmissing, -⟩
    rw [hout] at hmissing
    cases hau : d.zone.authorative <;> cases hg : d.authoritative <;> simp [hau, hg] at hmissing ⊢
  · intro heq
    refine ⟨by rw [hout, heq], ?_⟩
    intro queryBuffer datagram header q au reply hq hl hreply
    exact getAa_existing hq hl hgoverned hreply

/-- `@a { authorative true soa { } @b { } }`. -/
def mixedForest : List Zone :=
  [{ label := [97], soa := some {}, children := [{ label := [98], authorative := false }] }]

theorem getSoaZone_mixedForest {z : ZonePtr} (hz : Reached mixedForest z) : ∃ s, getSoaZone z = .ok s := by
  have hall : ∀ z, Reached mixedForest z → z = ⟨mixedForest.head (by decide), [], [0]⟩ ∨
      z = ⟨{ label := [98], authorative := false }, [mixedForest.head (by decide)], [0, 0]⟩ := by
    intro z hz
    induction hz with
    | @root i z hi =>
      obtain ⟨hlt, rfl⟩ := List.getElem?_eq_some_iff.mp hi
      obtain rfl : i = 0 := by simpa [mixedForest] using hlt
      exact .inl rfl
    | @child p i z hp hi ih =>
      obtain ⟨hlt, rfl⟩ := List.getElem?_eq_some_iff.mp hi
      rcases ih with rfl | rfl
      · obtain rfl : i = 0 := by simpa [mixedForest] using hlt
        exact .inr rfl
      · cases hlt
  rcases hall z hz with rfl | rfl
  · exact ⟨_, rfl⟩
  · exact ⟨_, rfl⟩

theorem oneQuestion_mixedForest :
    ∀ q ∈ [(⟨[[99], [97]], 1, 1⟩ : Rfc1035.Question), ⟨[[99], [98], [97]], 1, 1⟩], OneQuestion
      (fun _ => 0) (queryOctets ⟨7, 0, 1, 0, 0, 0⟩ [q]) ⟨7, 0, 1, 0, 0, 0⟩ q := by
  intro q hq
  simp only [List.mem_cons, List.not_mem_nil, or_false] at hq
  rcases hq with rfl | rfl
  · exact ⟨by constructor <;> decide +kernel, by decide⟩
  · exact ⟨by constructor <;> decide +kernel, by decide⟩

/-- A name below a zone that is governed by an authorative zone but not marked itself gets no reply. -/
theorem not_authorityAgrees : ¬ ∀ (zones : List Zone) (d : ZonePtr) (queryBuffer : Memory)
    (datagram : Bytes) (header : MessageHeader) (q : Rfc1035.Question),
    (∀ z, Reached zones z → ∃ s, getSoaZone z = .ok s) → OneQuestion queryBuffer datagram header q →
      DeepestMatch zones q.name d → AuthorityAgrees zones d queryBuffer datagram header := by
  intro h
  have hd : DeepestMatch mixedForest [[99], [98], [97]]
      ⟨{ label := [98], authorative := false }, [mixedForest.head (by decide)], [0, 0]⟩ :=
    ⟨[], [99], [[98], [97]], _, rfl, rfl, rfl⟩
  have hends : ∀ z, Reached mixedForest z → ∃ s, getSoaZone z = .ok s := fun z hz =>
    getSoaZone_mixedForest hz
  have hq := oneQuestion_mixedForest ⟨[[99], [98], [97]], 1, 1⟩ (by simp)
  exact absurd (h _ _ _ _ _ _ hends hq hd).missing (by decide +kernel)

/-- About a name below the authorative zone itself the two notions agree. -/
theorem authorityAgrees_ca : AuthorityAgrees mixedForest ⟨mixedForest.head (by decide), [], [0]⟩
    (fun _ => 0) (queryOctets ⟨7, 0, 1, 0, 0, 0⟩ [⟨[[99], [97]], 1, 1⟩]) ⟨7, 0, 1, 0, 0, 0⟩ :=
  (authorityAgrees_iff (fun _ hz => getSoaZone_mixedForest hz)
    (oneQuestion_mixedForest ⟨[[99], [97]], 1, 1⟩ (by simp))
    ⟨[], [99], [[97]], _, rfl, rfl, rfl⟩).mpr rfl

end VUbercool.Dns
