import VUbercool.Dns.LabelParser

/-!
# Pointers in queries

Where `LabelHeader` follows a pointer of a query as RFC 1035 section 4.1.4 defines it.

* `History`: names parsed one after the other from a message, and the labels they made known.
* `Followed`: after a known label, the next label is known.
* `CompressedName`: a name with a pointer to a label of an earlier name.
* `resolves_iff`: it is parsed right exactly where the offset its octets make in host order, which is
  compared with the first character of a label, is by chance that of a label with the same rest.
-/

namespace VUbercool.Dns

open Octets Rfc1035

/-- **Names parsed one after the other** from a message of `n` octets, each in the segment from its
first octet to the end of the message; `known` are the labels they made known. -/
inductive History (mem : Memory) (n : ℕ) : List (List StringRef) → List StringRef → Prop
  | nil : History mem n [] []
  | parse {hist : List (List StringRef)} {known known' : List StringRef} {p : ℕ} {h : LabelHeader} :
      History mem n hist known → p ≤ n → LabelHeader.parse mem p (n - p) known = .ok (h, known') →
      History mem n (h.names :: hist) known'

variable {mem : Memory} {n stop : ℕ} {known : List StringRef} {hist : List (List StringRef)}

/-! ## Known labels -/

/-- What follows the label `v`, if it is a label, is known. -/
def Followed (mem : Memory) (known : List StringRef) (p : ℕ) : Prop :=
  mem p ≠ 0 → (mem p).toNat < 64 → labelAt mem (p + 1) (mem p).toNat ∈ known

theorem Followed.append {p : ℕ} (h : Followed mem known p) (more : List StringRef) :
    Followed mem (known ++ more) p :=
  fun h0 h64 => List.mem_append_left _ (h h0 h64)

/-- **The loop leaves no known label without the label after it.** -/
theorem labelLoop_followed : ∀ {fuel : ℕ} {st st' : LabelState}, labelLoop mem stop fuel st = .ok st' →
    (∀ v ∈ st.knownLabels, (st.isTraversingPointer = false ∧ v.stop = st.p) ∨
      Followed mem st.knownLabels v.stop) →
    (∀ v ∈ st'.knownLabels, Followed mem st'.knownLabels v.stop) ∧
      (st.isTraversingPointer = false → Followed mem st'.knownLabels st.p)
  | 0, _, _, h, _ => by cases h
  | fuel + 1, st, st', h, hk => by
    rcases labelLoop_ok h with hs | ⟨st₁, hs, hrest⟩
    · rcases labelStep_ok hs with ⟨h0, -, rfl, -⟩ | ⟨_, _, _, _, hd, _⟩ | ⟨_, _, hd, _⟩
      · refine ⟨fun v hv => ?_, fun _ h => absurd h0 h⟩
        rcases hk v hv with ⟨-, hstop⟩ | hf
        · exact fun h => absurd (hstop ▸ h0) h
        · exact hf
      · cases hd
      · cases hd
    · obtain ⟨_, _, more, -, -, -, -, hmore, -, -⟩ := labelLoop_walk hrest
      rcases labelStep_ok hs with ⟨_, hd, _⟩ | ⟨h0, h64, -, -, -, rfl⟩ | ⟨hp, -, -, v, hf, rfl⟩
      · cases hd
      · cases ht : st.isTraversingPointer with
        | true =>
          refine ⟨(labelLoop_followed hrest fun v hv => .inr ?_).1, fun h => by cases h⟩
          simp only [LabelState.afterLabel, ht, if_true] at hv ⊢
          exact (hk v hv).resolve_left fun h => by rw [ht] at h; cases h.1
        | false =>
          have hnew : labelAt mem (st.p + 1) (mem st.p).toNat ∈
              (st.afterLabel (labelAt mem (st.p + 1) (mem st.p).toNat)).knownLabels := by
            simp [LabelState.afterLabel, ht]
          refine ⟨(labelLoop_followed hrest fun v hv => ?_).1, fun _ _ _ => by
            rw [hmore]; exact List.mem_append_left _ hnew⟩
          simp only [LabelState.afterLabel, ht, Bool.false_eq_true, if_false] at hv hnew ⊢
          rcases List.mem_append.mp hv with hv | hv
          · rcases hk v hv with ⟨-, hstop⟩ | hf
            · exact .inr fun _ _ => by rw [hstop]; exact hnew
            · exact .inr (hf.append _)
          · rw [List.mem_singleton.mp hv]
            exact .inl ⟨trivial, by simp [labelAt, StringRef.stop]⟩
      · have hnot : Followed mem st.knownLabels st.p := fun _ h => absurd h (ne_zero_of_pointer hp).2
        refine ⟨(labelLoop_followed hrest fun v hv => .inr ?_).1, fun _ => ?_⟩
        · rcases hk v hv with ⟨-, hstop⟩ | hf
          · simpa [LabelState.afterPointer, hstop] using hnot
          · exact hf
        · rw [hmore]
          exact hnot.append _

theorem Walk.mem_known {p cost : ℕ} {names : List StringRef} (h : Walk mem stop known p names cost)
    (hk : ∀ v ∈ known, Followed mem known v.stop) (hp : Followed mem known p) :
    ∀ v ∈ names, v ∈ known := by
  induction h with
  | root => simp
  | @label p _ _ h0 h64 _ _ _ ih =>
    have hmem := hp h0 h64
    have hrest := ih (by simpa [labelAt, StringRef.stop] using hk _ hmem)
    exact fun v hv => (List.mem_cons.mp hv).elim (fun e => e ▸ hmem) (hrest v)
  | pointer _ _ hf _ ih =>
    have hmem := (findPointer_mem hf).1
    exact fun v hv => (List.mem_cons.mp hv).elim (fun e => e ▸ hmem) (ih (hk _ hmem) v)

theorem Placed.eq {v v' : StringRef} (h : Placed mem v) (h' : Placed mem v') (hp : v.pos = v'.pos) :
    v = v' := by
  obtain ⟨p, -, -, rfl⟩ := h
  obtain ⟨p', -, -, rfl⟩ := h'
  have : p = p' := by simpa [labelAt] using hp
  rw [this]

theorem History.known_spec (h : History mem n hist known) :
    (∀ v ∈ known, Followed mem known v.stop) ∧ (∀ v ∈ known, Placed mem v) ∧
    (∀ v ∈ known, ∃ names ∈ hist, v ∈ names) ∧
    ∀ names ∈ hist, (∀ v ∈ names, v ∈ known) ∧ ∃ p cost, Walk mem n known p names cost := by
  induction h with
  | nil => simp
  | @parse hist known known' p h _ hp hparse ih =>
    obtain ⟨ih1, ih2, ih3, ih4⟩ := ih
    rw [LabelHeader.parse] at hparse
    split_ifs at hparse with h1
    rw [show p + (n - p) = n by omega] at hparse
    cases hloop : labelLoop mem n labelRounds ⟨p, false, [], 0, 0, known⟩ with
    | error e => rw [hloop] at hparse; cases hparse
    | ok st' =>
      rw [hloop] at hparse
      simp only [bind, Except.bind, Except.ok.injEq, Prod.mk.injEq] at hparse
      obtain ⟨rfl, rfl⟩ := hparse
      obtain ⟨rest, cost, more, hw, hn, -, -, hk, hmore, -⟩ := labelLoop_walk hloop
      obtain ⟨hf, hstart⟩ := labelLoop_followed hloop fun v hv => .inr (ih1 v hv)
      simp only [List.nil_append] at hn hk hw
      have hmem := hw.mem_known hf (hstart rfl)
      refine ⟨hf, fun v hv => ?_, fun v hv => ?_, fun names hnames => ?_⟩
      · rw [hk] at hv
        exact (List.mem_append.mp hv).elim (ih2 v) fun hv => (hmore v hv).2
      · rw [hk] at hv
        rcases List.mem_append.mp hv with hv | hv
        · obtain ⟨names, hnames, hv'⟩ := ih3 v hv
          exact ⟨names, List.mem_cons_of_mem _ hnames, hv'⟩
        · exact ⟨_, List.mem_cons_self, by rw [hn]; exact (hmore v hv).1⟩
      · rcases List.mem_cons.mp hnames with rfl | hnames
        · rw [hn]
          exact ⟨hmem, p, cost, hw⟩
        · obtain ⟨h1, q, c, h2⟩ := ih4 names hnames
          rw [hk]
          exact ⟨fun v hv => List.mem_append_left _ (h1 v hv), q, c, h2.append _⟩

/-! ## Sizes -/

/-- What the labels after the first of `names` add to `size_`: a label that stands behind the one before
it adds its length, a label that a pointer leads to two, the root one. -/
def sizeAfter : List StringRef → ℕ
  | [] => 0
  | [_] => 1
  | v :: w :: rest => (if w.pos = v.stop + 1 then w.data.length else 2) + sizeAfter (w :: rest)

theorem sizeAfter_of_walk (hk : ∀ v ∈ known, Placed mem v) : ∀ {rest : List StringRef} {v : StringRef}
    {cost : ℕ}, Walk mem stop known v.stop rest cost → sizeAfter (v :: rest) = cost
  | [], _, _, h => by cases h; rfl
  | w :: rest, v, _, h => by
    generalize hp : v.stop = p at h
    cases h with
    | label h0 h64 _ _ h =>
      have hrec := sizeAfter_of_walk hk (v := labelAt mem (p + 1) (mem p).toNat)
        (by simpa [labelAt, StringRef.stop] using h)
      rw [sizeAfter, hrec, if_pos (by simp [labelAt, hp])]
      simp [labelAt]
    | pointer hptr _ hf h =>
      obtain ⟨q, -, hq64, hq⟩ := hk w (findPointer_mem hf).1
      have hne : w.pos ≠ v.stop + 1 := fun e => by
        rw [hq, hp] at e
        have : q = p := by simpa [labelAt] using e
        exact (ne_zero_of_pointer hptr).2 (this ▸ hq64)
      rw [sizeAfter, sizeAfter_of_walk hk h, if_neg hne]

/-! ## Names with a pointer -/

/-- The offset the two octets of a pointer make in the order of the host. -/
def hostOffset (c d : UInt8) : ℕ := d.toNat % 64 * 256 + c.toNat

theorem toNat_hostPointer (p : ℕ) :
    (load16 mem p &&& ~~~0xC000).toNat = hostOffset (mem p) (mem (p + 1)) := by
  have := (mem p).toNat_lt
  rw [toNat_mask, toNat_load16, hostOffset]
  omega

/-- **A name with a pointer**: at `p` the labels `ls` and the pointer `c`, `d`, which leads to the length
octet of the `i`-th label of `names`, a name that was parsed before. -/
structure CompressedName (mem : Memory) (n : ℕ) (hist : List (List StringRef))
    (known : List StringRef) (p : ℕ) (ls : List Label) (c d : UInt8) (names : List StringRef)
    (i : ℕ) : Prop where
  history : History mem n hist known
  legal : LegalLabels ls
  holds : Holds mem p (encodeLabels ls ++ [c, d])
  inside : p + (encodeLabels ls).length + 2 ≤ n
  pointer : 192 ≤ c
  earlier : names ∈ hist
  target : ∃ v, names[i]? = some v ∧ v.pos = pointerTarget c d + 1
  size_le : textLength ls + 2 + sizeAfter (names.drop i) ≤ 255

/-- The constructor succeeds with the labels `ls` and then `tail`, and `GetSize()` covers `ls` and a
pointer. -/
def Resolves (mem : Memory) (n : ℕ) (known : List StringRef) (p : ℕ) (ls tail : List Label) : Prop :=
  ∃ h known', LabelHeader.parse mem p (n - p) known = .ok (h, known') ∧ h.getLabels = ls ++ tail ∧
    h.getSize = (encodeLabels ls).length + 2

theorem walk_explicit {cost : ℕ} {rest : List StringRef} : ∀ {ls : List Label} {p : ℕ},
    LegalLabels ls → Holds mem p (encodeLabels ls) → p + (encodeLabels ls).length ≤ stop →
    Walk mem stop known (p + (encodeLabels ls).length) rest cost →
    Walk mem stop known p (labelRefs p ls ++ rest) (textLength ls + cost)
  | [], p, _, _, _, h => by simpa [encodeLabels, labelRefs, textLength] using h
  | l :: ls, p, hl, hm, hend, h => by
    obtain ⟨hne, hlen, hl64, hread, hpat, hrest⟩ := holds_label hl hm
    have hlength : p + (encodeLabels (l :: ls)).length =
        p + 1 + l.length + (encodeLabels ls).length := by
      simp only [encodeLabels, List.length_cons, List.length_append]; omega
    rw [hlength] at hend h
    have hrec := walk_explicit hl.tail hrest hend h
    have hw := @Walk.label _ stop _ _ _ _ hne (by omega) (by omega) (by rw [hlen, hread]; exact hpat)
      (by rw [hlen]; exact hrec)
    rw [hlen, labelAt, hread, ← Nat.add_assoc] at hw
    simpa [labelRefs, textLength] using hw

theorem mem_labelRefs {v : StringRef} : ∀ {ls : List Label} {p : ℕ}, v ∈ labelRefs p ls →
    ∃ pre ms, ls = pre ++ v.data :: ms ∧ v.pos = p + (encodeLabels pre).length + 1
  | [], _, h => by cases h
  | l :: ls, p, h => by
    rcases List.mem_cons.mp h with rfl | h
    · exact ⟨[], ls, rfl, rfl⟩
    · obtain ⟨pre, ms, rfl, hp⟩ := mem_labelRefs h
      refine ⟨l :: pre, ms, rfl, ?_⟩
      rw [hp, encodeLabels]
      simp only [List.length_cons, List.length_append]
      omega

theorem LegalLabels.of_append {ls ms : List Label} (h : LegalLabels (ls ++ ms)) : LegalLabels ms :=
  ⟨fun x hx => h.fit x (List.mem_append_right _ hx), fun x hx => h.chars x (List.mem_append_right _ hx)⟩

/-- **A name may not point into itself**: the walk from one of its own labels would come back to the
pointer for ever. -/
theorem not_walk_own {p cost : ℕ} {ls : List Label} {v : StringRef} {rest : List StringRef}
    (hl : LegalLabels ls) (hm : Holds mem p (encodeLabels ls))
    (hptr : mem (p + (encodeLabels ls).length) &&& 0xC0 = 0xC0)
    (hend : p + (encodeLabels ls).length + 1 < stop)
    (hf : findPointer (load16 mem (p + (encodeLabels ls).length) &&& ~~~0xC000) known = .ok v)
    (hv : v ∈ labelRefs p ls) : ¬ Walk mem stop known v.stop rest cost := by
  intro hw
  obtain ⟨pre, ms, rfl, hp⟩ := mem_labelRefs hv
  have hsplit : encodeLabels (pre ++ v.data :: ms) =
      (encodeLabels pre ++ (UInt8.ofNat v.data.length :: v.data)) ++ encodeLabels ms := by
    rw [encodeLabels_append, encodeLabels, List.append_assoc]
  have hstop : p + (encodeLabels pre ++ (UInt8.ofNat v.data.length :: v.data)).length = v.stop := by
    rw [StringRef.stop, hp]
    simp only [List.length_append, List.length_cons]
    omega
  have hlen : v.stop + (encodeLabels ms).length =
      p + (encodeLabels (pre ++ v.data :: ms)).length := by
    rw [← hstop, hsplit]
    simp only [List.length_append]
    omega
  have hms : Holds mem v.stop (encodeLabels ms) := by
    rw [hsplit, holds_append, hstop] at hm
    exact hm.2
  have hlegal : LegalLabels ms := (hl.of_append : LegalLabels (v.data :: ms)).tail
  have hround := walk_explicit hlegal hms (by omega) (hlen ▸ Walk.pointer hptr hend hf hw)
  have hlength := congrArg List.length (hw.unique hround).1
  simp at hlength
  omega

theorem parse_explicit {p : ℕ} {ls : List Label} (hl : LegalLabels ls)
    (hm : Holds mem p (encodeLabels ls)) (hp : p < n) (hend : p + (encodeLabels ls).length ≤ n)
    (hsize : textLength ls ≤ 255) : ∃ fuel, fuel + ls.length = 255 ∧
      LabelHeader.parse mem p (n - p) known = (labelLoop mem n (fuel + 1)
        (LabelState.afterLabels ⟨p, false, [], 0, 0, known⟩ ls)).bind fun st =>
          .ok (⟨st.names, st.size, st.bufferSize⟩, st.knownLabels) := by
  have hle := length_le_textLength hl.fit
  have hloop : labelLoop mem n (255 - ls.length + 1 + ls.length) ⟨p, false, [], 0, 0, known⟩ = _ :=
    labelLoop_explicit hl hm (by simp only; omega) rfl (by simp only; omega)
  refine ⟨255 - ls.length, by omega, ?_⟩
  rw [LabelHeader.parse, if_neg (by omega), show p + (n - p) = n by omega,
    show labelRounds = 255 - ls.length + 1 + ls.length by rw [labelRounds]; omega, hloop]
  rfl

/-- **A pointer to a label of an earlier name** is found, and the rest of that name is walked from
there. -/
theorem findPointer_earlier (h : History mem n hist known) {names : List StringRef} (hn : names ∈ hist)
    {j : ℕ} {v : StringRef} (hj : names[j]? = some v) {pointer : UInt16} (hp : v.pos = pointer.toNat)
    (more : List StringRef) : findPointer pointer (known ++ more) = .ok v ∧
      Walk mem n (known ++ more) v.stop (names.drop (j + 1)) (sizeAfter (names.drop j)) := by
  obtain ⟨-, hplaced, -, hhist⟩ := h.known_spec
  obtain ⟨hmem, q, _, hw⟩ := hhist names hn
  have hv := hmem v (List.mem_of_getElem? hj)
  obtain ⟨cost, hcost⟩ := hw.drop hj
  have hsize : sizeAfter (names.drop j) = cost := by
    obtain ⟨hlt, rfl⟩ := List.getElem?_eq_some_iff.mp hj
    rw [List.drop_eq_getElem_cons hlt]
    exact sizeAfter_of_walk hplaced hcost
  refine ⟨findPointer_append _ (findPointer_ok.mpr ?_), hsize ▸ hcost.append _⟩
  cases hfind : known.find? (·.pos == pointer.toNat) with
  | none => exact absurd (by simpa using hp) (List.find?_eq_none.mp hfind v hv)
  | some w =>
    have hw := List.find?_some hfind
    rw [(hplaced w (List.mem_of_find?_eq_some hfind)).eq (hplaced v hv)
      (by rw [hp]; simpa using hw)]

/-- **When a pointer is resolved right.** The parser looks for a known label whose first character
stands where the octets of the pointer say in host order. So it finds the labels of the earlier name
exactly where that is the place of a label with the same labels from there on. -/
theorem resolves_iff {p i : ℕ} {ls : List Label} {c d : UInt8} {names : List StringRef}
    (h : CompressedName mem n hist known p ls c d names i) :
    Resolves mem n known p ls ((names.drop i).map StringRef.data) ↔
      ∃ names' ∈ hist, ∃ j v, names'[j]? = some v ∧ v.pos = hostOffset c d ∧
        (names'.drop j).map StringRef.data = (names.drop i).map StringRef.data ∧
        textLength ls + 2 + sizeAfter (names'.drop j) ≤ 255 := by
  have hsize := h.size_le
  have hinside := h.inside
  have hle := length_le_textLength h.legal.fit
  obtain ⟨hm, hcd⟩ := holds_append.mp h.holds
  obtain ⟨hc, hd⟩ := holds_cons.mp hcd
  have hptr : mem (p + (encodeLabels ls).length) &&& 0xC0 = 0xC0 := by
    rw [hc]; exact (and_0xC0_eq_iff c).mpr h.pointer
  have hoff : (load16 mem (p + (encodeLabels ls).length) &&& ~~~0xC000).toNat = hostOffset c d := by
    rw [toNat_hostPointer, hc, (holds_cons.mp hd).1]
  obtain ⟨fuel, hfuel, hparse⟩ := parse_explicit (n := n) (p := p) h.legal hm
    (by omega) (by omega) (by omega)
  rw [Resolves, hparse]
  constructor
  · rintro ⟨hd', known', hp, hlabels, -⟩
    cases hl : labelLoop mem n (fuel + 1) (LabelState.afterLabels ⟨p, false, [], 0, 0, known⟩ ls) with
    | error e => rw [hl] at hp; cases hp
    | ok st' =>
      rw [hl] at hp
      cases hp
      rcases labelLoop_ok hl with hs | ⟨st₁, hs, hrest⟩
      · rcases labelStep_ok hs with ⟨h0, _⟩ | ⟨_, _, _, _, hd, _⟩ | ⟨_, _, hd, _⟩
        · exact absurd h0 (ne_zero_of_pointer hptr).1
        · cases hd
        · cases hd
      rcases labelStep_ok hs with ⟨_, hd, _⟩ | ⟨_, h64, _⟩ | ⟨-, hend, -, v, hf, rfl⟩
      · cases hd
      · exact absurd h64 (ne_zero_of_pointer hptr).2
      obtain ⟨rest, cost, more, hw, hn, hsz, hsz', hk, -, hmore⟩ := labelLoop_walk hrest
      rw [hmore rfl, List.append_nil] at hk
      rw [hk] at hw
      obtain ⟨hv, hpos⟩ := findPointer_mem hf
      rcases List.mem_append.mp hv with hv | hv
      · obtain ⟨-, -, hknown, -⟩ := h.history.known_spec
        obtain ⟨names', hn', hv⟩ := hknown v hv
        obtain ⟨j, hj⟩ := List.mem_iff_getElem?.mp hv
        obtain ⟨-, hw'⟩ := findPointer_earlier h.history hn' hj hpos (labelRefs p ls)
        obtain ⟨rfl, rfl⟩ := hw'.unique hw
        refine ⟨names', hn', j, v, hj, hpos.trans hoff, ?_, ?_⟩
        · obtain ⟨hlt, rfl⟩ := List.getElem?_eq_some_iff.mp hj
          rw [List.drop_eq_getElem_cons hlt]
          simpa [LabelHeader.getLabels, hn, LabelState.afterPointer, LabelState.afterLabels,
            map_data_labelRefs] using hlabels
        · simp [LabelState.afterPointer, LabelState.afterLabels] at hsz
          omega
      · exact absurd hw (not_walk_own h.legal hm hptr hend hf hv)
  · rintro ⟨names', hn, j, v, hj, hpos, hdata, hsz⟩
    obtain ⟨hf, hw⟩ := findPointer_earlier h.history hn hj (hpos.trans hoff.symm) (labelRefs p ls)
    have hcost := hw.length_lt
    rcases labelStep_pointer
      (s := LabelState.afterLabels ⟨p, false, [], 0, 0, known⟩ ls) hptr with
      ⟨v', _, _, hf', he⟩ | ⟨-, hno⟩
    · cases hf.symm.trans hf'
      obtain ⟨st', hl, hn', hb', -⟩ := labelLoop_of_walk hw (f := fuel)
        (s := LabelState.afterPointer (.afterLabels ⟨p, false, [], 0, 0, known⟩ ls) v)
        rfl rfl rfl (by simp [LabelState.afterPointer])
        (by simp [LabelState.afterPointer, LabelState.afterLabels]; omega) (by omega)
      refine ⟨_, _, by rw [labelLoop_next he, hl]; rfl, ?_, ?_⟩
      · obtain ⟨hlt, rfl⟩ := List.getElem?_eq_some_iff.mp hj
        rw [List.drop_eq_getElem_cons hlt] at hdata
        simpa [LabelHeader.getLabels, hn', LabelState.afterPointer, LabelState.afterLabels,
          map_data_labelRefs] using hdata
      · simp [LabelHeader.getSize, hb', LabelState.afterPointer, LabelState.afterLabels]
    · refine absurd ⟨?_, ?_, v, hf⟩ hno
      · simp only [LabelState.afterLabels]; omega
      · simp only [LabelState.afterLabels]; omega

/-- A header, the name `a` at 12, and at 15 a pointer to it: the octets `C0 0C`. -/
def pointerQuery : Memory := memoryOf (List.replicate 12 0 ++ [1, 97, 0, 192, 12])

theorem pointerQuery_history : History pointerQuery 17 [[⟨13, [97]⟩]] [⟨13, [97]⟩] :=
  .parse (h := ⟨[⟨13, [97]⟩], 2, 3⟩) (p := 12) .nil (by decide) (by decide +kernel)

/-- The pointer of an ordinary query is not resolved: it is looked for at offset 3072. -/
theorem not_resolves : ¬ ∀ (mem : Memory) (n : ℕ) (hist : List (List StringRef))
    (known : List StringRef) (p : ℕ) (ls : List Label) (c d : UInt8) (names : List StringRef) (i : ℕ),
    CompressedName mem n hist known p ls c d names i →
      Resolves mem n known p ls ((names.drop i).map StringRef.data) := by
  intro h
  obtain ⟨_, _, hp, -⟩ := h pointerQuery 17 _ _ 15 [] 192 12 [⟨13, [97]⟩] 0
    { history := pointerQuery_history
      legal := ⟨List.forall_mem_nil _, List.forall_mem_nil _⟩
      holds := by decide +kernel
      inside := by decide
      pointer := by decide
      earlier := by simp
      target := ⟨⟨13, [97]⟩, rfl, by decide⟩
      size_le := by decide }
  have herr : LabelHeader.parse pointerQuery 15 (17 - 15) [⟨13, [97]⟩] = .error (warThrow
      .illegalPointereException "Invalid label pointer (potential hostile request)!") := by
    decide +kernel
  rw [herr] at hp
  cases hp

/-- The name `a` at 64 and at 191, and at 194 a pointer to the first: the octets `C0 40`. -/
def chancePointerQuery : Memory :=
  memoryOf (List.replicate 64 0 ++ [1, 97, 0] ++ List.replicate 124 0 ++ [1, 97, 0, 192, 64])

theorem chancePointerQuery_history : History chancePointerQuery 196
    [[⟨192, [97]⟩], [⟨65, [97]⟩]] [⟨65, [97]⟩, ⟨192, [97]⟩] :=
  have hfirst : History chancePointerQuery 196 [[⟨65, [97]⟩]] [⟨65, [97]⟩] :=
    .parse (h := ⟨[⟨65, [97]⟩], 2, 3⟩) (p := 64) .nil (by decide) (by decide +kernel)
  .parse (h := ⟨[⟨192, [97]⟩], 2, 3⟩) (p := 191) hfirst (by decide) (by decide +kernel)

theorem resolves_by_chance : Resolves chancePointerQuery 196 [⟨65, [97]⟩, ⟨192, [97]⟩] 194 [] [[97]] :=
  have hname : CompressedName chancePointerQuery 196 [[⟨192, [97]⟩], [⟨65, [97]⟩]]
      [⟨65, [97]⟩, ⟨192, [97]⟩] 194 [] 192 64 [⟨65, [97]⟩] 0 :=
    { history := chancePointerQuery_history
      legal := ⟨List.forall_mem_nil _, List.forall_mem_nil _⟩
      holds := by decide +kernel
      inside := by decide
      pointer := by decide
      earlier := by simp
      target := ⟨⟨65, [97]⟩, rfl, by decide⟩
      size_le := by decide }
  (resolves_iff hname).mpr
    ⟨[⟨192, [97]⟩], by simp, 0, ⟨192, [97]⟩, rfl, by decide, rfl, by decide⟩

end VUbercool.Dns
