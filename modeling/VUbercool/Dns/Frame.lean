import VUbercool.Dns.Daemon
import VUbercool.Dns.Compression

/-!
# What the encoder leaves alone

* `write_frame`: a record is written behind what the buffer held before, also where writing it raises.
* `store_frame`: so is a store.
* `Keeps.answer`: the second pass of `ProcessQuestions` writes behind the questions.
-/

namespace VUbercool.Dns

open Octets Proc

/-- The buffer begins with `b` and has at least `m` more octets. -/
def Begins (b : Bytes) (m : ℕ) (w : Wire) : Prop := b <+: w.buffer ∧ b.length + m ≤ w.buffer.length

variable {b : Bytes} {m : ℕ} {E : Fault → Wire → Prop}

theorem Begins.refl (w : Wire) : Begins w.buffer 0 w := ⟨List.prefix_refl _, Nat.le_refl _⟩

theorem Begins.mono {m' : ℕ} {w : Wire} (h : Begins b m w) (hm : m' ≤ m) : Begins b m' w :=
  ⟨h.1, by have := h.2; omega⟩

namespace Wire

theorem size_triple :
    Triple (Begins b m) size (fun n w => Begins b m w ∧ b.length + m ≤ n) E := fun w h =>
  ⟨fun _ _ h' => (by cases h'; exact ⟨h, h.2⟩), fun _ _ h' => by cases h'⟩

theorem append_triple (octets : Bytes) :
    Triple (Begins b m) (append octets) (fun _ => Begins b m) E :=
  .modify fun w h =>
    ⟨h.1.trans (List.prefix_append _ _), by have := h.2; simp; omega⟩

theorem resize_triple {n k : ℕ} (hn : b.length + k ≤ n) :
    Triple (Begins b m) (resize n) (fun _ => Begins b k) E :=
  .modify fun w h => by
    obtain ⟨⟨t, ht⟩, -⟩ := h
    refine ⟨?_, by simpa using hn⟩
    show b <+: w.buffer.take n ++ List.replicate (n - w.buffer.length) 0
    rw [← ht, List.take_append, List.take_of_length_le (by omega), List.append_assoc]
    exact List.prefix_append _ _

theorem poke_triple {p : ℕ} (hp : b.length ≤ p) (octets : Bytes) :
    Triple (Begins b m) (poke p octets) (fun _ => Begins b m) E :=
  .modify fun w h => by
    obtain ⟨⟨t, ht⟩, hlen⟩ := h
    refine ⟨?_, by simp; omega⟩
    show b <+: w.buffer.take p ++ octets ++ w.buffer.drop (p + octets.length)
    rw [← ht, List.take_append, List.take_of_length_le hp, List.append_assoc, List.append_assoc]
    exact List.prefix_append _ _

end Wire

/-! ## Names -/

section Names

variable (hE : ∀ e w, Begins b m w → E e w)

include hE

theorem addLabel_frame (offset : UInt16) :
    Triple (Begins b m) (addLabel offset) (fun _ => Begins b m) E :=
  .bind .get fun _ => .bind (.ofExcept hE) fun _ => .modify fun _ h => h

theorem writeDomainName_frame (name : Bytes) :
    Triple (Begins b m) (writeDomainName name) (fun _ => Begins b m) E := by
  refine .bind .get fun w => .bind (.ofExcept hE) fun found => ?_
  cases found <;> exact .bind (Wire.append_triple _) fun _ => .bind Wire.size_triple fun _ =>
    .pure fun _ h => h.1

theorem writeZoneName_frame (name : Bytes) (zone : Option ZonePtr) :
    Triple (Begins b m) (writeZoneName name zone) (fun _ => Begins b m) E :=
  .bind Wire.size_triple fun _ => .of_and fun _ => .bind (writeDomainName_frame hE _) fun _ =>
    .bind (addLabel_frame hE _) fun _ => .bind Wire.size_triple fun _ => .pure fun _ h => h.1

end Names

/-! ## Records -/

section Records

theorem begins_zero (hE : ∀ e w, Begins b 0 w → E e w) : ∀ e w, Begins b m w → E e w :=
  fun e w h => hE e w (h.mono (Nat.zero_le _))

variable (hE : ∀ e w, Begins b 0 w → E e w)

include hE

theorem writeOwner_frame (o : Owner) :
    Triple (Begins b 0) (writeOwner o) (fun p w => Begins b 10 w ∧ b.length ≤ p) E := by
  have hend : ∀ p, b.length ≤ p → Triple (Begins b 0) (Wire.resize (p + 10) >>= fun _ => pure p)
      (fun p w => Begins b 10 w ∧ b.length ≤ p) E := fun p hp =>
    .bind (Wire.resize_triple (by omega)) fun _ => .pure fun _ h => ⟨h, hp⟩
  cases o with
  | namePtr namePtr =>
    refine .bind Wire.size_triple fun p => .of_and fun hp => ?_
    refine .bind (Wire.resize_triple (k := 12) (by omega)) fun _ => ?_
    refine .bind (Wire.poke_triple (by omega) _) fun _ => ?_
    refine .bind (addLabel_frame (begins_zero hE) _) fun _ => ?_
    exact .pure fun w h => ⟨h.mono (by omega), by omega⟩
  | name name =>
    rw [writeOwner]
    split
    · exact .bind (writeZoneName_frame hE _ _) fun _ =>
        .bind Wire.size_triple fun p => .of_and fun hp => hend p hp
    · exact .bind Wire.size_triple fun p => .of_and fun hp => hend p hp

/-- **`WriteHeader`** writes behind what the buffer held; `orig_len_` is its old size. -/
theorem writeHeader_frame (a : AnswerBase) :
    Triple (fun w => w.buffer = b) a.writeHeader (fun a w => Begins b 10 w ∧
      (a.origLen = b.length ∧ b.length ≤ a.rdlengthHdr)) E := by
  have hsize : Triple (fun w => w.buffer = b) Wire.size (fun n w => Begins b 0 w ∧ n = b.length) E :=
    fun w h => ⟨fun _ _ h' => by cases h'; subst h; exact ⟨.refl w, rfl⟩, fun _ _ h' => by cases h'⟩
  refine .bind hsize fun origLen => .of_and fun horig => ?_
  refine .bind (writeOwner_frame hE a.owner) fun p => .of_and fun hp => ?_
  refine .bind (Wire.poke_triple hp _) fun _ => ?_
  refine .bind Wire.size_triple fun n => .of_and fun hn => ?_
  refine .bind (Wire.poke_triple (by omega) _) fun _ => ?_
  exact .pure fun w h => ⟨h, horig, by simp only; omega⟩

/-- **A record is written behind what the buffer held before**, in at least ten octets. -/
theorem write_frame (r : ResourceRecord) :
    Triple (fun w => w.buffer = b) r.write (fun a w => Begins b 10 w ∧ a.origLen = b.length) E := by
  have hE' : ∀ e w, Begins b 10 w → E e w := begins_zero hE
  have hlength : ∀ (a : Written) (n : ℕ), a.origLen = b.length ∧ b.length ≤ a.rdlengthHdr →
      Triple (Begins b 10) (a.writeRdlength n) (fun a w => Begins b 10 w ∧ a.origLen = b.length) E :=
    fun a n ha => .bind (Wire.poke_triple ha.2 _) fun _ => .pure fun _ h => ⟨h, ha.1⟩
  have hrecord : ∀ (x : Writer ℕ) (base : AnswerBase),
      Triple (Begins b 10) x (fun _ => Begins b 10) E → Triple (fun w => w.buffer = b)
        (base.writeHeader >>= fun a => x >>= fun n => a.writeRdlength n)
        (fun a w => Begins b 10 w ∧ a.origLen = b.length) E :=
    fun x base hx => .bind (writeHeader_frame hE base) fun a => .of_and fun ha =>
      .bind hx fun n => hlength a n ha
  cases r with
  | a owner ip =>
    exact .bind (writeHeader_frame hE _) fun a => .of_and fun ha =>
      .bind (Wire.append_triple _) fun _ => .pure fun _ h => ⟨h, ha.1⟩
  | cname namePtr name => exact hrecord _ _ (writeZoneName_frame hE' _ _)
  | mx namePtr fqdn pri =>
    exact hrecord _ _ (.bind (Wire.append_triple _) fun _ => .bind (writeZoneName_frame hE' _ _)
      fun _ => .pure fun _ h => h)
  | ns domain fdqn => exact hrecord _ _ (writeZoneName_frame hE' _ _)
  | soa owner zone =>
    refine hrecord _ _ (.bind Wire.size_triple fun origSize => .of_and fun _ => ?_)
    cases zone.zone.soa with
    | none => exact .raise (hE' _)
    | some s =>
      refine .bind (.ofExcept hE') fun mname => .bind (writeZoneName_frame hE' _ _) fun _ => ?_
      exact .bind (writeZoneName_frame hE' _ _) fun _ => .bind (Wire.append_triple _) fun _ =>
        .bind Wire.size_triple fun _ => .pure fun _ h => h.1

end Records

/-! ## The second pass -/

/-- **A store keeps what the buffer began with**, also where it raises. -/
theorem store_frame (limit : Option ℕ) (r : ResourceRecord) :
    Triple (Begins b 0) (store limit r) (fun _ => Begins b 0) (fun _ => Begins b 0) := by
  have hat : ∀ b' : Bytes, b <+: b' → Triple (fun w => w.buffer = b') (store limit r)
      (fun _ => Begins b 0) (fun _ => Begins b 0) := by
    intro b' hb
    have hle : ∀ m w, Begins b' m w → Begins b 0 w := fun m w h =>
      ⟨hb.trans h.1, by have := hb.length_le; have := h.2; omega⟩
    refine .bind (write_frame (fun _ w h => hle 0 w h) r) fun written => .of_and fun hw => ?_
    refine .bind Wire.size_triple fun n => .of_and fun _ => ?_
    split
    · exact .bind (Wire.resize_triple (b := b') (k := 0) (by omega)) fun _ => .raise fun w h => hle 0 w h
    · exact .pure fun w h => hle 10 w h
  exact fun w h => hat w.buffer h.1 w rfl

theorem storeIn_frame (limit : Option ℕ) (x : Section × ResourceRecord) :
    Triple (fun o => Begins b 0 o.wire) (storeIn limit x) (fun _ o => Begins b 0 o.wire)
      (fun _ o => Begins b 0 o.wire) := by
  intro o h
  have hs := store_frame limit x.2 o.wire h
  unfold storeIn
  cases hrun : store limit x.2 o.wire with
  | mk r w =>
    cases r with
    | ok n =>
      refine ⟨fun _ _ h' => ?_, fun _ _ h' => by cases h'⟩
      cases h'
      rcases x with ⟨- | - | -, r⟩ <;> exact hs.1 n w hrun
    | error e => exact ⟨fun _ _ h' => (by cases h'), fun _ _ h' => by cases h'; exact hs.2 e w hrun⟩

/-- **What the second pass is made of keeps `P`**, whether it ends or raises: storing a record, and adding
a zone to a list. -/
structure Stable (limit : Option ℕ) (P : Outgoing × Referrals → Prop) : Prop where
  emit : ∀ x, Triple P (emit limit x) (fun _ => P) (fun _ => P)
  authorativeZone : ∀ zone, Triple P (refer fun t => t.addAuthorativeZone zone) (fun _ => P) (fun _ => P)
  nsZone : ∀ zone, Triple P (refer fun t => t.addNsZone zone) (fun _ => P) (fun _ => P)

namespace Stable

variable {limit : Option ℕ} {zones : List Zone} {P : Outgoing × Referrals → Prop}

theorem storeCname (h : Stable limit P) (zone : ZonePtr) (question : Question) :
    Triple P (storeCname limit zone question) (fun _ => P) (fun _ => P) :=
  (h.emit _).bind fun _ => .pure fun _ h => h

theorem processQtype (h : Stable limit P) (question : Question) (zone : ZonePtr)
    (soaZone : Option ZonePtr) :
    Triple P (processQtype limit zones question zone soaZone) (fun _ => P) (fun _ => P) := by
  unfold Dns.processQtype
  split_ifs
  · refine (h.storeCname zone question).bind fun _ => .when fun _ => ?_
    split
    · exact .forM fun _ _ => h.emit _
    · exact .pure fun _ h => h
  · exact .forM fun _ _ => h.emit _
  · exact .when fun _ => (h.storeCname zone question).bind fun _ => .pure fun _ h => h
  · split
    · exact .raise fun _ h => h
    · exact (h.emit _).bind fun _ => h.authorativeZone _
  · exact h.authorativeZone _
  · exact .forM fun _ _ => (h.emit _).bind fun _ => h.nsZone _
  · exact .pure fun _ h => h

theorem processNsAuthZone (h : Stable limit P) (zone : ZonePtr) :
    Triple P (processNsAuthZone limit zones zone) (fun _ => P) (fun _ => P) :=
  .forM fun _ _ => (h.emit _).bind fun _ => h.nsZone _

theorem processNsZone (h : Stable limit P) (zone : ZonePtr) :
    Triple P (processNsZone limit zone) (fun _ => P) (fun _ => P) :=
  .forM fun _ _ => h.emit _

theorem rest (h : Stable limit P) : Triple P (do
      (← Proc.get).2.authorativeZones.forM (Dns.processNsAuthZone limit zones)
      (← Proc.get).2.nsZones.forM (Dns.processNsZone limit) : Processing Unit)
    (fun _ => P) (fun _ => P) :=
  Triple.get.bind fun _ => (Triple.forM fun zone _ => h.processNsAuthZone zone).bind fun _ =>
    Triple.get.bind fun _ => .forM fun zone _ => h.processNsZone zone

end Stable

/-- A computation on a reply that keeps what the reply begins with, whether it ends or raises. -/
def Keeps {α : Type} (b : Bytes) (x : Processing α) : Prop :=
  Triple (fun s => Begins b 0 s.1.wire) x (fun _ s => Begins b 0 s.1.wire)
    (fun _ s => Begins b 0 s.1.wire)

namespace Keeps

variable {α β : Type} {x : Processing α} {f : α → Processing β} {limit : Option ℕ} {zones : List Zone}

theorem raise (e : Fault) : Keeps b (Proc.raise e : Processing α) := Triple.raise fun _ h => h

theorem ofExcept (y : Except Fault α) : Keeps b (Proc.ofExcept y : Processing α) :=
  Triple.ofExcept fun _ _ h => h

theorem bind (hx : Keeps b x) (hf : ∀ a, Keeps b (f a)) : Keeps b (x >>= f) := Triple.bind hx hf

theorem forM {γ : Type} {g : γ → Processing Unit} {cs : List γ} (h : ∀ c, Keeps b (g c)) :
    Keeps b (cs.forM g) := Triple.forM fun c _ => h c

theorem refer (f : Referrals → Referrals) : Keeps b (refer f) := fun _ h =>
  ⟨fun _ _ h' => (by cases h'; exact h), fun _ _ h' => by cases h'⟩

theorem emit (x : Section × ResourceRecord) : Keeps b (emit limit x) := by
  rintro ⟨o, t⟩ h
  have hs := storeIn_frame limit x o h
  cases hrun : storeIn limit x o with
  | mk r o' =>
    have he : Dns.emit limit x (o, t) = (r, (o', t)) := onFst_apply hrun
    rw [he]
    exact ⟨fun a _ h' => (by cases h'; exact hs.1 a o' hrun),
      fun e _ h' => by cases h'; exact hs.2 e o' hrun⟩

theorem when {c : Prop} [Decidable c] {x : Processing Unit} (h : Keeps b x) :
    Keeps b (Proc.when c x) := Triple.when fun _ => h

theorem stable : Stable limit fun s => Begins b 0 s.1.wire := ⟨emit, fun _ => refer _, fun _ => refer _⟩

theorem processQuestion (question : Question) : Keeps b (processQuestion limit zones question) := by
  unfold Dns.processQuestion
  split
  · exact raise _
  · exact raise _
  · exact (ofExcept _).bind fun soaZone => (when (refer _)).bind fun _ =>
      (stable.processQtype question _ soaZone).bind fun _ => when (refer _)

/-- **The second pass writes behind what the reply begins with**, whether it ends or raises. -/
theorem answer (questions : List Question) : Keeps b (answer limit zones questions) :=
  (forM processQuestion).bind fun _ => stable.rest

end Keeps

/-! ## The reply -/

section

variable {limit : Option ℕ} {zones : List Zone} {query : Memory} {n : ℕ} {header : MessageHeader}
  {b reply : Bytes}

/-- **What `ProcessQuestions` does**: the questions raise something; or the second pass ends or raises
`Truncated`, and the reply is built; or it raises something else. -/
theorem processQuestions_cases (limit : Option ℕ) (zones : List Zone) (query : Memory) (n : ℕ)
    (header : MessageHeader) (b : Bytes) :
    (∃ e s, parseQuestions query n header ⟨[], [], 0, resize b MessageHeader.size⟩ = (.error e, s) ∧
      processQuestions limit zones query n header b = (.error e, s.replyBuffer)) ∨
    ∃ s r o t, parseQuestions query n header ⟨[], [], 0, resize b MessageHeader.size⟩ = (.ok (), s) ∧
      answer limit zones s.questions ({ wire := ⟨s.replyBuffer, []⟩ }, {}) = (r, o, t) ∧
      ((∃ truncated, (∀ e, r = .error e → ∃ ex, e = .raised ex ∧ ex.type = .truncated) ∧
          processQuestions limit zones query n header b =
            (.ok (), finish header s.numQuestions truncated o t)) ∨
        ∃ e, r = .error e ∧ processQuestions limit zones query n header b = (.error e, o.wire.buffer)) := by
  unfold processQuestions
  rcases hparse : parseQuestions query n header ⟨[], [], 0, resize b MessageHeader.size⟩ with ⟨e | u, s⟩
  · exact .inl ⟨e, s, rfl, rfl⟩
  rcases hrun : answer limit zones s.questions ({ wire := ⟨s.replyBuffer, []⟩ }, {})
    with ⟨(ex | - | -) | u, o, t⟩
  · refine .inr ⟨s, _, o, t, rfl, hrun, ?_⟩
    simp only [hrun]
    split_ifs with htype
    · refine .inl ⟨true, fun e he => ?_, rfl⟩
      cases he
      exact ⟨ex, rfl, htype⟩
    · exact .inr ⟨_, rfl, rfl⟩
  · refine .inr ⟨s, _, o, t, rfl, hrun, ?_⟩
    simp only [hrun]
    exact .inr ⟨_, rfl, rfl⟩
  · refine .inr ⟨s, _, o, t, rfl, hrun, ?_⟩
    simp only [hrun]
    exact .inr ⟨_, rfl, rfl⟩
  · refine .inr ⟨s, _, o, t, rfl, hrun, ?_⟩
    simp only [hrun]
    exact .inl ⟨false, nofun, rfl⟩

/-- **A reply built by `ProcessQuestions`**: the questions were parsed, and the second pass came to an
end, or raised `Truncated`. -/
theorem processQuestions_run
    (h : processQuestions limit zones query n header b = (.ok (), reply)) : ∃ s r truncated o t,
      parseQuestions query n header ⟨[], [], 0, resize b MessageHeader.size⟩ = (.ok (), s) ∧
      answer limit zones s.questions ({ wire := ⟨s.replyBuffer, []⟩ }, {}) = (r, o, t) ∧
      (∀ e, r = .error e → ∃ ex, e = .raised ex ∧ ex.type = .truncated) ∧
      reply = finish header s.numQuestions truncated o t := by
  rcases processQuestions_cases limit zones query n header b with
    ⟨e, s, -, heq⟩ | ⟨s, r, o, t, hparse, hrun, ⟨truncated, hr, heq⟩ | ⟨e, -, heq⟩⟩
  · rw [heq] at h
    cases h
  · rw [heq] at h
    cases h
    exact ⟨s, r, truncated, o, t, hparse, hrun, hr, rfl⟩
  · rw [heq] at h
    cases h

theorem processQuestions_ok
    (h : processQuestions limit zones query n header b = (.ok (), reply)) : ∃ s truncated o t,
      parseQuestions query n header ⟨[], [], 0, resize b MessageHeader.size⟩ = (.ok (), s) ∧
      s.replyBuffer <+: o.wire.buffer ∧ reply = finish header s.numQuestions truncated o t := by
  obtain ⟨s, r, truncated, o, t, hparse, hrun, -, rfl⟩ := processQuestions_run h
  obtain ⟨hok, herr⟩ := Keeps.answer (b := s.replyBuffer) s.questions
    ({ wire := ⟨s.replyBuffer, []⟩ }, {}) (Begins.refl ⟨s.replyBuffer, []⟩)
  refine ⟨s, truncated, o, t, hparse, ?_, rfl⟩
  cases r with
  | ok u => exact (hok _ _ hrun).1
  | error e => exact (herr _ _ hrun).1

end

end VUbercool.Dns
