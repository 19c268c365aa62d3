import VUbercool.Http.CurrentReply

/-!
# The form of a reply

* `WellFormed`: a status line, fields, an empty line and a body, which say what they should.
* **`not_wellFormed`**: no reply is well formed: the date stands on a line of its own, without the name of
  a field, or as an empty line that ends the head.
-/

namespace VUbercool.Http

open Octets

/-! ## Well-formed replies -/

/-- A field of a head: its name and what follows the colon. -/
structure Field where
  name : Bytes
  value : Bytes

/-- The line of a field. -/
def Field.line (f : Field) : Bytes := f.name ++ 58 :: (f.value ++ crlf)

/-- The value without the spaces before it. -/
def Field.text (f : Field) : Bytes := f.value.dropWhile (· == 32)

/-- The name of a field is a token, without spaces, colons and line breaks. -/
structure Field.Proper (f : Field) : Prop where
  nonempty : f.name ≠ []
  token : 32 ∉ f.name ∧ 58 ∉ f.name ∧ 13 ∉ f.name ∧ 10 ∉ f.name
  value : 13 ∉ f.value ∧ 10 ∉ f.value

/-- **A well-formed reply** to a request whose method is `HEAD` or not, with a body that is compressed or
not, after which the connection closes or not. -/
structure WellFormed (octets : Bytes) (isHead compressed closes : Bool) : Prop where
  parts : ∃ (status : Bytes) (fields : List Field) (body : Bytes),
    octets = status ++ crlf ++ fields.flatMap Field.line ++ crlf ++ body ∧
    (ascii "HTTP/1.0" <+: status ∨ ascii "HTTP/1.1" <+: status) ∧ 13 ∉ status ∧
    (∀ f ∈ fields, f.Proper) ∧
    (if isHead then body = []
      else ∃ f ∈ fields, f.name = ascii "Content-Length" ∧ f.text = decimal body.length) ∧
    ((∃ f ∈ fields, f.name = ascii "Content-Encoding") ↔ compressed) ∧
    ((∃ f ∈ fields, f.name = ascii "Connection" ∧ f.text = ascii "Close") ↔ closes)

/-! ## The date line -/

theorem break_notMem_decimal (n : ℕ) : 13 ∉ decimal n := by
  intro h
  obtain ⟨d, hd, hval⟩ := List.mem_map.mp h
  have hdigit := Nat.isDigit_of_mem_toDigits (by decide) (by decide) hd
  rw [Char.isDigit, Bool.and_eq_true, decide_eq_true_eq, decide_eq_true_eq] at hdigit
  have hlow : 48 ≤ d.toNat := hdigit.1
  have hhigh : d.toNat ≤ 57 := hdigit.2
  have hnat := congrArg UInt8.toNat hval
  rw [UInt8.toNat_ofNat'] at hnat
  have h13 : (13 : UInt8).toNat = 13 := rfl
  omega

theorem break_notMem_decimalInt : ∀ n : Int, 13 ∉ decimalInt n
  | .ofNat n => break_notMem_decimal n
  | .negSucc n => by
    rw [decimalInt, List.mem_cons, not_or]
    exact ⟨by decide, break_notMem_decimal _⟩

theorem strftime_eq (tm : Tm) : ∃ a day rest, strftime tm = a :: (day ++ 32 :: rest) ∧ a ≠ 13 ∧
    58 ∉ a :: day := by
  have hday : ∃ a day, dayName tm.wday = a :: day ∧ a ≠ 13 ∧ 58 ∉ a :: (day ++ [44]) := by
    unfold dayName
    split <;> exact ⟨_, _, rfl, by decide +kernel, by decide +kernel⟩
  obtain ⟨a, day, hname, hne, hcolon⟩ := hday
  have hcomma : ascii ", " = [44, 32] := by decide +kernel
  obtain ⟨rest, hrest⟩ : ∃ rest, strftime tm = dayName tm.wday ++ (ascii ", " ++ rest) :=
    ⟨_, by rw [strftime]; simp only [List.append_assoc]; rfl⟩
  refine ⟨a, day ++ [44], rest, ?_, hne, hcolon⟩
  rw [hrest, hname, hcomma]
  simp

/-- **The line of the date is no field**, and ends no head that is as it should be. -/
theorem date_ne_fields (date : CachedDate) (rest : Bytes) {fields : List Field} {body : Bytes}
    (hfields : ∀ f ∈ fields, f.Proper)
    (h : date.text ++ crlf ++ rest = fields.flatMap Field.line ++ crlf ++ body) :
    fields = [] ∧ body = rest := by
  cases fields with
  | nil =>
    rcases date.valid with hempty | ⟨t, ht⟩
    · rw [hempty] at h
      exact ⟨rfl, (List.append_cancel_left h).symm⟩
    · obtain ⟨a, day, tail, hdate, hne, -⟩ := strftime_eq (gmtime t)
      rw [ht, hdate] at h
      exact absurd (List.cons_eq_cons.mp h).1 hne
  | cons f fields =>
    obtain ⟨hname, htoken, -⟩ := hfields f List.mem_cons_self
    rw [List.flatMap_cons, Field.line] at h
    rcases date.valid with hempty | ⟨t, ht⟩
    · -- an empty line where the name of a field should be
      obtain ⟨b, name, hb⟩ := List.exists_cons_of_ne_nil hname
      rw [hempty, hb, crlf] at h
      simp only [List.nil_append, List.cons_append, List.append_assoc] at h
      have hbreak := (List.cons_eq_cons.mp h).1
      refine absurd ?_ htoken.2.2.1
      rw [hb, hbreak]
      exact List.mem_cons_self
    · -- a space before the first colon
      obtain ⟨a, day, tail, hdate, -, hcolon⟩ := strftime_eq (gmtime t)
      rw [ht, hdate, ← List.cons_append] at h
      simp only [List.append_assoc (f.name), List.append_assoc (a :: day), List.append_assoc] at h
      exact absurd h.symm (append_cons_ne (by decide) htoken.1 hcolon)

/-- **Nothing that is sent is well formed.** -/
theorem not_wellFormed_wire (date : CachedDate) (code : Int) {msg : Bytes} (hmsg : 13 ∉ msg)
    (req : HttpRequest) (type : Option Compression) (body : Bytes) (close compressed closes : Bool) :
    ¬ WellFormed (CurrentReply.wire date code msg req type body close) (req.method == .head) compressed
      closes := by
  rintro ⟨status, fields, body', hoctets, -, hstatus, hfields, hbody, -⟩
  have hspace : ascii " " = [32] := by decide +kernel
  have hversion : 13 ∉ req.getHttpVersionName := by
    unfold HttpRequest.getHttpVersionName
    split <;> decide +kernel
  have hline : 13 ∉ req.getHttpVersionName ++ ascii " " ++ decimalInt code ++ ascii " " ++ msg := by
    simp only [List.mem_append, hspace, not_or]
    exact ⟨⟨⟨⟨hversion, by decide⟩, break_notMem_decimalInt code⟩, by decide⟩, hmsg⟩
  rw [CurrentReply.wire, CurrentReply.head] at hoctets
  generalize req.getHttpVersionName ++ ascii " " ++ decimalInt code ++ ascii " " ++ msg = line
    at hoctets hline
  obtain ⟨tail, htail⟩ : ∃ tail, tail ≠ [] ∧ line ++ 13 :: 10 :: (date.text ++ crlf ++ tail) =
      status ++ 13 :: 10 :: (fields.flatMap Field.line ++ crlf ++ body') := by
    refine ⟨CurrentReply.fields body.length type close ++ crlf ++
      if req.method = .head then [] else body, ?_, ?_⟩
    · simp [CurrentReply.fields, crlf]
    · simpa [crlf] using hoctets
  obtain ⟨-, hrest⟩ := (append_cons_inj hline hstatus).mp htail.2
  obtain ⟨rfl, rfl⟩ := date_ne_fields date tail hfields (List.cons_eq_cons.mp hrest).2
  split_ifs at hbody
  · exact htail.1 hbody
  · obtain ⟨f, hf, -⟩ := hbody
    cases hf

/-! ## Replies -/

/-- The errors that connections reply with. -/
def errors : List (Int × Bytes) :=
  [(404, ascii "Not Found"), (405, ascii "Method not allowed"), (400, ascii "Bad Request!")]

/-- A reply is well formed for the request it answers and what the server made of it. -/
def CurrentReply.WellFormedFor (r : CurrentReply) (req : HttpRequest) : Prop :=
  WellFormed r.octets (req.method == .head) r.compressionType.isSome r.closeOnReply

/-- **No reply is well formed**, whatever the request, the code, what the host wrote, the clock, and what
the object was used for before. -/
theorem not_wellFormed (compress : Compression → Bytes → Bytes) (config : HttpConfig) (r : CurrentReply)
    (date : CachedDate) (now : Int) (req : HttpRequest) (text : Bytes) (code : Int) :
    ¬ (((r.prepare compress now req config).out text).reply compress date code req).1.WellFormedFor req ∧
      ∀ e ∈ errors, ¬ (r.replyWithError compress date now e.1 e.2 req).1.WellFormedFor req := by
  constructor
  · rw [CurrentReply.WellFormedFor, CurrentReply.octets_reply]
    exact not_wellFormed_wire _ _ (by decide +kernel) _ _ _ _ _ _
  · intro e he
    have hmsg : ∀ e ∈ errors, 13 ∉ e.2 := by decide +kernel
    rw [CurrentReply.WellFormedFor, CurrentReply.octets_replyWithError]
    exact not_wellFormed_wire _ _ (hmsg e he) _ _ _ _ _ _

/-- A plain page for a plain request, at a plain time. -/
theorem not_wellFormed_page :
    ¬ (((({} : CurrentReply).prepare (fun _ text => text) 784111777
      { version := .http11, method := .get } {}).out (ascii "Hello")).reply (fun _ text => text) .empty 200
      { version := .http11, method := .get }).1.WellFormedFor { version := .http11, method := .get } := by
  rw [CurrentReply.WellFormedFor, CurrentReply.octets_reply]
  exact not_wellFormed_wire _ _ (by decide +kernel) _ _ _ _ _ _

end VUbercool.Http
