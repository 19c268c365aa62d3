import Mathlib.Data.List.Infix
import VUbercool.Lib.Octets

/-!
# Requests

`HttpRequest` (`HttpRequest.h`, `HttpRequest.cpp`), `HttpRequestParser::Parse` (`HttpRequestParser.h`)
and `ParseHttpRequest` (`ParseHttpRequest.cpp`).

* `HttpRequest`: a request head. `reset`, `closeOnReply`, `getHttpVersionName`.
* `Grammar`: the grammar of the parser with its semantic actions, which fill in a request.
* `parse`: `Parse`. `parse_eq`: it depends on the octets alone, whatever was parsed before.
* `Head`: a complete request. `exists_head`, `Head.unique`: octets begin with one at most.
* `PrefixDecided`: what is assumed of the parser.
-/

namespace VUbercool.Http

open Octets

/-- The octets of ASCII text. -/
def ascii (s : String) : Bytes := s.toList.map fun c => UInt8.ofNat c.toNat

/-- `HttpRequest::Version`. -/
inductive Version where
  | http10 | http11 | unknown
  deriving DecidableEq

/-- `HttpRequest::Method`. -/
inductive Method where
  | get | options | head | post | put | delete | trace | connect | unknown
  deriving DecidableEq

/-- `HttpRequest`. -/
structure HttpRequest where
  version : Version := .unknown
  method : Method := .unknown
  port : UInt16 := 0
  doNotTrack : Bool := false
  requestLength : ℕ := 0
  uri : Bytes := []
  host : Bytes := []
  acceptEncodingDeflate : Bool := false
  acceptEncodingGzip : Bool := false
  deriving DecidableEq

namespace HttpRequest

/-- `Reset`. -/
def reset (req : HttpRequest) : HttpRequest :=
  { req with
    version := .unknown
    method := .unknown
    port := 0
    doNotTrack := false
    requestLength := 0
    uri := []
    host := []
    acceptEncodingDeflate := false
    acceptEncodingGzip := false }

/-- `operator =`. -/
def assign (req v : HttpRequest) : HttpRequest :=
  { req with
    version := v.version
    method := v.method
    port := v.port
    doNotTrack := v.doNotTrack
    requestLength := v.requestLength
    uri := v.uri
    host := v.host
    acceptEncodingDeflate := v.acceptEncodingDeflate
    acceptEncodingGzip := v.acceptEncodingGzip }

/-- `CloseOnReply`. -/
def closeOnReply (req : HttpRequest) : Bool := req.version == .http10

/-- `GetHttpVersionName`. -/
def getHttpVersionName (req : HttpRequest) : Bytes :=
  match req.version with
  | .http10 => ascii "HTTP/1.0"
  | .http11 => ascii "HTTP/1.1"
  | .unknown => ascii "UNKNOWN"

theorem reset_eq (req : HttpRequest) : req.reset = {} := rfl

end HttpRequest

/-! ## The parser -/

/-- **The grammar** with its semantic actions: on the octets of a buffer and the request of the grammar,
where the parse ended, if it succeeded, and what the actions made of the request. -/
abbrev Grammar : Type := Bytes → HttpRequest → Option ℕ × HttpRequest

/-- `HttpRequestParser::Parse`, on the request of the grammar and `req`. -/
def parse (grammar : Grammar) (buffer : Bytes) (own req : HttpRequest) :
    Bool × HttpRequest × HttpRequest :=
  match grammar buffer own.reset with
  | (some stop, own) => (true, own, { req.assign own with requestLength := stop })
  | (none, own) => (false, own, req)

/-- `ParseHttpRequest`: the request, if the parse succeeds. -/
def parseHttpRequest (grammar : Grammar) (buffer : Bytes) : Option HttpRequest :=
  match grammar buffer {} with
  | (some stop, req) => some { req with requestLength := stop }
  | (none, _) => none

/-- **What is parsed depends on the octets alone**; a parse that fails leaves the request as it is. -/
theorem parse_eq (grammar : Grammar) (buffer : Bytes) (own req : HttpRequest) :
    parse grammar buffer own req = ((parseHttpRequest grammar buffer).isSome,
      (grammar buffer {}).2, (parseHttpRequest grammar buffer).getD req) := by
  rw [parse, parseHttpRequest, HttpRequest.reset_eq]
  rcases grammar buffer {} with ⟨_ | stop, own'⟩
  · rfl
  · rfl

/-! ## Complete requests -/

/-- The end of a request head. -/
def eohMarker : Bytes := [13, 10, 13, 10]

/-- **A head** that ends at its first empty line. -/
structure Head (r : Bytes) : Prop where
  ends : eohMarker <:+ r
  first : ¬ eohMarker <:+: r.dropLast

theorem Head.length_le {r : Bytes} (h : Head r) : 4 ≤ r.length := h.ends.length_le

theorem Head.not_infix {r rest p : Bytes} (h : Head r) (hp : p <+: r ++ rest)
    (hlt : p.length < r.length) : ¬ eohMarker <:+: p := by
  intro hin
  refine h.first (hin.trans (List.IsPrefix.isInfix ?_))
  rw [List.dropLast_eq_take]
  apply List.prefix_of_prefix_length_le hp ((List.take_prefix _ _).trans (List.prefix_append _ _))
  rw [List.length_take]
  omega

/-- **Octets begin with one head at most.** -/
theorem Head.unique {r r' rest rest' : Bytes} (h : Head r) (h' : Head r')
    (heq : r ++ rest = r' ++ rest') : r = r' := by
  rcases Nat.lt_trichotomy r.length r'.length with hlt | hlen | hlt
  · have hp : r <+: r' ++ rest' := heq ▸ List.prefix_append _ _
    exact absurd h.ends.isInfix (h'.not_infix hp hlt)
  · exact (List.append_inj heq hlen).1
  · have hp : r' <+: r ++ rest := heq ▸ List.prefix_append _ _
    exact absurd h'.ends.isInfix (h.not_infix hp hlt)

/-- **Octets with the end of a head begin with a head.** -/
theorem exists_head {b : Bytes} (h : eohMarker <:+: b) : ∃ r rest, b = r ++ rest ∧ Head r := by
  induction b using List.reverseRecOn with
  | nil => simp [eohMarker] at h
  | append_singleton b a ih =>
    by_cases hb : eohMarker <:+: b
    · obtain ⟨r, rest, rfl, hr⟩ := ih hb
      exact ⟨r, rest ++ [a], List.append_assoc _ _ _, hr⟩
    · -- the marker ends here, and not before
      refine ⟨b ++ [a], [], (List.append_nil _).symm, ?_, ?_⟩
      · rw [List.infix_concat_iff] at h
        exact h.resolve_right hb
      · rwa [List.dropLast_concat]

/-- **What is assumed of `ParseHttpRequest`**: it succeeds on a buffer exactly if the buffer begins with
a complete request, which is a head, and then it reports the length of that request whatever follows. -/
structure PrefixDecided (grammar : Grammar) : Prop where
  noHead : ∀ b, ¬ eohMarker <:+: b → parseHttpRequest grammar b = none
  head : ∀ r rest, Head r → parseHttpRequest grammar (r ++ rest) = parseHttpRequest grammar r
  length : ∀ r req, Head r → parseHttpRequest grammar r = some req → req.requestLength = r.length

/-- **What is parsed is a head.** -/
theorem PrefixDecided.exists_head {grammar : Grammar} (hg : PrefixDecided grammar) {b : Bytes}
    {req : HttpRequest} (h : parseHttpRequest grammar b = some req) :
    ∃ r rest, b = r ++ rest ∧ Head r ∧ parseHttpRequest grammar r = some req ∧
      req.requestLength = r.length := by
  have hin : eohMarker <:+: b := by
    by_contra hnot
    rw [hg.noHead b hnot] at h
    cases h
  obtain ⟨r, rest, rfl, hr⟩ := Http.exists_head hin
  rw [hg.head r rest hr] at h
  exact ⟨r, rest, rfl, hr, h, hg.length r req hr h⟩

end VUbercool.Http
