import VUbercool.Http.AnyHeader

/-!
# Request heads

The heads that the parser accepts, octet by octet.

* `Word`, `Gap`, `Value`, `Codings`, `HeaderLine`, `Ending`, `RequestHead`: the parts of a head. `octets`:
  how it is written; **`RequestHead.request`**: what it says.
* `reads_content`, `reads_gap`: the tokens of the content of a header.
-/

namespace VUbercool.Http

open Octets Lexer Peg
open HeaderLexer RequestGrammar

/-! ## Heads -/

/-- `\S+`. -/
structure Word where
  octets : Bytes
  ne_nil : octets ≠ []
  visible : ∀ c ∈ octets, isVisible c = true

/-- A name as it is spelled, ignoring case. -/
structure Spelling (name : Bytes) where
  octets : Bytes
  lowered_eq : lowered octets = name

/-- Blanks and visible octets, and line breaks that fold the line. -/
def isContent : Bytes → Bool
  | [] => true
  | 13 :: 10 :: 32 :: s => isContent s
  | c :: s => (isBlank c || isVisible c) && isContent s

/-- The content of a header without a word. -/
structure Gap where
  octets : Bytes
  content : isContent octets = true
  blank : ∀ c ∈ octets, isVisible c = false

/-- The content of a header with a word. -/
structure Value where
  octets : Bytes
  content : isContent octets = true
  word : ∃ c ∈ octets, isVisible c = true

/-- Blanks that do not fold the line. -/
structure Blanks where
  octets : Bytes
  blank : ∀ c ∈ octets, isBlank c = true

/-- Where the value of an `Accept-Encoding` header is: after blanks or at its beginning, after a coding
with its q-values, or after commas. -/
inductive Place where
  | gap | coding | commas
  deriving DecidableEq

/-- **The value of an `Accept-Encoding` header** from a place on. Codings are letters, which may follow
each other; only a coding is followed by q-values and commas. -/
def isCodings : Place → Bytes → Bool
  | _, [] => true
  | .coding, 59 :: 113 :: 61 :: d :: 46 :: e :: s => isDigit d && isDigit e && isCodings .coding s
  | p, c :: s =>
    if isBlank c then isCodings .gap s
    else if isLetter c then isCodings .coding s
    else c == 44 && p != .gap && isCodings .commas s

/-- The value of an `Accept-Encoding` header. -/
structure Codings where
  octets : Bytes
  codings : isCodings .gap octets = true

/-- The name of a header that is not recognised. -/
structure FieldName where
  octets : Bytes
  other : OtherName octets

/-- **A header line.** -/
inductive HeaderLine where
  | host (name : Spelling (ascii "host")) (before : Gap) (value : Word) (after : Gap)
  | dnt (name : Spelling (ascii "dnt:")) (before : Blanks) (on : Bool) (after : Blanks)
  | acceptEncoding (name : Spelling (ascii "accept-encoding:")) (value : Codings)
  | other (name : FieldName) (value : Value)

namespace HeaderLine

/-- How a header line is written. -/
def octets : HeaderLine → Bytes
  | host name before value after =>
    name.octets ++ 58 :: (before.octets ++ (value.octets ++ (after.octets ++ [13, 10])))
  | dnt name before on after =>
    name.octets ++ (before.octets ++ ((if on then 49 else 48) :: (after.octets ++ [13, 10])))
  | acceptEncoding name value => name.octets ++ (value.octets ++ [13, 10])
  | other name value => name.octets ++ 58 :: (value.octets ++ [13, 10])

/-- **What a header line says**: the last `Host` counts, and what has been set stays so. -/
def apply (req : HttpRequest) : HeaderLine → HttpRequest
  | host _ _ value _ => { req with host := value.octets }
  | dnt _ _ on _ => { req with doNotTrack := req.doNotTrack || on }
  | acceptEncoding _ value => { req with
      acceptEncodingGzip := req.acceptEncodingGzip || decide (ascii "gzip" <:+: lowered value.octets)
      acceptEncodingDeflate :=
        req.acceptEncodingDeflate || decide (ascii "deflate" <:+: lowered value.octets) }
  | other _ _ => req

end HeaderLine

/-- The method that a word of the request line names. -/
def methodOf (method : Bytes) : Method :=
  if lowered method = ascii "get" then .get
  else if lowered method = ascii "options" then .options
  else if lowered method = ascii "head" then .head
  else if lowered method = ascii "post" then .post
  else if lowered method = ascii "put" then .put
  else if lowered method = ascii "delete" then .delete
  else if lowered method = ascii "trace" then .trace
  else if lowered method = ascii "connect" then .connect
  else .unknown

/-- A version of the request line. -/
inductive HttpVersion where
  | http10 (name : Spelling (ascii "http/1.0"))
  | http11 (name : Spelling (ascii "http/1.1"))

namespace HttpVersion

def octets : HttpVersion → Bytes
  | http10 name => name.octets
  | http11 name => name.octets

def version : HttpVersion → Version
  | http10 _ => .http10
  | http11 _ => .http11

end HttpVersion

/-- **What follows the URI**: the version, and the header lines between line breaks. A line break has the
id of `HTTP/1.0`, so each of them can stand for the other: a line break in place of the version, and
`HTTP/1.0` in place of a line break. No header line follows `HTTP/1.0`. -/
inductive Ending where
  | lines (version : HttpVersion) (headers : List HeaderLine)
  | noVersion (headers : List HeaderLine)
  | lineBreak (version : HttpVersion) (name : Spelling (ascii "http/1.0"))
  | versions (version : HttpVersion) (name name' : Spelling (ascii "http/1.0"))

namespace Ending

/-- How it is written. -/
def octets : Ending → Bytes
  | lines version headers =>
    version.octets ++ 13 :: 10 :: (headers.flatMap HeaderLine.octets ++ [13, 10])
  | noVersion headers => 13 :: 10 :: 13 :: 10 :: (headers.flatMap HeaderLine.octets ++ [13, 10])
  | lineBreak version name => version.octets ++ (name.octets ++ [13, 10])
  | versions version name name' => version.octets ++ (name.octets ++ name'.octets)

/-- The version that is set. -/
def version : Ending → Version
  | lines version _ => version.version
  | noVersion _ => .http10
  | lineBreak version _ => version.version
  | versions version _ _ => version.version

/-- The header lines. -/
def headers : Ending → List HeaderLine
  | lines _ headers => headers
  | noVersion headers => headers
  | lineBreak _ _ => []
  | versions _ _ _ => []

end Ending

/-- **A request head.** -/
structure RequestHead where
  method : Word
  uri : Word
  ending : Ending

namespace RequestHead

/-- How a head is written. -/
def octets (h : RequestHead) : Bytes :=
  h.method.octets ++ 32 :: (h.uri.octets ++ 32 :: h.ending.octets)

/-- What the request line says. -/
def started (h : RequestHead) : HttpRequest :=
  { method := methodOf h.method.octets, uri := h.uri.octets, version := h.ending.version }

/-- **What a head says.** -/
def request (h : RequestHead) : HttpRequest := h.ending.headers.foldl HeaderLine.apply h.started

end RequestHead

/-- `GET / HTTP/1.1` for the host `1.a`. -/
def sampleHead : RequestHead where
  method := ⟨ascii "GET", by decide, List.all_eq_true.mp (by decide)⟩
  uri := ⟨ascii "/", by decide, List.all_eq_true.mp (by decide)⟩
  ending := .lines (.http11 ⟨ascii "HTTP/1.1", by decide⟩)
    [.host ⟨ascii "Host", by decide⟩ ⟨[32], by decide, List.forall_mem_singleton.mpr rfl⟩
      ⟨ascii "1.a", by decide, List.all_eq_true.mp (by decide)⟩ ⟨[], by decide, List.forall_mem_nil _⟩]

example : sampleHead.octets = ascii "GET / HTTP/1.1\r\nHost: 1.a\r\n\r\n" := by decide +kernel

/-! ## The content of a header -/

section Content

variable {s v : Bytes} {c : UInt8}

theorem isContent_cons (hc : c ≠ 13) :
    isContent (c :: s) = ((isBlank c || isVisible c) && isContent s) := by
  rw [isContent]
  rintro s' rfl
  exact absurd rfl hc

theorem isContent_cases (h : isContent v = true) :
    v = [] ∨ (∃ s, v = 13 :: 10 :: 32 :: s ∧ isContent s = true) ∨
      ∃ c s, v = c :: s ∧ (isBlank c = true ∨ isVisible c = true) ∧ isContent s = true := by
  unfold isContent at h
  split at h
  · exact .inl rfl
  · next s => exact .inr (.inl ⟨s, rfl, h⟩)
  · next c s _ =>
    rw [Bool.and_eq_true, Bool.or_eq_true] at h
    exact .inr (.inr ⟨c, s, rfl, h⟩)

theorem isContent_dropWhile : ∀ {v : Bytes}, isContent v = true →
    isContent (v.dropWhile isVisible) = true
  | [], h => h
  | c :: v, h => by
    by_cases hc : isVisible c = true
    · rw [List.dropWhile_cons_of_pos hc]
      have hne : c ≠ 13 := by
        rintro rfl
        cases hc
      rw [isContent_cons hne, Bool.and_eq_true] at h
      exact isContent_dropWhile h.2
    · rwa [List.dropWhile_cons_of_neg hc]

theorem next_blank (hc : isBlank c = true) (s : Bytes) :
    next table .headerContent (c :: s) = some (⟨32, .headerContent, [c]⟩, .headerContent, s) := by
  have hne : ∀ {a : UInt8}, isBlank a = false → a ≠ c := by
    rintro a ha rfl
    rw [hc] at ha
    cases ha
  have h13 : (13 == c) = false := beq_eq_false_iff_ne.mpr (hne (by decide))
  have hvisible : isVisible c = false := by
    rcases Bool.or_eq_true_iff.mp hc with h | h
    · rw [beq_iff_eq.mp h]
      rfl
    · rw [beq_iff_eq.mp h]
      rfl
  have hspace : space.pattern (c :: s) = some 1 := by
    simp [space, classes, matchesClasses, hc]
  refine next_of_avoids [lws] [str, goto hdrCrlf .headerName] (d := space) (x := [])
    rfl ?_ ?_ hspace
  · exact List.forall_mem_singleton.mpr (avoids_literal h13)
  · exact List.forall_mem_cons.mpr ⟨avoids_many1 hvisible,
      List.forall_mem_singleton.mpr (avoids_literal h13)⟩

/-- **The tokens of the content of a header** are blanks and words. -/
theorem reads_content (h : isContent v = true) (s : Bytes) : ∃ ts,
    Reads table .headerContent (v ++ 13 :: s) ts .headerContent (13 :: s) ∧ ValueTokens ts ∧
      ((∃ t ∈ ts, t.id = tokString) ↔ ∃ c ∈ v, isVisible c = true) := by
  induction hn : v.length using Nat.strongRecOn generalizing v with
  | ind n ih =>
    obtain rfl | ⟨v, rfl, hv⟩ | ⟨c, v, rfl, hc, hv⟩ := isContent_cases h
    · exact ⟨[], .nil, List.forall_mem_nil _, by simp⟩
    · obtain ⟨ts, hreads, hts, hiff⟩ := ih v.length (by simp [← hn]; omega) hv rfl
      refine ⟨_, .cons (next_lws _) hreads, List.forall_mem_cons.mpr ⟨.inl rfl, hts⟩, ?_⟩
      simp only [List.exists_mem_cons_iff, hiff]
      rw [or_iff_right (by decide), or_iff_right (by decide), or_iff_right (by decide),
        or_iff_right (by decide)]
    · by_cases hvisible : isVisible c = true
      · -- a word goes on to a blank, a fold or the line break
        obtain ⟨d, s', hd, hrest⟩ : ∃ d s', isVisible d = false ∧
            v.dropWhile isVisible ++ 13 :: s = d :: s' := by
          cases hdrop : v.dropWhile isVisible with
          | nil => exact ⟨13, s, rfl, rfl⟩
          | cons d r =>
            have hhead := List.head_dropWhile_not isVisible (l := v) (by simp [hdrop])
            exact ⟨d, r ++ 13 :: s, by simpa [hdrop] using hhead, rfl⟩
        have hsplit : c :: v ++ 13 :: s = c :: v.takeWhile isVisible ++ d :: s' := by
          rw [← hrest, List.cons_append, List.cons_append, ← List.append_assoc,
            List.takeWhile_append_dropWhile]
        have hword : ∀ a ∈ c :: v.takeWhile isVisible, isVisible a = true :=
          List.forall_mem_cons.mpr ⟨hvisible, fun _ ha => List.mem_takeWhile_imp ha⟩
        have hle := (List.dropWhile_suffix isVisible (l := v)).length_le
        obtain ⟨ts, hreads, hts, -⟩ := ih (v.dropWhile isVisible).length
          (by rw [← hn, List.length_cons]; omega) (isContent_dropWhile hv) rfl
        rw [hrest] at hreads
        rw [hsplit]
        exact ⟨_, .cons (next_word hword hd) hreads, List.forall_mem_cons.mpr ⟨.inr rfl, hts⟩,
          iff_of_true ⟨_, List.mem_cons_self, rfl⟩ ⟨c, List.mem_cons_self, hvisible⟩⟩
      · obtain ⟨ts, hreads, hts, hiff⟩ := ih v.length (by simp [← hn]) hv rfl
        refine ⟨_, .cons (next_blank (hc.resolve_right hvisible) _) hreads,
          List.forall_mem_cons.mpr ⟨.inl rfl, hts⟩, ?_⟩
        simp only [List.exists_mem_cons_iff, hiff]
        exact or_congr_left (iff_of_false (by decide) hvisible)

/-- The tokens of a gap are blanks, whatever follows it. -/
theorem reads_gap (h : isContent v = true) (hblank : ∀ c ∈ v, isVisible c = false) (s : Bytes) : ∃ ts,
    Reads table .headerContent (v ++ s) ts .headerContent s ∧ ∀ t ∈ ts, t.id = 32 := by
  induction hn : v.length using Nat.strongRecOn generalizing v with
  | ind n ih =>
    obtain rfl | ⟨v, rfl, hv⟩ | ⟨c, v, rfl, hc, hv⟩ := isContent_cases h
    · exact ⟨[], .nil, List.forall_mem_nil _⟩
    · have hrest : ∀ c ∈ v, isVisible c = false := fun c hc => hblank c (by simp [hc])
      obtain ⟨ts, hreads, hts⟩ := ih v.length (by simp [← hn]; omega) hv hrest rfl
      exact ⟨_, .cons (next_lws _) hreads, List.forall_mem_cons.mpr ⟨rfl, hts⟩⟩
    · obtain ⟨hcblank, hrest⟩ := List.forall_mem_cons.mp hblank
      rw [hcblank, or_iff_left Bool.false_ne_true] at hc
      obtain ⟨ts, hreads, hts⟩ := ih v.length (by simp [← hn]) hv hrest rfl
      exact ⟨_, .cons (next_blank hc _) hreads, List.forall_mem_cons.mpr ⟨rfl, hts⟩⟩

theorem next_value (w : Word) {d : UInt8} (hd : isVisible d = false) (s : Bytes) :
    next table .headerContent (w.octets ++ d :: s) =
      some (⟨tokString, .headerContent, w.octets⟩, .headerContent, d :: s) := by
  obtain ⟨c, x, hx⟩ := List.exists_cons_of_ne_nil w.ne_nil
  have hvisible := w.visible
  rw [hx] at hvisible ⊢
  exact next_word hvisible hd

end Content

end VUbercool.Http
