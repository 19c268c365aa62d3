import VUbercool.Http.ProcessRequests

/-!
# Static sites

`StaticPageHost` (`Hosts.h`, `StaticPageHost.cpp`).

* `find`: `std::string::find`. `find_eq_zero`: what it finds at position 0.
* `StaticPageHost`: `pageOf`, `path`; `processRequest`: the file named by the request itself.
* `served`: what a static site is for. **`processRequest_eq_served_iff`**: the host does it exactly if there
  is nothing to serve and the request does not begin with two dots and name a file.
-/

namespace VUbercool.Http

open Octets

/-- `std::string::find`: the first position of `needle`, if there is one. -/
def find (needle s : Bytes) : Option ℕ := (List.range (s.length + 1)).find? fun i => needle <+: s.drop i

theorem find_eq_zero (needle s : Bytes) : find needle s = some 0 ↔ needle <+: s := by
  rw [find, List.find?_range_eq_some]
  simp

/-- **A file system**: what is in the regular file that a path names, if it names one. -/
abbrev FileSystem : Type := Bytes → Option Bytes

/-- `PackedHostData`. -/
structure PackedHostData where
  hostbits : BitVec 23 := 0
  hostTemplate : BitVec 5 := 0
  reserved : BitVec 4 := 0

/-- `IncHitCount`. -/
def PackedHostData.incHitCount (data : PackedHostData) : PackedHostData :=
  { data with hostbits := data.hostbits + 1 }

/-- **`StaticPageHost`**, with the root path of its configuration. -/
structure StaticPageHost where
  id : ℕ
  rootPath : Bytes

namespace StaticPageHost

/-- What must not be in a request. -/
def badbad : Bytes := ascii ".."

/-- `path_`. -/
def path (host : StaticPageHost) : Bytes := host.rootPath ++ ascii "/static/" ++ decimal host.id

/-- The page that is asked for; `uri` is asserted not to be empty. -/
def pageOf (uri : Bytes) : Bytes :=
  if uri.getLast? = some 47 then uri ++ ascii "index.html" else uri

/-- What the host does with a page. The position where the dots are found is taken for whether they are
found, and the page itself for its path; an empty file cannot be mapped. -/
def serve (files : FileSystem) (page : Bytes) (data : PackedHostData) : HostReply × PackedHostData :=
  if find badbad page ≠ some 0 then (⟨[], .invalidResource⟩, data)
  else
    let data := data.incHitCount
    match files page with
    | none => (⟨[], .invalidResource⟩, data)
    | some content =>
      if content = [] then (⟨[], .exception⟩, data)
      else (⟨content, .ok⟩, data)

/-- **`ProcessRequest`.** -/
def processRequest (files : FileSystem) (req : HttpRequest) (data : PackedHostData) :
    HostReply × PackedHostData :=
  serve files (pageOf req.uri) data

/-! ## What is served -/

/-- The path of a page in the folder of the site. -/
def filePath (host : StaticPageHost) (page : Bytes) : Bytes :=
  host.path ++ if page.head? = some 47 then page else 47 :: page

/-- **What a static site is for**: the file below the folder of the site that the page names, unless there
are dots anywhere in the page. -/
def served (host : StaticPageHost) (files : FileSystem) (req : HttpRequest) : HostReply :=
  let page := pageOf req.uri
  if badbad <:+: page then ⟨[], .invalidResource⟩
  else
    match files (host.filePath page) with
    | none => ⟨[], .invalidResource⟩
    | some content => ⟨content, .ok⟩

theorem serve_eq (files : FileSystem) (page : Bytes) (data : PackedHostData) :
    (serve files page data).1 =
      if badbad <+: page then
        match files page with
        | none => ⟨[], .invalidResource⟩
        | some [] => ⟨[], .exception⟩
        | some (x :: content) => ⟨x :: content, .ok⟩
      else ⟨[], .invalidResource⟩ := by
  unfold serve
  by_cases h : badbad <+: page
  · rw [if_neg (not_not.mpr ((find_eq_zero _ _).mpr h)), if_pos h]
    rcases files page with _ | _ | ⟨x, content⟩
    · rfl
    · rfl
    · rfl
  · rw [if_pos (fun h' => h ((find_eq_zero _ _).mp h')), if_neg h]

theorem serve_dots {files : FileSystem} {page : Bytes} (hdots : badbad <+: page)
    (hfile : (files page).isSome) (data : PackedHostData) :
    (serve files page data).1.outcome ≠ .invalidResource := by
  rw [serve_eq, if_pos hdots]
  rcases hcontent : files page with _ | _ | ⟨x, content⟩
  · rw [hcontent] at hfile
    cases hfile
  · nofun
  · nofun

theorem served_none {host : StaticPageHost} {files : FileSystem} {req : HttpRequest}
    (h : ¬ (¬ badbad <:+: pageOf req.uri ∧ (files (host.filePath (pageOf req.uri))).isSome)) :
    host.served files req = ⟨[], .invalidResource⟩ := by
  rw [served]
  by_cases hdots : badbad <:+: pageOf req.uri
  · exact if_pos hdots
  · cases hfile : files (host.filePath (pageOf req.uri)) with
    | none => simp only [if_neg hdots]
    | some content => exact absurd ⟨hdots, by rw [hfile]; rfl⟩ h

/-- **A static site does what it is for exactly if there is nothing to serve**, and the request does not
begin with dots and name a file wherever the server runs. -/
theorem processRequest_eq_served_iff (host : StaticPageHost) (files : FileSystem) (req : HttpRequest)
    (data : PackedHostData) :
    (processRequest files req data).1 = host.served files req ↔
      ¬ (¬ badbad <:+: pageOf req.uri ∧ (files (host.filePath (pageOf req.uri))).isSome) ∧
      ¬ (badbad <+: pageOf req.uri ∧ (files (pageOf req.uri)).isSome) := by
  unfold processRequest
  constructor
  · intro h
    constructor
    · rintro ⟨hdots, hfile⟩
      -- the file is there, but the host looks for no dots at position 0
      obtain ⟨content, hcontent⟩ := Option.isSome_iff_exists.mp hfile
      have hout := congrArg HostReply.outcome h
      rw [serve_eq, if_neg (fun hp => hdots hp.isInfix), served] at hout
      simp only [if_neg hdots, hcontent] at hout
      cases hout
    · rintro ⟨hdots, hfile⟩
      apply serve_dots hdots hfile data
      rw [h, served]
      simp only [if_pos hdots.isInfix]
  · rintro ⟨hnone, hdots⟩
    rw [served_none hnone, serve_eq]
    by_cases hp : badbad <+: pageOf req.uri
    · have hfile : files (pageOf req.uri) = none := by
        cases hfile : files (pageOf req.uri) with
        | none => rfl
        | some content => exact absurd ⟨hp, by rw [hfile]; rfl⟩ hdots
      rw [if_pos hp, hfile]
    · rw [if_neg hp]

/-- **A page that is there is not served.** -/
theorem not_processRequest_eq_served :
    let host : StaticPageHost := ⟨1, ascii "/www"⟩
    let files : FileSystem := fun path =>
      if path = ascii "/www/static/1/index.html" then some (ascii "Hello") else none
    let req : HttpRequest := { version := .http11, method := .get, uri := ascii "/" }
    (processRequest files req {}).1 ≠ host.served files req := by
  intro host files req h
  have hout := congrArg HostReply.outcome h
  exact absurd hout (by decide +kernel)

end StaticPageHost

end VUbercool.Http
