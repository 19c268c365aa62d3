import VUbercool.Http.Sites
import VUbercool.Lib.RecordFile

/-!
# The data file

The mapped file in which `VectorVhostManager` (`VhostManager.cpp`) keeps the data of its sites, over
requests and restarts of the server.

* `hostData`: `PackedHostData` in octets. `preAllocateMmapFile`: `PreAllocateMmapFile`.
* `Server`: a manager whose records are the octets of its file. `serve_manager`: a request does to the
  octets what it does to the records.
* `ServerLog`: the server, and which sites have answered since it created a file.
* **`restarts_iff`**: over all restarts, every page shows how often its site has answered since the file was
  created exactly if no site answers `2 ^ 23` times.
-/

namespace VUbercool.Http

open Octets Run RecordFile

/-! ## Records in octets -/

namespace PackedHostData

/-- The bit fields of a record in a word: the first one is lowest. -/
def word (d : PackedHostData) : BitVec 32 := d.reserved ++ d.hostTemplate ++ d.hostbits

/-- The bit fields of a word. -/
def ofWord (w : BitVec 32) : PackedHostData where
  hostbits := w.extractLsb' 0 23
  hostTemplate := w.extractLsb' 23 5
  reserved := w.extractLsb' 28 4

theorem ofWord_word (d : PackedHostData) : ofWord d.word = d := by
  obtain ⟨hostbits, hostTemplate, reserved⟩ := d
  simp only [ofWord, word, PackedHostData.mk.injEq]
  refine ⟨?_, ?_, ?_⟩
  · grind
  · grind
  · grind

theorem word_ofWord (w : BitVec 32) : (ofWord w).word = w := by
  simp only [ofWord, word]
  grind

/-- The octets of a word, lowest first. -/
def octetsOfWord (w : BitVec 32) : Bytes :=
  [⟨w.extractLsb' 0 8⟩, ⟨w.extractLsb' 8 8⟩, ⟨w.extractLsb' 16 8⟩, ⟨w.extractLsb' 24 8⟩]

/-- The word of four octets. -/
def wordOfOctets (a b c d : UInt8) : BitVec 32 := d.toBitVec ++ c.toBitVec ++ b.toBitVec ++ a.toBitVec

theorem wordOfOctets_octetsOfWord (w : BitVec 32) : wordOfOctets ⟨w.extractLsb' 0 8⟩ ⟨w.extractLsb' 8 8⟩
    ⟨w.extractLsb' 16 8⟩ ⟨w.extractLsb' 24 8⟩ = w := by
  simp only [wordOfOctets]
  grind

theorem octetsOfWord_wordOfOctets (a b c d : UInt8) :
    octetsOfWord (wordOfOctets a b c d) = [a, b, c, d] := by
  have hparts : (wordOfOctets a b c d).extractLsb' 0 8 = a.toBitVec ∧
      (wordOfOctets a b c d).extractLsb' 8 8 = b.toBitVec ∧
      (wordOfOctets a b c d).extractLsb' 16 8 = c.toBitVec ∧
      (wordOfOctets a b c d).extractLsb' 24 8 = d.toBitVec := by
    simp only [wordOfOctets]
    refine ⟨?_, ?_, ?_, ?_⟩ <;> grind
  obtain ⟨ha, hb, hc, hd⟩ := hparts
  rw [octetsOfWord, ha, hb, hc, hd]

/-- The record of four octets. -/
def ofOctets : Bytes → PackedHostData
  | [a, b, c, d] => ofWord (wordOfOctets a b c d)
  | _ => {}

end PackedHostData

/-- **`PackedHostData` in octets.** -/
def hostData : Codec PackedHostData 4 where
  octets d := PackedHostData.octetsOfWord d.word
  ofOctets := PackedHostData.ofOctets
  length_octets _ := rfl
  ofOctets_octets d := by
    rw [PackedHostData.octetsOfWord, PackedHostData.ofOctets, PackedHostData.wordOfOctets_octetsOfWord,
      PackedHostData.ofWord_word]
  octets_ofOctets s hs := by
    obtain ⟨a, b, c, d, rfl⟩ := List.length_eq_four.mp hs
    rw [PackedHostData.ofOctets, PackedHostData.word_ofWord, PackedHostData.octetsOfWord_wordOfOctets]

/-! ## The server -/

/-- The configuration of the data file. A file without octets cannot be mapped. -/
structure DataConfig extends SiteConfig where
  dataMmapFile : Bytes
  recreateMmapFile : Bool := false
  numSites_pos : 0 < numSites

/-- `num_sites * sizeof(PackedHostData)`. -/
def DataConfig.size (config : DataConfig) : ℕ := 4 * config.numSites.toNat

/-- `do_create`. -/
def doCreate (file : Option Bytes) (size : ℕ) (force : Bool) : Bool :=
  force || match file with
    | none => true
    | some file => file.length ≠ size

/-- **`PreAllocateMmapFile`**: the file that is mapped. -/
def preAllocateMmapFile (file : Option Bytes) (size : ℕ) (force : Bool) : Bytes :=
  if doCreate file size force then List.replicate size 0 else file.getD []

theorem length_preAllocateMmapFile (file : Option Bytes) (size : ℕ) (force : Bool) :
    (preAllocateMmapFile file size force).length = size := by
  unfold preAllocateMmapFile doCreate
  split_ifs with h
  · exact List.length_replicate
  · cases file with
    | none => simp at h
    | some file => simpa using (Bool.or_eq_false_iff.mp (Bool.eq_false_iff.mpr h)).2

/-- **A server** and the files of its machine: it has mapped the data file of its configuration. -/
structure Server where
  config : DataConfig
  files : FileSystem
  region : Bytes
  mapped : files config.dataMmapFile = some region
  length_region : region.length = config.size

namespace Server

/-- The constructor of `VectorVhostManager`. -/
def start (config : DataConfig) (files : FileSystem) : Server where
  config := config
  files := Function.update files config.dataMmapFile
    (some (preAllocateMmapFile (files config.dataMmapFile) config.size config.recreateMmapFile))
  region := preAllocateMmapFile (files config.dataMmapFile) config.size config.recreateMmapFile
  mapped := Function.update_self ..
  length_region := length_preAllocateMmapFile ..

variable (s : Server)

/-- The manager: its `data_` are the octets of the file. -/
def manager : VectorVhostManager where
  config := s.config.toSiteConfig
  data := hostData.read s.config.numSites.toNat s.region
  length_data := hostData.length_read ..

/-- The host writes to the octets of its record. -/
def store (ix : UInt32) (h : ix < s.config.numSites) (d : PackedHostData) : Server where
  config := s.config
  files := Function.update s.files s.config.dataMmapFile
    (some (overwrite s.region (4 * ix.toNat) (hostData.octets d)))
  region := overwrite s.region (4 * ix.toNat) (hostData.octets d)
  mapped := Function.update_self ..
  length_region := by
    rw [length_overwrite, s.length_region]
    rw [hostData.length_octets, s.length_region, DataConfig.size]
    have := UInt32.lt_iff_toNat_lt.mp h
    omega

/-- **A request.** A static page is read after the hit is counted. -/
def serve (v : Visit) : Except GetHostError HostReply × Server :=
  match h : s.manager.getHost v.host with
  | .error e => (.error e, s)
  | .ok host =>
    have hlt : host.id < s.config.numSites := VectorVhostManager.getHost_lt h
    let data := s.manager.record host.id hlt
    let s' := s.store host.id hlt (host.processRequest s.files v.req data).2
    (.ok (host.processRequest s'.files v.req data).1, s')

theorem serve_cases (v : Visit) :
    (∃ e, s.manager.getHost v.host = .error e ∧ s.serve v = (.error e, s)) ∨
      ∃ host, ∃ h : host.id < s.config.numSites, ∃ s' : Server, s.manager.getHost v.host = .ok host ∧
        s' = s.store host.id h (host.processRequest s.files v.req (s.manager.record host.id h)).2 ∧
        s.serve v = (.ok (host.processRequest s'.files v.req (s.manager.record host.id h)).1, s') := by
  unfold serve
  split
  · next e h => exact .inl ⟨e, h, rfl⟩
  · next host h => exact .inr ⟨host, VectorVhostManager.getHost_lt h, _, h, rfl, rfl⟩

end Server

open VectorVhostManager

theorem processRequest_snd (host : HostPtr) (files files' : FileSystem) (req : HttpRequest)
    (data : PackedHostData) :
    (host.processRequest files req data).2 = (host.processRequest files' req data).2 := by
  have hstatic : ∀ files : FileSystem, (StaticPageHost.processRequest files req data).2 =
      if find StaticPageHost.badbad (StaticPageHost.pageOf req.uri) ≠ some 0 then data
      else data.incHitCount := by
    intro files
    unfold StaticPageHost.processRequest StaticPageHost.serve
    split_ifs
    · rfl
    · simp only
      split
      · rfl
      · split <;> rfl
  unfold HostPtr.processRequest
  cases host.hostClass with
  | defaultHost => rfl
  | staticPageHost => exact (hstatic files).trans (hstatic files').symm

theorem manager_store (s : Server) (ix : UInt32) (h : ix < s.config.numSites) (d : PackedHostData) :
    (s.store ix h d).manager = s.manager.setRecord ix d := by
  have hlt : ix.toNat < (hostData.read s.config.numSites.toNat s.region).length := by
    rw [hostData.length_read]
    exact UInt32.lt_iff_toNat_lt.mp h
  have hwrite := hostData.write_set hlt d
  rw [hostData.write_read s.length_region] at hwrite
  have hread := hostData.read_write ((hostData.read s.config.numSites.toNat s.region).set ix.toNat d)
  rw [List.length_set, hostData.length_read, hwrite] at hread
  simp only [Server.manager, Server.store, setRecord, hread]

/-- **A request does to the octets of the file what it does to the records.** -/
theorem serve_manager (s : Server) (v : Visit) :
    (s.serve v).1 = (s.manager.serve (s.serve v).2.files v).1 ∧
      (s.serve v).2.manager = (s.manager.serve (s.serve v).2.files v).2 ∧
      (s.serve v).2.config = s.config ∧
      ∀ path, path ≠ s.config.dataMmapFile → (s.serve v).2.files path = s.files path := by
  obtain ⟨e, hhost, hrun⟩ | ⟨host, h, s', hhost, hs', hrun⟩ := s.serve_cases v
  · obtain ⟨e', hhost', hrun'⟩ | ⟨host, -, hhost', -⟩ := serve_cases s.files s.manager v
    · rw [hhost] at hhost'
      cases hhost'
      rw [hrun]
      exact ⟨by rw [hrun'], by rw [hrun'], rfl, fun path _ => rfl⟩
    · rw [hhost] at hhost'
      cases hhost'
  · obtain ⟨e', hhost', -⟩ | ⟨host', h', hhost', hrun'⟩ := serve_cases s'.files s.manager v
    · rw [hhost] at hhost'
      cases hhost'
    · rw [hhost] at hhost'
      cases hhost'
      have hdata := processRequest_snd host s.files s'.files v.req (s.manager.record host.id h)
      rw [hrun]
      refine ⟨by rw [hrun'], ?_, by rw [hs']; rfl, fun path hne => ?_⟩
      · rw [hrun', ← hdata]
        exact (congrArg Server.manager hs').trans (manager_store s host.id h _)
      · rw [hs']
        exact Function.update_of_ne hne ..

/-! ## Runs -/

/-- What happens to a server: requests, restarts, and other programs that write or remove files. -/
inductive ServerEvent where
  | request (v : Visit)
  | restart (config : DataConfig)
  | edit (path : Bytes) (file : Option Bytes)

/-- A server, and for each file that it has created the sites that have answered with their page since. -/
structure ServerLog where
  server : Server
  since : Bytes → Option (List UInt32)

namespace ServerLog

/-- A server starts. -/
def start (config : DataConfig) (files : FileSystem) (since : Bytes → Option (List UInt32)) :
    ServerLog where
  server := Server.start config files
  since :=
    if doCreate (files config.dataMmapFile) config.size config.recreateMmapFile then
      Function.update since config.dataMmapFile (some [])
    else since

variable (s : ServerLog)

/-- The sites that have answered since the file of the server was created. -/
def answered : Option (List UInt32) := s.since s.server.config.dataMmapFile

/-- **One step.** A file that the server has mapped is not touched by others. -/
def step (s : ServerLog) : ServerEvent → ServerLog
  | .request v => {
      server := (s.server.serve v).2
      since := Function.update s.since s.server.config.dataMmapFile
        (s.answered.map (· ++ (pageOfSite s.server.manager v).toList)) }
  | .restart config => start config s.server.files s.since
  | .edit path file =>
    if hpath : path = s.server.config.dataMmapFile then s
    else {
      server := { s.server with
        files := Function.update s.server.files path file
        mapped := (Function.update_of_ne (Ne.symm hpath) ..).trans s.server.mapped }
      since := Function.update s.since path none }

/-- **What is asked for**: the page shows how often the site has answered since the file was created. -/
def Shows : ServerEvent → Prop
  | .request v => ∀ sites id, s.answered = some sites → pageOfSite s.server.manager v = some id →
      (s.server.serve v).1 = .ok ⟨DefaultHost.page id (sites.count id + 1) v.req.doNotTrack, .ok⟩
  | _ => True

/-- **The counter of the site has room** for another hit. -/
def Room : ServerEvent → Prop
  | .request v => ∀ sites id, s.answered = some sites → pageOfSite s.server.manager v = some id →
      sites.count id + 1 < 2 ^ 23
  | _ => True

/-- The records of a file after these sites have answered. -/
def counters (n : ℕ) (sites : List UInt32) : List PackedHostData :=
  (List.range n).map fun i => { hostbits := BitVec.ofNat 23 (sites.count (UInt32.ofNat i)) }

/-- **The invariant**: what is in the files that the server has created. -/
def Kept : Prop :=
  ∀ path sites, s.since path = some sites →
    ∃ n, s.server.files path = some (hostData.write (counters n sites))

end ServerLog

theorem counts_iff_counters (m : VectorVhostManager) (sites : List UInt32) :
    Counts ⟨m, sites⟩ ↔ m.data = ServerLog.counters m.config.numSites.toNat sites := by
  have hlength : (ServerLog.counters m.config.numSites.toNat sites).length = m.config.numSites.toNat := by
    rw [ServerLog.counters, List.length_map, List.length_range]
  constructor
  · intro h
    refine List.ext_getElem (m.length_data.trans hlength.symm) fun i hi hi' => ?_
    have hbound : i < m.config.numSites.toNat := m.length_data ▸ hi
    have hof : (UInt32.ofNat i).toNat = i :=
      UInt32.toNat_ofNat_of_lt' (hbound.trans (UInt32.toNat_lt _))
    have hlt : UInt32.ofNat i < m.config.numSites := UInt32.lt_iff_toNat_lt.mpr (hof.symm ▸ hbound)
    have hrecord := h (UInt32.ofNat i) hlt
    rw [record, List.get_eq_getElem] at hrecord
    simp only [hof] at hrecord
    simpa [ServerLog.counters, Visited.hits] using hrecord
  · intro h id hid
    rw [record, List.get_eq_getElem]
    simp only [h, ServerLog.counters, List.getElem_map, List.getElem_range, UInt32.ofNat_toNat, Visited.hits]

theorem ServerLog.Kept.counts {s : ServerLog} (h : s.Kept) {sites : List UInt32}
    (hsites : s.answered = some sites) : Counts ⟨s.server.manager, sites⟩ := by
  obtain ⟨n, hfile⟩ := h _ _ hsites
  rw [s.server.mapped] at hfile
  have hregion := Option.some.inj hfile
  have hn : n = s.server.config.numSites.toNat := by
    have hlength := s.server.length_region
    rw [hregion, hostData.length_write, DataConfig.size, ServerLog.counters, List.length_map,
      List.length_range] at hlength
    omega
  have hread := hostData.read_write (ServerLog.counters n sites)
  rw [← hregion, ServerLog.counters, List.length_map, List.length_range, hn] at hread
  exact (counts_iff_counters _ _).mpr hread

theorem region_of_counts {s : Server} {sites : List UInt32} (h : Counts ⟨s.manager, sites⟩) :
    s.files s.config.dataMmapFile = some (hostData.write (ServerLog.counters s.config.numSites.toNat sites)) := by
  rw [s.mapped, ← hostData.write_read s.length_region]
  exact congrArg (fun data => some (hostData.write data)) ((counts_iff_counters _ _).mp h)

theorem ServerLog.Kept.shows_iff {s : ServerLog} (h : s.Kept) (e : ServerEvent) : s.Shows e ↔ s.Room e := by
  cases e with
  | restart config => exact Iff.rfl
  | edit path file => exact Iff.rfl
  | request v =>
    refine forall₄_congr fun sites id hsites hid => ?_
    have hiff := (h.counts hsites).shown_iff (s.server.serve v).2.files v
    rw [Shown, HasRoom] at hiff
    rw [(serve_manager s.server v).1]
    constructor
    · intro hpage
      refine hiff.mp (fun id' hid' => ?_) id hid
      cases hid.symm.trans hid'
      exact hpage
    · intro hroom
      refine hiff.mpr (fun id' hid' => ?_) id hid
      cases hid.symm.trans hid'
      exact hroom

theorem kept_start (config : DataConfig) (files : FileSystem) (since : Bytes → Option (List UInt32))
    (hsince : ∀ path sites, since path = some sites →
      ∃ n, files path = some (hostData.write (ServerLog.counters n sites))) :
    (ServerLog.start config files since).Kept := by
  intro path sites hsites
  rw [ServerLog.start] at hsites ⊢
  simp only [Server.start] at hsites ⊢
  split at hsites
  · next hcreate =>
    by_cases hpath : path = config.dataMmapFile
    · -- a new file
      subst hpath
      rw [Function.update_self] at hsites ⊢
      cases hsites
      refine ⟨config.numSites.toNat, congrArg some ?_⟩
      have hzero : ServerLog.counters config.numSites.toNat [] = List.replicate config.numSites.toNat {} := by
        simp [ServerLog.counters, List.map_const']
      rw [preAllocateMmapFile, if_pos hcreate, hzero, hostData.write_replicate (x := 0) rfl, DataConfig.size]
    · rw [Function.update_of_ne hpath] at hsites ⊢
      exact hsince path sites hsites
  · next hcreate =>
    -- the file that there is
    obtain ⟨n, hfile⟩ := hsince path sites hsites
    refine ⟨n, ?_⟩
    by_cases hpath : path = config.dataMmapFile
    · subst hpath
      rw [Function.update_self, preAllocateMmapFile, if_neg hcreate, hfile, Option.getD_some]
    · rw [Function.update_of_ne hpath, hfile]

/-- **One step** keeps the files. -/
theorem ServerLog.Kept.step {s : ServerLog} (h : s.Kept) (e : ServerEvent) : (s.step e).Kept := by
  cases e with
  | restart config => exact kept_start config s.server.files s.since h
  | edit path file =>
    rw [ServerLog.step]
    split
    · exact h
    · intro path' sites hsites
      by_cases hpath : path' = path
      · rw [hpath] at hsites
        simp at hsites
      · simp only [Function.update_of_ne hpath] at hsites ⊢
        exact h path' sites hsites
  | request v =>
    intro path sites hsites
    obtain ⟨-, hmanager, hconfig, hfiles⟩ := serve_manager s.server v
    simp only [ServerLog.step] at hsites ⊢
    by_cases hpath : path = s.server.config.dataMmapFile
    · subst hpath
      rw [Function.update_self] at hsites
      obtain ⟨sites', hsites', rfl⟩ := Option.map_eq_some_iff.mp hsites
      have hcounts := ((h.counts hsites').visit (s.server.serve v).2.files v).1
      rw [visit, ← hmanager] at hcounts
      rw [← hconfig]
      exact ⟨_, region_of_counts hcounts⟩
    · rw [Function.update_of_ne hpath] at hsites
      rw [hfiles path hpath]
      exact h path sites hsites

/-- **The counters outlive the server.** In every run of requests, restarts with any configurations and
changes of other files, from any files, every page shows how often its site has answered since its data file
was created exactly if no site answers `2 ^ 23` times. -/
theorem restarts_iff (config : DataConfig) (files : FileSystem) (events : List ServerEvent) :
    Along ServerLog.step ServerLog.Shows (ServerLog.start config files fun _ => none) events ↔
      Along ServerLog.step ServerLog.Room (ServerLog.start config files fun _ => none) events := by
  refine Along.congr (fun s e hs _ _ => hs.step e) (fun s e hs _ => hs.shows_iff e)
    (kept_start config files _ ?_) (Along.always _ _)
  intro path sites hsites
  cases hsites

end VUbercool.Http
