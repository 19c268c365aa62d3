import VUbercool.Dns.Zone

/-!
# Zones from the configuration

`AddZones`, `AddZone` and `SetupZones` (`DnsDaemon.cpp`), over a property tree.

* `Ptree`: a property tree. `Translators`: what turns its data into values.
* `ZoneObject`: a zone as it lies in memory, with its address and the pointers it holds.
* `addZones`, `setupZones`: the zones of a configuration.
* `Mirrors`: zones that carry what the nodes of a configuration say. `addZonesLoop_mirrors`,
  `mirrors_iff`.
-/

namespace VUbercool.Dns

open Octets

/-! ## Property trees -/

/-- A string literal of the source. -/
def literal (s : String) : Bytes := s.toList.map fun c => UInt8.ofNat c.toNat

/-- `boost::property_tree::ptree`: data, and children under keys, in order. A key may stand there more
than once. -/
structure Ptree where
  data : Bytes
  children : List (Bytes × Ptree)

/-- What turns text into values: the stream translators of the property tree and
`address_v4::from_string`. `none` is a text that does not convert. -/
structure Translators where
  bool : Bytes → Option Bool
  uint32 : Bytes → Option UInt32
  uint16 : Bytes → Option UInt16
  address : Bytes → Option AddressV4

namespace Ptree

/-- `get_child_optional`: the first child with the key. -/
def getChildOptional (pt : Ptree) (key : Bytes) : Option Ptree :=
  (pt.children.find? fun it => it.1 == key).map Prod.snd

/-- `get(key, default)`: the default where there is no such child or its data does not convert. -/
def get {α : Type} (pt : Ptree) (translate : Bytes → Option α) (key : Bytes) (default : α) : α :=
  ((pt.getChildOptional key).bind fun child => translate child.data).getD default

/-- The entries under a key: the children of the first child with the key. -/
def entries (pt : Ptree) (key : Bytes) : List (Bytes × Ptree) :=
  match pt.getChildOptional key with
  | none => []
  | some child => child.children

theorem children_induction {P : List (Bytes × Ptree) → Prop} (nil : P [])
    (cons : ∀ key data children its, P children → P its → P ((key, ⟨data, children⟩) :: its)) :
    ∀ its, P its
  | [] => nil
  | (key, ⟨data, children⟩) :: its =>
    cons key data children its (children_induction nil cons children)
      (children_induction nil cons its)

end Ptree

/-! ## Zones in memory -/

/-- The address of a zone. -/
abbrev Address := ℕ

/-- `Zone::ns` with its back pointer. -/
structure NsObject extends Ns where
  zone : Address

/-- `Zone::mx` with its back pointer. -/
structure MxObject extends Mx where
  zone : Address

/-- `Zone::soa` with its back pointer. -/
structure SoaObject extends Soa where
  zone : Address

/-- The members of a `Zone` at an address, but for its children. -/
structure ZoneMembers where
  address : Address
  parent : Option Address
  label : Bytes
  a : List AddressV4
  ns : List NsObject
  mx : List MxObject
  cname : Bytes
  soa : Option SoaObject
  authorative : Bool

/-- **A `Zone` as it lies in memory**, with the zones it owns. -/
structure ZoneObject extends ZoneMembers where
  children : List ZoneObject

mutual
/-- The zones without their addresses. -/
def toZones : List ZoneObject → List Zone
  | [] => []
  | z :: zs => z.toZone :: toZones zs
/-- The zone without its addresses. -/
def ZoneObject.toZone : ZoneObject → Zone
  | ⟨members, children⟩ =>
    { label := members.label
      a := members.a
      ns := members.ns.map NsObject.toNs
      mx := members.mx.map MxObject.toMx
      cname := members.cname
      soa := members.soa.map SoaObject.toSoa
      children := toZones children
      authorative := members.authorative }
end

mutual
/-- The addresses of the zones, each before those below it. -/
def zoneAddresses : List ZoneObject → List Address
  | [] => []
  | z :: zs => z.addressesOf ++ zoneAddresses zs
/-- The addresses of a zone and of those below it. -/
def ZoneObject.addressesOf : ZoneObject → List Address
  | ⟨members, children⟩ => members.address :: zoneAddresses children
end

/-! ## `AddZones` -/

/-- What ends `AddZones`: `ptree_bad_data`, from `get_value`, and what `from_string` throws. -/
inductive ConfigError where
  | ptreeBadData
  | badAddress
  deriving DecidableEq

/-- The name of the zone that a key declares: what follows its `'@'`. -/
def zoneName : Bytes → Option Bytes
  | 64 :: name => some name
  | _ => none

/-- The loop over the entries of `mx`. -/
def addMx (conv : Translators) (zone : Address) :
    List (Bytes × Ptree) → Except ConfigError (List MxObject)
  | [] => .ok []
  | (name, it) :: its =>
    match conv.uint16 it.data with
    | none => .error .ptreeBadData
    | some priority => do
      let mx ← addMx conv zone its
      .ok (⟨⟨⟨name⟩, priority⟩, zone⟩ :: mx)

/-- The loop over the entries of `a`. -/
def addA (conv : Translators) : List (Bytes × Ptree) → Except ConfigError (List AddressV4)
  | [] => .ok []
  | (ip, _) :: its =>
    match conv.address ip with
    | none => .error .badAddress
    | some address => do
      let a ← addA conv its
      .ok (address :: a)

/-- The `soa` of a node: `zone->soa` after its six assignments. -/
def addSoa (conv : Translators) (soa : Ptree) : Soa :=
  let zoneSoa : Soa := {}
  -- each of the numbers is read under the key `rname`
  { rname := soa.get some (literal "rname") zoneSoa.rname
    serial := soa.get conv.uint32 (literal "rname") zoneSoa.serial
    refresh := soa.get conv.uint32 (literal "rname") zoneSoa.refresh
    retry := soa.get conv.uint32 (literal "rname") zoneSoa.retry
    expire := soa.get conv.uint32 (literal "rname") zoneSoa.expire
    minimum := soa.get conv.uint32 (literal "rname") zoneSoa.minimum }

mutual
/-- The loop of `AddZones` over the children of a node. `next` is the address the next `new` gives. -/
def addZonesLoop (conv : Translators) : List (Bytes × Ptree) → Option Address → Address →
    Except ConfigError (List ZoneObject × Address)
  | [], _, next => .ok ([], next)
  | (key, pt) :: its, parent, next =>
    match zoneName key with
    | none => addZonesLoop conv its parent next
    | some name => do
      let (zone, next) ← Ptree.addZone conv name pt parent next
      let (zones, next) ← addZonesLoop conv its parent next
      .ok (zone :: zones, next)
/-- `AddZone`. -/
def Ptree.addZone (conv : Translators) (name : Bytes) : Ptree → Option Address → Address →
    Except ConfigError (ZoneObject × Address)
  | ⟨data, children⟩, parent, next => do
    let pt : Ptree := ⟨data, children⟩
    let zone : Address := next
    let mx ← addMx conv zone (pt.entries (literal "mx"))
    let a ← addA conv (pt.entries (literal "a"))
    let (below, next) ← addZonesLoop conv children (some zone) (next + 1)
    .ok ({ address := zone
           parent := parent
           label := name
           a := a
           ns := (pt.entries (literal "ns")).map fun it => ⟨⟨it.1⟩, zone⟩
           mx := mx
           cname := ((pt.getChildOptional (literal "cname")).map Ptree.data).getD []
           soa := (pt.getChildOptional (literal "soa")).map fun soa => ⟨addSoa conv soa, zone⟩
           authorative := pt.get conv.bool (literal "authorative") false
           children := below }, next)
end

/-- `AddZones`. -/
def addZones (conv : Translators) (pt : Ptree) (parent : Option Address) (next : Address) :
    Except ConfigError (List ZoneObject × Address) :=
  addZonesLoop conv pt.children parent next

/-- The loop of `SetupZones`: `zones` is what `zone_mgr_` holds. -/
def addRootZones (rootZones zones : List ZoneObject) : List ZoneObject :=
  if h : rootZones = [] then zones
  else addRootZones rootZones.dropLast (zones ++ [rootZones.getLast h])
termination_by rootZones.length
decreasing_by
  have := List.length_pos_of_ne_nil h
  rw [List.length_dropLast]
  omega

/-- `SetupZones`, into an empty `zone_mgr_`. -/
def setupZones (conv : Translators) (configuration : Ptree) : Except ConfigError (List ZoneObject) := do
  let (rootZones, _) ← addZones conv configuration none 0
  .ok (addRootZones rootZones [])

theorem addRootZones_eq (rootZones zones : List ZoneObject) :
    addRootZones rootZones zones = zones ++ rootZones.reverse := by
  induction rootZones, zones using addRootZones.induct with
  | case1 zones => simp [addRootZones]
  | case2 rootZones zones h ih =>
    have hlast : rootZones.reverse = rootZones.getLast h :: rootZones.dropLast.reverse := by
      conv_lhs => rw [← List.dropLast_append_getLast h, List.reverse_append]
      rfl
    rw [addRootZones, dif_neg h, ih, hlast, List.append_assoc, List.singleton_append]

/-! ## What a configuration says -/

/-- The keys of the numbers of a `SOA`, and their defaults. -/
def soaNumbers : List (Bytes × UInt32) :=
  [(literal "serial", 1), (literal "refresh", 7200), (literal "retry", 600),
    (literal "expire", 3600000), (literal "minimum", 60)]

/-- The `SOA` that a node's `soa` configures: what stands under the name of each value. -/
def configuredSoa (conv : Translators) (soa : Ptree) : Soa where
  rname := soa.get some (literal "rname") (literal "hostmaster")
  serial := soa.get conv.uint32 (literal "serial") 1
  refresh := soa.get conv.uint32 (literal "refresh") 7200
  retry := soa.get conv.uint32 (literal "retry") 600
  expire := soa.get conv.uint32 (literal "expire") 3600000
  minimum := soa.get conv.uint32 (literal "minimum") 60

/-- **A zone that carries the data of its node**, where `soaOf` reads the `soa` of a node: each entry in
order, each value the converted one, every pointer the one to its zone. -/
structure Carries (conv : Translators) (soaOf : Ptree → Soa) (name : Bytes) (pt : Ptree)
    (parent : Option Address) (z : ZoneObject) : Prop where
  label : z.label = name
  parent : z.parent = parent
  authorative : z.authorative = pt.get conv.bool (literal "authorative") false
  ns : z.ns.map (fun ns => ns.fqdn) = (pt.entries (literal "ns")).map Prod.fst
  mx : z.mx.map (fun mx => (mx.fqdn, some mx.priority)) =
    (pt.entries (literal "mx")).map fun it => (it.1, conv.uint16 it.2.data)
  cname : z.cname = ((pt.getChildOptional (literal "cname")).map Ptree.data).getD []
  a : z.a.map some = (pt.entries (literal "a")).map fun it => conv.address it.1
  soa : z.soa.map SoaObject.toSoa = (pt.getChildOptional (literal "soa")).map soaOf
  ns_zone : ∀ ns ∈ z.ns, ns.zone = z.address
  mx_zone : ∀ mx ∈ z.mx, mx.zone = z.address
  soa_zone : ∀ soa ∈ z.soa, soa.zone = z.address

mutual
/-- **Zones that mirror a configuration**: one for each `'@'` node, in the order of the nodes and
nested as they are, each with the data of its node. -/
def Mirrors (conv : Translators) (soaOf : Ptree → Soa) :
    List (Bytes × Ptree) → Option Address → List ZoneObject → Prop
  | [], _, zones => zones = []
  | (key, pt) :: its, parent, zones =>
    match zoneName key with
    | none => Mirrors conv soaOf its parent zones
    | some name => ∃ z zs, zones = z :: zs ∧ MirrorsZone conv soaOf name pt parent z ∧
        Mirrors conv soaOf its parent zs
/-- The zone mirrors the node. -/
def MirrorsZone (conv : Translators) (soaOf : Ptree → Soa) (name : Bytes) :
    Ptree → Option Address → ZoneObject → Prop
  | ⟨data, children⟩, parent, z => Carries conv soaOf name ⟨data, children⟩ parent z ∧
      Mirrors conv soaOf children (some z.address) z.children
end

mutual
/-- The `soa` children of the `'@'` nodes. -/
def soaNodes : List (Bytes × Ptree) → List Ptree
  | [] => []
  | (key, pt) :: its =>
    match zoneName key with
    | none => soaNodes its
    | some _ => pt.soaNodesOf ++ soaNodes its
/-- The `soa` child of a node and those of the `'@'` nodes below it. -/
def Ptree.soaNodesOf : Ptree → List Ptree
  | ⟨data, children⟩ =>
    (Ptree.getChildOptional ⟨data, children⟩ (literal "soa")).toList ++ soaNodes children
end

/-! ## `AddZones` reads the configuration -/

theorem addMx_spec {conv : Translators} {zone : Address} : ∀ {its : List (Bytes × Ptree)}
    {mx : List MxObject}, addMx conv zone its = .ok mx →
    mx.map (fun mx => (mx.fqdn, some mx.priority)) =
        its.map (fun it => (it.1, conv.uint16 it.2.data)) ∧ ∀ x ∈ mx, x.zone = zone
  | [], mx, h => by
    rw [addMx] at h
    cases h
    simp
  | (name, it) :: its, mx, h => by
    rw [addMx] at h
    cases hp : conv.uint16 it.data with
    | none => rw [hp] at h; cases h
    | some priority =>
      rw [hp] at h
      obtain ⟨mx', hmx, h⟩ := Proc.exists_of_bind_ok h
      cases h
      have ih := addMx_spec hmx
      refine ⟨?_, fun x hx => ?_⟩
      · rw [List.map_cons, List.map_cons, ih.1, hp]
      · rcases List.mem_cons.mp hx with rfl | hx
        · rfl
        · exact ih.2 x hx

theorem addA_spec {conv : Translators} : ∀ {its : List (Bytes × Ptree)} {a : List AddressV4},
    addA conv its = .ok a → a.map some = its.map fun it => conv.address it.1
  | [], a, h => by
    rw [addA] at h
    cases h
    rfl
  | (ip, it) :: its, a, h => by
    rw [addA] at h
    cases hp : conv.address ip with
    | none => rw [hp] at h; cases h
    | some address =>
      rw [hp] at h
      obtain ⟨a', ha, h⟩ := Proc.exists_of_bind_ok h
      cases h
      rw [List.map_cons, List.map_cons, addA_spec ha, hp]

theorem addZone_ok {conv : Translators} {name : Bytes} {pt : Ptree} {parent : Option Address}
    {next next' : Address} {z : ZoneObject} (h : Ptree.addZone conv name pt parent next = .ok (z, next')) :
    Carries conv (addSoa conv) name pt parent z ∧ z.address = next ∧
      addZonesLoop conv pt.children (some next) (next + 1) = .ok (z.children, next') := by
  obtain ⟨data, children⟩ := pt
  rw [Ptree.addZone] at h
  obtain ⟨mx, hmx, h⟩ := Proc.exists_of_bind_ok h
  obtain ⟨a, ha, h⟩ := Proc.exists_of_bind_ok h
  obtain ⟨⟨below, last⟩, hbelow, h⟩ := Proc.exists_of_bind_ok h
  cases h
  refine ⟨?_, rfl, hbelow⟩
  constructor
  case label => rfl
  case parent => rfl
  case authorative => rfl
  case ns => rw [List.map_map]; rfl
  case mx => exact (addMx_spec hmx).1
  case cname => rfl
  case a => exact addA_spec ha
  case soa => rw [Option.map_map]; rfl
  case ns_zone =>
    intro ns hns
    obtain ⟨it, _, rfl⟩ := List.mem_map.mp hns
    rfl
  case mx_zone => exact (addMx_spec hmx).2
  case soa_zone =>
    intro soa hsoa
    obtain ⟨it, _, rfl⟩ := Option.map_eq_some_iff.mp hsoa
    rfl

/-- **What `AddZones` builds mirrors the configuration**, with each `soa` read as `AddZone` reads it. -/
theorem addZonesLoop_mirrors {conv : Translators} (its : List (Bytes × Ptree)) :
    ∀ {parent : Option Address} {next next' : Address} {zones : List ZoneObject},
      addZonesLoop conv its parent next = .ok (zones, next') →
      Mirrors conv (addSoa conv) its parent zones := by
  induction its using Ptree.children_induction with
  | nil =>
    intro parent next next' zones h
    rw [addZonesLoop] at h
    cases h
    rw [Mirrors]
  | cons key data children its ihc ih =>
    intro parent next next' zones h
    unfold addZonesLoop at h
    unfold Mirrors
    cases hk : zoneName key with
    | none =>
      rw [hk] at h
      exact ih h
    | some name =>
      rw [hk] at h
      obtain ⟨⟨z, mid⟩, hz, h⟩ := Proc.exists_of_bind_ok h
      obtain ⟨⟨zs, last⟩, hzs, h⟩ := Proc.exists_of_bind_ok h
      cases h
      obtain ⟨hc, haddr, hbelow⟩ := addZone_ok hz
      refine ⟨z, zs, rfl, ?_, ih hzs⟩
      rw [MirrorsZone, haddr]
      exact ⟨hc, ihc hbelow⟩

theorem addZonesLoop_addresses {conv : Translators} (its : List (Bytes × Ptree)) :
    ∀ {parent : Option Address} {next next' : ℕ} {zones : List ZoneObject},
      addZonesLoop conv its parent next = .ok (zones, next') →
      next ≤ next' ∧ zoneAddresses zones = List.range' next (next' - next) := by
  induction its using Ptree.children_induction with
  | nil =>
    intro parent next next' zones h
    unfold addZonesLoop at h
    cases h
    simp [zoneAddresses]
  | cons key data children its ihc ih =>
    intro parent next next' zones h
    unfold addZonesLoop at h
    cases hk : zoneName key with
    | none =>
      rw [hk] at h
      exact ih h
    | some name =>
      rw [hk] at h
      obtain ⟨⟨z, (mid : ℕ)⟩, hz, h⟩ := Proc.exists_of_bind_ok h
      obtain ⟨⟨zs, last⟩, hzs, h⟩ := Proc.exists_of_bind_ok h
      cases h
      obtain ⟨_, haddr, hbelow⟩ := addZone_ok hz
      obtain ⟨hmid, hin⟩ := ihc hbelow
      obtain ⟨hlast, hrest⟩ := ih hzs
      refine ⟨by omega, ?_⟩
      have hz : z.addressesOf = List.range' next (mid - next) := by
        obtain ⟨members, below⟩ := z
        rw [show mid - next = mid - (next + 1) + 1 by omega, List.range'_succ, ← hin, ← haddr]
        rfl
      rw [zoneAddresses, hz, hrest, show next' - next = (mid - next) + (next' - mid) by omega,
        ← List.range'_append_1, show next + (mid - next) = mid by omega]

/-- Two readings of the `soa` nodes that zones mirror agree on each of the nodes. -/
theorem mirrors_iff {conv : Translators} {soaOf soaOf' : Ptree → Soa} (its : List (Bytes × Ptree)) :
    ∀ {parent : Option Address} {zones : List ZoneObject}, Mirrors conv soaOf its parent zones →
      (Mirrors conv soaOf' its parent zones ↔ ∀ soa ∈ soaNodes its, soaOf soa = soaOf' soa) := by
  induction its using Ptree.children_induction with
  | nil =>
    intro parent zones h
    unfold Mirrors at h
    rw [Mirrors, soaNodes]
    simp [h]
  | cons key data children its ihc ih =>
    intro parent zones h
    unfold Mirrors at h
    rw [Mirrors, soaNodes]
    cases hk : zoneName key with
    | none =>
      rw [hk] at h
      exact ih h
    | some name =>
      rw [hk] at h
      obtain ⟨z, zs, rfl, hz, hzs⟩ := h
      unfold MirrorsZone at hz
      have hself : Carries conv soaOf' name ⟨data, children⟩ parent z ↔
          ∀ soa ∈ (Ptree.getChildOptional ⟨data, children⟩ (literal "soa")).toList,
            soaOf soa = soaOf' soa := by
        have hsoa := hz.1.soa
        constructor
        · intro hc soa hmem
          rw [Option.mem_toList] at hmem
          rw [hc.soa, Option.mem_def.mp hmem] at hsoa
          exact (Option.some.inj hsoa).symm
        · intro hall
          refine { hz.1 with soa := hsoa.trans ?_ }
          cases hs : Ptree.getChildOptional ⟨data, children⟩ (literal "soa") with
          | none => rfl
          | some soa => exact congrArg some (hall soa (by simp [hs]))
      unfold Ptree.soaNodesOf
      simp only [List.mem_append, or_imp, forall_and]
      rw [← hself, ← ihc hz.2, ← ih hzs]
      constructor
      · rintro ⟨z', zs', heq, hz', hzs'⟩
        cases heq
        unfold MirrorsZone at hz'
        exact ⟨hz', hzs'⟩
      · rintro ⟨hz', hzs'⟩
        refine ⟨z, zs, rfl, ?_, hzs'⟩
        unfold MirrorsZone
        exact hz'

/-! ## Fidelity -/

/-- A number in decimal below a limit. -/
def readNumber (limit : ℕ) (text : Bytes) : Option ℕ :=
  if text ≠ [] ∧ text.all (fun c => 48 ≤ c && c ≤ 57) then
    let n := text.foldl (fun n c => 10 * n + (c.toNat - 48)) 0
    if n < limit then some n else none
  else none

/-- An address in dotted form. -/
def readAddress (text : Bytes) : Option AddressV4 :=
  match (toFraments text).mapM (readNumber 256) with
  | some [a, b, c, d] => some (UInt32.ofNat (((a * 256 + b) * 256 + c) * 256 + d))
  | _ => none

/-- How streams read plain numbers, and `from_string` dotted addresses. -/
def plainTranslators : Translators where
  bool text := (readNumber 2 text).map (· == 1)
  uint32 text := (readNumber 4294967296 text).map UInt32.ofNat
  uint16 text := (readNumber 65536 text).map UInt16.ofNat
  address := readAddress

/-- A configuration like the one the daemon comes with, with a serial of its own. -/
def sampleConfiguration (serial : Bytes) : Ptree :=
  let leaf (data : Bytes) : Ptree := ⟨data, []⟩
  let list (its : List (Bytes × Ptree)) : Ptree := ⟨[], its⟩
  list [(literal "network", list [(literal "0.0.0.0", leaf (literal "53"))]),
    (literal "@com", list [(literal "authorative", leaf (literal "0")),
      (literal "@onebillionsites", list [
        (literal "soa", list [(literal "rname", leaf (literal "hostmaster")),
          (literal "serial", leaf serial)]),
        (literal "ns", list [(literal "ns1", leaf []), (literal "ns2", leaf [])]),
        (literal "mx", list [(literal "mail", leaf (literal "5"))]),
        (literal "a", list [(literal "192.168.1.90", leaf [])]),
        (literal "@www", list [(literal "cname", leaf (literal "onebillionsites.com."))]),
        (literal "@", list [(literal "a", list [(literal "192.168.1.90", leaf [])])])])])]

/-- The key `rname` gives the number that each of the five keys gives. -/
def RnameServes (conv : Translators) (soa : Ptree) : Prop :=
  ∀ number ∈ soaNumbers, soa.get conv.uint32 (literal "rname") number.2 =
    soa.get conv.uint32 number.1 number.2

theorem addSoa_eq_iff {conv : Translators} {soa : Ptree} :
    addSoa conv soa = configuredSoa conv soa ↔ RnameServes conv soa := by
  have hname : literal "hostmaster" = ({} : Soa).rname := by decide
  simp only [addSoa, configuredSoa, RnameServes, soaNumbers, hname, Soa.mk.injEq, List.forall_mem_cons,
    List.not_mem_nil, IsEmpty.forall_iff, implies_true, and_true, true_and]

/-- **Zones and their configuration.** What `AddZones` builds carries what the nodes of the
configuration say, at pairwise different addresses, if and only if the key `rname` of every `soa`
gives the numbers that its five keys give. -/
theorem addZones_faithful_iff {conv : Translators} {pt : Ptree} {parent : Option Address}
    {next next' : Address} {zones : List ZoneObject}
    (h : addZones conv pt parent next = .ok (zones, next')) :
    (Mirrors conv (configuredSoa conv) pt.children parent zones ∧ (zoneAddresses zones).Nodup) ↔
      ∀ soa ∈ soaNodes pt.children, RnameServes conv soa := by
  have hm := addZonesLoop_mirrors pt.children h
  have hnodup : (zoneAddresses zones).Nodup := by
    rw [(addZonesLoop_addresses pt.children h).2]
    exact List.nodup_range'
  simp only [hnodup, and_true, mirrors_iff pt.children hm, addSoa_eq_iff]

theorem sampleConfiguration_ok (serial : Bytes) (h : (addZones plainTranslators
    (sampleConfiguration serial) none 0).isOk = true) : ∃ zones next',
    addZones plainTranslators (sampleConfiguration serial) none 0 = .ok (zones, next') := by
  cases hx : addZones plainTranslators (sampleConfiguration serial) none 0 with
  | error e => rw [hx] at h; cases h
  | ok r => exact ⟨r.1, r.2, rfl⟩

theorem addZones_faithful_sample : ∃ zones next',
    addZones plainTranslators (sampleConfiguration (literal "1")) none 0 = .ok (zones, next') ∧
      ((Mirrors plainTranslators (configuredSoa plainTranslators)
          (sampleConfiguration (literal "1")).children none zones ∧ (zoneAddresses zones).Nodup) ↔
        ∀ soa ∈ soaNodes (sampleConfiguration (literal "1")).children,
          RnameServes plainTranslators soa) := by
  obtain ⟨zones, next', h⟩ := sampleConfiguration_ok (literal "1") (by decide +kernel)
  exact ⟨zones, next', h, addZones_faithful_iff h⟩

/-- **A configured serial is ignored.** -/
theorem addZones_serial_ignored : ∃ zones next',
    addZones plainTranslators (sampleConfiguration (literal "42")) none 0 = .ok (zones, next') ∧
      ¬ Mirrors plainTranslators (configuredSoa plainTranslators)
        (sampleConfiguration (literal "42")).children none zones := by
  obtain ⟨zones, next', h⟩ := sampleConfiguration_ok (literal "42") (by decide +kernel)
  refine ⟨zones, next', h, fun hm => ?_⟩
  have hserves := (mirrors_iff _ (addZonesLoop_mirrors _ h)).mp hm
  have hread : ∃ soa ∈ soaNodes (sampleConfiguration (literal "42")).children,
      addSoa plainTranslators soa ≠ configuredSoa plainTranslators soa := by
    refine ⟨⟨[], [(literal "rname", ⟨literal "hostmaster", []⟩),
      (literal "serial", ⟨literal "42", []⟩)]⟩, ?_, by decide +kernel⟩
    exact List.mem_of_getElem? (show _[0]? = some _ from rfl)
  obtain ⟨soa, hmem, hne⟩ := hread
  exact hne (hserves soa hmem)

end VUbercool.Dns
