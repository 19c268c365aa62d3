import VUbercool.Dns.Config
import VUbercool.Dns.Lookup

/-!
# A zone's own name

* `Within`: a zone in memory and the zones it lies in. `Mirrors.parent`: its parent pointer.
* `Parents`: where parent pointers lead. `setupZones_parents`: through the zones around.
* `Everywhere`: what holds of the siblings of each level. `distinct_toZones`: different names in the
  configuration are different labels in the forest.
* `lookup_own_name`: `Lookup` finds every zone under the name `GetDomainName` gives it.
-/

namespace VUbercool.Dns

open Octets Rfc1035

/-! ## Parent pointers -/

/-- A zone of `zones`, with the zones it lies in from the innermost on. -/
inductive Within (zones : List ZoneObject) : List ZoneObject → ZoneObject → Prop
  | root {z : ZoneObject} : z ∈ zones → Within zones [] z
  | child {chain : List ZoneObject} {p z : ZoneObject} : Within zones chain p → z ∈ p.children →
      Within zones (p :: chain) z

theorem toZones_eq_map : ∀ zones : List ZoneObject, toZones zones = zones.map ZoneObject.toZone
  | [] => rfl
  | z :: zs => by rw [toZones, toZones_eq_map zs, List.map_cons]

theorem toZone_children (z : ZoneObject) : z.toZone.children = z.children.map ZoneObject.toZone := by
  obtain ⟨members, children⟩ := z
  rw [ZoneObject.toZone, toZones_eq_map]

theorem toZone_label (z : ZoneObject) : z.toZone.label = z.label := by
  obtain ⟨members, children⟩ := z
  rfl

theorem Mirrors.forall {conv : Translators} {soaOf : Ptree → Soa} : ∀ {its : List (Bytes × Ptree)}
    {parent : Option Address} {zones : List ZoneObject}, Mirrors conv soaOf its parent zones →
    ∀ z ∈ zones, ∃ key name pt, (key, pt) ∈ its ∧ zoneName key = some name ∧
      MirrorsZone conv soaOf name pt parent z
  | [], parent, zones, h, z, hz => by
    unfold Mirrors at h
    rw [h] at hz
    cases hz
  | (key, pt) :: its, parent, zones, h, z, hz => by
    unfold Mirrors at h
    cases hk : zoneName key with
    | none =>
      rw [hk] at h
      obtain ⟨key', name, pt', hmem, hn, hm⟩ := Mirrors.forall h z hz
      exact ⟨key', name, pt', List.mem_cons_of_mem _ hmem, hn, hm⟩
    | some name =>
      rw [hk] at h
      obtain ⟨y, zs, rfl, hy, hzs⟩ := h
      rcases List.mem_cons.mp hz with rfl | hz
      · exact ⟨key, name, pt, List.mem_cons_self, hk, hy⟩
      · obtain ⟨key', name', pt', hmem, hn, hm⟩ := Mirrors.forall hzs z hz
        exact ⟨key', name', pt', List.mem_cons_of_mem _ hmem, hn, hm⟩

theorem Mirrors.within {conv : Translators} {soaOf : Ptree → Soa} {its : List (Bytes × Ptree)}
    {zones chain : List ZoneObject} {z : ZoneObject} (h : Mirrors conv soaOf its none zones)
    (hz : Within zones chain z) : ∃ name pt,
      MirrorsZone conv soaOf name pt (chain.head?.map fun p => p.address) z := by
  induction hz with
  | root hmem =>
    obtain ⟨_, name, pt, _, _, hm⟩ := h.forall _ hmem
    exact ⟨name, pt, hm⟩
  | child _ hmem ih =>
    obtain ⟨name, ⟨data, children⟩, hp⟩ := ih
    unfold MirrorsZone at hp
    obtain ⟨_, name', pt', _, _, hm⟩ := hp.2.forall _ hmem
    exact ⟨name', pt', hm⟩

/-- **The parent pointer** of a zone holds the address of the zone it lies in. -/
theorem Mirrors.parent {conv : Translators} {soaOf : Ptree → Soa} {its : List (Bytes × Ptree)}
    {zones chain : List ZoneObject} {z : ZoneObject} (h : Mirrors conv soaOf its none zones)
    (hz : Within zones chain z) : z.parent = chain.head?.map fun p => p.address := by
  obtain ⟨name, ⟨data, children⟩, hm⟩ := h.within hz
  unfold MirrorsZone at hm
  exact hm.1.parent

theorem addresses_cons (z : ZoneObject) (zs : List ZoneObject) :
    zoneAddresses (z :: zs) = z.address :: zoneAddresses z.children ++ zoneAddresses zs := by
  obtain ⟨members, children⟩ := z
  rfl

theorem not_within_nil {chain : List ZoneObject} {x : ZoneObject} : ¬ Within [] chain x := by
  intro h
  induction h with
  | root hmem => cases hmem
  | child _ _ ih => exact ih

theorem within_cons {z x : ZoneObject} {zs chain : List ZoneObject} (h : Within (z :: zs) chain x) :
    (x = z ∧ chain = []) ∨ (∃ inner, chain = inner ++ [z] ∧ Within z.children inner x) ∨
      Within zs chain x := by
  induction h with
  | root hmem =>
    rcases List.mem_cons.mp hmem with rfl | hmem
    · exact .inl ⟨rfl, rfl⟩
    · exact .inr (.inr (.root hmem))
  | child _ hmem ih =>
    rcases ih with ⟨rfl, rfl⟩ | ⟨inner, rfl, hp⟩ | hp
    · exact .inr (.inl ⟨[], rfl, .root hmem⟩)
    · exact .inr (.inl ⟨_ :: inner, rfl, .child hp hmem⟩)
    · exact .inr (.inr (.child hp hmem))

theorem objects_induction {P : List ZoneObject → Prop} (nil : P [])
    (cons : ∀ z zs, P z.children → P zs → P (z :: zs)) : ∀ zones, P zones
  | [] => nil
  | ⟨members, children⟩ :: zs =>
    cons ⟨members, children⟩ zs (objects_induction nil cons children) (objects_induction nil cons zs)

theorem Within.address_mem (zones : List ZoneObject) : ∀ {chain : List ZoneObject} {x : ZoneObject},
    Within zones chain x → x.address ∈ zoneAddresses zones := by
  induction zones using objects_induction with
  | nil => exact fun h => absurd h not_within_nil
  | cons z zs ihc ih =>
    intro chain x h
    rw [addresses_cons, List.cons_append, List.mem_cons, List.mem_append]
    rcases within_cons h with ⟨rfl, _⟩ | ⟨inner, _, h⟩ | h
    · exact .inl rfl
    · exact .inr (.inl (ihc h))
    · exact .inr (.inr (ih h))

/-- **An address is that of one zone**: a pointer leads to one place of the forest. -/
theorem Within.unique (zones : List ZoneObject) : (zoneAddresses zones).Nodup →
    ∀ {chain chain' : List ZoneObject} {x x' : ZoneObject}, Within zones chain x →
      Within zones chain' x' → x.address = x'.address → x = x' ∧ chain = chain' := by
  induction zones using objects_induction with
  | nil => exact fun _ _ _ _ _ h => absurd h not_within_nil
  | cons z zs ihc ih =>
    intro hnodup chain chain' x x' h h' ha
    rw [addresses_cons, List.cons_append, List.nodup_cons, List.nodup_append, List.mem_append,
      not_or] at hnodup
    obtain ⟨⟨hzc, hzs⟩, hc, hs, hdisj⟩ := hnodup
    rcases within_cons h with ⟨rfl, rfl⟩ | ⟨inner, rfl, hx⟩ | hx <;>
      rcases within_cons h' with ⟨rfl, rfl⟩ | ⟨inner', rfl, hx'⟩ | hx'
    · exact ⟨rfl, rfl⟩
    · exact absurd (ha ▸ hx'.address_mem) hzc
    · exact absurd (ha ▸ hx'.address_mem) hzs
    · exact absurd (ha ▸ hx.address_mem) hzc
    · obtain ⟨rfl, rfl⟩ := ihc hc hx hx' ha
      exact ⟨rfl, rfl⟩
    · exact absurd ha (hdisj _ hx.address_mem _ hx'.address_mem)
    · exact absurd (ha ▸ hx.address_mem) hzs
    · exact absurd ha.symm (hdisj _ hx'.address_mem _ hx.address_mem)
    · exact ih hs hx hx' ha

/-- **The zones of the forest are the zones in memory**: the ancestors of a zone are the zones it lies
in. -/
theorem reached_within {zones : List ZoneObject} {z : ZonePtr} (h : Reached (toZones zones) z) :
    ∃ chain x, Within zones chain x ∧ z.zone = x.toZone ∧
      z.ancestors = chain.map ZoneObject.toZone := by
  induction h with
  | root hz =>
    rw [toZones_eq_map, List.getElem?_map, Option.map_eq_some_iff] at hz
    obtain ⟨x, hx, rfl⟩ := hz
    exact ⟨[], x, .root (List.mem_of_getElem? hx), rfl, rfl⟩
  | child _ hz ih =>
    obtain ⟨chain, p, hp, hzone, hanc⟩ := ih
    rw [hzone, toZone_children, List.getElem?_map, Option.map_eq_some_iff] at hz
    obtain ⟨x, hx, rfl⟩ := hz
    refine ⟨p :: chain, x, .child hp (List.mem_of_getElem? hx), rfl, ?_⟩
    rw [hzone, hanc, List.map_cons]

/-! ## Different siblings -/

/-- What holds of the siblings of every level. -/
inductive Everywhere (P : List Zone → Prop) : List Zone → Prop
  | intro {zones : List Zone} : P zones → (∀ z ∈ zones, Everywhere P z.children) → Everywhere P zones

theorem Everywhere.here {P : List Zone → Prop} {zones : List Zone} (h : Everywhere P zones) :
    P zones := by
  cases h; assumption

theorem Everywhere.reached {P : List Zone → Prop} {zones : List Zone} (h : Everywhere P zones)
    {z : ZonePtr} (hz : Reached zones z) : Everywhere P z.zone.children := by
  induction hz with
  | root hz =>
    cases h with
    | intro _ hall => exact hall _ (List.mem_of_getElem? hz)
  | child _ hz ih =>
    cases ih with
    | intro _ hall => exact hall _ (List.mem_of_getElem? hz)

/-- Texts that differ, ignoring case. -/
def Differ (a b : Bytes) : Prop := iequals a b = false

instance (a b : Bytes) : Decidable (Differ a b) := inferInstanceAs (Decidable (_ = _))

theorem Differ.symm {a b : Bytes} (h : Differ a b) : Differ b a := by
  simp only [Differ, iequals, beq_eq_false_iff_ne] at h ⊢
  exact h.symm

/-- Siblings with different labels. -/
def DistinctLabels (zones : List Zone) : Prop := (zones.map Zone.label).Pairwise Differ

/-- **A configuration in which siblings have different names**: the `'@'` nodes of every level. -/
inductive DistinctNames : List (Bytes × Ptree) → Prop
  | intro {its : List (Bytes × Ptree)} : (its.filterMap fun it => zoneName it.1).Pairwise Differ →
      (∀ it ∈ its, (zoneName it.1).isSome → DistinctNames it.2.children) → DistinctNames its

theorem Mirrors.labels {conv : Translators} {soaOf : Ptree → Soa} : ∀ {its : List (Bytes × Ptree)}
    {parent : Option Address} {zones : List ZoneObject}, Mirrors conv soaOf its parent zones →
    (toZones zones).map Zone.label = its.filterMap fun it => zoneName it.1
  | [], parent, zones, h => by
    unfold Mirrors at h
    rw [h]
    rfl
  | (key, ⟨data, children⟩) :: its, parent, zones, h => by
    unfold Mirrors at h
    cases hk : zoneName key with
    | none =>
      rw [hk] at h
      simp only [List.filterMap_cons, hk, Mirrors.labels h]
    | some name =>
      rw [hk] at h
      obtain ⟨z, zs, rfl, hz, hzs⟩ := h
      unfold MirrorsZone at hz
      simp only [List.filterMap_cons, hk, toZones, List.map_cons, Mirrors.labels hzs, toZone_label,
        hz.1.label]

theorem distinct_toZones {conv : Translators} {soaOf : Ptree → Soa} (its : List (Bytes × Ptree)) :
    ∀ {parent : Option Address} {zones : List ZoneObject}, Mirrors conv soaOf its parent zones →
      DistinctNames its → Everywhere DistinctLabels (toZones zones) := by
  induction its using Ptree.children_induction with
  | nil =>
    intro parent zones h _
    unfold Mirrors at h
    rw [h]
    exact .intro List.Pairwise.nil fun z hz => by cases hz
  | cons key data children its ihc ih =>
    intro parent zones h hd
    have hlabels := h.labels
    obtain ⟨hnames, hall⟩ := hd
    refine .intro (by rw [DistinctLabels, hlabels]; exact hnames) ?_
    unfold Mirrors at h
    have hd' : DistinctNames its := by
      refine .intro ?_ fun it hit => hall it (List.mem_cons_of_mem _ hit)
      exact hnames.sublist ((List.sublist_cons_self _ its).filterMap _)
    cases hk : zoneName key with
    | none =>
      rw [hk] at h
      cases ih h hd' with
      | intro _ hzs => exact hzs
    | some name =>
      rw [hk] at h
      obtain ⟨z, zs, rfl, hz, hzs⟩ := h
      unfold MirrorsZone at hz
      intro x hx
      unfold toZones at hx
      rcases List.mem_cons.mp hx with rfl | hx
      · rw [toZone_children, ← toZones_eq_map]
        exact ihc hz.2 (hall _ List.mem_cons_self (by simp [hk]))
      · cases ih hzs hd' with
        | intro _ hall' => exact hall' x hx

/-! ## The way back -/

theorem iequals_self (a : Bytes) : iequals a a = true := by rw [iequals, beq_self_eq_true]

theorem chosen_own {zones : List Zone} {i : ℕ} {z : Zone} (h : DistinctLabels zones)
    (hz : zones[i]? = some z) : Chosen z.label zones i z := by
  refine .full hz (iequals_self _) fun j y hj hy => ?_
  have hlt := (List.getElem?_eq_some_iff.mp hz).1
  have := List.pairwise_iff_getElem.mp h j i (by rw [List.length_map]; omega)
    (by rw [List.length_map]; exact hlt) hj
  rw [List.getElem_map, List.getElem_map, (List.getElem?_eq_some_iff.mp hy).2,
    (List.getElem?_eq_some_iff.mp hz).2] at this
  exact this.symm

theorem path_labels {zones : List Zone} (h : Everywhere DistinctLabels zones) {z : ZonePtr}
    (hz : Reached zones z) : ZonePath zones z.labels z := by
  induction hz with
  | root hz => exact .root (chosen_own h.here hz)
  | child hp hz ih => exact .child ih (chosen_own (h.reached hp).here hz)

theorem setupZones_ok {conv : Translators} {configuration : Ptree} {zones : List ZoneObject}
    (h : setupZones conv configuration = .ok zones) : ∃ rootZones,
      Mirrors conv (addSoa conv) configuration.children none rootZones ∧
        (zoneAddresses rootZones).Nodup ∧ zones = rootZones.reverse := by
  obtain ⟨⟨rootZones, next'⟩, hroots, h⟩ := Proc.exists_of_bind_ok h
  cases h
  refine ⟨rootZones, addZonesLoop_mirrors _ hroots, ?_, by simp [addRootZones_eq]⟩
  rw [(addZonesLoop_addresses _ hroots).2]
  exact List.nodup_range'

theorem Within.of_reverse {zones chain : List ZoneObject} {z : ZoneObject}
    (h : Within zones.reverse chain z) : Within zones chain z := by
  induction h with
  | root hmem => exact .root (List.mem_reverse.mp hmem)
  | child _ hmem ih => exact .child ih hmem

/-- **Parent pointers in `zone_mgr_`**: each is the address of the zone around, and no other zone of the
forest has that address. -/
theorem setupZones_parent {conv : Translators} {configuration : Ptree} {zones : List ZoneObject}
    (h : setupZones conv configuration = .ok zones) {chain : List ZoneObject} {z : ZoneObject}
    (hz : Within zones chain z) : z.parent = chain.head?.map (fun p => p.address) ∧
      ∀ chain' x, Within zones chain' x → x.address = z.address → x = z ∧ chain' = chain := by
  obtain ⟨rootZones, hm, hnodup, rfl⟩ := setupZones_ok h
  refine ⟨hm.parent hz.of_reverse, fun chain' x hx ha => ?_⟩
  exact Within.unique rootZones hnodup hx.of_reverse hz.of_reverse ha

/-- **The parent pointers** of a zone in memory lead through `chain` to a root: each is the address of the
next zone, which no other zone of the forest has. -/
inductive Parents (zones : List ZoneObject) : ZoneObject → List ZoneObject → Prop
  | root {z : ZoneObject} : z.parent = none → Parents zones z []
  | up {z p : ZoneObject} {chain : List ZoneObject} : z.parent = some p.address → Within zones chain p →
      (∀ above x, Within zones above x → x.address = p.address → x = p) → Parents zones p chain →
      Parents zones z (p :: chain)

/-- They lead through the zones around it. -/
theorem setupZones_parents {conv : Translators} {configuration : Ptree} {zones : List ZoneObject}
    (h : setupZones conv configuration = .ok zones) {chain : List ZoneObject} {z : ZoneObject}
    (hz : Within zones chain z) : Parents zones z chain := by
  induction hz with
  | root hmem => exact .root (setupZones_parent h (.root hmem)).1
  | child hp hmem ih =>
    refine .up (setupZones_parent h (.child hp hmem)).1 hp (fun above x hx ha => ?_) ih
    exact ((setupZones_parent h hp).2 above x hx ha).1

theorem setupZones_distinct {conv : Translators} {configuration : Ptree} {zones : List ZoneObject}
    (h : setupZones conv configuration = .ok zones) (hd : DistinctNames configuration.children) :
    Everywhere DistinctLabels (toZones zones) := by
  obtain ⟨rootZones, hm, _, rfl⟩ := setupZones_ok h
  have hroots := distinct_toZones _ hm hd
  rw [toZones_eq_map] at hroots ⊢
  refine .intro ?_ fun z hz => ?_
  · have := hroots.here
    rw [DistinctLabels, List.map_reverse, List.map_reverse, List.pairwise_reverse]
    exact this.imp Differ.symm
  · rw [List.map_reverse, List.mem_reverse] at hz
    cases hroots with
    | intro _ hall => exact hall z hz

/-- **A zone's own name leads back to it.** `GetDomainName` joins the labels of the zones in memory that its
parent pointers lead through, and `Lookup` finds it under that name. -/
theorem lookup_own_name {conv : Translators} {configuration : Ptree} {zones : List ZoneObject}
    (h : setupZones conv configuration = .ok zones) (hd : DistinctNames configuration.children)
    {z : ZonePtr} (hz : Reached (toZones zones) z) (hne : ∀ l ∈ z.labels, l ≠ [])
    (hdot : ∀ l ∈ z.labels, dot ∉ l) (authorative : Option Bool) :
    (∃ x chain, Within zones chain x ∧ Parents zones x chain ∧ z.zone = x.toZone ∧
        z.ancestors = chain.map ZoneObject.toZone) ∧
      (lookupFor (toZones zones) (toFraments z.getDomainName) authorative).1 = some z := by
  obtain ⟨chain, x, hx, hzone, hancestors⟩ := reached_within hz
  refine ⟨⟨x, chain, hx, setupZones_parents h hx, hzone, hancestors⟩, ?_⟩
  have hpath := path_labels (setupZones_distinct h hd) hz
  rw [z.getDomainName_eq, toFraments_dotted_of_ne_nil hdot hne]
  cases authorative with
  | none => exact lookupIn_eq_some.mpr hpath
  | some held => exact lookupIn_eq_some.mpr hpath

/-- `@com` with `@www` and a wildcard in it. -/
def wwwConfiguration : Ptree :=
  ⟨[], [(literal "@com", ⟨[], [(literal "@www", ⟨[], []⟩), (literal "@", ⟨[], []⟩)]⟩)]⟩

/-- Its zones in memory. -/
def wwwZones : List ZoneObject :=
  let zone (address : Address) (parent : Option Address) (label : Bytes) (children : List ZoneObject) :
      ZoneObject :=
    { address := address, parent := parent, label := label, a := [], ns := [], mx := [], cname := [],
      soa := none, authorative := false, children := children }
  [zone 0 none (literal "com") [zone 1 (some 0) (literal "www") [], zone 2 (some 0) [] []]]

theorem lookup_own_name_www : ∃ zones z, setupZones plainTranslators wwwConfiguration = .ok zones ∧
    Reached (toZones zones) z ∧ z.labels = [literal "www", literal "com"] ∧
      (lookupFor (toZones zones) (toFraments z.getDomainName) none).1 = some z := by
  have hd : DistinctNames wwwConfiguration.children := by
    refine .intro (by decide) fun it hit _ => ?_
    obtain rfl := List.mem_singleton.mp hit
    refine .intro (by decide) fun it hit _ => ?_
    have hleaf : it.2.children = [] := by
      rcases List.mem_pair.mp hit with rfl | rfl <;> rfl
    rw [hleaf]
    exact .intro List.Pairwise.nil fun it hit => by cases hit
  have hzones : setupZones plainTranslators wwwConfiguration = .ok wwwZones := by
    rw [setupZones, show addZones plainTranslators wwwConfiguration none 0 = .ok (wwwZones, 3) from rfl]
    exact congrArg Except.ok (addRootZones_eq wwwZones [])
  refine ⟨_, _, hzones, .child (.root (i := 0) rfl) (i := 0) rfl, rfl, ?_⟩
  exact (lookup_own_name hzones hd (.child (.root (i := 0) rfl) (i := 0) rfl) (by decide)
    (by decide) none).2

end VUbercool.Dns
