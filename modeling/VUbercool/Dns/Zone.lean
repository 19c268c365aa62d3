import VUbercool.Dns.MessageHeader
import VUbercool.Lib.DomainName

/-!
# Zones

`Zone` and `ZoneMgr` (`Zone.h`), and `ToFraments` (`Message.h`).

* `Zone`: a zone with its children. `ZonePtr`: a `Zone *`, a zone seen from its place in the forest; the
  chain of its `parent` pointers is `ancestors`.
* `getDomainName`, `getFdqn`, `toFraments`: names, and `toFraments_of_spells`.
* `lookup`: `ZoneMgr::Lookup`; it finds zones of the forest (`Reached`, `lookup_reached`).
-/

namespace VUbercool.Dns

open Octets Rfc1035

/-- `boost::asio::ip::address_v4`, as a number. -/
abbrev AddressV4 : Type := UInt32

/-- `address_v4::to_bytes`: the address in network order. -/
def AddressV4.toBytes (ip : AddressV4) : Bytes := be32 ip

/-- `Zone::ns`. Its back pointer is the zone that holds the entry. -/
structure Ns where
  fqdn : Bytes
  deriving DecidableEq

/-- `Zone::mx`. -/
structure Mx extends Ns where
  priority : UInt16
  deriving DecidableEq

/-- `Zone::soa`. Its back pointer is the zone that holds it. -/
structure Soa where
  rname : Bytes := [104, 111, 115, 116, 109, 97, 115, 116, 101, 114] -- hostmaster
  serial : UInt32 := 1
  refresh : UInt32 := 7200
  retry : UInt32 := 600
  expire : UInt32 := 3600000
  minimum : UInt32 := 60
  deriving DecidableEq

/-- `Zone`. The `parent` pointer is kept in `ZonePtr`. -/
structure Zone where
  label : Bytes
  a : List AddressV4 := []
  ns : List Ns := []
  mx : List Mx := []
  cname : Bytes := []
  soa : Option Soa := none
  children : List Zone := []
  authorative : Bool := true

/-- **A `Zone *`**: a zone, the zones above it from its parent to the root, and where it stands: its
place among its siblings, its parent's place, and so on. -/
structure ZonePtr where
  zone : Zone
  ancestors : List Zone
  address : List ℕ

namespace ZonePtr

/-- `z->parent`. -/
def parent (z : ZonePtr) : Option ZonePtr :=
  match z.ancestors with
  | [] => none
  | p :: ps => some ⟨p, ps, z.address.tail⟩

/-- Equality of pointers. -/
def same (z z' : ZonePtr) : Bool := z.address == z'.address

/-- The labels from `z` up to the root. -/
def labels (z : ZonePtr) : List Bytes := z.zone.label :: z.ancestors.map Zone.label

/-- `GetDomainName`. -/
def getDomainName (z : ZonePtr) : Bytes :=
  z.ancestors.foldl (fun name z => name ++ 46 :: z.label) z.zone.label

/-- `ns::GetFdqn` of an entry of `z`. -/
def getFdqn (z : ZonePtr) (ns : Ns) : Bytes := ns.fqdn ++ [46] ++ z.getDomainName

end ZonePtr

/-! ## Names -/

/-- The loop of `ToFraments` from inside a fragment: `frag` has been read, `std::find` looks for the
dot. Nothing follows a dot at the end. -/
def fragmentsFrom (frag : Bytes) : Bytes → List Bytes
  | [] => [frag]
  | c :: cs =>
    if c = 46 then frag :: (if cs.isEmpty then [] else fragmentsFrom [] cs)
    else fragmentsFrom (frag ++ [c]) cs

/-- `ToFraments`: split at dots. -/
def toFraments (domainName : Bytes) : List Bytes :=
  if domainName.isEmpty then [] else fragmentsFrom [] domainName

theorem fragmentsFrom_append {l : Bytes} (hl : dot ∉ l) (frag rest : Bytes) :
    fragmentsFrom frag (l ++ rest) = fragmentsFrom (frag ++ l) rest := by
  induction l generalizing frag with
  | nil => simp
  | cons c l ih =>
    have hc : c ≠ 46 := fun h => hl (by rw [h]; exact List.mem_cons_self)
    rw [List.cons_append, fragmentsFrom, if_neg hc, ih fun h => hl (List.mem_cons_of_mem _ h)]
    simp

theorem fragmentsFrom_dot (frag cs : Bytes) :
    fragmentsFrom frag (dot :: cs) = frag :: toFraments cs := by
  rw [fragmentsFrom, if_pos (show dot = 46 from rfl), toFraments]

theorem fragmentsFrom_ne_nil (frag cs : Bytes) : fragmentsFrom frag cs ≠ [] := by
  induction cs generalizing frag with
  | nil => exact List.cons_ne_nil _ _
  | cons c cs ih =>
    unfold fragmentsFrom
    split_ifs
    · exact List.cons_ne_nil _ _
    · exact List.cons_ne_nil _ _
    · exact ih _

theorem toFraments_eq_nil {n : Bytes} : toFraments n = [] ↔ n = [] := by
  unfold toFraments
  split_ifs with h
  · exact iff_of_true rfl (List.isEmpty_iff.mp h)
  · exact iff_of_false (fragmentsFrom_ne_nil _ _) fun hn => h (List.isEmpty_iff.mpr hn)

theorem toFraments_singleton {l : Label} (hl : dot ∉ l) :
    toFraments (dotted [l]) = if l = [] then [] else [l] := by
  have := fragmentsFrom_append hl [] []
  simp only [List.append_nil, List.nil_append, fragmentsFrom] at this
  simp only [toFraments, dotted, List.isEmpty_iff, this]

theorem toFraments_cons {l : Label} {ls : List Label} (hl : dot ∉ l) (hls : ls ≠ []) :
    toFraments (dotted (l :: ls)) = l :: toFraments (dotted ls) := by
  rw [dotted_cons hls, toFraments, if_neg (by simp), fragmentsFrom_append hl, List.nil_append,
    fragmentsFrom_dot]

/-- **`ToFraments` reads labels back**, but for an empty one at the end. -/
theorem toFraments_dotted : ∀ {ls : List Label}, (∀ l ∈ ls, dot ∉ l) →
    toFraments (dotted ls) = if ls.getLast? = some [] then ls.dropLast else ls
  | [], _ => rfl
  | [l], hd => by
    rw [toFraments_singleton (hd l List.mem_cons_self)]
    simp
  | l :: l' :: ls, hd => by
    rw [toFraments_cons (hd l List.mem_cons_self) (by simp),
      toFraments_dotted fun x hx => hd x (List.mem_cons_of_mem _ hx), List.getLast?_cons_cons]
    split_ifs with h
    · rw [List.dropLast_cons_of_ne_nil (x := l) (List.cons_ne_nil l' ls)]
    · rfl

theorem toFraments_dotted_of_ne_nil {ls : List Label} (hd : ∀ l ∈ ls, dot ∉ l)
    (hne : ∀ l ∈ ls, l ≠ []) : toFraments (dotted ls) = ls := by
  rw [toFraments_dotted hd, if_neg fun h => hne [] (List.mem_of_getLast? h) rfl]

theorem nil_notMem_toFraments_dotted {ls : List Label} (hd : ∀ l ∈ ls, dot ∉ l) :
    [] ∉ toFraments (dotted ls) ↔ ∀ l ∈ ls.dropLast, l ≠ [] := by
  have hall : [] ∉ ls.dropLast ↔ ∀ l ∈ ls.dropLast, l ≠ [] :=
    ⟨fun h l hl e => h (e ▸ hl), fun h hn => h [] hn rfl⟩
  rw [toFraments_dotted hd, ← hall]
  split_ifs with hlast
  · exact Iff.rfl
  · refine not_congr ⟨fun h => ?_, fun h => List.dropLast_subset _ h⟩
    by_contra hno
    have hne := List.ne_nil_of_mem h
    rw [← List.dropLast_append_getLast hne, List.mem_append] at h
    rcases h with h | h
    · exact hno h
    · exact hlast (by rw [List.getLast?_eq_some_getLast hne, List.mem_singleton.mp h])

theorem dotted_concat_nil {ls : List Label} (h : ls ≠ []) : dotted (ls ++ [[]]) = dotted ls ++ [dot] :=
  dotted_append h (by simp)

/-- **`ToFraments` reads the labels of every legal name.** -/
theorem toFraments_of_spells {most : ℕ} {n : Bytes} {ls : List Label} (h : Spells most n ls) :
    toFraments n = ls := by
  have hne : ∀ l ∈ ls, l ≠ [] := fun l hl => List.ne_nil_of_length_pos (h.fit l hl).1
  rcases h.text with rfl | rfl
  · exact toFraments_dotted_of_ne_nil h.noDot hne
  · have hd : ∀ l ∈ ls ++ [[]], dot ∉ l := fun l hl => by
      rcases List.mem_append.mp hl with hl | hl
      · exact h.noDot l hl
      · simp [List.mem_singleton.mp hl]
    rw [← dotted_concat_nil h.ne_nil, toFraments_dotted hd]
    simp

/-! ## The length of fragments -/

theorem length_of_mem_fragmentsFrom {f : Bytes} : ∀ {cs frag : Bytes}, f ∈ fragmentsFrom frag cs →
    f.length ≤ frag.length + cs.length
  | [], frag, h => by
    rw [List.mem_singleton.mp h]
    exact Nat.le_add_right _ _
  | c :: cs, frag, h => by
    rw [fragmentsFrom] at h
    rw [List.length_cons]
    split_ifs at h with hc he
    · rw [List.mem_singleton.mp h]
      exact Nat.le_add_right _ _
    · rcases List.mem_cons.mp h with rfl | h
      · exact Nat.le_add_right _ _
      · have := length_of_mem_fragmentsFrom h
        rw [List.length_nil] at this
        omega
    · have := length_of_mem_fragmentsFrom h
      rw [List.length_append, List.length_singleton] at this
      omega

theorem length_encodeLabels_fragmentsFrom : ∀ cs frag : Bytes,
    (encodeLabels (fragmentsFrom frag cs)).length ≤ frag.length + cs.length + 1
  | [], frag => by simp [fragmentsFrom, encodeLabels]
  | c :: cs, frag => by
    have hrest := length_encodeLabels_fragmentsFrom cs []
    have hmore := length_encodeLabels_fragmentsFrom cs (frag ++ [c])
    rw [fragmentsFrom]
    split_ifs
    · simp [encodeLabels]
    · simp only [encodeLabels, List.length_cons, List.length_append, List.length_nil] at hrest ⊢
      omega
    · simp only [List.length_append, List.length_cons, List.length_nil] at hmore ⊢
      omega

theorem short_fragmentsFrom_append {b : Bytes} (hb : Short (toFraments b)) : ∀ {a frag : Bytes},
    Short (fragmentsFrom frag a) → Short (fragmentsFrom frag (a ++ dot :: b))
  | [], frag, h => by
    rw [List.nil_append, fragmentsFrom_dot]
    exact List.forall_mem_cons.mpr ⟨h frag (List.mem_singleton_self _), hb⟩
  | c :: cs, frag, h => by
    rw [fragmentsFrom] at h
    rw [List.cons_append, fragmentsFrom]
    have hne : (cs ++ dot :: b).isEmpty = false := by simp
    simp only [hne, Bool.false_eq_true, if_false]
    split_ifs at h ⊢ with hc hcs
    · refine List.forall_mem_cons.mpr ⟨h frag List.mem_cons_self, ?_⟩
      rw [List.isEmpty_iff.mp hcs, List.nil_append, fragmentsFrom_dot]
      exact List.forall_mem_cons.mpr ⟨by decide, hb⟩
    · obtain ⟨hfrag, hrest⟩ := List.forall_mem_cons.mp h
      exact List.forall_mem_cons.mpr ⟨hfrag, short_fragmentsFrom_append hb hrest⟩
    · exact short_fragmentsFrom_append hb h

/-- **The fragments of a text**, as they are stored, take at most one octet more than the text. -/
theorem length_encodeLabels_toFraments (n : Bytes) :
    (encodeLabels (toFraments n)).length ≤ n.length + 1 := by
  unfold toFraments
  split_ifs
  · exact Nat.zero_le _
  · simpa using length_encodeLabels_fragmentsFrom n []

theorem short_toFraments {n : Bytes} (h : n.length < 64) : Short (toFraments n) := by
  unfold toFraments
  split_ifs
  · exact fun _ hl => (List.not_mem_nil hl).elim
  · intro f hf
    have := length_of_mem_fragmentsFrom hf
    rw [List.length_nil] at this
    omega

theorem short_toFraments_append {a b : Bytes} (ha : Short (toFraments a)) (hb : Short (toFraments b)) :
    Short (toFraments (a ++ dot :: b)) := by
  have hne : (a ++ dot :: b).isEmpty = false := by simp
  rw [toFraments, hne, if_neg Bool.false_ne_true]
  refine short_fragmentsFrom_append hb ?_
  unfold toFraments at ha
  split_ifs at ha with hnil
  · rw [List.isEmpty_iff.mp hnil]
    exact fun l hl => List.mem_singleton.mp hl ▸ (by decide : ([] : Bytes).length < 64)
  · exact ha

theorem short_toFraments_dotted : ∀ {ls : List Label}, Short ls → Short (toFraments (dotted ls))
  | [], _ => fun _ hl => (List.not_mem_nil hl).elim
  | [l], h => short_toFraments (h l List.mem_cons_self)
  | l :: l' :: ls, h => by
    obtain ⟨hl, hls⟩ := List.forall_mem_cons.mp h
    rw [dotted_cons (List.cons_ne_nil l' ls)]
    exact short_toFraments_append (short_toFraments hl) (short_toFraments_dotted hls)

/-! ## Names of zones -/

theorem foldl_dotted (name : Label) (labels : List Label) :
    labels.foldl (fun n l => n ++ 46 :: l) name = dotted (name :: labels) := by
  induction labels generalizing name with
  | nil => rfl
  | cons l labels ih =>
    rw [List.foldl_cons, ih, dotted_cons (l := name) (List.cons_ne_nil _ _)]
    cases labels with
    | nil => rfl
    | cons l' labels =>
      rw [dotted_cons (List.cons_ne_nil _ _), dotted_cons (l := l) (List.cons_ne_nil _ _)]
      simp [dot]

theorem ZonePtr.getDomainName_eq (z : ZonePtr) : z.getDomainName = dotted z.labels := by
  rw [getDomainName, ← List.foldl_map (f := Zone.label) (g := fun n l => n ++ 46 :: l), foldl_dotted]
  rfl

/-! ## `Lookup` -/

/-- Fold the case of an ASCII letter. -/
def toLower (c : UInt8) : UInt8 := if 65 ≤ c && c ≤ 90 then c + 32 else c

/-- `boost::iequals`. -/
def iequals (a b : Bytes) : Bool := a.map toLower == b.map toLower

/-- The loop over the zones of one level, from place `i` on: the zone that matches in full ends it, and
is preferred to the last zone with an empty label before it. -/
def selectZone (label : Bytes) : List Zone → ℕ → Option (ℕ × Zone) → Option (ℕ × Zone)
  | [], _, wildchard => wildchard
  | zone :: zones, i, wildchard =>
    let wildchard := if zone.label.isEmpty then some (i, zone) else wildchard
    if iequals label zone.label then some (i, zone) else selectZone label zones (i + 1) wildchard

/-- The private `Lookup`, on the labels from the last to the first. `ancestors` and `address` tell where
`zones` hang, `authorative` is what its reference holds; it changes at every zone found. -/
def lookupIn (ancestors : List Zone) (address : List ℕ) :
    List Bytes → List Zone → Bool → Option ZonePtr × Bool
  | [], _, authorative => (none, authorative)
  | label :: more, zones, authorative =>
    match selectZone label zones 0 none with
    | none => (none, authorative)
    | some (i, rval) =>
      if more.isEmpty then (some ⟨rval, ancestors, i :: address⟩, rval.authorative)
      else lookupIn (rval :: ancestors) (i :: address) more rval.children rval.authorative

/-- `ZoneMgr::Lookup`: the zone found, and what `*authorative` then holds if it held `false`. -/
def lookup (zones : List Zone) (key : List Bytes) : Option ZonePtr × Bool :=
  lookupIn [] [] key.reverse zones false

/-- **The zones of a forest**: those one gets to from its roots. -/
inductive Reached (zones : List Zone) : ZonePtr → Prop
  | root {i : ℕ} {z : Zone} : zones[i]? = some z → Reached zones ⟨z, [], [i]⟩
  | child {p : ZonePtr} {i : ℕ} {z : Zone} : Reached zones p → p.zone.children[i]? = some z →
      Reached zones ⟨z, p.zone :: p.ancestors, i :: p.address⟩

theorem Reached.parent {zones : List Zone} {z p : ZonePtr} (h : Reached zones z)
    (hp : z.parent = some p) : Reached zones p := by
  cases h with
  | root => cases hp
  | child h _ =>
    cases hp
    exact h

theorem selectZone_mem {label : Bytes} {all : List Zone} {j : ℕ} {z : Zone} :
    ∀ {zones : List Zone} {i : ℕ} {w : Option (ℕ × Zone)},
      (∀ k, zones[k]? = all[i + k]?) → (∀ k x, w = some (k, x) → all[k]? = some x) →
      selectZone label zones i w = some (j, z) → all[j]? = some z
  | [], _, _, _, hw, h => hw _ _ h
  | zone :: zones, i, w, hz, hw, h => by
    have hi : all[i]? = some zone := by simpa using (hz 0).symm
    rw [selectZone] at h
    split at h
    · cases h; exact hi
    · refine selectZone_mem (i := i + 1) (fun k => ?_) (fun k x hx => ?_) h
      · rw [show i + 1 + k = i + (k + 1) by omega, ← hz]; rfl
      · split_ifs at hx
        · cases hx; exact hi
        · exact hw k x hx

theorem lookupIn_reached {all : List Zone} {z : ZonePtr} : ∀ {key : List Bytes}
    {ancestors : List Zone} {address : List ℕ} {zones : List Zone} {au au' : Bool},
    (∀ i x, zones[i]? = some x → Reached all ⟨x, ancestors, i :: address⟩) →
    lookupIn ancestors address key zones au = (some z, au') → Reached all z
  | [], _, _, _, _, _, _, h => by cases h
  | label :: more, ancestors, address, zones, au, au', hz, h => by
    unfold lookupIn at h
    split at h
    · cases h
    · next i rval hs =>
      have hr := hz i rval (selectZone_mem (i := 0) (by simp) (by simp) hs)
      split_ifs at h
      · cases h; exact hr
      · exact lookupIn_reached (fun i x hx => .child hr hx) h

/-- **`Lookup` finds zones of the forest.** -/
theorem lookup_reached {zones : List Zone} {key : List Bytes} {z : ZonePtr} {au : Bool}
    (h : lookup zones key = (some z, au)) : Reached zones z :=
  lookupIn_reached (fun _ _ hx => .root hx) h

end VUbercool.Dns
