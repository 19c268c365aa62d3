import Mathlib.Algebra.GroupWithZero.Nat
import VUbercool.Lib.Message

/-!
# Messages without compression, and messages that are cut

* `Message.encode`: the octets of a message in which every name is written out.
* `Message.ofSections`: a message whose header counts its sections.
* `Message.cut`: the first records of a message, as in a reply that is too long: RFC 1035 section 4.1.1.
-/

namespace Rfc1035

open Octets

/-! ## Octets -/

/-- A name that is written out. -/
def encodeName (ls : List Label) : Bytes := encodeLabels ls ++ [0]

/-- The TYPE of data. -/
def RData.type : RData → UInt16
  | .a _ => 1
  | .ns _ => 2
  | .cname _ => 5
  | .soa .. => 6
  | .mx .. => 15
  | .other type _ => type

/-- The octets of data. -/
def RData.encode : RData → Bytes
  | .a ip => be32 ip
  | .ns name => encodeName name
  | .cname name => encodeName name
  | .soa mname rname serial refresh retry expire minimum =>
    encodeName mname ++ encodeName rname ++
      (be32 serial ++ be32 refresh ++ be32 retry ++ be32 expire ++ be32 minimum)
  | .mx preference exchange => be16 preference ++ encodeName exchange
  | .other _ octets => octets

/-- The octets of a record. -/
def Record.encode (r : Record) : Bytes :=
  encodeName r.owner ++ (be16 r.data.type ++ be16 r.class_ ++ be32 r.ttl ++
    be16 (UInt16.ofNat r.data.encode.length)) ++ r.data.encode

/-- The octets of a header. -/
def Header.encode (h : Header) : Bytes :=
  be16 h.id ++ be16 h.flags ++ be16 h.qdcount ++ be16 h.ancount ++ be16 h.nscount ++ be16 h.arcount

namespace Message

variable (m : Message)

/-- The records of all sections. -/
def records : List Record := m.answers ++ m.authority ++ m.additional

/-- **The octets of a message.** -/
def encode : Bytes :=
  m.header.encode ++ m.questions.flatMap encodeQuestion ++ m.records.flatMap Record.encode

/-- A message with these sections. -/
def ofSections (id flags : UInt16) (qs : List Question) (an ns ar : List Record) : Message where
  header := {
    id, flags
    qdcount := .ofNat qs.length
    ancount := .ofNat an.length
    nscount := .ofNat ns.length
    arcount := .ofNat ar.length }
  questions := qs
  answers := an
  authority := ns
  additional := ar

/-- **The first `n` records of a message.** TC is set if there are more. -/
def cut (n : ℕ) : Message :=
  ofSections m.header.id (if n < m.records.length then m.header.flags ||| 0x0200 else m.header.flags)
    m.questions (m.answers.take n) (m.authority.take (n - m.answers.length))
    (m.additional.take (n - m.answers.length - m.authority.length))

end Message

/-! ## Lengths -/

@[simp] theorem length_encodeName (ls : List Label) :
    (encodeName ls).length = (encodeLabels ls).length + 1 := by
  rw [encodeName, List.length_append, List.length_singleton]

theorem Record.length_encode (r : Record) :
    r.encode.length = (encodeName r.owner).length + 10 + r.data.encode.length := by
  simp only [Record.encode, List.length_append, length_be16, length_be32]

namespace Message

theorem length_encode (m : Message) : m.encode.length =
    12 + (m.questions.flatMap encodeQuestion).length +
      (m.records.map fun r => r.encode.length).sum := by
  simp only [encode, Header.encode, List.length_append, length_be16, List.length_flatMap]

theorem records_cut (m : Message) (n : ℕ) : (m.cut n).records = m.records.take n := by
  simp only [records, cut, ofSections, List.take_append, List.length_append, Nat.sub_sub]

end Message

end Rfc1035
