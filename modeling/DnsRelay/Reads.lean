import DnsRelay.Expansion
import DnsRelay.LabelWalk

/-!
# The rounds of `packetParse`

The same loops as in `Packet`, `Url` and `Inet`, one round at a time, in memory that does not end. Of a round
counts where it reads and where it leads. The memory behind `buf` holds what it holds and is read like the
datagram, and a write outside a buffer stops nothing: of what is written only `temp` is read again. So a loop
runs as long as the bytes it reads let it.
-/

namespace DnsRelay
open ByteSeq Exec Relation

/-- The bytes around an address. -/
abbrev Memory := Int → UInt8

namespace Memory

/-- `ntohs(*(uint16_t*)(m + p))` -/
def word (m : Memory) (p : Int) : UInt16 := word16 (m p) (m (p + 1))

/-- `memcpy(m + p, src + q, n)` -/
def copy (m : Memory) (p : Int) (src : Memory) (q : Int) (n : Nat) : Memory := fun x =>
  if p ≤ x ∧ x < p + n then src (q + (x - p)) else m x

/-- Where the loop of `inetParse` over the labels at `m + off` goes from position `p`. -/
def nextLabel (m : Memory) (off p : Int) : Int := p + (labelLen (m (off + p)) + 1)

/-- The two counts of the header. -/
def qdcount (buf : Memory) : Nat := (buf.word 4).toNat
def ancount (buf : Memory) : Nat := (buf.word 6).toNat

/-- `TYPE` and `RDLEN` of a record at `pos`. -/
def rtype (buf : Memory) (pos : Int) : UInt16 := buf.word (pos + 2)
def rdlen (buf : Memory) (pos : Int) : UInt16 := buf.word (pos + 10)

/-- The cursor behind a record. -/
def behind (buf : Memory) (pos : Int) : Int := pos + (12 + (buf.rdlen pos).toNat)

end Memory

/-- What comes next. Positions are offsets from `buf`, those in `temp` apart; `pos` is `buf_pos`, and `i` counts the
questions or the answers. -/
inductive ParsePoint
  | header
  /-- the condition of the loop over the questions -/
  | quests (i : Nat) (pos : Int)
  /-- `strlen(buf_pos)`, behind `k` bytes -/
  | strlen (i : Nat) (pos : Int) (k : Nat)
  /-- `inetParse` of `QNAME` at position `p`; `k` is `q_len` -/
  | qname (i : Nat) (pos : Int) (k : Nat) (p : Int)
  /-- `QTYPE` and `QCLASS` -/
  | qtype (i : Nat) (pos : Int)
  /-- the condition of the loop over the answers -/
  | answers (i : Nat) (pos : Int)
  /-- the fields in front of `RDATA` -/
  | record (i : Nat) (pos : Int)
  /-- `urlParse` up to its loops -/
  | rdata (i : Nat) (pos : Int)
  /-- `inetParse` of the labels in `RDATA`, for `TYPE_QNAME` -/
  | label (i : Nat) (pos p : Int)
  /-- the condition of the outer loop of `urlParse` -/
  | expand (i : Nat) (pos : Int) (temp : Memory) (tempPos : Int) (namePtr : UInt16)
  /-- its inner loop -/
  | zip (i : Nat) (pos : Int) (temp : Memory) (tempPos zipName : Int)
  /-- `inetParse` of `temp` -/
  | text (i : Nat) (pos : Int) (temp : Memory) (p : Int)
  | done

/-- `n` offsets from `p` on -/
def span (p : Int) (n : Nat) : List Int := (List.range n).map fun k : Nat => p + k

@[simp] theorem mem_span {o p : Int} {n : Nat} : o ∈ span p n ↔ p ≤ o ∧ o < p + n := by
  simp only [span, List.mem_map, List.mem_range]
  constructor
  · rintro ⟨k, hk, rfl⟩
    omega
  · rintro ⟨h, h'⟩
    exact ⟨(o - p).toNat, by omega, by omega⟩

namespace ParsePoint

/-- A round of `inetParse` at position `p` reads the length byte, and the label if there is one. -/
def labelReads (buf : Memory) (off p : Int) : List Int :=
  span (off + p) (if buf (off + p) = 0 then 1 else 1 + (labelLen (buf (off + p))).toNat)

/-- `urlParse` reads an address, or for a name the preference, the name, and its last two bytes again. -/
def rdataReads (src : Int) (type rdlen : UInt16) : List Int :=
  if type = typeQname then []
  else if type = typeA then span src 4
  else if type = typeAaaa then span src 16
  else if type = typeCname ∨ type = typeMx ∨ type = typeNs then
    let name := src + nameSkip type
    let len := nameLen type rdlen
    span src (nameSkip type) ++ (span name len ++ span (name + len - 2) 2)
  else []

/-- A round of its inner loop reads a byte, `ptr_test_1`, and then `ptr_test_2` or the label. -/
def zipReads (buf : Memory) (z : Int) : List Int :=
  if buf z = 0 then [z]
  else if isNamePtr (buf.word z) then span z 2 ++ span (z + 2) 2
  else span z 2 ++ span z ((buf z).toNat + 1)

section
variable {buf : Memory} {z : Int}

theorem zipReads_pointer (h0 : buf z ≠ 0) (hx : isNamePtr (buf.word z) = true) :
    zipReads buf z = span z 2 ++ span (z + 2) 2 := (if_neg h0).trans (if_pos hx)

theorem zipReads_label (h0 : buf z ≠ 0) (hx : ¬ isNamePtr (buf.word z) = true) :
    zipReads buf z = span z 2 ++ span z ((buf z).toNat + 1) := (if_neg h0).trans (if_neg hx)

theorem mem_zipReads : z ∈ zipReads buf z := by
  unfold zipReads
  split
  · exact List.mem_singleton_self z
  · split
    all_goals exact List.mem_append_left _ (mem_span.2 (by omega))

theorem succ_mem_zipReads (h0 : buf z ≠ 0) : z + 1 ∈ zipReads buf z := by
  unfold zipReads
  rw [if_neg h0]
  split
  all_goals exact List.mem_append_left _ (mem_span.2 (by omega))

end

/-- The offsets from `buf` that are read. -/
def reads (buf : Memory) : ParsePoint → List Int
  | header => span 0 8
  | strlen _ pos k => [pos + k]
  | qname _ pos _ p => labelReads buf pos p
  | qtype _ pos => span pos 4
  | record _ pos => span pos 12
  | rdata _ pos => rdataReads (pos + 12) (buf.rtype pos) (buf.rdlen pos)
  | label _ pos p => labelReads buf (pos + 12) p
  | zip _ _ _ _ z => zipReads buf z
  | quests _ _ | answers _ _ | expand _ _ _ _ _ | text _ _ _ _ | done => []

/-- What comes then. `stack i` is the memory around `temp` when the `i`-th record is parsed. -/
def next (buf : Memory) (stack : Nat → Memory) : ParsePoint → Option ParsePoint
  | header => some (quests 0 12)
  | quests i pos =>
    if i < buf.qdcount then some (strlen i pos 0)
    else if buf.ancount = 0 then some done
    else some (answers 0 pos)
  | strlen i pos k => if buf (pos + k) = 0 then some (qname i pos k 0) else some (strlen i pos (k + 1))
  | qname i pos k p =>
    if buf (pos + p) = 0 then some (qtype i (pos + (k + 1))) else some (qname i pos k (buf.nextLabel pos p))
  | qtype i pos => some (quests (i + 1) (pos + 4))
  | answers i pos => if i < buf.ancount then some (record i pos) else some done
  | record i pos => some (rdata i pos)
  | rdata i pos =>
    let type := buf.rtype pos
    if type = typeQname then some (label i pos 0)
    else if type = typeCname ∨ type = typeMx ∨ type = typeNs then
      let name := pos + 12 + nameSkip type
      let len := nameLen type (buf.rdlen pos)
      some (expand i pos ((stack i).copy 0 buf name len) (len - 2) (buf.word (name + len - 2)))
    else some (answers (i + 1) (buf.behind pos))
  | label i pos p =>
    if buf (pos + 12 + p) = 0 then some (answers (i + 1) (buf.behind pos))
    else some (label i pos (buf.nextLabel (pos + 12) p))
  | expand i pos temp tempPos namePtr =>
    if isNamePtr namePtr then some (zip i pos temp tempPos (getQnamePtr namePtr).toNat) else some (text i pos temp 0)
  | zip i pos temp tempPos z =>
    if buf z = 0 then some (expand i pos (Function.update temp tempPos 0) tempPos 0)
    else if isNamePtr (buf.word z) then
      if isNamePtr (buf.word (z + 2)) then some (expand i pos temp tempPos (buf.word z))
      else some (expand i pos (Function.update temp tempPos 0) tempPos 0)
    else
      let len := (buf z).toNat + 1
      some (zip i pos (temp.copy tempPos buf z len) (tempPos + len) (z + len))
  | text i pos temp p =>
    if temp p = 0 then some (answers (i + 1) (buf.behind pos)) else some (text i pos temp (temp.nextLabel 0 p))
  | done => none

/-- `packetParse` comes to `x`. -/
def Comes (buf : Memory) (stack : Nat → Memory) (x : ParsePoint) : Prop :=
  ReflTransGen (fun x y => next buf stack x = some y) header x

end ParsePoint

/-- `packetParse` reads the byte at offset `o`. -/
def ReadsAt (buf : Memory) (stack : Nat → Memory) (o : Int) : Prop :=
  ∃ x, ParsePoint.Comes buf stack x ∧ o ∈ x.reads buf

end DnsRelay
