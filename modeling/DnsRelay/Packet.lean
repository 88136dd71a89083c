import DnsRelay.Url

/-!
# `Service/packet.c`: `packetParse` and `responseFormat`
-/

namespace DnsRelay

/-! ### `packetParse` -/

/-- The question loop of `packetParse`: `n` questions to go, the `i`-th at `pos`. -/
def parseQuests (C : Libc) (st : Stale) (buf : List UInt8) :
    Nat → Nat → Nat → Exec (List Quest × Nat)
  | 0, _, pos => .ok ([], pos)
  | n + 1, i, pos => do
    let s ← cstr (buf.drop pos)
    let (qname, _) ← urlParse C buf pos (Block.fresh (64 + 1) (st.qname i)) 0 typeQname 0 []
    let pos := pos + (s.length + 1)
    let qtype ← load16 buf pos
    let qclass ← load16 buf (pos + 2)
    let (quests, pos) ← parseQuests C st buf n (i + 1) (pos + 4)
    return (⟨qname, qtype, qclass⟩ :: quests, pos)

/-- The body of the answer loop of `packetParse`, at `pos`. -/
def parseAnswer (C : Libc) (st : Stale) (buf : List UInt8) (i pos : Nat) : Exec Answer := do
  let name ← load16le buf pos
  let type ← load16 buf (pos + 2)
  let cls ← load16 buf (pos + 4)
  let ttl ← load32 buf (pos + 6)
  let rdlen ← load16 buf (pos + 10)
  let (rdata, addition) ← urlParse C buf (pos + 12)
    (Block.fresh (typeBufSize type) (st.rdata i)) (st.addition i) type rdlen (st.temp i)
  return ⟨0, name, type, cls, rdlen, ttl, addition, rdata⟩

def parseAnswers (C : Libc) (st : Stale) (buf : List UInt8) :
    Nat → Nat → Nat → Exec (List Answer × Nat)
  | 0, _, pos => .ok ([], pos)
  | n + 1, i, pos => do
    let a ← parseAnswer C st buf i pos
    let (ans, pos) ← parseAnswers C st buf n (i + 1) (pos + (12 + a.rdlen.toNat))
    return (a :: ans, pos)

/-- `packetParse` with the final value of its cursor `buf_pos`. -/
def packetWalk (C : Libc) (st : Stale) (buf : List UInt8) (len : Nat) : Exec (Packet × Nat) := do
  let id ← load16le buf 0
  let flags ← load16 buf 2
  let qdcount ← load16 buf 4
  let ancount ← load16 buf 6
  let (quests, pos) ← parseQuests C st buf qdcount.toNat 0 12
  if ancount = 0 then
    return (⟨buf, len, id, flags, qdcount, ancount, quests, []⟩, pos)
  let (ans, pos) ← parseAnswers C st buf ancount.toNat 0 pos
  return (⟨buf, len, id, flags, qdcount, ancount, quests, ans⟩, pos)

def packetParse (C : Libc) (st : Stale) (buf : List UInt8) (len : Nat) : Exec Packet := do
  let (p, _) ← packetWalk C st buf len
  return p

/-! ### `responseFormat` -/

/-- `flag` as `responseFormat` sets it. -/
def responseFlag (src : Packet) : UInt16 :=
  let flag := setRd (setQr src.flags)
  if src.ancount = 0 ∨ src.ancount = 0xffff then
    setRcode (setAa flag) rcodeNameError
  else
    setRcode flag rcodeNoError

/-- The loop over `j < QPOS` that adds up `names[i]`. -/
def namePointer : List Quest → Nat → UInt16 → Exec UInt16
  | _, 0, ptr => .ok ptr
  | [], _ + 1, _ => .error .read
  | q :: quests, n + 1, ptr => do
    let s ← cstr q.qname.bytes
    namePointer quests n (ptr + UInt16.ofNat (s.length + 1 + 4))

def namePointers (quests : List Quest) : List Answer → Exec (List UInt16)
  | [] => .ok []
  | a :: ans => do
    let ptr ← namePointer quests a.qpos.toNat 0xc00c
    let names ← namePointers quests ans
    return ptr :: names

/-- The first answer loop of `responseFormat`: `urlFormat` into `resData` and back over `RDATA`,
which keeps the length in `RDLEN` and in `*len`. -/
def formatAnswers (C : Libc) (quests : List Quest) :
    List (Answer × UInt16) → Block → Nat → Exec (List Answer × Nat)
  | [], _, len => .ok ([], len)
  | (a, name) :: ans, resData, len => do
    let some q := quests[a.qpos.toNat]? | .error .read
    let (ret, resData) ←
      urlFormat C a.rdata.bytes resData a.type q.qname.bytes name a.addition
    let rdlen := UInt16.ofNat (ret % 65536).toNat
    let rdata ← a.rdata.copy 0 resData.bytes 0 rdlen.toNat
    let (ans, len) ← formatAnswers C quests ans resData (len + (rdlen.toNat + 12))
    return ({ a with rdlen := rdlen, rdata := rdata } :: ans, len)

/-- The second answer loop: the records, one after the other from `dataPos` on. -/
def putAnswers : List (Answer × UInt16) → Block → Nat → Exec Block
  | [], dest, _ => .ok dest
  | (a, name) :: ans, dest, dataPos => do
    let dest ← dest.storeBytes dataPos (be16 name)
    let dest ← dest.storeBytes (dataPos + 2) (be16 a.type)
    let dest ← dest.storeBytes (dataPos + 4) (be16 a.cls)
    let dest ← dest.storeBytes (dataPos + 6) (be32 a.ttl)
    let dest ← dest.copy (dataPos + 12) a.rdata.bytes 0 a.rdlen.toNat
    let dest ← dest.storeBytes (dataPos + 10) (be16 a.rdlen)
    putAnswers ans dest (dataPos + (a.rdlen.toNat + 12))

/-- What `responseFormat` leaves: the buffer, `*len`, and `src` with the answers it rewrote. -/
structure Response where
  dest : Block
  len : Nat
  src : Packet

/-- The bytes that are sent. -/
def Response.sent (r : Response) : List UInt8 := r.dest.bytes.take r.len

def responseFormat (C : Libc) (st : Stale) (src : Packet) : Exec Response := do
  let flag := responseFlag src
  let ans := src.ans.take src.ancount.toNat
  let names ← namePointers src.quests ans
  let (ans, len) ← formatAnswers C src.quests (ans.zip names) (Block.fresh 255 st.resData) src.bufLen
  let dest := Block.fresh (len + 1) st.dest
  let dest ← dest.copy 0 src.reqBuf 0 src.bufLen
  let dest ← dest.storeBytes 2 (be16 flag)
  let dest ← dest.storeBytes 6 (be16 src.ancount)
  let dest ← putAnswers (ans.zip names) dest src.bufLen
  return ⟨dest, len, { src with ans := ans }⟩

end DnsRelay
