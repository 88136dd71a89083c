import DnsRelay.CacheHeap
import DnsRelay.Server

/-!
# The memory of a datagram

`connectHandle` gets and releases blocks on the way: the arguments of its thread, the packet with the arrays of its
questions and answers, a buffer for each name and each record, and the response. Here are the functions that it calls
with the addresses of these blocks. The cache, the host table and the ID map are values; their own memory is in
`CacheHeap`, `LookupThreads` and `MapThreads`, and with it the entry that `urlStore` allocates for each record, with its
strings, and what `qnameSearch` allocates.
-/

namespace DnsRelay
open Alloc

/-- `Quest` -/
structure PtrQuest where
  qname : Nat
  qtype : UInt16
  qclass : UInt16
deriving DecidableEq

/-- `Answer` -/
structure PtrAnswer where
  qpos : UInt8
  name : UInt16
  type : UInt16
  cls : UInt16
  rdlen : UInt16
  ttl : UInt32
  addition : UInt16
  rdata : Nat
deriving DecidableEq

/-- `Packet`; `reqBuf` is the address of the `thread_args` whose `buf` it points to. -/
structure PtrPacket where
  reqBuf : Nat
  bufLen : Nat
  id : UInt16
  flags : UInt16
  qdcount : UInt16
  ancount : UInt16
  quests : Option Nat
  ans : Option Nat
deriving DecidableEq

/-- What `recvfrom` left in `thread_args`: the array `buf` and what lies behind it, `buf_len` and the address of the
sender. `connect._fd` is never set. -/
structure ThreadArgs (σ : Type) where
  buf : List UInt8
  bufLen : Nat
  addr : σ
deriving DecidableEq

/-- What a block holds. The elements of an array that were not set yet are `none`. -/
inductive PacketCell (σ : Type)
  | args (a : ThreadArgs σ)
  | packet (p : PtrPacket)
  | quests (l : List (Option PtrQuest))
  | answers (l : List (Option PtrAnswer))
  | bytes (b : Block)
deriving DecidableEq

namespace PacketCell
variable {σ : Type}

def args? : PacketCell σ → Option (ThreadArgs σ)
  | args a => some a
  | _ => none

def packet? : PacketCell σ → Option PtrPacket
  | packet p => some p
  | _ => none

def quests? : PacketCell σ → Option (List (Option PtrQuest))
  | quests l => some l
  | _ => none

def answers? : PacketCell σ → Option (List (Option PtrAnswer))
  | answers l => some l
  | _ => none

def bytes? : PacketCell σ → Option Block
  | bytes b => some b
  | _ => none

end PacketCell

abbrev PacketHeap (σ : Type) := Heap (PacketCell σ)

namespace PacketHeap
variable {σ : Type}

/-- Element `i` of an array. -/
def elementAt {β : Type} (l : List (Option β)) (i : Nat) : HeapExec β :=
  match l[i]? with
  | some (some x) => .ok x
  | some none => .error (.misuse .dangling)
  | none => .error (.fault .read)

/-- `QUESTS[i]` -/
def questAt (h : PacketHeap σ) (quests : Option Nat) (i : Nat) : HeapExec PtrQuest := do
  let p ← lift (deref quests)
  let l ← cellAs PacketCell.quests? h p
  elementAt l i

/-- `ANS[i]` -/
def answerAt (h : PacketHeap σ) (ans : Option Nat) (i : Nat) : HeapExec PtrAnswer := do
  let p ← lift (deref ans)
  let l ← cellAs PacketCell.answers? h p
  elementAt l i

def setQuest (h : PacketHeap σ) (quests i : Nat) (q : PtrQuest) : HeapExec (PacketHeap σ) := do
  let l ← cellAs PacketCell.quests? h quests
  if i < l.length then onHeap (h.write quests (.quests (l.set i (some q)))) else .error (.fault .write)

def setAnswer (h : PacketHeap σ) (ans i : Nat) (a : PtrAnswer) : HeapExec (PacketHeap σ) := do
  let l ← cellAs PacketCell.answers? h ans
  if i < l.length then onHeap (h.write ans (.answers (l.set i (some a)))) else .error (.fault .write)

/-! ### `packetParse` -/

/-- The question loop of `packetParse`: `n` questions to go, the `i`-th at `pos`. -/
def parseQuests (A : Allocator) (C : Libc) (st : Stale) (args quests : Nat) :
    Nat → Nat → Nat → PacketHeap σ → HeapExec (PacketHeap σ × Nat)
  | 0, _, pos, h => .ok (h, pos)
  | n + 1, i, pos, h => do
    let a ← cellAs PacketCell.args? h args
    let s ← lift (cstr (a.buf.drop pos))
    let (qname, h) := h.malloc A (.bytes (Block.fresh (64 + 1) (st.qname i)))
    let b ← cellAs PacketCell.bytes? h qname
    let (b, _) ← lift (urlParse C a.buf pos b 0 typeQname 0 [])
    let h ← onHeap (h.write qname (.bytes b))
    let pos := pos + (s.length + 1)
    let qtype ← lift (load16 a.buf pos)
    let qclass ← lift (load16 a.buf (pos + 2))
    let h ← setQuest h quests i ⟨qname, qtype, qclass⟩
    parseQuests A C st args quests n (i + 1) (pos + 4) h

/-- The answer loop of `packetParse`. -/
def parseAnswers (A : Allocator) (C : Libc) (st : Stale) (args ans : Nat) :
    Nat → Nat → Nat → PacketHeap σ → HeapExec (PacketHeap σ × Nat)
  | 0, _, pos, h => .ok (h, pos)
  | n + 1, i, pos, h => do
    let a ← cellAs PacketCell.args? h args
    let name ← lift (load16le a.buf pos)
    let type ← lift (load16 a.buf (pos + 2))
    let cls ← lift (load16 a.buf (pos + 4))
    let ttl ← lift (load32 a.buf (pos + 6))
    let rdlen ← lift (load16 a.buf (pos + 10))
    let (rdata, h) := h.malloc A (.bytes (Block.fresh (typeBufSize type) (st.rdata i)))
    let b ← cellAs PacketCell.bytes? h rdata
    let (b, addition) ← lift (urlParse C a.buf (pos + 12) b (st.addition i) type rdlen (st.temp i))
    let h ← onHeap (h.write rdata (.bytes b))
    let h ← setAnswer h ans i ⟨0, name, type, cls, rdlen, ttl, addition, rdata⟩
    parseAnswers A C st args ans n (i + 1) (pos + (12 + rdlen.toNat)) h

/-- `packetParse` of what the `thread_args` at `args` hold: the heap and the address of the packet. -/
def packetParse (A : Allocator) (C : Libc) (st : Stale) (h : PacketHeap σ) (args : Nat) :
    HeapExec (PacketHeap σ × Nat) := do
  let (dest, h) := h.malloc A (.packet ⟨0, 0, 0, 0, 0, 0, none, none⟩)
  let a ← cellAs PacketCell.args? h args
  let id ← lift (load16le a.buf 0)
  let flags ← lift (load16 a.buf 2)
  let qdcount ← lift (load16 a.buf 4)
  let ancount ← lift (load16 a.buf 6)
  let (quests, h) := h.malloc A (.quests (List.replicate qdcount.toNat none))
  let h ← onHeap (h.write dest (.packet ⟨args, a.bufLen, id, flags, qdcount, ancount, some quests, none⟩))
  let (h, pos) ← parseQuests A C st args quests qdcount.toNat 0 12 h
  if ancount = 0 then return (h, dest)
  let (ans, h) := h.malloc A (.answers (List.replicate ancount.toNat none))
  let h ← onHeap (h.write dest (.packet ⟨args, a.bufLen, id, flags, qdcount, ancount, some quests, some ans⟩))
  let (h, _) ← parseAnswers A C st args ans ancount.toNat 0 pos h
  return (h, dest)

/-! ### `urlStore` and `urlQuery` -/

/-- The loop of `urlStore`, with `n` answers to go from the `i`-th on. The entry is a value here. -/
def storeAnswers (N : Nat) (clk : Nat → Nat) (h : PacketHeap σ) (src : PtrPacket) :
    Nat → Nat → LRUCache → HeapExec LRUCache
  | 0, _, c => .ok c
  | n + 1, i, c => do
    let a ← answerAt h src.ans i
    let q ← questAt h src.quests 0
    if a.type ≠ q.qtype then storeAnswers N clk h src n (i + 1) c else do
    let qname ← cellAs PacketCell.bytes? h q.qname
    let name ← lift (cstr qname.bytes)
    let rdata ← cellAs PacketCell.bytes? h a.rdata
    let ip ← lift (cstr rdata.bytes)
    let entry := dnsEntrySet (some name) (some ip) a.ttl a.type.toUInt8 a.addition (clk i)
    let c ← lift (c.cacheInsert N entry)
    storeAnswers N clk h src n (i + 1) c

def urlStore (N : Nat) (clk : Clock) (h : PacketHeap σ) (p : Nat) (c : LRUCache) : HeapExec LRUCache := do
  let src ← cellAs PacketCell.packet? h p
  storeAnswers N clk.store h src src.ancount.toNat 0 c

/-- `realloc` of an array of answers: what is in it stays, and the block may be another one. -/
def reallocAnswers (A : Allocator) (h : PacketHeap σ) (n : Nat) : Option Nat → HeapExec (Nat × PacketHeap σ)
  | none => .ok (h.malloc A (.answers (List.replicate n none)))
  | some ans => do
    let l ← cellAs PacketCell.answers? h ans
    let h ← onHeap (h.free (some ans))
    return h.malloc A (.answers (l.take n ++ List.replicate (n - l.length) none))

/-- The inner loop of `urlQuery` for question `i` from the `j`-th result on; the answers start at `ANS[pos]`. -/
def loadMatches (A : Allocator) (clk : Nat → Nat) (st : Stale) (i : Nat) (q : PtrQuest) (ans pos : Nat) :
    Nat → List DNSEntry → PacketHeap σ → HeapExec (PacketHeap σ)
  | _, [], h => .ok h
  | j, e :: result, h => do
    let ip ← lift (deref e.ip)
    let (rdata, h) := h.malloc A (.bytes (Block.fresh (typeBufSize q.qtype) (st.found (pos + j))))
    let b ← cellAs PacketCell.bytes? h rdata
    let b ← lift (b.storeBytes 0 (ip ++ [0]))
    let h ← onHeap (h.write rdata (.bytes b))
    let h ← setAnswer h ans (pos + j)
      ⟨UInt8.ofNat i, 0, q.qtype, q.qclass, 0, ttlLeft e.timestamp (clk j), e.addition, rdata⟩
    loadMatches A clk st i q ans pos (j + 1) result h

/-- The loop of `urlQuery`, with `n` questions to go from question `i` on: the return value, the cache and the heap. -/
def searchQuests (A : Allocator) (N : Nat) (host : Option HostMap) (clk : Clock) (st : Stale) (p : Nat) :
    Nat → Nat → LRUCache → PacketHeap σ → HeapExec (Int × LRUCache × PacketHeap σ)
  | 0, _, c, h => do
    let src ← cellAs PacketCell.packet? h p
    return (src.ancount.toNat, c, h)
  | n + 1, i, c, h => do
    let src ← cellAs PacketCell.packet? h p
    let q ← questAt h src.quests i
    let qname ← cellAs PacketCell.bytes? h q.qname
    let (found, result, c) ← lift (qnameSearch N host clk i c qname.bytes q.qtype)
    if found = -1 then do
      let h ← onHeap (h.write p (.packet { src with ancount := 0 }))
      return (-1, c, h)
    else if found = 0 then do
      let h ← onHeap (h.write p (.packet { src with ancount := 0 }))
      return (0, c, h)
    else
      let pos := src.ancount.toNat
      -- a wrapped `ANCOUNT` makes `realloc` shrink the array below `pos + found`
      if 65536 ≤ pos + result.length then .error (.fault .write)
      else do
        let (ans, h) ← reallocAnswers A h (pos + result.length) src.ans
        let ancount := UInt16.ofNat (pos + result.length)
        let h ← onHeap (h.write p (.packet { src with ancount := ancount, ans := some ans }))
        let h ← loadMatches A (clk.ttl i) st i q ans pos 0 result h
        searchQuests A N host clk st p n (i + 1) c h

/-- `urlQuery`: it drops the answers that came with the request. -/
def urlQuery (A : Allocator) (N : Nat) (host : Option HostMap) (clk : Clock) (st : Stale) (h : PacketHeap σ) (p : Nat)
    (c : LRUCache) : HeapExec (Int × LRUCache × PacketHeap σ) := do
  let src ← cellAs PacketCell.packet? h p
  let h ← onHeap (h.write p (.packet { src with ancount := 0, ans := none }))
  searchQuests A N host clk st p src.qdcount.toNat 0 c h

/-! ### `responseFormat` -/

/-- The loop over `j < QPOS` that adds up `names[i]`, with `n` rounds to go. -/
def namePointer (h : PacketHeap σ) (quests : Option Nat) : Nat → Nat → UInt16 → HeapExec UInt16
  | 0, _, ptr => .ok ptr
  | n + 1, j, ptr => do
    let q ← questAt h quests j
    let qname ← cellAs PacketCell.bytes? h q.qname
    let s ← lift (cstr qname.bytes)
    namePointer h quests n (j + 1) (ptr + UInt16.ofNat (s.length + 1 + 4))

def namePointers (h : PacketHeap σ) (src : PtrPacket) : Nat → Nat → HeapExec (List UInt16)
  | 0, _ => .ok []
  | n + 1, i => do
    let a ← answerAt h src.ans i
    let ptr ← namePointer h src.quests a.qpos.toNat 0 0xc00c
    let names ← namePointers h src n (i + 1)
    return ptr :: names

/-- The first answer loop of `responseFormat`: the heap and `*len`. -/
def formatAnswers (C : Libc) (src : PtrPacket) :
    List UInt16 → Nat → Block → Nat → PacketHeap σ → HeapExec (PacketHeap σ × Nat)
  | [], _, _, len, h => .ok (h, len)
  | name :: names, i, resData, len, h => do
    let a ← answerAt h src.ans i
    let q ← questAt h src.quests a.qpos.toNat
    let rdata ← cellAs PacketCell.bytes? h a.rdata
    let qname ← cellAs PacketCell.bytes? h q.qname
    let (ret, resData) ← lift (urlFormat C rdata.bytes resData a.type qname.bytes name a.addition)
    let rdlen := UInt16.ofNat (ret % 65536).toNat
    let ans ← lift (deref src.ans)
    let h ← setAnswer h ans i { a with rdlen := rdlen }
    let rdata ← lift (rdata.copy 0 resData.bytes 0 rdlen.toNat)
    let h ← onHeap (h.write a.rdata (.bytes rdata))
    formatAnswers C src names (i + 1) resData (len + (rdlen.toNat + 12)) h

/-- The second answer loop, into the block `dest`. -/
def putAnswers (src : PtrPacket) (dest : Nat) : List UInt16 → Nat → Nat → PacketHeap σ → HeapExec (PacketHeap σ)
  | [], _, _, h => .ok h
  | name :: names, i, dataPos, h => do
    let a ← answerAt h src.ans i
    let rdata ← cellAs PacketCell.bytes? h a.rdata
    let b ← cellAs PacketCell.bytes? h dest
    let b ← lift (b.storeBytes dataPos (be16 name))
    let b ← lift (b.storeBytes (dataPos + 2) (be16 a.type))
    let b ← lift (b.storeBytes (dataPos + 4) (be16 a.cls))
    let b ← lift (b.storeBytes (dataPos + 6) (be32 a.ttl))
    let b ← lift (b.copy (dataPos + 12) rdata.bytes 0 a.rdlen.toNat)
    let b ← lift (b.storeBytes (dataPos + 10) (be16 a.rdlen))
    let h ← onHeap (h.write dest (.bytes b))
    putAnswers src dest names (i + 1) (dataPos + (a.rdlen.toNat + 12)) h

/-- `flag` as `responseFormat` sets it. -/
def responseFlag (src : PtrPacket) : UInt16 :=
  let flag := setRd (setQr src.flags)
  if src.ancount = 0 ∨ src.ancount = 0xffff then
    setRcode (setAa flag) rcodeNameError
  else
    setRcode flag rcodeNoError

/-- `responseFormat`: the heap, the address of the response and its length. -/
def responseFormat (A : Allocator) (C : Libc) (st : Stale) (h : PacketHeap σ) (p : Nat) :
    HeapExec (PacketHeap σ × Nat × Nat) := do
  let src ← cellAs PacketCell.packet? h p
  let names ← namePointers h src src.ancount.toNat 0
  let (h, len) ← formatAnswers C src names 0 (Block.fresh 255 st.resData) src.bufLen h
  let (dest, h) := h.malloc A (.bytes (Block.fresh (len + 1) st.dest))
  let a ← cellAs PacketCell.args? h src.reqBuf
  let b ← cellAs PacketCell.bytes? h dest
  let b ← lift (b.copy 0 a.buf 0 src.bufLen)
  let b ← lift (b.storeBytes 2 (be16 (responseFlag src)))
  let b ← lift (b.storeBytes 6 (be16 src.ancount))
  let h ← onHeap (h.write dest (.bytes b))
  let h ← putAnswers src dest names 0 src.bufLen h
  return (h, dest, len)

/-! ### `packetFree` -/

/-- The loop over the questions, with `n` of them to go from the `i`-th on. -/
def freeQuests (quests : Nat) : Nat → Nat → PacketHeap σ → HeapExec (PacketHeap σ)
  | 0, _, h => .ok h
  | n + 1, i, h => do
    let q ← questAt h (some quests) i
    let h ← onHeap (h.free (some q.qname))
    freeQuests quests n (i + 1) h

/-- The loop over the answers. -/
def freeAnswers (ans : Nat) : Nat → Nat → PacketHeap σ → HeapExec (PacketHeap σ)
  | 0, _, h => .ok h
  | n + 1, i, h => do
    let a ← answerAt h (some ans) i
    let h ← onHeap (h.free (some a.rdata))
    freeAnswers ans n (i + 1) h

/-- The question section of `packetFree`. -/
def freeQuestSection (src : PtrPacket) (h : PacketHeap σ) : HeapExec (PacketHeap σ) :=
  match src.quests with
  | none => .ok h
  | some quests => do
    let h ← freeQuests quests src.qdcount.toNat 0 h
    onHeap (h.free (some quests))

/-- The answer section of `packetFree`. -/
def freeAnswerSection (src : PtrPacket) (h : PacketHeap σ) : HeapExec (PacketHeap σ) :=
  match src.ans with
  | none => .ok h
  | some ans => do
    let h ← freeAnswers ans src.ancount.toNat 0 h
    onHeap (h.free (some ans))

def packetFree (h : PacketHeap σ) (p : Nat) : HeapExec (PacketHeap σ) := do
  let src ← cellAs PacketCell.packet? h p
  let h ← freeQuestSection src h
  let h ← freeAnswerSection src h
  onHeap (h.free (some p))

end PacketHeap

end DnsRelay
