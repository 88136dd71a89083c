import DnsRelay.Machine

/-!
# `protocol.h`: types, flags and the parsed packet

Counts and fields keep their C widths. `reqBuf` is the memory `req_buf` points to: the `bufLen`
bytes of the datagram and whatever lies behind them in `args->buf`.
-/

namespace DnsRelay

def typeQname : UInt16 := 0
def typeA : UInt16 := 1
def typeNs : UInt16 := 2
def typeCname : UInt16 := 5
def typeMx : UInt16 := 15
def typeAaaa : UInt16 := 28

/-- `TYPE_BUF_SIZE`: what `malloc` is asked for to hold the text of a record. -/
def typeBufSize (type : UInt16) : Nat :=
  if type = typeA then 22
  else if type = typeAaaa then 50
  else if type = typeNs ∨ type = typeMx ∨ type = typeCname then 255
  else 0

theorem typeBufSize_le (type : UInt16) : typeBufSize type ≤ 255 := by
  unfold typeBufSize
  split_ifs <;> decide

def rcodeNoError : UInt16 := 0
def rcodeNameError : UInt16 := 3

def setQr (flag : UInt16) : UInt16 := flag ||| 0x8000
def setAa (flag : UInt16) : UInt16 := flag ||| 0x400
def setRd (flag : UInt16) : UInt16 := flag ||| 0x100
def setRcode (flag code : UInt16) : UInt16 := (flag &&& 0xfff0) ||| code
def getQr (flag : UInt16) : UInt16 := (flag &&& 0x8000) >>> 15
def getRcode (flag : UInt16) : UInt16 := flag &&& 0xf
def getQnamePtr (name : UInt16) : UInt16 := name &&& 0x3fff

/-- `(x & 0xc000) == 0xc000` -/
def isNamePtr (x : UInt16) : Bool := x &&& 0xc000 = 0xc000

structure Quest where
  qname : Block
  qtype : UInt16
  qclass : UInt16
deriving DecidableEq

structure Answer where
  qpos : UInt8
  name : UInt16
  type : UInt16
  cls : UInt16
  rdlen : UInt16
  ttl : UInt32
  addition : UInt16
  rdata : Block
deriving DecidableEq

structure Packet where
  reqBuf : List UInt8
  bufLen : Nat
  id : UInt16
  flags : UInt16
  qdcount : UInt16
  ancount : UInt16
  quests : List Quest
  ans : List Answer
deriving DecidableEq

/-- What fresh memory holds before it is written: the `i`-th `QNAME`, `RDATA` and `temp` buffers and
the `i`-th uninitialised `ADDITION` of `packetParse`, the `RDATA` buffers of `urlQuery`, `resData`
and the output buffer of `responseFormat`. -/
structure Stale where
  qname : Nat → List UInt8
  rdata : Nat → List UInt8
  temp : Nat → List UInt8
  addition : Nat → UInt16
  found : Nat → List UInt8
  resData : List UInt8
  dest : List UInt8

/-- Fresh memory that reads as zero. -/
def Stale.zero : Stale := ⟨fun _ => [], fun _ => [], fun _ => [], fun _ => 0, fun _ => [], [], []⟩

end DnsRelay
