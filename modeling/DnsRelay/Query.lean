import DnsRelay.CacheRefine
import DnsRelay.Host
import DnsRelay.Packet

/-!
# `Service/query.c`: `urlStore`, `urlQuery` and `qnameSearch`

`qnameSearch` asks the cache and, in a thread of its own, the host table; the answer of the cache
counts if there is one. Both are evaluated here, one after the other, and the rotation that
`cacheQuery` leaves to a thread runs at once. `__HOST_EXIST__` is whether there is a host table.
-/

namespace DnsRelay
open Exec

/-- What `time(NULL)` reads: in `urlStore` at the `i`-th answer; in the search for the `i`-th question,
at the `k`-th node of the cache and at the `k`-th entry of the host list; at the `j`-th result of that
search; and twice in `addToMap`. -/
structure Clock where
  store : Nat → Nat
  search : Nat → Nat
  visit : Nat → Nat → Nat
  host : Nat → Nat → Nat
  ttl : Nat → Nat → Nat
  check : Nat
  added : Nat

/-- A clock that stands still. -/
def Clock.const (t : Nat) : Clock :=
  ⟨fun _ => t, fun _ => t, fun _ _ => t, fun _ _ => t, fun _ _ => t, t, t⟩

/-! ### `urlStore` -/

/-- The loop of `urlStore` from the `i`-th answer on. -/
def storeAnswers (N : Nat) (clk : Nat → Nat) (quests : List Quest) :
    Nat → List Answer → LRUCache → Exec LRUCache
  | _, [], c => .ok c
  | i, a :: ans, c => match quests[0]? with
    | none => .error .read
    | some q =>
      if a.type ≠ q.qtype then storeAnswers N clk quests (i + 1) ans c else do
      let name ← cstr q.qname.bytes
      let ip ← cstr a.rdata.bytes
      let entry := dnsEntrySet (some name) (some ip) a.ttl a.type.toUInt8 a.addition (clk i)
      let c ← c.cacheInsert N entry
      storeAnswers N clk quests (i + 1) ans c

def urlStore (N : Nat) (clk : Clock) (src : Packet) (c : LRUCache) : Exec LRUCache :=
  storeAnswers N clk.store src.quests 0 (src.ans.take src.ancount.toNat) c

/-! ### `urlQuery` -/

/-- `qnameSearch` for question `i`: the return value, `*result`, and the cache. -/
def qnameSearch (N : Nat) (host : Option HostMap) (clk : Clock) (i : Nat) (c : LRUCache)
    (qname : List UInt8) (qtype : UInt16) : Exec (Int × List DNSEntry × LRUCache) := do
  let name ← cstr qname
  let entry := dnsEntrySet (some name) none 0 qtype.toUInt8 0 (clk.search i)
  let found ← c.cacheQuery N (clk.visit i) entry
  let c ← c.cacheRotate (found.map Prod.snd)
  match host with
  | none => return (found.length, found.map Prod.fst, c)
  | some m =>
    let (retHost, resHost) ← hostQuery (clk.host i) m entry
    if found.length = 0 then return (retHost, resHost, c)
    else return (found.length, found.map Prod.fst, c)

/-- `timestamp - time(NULL)`, stored in a `uint32_t` -/
def ttlLeft (timestamp now : Nat) : UInt32 := UInt32.ofNat (((timestamp : Int) - now) % 4294967296).toNat

/-- The inner loop of `urlQuery` for question `i` from the `j`-th result on; the answers start at
`ANS[pos]`. `NAME` and `RDLEN` are left as they are and written before they are read. -/
def loadMatches (clk : Nat → Nat) (st : Stale) (i : Nat) (q : Quest) (pos : Nat) :
    Nat → List DNSEntry → Exec (List Answer)
  | _, [] => .ok []
  | j, e :: result => do
    let ip ← deref e.ip
    let rdata ← (Block.fresh (typeBufSize q.qtype) (st.found (pos + j))).storeBytes 0 (ip ++ [0])
    let ans ← loadMatches clk st i q pos (j + 1) result
    return ⟨UInt8.ofNat i, 0, q.qtype, q.qclass, 0, ttlLeft e.timestamp (clk j), e.addition, rdata⟩ :: ans

/-- The loop of `urlQuery` from question `i` on, `ans` being the answers so far: the return value,
`ANCOUNT`, `ANS` and the cache. -/
def searchQuests (N : Nat) (host : Option HostMap) (clk : Clock) (st : Stale) :
    Nat → List Quest → List Answer → LRUCache → Exec (Int × UInt16 × List Answer × LRUCache)
  | _, [], ans, c => .ok (ans.length, UInt16.ofNat ans.length, ans, c)
  | i, q :: quests, ans, c => do
    let (found, result, c) ← qnameSearch N host clk i c q.qname.bytes q.qtype
    if found = -1 then return (-1, 0, ans, c)
    if found = 0 then return (0, 0, ans, c)
    -- a wrapped `ANCOUNT` makes `realloc` shrink the array below `pos + found`
    if 65536 ≤ ans.length + result.length then .error .write
    else
      let new ← loadMatches (clk.ttl i) st i q ans.length 0 result
      searchQuests N host clk st (i + 1) quests (ans ++ new) c

/-- `urlQuery`: the return value, the packet and the cache -/
def urlQuery (N : Nat) (host : Option HostMap) (clk : Clock) (st : Stale) (src : Packet) (c : LRUCache) :
    Exec (Int × Packet × LRUCache) := do
  let (ret, ancount, ans, c) ← searchQuests N host clk st 0 src.quests [] c
  return (ret, { src with ancount := ancount, ans := ans }, c)

end DnsRelay
