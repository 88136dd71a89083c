import DnsRelay.MyList

/-!
# `cache.c`

The cache is an array of `DNS_entry` slots threaded on one circular list through the `node` each
slot embeds; `head` is the list's own node. Freshly allocated memory is arbitrary, so `cacheInit`
takes what the array held. `time(NULL)` may move while an operation walks the list: `clk k` is what
it reads at the `k`-th node of the walk.
-/

namespace DnsRelay

inductive Node
  | head
  | slot (i : Nat)
deriving DecidableEq, Repr

/-- `DNS_entry`, without the embedded `node` -/
structure DNSEntry where
  domainName : Option (List UInt8)
  ip : Option (List UInt8)
  type : UInt8
  addition : UInt16
  timestamp : Nat
deriving DecidableEq, Repr

structure LRUCache where
  list : Nat → DNSEntry
  links : Links Node
  set : Nat → Bool
  length : Int

/-- `DNS_entry_set`, `now` being what `time(NULL)` reads -/
def dnsEntrySet (name ip : Option (List UInt8)) (ttl : UInt32) (type : UInt8) (addition : UInt16)
    (now : Nat) : DNSEntry :=
  ⟨name, ip, type, addition, now + ttl.toNat⟩

namespace LRUCache

def init (list : Nat → DNSEntry) (links : Links Node) : LRUCache where
  list := list
  links := ⟨Function.update links.next .head (some .head), Function.update links.prev .head (some .head)⟩
  set := fun _ => false
  length := 0

/-- A fresh cache in memory that was all zero. -/
def zeroed : LRUCache := .init (fun _ => ⟨none, none, 0, 0, 0⟩) ⟨fun _ => none, fun _ => none⟩

/-- `__LRU_list_add`. The links that the `memcpy` brings along are overwritten before they are read. -/
def listAdd (c : LRUCache) (entry : DNSEntry) (location : Nat) : Exec LRUCache := do
  let links ← mylistAddHead c.links (.slot location) .head
  return { c with list := Function.update c.list location entry, links := links }

/-- `__LRU_list_del` -/
def listDel (c : LRUCache) (i : Nat) : Exec LRUCache := do
  let links ← mylistDel c.links (.slot i)
  return { c with
    list := Function.update c.list i { c.list i with domainName := none, ip := none }
    links := links }

/-- The search for a free slot; `N` when there is none. -/
def freeSlot (N : Nat) (c : LRUCache) : Nat := (List.range N).findIdx fun i => !c.set i

def cacheInsert (N : Nat) (c : LRUCache) (entry : DNSEntry) : Exec LRUCache :=
  if c.length < N then
    let i := c.freeSlot N
    if i < N then do
      let c ← c.listAdd entry i
      return { c with set := Function.update c.set i true, length := c.length + 1 }
    else .error .write
  else do
    match ← deref (c.links.prev .head) with
    | .head => .error .read -- an empty list: the bytes before `head` taken for a slot
    | .slot tail =>
      if mylistIsLast c.links (.slot tail) .head then do
        let c ← c.listDel tail
        c.listAdd entry tail
      else return c

/-- A walk that has not come back to `head` after so many nodes never will: it is in a cycle, and
each turn of it would have deleted a node or filled a place of a buffer of `N`. -/
def walkFuel (N : Nat) : Nat := (N + 1) * (N + 2)

/-- The walk of `cacheQuery` from node `p` on; `acc` holds `result` and, beside it, `temp`. -/
def queryLoop (N : Nat) (clk : Nat → Nat) (c : LRUCache) (query : DNSEntry) :
    Nat → Nat → Node → List (DNSEntry × Nat) → Exec (List (DNSEntry × Nat))
  | 0, _, _, _ => .error .hang
  | _ + 1, _, .head, acc => .ok acc
  | fuel + 1, k, .slot i, acc => do
    let entry := c.list i
    let name ← deref entry.domainName
    let wanted ← deref query.domainName
    let acc ←
      if name = wanted ∧ clk k ≤ entry.timestamp ∧ entry.type = query.type then do
        let _ ← deref entry.ip
        if acc.length < N then .ok (acc ++ [(entry, i)]) else .error .write
      else .ok acc
    let p ← deref (c.links.next (.slot i))
    queryLoop N clk c query fuel (k + 1) p acc

/-- The locked section of `cacheQuery`: the records found, each with the slot it was found in. -/
def cacheQuery (N : Nat) (clk : Nat → Nat) (c : LRUCache) (query : DNSEntry) :
    Exec (List (DNSEntry × Nat)) := do
  let p ← deref (c.links.next .head)
  queryLoop N clk c query (walkFuel N) 0 p []

/-- `__LRU_cache_rotate`, on the slots `temp_array` points to -/
def cacheRotate (c : LRUCache) : List Nat → Exec LRUCache
  | [] => .ok c
  | i :: temp => do
    let links ← mylistRotateNodeHead c.links (.slot i) .head
    cacheRotate { c with links := links } temp

/-- The walk of `cacheScan` from node `p` on. -/
def scanLoop (clk : Nat → Nat) : Nat → Nat → Node → LRUCache → Bool → Exec (LRUCache × Bool)
  | 0, _, _, _, _ => .error .hang
  | _ + 1, _, .head, c, flag => .ok (c, flag)
  | fuel + 1, k, .slot i, c, flag =>
    if (c.list i).timestamp < clk k then do
      let p ← deref (c.links.prev (.slot i))
      let c ← c.listDel i
      let c := { c with set := Function.update c.set i false, length := c.length - 1 }
      let p ← deref (c.links.next p)
      scanLoop clk fuel (k + 1) p c true
    else do
      let p ← deref (c.links.next (.slot i))
      scanLoop clk fuel (k + 1) p c flag

def cacheScan (N : Nat) (clk : Nat → Nat) (c : LRUCache) : Exec (LRUCache × Bool) := do
  let p ← deref (c.links.next .head)
  scanLoop clk (walkFuel N) 0 p c false

/-- The loop of `cacheFlush`, with `n` slots to go from slot `i` on. Its body is that of `__LRU_list_del`. -/
def flushLoop : Nat → Nat → LRUCache → Exec LRUCache
  | 0, _, c => .ok c
  | n + 1, i, c => do
    let c ← c.listDel i
    flushLoop n (i + 1) c

def cacheFlush (N : Nat) (c : LRUCache) : Exec LRUCache := do
  let c ← flushLoop c.length.toNat 0 c
  return {
    list := c.list
    links := ⟨Function.update c.links.next .head (some .head), Function.update c.links.prev .head (some .head)⟩
    set := fun i => if i < N then false else c.set i
    length := 0 }

end LRUCache

end DnsRelay
