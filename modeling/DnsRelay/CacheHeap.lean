import DnsRelay.Flush
import DnsRelay.Lib.Alloc

/-!
# The strings of the cache on the heap

In `Cache` a record holds its strings; in the C code it holds the addresses of two blocks, which are allocated and
released on the way. Here are the same functions with pointers, and with the allocations that the callers of
`cacheInsert` and `cacheQuery` make: `urlStore` gives up the entry it filled, `qnameSearch` releases its own, and
`urlQuery` releases what it was given. A block that is read or released when it is not in use is a misuse.
-/

namespace DnsRelay
open Alloc

/-- `DNS_entry`, without the embedded `node` -/
structure PtrEntry where
  domainName : Option Nat
  ip : Option Nat
  type : UInt8
  addition : UInt16
  timestamp : Nat
deriving DecidableEq

/-- What a block holds: a string, an entry, or nothing that is looked at. -/
inductive Cell
  | text (s : List UInt8)
  | entry (e : PtrEntry)
  | blank
deriving DecidableEq

inductive HeapFault
  | fault (f : Fault)
  | misuse (m : Misuse)
deriving DecidableEq

abbrev HeapExec := Except HeapFault

/-- A step that does not touch the heap. -/
def lift {α : Type} (x : Exec α) : HeapExec α := x.mapError .fault

/-- A step on the heap. -/
def onHeap {α : Type} (x : Except Misuse α) : HeapExec α := x.mapError .misuse

theorem lift_ok {α : Type} {x : Exec α} {a : α} (h : x = .ok a) : lift x = .ok a := by
  rw [h]
  rfl

theorem onHeap_ok {α : Type} {x : Except Misuse α} {a : α} (h : x = .ok a) : onHeap x = .ok a := by
  rw [h]
  rfl

@[simp] theorem heap_bind {α β : Type} (a : α) (f : α → HeapExec β) : ((.ok a : HeapExec α) >>= f) = f a := rfl

theorem heap_bind_ok {α β : Type} {x : HeapExec α} {f : α → HeapExec β} {b : β} :
    (x >>= f) = .ok b ↔ ∃ a, x = .ok a ∧ f a = .ok b := by
  cases x with
  | error e => simp [bind, Except.bind]
  | ok a => simp

/-- A block is read as what it should hold. -/
def cellAs {α β : Type} (sel : α → Option β) (h : Heap α) (p : Nat) : HeapExec β := do
  match sel (← onHeap (h.read p)) with
  | some b => return b
  | none => .error (.misuse .dangling)

theorem cellAs_ok {α β : Type} {sel : α → Option β} {h : Heap α} {l : List Nat} {b : β} {p : Nat} (ho : Owns h l)
    (hp : p ∈ l) (hv : sel (h.val p) = some b) : cellAs sel h p = .ok b := by
  unfold cellAs
  rw [onHeap_ok (ho.read hp), heap_bind, hv]
  rfl

/-- The string at an address. -/
def text (h : Heap Cell) : Option Nat → HeapExec (List UInt8)
  | none => .error (.fault .null)
  | some a => do
    match ← onHeap (h.read a) with
    | .text s => return s
    | _ => .error (.misuse .dangling)

def entryAt (h : Heap Cell) (p : Nat) : HeapExec PtrEntry := do
  match ← onHeap (h.read p) with
  | .entry e => return e
  | _ => .error (.misuse .dangling)

/-- `malloc(strlen(s) + 1)` and `strcpy`, where there is a string. -/
def copyText (A : Allocator) (h : Heap Cell) : Option (List UInt8) → Option Nat × Heap Cell
  | none => (none, h)
  | some s =>
    let (a, h) := h.malloc A (.text s)
    (some a, h)

/-- The same, from an address that may be `NULL`. -/
def copyAt (A : Allocator) (h : Heap Cell) : Option Nat → HeapExec (Option Nat × Heap Cell)
  | none => .ok (none, h)
  | some a => do
    let s ← text h (some a)
    return copyText A h (some s)

/-- `DNS_entry_set`: the address of the entry and the heap. -/
def entrySet (A : Allocator) (h : Heap Cell) (name ip : Option (List UInt8)) (ttl : UInt32) (type : UInt8)
    (addition : UInt16) (now : Nat) : HeapExec (Nat × Heap Cell) := do
  let (p, h) := h.malloc A .blank
  let (domainName, h) := copyText A h name
  let (ip, h) := copyText A h ip
  let h ← onHeap (h.write p (.entry ⟨domainName, ip, type, addition, now + ttl.toNat⟩))
  return (p, h)

/-- `DNS_entry_free` of an entry that is not on the heap itself. -/
def freeStrings (h : Heap Cell) (e : PtrEntry) : HeapExec (Heap Cell) := do
  let h ← onHeap (h.free e.domainName)
  onHeap (h.free e.ip)

/-- `DNS_entry_free` and `free` of an entry on the heap. -/
def entryFree (h : Heap Cell) (p : Nat) : HeapExec (Heap Cell) := do
  let e ← entryAt h p
  let h ← freeStrings h e
  onHeap (h.free (some p))

structure HeapCache where
  heap : Heap Cell
  list : Nat → PtrEntry
  links : Links Node
  set : Nat → Bool
  length : Int

namespace HeapCache

/-- `cacheInit`, in memory that held `list` and `links`; the heap is what other parts of the program use. -/
def init (heap : Heap Cell) (list : Nat → PtrEntry) (links : Links Node) : HeapCache where
  heap := heap
  list := list
  links := ⟨Function.update links.next .head (some .head), Function.update links.prev .head (some .head)⟩
  set := fun _ => false
  length := 0

/-- `__LRU_list_add` -/
def listAdd (A : Allocator) (c : HeapCache) (entry : PtrEntry) (location : Nat) : HeapExec HeapCache := do
  let (domainName, heap) ← copyAt A c.heap entry.domainName
  let (ip, heap) ← copyAt A heap entry.ip
  let links ← lift (mylistAddHead c.links (.slot location) .head)
  return { c with
    heap := heap
    list := Function.update c.list location { entry with domainName := domainName, ip := ip }
    links := links }

/-- `__LRU_list_del` -/
def listDel (c : HeapCache) (i : Nat) : HeapExec HeapCache := do
  let heap ← freeStrings c.heap (c.list i)
  let links ← lift (mylistDel c.links (.slot i))
  return { c with
    heap := heap
    list := Function.update c.list i { c.list i with domainName := none, ip := none }
    links := links }

def freeSlot (N : Nat) (c : HeapCache) : Nat := (List.range N).findIdx fun i => !c.set i

/-- `cacheInsert` of the entry at address `p` -/
def cacheInsert (A : Allocator) (N : Nat) (c : HeapCache) (p : Nat) : HeapExec HeapCache :=
  if c.length < N then
    let i := c.freeSlot N
    if i < N then do
      let entry ← entryAt c.heap p
      let c ← c.listAdd A entry i
      return { c with set := Function.update c.set i true, length := c.length + 1 }
    else .error (.fault .write)
  else do
    match ← lift (deref (c.links.prev .head)) with
    | .head => .error (.fault .read)
    | .slot tail =>
      if mylistIsLast c.links (.slot tail) .head then do
        let c ← c.listDel tail
        let entry ← entryAt c.heap p
        c.listAdd A entry tail
      else return c

/-- The walk of `cacheQuery`; `acc` holds `result` and `temp`. The query is the entry at address `query`. -/
def queryLoop (A : Allocator) (N : Nat) (clk : Nat → Nat) (c : HeapCache) (query : Nat) :
    Nat → Nat → Node → Heap Cell → List (PtrEntry × Nat) → HeapExec (Heap Cell × List (PtrEntry × Nat))
  | 0, _, _, _, _ => .error (.fault .hang)
  | _ + 1, _, .head, heap, acc => .ok (heap, acc)
  | fuel + 1, k, .slot i, heap, acc => do
    let entry := c.list i
    let name ← text heap entry.domainName
    let q ← entryAt heap query
    let wanted ← text heap q.domainName
    if name = wanted ∧ clk k ≤ entry.timestamp ∧ entry.type = q.type then do
      let (domainName, heap) ← copyAt A heap entry.domainName
      let s ← text heap entry.ip
      let (ip, heap) := copyText A heap (some s)
      if acc.length < N then do
        let p ← lift (deref (c.links.next (.slot i)))
        queryLoop A N clk c query fuel (k + 1) p heap
          (acc ++ [(⟨domainName, ip, entry.type, entry.addition, entry.timestamp⟩, i)])
      else .error (.fault .write)
    else do
      let p ← lift (deref (c.links.next (.slot i)))
      queryLoop A N clk c query fuel (k + 1) p heap acc

/-- `cacheQuery`: the heap, the records found with their slots, and the addresses of the arrays `result` and
`temp` and of the arguments of the thread. -/
def cacheQuery (A : Allocator) (N : Nat) (clk : Nat → Nat) (c : HeapCache) (query : Nat) :
    HeapExec (Heap Cell × List (PtrEntry × Nat) × Nat × Nat × Nat) := do
  let (result, heap) := c.heap.malloc A .blank
  let (temp, heap) := heap.malloc A .blank
  let p ← lift (deref (c.links.next .head))
  let (heap, found) ← queryLoop A N clk c query (LRUCache.walkFuel N) 0 p heap []
  let (cargs, heap) := heap.malloc A .blank
  return (heap, found, result, temp, cargs)

/-- `__LRU_cache_rotate`, on the slots `temp_array` points to -/
def cacheRotate (c : HeapCache) (slots : List Nat) (temp args : Nat) : HeapExec HeapCache := do
  let links ← lift (slots.foldlM (fun links i => mylistRotateNodeHead links (.slot i) .head) c.links)
  let heap ← onHeap (c.heap.free (some temp))
  let heap ← onHeap (heap.free (some args))
  return { c with heap := heap, links := links }

/-- What `urlQuery` does with the records of the array `result`: it copies each of them, and releases its strings if
they are from the cache. -/
def takeResults (cached : Bool) : Heap Cell → List PtrEntry → HeapExec (Heap Cell × List DNSEntry)
  | h, [] => .ok (h, [])
  | h, e :: result => do
    -- the name is there to show the whole record; `urlQuery` does not look at it
    let name ← text h e.domainName
    let ip ← text h e.ip
    let h ← (if cached then freeStrings h e else .ok h)
    let (h, entries) ← takeResults cached h result
    return (h, ⟨some name, some ip, e.type, e.addition, e.timestamp⟩ :: entries)

def scanLoop (clk : Nat → Nat) : Nat → Nat → Node → HeapCache → Bool → HeapExec (HeapCache × Bool)
  | 0, _, _, _, _ => .error (.fault .hang)
  | _ + 1, _, .head, c, flag => .ok (c, flag)
  | fuel + 1, k, .slot i, c, flag =>
    if (c.list i).timestamp < clk k then do
      let p ← lift (deref (c.links.prev (.slot i)))
      let c ← c.listDel i
      let c := { c with set := Function.update c.set i false, length := c.length - 1 }
      let p ← lift (deref (c.links.next p))
      scanLoop clk fuel (k + 1) p c true
    else do
      let p ← lift (deref (c.links.next (.slot i)))
      scanLoop clk fuel (k + 1) p c flag

def cacheScan (N : Nat) (clk : Nat → Nat) (c : HeapCache) : HeapExec (HeapCache × Bool) := do
  let p ← lift (deref (c.links.next .head))
  scanLoop clk (LRUCache.walkFuel N) 0 p c false

def flushLoop : Nat → Nat → HeapCache → HeapExec HeapCache
  | 0, _, c => .ok c
  | n + 1, i, c => do
    let c ← c.listDel i
    flushLoop n (i + 1) c

def cacheFlush (N : Nat) (c : HeapCache) : HeapExec HeapCache := do
  let c ← flushLoop c.length.toNat 0 c
  return {
    heap := c.heap
    list := c.list
    links := ⟨Function.update c.links.next .head (some .head), Function.update c.links.prev .head (some .head)⟩
    set := fun i => if i < N then false else c.set i
    length := 0 }

/-- The loop of `cacheFree`, with `n` slots to go from slot `i` on. -/
def freeLoop : Nat → Nat → HeapCache → HeapExec HeapCache
  | 0, _, c => .ok c
  | n + 1, i, c => do
    let heap ← freeStrings c.heap (c.list i)
    freeLoop n (i + 1) { c with heap := heap }

def cacheFree (c : HeapCache) : HeapExec HeapCache := freeLoop c.length.toNat 0 c

end HeapCache

/-! ### What the callers do -/

/-- Where `urlQuery` takes the result of `qnameSearch` to be from. If there is a host file it is told; if there is
none, `resource` is not set, and the variable may hold `RESOURCE_CACHE` or something else. -/
inductive Resource
  | told
  | unset (cache : Bool)
deriving DecidableEq

/-- `resource == RESOURCE_CACHE`, of a result from the cache -/
def Resource.isCache : Resource → Bool
  | told => true
  | unset cache => cache

inductive HeapCmd
  | store (name ip : List UInt8) (ttl : UInt32) (type : UInt8) (addition : UInt16) (now : Nat)
  | lookup (name : List UInt8) (type : UInt8) (clk : Nat → Nat) (resource : Resource)
  | scan (clk : Nat → Nat)
  | flush

/-- The same, of the cache whose records hold their strings. -/
def HeapCmd.cmd : HeapCmd → CacheCmd
  | store name ip ttl type addition now => .insert ⟨name, ip, type, addition, now + ttl.toNat⟩
  | lookup name type clk _ => .query name type clk
  | scan clk => .scan clk
  | flush => .flush

/-- What `urlQuery` does with what `qnameSearch` returns to it. With a host file an empty result makes way for that of
`hostQuery`, and the array is left. -/
def takeFound (c : HeapCache) (found : List (PtrEntry × Nat)) (result : Nat) (resource : Resource) :
    HeapExec (HeapCache × CmdOut) :=
  if found = [] ∧ resource = .told then return (c, .found [])
  else do
    let (heap, entries) ← HeapCache.takeResults resource.isCache c.heap (found.map Prod.fst)
    let heap ← onHeap (heap.free (some result))
    return ({ c with heap := heap }, .found entries)

/-- If there is a host file, `qnameSearch` allocates `host_flag`, which nobody releases. -/
def hostFlag (A : Allocator) (h : Heap Cell) : Resource → Heap Cell
  | .told => (h.malloc A .blank).2
  | .unset _ => h

open HeapCache in
/-- `store` is the body of the loop of `urlStore`, which drops the entry; `lookup` is `qnameSearch` with the
rotation of its query, and `urlQuery` with the result. The entry and the arguments of the thread that searches the
host file, which it releases, and the array of its answer are not here: `LookupThreads` has them. -/
def heapStep (A : Allocator) (N : Nat) (c : HeapCache) : HeapCmd → HeapExec (HeapCache × CmdOut)
  | .store name ip ttl type addition now => do
    let (p, heap) ← entrySet A c.heap (some name) (some ip) ttl type addition now
    let c ← cacheInsert A N { c with heap := heap } p
    return (c, .done)
  | .lookup name type clk resource => do
    let (query, heap) ← entrySet A c.heap (some name) none 0 type 0 (clk 0)
    let heap := hostFlag A heap resource
    let (heap, found, result, temp, cargs) ← cacheQuery A N clk { c with heap := heap } query
    -- without a host file the function returns before it releases the entry
    let heap ← (if resource = .told then entryFree heap query else .ok heap)
    let c ← cacheRotate { c with heap := heap } (found.map Prod.snd) temp cargs
    takeFound c found result resource
  | .scan clk => do
    let (c, flag) ← cacheScan N clk c
    return (c, .scanned flag)
  | .flush => do
    let c ← cacheFlush N c
    return (c, .done)

/-- The blocks that a command leaves behind without an owner: the entry of `urlStore` with its strings; with a host
file the flag, and the array of an empty result; without one the entry of the query with its name, and the strings of
a result that is not taken to be from the cache. -/
def leaked : CmdOut → HeapCmd → Nat
  | _, .store .. => 3
  | .found entries, .lookup _ _ _ .told => if entries = [] then 2 else 1
  | .found entries, .lookup _ _ _ (.unset cache) => 2 + if cache then 0 else 2 * entries.length
  | _, _ => 0

end DnsRelay
