import DnsRelay.CacheHeap
import DnsRelay.Query
import DnsRelay.Lib.Transducer

/-!
# The two threads of `qnameSearch`, one access at a time

`qnameSearch` asks the cache while a thread of its own runs `hostQuery`. The thread finds its arguments on the heap and
writes its answer to two variables of the function that started it. If the cache has no record the function waits for
the thread; if it has one it does not, and returns. The variables of a function are blocks here that are released when
it returns. Any number of searches may be under way, in any interleaving. `cacheQuery` is taken at once, with the
records that it finds; an entry and its strings are one block.
-/

namespace DnsRelay
open Alloc

/-- `hq_args` -/
structure HqArgs where
  entry : Nat
  resDest : Nat
  resNum : Nat
  flag : Nat
deriving DecidableEq

/-- What a block holds: a `DNS_entry`, the arguments of the thread, `res_host`, `ret_host` or `*host_flag`, or an array
of records. -/
inductive LookupCell
  | entry (e : DNSEntry)
  | args (a : HqArgs)
  | pointer (p : Option Nat)
  | number (n : Int)
  | records (l : List DNSEntry)

namespace LookupCell

def entry? : LookupCell → Option DNSEntry
  | entry e => some e
  | _ => none

def args? : LookupCell → Option HqArgs
  | args a => some a
  | _ => none

def pointer? : LookupCell → Option (Option Nat)
  | pointer p => some p
  | _ => none

def number? : LookupCell → Option Int
  | number n => some n
  | _ => none

def records? : LookupCell → Option (List DNSEntry)
  | records l => some l
  | _ => none

end LookupCell

/-- The variables of a call of `qnameSearch`. -/
structure Vars where
  resHost : Nat
  retHost : Nat
  entryCache : Nat
  hostFlag : Nat
deriving DecidableEq

/-- What the thread that called `qnameSearch` does next. -/
inductive SearchPoint
  | start
  | askCache (v : Vars)
  /-- `threadJoin(thread_host, NULL)` and the result of the thread -/
  | join (v : Vars)
  /-- `*host_flag = 0`, with the result of the cache -/
  | stop (v : Vars) (resCache : Nat) (retCache : Nat)
  | leave (v : Vars) (result : Option Nat) (ret : Int) (cached : Bool)
  /-- `urlQuery` takes the records of `result` and releases it. -/
  | take (result : Option Nat) (ret : Int) (cached : Bool)
  | done (ret : Int) (result : List DNSEntry) (cached : Bool)

/-- What the thread of `host_query_handle` does next; `k` entries of the list are behind it. -/
inductive HostPoint
  | idle
  | begin (args : Nat)
  | askHash (args : Nat) (a : HqArgs)
  /-- `*result = malloc(..)`, behind the loop that counts the entries -/
  | make (args : Nat) (a : HqArgs) (list : List DNSEntry)
  | walk (args : Nat) (a : HqArgs) (k : Nat) (list : List DNSEntry) (num : Nat)
  /-- `memcpy(&(*result)[num], temp, ..)` -/
  | copy (args : Nat) (a : HqArgs) (k : Nat) (temp : DNSEntry) (list : List DNSEntry) (num : Nat)
  /-- `(*result)[num].timestamp = ..` -/
  | stamp (args : Nat) (a : HqArgs) (k : Nat) (list : List DNSEntry) (num : Nat)
  /-- `*(*arg).res_num = ..` -/
  | store (args : Nat) (a : HqArgs) (ret : Int)
  | clean (args : Nat) (a : HqArgs)
  | done

/-- A search: what is asked for, what the cache answered, and where its threads stand. -/
structure Search where
  entry : DNSEntry
  found : Option (List DNSEntry)
  main : SearchPoint
  host : HostPoint

/-- Memory that `memset` cleared. -/
def zeroEntry : DNSEntry := ⟨none, none, 0, 0, 0⟩

/-- The array that `*result` points to. -/
def resultArray (h : Heap LookupCell) (a : HqArgs) : HeapExec (Nat × List DNSEntry) := do
  let p ← lift (deref (← cellAs LookupCell.pointer? h a.resDest))
  let l ← cellAs LookupCell.records? h p
  return (p, l)

/-- The next step of `qnameSearch`, and of `urlQuery` with its result. The cache answers `found`. -/
def searchStep (A : Allocator) (h : Heap LookupCell) (s : Search) (found : List DNSEntry) :
    HeapExec (Heap LookupCell × Search) :=
  match s.main with
  | .start =>
    let (resHost, h) := h.malloc A (.pointer none)
    let (retHost, h) := h.malloc A (.number 0)
    let (entryCache, h) := h.malloc A (.entry s.entry)
    let (entryHost, h) := h.malloc A (.entry s.entry)
    let (flag, h) := h.malloc A (.number 1)
    let (args, h) := h.malloc A (.args ⟨entryHost, resHost, retHost, flag⟩)
    .ok (h, { s with main := .askCache ⟨resHost, retHost, entryCache, flag⟩, host := .begin args })
  | .askCache v => do
    let _ ← cellAs LookupCell.entry? h v.entryCache
    let (resCache, h) := h.malloc A (.records found)
    return (h, { s with
      found := some found
      main := if found.length = 0 then .join v else .stop v resCache found.length })
  | .join v => match s.host with
    | .done => do
      let ret ← cellAs LookupCell.number? h v.retHost
      let result ← (if ret ≠ 0 then cellAs LookupCell.pointer? h v.resHost else return none)
      return (h, { s with main := .leave v result ret false })
    | _ => .ok (h, s)
  | .stop v resCache retCache => do
    let h ← onHeap (h.write v.hostFlag (.number 0))
    return (h, { s with main := .leave v (some resCache) retCache true })
  | .leave v result ret cached => do
    let h ← onHeap (h.free (some v.entryCache))
    -- the frame of the call is gone
    let h ← onHeap (h.free (some v.resHost))
    let h ← onHeap (h.free (some v.retHost))
    return (h, { s with main := .take result ret cached })
  | .take result ret cached => do
    let l ← (if 0 < ret then do cellAs LookupCell.records? h (← lift (deref result)) else return [])
    if l.length < ret then .error (.fault .read)
    else do
      let h ← onHeap (h.free result)
      return (h, { s with main := .done ret (l.take ret.toNat) cached })
  | .done .. => .ok (h, s)

/-- The next step of `host_query_handle`, at time `now`. -/
def hostStep (A : Allocator) (m : HostMap) (h : Heap LookupCell) (now : Nat) : HostPoint →
    HeapExec (Heap LookupCell × HostPoint)
  | .idle => .ok (h, .idle)
  | .begin args => do
    let a ← cellAs LookupCell.args? h args
    return (h, .askHash args a)
  | .askHash args a => do
    let e ← cellAs LookupCell.entry? h a.entry
    let name ← lift (deref e.domainName)
    match ← lift (m.hash.queryHash name) with
    | none => return (h, .store args a 0)
    | some head => match m.lists[head]? with
      | none => .error (.fault .read)
      | some list => return (h, .make args a list)
  | .make args a list => do
    let (p, h) := h.malloc A (.records (List.replicate list.length zeroEntry))
    let h ← onHeap (h.write a.resDest (.pointer (some p)))
    return (h, .walk args a 0 list 0)
  | .walk args a _ [] num => .ok (h, .store args a num)
  | .walk args a k (temp :: list) num => do
    let e ← cellAs LookupCell.entry? h a.entry
    let blocked ← (if e.type = typeA.toUInt8 then do
        let ip ← lift (deref temp.ip)
        return decide (ip = blockIp)
      else return false : HeapExec Bool)
    if blocked then return (h, .store args a (-1))
    else if temp.type = e.type then return (h, .copy args a k temp list num)
    else return (h, .walk args a (k + 1) list num)
  | .copy args a k temp list num => do
    let (p, l) ← resultArray h a
    if num < l.length then do
      let h ← onHeap (h.write p (.records (l.set num temp)))
      return (h, .stamp args a k list num)
    else .error (.fault .write)
  | .stamp args a k list num => do
    let (p, l) ← resultArray h a
    let h ← onHeap (h.write p (.records (l.modify num fun e => { e with timestamp := now + 0x80 })))
    return (h, .walk args a (k + 1) list (num + 1))
  | .store args a ret => do
    let h ← onHeap (h.write a.resNum (.number ret))
    return (h, .clean args a)
  | .clean args a => do
    let h ← onHeap (h.free (some a.entry))
    let h ← onHeap (h.free (some args))
    return (h, .done)
  | .done => .ok (h, .done)

/-! ### Any number of searches -/

structure SearchState where
  heap : Heap LookupCell
  searches : List Search

inductive SearchEvent
  /-- `urlQuery` calls `qnameSearch` at some time. -/
  | call (qname : List UInt8) (qtype : UInt16) (now : Nat)
  /-- The thread that called the search `k` runs; if it asks the cache, that is what is found. -/
  | main (k : Nat) (found : List DNSEntry)
  /-- The thread that the search `k` started runs. -/
  | host (k now : Nat)

def searchesStep (A : Allocator) (m : HostMap) (s : SearchState) : SearchEvent → HeapExec SearchState
  | .call qname qtype now => .ok { s with
      searches := s.searches ++ [⟨dnsEntrySet (some qname) none 0 qtype.toUInt8 0 now, none, .start, .idle⟩] }
  | .main k found => match s.searches[k]? with
    | none => .ok s
    | some x => do
      let (heap, x) ← searchStep A s.heap x found
      return ⟨heap, s.searches.set k x⟩
  | .host k now => match s.searches[k]? with
    | none => .ok s
    | some x => do
      let (heap, host) ← hostStep A m s.heap now x.host
      return ⟨heap, s.searches.set k { x with host := host }⟩

def searchesRun (A : Allocator) (m : HostMap) (s : SearchState) (es : List SearchEvent) : HeapExec SearchState :=
  es.foldlM (searchesStep A m) s

/-- The thread has written its last to the variables of the search. -/
def HostPoint.written : HostPoint → Bool
  | clean .. | done => true
  | _ => false

/-- The event does not let a search return whose thread has yet to write to its variables. -/
def timelyEvent (s : SearchState) : SearchEvent → Bool
  | .main k _ => match s.searches[k]? with
    | some ⟨_, _, .leave .., host⟩ => host.written
    | _ => true
  | _ => true

/-- In this schedule no search returns before its thread has written its answer. -/
def timely (A : Allocator) (m : HostMap) : SearchState → List SearchEvent → Bool :=
  Transducer.guarded (searchesStep A m) timelyEvent

/-! ### What a search is for -/

/-- The answer of the host table, unless the cache found something. -/
def searchAnswer (m : HostMap) (clk : Nat → Nat) (entry : DNSEntry) (found : List DNSEntry) :
    Exec (Int × List DNSEntry) := do
  let r ← hostQuery clk m entry
  if found.length = 0 then return r else return (found.length, found)

theorem qnameSearch_eq (N : Nat) (m : HostMap) (clk : Clock) (i : Nat) (c : LRUCache) (qname : List UInt8)
    (qtype : UInt16) : qnameSearch N (some m) clk i c qname qtype = (do
      let name ← cstr qname
      let entry := dnsEntrySet (some name) none 0 qtype.toUInt8 0 (clk.search i)
      let found ← c.cacheQuery N (clk.visit i) entry
      let c ← c.cacheRotate (found.map Prod.snd)
      let r ← searchAnswer m (clk.host i) entry (found.map Prod.fst)
      return (r.1, r.2, c)) := by
  unfold qnameSearch searchAnswer
  refine bind_congr fun name => bind_congr fun found => bind_congr fun c => ?_
  rw [bind_assoc]
  refine bind_congr fun r => ?_
  rw [List.length_map]
  by_cases hfound : found.length = 0
  · simp only [if_pos hfound]
    rfl
  · simp only [if_neg hfound]
    rfl

end DnsRelay
