import DnsRelay.Flush
import DnsRelay.Lib.RwLock
import DnsRelay.Protocol

/-!
# The threads at the cache

Each operation on the cache runs under `cache->lock`, and a query leaves a `__LRU_cache_rotate` to a new thread.
Here an operation is no single step: it moves from node to node and from slot to slot, and between any two of
these steps other threads run as far as the lock lets them. `whole` is the operation in one piece. Every
schedule of the threads is a serial run of whole operations, in the order in which they release the lock, and
nothing but a null link stops it (`threads_serial`). From every state that it reaches all threads can come to
their end (`threads_drain`).
-/

namespace DnsRelay
open Exec RwLock

namespace LRUCache

/-! ### `cacheOutput` -/

/-- What `cacheOutput` prints for one record; the preference only for an MX record. -/
structure Line where
  domainName : Option (List UInt8)
  rr : Option (List UInt8)
  type : UInt8
  ttl : Int
  pref : Option UInt16
deriving DecidableEq

def line (now : Nat) (entry : DNSEntry) : Line where
  domainName := entry.domainName
  rr := entry.ip
  type := entry.type
  ttl := entry.timestamp - now
  pref := if entry.type.toUInt16 = typeMx then some entry.addition else none

/-- The walk of `cacheOutput` from node `p` on. -/
def outputLoop (clk : Nat → Nat) (c : LRUCache) : Nat → Nat → Node → List Line → Exec (List Line)
  | 0, _, _, _ => .error .hang
  | _ + 1, _, .head, lines => .ok lines
  | fuel + 1, k, .slot i, lines => do
    let p ← deref (c.links.next (.slot i))
    outputLoop clk c fuel (k + 1) p (lines ++ [line (clk k) (c.list i)])

/-- The locked section of `cacheOutput`: the total length and the records. -/
def cacheOutput (N : Nat) (clk : Nat → Nat) (c : LRUCache) : Exec (Int × List Line) := do
  let p ← deref (c.links.next .head)
  let lines ← outputLoop clk c (walkFuel N) 0 p []
  return (c.length, lines)

end LRUCache

/-! ### The operations, whole and in steps -/

/-- What a thread is started for, or a thread that runs already comes to. -/
inductive CacheRequest
  | query (name : List UInt8) (type : UInt8) (clk : Nat → Nat)
  | insert (r : Record)
  | scan (clk : Nat → Nat)
  | flush
  | output (clk : Nat → Nat)

inductive CacheSection
  | request (q : CacheRequest)
  | rotate (temp : List Nat)

inductive SectionOut
  | done
  | found (result : List (DNSEntry × Nat))
  | scanned (flag : Bool)
  | listing (length : Int) (lines : List LRUCache.Line)
deriving DecidableEq

/-- The entry that `qnameSearch` makes for a query. -/
def queryEntry (name : List UInt8) (type : UInt8) (clk : Nat → Nat) : DNSEntry :=
  dnsEntrySet (some name) none 0 type 0 (clk 0)

def whole (N : Nat) : CacheSection → LRUCache → Exec (LRUCache × SectionOut)
  | .request (.query name type clk), c => do
    let found ← c.cacheQuery N clk (queryEntry name type clk)
    return (c, .found found)
  | .request (.insert r), c => do
    let c ← c.cacheInsert N r.entry
    return (c, .done)
  | .request (.scan clk), c => do
    let (c, flag) ← c.cacheScan N clk
    return (c, .scanned flag)
  | .request .flush, c => do
    let c ← c.cacheFlush N
    return (c, .done)
  | .request (.output clk), c => do
    let (length, lines) ← c.cacheOutput N clk
    return (c, .listing length lines)
  | .rotate temp, c => do
    let c ← c.cacheRotate temp
    return (c, .done)

/-- How far a thread that holds the lock has come. -/
inductive Local : CacheSection → Type
  | enter {op} : Local op
  | find {name type clk} (k : Nat) (p : Node) (acc : List (DNSEntry × Nat)) : Local (.request (.query name type clk))
  | seek {r} (i : Nat) : Local (.request (.insert r))
  | mark {r} (i : Nat) : Local (.request (.insert r))
  | refill {r} (tail : Nat) : Local (.request (.insert r))
  | sweep {clk} (k : Nat) (p : Node) (flag : Bool) : Local (.request (.scan clk))
  | unset {clk} (k i : Nat) (p : Node) : Local (.request (.scan clk))
  | drop (n i : Nat) : Local (.request .flush)
  | print {clk} (k : Nat) (p : Node) (lines : List LRUCache.Line) : Local (.request (.output clk))
  | move {temp} (rest : List Nat) : Local (.rotate temp)

namespace LRUCache

/-- One round of the loop of `cacheQuery`, at slot `i`. -/
def findNode (N : Nat) (clk : Nat → Nat) (c : LRUCache) (query : DNSEntry) (k i : Nat)
    (acc : List (DNSEntry × Nat)) : Exec (Node × List (DNSEntry × Nat)) := do
  let entry := c.list i
  let name ← deref entry.domainName
  let wanted ← deref query.domainName
  let acc ←
    if name = wanted ∧ clk k ≤ entry.timestamp ∧ entry.type = query.type then do
      let _ ← deref entry.ip
      if acc.length < N then .ok (acc ++ [(entry, i)]) else .error .write
    else .ok acc
  let p ← deref (c.links.next (.slot i))
  return (p, acc)

/-- What `cacheFlush` does behind its loop. -/
def flushReset (N : Nat) (c : LRUCache) : LRUCache where
  list := c.list
  links := ⟨Function.update c.links.next .head (some .head), Function.update c.links.prev .head (some .head)⟩
  set i := if i < N then false else c.set i
  length := 0

end LRUCache

open LRUCache in
/-- One step under the lock. -/
def sectionStep (N : Nat) : (op : CacheSection) → LRUCache → Local op → Exec (LRUCache × (Local op ⊕ SectionOut))
  | .request (.query ..), c, .enter => do
    let p ← deref (c.links.next .head)
    return (c, .inl (.find 0 p []))
  | .request (.query ..), c, .find _ .head acc => .ok (c, .inr (.found acc))
  | .request (.query name type clk), c, .find k (.slot i) acc => do
    let (p, acc) ← findNode N clk c (queryEntry name type clk) k i acc
    return (c, .inl (.find (k + 1) p acc))
  | .request (.insert _), c, .enter =>
    if c.length < N then .ok (c, .inl (.seek 0))
    else do
      match ← deref (c.links.prev .head) with
      | .head => .error .read
      | .slot tail =>
        if mylistIsLast c.links (.slot tail) .head then do
          let c ← c.listDel tail
          return (c, .inl (.refill tail))
        else return (c, .inr .done)
  | .request (.insert r), c, .seek i =>
    if i < N then
      if c.set i then .ok (c, .inl (.seek (i + 1)))
      else do
        let c ← c.listAdd r.entry i
        return (c, .inl (.mark i))
    else .error .write
  | .request (.insert _), c, .mark i =>
    .ok ({ c with set := Function.update c.set i true, length := c.length + 1 }, .inr .done)
  | .request (.insert r), c, .refill tail => do
    let c ← c.listAdd r.entry tail
    return (c, .inr .done)
  | .request (.scan _), c, .enter => do
    let p ← deref (c.links.next .head)
    return (c, .inl (.sweep 0 p false))
  | .request (.scan _), c, .sweep _ .head flag => .ok (c, .inr (.scanned flag))
  | .request (.scan clk), c, .sweep k (.slot i) flag =>
    if (c.list i).timestamp < clk k then do
      let p ← deref (c.links.prev (.slot i))
      let c ← c.listDel i
      return (c, .inl (.unset k i p))
    else do
      let p ← deref (c.links.next (.slot i))
      return (c, .inl (.sweep (k + 1) p flag))
  | .request (.scan _), c, .unset k i p => do
    let c := { c with set := Function.update c.set i false, length := c.length - 1 }
    let p ← deref (c.links.next p)
    return (c, .inl (.sweep (k + 1) p true))
  | .request .flush, c, .enter => .ok (c, .inl (.drop c.length.toNat 0))
  | .request .flush, c, .drop (n + 1) i => do
    let c ← c.listDel i
    return (c, .inl (.drop n (i + 1)))
  | .request .flush, c, .drop 0 _ => .ok (c.flushReset N, .inr .done)
  | .request (.output _), c, .enter => do
    let p ← deref (c.links.next .head)
    return (c, .inl (.print 0 p []))
  | .request (.output _), c, .print _ .head lines => .ok (c, .inr (.listing c.length lines))
  | .request (.output clk), c, .print k (.slot i) lines => do
    let p ← deref (c.links.next (.slot i))
    return (c, .inl (.print (k + 1) p (lines ++ [line (clk k) (c.list i)])))
  | .rotate temp, c, .enter => .ok (c, .inl (.move temp))
  | .rotate _, c, .move [] => .ok (c, .inr .done)
  | .rotate _, c, .move (i :: rest) => do
    let links ← mylistRotateNodeHead c.links (.slot i) .head
    return ({ c with links := links }, .inl (.move rest))

def spawned : CacheSection → SectionOut → List CacheSection
  | .request (.query ..), .found result => [.rotate (result.map Prod.snd)]
  | _, _ => []

def CacheSection.writes : CacheSection → Bool
  | .request (.query ..) => false
  | .request (.output _) => false
  | _ => true

theorem sectionStep_reads {N : Nat} (op : CacheSection) (c : LRUCache) (l : Local op) (c' : LRUCache)
    (x : Local op ⊕ SectionOut) (hr : op.writes = false) (h : sectionStep N op c l = .ok (c', x)) : c' = c := by
  -- a reader ends with its data, or reads something first
  have hret : ∀ {α : Type} {y : Exec α} {f : α → Local op ⊕ SectionOut},
      (y >>= fun a => .ok (c, f a)) = .ok (c', x) → c' = c := by
    intro α y f hy
    obtain ⟨a, -, hy⟩ := bind_ok.1 hy
    cases hy
    rfl
  unfold sectionStep at h
  split at h
  all_goals first
    | exact absurd hr Bool.noConfusion
    | (cases h; rfl)
    | exact hret h

/-- Operations and rotations as sections under `cache->lock`. -/
def cacheSections (N : Nat) : Sections LRUCache CacheRequest CacheSection Local SectionOut Fault where
  arrives := .request
  writes := CacheSection.writes
  start _ := .enter
  step := sectionStep N
  spawn := spawned
  reads := sectionStep_reads

/-! ### The steps come to the whole -/

namespace LRUCache
variable {N k i fuel : Nat} {clk : Nat → Nat} {c : LRUCache} {name : List UInt8} {type : UInt8} {p : Node}

theorem queryLoop_slot (query : DNSEntry) (acc : List (DNSEntry × Nat)) :
    queryLoop N clk c query (fuel + 1) k (.slot i) acc =
      (findNode N clk c query k i acc >>= fun r => queryLoop N clk c query fuel (k + 1) r.1 r.2) := by
  rw [queryLoop, findNode]
  dsimp only
  cases deref (c.list i).domainName with
  | error f => rfl
  | ok n =>
    cases deref query.domainName with
    | error f => rfl
    | ok wanted =>
      simp only [ok_bind]
      split
      · cases deref (c.list i).ip with
        | error f => rfl
        | ok ip =>
          simp only [ok_bind]
          split
          · cases deref (c.links.next (.slot i)) <;> rfl
          · rfl
      · cases deref (c.links.next (.slot i)) <;> rfl

theorem ends_find (acc : List (DNSEntry × Nat))
    (h : queryLoop N clk c (queryEntry name type clk) fuel k p acc ≠ .error .hang) :
    Ends (cacheSections N) (.request (.query name type clk)) c (.find k p acc)
      ((queryLoop N clk c (queryEntry name type clk) fuel k p acc).map fun found => (c, .found found)) := by
  induction fuel generalizing k p acc with
  | zero => exact absurd rfl h
  | succ fuel ih =>
    cases p with
    | head => exact .done rfl
    | slot i =>
      rw [queryLoop_slot] at h ⊢
      have hstep : (cacheSections N).step (.request (.query name type clk)) c (.find k (.slot i) acc) =
          (findNode N clk c (queryEntry name type clk) k i acc).map fun r => (c, .inl (.find (k + 1) r.1 r.2)) := rfl
      cases hf : findNode N clk c (queryEntry name type clk) k i acc with
      | error f =>
        rw [hf] at hstep
        exact .fault hstep
      | ok r =>
        rw [hf] at hstep h
        exact .more hstep (ih r.2 h)

theorem ends_print (lines : List Line) (h : outputLoop clk c fuel k p lines ≠ .error .hang) :
    Ends (cacheSections N) (.request (.output clk)) c (.print k p lines)
      ((outputLoop clk c fuel k p lines).map fun lines => (c, .listing c.length lines)) := by
  induction fuel generalizing k p lines with
  | zero => exact absurd rfl h
  | succ fuel ih =>
    cases p with
    | head => exact .done rfl
    | slot i =>
      have hstep : (cacheSections N).step (.request (.output clk)) c (.print k (.slot i) lines) =
          (deref (c.links.next (.slot i))).map fun p =>
            (c, .inl (.print (k + 1) p (lines ++ [line (clk k) (c.list i)]))) := rfl
      rw [outputLoop] at h ⊢
      cases hp : deref (c.links.next (.slot i)) with
      | error f =>
        rw [hp] at hstep
        exact .fault hstep
      | ok p =>
        rw [hp] at hstep h
        exact .more hstep (ih _ h)

theorem ends_sweep (flag : Bool) (h : scanLoop clk fuel k p c flag ≠ .error .hang) :
    Ends (cacheSections N) (.request (.scan clk)) c (.sweep k p flag)
      ((scanLoop clk fuel k p c flag).map fun r => (r.1, .scanned r.2)) := by
  induction fuel generalizing k p c flag with
  | zero => exact absurd rfl h
  | succ fuel ih =>
    cases p with
    | head => exact .done rfl
    | slot i =>
      have hstep : (cacheSections N).step (.request (.scan clk)) c (.sweep k (.slot i) flag) =
          if (c.list i).timestamp < clk k then
            deref (c.links.prev (.slot i)) >>= fun p => c.listDel i >>= fun c => .ok (c, .inl (.unset k i p))
          else deref (c.links.next (.slot i)) >>= fun p => .ok (c, .inl (.sweep (k + 1) p flag)) := rfl
      rw [scanLoop] at h ⊢
      by_cases hexp : (c.list i).timestamp < clk k
      · rw [if_pos hexp] at h hstep ⊢
        cases hp : deref (c.links.prev (.slot i)) with
        | error f =>
          rw [hp] at hstep
          exact .fault hstep
        | ok q =>
          rw [hp] at hstep h
          simp only [ok_bind] at hstep h ⊢
          cases hdel : c.listDel i with
          | error f =>
            rw [hdel] at hstep
            exact .fault hstep
          | ok c₁ =>
            rw [hdel] at hstep h
            simp only [ok_bind] at hstep h ⊢
            refine .more hstep ?_
            have hstep₁ : (cacheSections N).step (.request (.scan clk)) c₁ (.unset k i q) =
                (deref (c₁.links.next q)).map fun p => ({ c₁ with
                  set := Function.update c₁.set i false, length := c₁.length - 1 },
                  .inl (.sweep (k + 1) p true)) := rfl
            cases hq : deref (c₁.links.next q) with
            | error f =>
              rw [hq] at hstep₁
              exact .fault hstep₁
            | ok p =>
              rw [hq] at hstep₁ h
              exact .more hstep₁ (ih true h)
      · rw [if_neg hexp] at h hstep ⊢
        cases hp : deref (c.links.next (.slot i)) with
        | error f =>
          rw [hp] at hstep
          exact .fault hstep
        | ok p =>
          rw [hp] at hstep h
          exact .more hstep (ih flag h)

theorem ends_drop (n : Nat) : Ends (cacheSections N) (.request .flush) c (.drop n i)
    ((flushLoop n i c).map fun c => (c.flushReset N, .done)) := by
  induction n generalizing c i with
  | zero => exact .done rfl
  | succ n ih =>
    have hstep : (cacheSections N).step (.request .flush) c (.drop (n + 1) i) =
        (c.listDel i).map fun c => (c, .inl (.drop n (i + 1))) := rfl
    rw [flushLoop]
    cases hdel : c.listDel i with
    | error f =>
      rw [hdel] at hstep
      exact .fault hstep
    | ok c₁ =>
      rw [hdel] at hstep
      exact .more hstep ih

theorem ends_move {temp : List Nat} (rest : List Nat) : Ends (cacheSections N) (.rotate temp) c (.move rest)
    ((c.cacheRotate rest).map fun c => (c, .done)) := by
  induction rest generalizing c with
  | nil => exact .done rfl
  | cons i rest ih =>
    have hstep : (cacheSections N).step (.rotate temp) c (.move (i :: rest)) =
        (mylistRotateNodeHead c.links (.slot i) .head).map fun links =>
          ({ c with links := links }, .inl (.move rest)) := rfl
    rw [cacheRotate]
    cases hrot : mylistRotateNodeHead c.links (.slot i) .head with
    | error f =>
      rw [hrot] at hstep
      exact .fault hstep
    | ok links =>
      rw [hrot] at hstep
      exact .more hstep ih

/-! ### An insertion -/

theorem freeSlot_eq (hi : i < N) (hset : ∀ j < i, c.set j = true) (hfree : c.set i = false) : c.freeSlot N = i := by
  unfold freeSlot
  rw [List.findIdx_eq (by simpa using hi)]
  simpa [hfree] using hset

theorem freeSlot_none (hset : ∀ j < N, c.set j = true) : c.freeSlot N = N := by
  unfold freeSlot
  have hnone : (List.range N).findIdx (fun i => !c.set i) = (List.range N).length :=
    List.findIdx_eq_length.2 (by simpa using hset)
  rwa [List.length_range] at hnone

/-- What the insertion does with the free slot. -/
def insertAt (N : Nat) (c : LRUCache) (entry : DNSEntry) (i : Nat) : Exec LRUCache :=
  if i < N then do
    let c ← c.listAdd entry i
    return { c with set := Function.update c.set i true, length := c.length + 1 }
  else .error .write

theorem ends_seek (r : Record) (n : Nat) (hi : i + n = N) (hset : ∀ j < i, c.set j = true) :
    Ends (cacheSections N) (.request (.insert r)) c (.seek i)
      ((insertAt N c r.entry (c.freeSlot N)).map fun c => (c, .done)) := by
  induction n generalizing i with
  | zero =>
    have hiN : i = N := hi
    subst hiN
    rw [freeSlot_none hset, insertAt, if_neg (lt_irrefl i)]
    exact .fault (if_neg (lt_irrefl i))
  | succ n ih =>
    have hlt : i < N := by omega
    have hstep : (cacheSections N).step (.request (.insert r)) c (.seek i) =
        if c.set i then .ok (c, .inl (.seek (i + 1)))
        else c.listAdd r.entry i >>= fun c => .ok (c, .inl (.mark i)) := if_pos hlt
    cases hfree : c.set i with
    | true =>
      rw [hfree] at hstep
      refine .more hstep (ih (by omega) fun j hj => ?_)
      rcases Nat.lt_succ_iff_lt_or_eq.1 hj with hj | rfl
      · exact hset j hj
      · exact hfree
    | false =>
      rw [hfree] at hstep
      rw [freeSlot_eq hlt hset hfree, insertAt, if_pos hlt]
      cases hadd : c.listAdd r.entry i with
      | error f =>
        rw [hadd] at hstep
        exact .fault hstep
      | ok c₁ =>
        rw [hadd] at hstep
        exact .more hstep (.done rfl)

theorem cacheInsert_eq (r : Record) (hlt : c.length < N) :
    c.cacheInsert N r.entry = insertAt N c r.entry (c.freeSlot N) := if_pos hlt

theorem ends_insert (r : Record) : Ends (cacheSections N) (.request (.insert r)) c .enter
    ((c.cacheInsert N r.entry).map fun c => (c, .done)) := by
  by_cases hlt : c.length < N
  · have hstep : (cacheSections N).step (.request (.insert r)) c .enter = .ok (c, .inl (.seek 0)) := if_pos hlt
    rw [cacheInsert_eq r hlt]
    exact .more hstep (ends_seek r N (Nat.zero_add N) fun j hj => absurd hj (Nat.not_lt_zero j))
  · have hstep : (cacheSections N).step (.request (.insert r)) c .enter =
        (deref (c.links.prev .head) >>= fun
          | .head => .error .read
          | .slot tail =>
            if mylistIsLast c.links (.slot tail) .head then
              c.listDel tail >>= fun c => .ok (c, .inl (.refill tail))
            else .ok (c, .inr .done)) := if_neg hlt
    rw [cacheInsert, if_neg hlt]
    cases hp : deref (c.links.prev .head) with
    | error f =>
      rw [hp] at hstep
      exact .fault hstep
    | ok p =>
      rw [hp] at hstep
      cases p with
      | head => exact .fault hstep
      | slot tail =>
        simp only [ok_bind] at hstep ⊢
        by_cases hlast : mylistIsLast c.links (.slot tail) .head = true
        · rw [if_pos hlast] at hstep ⊢
          cases hdel : c.listDel tail with
          | error f =>
            rw [hdel] at hstep
            exact .fault hstep
          | ok c₁ =>
            rw [hdel] at hstep
            have hstep₁ : (cacheSections N).step (.request (.insert r)) c₁ (.refill tail) =
                (c₁.listAdd r.entry tail).map fun c => (c, .inr .done) := rfl
            simp only [ok_bind]
            cases hadd : c₁.listAdd r.entry tail with
            | error f =>
              rw [hadd] at hstep₁
              exact .more hstep (.fault hstep₁)
            | ok c₂ =>
              rw [hadd] at hstep₁
              exact .more hstep (.done hstep₁)
        · rw [if_neg hlast] at hstep ⊢
          exact .done hstep

end LRUCache

open LRUCache in
/-- Undisturbed, the steps of an operation come to what the operation comes to. -/
theorem ends_whole {N : Nat} {op : CacheSection} {c : LRUCache} (h : whole N op c ≠ .error .hang) :
    Ends (cacheSections N) op c .enter (whole N op c) := by
  cases op with
  | rotate temp => exact .more rfl (ends_move temp)
  | request q =>
    cases q with
    | insert r => exact ends_insert r
    | flush =>
      have hwhole : whole N (.request .flush) c =
          (flushLoop c.length.toNat 0 c).map fun c => (c.flushReset N, .done) := by
        rw [whole, cacheFlush]
        cases flushLoop c.length.toNat 0 c <;> rfl
      rw [hwhole]
      exact .more rfl (ends_drop c.length.toNat)
    | query name type clk =>
      have hstep : (cacheSections N).step (.request (.query name type clk)) c .enter =
          (deref (c.links.next .head)).map fun p => (c, .inl (.find 0 p [])) := rfl
      rw [whole, cacheQuery] at h ⊢
      cases hp : deref (c.links.next .head) with
      | error f =>
        rw [hp] at hstep
        exact .fault hstep
      | ok p =>
        rw [hp] at hstep h
        refine .more hstep (ends_find [] fun hhang => h ?_)
        simp only [ok_bind, hhang]
        rfl
    | scan clk =>
      have hstep : (cacheSections N).step (.request (.scan clk)) c .enter =
          (deref (c.links.next .head)).map fun p => (c, .inl (.sweep 0 p false)) := rfl
      rw [whole, cacheScan] at h ⊢
      cases hp : deref (c.links.next .head) with
      | error f =>
        rw [hp] at hstep
        exact .fault hstep
      | ok p =>
        rw [hp] at hstep h
        refine .more hstep (ends_sweep false fun hhang => h ?_)
        simp only [ok_bind, hhang]
        rfl
    | output clk =>
      have hstep : (cacheSections N).step (.request (.output clk)) c .enter =
          (deref (c.links.next .head)).map fun p => (c, .inl (.print 0 p [])) := rfl
      rw [whole, cacheOutput] at h ⊢
      cases hp : deref (c.links.next .head) with
      | error f =>
        rw [hp] at hstep
        exact .fault hstep
      | ok p =>
        rw [hp] at hstep h
        simp only [ok_bind, bind_assoc] at h ⊢
        have hloop : outputLoop clk c (walkFuel N) 0 p [] ≠ .error .hang → _ := ends_print (N := N) []
        cases hl : outputLoop clk c (walkFuel N) 0 p [] with
        | error f =>
          rw [hl] at hloop h
          exact .more hstep (hloop fun he => h (by cases he; rfl))
        | ok lines =>
          rw [hl] at hloop
          exact .more hstep (hloop fun he => by cases he)

end DnsRelay
