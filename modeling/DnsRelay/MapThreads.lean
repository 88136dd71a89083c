import DnsRelay.IdMap
import DnsRelay.Lib.Alloc

/-!
# `Server/map.c`, one access at a time

The lock of `addToMap` covers the counter only. Everything else that the threads do to `__ID_MAP__` and to the nodes
it points to is cut here into single accesses, between which any other thread may run: `__ID_MAP__[converted]->_f`
loads the pointer, and then follows it. The nodes are allocated and released; a field of a new node that was not
written yet has no value.
-/

namespace DnsRelay
open Alloc

/-- `MapNode` in memory -/
structure NodeCell (σ : Type) where
  timeOut : Option Nat
  origin : Option UInt16
  last : Option Nat
  fromAddr : Option σ

structure SharedMap (σ : Type) where
  heap : Heap (NodeCell σ)
  nodes : Nat → Option Nat
  alloc : Nat

inductive MapFault
  | null
  | misuse (m : Misuse)
  /-- A field is read that was not written. -/
  | unset
deriving DecidableEq

abbrev MapExec := Except MapFault

/-- The arguments of `addToMap`, the serial it drew, and the two readings of the clock. -/
structure AddCall (σ : Type) where
  serial : Nat
  origin : UInt16
  addr : σ
  t₁ : Nat
  t₂ : Nat
deriving DecidableEq

def AddCall.slot {σ : Type} (c : AddCall σ) : Nat := c.serial % maxMapSize

/-- The expressions that follow `__ID_MAP__[converted]`. -/
inductive Access (σ : Type)
  | checkTimeOut (c : AddCall σ)
  | setTimeOut (c : AddCall σ) (temp : Option Nat)
  | setOrigin (c : AddCall σ) (temp : Option Nat)
  | setLast (c : AddCall σ) (temp : Option Nat)
  | setFrom (c : AddCall σ) (temp : Option Nat)
  | checkLast (serial : Nat)
  | getOrigin (serial : Nat)
  | getFrom (serial : Nat) (origin : UInt16)

/-- What a thread does next. -/
inductive Point (σ : Type)
  /-- `addToMap`: the section under the lock -/
  | draw (origin : UInt16) (addr : σ)
  /-- `__ID_MAP__[converted] != NULL` -/
  | taken (c : AddCall σ)
  /-- `temp = __ID_MAP__[converted]` -/
  | save (c : AddCall σ)
  /-- `__ID_MAP__[converted] = malloc(..)` -/
  | new (c : AddCall σ) (temp : Option Nat)
  /-- `free(temp)` -/
  | release (c : AddCall σ) (temp : Option Nat)
  /-- `queryMap`: `__ID_MAP__[converted] == NULL` -/
  | found (serial : Nat)
  | saveOld (serial : Nat) (origin : UInt16) (addr : σ)
  /-- `__ID_MAP__[converted] = NULL` -/
  | clear (serial : Nat) (origin : UInt16) (addr : σ) (temp : Option Nat)
  | releaseOld (serial : Nat) (origin : UInt16) (addr : σ) (temp : Option Nat)
  | load (a : Access σ)
  | follow (a : Access σ) (p : Nat)

/-- The calls as they take effect, each at once: the counter, the rest of `addToMap`, `queryMap`. -/
inductive MapOp (σ : Type)
  | draw
  | fill (c : AddCall σ)
  | query (serial : Nat)
deriving DecidableEq

inductive MapOut (σ : Type)
  | serial (x : Nat)
  | node (result : Option (UInt16 × σ))
deriving DecidableEq

/-! ### Single steps -/

section
variable {σ : Type}

def Access.slot : Access σ → Nat
  | checkTimeOut c | setTimeOut c _ | setOrigin c _ | setLast c _ | setFrom c _ => c.slot
  | checkLast serial | getOrigin serial | getFrom serial _ => serial % maxMapSize

/-- The value of a field. -/
def field {α : Type} : Option α → MapExec α
  | none => .error .unset
  | some v => .ok v

/-- What a step leads to: the next point, or an effect that is complete, after which the thread may go on. -/
inductive Next (σ : Type)
  | goOn (pt : Point σ)
  | effect (op : MapOp σ) (out : MapOut σ) (pt : Option (Point σ))

namespace SharedMap

def onHeap {α : Type} (x : Except Misuse α) : MapExec α := x.mapError .misuse

/-- The write to a field of the node at `p`. -/
def put (m : SharedMap σ) (p : Nat) (f : NodeCell σ → NodeCell σ) : MapExec (SharedMap σ) := do
  let node ← onHeap (m.heap.read p)
  let heap ← onHeap (m.heap.write p (f node))
  return { m with heap := heap }

/-- An access that follows the pointer `p`, at time `now`. -/
def follow (m : SharedMap σ) (now p : Nat) : Access σ → MapExec (SharedMap σ × Next σ)
  | .checkTimeOut c => do
    let node ← onHeap (m.heap.read p)
    let timeOut ← field node.timeOut
    let c := { c with t₁ := now }
    if now < timeOut then return (m, .effect (.fill c) (.serial uint16Max) none)
    else return (m, .goOn (.save c))
  | .setTimeOut c temp => do
    let m ← m.put p fun node => { node with timeOut := some (now + convertTtl) }
    return (m, .goOn (.load (.setOrigin { c with t₂ := now } temp)))
  | .setOrigin c temp => do
    let m ← m.put p fun node => { node with origin := some c.origin }
    return (m, .goOn (.load (.setLast c temp)))
  | .setLast c temp => do
    let m ← m.put p fun node => { node with last := some (c.serial / maxMapSize) }
    return (m, .goOn (.load (.setFrom c temp)))
  | .setFrom c temp => do
    let m ← m.put p fun node => { node with fromAddr := some c.addr }
    return (m, .goOn (.release c temp))
  | .checkLast serial => do
    let node ← onHeap (m.heap.read p)
    let last ← field node.last
    if last ≠ serial / maxMapSize then return (m, .effect (.query serial) (.node none) none)
    else return (m, .goOn (.load (.getOrigin serial)))
  | .getOrigin serial => do
    let node ← onHeap (m.heap.read p)
    let origin ← field node.origin
    return (m, .goOn (.load (.getFrom serial origin)))
  | .getFrom serial origin => do
    let node ← onHeap (m.heap.read p)
    let addr ← field node.fromAddr
    return (m, .goOn (.saveOld serial origin addr))

/-- The next access of a thread, at time `now`. -/
def step (A : Allocator) (m : SharedMap σ) (now : Nat) : Point σ → MapExec (SharedMap σ × Next σ)
  | .draw origin addr =>
    let serial := (m.alloc + 1) % uint16Max
    .ok ({ m with alloc := serial }, .effect .draw (.serial serial) (some (.taken ⟨serial, origin, addr, 0, 0⟩)))
  | .taken c => match m.nodes c.slot with
    | none => .ok (m, .goOn (.save c))
    | some _ => .ok (m, .goOn (.load (.checkTimeOut c)))
  | .save c => .ok (m, .goOn (.new c (m.nodes c.slot)))
  | .new c temp =>
    let (p, heap) := m.heap.malloc A ⟨none, none, none, none⟩
    .ok ({ m with heap := heap, nodes := Function.update m.nodes c.slot (some p) },
      .goOn (.load (.setTimeOut c temp)))
  | .release c temp => do
    let heap ← onHeap (m.heap.free temp)
    return ({ m with heap := heap }, .effect (.fill c) (.serial c.serial) none)
  | .found serial => match m.nodes (serial % maxMapSize) with
    | none => .ok (m, .effect (.query serial) (.node none) none)
    | some _ => .ok (m, .goOn (.load (.checkLast serial)))
  | .saveOld serial origin addr => .ok (m, .goOn (.clear serial origin addr (m.nodes (serial % maxMapSize))))
  | .clear serial origin addr temp =>
    .ok ({ m with nodes := Function.update m.nodes (serial % maxMapSize) none },
      .goOn (.releaseOld serial origin addr temp))
  | .releaseOld serial origin addr temp => do
    let heap ← onHeap (m.heap.free temp)
    return ({ m with heap := heap }, .effect (.query serial) (.node (some (origin, addr))) none)
  | .load a => match m.nodes a.slot with
    | none => .error .null
    | some p => .ok (m, .goOn (.follow a p))
  | .follow a p => m.follow now p a

end SharedMap

/-! ### Threads -/

/-- A call that a thread makes. -/
inductive MapCall (σ : Type)
  | add (origin : UInt16) (addr : σ)
  | query (serial : Nat)

def MapCall.start : MapCall σ → Point σ
  | add origin addr => .draw origin addr
  | query serial => .found serial

/-- A thread: the number of its call, and where it stands. -/
structure MapThread (σ : Type) where
  call : Nat
  point : Point σ

/-- `log` holds the effects in the order in which they were complete, with the numbers of their calls. -/
structure MapState (σ : Type) where
  map : SharedMap σ
  calls : List (MapCall σ)
  threads : List (MapThread σ)
  log : List (Nat × MapOp σ × MapOut σ)

/-- A call is made, or the thread at a position of the list runs, at some time. -/
inductive MapEvent (σ : Type)
  | arrive (call : MapCall σ)
  | run (k now : Nat)

def mapStep (A : Allocator) (s : MapState σ) : MapEvent σ → MapExec (MapState σ)
  | .arrive call => .ok { s with
      calls := s.calls ++ [call]
      threads := s.threads ++ [⟨s.calls.length, call.start⟩] }
  | .run k now => match s.threads[k]? with
    | none => .ok s
    | some t => match s.map.step A now t.point with
      | .error f => .error f
      | .ok (m, .goOn pt) => .ok { s with map := m, threads := s.threads.set k ⟨t.call, pt⟩ }
      | .ok (m, .effect op out none) => .ok { s with
          map := m
          threads := s.threads.eraseIdx k
          log := s.log ++ [(t.call, op, out)] }
      | .ok (m, .effect op out (some pt)) => .ok { s with
          map := m
          threads := s.threads.set k ⟨t.call, pt⟩
          log := s.log ++ [(t.call, op, out)] }

def mapRun (A : Allocator) (s : MapState σ) (es : List (MapEvent σ)) : MapExec (MapState σ) := es.foldlM (mapStep A) s

/-- The empty table, in a heap that other parts of the program use. -/
def MapState.init (heap : Heap (NodeCell σ)) : MapState σ := ⟨⟨heap, fun _ => none, 0⟩, [], [], []⟩

/-! ### Who works on which slot -/

/-- The slot that a thread has begun to work on. -/
def Point.inside : Point σ → Option Nat
  | draw .. | taken _ | found _ => none
  | save c | new c _ | release c _ => some c.slot
  | saveOld serial .. | clear serial .. | releaseOld serial .. => some (serial % maxMapSize)
  | load a | follow a _ => some a.slot

/-- The slot that the next step begins to work on. -/
def Point.enters : Point σ → Option Nat
  | taken c => some c.slot
  | found serial => some (serial % maxMapSize)
  | _ => none

/-- The step does not begin to work on a slot that another thread is at work on. -/
def enterable (s : MapState σ) : MapEvent σ → Bool
  | .arrive _ => true
  | .run k _ => match s.threads[k]? with
    | none => true
    | some t => match t.point.enters with
      | none => true
      | some c => s.threads.all fun x => x.point.inside != some c

/-- In this schedule no two threads work on one slot at a time. -/
def exclusive (A : Allocator) : MapState σ → List (MapEvent σ) → Bool
  | _, [] => true
  | s, e :: es => enterable s e && match mapStep A s e with
    | .error _ => true
    | .ok s => exclusive A s es

/-! ### Each effect at once -/

namespace IdMap

/-- `addToMap` behind the counter -/
def fill (m : IdMap σ) (c : AddCall σ) : Nat × IdMap σ :=
  if m.busy c.slot c.t₁ then (uint16Max, m)
  else (c.serial, { m with
    nodes := Function.update m.nodes c.slot
      (some ⟨c.serial / maxMapSize, c.origin, c.addr, c.t₂ + convertTtl⟩) })

def apply (m : IdMap σ) : MapOp σ → IdMap σ × MapOut σ
  | .draw => ({ m with alloc := m.nextSerial }, .serial m.nextSerial)
  | .fill c =>
    let (x, m) := m.fill c
    (m, .serial x)
  | .query serial =>
    let (result, m) := m.queryMap serial
    (m, .node result)

/-- The counter and the rest, one after the other, are `addToMap`. -/
theorem fill_draw (m : IdMap σ) (origin : UInt16) (addr : σ) (t₁ t₂ : Nat) :
    IdMap.fill (m.apply .draw).1 ⟨m.nextSerial, origin, addr, t₁, t₂⟩ = m.addToMap origin addr t₁ t₂ := rfl

end IdMap

end

end DnsRelay
