import DnsRelay.Lib.Tracks
import DnsRelay.PacketHeap

/-!
# The threads of the datagrams

`start` receives a datagram into the arguments of a new thread; the thread parses it, stores its answers or looks for
some, sends, releases the packet and the arguments, and then closes the socket in the arguments. The threads take turns
between these steps, in any order. This is here twice: with the packets as values, and with addresses on one heap. In
the first the threads count the blocks that they leave behind.
-/

namespace DnsRelay
open Alloc

variable {σ : Type}

/-- What a thread of `connectHandle` has behind it. -/
inductive Stage (β α : Type)
  | received (args : β)
  | parsed (args : β) (p : α)
  /-- `urlStore` -/
  | stored (args : β) (p : α)
  /-- `urlQuery`, which returned `ret` -/
  | queried (args : β) (p : α) (ret : Int)
  /-- `sendto` -/
  | sent (args : β) (p : α)
  /-- `free(args)` -/
  | released (args : β)
  /-- `socketClose(&args->connect)` -/
  | closed

def Stage.over {β α : Type} : Stage β α → Bool
  | closed => true
  | _ => false

def Stage.sent? {β α : Type} : Stage β α → Option (β × α)
  | sent args p => some (args, p)
  | _ => none

theorem Stage.sent?_eq {β α : Type} {st : Stage β α} {args : β} {p : α} (h : st.sent? = some (args, p)) :
    st = .sent args p := by
  rcases st <;> cases h
  rfl

/-! ### With values -/

/-- A thread; `left` counts the blocks that it lost the last pointer to. -/
structure Worker (σ : Type) where
  datagram : Datagram σ
  stage : Stage Unit Packet
  out : Option (Output σ)
  left : Nat

/-- The blocks of the answers that came with a request: `urlQuery` does not release them. -/
def dropped (p : Packet) : Nat := if p.ans = [] then 0 else 1 + p.ans.length

namespace Worker

/-- The next step of a thread. -/
def step (cfg : Config) (s : Server σ) (w : Worker σ) : Exec (Server σ × Worker σ) :=
  match w.stage with
  | .received args => do
    let p ← packetParse cfg.libc w.datagram.stale w.datagram.buf w.datagram.len
    return (s, { w with stage := .parsed args p })
  | .parsed args p =>
    if getQr p.flags = 1 then do
      let cache ← urlStore cfg.capacity w.datagram.clk p s.cache
      return ({ s with cache := cache }, { w with stage := .stored args p })
    else do
      let r ← urlQuery cfg.capacity cfg.host w.datagram.clk w.datagram.stale p s.cache
      return ({ s with cache := r.2.2 }, { w with stage := .queried args r.2.1 r.1, left := w.left + dropped p })
  | .stored args p =>
    let r := sendBack s.map p.id w.datagram.buf w.datagram.len
    .ok ({ s with map := r.2 }, { w with stage := .sent args p, out := r.1.map fun x => .reply x.1 x.2 })
  | .queried args p ret =>
    if ret = 0 then
      let r := s.map.addToMap p.id w.datagram.addr w.datagram.clk.check w.datagram.clk.added
      .ok ({ s with map := r.2 }, { w with
        stage := .sent args p
        out := if r.1 = uint16Max then none
          else some (.relay ((setId w.datagram.buf (UInt16.ofNat r.1)).take w.datagram.len)) })
    else do
      let r ← responseFormat cfg.libc w.datagram.stale p
      return (s, { w with
        stage := .sent args { p with ans := r.src.ans ++ p.ans.drop p.ancount.toNat }
        out := some (.reply w.datagram.addr r.sent) })
  | .sent args p => .ok (s, { w with stage := .released args, left := w.left + (p.ans.length - p.ancount.toNat) })
  | .released _ => .ok (s, { w with stage := .closed })
  | .closed => .ok (s, w)

end Worker

structure Workers (σ : Type) where
  server : Server σ
  threads : List (Worker σ)

inductive WorkEvent (σ : Type)
  /-- `recvfrom` returns a datagram, and a thread is created for it. -/
  | receive (d : Datagram σ)
  /-- `recvfrom` returns nothing, and leaves `a` in the arguments. -/
  | fail (a : ThreadArgs σ)
  | work (k : Nat)
  | scan (clk : Nat → Nat)

namespace Workers

def step (cfg : Config) (s : Workers σ) : WorkEvent σ → Exec (Workers σ)
  | .receive d => .ok { s with threads := s.threads ++ [⟨d, .received (), none, 0⟩] }
  | .fail _ => .ok s
  | .work k => match s.threads[k]? with
    | none => .ok s
    | some w => do
      let r ← w.step cfg s.server
      return ⟨r.1, s.threads.set k r.2⟩
  | .scan clk => do
    let r ← s.server.cache.cacheScan cfg.capacity clk
    return { s with server := { s.server with cache := r.1 } }

def run (cfg : Config) (s : Workers σ) (es : List (WorkEvent σ)) : Exec (Workers σ) := es.foldlM (step cfg) s

end Workers

/-! ### On the heap -/

/-- A thread; `socket` is what `socketClose` finds at the address of the arguments. -/
structure PtrWorker (σ : Type) where
  datagram : Datagram σ
  stage : Stage Nat Nat
  out : Option (Output σ)
  socket : Option (Except Misuse (PacketCell σ))

namespace PtrWorker

/-- `connectHandle` behind `urlStore`. -/
def answerBack (s : Server σ) (h : PacketHeap σ) (w : PtrWorker σ) (args p : Nat) :
    HeapExec (Server σ × PacketHeap σ × PtrWorker σ) := do
  let src ← cellAs PacketCell.packet? h p
  match s.map.queryMap src.id.toNat with
  | (none, map) => return ({ s with map := map }, h, { w with stage := .sent args p, out := none })
  | (some (origin, addr), map) => do
    let a ← cellAs PacketCell.args? h args
    let h ← onHeap (h.write args (.args { a with buf := setId a.buf origin }))
    let a ← cellAs PacketCell.args? h args
    return ({ s with map := map }, h,
      { w with stage := .sent args p, out := some (.reply addr (a.buf.take a.bufLen)) })

/-- `connectHandle` behind an `urlQuery` that returned 0. -/
def relay (s : Server σ) (h : PacketHeap σ) (w : PtrWorker σ) (args p : Nat) :
    HeapExec (Server σ × PacketHeap σ × PtrWorker σ) := do
  let src ← cellAs PacketCell.packet? h p
  let a ← cellAs PacketCell.args? h args
  let r := s.map.addToMap src.id a.addr w.datagram.clk.check w.datagram.clk.added
  if r.1 = uint16Max then return ({ s with map := r.2 }, h, { w with stage := .sent args p, out := none })
  else do
    let h ← onHeap (h.write args (.args { a with buf := setId a.buf (UInt16.ofNat r.1) }))
    let a ← cellAs PacketCell.args? h args
    return ({ s with map := r.2 }, h, { w with stage := .sent args p, out := some (.relay (a.buf.take a.bufLen)) })

/-- `connectHandle` behind an `urlQuery` that found something. -/
def respond (A : Allocator) (cfg : Config) (s : Server σ) (h : PacketHeap σ) (w : PtrWorker σ) (args p : Nat) :
    HeapExec (Server σ × PacketHeap σ × PtrWorker σ) := do
  let r ← PacketHeap.responseFormat A cfg.libc w.datagram.stale h p
  let buff ← cellAs PacketCell.bytes? r.1 r.2.1
  let a ← cellAs PacketCell.args? r.1 args
  let h ← onHeap (r.1.free (some r.2.1))
  return (s, h, { w with stage := .sent args p, out := some (.reply a.addr (buff.bytes.take r.2.2)) })

/-- The next step of a thread. -/
def step (A : Allocator) (cfg : Config) (s : Server σ) (h : PacketHeap σ) (w : PtrWorker σ) :
    HeapExec (Server σ × PacketHeap σ × PtrWorker σ) :=
  match w.stage with
  | .received args => do
    let r ← PacketHeap.packetParse A cfg.libc w.datagram.stale h args
    return (s, r.1, { w with stage := .parsed args r.2 })
  | .parsed args p => do
    let src ← cellAs PacketCell.packet? h p
    if getQr src.flags = 1 then do
      let cache ← PacketHeap.urlStore cfg.capacity w.datagram.clk h p s.cache
      return ({ s with cache := cache }, h, { w with stage := .stored args p })
    else do
      let r ← PacketHeap.urlQuery A cfg.capacity cfg.host w.datagram.clk w.datagram.stale h p s.cache
      return ({ s with cache := r.2.1 }, r.2.2, { w with stage := .queried args p r.1 })
  | .stored args p => answerBack s h w args p
  | .queried args p ret => if ret = 0 then relay s h w args p else respond A cfg s h w args p
  | .sent args p => do
    let h ← PacketHeap.packetFree h p
    let h ← onHeap (h.free (some args))
    return (s, h, { w with stage := .released args })
  | .released args => .ok (s, h, { w with stage := .closed, socket := some (h.read args) })
  | .closed => .ok (s, h, w)

end PtrWorker

structure PtrWorkers (σ : Type) where
  heap : PacketHeap σ
  server : Server σ
  threads : List (PtrWorker σ)

namespace PtrWorkers

def step (A : Allocator) (cfg : Config) (s : PtrWorkers σ) : WorkEvent σ → HeapExec (PtrWorkers σ)
  | .receive d =>
    let r := s.heap.malloc A (.args ⟨d.buf, d.len, d.addr⟩)
    .ok { s with heap := r.2, threads := s.threads ++ [⟨d, .received r.1, none, none⟩] }
  | .fail a => do
    let r := s.heap.malloc A (.args a)
    let h ← onHeap (r.2.free (some r.1))
    return { s with heap := h }
  | .work k => match s.threads[k]? with
    | none => .ok s
    | some w => do
      let r ← w.step A cfg s.server s.heap
      return ⟨r.2.1, r.1, s.threads.set k r.2.2⟩
  | .scan clk => do
    let r ← lift (s.server.cache.cacheScan cfg.capacity clk)
    return { s with server := { s.server with cache := r.1 } }

def run (A : Allocator) (cfg : Config) (s : PtrWorkers σ) (es : List (WorkEvent σ)) : HeapExec (PtrWorkers σ) :=
  es.foldlM (step A cfg) s

end PtrWorkers

/-! ### One thread after the other -/

/-- A thread that runs from its datagram to its end at once. -/
def WorkEvent.turn (k : Nat) (d : Datagram σ) : List (WorkEvent σ) := .receive d :: List.replicate 5 (.work k)

/-- The threads `k`, `k + 1`, ..., one after the other. -/
def WorkEvent.turns (k : Nat) : List (Datagram σ) → List (WorkEvent σ)
  | [] => []
  | d :: ds => turn k d ++ turns (k + 1) ds

namespace Workers
variable {cfg : Config} {s s' : Server σ} {ts : List (Worker σ)} {w w' : Worker σ} {es : List (WorkEvent σ)} {α : Type}
  {R : α → Workers σ → Prop} {x : Exec α}

/-- The newest thread takes a step. -/
theorem step_last (cfg : Config) (s : Server σ) (ts : List (Worker σ)) (w : Worker σ) :
    step cfg ⟨s, ts ++ [w]⟩ (.work ts.length) = (do
      let r ← w.step cfg s
      return ⟨r.1, ts ++ [r.2]⟩) := by
  unfold step
  simp

theorem step_tracks (hw : w.step cfg s = .ok (s', w')) (h : Tracks id R x (run cfg ⟨s', ts ++ [w']⟩ es)) :
    Tracks id R x (run cfg ⟨s, ts ++ [w]⟩ (.work ts.length :: es)) := by
  unfold run at h ⊢
  rw [List.foldlM_cons, step_last, hw]
  exact h

theorem step_fails {e : Fault} (hw : w.step cfg s = .error e) :
    Tracks id R (.error e) (run cfg ⟨s, ts ++ [w]⟩ (.work ts.length :: es)) := by
  unfold run
  rw [List.foldlM_cons, step_last, hw]
  exact .error e

/-- The thread of `d` is done, behind the threads `ts`, and the server and its output are those of `r`. -/
def Closes (ts : List (Worker σ)) (d : Datagram σ) (r : Server σ × Option (Output σ)) (v : Workers σ) : Prop :=
  v.server = r.1 ∧ ∃ left, v.threads = ts ++ [⟨d, .closed, r.2, left⟩]

section Turn
variable {d : Datagram σ} {p : Packet} {out : Option (Output σ)} {left : Nat}

theorem run_sent : Tracks id (Closes ts d) (.ok (s, out))
    (run cfg ⟨s, ts ++ [⟨d, .sent () p, out, left⟩]⟩ (List.replicate 2 (.work ts.length))) :=
  step_tracks rfl (step_tracks rfl (.ok ⟨rfl, left + (p.ans.length - p.ancount.toNat), rfl⟩))

theorem run_response (hqr : getQr p.flags = 1) : Tracks id (Closes ts d) (Server.handleResponse cfg s d p)
    (run cfg ⟨s, ts ++ [⟨d, .parsed () p, none, 0⟩]⟩ (List.replicate 4 (.work ts.length))) := by
  unfold Server.handleResponse
  rcases hstore : urlStore cfg.capacity d.clk p s.cache with e | cache
  · refine step_fails ?_
    simp [Worker.step, hqr, hstore]
  · have hstored : Worker.step cfg s ⟨d, .parsed () p, none, 0⟩ = .ok (⟨cache, s.map⟩, ⟨d, .stored () p, none, 0⟩) := by
      simp [Worker.step, hqr, hstore]
    exact step_tracks hstored (step_tracks rfl run_sent)

theorem run_request (hqr : getQr p.flags ≠ 1) : Tracks id (Closes ts d) (Server.handleRequest cfg s d p)
    (run cfg ⟨s, ts ++ [⟨d, .parsed () p, none, 0⟩]⟩ (List.replicate 4 (.work ts.length))) := by
  unfold Server.handleRequest
  rcases hq : urlQuery cfg.capacity cfg.host d.clk d.stale p s.cache with e | ⟨ret, p', cache⟩
  · refine step_fails ?_
    simp [Worker.step, hqr, hq]
  have hqueried : Worker.step cfg s ⟨d, .parsed () p, none, 0⟩ =
      .ok (⟨cache, s.map⟩, ⟨d, .queried () p' ret, none, dropped p⟩) := by
    simp [Worker.step, hqr, hq]
  refine step_tracks hqueried ?_
  rw [Exec.ok_bind]
  dsimp only
  by_cases hret : ret = 0
  · rw [if_pos hret]
    have hsent : Worker.step cfg ⟨cache, s.map⟩ ⟨d, .queried () p' ret, none, dropped p⟩ =
        .ok (⟨cache, (s.map.addToMap p'.id d.addr d.clk.check d.clk.added).2⟩, ⟨d, .sent () p',
          if (s.map.addToMap p'.id d.addr d.clk.check d.clk.added).1 = uint16Max then none
          else some (.relay ((setId d.buf (UInt16.ofNat
            (s.map.addToMap p'.id d.addr d.clk.check d.clk.added).1)).take d.len)), dropped p⟩) := by
      simp [Worker.step, hret]
    refine step_tracks hsent ?_
    by_cases hbusy : (s.map.addToMap p'.id d.addr d.clk.check d.clk.added).1 = uint16Max
    · rw [if_pos hbusy, if_pos hbusy]
      exact run_sent
    · rw [if_neg hbusy, if_neg hbusy]
      exact run_sent
  · rw [if_neg hret]
    rcases hr : responseFormat cfg.libc d.stale p' with e | r
    · refine step_fails ?_
      simp [Worker.step, hret, hr]
    · have hsent : Worker.step cfg ⟨cache, s.map⟩ ⟨d, .queried () p' ret, none, dropped p⟩ =
          .ok (⟨cache, s.map⟩, ⟨d, .sent () { p' with ans := r.src.ans ++ p'.ans.drop p'.ancount.toNat },
            some (.reply d.addr r.sent), dropped p⟩) := by
        simp [Worker.step, hret, hr]
      exact step_tracks hsent run_sent

/-- The thread that was just created is run to its end: that is `connectHandle`. -/
theorem run_turn (cfg : Config) (s : Server σ) (ts : List (Worker σ)) (d : Datagram σ) :
    Tracks id (Closes ts d) (Server.connectHandle cfg s d) (run cfg ⟨s, ts⟩ (WorkEvent.turn ts.length d)) := by
  change Tracks _ _ _ (run cfg ⟨s, ts ++ [⟨d, .received (), none, 0⟩]⟩ (List.replicate 5 (.work ts.length)))
  unfold Server.connectHandle
  rcases hp : packetParse cfg.libc d.stale d.buf d.len with e | p
  · refine step_fails ?_
    simp [Worker.step, hp]
  have hparsed : Worker.step cfg s ⟨d, .received (), none, 0⟩ = .ok (s, ⟨d, .parsed () p, none, 0⟩) := by
    simp [Worker.step, hp]
  refine step_tracks hparsed ?_
  rw [Exec.ok_bind]
  by_cases hqr : getQr p.flags = 1
  · rw [if_pos hqr]
    exact run_response hqr
  · rw [if_neg hqr]
    exact run_request hqr

end Turn

/-- Thread after thread: that is the run of the server on these datagrams. -/
theorem run_turns {v : Workers σ} {ds : List (Datagram σ)}
    (hrun : run cfg ⟨s, ts⟩ (WorkEvent.turns ts.length ds) = .ok v) :
    ∃ ws, v.threads = ts ++ ws ∧ Server.run cfg (some s) (ds.map .datagram) = (some v.server, ws.map Worker.out) := by
  induction ds generalizing s ts with
  | nil =>
    cases hrun
    exact ⟨[], (List.append_nil ts).symm, rfl⟩
  | cons d ds ih =>
    unfold WorkEvent.turns run at hrun
    rw [List.foldlM_append] at hrun
    obtain ⟨⟨s', ts'⟩, hturn, hrun⟩ := Exec.bind_ok.1 hrun
    obtain ⟨⟨s₁, out⟩, hhandle, hserver, left, hts⟩ := (run_turn cfg s ts d).ok_of hturn
    change s' = s₁ at hserver
    change ts' = _ at hts
    subst hserver hts
    have hlen : (ts ++ [(⟨d, .closed, out, left⟩ : Worker σ)]).length = ts.length + 1 := List.length_append
    rw [← hlen] at hrun
    obtain ⟨ws, hws, hserve⟩ := ih hrun
    refine ⟨⟨d, .closed, out, left⟩ :: ws, ?_, ?_⟩
    · rw [hws, List.append_assoc]
      rfl
    · have hstep : Server.step cfg (some s) (.datagram d) = (some s', out) := by
        simp only [Server.step, Server.handle, hhandle]
      unfold Server.run at hserve ⊢
      rw [List.map_cons, Transducer.total, hstep]
      dsimp only
      rw [hserve]
      rfl

end Workers

end DnsRelay
