import DnsRelay.IdMap
import DnsRelay.Message
import DnsRelay.QuerySpec

/-!
# `Server/basic.c`: datagrams and the cache scan

`connectHandle` is what happens to one datagram. A run of the server is a sequence of events, each
processed to its end: datagrams with their source addresses and the timer's cache scan. A fault in
one of them ends the process, except that a loop which never ends only occupies its own thread.
-/

namespace DnsRelay
open Exec

/-- What stays fixed while the server runs: the C library, the capacity of the cache and the host
table. -/
structure Config where
  libc : Libc
  capacity : Nat
  host : Option HostMap

/-- A cache of four slots and no host table. -/
def smallConfig : Config := ⟨.decimal, 4, none⟩

/-- `__URL_CACHE__` and the ID map. -/
structure Server (σ : Type) where
  cache : LRUCache
  map : IdMap σ

inductive Output (σ : Type)
  | reply (addr : σ) (bytes : List UInt8)
  | relay (bytes : List UInt8)
deriving DecidableEq

def bufferSize : Nat := 1024

/-- A datagram that `recvfrom` put at the start of `buf`: `len` bytes, followed by what the rest of the
array and the memory behind it hold. -/
structure Datagram (σ : Type) where
  addr : σ
  buf : List UInt8
  len : Nat
  stale : Stale
  clk : Clock
  fits : bufferSize ≤ buf.length
  bounds : 0 < len ∧ len ≤ bufferSize

theorem requestFor_bounds (type : UInt16) (c : UInt8) :
    0 < (requestFor type [c]).length ∧ (requestFor type [c]).length ≤ bufferSize :=
  ⟨show 0 < 19 by decide, show 19 ≤ 1024 by decide⟩

theorem responseFor_bounds (id : UInt16) (c : UInt8) :
    0 < (responseFor id [c]).length ∧ (responseFor id [c]).length ≤ bufferSize :=
  ⟨show 0 < 35 by decide, show 35 ≤ 1024 by decide⟩

/-- A datagram in zeroed memory, processed while the clock reads `t`. -/
def Datagram.at {σ : Type} (addr : σ) (bytes : List UInt8) (t : Nat)
    (h : 0 < bytes.length ∧ bytes.length ≤ bufferSize) : Datagram σ :=
  ⟨addr, bytes ++ List.replicate bufferSize 0, bytes.length, .zero, .const t, by simp, h⟩

/-- The client 5 asks for the name of the one letter `c`. -/
def Datagram.request (type : UInt16) (c : UInt8) (t : Nat) : Datagram Nat :=
  .at 5 (requestFor type [c]) t (requestFor_bounds type c)

/-- A response to such a request, from the address 66. -/
def Datagram.response (id : UInt16) (c : UInt8) (t : Nat) : Datagram Nat :=
  .at 66 (responseFor id [c]) t (responseFor_bounds id c)

inductive Event (σ : Type)
  | datagram (d : Datagram σ)
  | scan (clk : Nat → Nat)

namespace Server
variable {σ : Type}

/-- A server whose cache array held `list` and `links` when it was allocated. -/
def init (list : Nat → DNSEntry) (links : Links Node) : Server σ := ⟨.init list links, .init⟩

/-- A fresh server in memory that was all zero. -/
def zeroed : Server σ := .init (fun _ => ⟨none, none, 0, 0, 0⟩) ⟨fun _ => none, fun _ => none⟩

/-- `connectHandle` on a response. -/
def handleResponse (cfg : Config) (s : Server σ) (d : Datagram σ) (p : Packet) :
    Exec (Server σ × Option (Output σ)) := do
  let cache ← urlStore cfg.capacity d.clk p s.cache
  let (out, map) := sendBack s.map p.id d.buf d.len
  return (⟨cache, map⟩, out.map fun x => .reply x.1 x.2)

/-- `connectHandle` on a request. -/
def handleRequest (cfg : Config) (s : Server σ) (d : Datagram σ) (p : Packet) :
    Exec (Server σ × Option (Output σ)) := do
  let (ret, p, cache) ← urlQuery cfg.capacity cfg.host d.clk d.stale p s.cache
  if ret = 0 then
    let (converted, map) := s.map.addToMap p.id d.addr d.clk.check d.clk.added
    if converted = uint16Max then return (⟨cache, map⟩, none)
    else return (⟨cache, map⟩, some (.relay ((setId d.buf (UInt16.ofNat converted)).take d.len)))
  else
    let r ← responseFormat cfg.libc d.stale p
    return (⟨cache, s.map⟩, some (.reply d.addr r.sent))

def connectHandle (cfg : Config) (s : Server σ) (d : Datagram σ) : Exec (Server σ × Option (Output σ)) := do
  let p ← packetParse cfg.libc d.stale d.buf d.len
  if getQr p.flags = 1 then handleResponse cfg s d p else handleRequest cfg s d p

def handle (cfg : Config) (s : Server σ) : Event σ → Exec (Server σ × Option (Output σ))
  | .datagram d => connectHandle cfg s d
  | .scan clk => do
    let (cache, _) ← s.cache.cacheScan cfg.capacity clk
    return ({ s with cache := cache }, none)

/-- One event; `none` is the state after a crash. -/
def step (cfg : Config) (s : Option (Server σ)) (e : Event σ) : Option (Server σ) × Option (Output σ) :=
  match s with
  | none => (none, none)
  | some s => match handle cfg s e with
    | .ok (s, out) => (some s, out)
    | .error .hang => (some s, none)
    | .error _ => (none, none)

/-- A run: the state it ends in and what each event sent. -/
def run (cfg : Config) (s : Option (Server σ)) (es : List (Event σ)) :
    Option (Server σ) × List (Option (Output σ)) :=
  Transducer.total (step cfg) s es

/-! ### What a run keeps -/

/-- The event is a response whose parse is `p`. -/
def Responds (cfg : Config) (e : Event σ) (d : Datagram σ) (p : Packet) : Prop :=
  e = .datagram d ∧ packetParse cfg.libc d.stale d.buf d.len = .ok p ∧ getQr p.flags = 1

/-- The event stored the record `r`. -/
def Stored (cfg : Config) (r : Record) (e : Event σ) : Prop :=
  ∃ d p rs, Responds cfg e d p ∧ p.records d.clk.store = .ok rs ∧ r ∈ rs

/-- The cache is well formed, and its records come from the responses among `es`. -/
def Sourced (cfg : Config) (es : List (Event σ)) (s : Server σ) : Prop :=
  ∃ slots L, Holds cfg.capacity s.cache slots L ∧ ∀ r ∈ L, ∃ e ∈ es, Stored cfg r e

variable {cfg : Config} {s s' : Server σ} {d : Datagram σ} {es : List (Event σ)} {e : Event σ}
  {p : Packet} {out : Option (Output σ)} {lines : List HostLine}

theorem Stored.mono {es es' : List (Event σ)} (h : es ⊆ es') {L : List Record}
    (hL : ∀ r ∈ L, ∃ e ∈ es, Stored cfg r e) : ∀ r ∈ L, ∃ e ∈ es', Stored cfg r e := fun r hr => by
  obtain ⟨e, he, hs⟩ := hL r hr
  exact ⟨e, h he, hs⟩

theorem handleResponse_ok (h : handleResponse cfg s d p = .ok (s', out)) :
    ∃ cache, urlStore cfg.capacity d.clk p s.cache = .ok cache ∧
      s' = ⟨cache, (sendBack s.map p.id d.buf d.len).2⟩ ∧
      out = (sendBack s.map p.id d.buf d.len).1.map fun x => .reply x.1 x.2 := by
  obtain ⟨cache, hs, h⟩ := bind_ok.1 h
  cases h
  exact ⟨cache, hs, rfl, rfl⟩

/-- A request is relayed, refused, or answered. -/
theorem handleRequest_ok (h : handleRequest cfg s d p = .ok (s', out)) :
    ∃ ret p' cache, urlQuery cfg.capacity cfg.host d.clk d.stale p s.cache = .ok (ret, p', cache) ∧
      s'.cache = cache ∧
      (ret = 0 ∧ (out = none ∨ ∃ bytes, out = some (.relay bytes)) ∨
        ret ≠ 0 ∧ ∃ r, responseFormat cfg.libc d.stale p' = .ok r ∧ out = some (.reply d.addr r.sent)) := by
  obtain ⟨⟨ret, p', cache⟩, hq, h⟩ := bind_ok.1 h
  refine ⟨ret, p', cache, hq, ?_⟩
  dsimp only at h
  split at h
  case isTrue hret =>
    split at h
    · cases h; exact ⟨rfl, .inl ⟨hret, .inl rfl⟩⟩
    · cases h; exact ⟨rfl, .inl ⟨hret, .inr ⟨_, rfl⟩⟩⟩
  case isFalse hret =>
    obtain ⟨r, hr, h⟩ := bind_ok.1 h
    cases h
    exact ⟨rfl, .inr ⟨hret, r, hr, rfl⟩⟩

theorem Sourced.init (cfg : Config) (list : Nat → DNSEntry) (links : Links Node) :
    Sourced cfg [] (Server.init list links : Server σ) :=
  ⟨[], [], Holds.init cfg.capacity list links, nofun⟩

/-- What one event keeps. -/
theorem Sourced.handle (h : Sourced cfg es s) (hN : 1 ≤ cfg.capacity) (hhost : Hosts cfg.host lines)
    (hs : handle cfg s e = .ok (s', out)) : Sourced cfg (es ++ [e]) s' := by
  obtain ⟨slots, L, hc, hL⟩ := h
  have hL' : ∀ r ∈ L, ∃ e' ∈ es ++ [e], Stored cfg r e' := Stored.mono (List.subset_append_left es [e]) hL
  cases e with
  | scan clk =>
    obtain ⟨c', slots', h₁, h₂⟩ := hc.cacheScan clk
    rw [Server.handle, h₁] at hs
    cases hs
    exact ⟨slots', _, h₂, fun r hr => hL' r ((Recency.keep_sublist _ _ _).subset hr)⟩
  | datagram d =>
    obtain ⟨p, hp, hs⟩ := bind_ok.1 hs
    split at hs
    case isTrue hqr =>
      obtain ⟨cache, hstore, rfl, -⟩ := handleResponse_ok hs
      obtain ⟨rs, slots', hrs, h'⟩ := hc.urlStore hN hstore
      refine ⟨slots', _, h', fun r hr => ?_⟩
      rcases Recency.mem_insertAll hr with hr | hr
      · exact ⟨.datagram d, by simp, d, p, rs, ⟨rfl, hp, hqr⟩, hrs, hr⟩
      · exact hL' r hr
    case isFalse =>
      obtain ⟨ret, p', cache, hq, rfl, -⟩ := handleRequest_ok hs
      obtain ⟨slots', L', h', hperm⟩ := hc.urlQuery hhost hq
      exact ⟨slots', L', h', fun r hr => hL' r (hperm.subset hr)⟩

theorem step_some {o : Option (Output σ)} (h : step cfg (some s) e = (some s', o)) :
    handle cfg s e = .ok (s', o) ∨ s' = s ∧ o = none := by
  rw [step] at h
  split at h
  · rename_i s₁ out₁ heq
    cases h
    exact .inl heq
  · cases h; exact .inr ⟨rfl, rfl⟩
  · cases h

theorem run_none (cfg : Config) (es : List (Event σ)) : (run cfg none es).1 = none := by
  induction es with
  | nil => rfl
  | cons e es ih => exact ih

/-- A server that survives a run survives its first event. -/
theorem run_cons_some (h : (run cfg (some s) (e :: es)).1 = some s') :
    ∃ s₁ o, step cfg (some s) e = (some s₁, o) ∧ (run cfg (some s₁) es).1 = some s' := by
  change (run cfg (step cfg (some s) e).1 es).1 = some s' at h
  cases hstep : step cfg (some s) e with
  | mk s₁ o =>
  rw [hstep] at h
  cases s₁ with
  | none =>
    rw [run_none] at h
    cases h
  | some s₁ => exact ⟨s₁, o, rfl, h⟩

/-- Whatever the events, a server that is still running has a cache whose records come from the
responses among them. -/
theorem run_sourced (hN : 1 ≤ cfg.capacity) (hhost : Hosts cfg.host lines) {es' : List (Event σ)}
    (h : Sourced cfg es s) (hr : (run cfg (some s) es').1 = some s') : Sourced cfg (es ++ es') s' := by
  induction es' generalizing es s with
  | nil =>
    cases hr
    rwa [List.append_nil]
  | cons e es' ih =>
    obtain ⟨s₁, o, hstep, hr⟩ := run_cons_some hr
    rw [← List.singleton_append, ← List.append_assoc]
    refine ih ?_ hr
    rcases step_some hstep with hok | ⟨rfl, -⟩
    · exact h.handle hN hhost hok
    · obtain ⟨slots, L, hc, hL⟩ := h
      exact ⟨slots, L, hc, Stored.mono (List.subset_append_left es [e]) hL⟩

end Server

end DnsRelay
