import DnsRelay.Message
import DnsRelay.Server

/-!
# Records that the cache holds twice

Nothing on the way into the cache looks for a record that is already there: a response that arrives
twice, or the second of two responses to one question, is stored again. Two records that agree and
have not expired (`Distinct` rules them out) can only come about so. In a run in which no response
repeats a record or brings one that the cache still holds, there are none, and a question answered
from the cache gets no record twice.
-/

namespace DnsRelay
open Exec

namespace Record

/-- The two records agree in all but their lifetime. -/
def Same (a b : Record) : Prop :=
  a.name = b.name ∧ a.type = b.type ∧ a.ip = b.ip ∧ a.addition = b.addition

theorem Same.symm {a b : Record} (h : a.Same b) : b.Same a :=
  ⟨h.1.symm, h.2.1.symm, h.2.2.1.symm, h.2.2.2.symm⟩

end Record

/-- Of any two records that agree, one has expired at the time `T`. -/
def Distinct (T : Nat) (L : List Record) : Prop :=
  L.Pairwise fun a b => a.Same b → a.timestamp < T ∨ b.timestamp < T

/-- The two answers list the same record. -/
def Answer.Repeats (a b : Answer) : Prop :=
  a.type = b.type ∧ a.addition = b.addition ∧ ∃ ip, cstr a.rdata.bytes = .ok ip ∧ cstr b.rdata.bytes = .ok ip

section
variable {T : Nat} {L L' rs : List Record}

theorem Distinct.perm (h : Distinct T L) (hp : L'.Perm L) : Distinct T L' :=
  (hp.pairwise_iff fun hab hba => (hab hba.symm).symm).2 h

theorem Distinct.sublist (h : Distinct T L) (hs : L'.Sublist L) : Distinct T L' := List.Pairwise.sublist hs h

/-- New records without a repetition, each of which agrees with expired ones only. -/
theorem Distinct.insertAll (h : Distinct T L) (N : Nat) (hrs : rs.Pairwise fun a b => ¬ a.Same b)
    (hnew : ∀ r ∈ rs, ∀ x ∈ L, r.Same x → x.timestamp < T) : Distinct T (Recency.insertAll N rs L) := by
  refine Distinct.sublist (List.pairwise_append.2 ⟨?_, h, fun r hr x hx hsame => ?_⟩)
    (Recency.insertAll_sublist N rs L)
  · refine List.pairwise_reverse.2 (hrs.imp fun hab hba => absurd hba.symm hab)
  · exact .inr (hnew r (List.mem_reverse.1 hr) x hx hsame)

/-- What a search finds while the clock reads `T` or later. -/
theorem Distinct.cacheHits (h : Distinct T L) {visit : Nat → Nat} (hT : ∀ k, T ≤ visit k) (name : List UInt8)
    (type : UInt8) : (cacheHits visit name type L).Pairwise fun a b => ¬ a.Same b := by
  refine (h.sublist (Recency.keep_sublist _ _ _)).imp_of_mem fun {a b} ha hb hab hsame => ?_
  obtain ⟨k, -, hk, -⟩ := exists_matched ha
  obtain ⟨k', -, hk', -⟩ := exists_matched hb
  have := hT k
  have := hT k'
  rcases hab hsame with h | h <;> omega

end

namespace Server
variable {σ : Type}

/-- The response has no record twice. -/
def NoRepeat (cfg : Config) (e : Event σ) : Prop :=
  ∀ d p rs, Responds cfg e d p → p.records d.clk.store = .ok rs → rs.Pairwise fun a b => ¬ a.Same b

/-- Records of the cache that agree with one of the response have expired. -/
def Fresh (cfg : Config) (s : Server σ) (e : Event σ) : Prop :=
  ∀ d p rs slots L, Responds cfg e d p → p.records d.clk.store = .ok rs →
    Holds cfg.capacity s.cache slots L → ∀ r ∈ rs, ∀ x ∈ L, r.Same x → x.timestamp < d.clk.store 0

/-- Each response finds it so when it arrives. -/
def FreshRun (cfg : Config) : Option (Server σ) → List (Event σ) → Prop
  | _, [] => True
  | o, e :: es => (∀ s, o = some s → Fresh cfg s e) ∧ FreshRun cfg (step cfg o e).1 es

/-- No response among `es` was stored after `T`. -/
def StoredBy (cfg : Config) (T : Nat) (es : List (Event σ)) : Prop :=
  ∀ e ∈ es, ∀ d p, Responds cfg e d p → d.clk.store 0 ≤ T

variable {cfg : Config} {s s' : Server σ} {es : List (Event σ)} {e : Event σ} {out : Option (Output σ)}
  {lines : List HostLine} {T : Nat} {slots : List Nat} {L : List Record}

/-- What one event keeps. -/
theorem handle_distinct (hc : Holds cfg.capacity s.cache slots L) (hL : Distinct T L) (hN : 1 ≤ cfg.capacity)
    (hhost : Hosts cfg.host lines) (hrep : NoRepeat cfg e) (hfresh : Fresh cfg s e)
    (hT : ∀ d p, Responds cfg e d p → d.clk.store 0 ≤ T) (hs : handle cfg s e = .ok (s', out)) :
    ∃ slots' L', Holds cfg.capacity s'.cache slots' L' ∧ Distinct T L' := by
  cases e with
  | scan clk =>
    obtain ⟨c', slots', h₁, h₂⟩ := hc.cacheScan clk
    rw [Server.handle, h₁] at hs
    cases hs
    exact ⟨slots', _, h₂, hL.sublist (Recency.keep_sublist _ _ _)⟩
  | datagram d =>
    obtain ⟨p, hp, hs⟩ := bind_ok.1 hs
    split at hs
    case isTrue hqr =>
      obtain ⟨cache, hstore, rfl, -⟩ := handleResponse_ok hs
      obtain ⟨rs, slots', hrs, h'⟩ := hc.urlStore hN hstore
      have hresp : Responds cfg (.datagram d) d p := ⟨rfl, hp, hqr⟩
      exact ⟨slots', _, h', hL.insertAll cfg.capacity (hrep d p rs hresp hrs) fun r hr x hx hsame =>
        (hfresh d p rs slots L hresp hrs hc r hr x hx hsame).trans_le (hT d p hresp)⟩
    case isFalse =>
      obtain ⟨ret, p', cache, hq, rfl, -⟩ := handleRequest_ok hs
      obtain ⟨slots', L', h', hperm⟩ := hc.urlQuery hhost hq
      exact ⟨slots', L', h', hL.perm hperm⟩

/-- What a run keeps. -/
theorem run_distinct (hc : Holds cfg.capacity s.cache slots L) (hL : Distinct T L) (hN : 1 ≤ cfg.capacity)
    (hhost : Hosts cfg.host lines) (hrep : ∀ e ∈ es, NoRepeat cfg e) (hfresh : FreshRun cfg (some s) es)
    (hT : StoredBy cfg T es) (hrun : (run cfg (some s) es).1 = some s') :
    ∃ slots' L', Holds cfg.capacity s'.cache slots' L' ∧ Distinct T L' := by
  induction es generalizing s slots L with
  | nil =>
    cases hrun
    exact ⟨slots, L, hc, hL⟩
  | cons e es ih =>
    obtain ⟨s₁, o, hstep, hrun'⟩ := run_cons_some hrun
    obtain ⟨hfresh, hrest⟩ := hfresh
    rw [hstep] at hrest
    have hrep' : ∀ e ∈ es, NoRepeat cfg e := fun e he => hrep e (List.mem_cons_of_mem _ he)
    have hT' : StoredBy cfg T es := fun e he => hT e (List.mem_cons_of_mem _ he)
    rcases step_some hstep with hok | ⟨rfl, -⟩
    · obtain ⟨slots₁, L₁, hc₁, hL₁⟩ := handle_distinct hc hL hN hhost (hrep e List.mem_cons_self)
        (hfresh s rfl) (hT e List.mem_cons_self) hok
      exact ih hc₁ hL₁ hrep' hrest hT' hrun'
    · exact ih hc hL hrep' hrest hT' hrun'

/-- The cache finds nothing for question `k` of a request, and the answers `g` to it are those of the host
file. -/
def FromHost (cfg : Config) (lines : List HostLine) (d : Datagram σ) (p : Packet) (c : LRUCache) (k : Nat) (q : Quest)
    (g : List Answer) : Prop :=
  ∃ name result, NotCached cfg.capacity cfg.host d.clk p.quests c k q name ∧
    List.Forall₂ Reads result (hostHits lines name q.qtype.toUInt8) ∧
    List.Forall₂ (fun e a => ∃ j, Attached k q (d.clk.ttl k j) e a) result g

/-- Records that differ are listed as answers that differ. -/
theorem attached_distinct {k : Nat} {q : Quest} {ttl : Nat → Nat} {hits : List Record} {g : List Answer}
    {name : List UInt8} {type : UInt8} (hd : hits.Pairwise fun a b => ¬ a.Same b)
    (hm : ∀ r ∈ hits, r.name = name ∧ r.type = type ∧ 0 ∉ r.ip)
    (hg : List.Forall₂ (fun e a => ∃ j, Attached k q (ttl j) e a) (hits.map Record.entry) g) :
    g.Pairwise fun a b => ¬ a.Repeats b := by
  induction hits generalizing g with
  | nil => cases hg; exact .nil
  | cons r hits ih =>
    obtain ⟨hr, hd⟩ := List.pairwise_cons.1 hd
    cases hg with
    | @cons _ a _ g ha hg =>
    obtain ⟨j, ha⟩ := ha
    refine List.pairwise_cons.2 ⟨fun b hb hrep => ?_, ih hd (fun r hr => hm r (List.mem_cons_of_mem _ hr)) hg⟩
    obtain ⟨e, he, j', hb⟩ := exists_of_forall₂ hg hb
    obtain ⟨r', hr', rfl⟩ := List.mem_map.1 he
    obtain ⟨hn, ht, h0⟩ := hm r List.mem_cons_self
    obtain ⟨hn', ht', h0'⟩ := hm r' (List.mem_cons_of_mem _ hr')
    obtain ⟨-, hadd, ip, ha₁, hb₁⟩ := hrep
    rw [ha.text rfl h0] at ha₁
    rw [hb.text rfl h0'] at hb₁
    refine hr r' hr' ⟨hn.trans hn'.symm, ht.trans ht'.symm, ?_, ?_⟩
    · exact Except.ok.inj (ha₁.trans hb₁.symm)
    · exact ha.addition.symm.trans (hadd.trans hb.addition)

/-- A request and its response. -/
def singleRun : List (Event Nat) := [.datagram (.request typeA 97 100), .datagram (.response 1 97 101)]

/-- Two clients' requests for the same name, and then the two responses. -/
def doubleRun : List (Event Nat) :=
  [.datagram (.request typeA 97 100), .datagram (.request typeA 97 101), .datagram (.response 1 97 102),
    .datagram (.response 2 97 103)]

/-- What a datagram has to store. -/
def brings (cfg : Config) (d : Datagram σ) : Exec (List Record) := do
  let p ← packetParse cfg.libc d.stale d.buf d.len
  if getQr p.flags = 1 then p.records d.clk.store else return []

theorem brings_ok {d d' : Datagram σ} {p : Packet} {rs rs' : List Record} (h : brings cfg d = .ok rs)
    (hd : Responds cfg (.datagram d) d' p) (hrs : p.records d'.clk.store = .ok rs') : rs' = rs := by
  obtain ⟨hd, hp, hqr⟩ := hd
  cases hd
  rw [brings, hp, ok_bind, if_pos hqr, hrs] at h
  exact Except.ok.inj h

theorem noRepeat_of {d : Datagram σ} {rs : List Record} (h : brings cfg d = .ok rs) (hlen : rs.length ≤ 1) :
    NoRepeat cfg (.datagram d) := by
  intro d' p rs' hd hrs
  rw [brings_ok h hd hrs]
  match rs, hlen with
  | [], _ => exact .nil
  | [r], _ => exact List.pairwise_singleton _ r

end Server

end DnsRelay
