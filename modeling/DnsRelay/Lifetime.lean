import DnsRelay.Ownership
import DnsRelay.Types

/-!
# The lifetime of an answer from the cache

`cacheQuery` compares a record's expiry with one reading of the clock, and `urlQuery` subtracts a later
one from it. So the TTL of an answer is what is left of the received one as long as the clock has not
passed the expiry between the two; otherwise the unsigned subtraction wraps.
-/

namespace DnsRelay
open Exec

/-- The TTL `ttl` is what is left at the time `t` of the TTL `v` received at `s`. -/
structure TtlLeft (s : Nat) (v : UInt32) (t : Nat) (ttl : UInt32) : Prop where
  le : ttl.toNat ≤ v.toNat
  left : t ≤ s + v.toNat → ttl.toNat = s + v.toNat - t
  no_wrap : ((s + v.toNat : Nat) : Int) - t = ttl.toNat

theorem ttlLeft_iff {s t : Nat} (v : UInt32) (h : s ≤ t) :
    TtlLeft s v t (ttlLeft (s + v.toNat) t) ↔ t ≤ s + v.toNat := by
  have hv := v.toNat_lt
  constructor
  · intro hleft
    have := hleft.no_wrap
    omega
  · intro hle
    have hmod : ((s + v.toNat : Nat) : Int) - t = ((s + v.toNat - t : Nat) : Int) := by omega
    have heq : (ttlLeft (s + v.toNat) t).toNat = s + v.toNat - t := by
      rw [ttlLeft, hmod, UInt32.toNat_ofNat']
      omega
    exact ⟨by omega, fun _ => heq, by omega⟩

namespace Server
variable {σ : Type} {cfg : Config} {es : List (Event σ)} {s s' : Server σ} {e : Event σ} {r : Record}
  {lines : List HostLine} {clk : Clock} {k : Nat}

/-- A response among `es` brought `r` at the time `t`, with the TTL `v`. -/
def Received (cfg : Config) (es : List (Event σ)) (r : Record) (t : Nat) (v : UInt32) : Prop :=
  ∃ e ∈ es, ∃ d p i a, Responds cfg e d p ∧ p.ans[i]? = some a ∧ StoredFrom d.clk.store p.quests i a r ∧
    t = d.clk.store i ∧ v = a.ttl

/-- The clock that `urlQuery` reads is not behind any reading in an earlier response. -/
def NotBefore (cfg : Config) (es : List (Event σ)) (clk : Clock) : Prop :=
  ∀ e ∈ es, ∀ d p, Responds cfg e d p → ∀ i k j, d.clk.store i ≤ clk.ttl k j

/-- `a` is the answer that `urlQuery` made of the record `r` for question `k`. A response brought the record,
it had not expired when the cache looked at it, and the TTL is what is left of the received one if and only
if it has not expired when it is listed. -/
def Served (cfg : Config) (es : List (Event σ)) (clk : Clock) (k : Nat) (q : Quest) (r : Record) (a : Answer) :
    Prop :=
  ∃ t v i j, Received cfg es r t v ∧ clk.visit k i ≤ t + v.toNat ∧ Attached k q (clk.ttl k j) r.entry a ∧
    (TtlLeft t v (clk.ttl k j) a.ttl ↔ clk.ttl k j ≤ t + v.toNat)

theorem Stored.received (h : Stored cfg r e) (he : e ∈ es) :
    ∃ t v, Received cfg es r t v ∧ r.timestamp = t + v.toNat := by
  obtain ⟨d, p, rs, hresp, hrs, hr⟩ := h
  obtain ⟨ins, rfl, hfrom, -⟩ := storedRecords_from hrs
  obtain ⟨⟨i, r'⟩, hmem, rfl⟩ := List.mem_map.1 hr
  obtain ⟨j, a, rfl, ha, hstored⟩ := hfrom i r' hmem
  rw [Nat.zero_add] at hstored
  have ha : p.ans[j]? = some a := by
    rw [List.getElem?_take] at ha
    split at ha
    · exact ha
    · cases ha
  exact ⟨_, _, ⟨e, he, d, p, j, a, hresp, ha, hstored, rfl, rfl⟩, hstored.timestamp⟩

/-- A record that a search found, in the answer made of it. -/
theorem Received.served {q : Quest} {a : Answer} {t i j : Nat} {v : UInt32} (h : Received cfg es r t v)
    (ht : r.timestamp = t + v.toNat) (hclk : NotBefore cfg es clk) (hlive : clk.visit k i ≤ r.timestamp)
    (ha : Attached k q (clk.ttl k j) r.entry a) : Served cfg es clk k q r a := by
  obtain ⟨e, he, d, p, n, b, hresp, -, -, rfl, -⟩ := id h
  refine ⟨_, v, i, j, h, ht ▸ hlive, ha, ?_⟩
  rw [ha.ttl, show r.entry.timestamp = _ from ht]
  exact ttlLeft_iff v (hclk e he d p hresp n k j)

/-- After every run, each group of answers that `urlQuery` makes comes of the host file, the cache having found
nothing, or lists records with what is left of their TTLs. -/
theorem served_ttl (hN : 1 ≤ cfg.capacity) (hhost : Hosts cfg.host lines) (list : Nat → DNSEntry) (links : Links Node)
    (es : List (Event σ)) {s : Server σ} (hrun : (run cfg (some (.init list links)) es).1 = some s)
    (hclk : NotBefore cfg es clk) {pre : List Quest} {gs : List (List Answer)} {c : LRUCache}
    (hpre : Answered cfg.capacity cfg.host clk 0 pre s.cache gs c) {g : List Answer} (hg : gs[k]? = some g) :
    ∃ q name, pre[k]? = some q ∧ cstr q.qname.bytes = .ok name ∧
      (NotCached cfg.capacity cfg.host clk pre s.cache k q name ∧
          (∃ result, List.Forall₂ Reads result (hostHits lines name q.qtype.toUInt8) ∧
            List.Forall₂ (fun e a => ∃ j, Attached k q (clk.ttl k j) e a) result g) ∨
        ∃ hits, List.Forall₂ (Served cfg es clk k q) hits g) := by
  obtain ⟨slots, L, hc, hL⟩ := run_sourced hN hhost (Sourced.init cfg list links) hrun
  rw [List.nil_append] at hL
  obtain ⟨q, name, c₁, slots₁, L', ret, result, hq, hname, hbefore, h₁, hperm, hret, hfound, hall⟩ :=
    hpre.found hc hhost hg
  rw [Nat.zero_add] at hfound hall
  refine ⟨q, name, hq, hname, ?_⟩
  cases hfound with
  | blocked => exact absurd rfl hret
  | host hnil _ hr =>
    have hmiss := (h₁.cacheMiss_iff clk k q name).2 (cacheHits_eq_nil.1 hnil)
    exact .inl ⟨⟨hq, hname, gs.take k, c₁, hbefore, hmiss⟩, result, hr, hall⟩
  | cache =>
    have hreceived : ∀ r ∈ cacheHits (clk.visit k) name q.qtype.toUInt8 L', ∃ i t v, clk.visit k i ≤ r.timestamp ∧
        Received cfg es r t v ∧ r.timestamp = t + v.toNat := fun r hr => by
      obtain ⟨i, -, hlive, -⟩ := exists_matched hr
      obtain ⟨e, he, hstored⟩ := hL r (hperm.subset (mem_cacheHits hr).1)
      obtain ⟨t, v, hrec, ht⟩ := hstored.received he
      exact ⟨i, t, v, hlive, hrec, ht⟩
    refine .inr ⟨_, ((List.forall₂_and_left _ _).2 ⟨hreceived, List.forall₂_map_left_iff.1 hall⟩).imp ?_⟩
    rintro r a ⟨⟨i, t, v, hlive, hrec, ht⟩, j, ha⟩
    exact hrec.served ht hclk hlive ha

theorem served_ttl_address : ∃ (s : Server Nat) (g : List Answer) (hits : List Record),
    (run smallConfig (some .zeroed) storeRun).1 = some s ∧ g ≠ [] ∧
    List.Forall₂ (Served smallConfig storeRun (.const 110) 0 ((questFor typeA 97).quest .zero 0)) hits g := by
  have hsome : ((run smallConfig (some .zeroed) storeRun).1.bind fun s => (searchQuests 4 none (.const 110) .zero 0
      [(questFor typeA 97).quest .zero 0] [] s.cache).toOption.map Prod.fst) = some 1 := by decide +kernel
  obtain ⟨s, hs, hret⟩ := Option.bind_eq_some_iff.1 hsome
  cases hq : searchQuests 4 none (.const 110) .zero 0 [(questFor typeA 97).quest .zero 0] [] s.cache with
  | error e => rw [hq] at hret; cases hret
  | ok x =>
    obtain ⟨ret, ancount, ans, c⟩ := x
    rw [hq] at hret
    obtain rfl : ret = 1 := Option.some.inj hret
    rcases searchQuests_ok (by decide) hq with ⟨⟨h, -⟩, -⟩ | ⟨gs, hgs, -⟩
    · omega
    · obtain ⟨g, rfl⟩ := List.length_eq_one_iff.1 hgs.length_eq
      have hclk : NotBefore smallConfig storeRun (.const 110) := by
        rintro e he d p ⟨rfl, -⟩ i k j
        cases List.mem_singleton.1 he
        exact show 100 ≤ 110 by decide
      obtain ⟨q, name, hq, -, hserved⟩ := served_ttl (by decide) (show Hosts smallConfig.host [] from rfl) _ _ storeRun
        hs hclk hgs (k := 0) rfl
      cases hq
      refine ⟨s, g, ?_⟩
      rcases hserved with ⟨-, result, hr, hall⟩ | ⟨hits, hall⟩
      · cases hr
        cases hall
        exact absurd rfl (hgs.get (k := 0) rfl).1
      · exact ⟨hits, hs, (hgs.get (k := 0) rfl).1, hall⟩

/-- The client's request for the address of `a`, in a second that ends while it is answered. -/
def tickClock : Clock := { Clock.const 160 with ttl := fun _ _ => 161 }

def lateRequest : Datagram Nat := { Datagram.request typeA 97 160 with clk := tickClock }

/-- The record expires at 160, when it is looked at, and is sent at 161. -/
theorem ttl_wraps :
    (do
      let (s, _) ← connectHandle smallConfig (.zeroed : Server Nat) (.response 7 97 100)
      let p ← packetParse .decimal lateRequest.stale lateRequest.buf lateRequest.len
      let (_, p, _) ← urlQuery 4 none lateRequest.clk lateRequest.stale p s.cache
      return p.ans.map Answer.ttl : Exec (List UInt32)) = .ok [4294967295] ∧
    ¬ TtlLeft 100 60 161 4294967295 := by
  refine ⟨by decide +kernel, fun h => ?_⟩
  have := h.no_wrap
  revert this
  decide

end Server

end DnsRelay
