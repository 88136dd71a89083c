import DnsRelay.CacheSpec
import DnsRelay.Lib.Transducer

/-!
# The cache refines a recency list of records

Seen from outside the cache is a list of at most `N` records, the most recently used one first.
`Holds` ties the list to the slots; each operation of `cache.c` is matched by one of `Recency`, and
`cache_refines` says so of every sequence of operations.
-/

namespace DnsRelay
open Exec

/-- A record as the cache holds it: both strings are there. -/
structure Record where
  name : List UInt8
  ip : List UInt8
  type : UInt8
  addition : UInt16
  timestamp : Nat
deriving DecidableEq, Repr

namespace Record

def entry (r : Record) : DNSEntry := ⟨some r.name, some r.ip, r.type, r.addition, r.timestamp⟩

theorem named (r : Record) : LRUCache.Named r.entry := ⟨nofun, nofun⟩

/-- The record answers a query for `name` and `type` at the time the clock reads. -/
def matched (clk : Nat → Nat) (name : List UInt8) (type : UInt8) (k : Nat) (r : Record) : Bool :=
  r.name = name ∧ clk k ≤ r.timestamp ∧ r.type = type

theorem hit_entry (clk : Nat → Nat) (name : List UInt8) (type : UInt8) (k : Nat) (r : Record) :
    LRUCache.hit clk name type k r.entry = r.matched clk name type k := by
  simp [LRUCache.hit, matched, entry]

end Record

/-- The cache holds the records `L`, in this order, in `slots`. -/
structure Holds (N : Nat) (c : LRUCache) (slots : List Nat) (L : List Record) : Prop
    extends LRUCache.WellFormed N c slots where
  list : slots.map c.list = L.map Record.entry

namespace Holds
variable {N : Nat} {c : LRUCache} {slots : List Nat} {L : List Record}

theorem init (N : Nat) (list : Nat → DNSEntry) (links : Links Node) :
    Holds N (.init list links) [] [] :=
  ⟨LRUCache.WellFormed.init N list links, rfl⟩

theorem length_eq (h : Holds N c slots L) : slots.length = L.length := by
  have := congrArg List.length h.list
  rwa [List.length_map, List.length_map] at this

theorem length_le (h : Holds N c slots L) : L.length ≤ N := h.length_eq ▸ h.toWellFormed.length_le

/-- The cache determines the list. -/
theorem unique {slots' : List Nat} {L' : List Record} (h : Holds N c slots L) (h' : Holds N c slots' L') :
    L = L' := by
  have hlt {slots : List Nat} {L : List Record} (h : Holds N c slots L) : (slots.map Node.slot).length < N + 1 := by
    rw [List.length_map]
    exact Nat.lt_succ_of_le h.toWellFormed.length_le
  have hwalk := h.ring.walk_next (hlt h)
  rw [h'.ring.walk_next (hlt h')] at hwalk
  obtain rfl := List.map_injective_iff.2 (fun i j hij => Node.slot.inj hij) (Option.some.inj hwalk)
  refine List.map_injective_iff.2 (fun a b hab => ?_) (h.list.symm.trans h'.list)
  cases a
  cases b
  cases hab
  rfl

theorem exists_record (h : Holds N c slots L) {i : Nat} (hi : i ∈ slots) :
    ∃ r ∈ L, c.list i = r.entry := by
  have : c.list i ∈ L.map Record.entry := h.list ▸ List.mem_map_of_mem hi
  obtain ⟨r, hr, he⟩ := List.mem_map.1 this
  exact ⟨r, hr, he.symm⟩

theorem named (h : Holds N c slots L) : ∀ i ∈ slots, LRUCache.Named (c.list i) := by
  intro i hi
  obtain ⟨r, -, he⟩ := h.exists_record hi
  rw [he]
  exact r.named

/-- A test of the records by position is one of the slots. -/
theorem keep_list (h : Holds N c slots L) (p : Nat → DNSEntry → Bool) :
    (Recency.keep (fun k i => p k (c.list i)) 0 slots).map c.list =
      (Recency.keep (fun k r => p k (Record.entry r)) 0 L).map Record.entry := by
  rw [← Recency.keep_map c.list, h.list, Recency.keep_map]

theorem update_list {e : DNSEntry} {i : Nat} (hi : i ∉ slots) (list : Nat → DNSEntry) :
    (i :: slots).map (Function.update list i e) = e :: slots.map list := by
  rw [List.map_cons, Function.update_self]
  refine congrArg _ (List.map_congr_left fun j hj => Function.update_of_ne ?_ _ _)
  rintro rfl; exact hi hj

theorem cacheInsert (h : Holds N c slots L) (hN : 1 ≤ N) (r : Record) :
    ∃ c' slots', c.cacheInsert N r.entry = .ok c' ∧ Holds N c' slots' (Recency.insert N r L) := by
  unfold Recency.insert
  rw [← h.length_eq]
  split
  case isTrue hlt =>
    obtain ⟨c', h₁, hi, h₂, h₃, -⟩ := LRUCache.cacheInsert_free h.toWellFormed hlt r.entry
    refine ⟨c', _, h₁, h₂, ?_⟩
    rw [h₃, update_list hi, h.list, List.map_cons]
  case isFalse hge =>
    obtain ⟨l, tail, rfl, hlen⟩ := h.toWellFormed.eq_concat hN hge
    obtain ⟨c', h₁, h₂, h₃, -⟩ := LRUCache.cacheInsert_full h.toWellFormed hlen r.entry
    have ht : tail ∉ l := (List.nodup_middle.1 h.nodup).notMem ∘ List.mem_append_left _
    refine ⟨c', _, h₁, h₂, ?_⟩
    have hl : l.map c.list = (L.map Record.entry).dropLast := by
      rw [← h.list, ← List.map_dropLast, List.dropLast_concat]
    rw [h₃, update_list ht, hl, List.map_cons, List.map_dropLast]

/-- A query finds the records that match, in order, and its rotation turns them over to the front. -/
theorem cacheQuery (h : Holds N c slots L) (clk : Nat → Nat) (query : DNSEntry) {name : List UInt8}
    (hq : query.domainName = some name) :
    ∃ found c' slots', c.cacheQuery N clk query = .ok found ∧
      found.map Prod.fst = (Recency.keep (Record.matched clk name query.type) 0 L).map Record.entry ∧
      c.cacheRotate (found.map Prod.snd) = .ok c' ∧
      Holds N c' slots' ((Recency.keep (Record.matched clk name query.type) 0 L).reverse ++
        Recency.keep (fun k r => !r.matched clk name query.type k) 0 L) := by
  have hfound := LRUCache.cacheQuery_spec clk query hq h.toWellFormed h.named
  have hmatch : (LRUCache.found clk name query.type c slots).map c.list =
      (Recency.keep (Record.matched clk name query.type) 0 L).map Record.entry := by
    rw [LRUCache.found, h.keep_list]
    congr 1
    exact Recency.keep_congr fun k r _ => Record.hit_entry clk name query.type k r
  have hrest : (Recency.keep (fun k i => !LRUCache.hit clk name query.type k (c.list i)) 0 slots).map
      c.list = (Recency.keep (fun k r => !r.matched clk name query.type k) 0 L).map Record.entry := by
    rw [h.keep_list fun k e => !LRUCache.hit clk name query.type k e]
    congr 1
    exact Recency.keep_congr fun k r _ => by rw [Record.hit_entry]
  obtain ⟨links, h₁, h₂, -⟩ := LRUCache.cacheRotate_spec h.toWellFormed
    (LRUCache.found_subset : LRUCache.found clk name query.type c slots ⊆ slots)
  refine ⟨_, _, _, hfound, ?_, LRUCache.map_snd_found.symm ▸ h₁, h₂, ?_⟩
  · rw [List.map_map]; exact hmatch
  · have hnd : (LRUCache.found clk name query.type c slots).Nodup :=
      (Recency.keep_sublist _ _ _).nodup h.nodup
    rw [Recency.touch_eq hnd h.nodup LRUCache.found_subset, List.map_append, List.map_reverse,
      List.map_append, List.map_reverse]
    rw [hmatch, LRUCache.found, Recency.filter_notMem_keep _ _ h.nodup, hrest]

theorem cacheScan (h : Holds N c slots L) (clk : Nat → Nat) :
    ∃ c' slots', c.cacheScan N clk = .ok (c', decide ((Recency.keep
          (fun k r => LRUCache.alive clk k r.entry) 0 L).length < L.length)) ∧
      Holds N c' slots' (Recency.keep (fun k r => LRUCache.alive clk k r.entry) 0 L) := by
  have hkept : (LRUCache.kept clk c slots).map c.list =
      (Recency.keep (fun k r => LRUCache.alive clk k r.entry) 0 L).map Record.entry :=
    h.keep_list (LRUCache.alive clk)
  obtain ⟨c', h₁, h₂, h₃, -, -⟩ := LRUCache.cacheScan_spec clk h.toWellFormed
  refine ⟨c', _, ?_, h₂, ?_⟩
  · have hlen := congrArg List.length hkept
    rw [List.length_map, List.length_map] at hlen
    rw [h₁, hlen, h.length_eq]
  · rw [← hkept]
    exact List.map_congr_left h₃

end Holds

/-! ### Sequences of operations -/

/-- An operation on the cache; `now` is what the clock reads throughout it. -/
inductive CacheOp
  | insert (r : Record)
  | query (name : List UInt8) (type : UInt8) (now : Nat)
  | scan (now : Nat)

inductive CacheOut
  | inserted
  | found (result : List DNSEntry)
  | scanned (flag : Bool)

/-- One operation, a query being followed at once by its `__LRU_cache_rotate`. -/
def cacheStep (N : Nat) (c : LRUCache) : CacheOp → Exec (LRUCache × CacheOut)
  | .insert r => do
    let c ← c.cacheInsert N r.entry
    return (c, .inserted)
  | .query name type now => do
    let found ← c.cacheQuery N (fun _ => now) (dnsEntrySet (some name) none 0 type 0 now)
    let c ← c.cacheRotate (found.map Prod.snd)
    return (c, .found (found.map Prod.fst))
  | .scan now => do
    let (c, flag) ← c.cacheScan N fun _ => now
    return (c, .scanned flag)

/-- The same operation on a list of records. -/
def storeStep (N : Nat) (L : List Record) : CacheOp → List Record × CacheOut
  | .insert r => (Recency.insert N r L, .inserted)
  | .query name type now =>
    let hits := L.filter fun r => r.name = name ∧ r.type = type ∧ now ≤ r.timestamp
    (hits.reverse ++ L.filter (fun r => ¬ (r.name = name ∧ r.type = type ∧ now ≤ r.timestamp)),
      .found (hits.map Record.entry))
  | .scan now =>
    (L.filter fun r => now ≤ r.timestamp, .scanned (L.any fun r => r.timestamp < now))

theorem matched_const (name : List UInt8) (type : UInt8) (now : Nat) (L : List Record) :
    Recency.keep (Record.matched (fun _ => now) name type) 0 L =
      L.filter (fun r => r.name = name ∧ r.type = type ∧ now ≤ r.timestamp) ∧
    Recency.keep (fun k r => !r.matched (fun _ => now) name type k) 0 L =
      L.filter (fun r => ¬ (r.name = name ∧ r.type = type ∧ now ≤ r.timestamp)) :=
  ⟨Recency.keep_eq_filter (fun k r => by simp [Record.matched, and_comm]) _ _,
    Recency.keep_eq_filter (fun k r => by
      rw [decide_not]; exact congrArg _ (by simp [Record.matched, and_comm])) _ _⟩

theorem cacheStep_refines {N : Nat} (hN : 1 ≤ N) (c : LRUCache) (L : List Record) (op : CacheOp)
    (h : ∃ slots, Holds N c slots L) :
    ∃ c', cacheStep N c op = .ok (c', (storeStep N L op).2) ∧
      ∃ slots, Holds N c' slots (storeStep N L op).1 := by
  obtain ⟨slots, h⟩ := h
  cases op with
  | insert r =>
    obtain ⟨c', slots', h₁, h₂⟩ := h.cacheInsert hN r
    exact ⟨c', by rw [cacheStep, h₁]; rfl, slots', h₂⟩
  | query name type now =>
    obtain ⟨found, c', slots', h₁, h₂, h₃, h₄⟩ := h.cacheQuery (fun _ => now)
      (dnsEntrySet (some name) none 0 type 0 now) rfl
    simp only [dnsEntrySet, (matched_const name type now L).1, (matched_const name type now L).2] at h₂ h₄
    refine ⟨c', ?_, slots', h₄⟩
    rw [cacheStep, h₁]
    simp only [ok_bind, h₃, h₂]
    rfl
  | scan now =>
    obtain ⟨c', slots', h₁, h₂⟩ := h.cacheScan fun _ => now
    have hkeep : Recency.keep (fun k r => LRUCache.alive (fun _ => now) k r.entry) 0 L =
        L.filter fun r => now ≤ r.timestamp := Recency.keep_eq_filter (fun _ _ => by rfl) _ _
    rw [hkeep] at h₁ h₂
    refine ⟨c', ?_, slots', h₂⟩
    have hflag : decide ((L.filter fun r => now ≤ r.timestamp).length < L.length) =
        L.any fun r => r.timestamp < now := by
      rw [Bool.eq_iff_iff]
      simp [List.length_filter_lt_length_iff_exists]
    rw [cacheStep, h₁, hflag]
    rfl

/-- Every sequence of operations on a fresh cache runs without a fault, answers as the list of
records does and leaves the cache well formed. -/
theorem cache_refines {N : Nat} (hN : 1 ≤ N) (list : Nat → DNSEntry) (links : Links Node)
    (ops : List CacheOp) :
    ∃ c slots, Transducer.run (cacheStep N) (.init list links) ops =
        .ok (c, (Transducer.total (storeStep N) [] ops).2) ∧
      Holds N c slots (Transducer.total (storeStep N) [] ops).1 ∧
      (Transducer.total (storeStep N) [] ops).1.length ≤ N ∧
      walk c.links.next .head (N + 1) .head = some (slots.map .slot) ∧
      walk c.links.prev .head (N + 1) .head = some (slots.map .slot).reverse ∧
      (∀ i, i < N ∧ c.set i = true ↔ i ∈ slots) ∧ slots.Nodup ∧
      c.length = (List.range N).countP c.set ∧ c.length ≤ N ∧
      (∀ i ∈ slots, (c.list i).domainName ≠ none ∧ (c.list i).ip ≠ none) ∧
      ∀ clk query name, query.domainName = some name →
        ∃ found, c.cacheQuery N clk query = .ok found ∧ found.length ≤ N := by
  obtain ⟨c, hrun, slots, h⟩ := Transducer.run_simulates
    (R := fun c L => ∃ slots, Holds N c slots L) (fun c L op => cacheStep_refines hN c L op)
    ⟨[], Holds.init N list links⟩ ops
  have hlen := h.toWellFormed.length_le
  have hwalk : (slots.map Node.slot).length < N + 1 := by rw [List.length_map]; omega
  refine ⟨c, slots, hrun, h, h.length_le, h.ring.walk_next hwalk, h.ring.walk_prev hwalk,
    fun i => ⟨fun hi => (h.set_iff i).1 hi.2, fun hi => ⟨h.lt i hi, (h.set_iff i).2 hi⟩⟩, h.nodup, ?_, ?_,
    h.named, fun clk query name hq => ?_⟩
  · rw [h.length, h.card_set]
  · rw [h.length]; exact_mod_cast hlen
  · refine ⟨_, LRUCache.cacheQuery_spec clk query hq h.toWellFormed h.named, ?_⟩
    rw [List.length_map]
    exact (Recency.keep_sublist _ _ _).length_le.trans hlen

/-- Three records in two slots: the first is evicted, the query turns the list over, the scan drops
the record that has expired. -/
theorem cache_refines_two :
    ∃ c slots, Transducer.run (cacheStep 2) .zeroed
        [.insert ⟨[97], [49], 1, 0, 9⟩, .insert ⟨[98], [50], 1, 0, 5⟩, .insert ⟨[99], [51], 1, 0, 9⟩,
          .query [98] 1 4, .scan 6] =
        .ok (c, [.inserted, .inserted, .inserted, .found [⟨some [98], some [50], 1, 0, 5⟩],
          .scanned true]) ∧
      Holds 2 c slots [⟨[99], [51], 1, 0, 9⟩] := by
  obtain ⟨c, slots, hrun, h, -⟩ := cache_refines (by decide : 1 ≤ 2) _ _
    [.insert ⟨[97], [49], 1, 0, 9⟩, .insert ⟨[98], [50], 1, 0, 5⟩, .insert ⟨[99], [51], 1, 0, 9⟩,
      .query [98] 1 4, .scan 6]
  exact ⟨c, slots, hrun, h⟩

end DnsRelay
