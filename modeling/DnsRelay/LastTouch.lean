import Mathlib.Data.Prod.Lex
import DnsRelay.CacheRefine

/-!
# Which record the cache evicts

`History` carries beside the cache what no field of it holds: for every slot, when its record was
inserted or last rotated. A rotation of several slots touches them one after the other, so a time is
the number of the operation and, within it, the position in the rotation. The list from head to tail is
ranked by these times, and `Recency.Ranked` says what each operation on a list does to that.
-/

namespace DnsRelay
open Exec

/-- The slot that `cacheInsert` fills: a free one, or the last of the list. -/
def LRUCache.target (N : Nat) (c : LRUCache) : Nat :=
  if c.length < N then c.freeSlot N else
    match c.links.prev .head with
    | some (.slot i) => i
    | _ => N

structure History where
  cache : LRUCache
  steps : Nat
  touched : Nat → Nat ×ₗ Nat

namespace History

def init (list : Nat → DNSEntry) (links : Links Node) : History := ⟨.init list links, 0, fun _ => toLex (0, 0)⟩

inductive Op
  | insert (r : Record)
  | query (name : List UInt8) (type : UInt8) (clk : Nat → Nat)
  | scan (clk : Nat → Nat)

/-- One operation, a query being followed at once by its `__LRU_cache_rotate`. -/
def step (N : Nat) (h : History) : Op → Exec History
  | .insert r => do
    let c ← h.cache.cacheInsert N r.entry
    return ⟨c, h.steps + 1, Function.update h.touched (h.cache.target N) (toLex (h.steps + 1, 0))⟩
  | .query name type clk => do
    let found ← h.cache.cacheQuery N clk (dnsEntrySet (some name) none 0 type 0 (clk 0))
    let temp := found.map Prod.snd
    let c ← h.cache.cacheRotate temp
    return ⟨c, h.steps + 1, fun i => if i ∈ temp then toLex (h.steps + 1, temp.idxOf i) else h.touched i⟩
  | .scan clk => do
    let (c, _) ← h.cache.cacheScan N clk
    return ⟨c, h.steps + 1, h.touched⟩

def run (N : Nat) (h : History) (ops : List Op) : Exec History := ops.foldlM (step N) h

/-- What an operation does to the linked slots and their records: an insertion removes a record only when
`N` are linked, and then the one whose last touch is the oldest; a query removes none, a scan none that
is not expired when the walk comes to it. -/
def Lawful (N : Nat) (h h' : History) (slots slots' : List Nat) : Op → Prop
  | .insert r => ∃ i, slots' = i :: slots.erase i ∧ h'.cache.list = Function.update h.cache.list i r.entry ∧
      (i ∈ slots ↔ slots.length = N) ∧ (i ∈ slots → ∀ j ∈ slots, j ≠ i → h.touched i < h.touched j)
  | .query _ _ _ => slots'.Perm slots ∧ h'.cache.list = h.cache.list
  | .scan clk => slots'.Sublist slots ∧ (∀ i ∈ slots', h'.cache.list i = h.cache.list i) ∧
      ∀ i ∈ slots, i ∉ slots' → ∃ k, (h.cache.list i).timestamp < clk k

structure Inv (N : Nat) (h : History) (slots : List Nat) : Prop extends LRUCache.WellFormed N h.cache slots where
  named : ∀ i ∈ slots, LRUCache.Named (h.cache.list i)
  past : ∀ i ∈ slots, (ofLex (h.touched i)).1 ≤ h.steps
  ranked : Recency.Ranked h.touched slots

variable {N : Nat} {h h' : History} {slots : List Nat}

theorem Inv.init (N : Nat) (list : Nat → DNSEntry) (links : Links Node) : Inv N (.init list links) [] :=
  ⟨LRUCache.WellFormed.init N list links, nofun, nofun, .nil⟩

/-- Whatever this operation touches is newer than what was touched before. -/
theorem Inv.lt_now (hi : Inv N h slots) {i : Nat} (hm : i ∈ slots) (k : Nat) :
    h.touched i < toLex (h.steps + 1, k) :=
  Prod.Lex.lt_iff.2 (.inl (Nat.lt_succ_of_le (hi.past i hm)))

/-! ### One operation -/

theorem step_insert (hi : Inv N h slots) (hN : 1 ≤ N) (r : Record) :
    ∃ h' slots', step N h (.insert r) = .ok h' ∧ Inv N h' slots' ∧ Lawful N h h' slots slots' (.insert r) := by
  -- the slot that is filled, and the list it comes to stand in front of
  obtain ⟨c, i, rest, hstep, hwf, hlist, htarget, hsplit⟩ : ∃ c i rest, h.cache.cacheInsert N r.entry = .ok c ∧
      LRUCache.WellFormed N c (i :: rest) ∧ c.list = Function.update h.cache.list i r.entry ∧
      h.cache.target N = i ∧ (i ∉ slots ∧ rest = slots ∧ slots.length < N ∨ slots = rest ++ [i] ∧ slots.length = N) := by
    by_cases hlt : slots.length < N
    · obtain ⟨c, h₁, h₂, h₃, h₄, -⟩ := LRUCache.cacheInsert_free hi.toWellFormed hlt r.entry
      have hlen : h.cache.length < N := by rw [hi.length]; exact_mod_cast hlt
      exact ⟨c, _, slots, h₁, h₃, h₄, if_pos hlen, .inl ⟨h₂, rfl, hlt⟩⟩
    · obtain ⟨rest, i, rfl, hlen⟩ := hi.toWellFormed.eq_concat hN hlt
      obtain ⟨c, h₁, h₂, h₃, -⟩ := LRUCache.cacheInsert_full hi.toWellFormed hlen r.entry
      refine ⟨c, i, rest, h₁, h₂, h₃, ?_, .inr ⟨rfl, by simpa using hlen⟩⟩
      have hr := hi.ring
      rw [LRUCache.map_slot_append] at hr
      have hprev : h.cache.links.prev .head = some (.slot i) := by
        rw [hr.prev_head, List.map_nil, List.getLastD_concat]
      have hge : ¬ h.cache.length < N := by rw [hi.length]; exact_mod_cast hlt
      rw [LRUCache.target, if_neg hge, hprev]
  have hrest : rest.Sublist slots := by
    rcases hsplit with ⟨-, rfl, -⟩ | ⟨rfl, -⟩
    · exact .refl _
    · exact List.sublist_append_left _ _
  have hni : i ∉ rest := (List.nodup_cons.1 hwf.nodup).1
  have hsame : ∀ j ∈ rest, j ≠ i := fun j hj he => hni (he ▸ hj)
  refine ⟨⟨c, h.steps + 1, Function.update h.touched i (toLex (h.steps + 1, 0))⟩, i :: rest, ?_, ⟨hwf, ?_, ?_, ?_⟩, ?_⟩
  · rw [step, hstep, htarget]
    rfl
  · show ∀ j ∈ i :: rest, LRUCache.Named (c.list j)
    rw [hlist]
    exact LRUCache.named_update r.named hi.named fun j hj hji => hrest.subset ((List.mem_cons.1 hj).resolve_left hji)
  · intro j hj
    rcases List.mem_cons.1 hj with rfl | hj
    · simp
    · have := hi.past j (hrest.subset hj)
      simp only [Function.update_of_ne (hsame j hj)]
      omega
  · refine (hi.ranked.sublist hrest).cons (fun j hj => Function.update_of_ne (hsame j hj) _ _) fun j hj => ?_
    show h.touched j < Function.update h.touched i (toLex (h.steps + 1, 0)) i
    rw [Function.update_self]
    exact hi.lt_now (hrest.subset hj) 0
  · rcases hsplit with ⟨hi', rfl, hlt⟩ | ⟨rfl, hlen⟩
    · exact ⟨i, by rw [List.erase_of_not_mem hi'], hlist, ⟨fun hm => absurd hm hi', fun he => by omega⟩,
        fun hm => absurd hm hi'⟩
    · refine ⟨i, ?_, hlist, ⟨fun _ => hlen, fun _ => by simp⟩, fun _ j hj hji => ?_⟩
      · rw [List.erase_append_right _ hni]
        simp
      · refine hi.ranked.last_lt j ?_
        rcases List.mem_append.1 hj with hj | hj
        · exact hj
        · exact absurd (List.mem_singleton.1 hj) hji

theorem step_query (hi : Inv N h slots) (name : List UInt8) (type : UInt8) (clk : Nat → Nat) :
    ∃ h' slots', step N h (.query name type clk) = .ok h' ∧ Inv N h' slots' ∧
      Lawful N h h' slots slots' (.query name type clk) := by
  have hfound := LRUCache.cacheQuery_spec clk (dnsEntrySet (some name) none 0 type 0 (clk 0)) rfl hi.toWellFormed hi.named
  change _ = Except.ok ((LRUCache.found clk name type h.cache slots).map _) at hfound
  set temp := LRUCache.found clk name type h.cache slots
  have hsub : temp ⊆ slots := LRUCache.found_subset
  have hnd : temp.Nodup := (Recency.keep_sublist _ _ _).nodup hi.nodup
  have hsnd : (temp.map fun i => (h.cache.list i, i)).map Prod.snd = temp := LRUCache.map_snd_found
  obtain ⟨links, h₁, h₂, -⟩ := LRUCache.cacheRotate_spec hi.toWellFormed hsub
  have hperm : (Recency.touch temp slots).Perm slots := Recency.touch_perm hsub
  have hidx : ∀ i ∈ temp, temp.idxOf i < temp.length := fun i hm => List.idxOf_lt_length_of_mem hm
  refine ⟨⟨{ h.cache with links := links }, h.steps + 1,
    fun i => if i ∈ temp then toLex (h.steps + 1, temp.idxOf i) else h.touched i⟩, Recency.touch temp slots, ?_,
    ⟨h₂, fun i hm => hi.named i (hperm.mem_iff.1 hm), fun i hm => ?_, ?_⟩, hperm, rfl⟩
  · rw [step, hfound]
    simp only [ok_bind, hsnd, h₁]
    rfl
  · dsimp only
    split
    · simp
    · have := hi.past i (hperm.mem_iff.1 hm)
      omega
  · refine hi.ranked.touch hi.nodup hnd hsub (fun i _ hm => if_neg hm) (fun i hm j hj => ?_) ?_
    · dsimp only
      rw [if_pos hj]
      exact hi.lt_now hm _
    · refine List.pairwise_iff_getElem.2 fun a b ha hb hab => ?_
      dsimp only
      rw [if_pos (List.getElem_mem ha), if_pos (List.getElem_mem hb), hnd.idxOf_getElem, hnd.idxOf_getElem]
      exact Prod.Lex.lt_iff.2 (.inr ⟨rfl, hab⟩)

theorem step_scan (hi : Inv N h slots) (clk : Nat → Nat) :
    ∃ h' slots', step N h (.scan clk) = .ok h' ∧ Inv N h' slots' ∧ Lawful N h h' slots slots' (.scan clk) := by
  obtain ⟨c, h₁, h₂, h₃, -, -⟩ := LRUCache.cacheScan_spec clk hi.toWellFormed
  have hsub : (LRUCache.kept clk h.cache slots).Sublist slots := Recency.keep_sublist _ _ _
  refine ⟨⟨c, h.steps + 1, h.touched⟩, _, by rw [step, h₁]; rfl, ⟨h₂, fun i hm => ?_, fun i hm => ?_,
    hi.ranked.sublist hsub⟩, hsub, h₃, fun i hm hn => ?_⟩
  · show LRUCache.Named (c.list i)
    rw [h₃ i hm]
    exact hi.named i (hsub.subset hm)
  · exact Nat.le_succ_of_le (hi.past i (hsub.subset hm))
  · obtain ⟨k, hk⟩ := Recency.exists_of_notMem_keep hm hn
    exact ⟨k, by simpa [LRUCache.alive] using hk⟩

theorem step_ok (hi : Inv N h slots) (hN : 1 ≤ N) (op : Op) :
    ∃ h' slots', step N h op = .ok h' ∧ Inv N h' slots' ∧ Lawful N h h' slots slots' op := by
  cases op with
  | insert r => exact step_insert hi hN r
  | query name type clk => exact step_query hi name type clk
  | scan clk => exact step_scan hi clk

/-! ### Runs -/

theorem run_ok (hN : 1 ≤ N) (hi : Inv N h slots) (ops : List Op) :
    ∃ h' slots', run N h ops = .ok h' ∧ Inv N h' slots' := by
  induction ops generalizing h slots with
  | nil => exact ⟨h, slots, rfl, hi⟩
  | cons op ops ih =>
    obtain ⟨h₁, slots₁, hstep, hi₁, -⟩ := step_ok hi hN op
    obtain ⟨h', slots', hrun, hi'⟩ := ih hi₁
    exact ⟨h', slots', by rw [run, List.foldlM_cons, hstep]; exact hrun, hi'⟩

/-- After every run the list from head to tail is strictly decreasing in the last touch, and every further
operation is lawful. -/
theorem eviction_law (hN : 1 ≤ N) (list : Nat → DNSEntry) (links : Links Node) (ops : List Op) :
    ∃ h slots, run N (.init list links) ops = .ok h ∧
      walk h.cache.links.next .head (N + 1) .head = some (slots.map .slot) ∧ slots.Nodup ∧
      slots.Pairwise (fun i j => h.touched j < h.touched i) ∧
      ∀ op, ∃ h' slots', step N h op = .ok h' ∧
        walk h'.cache.links.next .head (N + 1) .head = some (slots'.map .slot) ∧
        Lawful N h h' slots slots' op := by
  obtain ⟨h, slots, hrun, hi⟩ := run_ok hN (Inv.init N list links) ops
  have hwalk : ∀ {h : History} {slots : List Nat}, Inv N h slots →
      walk h.cache.links.next .head (N + 1) .head = some (slots.map .slot) := fun hi => by
    refine hi.ring.walk_next ?_
    have := hi.toWellFormed.length_le
    rw [List.length_map]
    omega
  refine ⟨h, slots, hrun, hwalk hi, hi.nodup, hi.ranked, fun op => ?_⟩
  obtain ⟨h', slots', hstep, hi', hl⟩ := step_ok hi hN op
  exact ⟨h', slots', hstep, hwalk hi', hl⟩

/-- In two slots, a record that was queried outlives one that was inserted after it. -/
theorem eviction_law_two :
    ∃ h, run 2 (.init (fun _ => ⟨none, none, 0, 0, 0⟩) ⟨fun _ => none, fun _ => none⟩)
        [.insert ⟨[97], [49], 1, 0, 9⟩, .insert ⟨[98], [50], 1, 0, 9⟩, .query [97] 1 fun _ => 4] = .ok h ∧
      h.touched 1 < h.touched 0 ∧
      ∃ h', step 2 h (.insert ⟨[99], [51], 1, 0, 9⟩) = .ok h' ∧
        h'.cache.list = Function.update h.cache.list 1 ⟨some [99], some [51], 1, 0, 9⟩ := by
  obtain ⟨h, slots, hrun, hwalk, -, hranked, hnext⟩ := eviction_law (by decide : 1 ≤ 2)
    (fun _ => ⟨none, none, 0, 0, 0⟩) ⟨fun _ => none, fun _ => none⟩
    [.insert ⟨[97], [49], 1, 0, 9⟩, .insert ⟨[98], [50], 1, 0, 9⟩, .query [97] 1 fun _ => 4]
  have hlist : (run 2 (.init (fun _ => ⟨none, none, 0, 0, 0⟩) ⟨fun _ => none, fun _ => none⟩)
      [.insert ⟨[97], [49], 1, 0, 9⟩, .insert ⟨[98], [50], 1, 0, 9⟩, .query [97] 1 fun _ => 4]).map
      (fun h => walk h.cache.links.next .head 3 .head) = .ok (some ([0, 1].map .slot)) := by decide +kernel
  rw [hrun] at hlist
  have hslots := hwalk.symm.trans (Except.ok.inj hlist)
  obtain rfl : slots = [0, 1] :=
    List.map_injective_iff.2 (fun _ _ h => Node.slot.inj h) (Option.some.inj hslots)
  refine ⟨h, hrun, by simpa using hranked, ?_⟩
  obtain ⟨h', slots', hstep, -, i, -, hl, hiff, hold⟩ := hnext (.insert ⟨[99], [51], 1, 0, 9⟩)
  have hi : i ∈ [0, 1] := hiff.2 rfl
  rcases List.mem_cons.1 hi with rfl | hi
  · have h10 := hold List.mem_cons_self 1 (by simp) (by decide)
    have h01 : h.touched 1 < h.touched 0 := by simpa using hranked
    exact absurd (h10.trans h01) (lt_irrefl _)
  · obtain rfl := List.mem_singleton.1 hi
    exact ⟨h', hstep, hl⟩

end History

end DnsRelay
