import DnsRelay.CacheRefine

/-!
# Emptying the cache

`cacheFlush` unlinks the slots `0, …, length - 1`. These are the occupied ones as long as every record
that expires leaves the last of them; a free slot below an occupied one was unlinked before, so its links
are null and the loop follows them. A flush that goes through leaves nothing behind: two caches that hold
the same records in the same slots (`Twin`) go on in lockstep, whatever else their memory holds.
-/

namespace DnsRelay
open Exec

/-- What a thread or the operator does to the cache; the clock may move during a walk. -/
inductive CacheCmd
  | insert (r : Record)
  | query (name : List UInt8) (type : UInt8) (clk : Nat → Nat)
  | scan (clk : Nat → Nat)
  | flush

inductive CmdOut
  | done
  | found (result : List DNSEntry)
  | scanned (flag : Bool)
deriving DecidableEq

/-- One of these, a query being followed at once by its `__LRU_cache_rotate`. -/
def cmdStep (N : Nat) (c : LRUCache) : CacheCmd → Exec (LRUCache × CmdOut)
  | .insert r => do
    let c ← c.cacheInsert N r.entry
    return (c, .done)
  | .query name type clk => do
    let found ← c.cacheQuery N clk (dnsEntrySet (some name) none 0 type 0 (clk 0))
    let c ← c.cacheRotate (found.map Prod.snd)
    return (c, .found (found.map Prod.fst))
  | .scan clk => do
    let (c, flag) ← c.cacheScan N clk
    return (c, .scanned flag)
  | .flush => do
    let c ← c.cacheFlush N
    return (c, .done)

namespace LRUCache

/-- The first `length` slots are in use. -/
def Compact (c : LRUCache) : Prop := ∀ i : Nat, i < c.length → c.set i = true

/-- Each of the `n` slots from `i` on is on the list when `flushLoop` unlinks it. -/
def UnlinksLinked : Nat → Nat → LRUCache → Prop
  | 0, _, _ => True
  | n + 1, i, c => (∃ slots : List Nat, IsRing c.links .head (slots.map .slot) ∧ i ∈ slots) ∧
      ∀ c', c.listDel i = .ok c' → UnlinksLinked n (i + 1) c'

/-- A well-formed cache whose records have strings and in which a free slot below one in use has a null
link. -/
structure Tidy (N : Nat) (c : LRUCache) (slots : List Nat) : Prop extends WellFormed N c slots where
  named : ∀ i ∈ slots, Named (c.list i)
  null : ∀ i j, j ∈ slots → i < j → i ∉ slots → c.links.next (.slot i) = none

section
variable {N n i : Nat} {c c' : LRUCache} {slots slots' : List Nat}

/-- The slots below the one that is chosen are in use. -/
theorem set_of_lt_freeSlot (h : i < c.freeSlot N) : c.set i = true := by
  have hlt := Nat.lt_of_lt_of_le h List.findIdx_le_length
  have hnot := List.not_of_lt_findIdx h
  rwa [List.getElem_range, Bool.not_eq_eq_eq_not, Bool.not_false] at hnot

namespace Tidy

theorem init (N : Nat) (list : Nat → DNSEntry) (links : Links Node) : Tidy N (.init list links) [] :=
  ⟨.init N list links, nofun, fun _ _ h => by cases h⟩

/-- Slots may be freed as long as their links become null, and the lowest free one may be taken. -/
theorem step (h : Tidy N c slots) (hc : WellFormed N c' slots') (hnamed : ∀ i ∈ slots', Named (c'.list i))
    (hnew : ∀ j ∈ slots', j ∉ slots → ∀ i < j, i ∈ slots)
    (hfreed : ∀ i ∈ slots, i ∉ slots' → c'.links.next (.slot i) = none)
    (hframe : ∀ i ∉ slots, i ∉ slots' → c'.links.next (.slot i) = c.links.next (.slot i)) :
    Tidy N c' slots' := by
  refine ⟨hc, hnamed, fun i j hj hij hi => ?_⟩
  by_cases hmem : i ∈ slots
  · exact hfreed i hmem hi
  · rw [hframe i hmem hi]
    by_cases hj' : j ∈ slots
    · exact h.null i j hj' hij hmem
    · exact absurd (hnew j hj hj' i hij) hmem

end Tidy

/-! ### The loop -/

/-- If all its slots are on the list, the loop unlinks them and releases their strings. -/
theorem flushLoop_ok (hr : IsRing c.links .head (slots.map .slot)) (hmem : ∀ k < n, i + k ∈ slots) :
    ∃ c', flushLoop n i c = .ok c' ∧ UnlinksLinked n i c ∧ c'.set = c.set ∧
      (∀ j, i ≤ j → j < i + n → (c'.list j).domainName = none ∧ (c'.list j).ip = none) ∧
      ∀ j, j < i ∨ i + n ≤ j → c'.list j = c.list j := by
  induction n generalizing i c slots with
  | zero => exact ⟨c, rfl, trivial, rfl, fun j h₁ h₂ => by omega, fun _ _ => rfl⟩
  | succ n ih =>
    have hi : i ∈ slots := hmem 0 (Nat.succ_pos n)
    obtain ⟨l₁, l₂, rfl⟩ := List.append_of_mem hi
    obtain ⟨links, hdel, hr₁, -⟩ := listDel_ok hr
    set list := Function.update c.list i { c.list i with domainName := none, ip := none } with hlist
    have hmem' : ∀ k < n, i + 1 + k ∈ l₁ ++ l₂ := fun k hk => by
      have := hmem (k + 1) (Nat.succ_lt_succ hk)
      simp only [List.mem_append, List.mem_cons] at this ⊢
      rw [show i + 1 + k = i + (k + 1) by omega]
      exact this.imp_right fun h => h.resolve_left (by omega)
    obtain ⟨c', hloop, hlinked, hset, hnone, hrest⟩ := ih (c := { c with list := list, links := links }) hr₁ hmem'
    refine ⟨c', by rw [flushLoop, hdel]; exact hloop, ⟨⟨_, hr, hi⟩, fun c₂ hc₂ => ?_⟩, hset,
      fun j h₁ h₂ => ?_, fun j hj => ?_⟩
    · cases hdel.symm.trans hc₂
      exact hlinked
    · rcases Nat.eq_or_lt_of_le h₁ with rfl | hlt
      · rw [hrest i (.inl (Nat.lt_succ_self i))]
        simp [hlist]
      · exact hnone j hlt (by omega)
    · rw [hrest j (by omega)]
      exact Function.update_of_ne (by omega) _ _

/-- If one is not, it follows the null link of the first such slot. -/
theorem flushLoop_null (hr : IsRing c.links .head (slots.map .slot)) (hout : ∃ k < n, i + k ∉ slots)
    (hnull : ∀ k < n, i + k ∉ slots → c.links.next (.slot (i + k)) = none) :
    flushLoop n i c = .error .null := by
  induction n generalizing i c slots with
  | zero =>
    obtain ⟨k, hk, -⟩ := hout
    exact absurd hk (Nat.not_lt_zero k)
  | succ n ih =>
    by_cases hi : i ∈ slots
    · obtain ⟨l₁, l₂, rfl⟩ := List.append_of_mem hi
      obtain ⟨links, hdel, hr₁, -, hframe⟩ := listDel_ok hr
      have hiff (k : Nat) : i + 1 + k ∉ l₁ ++ l₂ ↔ i + (k + 1) ∉ l₁ ++ i :: l₂ := by
        rw [show i + 1 + k = i + (k + 1) by omega, List.mem_append, List.mem_append, List.mem_cons,
          or_iff_right (show ¬ i + (k + 1) = i by omega)]
      rw [flushLoop, hdel]
      refine ih hr₁ ?_ fun k hk hmem => ?_
      · obtain ⟨k, hk, hmem⟩ := hout
        cases k with
        | zero => exact absurd hi hmem
        | succ k => exact ⟨k, Nat.lt_of_succ_lt_succ hk, (hiff k).2 hmem⟩
      · have hmem := (hiff k).1 hmem
        rw [show i + 1 + k = i + (k + 1) by omega, hframe _ hmem]
        exact hnull (k + 1) (Nat.succ_lt_succ hk) hmem
    · have h0 : c.links.next (.slot i) = none := hnull 0 (Nat.succ_pos n) hi
      rw [flushLoop, listDel, mylistDel, mylistUnlink, h0]
      rfl

/-! ### The flush -/

namespace WellFormed

theorem compact_iff (h : WellFormed N c slots) : c.Compact ↔ ∀ i < slots.length, i ∈ slots := by
  rw [Compact, h.length]
  simp only [h.set_iff, Int.ofNat_lt]

theorem flush_ok (h : WellFormed N c slots) (hc : c.Compact) :
    ∃ c', c.cacheFlush N = .ok c' ∧ UnlinksLinked c.length.toNat 0 c ∧ WellFormed N c' [] ∧
      ∀ i, c.set i = true → (c'.list i).domainName = none ∧ (c'.list i).ip = none := by
  have hlen : c.length.toNat = slots.length := by rw [h.length, Int.toNat_natCast]
  obtain ⟨c₁, hloop, hlinked, hset, hnone, -⟩ := flushLoop_ok (n := slots.length) (i := 0) h.ring fun k hk => by
    rw [Nat.zero_add]
    exact h.compact_iff.1 hc k hk
  have hcard : ∀ i ∈ slots, i < slots.length := by
    have hsub : List.range slots.length ⊆ slots := fun i hi => h.compact_iff.1 hc i (List.mem_range.1 hi)
    have hperm := (List.nodup_range.subperm hsub).perm_of_length_le (by rw [List.length_range])
    exact fun i hi => List.mem_range.1 (hperm.mem_iff.2 hi)
  refine ⟨_, by rw [cacheFlush, hlen, hloop]; rfl, hlen ▸ hlinked, ⟨.nil ?_ ?_, nofun, fun i => ?_, rfl⟩, fun i hi => ?_⟩
  · exact Function.update_self Node.head _ c₁.links.next
  · exact Function.update_self Node.head _ c₁.links.prev
  · have hfree : i ∉ slots ∨ i < N := (em (i ∈ slots)).symm.imp_right (h.lt i)
    have hi : (if i < N then false else c₁.set i) = false := by
      rw [hset]
      split
      · rfl
      · exact Bool.eq_false_iff.2 fun hi => (hfree.resolve_right ‹_›) ((h.set_iff i).1 hi)
    exact ⟨fun ht => absurd (hi.symm.trans ht) Bool.false_ne_true, fun ht => by cases ht⟩
  · exact hnone i (Nat.zero_le i) (by rw [Nat.zero_add]; exact hcard i ((h.set_iff i).1 hi))

end WellFormed

/-- As many slots are in use as the loop runs over, so one in use lies above a free one among these. -/
theorem exists_above (hn : slots.Nodup) (hi : i < slots.length) (hmem : i ∉ slots) : ∃ j ∈ slots, i < j := by
  by_contra hno
  have hsub : slots ⊆ List.range i := by
    intro j hj
    have hle : ¬ i < j := fun hlt => hno ⟨j, hj, hlt⟩
    have hne : j ≠ i := fun he => hmem (he ▸ hj)
    exact List.mem_range.2 (by omega)
  have := (hn.subperm hsub).length_le
  rw [List.length_range] at this
  omega

theorem Tidy.exists_null_iff (h : Tidy N c slots) :
    (∃ i : Nat, i < c.length ∧ c.links.next (.slot i) = none) ↔ ¬ c.Compact := by
  rw [h.compact_iff, h.length]
  push Not
  refine exists_congr fun i => ?_
  rw [Int.ofNat_lt]
  refine and_congr_right fun hi => ⟨fun hnext hmem => ?_, fun hmem => ?_⟩
  · -- a node on the list has a successor
    obtain ⟨l₁, l₂, rfl⟩ := List.append_of_mem hmem
    have hr := h.ring
    rw [map_slot_append] at hr
    rw [hr.next_mid] at hnext
    cases hnext
  · obtain ⟨j, hj, hlt⟩ := exists_above h.nodup hi hmem
    exact h.null i j hj hlt hmem

theorem Tidy.flush_null (h : Tidy N c slots) (hc : ¬ c.Compact) : c.cacheFlush N = .error .null := by
  have hlen : c.length.toNat = slots.length := by rw [h.length, Int.toNat_natCast]
  have hout : ∃ i < slots.length, i ∉ slots := by
    rw [h.compact_iff] at hc
    push Not at hc
    exact hc
  rw [cacheFlush, hlen, flushLoop_null (n := slots.length) (i := 0) h.ring]
  · rfl
  · simpa only [Nat.zero_add] using hout
  · intro k hk hmem
    rw [Nat.zero_add] at hmem ⊢
    obtain ⟨j, hj, hlt⟩ := exists_above h.nodup hk hmem
    exact h.null k j hj hlt hmem

/-! ### One command -/

/-- The slots of the list after a command, from the front. -/
def nextSlots (N : Nat) (c : LRUCache) (slots : List Nat) : CacheCmd → List Nat
  | .insert _ => if slots.length < N then c.freeSlot N :: slots else slots.getLastD 0 :: slots.dropLast
  | .query name type clk => Recency.touch (found clk name type c slots) slots
  | .scan clk => kept clk c slots
  | .flush => []

def output (c : LRUCache) (slots : List Nat) : CacheCmd → CmdOut
  | .insert _ => .done
  | .query name type clk => .found ((found clk name type c slots).map c.list)
  | .scan clk => .scanned (decide ((kept clk c slots).length < slots.length))
  | .flush => .done

/-- What a slot of the list holds then: an insertion fills the first. -/
def content (c : LRUCache) (slots : List Nat) (i : Nat) : CacheCmd → DNSEntry
  | .insert r => if slots.head? = some i then r.entry else c.list i
  | _ => c.list i

namespace Tidy

theorem insert_free (h : Tidy N c slots) (hlt : slots.length < N) (r : Record) :
    ∃ c', c.cacheInsert N r.entry = .ok c' ∧ Tidy N c' (c.freeSlot N :: slots) ∧
      ∀ i, c'.list i = if c.freeSlot N = i then r.entry else c.list i := by
  obtain ⟨c', hins, -, hc', hlist, hframe⟩ := cacheInsert_free h.toWellFormed hlt r.entry
  have hget (i : Nat) : c'.list i = if c.freeSlot N = i then r.entry else c.list i := by
    rw [hlist, Function.update_apply]
    exact if_congr eq_comm rfl rfl
  refine ⟨c', hins, h.step hc' ?_ (fun j hj hj' i hij => ?_) (fun i hi hi' => ?_) (fun i _ hi' => hframe i hi'), hget⟩
  · rw [hlist]
    exact named_update r.named h.named fun i hi hne => (List.mem_cons.1 hi).resolve_left hne
  · obtain rfl := (List.mem_cons.1 hj).resolve_right hj'
    exact (h.set_iff i).1 (set_of_lt_freeSlot hij)
  · exact absurd (List.mem_cons_of_mem _ hi) hi'

theorem insert_full {l : List Nat} {tail : Nat} (h : Tidy N c (l ++ [tail])) (hN : l.length + 1 = N) (r : Record) :
    ∃ c', c.cacheInsert N r.entry = .ok c' ∧ Tidy N c' (tail :: l) ∧
      ∀ i, c'.list i = if tail = i then r.entry else c.list i := by
  obtain ⟨c', hins, hc', hlist, hframe⟩ := cacheInsert_full h.toWellFormed hN r.entry
  have hget (i : Nat) : c'.list i = if tail = i then r.entry else c.list i := by
    rw [hlist, Function.update_apply]
    exact if_congr eq_comm rfl rfl
  have hmem (i : Nat) : i ∈ tail :: l ↔ i ∈ l ++ [tail] := by simp [or_comm]
  refine ⟨c', hins, h.step hc' ?_ (fun j hj hj' => absurd ((hmem j).1 hj) hj')
    (fun i hi hi' => absurd ((hmem i).2 hi) hi') (fun i hi _ => hframe i hi), hget⟩
  rw [hlist]
  exact named_update r.named h.named fun i hi _ => (hmem i).1 hi

theorem rotate (h : Tidy N c slots) {temp : List Nat} (hsub : temp ⊆ slots) :
    ∃ c', c.cacheRotate temp = .ok c' ∧ Tidy N c' (Recency.touch temp slots) ∧ c'.list = c.list := by
  obtain ⟨links, hrot, hc', hframe⟩ := cacheRotate_spec h.toWellFormed hsub
  -- the set bits stay, so the same slots are on the list
  have hmem (i : Nat) : i ∈ Recency.touch temp slots ↔ i ∈ slots := (hc'.set_iff i).symm.trans (h.set_iff i)
  exact ⟨_, hrot, h.step hc' (fun i hi => h.named i ((hmem i).1 hi)) (fun j hj hj' => absurd ((hmem j).1 hj) hj')
    (fun i hi hi' => absurd ((hmem i).2 hi) hi') (fun i hi _ => hframe i hi), rfl⟩

theorem scan (h : Tidy N c slots) (clk : Nat → Nat) :
    ∃ c', c.cacheScan N clk = .ok (c', decide ((kept clk c slots).length < slots.length)) ∧
      Tidy N c' (kept clk c slots) ∧ ∀ i ∈ kept clk c slots, c'.list i = c.list i := by
  obtain ⟨c', hscan, hc', hlist, hfreed, hframe⟩ := cacheScan_spec clk h.toWellFormed
  have hsub : kept clk c slots ⊆ slots := (Recency.keep_sublist _ _ _).subset
  refine ⟨c', hscan, h.step hc' (fun i hi => ?_) (fun j hj hj' => absurd (hsub hj) hj') hfreed
    (fun i hi _ => hframe i hi), hlist⟩
  rw [hlist i hi]
  exact h.named i (hsub hi)

/-- What every command but a flush of slots that are not compact does. -/
theorem cmdStep (h : Tidy N c slots) (hN : 1 ≤ N) (cmd : CacheCmd) (hcmd : cmd = .flush → c.Compact) :
    ∃ c', cmdStep N c cmd = .ok (c', output c slots cmd) ∧ Tidy N c' (nextSlots N c slots cmd) ∧
      ∀ i ∈ nextSlots N c slots cmd, c'.list i = content c (nextSlots N c slots cmd) i cmd := by
  cases cmd with
  | insert r =>
    rw [nextSlots]
    split
    case isTrue hlt =>
      obtain ⟨c', hins, hc', hlist⟩ := h.insert_free hlt r
      refine ⟨c', by rw [DnsRelay.cmdStep, hins]; rfl, hc', fun i _ => ?_⟩
      rw [hlist, content, List.head?_cons]
      exact if_congr (Option.some_inj).symm rfl rfl
    case isFalse hge =>
      obtain ⟨l, tail, rfl, hlen⟩ := h.toWellFormed.eq_concat hN hge
      obtain ⟨c', hins, hc', hlist⟩ := h.insert_full hlen r
      rw [List.getLastD_concat, List.dropLast_concat]
      refine ⟨c', by rw [DnsRelay.cmdStep, hins]; rfl, hc', fun i _ => ?_⟩
      rw [hlist, content, List.head?_cons]
      exact if_congr (Option.some_inj).symm rfl rfl
  | query name type clk =>
    have hquery := cacheQuery_spec clk (dnsEntrySet (some name) none 0 type 0 (clk 0)) rfl h.toWellFormed h.named
    obtain ⟨c', hrot, hc', hlist⟩ := h.rotate (found_subset : found clk name type c slots ⊆ slots)
    refine ⟨c', ?_, hc', fun i _ => congrFun hlist i⟩
    have hfst : ((found clk name type c slots).map fun i => (c.list i, i)).map Prod.fst =
        (found clk name type c slots).map c.list := by rw [List.map_map]; rfl
    rw [DnsRelay.cmdStep, hquery]
    simp only [ok_bind]
    rw [show (dnsEntrySet (some name) none 0 type 0 (clk 0)).type = type from rfl, map_snd_found, hrot, hfst]
    rfl
  | scan clk =>
    obtain ⟨c', hscan, hc', hlist⟩ := h.scan clk
    exact ⟨c', by rw [DnsRelay.cmdStep, hscan]; rfl, hc', hlist⟩
  | flush =>
    obtain ⟨c', hflush, -, hc', -⟩ := h.flush_ok (hcmd rfl)
    exact ⟨c', by rw [DnsRelay.cmdStep, hflush]; rfl, ⟨hc', nofun, fun _ _ hj => by cases hj⟩, nofun⟩

end Tidy

/-! ### Twins -/

/-- Two caches with the same records in the same slots. -/
structure Twin (N : Nat) (c d : LRUCache) (slots : List Nat) : Prop where
  left : Tidy N c slots
  right : Tidy N d slots
  list : ∀ i ∈ slots, c.list i = d.list i

namespace Twin
variable {d : LRUCache}

theorem found_eq (h : Twin N c d slots) (clk : Nat → Nat) (name : List UInt8) (type : UInt8) :
    found clk name type c slots = found clk name type d slots :=
  Recency.keep_congr fun k i hi => by rw [h.list i hi]

theorem kept_eq (h : Twin N c d slots) (clk : Nat → Nat) : kept clk c slots = kept clk d slots :=
  Recency.keep_congr fun k i hi => by rw [h.list i hi]

theorem freeSlot_eq (h : Twin N c d slots) : c.freeSlot N = d.freeSlot N := by
  have hset : c.set = d.set := funext fun i =>
    Bool.eq_iff_iff.2 ((h.left.set_iff i).trans (h.right.set_iff i).symm)
  rw [freeSlot, freeSlot, hset]

theorem nextSlots_eq (h : Twin N c d slots) (cmd : CacheCmd) : nextSlots N c slots cmd = nextSlots N d slots cmd := by
  cases cmd with
  | insert r => rw [nextSlots, nextSlots, h.freeSlot_eq]
  | query name type clk => rw [nextSlots, nextSlots, h.found_eq]
  | scan clk => exact h.kept_eq clk
  | flush => rfl

theorem output_eq (h : Twin N c d slots) (cmd : CacheCmd) : output c slots cmd = output d slots cmd := by
  cases cmd with
  | insert r => rfl
  | query name type clk =>
    have hmap : (found clk name type d slots).map c.list = (found clk name type d slots).map d.list :=
      List.map_congr_left fun i hi => h.list i (found_subset hi)
    rw [output, output, h.found_eq, hmap]
  | scan clk => rw [output, output, h.kept_eq]
  | flush => rfl

/-- A slot of the next list was on the list, or is filled by the insertion. -/
theorem content_eq (h : Twin N c d slots) (cmd : CacheCmd) {i : Nat} (hi : i ∈ nextSlots N c slots cmd) :
    content c (nextSlots N c slots cmd) i cmd = content d (nextSlots N d slots cmd) i cmd := by
  rw [← h.nextSlots_eq]
  cases cmd with
  | insert r =>
    rw [content, content]
    split
    · rfl
    · rename_i hhead
      refine h.list i ?_
      rw [nextSlots] at hi hhead
      split at hi
      · rw [if_pos ‹_›, List.head?_cons] at hhead
        exact (List.mem_cons.1 hi).resolve_left fun he => hhead (congrArg some he.symm)
      · rw [if_neg ‹_›, List.head?_cons] at hhead
        exact List.dropLast_subset _ ((List.mem_cons.1 hi).resolve_left fun he => hhead (congrArg some he.symm))
  | query name type clk =>
    exact h.list i ((Recency.touch_perm found_subset).subset hi)
  | scan clk => exact h.list i ((Recency.keep_sublist _ _ _).subset hi)
  | flush => cases hi

theorem lockstep (h : Twin N c d slots) (hN : 1 ≤ N) (cmd : CacheCmd) :
    Transducer.Lockstep (fun c d => ∃ slots, Twin N c d slots) (cmdStep N c cmd) (cmdStep N d cmd) := by
  by_cases hcmd : cmd = .flush → c.Compact
  · have hcmd' : cmd = .flush → d.Compact := fun he =>
      h.right.compact_iff.2 (h.left.compact_iff.1 (hcmd he))
    obtain ⟨c', hc, hc', hlist⟩ := h.left.cmdStep hN cmd hcmd
    obtain ⟨d', hd, hd', hlist'⟩ := h.right.cmdStep hN cmd hcmd'
    rw [hc, hd, ← h.output_eq]
    refine .ok _ ⟨_, hc', h.nextSlots_eq cmd ▸ hd', fun i hi => ?_⟩
    rw [hlist i hi, hlist' i (h.nextSlots_eq cmd ▸ hi), h.content_eq cmd hi]
  · obtain ⟨rfl, hc⟩ := Classical.not_imp.1 hcmd
    have hd : ¬ d.Compact := fun hd => hc (h.left.compact_iff.2 (h.right.compact_iff.1 hd))
    rw [cmdStep, cmdStep, h.left.flush_null hc, h.right.flush_null hd]
    exact .fail _

theorem outputs (h : Twin N c d slots) (hN : 1 ≤ N) (cmds : List CacheCmd) :
    (Transducer.run (cmdStep N) c cmds).map Prod.snd = (Transducer.run (cmdStep N) d cmds).map Prod.snd :=
  (Transducer.run_lockstep (R := fun c d => ∃ slots, Twin N c d slots) (fun _ _ cmd h => by
    obtain ⟨slots, h⟩ := h
    exact h.lockstep hN cmd) ⟨slots, h⟩ cmds).outputs

end Twin

/-! ### Runs -/

/-- What a flush is to do: it follows no null link, releases what was linked, and leaves an empty list behind,
from which every sequence of commands goes on as from a fresh cache. -/
def Flushes (N : Nat) (c : LRUCache) : Prop :=
  ∃ c', c.cacheFlush N = .ok c' ∧ UnlinksLinked c.length.toNat 0 c ∧ WellFormed N c' [] ∧
    (∀ i, c.set i = true → (c'.list i).domainName = none ∧ (c'.list i).ip = none) ∧
    (∀ i, c'.set i = false) ∧ c'.length = 0 ∧
    ∀ list links cmds, (Transducer.run (cmdStep N) c' cmds).map Prod.snd =
      (Transducer.run (cmdStep N) (.init list links) cmds).map Prod.snd

/-- Each flush of the sequence finds the first `length` slots in use. -/
def CompactRun (N : Nat) : LRUCache → List CacheCmd → Prop
  | _, [] => True
  | c, cmd :: cmds => (cmd = .flush → c.Compact) ∧
      ∀ c' out, cmdStep N c cmd = .ok (c', out) → CompactRun N c' cmds

namespace Tidy

theorem flushes_iff (h : Tidy N c slots) (hN : 1 ≤ N) : Flushes N c ↔ c.Compact := by
  constructor
  · rintro ⟨c', hflush, -⟩
    by_contra hc
    rw [h.flush_null hc] at hflush
    cases hflush
  · intro hc
    obtain ⟨c', hflush, hlinked, hc', hnone⟩ := h.toWellFormed.flush_ok hc
    refine ⟨c', hflush, hlinked, hc', hnone, fun i => Bool.eq_false_iff.2 fun hi => ?_, hc'.length, fun list links =>
      Twin.outputs ⟨⟨hc', nofun, fun _ _ hj => by cases hj⟩, .init N list links, nofun⟩ hN⟩
    cases (hc'.set_iff i).1 hi

/-- The step that goes through is the one that the slots in use allow. -/
theorem cmdStep_inv {cmd : CacheCmd} {out : CmdOut} (h : Tidy N c slots) (hN : 1 ≤ N)
    (hstep : DnsRelay.cmdStep N c cmd = .ok (c', out)) :
    (cmd = .flush → c.Compact) ∧ ∃ slots', Tidy N c' slots' := by
  have hcmd : cmd = .flush → c.Compact := by
    rintro rfl
    by_contra hc
    rw [DnsRelay.cmdStep, h.flush_null hc] at hstep
    cases hstep
  obtain ⟨c₁, hstep₁, hc₁, -⟩ := h.cmdStep hN cmd hcmd
  cases hstep.symm.trans hstep₁
  exact ⟨hcmd, _, hc₁⟩

theorem run {cmds : List CacheCmd} {outs : List CmdOut} (h : Tidy N c slots) (hN : 1 ≤ N)
    (hrun : Transducer.run (DnsRelay.cmdStep N) c cmds = .ok (c', outs)) : ∃ slots', Tidy N c' slots' := by
  induction cmds generalizing c slots outs with
  | nil => cases hrun; exact ⟨slots, h⟩
  | cons cmd cmds ih =>
    obtain ⟨c₁, out, c₂, outs, hstep, hrest, he⟩ := Transducer.run_cons_ok.1 hrun
    cases he
    obtain ⟨-, slots₁, h₁⟩ := h.cmdStep_inv hN hstep
    exact ih h₁ hrest

theorem run_ok_iff (h : Tidy N c slots) (hN : 1 ≤ N) (cmds : List CacheCmd) :
    (∃ c' outs, Transducer.run (DnsRelay.cmdStep N) c cmds = .ok (c', outs)) ↔ CompactRun N c cmds := by
  induction cmds generalizing c slots with
  | nil => exact ⟨fun _ => trivial, fun _ => ⟨c, [], rfl⟩⟩
  | cons cmd cmds ih =>
    constructor
    · rintro ⟨c', outs, hrun⟩
      obtain ⟨c₁, out, c₂, outs, hstep, hrest, -⟩ := Transducer.run_cons_ok.1 hrun
      obtain ⟨hcmd, slots₁, h₁⟩ := h.cmdStep_inv hN hstep
      refine ⟨hcmd, fun c' out' hstep' => ?_⟩
      cases hstep.symm.trans hstep'
      exact (ih h₁).1 ⟨c₂, outs, hrest⟩
    · rintro ⟨hcmd, hcmds⟩
      obtain ⟨c₁, hstep, h₁, -⟩ := h.cmdStep hN cmd hcmd
      obtain ⟨c₂, outs, hrest⟩ := (ih h₁).2 (hcmds c₁ _ hstep)
      exact ⟨c₂, _, Transducer.run_cons_ok.2 ⟨c₁, _, c₂, outs, hstep, hrest, rfl⟩⟩

end Tidy

/-- A sequence of commands goes through as long as each of its flushes finds the first `length` slots in use,
and in each state that is reached a flush does what it is to do if and only if they are. -/
theorem flush_iff_compact {list : Nat → DNSEntry} {links : Links Node} (hN : 1 ≤ N) (cmds : List CacheCmd) :
    ((∃ c outs, Transducer.run (cmdStep N) (.init list links) cmds = .ok (c, outs)) ↔
      CompactRun N (.init list links) cmds) ∧
    ∀ c outs, Transducer.run (cmdStep N) (.init list links) cmds = .ok (c, outs) → (Flushes N c ↔ c.Compact) := by
  have h := Tidy.init N list links
  refine ⟨h.run_ok_iff hN cmds, fun c outs hrun => ?_⟩
  obtain ⟨slots, hc⟩ := h.run hN hrun
  exact hc.flushes_iff hN

end

/-! ### An expiry -/

def letterRecord (letter : UInt8) (timestamp : Nat) : Record := ⟨[letter], [49], 1, 0, timestamp⟩

/-- The later of two records expires. -/
def lastExpires : List CacheCmd :=
  [.insert (letterRecord 97 9), .insert (letterRecord 98 1), .scan fun _ => 5]

/-- The earlier one does, and its slot stays free. -/
def firstExpires : List CacheCmd :=
  [.insert (letterRecord 97 1), .insert (letterRecord 98 9), .scan fun _ => 5]

theorem flush_iff_compact_last : ∃ c outs,
    Transducer.run (cmdStep 2) .zeroed (lastExpires ++ [.flush]) = .ok (c, outs) ∧
    outs = [.done, .done, .scanned true, .done] ∧ Flushes 2 c := by
  have houts : (Transducer.run (cmdStep 2) .zeroed (lastExpires ++ [.flush])).map Prod.snd =
      .ok [.done, .done, .scanned true, .done] := by decide +kernel
  cases hrun : Transducer.run (cmdStep 2) .zeroed (lastExpires ++ [.flush]) with
  | error f => rw [hrun] at houts; cases houts
  | ok r =>
    obtain ⟨c, outs⟩ := r
    have hlen : c.length = 0 := by
      have := congrArg (Except.map fun r => r.1.length) hrun
      exact Except.ok.inj (this.symm.trans (by decide +kernel))
    rw [hrun] at houts
    exact ⟨c, outs, rfl, Except.ok.inj houts, ((flush_iff_compact (by decide) _).2 c outs hrun).2
      fun i hi => by omega⟩

/-- From there a flush follows the null link of the freed slot. -/
theorem flush_null_link : ∃ c outs, Transducer.run (cmdStep 2) .zeroed firstExpires = .ok (c, outs) ∧
    c.cacheFlush 2 = .error .null ∧ ¬ Flushes 2 c := by
  have hsome : (Transducer.run (cmdStep 2) .zeroed firstExpires).isOk = true := by decide +kernel
  cases hrun : Transducer.run (cmdStep 2) .zeroed firstExpires with
  | error f => rw [hrun] at hsome; cases hsome
  | ok r =>
    obtain ⟨c, outs⟩ := r
    have hnull : (c.cacheFlush 2).map LRUCache.length = .error .null := by
      have := congrArg (fun x => x.bind fun r => (r.1.cacheFlush 2).map LRUCache.length) hrun
      exact this.symm.trans (by decide +kernel)
    cases hflush : c.cacheFlush 2 with
    | ok c' => rw [hflush] at hnull; cases hnull
    | error f =>
      rw [hflush] at hnull
      cases hnull
      refine ⟨c, outs, rfl, hflush, fun h => ?_⟩
      obtain ⟨c', hok, -⟩ := h
      cases hflush.symm.trans hok

end LRUCache

end DnsRelay
