import DnsRelay.CacheThreads
import DnsRelay.Deferred

/-!
# Every schedule of the threads at the cache

A rotation that waits holds slots that the query found. In between they may have been unlinked, but then their
links are null, and so an operation in one piece either keeps the cache tidy or follows a null link
(`Tidy.whole`). With this invariant of the serial runs the steps of an operation come to the operation
(`agrees`), and the library's rules apply to all schedules.
-/

namespace DnsRelay
open Exec RwLock

namespace LRUCache
variable {N : Nat} {c c' : LRUCache} {slots slots' temp : List Nat} {i : Nat}

/-- The slot is on the list or has a null link. -/
def Kept (c : LRUCache) (slots : List Nat) (i : Nat) : Prop := i ∈ slots ∨ c.links.next (.slot i) = none

/-- A slot that is taken off the list gets a null link, and the links of the others off the list stay. -/
theorem Kept.step (hnull : ∀ i ∈ slots, i ∉ slots' → c'.links.next (.slot i) = none)
    (hframe : ∀ i ∉ slots, i ∉ slots' → c'.links.next (.slot i) = c.links.next (.slot i)) (h : Kept c slots i) :
    Kept c' slots' i := by
  by_cases hi' : i ∈ slots'
  · exact .inl hi'
  · by_cases hi : i ∈ slots
    · exact .inr (hnull i hi hi')
    · refine .inr ?_
      rw [hframe i hi hi']
      exact h.resolve_left hi

/-! ### The operations -/

theorem outputLoop_spec (clk : Nat → Nat) {l₁ l₂ : List Nat} (h : WellFormed N c (l₁ ++ l₂)) {fuel : Nat}
    (hfuel : l₂.length < fuel) (k : Nat) (lines : List Line) :
    outputLoop clk c fuel k ((l₂.map Node.slot).headD .head) lines =
      .ok (lines ++ l₂.mapIdx fun j i => line (clk (k + j)) (c.list i)) := by
  induction l₂ generalizing l₁ fuel k lines with
  | nil =>
    obtain ⟨fuel, rfl⟩ := Nat.exists_eq_add_one.2 hfuel
    simp [outputLoop]
  | cons i l₂ ih =>
    obtain ⟨fuel, rfl⟩ := Nat.exists_eq_add_one.2 (Nat.zero_lt_of_lt hfuel)
    have hr := h.ring
    rw [map_slot_append] at hr
    have h' : WellFormed N c ((l₁ ++ [i]) ++ l₂) := by rwa [List.append_assoc]
    rw [List.length_cons] at hfuel
    simp only [List.map_cons, List.headD_cons, outputLoop, deref, ok_bind, hr.next_mid]
    rw [ih h' (by omega) (k + 1)]
    simp [Nat.add_assoc, Nat.add_comm 1]

/-- `cacheOutput` lists the records from the front and counts them. -/
theorem cacheOutput_spec (clk : Nat → Nat) (h : WellFormed N c slots) :
    c.cacheOutput N clk = .ok (slots.length, slots.mapIdx fun k i => line (clk k) (c.list i)) := by
  have := outputLoop_spec clk (show WellFormed N c ([] ++ slots) from h) (lt_walkFuel h.length_le) 0 []
  rw [cacheOutput, h.next_head]
  simp only [deref, ok_bind, this, h.length]
  simp [Pure.pure, Except.pure]

/-- Rotating one linked slot. -/
theorem rotate_stale (h : WellFormed N c slots) (hne : slots ≠ []) (hk : ∀ i ∈ temp, Kept c slots i)
    (hout : ∃ i ∈ temp, i ∉ slots) : c.cacheRotate temp = .error .null := by
  induction temp generalizing c slots with
  | nil =>
    obtain ⟨i, hi, -⟩ := hout
    cases hi
  | cons i temp ih =>
    have hempty : ¬ mylistEmpty c.links .head = true := fun he =>
      hne (List.map_eq_nil_iff.1 ((mylistEmpty_ring h.ring).1 he))
    rw [cacheRotate]
    by_cases hi : i ∈ slots
    · obtain ⟨links, hrot, h', hframe⟩ := Deferred.rotate_one h hi
      have hperm : (i :: slots.erase i).Perm slots := (List.perm_cons_erase hi).symm
      rw [hrot]
      refine ih h' (List.cons_ne_nil _ _) (fun j hj => ?_) ?_
      · refine Kept.step (fun j hj hj' => absurd (hperm.mem_iff.2 hj) hj') (fun j hj _ => hframe j hj)
          (hk j (List.mem_cons_of_mem _ hj))
      · obtain ⟨j, hj, hj'⟩ := hout
        refine ⟨j, (List.mem_cons.1 hj).resolve_left fun he => hj' (he ▸ hi), mt hperm.mem_iff.1 hj'⟩
    · have hnull : c.links.next (.slot i) = none := (hk i List.mem_cons_self).resolve_left hi
      rw [mylistRotateNodeHead, if_neg hempty, mylistMoveHead, mylistUnlink, hnull]
      rfl

theorem flushLoop_links {n : Nat} (hr : IsRing c.links .head (slots.map .slot)) (hmem : ∀ k < n, i + k ∈ slots) :
    ∃ c', flushLoop n i c = .ok c' ∧ (∀ j, i ≤ j → j < i + n → c'.links.next (.slot j) = none) ∧
      ∀ j ∉ slots, c'.links.next (.slot j) = c.links.next (.slot j) := by
  induction n generalizing i c slots with
  | zero => exact ⟨c, rfl, fun j h₁ h₂ => by omega, fun _ _ => rfl⟩
  | succ n ih =>
    have hi : i ∈ slots := hmem 0 (Nat.succ_pos n)
    obtain ⟨l₁, l₂, rfl⟩ := List.append_of_mem hi
    obtain ⟨links, hdel, hr₁, hnull, hframe⟩ := listDel_ok hr
    have hnodup : i ∉ l₁ ++ l₂ := by
      have := hr.nodup_tail.of_map Node.slot
      exact (List.nodup_middle.1 this).notMem
    set list := Function.update c.list i { c.list i with domainName := none, ip := none } with hlist
    have hmem' : ∀ k < n, i + 1 + k ∈ l₁ ++ l₂ := by
      intro k hk
      have := hmem (k + 1) (Nat.succ_lt_succ hk)
      simp only [List.mem_append, List.mem_cons] at this ⊢
      rw [show i + 1 + k = i + (k + 1) by omega]
      exact this.imp_right fun h => h.resolve_left (by omega)
    obtain ⟨c', hloop, hnone, hrest⟩ := ih (c := { c with list := list, links := links }) hr₁ hmem'
    refine ⟨c', by rw [flushLoop, hdel]; exact hloop, fun j h₁ h₂ => ?_, fun j hj => ?_⟩
    · rcases Nat.eq_or_lt_of_le h₁ with rfl | hlt
      · rw [hrest i hnodup]
        exact hnull
      · exact hnone j hlt (by omega)
    · rw [hrest j fun hm => hj (List.perm_middle.mem_iff.2 (List.mem_cons_of_mem _ hm))]
      exact hframe j hj

/-! ### The operations in one piece -/

/-- An operation that goes through keeps the cache tidy, and the slots that rotations hold on the list or with a
null link. -/
structure Goes (N : Nat) (op : CacheSection) (c : LRUCache) (slots : List Nat) (c' : LRUCache) (out : SectionOut)
    (slots' : List Nat) : Prop where
  eq : whole N op c = .ok (c', out)
  tidy : Tidy N c' slots'
  kept : ∀ i, Kept c slots i → Kept c' slots' i
  held : ∀ temp, .rotate temp ∈ spawned op out → ∀ i ∈ temp, i ∈ slots'

theorem Tidy.goes_query (h : Tidy N c slots) (name : List UInt8) (type : UInt8) (clk : Nat → Nat) :
    ∃ out, Goes N (.request (.query name type clk)) c slots c out slots := by
  have hquery := cacheQuery_spec clk (queryEntry name type clk) rfl h.toWellFormed h.named
  refine ⟨_, by rw [whole, hquery]; rfl, h, fun _ hi => hi, fun temp ht i hi => ?_⟩
  obtain rfl : temp = found clk name type c slots := by
    have := List.mem_singleton.1 ht
    simp only [CacheSection.rotate.injEq] at this
    rw [this, map_snd_found]
    rfl
  exact found_subset hi

theorem Tidy.goes_output (h : Tidy N c slots) (clk : Nat → Nat) :
    ∃ out, Goes N (.request (.output clk)) c slots c out slots :=
  ⟨_, by rw [whole, cacheOutput_spec clk h.toWellFormed]; rfl, h, fun _ hi => hi, fun _ ht => by cases ht⟩

theorem Tidy.goes_insert (h : Tidy N c slots) (hN : 1 ≤ N) (r : Record) :
    ∃ c' slots', Goes N (.request (.insert r)) c slots c' .done slots' := by
  by_cases hlt : slots.length < N
  · obtain ⟨c', hins, hc', -⟩ := h.insert_free hlt r
    obtain ⟨c₁, hins₁, -, -, -, hframe⟩ := cacheInsert_free h.toWellFormed hlt r.entry
    cases hins.symm.trans hins₁
    refine ⟨c', _, by rw [whole, hins]; rfl, hc', fun i => Kept.step ?_ ?_, fun _ ht => by cases ht⟩
    · exact fun i hi hi' => absurd (List.mem_cons_of_mem _ hi) hi'
    · exact fun i _ hi' => hframe i hi'
  · obtain ⟨l, tail, rfl, hlen⟩ := h.toWellFormed.eq_concat hN hlt
    obtain ⟨c', hins, hc', -⟩ := h.insert_full hlen r
    obtain ⟨c₁, hins₁, -, -, hframe⟩ := cacheInsert_full h.toWellFormed hlen r.entry
    cases hins.symm.trans hins₁
    refine ⟨c', _, by rw [whole, hins]; rfl, hc', fun i => Kept.step ?_ ?_, fun _ ht => by cases ht⟩
    · exact fun i hi hi' => absurd (by simpa [or_comm] using hi) hi'
    · exact fun i hi _ => hframe i hi

theorem Tidy.goes_scan (h : Tidy N c slots) (clk : Nat → Nat) :
    ∃ c' out slots', Goes N (.request (.scan clk)) c slots c' out slots' := by
  obtain ⟨c', hscan, hc', -⟩ := h.scan clk
  obtain ⟨c₁, hscan₁, -, -, hnull, hframe⟩ := cacheScan_spec clk h.toWellFormed
  cases hscan.symm.trans hscan₁
  exact ⟨c', _, _, by rw [whole, hscan]; rfl, hc', fun i => Kept.step hnull fun i hi _ => hframe i hi,
    fun _ ht => by cases ht⟩

theorem Tidy.goes_flush (h : Tidy N c slots) (hc : c.Compact) :
    ∃ c', Goes N (.request .flush) c slots c' .done [] := by
  obtain ⟨c', hflush, -, hc', -⟩ := h.toWellFormed.flush_ok hc
  have hlen : c.length.toNat = slots.length := by rw [h.length, Int.toNat_natCast]
  obtain ⟨c₁, hloop, hnone, hrest⟩ := flushLoop_links (n := slots.length) (i := 0) h.ring fun k hk => by
    rw [Nat.zero_add]
    exact h.toWellFormed.compact_iff.1 hc k hk
  have hlinks : ∀ i, c'.links.next (.slot i) = c₁.links.next (.slot i) := by
    rw [cacheFlush, hlen, hloop] at hflush
    cases hflush
    intro i
    have hne : Node.slot i ≠ .head := Node.noConfusion
    exact Function.update_of_ne hne (some Node.head) c₁.links.next
  refine ⟨c', by rw [whole, hflush]; rfl, ⟨hc', fun i hi => (by cases hi), fun _ _ hj => by cases hj⟩,
    fun i hi => .inr ?_, fun _ ht => by cases ht⟩
  rw [hlinks]
  by_cases hmem : i ∈ slots
  · -- the slots in use are those the loop runs over
    have hsub : List.range slots.length ⊆ slots := fun i hi => h.toWellFormed.compact_iff.1 hc i (List.mem_range.1 hi)
    have hperm := (List.nodup_range.subperm hsub).perm_of_length_le (by rw [List.length_range])
    exact hnone i (Nat.zero_le i) (by rw [Nat.zero_add]; exact List.mem_range.1 (hperm.mem_iff.2 hmem))
  · rw [hrest i hmem]
    exact hi.resolve_left hmem

theorem Tidy.goes_rotate (h : Tidy N c slots) (hk : ∀ i ∈ temp, Kept c slots i) :
    (∃ c' slots', Goes N (.rotate temp) c slots c' .done slots') ∨ whole N (.rotate temp) c = .error .null := by
  by_cases hsub : temp ⊆ slots
  · obtain ⟨c', hrot, hc', -⟩ := h.rotate hsub
    obtain ⟨links, hrot₁, -, hframe⟩ := cacheRotate_spec h.toWellFormed hsub
    have hperm := Recency.touch_perm hsub
    cases hrot.symm.trans hrot₁
    exact .inl ⟨_, _, by rw [whole, hrot]; rfl, hc', fun i => Kept.step
      (fun i hi hi' => absurd (hperm.mem_iff.2 hi) hi') (fun i hi _ => hframe i hi), fun _ ht => by cases ht⟩
  · by_cases hne : slots = []
    · have he : mylistEmpty c.links .head = true := (mylistEmpty_ring h.ring).2 (List.map_eq_nil_iff.2 hne)
      exact .inl ⟨c, slots, by rw [whole, Deferred.cacheRotate_empty he]; rfl, h, fun _ hi => hi,
        fun _ ht => by cases ht⟩
    · refine .inr ?_
      rw [whole, rotate_stale h.toWellFormed hne hk (by
        simpa only [List.subset_def, not_forall, exists_prop] using hsub)]
      rfl

/-- In one piece an operation goes through or follows a null link. -/
theorem Tidy.goes (h : Tidy N c slots) (hN : 1 ≤ N) (op : CacheSection)
    (hop : ∀ temp, op = .rotate temp → ∀ i ∈ temp, Kept c slots i) :
    (∃ c' out slots', Goes N op c slots c' out slots') ∨ whole N op c = .error .null := by
  cases op with
  | rotate temp => exact (h.goes_rotate (hop temp rfl)).imp_left fun ⟨c', slots', hg⟩ => ⟨c', _, slots', hg⟩
  | request q =>
    cases q with
    | query name type clk =>
      obtain ⟨out, hg⟩ := h.goes_query name type clk
      exact .inl ⟨c, out, slots, hg⟩
    | insert r =>
      obtain ⟨c', slots', hg⟩ := h.goes_insert hN r
      exact .inl ⟨c', _, slots', hg⟩
    | scan clk => exact .inl (h.goes_scan clk)
    | output clk =>
      obtain ⟨out, hg⟩ := h.goes_output clk
      exact .inl ⟨c, out, slots, hg⟩
    | flush =>
      by_cases hc : c.Compact
      · obtain ⟨c', hg⟩ := h.goes_flush hc
        exact .inl ⟨c', _, _, hg⟩
      · refine .inr ?_
        rw [whole, h.flush_null hc]
        rfl

end LRUCache

/-! ### Schedules -/

/-- A tidy cache, and rotations pending on slots that are on the list or have null links. -/
def Pending (N : Nat) (c : LRUCache) (ops : List CacheSection) : Prop :=
  ∃ slots, LRUCache.Tidy N c slots ∧ ∀ temp, .rotate temp ∈ ops → ∀ i ∈ temp, LRUCache.Kept c slots i

section
variable {N : Nat} {c : LRUCache} {ops : List CacheSection} {op : CacheSection}

theorem Pending.goes (h : Pending N c ops) (hN : 1 ≤ N) (hop : op ∈ ops) :
    (∃ slots c' out slots', LRUCache.Goes N op c slots c' out slots' ∧
      ∀ temp, .rotate temp ∈ ops → ∀ i ∈ temp, LRUCache.Kept c slots i) ∨ whole N op c = .error .null := by
  obtain ⟨slots, hc, hk⟩ := h
  refine (hc.goes hN op fun temp he => hk temp (he ▸ hop)).imp_left fun ⟨c', out, slots', hg⟩ => ?_
  exact ⟨slots, c', out, slots', hg, hk⟩

theorem Pending.ne_hang (h : Pending N c ops) (hN : 1 ≤ N) (hop : op ∈ ops) : whole N op c ≠ .error .hang := by
  intro he
  rcases h.goes hN hop with ⟨_, _, _, _, hg, -⟩ | hnull
  · cases hg.eq.symm.trans he
  · cases hnull.symm.trans he

theorem agrees (hN : 1 ≤ N) : Agrees (cacheSections N) (whole N) (Pending N) where
  ends h hop := ends_whole (h.ne_hang hN hop)
  arrive q h := by
    obtain ⟨slots, hc, hk⟩ := h
    refine ⟨slots, hc, fun temp ht => hk temp ?_⟩
    rcases List.mem_append.1 ht with ht | ht
    · exact ht
    · cases List.mem_singleton.1 ht
  section_ h hk hw := by
    rcases h.goes hN (List.mem_of_getElem? hk) with ⟨slots, c', out, slots', hg, hkept⟩ | hnull
    · cases hg.eq.symm.trans hw
      refine ⟨slots', hg.tidy, fun temp ht i hi => ?_⟩
      rcases List.mem_append.1 ht with ht | ht
      · exact hg.kept i (hkept temp (List.mem_of_mem_eraseIdx ht) i hi)
      · exact .inl (hg.held temp ht i hi)
    · cases hnull.symm.trans hw

end

/-- No threads, and a fresh cache in memory that held `list` and `links`. -/
def idle (list : Nat → DNSEntry) (links : Links Node) : RwLock.State LRUCache CacheSection Local SectionOut :=
  ⟨.init list links, [], []⟩

def serialIdle (list : Nat → DNSEntry) (links : Links Node) : Serial.State LRUCache CacheSection SectionOut :=
  ⟨.init list links, [], []⟩

section
variable {N : Nat}

theorem Pending.idle (N : Nat) (list : Nat → DNSEntry) (links : Links Node) :
    Pending N (serialIdle list links).data (serialIdle list links).pending :=
  ⟨[], .init N list links, fun _ ht => by cases ht⟩

theorem coherent_idle (N : Nat) (list : Nat → DNSEntry) (links : Links Node) :
    Coherent (cacheSections N) (idle list links) (serialIdle list links) :=
  ⟨rfl, rfl, fun _ _ hm => (by cases hm), fun _ _ _ _ _ hk => (by cases hk), fun _ => rfl⟩

/-- A serial run has come to `b`, and thread `k` of the schedule `es`, in the state `s`, is next and inside `op`. -/
abbrev ThreadReaches (N : Nat) (list : Nat → DNSEntry) (links : Links Node) (es pre es' : List (Event CacheRequest))
    (s : RwLock.State LRUCache CacheSection Local SectionOut) (b : Serial.State LRUCache CacheSection SectionOut)
    (k : Nat) (op : CacheSection) : Prop :=
  Reaches (cacheSections N) (whole N) (idle list links) (serialIdle list links) es pre es' s b k op

/-- A fault is a null link, in one piece too. -/
theorem run_null (hN : 1 ≤ N) (list : Nat → DNSEntry) (links : Links Node) {es : List (Event CacheRequest)} {f : Fault}
    (hf : RwLock.run (cacheSections N) (idle list links) es = .error f) :
    f = .null ∧ ∃ pre es' s b k op, ThreadReaches N list links es pre es' s b k op ∧ Pending N b.data b.pending ∧
      whole N op b.data = .error .null := by
  obtain ⟨pre, es', s, b, k, op, hr, hp, hw⟩ :=
    (coherent_idle N list links).run_fault (agrees hN) (.idle N list links) hf
  rcases hp.goes hN (List.mem_of_getElem? hr.pending) with ⟨_, _, _, _, hg, -⟩ | hnull
  · cases hg.eq.symm.trans hw
  · cases hnull.symm.trans hw
    exact ⟨rfl, pre, es', s, b, k, op, hr, hp, hw⟩

/-- Whatever the schedule, the threads have done what a serial run does that takes a part of the schedule's events,
each operation at the event with which it releases the lock. A thread that is inside has come from the data of
that run to what is there now, a writer is alone inside, and the data of the run are a tidy cache. The only fault
that a schedule meets is a null link, and the serial run of what the threads had done until then meets it too, in
the operation of the thread that faults. -/
theorem threads_serial (hN : 1 ≤ N) (list : Nat → DNSEntry) (links : Links Node) (es : List (Event CacheRequest)) :
    (∀ s, RwLock.run (cacheSections N) (idle list links) es = .ok s → ∃ es' b slots, es'.Sublist es ∧
      Serial.run (cacheSections N) (whole N) (serialIdle list links) es' = .ok b ∧
      Coherent (cacheSections N) s b ∧ LRUCache.Tidy N b.data slots) ∧
    ∀ f, RwLock.run (cacheSections N) (idle list links) es = .error f → f = .null ∧
      ∃ pre es' s b slots k op, ThreadReaches N list links es pre es' s b k op ∧ LRUCache.Tidy N b.data slots ∧
        whole N op b.data = .error .null ∧ (es' ++ [Event.run k]).Sublist es ∧
        Serial.run (cacheSections N) (whole N) (serialIdle list links) (es' ++ [Event.run k]) = .error .null := by
  constructor
  · intro s hs
    obtain ⟨es', b, hsub, hb, ⟨slots, hc, -⟩, hcoh⟩ :=
      (coherent_idle N list links).run (agrees hN) (.idle N list links) hs
    exact ⟨es', b, slots, hsub, hb, hcoh, hc⟩
  · intro f hf
    obtain ⟨hnull, pre, es', s, b, k, op, hr, ⟨slots, hc, -⟩, hw⟩ := run_null hN list links hf
    obtain ⟨hserial, hsub⟩ := hr.serial_fault hw
    exact ⟨hnull, pre, es', s, b, slots, k, op, hr, hc, hw, hsub, hserial⟩

/-- A cache in memory that was all zero. -/
def zeroIdle : RwLock.State LRUCache CacheSection Local SectionOut :=
  idle (fun _ => ⟨none, none, 0, 0, 0⟩) ⟨fun _ => none, fun _ => none⟩

def serialZero : Serial.State LRUCache CacheSection SectionOut :=
  serialIdle (fun _ => ⟨none, none, 0, 0, 0⟩) ⟨fun _ => none, fun _ => none⟩

/-- Two insertions, of which the second waits for the first, two queries at the same time, and one of their
rotations. -/
def overlap : List (Event CacheRequest) :=
  [.arrive (.insert ⟨[97], [49], 1, 0, 9⟩), .run 0, .arrive (.insert ⟨[98], [50], 1, 0, 9⟩), .run 0, .run 1, .run 0,
    .run 1, .run 0, .run 0, .run 0, .run 0, .run 0, .run 0,
    .arrive (.query [97] 1 fun _ => 3), .arrive (.query [98] 1 fun _ => 4), .run 0, .run 1, .run 0, .run 1, .run 0,
    .run 1, .run 0, .run 1, .run 1, .run 0, .run 1, .run 0, .run 1, .run 1, .run 1]

def overlapOut : List SectionOut :=
  [.done, .done, .found [(⟨some [98], some [50], 1, 0, 9⟩, 1)], .found [(⟨some [97], some [49], 1, 0, 9⟩, 0)], .done]

theorem run_overlap : ∃ s, RwLock.run (cacheSections 2) zeroIdle overlap = .ok s ∧
    s.log.map Prod.snd = overlapOut ∧ s.threads.length = 1 := by
  have hout : (RwLock.run (cacheSections 2) zeroIdle overlap).map (fun s => (s.log.map Prod.snd, s.threads.length)) =
      .ok (overlapOut, 1) := by decide +kernel
  cases hs : RwLock.run (cacheSections 2) zeroIdle overlap with
  | error f => rw [hs] at hout; cases hout
  | ok s =>
    rw [hs] at hout
    have he := Except.ok.inj hout
    exact ⟨s, rfl, congrArg Prod.fst he, congrArg Prod.snd he⟩

theorem threads_serial_overlap : ∃ es' b slots, es'.Sublist overlap ∧
    Serial.run (cacheSections 2) (whole 2) serialZero es' = .ok b ∧ b.log.map Prod.snd = overlapOut ∧
    LRUCache.Tidy 2 b.data slots := by
  obtain ⟨s, hs, hlog, -⟩ := run_overlap
  obtain ⟨es', b, slots, hsub, hb, hcoh, hc⟩ := (threads_serial (by decide) _ _ overlap).1 s hs
  exact ⟨es', b, slots, hsub, hb, by rw [hcoh.log, hlog], hc⟩

/-- A query leaves one rotation behind, the others nothing. -/
def CacheSection.weight : CacheSection → Nat
  | .request (.query ..) => 2
  | _ => 1

theorem weight_spawned (op : CacheSection) (out : SectionOut) :
    ((spawned op out).map CacheSection.weight).sum < op.weight := by
  unfold spawned
  split
  · exact Nat.lt_succ_self 1
  · unfold CacheSection.weight
    split <;> exact Nat.succ_pos _

/-- No schedule gets stuck: in each state reached, the threads there are can be scheduled so that all come to their
end, unless one of them follows a null link. -/
theorem threads_drain (hN : 1 ≤ N) (list : Nat → DNSEntry) (links : Links Node) (es : List (Event CacheRequest))
    (s : RwLock.State LRUCache CacheSection Local SectionOut)
    (hs : RwLock.run (cacheSections N) (idle list links) es = .ok s) :
    ∃ ks : List Nat, RwLock.run (cacheSections N) s (ks.map .run) = .error .null ∨
      ∃ s', RwLock.run (cacheSections N) s (ks.map .run) = .ok s' ∧ s'.threads = [] := by
  obtain ⟨-, b, -, -, hp, hcoh⟩ := (coherent_idle N list links).run (agrees hN) (.idle N list links) hs
  obtain ⟨ks, ⟨f, hf⟩ | hdone⟩ := hcoh.exists_drain (agrees hN) weight_spawned hp
  · refine ⟨ks, .inl ?_⟩
    obtain ⟨rfl, -⟩ := run_null hN list links ((run_append es (ks.map .run) hs).trans hf)
    exact hf
  · exact ⟨ks, .inr hdone⟩

theorem threads_drain_overlap : ∃ s, ∃ ks : List Nat, RwLock.run (cacheSections 2) zeroIdle overlap = .ok s ∧
    s.threads.length = 1 ∧ (RwLock.run (cacheSections 2) s (ks.map .run) = .error .null ∨
      ∃ s', RwLock.run (cacheSections 2) s (ks.map .run) = .ok s' ∧ s'.threads = []) := by
  obtain ⟨s, hs, -, hlen⟩ := run_overlap
  obtain ⟨ks, h⟩ := threads_drain (by decide) _ _ overlap s hs
  exact ⟨s, ks, hs, hlen, h⟩

/-! ### Results -/

/-- What a result in the log is: the records that a query found are whole, they are what it asked for and in
different places, and a listing has as many records as it says. -/
def Untorn (N : Nat) : CacheSection × SectionOut → Prop
  | (.request (.query name type clk), .found result) => result.length ≤ N ∧ (result.map Prod.snd).Nodup ∧
      ∀ x ∈ result, x.1.domainName = some name ∧ x.1.ip ≠ none ∧ x.1.type = type ∧ ∃ k < N, clk k ≤ x.1.timestamp
  | (.request (.output _), .listing length lines) => length = lines.length
  | _ => True

theorem untorn_query {c c' : LRUCache} {slots : List Nat} {name : List UInt8} {type : UInt8} {clk : Nat → Nat}
    {result : List (DNSEntry × Nat)} (h : LRUCache.Tidy N c slots)
    (hw : whole N (.request (.query name type clk)) c = .ok (c', .found result)) :
    Untorn N (.request (.query name type clk), .found result) := by
  have hquery := LRUCache.cacheQuery_spec clk (queryEntry name type clk) rfl h.toWellFormed h.named
  rw [whole, hquery] at hw
  cases hw
  have hsub : (LRUCache.found clk name type c slots).Sublist slots := Recency.keep_sublist _ _ _
  refine ⟨?_, ?_, fun x hx => ?_⟩
  · rw [List.length_map]
    exact hsub.length_le.trans h.toWellFormed.length_le
  · rw [LRUCache.map_snd_found]
    exact h.toWellFormed.nodup.sublist hsub
  · obtain ⟨i, hi, rfl⟩ := List.mem_map.1 hx
    obtain ⟨k, hk, hhit⟩ := Recency.exists_lt_of_mem_keep hi
    have hlen := h.toWellFormed.length_le
    obtain ⟨hname, hlive, htype⟩ := of_decide_eq_true hhit
    exact ⟨hname, (h.named i (hsub.subset hi)).2, htype, k, by omega, hlive⟩

theorem untorn_output {c c' : LRUCache} {slots : List Nat} {clk : Nat → Nat} {length : Int}
    {lines : List LRUCache.Line} (h : LRUCache.Tidy N c slots)
    (hw : whole N (.request (.output clk)) c = .ok (c', .listing length lines)) : length = lines.length := by
  rw [whole, LRUCache.cacheOutput_spec clk h.toWellFormed] at hw
  cases hw
  simp

/-- Under every schedule each result is that of the operation in one piece on a cache that no other thread is changing:
the one that the operations logged before it have left, which for a reader is what it finds when it releases the
lock. -/
theorem threads_untorn (hN : 1 ≤ N) (list : Nat → DNSEntry) (links : Links Node) (es : List (Event CacheRequest))
    (s : RwLock.State LRUCache CacheSection Local SectionOut)
    (hs : RwLock.run (cacheSections N) (idle list links) es = .ok s) (i : Nat) (op : CacheSection) (out : SectionOut)
    (hi : s.log[i]? = some (op, out)) :
    Untorn N (op, out) ∧ ∃ pre es' s₁ b slots k c', ThreadReaches N list links es pre es' s₁ b k op ∧
      s₁.log = s.log.take i ∧ LRUCache.Tidy N b.data slots ∧ whole N op b.data = .ok (c', out) ∧
      (op.writes = false → s₁.data = b.data) := by
  obtain ⟨pre, es', s₁, b, k, c', hr, ⟨slots, hc, -⟩, hlog, hw⟩ :=
    (coherent_idle N list links).run_log (agrees hN) (.idle N list links) hs (Nat.zero_le i) hi
  refine ⟨?_, pre, es', s₁, b, slots, k, c', hr, hlog, hc, hw, fun hread => ?_⟩
  · unfold Untorn
    split
    case h_1 he =>
      cases he
      exact untorn_query hc hw
    case h_2 he =>
      cases he
      exact untorn_output hc hw
    case h_3 => trivial
  · obtain ⟨l, hl⟩ := hr.inside
    exact hr.coherent.data_eq hl hread

theorem threads_untorn_overlap : ∃ s, RwLock.run (cacheSections 2) zeroIdle overlap = .ok s ∧
    s.log.map Prod.snd = overlapOut ∧ ∀ (i : Nat) op out, s.log[i]? = some (op, out) →
      Untorn 2 (op, out) ∧ ∃ c slots c', LRUCache.Tidy 2 c slots ∧ whole 2 op c = .ok (c', out) := by
  obtain ⟨s, hs, hlog, -⟩ := run_overlap
  refine ⟨s, hs, hlog, fun i op out hi => ?_⟩
  obtain ⟨hu, -, -, -, b, slots, -, c', -, -, hc, hw, -⟩ := threads_untorn (by decide) _ _ overlap s hs i op out hi
  exact ⟨hu, b.data, slots, c', hc, hw⟩

end

end DnsRelay
