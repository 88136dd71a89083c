import Mathlib.Order.Monotone.Defs
import DnsRelay.CacheRefine

/-!
# Deferred rotations

`cacheQuery` leaves a job behind: `__LRU_cache_rotate`, which runs when its thread gets the lock.
Here the locked sections are the steps and a job may run at any later one. The job holds slot
addresses, so what matters is whether the slots still hold what the query found there. To be able to
say so, every insertion is numbered; `born i` is the number of the insertion that filled slot `i`
last, and a job remembers it beside each slot.

A job is *lost* once a scan has unlinked or an insertion has evicted one of its slots.
-/

namespace DnsRelay
open Exec

/-- A pending `__LRU_cache_rotate`: the slots `temp_array` points to, each with the number of the
insertion whose record the query found there. -/
structure Job where
  temp : List (Nat × Nat)
  lost : Bool

namespace Job

def slots (j : Job) : List Nat := j.temp.map Prod.fst

/-- The job after the slots that pass `p` were unlinked. -/
def mark (p : Nat → Bool) (j : Job) : Job := { j with lost := j.lost || j.slots.any p }

end Job

structure Deferred where
  cache : LRUCache
  inserted : Nat
  born : Nat → Nat
  jobs : List Job

namespace Deferred

def init (list : Nat → DNSEntry) (links : Links Node) : Deferred := ⟨.init list links, 0, fun _ => 0, []⟩

def zeroed : Deferred := init (fun _ => ⟨none, none, 0, 0, 0⟩) ⟨fun _ => none, fun _ => none⟩

inductive Event
  | query (name : List UInt8) (type : UInt8) (clk : Nat → Nat)
  | rotate (k : Nat)
  | insert (r : Record)
  | scan (clk : Nat → Nat)

def front (c : LRUCache) (i : Nat) : Bool := c.links.next .head = some (.slot i)

/-- One locked section. `rotate k` runs the `k`-th of the pending jobs. -/
def step (N : Nat) (s : Deferred) : Event → Exec Deferred
  | .query name type clk => do
    let found ← s.cache.cacheQuery N clk (dnsEntrySet (some name) none 0 type 0 (clk 0))
    return { s with jobs := s.jobs ++ [⟨found.map fun x => (x.2, s.born x.2), false⟩] }
  | .rotate k => match s.jobs[k]? with
    | none => .ok s
    | some job => do
      let c ← s.cache.cacheRotate job.slots
      return { s with cache := c, jobs := s.jobs.eraseIdx k }
  | .insert r => do
    let c ← s.cache.cacheInsert N r.entry
    let evicts i := !decide (s.cache.length < N) && front c i
    return {
      cache := c
      inserted := s.inserted + 1
      born := fun i => if front c i then s.inserted + 1 else s.born i
      jobs := s.jobs.map (.mark evicts) }
  | .scan clk => do
    let (c, _) ← s.cache.cacheScan N clk
    return { s with cache := c, jobs := s.jobs.map (.mark fun i => s.cache.set i && !c.set i) }

def run (N : Nat) (s : Deferred) (es : List Event) : Exec Deferred := es.foldlM (step N) s

/-- The readings of an event. -/
def Event.clk : Event → Option (Nat → Nat)
  | .query _ _ clk => some clk
  | .scan clk => some clk
  | _ => none

/-- The clock does not go back, within an event or between two. -/
def Timed (es : List Event) : Prop :=
  (∀ clk ∈ es.filterMap Event.clk, Monotone clk) ∧
  (es.filterMap Event.clk).Pairwise fun clk clk' => ∀ k k', clk k ≤ clk' k'

def Linked (c : LRUCache) (i : Nat) : Prop :=
  c.links.next (.slot i) ≠ none ∧ c.links.prev (.slot i) ≠ none

/-- Each node that rotating `temp` moves is linked at that moment and holds the record that the query
found in it. -/
def Safe (born : Nat → Nat) : LRUCache → List (Nat × Nat) → Prop
  | _, [] => True
  | c, (i, n) :: temp =>
    (mylistEmpty c.links .head = true ∨ Linked c i ∧ born i = n) ∧
    ∀ links, mylistRotateNodeHead c.links (.slot i) .head = .ok links → Safe born { c with links := links } temp

/-- What a rotation needs: an empty list, in which it moves nothing, or a job that is not lost. -/
def Admissible (s : Deferred) : Event → Prop
  | .rotate k => ∀ job, s.jobs[k]? = some job → mylistEmpty s.cache.links .head = true ∨ job.lost = false
  | _ => True

/-- Every step of the run is admissible. -/
def Meets (N : Nat) : Deferred → List Event → Prop
  | _, [] => True
  | s, e :: es => Admissible s e ∧ ∀ s', step N s e = .ok s' → Meets N s' es

/-! ### The invariant -/

/-- What is known of a pending job. -/
structure JobInv (s : Deferred) (slots : List Nat) (job : Job) : Prop where
  le : ∀ x ∈ job.temp, x.2 ≤ s.inserted
  null : ∀ x ∈ job.temp, x.1 ∉ slots → s.cache.links.next (.slot x.1) = none
  held : job.lost = false → ∀ x ∈ job.temp, x.1 ∈ slots ∧ s.born x.1 = x.2
  gone : job.lost = true → ∃ x ∈ job.temp, x.1 ∉ slots ∨ s.born x.1 ≠ x.2

structure Inv (N : Nat) (s : Deferred) (slots : List Nat) : Prop extends
    LRUCache.WellFormed N s.cache slots where
  named : ∀ i ∈ slots, LRUCache.Named (s.cache.list i)
  born_le : ∀ i, s.born i ≤ s.inserted
  jobs : ∀ job ∈ s.jobs, JobInv s slots job

variable {N : Nat} {s s' : Deferred} {slots slots' : List Nat} {job : Job}

theorem Inv.init (N : Nat) (list : Nat → DNSEntry) (links : Links Node) :
    Inv N (.init list links) [] :=
  ⟨LRUCache.WellFormed.init N list links, nofun, fun _ => le_rfl, nofun⟩

/-- A job through a step that renumbers only slots it links, that unlinks exactly the slots it marks,
and that nulls the links of a slot it leaves out. -/
theorem JobInv.mark (hj : JobInv s slots job) {p : Nat → Bool}
    (hle : s.inserted ≤ s'.inserted)
    (hborn : ∀ i, s'.born i = s.born i ∨ s'.born i = s.inserted + 1)
    (hnull : ∀ i ∉ slots', (i ∈ slots → s'.cache.links.next (.slot i) = none) ∧
      (i ∉ slots → s'.cache.links.next (.slot i) = s.cache.links.next (.slot i)))
    (hnew : ∀ i ∈ slots', i ∉ slots → s'.born i = s.inserted + 1)
    (hkeep : ∀ i ∈ slots, p i = false → i ∈ slots' ∧ s'.born i = s.born i)
    (hlose : ∀ i, p i = true → i ∉ slots' ∨ s'.born i = s.inserted + 1) :
    JobInv s' slots' (job.mark p) where
  le x hx := (hj.le x hx).trans hle
  null x hx hn := by
    by_cases hm : x.1 ∈ slots
    · exact (hnull _ hn).1 hm
    · rw [(hnull _ hn).2 hm]; exact hj.null x hx hm
  held hl x hx := by
    obtain ⟨hl, hp⟩ := Bool.or_eq_false_iff.1 hl
    obtain ⟨hm, hb⟩ := hj.held hl x hx
    have hpx : p x.1 = false := by
      have := List.any_eq_false.1 hp x.1 (List.mem_map_of_mem hx)
      simpa using this
    exact ⟨(hkeep _ hm hpx).1, (hkeep _ hm hpx).2.trans hb⟩
  gone hl := by
    -- a number of the job is at most `s.inserted`, so a slot filled anew no longer has it
    have hne : ∀ x ∈ job.temp, s'.born x.1 = s.inserted + 1 → s'.born x.1 ≠ x.2 := by
      intro x hx hb he
      have := hj.le x hx
      omega
    rcases Bool.or_eq_true_iff.1 hl with hl | hp
    · obtain ⟨x, hx, hg⟩ := hj.gone hl
      refine ⟨x, hx, ?_⟩
      by_cases hm' : x.1 ∈ slots'
      · refine .inr ?_
        rcases hg with hg | hg
        · exact hne x hx (hnew _ hm' hg)
        · rcases hborn x.1 with hb | hb
          · rw [hb]; exact hg
          · exact hne x hx hb
      · exact .inl hm'
    · obtain ⟨i, hi, hp⟩ := List.any_eq_true.1 hp
      obtain ⟨x, hx, rfl⟩ := List.mem_map.1 hi
      exact ⟨x, hx, (hlose _ hp).imp_right (hne x hx)⟩

/-- Through a step that leaves the numbers alone and the same slots linked. -/
theorem JobInv.congr (hj : JobInv s slots job) (hins : s'.inserted = s.inserted)
    (hborn : s'.born = s.born) (hmem : ∀ i, i ∈ slots' ↔ i ∈ slots)
    (hnull : ∀ i ∉ slots, s'.cache.links.next (.slot i) = s.cache.links.next (.slot i)) :
    JobInv s' slots' job where
  le x hx := hins ▸ hj.le x hx
  null x hx hn := by
    have hn := mt (hmem _).2 hn
    rw [hnull _ hn]; exact hj.null x hx hn
  held hl x hx := by rw [hmem, hborn]; exact hj.held hl x hx
  gone hl := by
    obtain ⟨x, hx, hg⟩ := hj.gone hl
    exact ⟨x, hx, by rwa [hmem, hborn]⟩

theorem front_iff {c : LRUCache} {i : Nat} {l : List Nat} (h : LRUCache.WellFormed N c (i :: l)) (j : Nat) :
    front c j = true ↔ j = i := by
  rw [front, h.next_head]
  simp [eq_comm]

/-! ### One step -/

theorem step_query (h : Inv N s slots) (name : List UInt8) (type : UInt8) (clk : Nat → Nat) :
    ∃ s', step N s (.query name type clk) = .ok s' ∧ Inv N s' slots := by
  have hfound := LRUCache.cacheQuery_spec clk
    (dnsEntrySet (some name) none 0 type 0 (clk 0)) rfl h.toWellFormed h.named
  have hstep : step N s (.query name type clk) = .ok { s with jobs := s.jobs ++
      [⟨((LRUCache.found clk name type s.cache slots).map fun i => (s.cache.list i, i)).map
        fun x => (x.2, s.born x.2), false⟩] } := by
    rw [step, hfound]; rfl
  refine ⟨_, hstep, h.toWellFormed, h.named, h.born_le, fun job hj => ?_⟩
  rcases List.mem_append.1 hj with hj | hj
  · exact ⟨(h.jobs job hj).le, (h.jobs job hj).null, (h.jobs job hj).held, (h.jobs job hj).gone⟩
  · rw [List.mem_singleton.1 hj, List.map_map]
    have hin : ∀ x ∈ (LRUCache.found clk name type s.cache slots).map fun i => (i, s.born i),
        x.1 ∈ slots ∧ s.born x.1 = x.2 := by
      intro x hx
      obtain ⟨i, hi, rfl⟩ := List.mem_map.1 hx
      exact ⟨LRUCache.found_subset hi, rfl⟩
    exact ⟨fun x hx => (hin x hx).2 ▸ h.born_le _, fun x hx hn => absurd (hin x hx).1 hn,
      fun _ => hin, nofun⟩

theorem step_insert (h : Inv N s slots) (hN : 1 ≤ N) (r : Record) :
    ∃ s' slots', step N s (.insert r) = .ok s' ∧ Inv N s' slots' := by
  by_cases hlt : slots.length < N
  · obtain ⟨c', h₁, hi, h₂, h₃, h₄⟩ := LRUCache.cacheInsert_free h.toWellFormed hlt r.entry
    generalize s.cache.freeSlot N = i at hi h₂ h₃ h₄
    have hfront : ∀ j, front c' j = decide (j = i) := fun j => by
      rw [Bool.eq_iff_iff, front_iff h₂, decide_eq_true_eq]
    have hroom : decide (s.cache.length < N) = true := by
      rw [h.length]; simpa using hlt
    refine ⟨_, i :: slots, by rw [step, h₁]; rfl, h₂, ?_, fun j => ?_, fun job hj => ?_⟩
    · rw [h₃]
      exact LRUCache.named_update r.named h.named fun j hj hji => (List.mem_cons.1 hj).resolve_left hji
    · show (if front c' j then s.inserted + 1 else s.born j) ≤ s.inserted + 1
      split
      · exact le_rfl
      · exact (h.born_le j).trans (Nat.le_succ _)
    · obtain ⟨job, hjob, rfl⟩ := List.mem_map.1 hj
      refine (h.jobs job hjob).mark (Nat.le_succ _) (fun j => ?_) (fun j hj => ⟨fun hm => ?_, fun _ => h₄ j hj⟩)
        (fun j hj hn => ?_) (fun j hj _ => ⟨List.mem_cons_of_mem _ hj, ?_⟩) fun j hp => ?_
      · simp only [hfront]; by_cases hji : j = i <;> simp [hji]
      · exact absurd (List.mem_cons_of_mem _ hm) hj
      · have hji : j = i := (List.mem_cons.1 hj).resolve_right hn
        simp [hfront, hji]
      · have hji : j ≠ i := by rintro rfl; exact hi hj
        simp [hfront, hji]
      · simp [hroom] at hp
  · obtain ⟨l, tail, rfl, hlen⟩ := h.toWellFormed.eq_concat hN hlt
    obtain ⟨c', h₁, h₂, h₃, h₄⟩ := LRUCache.cacheInsert_full h.toWellFormed hlen r.entry
    have hfront : ∀ j, front c' j = decide (j = tail) := fun j => by
      rw [Bool.eq_iff_iff, front_iff h₂, decide_eq_true_eq]
    have hfull : decide (s.cache.length < N) = false := by
      rw [h.length, decide_eq_false_iff_not]; exact_mod_cast hlt
    have hmem : ∀ j, j ∈ tail :: l ↔ j ∈ l ++ [tail] := fun j => by simp [or_comm]
    refine ⟨_, tail :: l, by rw [step, h₁]; rfl, h₂, ?_, fun j => ?_, fun job hj => ?_⟩
    · rw [h₃]
      exact LRUCache.named_update r.named h.named fun j hj _ => (hmem j).1 hj
    · show (if front c' j then s.inserted + 1 else s.born j) ≤ s.inserted + 1
      split
      · exact le_rfl
      · exact (h.born_le j).trans (Nat.le_succ _)
    · obtain ⟨job, hjob, rfl⟩ := List.mem_map.1 hj
      refine (h.jobs job hjob).mark (Nat.le_succ _) (fun j => ?_)
        (fun j hj => ⟨fun hm => absurd ((hmem j).2 hm) hj, fun hn => h₄ j hn⟩)
        (fun j hj hn => absurd ((hmem j).1 hj) hn) (fun j hj hp => ⟨(hmem j).2 hj, ?_⟩) fun j hp => .inr ?_
      · simp only [hfront]; by_cases hji : j = tail <;> simp [hji]
      · simp only [hfull, hfront, Bool.not_false, Bool.true_and, decide_eq_false_iff_not] at hp
        simp [hfront, hp]
      · simp only [hfull, hfront, Bool.not_false, Bool.true_and, decide_eq_true_eq] at hp
        simp [hfront, hp]

theorem step_scan (h : Inv N s slots) (clk : Nat → Nat) :
    ∃ s' slots', step N s (.scan clk) = .ok s' ∧ Inv N s' slots' := by
  obtain ⟨c', h₁, h₂, h₃, h₄, h₅⟩ := LRUCache.cacheScan_spec clk h.toWellFormed
  have hsub : ∀ i ∈ LRUCache.kept clk s.cache slots, i ∈ slots :=
    fun i hi => (Recency.keep_sublist _ _ _).subset hi
  have hstep : step N s (.scan clk) = .ok { s with
      cache := c', jobs := s.jobs.map (.mark fun i => s.cache.set i && !c'.set i) } := by
    rw [step, h₁]; rfl
  refine ⟨_, LRUCache.kept clk s.cache slots, hstep, h₂, fun i hi => ?_, h.born_le, fun job hj => ?_⟩
  · rw [h₃ i hi]; exact h.named i (hsub i hi)
  · obtain ⟨job, hjob, rfl⟩ := List.mem_map.1 hj
    refine (h.jobs job hjob).mark le_rfl (fun _ => .inl rfl) (fun i hi => ⟨fun hm => h₄ i hm hi, h₅ i⟩)
      (fun i hi hn => absurd (hsub i hi) hn) (fun i hi hp => ⟨?_, rfl⟩) fun i hp => .inl ?_
    · rw [(h.set_iff i).2 hi, Bool.true_and, Bool.not_eq_false'] at hp
      exact (h₂.set_iff i).1 hp
    · rw [Bool.and_eq_true, Bool.not_eq_true'] at hp
      intro hm
      rw [(h₂.set_iff i).2 hm] at hp
      exact absurd hp.2 (by simp)

/-- Rotating nothing moves nothing, and so does rotating in an empty list. -/
theorem cacheRotate_empty {c : LRUCache} (h : mylistEmpty c.links .head = true) (temp : List Nat) :
    c.cacheRotate temp = .ok c := by
  induction temp with
  | nil => rfl
  | cons i temp ih => rw [LRUCache.cacheRotate, mylistRotateNodeHead, if_pos h]; exact ih

theorem step_rotate (h : Inv N s slots) {k : Nat} (ha : Admissible s (.rotate k)) :
    ∃ s' slots', step N s (.rotate k) = .ok s' ∧ Inv N s' slots' := by
  rw [step]
  cases hk : s.jobs[k]? with
  | none => exact ⟨s, slots, rfl, h⟩
  | some job =>
    have hsub : ∀ job' ∈ s.jobs.eraseIdx k, job' ∈ s.jobs := fun _ hj => List.mem_of_mem_eraseIdx hj
    dsimp only
    rcases ha job hk with he | hl
    · rw [cacheRotate_empty he]
      exact ⟨_, slots, rfl, h.toWellFormed, h.named, h.born_le, fun job' hj =>
        (h.jobs job' (hsub _ hj)).congr rfl rfl (fun _ => Iff.rfl) fun _ _ => rfl⟩
    · have hheld := (h.jobs job (List.mem_of_getElem? hk)).held hl
      have hslots : job.slots ⊆ slots := by
        intro i hi
        obtain ⟨x, hx, rfl⟩ := List.mem_map.1 hi
        exact (hheld x hx).1
      obtain ⟨links, h₁, h₂, h₃⟩ := LRUCache.cacheRotate_spec h.toWellFormed hslots
      have hperm := Recency.touch_perm hslots
      rw [h₁]
      exact ⟨_, _, rfl, h₂, fun i hi => h.named i (hperm.mem_iff.1 hi), h.born_le, fun job' hj =>
        (h.jobs job' (hsub _ hj)).congr rfl rfl (fun _ => hperm.mem_iff) h₃⟩

theorem step_inv (h : Inv N s slots) (hN : 1 ≤ N) {e : Event} (ha : Admissible s e) :
    ∃ s' slots', step N s e = .ok s' ∧ Inv N s' slots' := by
  cases e with
  | query name type clk =>
    obtain ⟨s', h₁, h₂⟩ := step_query h name type clk
    exact ⟨s', slots, h₁, h₂⟩
  | rotate k => exact step_rotate h ha
  | insert r => exact step_insert h hN r
  | scan clk => exact step_scan h clk

theorem run_inv (h : Inv N s slots) (hN : 1 ≤ N) {es : List Event} (hm : Meets N s es) :
    ∃ s' slots', run N s es = .ok s' ∧ Inv N s' slots' := by
  induction es generalizing s slots with
  | nil => exact ⟨s, slots, rfl, h⟩
  | cons e es ih =>
    obtain ⟨s₁, slots₁, h₁, hi⟩ := step_inv h hN hm.1
    obtain ⟨s', slots', h₂, hi'⟩ := ih hi (hm.2 s₁ h₁)
    exact ⟨s', slots', by rw [run, List.foldlM_cons, h₁]; exact h₂, hi'⟩

/-! ### When a job is safe -/

variable {born : Nat → Nat} {temp : List (Nat × Nat)} {c : LRUCache}

theorem safe_empty (h : mylistEmpty c.links .head = true) : Safe born c temp := by
  induction temp with
  | nil => trivial
  | cons x temp ih =>
    refine ⟨.inl h, fun links hl => ?_⟩
    rw [mylistRotateNodeHead, if_pos h] at hl
    cases hl
    exact ih

theorem linked (h : LRUCache.WellFormed N c slots) {i : Nat} (hi : i ∈ slots) : Linked c i :=
  h.ring.linked (List.mem_cons_of_mem _ (List.mem_map_of_mem hi))

/-- Rotating one linked slot leaves the same slots linked. -/
theorem rotate_one (h : LRUCache.WellFormed N c slots) {i : Nat} (hi : i ∈ slots) :
    ∃ links, mylistRotateNodeHead c.links (.slot i) .head = .ok links ∧
      LRUCache.WellFormed N { c with links := links } (i :: slots.erase i) ∧
      ∀ j ∉ slots, links.next (.slot j) = c.links.next (.slot j) := by
  obtain ⟨links, h₁, h₂, h₃⟩ := LRUCache.cacheRotate_spec h (show [i] ⊆ slots by simpa using hi)
  refine ⟨links, ?_, h₂, h₃⟩
  rw [LRUCache.cacheRotate] at h₁
  obtain ⟨links', h', h''⟩ := bind_ok.1 h₁
  rw [h']
  cases h''
  rfl

theorem safe_of_held (h : LRUCache.WellFormed N c slots)
    (hheld : ∀ x ∈ temp, x.1 ∈ slots ∧ born x.1 = x.2) : Safe born c temp := by
  induction temp generalizing c slots with
  | nil => trivial
  | cons x temp ih =>
    obtain ⟨hx, hb⟩ := hheld x List.mem_cons_self
    obtain ⟨links, h₁, h₂, -⟩ := rotate_one h hx
    have hperm : (x.1 :: slots.erase x.1).Perm slots := (List.perm_cons_erase hx).symm
    refine ⟨.inr ⟨linked h hx, hb⟩, fun links' hl => ?_⟩
    rw [h₁] at hl
    cases hl
    exact ih h₂ fun y hy =>
      ⟨hperm.mem_iff.2 (hheld y (List.mem_cons_of_mem _ hy)).1, (hheld y (List.mem_cons_of_mem _ hy)).2⟩

theorem held_of_safe (h : LRUCache.WellFormed N c slots) (hne : slots ≠ [])
    (hnull : ∀ x ∈ temp, x.1 ∉ slots → c.links.next (.slot x.1) = none) (hs : Safe born c temp) :
    ∀ x ∈ temp, x.1 ∈ slots ∧ born x.1 = x.2 := by
  induction temp generalizing c slots with
  | nil => nofun
  | cons x temp ih =>
    obtain ⟨hx, hrest⟩ := hs
    have hempty : ¬ mylistEmpty c.links .head = true := fun he => by
      have := (mylistEmpty_ring h.ring).1 he
      exact hne (List.map_eq_nil_iff.1 this)
    obtain ⟨hl, hb⟩ := hx.resolve_left hempty
    have hin : x.1 ∈ slots := by
      by_contra hn
      exact hl.1 (hnull x List.mem_cons_self hn)
    obtain ⟨links, h₁, h₂, h₃⟩ := rotate_one h hin
    have hperm : (x.1 :: slots.erase x.1).Perm slots := (List.perm_cons_erase hin).symm
    intro y hy
    rcases List.mem_cons.1 hy with rfl | hy
    · exact ⟨hin, hb⟩
    · have := ih h₂ (List.cons_ne_nil _ _) (fun z hz hn => ?_) (hrest links h₁) y hy
      · exact ⟨hperm.mem_iff.1 this.1, this.2⟩
      · have hn := mt hperm.mem_iff.2 hn
        show links.next _ = none
        rw [h₃ _ hn]
        exact hnull z (List.mem_cons_of_mem _ hz) hn

theorem safe_iff (h : Inv N s slots) (hj : job ∈ s.jobs) :
    Safe s.born s.cache job.temp ↔ mylistEmpty s.cache.links .head = true ∨ job.lost = false := by
  have hjob := h.jobs job hj
  constructor
  · intro hs
    by_cases hne : slots = []
    · exact .inl ((mylistEmpty_ring h.ring).2 (List.map_eq_nil_iff.2 hne))
    · refine .inr (Bool.eq_false_iff.2 fun hl => ?_)
      obtain ⟨x, hx, hg⟩ := hjob.gone hl
      obtain ⟨hin, hb⟩ := held_of_safe h.toWellFormed hne hjob.null hs x hx
      exact hg.elim (fun hn => hn hin) fun hn => hn hb
  · rintro (he | hl)
    · exact safe_empty he
    · exact safe_of_held h.toWellFormed (hjob.held hl)

/-- In every run whose rotations find the list empty or a job that is not lost, every state reached is
well formed, and a pending job may be run safely exactly when the same holds of it. -/
theorem run_safe {N : Nat} (hN : 1 ≤ N) (list : Nat → DNSEntry) (links : Links Node) (es : List Event)
    (hm : Meets N (init list links) es) :
    ∃ s slots, run N (init list links) es = .ok s ∧ LRUCache.WellFormed N s.cache slots ∧
      (∀ i, i < N ∧ s.cache.set i = true ↔ i ∈ slots) ∧
      s.cache.length = (List.range N).countP s.cache.set ∧
      ∀ job ∈ s.jobs, Safe s.born s.cache job.temp ↔
        mylistEmpty s.cache.links .head = true ∨ job.lost = false := by
  obtain ⟨s, slots, hrun, h⟩ := run_inv (Inv.init N list links) hN hm
  refine ⟨s, slots, hrun, h.toWellFormed,
    fun i => ⟨fun hi => (h.set_iff i).1 hi.2, fun hi => ⟨h.lt i hi, (h.set_iff i).2 hi⟩⟩, ?_,
    fun job hj => safe_iff h hj⟩
  rw [h.length, h.card_set]

theorem Meets.cons {e : Event} {es : List Event} (hs : step N s e = .ok s') (ha : Admissible s e)
    (hm : Meets N s' es) : Meets N s (e :: es) :=
  ⟨ha, fun s'' h => by rw [hs] at h; cases h; exact hm⟩

def sparedRun : List Event :=
  [.insert ⟨[97], [49], 1, 0, 9⟩, .insert ⟨[98], [50], 1, 0, 9⟩, .query [98] 1 fun _ => 3,
    .insert ⟨[99], [51], 1, 0, 9⟩, .rotate 0]

/-- A job that runs after an eviction which spared its slot. -/
theorem run_safe_spared : ∃ s slots, run 2 zeroed sparedRun = .ok s ∧
    LRUCache.WellFormed 2 s.cache slots ∧ s.cache.length = 2 := by
  have hm : Meets 2 zeroed sparedRun := by
    refine .cons rfl trivial ?_
    refine .cons rfl trivial ?_
    refine .cons rfl trivial ?_
    refine .cons rfl trivial ?_
    refine .cons rfl (fun job hj => ?_) trivial
    cases hj
    exact .inr rfl
  obtain ⟨s, slots, hrun, h, -⟩ := run_safe (by decide : 1 ≤ 2) _ _ sparedRun hm
  exact ⟨s, slots, hrun, h, by cases hrun; rfl⟩

def unlinkedRun : List Event :=
  [.insert ⟨[97], [49], 1, 0, 5⟩, .insert ⟨[98], [50], 1, 0, 9⟩, .query [97] 1 fun _ => 4, .scan fun _ => 6]

/-- The record of a pending job expires and is scanned away while another one is left: the job follows
the `NULL` links of its node. -/
theorem rotate_unlinked : Timed unlinkedRun ∧
    (∃ s, run 2 zeroed unlinkedRun = .ok s ∧ s.jobs.map Job.slots = [[0]] ∧ ¬ Linked s.cache 0 ∧
      mylistEmpty s.cache.links .head = false) ∧
    run 2 zeroed (unlinkedRun ++ [.rotate 0]) = .error .null := by
  refine ⟨⟨fun clk hc => ?_, ?_⟩, ⟨_, rfl, rfl, fun h => h.1 rfl, rfl⟩, rfl⟩
  · rcases List.mem_cons.1 hc with rfl | hc
    · exact fun _ _ _ => le_rfl
    · rw [List.mem_singleton.1 hc]; exact fun _ _ _ => le_rfl
  · show List.Pairwise _ [fun _ => 4, fun _ => 6]
    simp

end Deferred

end DnsRelay
