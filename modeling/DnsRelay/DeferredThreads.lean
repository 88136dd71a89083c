import DnsRelay.Interleaving

/-!
# Deferred rotations under every schedule

The model of `Deferred` takes each locked section for one step. It loses nothing by that: as long as nobody
flushes the cache, a schedule of the threads comes to what some run of that model comes to, the rotations that
wait or are under way being its jobs. So its account of lost jobs is one of the threads: the only thing that
stops a schedule is a rotation whose slots a scan or an eviction has taken in the meantime.
-/

namespace DnsRelay
open Exec RwLock

/-! ### The rotations among the operations -/

def CacheSection.temp : CacheSection → Option (List Nat)
  | .rotate temp => some temp
  | _ => none

/-- What the rotations among the operations are to move, in order. -/
def rotations (ops : List CacheSection) : List (List Nat) := ops.filterMap CacheSection.temp

section
variable {ops : List CacheSection} {op : CacheSection} {k : Nat} {temp : List Nat}

theorem eq_take_append (hk : ops[k]? = some op) :
    ops = ops.take k ++ op :: ops.drop (k + 1) ∧ ops.eraseIdx k = ops.take k ++ ops.drop (k + 1) := by
  obtain ⟨hlt, rfl⟩ := List.getElem?_eq_some_iff.1 hk
  exact ⟨by simp, List.eraseIdx_eq_take_drop_succ ops k⟩

theorem rotations_append (ops ops' : List CacheSection) : rotations (ops ++ ops') = rotations ops ++ rotations ops' :=
  List.filterMap_append

theorem rotations_other (hk : ops[k]? = some op) (hop : op.temp = none) :
    rotations (ops.eraseIdx k) = rotations ops := by
  obtain ⟨hsplit, herase⟩ := eq_take_append hk
  have hskip : rotations (op :: ops.drop (k + 1)) = rotations (ops.drop (k + 1)) :=
    List.filterMap_cons_none hop
  calc rotations (ops.eraseIdx k)
      _ = rotations (ops.take k) ++ rotations (ops.drop (k + 1)) := by rw [herase, rotations_append]
      _ = rotations (ops.take k ++ op :: ops.drop (k + 1)) := by rw [rotations_append, hskip]
      _ = rotations ops := by rw [← hsplit]

/-- A rotation at position `k` is the one with the number of those before it. -/
theorem rotations_rotate (hk : ops[k]? = some (.rotate temp)) :
    (rotations ops)[(rotations (ops.take k)).length]? = some temp ∧
      rotations (ops.eraseIdx k) = (rotations ops).eraseIdx (rotations (ops.take k)).length := by
  obtain ⟨hsplit, herase⟩ := eq_take_append hk
  have hrot : rotations ops = rotations (ops.take k) ++ temp :: rotations (ops.drop (k + 1)) := by
    conv_lhs => rw [hsplit, rotations_append]
    rfl
  constructor
  · rw [hrot, List.getElem?_append_right le_rfl, Nat.sub_self]
    rfl
  · rw [herase, rotations_append, hrot, List.eraseIdx_append_of_length_le le_rfl, Nat.sub_self]
    rfl

end

/-! ### The jobs of a run that went through -/

namespace Deferred
variable {N : Nat} {s s' : Deferred} {slots : List Nat} {job : Job}

/-- A step goes through and keeps the invariant, or it is the rotation of a lost job in a list that is not
empty. -/
theorem Inv.step (h : Inv N s slots) (hN : 1 ≤ N) (e : Event) :
    (∃ s' slots', Deferred.step N s e = .ok s' ∧ Inv N s' slots') ∨
    ∃ k job, e = .rotate k ∧ s.jobs[k]? = some job ∧ job.lost = true ∧
      mylistEmpty s.cache.links .head = false ∧ Deferred.step N s e = .error .null := by
  by_cases ha : Admissible s e
  · exact .inl (step_inv h hN ha)
  · cases e with
    | query name type clk => exact absurd trivial ha
    | insert r => exact absurd trivial ha
    | scan clk => exact absurd trivial ha
    | rotate k =>
      unfold Admissible at ha
      push Not at ha
      obtain ⟨job, hk, hempty, hlost⟩ := ha
      have hjob := h.jobs job (List.mem_of_getElem? hk)
      have hkept : ∀ i ∈ job.slots, LRUCache.Kept s.cache slots i := by
        intro i hi
        obtain ⟨x, hx, rfl⟩ := List.mem_map.1 hi
        by_cases hm : x.1 ∈ slots
        · exact .inl hm
        · exact .inr (hjob.null x hx hm)
      by_cases hsub : job.slots ⊆ slots
      · -- other records are in its slots by now
        obtain ⟨links, h₁, h₂, h₃⟩ := LRUCache.cacheRotate_spec h.toWellFormed hsub
        have hperm := Recency.touch_perm hsub
        refine .inl ⟨{ s with cache := { s.cache with links := links }, jobs := s.jobs.eraseIdx k }, _, ?_, h₂,
          fun i hi => h.named i (hperm.mem_iff.1 hi), h.born_le, fun job' hj => ?_⟩
        · rw [Deferred.step, hk]
          simp only [h₁]
          rfl
        · exact (h.jobs job' (List.mem_of_mem_eraseIdx hj)).congr rfl rfl (fun _ => hperm.mem_iff) h₃
      · have hne : slots ≠ [] := fun he =>
          hempty ((mylistEmpty_ring h.ring).2 (List.map_eq_nil_iff.2 he))
        refine .inr ⟨k, job, rfl, hk, Bool.eq_false_or_eq_true job.lost |>.resolve_right hlost,
          Bool.eq_false_iff.2 hempty, ?_⟩
        have hnull := LRUCache.rotate_stale h.toWellFormed hne hkept (by
          simpa only [List.subset_def, not_forall, exists_prop] using hsub)
        rw [Deferred.step, hk]
        simp only [hnull]
        rfl

theorem run_append (es es' : List Event) (h : run N s es = .ok s') : run N s (es ++ es') = run N s' es' := by
  unfold run at h ⊢
  rw [List.foldlM_append, h]
  rfl

end Deferred

/-! ### Serial runs as runs of the deferred model -/

/-- The event of the deferred model for an operation. -/
def CacheRequest.event : CacheRequest → Option Deferred.Event
  | .query name type clk => some (.query name type clk)
  | .insert r => some (.insert r)
  | .scan clk => some (.scan clk)
  | .flush => none
  | .output _ => none

/-- `e` is the event of the deferred model for an operation: any rotation, for a rotation. -/
def IsEvent : CacheSection → Deferred.Event → Prop
  | .request q, e => q.event = some e
  | .rotate _, e => ∃ k, e = .rotate k

/-- The operations in the log that the deferred model has an event for. -/
def modelled (log : List (CacheSection × SectionOut)) : List CacheSection :=
  (log.map Prod.fst).filter fun
    | .request q => q.event.isSome
    | .rotate _ => true

/-- The run `evs` of the deferred model, from `d₀` to `d`, has done what the serial run has done, in the same order;
its jobs are the pending rotations. -/
structure Follows (N : Nat) (d₀ : Deferred) (b : Serial.State LRUCache CacheSection SectionOut)
    (evs : List Deferred.Event) (d : Deferred) (slots : List Nat) : Prop where
  run : Deferred.run N d₀ evs = .ok d
  events : List.Forall₂ IsEvent (modelled b.log) evs
  inv : Deferred.Inv N d slots
  cache : b.data = d.cache
  jobs : d.jobs.map Job.slots = rotations b.pending
  calm : .request .flush ∉ b.pending

/-- The `j`-th job is to rotate `temp`, it is lost, and in a list that is not empty its rotation fails. -/
def FailsAt (N : Nat) (d : Deferred) (j : Nat) (temp : List Nat) (f : Fault) : Prop :=
  ∃ job, d.jobs[j]? = some job ∧ job.slots = temp ∧ job.lost = true ∧ mylistEmpty d.cache.links .head = false ∧
    Deferred.step N d (.rotate j) = .error f

section
variable {N k : Nat} {b b' : Serial.State LRUCache CacheSection SectionOut} {d₀ d d' : Deferred}
  {evs : List Deferred.Event} {slots slots' temp : List Nat} {q : CacheRequest} {c : LRUCache} {out : SectionOut}

theorem slots_mark (p : Nat → Bool) (jobs : List Job) : (jobs.map (Job.mark p)).map Job.slots = jobs.map Job.slots := by
  rw [List.map_map]
  rfl

theorem Deferred.run_snoc {e : Deferred.Event} (h : Deferred.run N d₀ evs = .ok d) (hs : Deferred.step N d e = .ok d') :
    Deferred.run N d₀ (evs ++ [e]) = .ok d' := by
  rw [Deferred.run_append evs [e] h]
  unfold Deferred.run
  rw [List.foldlM_cons, hs]
  rfl

theorem modelled_snoc (log : List (CacheSection × SectionOut)) (x : CacheSection × SectionOut) :
    modelled (log ++ [x]) = modelled log ++ modelled [x] := by
  rw [modelled, List.map_append, List.filter_append]
  rfl

/-- What is pending behind an operation that is no rotation: nothing else is a flush, and what it spawned is what
the deferred model added. -/
theorem Follows.pending (h : Follows N d₀ b evs d slots) (hk : b.pending[k]? = some (.request q))
    (d' : Deferred) (out : SectionOut)
    (hjobs : d'.jobs.map Job.slots = d.jobs.map Job.slots ++ rotations (spawned (.request q) out)) :
    d'.jobs.map Job.slots = rotations (b.pending.eraseIdx k ++ spawned (.request q) out) ∧
      .request .flush ∉ b.pending.eraseIdx k ++ spawned (.request q) out := by
  constructor
  · rw [hjobs, rotations_append, rotations_other hk rfl, h.jobs]
  · intro hm
    rcases List.mem_append.1 hm with hm | hm
    · exact h.calm (List.mem_of_mem_eraseIdx hm)
    · unfold spawned at hm
      split at hm
      · cases List.mem_singleton.1 hm
      · cases hm

/-- An operation and its event do the same to the cache, and add the same jobs. -/
theorem step_event {e : Deferred.Event} (he : q.event = some e) (hd : Deferred.step N d e = .ok d') :
    ∃ out, whole N (.request q) d.cache = .ok (d'.cache, out) ∧
      d'.jobs.map Job.slots = d.jobs.map Job.slots ++ rotations (spawned (.request q) out) := by
  cases q with
  | query name type clk =>
    cases he
    obtain ⟨found, hfound, hd⟩ := bind_ok.1 hd
    cases hd
    refine ⟨.found found, ?_, ?_⟩
    · rw [whole, queryEntry, hfound]
      rfl
    · rw [List.map_append]
      simp [Job.slots, rotations, spawned, CacheSection.temp, Function.comp_def]
  | insert r =>
    cases he
    obtain ⟨c, hc, hd⟩ := bind_ok.1 hd
    cases hd
    refine ⟨.done, ?_, ?_⟩
    · rw [whole, hc]
      rfl
    · rw [slots_mark]
      exact (List.append_nil _).symm
  | scan clk =>
    cases he
    obtain ⟨⟨c, flag⟩, hc, hd⟩ := bind_ok.1 hd
    cases hd
    refine ⟨.scanned flag, ?_, ?_⟩
    · rw [whole, hc]
      rfl
    · rw [slots_mark]
      exact (List.append_nil _).symm
  | flush => cases he
  | output clk => cases he

/-- An operation that is no rotation goes through. -/
theorem Follows.step_request (h : Follows N d₀ b evs d slots) (hN : 1 ≤ N) (hk : b.pending[k]? = some (.request q)) :
    ∃ b' evs' d' slots', Serial.step (cacheSections N) (whole N) b (.run k) = .ok b' ∧
      Follows N d₀ b' evs' d' slots' := by
  cases he : q.event with
  | some e =>
    rcases h.inv.step hN e with ⟨d', slots', hd, hinv⟩ | ⟨j, job, rfl, -⟩
    · obtain ⟨out, hw, hjobs⟩ := step_event he hd
      rw [← h.cache] at hw
      obtain ⟨hjobs, hcalm⟩ := h.pending hk d' out hjobs
      have hmodelled : modelled [(.request q, out)] = [.request q] := by simp [modelled, he]
      refine ⟨_, evs ++ [e], d', slots', Serial.step_section hk hw, Deferred.run_snoc h.run hd, ?_, hinv, rfl, hjobs,
        hcalm⟩
      rw [modelled_snoc, hmodelled]
      exact List.rel_append h.events (.cons he .nil)
    · cases q <;> cases he
  | none =>
    cases q with
    | output clk =>
      obtain ⟨out, hout⟩ : ∃ out, whole N (.request (.output clk)) b.data = .ok (b.data, out) :=
        ⟨_, by rw [whole, h.cache, LRUCache.cacheOutput_spec clk h.inv.toWellFormed]; rfl⟩
      have hnone : spawned (.request (.output clk)) out = [] := by cases out <;> rfl
      obtain ⟨hjobs, hcalm⟩ := h.pending hk d out (by rw [hnone]; exact (List.append_nil _).symm)
      refine ⟨_, evs, d, slots, Serial.step_section hk hout, h.run, ?_, h.inv, h.cache, hjobs, hcalm⟩
      rw [modelled_snoc, show modelled [(CacheSection.request (.output clk), out)] = [] from rfl, List.append_nil]
      exact h.events
    | flush => exact absurd (List.mem_of_getElem? hk) h.calm
    | query name type clk => cases he
    | insert r => cases he
    | scan clk => cases he

/-- A rotation goes through, or its job is lost. -/
theorem Follows.step_rotate (h : Follows N d₀ b evs d slots) (hN : 1 ≤ N) (hk : b.pending[k]? = some (.rotate temp)) :
    (∃ b' evs' d' slots', Serial.step (cacheSections N) (whole N) b (.run k) = .ok b' ∧
      Follows N d₀ b' evs' d' slots') ∨
    Serial.step (cacheSections N) (whole N) b (.run k) = .error .null ∧
      FailsAt N d (rotations (b.pending.take k)).length temp .null := by
  obtain ⟨hj, herase⟩ := rotations_rotate hk
  set j := (rotations (b.pending.take k)).length with hjdef
  rw [← h.jobs, List.getElem?_map] at hj
  obtain ⟨job, hjob, hslots⟩ := Option.map_eq_some_iff.1 hj
  have hstep : Deferred.step N d (.rotate j) =
      (d.cache.cacheRotate temp).map fun c => { d with cache := c, jobs := d.jobs.eraseIdx j } := by
    rw [Deferred.step, hjob, ← hslots]
    rfl
  rcases h.inv.step hN (.rotate j) with ⟨d', slots', hd, hinv⟩ | ⟨j', job', he, hj', hlost, hempty, hd⟩
  · cases hrot : d.cache.cacheRotate temp with
    | error f =>
      rw [hstep, hrot] at hd
      cases hd
    | ok c =>
      have hd' := hd
      rw [hstep, hrot] at hd'
      cases hd'
      have hw : whole N (.rotate temp) b.data = .ok (c, .done) := by rw [whole, h.cache, hrot]; rfl
      refine .inl ⟨_, evs ++ [.rotate j], _, slots', Serial.step_section hk hw, Deferred.run_snoc h.run hd, ?_, hinv,
        rfl, ?_, fun hm => ?_⟩
      · rw [modelled_snoc]
        exact List.rel_append h.events (.cons ⟨j, rfl⟩ .nil)
      · show (d.jobs.eraseIdx j).map Job.slots = rotations (b.pending.eraseIdx k ++ [])
        rw [List.append_nil, herase, ← h.jobs, List.eraseIdx_map]
      · exact h.calm (List.mem_of_mem_eraseIdx ((List.append_nil _).symm ▸ hm))
  · cases he
    cases hjob.symm.trans hj'
    cases hrot : d.cache.cacheRotate temp with
    | ok c =>
      rw [hstep, hrot] at hd
      cases hd
    | error f =>
      rw [hstep, hrot] at hd
      cases hd
      have hw : whole N (.rotate temp) b.data = .error .null := by rw [whole, h.cache, hrot]; rfl
      exact .inr ⟨Serial.step_fault hk hw, job, hjob, hslots, hlost, hempty, by rw [hstep, hrot]; rfl⟩

theorem Follows.step {e : Event CacheRequest} (h : Follows N d₀ b evs d slots) (hN : 1 ≤ N) (he : e ≠ .arrive .flush)
    (hb : Serial.step (cacheSections N) (whole N) b e = .ok b') :
    ∃ evs' d' slots', Follows N d₀ b' evs' d' slots' := by
  cases e with
  | arrive q =>
    cases hb
    refine ⟨evs, d, slots, h.run, h.events, h.inv, h.cache, ?_, fun hm => ?_⟩
    · show _ = rotations (b.pending ++ [.request q])
      rw [rotations_append, h.jobs]
      exact (List.append_nil _).symm
    · rcases List.mem_append.1 hm with hm | hm
      · exact h.calm hm
      · cases List.mem_singleton.1 hm
        exact he rfl
  | run k =>
    cases hk : b.pending[k]? with
    | none =>
      cases (Serial.step_none hk).symm.trans hb
      exact ⟨evs, d, slots, h⟩
    | some op =>
      cases op with
      | request q =>
        obtain ⟨b₁, evs', d', slots', hb₁, h'⟩ := h.step_request hN hk
        cases hb₁.symm.trans hb
        exact ⟨evs', d', slots', h'⟩
      | rotate temp =>
        rcases h.step_rotate hN hk with ⟨b₁, evs', d', slots', hb₁, h'⟩ | ⟨hnull, -⟩
        · cases hb₁.symm.trans hb
          exact ⟨evs', d', slots', h'⟩
        · cases hnull.symm.trans hb

/-- A run of the deferred model follows every serial run without a flush. -/
theorem Follows.run_ok (h : Follows N d₀ b evs d slots) (hN : 1 ≤ N) {es : List (Event CacheRequest)}
    (hes : Event.arrive .flush ∉ es) (hb : Serial.run (cacheSections N) (whole N) b es = .ok b') :
    ∃ evs' d' slots', Follows N d₀ b' evs' d' slots' := by
  induction es generalizing b evs d slots with
  | nil =>
    cases hb
    exact ⟨evs, d, slots, h⟩
  | cons e es ih =>
    rw [List.mem_cons, not_or] at hes
    unfold Serial.run at hb
    rw [List.foldlM_cons] at hb
    obtain ⟨b₁, hb₁, hb⟩ := bind_ok.1 hb
    obtain ⟨evs₁, d₁, slots₁, h₁⟩ := h.step hN (Ne.symm hes.1) hb₁
    exact ih h₁ hes.2 hb

/-- The deferred model, in the run `evs` to `d`, is where the threads are: it has done the operations in the log, in
this order, and its jobs are the rotations that wait or are under way. -/
structure Mirrors (N : Nat) (d₀ : Deferred) (s : RwLock.State LRUCache CacheSection Local SectionOut)
    (evs : List Deferred.Event) (d : Deferred) (slots : List Nat) : Prop where
  run : Deferred.run N d₀ evs = .ok d
  events : List.Forall₂ IsEvent (modelled s.log) evs
  inv : Deferred.Inv N d slots
  jobs : d.jobs.map Job.slots = rotations (s.threads.map Thread.op)
  data : (∀ op l, .inside op l ∈ s.threads → op.writes = false) → s.data = d.cache

theorem Follows.mirrors {s : RwLock.State LRUCache CacheSection Local SectionOut} (h : Follows N d₀ b evs d slots)
    (hcoh : Coherent (cacheSections N) s b) : Mirrors N d₀ s evs d slots where
  run := h.run
  events := hcoh.log ▸ h.events
  inv := h.inv
  jobs := by rw [h.jobs, hcoh.pending]
  data hq := (hcoh.quiet hq).trans h.cache

/-- As long as nobody flushes the cache, every schedule of the threads comes to what a run of the deferred model
comes to: it has done the operations in the log, the jobs of that run are the rotations that wait or are under way,
and unless a writer is inside, its cache is there. A schedule that meets a fault does so in a rotation, and what the
threads have come to until then is what a run comes to in which the job of just this rotation is lost. -/
theorem threads_deferred (hN : 1 ≤ N) (list : Nat → DNSEntry) (links : Links Node) (es : List (Event CacheRequest))
    (hes : Event.arrive .flush ∉ es) :
    (∀ s, RwLock.run (cacheSections N) (idle list links) es = .ok s →
      ∃ evs d slots, Mirrors N (.init list links) s evs d slots) ∧
    ∀ f, RwLock.run (cacheSections N) (idle list links) es = .error f →
      ∃ pre es' s b k temp evs d slots, ThreadReaches N list links es pre es' s b k (.rotate temp) ∧
        Mirrors N (.init list links) s evs d slots ∧ b.data = d.cache ∧
        FailsAt N d (rotations ((s.threads.map Thread.op).take k)).length temp f := by
  have h : Follows N (.init list links) (serialIdle list links) [] (.init list links) [] :=
    ⟨rfl, .nil, .init N list links, rfl, rfl, List.not_mem_nil⟩
  constructor
  · intro s hs
    obtain ⟨es', b, hsub, hb, -, hcoh⟩ := (coherent_idle N list links).run (agrees hN) (.idle N list links) hs
    obtain ⟨evs, d, slots, h'⟩ := h.run_ok hN (fun hm => hes (hsub.subset hm)) hb
    exact ⟨evs, d, slots, h'.mirrors hcoh⟩
  · intro f hf
    obtain ⟨rfl, pre, es', s, b, k, op, hr, -, hw⟩ := run_null hN list links hf
    have hpre : Event.arrive .flush ∉ es' := fun hm => by
      obtain ⟨post, rfl⟩ := hr.split
      exact hes (List.mem_append_left _ (hr.part.subset hm))
    obtain ⟨evs, d, slots, h'⟩ := h.run_ok hN hpre hr.serial
    have hnull := Serial.step_fault (S := cacheSections N) hr.pending hw
    cases op with
    | request q =>
      obtain ⟨b', -, -, -, hb', -⟩ := h'.step_request hN hr.pending
      cases hnull.symm.trans hb'
    | rotate temp =>
      rcases h'.step_rotate hN hr.pending with ⟨b', -, -, -, hb', -⟩ | ⟨-, hfails⟩
      · cases hnull.symm.trans hb'
      · rw [hr.coherent.pending] at hfails
        exact ⟨pre, es', s, b, k, temp, evs, d, slots, hr, h'.mirrors hr.coherent, h'.cache, hfails⟩

/-- The record of a rotation that waits expires and is scanned away before the rotation gets the lock. -/
def staleSchedule : List (Event CacheRequest) :=
  .arrive (.insert ⟨[97], [49], 1, 0, 5⟩) :: List.replicate 4 (.run 0) ++
  .arrive (.insert ⟨[98], [50], 1, 0, 9⟩) :: List.replicate 5 (.run 0) ++
  .arrive (.query [97] 1 fun _ => 4) :: List.replicate 5 (.run 0) ++
  .arrive (.scan fun _ => 6) :: List.replicate 6 (.run 1) ++ List.replicate 3 (.run 0)

theorem threads_deferred_stale :
    (RwLock.run (cacheSections 2) zeroIdle staleSchedule).map (fun _ => ()) = .error .null ∧
    ∃ pre post s k temp evs d slots, staleSchedule = pre ++ .run k :: post ∧
      RwLock.run (cacheSections 2) zeroIdle pre = .ok s ∧ (∃ l, s.threads[k]? = some (.inside (.rotate temp) l)) ∧
      Mirrors 2 .zeroed s evs d slots ∧
      FailsAt 2 d (rotations ((s.threads.map Thread.op).take k)).length temp .null := by
  have hfault : (RwLock.run (cacheSections 2) zeroIdle staleSchedule).map (fun _ => ()) = .error .null := by
    decide +kernel
  have hes : Event.arrive .flush ∉ staleSchedule := by simp [staleSchedule]
  refine ⟨hfault, ?_⟩
  cases hs : RwLock.run (cacheSections 2) zeroIdle staleSchedule with
  | ok s => rw [hs] at hfault; cases hfault
  | error f =>
    rw [hs] at hfault
    cases hfault
    obtain ⟨pre, es', s, b, k, temp, evs, d, slots, hr, hm, -, hfails⟩ :=
      (threads_deferred (by decide) _ _ staleSchedule hes).2 .null hs
    obtain ⟨post, hsplit⟩ := hr.split
    exact ⟨pre, post, s, k, temp, evs, d, slots, hsplit, hr.run, hr.inside, hm, hfails⟩

end

end DnsRelay
