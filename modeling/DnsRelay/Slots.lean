import DnsRelay.Relay

/-!
# Which requests the ID table refuses

A run calls `addToMap` and `queryMap` in any order, with any serial, while the clock does not go
back. Beside the table stand the accepted requests, newest first, and the numbers of the calls that
were answered: a `queryMap` that finds its serial answers the last request accepted under it.

A slot is held by the last request accepted for it, until that one is answered (`holder`). `addToMap`
looks at one slot only, the one of the serial it has just drawn, so it refuses a request if and only
if that slot is held and the holder has not timed out. The other slots may all be free.
-/

namespace DnsRelay

structure Traffic (σ : Type) where
  map : IdMap σ
  now : Nat
  calls : Nat
  accepted : List (Request σ)
  answered : List Nat

namespace Traffic
variable {σ : Type}

def init : Traffic σ := ⟨.init, 0, 0, [], []⟩

def request (s : Traffic σ) (origin : UInt16) (addr : σ) (t₁ t₂ : Nat) : Traffic σ :=
  let (serial, map) := s.map.addToMap origin addr t₁ t₂
  { s with
    map := map
    now := t₂
    calls := s.calls + 1
    accepted := if serial = uint16Max then s.accepted else ⟨s.calls + 1, serial, origin, addr, t₂⟩ :: s.accepted }

def response (s : Traffic σ) (serial t : Nat) : Traffic σ :=
  let (out, map) := s.map.queryMap serial
  { s with
    map := map
    now := t
    answered :=
      if out.isSome then ((s.accepted.find? (·.serial = serial)).map Request.call).toList ++ s.answered
      else s.answered }

inductive Step : Traffic σ → Traffic σ → Prop
  | request {s : Traffic σ} {t₁ t₂ : Nat} (origin : UInt16) (addr : σ) (ht₁ : s.now ≤ t₁) (ht₂ : t₁ ≤ t₂) :
      Step s (s.request origin addr t₁ t₂)
  | response {s : Traffic σ} {t : Nat} (serial : Nat) (ht : s.now ≤ t) : Step s (s.response serial t)

/-- A run from the empty table. -/
abbrev Reach (s : Traffic σ) : Prop := Relation.ReflTransGen Step init s

/-- Neither answered nor timed out. -/
def Waiting (s : Traffic σ) (t : Nat) (r : Request σ) : Prop :=
  r ∈ s.accepted ∧ r.call ∉ s.answered ∧ t < r.added + convertTtl

/-- The last request accepted for the slot, unless it was answered. -/
def holder (s : Traffic σ) (c : Nat) : Option (Request σ) :=
  (s.accepted.find? (·.slot = c)).filter (·.call ∉ s.answered)

structure TrafficInv (s : Traffic σ) : Prop where
  alloc : s.map.alloc = s.calls % uint16Max
  call_le : ∀ r ∈ s.accepted, r.call ≤ s.calls
  call_inj : ∀ r ∈ s.accepted, ∀ r' ∈ s.accepted, r.call = r'.call → r = r'
  answered_le : ∀ k ∈ s.answered, k ≤ s.calls
  slot : ∀ c, s.map.nodes c = (s.holder c).map Request.node
  live : ∀ r ∈ s.accepted, r.call ∉ s.answered → s.holder r.slot = some r ∨ r.added + convertTtl ≤ s.now

theorem holder_iff {s : Traffic σ} {c : Nat} {r : Request σ} :
    s.holder c = some r ↔ s.accepted.find? (·.slot = c) = some r ∧ r.call ∉ s.answered := by
  simp [holder]

theorem mem_of_holder {s : Traffic σ} {c : Nat} {r : Request σ} (h : s.holder c = some r) :
    r ∈ s.accepted ∧ r.slot = c ∧ r.call ∉ s.answered := by
  obtain ⟨hfind, ha⟩ := holder_iff.1 h
  exact ⟨List.mem_of_find?_eq_some hfind, by simpa using List.find?_some hfind, ha⟩

/-- The holder of a slot is the last request accepted under its serial. -/
theorem find?_serial {s : Traffic σ} {c : Nat} {r : Request σ} (h : s.holder c = some r) :
    s.accepted.find? (·.serial = r.serial) = some r := by
  have hslot := (mem_of_holder h).2.1
  obtain ⟨-, as, bs, hsplit, hbefore⟩ := List.find?_eq_some_iff_append.1 (holder_iff.1 h).1
  refine List.find?_eq_some_iff_append.2 ⟨by simp, as, bs, hsplit, fun r' hr' => ?_⟩
  have hne : r'.slot ≠ c := by simpa using hbefore r' hr'
  have hserial : r'.serial ≠ r.serial := by
    intro he
    exact hne (by rw [← hslot, Request.slot, Request.slot, he])
  simpa using hserial

namespace TrafficInv
variable {s : Traffic σ}

theorem init : TrafficInv (Traffic.init : Traffic σ) where
  alloc := rfl
  call_le := by simp [Traffic.init]
  call_inj := by simp [Traffic.init]
  answered_le := by simp [Traffic.init]
  slot c := rfl
  live := by simp [Traffic.init]

theorem nextSerial_eq (h : TrafficInv s) : s.map.nextSerial = (s.calls + 1) % uint16Max := by
  unfold IdMap.nextSerial
  rw [h.alloc]
  unfold uint16Max
  omega

theorem nextSerial_ne (m : IdMap σ) : m.nextSerial ≠ uint16Max :=
  Nat.ne_of_lt (Nat.mod_lt _ (by decide))

theorem busy_iff (h : TrafficInv s) {c t : Nat} :
    s.map.busy c t = true ↔ ∃ r, s.holder c = some r ∧ t < r.added + convertTtl := by
  unfold IdMap.busy
  rw [h.slot]
  cases hc : s.holder c with
  | none => simp
  | some r => simp [Request.node]

/-- A refused request only moves the counter and the clock. -/
theorem refused (h : TrafficInv s) {t₁ t₂ : Nat} (origin : UInt16) (addr : σ) (ht₁ : s.now ≤ t₁) (ht₂ : t₁ ≤ t₂)
    (hb : s.map.busy (s.map.nextSerial % maxMapSize) t₁ = true) : TrafficInv (s.request origin addr t₁ t₂) := by
  unfold Traffic.request
  rw [IdMap.addToMap_busy origin addr t₂ hb]
  refine ⟨h.nextSerial_eq, fun r hr => Nat.le_succ_of_le (h.call_le r hr), h.call_inj,
    fun k hk => Nat.le_succ_of_le (h.answered_le k hk), h.slot, fun r hr ha => ?_⟩
  exact (h.live r hr ha).imp id fun hle => Nat.le_trans hle (Nat.le_trans ht₁ ht₂)

/-- An accepted request takes its slot; whatever held it has timed out. -/
theorem accept (h : TrafficInv s) {t₁ t₂ : Nat} (origin : UInt16) (addr : σ) (ht₁ : s.now ≤ t₁) (ht₂ : t₁ ≤ t₂)
    (hb : s.map.busy (s.map.nextSerial % maxMapSize) t₁ = false) : TrafficInv (s.request origin addr t₁ t₂) := by
  set r₀ : Request σ := ⟨s.calls + 1, s.map.nextSerial, origin, addr, t₂⟩ with hr₀
  have hst : s.request origin addr t₁ t₂ =
      { s with
        map := ⟨Function.update s.map.nodes r₀.slot (some r₀.node), s.map.nextSerial⟩
        now := t₂, calls := s.calls + 1, accepted := r₀ :: s.accepted } := by
    unfold Traffic.request
    rw [IdMap.addToMap_free origin addr t₂ hb]
    simp only [if_neg (nextSerial_ne s.map)]
    rfl
  have hnew : ∀ r ∈ s.accepted, r.call ≠ r₀.call := fun r hr => Nat.ne_of_lt (Nat.lt_succ_of_le (h.call_le r hr))
  have hfresh : r₀.call ∉ s.answered := fun hm => Nat.not_succ_le_self _ (h.answered_le _ hm)
  set s' := s.request origin addr t₁ t₂
  have hself : s'.holder r₀.slot = some r₀ := by
    rw [holder_iff, hst]
    exact ⟨List.find?_cons_of_pos (by simp), hfresh⟩
  have hother : ∀ c ≠ r₀.slot, s'.holder c = s.holder c := by
    intro c hc
    rw [holder, holder, hst, List.find?_cons_of_neg (by simpa using hc.symm)]
  refine ⟨?_, ?_, ?_, ?_, fun c => ?_, fun r hr ha => ?_⟩
  · rw [hst]
    exact h.nextSerial_eq
  · rw [hst]
    exact List.forall_mem_cons.2 ⟨Nat.le_refl _, fun r hr => Nat.le_succ_of_le (h.call_le r hr)⟩
  · rw [hst]
    intro r hr r' hr' he
    rcases List.mem_cons.1 hr with rfl | hr <;> rcases List.mem_cons.1 hr' with rfl | hr'
    · rfl
    · exact absurd he.symm (hnew r' hr')
    · exact absurd he (hnew r hr)
    · exact h.call_inj r hr r' hr' he
  · rw [hst]
    exact fun k hk => Nat.le_succ_of_le (h.answered_le k hk)
  · rcases eq_or_ne c r₀.slot with rfl | hc
    · rw [hself, hst]
      exact Function.update_self ..
    · rw [hother c hc, hst, ← h.slot c]
      exact Function.update_of_ne hc ..
  · have hacc : s'.accepted = r₀ :: s.accepted := by rw [hst]
    have hans : s'.answered = s.answered := by rw [hst]
    have hnow : s'.now = t₂ := by rw [hst]
    rw [hacc] at hr
    rw [hans] at ha
    rw [hnow]
    rcases List.mem_cons.1 hr with rfl | hr
    · exact .inl hself
    rcases eq_or_ne r.slot r₀.slot with hc | hc
    · -- a request that held the slot had timed out
      refine .inr ?_
      rcases h.live r hr ha with hheld | hle
      · by_contra hlt
        rw [hc] at hheld
        have : s.map.busy r₀.slot t₁ = true := h.busy_iff.2 ⟨r, hheld, by omega⟩
        rw [show s.map.busy r₀.slot t₁ = false from hb] at this
        cases this
      · omega
    · rw [hother _ hc]
      exact (h.live r hr ha).imp id fun hle => by omega

/-- A response under a serial that no slot holds is dropped. -/
theorem dropped (h : TrafficInv s) {serial t : Nat} (ht : s.now ≤ t)
    (hmiss : ∀ n, s.map.nodes (serial % maxMapSize) = some n → n.last ≠ serial / maxMapSize) :
    TrafficInv (s.response serial t) := by
  unfold Traffic.response
  rw [IdMap.queryMap_miss hmiss]
  exact ⟨h.alloc, h.call_le, h.call_inj, h.answered_le, h.slot, fun r hr ha =>
    (h.live r hr ha).imp id fun hle => Nat.le_trans hle ht⟩

/-- A response to the holder of its slot frees the slot. -/
theorem answer (h : TrafficInv s) {serial t : Nat} {n : MapNode σ} (ht : s.now ≤ t)
    (hn : s.map.nodes (serial % maxMapSize) = some n) (hl : n.last = serial / maxMapSize) :
    TrafficInv (s.response serial t) := by
  obtain ⟨r₀, hheld, rfl⟩ := Option.map_eq_some_iff.1 ((h.slot _).symm.trans hn)
  obtain ⟨hmem, hslot, hopen⟩ := mem_of_holder hheld
  obtain rfl : r₀.serial = serial := Relay.serial_eq_of_slot_last hslot hl
  have hst : s.response r₀.serial t =
      { s with
        map := { s.map with nodes := Function.update s.map.nodes r₀.slot none }
        now := t, answered := r₀.call :: s.answered } := by
    unfold Traffic.response
    rw [IdMap.queryMap_hit hn hl, find?_serial hheld]
    rfl
  set s' := s.response r₀.serial t
  have hself : s'.holder r₀.slot = none := by
    rw [Option.eq_none_iff_forall_ne_some]
    intro r hr
    have hfind := (holder_iff.1 hr).1
    rw [hst] at hfind
    obtain rfl := Option.some.inj (hfind.symm.trans (holder_iff.1 hheld).1)
    refine (mem_of_holder hr).2.2 ?_
    rw [hst]
    exact List.mem_cons_self
  have hother : ∀ c r, c ≠ r₀.slot → (s'.holder c = some r ↔ s.holder c = some r) := by
    intro c r hc
    rw [holder_iff, holder_iff, hst]
    refine and_congr_right fun hfind => ?_
    have hne : r.call ≠ r₀.call := by
      intro he
      obtain rfl := h.call_inj r (List.mem_of_find?_eq_some hfind) r₀ hmem he
      have hslot' : r.slot = c := by simpa using List.find?_some hfind
      exact hc hslot'.symm
    simp [hne]
  refine ⟨?_, ?_, ?_, ?_, fun c => ?_, fun r hr ha => ?_⟩
  · rw [hst]
    exact h.alloc
  · rw [hst]
    exact h.call_le
  · rw [hst]
    exact h.call_inj
  · rw [hst]
    exact List.forall_mem_cons.2 ⟨h.call_le r₀ hmem, h.answered_le⟩
  · rcases eq_or_ne c r₀.slot with rfl | hc
    · rw [hself, hst]
      exact Function.update_self ..
    · rw [Option.ext fun r => hother c r hc, hst, ← h.slot c]
      exact Function.update_of_ne hc ..
  · have hacc : s'.accepted = s.accepted := by rw [hst]
    have hans : s'.answered = r₀.call :: s.answered := by rw [hst]
    have hnow : s'.now = t := by rw [hst]
    rw [hacc] at hr
    rw [hans, List.mem_cons, not_or] at ha
    rw [hnow]
    rcases h.live r hr ha.2 with hr' | hle
    · refine .inl ((hother _ r fun hc => ha.1 ?_).2 hr')
      rw [hc] at hr'
      exact congrArg Request.call (Option.some.inj (hr'.symm.trans hheld))
    · exact .inr (by omega)

theorem step {s' : Traffic σ} (h : TrafficInv s) (hs : Step s s') : TrafficInv s' := by
  cases hs with
  | @request t₁ t₂ origin addr ht₁ ht₂ =>
    cases hb : s.map.busy (s.map.nextSerial % maxMapSize) t₁ with
    | true => exact h.refused origin addr ht₁ ht₂ hb
    | false => exact h.accept origin addr ht₁ ht₂ hb
  | response serial ht =>
    by_cases hhit : ∃ n, s.map.nodes (serial % maxMapSize) = some n ∧ n.last = serial / maxMapSize
    · obtain ⟨n, hn, hl⟩ := hhit
      exact h.answer ht hn hl
    · exact h.dropped ht fun n hn hl => hhit ⟨n, hn, hl⟩

theorem reach (h : Reach s) : TrafficInv s := by
  induction h with
  | refl => exact .init
  | tail _ hs ih => exact ih.step hs

end TrafficInv

section
variable {s : Traffic σ}

/-- In every state a run reaches, a request is refused if and only if the slot that its serial addresses has a
request that was neither answered nor has timed out. -/
theorem refused_iff (h : Reach s) (origin : UInt16) (addr : σ) {t₁ : Nat} (ht₁ : s.now ≤ t₁) (t₂ : Nat) :
    (s.map.addToMap origin addr t₁ t₂).1 = uint16Max ↔
      ∃ r, s.Waiting t₁ r ∧ r.slot = (s.calls + 1) % uint16Max % maxMapSize := by
  have hi := TrafficInv.reach h
  have hserial := hi.nextSerial_eq
  have hbusy : (s.map.addToMap origin addr t₁ t₂).1 = uint16Max ↔
      s.map.busy (s.map.nextSerial % maxMapSize) t₁ = true := by
    cases hb : s.map.busy (s.map.nextSerial % maxMapSize) t₁ with
    | true => simp [IdMap.addToMap_busy origin addr t₂ hb]
    | false => simp [IdMap.addToMap_free origin addr t₂ hb, TrafficInv.nextSerial_ne]
  rw [hbusy, hi.busy_iff, hserial]
  constructor
  · rintro ⟨r, hheld, ht⟩
    obtain ⟨hmem, hslot, hopen⟩ := mem_of_holder hheld
    exact ⟨r, ⟨hmem, hopen, ht⟩, hslot⟩
  · rintro ⟨r, ⟨hmem, hopen, ht⟩, hslot⟩
    refine ⟨r, ?_, ht⟩
    rw [← hslot]
    exact (hi.live r hmem hopen).resolve_right fun hle => by omega

end

/-- Requests that are answered at once. -/
def answeredRounds : Nat → Traffic Nat → Traffic Nat
  | 0, s => s
  | n + 1, s => answeredRounds n ((s.request 0 0 s.now s.now).response s.map.nextSerial s.now)

theorem reach_rounds {s : Traffic Nat} (h : Reach s) (n : Nat) : Reach (answeredRounds n s) := by
  induction n generalizing s with
  | zero => exact h
  | succ n ih =>
    exact ih ((h.tail (.request 0 0 (Nat.le_refl _) (Nat.le_refl _))).tail (.response _ (Nat.le_refl _)))

/-- One request is not answered, 127 later ones are. -/
def lonely : Traffic Nat := answeredRounds 127 (init.request 7 0 0 0)

theorem lonely_reach : Reach lonely :=
  reach_rounds (.tail .refl (.request 7 0 (Nat.le_refl _) (Nat.le_refl _))) 127

/-- The next request is refused: its turn is the slot of the first one. -/
theorem refused_iff_lonely : (lonely.map.addToMap 8 0 1 1).1 = uint16Max :=
  (refused_iff lonely_reach 8 0 (by decide +kernel) 1).2
    ⟨⟨1, 1, 7, 0, 0⟩, ⟨by decide +kernel, by decide +kernel, by decide⟩, by decide +kernel⟩

/-- It is refused although the other 127 slots are free. -/
theorem refused_free : Reach lonely ∧ (lonely.map.addToMap 8 0 1 1).1 = uint16Max ∧
    lonely.accepted.filter (fun r => r.call ∉ lonely.answered) = [⟨1, 1, 7, 0, 0⟩] :=
  ⟨lonely_reach, by decide +kernel, by decide +kernel⟩

end Traffic

end DnsRelay
