import Mathlib.Logic.Relation
import DnsRelay.IdMap

/-!
# The ID translation over whole runs

A run relays client requests (`addToMap`) and processes upstream responses (`queryMap`) in any order
while the clock does not go back. `Relay` carries the history beside the table: every accepted
request, newest first, and every response processed with what became of it. A response may come
late, twice or never; all it promises is that it answers an accepted request and carries its serial,
and that the counter has not gone round since.

The table is a function of that history. A request is *pending* while it is unanswered and no later
accepted request has taken its slot, and slot `c` holds exactly the node of the pending request with
that slot (`RelayInv.slot`). Two accepted requests that agree in slot and generation agree in serial,
hence in their call number modulo 65535, and inside the window that makes them the same request.
-/

namespace DnsRelay

/-- An accepted client request: the `call`-th `addToMap`, which returned `serial`. -/
structure Request (σ : Type) where
  call : Nat
  serial : Nat
  origin : UInt16
  addr : σ
  added : Nat
deriving DecidableEq

namespace Request
variable {σ : Type}

def slot (r : Request σ) : Nat := r.serial % maxMapSize

/-- The node `addToMap` stores for the request. -/
def node (r : Request σ) : MapNode σ :=
  ⟨r.serial / maxMapSize, r.origin, r.addr, r.added + convertTtl⟩

end Request

/-- A processed response to `req`: the datagram (`len` bytes in `buf`) and what was sent. -/
structure Delivery (σ : Type) where
  req : Request σ
  buf : List UInt8
  len : Nat
  out : Option (σ × List UInt8)

structure Relay (σ : Type) where
  map : IdMap σ
  now : Nat
  calls : Nat
  accepted : List (Request σ)
  log : List (Delivery σ)

namespace Relay
variable {σ : Type}

def init : Relay σ := ⟨.init, 0, 0, [], []⟩

/-- A client request that is relayed, or refused if its slot is busy. -/
def request (s : Relay σ) (origin : UInt16) (addr : σ) (t₁ t₂ : Nat) : Relay σ :=
  let (serial, map) := s.map.addToMap origin addr t₁ t₂
  { s with
    map := map
    now := t₂
    calls := s.calls + 1
    accepted :=
      if s.map.busy (s.map.nextSerial % maxMapSize) t₁ then s.accepted
      else ⟨s.calls + 1, serial, origin, addr, t₂⟩ :: s.accepted }

/-- A response to `r`, whose first two bytes read `id`. -/
def response (s : Relay σ) (r : Request σ) (id : UInt16) (buf : List UInt8) (len t : Nat) : Relay σ :=
  let (out, map) := sendBack s.map id buf len
  { s with map := map, now := t, log := ⟨r, buf, len, out⟩ :: s.log }

inductive Step : Relay σ → Relay σ → Prop
  | tick {s : Relay σ} {t : Nat} (ht : s.now ≤ t) : Step s { s with now := t }
  | request {s : Relay σ} {t₁ t₂ : Nat} (origin : UInt16) (addr : σ) (ht₁ : s.now ≤ t₁)
      (ht₂ : t₁ ≤ t₂) : Step s (s.request origin addr t₁ t₂)
  | response {s : Relay σ} {r : Request σ} {id : UInt16} {buf : List UInt8} {t : Nat} (len : Nat)
      (hr : r ∈ s.accepted) (hbuf : load16le buf 0 = .ok id) (hid : id.toNat = r.serial)
      (hwin : s.calls - r.call < uint16Max) (ht : s.now ≤ t) : Step s (s.response r id buf len t)

/-- A run from the empty table. -/
abbrev Reach (s : Relay σ) : Prop := Relation.ReflTransGen Step init s

def Answered (s : Relay σ) (r : Request σ) : Prop := ∃ e ∈ s.log, e.req = r ∧ e.out.isSome

structure Pending (s : Relay σ) (r : Request σ) : Prop where
  mem : r ∈ s.accepted
  unanswered : ¬ s.Answered r
  newest : ∀ r' ∈ s.accepted, r.call < r'.call → r'.slot ≠ r.slot

/-- What is sent for a response to `r`: its client gets the datagram under the original ID. -/
def Faithful (e : Delivery σ) : Prop :=
  2 ≤ e.buf.length ∧
    ∀ out, e.out = some out → out = (e.req.addr, (setId e.buf e.req.origin).take e.len)

structure RelayInv (s : Relay σ) : Prop where
  alloc : s.map.alloc = s.calls % uint16Max
  call_le : ∀ r ∈ s.accepted, r.call ≤ s.calls
  serial : ∀ r ∈ s.accepted, r.serial = r.call % uint16Max
  call_inj : ∀ r ∈ s.accepted, ∀ r' ∈ s.accepted, r.call = r'.call → r = r'
  log_mem : ∀ e ∈ s.log, e.req ∈ s.accepted
  slot : ∀ c n, s.map.nodes c = some n ↔ ∃ r, s.Pending r ∧ r.slot = c ∧ r.node = n
  live : ∀ r ∈ s.accepted, ¬ s.Answered r → s.Pending r ∨ r.added + convertTtl ≤ s.now
  faithful : ∀ e ∈ s.log, Faithful e
  once : s.log.Pairwise fun e e' => e.out.isSome → e'.out.isSome → e.req ≠ e'.req

theorem Pending.unique {s : Relay σ} (hs : RelayInv s) {r r' : Request σ} (h : s.Pending r)
    (h' : s.Pending r') (he : r.slot = r'.slot) : r = r' := by
  rcases Nat.lt_trichotomy r.call r'.call with hlt | heq | hlt
  · exact absurd he.symm (h.newest r' h'.mem hlt)
  · exact hs.call_inj r h.mem r' h'.mem heq
  · exact absurd he (h'.newest r h.mem hlt)

/-- Slot and generation give the serial back. -/
theorem serial_eq_of_slot_last {a b : Nat} (hs : a % maxMapSize = b % maxMapSize)
    (hl : a / maxMapSize = b / maxMapSize) : a = b := by
  rw [← Nat.div_add_mod a maxMapSize, ← Nat.div_add_mod b maxMapSize, hs, hl]

/-- Inside the window a serial names one call. -/
theorem call_eq_of_serial {a b c : Nat} (hab : a ≤ b) (hbc : b ≤ c) (hwin : c - a < uint16Max)
    (h : a % uint16Max = b % uint16Max) : a = b := by
  unfold uint16Max at *; omega

namespace RelayInv
variable {s : Relay σ}

theorem init : RelayInv (Relay.init : Relay σ) where
  alloc := rfl
  call_le := by simp [Relay.init]
  serial := by simp [Relay.init]
  call_inj := by simp [Relay.init]
  log_mem := by simp [Relay.init]
  slot c n := by
    constructor
    · intro h; cases h
    · rintro ⟨r, hr, -⟩; cases hr.mem
  live := by simp [Relay.init]
  faithful := by simp [Relay.init]
  once := .nil

theorem tick (h : RelayInv s) {t : Nat} (ht : s.now ≤ t) : RelayInv { s with now := t } where
  alloc := h.alloc
  call_le := h.call_le
  serial := h.serial
  call_inj := h.call_inj
  log_mem := h.log_mem
  slot c n := by
    rw [h.slot]
    exact ⟨fun ⟨r, hr, e⟩ => ⟨r, ⟨hr.mem, hr.unanswered, hr.newest⟩, e⟩,
      fun ⟨r, hr, e⟩ => ⟨r, ⟨hr.mem, hr.unanswered, hr.newest⟩, e⟩⟩
  live r hr ha := (h.live r hr ha).imp (fun hp => ⟨hp.mem, hp.unanswered, hp.newest⟩)
    (fun hle => Nat.le_trans hle ht)
  faithful := h.faithful
  once := h.once

theorem nextSerial_eq (h : RelayInv s) : s.map.nextSerial = (s.calls + 1) % uint16Max := by
  unfold IdMap.nextSerial; rw [h.alloc]; unfold uint16Max; omega

/-- A refused request only moves the counter and the clock. -/
theorem refused (h : RelayInv s) {t₁ t₂ : Nat} (origin : UInt16) (addr : σ) (ht₁ : s.now ≤ t₁)
    (ht₂ : t₁ ≤ t₂) (hb : s.map.busy (s.map.nextSerial % maxMapSize) t₁ = true) :
    RelayInv (s.request origin addr t₁ t₂) := by
  have hst : s.request origin addr t₁ t₂ =
      { s with map := { s.map with alloc := s.map.nextSerial }, now := t₂, calls := s.calls + 1 } := by
    simp only [Relay.request, IdMap.addToMap_busy origin addr t₂ hb, hb, ↓reduceIte]
  rw [hst]
  have hp : ∀ r, Pending { s with map := { s.map with alloc := s.map.nextSerial }, now := t₂, calls := s.calls + 1 } r ↔
      s.Pending r :=
    fun r => ⟨fun hr => ⟨hr.mem, hr.unanswered, hr.newest⟩, fun hr => ⟨hr.mem, hr.unanswered, hr.newest⟩⟩
  refine ⟨h.nextSerial_eq, fun r hr => Nat.le_succ_of_le (h.call_le r hr), h.serial, h.call_inj,
    h.log_mem, fun c n => ?_, fun r hr ha => ?_, h.faithful, h.once⟩
  · simp only [hp]; exact h.slot c n
  · rw [hp]
    exact (h.live r hr ha).imp id fun hle => Nat.le_trans hle (Nat.le_trans ht₁ ht₂)

/-- An accepted request takes its slot; whatever was pending there has timed out. -/
theorem accept (h : RelayInv s) {t₁ t₂ : Nat} (origin : UInt16) (addr : σ) (ht₁ : s.now ≤ t₁)
    (ht₂ : t₁ ≤ t₂) (hb : s.map.busy (s.map.nextSerial % maxMapSize) t₁ = false) :
    RelayInv (s.request origin addr t₁ t₂) := by
  set r₀ : Request σ := ⟨s.calls + 1, s.map.nextSerial, origin, addr, t₂⟩ with hr₀
  have hst : s.request origin addr t₁ t₂ =
      { s with
        map := ⟨Function.update s.map.nodes r₀.slot (some r₀.node), s.map.nextSerial⟩
        now := t₂, calls := s.calls + 1, accepted := r₀ :: s.accepted } := by
    simp only [Relay.request, IdMap.addToMap_free origin addr t₂ hb, hb, Bool.false_eq_true,
      ↓reduceIte]
    rfl
  have hnew : ∀ r ∈ s.accepted, r.call < r₀.call := fun r hr => Nat.lt_succ_of_le (h.call_le r hr)
  have hna : ∀ e ∈ s.log, e.req ≠ r₀ := fun e he heq =>
    Nat.lt_irrefl _ (heq ▸ hnew _ (h.log_mem e he))
  set s' := s.request origin addr t₁ t₂ with hs'
  have hacc : s'.accepted = r₀ :: s.accepted := by rw [hst]
  have hlog : s'.log = s.log := by rw [hst]
  have hans : ∀ r, s'.Answered r ↔ s.Answered r := fun r => by unfold Answered; rw [hlog]
  have hp : ∀ r, s'.Pending r ↔ r = r₀ ∨ (s.Pending r ∧ r.slot ≠ r₀.slot) := by
    intro r
    constructor
    · intro hr
      rcases List.mem_cons.1 (hacc ▸ hr.mem) with rfl | hm
      · exact .inl rfl
      · refine .inr ⟨⟨hm, fun ha => hr.unanswered ((hans r).2 ha), fun r' hr' =>
          hr.newest r' (hacc ▸ List.mem_cons_of_mem _ hr')⟩, ?_⟩
        exact (hr.newest r₀ (by rw [hacc]; exact List.mem_cons_self) (hnew r hm)).symm
    · rintro (rfl | ⟨hr, hne⟩)
      · refine ⟨by rw [hacc]; exact List.mem_cons_self, ?_, ?_⟩
        · rintro ha
          obtain ⟨e, he, heq, -⟩ := (hans _).1 ha
          exact hna e he heq
        · intro r' hr' hlt
          rcases List.mem_cons.1 (hacc ▸ hr') with rfl | hm
          · exact absurd hlt (Nat.lt_irrefl _)
          · exact absurd hlt (Nat.lt_asymm (hnew r' hm))
      · refine ⟨by rw [hacc]; exact List.mem_cons_of_mem _ hr.mem, fun ha => hr.unanswered ((hans r).1 ha), ?_⟩
        intro r' hr' hlt
        rcases List.mem_cons.1 (hacc ▸ hr') with rfl | hm
        · exact hne.symm
        · exact hr.newest r' hm hlt
  refine ⟨by rw [hst]; exact h.nextSerial_eq, ?_, ?_, ?_, ?_, fun c n => ?_, fun r hr ha => ?_,
    by rw [hlog]; exact h.faithful, by rw [hlog]; exact h.once⟩
  · rw [hacc, hst]
    intro r hr
    rcases List.mem_cons.1 hr with rfl | hr
    · exact Nat.le_refl _
    · exact Nat.le_succ_of_le (h.call_le r hr)
  · rw [hacc]
    intro r hr
    rcases List.mem_cons.1 hr with rfl | hr
    · exact h.nextSerial_eq
    · exact h.serial r hr
  · rw [hacc]
    intro r hr r' hr' heq
    rcases List.mem_cons.1 hr with rfl | hr <;> rcases List.mem_cons.1 hr' with rfl | hr'
    · rfl
    · exact absurd heq (Nat.ne_of_gt (hnew r' hr'))
    · exact absurd heq (Nat.ne_of_lt (hnew r hr))
    · exact h.call_inj r hr r' hr' heq
  · rw [hacc, hlog]
    exact fun e he => List.mem_cons_of_mem _ (h.log_mem e he)
  · have hn : s'.map.nodes = Function.update s.map.nodes r₀.slot (some r₀.node) := by rw [hst]
    rw [hn]
    simp only [hp]
    by_cases hc : c = r₀.slot
    · subst hc
      rw [Function.update_self]
      constructor
      · intro he; exact ⟨r₀, .inl rfl, rfl, Option.some.inj he⟩
      · rintro ⟨r, rfl | ⟨-, hne⟩, hsl, rfl⟩
        · rfl
        · exact absurd hsl hne
    · rw [Function.update_of_ne hc, h.slot]
      constructor
      · rintro ⟨r, hr, rfl, he⟩; exact ⟨r, .inr ⟨hr, hc⟩, rfl, he⟩
      · rintro ⟨r, rfl | ⟨hr, -⟩, rfl, he⟩
        · exact absurd rfl hc
        · exact ⟨r, hr, rfl, he⟩
  · have hnow : s'.now = t₂ := by rw [hst]
    rw [hp, hnow]
    rw [hans] at ha
    rcases List.mem_cons.1 (hacc ▸ hr) with rfl | hm
    · exact .inl (.inl rfl)
    rcases h.live r hm ha with hr | hle
    · by_cases hsl : r.slot = r₀.slot
      · -- the slot was not busy, so the node of `r` in it has timed out
        have hnode : s.map.nodes (s.map.nextSerial % maxMapSize) = some r.node :=
          (h.slot _ _).2 ⟨r, hr, hsl, rfl⟩
        simp only [IdMap.busy, hnode, decide_eq_false_iff_not, Nat.not_lt] at hb
        exact .inr (Nat.le_trans hb ht₂)
      · exact .inl (.inr ⟨hr, hsl⟩)
    · exact .inr (Nat.le_trans hle (Nat.le_trans ht₁ ht₂))

/-- A response that finds no node of its generation is dropped. -/
theorem dropped (h : RelayInv s) {r : Request σ} {id : UInt16} {buf : List UInt8} (len : Nat) {t : Nat}
    (hbuf : 2 ≤ buf.length) (hr : r ∈ s.accepted) (ht : s.now ≤ t)
    (hmiss : ∀ n, s.map.nodes (id.toNat % maxMapSize) = some n → n.last ≠ id.toNat / maxMapSize) :
    RelayInv (s.response r id buf len t) := by
  have hst : s.response r id buf len t = { s with now := t, log := ⟨r, buf, len, none⟩ :: s.log } := by
    simp only [Relay.response, sendBack_miss buf len hmiss]
  rw [hst]
  have hans : ∀ r', Answered { s with now := t, log := ⟨r, buf, len, none⟩ :: s.log } r' ↔ s.Answered r' := by
    intro r'
    constructor
    · rintro ⟨e, he, heq, hs⟩
      rcases List.mem_cons.1 he with rfl | he
      · cases hs
      · exact ⟨e, he, heq, hs⟩
    · rintro ⟨e, he, heq, hs⟩
      exact ⟨e, List.mem_cons_of_mem _ he, heq, hs⟩
  have hp : ∀ r', Pending { s with now := t, log := ⟨r, buf, len, none⟩ :: s.log } r' ↔ s.Pending r' :=
    fun r' => ⟨fun h' => ⟨h'.mem, fun ha => h'.unanswered ((hans r').2 ha), h'.newest⟩,
      fun h' => ⟨h'.mem, fun ha => h'.unanswered ((hans r').1 ha), h'.newest⟩⟩
  refine ⟨h.alloc, h.call_le, h.serial, h.call_inj, ?_, fun c n => ?_, fun r' hr' ha => ?_, ?_, ?_⟩
  · intro e he
    rcases List.mem_cons.1 he with rfl | he
    · exact hr
    · exact h.log_mem e he
  · simp only [hp]; exact h.slot c n
  · rw [hp]
    exact (h.live r' hr' fun ha' => ha ((hans r').2 ha')).imp (fun h' => h')
      fun hle => Nat.le_trans hle ht
  · intro e he
    rcases List.mem_cons.1 he with rfl | he
    · exact ⟨hbuf, fun out ho => by cases ho⟩
    · exact h.faithful e he
  · exact List.pairwise_cons.2 ⟨fun e _ hs => Bool.noConfusion hs, h.once⟩

/-- The response to a pending request goes to its client and frees the slot. -/
theorem forwarded (h : RelayInv s) {r : Request σ} {id : UInt16} {buf : List UInt8} (len : Nat)
    {t : Nat} (hbuf : 2 ≤ buf.length) (hid : id.toNat = r.serial) (hp : s.Pending r) (ht : s.now ≤ t) :
    RelayInv (s.response r id buf len t) := by
  have hnode : s.map.nodes (id.toNat % maxMapSize) = some r.node :=
    (h.slot _ _).2 ⟨r, hp, by rw [hid]; rfl, rfl⟩
  set e₀ : Delivery σ := ⟨r, buf, len, some (r.addr, (setId buf r.origin).take len)⟩ with he₀
  have hst : s.response r id buf len t = { s with
      map := { s.map with nodes := Function.update s.map.nodes r.slot none }
      now := t, log := e₀ :: s.log } := by
    simp only [Relay.response, sendBack_hit buf len hnode (by rw [hid]; rfl)]
    simp only [hid]
    rfl
  set s' := s.response r id buf len t with hs'
  have hlog : s'.log = e₀ :: s.log := by rw [hst]
  have hacc : s'.accepted = s.accepted := by rw [hst]
  have hans : ∀ r', s'.Answered r' ↔ r' = r ∨ s.Answered r' := by
    intro r'
    unfold Answered
    rw [hlog]
    constructor
    · rintro ⟨e, he, heq, hs⟩
      rcases List.mem_cons.1 he with rfl | he
      · exact .inl heq.symm
      · exact .inr ⟨e, he, heq, hs⟩
    · rintro (rfl | ⟨e, he, heq, hs⟩)
      · exact ⟨e₀, List.mem_cons_self, rfl, rfl⟩
      · exact ⟨e, List.mem_cons_of_mem _ he, heq, hs⟩
  have hp' : ∀ r', s'.Pending r' ↔ s.Pending r' ∧ r' ≠ r := by
    intro r'
    constructor
    · intro h'
      exact ⟨⟨hacc ▸ h'.mem, fun ha => h'.unanswered ((hans r').2 (.inr ha)), hacc ▸ h'.newest⟩,
        fun he => h'.unanswered ((hans r').2 (.inl he))⟩
    · rintro ⟨h', hne⟩
      exact ⟨hacc ▸ h'.mem, fun ha => ((hans r').1 ha).elim hne h'.unanswered, hacc ▸ h'.newest⟩
  refine ⟨by rw [hst]; exact h.alloc, by rw [hst]; exact h.call_le, by rw [hst]; exact h.serial,
    by rw [hst]; exact h.call_inj, ?_, fun c n => ?_, fun r' hr' ha => ?_, ?_, ?_⟩
  · rw [hlog, hacc]
    intro e he
    rcases List.mem_cons.1 he with rfl | he
    · exact hp.mem
    · exact h.log_mem e he
  · have hn : s'.map.nodes = Function.update s.map.nodes r.slot none := by rw [hst]
    rw [hn]
    simp only [hp']
    by_cases hc : c = r.slot
    · subst hc
      rw [Function.update_self]
      constructor
      · intro he; cases he
      · rintro ⟨r', ⟨hr', hne⟩, hsl, -⟩
        exact absurd (hr'.unique h hp hsl) hne
    · rw [Function.update_of_ne hc, h.slot]
      constructor
      · rintro ⟨r', hr', rfl, he⟩; exact ⟨r', ⟨hr', fun heq => hc (heq ▸ rfl)⟩, rfl, he⟩
      · rintro ⟨r', ⟨hr', -⟩, he⟩; exact ⟨r', hr', he⟩
  · have hnow : s'.now = t := by rw [hst]
    rw [hp', hnow]
    have hne : r' ≠ r := fun he => ha ((hans r').2 (.inl he))
    exact (h.live r' (hacc ▸ hr') fun ha' => ha ((hans r').2 (.inr ha'))).imp (fun h' => ⟨h', hne⟩)
      fun hle => Nat.le_trans hle ht
  · rw [hlog]
    intro e he
    rcases List.mem_cons.1 he with rfl | he
    · exact ⟨hbuf, fun out ho => (Option.some.inj ho).symm⟩
    · exact h.faithful e he
  · rw [hlog]
    exact List.pairwise_cons.2 ⟨fun e he _ hs heq => hp.unanswered ⟨e, he, heq.symm, hs⟩, h.once⟩

/-- Inside the window a node of the right slot and generation belongs to the request answered. -/
theorem pending_of_hit (h : RelayInv s) {r : Request σ} {id : UInt16} {n : MapNode σ}
    (hr : r ∈ s.accepted) (hid : id.toNat = r.serial) (hwin : s.calls - r.call < uint16Max)
    (hn : s.map.nodes (id.toNat % maxMapSize) = some n) (hl : n.last = id.toNat / maxMapSize) :
    s.Pending r := by
  obtain ⟨r', hr', hsl, rfl⟩ := (h.slot _ _).1 hn
  have hser : r'.serial = r.serial := by
    rw [← hid]; exact serial_eq_of_slot_last hsl hl
  have hle : r.call ≤ r'.call := by
    by_contra hlt
    refine hr'.newest r hr (Nat.lt_of_not_le hlt) ?_
    rw [hsl, hid]; rfl
  have hcall : r.call = r'.call := call_eq_of_serial hle (h.call_le r' hr'.mem) hwin (by
    rw [← h.serial r hr, ← h.serial r' hr'.mem, hser])
  rwa [h.call_inj r hr r' hr'.mem hcall]

theorem step {s' : Relay σ} (h : RelayInv s) (hs : Step s s') : RelayInv s' := by
  cases hs with
  | tick ht => exact h.tick ht
  | @request t₁ t₂ origin addr ht₁ ht₂ =>
    cases hb : s.map.busy (s.map.nextSerial % maxMapSize) t₁ with
    | true => exact h.refused origin addr ht₁ ht₂ hb
    | false => exact h.accept origin addr ht₁ ht₂ hb
  | @response r id buf t len hr hbuf hid hwin ht =>
    have hlen := load16le_length hbuf
    by_cases hhit : ∃ n, s.map.nodes (id.toNat % maxMapSize) = some n ∧ n.last = id.toNat / maxMapSize
    · obtain ⟨n, hn, hl⟩ := hhit
      exact h.forwarded len hlen hid (h.pending_of_hit hr hid hwin hn hl) ht
    · exact h.dropped len hlen hr ht fun n hn hl => hhit ⟨n, hn, hl⟩

theorem reach (h : Reach s) : RelayInv s := by
  induction h with
  | refl => exact .init
  | tail _ hs ih => exact ih.step hs

/-- A response to a pending request is sent to its client. -/
theorem sendBack_pending (h : RelayInv s) {r : Request σ} (hp : s.Pending r) {id : UInt16}
    (hid : id.toNat = r.serial) (buf : List UInt8) (len : Nat) :
    (sendBack s.map id buf len).1 = some (r.addr, (setId buf r.origin).take len) := by
  have hnode : s.map.nodes (id.toNat % maxMapSize) = some r.node :=
    (h.slot _ _).2 ⟨r, hp, by rw [hid]; rfl, rfl⟩
  rw [sendBack_hit buf len hnode (by rw [hid]; rfl)]
  rfl

end RelayInv

/-- In every state a run reaches: a processed response was dropped or went to the client of the
request it answers with that request's ID and all other bytes as they were; no request is answered
twice; an accepted request never has the serial that means "busy"; two pending requests differ in
their serials; and an unanswered request is pending, with its first response sent on, for at least
`CONVERT_TTL` seconds after it was added. The table holds the pending requests and nothing else. -/
theorem relay_correct {s : Relay σ} (h : Reach s) :
    (∀ e ∈ s.log, ∀ addr bytes, e.out = some (addr, bytes) →
      addr = e.req.addr ∧ ∀ k, bytes[k]? =
        if k < e.len then if k < 2 then (le16 e.req.origin)[k]? else e.buf[k]? else none) ∧
    (s.log.Pairwise fun e e' => e.out.isSome → e'.out.isSome → e.req ≠ e'.req) ∧
    (∀ r ∈ s.accepted, r.serial ≠ uint16Max) ∧
    (∀ r r', s.Pending r → s.Pending r' → r.serial = r'.serial → r = r') ∧
    (∀ r ∈ s.accepted, ¬ s.Answered r → s.now < r.added + convertTtl →
      s.Pending r ∧ ∀ id : UInt16, id.toNat = r.serial → ∀ buf len,
        (sendBack s.map id buf len).1 = some (r.addr, (setId buf r.origin).take len)) ∧
    (∀ c n, s.map.nodes c = some n ↔ ∃ r, s.Pending r ∧ r.slot = c ∧ r.node = n) := by
  have hi := RelayInv.reach h
  refine ⟨fun e he addr bytes ho => ?_, hi.once, fun r hr => ?_, fun r r' hp hp' heq => ?_,
    fun r hr ha hnow => ?_, hi.slot⟩
  · obtain ⟨hlen, hout⟩ := hi.faithful e he
    obtain ⟨rfl, rfl⟩ := Prod.mk.inj (hout _ ho)
    refine ⟨rfl, fun k => ?_⟩
    rw [← getElem?_setId hlen, List.getElem?_take]
  · rw [hi.serial r hr]
    exact Nat.ne_of_lt (Nat.mod_lt _ (by decide))
  · exact hp.unique hi hp' (by rw [Request.slot, Request.slot, heq])
  · have hp : s.Pending r := (hi.live r hr ha).resolve_right (Nat.not_le_of_lt hnow)
    exact ⟨hp, fun id hid buf len => hi.sendBack_pending hp hid buf len⟩

/-- One request and its response two seconds later. -/
theorem relay_correct_run :
    let s : Relay Nat := (Relay.init.request 0xabcd 7 100 100).response ⟨1, 1, 0xabcd, 7, 100⟩ 1
      [1, 0, 129, 128] 4 102
    s.log.map (·.out) = [some (7, [0xcd, 0xab, 129, 128])] ∧
      ∀ e ∈ s.log, ∀ addr bytes, e.out = some (addr, bytes) → addr = e.req.addr ∧ ∀ k, bytes[k]? =
        if k < e.len then if k < 2 then (le16 e.req.origin)[k]? else e.buf[k]? else none := by
  have h₁ : Reach (Relay.init.request 0xabcd 7 100 100 : Relay Nat) :=
    .tail .refl (.request _ _ (by decide) (by decide))
  exact ⟨by decide, (relay_correct (h₁.tail
    (.response 4 (by decide) (by decide) (by decide) (by decide) (by decide)))).1⟩

end Relay
end DnsRelay
