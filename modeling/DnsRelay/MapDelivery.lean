import DnsRelay.MapInterleaving
import DnsRelay.Relay

/-!
# Who a response goes to, between threads

Each call of `addToMap` draws its serial in one step and fills the slot in others, and calls of other threads come in
between. `Traced` follows the calls: what is filled in are the arguments of the call, under the serial that it drew.
The effects at once decide the rest: a query of `serial` returns what was filled in under that very serial if no later
effect has taken the slot.
-/

namespace DnsRelay

variable {σ : Type}

/-! ### Calls and their effects -/

def Access.call : Access σ → MapCall σ
  | checkTimeOut c | setTimeOut c _ | setOrigin c _ | setLast c _ | setFrom c _ => .add c.origin c.addr
  | checkLast serial | getOrigin serial | getFrom serial _ => .query serial

def Access.drawn : Access σ → Option Nat
  | checkTimeOut c | setTimeOut c _ | setOrigin c _ | setLast c _ | setFrom c _ => some c.serial
  | checkLast _ | getOrigin _ | getFrom .. => none

/-- The call that a thread is in. -/
def Point.call : Point σ → MapCall σ
  | draw origin addr => .add origin addr
  | taken c | save c | new c _ | release c _ => .add c.origin c.addr
  | found serial | saveOld serial .. | clear serial .. | releaseOld serial .. => .query serial
  | load a | follow a _ => a.call

/-- The serial that it has drawn. -/
def Point.drawn : Point σ → Option Nat
  | taken c | save c | new c _ | release c _ => some c.serial
  | load a | follow a _ => a.drawn
  | _ => none

/-- A step stays in its call, and an effect is one of the call. -/
def Next.Of (pt : Point σ) : Next σ → Prop
  | goOn pt' => pt'.call = pt.call ∧ pt'.drawn = pt.drawn
  | effect .draw out pt' => ∃ x pt₁, out = .serial x ∧ x < uint16Max ∧ pt' = some pt₁ ∧ pt₁.call = pt.call ∧
      pt₁.drawn = some x
  | effect (.fill c) _ pt' => pt' = none ∧ pt.call = .add c.origin c.addr ∧ pt.drawn = some c.serial
  | effect (.query serial) _ pt' => pt' = none ∧ pt.call = .query serial

section
variable {A : Alloc.Allocator} {m m' : SharedMap σ} {now p : Nat} {next : Next σ}

theorem map_bind_ok {α β : Type} {x : MapExec α} {f : α → MapExec β} {b : β} (h : (x >>= f) = .ok b) :
    ∃ a, x = .ok a ∧ f a = .ok b := by
  cases x with
  | error e => cases h
  | ok a => exact ⟨a, rfl, h⟩

theorem follow_of (a : Access σ) (h : m.follow now p a = .ok (m', next)) : next.Of (.follow a p) := by
  cases a with
  | checkTimeOut c =>
    obtain ⟨node, -, h⟩ := map_bind_ok h
    obtain ⟨timeOut, -, h⟩ := map_bind_ok h
    split at h <;> cases h
    · exact ⟨rfl, rfl, rfl⟩
    · exact ⟨rfl, rfl⟩
  | setTimeOut | setOrigin | setLast | setFrom =>
    obtain ⟨m₁, -, h⟩ := map_bind_ok h
    cases h
    exact ⟨rfl, rfl⟩
  | checkLast serial =>
    obtain ⟨node, -, h⟩ := map_bind_ok h
    obtain ⟨last, -, h⟩ := map_bind_ok h
    split at h <;> cases h
    · exact ⟨rfl, rfl⟩
    · exact ⟨rfl, rfl⟩
  | getOrigin | getFrom =>
    obtain ⟨node, -, h⟩ := map_bind_ok h
    obtain ⟨value, -, h⟩ := map_bind_ok h
    cases h
    exact ⟨rfl, rfl⟩

theorem step_of (pt : Point σ) (h : m.step A now pt = .ok (m', next)) : next.Of pt := by
  cases pt with
  | draw origin addr =>
    cases h
    exact ⟨_, _, rfl, Nat.mod_lt _ (by decide), rfl, rfl, rfl⟩
  | taken c =>
    simp only [SharedMap.step] at h
    split at h <;> cases h <;> exact ⟨rfl, rfl⟩
  | save | new | saveOld | clear =>
    cases h
    exact ⟨rfl, rfl⟩
  | release c temp =>
    obtain ⟨heap, -, h⟩ := map_bind_ok h
    cases h
    exact ⟨rfl, rfl, rfl⟩
  | found serial =>
    simp only [SharedMap.step] at h
    split at h <;> cases h <;> exact ⟨rfl, rfl⟩
  | releaseOld serial origin addr temp =>
    obtain ⟨heap, -, h⟩ := map_bind_ok h
    cases h
    exact ⟨rfl, rfl⟩
  | load a =>
    simp only [SharedMap.step] at h
    split at h
    · cases h
    · cases h
      exact ⟨rfl, rfl⟩
  | follow a p => exact follow_of a h

end

/-- What an effect in the log stands for, the effects before it being `log`. -/
def Entry (calls : List (MapCall σ)) (log : List (Nat × MapOp σ × MapOut σ)) : Nat × MapOp σ × MapOut σ → Prop
  | (i, .fill c, _) => calls[i]? = some (.add c.origin c.addr) ∧ (i, .draw, .serial c.serial) ∈ log
  | (i, .query serial, _) => calls[i]? = some (.query serial)
  | (_, .draw, out) => ∃ x < uint16Max, out = .serial x

/-- Each thread is in its call and has drawn its serial there, and each effect is one of its call. -/
structure MapState.Traced (s : MapState σ) : Prop where
  thread : ∀ t ∈ s.threads, s.calls[t.call]? = some t.point.call ∧
    ∀ x, t.point.drawn = some x → (t.call, .draw, .serial x) ∈ s.log
  entry : ∀ log e log', s.log = log ++ e :: log' → Entry s.calls log e

namespace MapState.Traced
variable {A : Alloc.Allocator} {s s' : MapState σ} {e : MapEvent σ}

theorem init (heap : Alloc.Heap (NodeCell σ)) : Traced (.init heap) where
  thread t ht := by cases ht
  entry log e log' he := by
    cases log <;> cases he

theorem entry_mono {calls calls' : List (MapCall σ)}
    (hcalls : ∀ (i : Nat) (c : MapCall σ), calls[i]? = some c → calls'[i]? = some c)
    {log : List (Nat × MapOp σ × MapOut σ)} {e : Nat × MapOp σ × MapOut σ} (h : Entry calls log e) :
    Entry calls' log e := by
  obtain ⟨i, op, out⟩ := e
  cases op with
  | draw => exact h
  | fill c => exact ⟨hcalls _ _ h.1, h.2⟩
  | query serial => exact hcalls _ _ h

/-- An effect at the end of the log. -/
theorem entry_snoc {calls : List (MapCall σ)} {log : List (Nat × MapOp σ × MapOut σ)} {e : Nat × MapOp σ × MapOut σ}
    (h : ∀ l x l', log = l ++ x :: l' → Entry calls l x) (he : Entry calls log e) :
    ∀ l x l', log ++ [e] = l ++ x :: l' → Entry calls l x := by
  intro l x l' heq
  rcases List.eq_nil_or_concat l' with rfl | ⟨l₁, y, rfl⟩
  · obtain ⟨rfl, he'⟩ := List.append_inj' heq rfl
    cases he'
    exact he
  · have heq' : log ++ [e] = (l ++ x :: l₁) ++ [y] := by simpa using heq
    obtain ⟨rfl, -⟩ := List.append_inj' heq' rfl
    exact h l x l₁ rfl

theorem step (h : s.Traced) (hstep : mapStep A s e = .ok s') : s'.Traced := by
  cases e with
  | arrive call =>
    cases hstep
    have hcalls : ∀ (i : Nat) (c : MapCall σ), s.calls[i]? = some c → (s.calls ++ [call])[i]? = some c := by
      intro i c hc
      rw [List.getElem?_append_left (List.getElem?_eq_some_iff.1 hc).1, hc]
    refine ⟨fun t ht => ?_, fun log e log' he => entry_mono hcalls (h.entry log e log' he)⟩
    rcases List.mem_append.1 ht with ht | ht
    · exact ⟨hcalls _ _ (h.thread t ht).1, (h.thread t ht).2⟩
    · obtain rfl := List.mem_singleton.1 ht
      cases call with
      | add origin addr => exact ⟨by simp [MapCall.start, Point.call], fun x hx => by cases hx⟩
      | query serial => exact ⟨by simp [MapCall.start, Point.call], fun x hx => by cases hx⟩
  | run k now =>
    cases hk : s.threads[k]? with
    | none =>
      simp only [mapStep, hk] at hstep
      cases hstep
      exact h
    | some t =>
      obtain ⟨hcall, hdrawn⟩ := h.thread t (List.mem_of_getElem? hk)
      simp only [mapStep, hk] at hstep
      cases hs : s.map.step A now t.point with
      | error f =>
        rw [hs] at hstep
        cases hstep
      | ok r =>
        obtain ⟨m', next⟩ := r
        have hof := step_of t.point hs
        rw [hs] at hstep
        cases next with
        | goOn pt =>
          cases hstep
          refine ⟨fun t' ht' => ?_, h.entry⟩
          rcases List.mem_or_eq_of_mem_set ht' with ht' | rfl
          · exact h.thread t' ht'
          · exact ⟨hof.1 ▸ hcall, fun x hx => hdrawn x (hof.2 ▸ hx)⟩
        | effect op out pt =>
          have hold : ∀ t' ∈ s.threads, s.calls[t'.call]? = some t'.point.call ∧
              ∀ x, t'.point.drawn = some x → (t'.call, .draw, .serial x) ∈ s.log ++ [(t.call, op, out)] :=
            fun t' ht' => ⟨(h.thread t' ht').1, fun x hx => List.mem_append_left _ ((h.thread t' ht').2 x hx)⟩
          cases op with
          | draw =>
            obtain ⟨x, pt₁, rfl, hx, rfl, hpt, hdr⟩ := hof
            cases hstep
            refine ⟨fun t' ht' => ?_, entry_snoc h.entry ⟨x, hx, rfl⟩⟩
            rcases List.mem_or_eq_of_mem_set ht' with ht' | rfl
            · exact hold t' ht'
            · refine ⟨hpt ▸ hcall, fun y hy => ?_⟩
              cases hdr.symm.trans hy
              exact List.mem_append_right _ (List.mem_singleton.2 rfl)
          | fill c =>
            obtain ⟨rfl, hc, hd⟩ := hof
            cases hstep
            exact ⟨fun t' ht' => hold t' (List.mem_of_mem_eraseIdx ht'),
              entry_snoc h.entry ⟨hc ▸ hcall, hdrawn _ hd⟩⟩
          | query serial =>
            obtain ⟨rfl, hc⟩ := hof
            cases hstep
            exact ⟨fun t' ht' => hold t' (List.mem_of_mem_eraseIdx ht'),
              entry_snoc h.entry (hcall.trans (congrArg some hc))⟩

theorem run (h : s.Traced) {es : List (MapEvent σ)} (hrun : mapRun A s es = .ok s') : s'.Traced := by
  induction es generalizing s with
  | nil =>
    cases hrun
    exact h
  | cons e es ih =>
    rw [mapRun, List.foldlM_cons] at hrun
    obtain ⟨s₁, hstep, hrest⟩ := map_bind_ok hrun
    exact ih (h.step hstep) hrest

end MapState.Traced

/-! ### Effects at once -/

/-- The effect puts a node into slot `c`, or takes it out. -/
def TakesSlot (c : Nat) : Nat × MapOp σ × MapOut σ → Prop
  | (_, .fill r, .serial x) => r.slot = c ∧ x ≠ uint16Max
  | (_, .query serial, .node (some _)) => serial % maxMapSize = c
  | _ => False

/-- The last of these effects that took slot `c` is that of `r`. -/
def Filled (log : List (Nat × MapOp σ × MapOut σ)) (c : Nat) (i : Nat) (r : AddCall σ) : Prop :=
  ∃ before after, log = before ++ (i, .fill r, .serial r.serial) :: after ∧ r.slot = c ∧ r.serial ≠ uint16Max ∧
    ∀ e ∈ after, ¬ TakesSlot c e

section
variable {log : List (Nat × MapOp σ × MapOut σ)} {c i : Nat} {r : AddCall σ} {e : Nat × MapOp σ × MapOut σ}

theorem filled_snoc (he : ¬ TakesSlot c e) : Filled (log ++ [e]) c i r ↔ Filled log c i r := by
  constructor
  · rintro ⟨before, after, heq, hslot, hser, hafter⟩
    rcases List.eq_nil_or_concat after with rfl | ⟨after, y, rfl⟩
    · obtain ⟨-, he'⟩ := List.append_inj' heq rfl
      cases he'
      exact absurd ⟨hslot, hser⟩ he
    · have heq' : log ++ [e] = (before ++ (i, .fill r, .serial r.serial) :: after) ++ [y] := by simpa using heq
      obtain ⟨hlog, -⟩ := List.append_inj' heq' rfl
      refine ⟨before, after, hlog, hslot, hser, fun x hx => hafter x ?_⟩
      rw [List.concat_eq_append]
      exact List.mem_append_left _ hx
  · rintro ⟨before, after, rfl, hslot, hser, hafter⟩
    refine ⟨before, after ++ [e], by simp, hslot, hser, fun x hx => ?_⟩
    rcases List.mem_append.1 hx with hx | hx
    · exact hafter x hx
    · exact List.mem_singleton.1 hx ▸ he

theorem filled_taken (he : TakesSlot c e) : Filled (log ++ [e]) c i r ↔
    e = (i, .fill r, .serial r.serial) ∧ r.slot = c ∧ r.serial ≠ uint16Max := by
  constructor
  · rintro ⟨before, after, heq, hslot, hser, hafter⟩
    rcases List.eq_nil_or_concat after with rfl | ⟨after, y, rfl⟩
    · obtain ⟨-, he'⟩ := List.append_inj' heq rfl
      cases he'
      exact ⟨rfl, hslot, hser⟩
    · have heq' : log ++ [e] = (before ++ (i, .fill r, .serial r.serial) :: after) ++ [y] := by simpa using heq
      obtain ⟨-, he'⟩ := List.append_inj' heq' rfl
      cases he'
      exact absurd he (hafter e (by simp))
  · rintro ⟨rfl, hslot, hser⟩
    exact ⟨log, [], rfl, hslot, hser, fun x hx => by cases hx⟩

/-- The last effect of a log, and what came before it. -/
theorem replay_last {d : IdMap σ} {op : MapOp σ} {out : MapOut σ}
    (h : Transducer.total IdMap.apply .init ((log ++ [(i, op, out)]).map fun e => e.2.1) =
      (d, (log ++ [(i, op, out)]).map fun e => e.2.2)) :
    ∃ d₁, Transducer.total IdMap.apply .init (log.map fun e => e.2.1) = (d₁, log.map fun e => e.2.2) ∧
      d₁.apply op = (d, out) := by
  rw [List.map_append, List.map_append, Transducer.total_append] at h
  obtain ⟨hd, hout⟩ := Prod.mk.inj h
  obtain ⟨houts, hlast⟩ := List.append_inj' hout rfl
  exact ⟨_, Prod.ext rfl houts, Prod.ext hd (List.cons.inj hlast).1⟩

/-- The table is what the last effect on each slot made of it. -/
theorem nodes_iff_filled {d : IdMap σ}
    (h : Transducer.total IdMap.apply .init (log.map fun e => e.2.1) = (d, log.map fun e => e.2.2))
    (hser : ∀ i r out, (i, .fill r, out) ∈ log → r.serial ≠ uint16Max) (c : Nat) (n : MapNode σ) :
    d.nodes c = some n ↔ ∃ i r, Filled log c i r ∧ r.node = n := by
  induction log using List.reverseRecOn generalizing d with
  | nil =>
    cases h
    refine ⟨fun h => (by cases h), ?_⟩
    rintro ⟨i, r, ⟨before, after, heq, -⟩, -⟩
    cases before <;> cases heq
  | append_singleton log e ih =>
    obtain ⟨i, op, out⟩ := e
    obtain ⟨d₁, h₁, heff⟩ := replay_last h
    have hold := ih h₁ fun i r out hm => hser i r out (List.mem_append_left _ hm)
    have hsame : ¬ TakesSlot c (i, op, out) → d.nodes c = d₁.nodes c →
        (d.nodes c = some n ↔ ∃ i' r, Filled (log ++ [(i, op, out)]) c i' r ∧ r.node = n) := by
      intro hnot hd
      rw [hd, hold]
      simp only [filled_snoc hnot]
    cases op with
    | draw =>
      cases heff
      exact hsame (fun h => h) rfl
    | fill r =>
      by_cases hb : Blocks (d₁.nodes r.slot) r.t₁
      · rw [apply_fill_busy hb] at heff
        cases heff
        exact hsame (fun h => h.2 rfl) rfl
      · rw [apply_fill_free hb] at heff
        cases heff
        by_cases hc : c = r.slot
        · subst hc
          have ht : TakesSlot r.slot (i, .fill r, .serial r.serial) := ⟨rfl, hser i r (.serial r.serial) (by simp)⟩
          show Function.update d₁.nodes r.slot (some r.node) r.slot = some n ↔ _
          rw [Function.update_self, Option.some_inj]
          simp only [filled_taken ht]
          constructor
          · rintro rfl
            exact ⟨i, r, ⟨rfl, rfl, ht.2⟩, rfl⟩
          · rintro ⟨i', r', ⟨he, -, -⟩, rfl⟩
            cases he
            rfl
        · exact hsame (fun h => hc h.1.symm) (Function.update_of_ne hc _ _)
    | query serial =>
      by_cases hhit : ∃ n', d₁.nodes (serial % maxMapSize) = some n' ∧ n'.last = serial / maxMapSize
      · obtain ⟨n', hn', hl⟩ := hhit
        rw [apply_query_hit hn' hl] at heff
        cases heff
        by_cases hc : c = serial % maxMapSize
        · subst hc
          have ht : TakesSlot (serial % maxMapSize) (i, .query serial, .node (some (n'.origin, n'.fromAddr))) := rfl
          show Function.update d₁.nodes (serial % maxMapSize) none _ = some n ↔ _
          rw [Function.update_self]
          simp only [filled_taken ht]
          refine ⟨fun h => (by cases h), ?_⟩
          rintro ⟨i', r, ⟨he, -⟩, -⟩
          cases he
        · exact hsame (fun h => hc h.symm) (Function.update_of_ne hc _ _)
      · rw [apply_query_miss fun n' hn' hl => hhit ⟨n', hn', hl⟩] at heff
        cases heff
        exact hsame (fun h => h) rfl

/-- What an effect in the middle of a log meets. -/
theorem replay_at {d : IdMap σ} {before after : List (Nat × MapOp σ × MapOut σ)} {op : MapOp σ} {out : MapOut σ}
    (h : Transducer.total IdMap.apply .init (log.map fun e => e.2.1) = (d, log.map fun e => e.2.2))
    (hlog : log = before ++ (i, op, out) :: after) :
    ∃ d₁, Transducer.total IdMap.apply .init (before.map fun e => e.2.1) = (d₁, before.map fun e => e.2.2) ∧
      (d₁.apply op).2 = out := by
  induction after using List.reverseRecOn generalizing log d with
  | nil =>
    subst hlog
    obtain ⟨d₁, h₁, heff⟩ := replay_last h
    exact ⟨d₁, h₁, congrArg Prod.snd heff⟩
  | append_singleton after e ih =>
    obtain ⟨j, op', out'⟩ := e
    have hlog' : log = (before ++ (i, op, out) :: after) ++ [(j, op', out')] := by simpa using hlog
    subst hlog'
    obtain ⟨d₁, h₁, -⟩ := replay_last h
    exact ih h₁ rfl

def IsDraw : Nat × MapOp σ × MapOut σ → Bool
  | (_, .draw, _) => true
  | _ => false

/-- The counter. -/
theorem alloc_eq {d : IdMap σ}
    (h : Transducer.total IdMap.apply .init (log.map fun e => e.2.1) = (d, log.map fun e => e.2.2)) :
    d.alloc = log.countP IsDraw % uint16Max := by
  induction log using List.reverseRecOn generalizing d with
  | nil =>
    cases h
    rfl
  | append_singleton log e ih =>
    obtain ⟨i, op, out⟩ := e
    obtain ⟨d₁, h₁, heff⟩ := replay_last h
    have hd := ih h₁
    rw [List.countP_append, List.countP_singleton]
    cases op with
    | draw =>
      cases heff
      show (d₁.alloc + 1) % uint16Max = _
      rw [hd, Nat.mod_add_mod]
      rfl
    | fill r =>
      have halloc : d.alloc = d₁.alloc := by
        by_cases hb : Blocks (d₁.nodes r.slot) r.t₁
        · rw [apply_fill_busy hb] at heff
          cases heff
          rfl
        · rw [apply_fill_free hb] at heff
          cases heff
          rfl
      rw [halloc, hd]
      rfl
    | query serial =>
      have halloc : d.alloc = d₁.alloc := by
        by_cases hhit : ∃ n', d₁.nodes (serial % maxMapSize) = some n' ∧ n'.last = serial / maxMapSize
        · obtain ⟨n', hn', hl⟩ := hhit
          rw [apply_query_hit hn' hl] at heff
          cases heff
          rfl
        · rw [apply_query_miss fun n' hn' hl => hhit ⟨n', hn', hl⟩] at heff
          cases heff
          rfl
      rw [halloc, hd]
      rfl

end

/-- In every interleaving in which no two threads work on one slot at a time: a query of a serial returns what was
filled in under this very serial, if that effect was the last to take the slot, and nothing otherwise; what is filled
in are the arguments of a call, under the serial that this call drew before; and a serial is drawn again only after
all the others were. -/
theorem map_threads_delivered (A : Alloc.Allocator) (heap : Alloc.Heap (NodeCell σ)) (es : List (MapEvent σ))
    (hes : exclusive A (.init heap) es = true) {s : MapState σ} (hrun : mapRun A (.init heap) es = .ok s) :
    (∀ before i x out after, s.log = before ++ (i, .query x, .node out) :: after → ∀ origin addr,
      out = some (origin, addr) ↔
        ∃ j r, Filled before (x % maxMapSize) j r ∧ r.serial = x ∧ r.origin = origin ∧ r.addr = addr) ∧
    (∀ before j r out after, s.log = before ++ (j, .fill r, out) :: after →
      s.calls[j]? = some (.add r.origin r.addr) ∧ (j, .draw, .serial r.serial) ∈ before) ∧
    ∀ before i j x between after,
      s.log = before ++ (i, .draw, .serial x) :: (between ++ (j, .draw, .serial x) :: after) →
      uint16Max ≤ between.countP IsDraw + 1 := by
  obtain ⟨s', d, hrun', h⟩ := run_inv (MapState.Inv.init heap) hes
  cases hrun.symm.trans hrun'
  have htr := (MapState.Traced.init heap).run hrun
  refine ⟨?_, fun before j r out after hlog => htr.entry before _ after hlog, ?_⟩
  · intro before i x out after hlog origin addr
    obtain ⟨d₁, h₁, hout⟩ := replay_at h.replay hlog
    have hser : ∀ i r out, (i, .fill r, out) ∈ before → r.serial ≠ uint16Max := by
      intro i' r out' hm
      obtain ⟨l₁, l₂, rfl⟩ := List.append_of_mem hm
      obtain ⟨-, hdraw⟩ := htr.entry l₁ _ _ (by rw [hlog, List.append_assoc]; rfl)
      obtain ⟨l₃, l₄, rfl⟩ := List.append_of_mem hdraw
      obtain ⟨y, hy, he⟩ := htr.entry l₃ _ _ (by rw [hlog, List.append_assoc, List.append_assoc]; rfl)
      cases he
      exact Nat.ne_of_lt hy
    have hnodes := nodes_iff_filled h₁ hser (x % maxMapSize)
    constructor
    · rintro rfl
      by_cases hhit : ∃ n, d₁.nodes (x % maxMapSize) = some n ∧ n.last = x / maxMapSize
      · obtain ⟨n, hn, hl⟩ := hhit
        rw [apply_query_hit hn hl] at hout
        cases hout
        obtain ⟨j, r, hfill, rfl⟩ := (hnodes n).1 hn
        obtain ⟨_, _, _, hslot, -⟩ := id hfill
        exact ⟨j, r, hfill, Relay.serial_eq_of_slot_last hslot hl, rfl, rfl⟩
      · rw [apply_query_miss fun n hn hl => hhit ⟨n, hn, hl⟩] at hout
        cases hout
    · rintro ⟨j, r, hfill, rfl, rfl, rfl⟩
      have hn := (hnodes r.node).2 ⟨j, r, hfill, rfl⟩
      rw [apply_query_hit hn rfl] at hout
      cases hout
      rfl
  · intro before i j x between after hlog
    obtain ⟨d₁, h₁, hx₁⟩ := replay_at h.replay hlog
    have hlog' : s.log = (before ++ (i, .draw, .serial x) :: between) ++ (j, .draw, .serial x) :: after := by
      rw [hlog, List.append_assoc]
      rfl
    obtain ⟨d₂, h₂, hx₂⟩ := replay_at h.replay hlog'
    have hx₁ : (d₁.alloc + 1) % uint16Max = x := MapOut.serial.inj hx₁
    have hx₂ : (d₂.alloc + 1) % uint16Max = x := MapOut.serial.inj hx₂
    have hcount : (before ++ (i, .draw, .serial x) :: between).countP IsDraw =
        before.countP IsDraw + (between.countP IsDraw + 1) := by
      rw [List.countP_append, List.countP_cons]
      rfl
    rw [alloc_eq h₁] at hx₁
    rw [alloc_eq h₂, hcount] at hx₂
    unfold uint16Max at *
    omega

/-- The response to the second of two requests goes to its client. -/
theorem map_threads_delivered_turns : ∃ s before i, mapRun .bump (.init emptyHeap) mapTurns = .ok s ∧
    s.log = before ++ [(i, .query 2, .node (some (7, 200)))] ∧ ∃ j r, Filled before 2 j r ∧ r.addr = 200 := by
  have hlast : (mapRun .bump (.init emptyHeap) mapTurns).map (fun s => s.log.getLast?) =
      .ok (some (2, .query 2, .node (some (7, 200)))) := by decide +kernel
  cases hrun : mapRun .bump (.init emptyHeap) mapTurns with
  | error f => rw [hrun] at hlast; cases hlast
  | ok s =>
    rw [hrun] at hlast
    obtain ⟨before, hlog⟩ := List.getLast?_eq_some_iff.1 (Except.ok.inj hlast)
    obtain ⟨hq, -⟩ := map_threads_delivered .bump emptyHeap mapTurns (by decide +kernel) hrun
    obtain ⟨j, r, hfill, -, -, haddr⟩ := (hq before 2 2 _ [] hlog 7 200).1 rfl
    exact ⟨s, before, 2, rfl, hlog, j, r, hfill, haddr⟩

end DnsRelay
