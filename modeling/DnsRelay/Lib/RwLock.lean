import Mathlib

/-!
# Sections under one readers-writer lock

Threads share data and touch it only while they hold the lock. An operation takes the lock, for reading or
for writing, runs in single steps between which any other thread may run, and releases the lock with its last
step; what it leaves to do becomes new threads. `run` follows a schedule of such steps, `Serial.run` executes
whole operations one after another. Each schedule comes to what some serial run comes to (`Coherent.run`): the
operations take effect in the order in which they release the lock, and what a step meets halfway through
another operation is never seen. No schedule gets stuck (`exists_drain`).
-/

namespace RwLock

/-- What threads do with the data `σ`: operations `ι` that go through local states of their own to a result `ρ`
or to a fault `φ`. -/
structure Sections (σ α ι : Type) (L : ι → Type) (ρ φ : Type) where
  /-- The operation that a request of the outside is. -/
  arrives : α → ι
  writes : ι → Bool
  start : ∀ op, L op
  step : ∀ op, σ → L op → Except φ (σ × (L op ⊕ ρ))
  /-- The operations that the thread leaves to new threads when it is done. -/
  spawn : ι → ρ → List ι
  reads : ∀ op d l d' x, writes op = false → step op d l = .ok (d', x) → d' = d

inductive Thread (ι : Type) (L : ι → Type)
  | waiting (op : ι)
  | inside (op : ι) (l : L op)

namespace Thread
variable {ι : Type} {L : ι → Type}

def op : Thread ι L → ι
  | waiting op => op
  | inside op _ => op

def isInside : Thread ι L → Bool
  | waiting _ => false
  | inside _ _ => true

end Thread

structure State (σ ι : Type) (L : ι → Type) (ρ : Type) where
  data : σ
  threads : List (Thread ι L)
  /-- The operations that are done, with their results, the last at the end. -/
  log : List (ι × ρ)

/-- A new thread comes, or the thread at a position of the list is scheduled. -/
inductive Event (α : Type)
  | arrive (a : α)
  | run (k : Nat)

variable {σ α ι : Type} {L : ι → Type} {ρ φ : Type} (S : Sections σ α ι L ρ φ)

/-- The lock is granted. -/
def admits (threads : List (Thread ι L)) (op : ι) : Bool :=
  threads.all fun t => !t.isInside || (!S.writes op && !S.writes t.op)

/-- A thread that the lock is not granted to stays where it is. -/
def step (s : State σ ι L ρ) : Event α → Except φ (State σ ι L ρ)
  | .arrive a => .ok { s with threads := s.threads ++ [.waiting (S.arrives a)] }
  | .run k => match s.threads[k]? with
    | none => .ok s
    | some (.waiting op) =>
      if admits S s.threads op then .ok { s with threads := s.threads.set k (.inside op (S.start op)) }
      else .ok s
    | some (.inside op l) => match S.step op s.data l with
      | .error f => .error f
      | .ok (d, .inl l) => .ok { s with data := d, threads := s.threads.set k (.inside op l) }
      | .ok (d, .inr r) => .ok {
          data := d
          threads := s.threads.eraseIdx k ++ (S.spawn op r).map .waiting
          log := s.log ++ [(op, r)] }

def run (s : State σ ι L ρ) (es : List (Event α)) : Except φ (State σ ι L ρ) := es.foldlM (step S) s

/-! ### Whole operations -/

namespace Serial

structure State (σ ι ρ : Type) where
  data : σ
  pending : List ι
  log : List (ι × ρ)

variable (whole : ι → σ → Except φ (σ × ρ))

def step (b : State σ ι ρ) : Event α → Except φ (State σ ι ρ)
  | .arrive a => .ok { b with pending := b.pending ++ [S.arrives a] }
  | .run k => match b.pending[k]? with
    | none => .ok b
    | some op => match whole op b.data with
      | .error f => .error f
      | .ok (d, r) => .ok ⟨d, b.pending.eraseIdx k ++ S.spawn op r, b.log ++ [(op, r)]⟩

def run (b : State σ ι ρ) (es : List (Event α)) : Except φ (State σ ι ρ) := es.foldlM (step S whole) b

end Serial

/-! ### One operation, undisturbed -/

/-- The steps of an operation from a local state on come to this end. -/
inductive Ends (op : ι) : σ → L op → Except φ (σ × ρ) → Prop
  | fault {d l f} (h : S.step op d l = .error f) : Ends op d l (.error f)
  | done {d l d' r} (h : S.step op d l = .ok (d', .inr r)) : Ends op d l (.ok (d', r))
  | more {d l d' l' x} (h : S.step op d l = .ok (d', .inl l')) (hx : Ends op d' l' x) : Ends op d l x

/-- Some steps of an operation lead from the data `d` to here. -/
inductive Steps (op : ι) (d : σ) : σ → L op → Prop
  | start : Steps op d d (S.start op)
  | more {d₁ l d₂ l'} (h : Steps op d d₁ l) (hs : S.step op d₁ l = .ok (d₂, .inl l')) : Steps op d d₂ l'

variable {S}

namespace Ends
variable {op : ι} {d d' : σ} {l l' : L op} {x : Except φ (σ × ρ)} {r : ρ} {f : φ}

theorem eq_fault (h : Ends S op d l x) (hs : S.step op d l = .error f) : x = .error f := by
  cases h with
  | fault h => rw [hs] at h; cases h; rfl
  | done h => rw [hs] at h; cases h
  | more h => rw [hs] at h; cases h

theorem eq_done (h : Ends S op d l x) (hs : S.step op d l = .ok (d', .inr r)) : x = .ok (d', r) := by
  cases h with
  | fault h => rw [hs] at h; cases h
  | done h => rw [hs] at h; cases h; rfl
  | more h => rw [hs] at h; cases h

theorem of_more (h : Ends S op d l x) (hs : S.step op d l = .ok (d', .inl l')) : Ends S op d' l' x := by
  cases h with
  | fault h => rw [hs] at h; cases h
  | done h => rw [hs] at h; cases h
  | more h hx => rw [hs] at h; cases h; exact hx

theorem of_steps (h : Ends S op d (S.start op) x) (hs : Steps S op d d' l) : Ends S op d' l x := by
  induction hs with
  | start => exact h
  | more _ hs ih => exact ih.of_more hs

end Ends

/-! ### Schedules and serial runs -/

/-- The invariant of the serial runs on which an operation is what its steps come to. -/
structure Agrees (S : Sections σ α ι L ρ φ) (whole : ι → σ → Except φ (σ × ρ)) (I : σ → List ι → Prop) : Prop where
  ends : ∀ {d ops op}, I d ops → op ∈ ops → Ends S op d (S.start op) (whole op d)
  arrive : ∀ {d ops} a, I d ops → I d (ops ++ [S.arrives a])
  section_ : ∀ {d ops k op d' r}, I d ops → ops[k]? = some op → whole op d = .ok (d', r) →
    I d' (ops.eraseIdx k ++ S.spawn op r)

/-- The threads are where the serial run is: the operations they have not finished are pending there, each
thread inside has come from the data of the serial run to what is there now, a writer is alone inside, and
without one the data are those of the serial run. -/
structure Coherent (S : Sections σ α ι L ρ φ) (s : State σ ι L ρ) (b : Serial.State σ ι ρ) : Prop where
  pending : b.pending = s.threads.map Thread.op
  log : b.log = s.log
  steps : ∀ op l, .inside op l ∈ s.threads → Steps S op b.data s.data l
  alone : ∀ (k k' : Nat) op l t, s.threads[k]? = some (.inside op l) → S.writes op = true →
    s.threads[k']? = some t → t.isInside = true → k' = k
  quiet : (∀ op l, .inside op l ∈ s.threads → S.writes op = false) → s.data = b.data

theorem admits_iff {threads : List (Thread ι L)} {op : ι} : admits S threads op = true ↔
    ∀ op' l, .inside op' l ∈ threads → S.writes op = false ∧ S.writes op' = false := by
  unfold admits
  rw [List.all_eq_true]
  constructor
  · intro h op' l hm
    have := h _ hm
    simpa [Thread.isInside, Thread.op] using this
  · rintro h (op' | ⟨op', l⟩) hm
    · rfl
    · have := h op' l hm
      simp [Thread.isInside, Thread.op, this]

theorem getElem?_set_some {threads : List (Thread ι L)} {k i : Nat} {t t' : Thread ι L}
    (h : (threads.set k t)[i]? = some t') : i = k ∧ t' = t ∨ i ≠ k ∧ threads[i]? = some t' := by
  by_cases hi : i = k
  · subst i
    have hlt : k < threads.length := by simpa using (List.getElem?_eq_some_iff.1 h).1
    rw [List.getElem?_set_self hlt] at h
    exact .inl ⟨rfl, (Option.some.inj h).symm⟩
  · rw [List.getElem?_set_ne (Ne.symm hi)] at h
    exact .inr ⟨hi, h⟩

theorem mem_eraseIdx {threads : List (Thread ι L)} {k : Nat} {t : Thread ι L} (h : t ∈ threads.eraseIdx k) :
    ∃ k', k' ≠ k ∧ threads[k']? = some t := by
  obtain ⟨k', hk⟩ := List.mem_iff_getElem?.1 h
  rw [List.getElem?_eraseIdx] at hk
  split at hk
  · exact ⟨k', by omega, hk⟩
  · exact ⟨k' + 1, by omega, hk⟩

theorem inside_spawned {ops : List ι} {op : ι} {l : L op} : Thread.inside op l ∉ ops.map Thread.waiting := by
  simp

theorem map_set_op {threads : List (Thread ι L)} {k : Nat} {t t' : Thread ι L} (hk : threads[k]? = some t)
    (hop : t'.op = t.op) : (threads.set k t').map Thread.op = threads.map Thread.op := by
  rw [List.map_set, hop]
  refine List.ext_getElem? fun i => ?_
  rw [List.getElem?_set]
  split
  · subst i
    obtain ⟨hlt, rfl⟩ := List.getElem?_eq_some_iff.1 hk
    simp [hlt]
  · rfl

/-- What a step of a schedule is. -/
inductive Moves (S : Sections σ α ι L ρ φ) (s : State σ ι L ρ) : Event α → Except φ (State σ ι L ρ) → Prop
  | arrive a : Moves S s (.arrive a) (.ok { s with threads := s.threads ++ [.waiting (S.arrives a)] })
  | idle k : Moves S s (.run k) (.ok s)
  | acquire {k op} (hk : s.threads[k]? = some (.waiting op)) (ha : admits S s.threads op = true) :
    Moves S s (.run k) (.ok { s with threads := s.threads.set k (.inside op (S.start op)) })
  | fault {k op l f} (hk : s.threads[k]? = some (.inside op l)) (hs : S.step op s.data l = .error f) :
    Moves S s (.run k) (.error f)
  | inner {k op l d l'} (hk : s.threads[k]? = some (.inside op l)) (hs : S.step op s.data l = .ok (d, .inl l')) :
    Moves S s (.run k) (.ok { s with data := d, threads := s.threads.set k (.inside op l') })
  | finish {k op l d r} (hk : s.threads[k]? = some (.inside op l)) (hs : S.step op s.data l = .ok (d, .inr r)) :
    Moves S s (.run k) (.ok {
      data := d
      threads := s.threads.eraseIdx k ++ (S.spawn op r).map .waiting
      log := s.log ++ [(op, r)] })

theorem step_inside {s : State σ ι L ρ} {k : Nat} {op : ι} {l : L op} (hk : s.threads[k]? = some (.inside op l)) :
    step S s (.run k) = match S.step op s.data l with
      | .error f => .error f
      | .ok (d, .inl l) => .ok { s with data := d, threads := s.threads.set k (.inside op l) }
      | .ok (d, .inr r) => .ok {
          data := d
          threads := s.threads.eraseIdx k ++ (S.spawn op r).map .waiting
          log := s.log ++ [(op, r)] } := by
  simp only [step, hk]

theorem moves (S : Sections σ α ι L ρ φ) (s : State σ ι L ρ) (e : Event α) : Moves S s e (step S s e) := by
  cases e with
  | arrive a => exact .arrive a
  | run k =>
    cases hk : s.threads[k]? with
    | none =>
      simp only [step, hk]
      exact .idle k
    | some t =>
      cases t with
      | waiting op =>
        simp only [step, hk]
        split
        · exact .acquire hk ‹_›
        · exact .idle k
      | inside op l =>
        rw [step_inside hk]
        cases hs : S.step op s.data l with
        | error f => exact .fault hk hs
        | ok p =>
          obtain ⟨d, l' | r⟩ := p
          · exact .inner hk hs
          · exact .finish hk hs

namespace Serial
variable {whole : ι → σ → Except φ (σ × ρ)} {b : State σ ι ρ} {k : Nat} {op : ι} {d : σ} {r : ρ} {f : φ}

theorem step_none (hp : b.pending[k]? = none) : step S whole b (.run k) = .ok b := by
  simp only [step, hp]

theorem step_section (hp : b.pending[k]? = some op) (hw : whole op b.data = .ok (d, r)) :
    step S whole b (.run k) = .ok ⟨d, b.pending.eraseIdx k ++ S.spawn op r, b.log ++ [(op, r)]⟩ := by
  simp only [step, hp, hw]

theorem step_fault (hp : b.pending[k]? = some op) (hw : whole op b.data = .error f) :
    step S whole b (.run k) = .error f := by
  simp only [step, hp, hw]

theorem run_one {e : Event α} {y : Except φ (State σ ι ρ)} (h : step S whole b e = y) : run S whole b [e] = y := by
  unfold run
  rw [List.foldlM_cons, h]
  cases y <;> rfl

theorem run_append (es es' : List (Event α)) {b' : State σ ι ρ} (h : run S whole b es = .ok b') :
    run S whole b (es ++ es') = run S whole b' es' := by
  unfold run at h ⊢
  rw [List.foldlM_append, h]
  rfl

end Serial

namespace Coherent
variable {whole : ι → σ → Except φ (σ × ρ)} {I : σ → List ι → Prop} {s s' : State σ ι L ρ}
  {b b' : Serial.State σ ι ρ} {op : ι} {l l' : L op} {k : Nat} {d : σ} {r : ρ} {f : φ} {e : Event α}

theorem pending_get (h : Coherent S s b) {t : Thread ι L} (hk : s.threads[k]? = some t) :
    b.pending[k]? = some t.op := by
  rw [h.pending, List.getElem?_map, hk]
  rfl

/-- While a reader is inside, the data are those of the serial run. -/
theorem data_eq (h : Coherent S s b) (hk : s.threads[k]? = some (.inside op l)) (hr : S.writes op = false) :
    s.data = b.data := by
  refine h.quiet fun op' l' hm => Bool.eq_false_iff.2 fun hw => ?_
  obtain ⟨k', hk'⟩ := List.mem_iff_getElem?.1 hm
  obtain rfl := h.alone k' k op' l' _ hk' hw hk rfl
  rw [hk] at hk'
  cases hk'
  rw [hr] at hw
  cases hw

/-- Where a writer is inside, the others wait. -/
theorem waits (h : Coherent S s b) (hk : s.threads[k]? = some (.inside op l)) (hw : S.writes op = true)
    {k' : Nat} {op' : ι} {l' : L op'} (hne : k' ≠ k) : s.threads[k']? ≠ some (.inside op' l') :=
  fun hk' => hne (h.alone k k' op l _ hk hw hk' rfl)

theorem arrive (h : Coherent S s b) (op : ι) : Coherent S { s with threads := s.threads ++ [.waiting op] }
    { b with pending := b.pending ++ [op] } := by
  have hmem : ∀ op' l, Thread.inside op' l ∈ s.threads ++ [.waiting op] ↔ Thread.inside op' l ∈ s.threads := by
    simp
  have hget : ∀ {k : Nat} {t : Thread ι L}, t.isInside = true → (s.threads ++ [.waiting op])[k]? = some t →
      s.threads[k]? = some t := by
    intro k t ht hk
    rw [List.getElem?_append] at hk
    split at hk
    · exact hk
    · have := List.mem_of_getElem? hk
      rw [List.mem_singleton] at this
      subst t
      cases ht
  refine ⟨?_, h.log, ?_, ?_, ?_⟩
  · simp [h.pending, Thread.op]
  · intro op' l hm
    exact h.steps op' l ((hmem op' l).1 hm)
  · intro k k' op' l t hk hw hk' ht
    exact h.alone k k' op' l t (hget rfl hk) hw (hget ht hk') ht
  · intro hq
    exact h.quiet fun op' l hm => hq op' l ((hmem op' l).2 hm)

theorem acquire (h : Coherent S s b) (hk : s.threads[k]? = some (.waiting op))
    (ha : admits S s.threads op = true) :
    Coherent S { s with threads := s.threads.set k (.inside op (S.start op)) } b := by
  have ha := admits_iff.1 ha
  have hquiet : s.data = b.data := h.quiet fun op' l hm => (ha op' l hm).2
  refine ⟨?_, h.log, ?_, ?_, fun _ => hquiet⟩
  · rw [map_set_op hk (show Thread.op (.inside op (S.start op)) = op from rfl)]
    exact h.pending
  · intro op' l hm
    obtain ⟨k', hk'⟩ := List.mem_iff_getElem?.1 hm
    rcases getElem?_set_some hk' with ⟨-, he⟩ | ⟨-, hk'⟩
    · cases he
      show Steps S op b.data s.data _
      rw [hquiet]
      exact .start
    · exact h.steps op' l (List.mem_of_getElem? hk')
  · -- a writer comes in only where no one else is inside
    intro k₁ k₂ op' l t hk₁ hw hk₂ ht
    have hold : ∀ {i : Nat} {op' l}, s.threads[i]? = some (.inside op' l) →
        S.writes op = false ∧ S.writes op' = false := fun hi => ha _ _ (List.mem_of_getElem? hi)
    rcases getElem?_set_some hk₁ with ⟨rfl, he⟩ | ⟨-, hk₁⟩
    · cases he
      rcases getElem?_set_some hk₂ with ⟨rfl, -⟩ | ⟨-, hk₂⟩
      · rfl
      · cases t with
        | waiting op' => cases ht
        | inside op' l => rw [(hold hk₂).1] at hw; cases hw
    · rw [(hold hk₁).2] at hw
      cases hw

theorem inner (h : Coherent S s b) (hk : s.threads[k]? = some (.inside op l))
    (hs : S.step op s.data l = .ok (d, .inl l')) :
    Coherent S { s with data := d, threads := s.threads.set k (.inside op l') } b := by
  have hlt : k < s.threads.length := (List.getElem?_eq_some_iff.1 hk).1
  have hself : (s.threads.set k (.inside op l'))[k]? = some (.inside op l') := List.getElem?_set_self hlt
  have hmore : Steps S op b.data d l' := (h.steps op l (List.mem_of_getElem? hk)).more hs
  refine ⟨?_, h.log, ?_, ?_, ?_⟩
  · rw [map_set_op hk (show Thread.op (.inside op l') = op from rfl)]
    exact h.pending
  · intro op' l₁ hm
    obtain ⟨k', hk'⟩ := List.mem_iff_getElem?.1 hm
    rcases getElem?_set_some hk' with ⟨-, he⟩ | ⟨hne, hold⟩
    · cases he
      exact hmore
    · rcases Bool.eq_false_or_eq_true (S.writes op) with hw | hr
      · exact absurd hold (h.waits hk hw hne)
      · obtain rfl := S.reads _ _ _ _ _ hr hs
        exact h.steps op' l₁ (List.mem_of_getElem? hold)
  · have hold : ∀ {i : Nat} {t}, (s.threads.set k (.inside op l'))[i]? = some t →
        ∃ t', s.threads[i]? = some t' ∧ t'.isInside = t.isInside ∧ t'.op = t.op := by
      intro i t hi
      rcases getElem?_set_some hi with ⟨rfl, rfl⟩ | ⟨-, hi⟩
      · exact ⟨_, hk, rfl, rfl⟩
      · exact ⟨t, hi, rfl, rfl⟩
    intro k₁ k₂ op' l₁ t hk₁ hw hk₂ ht
    obtain ⟨t₁, hk₁', hin₁, hop₁⟩ := hold hk₁
    obtain ⟨t₂, hk₂', hin₂, -⟩ := hold hk₂
    cases t₁ with
    | waiting op₁ => cases hin₁
    | inside op₁ l₂ =>
      have hop₁ : op₁ = op' := hop₁
      exact h.alone k₁ k₂ op₁ l₂ t₂ hk₁' (hop₁ ▸ hw) hk₂' (hin₂.trans ht)
  · intro hq
    have hr := hq op l' (List.mem_of_getElem? hself)
    obtain rfl := S.reads _ _ _ _ _ hr hs
    exact h.data_eq hk hr

theorem finish (h : Coherent S s b) (hk : s.threads[k]? = some (.inside op l))
    (hs : S.step op s.data l = .ok (d, .inr r)) :
    Coherent S
      { data := d, threads := s.threads.eraseIdx k ++ (S.spawn op r).map .waiting, log := s.log ++ [(op, r)] }
      ⟨d, b.pending.eraseIdx k ++ S.spawn op r, b.log ++ [(op, r)]⟩ := by
  have hmem : ∀ {op' l₁}, Thread.inside op' l₁ ∈ s.threads.eraseIdx k ++ (S.spawn op r).map .waiting →
      ∃ k', k' ≠ k ∧ s.threads[k']? = some (.inside op' l₁) := by
    intro op' l₁ hm
    rcases List.mem_append.1 hm with hm | hm
    · exact mem_eraseIdx hm
    · exact absurd hm inside_spawned
  have hstay : ∀ {op' l₁}, Thread.inside op' l₁ ∈ s.threads.eraseIdx k ++ (S.spawn op r).map .waiting →
      S.writes op = false ∧ d = b.data := by
    intro op' l₁ hm
    obtain ⟨k', hne, hk'⟩ := hmem hm
    have hr : S.writes op = false := Bool.eq_false_iff.2 fun hw => h.waits hk hw hne hk'
    refine ⟨hr, ?_⟩
    rw [S.reads _ _ _ _ _ hr hs]
    exact h.data_eq hk hr
  have hget : ∀ {i : Nat} {t}, t.isInside = true →
      (s.threads.eraseIdx k ++ (S.spawn op r).map Thread.waiting)[i]? = some t →
      i < (s.threads.eraseIdx k).length ∧ s.threads[if i < k then i else i + 1]? = some t := by
    intro i t ht hi
    rw [List.getElem?_append] at hi
    split at hi
    · refine ⟨‹_›, ?_⟩
      rw [List.getElem?_eraseIdx] at hi
      split at hi <;> simp [*]
    · obtain ⟨op', -, rfl⟩ := List.mem_map.1 (List.mem_of_getElem? hi)
      cases ht
  refine ⟨?_, ?_, ?_, ?_, fun _ => rfl⟩
  · show b.pending.eraseIdx k ++ S.spawn op r = _
    rw [List.map_append, ← List.eraseIdx_map, h.pending]
    simp [Function.comp_def, Thread.op]
  · show b.log ++ _ = _
    rw [h.log]
  · intro op' l₁ hm
    obtain ⟨k', -, hk'⟩ := hmem hm
    have hsteps := h.steps op' l₁ (List.mem_of_getElem? hk')
    obtain ⟨hr, hd⟩ := hstay hm
    obtain rfl := S.reads _ _ _ _ _ hr hs
    rw [← hd] at hsteps
    exact hsteps
  · intro k₁ k₂ op' l₁ t hk₁ hw hk₂ ht
    have h₁ := (hget rfl hk₁).2
    have h₂ := (hget ht hk₂).2
    have := h.alone _ _ op' l₁ t h₁ hw h₂ ht
    split at this <;> split at this <;> omega

/-- What the operation of a thread inside comes to. -/
theorem ends (hA : Agrees S whole I) (h : Coherent S s b) (hI : I b.data b.pending)
    (hk : s.threads[k]? = some (.inside op l)) : Ends S op s.data l (whole op b.data) :=
  (hA.ends hI (List.mem_of_getElem? (h.pending_get hk))).of_steps (h.steps op l (List.mem_of_getElem? hk))

/-- A step of a thread is none of the serial run, or a whole operation of it. -/
theorem step (hA : Agrees S whole I) (h : Coherent S s b) (hI : I b.data b.pending) (e : Event α)
    (hs : RwLock.step S s e = .ok s') :
    ∃ es' b', es'.Sublist [e] ∧ Serial.run S whole b es' = .ok b' ∧ I b'.data b'.pending ∧ Coherent S s' b' := by
  have hmoves := moves S s e
  rw [hs] at hmoves
  cases hmoves with
  | arrive a => exact ⟨[.arrive a], _, .refl _, rfl, hA.arrive a hI, h.arrive _⟩
  | idle k => exact ⟨[], b, List.nil_sublist _, rfl, hI, h⟩
  | acquire hk ha => exact ⟨[], b, List.nil_sublist _, rfl, hI, h.acquire hk ha⟩
  | inner hk hstep => exact ⟨[], b, List.nil_sublist _, rfl, hI, h.inner hk hstep⟩
  | @finish k op l d r hk hstep =>
    have hp := h.pending_get hk
    have hw : whole op b.data = .ok (d, r) := (h.ends hA hI hk).eq_done hstep
    exact ⟨[.run k], _, .refl _, Serial.run_one (Serial.step_section hp hw), hA.section_ hI hp hw, h.finish hk hstep⟩

/-- What a schedule comes to, from a coherent state. -/
theorem run (hA : Agrees S whole I) (h : Coherent S s b) (hI : I b.data b.pending) {es : List (Event α)}
    (hs : RwLock.run S s es = .ok s') :
    ∃ es' b', es'.Sublist es ∧ Serial.run S whole b es' = .ok b' ∧ I b'.data b'.pending ∧ Coherent S s' b' := by
  induction es generalizing s b with
  | nil =>
    cases hs
    exact ⟨[], b, .refl _, rfl, hI, h⟩
  | cons e es ih =>
    unfold RwLock.run at hs
    rw [List.foldlM_cons] at hs
    cases he : RwLock.step S s e with
    | error f =>
      rw [he] at hs
      cases hs
    | ok s₁ =>
      rw [he] at hs
      obtain ⟨es₁, b₁, hsub₁, hb₁, hI₁, h₁⟩ := h.step hA hI e he
      obtain ⟨es₂, b₂, hsub₂, hb₂, h₂⟩ := ih h₁ hI₁ hs
      exact ⟨es₁ ++ es₂, b₂, hsub₁.append hsub₂, (Serial.run_append es₁ es₂ hb₁).trans hb₂, h₂⟩

end Coherent

/-- The part `pre` of the schedule `es` comes to `s`, as the serial run of `es'` comes to `b`, and the next event
lets thread `k` go on, which is inside `op`. -/
structure Reaches (S : Sections σ α ι L ρ φ) (whole : ι → σ → Except φ (σ × ρ)) (s₀ : State σ ι L ρ)
    (b₀ : Serial.State σ ι ρ) (es pre es' : List (Event α)) (s : State σ ι L ρ) (b : Serial.State σ ι ρ) (k : Nat)
    (op : ι) : Prop where
  split : ∃ post, es = pre ++ .run k :: post
  run : RwLock.run S s₀ pre = .ok s
  part : es'.Sublist pre
  serial : Serial.run S whole b₀ es' = .ok b
  coherent : Coherent S s b
  inside : ∃ l, s.threads[k]? = some (.inside op l)

namespace Reaches
variable {whole : ι → σ → Except φ (σ × ρ)} {s₀ s : State σ ι L ρ} {b₀ b : Serial.State σ ι ρ}
  {es pre es' : List (Event α)} {k : Nat} {op : ι} {f : φ}

theorem append (h : Reaches S whole s₀ b₀ es pre es' s b k op) (es₂ : List (Event α)) :
    Reaches S whole s₀ b₀ (es ++ es₂) pre es' s b k op := by
  obtain ⟨post, rfl⟩ := h.split
  exact ⟨⟨post ++ es₂, by simp⟩, h.run, h.part, h.serial, h.coherent, h.inside⟩

theorem pending (h : Reaches S whole s₀ b₀ es pre es' s b k op) : b.pending[k]? = some op := by
  obtain ⟨l, hl⟩ := h.inside
  exact h.coherent.pending_get hl

/-- If the operation faults in one piece, then so does the serial run. -/
theorem serial_fault (h : Reaches S whole s₀ b₀ es pre es' s b k op) (hw : whole op b.data = .error f) :
    Serial.run S whole b₀ (es' ++ [Event.run k]) = .error f ∧ (es' ++ [Event.run k]).Sublist es := by
  obtain ⟨post, rfl⟩ := h.split
  refine ⟨?_, h.part.append (List.singleton_sublist.2 List.mem_cons_self)⟩
  rw [Serial.run_append es' _ h.serial]
  exact Serial.run_one (Serial.step_fault h.pending hw)

end Reaches

theorem run_snoc {s s' : State σ ι L ρ} {es : List (Event α)} (h : run S s es = .ok s') (e : Event α) :
    run S s (es ++ [e]) = step S s' e := by
  unfold run at h ⊢
  rw [List.foldlM_append, h]
  show List.foldlM (step S) s' [e] = _
  rw [List.foldlM_cons]
  cases step S s' e <;> rfl

theorem run_snoc_error {s : State σ ι L ρ} {es : List (Event α)} {f : φ} (h : run S s es = .error f) (e : Event α) :
    run S s (es ++ [e]) = .error f := by
  unfold run at h ⊢
  rw [List.foldlM_append, h]
  rfl

namespace Coherent
variable {whole : ι → σ → Except φ (σ × ρ)} {I : σ → List ι → Prop} {s s' : State σ ι L ρ}
  {b : Serial.State σ ι ρ} {op : ι} {r : ρ} {f : φ} {es : List (Event α)}

/-- A schedule faults in an operation that faults in one piece. -/
theorem run_fault (hA : Agrees S whole I) (h : Coherent S s b) (hI : I b.data b.pending)
    (hf : RwLock.run S s es = .error f) :
    ∃ pre es' s₁ b₁ k op, Reaches S whole s b es pre es' s₁ b₁ k op ∧ I b₁.data b₁.pending ∧
      whole op b₁.data = .error f := by
  induction es using List.reverseRecOn with
  | nil => cases hf
  | append_singleton es e ih =>
    cases hs : RwLock.run S s es with
    | error f' =>
      rw [run_snoc_error hs] at hf
      cases hf
      obtain ⟨pre, es', s₁, b₁, k, op, hr, hI₁, hw⟩ := ih hs
      exact ⟨pre, es', s₁, b₁, k, op, hr.append [e], hI₁, hw⟩
    | ok s₁ =>
      rw [run_snoc hs] at hf
      obtain ⟨es', b₁, hsub, hb₁, hI₁, h₁⟩ := h.run hA hI hs
      have hmoves := moves S s₁ e
      rw [hf] at hmoves
      cases hmoves with
      | @fault k op l _ hk hstep =>
        exact ⟨es, es', s₁, b₁, k, op, ⟨⟨[], rfl⟩, hs, hsub, hb₁, h₁, l, hk⟩, hI₁, (h₁.ends hA hI₁ hk).eq_fault hstep⟩

/-- A result in the log is that of the operation in one piece, on the data of a serial run that has finished the
operations logged before it. -/
theorem run_log (hA : Agrees S whole I) (h : Coherent S s b) (hI : I b.data b.pending)
    (hs : RwLock.run S s es = .ok s') {i : Nat} (hi : s.log.length ≤ i) (hx : s'.log[i]? = some (op, r)) :
    ∃ pre es' s₁ b₁ k d, Reaches S whole s b es pre es' s₁ b₁ k op ∧ I b₁.data b₁.pending ∧
      s₁.log = s'.log.take i ∧ whole op b₁.data = .ok (d, r) := by
  induction es using List.reverseRecOn generalizing s' with
  | nil =>
    cases hs
    have := (List.getElem?_eq_some_iff.1 hx).1
    omega
  | append_singleton es e ih =>
    cases hs₁ : RwLock.run S s es with
    | error f =>
      rw [run_snoc_error hs₁] at hs
      cases hs
    | ok s₁ =>
      rw [run_snoc hs₁] at hs
      have hold (hget : s₁.log[i]? = some (op, r)) (htake : s'.log.take i = s₁.log.take i) :
          ∃ pre es' s₁ b₁ k d, Reaches S whole s b (es ++ [e]) pre es' s₁ b₁ k op ∧ I b₁.data b₁.pending ∧
            s₁.log = s'.log.take i ∧ whole op b₁.data = .ok (d, r) := by
        obtain ⟨pre, es', s₂, b₂, k, d, hr, hI₂, hlog, hw⟩ := ih hs₁ hget
        exact ⟨pre, es', s₂, b₂, k, d, hr.append [e], hI₂, hlog.trans htake.symm, hw⟩
      have hmoves := moves S s₁ e
      rw [hs] at hmoves
      cases hmoves with
      | arrive a => exact hold hx rfl
      | idle k => exact hold hx rfl
      | acquire hk ha => exact hold hx rfl
      | inner hk hstep => exact hold hx rfl
      | @finish k op' l d r' hk hstep =>
        rcases Nat.lt_or_ge i s₁.log.length with hlt | hge
        · rw [List.getElem?_append_left hlt] at hx
          exact hold hx (List.take_append_of_le_length hlt.le)
        · have hlen := (List.getElem?_eq_some_iff.1 hx).1
          rw [List.length_append, List.length_singleton] at hlen
          obtain rfl : i = s₁.log.length := by omega
          rw [List.getElem?_append_right le_rfl, Nat.sub_self] at hx
          cases hx
          obtain ⟨es', b₁, hsub, hb₁, hI₁, h₁⟩ := h.run hA hI hs₁
          exact ⟨es, es', s₁, b₁, k, d, ⟨⟨[], rfl⟩, hs₁, hsub, hb₁, h₁, l, hk⟩, hI₁, List.take_left.symm,
            (h₁.ends hA hI₁ hk).eq_done hstep⟩

end Coherent

/-! ### Progress -/

section
variable {whole : ι → σ → Except φ (σ × ρ)} {I : σ → List ι → Prop} {s s' : State σ ι L ρ}
  {b : Serial.State σ ι ρ} {op : ι} {l : L op} {k : Nat} {d : σ} {x : Except φ (σ × ρ)}

/-- If the threads `ks` are scheduled, one after the other, this ends in a fault, or in a state in which `P`. -/
def Leads (S : Sections σ α ι L ρ φ) (s : State σ ι L ρ) (ks : List Nat) (P : State σ ι L ρ → Prop) : Prop :=
  (∃ f, run S s (ks.map .run) = .error f) ∨ ∃ s', run S s (ks.map .run) = .ok s' ∧ P s'

theorem run_append (es es' : List (Event α)) (h : run S s es = .ok s') : run S s (es ++ es') = run S s' es' := by
  unfold run at h ⊢
  rw [List.foldlM_append, h]
  rfl

theorem run_one {e : Event α} {y : Except φ (State σ ι L ρ)} (h : step S s e = y) : run S s [e] = y :=
  (run_snoc (show run S s [] = .ok s from rfl) e).trans h

theorem Leads.trans {P Q : State σ ι L ρ → Prop} {ks : List Nat} (h : Leads S s ks P)
    (hPQ : ∀ s', run S s (ks.map .run) = .ok s' → P s' → ∃ ks', Leads S s' ks' Q) : ∃ ks, Leads S s ks Q := by
  rcases h with ⟨f, hf⟩ | ⟨s', hs', hP⟩
  · exact ⟨ks, .inl ⟨f, hf⟩⟩
  · obtain ⟨ks', h'⟩ := hPQ s' hs' hP
    refine ⟨ks ++ ks', ?_⟩
    unfold Leads
    rw [List.map_append, run_append _ _ hs']
    exact h'

/-- Scheduled on its own, a thread inside comes to its end. -/
theorem leads_finish (h : Ends S op d l x) (hd : s.data = d) (hk : s.threads[k]? = some (.inside op l)) :
    ∃ ks, Leads S s ks fun s' => ∃ r, s'.threads = s.threads.eraseIdx k ++ (S.spawn op r).map .waiting := by
  induction h generalizing s with
  | fault hs =>
    subst hd
    have hone := step_inside (S := S) hk
    rw [hs] at hone
    exact ⟨[k], .inl ⟨_, run_one hone⟩⟩
  | @done d l d' r hs =>
    subst hd
    have hone := step_inside (S := S) hk
    rw [hs] at hone
    exact ⟨[k], .inr ⟨_, run_one hone, r, rfl⟩⟩
  | @more d l d' l' x hs _ ih =>
    subst hd
    have hlt : k < s.threads.length := (List.getElem?_eq_some_iff.1 hk).1
    have hone := step_inside (S := S) hk
    rw [hs] at hone
    have hlead : Leads S s [k] fun s' => s' = { s with data := d', threads := s.threads.set k (.inside op l') } :=
      .inr ⟨_, run_one hone, rfl⟩
    refine hlead.trans fun s₁ _ hs₁ => ?_
    obtain ⟨ks, hks⟩ := ih (s := s₁) (by rw [hs₁]) (by rw [hs₁]; exact List.getElem?_set_self hlt)
    refine ⟨ks, hks.imp_right fun ⟨s', hrun, r, hr⟩ => ⟨s', hrun, r, ?_⟩⟩
    rw [hr, hs₁, List.eraseIdx_set_eq]

/-- What is left to do. -/
def load (weight : ι → Nat) (s : State σ ι L ρ) : Nat := (s.threads.map fun t => weight t.op).sum

theorem load_finish {weight : ι → Nat} (hweight : ∀ op r, ((S.spawn op r).map weight).sum < weight op)
    {t : Thread ι L} (hk : s.threads[k]? = some t) {r : ρ}
    (hs : s'.threads = s.threads.eraseIdx k ++ (S.spawn t.op r).map .waiting) : load weight s' < load weight s := by
  obtain ⟨hlt, rfl⟩ := List.getElem?_eq_some_iff.1 hk
  have hperm := (List.getElem_cons_eraseIdx_perm hlt).map fun t => weight t.op
  have hsum := hperm.sum_eq
  have := hweight s.threads[k].op r
  rw [List.map_cons, List.sum_cons] at hsum
  unfold load
  rw [hs, List.map_append, List.sum_append, ← hsum, List.map_map]
  show _ + ((S.spawn _ r).map weight).sum < _
  omega

/-- If nobody is inside, the lock is granted to the first thread that waits. -/
theorem exists_inside (hne : s.threads ≠ []) : ∃ (ks : List Nat) (s' : State σ ι L ρ) (k : Nat)
    (op : ι) (l : L op), run S s (ks.map .run) = .ok s' ∧ s'.threads[k]? = some (.inside op l) ∧
      s'.threads.map Thread.op = s.threads.map Thread.op := by
  by_cases hin : ∃ op l, Thread.inside op l ∈ s.threads
  · obtain ⟨op, l, hm⟩ := hin
    obtain ⟨k, hk⟩ := List.mem_iff_getElem?.1 hm
    exact ⟨[], s, k, op, l, rfl, hk, rfl⟩
  · obtain ⟨t, threads, hs⟩ := List.exists_cons_of_ne_nil hne
    cases t with
    | inside op l => exact absurd ⟨op, l, by rw [hs]; exact List.mem_cons_self⟩ hin
    | waiting op =>
      have h0 : s.threads[0]? = some (.waiting op) := by rw [hs]; rfl
      have ha : admits S s.threads op = true := admits_iff.2 fun op' l hm => absurd ⟨op', l, hm⟩ hin
      refine ⟨[0], { s with threads := s.threads.set 0 (.inside op (S.start op)) }, 0, op, S.start op,
        run_one (by simp only [step, h0, ha]; rfl), ?_, map_set_op h0 rfl⟩
      rw [hs]
      rfl

/-- From each coherent state the threads there are can be scheduled so that all come to their end, unless one meets
a fault. -/
theorem Coherent.exists_drain (hA : Agrees S whole I) {weight : ι → Nat}
    (hweight : ∀ op r, ((S.spawn op r).map weight).sum < weight op) (h : Coherent S s b)
    (hI : I b.data b.pending) : ∃ ks, Leads S s ks fun s' => s'.threads = [] := by
  induction hn : load weight s using Nat.strongRecOn generalizing s b with
  | _ n ih =>
  subst hn
  by_cases hne : s.threads = []
  · exact ⟨[], .inr ⟨s, rfl, hne⟩⟩
  · obtain ⟨ks, s₁, k, op, l, hs₁, hk, hmap⟩ := exists_inside (S := S) hne
    have hlead : Leads S s ks fun s' => s' = s₁ := .inr ⟨s₁, hs₁, rfl⟩
    refine hlead.trans fun s' _ hs' => ?_
    subst hs'
    obtain ⟨-, b₁, -, -, hI₁, h₁⟩ := h.run hA hI hs₁
    obtain ⟨ks₂, hlead₂⟩ := leads_finish (h₁.ends hA hI₁ hk) rfl hk
    refine hlead₂.trans fun s₂ hs₂ ⟨r, hr⟩ => ?_
    obtain ⟨-, b₂, -, -, hI₂, h₂⟩ := h₁.run hA hI₁ hs₂
    have hload : load weight s' = load weight s := by
      have := congrArg (List.map weight) hmap
      rw [List.map_map, List.map_map] at this
      exact congrArg List.sum this
    exact ih _ (hload ▸ load_finish hweight hk hr) h₂ hI₂ rfl

end

end RwLock
