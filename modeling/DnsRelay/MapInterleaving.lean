import DnsRelay.MapThreads
import DnsRelay.Lib.Keyed
import DnsRelay.Lib.Transducer

/-!
# Threads on the ID table

As long as no two calls are at work on one slot, every interleaving of the accesses comes to what the calls come to
that take effect at once, in the order in which they are complete: the counter at its increment, the rest of
`addToMap` and `queryMap` at their last access. No pointer that is followed is null or released, no node is released
twice and no field is read before it is written. Two calls on one slot may release its node twice.
-/

namespace DnsRelay
open Alloc

variable {σ : Type}

/-! ### What the memory of a slot says -/

def MapNode.cell (n : MapNode σ) : NodeCell σ := ⟨some n.timeOut, some n.origin, some n.last, some n.fromAddr⟩

/-- The node that a call fills in. -/
def AddCall.node (c : AddCall σ) : MapNode σ := ⟨c.serial / maxMapSize, c.origin, c.addr, c.t₂ + convertTtl⟩

/-- The pointer of a slot and the node behind it. -/
def SharedMap.view (m : SharedMap σ) (c : Nat) : Option (Nat × NodeCell σ) :=
  (m.nodes c).map fun p => (p, m.heap.val p)

/-- The node does not let the slot be taken at time `t`. -/
def Blocks (o : Option (MapNode σ)) (t : Nat) : Prop := ∃ n, o = some n ∧ t < n.timeOut

theorem IdMap.busy_iff (m : IdMap σ) (c t : Nat) : m.busy c t = true ↔ Blocks (m.nodes c) t := by
  unfold IdMap.busy Blocks
  cases m.nodes c <;> simp

/-- Nobody works on the slot. -/
def Settled (v : Option (Nat × NodeCell σ)) (o : Option (MapNode σ)) : Prop := v.map Prod.snd = o.map MapNode.cell

/-- The slot holds the node that a query of `serial` looks for. -/
def Sought (v : Option (Nat × NodeCell σ)) (o : Option (MapNode σ)) (serial : Nat) (n : MapNode σ) : Prop :=
  Settled v o ∧ o = some n ∧ n.last = serial / maxMapSize

/-- A new node of the slot, of which some fields are written. -/
def Filling (v : Option (Nat × NodeCell σ)) (o : Option (MapNode σ)) (c : AddCall σ) (cell : NodeCell σ) : Prop :=
  v.map Prod.snd = some cell ∧ ¬ Blocks o c.t₁

def Access.At (v : Option (Nat × NodeCell σ)) (o : Option (MapNode σ)) : Access σ → Prop
  | checkTimeOut _ => Settled v o ∧ o ≠ none
  | setTimeOut c _ => Filling v o c ⟨none, none, none, none⟩
  | setOrigin c _ => Filling v o c ⟨some (c.t₂ + convertTtl), none, none, none⟩
  | setLast c _ => Filling v o c ⟨some (c.t₂ + convertTtl), some c.origin, none, none⟩
  | setFrom c _ => Filling v o c ⟨some (c.t₂ + convertTtl), some c.origin, some (c.serial / maxMapSize), none⟩
  | checkLast _ => Settled v o ∧ o ≠ none
  | getOrigin serial => ∃ n, Sought v o serial n
  | getFrom serial origin => ∃ n, Sought v o serial n ∧ n.origin = origin

/-- What a thread in the middle of its work relies on. -/
def Point.At (v : Option (Nat × NodeCell σ)) (o : Option (MapNode σ)) : Point σ → Prop
  | draw .. | taken _ | found _ => True
  | save c => Settled v o ∧ ¬ Blocks o c.t₁
  | new c temp => Settled v o ∧ ¬ Blocks o c.t₁ ∧ temp = v.map Prod.fst
  | release c _ => Filling v o c c.node.cell
  | saveOld serial origin addr => ∃ n, Sought v o serial n ∧ n.origin = origin ∧ n.fromAddr = addr
  | clear serial origin addr temp =>
    (∃ n, Sought v o serial n ∧ n.origin = origin ∧ n.fromAddr = addr) ∧ temp = v.map Prod.fst
  | releaseOld serial origin addr _ =>
    v = none ∧ ∃ n, o = some n ∧ n.last = serial / maxMapSize ∧ n.origin = origin ∧ n.fromAddr = addr
  | load a => a.At v o
  | follow a p => a.At v o ∧ v.map Prod.fst = some p

/-- The block that only the thread knows of. -/
def Access.held : Access σ → List Nat
  | setTimeOut _ temp | setOrigin _ temp | setLast _ temp | setFrom _ temp => temp.toList
  | _ => []

def Point.held : Point σ → List Nat
  | release _ temp | releaseOld _ _ _ temp => temp.toList
  | load a | follow a _ => a.held
  | _ => []

/-! ### One step -/

/-- What a step of a thread at slot `c` comes to, the rest of the blocks being `l`. -/
def Next.Sound (m : SharedMap σ) (c : Nat) (o : Option (MapNode σ)) (l : List Nat) : Next σ → Prop
  | goOn pt => pt.inside = some c ∧ pt.At (m.view c) o ∧ Owns m.heap ((m.nodes c).toList ++ (pt.held ++ l))
  | effect op out pt => pt = none ∧ Owns m.heap ((m.nodes c).toList ++ l) ∧
    ∀ d : IdMap σ, d.nodes c = o → (d.apply op).2 = out ∧ Settled (m.view c) ((d.apply op).1.nodes c) ∧
      (d.apply op).1.alloc = d.alloc ∧ ∀ c' ≠ c, (d.apply op).1.nodes c' = d.nodes c'

/-- A step goes through, and changes nothing but the slot and the blocks of the thread. -/
def Sound (m : SharedMap σ) (c : Nat) (o : Option (MapNode σ)) (l : List Nat)
    (x : MapExec (SharedMap σ × Next σ)) : Prop :=
  ∃ m' next, x = .ok (m', next) ∧ m'.alloc = m.alloc ∧ (∀ c' ≠ c, m'.nodes c' = m.nodes c') ∧
    (∀ a ∈ l, m'.heap.val a = m.heap.val a) ∧ next.Sound m' c o l

section
variable {A : Allocator} {m : SharedMap σ} {o : Option (MapNode σ)} {l : List Nat} {p now c serial : Nat}
  {cell : NodeCell σ} {n : MapNode σ}

theorem mapHeap_ok {α : Type} {x : Except Misuse α} {a : α} (h : x = .ok a) : SharedMap.onHeap x = .ok a := by
  rw [h]
  rfl

/-- A step that only looks. -/
theorem sound_look {pt : Point σ} (hin : pt.inside = some c) (hat : pt.At (m.view c) o)
    (ho : Owns m.heap ((m.nodes c).toList ++ (pt.held ++ l))) : Sound m c o l (.ok (m, .goOn pt)) :=
  ⟨m, _, rfl, rfl, fun _ _ => rfl, fun _ _ => rfl, hin, hat, ho⟩

/-- The pointer that was loaded is that of the slot. -/
theorem nodes_of_view (h : (m.view c).map Prod.fst = some p) : m.nodes c = some p := by
  unfold SharedMap.view at h
  rw [Option.map_map] at h
  simpa [Function.comp_def] using h

theorem view_snd : (m.view c).map Prod.snd = (m.nodes c).map m.heap.val := by
  rw [SharedMap.view, Option.map_map]
  rfl

theorem view_fst : (m.view c).map Prod.fst = m.nodes c := by
  rw [SharedMap.view, Option.map_map]
  simp [Function.comp_def]

/-- A node that is settled is read. -/
theorem read_settled (hp : m.nodes c = some p) (hs : Settled (m.view c) (some n))
    (ho : Owns m.heap ((m.nodes c).toList ++ l)) : SharedMap.onHeap (m.heap.read p) = .ok n.cell := by
  unfold Settled at hs
  rw [view_snd, hp, Option.map_some, Option.map_some, Option.some_inj] at hs
  rw [mapHeap_ok (ho.read (show p ∈ _ by simp [hp])), hs]

/-- A field of the new node is written. -/
theorem sound_set {c : AddCall σ} {temp : Option Nat} (f : NodeCell σ → NodeCell σ) {a : Access σ} {pt : Point σ}
    (hp : m.nodes c.slot = some p) (hat : (m.view c.slot).map Prod.snd = some cell)
    (ho : Owns m.heap ((m.nodes c.slot).toList ++ (temp.toList ++ l)))
    (hstep : m.follow now p a = (do
      let m ← m.put p f
      return (m, .goOn pt)))
    (hin : pt.inside = some c.slot) (hheld : pt.held = temp.toList)
    (hnext : ∀ v : Option (Nat × NodeCell σ), v.map Prod.snd = some (f cell) → pt.At v o) :
    Sound m c.slot o l (m.follow now p a) := by
  rw [view_snd, hp, Option.map_some, Option.some_inj] at hat
  have hmem : p ∈ (m.nodes c.slot).toList ++ (temp.toList ++ l) := by simp [hp]
  have hne : ∀ a ∈ l, a ≠ p := by
    intro a ha he
    have hn := ho.nodup
    rw [hp, Option.toList_some, List.singleton_append, List.nodup_cons] at hn
    exact hn.1 (List.mem_append_right _ (he ▸ ha))
  set m' : SharedMap σ := { m with heap := { m.heap with val := Function.update m.heap.val p (f cell) } } with hm'
  have hput : m.put p f = .ok m' := by
    unfold SharedMap.put
    simp only [mapHeap_ok (ho.read hmem), mapHeap_ok (ho.write hmem _), bind, Except.bind, hat]
    rfl
  have hview : (m'.view c.slot).map Prod.snd = some (f cell) := by
    rw [view_snd, show m'.nodes c.slot = some p from hp, Option.map_some]
    exact congrArg some (Function.update_self p (f cell) m.heap.val)
  refine ⟨m', .goOn pt, ?_, rfl, fun _ _ => rfl, fun a ha => Function.update_of_ne (hne a ha) _ _, hin,
    hnext _ hview, ?_⟩
  · rw [hstep, hput]
    rfl
  · rw [hheld]
    exact ho.update _

theorem apply_fill_busy {d : IdMap σ} {c : AddCall σ} (h : Blocks (d.nodes c.slot) c.t₁) :
    d.apply (.fill c) = (d, .serial uint16Max) := by
  simp only [IdMap.apply, IdMap.fill, if_pos ((d.busy_iff _ _).2 h)]

theorem apply_fill_free {d : IdMap σ} {c : AddCall σ} (h : ¬ Blocks (d.nodes c.slot) c.t₁) :
    d.apply (.fill c) = ({ d with nodes := Function.update d.nodes c.slot (some c.node) }, .serial c.serial) := by
  simp only [IdMap.apply, IdMap.fill, if_neg (mt (d.busy_iff _ _).1 h)]
  rfl

theorem apply_query_hit {d : IdMap σ} (hn : d.nodes (serial % maxMapSize) = some n)
    (hl : n.last = serial / maxMapSize) : d.apply (.query serial) =
      ({ d with nodes := Function.update d.nodes (serial % maxMapSize) none },
        .node (some (n.origin, n.fromAddr))) := by
  simp only [IdMap.apply, IdMap.queryMap_hit hn hl]

theorem apply_query_miss {d : IdMap σ}
    (h : ∀ n, d.nodes (serial % maxMapSize) = some n → n.last ≠ serial / maxMapSize) :
    d.apply (.query serial) = (d, .node none) := by
  simp only [IdMap.apply, IdMap.queryMap_miss h]

/-- An access that follows the pointer of its slot. -/
theorem follow_sound (now : Nat) (a : Access σ) (hp : m.nodes a.slot = some p) (hat : a.At (m.view a.slot) o)
    (ho : Owns m.heap ((m.nodes a.slot).toList ++ (a.held ++ l))) : Sound m a.slot o l (m.follow now p a) := by
  cases a with
  | checkTimeOut c =>
    obtain ⟨hs, hne⟩ := hat
    obtain ⟨n, rfl⟩ := Option.ne_none_iff_exists'.1 hne
    have hread := read_settled hp hs ho
    by_cases hlt : now < n.timeOut
    · refine ⟨m, .effect (.fill { c with t₁ := now }) (.serial uint16Max) none, ?_, rfl, fun _ _ => rfl,
        fun _ _ => rfl, rfl, ho, fun d hd => ?_⟩
      · simp [SharedMap.follow, hread, MapNode.cell, field, hlt, bind, Except.bind, pure, Except.pure]
      · rw [apply_fill_busy (c := { c with t₁ := now }) ⟨n, hd, hlt⟩]
        exact ⟨rfl, hd ▸ hs, rfl, fun _ _ => rfl⟩
    · have hfree : ¬ Blocks (some n) now := by
        rintro ⟨n', he, hlt'⟩
        cases he
        exact hlt hlt'
      refine ⟨m, .goOn (.save { c with t₁ := now }), ?_, rfl, fun _ _ => rfl, fun _ _ => rfl, rfl, ⟨hs, hfree⟩, ho⟩
      simp [SharedMap.follow, hread, MapNode.cell, field, hlt, bind, Except.bind, pure, Except.pure]
  | setTimeOut c temp =>
    exact sound_set (fun node => { node with timeOut := some (now + convertTtl) }) hp hat.1 ho rfl rfl rfl
      fun v hv => ⟨hv, hat.2⟩
  | setOrigin c temp =>
    exact sound_set (fun node => { node with origin := some c.origin }) hp hat.1 ho rfl rfl rfl
      fun v hv => ⟨hv, hat.2⟩
  | setLast c temp =>
    exact sound_set (fun node => { node with last := some (c.serial / maxMapSize) }) hp hat.1 ho rfl rfl rfl
      fun v hv => ⟨hv, hat.2⟩
  | setFrom c temp =>
    exact sound_set (fun node => { node with fromAddr := some c.addr }) hp hat.1 ho rfl rfl rfl
      fun v hv => ⟨hv, hat.2⟩
  | checkLast serial =>
    obtain ⟨hs, hne⟩ := hat
    obtain ⟨n, rfl⟩ := Option.ne_none_iff_exists'.1 hne
    have hread := read_settled hp hs ho
    by_cases hl : n.last = serial / maxMapSize
    · refine ⟨m, .goOn (.load (.getOrigin serial)), ?_, rfl, fun _ _ => rfl, fun _ _ => rfl, rfl, ⟨n, hs, rfl, hl⟩, ho⟩
      simp [SharedMap.follow, hread, MapNode.cell, field, hl, bind, Except.bind, pure, Except.pure]
    · refine ⟨m, .effect (.query serial) (.node none) none, ?_, rfl, fun _ _ => rfl, fun _ _ => rfl, rfl, ho,
        fun d hd => ?_⟩
      · simp [SharedMap.follow, hread, MapNode.cell, field, hl, bind, Except.bind, pure, Except.pure]
      · rw [apply_query_miss fun n' hn' => by
          cases hd.symm.trans hn'
          exact hl]
        exact ⟨rfl, hd ▸ hs, rfl, fun _ _ => rfl⟩
  | getOrigin serial =>
    obtain ⟨n, ⟨hs, rfl, hl⟩⟩ := hat
    have hread := read_settled hp hs ho
    refine ⟨m, .goOn (.load (.getFrom serial n.origin)), ?_, rfl, fun _ _ => rfl, fun _ _ => rfl, rfl,
      ⟨n, ⟨hs, rfl, hl⟩, rfl⟩, ho⟩
    simp [SharedMap.follow, hread, MapNode.cell, field, bind, Except.bind, pure, Except.pure]
  | getFrom serial origin =>
    obtain ⟨n, ⟨hs, rfl, hl⟩, rfl⟩ := hat
    have hread := read_settled hp hs ho
    refine ⟨m, .goOn (.saveOld serial n.origin n.fromAddr), ?_, rfl, fun _ _ => rfl, fun _ _ => rfl, rfl,
      ⟨n, ⟨hs, rfl, hl⟩, rfl, rfl⟩, ho⟩
    simp [SharedMap.follow, hread, MapNode.cell, field, bind, Except.bind, pure, Except.pure]

/-- The release of a block that only the thread knows of. -/
theorem free_temp {temp : Option Nat} {l₁ : List Nat} (ho : Owns m.heap (l₁ ++ (temp.toList ++ l))) :
    ∃ heap, SharedMap.onHeap (m.heap.free temp) = .ok heap ∧ Owns heap (l₁ ++ l) ∧ heap.val = m.heap.val := by
  cases temp with
  | none => exact ⟨m.heap, rfl, ho, rfl⟩
  | some a =>
    obtain ⟨hf, ho'⟩ := (ho.perm (List.perm_append_comm_assoc _ _ _)).free
    exact ⟨_, mapHeap_ok hf, ho', rfl⟩

theorem settled_none : Settled (m.view c) none ↔ m.nodes c = none := by
  rw [Settled, view_snd]
  simp

theorem nodes_of_settled (hs : Settled (m.view c) (some n)) : ∃ p, m.nodes c = some p := by
  rw [Settled, view_snd] at hs
  cases hp : m.nodes c with
  | none =>
    rw [hp] at hs
    cases hs
  | some p => exact ⟨p, rfl⟩

/-- The pointer that is followed next is not null. -/
theorem exists_pointer {a : Access σ} (hat : a.At (m.view c) o) : ∃ p, m.nodes c = some p := by
  have hfill : ∀ {b : AddCall σ} {cell}, Filling (m.view c) o b cell → ∃ p, m.nodes c = some p := by
    intro b cell h
    have hs := h.1
    rw [view_snd, Option.map_eq_some_iff] at hs
    obtain ⟨p, hp, -⟩ := hs
    exact ⟨p, hp⟩
  cases a with
  | checkTimeOut | checkLast =>
    obtain ⟨hs, hne⟩ := hat
    obtain ⟨n, rfl⟩ := Option.ne_none_iff_exists'.1 hne
    exact nodes_of_settled hs
  | setTimeOut | setOrigin | setLast | setFrom => exact hfill hat
  | getOrigin =>
    obtain ⟨n, hs, rfl, -⟩ := hat
    exact nodes_of_settled hs
  | getFrom =>
    obtain ⟨n, ⟨hs, rfl, -⟩, -⟩ := hat
    exact nodes_of_settled hs

/-- A thread at work on a slot, or about to begin on one that is settled. -/
theorem step_sound (A : Allocator) (now : Nat) {pt : Point σ}
    (hc : pt.inside = some c ∧ pt.At (m.view c) o ∨ pt.enters = some c ∧ Settled (m.view c) o)
    (ho : Owns m.heap ((m.nodes c).toList ++ (pt.held ++ l))) : Sound m c o l (m.step A now pt) := by
  rcases hc with ⟨hin, hat⟩ | ⟨hin, hs⟩
  · cases pt with
    | draw | taken | found => cases hin
    | save c =>
      cases hin
      exact sound_look rfl ⟨hat.1, hat.2, view_fst.symm⟩ ho
    | new c temp =>
      cases hin
      obtain ⟨-, hfree, htemp⟩ := hat
      obtain ⟨p, heap, hm, ho', hp, hv⟩ := ho.exists_malloc A ⟨none, none, none, none⟩
      refine ⟨⟨heap, Function.update m.nodes c.slot (some p), m.alloc⟩, .goOn (.load (.setTimeOut c temp)), ?_, rfl,
        fun c' hc' => Function.update_of_ne hc' _ _, fun a ha => hv a ?_, rfl, ⟨?_, hfree⟩, ?_⟩
      · simp only [SharedMap.step, hm]
      · exact List.mem_append_right _ (List.mem_append_right _ ha)
      · rw [view_snd]
        show (Function.update m.nodes c.slot (some p) c.slot).map heap.val = _
        rw [Function.update_self, Option.map_some, hp]
      · show Owns heap ((Function.update m.nodes c.slot (some p) c.slot).toList ++ (temp.toList ++ l))
        rw [Function.update_self, htemp, view_fst]
        exact ho'
    | release c temp =>
      cases hin
      obtain ⟨heap, hf, ho', hv⟩ := free_temp ho
      refine ⟨{ m with heap := heap }, .effect (.fill c) (.serial c.serial) none, ?_, rfl, fun _ _ => rfl,
        fun a _ => congrFun hv a, rfl, ho', fun d hd => ?_⟩
      · simp only [SharedMap.step, hf, bind, Except.bind]
        rfl
      · have hview : Settled (SharedMap.view { m with heap := heap } c.slot) (some c.node) := by
          have hcell := hat.1
          rw [Settled, view_snd, Option.map_some, ← hcell, view_snd, hv]
        rw [apply_fill_free (hd ▸ hat.2)]
        refine ⟨rfl, ?_, rfl, fun c' hc' => Function.update_of_ne hc' _ _⟩
        show Settled _ (Function.update d.nodes c.slot (some c.node) c.slot)
        rw [Function.update_self]
        exact hview
    | saveOld serial origin addr =>
      cases hin
      exact sound_look rfl ⟨hat, view_fst.symm⟩ ho
    | clear serial origin addr temp =>
      cases hin
      obtain ⟨⟨n, ⟨-, hn, hl⟩, hid, haddr⟩, htemp⟩ := hat
      have hnone : (Function.update m.nodes (serial % maxMapSize) none) (serial % maxMapSize) = none :=
        Function.update_self ..
      refine ⟨{ m with nodes := Function.update m.nodes (serial % maxMapSize) none },
        .goOn (.releaseOld serial origin addr temp), rfl, rfl, fun c' hc' => Function.update_of_ne hc' _ _,
        fun _ _ => rfl, rfl, ⟨?_, n, hn, hl, hid, haddr⟩, ?_⟩
      · simp only [SharedMap.view, hnone, Option.map_none]
      · show Owns m.heap ((Function.update m.nodes (serial % maxMapSize) none _).toList ++ (temp.toList ++ l))
        rw [hnone, htemp, view_fst]
        exact ho
    | releaseOld serial origin addr temp =>
      cases hin
      obtain ⟨hnone, n, rfl, hl, rfl, rfl⟩ := hat
      have hnodes : m.nodes (serial % maxMapSize) = none := by
        rw [← view_fst, hnone]
        rfl
      obtain ⟨heap, hf, ho', hv⟩ := free_temp ho
      refine ⟨{ m with heap := heap }, .effect (.query serial) (.node (some (n.origin, n.fromAddr))) none, ?_, rfl,
        fun _ _ => rfl, fun a _ => congrFun hv a, rfl, ho', fun d hd => ?_⟩
      · simp only [SharedMap.step, hf, bind, Except.bind]
        rfl
      · rw [apply_query_hit hd hl]
        refine ⟨rfl, ?_, rfl, fun c' hc' => Function.update_of_ne hc' _ _⟩
        show Settled _ (Function.update d.nodes (serial % maxMapSize) none _)
        rw [Function.update_self]
        exact settled_none.2 hnodes
    | load a =>
      cases hin
      obtain ⟨p, hp⟩ := exists_pointer hat
      have hstep : m.step A now (.load a) = .ok (m, .goOn (.follow a p)) := by
        simp only [SharedMap.step, hp]
      rw [hstep]
      exact sound_look rfl ⟨hat, by rw [view_fst, hp]⟩ ho
    | follow a p =>
      cases hin
      exact follow_sound now a (nodes_of_view hat.2) hat.1 ho
  · cases pt with
    | taken c =>
      cases hin
      cases hp : m.nodes c.slot with
      | none =>
        have ho' : o = none := by
          rw [Settled, view_snd, hp] at hs
          exact Option.map_eq_none_iff.1 hs.symm
        have hstep : m.step A now (.taken c) = .ok (m, .goOn (.save c)) := by
          simp only [SharedMap.step, hp]
        rw [hstep]
        refine sound_look rfl ⟨hs, ?_⟩ ho
        rintro ⟨n, hn, -⟩
        cases ho'.symm.trans hn
      | some p =>
        have hne : o ≠ none := by
          rintro rfl
          cases hp.symm.trans (settled_none.1 hs)
        have hstep : m.step A now (.taken c) = .ok (m, .goOn (.load (.checkTimeOut c))) := by
          simp only [SharedMap.step, hp]
        rw [hstep]
        exact sound_look rfl ⟨hs, hne⟩ ho
    | found serial =>
      cases hin
      cases hp : m.nodes (serial % maxMapSize) with
      | none =>
        have ho' : o = none := by
          rw [Settled, view_snd, hp] at hs
          exact Option.map_eq_none_iff.1 hs.symm
        have hstep : m.step A now (.found serial) = .ok (m, .effect (.query serial) (.node none) none) := by
          simp only [SharedMap.step, hp]
        refine ⟨m, _, hstep, rfl, fun _ _ => rfl, fun _ _ => rfl, rfl, ho, fun d hd => ?_⟩
        rw [apply_query_miss fun n hn => by cases (hd.trans ho').symm.trans hn]
        exact ⟨rfl, hd ▸ hs, rfl, fun _ _ => rfl⟩
      | some p =>
        have hne : o ≠ none := by
          rintro rfl
          cases hp.symm.trans (settled_none.1 hs)
        have hstep : m.step A now (.found serial) = .ok (m, .goOn (.load (.checkLast serial))) := by
          simp only [SharedMap.step, hp]
        rw [hstep]
        exact sound_look rfl ⟨hs, hne⟩ ho
    | draw | save | new | release | saveOld | clear | releaseOld | load | follow => cases hin

end

/-! ### All threads -/

/-- What the threads do with the slots. -/
def mapWork : Keyed.Work (MapThread σ) Nat (Option (Nat × NodeCell σ)) (Option (MapNode σ)) :=
  ⟨fun t => t.point.inside, Settled, fun t v o => t.point.At v o⟩

/-- The blocks that the table points to. -/
def slotBlocks (nodes : Nat → Option Nat) : List Nat := (List.range maxMapSize).flatMap fun c => (nodes c).toList

/-- The blocks that only a thread knows of. -/
def heldBlocks (threads : List (MapThread σ)) : List Nat := threads.flatMap fun t => t.point.held

/-- The table of `d` is what the memory says, up to the work under way, and what the effects so far come to; the
blocks in use are those of the table, of the threads, and those that were in use before, which are unchanged. -/
structure MapState.Inv (heap : Heap (NodeCell σ)) (s : MapState σ) (d : IdMap σ) : Prop where
  replay : Transducer.total IdMap.apply .init (s.log.map fun e => e.2.1) = (d, s.log.map fun e => e.2.2)
  alloc : s.map.alloc = d.alloc
  out : ∀ c, maxMapSize ≤ c → s.map.nodes c = none
  coherent : Keyed.Coherent mapWork s.map.view d.nodes s.threads
  owns : Owns s.map.heap (slotBlocks s.map.nodes ++ (heldBlocks s.threads ++ heap.live.toList))
  kept : ∀ a ∈ heap.live, s.map.heap.val a = heap.val a

section
variable {A : Allocator} {heap : Heap (NodeCell σ)} {s s' : MapState σ} {d : IdMap σ} {t : MapThread σ} {k c now : Nat}

/-- The blocks of one slot, and of the others. -/
theorem slotBlocks_perm (nodes : Nat → Option Nat) (hc : c < maxMapSize) : ∃ rest : List Nat,
    (∀ nodes' : Nat → Option Nat, (∀ c' ≠ c, nodes' c' = nodes c') →
      (slotBlocks nodes').Perm ((nodes' c).toList ++ rest)) ∧
    ∀ c' ≠ c, c' < maxMapSize → ∀ p, nodes c' = some p → p ∈ rest := by
  refine ⟨((List.range maxMapSize).erase c).flatMap fun c => (nodes c).toList, fun nodes' hn => ?_, ?_⟩
  · have hperm := (List.perm_cons_erase (List.mem_range.2 hc)).flatMap_right fun c => (nodes' c).toList
    rw [List.flatMap_cons] at hperm
    refine hperm.trans (List.Perm.append_left _ (List.Perm.of_eq ?_))
    refine List.flatMap_congr fun c' hc' => ?_
    rw [hn c' ((List.nodup_range.mem_erase_iff).1 hc').1]
  · intro c' hne hlt p hp
    refine List.mem_flatMap.2 ⟨c', (List.mem_erase_of_ne hne).2 (List.mem_range.2 hlt), ?_⟩
    rw [hp]
    exact List.mem_singleton.2 rfl

theorem inside_lt {pt : Point σ} (h : pt.inside = some c) : c < maxMapSize := by
  have hmod : ∀ x, x % maxMapSize < maxMapSize := fun x => Nat.mod_lt x (by decide)
  cases pt with
  | draw | taken | found => cases h
  | load a | follow a =>
    cases h
    cases a <;> exact hmod _
  | save | new | release | saveOld | clear | releaseOld =>
    cases h
    exact hmod _

theorem enters_lt {pt : Point σ} (h : pt.enters = some c) : c < maxMapSize ∧ pt.inside = none := by
  have hmod : ∀ x, x % maxMapSize < maxMapSize := fun x => Nat.mod_lt x (by decide)
  cases pt with
  | taken | found =>
    cases h
    exact ⟨hmod _, rfl⟩
  | draw | save | new | release | saveOld | clear | releaseOld | load | follow => cases h

theorem point_cases (pt : Point σ) :
    (∃ origin addr, pt = .draw origin addr) ∨ (∃ c, pt.enters = some c) ∨ ∃ c, pt.inside = some c := by
  cases pt with
  | draw origin addr => exact .inl ⟨origin, addr, rfl⟩
  | taken | found => exact .inr (.inl ⟨_, rfl⟩)
  | save | new | release | saveOld | clear | releaseOld | load | follow => exact .inr (.inr ⟨_, rfl⟩)

/-- The thread that runs, and the others. -/
theorem threads_perm (hk : s.threads[k]? = some t) : s.threads.Perm (t :: s.threads.eraseIdx k) ∧
    ∀ t', (s.threads.set k t').Perm (t' :: s.threads.eraseIdx k) := by
  obtain ⟨hlt, rfl⟩ := List.getElem?_eq_some_iff.1 hk
  exact ⟨(List.getElem_cons_eraseIdx_perm hlt).symm, fun t' => List.set_perm_cons_eraseIdx hlt t'⟩

theorem heldBlocks_perm {threads : List (MapThread σ)} {rest : List (MapThread σ)} (hp : threads.Perm (t :: rest)) :
    (heldBlocks threads).Perm (t.point.held ++ heldBlocks rest) := hp.flatMap_right _

theorem replay_snoc {log : List (Nat × MapOp σ × MapOut σ)} {i : Nat} {op : MapOp σ} {out : MapOut σ}
    (h : Transducer.total IdMap.apply .init (log.map fun e => e.2.1) = (d, log.map fun e => e.2.2))
    (ho : (d.apply op).2 = out) :
    Transducer.total IdMap.apply .init ((log ++ [(i, op, out)]).map fun e => e.2.1) =
      ((d.apply op).1, (log ++ [(i, op, out)]).map fun e => e.2.2) := by
  rw [List.map_append, List.map_append, Transducer.total_append, h, ← ho]
  rfl

namespace MapState.Inv

theorem init (heap : Heap (NodeCell σ)) : Inv heap (.init heap) .init where
  replay := rfl
  alloc := rfl
  out _ _ := rfl
  coherent := by
    refine ⟨fun c _ => rfl, fun t ht => (by cases ht), List.nodup_nil⟩
  owns := by
    have hnone : slotBlocks (fun _ => none) = [] := by
      rw [slotBlocks, List.flatMap_eq_nil_iff]
      exact fun _ _ => rfl
    rw [show (MapState.init heap).map.nodes = fun _ => none from rfl, hnone]
    exact ⟨Finset.nodup_toList _, fun _ => Finset.mem_toList.symm⟩
  kept _ _ := rfl

theorem arrive (h : Inv heap s d) (A : Allocator) (call : MapCall σ) :
    ∃ s', mapStep A s (.arrive call) = .ok s' ∧ Inv heap s' d := by
  have hin : call.start.inside = none ∧ call.start.held = [] := by
    cases call with
    | add | query => exact ⟨rfl, rfl⟩
  set t : MapThread σ := ⟨s.calls.length, call.start⟩ with ht
  have hperm : (s.threads ++ [t]).Perm (t :: s.threads) := List.perm_append_singleton _ _
  have hheld := heldBlocks_perm hperm
  rw [hin.2, List.nil_append] at hheld
  have hcoh : Keyed.Coherent mapWork s.map.view d.nodes (t :: s.threads) := h.coherent.cons hin.1
  refine ⟨_, rfl, h.replay, h.alloc, h.out, hcoh.perm hperm.symm, ?_, h.kept⟩
  exact h.owns.perm ((hheld.symm.append_right _).append_left _)

theorem draw (h : Inv heap s d) (A : Allocator) {origin : UInt16} {addr : σ} (hk : s.threads[k]? = some t)
    (ht : t.point = .draw origin addr) : ∃ s', mapStep A s (.run k now) = .ok s' ∧ Inv heap s' (d.apply .draw).1 := by
  obtain ⟨hp, hset⟩ := threads_perm hk
  set x := (s.map.alloc + 1) % uint16Max with hx
  have hstep : s.map.step A now t.point = .ok ({ s.map with alloc := x },
      .effect .draw (.serial x) (some (.taken ⟨x, origin, addr, 0, 0⟩))) := by rw [ht]; rfl
  have hnext : d.nextSerial = x := by rw [IdMap.nextSerial, ← h.alloc]
  refine ⟨{ s with
    map := { s.map with alloc := x }
    threads := s.threads.set k ⟨t.call, .taken ⟨x, origin, addr, 0, 0⟩⟩
    log := s.log ++ [(t.call, .draw, .serial x)] }, ?_, ?_, hnext.symm, h.out, ?_, ?_, h.kept⟩
  · simp only [mapStep, hk, hstep]
  · exact replay_snoc h.replay (by rw [← hnext]; rfl)
  · have hnone : mapWork.inside t = none := (congrArg Point.inside ht).trans rfl
    have hcoh : Keyed.Coherent mapWork s.map.view d.nodes
        (⟨t.call, .taken ⟨x, origin, addr, 0, 0⟩⟩ :: s.threads.eraseIdx k) := ((h.coherent.perm hp).tail hnone).cons rfl
    exact hcoh.perm (hset _).symm
  · have hheld := heldBlocks_perm hp
    rw [show t.point.held = [] from (congrArg Point.held ht).trans rfl] at hheld
    have hheld' := heldBlocks_perm (hset ⟨t.call, .taken ⟨x, origin, addr, 0, 0⟩⟩)
    exact h.owns.perm (((hheld.trans hheld'.symm).append_right _).append_left _)

/-- A thread at work on a slot, or about to begin on one that nobody works on. -/
theorem work (h : Inv heap s d) (A : Allocator) (now : Nat) (hk : s.threads[k]? = some t)
    (hc : t.point.inside = some c ∨ t.point.enters = some c ∧ ∀ x ∈ s.threads, x.point.inside ≠ some c) :
    ∃ s' d', mapStep A s (.run k now) = .ok s' ∧ Inv heap s' d' := by
  obtain ⟨hp, hset⟩ := threads_perm hk
  have hlt : c < maxMapSize := by
    rcases hc with hc | hc
    · exact inside_lt hc
    · exact (enters_lt hc.1).1
  have hcoh := h.coherent.perm hp
  have hin : ∀ c', mapWork.inside t = some c' → c' = c := by
    intro c' hc'
    rcases hc with hc | hc
    · exact Option.some_inj.1 (hc'.symm.trans hc)
    · cases hc'.symm.trans (enters_lt hc.1).2
  have hrest : ∀ x ∈ s.threads.eraseIdx k, mapWork.inside x ≠ some c := by
    rcases hc with hc | hc
    · exact hcoh.others hc
    · exact fun x hx => hc.2 x (hp.mem_iff.2 (List.mem_cons_of_mem _ hx))
  obtain ⟨R, hR, hmem⟩ := slotBlocks_perm s.map.nodes hlt
  have hheld := heldBlocks_perm hp
  set l := R ++ (heldBlocks (s.threads.eraseIdx k) ++ heap.live.toList) with hl
  have ho : Owns s.map.heap ((s.map.nodes c).toList ++ (t.point.held ++ l)) := by
    refine h.owns.perm (((hR _ fun _ _ => rfl).append (hheld.append_right _)).trans ?_)
    refine List.perm_iff_count.2 fun x => ?_
    simp only [List.count_append, hl]
    ac_rfl
  obtain ⟨m', next, hstep, halloc, hnodes, hval, hsound⟩ := step_sound A now (hc.imp
    (fun hc => ⟨hc, hcoh.busy t List.mem_cons_self c hc⟩)
    fun hc => ⟨hc.1, h.coherent.quiet c fun x hx => hc.2 x hx⟩) ho
  have hview : ∀ c' ≠ c, m'.view c' = s.map.view c' := by
    intro c' hne
    rw [SharedMap.view, SharedMap.view, hnodes c' hne]
    refine Option.map_congr fun p hp' => ?_
    by_cases hlt' : c' < maxMapSize
    · rw [hval p (List.mem_append_left _ (hmem c' hne hlt' p hp'))]
    · rw [h.out c' (not_lt.1 hlt')] at hp'
      cases hp'
  have hout : ∀ c', maxMapSize ≤ c' → m'.nodes c' = none := by
    intro c' hle
    rw [hnodes c' (by omega)]
    exact h.out c' hle
  have hkept : ∀ a ∈ heap.live, m'.heap.val a = heap.val a := by
    intro a ha
    rw [hval a (List.mem_append_right _ (List.mem_append_right _ (Finset.mem_toList.2 ha)))]
    exact h.kept a ha
  cases next with
  | goOn pt =>
    obtain ⟨hin', hat', ho'⟩ := hsound
    refine ⟨{ s with map := m', threads := s.threads.set k ⟨t.call, pt⟩ }, d, ?_, h.replay, halloc.trans h.alloc, hout,
      ?_, ?_, hkept⟩
    · simp only [mapStep, hk, hstep]
    · have hcoh' : Keyed.Coherent mapWork m'.view d.nodes (⟨t.call, pt⟩ :: s.threads.eraseIdx k) :=
        hcoh.step hin hrest hview (fun _ _ => rfl) hin' hat'
      exact hcoh'.perm (hset _).symm
    · have hheld' := heldBlocks_perm (hset ⟨t.call, pt⟩)
      refine ho'.perm (List.Perm.trans ?_ ((hR _ hnodes).append (hheld'.append_right _)).symm)
      refine List.perm_iff_count.2 fun x => ?_
      simp only [List.count_append, hl]
      ac_rfl
  | effect op out pt =>
    obtain ⟨rfl, ho', heff⟩ := hsound
    obtain ⟨hout', hq, halloc', hnodes'⟩ := heff d rfl
    refine ⟨{ s with
      map := m'
      threads := s.threads.eraseIdx k
      log := s.log ++ [(t.call, op, out)] }, (d.apply op).1, ?_, replay_snoc h.replay hout',
      halloc.trans (h.alloc.trans halloc'.symm), hout, hcoh.finish hin hrest hview hnodes' hq, ?_, hkept⟩
    · simp only [mapStep, hk, hstep]
    · refine ho'.perm (List.Perm.trans ?_ ((hR _ hnodes).append_right _).symm)
      rw [hl, List.append_assoc]

end MapState.Inv

theorem enterable_run (hk : s.threads[k]? = some t) (hc : t.point.enters = some c)
    (h : enterable s (.run k now) = true) : ∀ x ∈ s.threads, x.point.inside ≠ some c := by
  simp only [enterable, hk, hc, List.all_eq_true, bne_iff_ne] at h
  exact h

/-- A run in which each slot is worked on by one thread at a time. -/
theorem run_inv (h : s.Inv heap d) {es : List (MapEvent σ)} (hes : exclusive A s es = true) :
    ∃ s' d', mapRun A s es = .ok s' ∧ s'.Inv heap d' := by
  induction es generalizing s d with
  | nil => exact ⟨s, d, rfl, h⟩
  | cons e es ih =>
    rw [exclusive, Bool.and_eq_true] at hes
    obtain ⟨he, hes⟩ := hes
    obtain ⟨s₁, d₁, hstep, h₁⟩ : ∃ s₁ d₁, mapStep A s e = .ok s₁ ∧ s₁.Inv heap d₁ := by
      cases e with
      | arrive call =>
        obtain ⟨s₁, hstep, h₁⟩ := h.arrive A call
        exact ⟨s₁, d, hstep, h₁⟩
      | run k now =>
        cases hk : s.threads[k]? with
        | none => exact ⟨s, d, by simp only [mapStep, hk], h⟩
        | some t =>
          rcases point_cases t.point with ⟨origin, addr, ht⟩ | ⟨c, hc⟩ | ⟨c, hc⟩
          · obtain ⟨s₁, hstep, h₁⟩ := h.draw A hk ht
            exact ⟨s₁, _, hstep, h₁⟩
          · exact h.work A now hk (.inr ⟨hc, enterable_run hk hc he⟩)
          · exact h.work A now hk (.inl hc)
    rw [hstep] at hes
    obtain ⟨s', d', hrun, h'⟩ := ih h₁ hes
    refine ⟨s', d', ?_, h'⟩
    rw [mapRun, List.foldlM_cons, hstep]
    exact hrun

theorem length_slotBlocks (nodes : Nat → Option Nat) :
    (slotBlocks nodes).length = (List.range maxMapSize).countP fun c => (nodes c).isSome := by
  unfold slotBlocks
  induction List.range maxMapSize with
  | nil => rfl
  | cons c l ih =>
    rw [List.flatMap_cons, List.length_append, ih, List.countP_cons]
    cases nodes c <;> simp [Nat.add_comm]

/-- As long as no two threads work on one slot at a time, every interleaving goes through: no pointer is null or
released when it is followed, no node is released twice, no field is read that was not written. The calls return what
they return when they take effect at once, in the order of the log; a slot that nobody works on holds what it holds
then; and when all calls are done, the nodes in the table are the only blocks that were not in use before. -/
theorem map_threads_serial (A : Allocator) (heap : Heap (NodeCell σ)) (es : List (MapEvent σ))
    (hes : exclusive A (.init heap) es = true) : ∃ s d, mapRun A (.init heap) es = .ok s ∧
      Transducer.total IdMap.apply .init (s.log.map fun e => e.2.1) = (d, s.log.map fun e => e.2.2) ∧
      s.map.alloc = d.alloc ∧
      (∀ c, (∀ t ∈ s.threads, t.point.inside ≠ some c) →
        (s.map.nodes c).map s.map.heap.val = (d.nodes c).map MapNode.cell) ∧
      (∀ a ∈ heap.live, a ∈ s.map.heap.live ∧ s.map.heap.val a = heap.val a) ∧
      (s.threads = [] →
        s.map.heap.live.card = heap.live.card + (List.range maxMapSize).countP fun c => (d.nodes c).isSome) := by
  obtain ⟨s, d, hrun, h⟩ := run_inv (MapState.Inv.init heap) hes
  have hquiet : ∀ c, (∀ t ∈ s.threads, t.point.inside ≠ some c) →
      (s.map.nodes c).map s.map.heap.val = (d.nodes c).map MapNode.cell := by
    intro c hc
    have hs : Settled (s.map.view c) (d.nodes c) := h.coherent.quiet c hc
    rwa [Settled, view_snd] at hs
  refine ⟨s, d, hrun, h.replay, h.alloc, hquiet, fun a ha => ⟨(h.owns.live_iff a).2 ?_, h.kept a ha⟩, fun hnone => ?_⟩
  · exact List.mem_append_right _ (List.mem_append_right _ (Finset.mem_toList.2 ha))
  · have hheld : heldBlocks s.threads = [] := by rw [hnone]; rfl
    have hsome : (fun c => (s.map.nodes c).isSome) = fun c => (d.nodes c).isSome := by
      funext c
      have hc := hquiet c fun t ht => by
        rw [hnone] at ht
        cases ht
      rw [← Option.isSome_map, hc, Option.isSome_map]
    rw [h.owns.card, hheld, List.length_append, List.length_append, length_slotBlocks, hsome, Finset.length_toList,
      List.length_nil, Nat.zero_add, Nat.add_comm]

/-- A heap of which nothing is in use. -/
def emptyHeap : Heap (NodeCell Nat) := ⟨∅, fun _ => ⟨none, none, none, none⟩⟩

/-- The threads at the positions of the list run in turn, each `n` times. -/
def turns (n now : Nat) (ks : List Nat) : List (MapEvent Nat) :=
  (List.replicate n ks).flatten.map fun k => MapEvent.run k now

/-- Two requests, one access after the other in turn, and a response to the second. -/
def mapTurns : List (MapEvent Nat) :=
  .arrive (.add 7 100) :: .arrive (.add 7 200) :: (turns 12 3 [0, 1] ++ turns 2 4 [0] ++
    .arrive (.query 2) :: turns 10 5 [0])

/-- Two responses to one request, that load the pointer of its node before one of them clears it. -/
def mapTwice : List (MapEvent Nat) :=
  .arrive (.add 7 100) :: (turns 13 3 [0] ++ .arrive (.query 1) :: .arrive (.query 1) ::
    (turns 9 4 [0, 1] ++ turns 2 4 [0]))

theorem map_threads_serial_turns : ∃ s d, mapRun .bump (.init emptyHeap) mapTurns = .ok s ∧
    Transducer.total IdMap.apply .init (s.log.map fun e => e.2.1) = (d, s.log.map fun e => e.2.2) := by
  obtain ⟨s, d, hrun, hreplay, -⟩ := map_threads_serial .bump emptyHeap mapTurns (by decide +kernel)
  exact ⟨s, d, hrun, hreplay⟩

example : (mapRun .bump (.init emptyHeap) mapTwice).map (fun s => s.log.length) = .error (.misuse .badFree) := by
  decide +kernel

end

end DnsRelay
