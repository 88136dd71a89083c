import DnsRelay.LookupInterleaving
import DnsRelay.HostFile
import DnsRelay.QuerySpec

/-!
# What the searches come to

`searches_answer`: as long as every search returns in time, each has the answer of `qnameSearch`, whatever the
interleaving. `searches_drain`: no search waits forever. `early_return_faults`: a search that returns before its thread
has written leaves a thread that will use a variable that is gone.
-/

namespace DnsRelay
open Alloc

/-! ### Any number of searches -/

theorem Search.Rep.footprint (m : HostMap) : Footprint (Search.Rep m) := fun _ _ _ _ hown hs => hs.congr hown

theorem Hosts.returns {m : HostMap} {lines : List HostLine} (h : Hosts (some m) lines) : m.Returns := by
  intro clk entry hname
  obtain ⟨f, htable⟩ := h
  obtain ⟨name, hn⟩ := Option.isSome_iff_exists.1 hname
  by_cases hb : Blocked lines name entry.type
  · obtain ⟨res, hq⟩ := hostQuery_blocked clk htable hn hb
    exact ⟨_, hq⟩
  · obtain ⟨found, hq, -⟩ := hostQuery_found clk htable hn hb
    exact ⟨_, hq⟩

/-- What the searches keep; `heap` is what the rest of the program uses. -/
structure SearchState.Inv (m : HostMap) (heap : Heap LookupCell) (s : SearchState) : Prop where
  shares : Shares (Search.Rep m) s.heap s.searches heap.live.toList
  kept : ∀ a ∈ heap.live, s.heap.val a = heap.val a

namespace SearchState.Inv
variable {A : Allocator} {m : HostMap} {heap : Heap LookupCell} {s s' : SearchState}

theorem init (m : HostMap) (heap : Heap LookupCell) : Inv m heap ⟨heap, []⟩ :=
  ⟨⟨Finset.nodup_toList _, fun _ => Finset.mem_toList.symm⟩, fun _ _ => rfl⟩

theorem call (h : Inv m heap s) (qname : List UInt8) (qtype : UInt16) (now : Nat) :
    ∃ s', searchesStep A m s (.call qname qtype now) = .ok s' ∧ Inv m heap s' :=
  ⟨_, rfl, h.shares.add ⟨rfl, rfl, rfl⟩, h.kept⟩

/-- One of the searches takes a step. -/
theorem focus (h : Inv m heap s) {k : Nat} {x : Search} (hk : s.searches[k]? = some x) : ∃ own others,
    x.Rep m s.heap own ∧ Owns s.heap (own ++ others) ∧ ∀ h' x', Leaves (Search.Rep m) s.heap h' x' others →
      Inv m heap ⟨h', s.searches.set k x'⟩ := by
  obtain ⟨own, others, hrep, ho, hsub, hback⟩ :=
    h.shares.focus (Search.Rep.footprint m) hk
  refine ⟨own, others, hrep, ho, fun h' x' hleaves => ⟨hback h' x' hleaves, fun a ha => ?_⟩⟩
  exact (hleaves.kept a (hsub a (Finset.mem_toList.2 ha))).trans (h.kept a ha)

theorem main (hm : m.Returns) (h : Inv m heap s) {k : Nat} {found : List DNSEntry}
    (ht : timelyEvent s (.main k found) = true) :
    ∃ s', searchesStep A m s (.main k found) = .ok s' ∧ Inv m heap s' := by
  cases hk : s.searches[k]? with
  | none => exact ⟨s, by rw [searchesStep, hk], h⟩
  | some x =>
    obtain ⟨own, others, hrep, ho, hback⟩ := h.focus hk
    obtain ⟨h', x', hstep, hleaves⟩ := hrep.main A found hm ho fun v r n c hx => by
      obtain ⟨entry, found₀, main, host⟩ := x
      cases hx
      simpa only [timelyEvent, hk] using ht
    refine ⟨_, ?_, hback h' x' hleaves⟩
    simp only [searchesStep, hk, hstep, heap_bind]
    rfl

theorem host (hm : m.Returns) (h : Inv m heap s) (k now : Nat) :
    ∃ s', searchesStep A m s (.host k now) = .ok s' ∧ Inv m heap s' := by
  cases hk : s.searches[k]? with
  | none => exact ⟨s, by rw [searchesStep, hk], h⟩
  | some x =>
    obtain ⟨own, others, hrep, ho, hback⟩ := h.focus hk
    obtain ⟨h', p', hstep, hleaves⟩ := hrep.host A now hm ho
    refine ⟨_, ?_, hback h' _ hleaves⟩
    simp only [searchesStep, hk, hstep, heap_bind]
    rfl

theorem step (hm : m.Returns) (h : Inv m heap s) {e : SearchEvent} (he : timelyEvent s e = true) :
    ∃ s', searchesStep A m s e = .ok s' ∧ Inv m heap s' := by
  cases e with
  | call qname qtype now => exact h.call qname qtype now
  | main k found => exact h.main hm he
  | host k now => exact h.host hm k now

theorem run (hm : m.Returns) (h : Inv m heap s) {es : List SearchEvent} (hes : timely A m s es = true) :
    ∃ s', searchesRun A m s es = .ok s' ∧ Inv m heap s' :=
  Transducer.run_guarded (fun _ _ h he => h.step hm he) h hes

end SearchState.Inv

/-- The search is done, and so is its thread. -/
def Search.over (x : Search) : Bool :=
  match x.main, x.host with
  | .done .., .done => true
  | _, _ => false

/-- The blocks that nobody releases: `*host_flag`; the empty result of the cache; the result of the thread, if it is
not taken. -/
def Search.leaks (m : HostMap) (x : Search) : Nat :=
  match x.main with
  | .done _ _ true => 1 + (hosted m x.entry).toNat
  | .done ret _ false => 2 + if ret = 0 then (hosted m x.entry).toNat else 0
  | _ => 0

theorem Search.Rep.leaks {m : HostMap} {h : Heap LookupCell} {own : List Nat} {x : Search} (hs : x.Rep m h own)
    (hover : x.over = true) : own.length = x.leaks m := by
  obtain ⟨entry, found, main, host⟩ := x
  obtain ⟨-, hs⟩ := hs
  unfold Search.over at hover
  split at hover
  · rename_i ret result cached hmain hhost
    cases hmain
    cases hhost
    cases cached with
    | true =>
      obtain ⟨⟨flag, arr, hown, rfl, rfl, harr⟩, -⟩ := hs
      rw [Search.leaks, ← harr]
      cases arr <;> rfl
    | false => exact hs.2.2.1
  · cases hover

/-! ### Two searches -/

/-- The table of the file. -/
def sampleTable : HostMap := ((hostInit (fun _ => 0) (hostFile sampleFile ++ [])).toOption).getD ⟨.init, []⟩

theorem sampleTable_hosts : Hosts (some sampleTable) (sampleFile.filterMap id) := by
  obtain ⟨m, f, hm, htable⟩ := hostInit_spec (fun _ => 0) sampleFile_valid (show newline ∉ [] by decide) (by decide)
  have he : sampleTable = m := by
    rw [sampleTable, hm]
    rfl
  exact ⟨f, he ▸ htable⟩

def noCells : Heap LookupCell := ⟨∅, fun _ => .number 0⟩

def cachedEntry : DNSEntry := ⟨some [98], some [57], 1, 0, 500⟩

/-- The first search is answered by the cache, the second one by its thread; the threads take turns. -/
def twoSearches : List SearchEvent :=
  .call [98] typeA 3 :: .call [97] typeAaaa 3 ::
    ((List.replicate 2 [.main 0 [cachedEntry], .main 1 []]).flatten ++
      (List.replicate 14 [.host 1 7, .host 0 8]).flatten ++ (List.replicate 5 [.main 0 [], .main 1 []]).flatten)

/-- A search that the cache answers is about to return; its thread has not run. -/
def cachedFirst : List SearchEvent := [.call [98] typeA 3, .main 0 [], .main 0 [cachedEntry], .main 0 []]

/-- The search returns, another one is under way, and the thread of the first one runs. -/
def lateThread : List SearchEvent :=
  cachedFirst ++ [.main 0 [], .main 0 [], .call [99] typeA 4, .main 1 [], .main 1 []] ++
    List.replicate 9 (.host 1 8) ++ List.replicate 9 (.host 0 9) ++ List.replicate 5 (.main 1 [])

/-- The addresses that the searches came to. -/
def SearchState.ips (s : SearchState) : List (List (Option (List UInt8))) :=
  s.searches.map fun x => match x.main with
    | .done _ result _ => result.map DNSEntry.ip
    | _ => []

/-! ### What they come to -/

/-- In every interleaving of any number of searches in which no search returns before its thread has written its
answer, no block is used that is not in use, none is released twice and no null pointer is followed. A search that is
done has the answer of `qnameSearch`, that asks the host table whatever the cache found; the blocks of the rest of the
program are what they were; and when all are done, the blocks in use are these and those that the searches leave. -/
theorem searches_answer (A : Allocator) {m : HostMap} {lines : List HostLine} (hhost : Hosts (some m) lines)
    (heap : Heap LookupCell) (es : List SearchEvent) (hes : timely A m ⟨heap, []⟩ es = true) :
    ∃ s, searchesRun A m ⟨heap, []⟩ es = .ok s ∧
      (∀ x ∈ s.searches, ∀ ret result cached, x.main = .done ret result cached → ∃ found clk res,
        x.found = some found ∧ (cached = true ↔ found ≠ []) ∧ searchAnswer m clk x.entry found = .ok (ret, res) ∧
          result = res.take ret.toNat) ∧
      (∀ a ∈ heap.live, a ∈ s.heap.live ∧ s.heap.val a = heap.val a) ∧
      ((∀ x ∈ s.searches, x.over = true) →
        s.heap.live.card = heap.live.card + (s.searches.map (Search.leaks m)).sum) := by
  have hm := Hosts.returns hhost
  obtain ⟨s, hrun, h⟩ := (SearchState.Inv.init m heap).run hm hes
  refine ⟨s, hrun, fun x hx ret result cached hmain => ?_,
    fun a ha => ⟨h.shares.live_rest a (Finset.mem_toList.2 ha), h.kept a ha⟩, fun hover => ?_⟩
  · obtain ⟨k, hk⟩ := List.mem_iff_getElem?.1 hx
    obtain ⟨own, others, ⟨hname, hrep⟩, -⟩ := h.focus hk
    rw [hmain] at hrep
    cases cached with
    | true =>
      obtain ⟨-, hne, hf, rfl⟩ := hrep
      obtain ⟨r, hr⟩ := hm (fun _ => 0) x.entry hname
      refine ⟨result, fun _ => 0, result, hf, by simp [hne], ?_, by simp⟩
      rw [searchAnswer, hr, Exec.ok_bind, if_neg (by simpa using hne)]
      rfl
    | false =>
      obtain ⟨hf, -, -, clk, res, hq, hres⟩ := hrep
      refine ⟨[], clk, res, hf, by simp, ?_, hres⟩
      rw [searchAnswer, hq]
      rfl
  · rw [h.shares.card (Search.leaks m) fun x hx own hrep => hrep.leaks (hover x hx), Finset.length_toList, Nat.add_comm]

theorem searches_answer_two : ∃ s, searchesRun .bump sampleTable ⟨noCells, []⟩ twoSearches = .ok s ∧
    s.ips = [[some [57]], [some [58, 58, 50], some [58, 58, 49]]] ∧ s.heap.live.card = 4 := by
  have hdone : (searchesRun .bump sampleTable ⟨noCells, []⟩ twoSearches).toOption.map (fun s =>
      (s.ips, s.searches.all Search.over, (s.searches.map (Search.leaks sampleTable)).sum)) =
        some ([[some [57]], [some [58, 58, 50], some [58, 58, 49]]], true, 4) := by decide +kernel
  obtain ⟨s, hrun, -, -, hcard⟩ := searches_answer .bump sampleTable_hosts noCells twoSearches (by decide +kernel)
  rw [hrun] at hdone
  obtain ⟨hips, hover, hsum⟩ : s.ips = _ ∧ s.searches.all Search.over = true ∧
      (s.searches.map (Search.leaks sampleTable)).sum = 4 := by
    simpa only [Except.toOption, Option.map_some, Option.some.injEq, Prod.mk.injEq] using hdone
  refine ⟨s, hrun, hips, ?_⟩
  rw [hcard (List.all_eq_true.1 hover), hsum]
  rfl

/-! ### No search waits forever -/

/-- More steps than any list of the table has the thread take. -/
def HostPoint.rank (m : HostMap) : HostPoint → Nat
  | idle => 3 * (m.lists.map List.length).sum + 7
  | begin _ => 3 * (m.lists.map List.length).sum + 6
  | askHash _ _ => 3 * (m.lists.map List.length).sum + 5
  | make _ _ list => 3 * list.length + 4
  | walk _ _ _ list _ => 3 * list.length + 3
  | copy _ _ _ _ list _ => 3 * list.length + 5
  | stamp _ _ _ list _ => 3 * list.length + 4
  | store .. => 2
  | clean .. => 1
  | done => 0

def SearchPoint.rank : SearchPoint → Nat
  | start => 6
  | askCache _ => 5
  | join _ | stop .. => 4
  | leave .. => 3
  | take .. => 1
  | done .. => 0

def Search.rank (m : HostMap) (x : Search) : Nat := x.main.rank + x.host.rank m

section
variable {A : Allocator} {m : HostMap} {h h' : Heap LookupCell} {now k : Nat} {p p' : HostPoint} {x x' : Search}
  {found : List DNSEntry}

theorem rank_host (hstep : hostStep A m h now p = .ok (h', p')) (hidle : p ≠ .idle) (hdone : p ≠ .done) :
    p'.rank m < p.rank m := by
  cases p with
  | idle => exact absurd rfl hidle
  | begin args =>
    obtain ⟨a, -, hstep⟩ := heap_bind_ok.1 hstep
    cases hstep
    simp [HostPoint.rank]
  | askHash args a =>
    obtain ⟨e, -, hstep⟩ := heap_bind_ok.1 hstep
    obtain ⟨name, -, hstep⟩ := heap_bind_ok.1 hstep
    obtain ⟨o, -, hstep⟩ := heap_bind_ok.1 hstep
    cases o with
    | none =>
      cases hstep
      simp only [HostPoint.rank]
      omega
    | some head =>
      dsimp only at hstep
      cases hlist : m.lists[head]? with
      | none =>
        rw [hlist] at hstep
        cases hstep
      | some list =>
        rw [hlist] at hstep
        cases hstep
        have hle : list.length ≤ (m.lists.map List.length).sum :=
          List.single_le_sum (fun _ _ => Nat.zero_le _) _ (List.mem_map_of_mem (List.mem_of_getElem? hlist))
        simp only [HostPoint.rank]
        omega
  | make args a list =>
    obtain ⟨h₁, -, hstep⟩ := heap_bind_ok.1 hstep
    cases hstep
    simp [HostPoint.rank]
  | walk args a k list num =>
    cases list with
    | nil =>
      cases hstep
      simp [HostPoint.rank]
    | cons temp list =>
      obtain ⟨e, -, hstep⟩ := heap_bind_ok.1 hstep
      obtain ⟨blocked, -, hstep⟩ := heap_bind_ok.1 hstep
      split at hstep
      · cases hstep
        simp only [HostPoint.rank]
        omega
      · split at hstep <;> cases hstep <;> simp only [HostPoint.rank, List.length_cons] <;> omega
  | copy args a k temp list num =>
    obtain ⟨⟨q, l⟩, -, hstep⟩ := heap_bind_ok.1 hstep
    dsimp only at hstep
    split at hstep
    · obtain ⟨h₁, -, hstep⟩ := heap_bind_ok.1 hstep
      cases hstep
      simp [HostPoint.rank]
    · cases hstep
  | stamp args a k list num =>
    obtain ⟨⟨q, l⟩, -, hstep⟩ := heap_bind_ok.1 hstep
    obtain ⟨h₁, -, hstep⟩ := heap_bind_ok.1 hstep
    cases hstep
    simp [HostPoint.rank]
  | store args a ret =>
    obtain ⟨h₁, -, hstep⟩ := heap_bind_ok.1 hstep
    cases hstep
    simp [HostPoint.rank]
  | clean args a =>
    obtain ⟨h₁, -, hstep⟩ := heap_bind_ok.1 hstep
    obtain ⟨h₂, -, hstep⟩ := heap_bind_ok.1 hstep
    cases hstep
    simp [HostPoint.rank]
  | done => exact absurd rfl hdone

/-- The search asks for the same, and it is nearer to its end, unless it waits for its thread. -/
theorem rank_main (hstep : searchStep A h x found = .ok (h', x')) : x'.entry = x.entry ∧
    (x.main = .start ∧ x.host = .idle ∨ x.main ≠ .start ∧ x.host = .done → x.main.rank ≠ 0 →
      x'.rank m < x.rank m) := by
  obtain ⟨entry, found₀, main, host⟩ := x
  cases main with
  | start =>
    cases hstep
    refine ⟨rfl, fun hready _ => ?_⟩
    obtain ⟨-, hidle⟩ := hready.resolve_right fun hr => hr.1 rfl
    dsimp only at hidle
    subst hidle
    simp only [Search.rank, SearchPoint.rank, HostPoint.rank]
    omega
  | askCache v =>
    obtain ⟨e, -, hstep⟩ := heap_bind_ok.1 hstep
    cases hstep
    refine ⟨rfl, fun _ _ => ?_⟩
    by_cases hf : found.length = 0 <;> simp [Search.rank, SearchPoint.rank, hf]
  | join v =>
    cases host with
    | done =>
      obtain ⟨ret, -, hstep⟩ := heap_bind_ok.1 hstep
      obtain ⟨result, -, hstep⟩ := heap_bind_ok.1 hstep
      cases hstep
      exact ⟨rfl, fun _ _ => by simp [Search.rank, SearchPoint.rank]⟩
    | _ =>
      cases hstep
      refine ⟨rfl, fun hready _ => ?_⟩
      simp at hready
  | stop v resCache retCache =>
    obtain ⟨h₁, -, hstep⟩ := heap_bind_ok.1 hstep
    cases hstep
    exact ⟨rfl, fun _ _ => by simp [Search.rank, SearchPoint.rank]⟩
  | leave v result ret cached =>
    obtain ⟨h₁, -, hstep⟩ := heap_bind_ok.1 hstep
    obtain ⟨h₂, -, hstep⟩ := heap_bind_ok.1 hstep
    obtain ⟨h₃, -, hstep⟩ := heap_bind_ok.1 hstep
    cases hstep
    exact ⟨rfl, fun _ _ => by simp [Search.rank, SearchPoint.rank]⟩
  | take result ret cached =>
    obtain ⟨l, -, hstep⟩ := heap_bind_ok.1 hstep
    split at hstep
    · cases hstep
    · obtain ⟨h₁, -, hstep⟩ := heap_bind_ok.1 hstep
      cases hstep
      exact ⟨rfl, fun _ _ => by simp [Search.rank, SearchPoint.rank]⟩
  | done ret result cached =>
    cases hstep
    exact ⟨rfl, fun _ hne => absurd rfl hne⟩

/-- A search has not begun if and only if its thread has not. -/
theorem Search.Rep.idle_iff {own : List Nat} (hs : x.Rep m h own) : x.host = .idle ↔ x.main = .start := by
  obtain ⟨entry, found₀, main, host⟩ := x
  obtain ⟨-, hs⟩ := hs
  have halive : ∀ {v front}, Search.Alive m h own ⟨entry, found₀, main, host⟩ v front → host ≠ .idle := by
    rintro v front ⟨arr, hown, -, hp⟩ rfl
    exact hp
  have hgone : ∀ {front}, Search.Gone m own ⟨entry, found₀, main, host⟩ front → host ≠ .idle := by
    rintro front ⟨arr, hown, -, hp⟩ rfl
    exact hp
  have hdone : host = .done → host ≠ .idle := by
    rintro rfl he
    cases he
  have hne : main ≠ .start → host ≠ .idle := by
    intro hmain
    cases main with
    | start => exact absurd rfl hmain
    | askCache v => exact halive hs.1
    | join v =>
      obtain ⟨-, resCache, hs⟩ := hs
      exact halive hs
    | stop v resCache retCache => exact halive hs.1
    | leave v result ret cached =>
      cases cached with
      | true =>
        obtain ⟨p, -, hs, -⟩ := hs
        exact halive hs
      | false => exact hdone hs.2.1
    | take result ret cached =>
      cases cached with
      | true =>
        obtain ⟨p, flag, -, hs, -⟩ := hs
        exact hgone hs
      | false => exact hdone hs.2.1
    | done ret result cached =>
      cases cached with
      | true =>
        obtain ⟨⟨flag, hs⟩, -⟩ := hs
        exact hgone hs
      | false => exact hdone hs.2.1
  refine ⟨fun hidle => not_not.1 fun hmain => hne hmain hidle, fun hmain => ?_⟩
  dsimp only at hmain
  subst hmain
  exact hs.2

theorem rank_eq_zero (hx : x.rank m = 0) : x.over = true := by
  obtain ⟨entry, found₀, main, host⟩ := x
  cases main <;> cases host <;> simp_all [Search.rank, SearchPoint.rank, HostPoint.rank, Search.over]

end

/-- One search of many is nearer to its end. -/
theorem sum_set_lt {α : Type} {f : α → Nat} {l : List α} {k : Nat} {x x' : α} (hk : l[k]? = some x) (hlt : f x' < f x) :
    ((l.set k x').map f).sum < (l.map f).sum := by
  induction l generalizing k with
  | nil => cases hk
  | cons y l ih =>
    cases k with
    | zero =>
      cases hk
      simpa using hlt
    | succ k => simpa using ih hk

theorem map_set_same {α β : Type} {f : α → β} {l : List α} {k : Nat} {x x' : α} (hk : l[k]? = some x)
    (he : f x' = f x) : (l.set k x').map f = l.map f := by
  induction l generalizing k with
  | nil => cases hk
  | cons y l ih =>
    cases k with
    | zero =>
      cases hk
      rw [List.set_cons_zero, List.map_cons, List.map_cons, he]
    | succ k => rw [List.set_cons_succ, List.map_cons, List.map_cons, ih hk]

/-- Where a search is not done, one of its threads can go on, in time. -/
theorem SearchState.Inv.progress {m : HostMap} {heap : Heap LookupCell} {s : SearchState} (A : Allocator)
    (hm : m.Returns) (h : Inv m heap s) (hne : (s.searches.map (Search.rank m)).sum ≠ 0) : ∃ e s',
      timelyEvent s e = true ∧ searchesStep A m s e = .ok s' ∧ Inv m heap s' ∧
      (s'.searches.map (Search.rank m)).sum < (s.searches.map (Search.rank m)).sum ∧
      s'.searches.map Search.entry = s.searches.map Search.entry := by
  obtain ⟨x, hx, hrank⟩ : ∃ x ∈ s.searches, x.rank m ≠ 0 := by
    by_contra hall
    push Not at hall
    exact hne (List.sum_eq_zero fun n hn => by
      obtain ⟨x, hx, rfl⟩ := List.mem_map.1 hn
      exact hall x hx)
  obtain ⟨k, hk⟩ := List.mem_iff_getElem?.1 hx
  obtain ⟨own, others, hrep, ho, hback⟩ := h.focus hk
  by_cases hhost : x.host = .idle ∨ x.host = .done
  · have hready : x.main = .start ∧ x.host = .idle ∨ x.main ≠ .start ∧ x.host = .done := by
      rcases hhost with hidle | hdone
      · exact .inl ⟨hrep.idle_iff.1 hidle, hidle⟩
      · refine .inr ⟨fun hstart => ?_, hdone⟩
        have := hrep.idle_iff.2 hstart
        rw [hdone] at this
        cases this
    have hmain : x.main.rank ≠ 0 := by
      intro hzero
      rcases hready with ⟨hstart, -⟩ | ⟨-, hdone⟩
      · rw [hstart] at hzero
        cases hzero
      · exact hrank (by rw [Search.rank, hzero, hdone]; rfl)
    have hwritten : ∀ v r n c, x.main = .leave v r n c → x.host.written = true := by
      intro v r n c hleave
      rcases hready with ⟨hstart, -⟩ | ⟨-, hdone⟩
      · rw [hleave] at hstart
        cases hstart
      · rw [hdone]
        rfl
    obtain ⟨h', x', hstep, hleaves⟩ := hrep.main A [] hm ho hwritten
    obtain ⟨hentry, hlt⟩ := rank_main (m := m) hstep
    refine ⟨.main k [], ⟨h', s.searches.set k x'⟩, ?_, ?_, hback h' x' hleaves, sum_set_lt hk (hlt hready hmain),
      map_set_same hk hentry⟩
    · obtain ⟨entry, found₀, main, host⟩ := x
      cases main with
      | leave v r n c => simpa only [timelyEvent, hk] using hwritten v r n c rfl
      | _ => simp only [timelyEvent, hk]
    · simp only [searchesStep, hk, hstep, heap_bind]
      rfl
  · obtain ⟨hidle, hdone⟩ := not_or.1 hhost
    obtain ⟨h', p', hstep, hleaves⟩ := hrep.host A 0 hm ho
    refine ⟨.host k 0, ⟨h', s.searches.set k { x with host := p' }⟩, rfl, ?_, hback h' _ hleaves, sum_set_lt hk ?_,
      map_set_same hk rfl⟩
    · simp only [searchesStep, hk, hstep, heap_bind]
      rfl
    · have := rank_host hstep hidle hdone
      simp only [Search.rank]
      omega

/-- Every run in which the searches return in time can go on so, without further calls, until all are done: no search
waits forever for its thread. -/
theorem searches_drain (A : Allocator) {m : HostMap} {lines : List HostLine} (hhost : Hosts (some m) lines)
    (heap : Heap LookupCell) (es : List SearchEvent) (hes : timely A m ⟨heap, []⟩ es = true) :
    ∃ es' s s', searchesRun A m ⟨heap, []⟩ es = .ok s ∧ timely A m ⟨heap, []⟩ (es ++ es') = true ∧
      searchesRun A m ⟨heap, []⟩ (es ++ es') = .ok s' ∧ (∀ x ∈ s'.searches, x.over = true) ∧
      s'.searches.map Search.entry = s.searches.map Search.entry := by
  have hm := Hosts.returns hhost
  obtain ⟨s, hrun, h⟩ := (SearchState.Inv.init m heap).run hm hes
  have hprog : ∀ s₁ : SearchState, s₁.Inv m heap ∧ s₁.searches.map Search.entry = s.searches.map Search.entry →
      (s₁.searches.map (Search.rank m)).sum ≠ 0 → ∃ e s₂, timelyEvent s₁ e = true ∧ searchesStep A m s₁ e = .ok s₂ ∧
        (s₂.Inv m heap ∧ s₂.searches.map Search.entry = s.searches.map Search.entry) ∧
        (s₂.searches.map (Search.rank m)).sum < (s₁.searches.map (Search.rank m)).sum := by
    intro s₁ h₁ hne
    obtain ⟨e, s₂, he, hstep, h₂, hlt, hsame⟩ := h₁.1.progress A hm hne
    exact ⟨e, s₂, he, hstep, ⟨h₂, hsame.trans h₁.2⟩, hlt⟩
  obtain ⟨es', s', hes', hrun', ⟨-, hentries⟩, hzero⟩ := Transducer.exists_drain _ _ _ _ hprog ⟨h, rfl⟩
  refine ⟨es', s, s', hrun, Transducer.guarded_append hrun hes hes', ?_, fun x hx => ?_, hentries⟩
  · unfold searchesRun at hrun ⊢
    rw [List.foldlM_append, hrun]
    exact hrun'
  · exact rank_eq_zero (List.sum_eq_zero_iff.1 hzero _ (List.mem_map_of_mem hx))

theorem searches_drain_two : ∃ es' s', timely .bump sampleTable ⟨noCells, []⟩ (twoSearches.take 7 ++ es') = true ∧
    searchesRun .bump sampleTable ⟨noCells, []⟩ (twoSearches.take 7 ++ es') = .ok s' ∧
    ∀ x ∈ s'.searches, x.over = true := by
  obtain ⟨es', s, s', -, hes, hrun, hover, -⟩ :=
    searches_drain .bump sampleTable_hosts noCells (twoSearches.take 7) (by decide +kernel)
  exact ⟨es', s', hes, hrun, hover⟩

/-! ### A search that returns too early -/

/-- The variable of the search that the thread uses next, directly or for the array that it points to. -/
def HostPoint.used : HostPoint → Option Nat
  | .make _ a _ | .copy _ a .. | .stamp _ a .. => some a.resDest
  | .store _ a _ => some a.resNum
  | _ => none

/-- The thread of the search `k`, left alone, comes to use one of the variables `vars` when it is gone. -/
def Doomed (A : Allocator) (m : HostMap) (s : SearchState) (k now : Nat) (vars : List Nat) : Prop :=
  ∃ n s' x, searchesRun A m s (List.replicate n (.host k now)) = .ok s' ∧ s'.searches[k]? = some x ∧
    (∃ b ∈ vars, x.host.used = some b) ∧ searchesStep A m s' (.host k now) = .error (.misuse .dangling)

/-- The variables that the thread writes to are gone, and the result that it would find is none. -/
structure Dead (h : Heap LookupCell) (a : HqArgs) : Prop where
  result : resultArray h a = .error (.misuse .dangling)
  num : a.resNum ∉ h.live

section
variable {A : Allocator} {m : HostMap} {h h' : Heap LookupCell} {l : List Search} {x : Search} {entry temp : DNSEntry}
  {args k i num now b : Nat} {a : HqArgs} {list : List DNSEntry} {p p' : HostPoint} {ret : Int} {vars : List Nat}

theorem doomed_now (hk : l[k]? = some { x with host := p }) (hb : b ∈ vars) (hused : p.used = some b)
    (hstep : hostStep A m h now p = .error (.misuse .dangling)) : Doomed A m ⟨h, l⟩ k now vars := by
  refine ⟨0, ⟨h, l⟩, _, rfl, hk, ⟨b, hb, hused⟩, ?_⟩
  simp only [searchesStep, hk, hstep]
  rfl

theorem doomed_step (hk : l[k]? = some { x with host := p }) (hstep : hostStep A m h now p = .ok (h', p'))
    (hd : ∀ l' : List Search, l'[k]? = some { x with host := p' } → Doomed A m ⟨h', l'⟩ k now vars) :
    Doomed A m ⟨h, l⟩ k now vars := by
  have hlt := (List.getElem?_eq_some_iff.1 hk).1
  obtain ⟨n, s', y, hn, hdoomed⟩ := hd (l.set k { x with host := p' }) (List.getElem?_set_self hlt)
  refine ⟨n + 1, s', y, ?_, hdoomed⟩
  have hev : searchesStep A m ⟨h, l⟩ (.host k now) = .ok ⟨h', l.set k { x with host := p' }⟩ := by
    simp only [searchesStep, hk, hstep, heap_bind]
    rfl
  rw [searchesRun, List.replicate_succ, Transducer.foldlM_cons_ok hev]
  exact hn

theorem doomed_store (hd : Dead h a) (hk : l[k]? = some { x with host := .store args a ret }) :
    Doomed A m ⟨h, l⟩ k now [a.resDest, a.resNum] := by
  refine doomed_now hk (b := a.resNum) (by simp) rfl ?_
  have hwrite : h.write a.resNum (.number ret) = .error .dangling := if_neg hd.num
  rw [hostStep, hwrite]
  rfl

/-- The thread walks on until it has a record to copy, or an answer to write. -/
theorem doomed_walk (hd : Dead h a) (he : cellAs LookupCell.entry? h a.entry = .ok entry)
    (hwalk : ∃ clk res r, hostWalk clk entry i list res = .ok r)
    (hk : l[k]? = some { x with host := .walk args a i list num }) : Doomed A m ⟨h, l⟩ k now [a.resDest, a.resNum] := by
  induction list generalizing i l with
  | nil =>
    have hstep : hostStep A m h now (.walk args a i [] num) = .ok (h, .store args a num) := rfl
    exact doomed_step hk hstep fun l' hl' => doomed_store hd hl'
  | cons temp list ih =>
    obtain ⟨clk, res, r, hr⟩ := hwalk
    obtain ⟨blocked, hb, hcons⟩ := stops_ok hr
    have hstep : hostStep A m h now (.walk args a i (temp :: list) num) =
        if blocked then .ok (h, .store args a (-1))
        else if temp.type = entry.type then .ok (h, .copy args a i temp list num)
        else .ok (h, .walk args a (i + 1) list num) := by
      rw [hostStep, he, heap_bind, stops_lift hb]
      rfl
    cases blocked with
    | true => exact doomed_step hk hstep fun l' hl' => doomed_store hd hl'
    | false =>
      rw [if_neg Bool.false_ne_true] at hstep
      rw [hcons, if_neg Bool.false_ne_true] at hr
      by_cases ht : temp.type = entry.type
      · rw [if_pos ht] at hstep
        refine doomed_step hk hstep fun l' hl' => doomed_now hl' (b := a.resDest) (by simp) rfl ?_
        rw [hostStep, hd.result]
        rfl
      · rw [if_neg ht] at hstep
        exact doomed_step hk hstep fun l' hl' => ih ⟨clk, _, r, hr⟩ hl'

theorem read_dead {β : Type} {sel : LookupCell → Option β} {q : Nat} (hq : q ∉ h.live) :
    cellAs sel h q = .error (.misuse .dangling) := by
  have hread : h.read q = .error .dangling := if_neg hq
  rw [cellAs, hread]
  rfl

theorem dead_of (hdest : a.resDest ∉ h.live) (hnum : a.resNum ∉ h.live) : Dead h a := by
  refine ⟨?_, hnum⟩
  rw [resultArray, read_dead hdest]
  rfl

/-- The new array may be where the variable for its address was. -/
theorem doomed_make (he : cellAs LookupCell.entry? h a.entry = .ok entry) (hdest : a.resDest ∉ h.live)
    (hnum : a.resNum ∉ h.live) (hne : a.resNum ≠ a.resDest)
    (hwalk : ∃ clk res r, hostWalk clk entry 0 list res = .ok r)
    (hk : l[k]? = some { x with host := .make args a list }) : Doomed A m ⟨h, l⟩ k now [a.resDest, a.resNum] := by
  by_cases hp : A.pick h.live = a.resDest
  · have hentry : a.entry ∈ h.live := by
      by_contra hentry
      rw [read_dead hentry] at he
      cases he
    have hae : a.entry ≠ a.resDest := fun heq => hdest (heq ▸ hentry)
    let h₁ : Heap LookupCell := ⟨insert a.resDest h.live, Function.update (Function.update h.val a.resDest
      (.records (List.replicate list.length zeroEntry))) a.resDest (.pointer (some a.resDest))⟩
    have hval : h₁.val a.resDest = .pointer (some a.resDest) := Function.update_self ..
    have hread : h₁.read a.resDest = .ok (.pointer (some a.resDest)) := by
      rw [Heap.read, if_pos (Finset.mem_insert_self ..), hval]
    have hstep : hostStep A m h now (.make args a list) = .ok (h₁, .walk args a 0 list 0) := by
      rw [hostStep, Heap.malloc, hp]
      simp only [Heap.write, Finset.mem_insert_self, if_true, onHeap_ok rfl, heap_bind]
      rfl
    have hd : Dead h₁ a := by
      refine ⟨?_, fun hm => ?_⟩
      · rw [resultArray, cellAs, hread]
        simp only [onHeap_ok rfl, heap_bind, LookupCell.pointer?, pure, Except.pure, deref, lift_ok rfl, cellAs, hread,
          LookupCell.records?]
        rfl
      · exact (Finset.mem_insert.1 hm).elim hne hnum
    have he₁ : cellAs LookupCell.entry? h₁ a.entry = .ok entry := by
      have hsame : h₁.read a.entry = h.read a.entry := by
        rw [Heap.read, Heap.read, if_pos (Finset.mem_insert_of_mem hentry), if_pos hentry]
        exact congrArg _ ((Function.update_of_ne hae ..).trans (Function.update_of_ne hae ..))
      rw [cellAs, hsame]
      exact he
    exact doomed_step hk hstep fun l' hl' => doomed_walk hd he₁ hwalk hl'
  · refine doomed_now hk (b := a.resDest) (by simp) rfl ?_
    have hmem : a.resDest ∉ insert (A.pick h.live) h.live := fun hm =>
      (Finset.mem_insert.1 hm).elim (fun heq => hp heq.symm) hdest
    rw [hostStep, Heap.malloc]
    simp only [Heap.write, if_neg hmem]
    rfl

theorem doomed_askHash (hm : m.Returns) (hname : entry.domainName.isSome = true)
    (he : cellAs LookupCell.entry? h a.entry = .ok entry) (hdest : a.resDest ∉ h.live) (hnum : a.resNum ∉ h.live)
    (hne : a.resNum ≠ a.resDest) (hk : l[k]? = some { x with host := .askHash args a }) :
    Doomed A m ⟨h, l⟩ k now [a.resDest, a.resNum] := by
  obtain ⟨name, hn⟩ := Option.isSome_iff_exists.1 hname
  rcases hostQuery_cases hm hn with ⟨hhash, -⟩ | ⟨head, list, hhash, hlist, -, hq⟩
  · have hstep : hostStep A m h now (.askHash args a) = .ok (h, .store args a 0) := by
      rw [hostStep, he]
      simp only [heap_bind, hn, deref, lift_ok rfl, hhash]
      rfl
    exact doomed_step hk hstep fun l' hl' => doomed_store (dead_of hdest hnum) hl'
  · have hstep : hostStep A m h now (.askHash args a) = .ok (h, .make args a list) := by
      rw [hostStep, he]
      simp only [heap_bind, hn, deref, lift_ok rfl, hhash, hlist]
      rfl
    obtain ⟨r, hr⟩ := hm (fun _ => 0) entry hname
    rw [hq] at hr
    exact doomed_step hk hstep fun l' hl' => doomed_make he hdest hnum hne ⟨_, _, r, hr⟩ hl'

/-- The thread of a search whose variables are gone. -/
theorem HostPoint.Holds.doomed {arr : Option Nat} {own : List Nat} {v : Vars} (hm : m.Returns)
    (hname : entry.domainName.isSome = true) (hp : p.Holds m h entry v arr own) (hw : p.written = false)
    (hown : ∀ b ∈ own, b ∈ h.live) (hres : v.resHost ∉ h.live) (hret : v.retHost ∉ h.live) (hne : v.retHost ≠ v.resHost)
    (hk : l[k]? = some { x with host := p }) : Doomed A m ⟨h, l⟩ k now [v.resHost, v.retHost] := by
  have hgone : ∀ {args a}, Working h entry v arr own args a → cellAs LookupCell.args? h args = .ok a ∧
      cellAs LookupCell.entry? h a.entry = .ok entry ∧ a.resDest ∉ h.live ∧ a.resNum ∉ h.live ∧
      a.resNum ≠ a.resDest ∧ [a.resDest, a.resNum] = [v.resHost, v.retHost] := by
    rintro args a ⟨rfl, hargs, hentry, hdest, hnum, -⟩
    have hread : ∀ {β : Type} {sel : LookupCell → Option β} {q : Nat} {b : β}, q ∈ [args, a.entry] →
        sel (h.val q) = some b → cellAs sel h q = .ok b := by
      intro β sel q b hq hb
      rw [cellAs, Heap.read, if_pos (hown q hq), onHeap_ok rfl, heap_bind, hb]
      rfl
    rw [hdest, hnum]
    exact ⟨hread (by simp) (by rw [hargs]; rfl), hread (by simp) (by rw [hentry]; rfl), hres, hret, hne, rfl⟩
  cases p with
  | idle => exact hp.elim
  | begin args =>
    obtain ⟨-, a, hwork⟩ := hp
    obtain ⟨hargs, he, hdest, hnum, hne, hvars⟩ := hgone hwork
    rw [← hvars]
    have hstep : hostStep A m h now (.begin args) = .ok (h, .askHash args a) := by
      rw [hostStep, hargs]
      rfl
    exact doomed_step hk hstep fun l' hl' => doomed_askHash hm hname he hdest hnum hne hl'
  | askHash args a =>
    obtain ⟨-, he, hdest, hnum, hne, hvars⟩ := hgone hp.2
    rw [← hvars]
    exact doomed_askHash hm hname he hdest hnum hne hk
  | make args a list =>
    obtain ⟨-, hwork, -, hreach⟩ := hp
    obtain ⟨-, he, hdest, hnum, hne, hvars⟩ := hgone hwork
    rw [← hvars]
    obtain ⟨clk, r, -, hr⟩ := hreach.ok hm hname
    exact doomed_make he hdest hnum hne ⟨clk, _, r, hr⟩ hk
  | walk args a i list num =>
    obtain ⟨hwork, -, res, -, -, hreach⟩ := hp
    obtain ⟨-, he, hdest, hnum, -, hvars⟩ := hgone hwork
    rw [← hvars]
    obtain ⟨clk, r, -, hr⟩ := hreach.ok hm hname
    exact doomed_walk (dead_of hdest hnum) he ⟨clk, res, r, hr⟩ hk
  | copy args a i temp list num =>
    obtain ⟨-, -, hdest, hnum, -, hvars⟩ := hgone hp.1
    rw [← hvars]
    refine doomed_now hk (b := a.resDest) (by simp) rfl ?_
    rw [hostStep, (dead_of hdest hnum).result]
    rfl
  | stamp args a i list num =>
    obtain ⟨-, -, hdest, hnum, -, hvars⟩ := hgone hp.1
    rw [← hvars]
    refine doomed_now hk (b := a.resDest) (by simp) rfl ?_
    rw [hostStep, (dead_of hdest hnum).result]
    rfl
  | store args a ret =>
    obtain ⟨-, -, hdest, hnum, -, hvars⟩ := hgone hp.1
    rw [← hvars]
    exact doomed_store (dead_of hdest hnum) hk
  | clean args a => cases hw
  | done => cases hw

end

theorem SearchState.Inv.early {A : Allocator} {m : HostMap} {heap : Heap LookupCell} {s : SearchState} (hm : m.Returns)
    (h : Inv m heap s) {k : Nat} {x : Search} (hk : s.searches[k]? = some x) {v : Vars} {result : Option Nat}
    {ret : Int} {cached : Bool} (hmain : x.main = .leave v result ret cached) (hearly : x.host.written = false)
    (found : List DNSEntry) (now : Nat) : cached = true ∧ (∃ r rs, x.found = some (r :: rs)) ∧
      ∃ s', searchesStep A m s (.main k found) = .ok s' ∧ v.resHost ∉ s'.heap.live ∧ v.retHost ∉ s'.heap.live ∧
        Doomed A m s' k now [v.resHost, v.retHost] := by
  obtain ⟨own, others, ⟨hname, hrep⟩, ho, -⟩ := h.focus hk
  rw [hmain] at hrep
  cases cached with
  | false =>
    obtain ⟨-, hdone, -⟩ := hrep
    rw [hdone] at hearly
    cases hearly
  | true =>
    obtain ⟨p, rfl, ⟨arr, hown, rfl, hp⟩, found₀, hfound, hne, -⟩ := hrep
    obtain ⟨h', hstep, ho', hval⟩ := leave_ok A x found true hmain ho
    have hnd := ho.nodup
    simp only [List.cons_append, List.nil_append, List.append_assoc, List.nodup_cons, List.mem_cons, List.mem_append,
      not_or] at hnd
    obtain ⟨⟨hrr, -, hrf, hrp, hra, hrh, hro⟩, ⟨-, htf, htp, hta, hth, hto⟩, -⟩ := hnd
    have hlive : ∀ b, b ∈ h'.live ↔ b = v.hostFlag ∨ b = p ∨ b ∈ arr.toList ∨ b ∈ hown ∨ b ∈ others := by
      intro b
      rw [ho'.live_iff]
      simp
    obtain ⟨r, rs, rfl⟩ := List.exists_cons_of_ne_nil hne
    have hres : v.resHost ∉ h'.live := by
      rw [hlive]
      simp_all
    have hret : v.retHost ∉ h'.live := by
      rw [hlive]
      simp_all
    refine ⟨rfl, ⟨r, rs, hfound⟩, ⟨h', s.searches.set k { x with main := .take (some p) ret true }⟩, ?_, hres, hret, ?_⟩
    · simp only [searchesStep, hk, hstep, heap_bind]
      rfl
    · exact HostPoint.Holds.doomed (x := { x with main := .take (some p) ret true }) hm hname
        (hp.congr (fun b _ => by rw [hval]) (fun b _ => by rw [hval]) (by rw [hval]) (by rw [hval])) hearly
        (fun b hb => (hlive b).2 (by simp [hb])) hres hret (fun he => hrr he.symm)
        (List.getElem?_set_self (List.getElem?_eq_some_iff.1 hk).1)

/-- The condition on the schedules of `searches_answer` cannot be given up. The first event of a run that is not in
time is the return of a search to which the cache had an answer, and the thread of this search, left alone, will use
`res_host` or `ret_host` of this call, which are gone. -/
theorem early_return_faults (A : Allocator) {m : HostMap} {lines : List HostLine} (hhost : Hosts (some m) lines)
    (heap : Heap LookupCell) (es : List SearchEvent) (hes : timely A m ⟨heap, []⟩ es = true) {s : SearchState}
    (hrun : searchesRun A m ⟨heap, []⟩ es = .ok s) (e : SearchEvent) (he : timelyEvent s e = false) (now : Nat) :
    ∃ k found x v result ret s', e = .main k found ∧ s.searches[k]? = some x ∧ (∃ r rs, x.found = some (r :: rs)) ∧
      x.main = .leave v result ret true ∧ searchesStep A m s e = .ok s' ∧ v.resHost ∉ s'.heap.live ∧
      v.retHost ∉ s'.heap.live ∧ Doomed A m s' k now [v.resHost, v.retHost] := by
  have hm := Hosts.returns hhost
  obtain ⟨s₁, hrun₁, h⟩ := (SearchState.Inv.init m heap).run hm hes
  cases hrun.symm.trans hrun₁
  unfold timelyEvent at he
  split at he
  · rename_i k found
    split at he
    · rename_i entry found₀ v result ret cached host hk
      obtain ⟨rfl, hfound, s', hstep, hgone⟩ := h.early hm hk rfl he found now
      exact ⟨k, found, _, v, result, ret, s', rfl, hk, hfound, rfl, hstep, hgone⟩
    · cases he
  · cases he

theorem early_return_faults_late : ∃ s s', ∃ v : Vars,
    searchesRun .bump sampleTable ⟨noCells, []⟩ cachedFirst = .ok s ∧
    searchesStep .bump sampleTable s (.main 0 []) = .ok s' ∧
    Doomed .bump sampleTable s' 0 5 [v.resHost, v.retHost] := by
  have hes : timely .bump sampleTable ⟨noCells, []⟩ cachedFirst = true := by decide +kernel
  have hlate : (searchesRun .bump sampleTable ⟨noCells, []⟩ cachedFirst).toOption.map
      (fun s => timelyEvent s (.main 0 [])) = some false := by decide +kernel
  obtain ⟨s, hrun, -⟩ := (SearchState.Inv.init sampleTable noCells).run sampleTable_hosts.returns hes
  rw [hrun] at hlate
  obtain ⟨k, found, x, v, result, ret, s', he, -, -, -, hstep, -, -, hd⟩ :=
    early_return_faults .bump sampleTable_hosts noCells cachedFirst hes hrun (.main 0 []) (Option.some.inj hlate) 5
  cases he
  exact ⟨s, s', v, hrun, hstep, hd⟩

/-- With the addresses that were just released, the second search has its variables where those of the first one were.
It asks for a name that is not in the table, and comes to the address of the first. -/
example : (searchesRun .least sampleTable ⟨noCells, []⟩ lateThread).toOption.map SearchState.ips =
    some [[some [57]], [some [49]]] := by decide +kernel

end DnsRelay
