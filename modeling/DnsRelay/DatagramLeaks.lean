import DnsRelay.DatagramMemory
import DnsRelay.DecodedRecords
import DnsRelay.Response

/-!
# What the datagrams leave on the heap

Of its packet a response leaves nothing. A request leaves the answers that it came with, and if it is not answered
those that were found for its first questions; and each thread closes a socket in a block that it has released. What
`urlStore` and `qnameSearch` get and leave is not on this heap: `CacheHeap` counts it for the cache, and `LookupThreads`
for the searches.
-/

namespace DnsRelay
open Alloc PacketHeap

variable {σ : Type}

/-! ### Counting blocks -/

/-- How many blocks a thread holds. -/
def Stage.blocks : Stage Unit Packet → Nat
  | received _ => 1
  | parsed _ p | stored _ p | queried _ p _ | sent _ p => 1 + blockCount p
  | released _ | closed => 0

/-- How many blocks are in use because of a thread. -/
def Worker.blocks (w : Worker σ) : Nat := w.stage.blocks + w.left

theorem StageAt.length {h : PacketHeap σ} {d : Datagram σ} {own : List Nat} {st : Stage Unit Packet}
    {st' : Stage Nat Nat} (hs : StageAt h d own st st') : own.length = st.blocks := by
  rcases st with _ | _ | _ | _ | _ | _ | _ <;> rcases st' with _ | _ | _ | _ | _ | _ | _ <;> try exact hs.elim
  · rw [hs.1]
    rfl
  · obtain ⟨x, rfl, -, hp, -⟩ := hs
    rw [List.length_cons, hp.length, Nat.add_comm]
    rfl
  · obtain ⟨x, rfl, -, hp, -⟩ := hs
    rw [List.length_cons, hp.length, Nat.add_comm]
    rfl
  · obtain ⟨-, x, rfl, -, hp, -⟩ := hs
    rw [List.length_cons, hp.length, Nat.add_comm]
    rfl
  · obtain ⟨x, rfl, hp⟩ := hs
    rw [List.length_cons, hp.length, Nat.add_comm]
    rfl
  · rw [show own = [] from hs]
    rfl
  · rw [show own = [] from hs]
    rfl

theorem WorkerAt.length {h : PacketHeap σ} {own : List Nat} {t : Worker σ × PtrWorker σ} (hw : WorkerAt h own t) :
    own.length = t.1.blocks := by
  obtain ⟨-, -, held, lost, rfl, hlost, hs⟩ := hw
  rw [List.length_append, hs.length, hlost]
  rfl

/-! ### What a thread leaves -/

/-- In this run the thread `k` has parsed the request `p`, and `urlQuery`, with the cache of that moment, came to
`r`. -/
def Workers.Searched (cfg : Config) (s : Server σ) (es : List (WorkEvent σ)) (k : Nat) (d : Datagram σ) (p : Packet)
    (r : Int × Packet × LRUCache) : Prop :=
  ∃ pre post v, es = pre ++ .work k :: post ∧ Workers.run cfg ⟨s, []⟩ pre = .ok v ∧
    v.threads[k]?.map (fun w => (w.datagram, w.stage)) = some (d, .parsed () p) ∧
    urlQuery cfg.capacity cfg.host d.clk d.stale p v.server.cache = .ok r

/-- What the thread `k` leaves of its packet when it is done: nothing of a response; of a request the answers that it
came with, and those that were found before its search ended without an answer. -/
def Lost (cfg : Config) (s : Server σ) (es : List (WorkEvent σ)) (k : Nat) (d : Datagram σ) (left : Nat) : Prop :=
  ∃ p, packetParse cfg.libc d.stale d.buf d.len = .ok p ∧
    (getQr p.flags = 1 ∧ left = 0 ∨ getQr p.flags ≠ 1 ∧ ∃ ret p' c', Workers.Searched cfg s es k d p (ret, p', c') ∧
      left = dropped p + (p'.ans.length - p'.ancount.toNat))

/-- What is known of the thread `k` on its way. -/
def Worker.Traced (cfg : Config) (s : Server σ) (es : List (WorkEvent σ)) (k : Nat) (w : Worker σ) : Prop :=
  match w.stage with
  | .received _ => w.left = 0
  | .parsed _ p => packetParse cfg.libc w.datagram.stale w.datagram.buf w.datagram.len = .ok p ∧ w.left = 0
  | .stored _ p => packetParse cfg.libc w.datagram.stale w.datagram.buf w.datagram.len = .ok p ∧ getQr p.flags = 1 ∧
    w.left = 0
  | .queried _ p' ret => ∃ p c', packetParse cfg.libc w.datagram.stale w.datagram.buf w.datagram.len = .ok p ∧
    getQr p.flags ≠ 1 ∧ Workers.Searched cfg s es k w.datagram p (ret, p', c') ∧ w.left = dropped p
  | .sent _ p => Lost cfg s es k w.datagram (w.left + (p.ans.length - p.ancount.toNat))
  | .released _ | .closed => Lost cfg s es k w.datagram w.left

section Append
variable {cfg : Config} {s : Server σ} {es : List (WorkEvent σ)} {k : Nat} {d : Datagram σ}

theorem Workers.Searched.append {p : Packet} {r : Int × Packet × LRUCache} (h : Workers.Searched cfg s es k d p r)
    (es' : List (WorkEvent σ)) : Workers.Searched cfg s (es ++ es') k d p r := by
  obtain ⟨pre, post, v, rfl, hv⟩ := h
  exact ⟨pre, post ++ es', v, by rw [List.append_assoc]; rfl, hv⟩

theorem Lost.append {left : Nat} (h : Lost cfg s es k d left) (es' : List (WorkEvent σ)) :
    Lost cfg s (es ++ es') k d left := by
  obtain ⟨p, hp, hqr | ⟨hqr, ret, p', c', hs, hleft⟩⟩ := h
  · exact ⟨p, hp, .inl hqr⟩
  · exact ⟨p, hp, .inr ⟨hqr, ret, p', c', hs.append es', hleft⟩⟩

theorem Worker.Traced.append {w : Worker σ} (h : w.Traced cfg s es k) (es' : List (WorkEvent σ)) :
    w.Traced cfg s (es ++ es') k := by
  obtain ⟨d, stage, out, left⟩ := w
  cases stage with
  | received | parsed | stored => exact h
  | queried =>
    obtain ⟨p, c', hp, hqr, hs, hleft⟩ := h
    exact ⟨p, c', hp, hqr, hs.append es', hleft⟩
  | sent | released | closed => exact Lost.append h es'

end Append

theorem packetParse_count {C : Libc} {st : Stale} {buf : List UInt8} {len : Nat} {p : Packet}
    (hp : packetParse C st buf len = .ok p) : p.ans.length = p.ancount.toNat := by
  obtain ⟨mid, stop, hparsed⟩ := packetParse_parsed hp
  exact parseAnswers_length hparsed.ans

theorem responseFormat_count {C : Libc} {st : Stale} {src : Packet} {r : Response}
    (hr : responseFormat C st src = .ok r) :
    (r.src.ans ++ src.ans.drop src.ancount.toNat).length = src.ans.length := by
  obtain ⟨names, hnames, hr⟩ := Exec.bind_ok.1 hr
  obtain ⟨⟨ans, len⟩, hans, hr⟩ := Exec.bind_ok.1 hr
  obtain ⟨b₁, -, hr⟩ := Exec.bind_ok.1 hr
  obtain ⟨b₂, -, hr⟩ := Exec.bind_ok.1 hr
  obtain ⟨b₃, -, hr⟩ := Exec.bind_ok.1 hr
  obtain ⟨b₄, -, hr⟩ := Exec.bind_ok.1 hr
  cases hr
  have hlen := (formatAnswers_ok hans).1.length_eq
  rw [List.length_zip, namePointers_length hnames, Nat.min_self, List.length_take] at hlen
  rw [List.length_append, List.length_drop, ← hlen]
  omega

section Leaks
variable {cfg : Config} {s : Server σ} {v v' : Workers σ} {es : List (WorkEvent σ)} {k : Nat} {w : Worker σ}

theorem Workers.run_snoc (hrun : Workers.run cfg v es = .ok v') (e : WorkEvent σ) :
    Workers.run cfg v (es ++ [e]) = Workers.step cfg v' e := by
  unfold Workers.run at hrun ⊢
  rw [List.foldlM_append, hrun]
  show List.foldlM (Workers.step cfg) v' [e] = _
  rw [List.foldlM_cons]
  cases Workers.step cfg v' e <;> rfl

/-- The next step of the thread `k`, in the state that the run has come to. -/
theorem Worker.Traced.step {s' : Server σ} {w' : Worker σ} (ht : w.Traced cfg s es k)
    (hrun : Workers.run cfg ⟨s, []⟩ es = .ok v) (hk : v.threads[k]? = some w)
    (hstep : w.step cfg v.server = .ok (s', w')) : w'.Traced cfg s (es ++ [.work k]) k := by
  replace ht := ht.append [.work k]
  obtain ⟨d, stage, out, left⟩ := w
  unfold Worker.step at hstep
  cases stage with
  | received =>
    obtain ⟨p, hp, hstep⟩ := Exec.bind_ok.1 hstep
    cases hstep
    exact ⟨hp, ht⟩
  | parsed _ p =>
    obtain ⟨hp, h0⟩ := ht
    change left = 0 at h0
    dsimp only at hstep
    split at hstep
    · rename_i hqr
      obtain ⟨cache, -, hstep⟩ := Exec.bind_ok.1 hstep
      cases hstep
      exact ⟨hp, hqr, h0⟩
    · rename_i hqr
      obtain ⟨⟨ret, p', c'⟩, hq, hstep⟩ := Exec.bind_ok.1 hstep
      cases hstep
      refine ⟨p, c', hp, hqr, ⟨es, [], v, rfl, hrun, by rw [hk]; rfl, hq⟩, ?_⟩
      rw [h0, Nat.zero_add]
  | stored _ p =>
    obtain ⟨hp, hqr, h0⟩ := ht
    change left = 0 at h0
    cases hstep
    refine ⟨p, hp, .inl ⟨hqr, ?_⟩⟩
    rw [h0, packetParse_count hp, Nat.sub_self]
  | queried _ p' ret =>
    obtain ⟨p, c', hp, hqr, hs, hleft⟩ := ht
    change left = dropped p at hleft
    dsimp only at hstep
    split at hstep
    · cases hstep
      exact ⟨p, hp, .inr ⟨hqr, ret, p', c', hs, by rw [hleft]⟩⟩
    · obtain ⟨r, hr, hstep⟩ := Exec.bind_ok.1 hstep
      cases hstep
      refine ⟨p, hp, .inr ⟨hqr, ret, p', c', hs, ?_⟩⟩
      dsimp only
      rw [hleft, responseFormat_count hr]
  | sent => cases hstep; exact ht
  | released => cases hstep; exact ht
  | closed => cases hstep; exact ht

theorem Workers.run_traced (hrun : Workers.run cfg ⟨s, []⟩ es = .ok v) (hk : v.threads[k]? = some w) :
    w.Traced cfg s es k := by
  induction es using List.reverseRecOn generalizing v k w with
  | nil =>
    cases hrun
    cases hk
  | append_singleton es e ih =>
    cases hrun₁ : Workers.run cfg ⟨s, []⟩ es with
    | error f =>
      unfold Workers.run at hrun hrun₁
      rw [List.foldlM_append, hrun₁] at hrun
      cases hrun
    | ok v₁ =>
      rw [Workers.run_snoc hrun₁] at hrun
      have hold (hk : v₁.threads[k]? = some w) : w.Traced cfg s (es ++ [e]) k := (ih hrun₁ hk).append [e]
      cases e with
      | receive d =>
        cases hrun
        by_cases hlt : k < v₁.threads.length
        · exact hold ((List.getElem?_append_left hlt).symm.trans hk)
        · rw [List.getElem?_append_right (not_lt.1 hlt)] at hk
          obtain rfl := List.mem_singleton.1 (List.mem_of_getElem? hk)
          rfl
      | fail a =>
        cases hrun
        exact hold hk
      | work i =>
        unfold Workers.step at hrun
        dsimp only at hrun
        rcases hi : v₁.threads[i]? with _ | x <;> rw [hi] at hrun
        · cases hrun
          exact hold hk
        · obtain ⟨⟨s', x'⟩, hx, hrun⟩ := Exec.bind_ok.1 hrun
          cases hrun
          rcases Decidable.em (i = k) with rfl | hne
          · rw [List.getElem?_set_self (List.getElem?_eq_some_iff.1 hi).1] at hk
            cases hk
            exact (ih hrun₁ hi).step hrun₁ hi hx
          · rw [List.getElem?_set_ne hne] at hk
            exact hold hk
      | scan clk =>
        obtain ⟨r, -, hrun⟩ := Exec.bind_ok.1 hrun
        cases hrun
        exact hold hk

/-- How many blocks of packets, answers and arguments are in use in every run, and what is left of the packet of each
datagram whose thread is done. -/
theorem datagram_blocks (hrun : Workers.run cfg ⟨s, []⟩ es = .ok v) (A : Allocator) (h : PacketHeap σ) :
    ∃ w, PtrWorkers.run A cfg ⟨h, s, []⟩ es = .ok w ∧
      w.heap.live.card = h.live.card + (v.threads.map Worker.blocks).sum ∧
      ∀ (k : Nat) (x : Worker σ), v.threads[k]? = some x → x.stage.over = true →
        x.blocks = x.left ∧ Lost cfg s es k x.datagram x.left := by
  obtain ⟨w, hw, -, ⟨parts, hparts, -, hshares⟩, -⟩ := (workers_run h s A cfg es).of_ok hrun
  refine ⟨w, hw, ?_, fun k x hx hover => ?_⟩
  · rw [hshares.card (fun t => t.1.blocks) fun t _ own ht => ht.length, Finset.length_toList, hparts, List.map_map,
      Nat.add_comm]
    rfl
  · have ht := Workers.run_traced hrun hx
    obtain ⟨d, stage, out, left⟩ := x
    cases stage with
    | closed => exact ⟨Nat.zero_add _, ht⟩
    | _ => cases hover

end Leaks

/-- A request for the address of the one letter name `a` that comes with an answer. -/
def answeredRequest : List UInt8 :=
  Header.encode ⟨0x1234, 0x100, 1, 1, 0, 0⟩ ++ questBytes [questFor typeA 97] ++
    WireRecord.encode ⟨[0xc0, 12], typeA, 1, 60, [6, 6, 6, 6]⟩

/-- The request from the client 5, and the response from upstream, whose thread runs in turns with that of the
request. -/
def twoDatagrams : List (WorkEvent Nat) :=
  [.receive (.at 5 answeredRequest 100 (by decide)), .receive (.response 1 97 101)] ++
    (List.replicate 5 [.work 0, .work 1]).flatten

theorem datagram_blocks_two : ∃ v w, Workers.run smallConfig ⟨.zeroed, []⟩ twoDatagrams = .ok v ∧
    PtrWorkers.run .least smallConfig ⟨noPackets, .zeroed, []⟩ twoDatagrams = .ok w ∧ w.heap.live.card = 2 ∧
      v.threads.map Worker.left = [2, 0] := by
  have hdone : (Workers.run smallConfig ⟨.zeroed, []⟩ twoDatagrams).toOption.map (fun v =>
      (v.threads.map Worker.left, (v.threads.map Worker.blocks).sum)) = some ([2, 0], 2) := by decide +kernel
  rcases hrun : Workers.run smallConfig ⟨.zeroed, []⟩ twoDatagrams with e | v
  · rw [hrun] at hdone
    cases hdone
  obtain ⟨w, hw, hcard, -⟩ := datagram_blocks hrun .least noPackets
  rw [hrun] at hdone
  obtain ⟨hleft, hsum⟩ : v.threads.map Worker.left = [2, 0] ∧ (v.threads.map Worker.blocks).sum = 2 := by
    simpa only [Except.toOption, Option.map_some, Option.some.injEq, Prod.mk.injEq] using hdone
  refine ⟨v, w, rfl, hw, ?_, hleft⟩
  rw [hcard, hsum]
  rfl

/-! ### The socket of a thread -/

section Socket
variable {A : Allocator} {cfg : Config} {s : Server σ} {h : PacketHeap σ} {w : PtrWorkers σ} {es : List (WorkEvent σ)}
  {k args p : Nat} {d : Datagram σ} {out : Option (Output σ)} {socket : Option (Except Misuse (PacketCell σ))}

/-- Releasing the packet and the arguments of a thread goes through; the arguments are not in use then. -/
theorem release_ok (hrun : PtrWorkers.run A cfg ⟨h, s, []⟩ es = .ok w)
    (hk : w.threads[k]? = some ⟨d, .sent args p, out, socket⟩) :
    ∃ h', PtrWorkers.step A cfg w (.work k) =
      .ok ⟨h', w.server, w.threads.set k ⟨d, .released args, out, socket⟩⟩ ∧ args ∉ h'.live := by
  obtain ⟨v, -, -, ⟨parts, -, hparts, hshares⟩, -⟩ := (workers_run h s A cfg es).ok_of hrun
  have hk' := hk
  rw [hparts, List.getElem?_map, Option.map_eq_some_iff] at hk'
  obtain ⟨⟨⟨d', stage, out', left⟩, x⟩, hpart, rfl⟩ := hk'
  obtain ⟨own, others, ⟨-, -, held, lost, rfl, -, hs⟩, ho, -, -⟩ := hshares.focus WorkerAt.footprint hpart
  cases stage with
  | sent _ q =>
    obtain ⟨y, rfl, hp⟩ := hs
    rw [List.append_assoc] at ho
    obtain ⟨h₁, gone, hf, ho₁, -, -⟩ := packetFree_ok hp (ho.perm List.perm_middle.symm)
    obtain ⟨hf₂, ho₂⟩ := (ho₁.perm List.perm_middle).free
    refine ⟨{ h₁ with live := h₁.live.erase args }, ?_, Finset.notMem_erase args _⟩
    unfold PtrWorkers.step
    dsimp only
    rw [hk]
    simp only [PtrWorker.step, hf, heap_bind, onHeap_ok hf₂]
    rfl
  | _ => exact hs.elim

/-- A thread that is left alone after it has sent its answer closes a socket in a block that it has released. -/
theorem socket_after_free (hrun : PtrWorkers.run A cfg ⟨h, s, []⟩ es = .ok w)
    (hk : w.threads[k]? = some ⟨d, .sent args p, out, socket⟩) :
    ∃ w', PtrWorkers.run A cfg ⟨h, s, []⟩ (es ++ [.work k, .work k]) = .ok w' ∧
      w'.threads[k]? = some ⟨d, .closed, out, some (.error .dangling)⟩ := by
  obtain ⟨h', hstep, hfree⟩ := release_ok hrun hk
  have hlt : k < w.threads.length := (List.getElem?_eq_some_iff.1 hk).1
  have hset : (w.threads.set k ⟨d, .released args, out, socket⟩)[k]? = some ⟨d, .released args, out, socket⟩ := by
    rw [List.getElem?_set_self hlt]
  refine ⟨⟨h', w.server, (w.threads.set k ⟨d, .released args, out, socket⟩).set k
    ⟨d, .closed, out, some (.error .dangling)⟩⟩, ?_, ?_⟩
  · unfold PtrWorkers.run at hrun ⊢
    rw [List.foldlM_append, hrun, heap_bind, List.foldlM_cons, hstep, heap_bind, List.foldlM_cons]
    unfold PtrWorkers.step
    dsimp only
    rw [hset]
    simp only [PtrWorker.step, heap_bind, Heap.read, if_neg hfree]
    rfl
  · rw [List.getElem?_set_self (by rw [List.length_set]; exact hlt)]

end Socket

/-- A response whose thread has sent what there is to send. -/
def oneSent : List (WorkEvent Nat) := [.receive (.response 1 97 101), .work 0, .work 0, .work 0]

theorem socket_after_free_one : ∃ w, PtrWorkers.run .least smallConfig ⟨noPackets, .zeroed, []⟩
    (oneSent ++ [.work 0, .work 0]) = .ok w ∧ w.threads[0]?.map PtrWorker.socket = some (some (.error .dangling)) := by
  have hdone : (PtrWorkers.run .least smallConfig ⟨noPackets, .zeroed, []⟩ oneSent).toOption.bind (fun w =>
      w.threads[0]?.map fun t => t.stage.sent?) = some (some (0, 1)) := by decide +kernel
  rcases hrun : PtrWorkers.run .least smallConfig ⟨noPackets, .zeroed, []⟩ oneSent with e | w
  · rw [hrun] at hdone
    cases hdone
  rw [hrun] at hdone
  obtain ⟨⟨d, stage, out, socket⟩, hk, hsent⟩ := Option.map_eq_some_iff.1 hdone
  cases Stage.sent?_eq hsent
  obtain ⟨w', hw, hsocket⟩ := socket_after_free hrun hk
  exact ⟨w', hw, by rw [hsocket]; rfl⟩

-- The thread of another datagram has the block by then: its socket is the one that is closed.
example : (PtrWorkers.run .least smallConfig ⟨noPackets, .zeroed, []⟩
    (oneSent ++ [.work 0, .receive (.request typeA 98 102), .work 0])).toOption.bind (fun w =>
      w.threads[0]?.bind fun t => t.socket.bind fun c => c.toOption.bind fun c => c.args?.map ThreadArgs.addr) =
    some 5 := by decide +kernel

end DnsRelay
