import DnsRelay.DatagramThreads
import DnsRelay.PacketReply
import DnsRelay.Lib.Parts

/-!
# What the threads of the datagrams do to the heap

In every interleaving the threads on the heap do what the threads with values do: no block is read or written that is
not in use, none is released twice, and each thread keeps to its own blocks. What stays in use when all threads are
done are the blocks that `urlQuery` and `packetFree` leave.
-/

namespace DnsRelay
open Alloc PacketHeap

variable {σ : Type}

/-- The thread holds its arguments and a packet that points to them. -/
def HoldsPacket (h : PacketHeap σ) (d : Datagram σ) (own : List Nat) (p : Packet) (args a : Nat) : Prop :=
  ∃ x : PacketPtrs, own = args :: x.blocks a ∧ h.val args = .args ⟨d.buf, d.len, d.addr⟩ ∧ PacketAt h args a x p ∧
    p.reqBuf = d.buf ∧ p.bufLen = d.len

/-- What a thread holds. When its answer is sent nobody looks at the datagram any more. -/
def StageAt (h : PacketHeap σ) (d : Datagram σ) (own : List Nat) : Stage Unit Packet → Stage Nat Nat → Prop
  | .received _, .received args => own = [args] ∧ h.val args = .args ⟨d.buf, d.len, d.addr⟩
  | .parsed _ p, .parsed args a => HoldsPacket h d own p args a
  | .stored _ p, .stored args a => HoldsPacket h d own p args a
  | .queried _ p ret, .queried args a ret' => ret' = ret ∧ HoldsPacket h d own p args a
  | .sent _ p, .sent args a => ∃ x : PacketPtrs, own = args :: x.blocks a ∧ PacketAt h args a x p
  | .released _, .released _ => own = []
  | .closed, .closed => own = []
  | _, _ => False

/-- The blocks of a thread: those that it holds, and those that it has lost. -/
def WorkerAt (h : PacketHeap σ) (own : List Nat) (t : Worker σ × PtrWorker σ) : Prop :=
  t.2.datagram = t.1.datagram ∧ t.2.out = t.1.out ∧ ∃ held lost, own = held ++ lost ∧ lost.length = t.1.left ∧
    StageAt h t.1.datagram held t.1.stage t.2.stage

section Frame
variable {h h' : PacketHeap σ} {d : Datagram σ} {own : List Nat} {p : Packet} {args a : Nat}

theorem HoldsPacket.congr (hp : HoldsPacket h d own p args a) (hk : ∀ b ∈ own, h'.val b = h.val b) :
    HoldsPacket h' d own p args a := by
  obtain ⟨x, rfl, hargs, hp, hbuf⟩ := hp
  exact ⟨x, rfl, by rw [hk args List.mem_cons_self, hargs], hp.congr fun b hb => hk b (List.mem_cons_of_mem _ hb), hbuf⟩

theorem StageAt.congr {st : Stage Unit Packet} {st' : Stage Nat Nat} (hs : StageAt h d own st st')
    (hk : ∀ b ∈ own, h'.val b = h.val b) : StageAt h' d own st st' := by
  rcases st with _ | _ | _ | _ | _ | _ | _ <;> rcases st' with _ | _ | _ | _ | _ | _ | _ <;> try exact hs.elim
  · obtain ⟨rfl, hargs⟩ := hs
    exact ⟨rfl, by rw [hk _ List.mem_cons_self, hargs]⟩
  · exact HoldsPacket.congr hs hk
  · exact HoldsPacket.congr hs hk
  · exact ⟨hs.1, hs.2.congr hk⟩
  · obtain ⟨x, rfl, hp⟩ := hs
    exact ⟨x, rfl, hp.congr fun b hb => hk b (List.mem_cons_of_mem _ hb)⟩
  · exact hs
  · exact hs

theorem WorkerAt.footprint : Footprint (WorkerAt (σ := σ)) := by
  rintro h h' own ⟨w, w'⟩ hk ⟨hd, hout, held, lost, rfl, hlost, hs⟩
  exact ⟨hd, hout, held, lost, rfl, hlost, hs.congr fun b hb => hk b (List.mem_append_left _ hb)⟩

end Frame

/-! ### One step of one thread -/

section Steps
variable {h h' : PacketHeap σ} {d : Datagram σ} {held lost others : List Nat} {p : Packet} {args a left : Nat}
  {out : Option (Output σ)} {socket : Option (Except Misuse (PacketCell σ))} {A : Allocator} {cfg : Config}
  {s : Server σ} {st : Stage Unit Packet} {st' : Stage Nat Nat}

/-- The thread and the server are where those with values are, and the other blocks are as they were. -/
def Steps (h : PacketHeap σ) (others : List Nat) (v : Server σ × Worker σ)
    (r : Server σ × PacketHeap σ × PtrWorker σ) : Prop :=
  r.1 = v.1 ∧ Leaves WorkerAt h r.2.1 (v.2, r.2.2) others

variable (held lost) in
theorem Steps.intro (hs : StageAt h' d held st st') (ho : Owns h' (held ++ (lost ++ others)))
    (hlost : lost.length = left) (hk : ∀ b ∈ others, h'.val b = h.val b) :
    Steps h others (s, ⟨d, st, out, left⟩) (s, h', ⟨d, st', out, socket⟩) :=
  ⟨rfl, ⟨held ++ lost, ⟨rfl, rfl, held, lost, rfl, hlost, hs⟩, by rwa [List.append_assoc]⟩, hk⟩

theorem packet_first {x : PacketPtrs} (ho : Owns h ((args :: x.blocks a) ++ (lost ++ others))) :
    Owns h (x.blocks a ++ (args :: (lost ++ others))) :=
  ho.perm List.perm_middle.symm

theorem received_step (hs : held = [args] ∧ h.val args = .args ⟨d.buf, d.len, d.addr⟩)
    (ho : Owns h (held ++ (lost ++ others))) (hlost : lost.length = left) :
    Tracks HeapFault.fault (Steps h others) (Worker.step cfg s ⟨d, .received (), out, left⟩)
      (PtrWorker.step A cfg s h ⟨d, .received args, out, socket⟩) := by
  obtain ⟨rfl, hargs⟩ := hs
  unfold Worker.step PtrWorker.step
  refine (packetParse_tracks ho (by simp) hargs).bind ?_
  rintro p ⟨h', a⟩ ⟨hbuf, hlen, -, x, hg, hp⟩
  refine .ok (Steps.intro (args :: x.blocks a) lost ⟨x, rfl, ?_, hp, hbuf, hlen⟩ (hg.owns.perm List.perm_middle) hlost
    fun b hb => hg.kept b (by simp [hb]) (by simp))
  rw [hg.kept args (by simp) (by simp), hargs]

theorem length_dropped {x : PacketPtrs} (hp : PacketAt h args a x p) :
    (x.ans.toList ++ x.as.map PtrAnswer.rdata).length = dropped p := by
  have hans := hp.answers
  have hlen := hans.forall₂.length_eq
  unfold DnsRelay.dropped
  rcases hx : x.ans with _ | q
  · rw [hx] at hans
    simp [hans.1, hans.2]
  · rw [hx] at hans
    rw [if_neg hans.1]
    simp [hlen]
    omega

theorem parsed_step (hs : HoldsPacket h d held p args a) (ho : Owns h (held ++ (lost ++ others)))
    (hlost : lost.length = left) :
    Tracks HeapFault.fault (Steps h others) (Worker.step cfg s ⟨d, .parsed () p, out, left⟩)
      (PtrWorker.step A cfg s h ⟨d, .parsed args a, out, socket⟩) := by
  obtain ⟨x, rfl, hargs, hp, hbuf, hlen⟩ := hs
  have hsub : x.blocks a ⊆ (args :: x.blocks a) ++ (lost ++ others) :=
    fun b hb => List.mem_append_left _ (List.mem_cons_of_mem _ hb)
  unfold Worker.step PtrWorker.step
  refine Tracks.step (hp.read ho hsub) (Tracks.ite (fun _ => ?_) fun _ => ?_)
  · refine (urlStore_tracks hp ho hsub d.clk s.cache).bind ?_
    rintro cache _ rfl
    exact .ok (Steps.intro (args :: x.blocks a) lost ⟨x, rfl, hargs, hp, hbuf, hlen⟩ ho hlost fun _ _ => rfl)
  · have ho' := packet_first ho
    refine (urlQuery_tracks hp ho' s.cache).bind ?_
    rintro ⟨ret, p', c⟩ ⟨ret', c', h'⟩ ⟨rfl, rfl, hbuf', hlen', x', hp', ho'', hk⟩
    refine .ok (Steps.intro (args :: x'.blocks a) ((x.ans.toList ++ x.as.map PtrAnswer.rdata) ++ lost)
      ⟨rfl, x', rfl, ?_, hp', hbuf'.trans hbuf, hlen'.trans hlen⟩ (ho''.perm ?_) ?_ fun b hb => hk b (by simp [hb]))
    · rw [hk args List.mem_cons_self, hargs]
    · rw [List.perm_iff_count]
      intro b
      simp only [List.count_append, List.count_cons]
      omega
    · rw [List.length_append, length_dropped hp, hlost, Nat.add_comm]

/-- `SET_ID` on the datagram, and what is sent then. -/
theorem setId_ok (d : Datagram σ) (ho : Owns h (held ++ (lost ++ others))) (hmem : args ∈ held) (id : UInt16) :
    ∃ h', h.write args (.args ⟨setId d.buf id, d.len, d.addr⟩) = .ok h' ∧
      cellAs PacketCell.args? h' args = .ok ⟨setId d.buf id, d.len, d.addr⟩ ∧ Owns h' (held ++ (lost ++ others)) ∧
      ∀ b, b ≠ args → h'.val b = h.val b := by
  obtain ⟨h', hw, ho', hv, hk⟩ := ho.exists_write (a := args) (List.mem_append_left _ hmem)
    (.args ⟨setId d.buf id, d.len, d.addr⟩)
  exact ⟨h', hw, cellAs_ok ho' (List.mem_append_left _ hmem) (by rw [hv]; rfl), ho', hk⟩

/-- What is left of the thread when its datagram may have changed. -/
theorem sent_intro {x : PacketPtrs} (hp : PacketAt h args a x p)
    (ho : Owns h ((args :: x.blocks a) ++ (lost ++ others)))
    (ho' : Owns h' ((args :: x.blocks a) ++ (lost ++ others))) (hlost : lost.length = left)
    (hk : ∀ b, b ≠ args → h'.val b = h.val b) :
    Steps h others (s, ⟨d, .sent () p, out, left⟩) (s, h', ⟨d, .sent args a, out, socket⟩) := by
  have hne : ∀ b ∈ x.blocks a ++ (lost ++ others), b ≠ args := by
    rintro b hb rfl
    exact (List.nodup_cons.1 ho.nodup).1 hb
  exact Steps.intro (args :: x.blocks a) lost
    ⟨x, rfl, hp.congr fun b hb => hk b (hne b (List.mem_append_left _ hb))⟩ ho' hlost
    fun b hb => hk b (hne b (by simp [hb]))

theorem stored_step (hs : HoldsPacket h d held p args a) (ho : Owns h (held ++ (lost ++ others)))
    (hlost : lost.length = left) :
    Tracks HeapFault.fault (Steps h others) (Worker.step cfg s ⟨d, .stored () p, out, left⟩)
      (PtrWorker.step A cfg s h ⟨d, .stored args a, out, socket⟩) := by
  obtain ⟨x, rfl, hargs, hp, -⟩ := hs
  have hsub : x.blocks a ⊆ (args :: x.blocks a) ++ (lost ++ others) :=
    fun b hb => List.mem_append_left _ (List.mem_cons_of_mem _ hb)
  unfold Worker.step PtrWorker.step PtrWorker.answerBack
  refine Tracks.step (hp.read ho hsub) ?_
  rcases hq : s.map.queryMap p.id.toNat with ⟨_ | ⟨origin, addr⟩, map⟩ <;> simp only [sendBack, hq]
  · exact .ok (sent_intro hp ho ho hlost fun _ _ => rfl)
  · obtain ⟨h', hw, hread, ho', hk⟩ := setId_ok d ho List.mem_cons_self origin
    refine Tracks.step (cellAs_ok ho (by simp) (by rw [hargs]; rfl)) (Tracks.step (onHeap_ok hw) (Tracks.step hread ?_))
    exact .ok (sent_intro hp ho ho' hlost hk)

theorem queried_step {ret : Int} (hs : HoldsPacket h d held p args a) (ho : Owns h (held ++ (lost ++ others)))
    (hlost : lost.length = left) :
    Tracks HeapFault.fault (Steps h others) (Worker.step cfg s ⟨d, .queried () p ret, out, left⟩)
      (PtrWorker.step A cfg s h ⟨d, .queried args a ret, out, socket⟩) := by
  obtain ⟨x, rfl, hargs, hp, hbuf, -⟩ := hs
  have hsub : x.blocks a ⊆ (args :: x.blocks a) ++ (lost ++ others) :=
    fun b hb => List.mem_append_left _ (List.mem_cons_of_mem _ hb)
  have hread : cellAs PacketCell.args? h args = .ok ⟨d.buf, d.len, d.addr⟩ :=
    cellAs_ok ho (by simp) (by rw [hargs]; rfl)
  unfold Worker.step PtrWorker.step
  refine Tracks.ite (fun _ => ?_) fun _ => ?_
  · unfold PtrWorker.relay
    refine Tracks.step (hp.read ho hsub) (Tracks.step hread ?_)
    dsimp only
    by_cases hbusy : (s.map.addToMap p.id d.addr d.clk.check d.clk.added).1 = uint16Max
    · rw [if_pos hbusy, if_pos hbusy]
      exact .ok (sent_intro hp ho ho hlost fun _ _ => rfl)
    · rw [if_neg hbusy, if_neg hbusy]
      obtain ⟨h', hw, hread', ho', hk⟩ := setId_ok d ho List.mem_cons_self
        (UInt16.ofNat (s.map.addToMap p.id d.addr d.clk.check d.clk.added).1)
      refine Tracks.step (onHeap_ok hw) (Tracks.step hread' ?_)
      exact .ok (sent_intro hp ho ho' hlost hk)
  · unfold PtrWorker.respond
    have ho' := packet_first ho
    refine (responseFormat_tracks hp ho' List.mem_cons_self hargs hbuf.symm).bind ?_
    rintro r ⟨h₁, dest, len⟩ ⟨rfl, hdest, ho₁, ⟨x', halike, hp'⟩, hk⟩
    have hargs₁ : h₁.val args = .args ⟨d.buf, d.len, d.addr⟩ := by rw [hk args List.mem_cons_self, hargs]
    obtain ⟨h₂, hf, ho₂, hk₂⟩ := ho₁.exists_free
    refine Tracks.step (cellAs_ok ho₁ List.mem_cons_self (by rw [hdest]; rfl))
      (Tracks.step (cellAs_ok ho₁ (by simp) (by rw [hargs₁]; rfl)) (Tracks.step (onHeap_ok hf) ?_))
    refine .ok (Steps.intro (args :: x'.blocks a) lost ⟨x', rfl, hp'.congr fun b _ => by rw [hk₂]⟩ ?_ hlost
      fun b hb => by rw [hk₂, hk b (by simp [hb])])
    rw [halike.blocks]
    exact ho₂.perm List.perm_middle

theorem sent_step {x : PacketPtrs} (hp : PacketAt h args a x p)
    (ho : Owns h ((args :: x.blocks a) ++ (lost ++ others))) (hlost : lost.length = left) :
    Tracks HeapFault.fault (Steps h others) (Worker.step cfg s ⟨d, .sent () p, out, left⟩)
      (PtrWorker.step A cfg s h ⟨d, .sent args a, out, socket⟩) := by
  have ho' := packet_first ho
  obtain ⟨h₁, gone, hf, ho₁, hlen, hk₁⟩ := packetFree_ok hp ho'
  obtain ⟨h₂, hf₂, ho₂, hk₂⟩ := (ho₁.perm List.perm_middle).exists_free
  unfold Worker.step PtrWorker.step
  refine Tracks.step hf (Tracks.step (onHeap_ok hf₂) (.ok (Steps.intro [] (gone ++ lost) rfl ?_ ?_
    fun b _ => by rw [hk₂, hk₁])))
  · rwa [List.nil_append, List.append_assoc]
  · rw [List.length_append, hlen, hlost, Nat.add_comm]

/-- A thread on the heap does what the thread with values does, and minds the blocks of the others. -/
theorem worker_step {own : List Nat} {w : Worker σ} {w' : PtrWorker σ} (hw : WorkerAt h own (w, w'))
    (ho : Owns h (own ++ others)) (A : Allocator) (cfg : Config) (s : Server σ) :
    Tracks HeapFault.fault (Steps h others) (w.step cfg s) (w'.step A cfg s h) := by
  obtain ⟨d, stage, out, left⟩ := w
  obtain ⟨d', stage', out', socket⟩ := w'
  obtain ⟨hd, hout, held, lost, rfl, hlost, hs⟩ := hw
  change d' = d at hd
  change out' = out at hout
  subst hd hout
  rw [List.append_assoc] at ho
  -- the two are in the same stage, or `hs` is absurd
  cases stage with
  | received => cases stage' with
    | received => exact received_step hs ho hlost
    | _ => exact hs.elim
  | parsed => cases stage' with
    | parsed => exact parsed_step hs ho hlost
    | _ => exact hs.elim
  | stored => cases stage' with
    | stored => exact stored_step hs ho hlost
    | _ => exact hs.elim
  | queried => cases stage' with
    | queried =>
      obtain ⟨rfl, hs⟩ := hs
      exact queried_step hs ho hlost
    | _ => exact hs.elim
  | sent => cases stage' with
    | sent =>
      obtain ⟨x, rfl, hp⟩ := hs
      exact sent_step hp ho hlost
    | _ => exact hs.elim
  | released => cases stage' with
    | released => exact .ok (Steps.intro held lost hs ho hlost fun _ _ => rfl)
    | _ => exact hs.elim
  | closed => cases stage' with
    | closed => exact .ok (Steps.intro held lost hs ho hlost fun _ _ => rfl)
    | _ => exact hs.elim

end Steps

/-! ### Any interleaving -/

/-- The threads on the heap stand where those with values do; `rest` are the blocks of the rest of the program, which
are as they were in `h₀`. -/
structure WorkersAt (h₀ : PacketHeap σ) (rest : List Nat) (v : Workers σ) (w : PtrWorkers σ) : Prop where
  server : w.server = v.server
  threads : ∃ parts, v.threads = parts.map Prod.fst ∧ w.threads = parts.map Prod.snd ∧
    Shares WorkerAt w.heap parts rest
  kept : ∀ b ∈ rest, w.heap.val b = h₀.val b

section Runs
variable {h₀ : PacketHeap σ} {rest : List Nat} {v : Workers σ} {w : PtrWorkers σ} {A : Allocator} {cfg : Config}

theorem workers_receive (hs : WorkersAt h₀ rest v w) (d : Datagram σ) :
    Tracks HeapFault.fault (WorkersAt h₀ rest) (v.step cfg (.receive d)) (w.step A cfg (.receive d)) := by
  obtain ⟨hserver, ⟨parts, hv, hw, hshares⟩, hkept⟩ := hs
  obtain ⟨all, ho, hback⟩ := hshares.gather WorkerAt.footprint
  obtain ⟨args, h, hm, ho', hargs, hk⟩ := ho.exists_malloc A (.args ⟨d.buf, d.len, d.addr⟩)
  have hnew : Shares WorkerAt h (parts ++ [(⟨d, .received (), none, 0⟩, ⟨d, .received args, none, none⟩)]) rest := by
    have hrep : WorkerAt h [args] (⟨d, .received (), none, 0⟩, ⟨d, .received args, none, none⟩) :=
      ⟨rfl, rfl, [args], [], rfl, rfl, rfl, hargs⟩
    exact Shares.join (hback h (args :: rest) (fun b hb => hk b (List.mem_append_left _ hb))
      (ho'.perm List.perm_middle.symm)) hrep
  unfold Workers.step PtrWorkers.step
  simp only [hm]
  refine .ok ⟨hserver, ⟨_, ?_, ?_, hnew⟩, fun b hb => ?_⟩
  · rw [hv, List.map_append]
    rfl
  · rw [hw, List.map_append]
    rfl
  · exact (hk b (List.mem_append_right _ hb)).trans (hkept b hb)

/-- A datagram that could not be received. -/
theorem workers_fail (hs : WorkersAt h₀ rest v w) (a : ThreadArgs σ) :
    Tracks HeapFault.fault (WorkersAt h₀ rest) (v.step cfg (.fail a)) (w.step A cfg (.fail a)) := by
  obtain ⟨hserver, ⟨parts, hv, hw, hshares⟩, hkept⟩ := hs
  obtain ⟨all, ho, hback⟩ := hshares.gather WorkerAt.footprint
  obtain ⟨args, h, hm, ho', -, hk⟩ := ho.exists_malloc A (.args a)
  obtain ⟨h', hf, ho'', hk'⟩ := ho'.exists_free
  unfold Workers.step PtrWorkers.step
  simp only [hm]
  refine Tracks.step (onHeap_ok hf)
    (.ok ⟨hserver, ⟨parts, hv, hw, hback h' rest (fun b hb => ?_) ho''⟩, fun b hb => ?_⟩)
  · rw [hk', hk b (List.mem_append_left _ hb)]
  · exact (congrFun hk' b).trans ((hk b (List.mem_append_right _ hb)).trans (hkept b hb))

theorem workers_work (hs : WorkersAt h₀ rest v w) (k : Nat) :
    Tracks HeapFault.fault (WorkersAt h₀ rest) (v.step cfg (.work k)) (w.step A cfg (.work k)) := by
  obtain ⟨hserver, ⟨parts, hv, hw, hshares⟩, hkept⟩ := hs
  unfold Workers.step PtrWorkers.step
  dsimp only
  rw [hv, hw, List.getElem?_map, List.getElem?_map]
  rcases hk : parts[k]? with _ | ⟨x, x'⟩
  · exact .ok ⟨hserver, ⟨parts, hv, hw, hshares⟩, hkept⟩
  obtain ⟨own, others, hrep, ho, hsub, hback⟩ := hshares.focus WorkerAt.footprint hk
  simp only [Option.map_some, hserver]
  refine (worker_step hrep ho A cfg v.server).bind ?_
  rintro ⟨s₁, y⟩ ⟨s₂, h₁, y'⟩ ⟨rfl, hleaves⟩
  refine .ok ⟨rfl, ⟨parts.set k (y, y'), ?_, ?_, hback _ _ hleaves⟩, fun b hb => ?_⟩
  · rw [List.map_set]
  · rw [List.map_set]
  · exact (hleaves.kept b (hsub b hb)).trans (hkept b hb)

theorem workers_step (hs : WorkersAt h₀ rest v w) (e : WorkEvent σ) :
    Tracks HeapFault.fault (WorkersAt h₀ rest) (v.step cfg e) (w.step A cfg e) := by
  cases e with
  | receive d => exact workers_receive hs d
  | fail a => exact workers_fail hs a
  | work k => exact workers_work hs k
  | scan clk =>
    obtain ⟨hserver, hthreads, hkept⟩ := hs
    unfold Workers.step PtrWorkers.step
    dsimp only
    rw [hserver]
    exact Tracks.bind_same _ fun r => .ok ⟨rfl, hthreads, hkept⟩

theorem workers_run (h : PacketHeap σ) (s : Server σ) (A : Allocator) (cfg : Config) (es : List (WorkEvent σ)) :
    Tracks HeapFault.fault (WorkersAt h h.live.toList) (Workers.run cfg ⟨s, []⟩ es)
      (PtrWorkers.run A cfg ⟨h, s, []⟩ es) := by
  have ho : Owns h h.live.toList := ⟨Finset.nodup_toList _, fun a => (Finset.mem_toList (s := h.live)).symm⟩
  exact Tracks.foldlM (fun _ _ e hs => workers_step hs e) es ⟨rfl, ⟨[], rfl, rfl, ho⟩, fun _ _ => rfl⟩

/-- The threads on the heap send what those with values send. -/
theorem WorkersAt.out (hs : WorkersAt h₀ rest v w) : w.threads.map PtrWorker.out = v.threads.map Worker.out := by
  obtain ⟨-, ⟨parts, hparts, hparts', hshares⟩, -⟩ := hs
  rw [hparts, hparts', List.map_map, List.map_map]
  refine List.map_congr_left fun t ht => ?_
  obtain ⟨own, hrep⟩ := hshares.exists_rep ht
  exact hrep.2.1

/-- In every interleaving of any number of datagrams the threads on the heap send what the threads with values send,
leave the cache and the ID map as those do and the blocks of the rest of the program as they were; and they fail only
where those fail, in the same way. -/
theorem datagrams_refine (A : Allocator) (cfg : Config) (h : PacketHeap σ) (s : Server σ) (es : List (WorkEvent σ)) :
    (∀ v, Workers.run cfg ⟨s, []⟩ es = .ok v → ∃ w, PtrWorkers.run A cfg ⟨h, s, []⟩ es = .ok w ∧ w.server = v.server ∧
      w.threads.map PtrWorker.out = v.threads.map Worker.out ∧
      ∀ b ∈ h.live, b ∈ w.heap.live ∧ w.heap.val b = h.val b) ∧
    ∀ e, Workers.run cfg ⟨s, []⟩ es = .error e → PtrWorkers.run A cfg ⟨h, s, []⟩ es = .error (.fault e) := by
  have htracks := workers_run h s A cfg es
  constructor
  · intro v hv
    obtain ⟨w, hw, hs⟩ := htracks.of_ok hv
    refine ⟨w, hw, hs.server, hs.out, fun b hb => ?_⟩
    obtain ⟨parts, -, -, hshares⟩ := hs.threads
    exact ⟨hshares.live_rest b (Finset.mem_toList.2 hb), hs.kept b (Finset.mem_toList.2 hb)⟩
  · intro e he
    rw [he] at htracks
    exact htracks

/-- One datagram after the other: on the heap too this is the run of the server, if it goes through. -/
theorem datagrams_serial {h : PacketHeap σ} {s : Server σ} {ds : List (Datagram σ)}
    (hrun : PtrWorkers.run A cfg ⟨h, s, []⟩ (WorkEvent.turns 0 ds) = .ok w) :
    Server.run cfg (some s) (ds.map .datagram) = (some w.server, w.threads.map PtrWorker.out) := by
  obtain ⟨v, hv, hs⟩ := (workers_run h s A cfg (WorkEvent.turns 0 ds)).ok_of hrun
  have hv : Workers.run cfg ⟨s, []⟩ (WorkEvent.turns ([] : List (Worker σ)).length ds) = .ok v := hv
  obtain ⟨ws, hws, hserve⟩ := Workers.run_turns hv
  rw [hserve, hs.server, hs.out, hws, List.nil_append]

end Runs

def noPackets : PacketHeap Nat := ⟨∅, fun _ => .bytes (Block.fresh 0 [])⟩

theorem datagrams_serial_two : ∃ w, PtrWorkers.run .bump smallConfig ⟨noPackets, .zeroed, []⟩
    (WorkEvent.turns 0 [.request typeA 97 100, .response 1 97 101]) = .ok w ∧
      Server.run smallConfig (some .zeroed) [.datagram (.request typeA 97 100), .datagram (.response 1 97 101)] =
        (some w.server, w.threads.map PtrWorker.out) := by
  have hdone : (Workers.run smallConfig ⟨.zeroed, []⟩
      (WorkEvent.turns 0 [.request typeA 97 100, .response 1 97 101])).toOption.isSome := by decide +kernel
  rcases hrun : Workers.run smallConfig ⟨.zeroed, []⟩
    (WorkEvent.turns 0 [.request typeA 97 100, .response 1 97 101]) with e | v
  · rw [hrun] at hdone
    cases hdone
  obtain ⟨w, hw, -⟩ := (workers_run noPackets .zeroed .bump smallConfig _).of_ok hrun
  exact ⟨w, hw, datagrams_serial hw⟩

end DnsRelay
