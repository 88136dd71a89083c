import DnsRelay.PacketRefine

/-!
# Answering with a packet on the heap

`urlQuery`, `responseFormat` and `packetFree` on addresses. `urlQuery` loses the array of the answers that came with a
request, with their record data; where it does not return a number of answers, `packetFree` leaves the record data of
the answers found so far.
-/

namespace DnsRelay
open Alloc

namespace PacketHeap
variable {σ : Type} {h h' : PacketHeap σ} {l : List Nat} {A : Allocator} {C : Libc} {st : Stale}

/-! ### `urlQuery` -/

section Query
variable {args p N : Nat} {x : PacketPtrs} {src : Packet}

theorem loadMatches_tracks {clk : Nat → Nat} {q : Quest} {q' : PtrQuest} {ans pos i j : Nat} {result : List DNSEntry}
    (done : List (Option PtrAnswer)) (ho : Owns h l) (hans : ans ∈ l)
    (hv : h.val ans = .answers (done ++ List.replicate result.length none)) (hj : done.length = pos + j)
    (hq : q'.qtype = q.qtype ∧ q'.qclass = q.qclass) :
    Tracks HeapFault.fault (fun new h' => new.length = result.length ∧ ∃ as : List PtrAnswer,
        Grows h h' l (as.map PtrAnswer.rdata) [ans] ∧ h'.val ans = .answers (done ++ as.map some) ∧
          List.Forall₂ (AnswerAt h') as new)
      (DnsRelay.loadMatches clk st i q pos j result) (loadMatches A clk st i q' ans pos j result h) := by
  induction result generalizing h l done j with
  | nil => exact .ok ⟨rfl, [], .refl ho _, by simpa using hv, .nil⟩
  | cons e result ih =>
    unfold DnsRelay.loadMatches loadMatches
    rw [hq.1, hq.2]
    refine Tracks.bind_same _ fun ip => ?_
    obtain ⟨rdata, h₁, hm, hread, hfill⟩ := fill_ok ho A (Block.fresh (typeBufSize q.qtype) (st.found (pos + j)))
    simp only [hm]
    refine Tracks.step hread (Tracks.bind_same _ fun b => ?_)
    obtain ⟨h₂, hw, ho₂, hb, hk⟩ := hfill b
    refine Tracks.step (onHeap_ok hw) ?_
    have hnew : rdata ∉ l := (List.nodup_cons.1 ho₂.nodup).1
    obtain ⟨h₃, hset, ho₃, hv₃, hk₃⟩ := setAnswer_ok (List.replicate result.length none) ho₂
      (List.mem_cons_of_mem _ hans) (by rw [hk ans hans, hv, List.length_cons, List.replicate_succ]) hj
      ⟨UInt8.ofNat i, 0, q.qtype, q.qclass, 0, ttlLeft e.timestamp (clk j), e.addition, rdata⟩
    refine Tracks.step hset ?_
    refine (ih (done ++ [some ⟨UInt8.ofNat i, 0, q.qtype, q.qclass, 0, ttlLeft e.timestamp (clk j), e.addition,
      rdata⟩]) ho₃ (List.mem_cons_of_mem _ hans) ?_ ?_).bind_left ?_
    · rw [hv₃, List.append_assoc]
      rfl
    · rw [List.length_append, hj]
      rfl
    · rintro new h' ⟨hlen, as, hg, hv', has⟩
      have hrn : rdata ≠ ans := fun he => hnew (he ▸ hans)
      refine ⟨_, rfl, by rw [List.length_cons, List.length_cons, hlen], _ :: as, hg.cons fun b hb hn => ?_,
        by rw [hv', List.append_assoc]; rfl, .cons ⟨?_, rfl⟩ has⟩
      · rw [hk₃ b (by simpa using hn), hk b hb]
      · rw [hg.kept rdata List.mem_cons_self (by simpa using hrn), hk₃ rdata hrn, hb]

theorem reallocAnswers_ok {as : List PtrAnswer} {vs : List Answer} {ans : Option Nat}
    (ho : Owns h (ans.toList ++ l)) (ha : AnswersAt h as vs ans) (A : Allocator) (n : Nat) :
    ∃ q h', reallocAnswers A h (vs.length + n) ans = .ok (q, h') ∧ Owns h' (q :: l) ∧
      h'.val q = .answers (as.map some ++ List.replicate n none) ∧ ∀ b ∈ l, h'.val b = h.val b := by
  rcases ans with _ | p
  · obtain ⟨rfl, rfl⟩ := ha
    obtain ⟨q, h', hm, ho', hv, hk⟩ := Owns.exists_malloc (l := l) ho A (.answers (List.replicate n none))
    refine ⟨q, h', ?_, ho', hv, hk⟩
    rw [reallocAnswers, List.length_nil, Nat.zero_add, hm]
  · obtain ⟨-, hv, has⟩ := ha
    obtain ⟨h₁, hf, ho₁, hk₁⟩ := Owns.exists_free (l := l) ho
    obtain ⟨q, h', hm, ho', hv', hk⟩ := ho₁.exists_malloc A (.answers (as.map some ++ List.replicate n none))
    refine ⟨q, h', ?_, ho', hv', fun b hb => by rw [hk b hb, hk₁]⟩
    have hlen := has.length_eq
    have htake : (as.map some).take (vs.length + n) = as.map some := List.take_of_length_le (by simp; omega)
    have hrest : vs.length + n - (as.map some).length = n := by simp; omega
    rw [reallocAnswers, cellAs_ok (b := as.map some) ho (by simp) (by rw [hv]; rfl), heap_bind, onHeap_ok hf, heap_bind,
      htake, hrest, hm]
    rfl

/-- The packet gets another `ANCOUNT`. -/
theorem PacketAt.recount (hp : PacketAt h args p x src) (ho : Owns h (x.blocks p ++ l)) (ancount : UInt16)
    (hanc : ancount.toNat ≤ src.ans.length) : ∃ h₁, h.write p (.packet ⟨args, src.bufLen, src.id, src.flags,
      src.qdcount, ancount, some x.quests, x.ans⟩) = .ok h₁ ∧ Owns h₁ (x.blocks p ++ l) ∧
      PacketAt h₁ args p x { src with ancount := ancount } ∧ ∀ b ∈ l, h₁.val b = h.val b := by
  obtain ⟨h₁, hw, ho₁, hp₁, hk⟩ := ho.exists_write (a := p) (by simp [PacketPtrs.blocks])
    (.packet ⟨args, src.bufLen, src.id, src.flags, src.qdcount, ancount, some x.quests, x.ans⟩)
  have hnd := ho.nodup
  simp only [PacketPtrs.blocks, List.cons_append, List.nodup_cons] at hnd
  have hne : ∀ b ∈ x.quests :: (x.qs.map PtrQuest.qname ++ (x.ans.toList ++ x.as.map PtrAnswer.rdata) ++ l), b ≠ p := by
    rintro b hb rfl
    exact hnd.1 hb
  refine ⟨h₁, hw, ho₁, ⟨hp₁, ?_, ?_, ?_, hp.qdcount, hanc⟩, fun b hb => hk b (hne b (by simp [hb]))⟩
  · rw [hk x.quests (hne x.quests (by simp)), hp.quests]
  · exact questsAt_congr hp.texts fun b hb => hk b (hne b (by simp only [List.mem_cons, List.mem_append, hb]; simp))
  · exact hp.answers.congr fun b hb => hk b (hne b (by simp only [List.mem_cons, List.mem_append] at hb ⊢; tauto))

/-- The array of answers grows by the results of a search. -/
theorem PacketAt.grow {q : Quest} {q' : PtrQuest} {result : List DNSEntry} (hp : PacketAt h args p x src)
    (ho : Owns h (x.blocks p ++ l)) (hne : result ≠ []) (hq : q'.qtype = q.qtype ∧ q'.qclass = q.qclass)
    (A : Allocator) (st : Stale) (clk : Nat → Nat) (i : Nat) :
    ∃ ans h₁ h₂, reallocAnswers A h (src.ans.length + result.length) x.ans = .ok (ans, h₁) ∧
      h₁.write p (.packet ⟨args, src.bufLen, src.id, src.flags, src.qdcount,
        UInt16.ofNat (src.ans.length + result.length), some x.quests, some ans⟩) = .ok h₂ ∧
      Tracks HeapFault.fault (fun new h' => new.length = result.length ∧ ∃ x : PacketPtrs,
          PacketAt h' args p x { src with
            ancount := UInt16.ofNat (src.ans.length + result.length), ans := src.ans ++ new } ∧
          Owns h' (x.blocks p ++ l) ∧ ∀ b ∈ l, h'.val b = h.val b)
        (DnsRelay.loadMatches clk st i q src.ans.length 0 result)
        (loadMatches A clk st i q' ans src.ans.length 0 result h₂) := by
  have hperm : (x.blocks p ++ l).Perm
      (x.ans.toList ++ p :: x.quests :: (x.qs.map PtrQuest.qname ++ (x.as.map PtrAnswer.rdata ++ l))) := by
    rw [List.perm_iff_count]
    intro b
    simp only [PacketPtrs.blocks, List.count_append, List.count_cons]
    omega
  obtain ⟨ans, h₁, hr, ho₁, ha₁, hk₁⟩ := reallocAnswers_ok (ho.perm hperm) hp.answers A result.length
  obtain ⟨h₂, hw, ho₂, hp₂, hk₂⟩ := ho₁.exists_write (a := p) (by simp) (.packet ⟨args, src.bufLen, src.id, src.flags,
    src.qdcount, UInt16.ofNat (src.ans.length + result.length), some x.quests, some ans⟩)
  refine ⟨ans, h₁, h₂, hr, hw, ?_⟩
  obtain ⟨hans, hnd⟩ := List.nodup_cons.1 ho₁.nodup
  have hpn := (List.nodup_cons.1 hnd).1
  have hane : ans ≠ p := by
    rintro rfl
    exact hans List.mem_cons_self
  refine (loadMatches_tracks (x.as.map some) ho₂ List.mem_cons_self (by rw [hk₂ ans hane, ha₁]) ?_ hq).mono ?_
  · rw [List.length_map, hp.answers.forall₂.length_eq]
    rfl
  rintro new h₃ ⟨hlen, as, hg, hv, has⟩
  have hkept : ∀ b ∈ x.quests :: (x.qs.map PtrQuest.qname ++ (x.as.map PtrAnswer.rdata ++ l)), h₃.val b = h.val b := by
    intro b hb
    have hbp : b ≠ p := by
      rintro rfl
      exact hpn hb
    have hba : b ∉ [ans] := by
      intro hm
      exact hans (List.mem_cons_of_mem _ (List.mem_singleton.1 hm ▸ hb))
    rw [hg.kept b (List.mem_cons_of_mem _ (List.mem_cons_of_mem _ hb)) hba, hk₂ b hbp,
      hk₁ b (List.mem_cons_of_mem _ hb)]
  have hnil : src.ans ++ new ≠ [] := by
    intro he
    rw [(List.append_eq_nil_iff.1 he).2] at hlen
    exact hne (List.length_eq_zero_iff.1 hlen.symm)
  refine ⟨hlen, ⟨x.quests, some ans, x.qs, x.as ++ as⟩,
    ⟨?_, ?_, ?_, ⟨hnil, ?_, List.rel_append ?_ has⟩, hp.qdcount, ?_⟩, hg.owns.perm ?_, fun b hb => hkept b (by simp [hb])⟩
  · rw [hg.kept p (by simp) (by simpa using hane.symm), hp₂]
  · rw [hkept x.quests (by simp), hp.quests]
  · exact questsAt_congr hp.texts fun b hb => hkept b (List.mem_cons_of_mem _ (List.mem_append_left _ hb))
  · rw [hv, List.map_append]
  · exact answersAt_congr hp.answers.forall₂ fun b hb =>
      hkept b (List.mem_cons_of_mem _ (List.mem_append_right _ (List.mem_append_left _ hb)))
  · rw [UInt16.toNat_ofNat', List.length_append, hlen]
    exact Nat.mod_le _ _
  · rw [List.perm_iff_count]
    intro b
    simp only [PacketPtrs.blocks, Option.toList_some, List.map_append, List.count_append, List.count_cons,
      List.count_nil]
    omega

theorem searchQuests_tracks {host : Option HostMap} {clk : Clock} {ans : List Answer} {i : Nat} {quests : List Quest}
    (hp : PacketAt h args p x { src with ancount := UInt16.ofNat ans.length, ans := ans }) (hlen : ans.length < 65536)
    (ho : Owns h (x.blocks p ++ l)) (hi : src.quests.drop i = quests) (c : LRUCache) :
    Tracks HeapFault.fault (fun v w => v.1 = w.1 ∧ v.2.2.2 = w.2.1 ∧ ∃ x : PacketPtrs,
        PacketAt w.2.2 args p x { src with ancount := v.2.1, ans := v.2.2.1 } ∧ Owns w.2.2 (x.blocks p ++ l) ∧
          ∀ b ∈ l, w.2.2.val b = h.val b)
      (DnsRelay.searchQuests N host clk st i quests ans c) (searchQuests A N host clk st p quests.length i c h) := by
  have hcount : ∀ k < 65536, (UInt16.ofNat k).toNat = k := by
    intro k hk
    rw [UInt16.toNat_ofNat']
    exact Nat.mod_eq_of_lt hk
  induction quests generalizing h x ans i c with
  | nil =>
    unfold DnsRelay.searchQuests searchQuests
    refine Tracks.step (hp.read ho (List.subset_append_left _ _)) (.ok ⟨?_, rfl, x, hp, ho, fun _ _ => rfl⟩)
    exact congrArg Int.ofNat (hcount ans.length hlen).symm
  | cons q quests ih =>
    have hq : src.quests[i]? = some q := by
      have h0 := congrArg (fun l : List Quest => l[0]?) hi
      simpa using h0
    obtain ⟨q', hread, hq', hqname⟩ := hp.quest ho (List.subset_append_left _ _) hq
    unfold DnsRelay.searchQuests searchQuests
    refine Tracks.step (hp.read ho (List.subset_append_left _ _)) ?_
    refine Tracks.step hread (Tracks.step hqname ?_)
    have hquest : q'.qtype = q.qtype ∧ q'.qclass = q.qclass := by
      rw [hq']
      exact ⟨rfl, rfl⟩
    rw [hquest.1]
    refine Tracks.bind_same_eq _ ?_
    rintro ⟨found, result, c₁⟩ hs
    obtain ⟨h₁, hw₁, ho₁, hp₁, hk₁⟩ := hp.recount ho 0 (Nat.zero_le _)
    refine Tracks.ite (fun _ => ?_) fun hm1 => Tracks.ite (fun _ => ?_) fun h0 => ?_
    · exact Tracks.step (onHeap_ok hw₁) (.ok ⟨rfl, rfl, x, hp₁, ho₁, hk₁⟩)
    · exact Tracks.step (onHeap_ok hw₁) (.ok ⟨rfl, rfl, x, hp₁, ho₁, hk₁⟩)
    simp only [hcount ans.length hlen]
    refine Tracks.ite (fun _ => .error _) fun hroom => ?_
    have hne : result ≠ [] := by
      rintro rfl
      exact h0 ((qnameSearch_count hs).resolve_left hm1)
    obtain ⟨a, h₂, h₃, hr, hw, hload⟩ := hp.grow ho hne hquest A st (clk.ttl i) i
    refine Tracks.step hr (Tracks.step (onHeap_ok hw) (hload.bind ?_))
    rintro new h₄ ⟨hnew, x', hp', ho', hk'⟩
    have hlen' : (ans ++ new).length = ans.length + result.length := by rw [List.length_append, hnew]
    refine (ih (i := i + 1) (by rw [hlen']; exact hp') (by rw [hlen']; simpa using hroom) ho' ?_ c₁).mono ?_
    · rw [← List.drop_drop, hi]
      rfl
    · rintro v w ⟨hv, hw, x'', hp'', ho'', hk''⟩
      exact ⟨hv, hw, x'', hp'', ho'', fun b hb => (hk'' b hb).trans (hk' b hb)⟩

/-- `urlQuery` leaves the answers that came with the request. -/
theorem urlQuery_tracks {host : Option HostMap} {clk : Clock} (hp : PacketAt h args p x src)
    (ho : Owns h (x.blocks p ++ l)) (c : LRUCache) :
    Tracks HeapFault.fault (fun v w => v.1 = w.1 ∧ v.2.2 = w.2.1 ∧ v.2.1.reqBuf = src.reqBuf ∧
        v.2.1.bufLen = src.bufLen ∧ ∃ x' : PacketPtrs, PacketAt w.2.2 args p x' v.2.1 ∧
        Owns w.2.2 (x'.blocks p ++ (x.ans.toList ++ x.as.map PtrAnswer.rdata) ++ l) ∧
          ∀ b ∈ l, w.2.2.val b = h.val b)
      (DnsRelay.urlQuery N host clk st src c) (urlQuery A N host clk st h p c) := by
  unfold DnsRelay.urlQuery urlQuery
  refine Tracks.step (hp.read ho (List.subset_append_left _ _)) ?_
  obtain ⟨h₁, hw, ho₁, hp₁, hk⟩ := ho.exists_write (a := p) (by simp [PacketPtrs.blocks])
    (.packet ⟨args, src.bufLen, src.id, src.flags, src.qdcount, 0, some x.quests, none⟩)
  refine Tracks.step (onHeap_ok hw) ?_
  have hnd := ho.nodup
  simp only [PacketPtrs.blocks, List.cons_append, List.nodup_cons] at hnd
  have hne : ∀ b ∈ x.quests :: (x.qs.map PtrQuest.qname ++ (x.ans.toList ++ x.as.map PtrAnswer.rdata) ++ l), b ≠ p := by
    rintro b hb rfl
    exact hnd.1 hb
  have hp' : PacketAt h₁ args p ⟨x.quests, none, x.qs, []⟩
      { src with ancount := UInt16.ofNat ([] : List Answer).length, ans := [] } := by
    refine ⟨hp₁, ?_, ?_, ⟨rfl, rfl⟩, hp.qdcount, Nat.zero_le _⟩
    · rw [hk x.quests (hne x.quests (by simp)), hp.quests]
    · exact questsAt_congr hp.texts fun b hb => hk b (hne b (by simp only [List.mem_cons, List.mem_append, hb]; simp))
  have ho' : Owns h₁ (PacketPtrs.blocks ⟨x.quests, none, x.qs, []⟩ p ++
      ((x.ans.toList ++ x.as.map PtrAnswer.rdata) ++ l)) := by
    refine ho₁.perm (List.Perm.of_eq ?_)
    simp [PacketPtrs.blocks]
  rw [show src.qdcount.toNat = src.quests.length from hp.qdcount]
  refine (searchQuests_tracks (i := 0) hp' (by simp) ho' rfl c).bind_left ?_
  rintro ⟨ret, ancount, ans, c'⟩ ⟨ret', c'', h'⟩ ⟨rfl, rfl, x', hp', ho', hk'⟩
  refine ⟨_, rfl, rfl, rfl, rfl, rfl, x', hp', by rwa [List.append_assoc], fun b hb => ?_⟩
  rw [hk' b (List.mem_append_right _ hb), hk b (hne b (by simp [hb]))]

end Query

/-! ### `responseFormat` -/

section Format
variable {args p : Nat} {x : PacketPtrs} {src : Packet} (ptr : PtrPacket)

theorem namePointer_tracks (hp : PacketAt h args p x src) (ho : Owns h l) (hsub : x.blocks p ⊆ l) (n j : Nat)
    (acc : UInt16) :
    Tracks HeapFault.fault Eq (DnsRelay.namePointer (src.quests.drop j) n acc)
      (namePointer h (some x.quests) n j acc) := by
  induction n generalizing j acc with
  | zero =>
    rw [DnsRelay.namePointer, namePointer]
    exact .ok rfl
  | succ n ih =>
    rcases hq : src.quests[j]? with _ | q
    · rw [List.drop_eq_nil_of_le (List.getElem?_eq_none_iff.1 hq)]
      unfold DnsRelay.namePointer namePointer
      rw [hp.quest_none ho hsub hq]
      exact .error _
    · obtain ⟨hj, hget⟩ := List.getElem?_eq_some_iff.1 hq
      obtain ⟨q', hread, -, hqname⟩ := hp.quest ho hsub hq
      rw [List.drop_eq_getElem_cons hj, hget]
      unfold DnsRelay.namePointer namePointer
      exact Tracks.step hread (Tracks.step hqname (Tracks.bind_same _ fun s => ih (j + 1) _))

theorem namePointers_tracks (hp : PacketAt h args p x src) (ho : Owns h l) (hsub : x.blocks p ⊆ l)
    (hptr : ptr.quests = some x.quests ∧ ptr.ans = x.ans) {n i : Nat} (hn : i + n ≤ src.ans.length) :
    Tracks HeapFault.fault (fun v w => v = w ∧ v.length = n)
      (DnsRelay.namePointers src.quests ((src.ans.drop i).take n)) (namePointers h ptr n i) := by
  induction n generalizing i with
  | zero => exact .ok ⟨rfl, rfl⟩
  | succ n ih =>
    have hi : src.ans[i]? = some src.ans[i] := List.getElem?_eq_getElem (by omega)
    obtain ⟨a, hread, ha, -⟩ := hp.answer ho hsub hi
    rw [List.drop_eq_getElem_cons (by omega), List.take_succ_cons]
    unfold DnsRelay.namePointers namePointers
    rw [hptr.1, hptr.2]
    refine Tracks.step hread ?_
    rw [show a.qpos = src.ans[i].qpos by rw [ha]; rfl]
    have hname := namePointer_tracks hp ho hsub src.ans[i].qpos.toNat 0 0xc00c
    rw [List.drop_zero] at hname
    refine hname.bind ?_
    rintro name _ rfl
    refine (ih (by omega)).bind ?_
    rintro names _ ⟨rfl, hlen⟩
    exact .ok ⟨rfl, by rw [List.length_cons, hlen]⟩

theorem forall₂_set {α β : Type} {R R' : α → β → Prop} {as : List α} {vs : List β} {i : Nat} {a : α} {v : β}
    (hr : List.Forall₂ R as vs) (hav : R' a v) (himp : ∀ j b w, j ≠ i → as[j]? = some b → R b w → R' b w) :
    List.Forall₂ R' (as.set i a) (vs.set i v) := by
  induction hr generalizing i with
  | nil => exact .nil
  | @cons b w as vs hbw hr ih =>
    rcases i with _ | i
    · refine .cons hav (forall₂_imp_mem hr fun b hb w hbw => ?_)
      obtain ⟨j, hj⟩ := List.getElem?_of_mem hb
      exact himp (j + 1) b w (by omega) hj hbw
    · exact .cons (himp 0 b w (by omega) rfl hbw)
        (ih fun j b w hne hj hbw => himp (j + 1) b w (by omega) hj hbw)

/-- The two have the same blocks. -/
structure PacketPtrs.Alike (x x' : PacketPtrs) : Prop where
  quests : x'.quests = x.quests
  ans : x'.ans = x.ans
  qs : x'.qs = x.qs
  rdatas : x'.as.map PtrAnswer.rdata = x.as.map PtrAnswer.rdata

theorem PacketPtrs.Alike.refl (x : PacketPtrs) : x.Alike x := ⟨rfl, rfl, rfl, rfl⟩

theorem PacketPtrs.Alike.trans {x x' x'' : PacketPtrs} (h₁ : x.Alike x') (h₂ : x'.Alike x'') : x.Alike x'' :=
  ⟨h₂.quests.trans h₁.quests, h₂.ans.trans h₁.ans, h₂.qs.trans h₁.qs, h₂.rdatas.trans h₁.rdatas⟩

theorem PacketPtrs.Alike.blocks {x x' : PacketPtrs} (ha : x.Alike x') (p : Nat) : x'.blocks p = x.blocks p := by
  unfold PacketPtrs.blocks
  rw [ha.quests, ha.ans, ha.qs, ha.rdatas]

/-- An answer gets other record data, in the same buffer. -/
theorem PacketAt.refill (hp : PacketAt h args p x src) (ho : Owns h (x.blocks p ++ l)) {i : Nat} {v : Answer}
    {a : PtrAnswer} (ha : x.as[i]? = some a) (hav : a = v.at a.rdata) :
    ∃ ans, x.ans = some ans ∧ ∀ rdlen, ∃ h₁, setAnswer h ans i { a with rdlen := rdlen } = .ok h₁ ∧
      ∀ b, ∃ h₂, h₁.write a.rdata (.bytes b) = .ok h₂ ∧ Owns h₂ (x.blocks p ++ l) ∧ (∃ x' : PacketPtrs,
        x.Alike x' ∧ PacketAt h₂ args p x' { src with ans := src.ans.set i { v with rdlen := rdlen, rdata := b } }) ∧
        ∀ c ∈ l, h₂.val c = h.val c := by
  have hans := hp.answers
  rcases hx : x.ans with _ | ans
  · rw [hx] at hans
    rw [hans.1] at ha
    cases ha
  rw [hx] at hans
  obtain ⟨hnil, hval, has⟩ := hans
  obtain ⟨hi, hget⟩ := List.getElem?_eq_some_iff.1 ha
  have hmem : a.rdata ∈ x.as.map PtrAnswer.rdata := List.mem_map_of_mem (List.mem_of_getElem? ha)
  have harray : h.val ans = .answers ((x.as.take i).map some ++ some a :: (x.as.drop (i + 1)).map some) := by
    rw [hval, ← List.map_cons (f := some), ← hget, ← List.drop_eq_getElem_cons hi, ← List.map_append,
      List.take_append_drop]
  refine ⟨ans, rfl, fun rdlen => ?_⟩
  obtain ⟨h₁, hset, ho₁, hval₁, hk₁⟩ := setAnswer_ok ((x.as.drop (i + 1)).map some) ho (p := ans)
    (by simp [PacketPtrs.blocks, hx]) harray (i := i) (by simp; omega) { a with rdlen := rdlen }
  refine ⟨h₁, hset, fun b => ?_⟩
  obtain ⟨h₂, hw, ho₂, hb₂, hk₂⟩ := ho₁.exists_write (a := a.rdata)
    (List.mem_append_left _ (by simp [PacketPtrs.blocks, hmem])) (.bytes b)
  have hperm : (x.blocks p ++ l).Perm
      ((ans :: x.as.map PtrAnswer.rdata) ++ (p :: x.quests :: (x.qs.map PtrQuest.qname ++ l))) := by
    rw [List.perm_iff_count]
    intro c
    simp only [PacketPtrs.blocks, hx, Option.toList_some, List.count_append, List.count_cons, List.count_nil]
    omega
  have hnd := (ho.perm hperm).nodup
  have hdisj := List.disjoint_of_nodup_append hnd
  obtain ⟨hfresh, hrd⟩ := List.nodup_cons.1 hnd.of_append_left
  have hkept : ∀ c ∈ p :: x.quests :: (x.qs.map PtrQuest.qname ++ l), h₂.val c = h.val c := by
    intro c hc
    have hne : c ≠ a.rdata := fun he => hdisj (List.mem_cons_of_mem _ hmem) (he ▸ hc)
    have hne' : c ≠ ans := fun he => hdisj List.mem_cons_self (he ▸ hc)
    rw [hk₂ c hne, hk₁ c hne']
  have hset' : (x.as.set i { a with rdlen := rdlen }).map PtrAnswer.rdata = x.as.map PtrAnswer.rdata := by
    rw [List.map_set]
    refine List.ext_getElem? fun j => ?_
    rw [List.getElem?_set]
    split
    · rename_i hij
      subst hij
      simp [hget, hi]
    · rfl
  refine ⟨h₂, hw, ho₂, ⟨{ x with as := x.as.set i { a with rdlen := rdlen } }, ⟨rfl, rfl, rfl, hset'⟩,
    ?_, ?_, ?_, ?_, hp.qdcount, ?_⟩, fun c hc => hkept c (by simp [hc])⟩
  · rw [hkept p List.mem_cons_self, hp.packet, hx]
  · rw [hkept x.quests (by simp), hp.quests]
  · exact questsAt_congr hp.texts fun c hc => hkept c (by simp only [List.mem_cons, List.mem_append, hc]; simp)
  · change AnswersAt h₂ _ _ x.ans
    rw [hx]
    refine ⟨fun he => hnil ((List.set_eq_nil_iff _ _).1 he), ?_,
      forall₂_set has ⟨hb₂, ?_⟩ fun j b w hne hj hbw => hbw.congr ?_⟩
    · rw [hk₂ ans fun he => hfresh (he ▸ hmem), hval₁, List.set_eq_take_append_cons_drop, if_pos hi, List.map_append,
        List.map_cons]
    · rw [hav]
      rfl
    · have hb : b.rdata ∈ x.as.map PtrAnswer.rdata := List.mem_map_of_mem (List.mem_of_getElem? hj)
      have hne₁ : b.rdata ≠ a.rdata := by
        intro he
        have hlt : j < (x.as.map PtrAnswer.rdata).length := by
          rw [List.length_map]
          exact (List.getElem?_eq_some_iff.1 hj).1
        refine hne ((List.getElem?_inj hlt hrd).1 ?_)
        rw [List.getElem?_map, List.getElem?_map, hj, ha]
        exact congrArg some he
      rw [hk₂ b.rdata hne₁, hk₁ b.rdata fun he => hfresh (he ▸ hb)]
  · rw [List.length_set]
    exact hp.ancount

theorem take_succ_set {β : Type} {l : List β} {i : Nat} (hi : i < l.length) (v : β) :
    (l.set i v).take (i + 1) = l.take i ++ [v] := by
  rw [List.set_eq_take_append_cons_drop, if_pos hi, List.take_append, List.length_take, List.take_of_length_le
    (by rw [List.length_take]; omega), show i + 1 - min i l.length = 1 by omega]
  rfl

theorem formatAnswers_tracks (names : List UInt16) {i : Nat} (len : Nat) (resData : Block)
    (hp : PacketAt h args p x src) (ho : Owns h (x.blocks p ++ l)) (hptr : ptr.quests = some x.quests ∧ ptr.ans = x.ans)
    (hn : i + names.length ≤ src.ans.length) :
    Tracks HeapFault.fault (fun v w => v.2 = w.2 ∧ v.1.length = names.length ∧ Owns w.1 (x.blocks p ++ l) ∧
        (∃ x' : PacketPtrs, x.Alike x' ∧
          PacketAt w.1 args p x' { src with ans := src.ans.take i ++ (v.1 ++ src.ans.drop (i + names.length)) }) ∧
        ∀ b ∈ l, w.1.val b = h.val b)
      (DnsRelay.formatAnswers C src.quests (((src.ans.drop i).take names.length).zip names) resData len)
      (formatAnswers C ptr names i resData len h) := by
  induction names generalizing h x src i len resData with
  | nil => exact .ok ⟨rfl, rfl, ho, ⟨x, .refl x, by simpa using hp⟩, fun _ _ => rfl⟩
  | cons name names ih =>
    rw [List.length_cons] at hn
    have hlt : i < src.ans.length := by omega
    have hi : src.ans[i]? = some src.ans[i] := List.getElem?_eq_getElem hlt
    obtain ⟨a, hread, ha, hrdata, hidx⟩ := hp.answer ho (List.subset_append_left _ _) hi
    rw [List.length_cons, List.drop_eq_getElem_cons hlt, List.take_succ_cons, List.zip_cons_cons]
    unfold DnsRelay.formatAnswers formatAnswers
    rw [hptr.1, hptr.2]
    refine Tracks.step hread ?_
    obtain ⟨r, rfl⟩ : ∃ r, a = src.ans[i].at r := ⟨a.rdata, ha⟩
    simp only [Answer.at]
    rcases hq : src.quests[src.ans[i].qpos.toNat]? with _ | q
    · rw [hp.quest_none ho (List.subset_append_left _ _) hq]
      exact .error _
    obtain ⟨q', hread', -, hqname⟩ := hp.quest ho (List.subset_append_left _ _) hq
    refine Tracks.step hread' (Tracks.step hrdata (Tracks.step hqname (Tracks.bind_same _ ?_)))
    rintro ⟨ret, resData'⟩
    obtain ⟨ans, hx, hset⟩ := hp.refill ho hidx ha
    obtain ⟨h₁, hset, hfill⟩ := hset (UInt16.ofNat (ret % 65536).toNat)
    rw [hx]
    refine Tracks.step (lift_ok rfl) (Tracks.step hset (Tracks.bind_same _ fun b => ?_))
    obtain ⟨h₂, hw, ho₂, ⟨x', halike, hp₂⟩, hk₂⟩ := hfill b
    refine Tracks.step (onHeap_ok hw) ?_
    have hrec := ih (i := i + 1) (len + ((UInt16.ofNat (ret % 65536).toNat).toNat + 12)) resData' hp₂
      (by rw [halike.blocks]; exact ho₂) (by rw [halike.quests, halike.ans]; exact hptr)
      (by rw [List.length_set]; omega)
    simp only [List.drop_set_of_lt (Nat.lt_succ_self i)] at hrec
    refine hrec.bind_left ?_
    rintro ⟨vs, len'⟩ ⟨h', len''⟩ ⟨rfl, hlen, ho', ⟨x'', halike', hp'⟩, hk'⟩
    refine ⟨_, rfl, rfl, by rw [List.length_cons, hlen], by rwa [halike.blocks] at ho', ⟨x'', halike.trans halike', ?_⟩,
      fun b hb => (hk' b hb).trans (hk₂ b hb)⟩
    rw [take_succ_set hlt, List.drop_set_of_lt (by omega), List.append_assoc,
      show i + 1 + names.length = i + (names.length + 1) by omega] at hp'
    exact hp'

theorem putAnswers_tracks (names : List UInt16) {dest i : Nat} (b : Block) (dataPos : Nat)
    (hp : PacketAt h args p x src) (ho : Owns h (dest :: (x.blocks p ++ l))) (hb : h.val dest = .bytes b)
    (hptr : ptr.quests = some x.quests ∧ ptr.ans = x.ans) (hn : i + names.length ≤ src.ans.length) :
    Tracks HeapFault.fault (fun b' h' => h'.val dest = .bytes b' ∧ Owns h' (dest :: (x.blocks p ++ l)) ∧
        ∀ c ∈ x.blocks p ++ l, h'.val c = h.val c)
      (DnsRelay.putAnswers (((src.ans.drop i).take names.length).zip names) b dataPos)
      (putAnswers ptr dest names i dataPos h) := by
  induction names generalizing h i b dataPos with
  | nil => exact .ok ⟨hb, ho, fun _ _ => rfl⟩
  | cons name names ih =>
    rw [List.length_cons] at hn
    have hlt : i < src.ans.length := by omega
    have hi : src.ans[i]? = some src.ans[i] := List.getElem?_eq_getElem hlt
    have hsub : x.blocks p ⊆ dest :: (x.blocks p ++ l) :=
      fun c hc => List.mem_cons_of_mem _ (List.mem_append_left _ hc)
    obtain ⟨a, hread, ha, hrdata, -⟩ := hp.answer ho hsub hi
    rw [List.length_cons, List.drop_eq_getElem_cons hlt, List.take_succ_cons, List.zip_cons_cons]
    unfold DnsRelay.putAnswers putAnswers
    rw [hptr.2]
    refine Tracks.step hread ?_
    obtain ⟨r, rfl⟩ : ∃ r, a = src.ans[i].at r := ⟨a.rdata, ha⟩
    refine Tracks.step hrdata (Tracks.step (cellAs_ok ho List.mem_cons_self (by rw [hb]; rfl)) ?_)
    simp only [Answer.at]
    refine Tracks.bind_same _ fun b₁ => ?_
    refine Tracks.bind_same _ fun b₂ => ?_
    refine Tracks.bind_same _ fun b₃ => ?_
    refine Tracks.bind_same _ fun b₄ => ?_
    refine Tracks.bind_same _ fun b₅ => ?_
    refine Tracks.bind_same _ fun b₆ => ?_
    obtain ⟨h₁, hw, ho₁, hb₁, hk₁⟩ := ho.exists_write (a := dest) List.mem_cons_self (.bytes b₆)
    have hkept : ∀ c ∈ x.blocks p ++ l, h₁.val c = h.val c := by
      intro c hc
      refine hk₁ c ?_
      rintro rfl
      exact (List.nodup_cons.1 ho.nodup).1 hc
    refine Tracks.step (onHeap_ok hw) ((ih b₆ _ (hp.congr fun c hc => hkept c (List.mem_append_left _ hc)) ho₁ hb₁
      (by omega)).mono ?_)
    rintro b' h' ⟨hb', ho', hk'⟩
    exact ⟨hb', ho', fun c hc => (hk' c hc).trans (hkept c hc)⟩

theorem responseFormat_tracks {a : ThreadArgs σ} (hp : PacketAt h args p x src) (ho : Owns h (x.blocks p ++ l))
    (hargs : args ∈ l) (ha : h.val args = .args a) (hbuf : a.buf = src.reqBuf) :
    Tracks HeapFault.fault (fun r w => w.2.2 = r.len ∧ w.1.val w.2.1 = .bytes r.dest ∧
        Owns w.1 (w.2.1 :: (x.blocks p ++ l)) ∧ (∃ x' : PacketPtrs, x.Alike x' ∧
          PacketAt w.1 args p x' { src with ans := r.src.ans ++ src.ans.drop src.ancount.toNat }) ∧
        ∀ b ∈ l, w.1.val b = h.val b)
      (DnsRelay.responseFormat C st src) (responseFormat A C st h p) := by
  unfold DnsRelay.responseFormat responseFormat
  refine Tracks.step (hp.read ho (List.subset_append_left _ _)) ?_
  have hnames := namePointers_tracks
    ⟨args, src.bufLen, src.id, src.flags, src.qdcount, src.ancount, some x.quests, x.ans⟩ hp ho
    (List.subset_append_left _ _) ⟨rfl, rfl⟩ (n := src.ancount.toNat) (i := 0) (by simpa using hp.ancount)
  rw [List.drop_zero] at hnames
  refine hnames.bind ?_
  rintro names _ ⟨rfl, hlen⟩
  have hformat := formatAnswers_tracks (C := C)
    ⟨args, src.bufLen, src.id, src.flags, src.qdcount, src.ancount, some x.quests, x.ans⟩ names src.bufLen
    (Block.fresh 255 st.resData) hp ho ⟨rfl, rfl⟩ (i := 0) (by rw [hlen]; simpa using hp.ancount)
  rw [List.drop_zero, hlen] at hformat
  refine hformat.bind ?_
  rintro ⟨ans, len⟩ ⟨h₁, _⟩ ⟨rfl, hans, ho₁, ⟨x', halike, hp₁⟩, hk₁⟩
  have hans : ans.length = names.length := hans.trans hlen.symm
  simp only [List.take_zero, List.nil_append, Nat.zero_add] at hp₁
  obtain ⟨dest, h₂, hm, ho₂, hd₂, hk₂⟩ := ho₁.exists_malloc A (.bytes (Block.fresh (len + 1) st.dest))
  simp only [hm]
  have hargs₂ : h₂.val args = .args a := by
    rw [hk₂ args (List.mem_append_right _ hargs), hk₁ args hargs, ha]
  refine Tracks.step (cellAs_ok ho₂ (by simp [hargs]) (by rw [hargs₂]; rfl)) ?_
  refine Tracks.step (cellAs_ok ho₂ List.mem_cons_self (by rw [hd₂]; rfl)) ?_
  rw [hbuf]
  refine Tracks.bind_same _ fun b₁ => ?_
  refine Tracks.bind_same _ fun b₂ => ?_
  refine Tracks.bind_same _ fun b₃ => ?_
  obtain ⟨h₃, hw, ho₃, hb₃, hk₃⟩ := ho₂.exists_write (a := dest) List.mem_cons_self (.bytes b₃)
  refine Tracks.step (onHeap_ok hw) ?_
  have hkept : ∀ c ∈ x.blocks p ++ l, h₃.val c = h₁.val c := by
    intro c hc
    rw [hk₃ c, hk₂ c hc]
    rintro rfl
    exact (List.nodup_cons.1 ho₂.nodup).1 hc
  have hp₃ := hp₁.congr fun c hc => hkept c (List.mem_append_left _ (halike.blocks p ▸ hc))
  have hput := putAnswers_tracks (l := l)
    ⟨args, src.bufLen, src.id, src.flags, src.qdcount, src.ancount, some x.quests, x.ans⟩ names b₃ src.bufLen hp₃
    (by rw [halike.blocks]; exact ho₃) hb₃ ⟨by rw [halike.quests], by rw [halike.ans]⟩ (i := 0) (by simp; omega)
  rw [List.drop_zero, List.take_left' (by omega), halike.blocks] at hput
  refine hput.bind ?_
  rintro b h₄ ⟨hb, ho₄, hk₄⟩
  refine .ok ⟨rfl, hb, ho₄, ⟨x', halike, hp₃.congr fun c hc => ?_⟩, fun c hc => ?_⟩
  · exact hk₄ c (List.mem_append_left _ (halike.blocks p ▸ hc))
  · rw [hk₄ c (List.mem_append_right _ hc), hkept c (List.mem_append_right _ hc), hk₁ c hc]

end Format

/-! ### `packetFree` -/

section Free
variable {args p : Nat} {x : PacketPtrs} {src : Packet}

theorem freeQuests_ok {quests : Nat} (done qs : List PtrQuest) (ho : Owns h (qs.map PtrQuest.qname ++ l))
    (hquests : quests ∈ l) (hv : h.val quests = .quests ((done ++ qs).map some)) :
    ∃ h', freeQuests quests qs.length done.length h = .ok h' ∧ Owns h' l ∧ h'.val = h.val := by
  induction qs generalizing h done with
  | nil => exact ⟨h, rfl, ho, rfl⟩
  | cons q qs ih =>
    have hread : questAt h (some quests) done.length = .ok q :=
      questAt_ok ho (List.mem_append_right _ hquests) hv (by simp)
    obtain ⟨h₁, hf, ho₁, hk₁⟩ := Owns.exists_free (l := qs.map PtrQuest.qname ++ l) ho
    obtain ⟨h', hrec, ho', hk'⟩ := ih (done ++ [q]) ho₁ (by rw [hk₁, hv, List.append_assoc]; rfl)
    refine ⟨h', ?_, ho', hk'.trans hk₁⟩
    rw [List.length_cons, freeQuests, hread, heap_bind, onHeap_ok hf, heap_bind]
    rwa [List.length_append] at hrec

/-- What is left are the record data behind `ANCOUNT`. -/
theorem freeAnswers_ok {ans : Nat} (done as : List PtrAnswer) {n : Nat} (hn : n ≤ as.length)
    (ho : Owns h (as.map PtrAnswer.rdata ++ l)) (hans : ans ∈ l) (hv : h.val ans = .answers ((done ++ as).map some)) :
    ∃ h', freeAnswers ans n done.length h = .ok h' ∧ Owns h' ((as.drop n).map PtrAnswer.rdata ++ l) ∧
      h'.val = h.val := by
  induction n generalizing h done as with
  | zero => exact ⟨h, rfl, ho, rfl⟩
  | succ n ih =>
    rcases as with _ | ⟨a, as⟩
    · exact absurd hn (Nat.not_succ_le_zero n)
    have hread : answerAt h (some ans) done.length = .ok a :=
      answerAt_ok ho (List.mem_append_right _ hans) hv (by simp)
    obtain ⟨h₁, hf, ho₁, hk₁⟩ := Owns.exists_free (l := as.map PtrAnswer.rdata ++ l) ho
    obtain ⟨h', hrec, ho', hk'⟩ := ih (done ++ [a]) as (Nat.le_of_succ_le_succ hn) ho₁
      (by rw [hk₁, hv, List.append_assoc]; rfl)
    refine ⟨h', ?_, ho', hk'.trans hk₁⟩
    rw [freeAnswers, hread, heap_bind, onHeap_ok hf, heap_bind]
    rwa [List.length_append] at hrec

/-- `packetFree` leaves the record data behind `ANCOUNT`, and nothing else. -/
theorem packetFree_ok (hp : PacketAt h args p x src) (ho : Owns h (x.blocks p ++ l)) :
    ∃ h' lost, packetFree h p = .ok h' ∧ Owns h' (lost ++ l) ∧
      lost.length = src.ans.length - src.ancount.toNat ∧ h'.val = h.val := by
  have hread := hp.read ho (List.subset_append_left _ _)
  have hperm : (x.blocks p ++ l).Perm (x.qs.map PtrQuest.qname ++
      (x.quests :: (x.as.map PtrAnswer.rdata ++ (x.ans.toList ++ p :: l)))) := by
    rw [List.perm_iff_count]
    intro b
    simp only [PacketPtrs.blocks, List.count_append, List.count_cons]
    omega
  obtain ⟨h₁, hf₁, ho₁, hk₁⟩ := freeQuests_ok [] x.qs (ho.perm hperm) (by simp) hp.quests
  obtain ⟨h₂, hf₂, ho₂, hk₂⟩ := ho₁.exists_free
  have hsection : freeQuestSection ⟨args, src.bufLen, src.id, src.flags, src.qdcount, src.ancount, some x.quests,
      x.ans⟩ h = .ok h₂ := by
    unfold freeQuestSection
    rw [hp.qdcount, ← hp.texts.length_eq]
    simp only [List.length_nil] at hf₁
    dsimp only
    rw [hf₁, heap_bind, onHeap_ok hf₂]
  have hans := hp.answers
  have hlen := hans.forall₂.length_eq
  have hcount : src.ancount.toNat ≤ x.as.length := by
    rw [hlen]
    exact hp.ancount
  suffices hrest : ∃ h₃, freeAnswerSection ⟨args, src.bufLen, src.id, src.flags, src.qdcount, src.ancount,
      some x.quests, x.ans⟩ h₂ = .ok h₃ ∧
      Owns h₃ (p :: ((x.as.drop src.ancount.toNat).map PtrAnswer.rdata ++ l)) ∧ h₃.val = h₂.val by
    obtain ⟨h₃, hf₃, ho₃, hk₃⟩ := hrest
    obtain ⟨h₄, hf₄, ho₄, hk₄⟩ := ho₃.exists_free
    refine ⟨h₄, _, ?_, ho₄, by rw [List.length_map, List.length_drop, hlen], by rw [hk₄, hk₃, hk₂, hk₁]⟩
    rw [packetFree, hread, heap_bind, hsection, heap_bind, hf₃, heap_bind, onHeap_ok hf₄]
  rcases hx : x.ans with _ | ans
  · rw [hx] at hans ho₂
    rw [hans.1] at ho₂ ⊢
    exact ⟨h₂, rfl, by simpa using ho₂, rfl⟩
  · rw [hx] at hans ho₂
    obtain ⟨h₃, hf₃, ho₃, hk₃⟩ := freeAnswers_ok [] x.as hcount ho₂ (by simp)
      (show h₂.val ans = .answers (([] ++ x.as).map some) by rw [hk₂, hk₁, hans.2.1]; rfl)
    have hmid : ((x.as.drop src.ancount.toNat).map PtrAnswer.rdata ++ ([ans] ++ p :: l)).Perm
        (ans :: (p :: ((x.as.drop src.ancount.toNat).map PtrAnswer.rdata ++ l))) := by
      rw [List.perm_iff_count]
      intro b
      simp only [List.count_append, List.count_cons, List.count_nil]
      omega
    obtain ⟨h₄, hf₄, ho₄, hk₄⟩ := (ho₃.perm hmid).exists_free
    refine ⟨h₄, ?_, ho₄, hk₄.trans hk₃⟩
    simp only [List.length_nil] at hf₃
    unfold freeAnswerSection
    dsimp only
    rw [hf₃, heap_bind, onHeap_ok hf₄]

end Free

end PacketHeap

end DnsRelay
