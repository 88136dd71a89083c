import DnsRelay.PacketHeap
import DnsRelay.Lib.Tracks

/-!
# The packet on the heap

Each function on addresses does what the function on values does, and where that one faults it faults in the same way:
it reads no block that is not in use, and releases none twice, whatever the allocator. Along with the values it is
stated which blocks a packet consists of.
-/

namespace DnsRelay
open Alloc

/-- The question with its name at an address. -/
def Quest.at (v : Quest) (p : Nat) : PtrQuest := ⟨p, v.qtype, v.qclass⟩

/-- The answer with its record data at an address. -/
def Answer.at (v : Answer) (p : Nat) : PtrAnswer := ⟨v.qpos, v.name, v.type, v.cls, v.rdlen, v.ttl, v.addition, p⟩

namespace PacketHeap
variable {σ : Type} {h h' : PacketHeap σ} {l : List Nat} {A : Allocator} {C : Libc} {st : Stale}

def QuestAt (h : PacketHeap σ) (q : PtrQuest) (v : Quest) : Prop := h.val q.qname = .bytes v.qname ∧ q = v.at q.qname

def AnswerAt (h : PacketHeap σ) (a : PtrAnswer) (v : Answer) : Prop :=
  h.val a.rdata = .bytes v.rdata ∧ a = v.at a.rdata

theorem QuestAt.congr {q : PtrQuest} {v : Quest} (hq : QuestAt h q v) (hk : h'.val q.qname = h.val q.qname) :
    QuestAt h' q v := ⟨hk.trans hq.1, hq.2⟩

theorem AnswerAt.congr {a : PtrAnswer} {v : Answer} (ha : AnswerAt h a v) (hk : h'.val a.rdata = h.val a.rdata) :
    AnswerAt h' a v := ⟨hk.trans ha.1, ha.2⟩

theorem forall₂_imp_mem {α β : Type} {R R' : α → β → Prop} {as : List α} {vs : List β} (hr : List.Forall₂ R as vs)
    (himp : ∀ a ∈ as, ∀ v, R a v → R' a v) : List.Forall₂ R' as vs := by
  induction hr with
  | nil => exact .nil
  | cons hv _ ih =>
    exact .cons (himp _ List.mem_cons_self _ hv) (ih fun a ha => himp a (List.mem_cons_of_mem _ ha))

theorem questsAt_congr {qs : List PtrQuest} {vs : List Quest} (hq : List.Forall₂ (QuestAt h) qs vs)
    (hk : ∀ b ∈ qs.map PtrQuest.qname, h'.val b = h.val b) : List.Forall₂ (QuestAt h') qs vs :=
  forall₂_imp_mem hq fun q hq _ hv => hv.congr (hk q.qname (List.mem_map_of_mem hq))

theorem answersAt_congr {as : List PtrAnswer} {vs : List Answer} (ha : List.Forall₂ (AnswerAt h) as vs)
    (hk : ∀ b ∈ as.map PtrAnswer.rdata, h'.val b = h.val b) : List.Forall₂ (AnswerAt h') as vs :=
  forall₂_imp_mem ha fun a ha _ hv => hv.congr (hk a.rdata (List.mem_map_of_mem ha))

/-! ### Arrays -/

section Arrays
variable {p i : Nat}

theorem elementAt_ok {β : Type} {l : List (Option β)} {x : β} (hx : l[i]? = some (some x)) : elementAt l i = .ok x := by
  unfold elementAt
  rw [hx]

theorem questAt_ok {qs : List (Option PtrQuest)} {q : PtrQuest} (ho : Owns h l) (hp : p ∈ l)
    (hv : h.val p = .quests qs) (hq : qs[i]? = some (some q)) : questAt h (some p) i = .ok q := by
  unfold questAt
  simp only [deref, lift_ok rfl, heap_bind,
    cellAs_ok ho hp (show PacketCell.quests? (h.val p) = some qs by rw [hv]; rfl)]
  exact elementAt_ok hq

theorem answerAt_ok {as : List (Option PtrAnswer)} {a : PtrAnswer} (ho : Owns h l) (hp : p ∈ l)
    (hv : h.val p = .answers as) (ha : as[i]? = some (some a)) : answerAt h (some p) i = .ok a := by
  unfold answerAt
  simp only [deref, lift_ok rfl, heap_bind,
    cellAs_ok ho hp (show PacketCell.answers? (h.val p) = some as by rw [hv]; rfl)]
  exact elementAt_ok ha

/-- An element of an array is set. -/
theorem setQuest_ok {done : List (Option PtrQuest)} {x : Option PtrQuest} (rest : List (Option PtrQuest))
    (ho : Owns h l) (hp : p ∈ l) (hv : h.val p = .quests (done ++ x :: rest)) (hi : done.length = i) (q : PtrQuest) :
    ∃ h', setQuest h p i q = .ok h' ∧ Owns h' l ∧ h'.val p = .quests (done ++ some q :: rest) ∧
      ∀ b, b ≠ p → h'.val b = h.val b := by
  obtain ⟨h', hw, ho', hv', hk⟩ := ho.exists_write hp (.quests (done ++ some q :: rest))
  refine ⟨h', ?_, ho', hv', hk⟩
  have hread : cellAs PacketCell.quests? h p = .ok (done ++ x :: rest) := cellAs_ok ho hp (by rw [hv]; rfl)
  have hset : (done ++ x :: rest).set i (some q) = done ++ some q :: rest := by rw [← hi]; simp
  unfold setQuest
  rw [hread, heap_bind, if_pos (by simp; omega), hset, onHeap_ok hw]

theorem setAnswer_ok {done : List (Option PtrAnswer)} {x : Option PtrAnswer} (rest : List (Option PtrAnswer))
    (ho : Owns h l) (hp : p ∈ l) (hv : h.val p = .answers (done ++ x :: rest)) (hi : done.length = i) (a : PtrAnswer) :
    ∃ h', setAnswer h p i a = .ok h' ∧ Owns h' l ∧ h'.val p = .answers (done ++ some a :: rest) ∧
      ∀ b, b ≠ p → h'.val b = h.val b := by
  obtain ⟨h', hw, ho', hv', hk⟩ := ho.exists_write hp (.answers (done ++ some a :: rest))
  refine ⟨h', ?_, ho', hv', hk⟩
  have hread : cellAs PacketCell.answers? h p = .ok (done ++ x :: rest) := cellAs_ok ho hp (by rw [hv]; rfl)
  have hset : (done ++ x :: rest).set i (some a) = done ++ some a :: rest := by rw [← hi]; simp
  unfold setAnswer
  rw [hread, heap_bind, if_pos (by simp; omega), hset, onHeap_ok hw]

end Arrays

/-- A new buffer that is filled at once. -/
theorem fill_ok (ho : Owns h l) (A : Allocator) (b₀ : Block) : ∃ p h₁, h.malloc A (.bytes b₀) = (p, h₁) ∧
    cellAs PacketCell.bytes? h₁ p = .ok b₀ ∧ ∀ b, ∃ h₂, h₁.write p (.bytes b) = .ok h₂ ∧ Owns h₂ (p :: l) ∧
      h₂.val p = .bytes b ∧ ∀ c ∈ l, h₂.val c = h.val c := by
  obtain ⟨p, h₁, hm, ho₁, hp, hk⟩ := ho.exists_malloc A (.bytes b₀)
  refine ⟨p, h₁, hm, cellAs_ok ho₁ List.mem_cons_self (by rw [hp]; rfl), fun b => ?_⟩
  obtain ⟨h₂, hw, ho₂, hp₂, hk₂⟩ := ho₁.exists_write (a := p) List.mem_cons_self (.bytes b)
  refine ⟨h₂, hw, ho₂, hp₂, fun c hc => ?_⟩
  have hne : c ≠ p := by
    rintro rfl
    exact (List.nodup_cons.1 ho₁.nodup).1 hc
  rw [hk₂ c hne, hk c hc]

/-! ### The whole packet -/

/-- The addresses in a packet. -/
structure PacketPtrs where
  quests : Nat
  ans : Option Nat
  qs : List PtrQuest
  as : List PtrAnswer

/-- The blocks of the packet at `p`. -/
def PacketPtrs.blocks (x : PacketPtrs) (p : Nat) : List Nat :=
  p :: x.quests :: (x.qs.map PtrQuest.qname ++ (x.ans.toList ++ x.as.map PtrAnswer.rdata))

/-- The answers are those in the array; without an array there are none. -/
def AnswersAt (h : PacketHeap σ) (as : List PtrAnswer) (vs : List Answer) : Option Nat → Prop
  | none => as = [] ∧ vs = []
  | some p => vs ≠ [] ∧ h.val p = .answers (as.map some) ∧ List.Forall₂ (AnswerAt h) as vs

/-- The packet at `p` is `src`. -/
structure PacketAt (h : PacketHeap σ) (args p : Nat) (x : PacketPtrs) (src : Packet) : Prop where
  packet : h.val p = .packet ⟨args, src.bufLen, src.id, src.flags, src.qdcount, src.ancount, some x.quests, x.ans⟩
  quests : h.val x.quests = .quests (x.qs.map some)
  texts : List.Forall₂ (QuestAt h) x.qs src.quests
  answers : AnswersAt h x.as src.ans x.ans
  qdcount : src.qdcount.toNat = src.quests.length
  ancount : src.ancount.toNat ≤ src.ans.length

theorem AnswersAt.forall₂ {as : List PtrAnswer} {vs : List Answer} {ans : Option Nat} (ha : AnswersAt h as vs ans) :
    List.Forall₂ (AnswerAt h) as vs := by
  rcases ans with _ | p
  · obtain ⟨rfl, rfl⟩ := ha
    exact .nil
  · exact ha.2.2

theorem AnswersAt.congr {as : List PtrAnswer} {vs : List Answer} {ans : Option Nat} (ha : AnswersAt h as vs ans)
    (hk : ∀ b ∈ ans.toList ++ as.map PtrAnswer.rdata, h'.val b = h.val b) : AnswersAt h' as vs ans := by
  rcases ans with _ | p
  · exact ha
  · obtain ⟨hne, hv, has⟩ := ha
    exact ⟨hne, by rw [hk p (by simp), hv], answersAt_congr has fun b hb => hk b (List.mem_append_right _ hb)⟩

theorem PacketAt.congr {args p : Nat} {x : PacketPtrs} {src : Packet} (hp : PacketAt h args p x src)
    (hk : ∀ b ∈ x.blocks p, h'.val b = h.val b) : PacketAt h' args p x src := by
  simp only [PacketPtrs.blocks, List.mem_cons, forall_eq_or_imp] at hk
  obtain ⟨hkp, hkq, hk⟩ := hk
  exact ⟨hkp ▸ hp.packet, hkq ▸ hp.quests, questsAt_congr hp.texts fun b hb => hk b (List.mem_append_left _ hb),
    hp.answers.congr fun b hb => hk b (List.mem_append_right _ hb), hp.qdcount, hp.ancount⟩

/-- How many blocks a packet consists of. -/
def blockCount (src : Packet) : Nat := 2 + src.quests.length + if src.ans = [] then 0 else 1 + src.ans.length

theorem PacketAt.length {args p : Nat} {x : PacketPtrs} {src : Packet} (hp : PacketAt h args p x src) :
    (x.blocks p).length = blockCount src := by
  have hq := hp.texts.length_eq
  have ha := hp.answers.forall₂.length_eq
  have hans := hp.answers
  unfold PacketPtrs.blocks blockCount
  rcases hx : x.ans with _ | q
  · rw [hx] at hans
    simp [hans.1, hans.2, hq]
    omega
  · rw [hx] at hans
    rw [if_neg hans.1]
    simp [hq, ha]
    omega

/-! ### `packetParse` -/

section Parse
variable {args n i pos : Nat} {a : ThreadArgs σ}

theorem parseQuests_tracks {quests : Nat} (done : List (Option PtrQuest)) (ho : Owns h l) (hargs : args ∈ l)
    (ha : h.val args = .args a) (hquests : quests ∈ l) (hq : h.val quests = .quests (done ++ List.replicate n none))
    (hi : done.length = i) :
    Tracks HeapFault.fault (fun v w => v.2 = w.2 ∧ ∃ qs : List PtrQuest, qs.length = n ∧
        Grows h w.1 l (qs.map PtrQuest.qname) [quests] ∧ w.1.val quests = .quests (done ++ qs.map some) ∧
          List.Forall₂ (QuestAt w.1) qs v.1)
      (DnsRelay.parseQuests C st a.buf n i pos) (parseQuests A C st args quests n i pos h) := by
  induction n generalizing h l done i pos with
  | zero => exact .ok ⟨rfl, [], rfl, .refl ho _, by simpa using hq, .nil⟩
  | succ n ih =>
    unfold DnsRelay.parseQuests parseQuests
    refine Tracks.step (cellAs_ok ho hargs (by rw [ha]; rfl)) ?_
    refine Tracks.bind_same _ fun s => ?_
    obtain ⟨qname, h₁, hm, hread, hfill⟩ := fill_ok ho A (Block.fresh (64 + 1) (st.qname i))
    simp only [hm]
    refine Tracks.step hread ?_
    refine Tracks.bind_same _ ?_
    rintro ⟨b, -⟩
    obtain ⟨h₂, hw, ho₂, hb, hk⟩ := hfill b
    refine Tracks.step (onHeap_ok hw) ?_
    refine Tracks.bind_same _ fun qtype => ?_
    refine Tracks.bind_same _ fun qclass => ?_
    have hne : args ≠ quests := by
      rintro rfl
      rw [ha] at hq
      cases hq
    have hnew : qname ∉ l := (List.nodup_cons.1 ho₂.nodup).1
    obtain ⟨h₃, hset, ho₃, hq₃, hk₃⟩ := setQuest_ok (List.replicate n none) ho₂ (List.mem_cons_of_mem _ hquests)
      (by rw [hk quests hquests, hq, List.replicate_succ]) hi ⟨qname, qtype, qclass⟩
    refine Tracks.step hset ?_
    refine (ih (done ++ [some ⟨qname, qtype, qclass⟩]) ho₃ (List.mem_cons_of_mem _ hargs) ?_
      (List.mem_cons_of_mem _ hquests) ?_ ?_).bind_left ?_
    · rw [hk₃ args hne, hk args hargs, ha]
    · rw [hq₃, List.append_assoc]
      rfl
    · rw [List.length_append, hi]
      rfl
    · rintro ⟨vs, p⟩ ⟨h', -⟩ ⟨rfl, qs, hlen, hg, hq', hqs⟩
      have hqn : qname ≠ quests := fun he => hnew (he ▸ hquests)
      refine ⟨_, rfl, rfl, ⟨qname, qtype, qclass⟩ :: qs, by rw [List.length_cons, hlen], hg.cons fun b hb hn => ?_, ?_,
        .cons ⟨?_, rfl⟩ hqs⟩
      · rw [hk₃ b (by simpa using hn), hk b hb]
      · rw [hq', List.append_assoc]
        rfl
      · rw [hg.kept qname List.mem_cons_self (by simpa using hqn), hk₃ qname hqn, hb]

theorem parseAnswers_tracks {ans : Nat} (done : List (Option PtrAnswer)) (ho : Owns h l) (hargs : args ∈ l)
    (ha : h.val args = .args a) (hans : ans ∈ l) (hv : h.val ans = .answers (done ++ List.replicate n none))
    (hi : done.length = i) :
    Tracks HeapFault.fault (fun v w => v.2 = w.2 ∧ ∃ as : List PtrAnswer, as.length = n ∧
        Grows h w.1 l (as.map PtrAnswer.rdata) [ans] ∧ w.1.val ans = .answers (done ++ as.map some) ∧
          List.Forall₂ (AnswerAt w.1) as v.1)
      (DnsRelay.parseAnswers C st a.buf n i pos) (parseAnswers A C st args ans n i pos h) := by
  induction n generalizing h l done i pos with
  | zero => exact .ok ⟨rfl, [], rfl, .refl ho _, by simpa using hv, .nil⟩
  | succ n ih =>
    unfold DnsRelay.parseAnswers parseAnswers parseAnswer
    simp only [bind_assoc]
    refine Tracks.step (cellAs_ok ho hargs (by rw [ha]; rfl)) ?_
    refine Tracks.bind_same _ fun name => ?_
    refine Tracks.bind_same _ fun type => ?_
    refine Tracks.bind_same _ fun cls => ?_
    refine Tracks.bind_same _ fun ttl => ?_
    refine Tracks.bind_same _ fun rdlen => ?_
    obtain ⟨rdata, h₁, hm, hread, hfill⟩ := fill_ok ho A (Block.fresh (typeBufSize type) (st.rdata i))
    simp only [hm]
    refine Tracks.step hread ?_
    refine Tracks.bind_same _ ?_
    rintro ⟨b, addition⟩
    obtain ⟨h₂, hw, ho₂, hb, hk⟩ := hfill b
    refine Tracks.step (onHeap_ok hw) ?_
    have hne : args ≠ ans := by
      rintro rfl
      rw [ha] at hv
      cases hv
    have hnew : rdata ∉ l := (List.nodup_cons.1 ho₂.nodup).1
    obtain ⟨h₃, hset, ho₃, hv₃, hk₃⟩ := setAnswer_ok (List.replicate n none) ho₂ (List.mem_cons_of_mem _ hans)
      (by rw [hk ans hans, hv, List.replicate_succ]) hi ⟨0, name, type, cls, rdlen, ttl, addition, rdata⟩
    refine Tracks.step hset ?_
    refine (ih (done ++ [some ⟨0, name, type, cls, rdlen, ttl, addition, rdata⟩]) ho₃
      (List.mem_cons_of_mem _ hargs) ?_ (List.mem_cons_of_mem _ hans) ?_ ?_).bind_left ?_
    · rw [hk₃ args hne, hk args hargs, ha]
    · rw [hv₃, List.append_assoc]
      rfl
    · rw [List.length_append, hi]
      rfl
    · rintro ⟨vs, p⟩ ⟨h', -⟩ ⟨rfl, as, hlen, hg, hv', has⟩
      have hrn : rdata ≠ ans := fun he => hnew (he ▸ hans)
      refine ⟨_, rfl, rfl, ⟨0, name, type, cls, rdlen, ttl, addition, rdata⟩ :: as, by rw [List.length_cons, hlen],
        hg.cons fun b hb hn => ?_, ?_, .cons ⟨?_, rfl⟩ has⟩
      · rw [hk₃ b (by simpa using hn), hk b hb]
      · rw [hv', List.append_assoc]
        rfl
      · rw [hg.kept rdata List.mem_cons_self (by simpa using hrn), hk₃ rdata hrn, hb]

theorem packetParse_tracks (ho : Owns h l) (hargs : args ∈ l) (ha : h.val args = .args a) :
    Tracks HeapFault.fault (fun src w => src.reqBuf = a.buf ∧ src.bufLen = a.bufLen ∧
        src.ancount.toNat = src.ans.length ∧
        ∃ x, Grows h w.1 l (x.blocks w.2) [] ∧ PacketAt w.1 args w.2 x src)
      (DnsRelay.packetParse C st a.buf a.bufLen) (packetParse A C st h args) := by
  unfold DnsRelay.packetParse
  refine Tracks.bind_left (R := fun v w => v.1.reqBuf = a.buf ∧ v.1.bufLen = a.bufLen ∧
    v.1.ancount.toNat = v.1.ans.length ∧ ∃ x, Grows h w.1 l (x.blocks w.2) [] ∧ PacketAt w.1 args w.2 x v.1) ?_
    fun v w hr => ⟨v.1, rfl, hr⟩
  unfold packetWalk packetParse
  obtain ⟨dest, h₁, hm₁, ho₁, hd₁, hk₁⟩ := ho.exists_malloc A (.packet ⟨0, 0, 0, 0, 0, 0, none, none⟩)
  simp only [hm₁]
  refine Tracks.step (cellAs_ok ho₁ (List.mem_cons_of_mem _ hargs) (by rw [hk₁ args hargs, ha]; rfl)) ?_
  refine Tracks.bind_same _ fun id => ?_
  refine Tracks.bind_same _ fun flags => ?_
  refine Tracks.bind_same _ fun qdcount => ?_
  refine Tracks.bind_same _ fun ancount => ?_
  obtain ⟨quests, h₂, h₃, hm₂, hw₃, ho₃, hquests, hq₃, hd₃, hk₃⟩ := ho₁.exists_malloc_write (a := dest)
    List.mem_cons_self A (.quests (List.replicate qdcount.toNat none))
    fun quests => .packet ⟨args, a.bufLen, id, flags, qdcount, ancount, some quests, none⟩
  simp only [hm₂]
  refine Tracks.step (onHeap_ok hw₃) ?_
  have hdest : dest ∉ l := (List.nodup_cons.1 ho₁.nodup).1
  have hquests : quests ≠ dest ∧ quests ∉ l := by simpa [not_or] using hquests
  have hl : ∀ b ∈ l, b ≠ dest := by
    rintro b hb rfl
    exact hdest hb
  have hkept : ∀ b ∈ l, h₃.val b = h.val b := by
    intro b hb
    rw [hk₃ b (List.mem_cons_of_mem _ hb) (hl b hb), hk₁ b hb]
  refine (parseQuests_tracks [] ho₃ (by simp [hargs]) (by rw [hkept args hargs, ha]) List.mem_cons_self
    (by rw [hq₃]; rfl) rfl).bind ?_
  rintro ⟨vs, pos⟩ ⟨h₄, -⟩ ⟨rfl, qs, hlen, hg, hq₄, hqs⟩
  have hd₄ : h₄.val dest = h₃.val dest := hg.kept dest (by simp) (by simpa using hquests.1.symm)
  have hk₄ : ∀ b ∈ l, h₄.val b = h.val b := by
    intro b hb
    have hne : b ≠ quests := by
      rintro rfl
      exact hquests.2 hb
    rw [hg.kept b (by simp [hb]) (by simpa using hne), hkept b hb]
  have hqd : qdcount.toNat = vs.length := by rw [← hqs.length_eq, hlen]
  refine Tracks.ite (fun h0 => ?_) fun h0 => ?_
  · refine .ok ⟨rfl, rfl, ?_, ⟨quests, none, qs, []⟩, ⟨hg.owns.perm ?_, fun b hb _ => hk₄ b hb⟩, ?_⟩
    · rw [h0]
      rfl
    · simp only [PacketPtrs.blocks, Option.toList_none, List.map_nil, List.append_nil, List.cons_append]
      exact List.perm_middle.trans ((List.perm_middle.cons _).trans (.swap ..))
    · exact ⟨hd₄.trans hd₃, hq₄, hqs, ⟨rfl, rfl⟩, hqd, by rw [h0]; exact Nat.zero_le _⟩
  · have ho₄ := hg.owns
    obtain ⟨ans, h₅, h₆, hm₅, hw₆, ho₆, hans, ha₆, hd₆, hk₆⟩ := ho₄.exists_malloc_write (a := dest) (by simp) A
      (.answers (List.replicate ancount.toNat none))
      fun ans => .packet ⟨args, a.bufLen, id, flags, qdcount, ancount, some quests, some ans⟩
    simp only [hm₅]
    refine Tracks.step (onHeap_ok hw₆) ?_
    have hd : dest ∉ qs.map PtrQuest.qname := by
      have hdisj := List.disjoint_of_nodup_append ho₄.nodup
      exact fun hm => hdisj hm (by simp)
    have hne : ∀ b ∈ qs.map PtrQuest.qname ++ quests :: dest :: l, b ∉ [ans] := by
      intro b hb hm
      exact hans (List.mem_singleton.1 hm ▸ hb)
    have hargs₆ : h₆.val args = .args a := by
      rw [hk₆ args (by simp [hargs]) (hl args hargs), hk₄ args hargs, ha]
    refine (parseAnswers_tracks [] ho₆ (by simp [hargs]) hargs₆ List.mem_cons_self ha₆ rfl).bind ?_
    rintro ⟨as', pos'⟩ ⟨h₇, -⟩ ⟨rfl, as, hlen', hg₇, hv₇, has⟩
    have hk₇ : ∀ b ∈ qs.map PtrQuest.qname ++ quests :: dest :: l, h₇.val b = h₆.val b :=
      fun b hb => hg₇.kept b (List.mem_cons_of_mem _ hb) (hne b hb)
    have hanc : ancount.toNat = as'.length := by rw [← has.length_eq, hlen']
    have hnil : as' ≠ [] := by
      rintro rfl
      exact h0 (UInt16.toNat_inj.1 hanc)
    refine .ok ⟨rfl, rfl, hanc, ⟨quests, some ans, qs, as⟩, ⟨hg₇.owns.perm ?_, fun b hb _ => ?_⟩, ?_, ?_, ?_, ?_, hqd,
      hanc.le⟩
    · rw [List.perm_iff_count]
      intro b
      simp only [PacketPtrs.blocks, Option.toList_some, List.count_append, List.count_cons, List.count_nil]
      omega
    · rw [hk₇ b (by simp [hb]), hk₆ b (by simp [hb]) (hl b hb), hk₄ b hb]
    · rw [hk₇ dest (by simp), hd₆]
    · rw [hk₇ quests (by simp), hk₆ quests (by simp) hquests.1, hq₄]
      rfl
    · refine questsAt_congr hqs fun b hb => ?_
      have hbd : b ≠ dest := by
        rintro rfl
        exact hd hb
      rw [hk₇ b (List.mem_append_left _ hb), hk₆ b (List.mem_append_left _ hb) hbd]
    · exact ⟨hnil, hv₇, has⟩

end Parse

/-! ### Reading a packet -/

theorem forall₂_getElem? {α β : Type} {R : α → β → Prop} {as : List α} {vs : List β} (hr : List.Forall₂ R as vs)
    (i : Nat) : as[i]? = none ∧ vs[i]? = none ∨ ∃ a v, as[i]? = some a ∧ vs[i]? = some v ∧ R a v := by
  induction hr generalizing i with
  | nil => exact .inl ⟨rfl, rfl⟩
  | cons hv _ ih =>
    rcases i with _ | i
    · exact .inr ⟨_, _, rfl, rfl, hv⟩
    · exact ih i

namespace PacketAt
variable {args p i : Nat} {x : PacketPtrs} {src : Packet}

theorem read (hp : PacketAt h args p x src) (ho : Owns h l) (hsub : x.blocks p ⊆ l) :
    cellAs PacketCell.packet? h p = .ok ⟨args, src.bufLen, src.id, src.flags, src.qdcount, src.ancount,
      some x.quests, x.ans⟩ :=
  cellAs_ok ho (hsub List.mem_cons_self) (by rw [hp.packet]; rfl)

/-- `QUESTS[i]` and its name. -/
theorem quest (hp : PacketAt h args p x src) (ho : Owns h l) (hsub : x.blocks p ⊆ l) {v : Quest}
    (hv : src.quests[i]? = some v) :
    ∃ q, questAt h (some x.quests) i = .ok q ∧ q = v.at q.qname ∧ cellAs PacketCell.bytes? h q.qname = .ok v.qname := by
  obtain ⟨-, hn⟩ | ⟨q, v', hq, hv', hqv⟩ := forall₂_getElem? hp.texts i
  · rw [hn] at hv
    cases hv
  · rw [hv'] at hv
    cases hv
    refine ⟨q, questAt_ok ho (hsub (by simp [PacketPtrs.blocks])) hp.quests (by simp [hq]), hqv.2, ?_⟩
    have hmem : q.qname ∈ x.qs.map PtrQuest.qname := List.mem_map_of_mem (List.mem_of_getElem? hq)
    exact cellAs_ok ho (hsub (by simp [PacketPtrs.blocks, hmem])) (by rw [hqv.1]; rfl)

theorem quest_none (hp : PacketAt h args p x src) (ho : Owns h l) (hsub : x.blocks p ⊆ l)
    (hv : src.quests[i]? = none) : questAt h (some x.quests) i = .error (.fault .read) := by
  have hread : cellAs PacketCell.quests? h x.quests = .ok (x.qs.map some) :=
    cellAs_ok ho (hsub (by simp [PacketPtrs.blocks])) (by rw [hp.quests]; rfl)
  obtain ⟨hn, -⟩ | ⟨q, v', -, hv', -⟩ := forall₂_getElem? hp.texts i
  · unfold questAt
    simp only [deref, lift_ok rfl, heap_bind, hread, elementAt, List.getElem?_map, hn, Option.map_none]
  · rw [hv'] at hv
    cases hv

/-- `ANS[i]` and its record data. -/
theorem answer (hp : PacketAt h args p x src) (ho : Owns h l) (hsub : x.blocks p ⊆ l) {v : Answer}
    (hv : src.ans[i]? = some v) :
    ∃ a, answerAt h x.ans i = .ok a ∧ a = v.at a.rdata ∧ cellAs PacketCell.bytes? h a.rdata = .ok v.rdata ∧
      x.as[i]? = some a := by
  have hans := hp.answers
  obtain ⟨-, hn⟩ | ⟨a, v', ha, hv', hav⟩ := forall₂_getElem? hans.forall₂ i
  · rw [hn] at hv
    cases hv
  · rw [hv'] at hv
    cases hv
    have hmem : a.rdata ∈ x.as.map PtrAnswer.rdata := List.mem_map_of_mem (List.mem_of_getElem? ha)
    refine ⟨a, ?_, hav.2, cellAs_ok ho (hsub (by simp [PacketPtrs.blocks, hmem])) (by rw [hav.1]; rfl), ha⟩
    rcases hx : x.ans with _ | q
    · rw [hx] at hans
      rw [hans.1] at ha
      cases ha
    · rw [hx] at hans
      exact answerAt_ok ho (hsub (by simp [PacketPtrs.blocks, hx])) hans.2.1 (by simp [ha])

end PacketAt

/-! ### `urlStore` -/

section Store
variable {args p N : Nat} {x : PacketPtrs} {src : Packet}

theorem storeAnswers_tracks (clk : Nat → Nat) (hp : PacketAt h args p x src) (ho : Owns h l)
    (hsub : x.blocks p ⊆ l) {n i : Nat} (hn : i + n ≤ src.ans.length) (ptr : PtrPacket) (hptr : ptr.quests = some x.quests ∧ ptr.ans = x.ans)
    (c : LRUCache) :
    Tracks HeapFault.fault Eq (DnsRelay.storeAnswers N clk src.quests i ((src.ans.drop i).take n) c)
      (storeAnswers N clk h ptr n i c) := by
  induction n generalizing i c with
  | zero => exact .ok rfl
  | succ n ih =>
    have hi : src.ans[i]? = some src.ans[i] := List.getElem?_eq_getElem (by omega)
    obtain ⟨a, hread, ha, hrdata, -⟩ := hp.answer ho hsub hi
    rw [List.drop_eq_getElem_cons (by omega), List.take_succ_cons]
    unfold DnsRelay.storeAnswers storeAnswers
    rw [hptr.1, hptr.2]
    refine Tracks.step hread ?_
    rcases hq : src.quests[0]? with _ | q
    · rw [hp.quest_none ho hsub hq]
      exact .error _
    · obtain ⟨q', hread', hq', hqname⟩ := hp.quest ho hsub hq
      refine Tracks.step hread' ?_
      have htype : a.type = src.ans[i].type ∧ q'.qtype = q.qtype := by
        rw [ha, hq']
        exact ⟨rfl, rfl⟩
      rw [htype.1, htype.2]
      refine Tracks.ite (fun _ => ih (by omega) c) fun _ => ?_
      refine Tracks.step hqname (Tracks.bind_same _ fun name => ?_)
      refine Tracks.step hrdata (Tracks.bind_same _ fun ip => ?_)
      rw [show a.ttl = src.ans[i].ttl by rw [ha]; rfl, show a.addition = src.ans[i].addition by rw [ha]; rfl]
      exact Tracks.bind_same _ fun c => ih (by omega) c

theorem urlStore_tracks (hp : PacketAt h args p x src) (ho : Owns h l) (hsub : x.blocks p ⊆ l) (clk : Clock)
    (c : LRUCache) :
    Tracks HeapFault.fault Eq (DnsRelay.urlStore N clk src c) (urlStore N clk h p c) := by
  unfold DnsRelay.urlStore urlStore
  refine Tracks.step (hp.read ho hsub) ?_
  have htracks := storeAnswers_tracks clk.store hp ho hsub (n := src.ancount.toNat) (i := 0) (N := N)
    (by simpa using hp.ancount) ⟨args, src.bufLen, src.id, src.flags, src.qdcount, src.ancount, some x.quests, x.ans⟩
    ⟨rfl, rfl⟩ c
  rwa [List.drop_zero] at htracks

end Store

end PacketHeap

end DnsRelay
