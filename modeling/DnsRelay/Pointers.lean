import DnsRelay.CompressedName
import DnsRelay.QuerySpec
import DnsRelay.RoundTrip

/-!
# Owner-name pointers

`responseFormat` reaches the name of question `k` by adding up, for every question before it, the
length of the dotted name, one and four. On the wire a name is two bytes longer than its text, so
every earlier question moves the pointer one byte too far to the left. `owner_pointers` draws the
consequence for the responses to `urlQuery`.
-/

namespace DnsRelay
open ByteSeq Exec

/-- Where the name of question `k` stands in the message. -/
def questOffset (qs : List WireQuest) (k : Nat) : Nat := 12 + (questBytes (qs.take k)).length

/-- What the loop over `j < k` adds to the pointer. -/
def pointerSum (qs : List WireQuest) (k : Nat) : Nat := ((qs.take k).map fun q => q.name.length + 5).sum

/-- The pointer that stands for question `k`. -/
def pointerTo (qs : List WireQuest) (k : Nat) : UInt16 := 0xc00c + UInt16.ofNat (pointerSum qs k)

/-- A compression pointer to the name of question `k`. -/
structure PointsTo (qs : List WireQuest) (k : Nat) (p : UInt16) : Prop where
  pointer : isNamePtr p = true
  offset : (getQnamePtr p).toNat = questOffset qs k

section
variable {qs : List WireQuest} {st : Stale} {i k : Nat}

theorem questOffset_eq (hqs : ∀ q ∈ qs, q.Valid) (hk : k ≤ qs.length) :
    questOffset qs k = 12 + pointerSum qs k + k := by
  rw [questOffset, pointerSum, Nat.add_assoc]
  congr 1
  induction k generalizing qs with
  | zero => rfl
  | succ k ih =>
    cases qs with
    | nil => simp at hk
    | cons q qs =>
      have hq := WireQuest.length_encode (hqs q List.mem_cons_self)
      have ih := ih (fun q h => hqs q (List.mem_cons_of_mem _ h)) (Nat.le_of_succ_le_succ hk)
      rw [List.take_succ_cons, questBytes, List.flatMap_cons, List.length_append, ← questBytes, hq, ih,
        List.map_cons, List.sum_cons]
      omega

theorem namePointer_eq (hqs : ∀ q ∈ qs, q.Valid) (hk : k ≤ qs.length) (ptr : UInt16) :
    namePointer (questsFrom st i qs) k ptr = .ok (ptr + UInt16.ofNat (pointerSum qs k)) := by
  induction k generalizing qs i ptr with
  | zero =>
    have : ptr + UInt16.ofNat 0 = ptr := UInt16.add_zero ptr
    cases qs <;> exact congrArg Except.ok this.symm
  | succ k ih =>
    cases qs with
    | nil => simp at hk
    | cons q qs =>
      have hq : cstr (q.quest st i).qname.bytes = .ok q.name := WireQuest.cstr_quest (hqs q List.mem_cons_self)
      rw [questsFrom, namePointer, hq, ok_bind,
        ih (fun q h => hqs q (List.mem_cons_of_mem _ h)) (Nat.le_of_succ_le_succ hk), pointerSum,
        pointerSum, List.take_succ_cons, List.map_cons, List.sum_cons, UInt16.add_assoc, ← UInt16.ofNat_add]

theorem namePointers_eq (hqs : ∀ q ∈ qs, q.Valid) {ans : List Answer}
    (hans : ∀ a ∈ ans, a.qpos.toNat ≤ qs.length) :
    namePointers (questsFrom st i qs) ans = .ok (ans.map fun a => pointerTo qs a.qpos.toNat) := by
  induction ans with
  | nil => rfl
  | cons a ans ih =>
    rw [namePointers, namePointer_eq hqs (hans a List.mem_cons_self), ok_bind,
      ih fun a h => hans a (List.mem_cons_of_mem _ h)]
    rfl

/-- Only the first question is pointed to. -/
theorem pointsTo_iff (hqs : ∀ q ∈ qs, q.Valid) (hk : k ≤ qs.length) :
    PointsTo qs k (pointerTo qs k) ↔ k = 0 := by
  constructor
  · intro h
    have hoff := h.offset
    rw [getQnamePtr_toNat, pointerTo, questOffset_eq hqs hk, UInt16.toNat_add, UInt16.toNat_ofNat',
      show (0xc00c : UInt16).toNat = 49164 from rfl] at hoff
    omega
  · rintro rfl
    have hsum : pointerSum qs 0 = 0 := by simp [pointerSum]
    have hoff : questOffset qs 0 = 12 := by simp [questOffset, questBytes]
    rw [pointerTo, hsum]
    exact ⟨rfl, hoff.symm⟩

theorem questOffset_at {h : Header} (hk : k < qs.length) :
    At (h.encode ++ questBytes qs) (questOffset qs k) (Labels.encode (qs[k]).labels) := by
  have hsplit : questBytes qs = questBytes (qs.take k) ++ ((qs[k]).encode ++ questBytes (qs.drop (k + 1))) := by
    have hqs := (take_append_getElem? (List.getElem?_eq_getElem hk)).1
    rw [questBytes, questBytes, questBytes, ← List.flatMap_cons, ← List.flatMap_append, ← hqs]
  have hat := At.middle (h.encode ++ questBytes (qs.take k)) (qs[k]).encode (questBytes (qs.drop (k + 1)))
  rw [hsplit, ← List.append_assoc, ← List.append_assoc]
  rw [List.length_append] at hat
  exact hat.left

/-- The names of the questions stand behind the bytes that `responseFormat` overwrites. -/
theorem questOffset_head {h : Header} (src : Packet) (hbuf : At src.reqBuf 0 (h.encode ++ questBytes qs))
    (hlen : (h.encode ++ questBytes qs).length ≤ src.bufLen) (hk : k < qs.length) :
    At (responseHead src) (questOffset qs k) (Labels.encode (qs[k]).labels) := by
  have hend : questOffset qs k + (Labels.encode (qs[k]).labels).length ≤ (h.encode ++ questBytes qs).length :=
    (questOffset_at (h := h) hk).le_length (by simp [Labels.encode])
  have hat := At.trans hbuf (questOffset_at hk) hend
  rw [Nat.zero_add] at hat
  have h12 : 12 ≤ questOffset qs k := Nat.le_add_right _ _
  rw [responseHead]
  exact ((hat.take (by omega)).patch (.inr (show 2 + 2 ≤ _ by omega))).patch (.inr (show 6 + 2 ≤ _ by omega))

end

/-- In the response to a request that was answered with records, every record's owner name is the
pointer to the name of the question it answers if and only if the request has one question. -/
theorem owner_pointers {C : Libc} {st st₁ st₂ : Stale} {N : Nat} {host : Option HostMap} {clk : Clock}
    {h : Header} {qs : List WireQuest} {buf : List UInt8} {len : Nat} {src src' : Packet} {c c' : LRUCache}
    {ret : Int} {r : Response} (hqs : ∀ q ∈ qs, q.Valid) (hqd : h.qdcount.toNat = qs.length)
    (hbuf : At buf 0 (h.encode ++ questBytes qs)) (hlen : (h.encode ++ questBytes qs).length ≤ len)
    (hsrc : packetParse C st buf len = .ok src)
    (hquery : urlQuery N host clk st₁ src c = .ok (ret, src', c')) (hret : 0 < ret)
    (hr : responseFormat C st₂ src' = .ok r) :
    ∃ recs : List WireRecord, r.sent = responseHead src' ++ recs.flatMap WireRecord.encode ∧
      recs.length = src'.ans.length ∧ (∀ w ∈ recs, w.owner.length = 2) ∧
      (∀ k (hk : k < qs.length), At r.sent (questOffset qs k) (Labels.encode (qs[k]).labels)) ∧
      ((∀ (i : Nat) (a : Answer) (w : WireRecord), src'.ans[i]? = some a → recs[i]? = some w →
          ∃ p, w.owner = be16 p ∧ PointsTo qs a.qpos.toNat p) ↔ qs.length = 1) := by
  obtain ⟨hquests, hreq, hblen, -⟩ := packetParse_head hbuf hqs hqd hsrc
  obtain ⟨gs, ancount, hgs, rfl, rfl, hanc⟩ : ∃ gs ancount, Answered N host clk 0 src.quests c gs c' ∧
      src' = { src with ancount := ancount, ans := gs.flatten } ∧ ret = gs.flatten.length ∧
      ancount.toNat = gs.flatten.length := by
    rcases urlQuery_ok hquery with ⟨⟨hr, -⟩, -⟩ | h
    · omega
    · exact h
  rw [hquests] at hgs
  have hpos : ∀ a ∈ gs.flatten, ∃ k < qs.length, a.qpos = UInt8.ofNat k := by
    intro a ha
    obtain ⟨⟨k, hk, hq⟩, -⟩ := hgs.mem ha
    rw [length_questsFrom] at hk
    exact ⟨k, hk, by simpa using hq⟩
  have hle : ∀ a ∈ gs.flatten, a.qpos.toNat ≤ qs.length := by
    intro a ha
    obtain ⟨k, hk, hq⟩ := hpos a ha
    rw [hq, UInt8.toNat_ofNat']
    omega
  obtain ⟨names, ans, hnames, hfmt, hcount, -, hbound, -, hsent⟩ := responseFormat_ok hr (by
    show 12 ≤ src.bufLen
    rw [hblen]
    rw [List.length_append, show h.encode.length = 12 from rfl] at hlen
    omega)
  have htake : gs.flatten.take ancount.toNat = gs.flatten := by rw [hanc, List.take_length]
  dsimp only at hnames hfmt hsent
  rw [htake] at hnames hfmt
  rw [hquests, namePointers_eq hqs hle] at hnames
  cases hnames
  obtain ⟨hall, hfill, -⟩ := formatAnswers_ok hfmt
  have hlens : ans.length = gs.flatten.length := by rw [← hcount, List.length_map]
  rw [answerBytes_eq fun x hx => hfill x.1 (List.of_mem_zip hx).1] at hsent
  have hrecs := length_records hcount
  refine ⟨_, hsent, hrecs.trans hlens, fun w hw => ?_, fun k hk => ?_, ⟨fun hpoints => ?_, fun hone => ?_⟩⟩
  · obtain ⟨x, -, rfl⟩ := List.mem_map.1 hw
    exact length_be16 _
  · rw [← hblen] at hlen
    rw [← hreq] at hbuf
    rw [hsent]
    exact (questOffset_head { src with ancount := ancount, ans := gs.flatten } hbuf hlen hk).append_right _
  · have hglen := hgs.length_eq
    rw [length_questsFrom] at hglen
    have hne : gs ≠ [] := by rintro rfl; simp at hret
    have hpos' := List.length_pos_iff.2 hne
    by_contra hone
    -- the second question has an answer, and its pointer does not reach the name
    obtain ⟨a, ha, hqpos⟩ := hgs.exists_to_question (k := 1) (by rw [length_questsFrom]; omega)
    obtain ⟨i, hi⟩ := List.getElem?_of_mem ha
    have hi' : i < (records (ans.zip (gs.flatten.map fun a => pointerTo qs a.qpos.toNat))).length := by
      rw [hrecs, hlens]
      exact (List.getElem?_eq_some_iff.1 hi).1
    obtain ⟨p, hp, hto⟩ := hpoints i a _ hi (List.getElem?_eq_getElem hi')
    rw [owner_of_records hi (List.getElem?_eq_getElem hi')] at hp
    rw [← be16_inj hp] at hto
    have h0 := (pointsTo_iff hqs (hle a ha)).1 hto
    rw [hqpos] at h0
    cases h0
  · intro i a w ha hw
    refine ⟨_, owner_of_records ha hw, (pointsTo_iff hqs (hle a (List.mem_of_getElem? ha))).2 ?_⟩
    obtain ⟨k, hk, hq⟩ := hpos a (List.mem_of_getElem? ha)
    rw [hq, show k = 0 by omega]
    rfl

/-- A cache of four slots with addresses for the names `a` and `b`. -/
def addressCache : Exec LRUCache := do
  let c ← LRUCache.zeroed.cacheInsert 4 (Record.entry ⟨[97], [49, 46, 50, 46, 51, 46, 52], 1, 0, 9⟩)
  c.cacheInsert 4 (Record.entry ⟨[98], [53, 46, 54, 46, 55, 46, 56], 1, 0, 9⟩)

/-- The answer to a request at time 5 from a cache of four slots. -/
def answer (buf : List UInt8) (c : LRUCache) : Exec (Packet × Packet × LRUCache × Int × Response) := do
  let src ← packetParse .decimal .zero buf buf.length
  let (ret, src', c') ← urlQuery 4 none (.const 5) .zero src c
  let r ← responseFormat .decimal .zero src'
  return (src, src', c', ret, r)

theorem answer_one : (do
      let c ← addressCache
      let (_, src', _, ret, r) ← answer (requestFor typeA [97]) c
      return (ret, src'.ans.map Answer.qpos, r.sent.length) : Exec (Int × List UInt8 × Nat)) =
    .ok (1, [0], 35) := by decide +kernel

theorem owner_pointers_one : ∃ c src src' c' r, addressCache = .ok c ∧
    answer (requestFor typeA [97]) c = .ok (src, src', c', 1, r) ∧ r.sent.length = 35 ∧
    ∃ recs : List WireRecord, r.sent = responseHead src' ++ recs.flatMap WireRecord.encode ∧
      (∀ w ∈ recs, w.owner.length = 2) ∧
      ∀ (i : Nat) (a : Answer) (w : WireRecord), src'.ans[i]? = some a → recs[i]? = some w →
        ∃ p, w.owner = be16 p ∧ PointsTo [questFor typeA 97] a.qpos.toNat p := by
  obtain ⟨c, hc, h⟩ := bind_ok.1 answer_one
  obtain ⟨⟨src, src', c', ret, r⟩, ha, h⟩ := bind_ok.1 h
  obtain ⟨rfl, -, hlen⟩ : ret = 1 ∧ src'.ans.map Answer.qpos = [0] ∧ r.sent.length = 35 := by
    simpa using Except.ok.inj h
  refine ⟨c, src, src', c', r, hc, ha, hlen, ?_⟩
  obtain ⟨src₁, hsrc, ha⟩ := bind_ok.1 ha
  obtain ⟨⟨ret, src₂, c₂⟩, hquery, ha⟩ := bind_ok.1 ha
  obtain ⟨r₁, hr, ha⟩ := bind_ok.1 ha
  cases ha
  have hquest : ∀ q ∈ [questFor typeA 97], q.Valid := fun q hq => by
    rw [List.mem_singleton.1 hq]
    exact questFor_valid typeA (by decide) (by decide)
  have hbuf : At (requestFor typeA [97]) 0
      (Header.encode ⟨0x1234, 0x100, 1, 0, 0, 0⟩ ++ questBytes [questFor typeA 97]) := At.refl _
  obtain ⟨recs, hsent, -, htwo, -, hiff⟩ :=
    owner_pointers hquest rfl hbuf (Nat.le_refl _) hsrc hquery (by decide) hr
  exact ⟨recs, hsent, htwo, hiff.2 rfl⟩

/-- The second record's owner name points to the last byte of the first question. -/
theorem owner_pointer_two : (do
      let c ← addressCache
      let (_, src', _, ret, r) ← answer (requestFor typeA [97, 98]) c
      return (ret, src'.ans.map Answer.qpos, (r.sent.drop 42).take 2) : Exec (Int × List UInt8 × List UInt8)) =
      .ok (2, [0, 1], be16 0xc012) ∧
    ¬ PointsTo [questFor typeA 97, questFor typeA 98] 1 0xc012 := by
  refine ⟨by decide +kernel, fun h => ?_⟩
  exact absurd h.offset (by decide)

end DnsRelay
