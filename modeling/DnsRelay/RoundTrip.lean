import Mathlib.Tactic.IntervalCases
import DnsRelay.Response

/-!
# Address answers there and back

`responseFormat` turns the text of an address into the bytes that `packetParse` turns back into the
text. `round_trip` follows a request with any number of questions through the parse, a response with
any answers of types A and AAAA, and the parse of that response.
-/

namespace DnsRelay
open ByteSeq Exec

/-- The answer holds the text of the address `b` of its type, in a buffer as large as the server
allocates for the type. -/
structure Address (C : Libc) (a : Answer) (b : List UInt8) : Prop where
  shape : IsAddress a.type b
  size : a.rdata.size = typeBufSize a.type
  text : cstr a.rdata.bytes = .ok (addressText C a.type b)

/-- The length of an address of type A or AAAA. -/
def addressLen (type : UInt16) : Nat := if type = typeA then 4 else 16

/-- The answer with the address itself in place of its text, as `responseFormat` leaves it. -/
def Answer.withAddress (a : Answer) (b : List UInt8) : Answer :=
  { a with rdlen := UInt16.ofNat b.length, rdata := a.rdata.patch 0 b }

section
variable {C : Libc} {quests : List Quest} {a : Answer} {b : List UInt8}

namespace Address

theorem length_eq (h : Address C a b) : b.length = addressLen a.type := by
  rcases h.shape with ⟨ht, hb⟩ | ⟨ht, hb⟩ <;> rw [ht, hb] <;> rfl

theorem rdlen (h : Address C a b) : (a.withAddress b).rdlen.toNat = b.length := by
  have := h.shape.length_le.1
  show (UInt16.ofNat b.length).toNat = _
  rw [UInt16.toNat_ofNat']; exact Nat.mod_eq_of_lt (by omega)

theorem room (h : Address C a b) : 0 + b.length ≤ a.rdata.size := by
  rw [h.size, Nat.zero_add]; exact h.shape.length_le.2

theorem filled (h : Address C a b) : (a.withAddress b).Filled := by
  have hroom := h.room
  have hsize := a.rdata.size_le
  show (a.withAddress b).rdlen.toNat ≤ (ByteSeq.patch a.rdata.bytes 0 b).length
  rw [h.rdlen, length_patch]; omega

theorem record (h : Address C a b) (name : UInt16) :
    (a.withAddress b).record name = ⟨be16 name, a.type, a.cls, a.ttl, b⟩ := by
  have htake := (Block.at_patch h.room).take_drop
  rw [List.drop_zero] at htake
  rw [Answer.record, h.rdlen]
  exact congrArg (WireRecord.mk _ _ _ _) htake

/-- `packetParse` reads the address back into its text. -/
theorem parseAnswer (hC : C.Lawful) (h : Address C a b) (st : Stale) {buf : List UInt8} (i : Nat) {pos : Nat}
    {name : UInt16} (hbuf : At buf pos ((a.withAddress b).encode name)) :
    ∃ a', DnsRelay.parseAnswer C st buf i pos = .ok a' ∧ a'.type = a.type ∧ a'.cls = a.cls ∧ a'.ttl = a.ttl ∧
      a'.rdlen.toNat = addressLen a.type ∧ cstr a'.rdata.bytes = cstr a.rdata.bytes := by
  rw [h.filled.encode_eq, h.record] at hbuf
  obtain ⟨nm, hparse⟩ := parseAnswer_eq C st i hbuf rfl
  have hurl := urlParse_address hC h.shape (p := pos + 12) hbuf.right
    (Block.fresh_size (typeBufSize a.type) (st.rdata i)) (st.addition i) (UInt16.ofNat b.length) (st.temp i)
  obtain ⟨hz, hl⟩ := h.shape.text hC
  refine ⟨⟨0, nm, a.type, a.cls, UInt16.ofNat b.length, a.ttl, st.addition i,
    (Block.fresh (typeBufSize a.type) (st.rdata i)).patch 0 (addressText C a.type b ++ [0])⟩, ?_, rfl, rfl,
    rfl, ?_, ?_⟩
  · rw [hparse, hurl]; rfl
  · exact h.rdlen.trans h.length_eq
  · rw [h.text]; exact Block.cstr_patch hz hl

end Address

/-- The first loop of `responseFormat` on addresses. -/
theorem formatAnswers_address (hC : C.Lawful) {f : Answer → List UInt8} {xs : List (Answer × UInt16)}
    (hxs : ∀ x ∈ xs, Address C x.1 (f x.1) ∧ x.1.qpos.toNat < quests.length) {resData : Block}
    (hres : resData.size = 255) (len : Nat) :
    ∃ len', formatAnswers C quests xs resData len = .ok (xs.map fun x => x.1.withAddress (f x.1), len') := by
  induction xs generalizing resData len with
  | nil => exact ⟨len, rfl⟩
  | cons x xs ih =>
    obtain ⟨a, name⟩ := x
    obtain ⟨ha, hq⟩ : Address C a (f a) ∧ a.qpos.toNat < quests.length := hxs _ List.mem_cons_self
    have hroom : (f a).length ≤ resData.size := by have := ha.shape.length_le.1; omega
    obtain ⟨len', hrest⟩ := ih (fun x hx => hxs x (List.mem_cons_of_mem _ hx))
      (show (resData.patch 0 (f a)).size = 255 from hres) (len + ((f a).length + 12))
    have hret : UInt16.ofNat (((f a).length : Int) % 65536).toNat = UInt16.ofNat (f a).length := by
      apply UInt16.toNat_inj.1
      simp only [UInt16.toNat_ofNat']
      omega
    have hcopy := Block.copy_eq (Block.at_patch (b := resData) (p := 0) (by omega)) ha.room
    refine ⟨len', ?_⟩
    rw [List.map_cons, formatAnswers, List.getElem?_eq_getElem hq]
    simp only [urlFormat_address hC ha.shape ha.text hroom, ok_bind, hret]
    rw [show (UInt16.ofNat (f a).length).toNat = (f a).length from ha.rdlen,
      show (0 : Int) = ((0 : Nat) : Int) from rfl, hcopy, ok_bind, hrest]
    rfl

/-- What the round trip keeps of an answer. -/
def Answer.view (a : Answer) : UInt16 × UInt16 × UInt32 × Exec (List UInt8) :=
  (a.type, a.cls, a.ttl, cstr a.rdata.bytes)

def Quest.view (q : Quest) : Exec (List UInt8) × UInt16 × UInt16 := (cstr q.qname.bytes, q.qtype, q.qclass)

/-- The answer loop of `packetParse` on addresses. -/
theorem parseAnswers_address (hC : C.Lawful) {f : Answer → List UInt8} {xs : List (Answer × UInt16)}
    (hxs : ∀ x ∈ xs, Address C x.1 (f x.1)) (st : Stale) {buf : List UInt8} (i : Nat) {pos : Nat}
    (hbuf : At buf pos (answerBytes (xs.map fun x => (x.1.withAddress (f x.1), x.2)))) :
    ∃ ans, parseAnswers C st buf xs.length i pos =
        .ok (ans, pos + (answerBytes (xs.map fun x => (x.1.withAddress (f x.1), x.2))).length) ∧
      ans.map Answer.view = xs.map (fun x => x.1.view) ∧
      ans.map (fun a => a.rdlen.toNat) = xs.map (fun x => addressLen x.1.type) := by
  induction xs generalizing i pos with
  | nil => exact ⟨[], rfl, rfl, rfl⟩
  | cons x xs ih =>
    obtain ⟨a, name⟩ := x
    have ha : Address C a (f a) := hxs _ List.mem_cons_self
    rw [List.map_cons, answerBytes, List.flatMap_cons, ← answerBytes] at hbuf ⊢
    obtain ⟨a', h₁, ht, hc, hl, hr, hs⟩ := ha.parseAnswer hC st i hbuf.left
    have henc : ((a.withAddress (f a)).encode name).length = 12 + a'.rdlen.toNat := by
      rw [ha.filled.length_encode, ha.rdlen, hr, ha.length_eq, Nat.add_comm]
    have hrest := hbuf.right
    rw [henc] at hrest
    obtain ⟨ans, h₂, hview, hlen⟩ := ih (fun x hx => hxs x (List.mem_cons_of_mem _ hx)) (i + 1) hrest
    refine ⟨a' :: ans, ?_, ?_, ?_⟩
    · rw [List.length_cons, parseAnswers, h₁, ok_bind, h₂, ok_bind, List.length_append, henc, Nat.add_assoc]
      rfl
    · rw [List.map_cons, List.map_cons, hview]
      simp only [Answer.view, ht, hc, hl, hs]
    · rw [List.map_cons, List.map_cons, hlen, hr]

end

/-! ### The round trip -/

theorem responseFlag_found (src : Packet) (h0 : src.ancount ≠ 0) (hmax : src.ancount ≠ 0xffff) :
    getQr (responseFlag src) = 1 ∧ getRcode (responseFlag src) = rcodeNoError := by
  rw [responseFlag, if_neg (by simp [h0, hmax])]
  constructor
  · apply UInt16.toBitVec_inj.1
    simp only [getQr, setRcode, setRd, setQr, rcodeNoError]
    ext i hi
    interval_cases i <;> simp
  · apply UInt16.toBitVec_inj.1
    simp only [getRcode, setRcode, setRd, setQr, rcodeNoError]
    ext i hi
    interval_cases i <;> simp

theorem responseFlag_none {src : Packet} (h0 : src.ancount = 0) :
    getQr (responseFlag src) = 1 ∧ getRcode (responseFlag src) = rcodeNameError := by
  rw [responseFlag, if_pos (.inl h0)]
  constructor
  · apply UInt16.toBitVec_inj.1
    simp only [getQr, setRcode, setAa, setRd, setQr, rcodeNameError]
    ext i hi
    interval_cases i <;> simp
  · apply UInt16.toBitVec_inj.1
    simp only [getRcode, setRcode, setAa, setRd, setQr, rcodeNameError]
    ext i hi
    interval_cases i <;> simp

theorem namePointer_ok {quests : List Quest} (hq : ∀ q ∈ quests, ∃ s, cstr q.qname.bytes = .ok s) {n : Nat}
    (hn : n ≤ quests.length) (ptr : UInt16) : ∃ p, namePointer quests n ptr = .ok p := by
  induction n generalizing quests ptr with
  | zero => exact ⟨ptr, by cases quests <;> rfl⟩
  | succ n ih =>
    cases quests with
    | nil => simp at hn
    | cons q quests =>
      obtain ⟨s, hs⟩ := hq q List.mem_cons_self
      rw [namePointer, hs]
      exact ih (fun q h => hq q (List.mem_cons_of_mem _ h)) (Nat.le_of_succ_le_succ hn) _

theorem namePointers_ok {quests : List Quest} (hq : ∀ q ∈ quests, ∃ s, cstr q.qname.bytes = .ok s)
    {ans : List Answer} (hans : ∀ a ∈ ans, a.qpos.toNat ≤ quests.length) :
    ∃ names, namePointers quests ans = .ok names := by
  induction ans with
  | nil => exact ⟨[], rfl⟩
  | cons a ans ih =>
    obtain ⟨p, hp⟩ := namePointer_ok hq (hans a List.mem_cons_self) 0xc00c
    obtain ⟨names, hn⟩ := ih fun a h => hans a (List.mem_cons_of_mem _ h)
    exact ⟨p :: names, by rw [namePointers, hp, ok_bind, hn]; rfl⟩

theorem cstr_questsFrom {st : Stale} {i : Nat} {qs : List WireQuest} (hqs : ∀ q ∈ qs, q.Valid) :
    ∀ q ∈ questsFrom st i qs, ∃ s, cstr q.qname.bytes = .ok s := by
  induction qs generalizing i with
  | nil => nofun
  | cons q qs ih =>
    intro q' hq'
    rcases List.mem_cons.1 hq' with rfl | hq'
    · exact ⟨q.name, WireQuest.cstr_quest (hqs q List.mem_cons_self)⟩
    · exact ih (fun q h => hqs q (List.mem_cons_of_mem _ h)) q' hq'

/-- The questions of a parsed packet are the questions on the wire. -/
theorem view_questsFrom {st : Stale} {i : Nat} {qs : List WireQuest} (hqs : ∀ q ∈ qs, q.Valid) :
    (questsFrom st i qs).map Quest.view = qs.map fun q => (.ok q.name, q.qtype, q.qclass) := by
  induction qs generalizing i with
  | nil => rfl
  | cons q qs ih =>
    rw [questsFrom, List.map_cons, List.map_cons, ih fun q h => hqs q (List.mem_cons_of_mem _ h), Quest.view,
      WireQuest.cstr_quest (hqs q List.mem_cons_self)]
    rfl

/-- The header of the response. -/
theorem responseHead_eq {src : Packet} {h : Header} {rest : List UInt8}
    (hreq : src.reqBuf.take src.bufLen = h.encode ++ rest) :
    responseHead src = { h with flags := responseFlag src, ancount := src.ancount }.encode ++ rest := by
  rw [responseHead, hreq]
  rfl

theorem zip_withAddress {f : Answer → List UInt8} {ans : List Answer} {names : List UInt16} :
    ((ans.zip names).map fun x => x.1.withAddress (f x.1)).zip names =
      (ans.zip names).map fun x => (x.1.withAddress (f x.1), x.2) := by
  induction ans generalizing names with
  | nil => rfl
  | cons a ans ih =>
    cases names with
    | nil => rfl
    | cons n names => simp only [List.zip_cons_cons, List.map_cons, ih]

/-- `responseFormat` on address answers. -/
theorem responseFormat_address {C : Libc} (hC : C.Lawful) (st : Stale) (src : Packet) {f : Answer → List UInt8}
    (hbuf : src.bufLen ≤ src.reqBuf.length) (h12 : 12 ≤ src.bufLen)
    (hquests : ∀ q ∈ src.quests, ∃ s, cstr q.qname.bytes = .ok s) (hn : src.ancount.toNat = src.ans.length)
    (hans : ∀ a ∈ src.ans, a.qpos.toNat < src.quests.length ∧ Address C a (f a)) :
    ∃ names r, namePointers src.quests src.ans = .ok names ∧ responseFormat C st src = .ok r ∧
      r.len = r.sent.length ∧ r.sent = responseHead src ++
        answerBytes ((src.ans.zip names).map fun x => (x.1.withAddress (f x.1), x.2)) := by
  obtain ⟨names, hnames⟩ := namePointers_ok hquests fun a ha => Nat.le_of_lt (hans a ha).1
  have htake : src.ans.take src.ancount.toNat = src.ans := by rw [hn, List.take_length]
  have hzip : ∀ x ∈ src.ans.zip names, Address C x.1 (f x.1) ∧ x.1.qpos.toNat < src.quests.length :=
    fun x hx => (hans x.1 (List.of_mem_zip hx).1).symm
  obtain ⟨len, hfmt⟩ := formatAnswers_address hC hzip (Block.fresh_size 255 st.resData) src.bufLen
  obtain ⟨dest, hresp, -, hlen, hsent⟩ := responseFormat_eq hbuf h12 (by rwa [htake]) (by rwa [htake])
  rw [zip_withAddress] at hlen hsent
  refine ⟨names, _, hnames, hresp, ?_, hsent⟩
  show len = (dest.bytes.take len).length
  rw [hsent, List.length_append, length_responseHead hbuf]
  exact hlen

/-- `packetParse` on a datagram of questions and address answers. -/
theorem packetWalk_address {C : Libc} (hC : C.Lawful) (st : Stale) {f : Answer → List UInt8} {h : Header}
    {qs : List WireQuest} (hqs : ∀ q ∈ qs, q.Valid) (hqd : h.qdcount.toNat = qs.length)
    {xs : List (Answer × UInt16)} (hxs : ∀ x ∈ xs, Address C x.1 (f x.1)) (hac : h.ancount.toNat = xs.length)
    (hne : xs ≠ []) {buf : List UInt8} (len : Nat) {sent : List UInt8}
    (hsent : sent = h.encode ++ questBytes qs ++ answerBytes (xs.map fun x => (x.1.withAddress (f x.1), x.2)))
    (hbuf : At buf 0 sent) :
    ∃ ans, packetWalk C st buf len =
        .ok (⟨buf, len, h.id, h.flags, h.qdcount, h.ancount, questsFrom st 0 qs, ans⟩, sent.length) ∧
      ans.map Answer.view = xs.map (fun x => x.1.view) ∧
      ans.map (fun a => a.rdlen.toNat) = xs.map (fun x => addressLen x.1.type) := by
  have hpos : 0 < xs.length := List.length_pos_iff.2 hne
  have h0 : h.ancount ≠ 0 := fun he => by rw [he] at hac; simp at hac; omega
  rw [hsent] at hbuf
  have hans := hbuf.right
  rw [Nat.zero_add, List.length_append, show h.encode.length = 12 from rfl] at hans
  obtain ⟨ans, hparse, hview, hrdlen⟩ := parseAnswers_address hC hxs st 0 hans
  refine ⟨ans, ?_, hview, hrdlen⟩
  rw [packetWalk_eq C st len hbuf.left hqs hqd, if_neg h0, hac, hparse, hsent]
  simp only [ok_bind, List.length_append, show h.encode.length = 12 from rfl]
  rfl

/-- A request of questions only, answered with addresses: parsing the response gives back the request's
id and questions and the answers, and ends where the response ends. -/
theorem round_trip {C : Libc} (hC : C.Lawful) (st st' : Stale) (tail tail' : List UInt8) {h : Header}
    {qs : List WireQuest} (hqs : ∀ q ∈ qs, q.Valid) (hqd : h.qdcount.toNat = qs.length) (hac : h.ancount = 0)
    {ans : List Answer} (hne : ans ≠ []) (hlen : ans.length < 65535)
    (hans : ∀ a ∈ ans, a.qpos.toNat < qs.length ∧ ∃ b, Address C a b) :
    ∃ src r p, packetParse C st (h.encode ++ questBytes qs ++ tail) (h.encode ++ questBytes qs).length = .ok src ∧
      responseFormat C st { src with ancount := UInt16.ofNat ans.length, ans := ans } = .ok r ∧
      r.sent.length = r.len ∧ packetParse C st' (r.sent ++ tail') r.len = .ok p ∧
      packetWalk C st' (r.sent ++ tail') r.len = .ok (p, r.len) ∧
      p.id = h.id ∧ p.id = src.id ∧ p.quests.map Quest.view = src.quests.map Quest.view ∧
      p.quests.map Quest.view = qs.map (fun q => (.ok q.name, q.qtype, q.qclass)) ∧
      p.ancount.toNat = ans.length ∧ p.ans.map Answer.view = ans.map Answer.view ∧
      p.ans.map (fun a => a.rdlen.toNat) = ans.map (fun a => addressLen a.type) ∧
      getQr p.flags = 1 ∧ getRcode p.flags = rcodeNoError := by
  choose! f hf using fun a ha => (hans a ha).2
  have hn : (UInt16.ofNat ans.length).toNat = ans.length := by
    rw [UInt16.toNat_ofNat']; exact Nat.mod_eq_of_lt (by omega)
  have hpos : 0 < ans.length := List.length_pos_iff.2 hne
  have hn0 : UInt16.ofNat ans.length ≠ 0 := fun he => by rw [he] at hn; simp at hn; omega
  have hmax : UInt16.ofNat ans.length ≠ 0xffff := fun he => by rw [he] at hn; simp at hn; omega
  have hreq : At (h.encode ++ questBytes qs ++ tail) 0 (h.encode ++ questBytes qs) :=
    At.middle [] (h.encode ++ questBytes qs) tail
  have hparse := packetParse_request C st (h.encode ++ questBytes qs).length hreq hqs hqd hac
  let src : Packet := ⟨h.encode ++ questBytes qs ++ tail, (h.encode ++ questBytes qs).length, h.id, h.flags,
    h.qdcount, UInt16.ofNat ans.length, questsFrom st 0 qs, ans⟩
  obtain ⟨names, r, hnames, hresp, hrlen, hsent⟩ := responseFormat_address hC st src (by simp [src])
    (by simp [src, Header.encode]; omega) (cstr_questsFrom hqs) hn
    fun a ha => ⟨by rw [length_questsFrom]; exact (hans a ha).1, hf a ha⟩
  have hnlen := namePointers_length hnames
  have hzlen : (ans.zip names).length = ans.length := by rw [List.length_zip, hnlen, Nat.min_self]
  rw [responseHead_eq (List.take_left ..)] at hsent
  obtain ⟨ans', hwalk, hview, hrdlen⟩ := packetWalk_address hC st'
    (h := { h with flags := responseFlag src, ancount := src.ancount }) hqs hqd
    (fun x hx => hf x.1 (List.of_mem_zip hx).1) (hn.trans hzlen.symm)
    (List.length_pos_iff.1 (hzlen ▸ hpos)) r.len hsent (At.middle [] r.sent tail')
  rw [← hrlen] at hwalk
  have hfst : (ans.zip names).map Prod.fst = ans := List.map_fst_zip (Nat.le_of_eq hnlen.symm)
  have hmap : ∀ {γ : Type} (g : Answer → γ), (ans.zip names).map (fun x => g x.1) = ans.map g := by
    intro γ g
    rw [← hfst, List.map_map, hfst]
    rfl
  obtain ⟨hqr, hrcode⟩ := responseFlag_found src hn0 hmax
  refine ⟨_, r, _, hparse, hresp, hrlen.symm, packetParse_ok hwalk, hwalk, rfl, rfl, ?_, view_questsFrom hqs, hn,
    by rw [hview, hmap], by rw [hrdlen, hmap fun a => addressLen a.type], hqr, hrcode⟩
  rw [view_questsFrom hqs, view_questsFrom hqs]

/-- The addresses for `mixedQuests`: `1.2.3.4`, and sixteen times the byte 7. -/
def mixedAnswers : List Answer :=
  [⟨0, 0, typeA, 1, 0, 60, 0, (Block.fresh 22 []).patch 0 [49, 46, 50, 46, 51, 46, 52, 0]⟩,
    ⟨1, 0, typeAaaa, 1, 0, 90, 0, (Block.fresh 50 []).patch 0 (hex (List.replicate 16 7) ++ [0])⟩]

theorem round_trip_two : ∃ src r p,
    packetParse .decimal .zero (Header.encode ⟨0x1234, 0x100, 2, 0, 0, 0⟩ ++ questBytes mixedQuests ++ []) 29 = .ok src ∧
    responseFormat .decimal .zero { src with ancount := 2, ans := mixedAnswers } = .ok r ∧
    packetParse .decimal .zero (r.sent ++ []) r.len = .ok p ∧
    p.ans.map Answer.view = [(1, 1, 60, .ok [49, 46, 50, 46, 51, 46, 52]),
      (28, 1, 90, .ok (hex (List.replicate 16 7)))] := by
  have haddr : ∀ a ∈ mixedAnswers, a.qpos.toNat < mixedQuests.length ∧ ∃ b, Address .decimal a b := by
    simp only [mixedAnswers, List.forall_mem_cons]
    exact ⟨⟨by decide, [1, 2, 3, 4], .inl ⟨rfl, rfl⟩, rfl, rfl⟩,
      ⟨by decide, List.replicate 16 7, .inr ⟨rfl, rfl⟩, rfl, rfl⟩, nofun⟩
  obtain ⟨src, r, p, hsrc, hr, -, hp, -, -, -, -, -, -, hview, -⟩ := round_trip Libc.decimal_lawful .zero .zero
    [] [] (h := ⟨0x1234, 0x100, 2, 0, 0, 0⟩) mixedQuests_valid rfl rfl (List.cons_ne_nil _ _) (by decide) haddr
  exact ⟨src, r, p, hsrc, hr, hp, hview⟩

end DnsRelay
