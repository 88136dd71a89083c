import Mathlib.Algebra.Ring.Nat
import Mathlib.Data.List.Forall2
import DnsRelay.Message

/-!
# The bytes `responseFormat` sends

The output is the request, with the flags and the answer count overwritten, followed by the answer
records. `responseFormat_ok` says so of every call that returns, `responseFormat_eq` that a call
returns once its first loop does.
-/

namespace DnsRelay
open ByteSeq Exec

/-- An answer record with owner name `name`. -/
def Answer.encode (a : Answer) (name : UInt16) : List UInt8 :=
  be16 name ++ be16 a.type ++ be16 a.cls ++ be32 a.ttl ++ be16 a.rdlen ++ a.rdata.bytes.take a.rdlen.toNat

def answerBytes (xs : List (Answer × UInt16)) : List UInt8 := xs.flatMap fun x => x.1.encode x.2

/-- `RDLEN` bytes can be read from `RDATA`. -/
def Answer.Filled (a : Answer) : Prop := a.rdlen.toNat ≤ a.rdata.bytes.length

theorem Answer.Filled.length_encode {a : Answer} (ha : a.Filled) (name : UInt16) :
    (a.encode name).length = a.rdlen.toNat + 12 := by
  simp only [Answer.encode, List.length_append, length_be16, length_be32, List.length_take]
  rw [Nat.min_eq_left ha]
  omega

/-- The record that `Answer.encode` writes. -/
def Answer.record (a : Answer) (name : UInt16) : WireRecord :=
  ⟨be16 name, a.type, a.cls, a.ttl, a.rdata.bytes.take a.rdlen.toNat⟩

theorem Answer.Filled.length_rdata {a : Answer} (ha : a.Filled) (name : UInt16) :
    (a.record name).rdata.length = a.rdlen.toNat := by
  rw [Answer.record, List.length_take, Nat.min_eq_left ha]

theorem Answer.Filled.encode_eq {a : Answer} (ha : a.Filled) (name : UInt16) :
    a.encode name = (a.record name).encode := by
  rw [WireRecord.encode, WireRecord.fields, ha.length_rdata, UInt16.ofNat_toNat]
  simp only [Answer.encode, Answer.record, List.append_assoc]

/-- The records that are written. -/
def records (xs : List (Answer × UInt16)) : List WireRecord := xs.map fun x => x.1.record x.2

theorem length_records {ans : List Answer} {names : List UInt16} (h : names.length = ans.length) :
    (records (ans.zip names)).length = ans.length := by
  rw [records, List.length_map, List.length_zip, h, Nat.min_self]

/-- The owner name of a record is the pointer computed for its answer. -/
theorem owner_of_records {as ans : List Answer} {f : Answer → UInt16} {i : Nat} {a : Answer} {w : WireRecord}
    (ha : as[i]? = some a) (hw : (records (ans.zip (as.map f)))[i]? = some w) : w.owner = be16 (f a) := by
  rw [records, List.getElem?_map, Option.map_eq_some_iff] at hw
  obtain ⟨x, hx, rfl⟩ := hw
  obtain ⟨-, hx⟩ := List.getElem?_zip_eq_some.1 hx
  rw [List.getElem?_map, ha] at hx
  rw [← Option.some.inj hx]
  rfl

theorem answerBytes_eq {xs : List (Answer × UInt16)} (hxs : ∀ x ∈ xs, x.1.Filled) :
    answerBytes xs = (records xs).flatMap WireRecord.encode := by
  rw [answerBytes, records, List.flatMap_map]
  exact List.flatMap_congr fun x hx => (hxs x hx).encode_eq x.2

namespace Block

theorem storeBytes_step {b : Block} {p k : Nat} {i : Int} {xs : List UInt8} (hi : i = ((p + k : Nat) : Int))
    (h : p + k + xs.length ≤ b.size) : b.storeBytes i xs = .ok (b.patch (p + k) xs) := by
  rw [hi]; exact storeBytes_eq h

end Block

/-- One round of the record loop. -/
theorem putAnswer_eq {a : Answer} {name : UInt16} (ha : a.Filled) {dest : Block} {pos : Nat}
    (hroom : pos + (a.rdlen.toNat + 12) ≤ dest.size) (rest : List (Answer × UInt16)) :
    putAnswers ((a, name) :: rest) dest pos =
      putAnswers rest (dest.patch pos (a.encode name)) (pos + (a.rdlen.toNat + 12)) := by
  have hlen : (a.rdata.bytes.take a.rdlen.toNat).length = a.rdlen.toNat := by
    rw [List.length_take]; exact Nat.min_eq_left ha
  have hrd : At a.rdata.bytes 0 (a.rdata.bytes.take a.rdlen.toNat) := At.slice a.rdata.bytes 0 _
  rw [putAnswers, Block.storeBytes_eq (by rw [length_be16]; omega), ok_bind,
    Block.storeBytes_step (p := pos) (k := 2) (by push_cast; rfl) (by simp; omega), ok_bind,
    Block.storeBytes_step (p := pos) (k := 4) (by push_cast; rfl) (by simp; omega), ok_bind,
    Block.storeBytes_step (p := pos) (k := 6) (by push_cast; rfl) (by simp; omega), ok_bind]
  have hcopy := Block.copy_eq (b := (((dest.patch pos (be16 name)).patch (pos + 2) (be16 a.type)).patch
    (pos + 4) (be16 a.cls)).patch (pos + 6) (be32 a.ttl)) (p := pos + 12) hrd (by simp [hlen]; omega)
  rw [hlen] at hcopy
  rw [show ((pos : Int) + 12) = ((pos + 12 : Nat) : Int) by push_cast; rfl,
    show (0 : Int) = ((0 : Nat) : Int) from rfl,
    hcopy, ok_bind, Block.storeBytes_step (p := pos) (k := 10) (by push_cast; rfl) (by simp; omega), ok_bind]
  congr 1
  -- `RDLEN` is written after the `RDATA` behind it
  rw [Answer.encode]
  simp only [Block.patch_append, List.append_assoc, length_be16, length_be32]
  apply Block.ext'
  · simp only [Block.patch_size]
  · simp only [Block.patch_bytes]
    exact (patch_comm _ _ _ (by simp)).symm

/-- The record loop writes the records one after the other. -/
theorem putAnswers_eq {xs : List (Answer × UInt16)} (hxs : ∀ x ∈ xs, x.1.Filled) {dest : Block} {pos : Nat}
    (hroom : pos + (answerBytes xs).length ≤ dest.size) :
    putAnswers xs dest pos = .ok (dest.patch pos (answerBytes xs)) := by
  induction xs generalizing dest pos with
  | nil => rfl
  | cons x xs ih =>
    obtain ⟨a, name⟩ := x
    have ha : a.Filled := hxs (a, name) List.mem_cons_self
    have henc := ha.length_encode name
    have hcons : answerBytes ((a, name) :: xs) = a.encode name ++ answerBytes xs := rfl
    rw [hcons, List.length_append, henc] at hroom
    rw [putAnswer_eq ha (by omega), ih (fun x hx => hxs x (List.mem_cons_of_mem _ hx))
      (by rw [Block.patch_size]; omega), hcons, Block.patch_append, henc]

/-! ### The first loop -/

theorem namePointers_length {quests : List Quest} {ans : List Answer} {names : List UInt16}
    (h : namePointers quests ans = .ok names) : names.length = ans.length := by
  induction ans generalizing names with
  | nil => cases h; rfl
  | cons a ans ih =>
    obtain ⟨_, -, h⟩ := bind_ok.1 h
    obtain ⟨names', hn, h⟩ := bind_ok.1 h
    cases h
    rw [List.length_cons, ih hn, List.length_cons]

/-- The loop rewrites `RDLEN` and `RDATA` and nothing else, and adds up the lengths. -/
theorem formatAnswers_ok {C : Libc} {quests : List Quest} {xs : List (Answer × UInt16)} {resData : Block}
    {len len' : Nat} {ans : List Answer} (h : formatAnswers C quests xs resData len = .ok (ans, len')) :
    List.Forall₂ (fun x a => a = { x.1 with rdlen := a.rdlen, rdata := a.rdata }) xs ans ∧
      (∀ a ∈ ans, a.Filled) ∧ len' = len + (ans.map fun a => a.rdlen.toNat + 12).sum := by
  induction xs generalizing resData len ans with
  | nil => cases h; exact ⟨.nil, nofun, rfl⟩
  | cons x xs ih =>
    obtain ⟨a, name⟩ := x
    rw [formatAnswers] at h
    cases hq : quests[a.qpos.toNat]? with
    | none => rw [hq] at h; cases h
    | some q =>
      rw [hq] at h
      obtain ⟨⟨ret, resData'⟩, -, h⟩ := bind_ok.1 h
      obtain ⟨rdata, hcopy, h⟩ := bind_ok.1 h
      obtain ⟨⟨ans', len''⟩, hrest, h⟩ := bind_ok.1 h
      cases h
      obtain ⟨hall, hfill, rfl⟩ := ih hrest
      obtain ⟨bs, hlen, -, hroom, rfl⟩ := Block.copy_ok (p := 0) (q := 0) hcopy
      refine ⟨.cons rfl hall, fun a' ha' => ?_, ?_⟩
      · rcases List.mem_cons.1 ha' with rfl | ha'
        · show _ ≤ (ByteSeq.patch a.rdata.bytes 0 bs).length
          have := a.rdata.size_le
          rw [ByteSeq.length_patch]
          show (UInt16.ofNat (ret % 65536).toNat).toNat ≤ _
          omega
        · exact hfill a' ha'
      · rw [List.map_cons, List.sum_cons]; dsimp only; omega

theorem length_answerBytes {ans : List Answer} {names : List UInt16} (hlen : names.length = ans.length)
    (hfill : ∀ a ∈ ans, a.Filled) :
    (answerBytes (ans.zip names)).length = (ans.map fun a => a.rdlen.toNat + 12).sum := by
  induction ans generalizing names with
  | nil => rfl
  | cons a ans ih =>
    cases names with
    | nil => simp at hlen
    | cons n names =>
      rw [List.zip_cons_cons, answerBytes, List.flatMap_cons, List.length_append, List.map_cons,
        List.sum_cons, ← answerBytes, ih (by simpa using hlen) fun a ha => hfill a (List.mem_cons_of_mem _ ha),
        (hfill a List.mem_cons_self).length_encode]

/-! ### The whole output -/

/-- The request with the response's flags and answer count. -/
def responseHead (src : Packet) : List UInt8 :=
  patch (patch (src.reqBuf.take src.bufLen) 2 (be16 (responseFlag src))) 6 (be16 src.ancount)

theorem length_responseHead {src : Packet} (h : src.bufLen ≤ src.reqBuf.length) :
    (responseHead src).length = src.bufLen := by
  rw [responseHead, length_patch, length_patch, List.length_take, Nat.min_eq_left h]

section
variable {C : Libc} {st : Stale} {src : Packet}

/-- The output buffer before the records are written. -/
def headBlock (st : Stale) (src : Packet) (len : Nat) : Block :=
  (((Block.fresh (len + 1) st.dest).patch 0 (src.reqBuf.take src.bufLen)).patch 2
    (be16 (responseFlag src))).patch 6 (be16 src.ancount)

theorem headBlock_at {len : Nat} (hbuf : src.bufLen ≤ src.reqBuf.length) (h12 : 12 ≤ src.bufLen)
    (hlen : src.bufLen ≤ len) : At (headBlock st src len).bytes 0 (responseHead src) := by
  have hreq : (src.reqBuf.take src.bufLen).length = src.bufLen := by
    rw [List.length_take, Nat.min_eq_left hbuf]
  have h0 : At ((Block.fresh (len + 1) st.dest).patch 0 (src.reqBuf.take src.bufLen)).bytes 0
      (src.reqBuf.take src.bufLen) := Block.at_patch (by rw [Block.fresh_size]; omega)
  have h2 := At.patch_inside (q := 2) h0 (show 2 + (be16 (responseFlag src)).length ≤ _ by
    rw [hreq, length_be16]; omega)
  exact h2.patch_inside (q := 6) (show 6 + (be16 src.ancount).length ≤ _ by
    rw [length_patch, hreq, length_be16]; omega)

/-- Once its first loop returns, so does `responseFormat`. -/
theorem responseFormat_eq {names : List UInt16} {ans : List Answer} {len : Nat}
    (hbuf : src.bufLen ≤ src.reqBuf.length) (h12 : 12 ≤ src.bufLen)
    (hnames : namePointers src.quests (src.ans.take src.ancount.toNat) = .ok names)
    (hfmt : formatAnswers C src.quests ((src.ans.take src.ancount.toNat).zip names)
      (Block.fresh 255 st.resData) src.bufLen = .ok (ans, len)) :
    ∃ dest, responseFormat C st src = .ok ⟨dest, len, { src with ans := ans }⟩ ∧
      names.length = ans.length ∧ len = src.bufLen + (answerBytes (ans.zip names)).length ∧
      dest.bytes.take len = responseHead src ++ answerBytes (ans.zip names) := by
  obtain ⟨hall, hfill, hlen⟩ := formatAnswers_ok hfmt
  have hcount : names.length = ans.length := by
    have := hall.length_eq
    rw [List.length_zip, namePointers_length hnames, Nat.min_self] at this
    rw [namePointers_length hnames, this]
  have hbytes := length_answerBytes hcount hfill
  have hreqlen : (src.reqBuf.take src.bufLen).length = src.bufLen := by
    rw [List.length_take, Nat.min_eq_left hbuf]
  have hcopy := Block.copy_eq (b := Block.fresh (len + 1) st.dest) (p := 0) (At.slice src.reqBuf 0 src.bufLen)
    (by rw [List.drop_zero, Block.fresh_size]; omega)
  rw [List.drop_zero, hreqlen] at hcopy
  have hflag := Block.storeBytes_eq (b := (Block.fresh (len + 1) st.dest).patch 0
    (src.reqBuf.take src.bufLen)) (p := 2) (show 2 + (be16 (responseFlag src)).length ≤ _ by
      simp only [Block.patch_size, Block.fresh_size, length_be16]; omega)
  have hancount := Block.storeBytes_eq (b := ((Block.fresh (len + 1) st.dest).patch 0
    (src.reqBuf.take src.bufLen)).patch 2 (be16 (responseFlag src))) (p := 6)
    (show 6 + (be16 src.ancount).length ≤ _ by
      simp only [Block.patch_size, Block.fresh_size, length_be16]; omega)
  have hsize : (headBlock st src len).size = len + 1 := rfl
  have hput : putAnswers (ans.zip names) (headBlock st src len) src.bufLen = .ok _ :=
    putAnswers_eq (fun x hx => hfill x.1 (List.of_mem_zip hx).1) (by rw [hsize]; omega)
  refine ⟨(headBlock st src len).patch src.bufLen (answerBytes (ans.zip names)), ?_, hcount, by omega, ?_⟩
  · rw [responseFormat]
    simp only [hnames, hfmt, ok_bind]
    rw [show (0 : Int) = ((0 : Nat) : Int) from rfl, hcopy, ok_bind]
    rw [show (2 : Int) = ((2 : Nat) : Int) from rfl, hflag, ok_bind]
    rw [show (6 : Int) = ((6 : Nat) : Int) from rfl, hancount, ok_bind]
    rw [← headBlock, hput]
    rfl
  · have hheadlen := length_responseHead hbuf
    have hhead : At ((headBlock st src len).patch src.bufLen (answerBytes (ans.zip names))).bytes 0
        (responseHead src) := (headBlock_at hbuf h12 (by omega)).patch (.inl (by omega))
    have htail := Block.at_patch (b := headBlock st src len) (p := src.bufLen)
      (show src.bufLen + (answerBytes (ans.zip names)).length ≤ _ by rw [hsize]; omega)
    have hall := hhead.append (show At _ _ (answerBytes (ans.zip names)) by rwa [Nat.zero_add, hheadlen])
    have := hall.take_drop
    rw [List.drop_zero, List.length_append, hheadlen, hbytes, ← hlen] at this
    exact this

/-- What a call that returns has done. -/
theorem responseFormat_ok {r : Response} (h : responseFormat C st src = .ok r) (h12 : 12 ≤ src.bufLen) :
    ∃ names ans, namePointers src.quests (src.ans.take src.ancount.toNat) = .ok names ∧
      formatAnswers C src.quests ((src.ans.take src.ancount.toNat).zip names)
        (Block.fresh 255 st.resData) src.bufLen = .ok (ans, r.len) ∧
      names.length = ans.length ∧ r.src = { src with ans := ans } ∧ src.bufLen ≤ src.reqBuf.length ∧
      r.len = src.bufLen + (answerBytes (ans.zip names)).length ∧
      r.sent = responseHead src ++ answerBytes (ans.zip names) := by
  have h' := h
  obtain ⟨names, hnames, h⟩ := bind_ok.1 h
  obtain ⟨⟨ans, len⟩, hfmt, h⟩ := bind_ok.1 h
  obtain ⟨dest, hcopy, -⟩ := bind_ok.1 h
  have hbuf : src.bufLen ≤ src.reqBuf.length := by
    obtain ⟨xs, hlen, hat, -, -⟩ := Block.copy_ok (p := 0) (q := 0) hcopy
    have := hat.le_length (by rintro rfl; simp at hlen; omega)
    omega
  obtain ⟨dest, heq, hcount, hlen, hsent⟩ := responseFormat_eq hbuf h12 hnames hfmt
  rw [heq] at h'
  cases h'
  exact ⟨names, ans, hnames, hfmt, hcount, rfl, hbuf, hlen, hsent⟩

end

end DnsRelay
