import DnsRelay.Names

/-!
# Datagrams and what `packetParse` makes of them

`Header` and `WireQuest` are a datagram's header and questions, `encode` their bytes. On a datagram
that starts with them `packetParse` finds exactly these questions and goes on to the answers where
the questions end.
-/

namespace DnsRelay
open ByteSeq Exec

/-- A header; `id` as the host reads it, without a byte swap. -/
structure Header where
  id : UInt16
  flags : UInt16
  qdcount : UInt16
  ancount : UInt16
  nscount : UInt16
  arcount : UInt16

def Header.encode (h : Header) : List UInt8 :=
  le16 h.id ++ be16 h.flags ++ be16 h.qdcount ++ be16 h.ancount ++ be16 h.nscount ++ be16 h.arcount

structure WireQuest where
  labels : List (List UInt8)
  qtype : UInt16
  qclass : UInt16

namespace WireQuest

def name (q : WireQuest) : List UInt8 := dotted q.labels

def encode (q : WireQuest) : List UInt8 := Labels.encode q.labels ++ (be16 q.qtype ++ be16 q.qclass)

structure Valid (q : WireQuest) : Prop where
  labels : ValidName q.labels
  length_le : q.name.length ≤ 64

/-- The labels have 1 to 63 bytes and no NUL. -/
structure Legible (q : WireQuest) : Prop where
  sized : Labels.Sized q.labels
  zero_notMem : ∀ l ∈ q.labels, 0 ∉ l

/-- The `Quest` that `packetParse` makes of the `i`-th question. -/
def quest (st : Stale) (i : Nat) (q : WireQuest) : Quest :=
  ⟨(Block.fresh (64 + 1) (st.qname i)).patch 0 (q.name ++ [0]), q.qtype, q.qclass⟩

variable {st : Stale} {i : Nat} {q : WireQuest}

theorem Valid.legible (hq : q.Valid) : q.Legible := ⟨hq.labels.sized, Labels.Valid.zero_notMem hq.labels⟩

theorem Valid.zero_notMem (hq : q.Valid) : 0 ∉ q.name := hq.labels.zero_notMem

/-- The text of a parsed question. -/
theorem cstr_quest (hq : q.Valid) : cstr (q.quest st i).qname.bytes = .ok q.name :=
  Block.cstr_patch hq.zero_notMem (by rw [Block.fresh_size]; have := hq.length_le; omega)

theorem length_encode (hq : q.Valid) : q.encode.length = q.name.length + 6 := by
  rw [encode, List.length_append, Labels.length_encode hq.labels.ne_nil]
  rfl

end WireQuest

/-- The question section. -/
def questBytes (qs : List WireQuest) : List UInt8 := qs.flatMap WireQuest.encode

def questsFrom (st : Stale) : Nat → List WireQuest → List Quest
  | _, [] => []
  | i, q :: qs => q.quest st i :: questsFrom st (i + 1) qs

@[simp] theorem length_questsFrom (st : Stale) (i : Nat) (qs : List WireQuest) :
    (questsFrom st i qs).length = qs.length := by
  induction qs generalizing i with
  | nil => rfl
  | cons q qs ih => rw [questsFrom, List.length_cons, ih, List.length_cons]

/-- A resource record; `owner` is its owner name as it stands on the wire. -/
structure WireRecord where
  owner : List UInt8
  type : UInt16
  cls : UInt16
  ttl : UInt32
  rdata : List UInt8
deriving DecidableEq

namespace WireRecord

/-- The fixed fields between owner name and RDATA. -/
def fields (r : WireRecord) : List UInt8 :=
  be16 r.type ++ be16 r.cls ++ be32 r.ttl ++ be16 (UInt16.ofNat r.rdata.length)

def encode (r : WireRecord) : List UInt8 := r.owner ++ r.fields ++ r.rdata

@[simp] theorem length_fields (r : WireRecord) : r.fields.length = 10 := rfl

theorem length_encode (r : WireRecord) : r.encode.length = r.owner.length + 10 + r.rdata.length := by
  simp only [encode, List.length_append, length_fields]

end WireRecord

theorem exists_le16 {xs : List UInt8} (h : xs.length = 2) : ∃ x, xs = le16 x := by
  obtain ⟨a, b, rfl⟩ := List.length_eq_two.1 h
  have ha := a.toNat_lt
  have hb := b.toNat_lt
  refine ⟨UInt16.ofNat (b.toNat * 256 + a.toNat), ?_⟩
  simp only [le16, UInt16.toNat_ofNat', List.cons.injEq, and_true]
  exact ⟨UInt8.toNat_inj.1 (by rw [UInt8.toNat_ofNat']; omega),
    UInt8.toNat_inj.1 (by rw [UInt8.toNat_ofNat']; omega)⟩

section
variable {C : Libc} {st : Stale} {buf : List UInt8} {qs : List WireQuest} {i pos : Nat}

/-- The fields of the header that `packetParse` reads. -/
theorem Header.loads {h : Header} (hbuf : At buf 0 h.encode) : load16le buf 0 = .ok h.id ∧
    load16 buf 2 = .ok h.flags ∧ load16 buf 4 = .ok h.qdcount ∧ load16 buf 6 = .ok h.ancount :=
  ⟨load16le_at hbuf.left.left.left.left.left, load16_at (p := 2) hbuf.left.left.left.left.right,
    load16_at (p := 4) hbuf.left.left.left.right, load16_at (p := 6) hbuf.left.left.right⟩

/-- Where the two sections stand. -/
theorem sections_at {h : Header} {recs : List WireRecord}
    (hbuf : At buf 0 (h.encode ++ questBytes qs ++ recs.flatMap WireRecord.encode)) : At buf 0 h.encode ∧
    At buf 12 (questBytes qs) ∧ At buf (12 + (questBytes qs).length) (recs.flatMap WireRecord.encode) := by
  have hrecs := hbuf.right
  rw [Nat.zero_add, List.length_append] at hrecs
  exact ⟨hbuf.left.left, hbuf.left.right, hrecs⟩

/-- A question that the loop comes to. -/
theorem parseQuests_step {q : WireQuest} (hbuf : At buf pos q.encode) (hq : q.Legible) (n : Nat) :
    parseQuests C st buf (n + 1) i pos = (do
      let (qname, _) ← urlParse C buf pos (Block.fresh (64 + 1) (st.qname i)) 0 typeQname 0 []
      let (quests, pos) ← parseQuests C st buf n (i + 1) (pos + q.encode.length)
      return (⟨qname, q.qtype, q.qclass⟩ :: quests, pos)) := by
  have hname : At buf pos (Labels.prefixed q.labels ++ [0]) := hbuf.left
  have hstr : cstr (buf.drop pos) = .ok (Labels.prefixed q.labels) :=
    cstr_at (Labels.zero_notMem_prefixed hq.sized hq.zero_notMem) hname
  have hend : (Labels.prefixed q.labels).length + 1 = (Labels.encode q.labels).length := by
    rw [Labels.encode, List.length_append]; rfl
  have htail := hbuf.right
  have htype : load16 buf ((pos + (Labels.encode q.labels).length : Nat) : Int) = .ok q.qtype :=
    load16_at htail.left
  have hclass : load16 buf (((pos + (Labels.encode q.labels).length : Nat) : Int) + 2) = .ok q.qclass :=
    load16_at (p := pos + (Labels.encode q.labels).length + 2) htail.right
  have hnext : pos + (Labels.encode q.labels).length + 4 = pos + q.encode.length := by
    rw [WireQuest.encode]
    simp only [List.length_append, length_be16]
    omega
  rw [parseQuests, hstr]
  simp only [ok_bind, hend]
  rw [htype, hclass]
  simp only [ok_bind, hnext]

/-- A question with a name that has a label and fits. -/
theorem parseQuests_cons {q : WireQuest} (hbuf : At buf pos q.encode) (hq : q.Legible) (hne : q.labels ≠ [])
    (hlen : q.name.length ≤ 64) (n : Nat) :
    parseQuests C st buf (n + 1) i pos = (do
      let (quests, pos) ← parseQuests C st buf n (i + 1) (pos + q.encode.length)
      return (q.quest st i :: quests, pos)) := by
  have hparse : inetParse C .max buf (pos : Nat) (Block.fresh (64 + 1) (st.qname i)) =
      .ok ((Block.fresh (64 + 1) (st.qname i)).patch 0 (q.name ++ [0])) :=
    inetParse_name hbuf.left hq.sized hne (Nat.succ_le_succ hlen)
  rw [parseQuests_step hbuf hq, urlParse, if_pos rfl, hparse]
  rfl

/-- Questions with names that have a label and fit. -/
theorem parseQuests_named (hbuf : At buf pos (questBytes qs))
    (hqs : ∀ q ∈ qs, q.Legible ∧ q.labels ≠ [] ∧ q.name.length ≤ 64) :
    parseQuests C st buf qs.length i pos = .ok (questsFrom st i qs, pos + (questBytes qs).length) := by
  induction qs generalizing i pos with
  | nil => rfl
  | cons q qs ih =>
    obtain ⟨hq, hne, hlen⟩ := hqs q List.mem_cons_self
    rw [questBytes, List.flatMap_cons, ← questBytes] at hbuf
    rw [List.length_cons, parseQuests_cons hbuf.left hq hne hlen,
      ih hbuf.right fun q hq => hqs q (List.mem_cons_of_mem _ hq)]
    simp only [ok_bind, questsFrom, questBytes, List.flatMap_cons, List.length_append, Nat.add_assoc]
    rfl

theorem parseQuests_eq (hbuf : At buf pos (questBytes qs)) (hqs : ∀ q ∈ qs, q.Valid) :
    parseQuests C st buf qs.length i pos = .ok (questsFrom st i qs, pos + (questBytes qs).length) :=
  parseQuests_named hbuf fun q hq => ⟨(hqs q hq).legible, (hqs q hq).labels.ne_nil, (hqs q hq).length_le⟩

theorem packetParse_ok {p : Packet} {len stop : Nat} (h : packetWalk C st buf len = .ok (p, stop)) :
    packetParse C st buf len = .ok p := by
  rw [packetParse, h]; rfl

/-- What `packetParse` does on a datagram that starts with the header `h` and the questions `qs`. -/
theorem packetWalk_eq (C : Libc) (st : Stale) {h : Header} (len : Nat) (hbuf : At buf 0 (h.encode ++ questBytes qs))
    (hqs : ∀ q ∈ qs, q.Valid) (hqd : h.qdcount.toNat = qs.length) :
    packetWalk C st buf len =
      if h.ancount = 0 then
        .ok (⟨buf, len, h.id, h.flags, h.qdcount, h.ancount, questsFrom st 0 qs, []⟩,
          12 + (questBytes qs).length)
      else do
        let (ans, pos) ← parseAnswers C st buf h.ancount.toNat 0 (12 + (questBytes qs).length)
        return (⟨buf, len, h.id, h.flags, h.qdcount, h.ancount, questsFrom st 0 qs, ans⟩, pos) := by
  have hq : At buf 12 (questBytes qs) := hbuf.right
  obtain ⟨hid, hfl, hqc, hac⟩ := Header.loads hbuf.left
  rw [packetWalk, hid, hfl, hqc, hac]
  simp only [ok_bind, hqd, parseQuests_eq hq hqs]
  rfl

theorem packetParse_request (C : Libc) (st : Stale) {h : Header} (len : Nat)
    (hbuf : At buf 0 (h.encode ++ questBytes qs)) (hqs : ∀ q ∈ qs, q.Valid) (hqd : h.qdcount.toNat = qs.length)
    (han : h.ancount = 0) :
    packetParse C st buf len = .ok ⟨buf, len, h.id, h.flags, h.qdcount, h.ancount, questsFrom st 0 qs, []⟩ := by
  have hwalk := packetWalk_eq C st len hbuf hqs hqd
  rw [if_pos han] at hwalk
  exact packetParse_ok hwalk

/-- Where an answer was read. -/
theorem parseAnswers_get {ans : List Answer} {a : Answer} {n k stop : Nat} (h : parseAnswers C st buf n i pos = .ok (ans, stop))
    (ha : ans[k]? = some a) : ∃ pre pos', parseAnswers C st buf k i pos = .ok (pre, pos') ∧
      parseAnswer C st buf (i + k) pos' = .ok a := by
  induction n generalizing i pos ans k with
  | zero => cases h; cases ha
  | succ n ih =>
    obtain ⟨b, hb, h⟩ := bind_ok.1 h
    obtain ⟨⟨ans', stop'⟩, hans, h⟩ := bind_ok.1 h
    cases h
    cases k with
    | zero =>
      cases ha
      exact ⟨[], pos, rfl, hb⟩
    | succ k =>
      obtain ⟨pre, pos', hpre, hk⟩ := ih hans ha
      refine ⟨b :: pre, pos', ?_, ?_⟩
      · rw [parseAnswers, hb, ok_bind, hpre]
        rfl
      · rwa [show i + (k + 1) = i + 1 + k by omega]

theorem parseAnswers_length {n i pos stop : Nat} {ans : List Answer}
    (h : parseAnswers C st buf n i pos = .ok (ans, stop)) : ans.length = n := by
  induction n generalizing i pos ans with
  | zero => cases h; rfl
  | succ n ih =>
    obtain ⟨a, -, h⟩ := bind_ok.1 h
    obtain ⟨⟨ans', stop'⟩, hans, h⟩ := bind_ok.1 h
    cases h
    rw [List.length_cons, ih hans]

theorem parseQuests_length {n i pos stop : Nat} {quests : List Quest}
    (h : parseQuests C st buf n i pos = .ok (quests, stop)) : quests.length = n := by
  induction n generalizing i pos quests with
  | zero => cases h; rfl
  | succ n ih =>
    obtain ⟨s, -, h⟩ := bind_ok.1 h
    obtain ⟨⟨qname, addition⟩, -, h⟩ := bind_ok.1 h
    obtain ⟨qtype, -, h⟩ := bind_ok.1 h
    obtain ⟨qclass, -, h⟩ := bind_ok.1 h
    obtain ⟨⟨quests', stop'⟩, hquests, h⟩ := bind_ok.1 h
    cases h
    rw [List.length_cons, ih hquests]

/-- Every question has a name: its text ends somewhere in the buffer. -/
theorem parseQuests_cstr {n i pos stop : Nat} {quests : List Quest}
    (h : parseQuests C st buf n i pos = .ok (quests, stop)) : ∀ q ∈ quests, ∃ s, cstr q.qname.bytes = .ok s := by
  induction n generalizing i pos quests with
  | zero =>
    cases h
    nofun
  | succ n ih =>
    obtain ⟨s, -, h⟩ := bind_ok.1 h
    obtain ⟨⟨qname, addition⟩, hurl, h⟩ := bind_ok.1 h
    obtain ⟨qtype, -, h⟩ := bind_ok.1 h
    obtain ⟨qclass, -, h⟩ := bind_ok.1 h
    obtain ⟨⟨quests', stop'⟩, hrest, h⟩ := bind_ok.1 h
    cases h
    intro q hq
    rcases List.mem_cons.1 hq with rfl | hq
    · rw [urlParse, if_pos rfl] at hurl
      obtain ⟨dest, hdest, hurl⟩ := bind_ok.1 hurl
      cases hurl
      obtain ⟨k, -, hk⟩ := inetParse_max hdest
      exact exists_cstr (List.mem_of_getElem? hk)
    · exact ih hrest q hq

/-- What stands in the packet `p` that `packetParse` returns: the question loop ends at `mid` and the answer
loop at `stop`. -/
structure ParsesTo (C : Libc) (st : Stale) (buf : List UInt8) (len : Nat) (p : Packet) (mid stop : Nat) : Prop where
  id : load16le buf 0 = .ok p.id
  flags : load16 buf 2 = .ok p.flags
  qdcount : load16 buf 4 = .ok p.qdcount
  ancount : load16 buf 6 = .ok p.ancount
  quests : parseQuests C st buf p.qdcount.toNat 0 12 = .ok (p.quests, mid)
  ans : parseAnswers C st buf p.ancount.toNat 0 mid = .ok (p.ans, stop)
  reqBuf : p.reqBuf = buf
  bufLen : p.bufLen = len

theorem packetParse_parsed {len : Nat} {p : Packet} (h : packetParse C st buf len = .ok p) :
    ∃ mid stop, ParsesTo C st buf len p mid stop := by
  obtain ⟨⟨p', stop⟩, hwalk, h⟩ := bind_ok.1 h
  cases h
  obtain ⟨id, hid, hwalk⟩ := bind_ok.1 hwalk
  obtain ⟨flags, hflags, hwalk⟩ := bind_ok.1 hwalk
  obtain ⟨qd, hqd, hwalk⟩ := bind_ok.1 hwalk
  obtain ⟨an, han, hwalk⟩ := bind_ok.1 hwalk
  obtain ⟨⟨quests, mid⟩, hquests, hwalk⟩ := bind_ok.1 hwalk
  dsimp only at hwalk
  split at hwalk
  case isTrue h0 =>
    cases hwalk
    exact ⟨stop, stop, hid, hflags, hqd, han, hquests, by rw [h0]; rfl, rfl, rfl⟩
  case isFalse =>
    obtain ⟨⟨ans, pos⟩, hans, hwalk⟩ := bind_ok.1 hwalk
    cases hwalk
    exact ⟨mid, pos, hid, hflags, hqd, han, hquests, hans, rfl, rfl⟩

theorem ParsesTo.packetParse_eq {len mid stop : Nat} {p : Packet} (h : ParsesTo C st buf len p mid stop) :
    packetParse C st buf len = .ok p := by
  have hwalk : packetWalk C st buf len = .ok (⟨p.reqBuf, p.bufLen, p.id, p.flags, p.qdcount, p.ancount, p.quests,
      p.ans⟩, stop) := by
    rw [packetWalk, h.id, h.flags, h.qdcount, h.ancount, h.reqBuf, h.bufLen]
    simp only [ok_bind, h.quests]
    have hans := h.ans
    split
    case isTrue h0 =>
      rw [h0] at hans
      obtain ⟨hnil, hstop⟩ := Prod.mk.inj (Except.ok.inj hans)
      rw [← hnil, hstop, h0]
      rfl
    case isFalse =>
      rw [hans]
      rfl
  exact packetParse_ok hwalk

/-- The fields `packetParse` fills without looking at the sections. -/
theorem packetParse_fields {len : Nat} {p : Packet} (h : packetParse C st buf len = .ok p) :
    load16le buf 0 = .ok p.id ∧ load16 buf 2 = .ok p.flags ∧ p.reqBuf = buf ∧ p.bufLen = len := by
  obtain ⟨mid, stop, hparsed⟩ := packetParse_parsed h
  exact ⟨hparsed.id, hparsed.flags, hparsed.reqBuf, hparsed.bufLen⟩

/-- What `packetParse` makes of the part before the answers. -/
theorem packetParse_head {h : Header} {len : Nat} {p : Packet} (hbuf : At buf 0 (h.encode ++ questBytes qs))
    (hqs : ∀ q ∈ qs, q.Valid) (hqd : h.qdcount.toNat = qs.length) (hp : packetParse C st buf len = .ok p) :
    p.quests = questsFrom st 0 qs ∧ p.reqBuf = buf ∧ p.bufLen = len ∧ p.id = h.id ∧ p.flags = h.flags ∧
      p.qdcount = h.qdcount ∧ p.ancount = h.ancount := by
  obtain ⟨⟨p', stop⟩, hwalk, hp⟩ := bind_ok.1 hp
  cases hp
  rw [packetWalk_eq C st len hbuf hqs hqd] at hwalk
  split at hwalk
  · cases hwalk; exact ⟨rfl, rfl, rfl, rfl, rfl, rfl, rfl⟩
  · obtain ⟨⟨ans, pos⟩, -, hwalk⟩ := bind_ok.1 hwalk
    cases hwalk; exact ⟨rfl, rfl, rfl, rfl, rfl, rfl, rfl⟩

/-- What `packetParse` does on a record whose owner name is two bytes long. -/
theorem parseAnswer_eq (C : Libc) (st : Stale) (i : Nat) {r : WireRecord} (hbuf : At buf pos r.encode)
    (howner : r.owner.length = 2) :
    ∃ name, parseAnswer C st buf i pos = (do
      let (rdata, addition) ← urlParse C buf (pos + 12) (Block.fresh (typeBufSize r.type) (st.rdata i))
        (st.addition i) r.type (UInt16.ofNat r.rdata.length) (st.temp i)
      return ⟨0, name, r.type, r.cls, UInt16.ofNat r.rdata.length, r.ttl, addition, rdata⟩) := by
  obtain ⟨name, hname⟩ := exists_le16 howner
  have hf := hbuf.left.right
  rw [howner] at hf
  have h0 : load16le buf pos = .ok name := load16le_at (hname ▸ hbuf.left.left)
  have h2 : load16 buf ((pos : Int) + 2) = .ok r.type := load16_at (p := pos + 2) hf.left.left.left
  have h4 : load16 buf ((pos : Int) + 4) = .ok r.cls := load16_at (p := pos + 4) hf.left.left.right
  have h6 : load32 buf ((pos : Int) + 6) = .ok r.ttl := load32_at (p := pos + 6) hf.left.right
  have h10 : load16 buf ((pos : Int) + 10) = .ok (UInt16.ofNat r.rdata.length) :=
    load16_at (p := pos + 10) hf.right
  refine ⟨name, ?_⟩
  rw [parseAnswer, h0, h2, h4, h6, h10]
  rfl

end

/-! ### Samples -/

/-- The question for the one-letter name `c`, type `type`. -/
def questFor (type : UInt16) (c : UInt8) : WireQuest := ⟨[[c]], type, 1⟩

theorem questFor_valid (type : UInt16) {c : UInt8} (h0 : c ≠ 0) (hd : c ≠ dot) : (questFor type c).Valid := by
  have hname : (questFor type c).name = [c] := rfl
  refine ⟨⟨by simp [questFor], by simp [questFor], by simp [questFor], ?_, ?_⟩, by rw [hname]; simp⟩
  · simpa [questFor] using hd.symm
  · simpa [questFor] using h0.symm

/-- Questions for an address of `a` and for one of `bc.d`. -/
def mixedQuests : List WireQuest := [questFor typeA 97, ⟨[[98, 99], [100]], typeAaaa, 1⟩]

theorem mixedQuests_valid (q : WireQuest) (hq : q ∈ mixedQuests) : q.Valid := by
  rcases List.mem_cons.1 hq with rfl | hq
  · exact questFor_valid typeA (by decide) (by decide)
  · rw [List.mem_singleton.1 hq]
    exact ⟨⟨by decide, by decide, by decide, by decide, by decide⟩, by decide⟩

/-- A request of type `type` for the one-letter names `cs`. -/
def requestFor (type : UInt16) (cs : List UInt8) : List UInt8 :=
  Header.encode ⟨0x1234, 0x100, UInt16.ofNat cs.length, 0, 0, 0⟩ ++ questBytes (cs.map (questFor type))

/-- The response to such a request for addresses, with the answer 6.6.6.6. -/
def responseFor (id : UInt16) (cs : List UInt8) : List UInt8 :=
  Header.encode ⟨id, 0x8180, UInt16.ofNat cs.length, 1, 0, 0⟩ ++ questBytes (cs.map (questFor typeA)) ++
    WireRecord.encode ⟨[0xc0, 12], typeA, 1, 60, [6, 6, 6, 6]⟩

end DnsRelay
