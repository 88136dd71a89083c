import DnsRelay.Lib.Reader
import DnsRelay.Pointers
import DnsRelay.Rdata
import DnsRelay.Server

/-!
# The sections of a response

A reader of a message takes as many questions and records as the counts of the header say.
`responseFormat` copies the whole request, whatever follows its questions included, and appends the
answers. `section_layout` says what a reader finds then, and when it is what the sections stand for.
-/

namespace DnsRelay
open ByteSeq Exec Reader

/-! ### Reading a message -/

def read16 : List UInt8 → Option (UInt16 × List UInt8)
  | hi :: lo :: s => some (word16 hi lo, s)
  | _ => none

def read32 (s : List UInt8) : Option (UInt32 × List UInt8) := do
  let (hi, s) ← read16 s
  let (lo, s) ← read16 s
  return (UInt32.ofNat (hi.toNat * 65536 + lo.toNat), s)

def readBytes (n : Nat) (s : List UInt8) : Option (List UInt8 × List UInt8) :=
  if n ≤ s.length then some (s.take n, s.drop n) else none

/-- An owner name as it stands in the message; `k` is the number of bytes left of the current label. -/
def readOwner : Nat → List UInt8 → Option (List UInt8 × List UInt8)
  | _, [] => none
  | 0, b :: s =>
    if b = 0 then some ([0], s)
    else if 192 ≤ b.toNat then (readBytes 1 s).map fun (o, s) => (b :: o, s)
    else if b.toNat < 64 then (readOwner b.toNat s).map fun (o, s) => (b :: o, s)
    else none
  | k + 1, b :: s => (readOwner k s).map fun (o, s) => (b :: o, s)

def readQuest (s : List UInt8) : Option ((List UInt8 × UInt16 × UInt16) × List UInt8) := do
  let (owner, s) ← readOwner 0 s
  let (type, s) ← read16 s
  let (cls, s) ← read16 s
  return ((owner, type, cls), s)

def readRecord (s : List UInt8) : Option (WireRecord × List UInt8) := do
  let (owner, s) ← readOwner 0 s
  let (type, s) ← read16 s
  let (cls, s) ← read16 s
  let (ttl, s) ← read32 s
  let (rdlen, s) ← read16 s
  let (rdata, s) ← readBytes rdlen.toNat s
  return (⟨owner, type, cls, ttl, rdata⟩, s)

/-- What a reader finds behind the header: questions, answers, the records of the other two sections,
and what is left. -/
structure Sections where
  quests : List (List UInt8 × UInt16 × UInt16)
  answers : List WireRecord
  trailing : List WireRecord
  rest : List UInt8
deriving DecidableEq

def readSections (m : List UInt8) : Option Sections := do
  let (_, s) ← readBytes 4 m
  let (qdcount, s) ← read16 s
  let (ancount, s) ← read16 s
  let (nscount, s) ← read16 s
  let (arcount, s) ← read16 s
  let (quests, s) ← many readQuest qdcount.toNat s
  let (answers, s) ← many readRecord ancount.toNat s
  let (trailing, s) ← many readRecord (nscount.toNat + arcount.toNat) s
  return ⟨quests, answers, trailing, s⟩

/-- A name: labels, and then the root or a pointer. -/
def IsOwner (o : List UInt8) : Prop :=
  ∃ ls, Labels.Sized ls ∧ (o = Labels.encode ls ∨ ∃ x, isNamePtr x = true ∧ o = Labels.prefixed ls ++ be16 x)

/-- A well-formed record. -/
structure WireRecord.Valid (r : WireRecord) : Prop where
  owner : IsOwner r.owner
  length_lt : r.rdata.length < 65536

theorem takes_be16 (x : UInt16) : Takes read16 (be16 x) x := fun s => by
  rw [be16, List.cons_append, List.cons_append, read16, word16_bytes]
  rfl

theorem takes_be32 (x : UInt32) : Takes read32 (be32 x) x := fun s => by
  have hx := x.toNat_lt
  rw [read32, be32, List.append_assoc, takes_be16]
  simp only [Option.bind_eq_bind, Option.bind_some, takes_be16 _ s]
  refine congrArg (fun y => some (y, s)) (UInt32.toNat_inj.1 ?_)
  simp only [UInt32.toNat_ofNat', UInt16.toNat_ofNat']
  omega

theorem takes_bytes (xs : List UInt8) : Takes (readBytes xs.length) xs xs := fun s => by
  rw [readBytes, if_pos (by rw [List.length_append]; omega), List.take_left, List.drop_left]

theorem readOwner_label (l s : List UInt8) :
    readOwner l.length (l ++ s) = (readOwner 0 s).map fun (o, s) => (l ++ o, s) := by
  induction l with
  | nil => simp
  | cons b l ih =>
    rw [List.length_cons, List.cons_append, readOwner, ih, Option.map_map]
    rfl

theorem readOwner_prefixed {ls : List (List UInt8)} (h : Labels.Sized ls) (s : List UInt8) :
    readOwner 0 (Labels.prefixed ls ++ s) = (readOwner 0 s).map fun (o, s) => (Labels.prefixed ls ++ o, s) := by
  induction ls with
  | nil => simp
  | cons l ls ih =>
    obtain ⟨hn, h0⟩ := h.length_byte List.mem_cons_self
    have hl := (h l List.mem_cons_self).2
    rw [Labels.prefixed_cons, List.cons_append, List.append_assoc, readOwner, if_neg h0, if_neg (by omega),
      if_pos (by omega), hn, readOwner_label, ih h.tail, Option.map_map, Option.map_map]
    refine congrArg (fun f => Option.map f (readOwner 0 s)) (funext fun x => ?_)
    simp

theorem takes_owner {o : List UInt8} (h : IsOwner o) : Takes (readOwner 0) o o := fun s => by
  obtain ⟨ls, hls, rfl | ⟨x, hx, rfl⟩⟩ := h
  · rw [Labels.encode, List.append_assoc, readOwner_prefixed hls]
    rfl
  · have hle := (isNamePtr_iff x).1 hx
    have hlt := x.toNat_lt
    rw [List.append_assoc, readOwner_prefixed hls, be16, List.cons_append, List.cons_append, readOwner,
      if_neg (pointer_byte hx), if_pos (by rw [UInt8.toNat_ofNat']; omega)]
    rfl

theorem takes_quest {q : WireQuest} (hq : q.Valid) :
    Takes readQuest q.encode (Labels.encode q.labels, q.qtype, q.qclass) := fun s => by
  have howner := takes_owner ⟨q.labels, hq.labels.sized, .inl rfl⟩
  rw [readQuest, WireQuest.encode, List.append_assoc, howner, List.append_assoc]
  simp only [Option.bind_eq_bind, Option.bind_some, takes_be16 _ _]
  rfl

theorem takes_record {r : WireRecord} (hr : r.Valid) : Takes readRecord r.encode r := fun s => by
  have hlen : (UInt16.ofNat r.rdata.length).toNat = r.rdata.length := by
    rw [UInt16.toNat_ofNat']; exact Nat.mod_eq_of_lt hr.length_lt
  rw [readRecord, WireRecord.encode, WireRecord.fields]
  simp only [List.append_assoc, takes_owner hr.owner _, Option.bind_eq_bind, Option.bind_some, takes_be16 _ _,
    takes_be32 _ _, hlen, takes_bytes _ _]
  rfl

theorem takes_quests {qs : List WireQuest} (h : ∀ q ∈ qs, q.Valid) : Takes (many readQuest qs.length) (questBytes qs)
    (qs.map fun q => (Labels.encode q.labels, q.qtype, q.qclass)) :=
  takes_many fun q hq => takes_quest (h q hq)

theorem takes_records {rs : List WireRecord} (h : ∀ r ∈ rs, r.Valid) :
    Takes (many readRecord rs.length) (rs.flatMap WireRecord.encode) rs := by
  have hid : Takes (many readRecord rs.length) (rs.flatMap WireRecord.encode) (rs.map id) :=
    takes_many fun r hr => takes_record (h r hr)
  rwa [List.map_id] at hid

/-- A message of a header, questions and records is read as these. -/
theorem readSections_eq {h : Header} {qs : List WireQuest} {xs ys : List WireRecord} (hqs : ∀ q ∈ qs, q.Valid)
    (hxs : ∀ r ∈ xs, r.Valid) (hys : ∀ r ∈ ys, r.Valid) (hqd : h.qdcount.toNat = qs.length)
    (han : h.ancount.toNat = xs.length) (hrest : h.nscount.toNat + h.arcount.toNat = ys.length) :
    readSections (h.encode ++ questBytes qs ++ (xs ++ ys).flatMap WireRecord.encode) =
      some ⟨qs.map fun q => (Labels.encode q.labels, q.qtype, q.qclass), xs, ys, []⟩ := by
  have htrailing := takes_records hys []
  rw [List.append_nil] at htrailing
  rw [readSections, Header.encode, List.flatMap_append]
  simp only [List.append_assoc]
  rw [← List.append_assoc (le16 h.id), show readBytes 4 _ = _ from takes_bytes (le16 h.id ++ be16 h.flags) _]
  simp only [Option.bind_eq_bind, Option.bind_some, takes_be16 _ _, hqd, han, hrest, takes_quests hqs _,
    takes_records hxs _, htrailing]
  rfl

/-! ### The layout -/

/-- What two records have to agree in, owner names aside. -/
def WireRecord.body (r : WireRecord) : UInt16 × UInt16 × UInt32 × List UInt8 := (r.type, r.cls, r.ttl, r.rdata)

def Answer.body (a : Answer) : UInt16 × UInt16 × UInt32 × List UInt8 :=
  (a.type, a.cls, a.ttl, a.rdata.bytes.take a.rdlen.toNat)

/-- The message reads as the questions `qs`, the answers that `responseFormat` left in the packet, and
the records `trailing`. -/
def LaidOut (qs : List WireQuest) (trailing : List WireRecord) (r : Response) : Prop :=
  ∃ s, readSections r.sent = some s ∧ s.quests = qs.map (fun q => (Labels.encode q.labels, q.qtype, q.qclass)) ∧
    s.answers.map WireRecord.body = r.src.ans.map Answer.body ∧ s.trailing = trailing ∧ s.rest = []

/-- `xs` followed by `ys` is `ys` followed by `xs`, up to the owner names of `ys`. -/
def Interchangeable (xs ys : List WireRecord) : Prop :=
  ((xs ++ ys).take ys.length).map WireRecord.body = ys.map WireRecord.body ∧ (xs ++ ys).drop ys.length = xs

section
variable {qs : List WireQuest} {st : Stale} {k : Nat}

theorem isNamePtr_pointerTo (hqs : ∀ q ∈ qs, q.Valid) (hk : k ≤ qs.length) (hlen : (questBytes qs).length ≤ bufferSize) :
    isNamePtr (pointerTo qs k) = true := by
  have hoff := questOffset_eq hqs hk
  have hsub : (questBytes (qs.take k)).length ≤ (questBytes qs).length := by
    conv_rhs => rw [← List.take_append_drop k qs, questBytes, List.flatMap_append]
    rw [List.length_append]
    exact Nat.le_add_right _ _
  have hmax : bufferSize = 1024 := rfl
  rw [questOffset] at hoff
  rw [isNamePtr_iff, pointerTo, UInt16.toNat_add, UInt16.toNat_ofNat', show (0xc00c : UInt16).toNat = 49164 from rfl]
  omega

/-- The answers that `urlQuery` attaches. -/
theorem urlQuery_attached {N : Nat} {host : Option HostMap} {clk : Clock} {src src' : Packet} {c c' : LRUCache}
    {ret : Int} (h : urlQuery N host clk st src c = .ok (ret, src', c')) :
    (∃ ancount ans, src' = { src with ancount := ancount, ans := ans }) ∧
    (src'.ans.take src'.ancount.toNat).length = src'.ancount.toNat ∧
    ∀ a ∈ src'.ans.take src'.ancount.toNat, a.qpos.toNat ≤ src.quests.length ∧ a.rdata.size < 65535 := by
  rcases urlQuery_ok h with ⟨-, ans, rfl⟩ | ⟨gs, ancount, hgs, rfl, -, hanc⟩
  · exact ⟨⟨0, ans, rfl⟩, rfl, nofun⟩
  · dsimp only
    rw [hanc, List.take_length]
    refine ⟨⟨ancount, _, rfl⟩, rfl, fun a ha => ?_⟩
    obtain ⟨⟨k, hk, hq⟩, hsize⟩ := hgs.mem ha
    have := typeBufSize_le a.type
    rw [hq, UInt8.toNat_ofNat']
    omega

end

/-- The records that are written are well formed. -/
theorem records_valid {qs : List WireQuest} {as ans : List Answer} {w : WireRecord} (hqs : ∀ q ∈ qs, q.Valid)
    (has : ∀ a ∈ as, a.qpos.toNat ≤ qs.length) (hlen : (questBytes qs).length ≤ bufferSize)
    (hw : w ∈ records (ans.zip (as.map fun a => pointerTo qs a.qpos.toNat))) : w.Valid := by
  obtain ⟨x, hx, rfl⟩ := List.mem_map.1 hw
  obtain ⟨a, ha, hxa⟩ := List.mem_map.1 (List.of_mem_zip hx).2
  refine ⟨⟨[], nofun, .inr ⟨x.2, ?_, rfl⟩⟩, ?_⟩
  · rw [← hxa]
    exact isNamePtr_pointerTo hqs (has a ha) hlen
  · have := x.1.rdlen.toNat_lt
    show (x.1.rdata.bytes.take x.1.rdlen.toNat).length < 65536
    rw [List.length_take]
    omega

theorem records_body {ans : List Answer} {names : List UInt16} (h : names.length = ans.length) :
    (records (ans.zip names)).map WireRecord.body = ans.map Answer.body := by
  conv_rhs => rw [← List.map_fst_zip (Nat.le_of_eq h.symm), List.map_map]
  rw [records, List.map_map]
  rfl

/-- The response to a request with the questions `qs` and the records `trailing` after them reads as if the
trailing records and the attached ones, in this order, had been dealt out to the sections. So it is laid
out as it should if and only if the two lists are interchangeable. -/
theorem section_layout {C : Libc} (hC : C.Sized) {st st₁ st₂ : Stale} {h : Header} {qs : List WireQuest}
    {trailing : List WireRecord} {m rest : List UInt8} (hqs : ∀ q ∈ qs, q.Valid) (htrailing : ∀ r ∈ trailing, r.Valid)
    (hm : m = h.encode ++ questBytes qs ++ trailing.flatMap WireRecord.encode) (hsize : m.length ≤ bufferSize)
    (hqd : h.qdcount.toNat = qs.length)
    (hcounts : h.nscount.toNat + h.arcount.toNat = trailing.length) {src src' : Packet}
    (hsrc : packetParse C st (m ++ rest) m.length = .ok src) {N : Nat} {host : Option HostMap} {clk : Clock}
    {c c' : LRUCache} {ret : Int} (hquery : urlQuery N host clk st₁ src c = .ok (ret, src', c')) {r : Response}
    (hr : responseFormat C st₂ src' = .ok r) :
    ∃ names recs, namePointers src'.quests (src'.ans.take src'.ancount.toNat) = .ok names ∧
      attached C src'.quests ((src'.ans.take src'.ancount.toNat).zip names) = .ok recs ∧
      readSections r.sent = some ⟨qs.map fun q => (Labels.encode q.labels, q.qtype, q.qclass),
        (trailing ++ recs).take recs.length, (trailing ++ recs).drop recs.length, []⟩ ∧
      (LaidOut qs trailing r ↔ Interchangeable trailing recs) := by
  have hhead : At (m ++ rest) 0 (h.encode ++ questBytes qs) := by
    rw [hm, List.append_assoc]
    exact (At.refl _).left
  obtain ⟨hquests, hreq, hblen, -⟩ := packetParse_head hhead hqs hqd hsrc
  obtain ⟨⟨ancount, ans', rfl⟩, hcount, hans⟩ := urlQuery_attached hquery
  have hlen : m.length = 12 + (questBytes qs).length + (trailing.flatMap WireRecord.encode).length := by
    rw [hm, List.length_append, List.length_append]
    rfl
  obtain ⟨names, ans, hnames, hfmt, hnlen, hrsrc, -, -, hsent⟩ := responseFormat_ok hr (by
    show 12 ≤ src.bufLen
    omega)
  dsimp only at hcount hans hnames hfmt hsent
  rw [hquests, length_questsFrom] at hans
  have hzip : ((ans'.take ancount.toNat).zip names).map Prod.snd = names :=
    List.map_snd_zip (Nat.le_of_eq (namePointers_length hnames))
  have hatt := formatAnswers_attached hC (Block.fresh_size 255 st₂.resData)
    (fun x hx => (hans x.1 (List.of_mem_zip hx).1).2) hfmt
  rw [hzip] at hatt
  obtain ⟨hall, hfill, -⟩ := formatAnswers_ok hfmt
  have hpointers : names = (ans'.take ancount.toNat).map fun a => pointerTo qs a.qpos.toNat := by
    rw [hquests, namePointers_eq hqs fun a ha => (hans a ha).1] at hnames
    exact (Except.ok.inj hnames).symm
  have hrecs : ∀ w ∈ records (ans.zip names), w.Valid := fun w hw =>
    records_valid hqs (fun a ha => (hans a ha).1) (by omega) (hpointers ▸ hw)
  have hrlen : (records (ans.zip names)).length = ancount.toNat := by
    rw [length_records hnlen, ← hnlen, hpointers, List.length_map, hcount]
  have hsections : readSections r.sent = some ⟨qs.map fun q => (Labels.encode q.labels, q.qtype, q.qclass),
      (trailing ++ records (ans.zip names)).take (records (ans.zip names)).length,
      (trailing ++ records (ans.zip names)).drop (records (ans.zip names)).length, []⟩ := by
    have hvalid : ∀ w ∈ trailing ++ records (ans.zip names), w.Valid := fun w hw =>
      (List.mem_append.1 hw).elim (htrailing w) (hrecs w)
    have hpatched : ∀ p : Packet, p.reqBuf = src.reqBuf → p.bufLen = src.bufLen →
        responseHead p = { h with flags := responseFlag p, ancount := p.ancount }.encode ++
          (questBytes qs ++ trailing.flatMap WireRecord.encode) := fun p hp hp' =>
      responseHead_eq (by rw [hp, hp', hreq, hblen, List.take_left, hm, List.append_assoc])
    rw [answerBytes_eq fun x hx => hfill x.1 (List.of_mem_zip hx).1,
      hpatched { src with ancount := ancount, ans := ans' } rfl rfl,
      List.append_assoc,
      List.append_assoc, ← List.flatMap_append, ← List.append_assoc] at hsent
    rw [hsent]
    conv_lhs => rw [← List.take_append_drop (records (ans.zip names)).length (trailing ++ records (ans.zip names))]
    refine readSections_eq hqs (fun w hw => hvalid w (List.take_subset _ _ hw))
      (fun w hw => hvalid w (List.drop_subset _ _ hw)) hqd ?_ ?_
    · rw [List.length_take, List.length_append, hrlen]
      exact (Nat.min_eq_left (Nat.le_add_left _ _)).symm
    · rw [List.length_drop, List.length_append, Nat.add_sub_cancel]
      exact hcounts
  refine ⟨names, _, hnames, hatt, hsections, ?_⟩
  rw [LaidOut, hsections, hrsrc, ← records_body hnlen]
  constructor
  · rintro ⟨s, hs, -, hbody, htrail, -⟩
    cases hs
    exact ⟨hbody, htrail⟩
  · rintro ⟨hbody, htrail⟩
    exact ⟨_, rfl, rfl, hbody, htrail, rfl⟩

/-- An EDNS record. -/
def optRecord : WireRecord := ⟨[0], 41, 1232, 0, []⟩

/-- The address of `a` in `addressCache` as it is answered at time 5. -/
def answerRecord : WireRecord := ⟨[0xc0, 12], typeA, 1, 4, [1, 2, 3, 4]⟩

def trailingHeader : Header := ⟨0x1234, 0x100, 1, 0, 0, 1⟩

/-- A request for the address of `a` with one more record. -/
def requestWith (r : WireRecord) : List UInt8 :=
  trailingHeader.encode ++ questBytes [questFor typeA 97] ++ [r].flatMap WireRecord.encode

theorem answer_with (r : WireRecord) (h : r = optRecord ∨ r = answerRecord) : (do
      let c ← addressCache
      let (_, _, _, ret, res) ← answer (requestWith r) c
      return (ret, readSections res.sent) : Exec (Int × Option Sections)) =
    .ok (1, some ⟨[([1, 97, 0], typeA, 1)], [r], [answerRecord], []⟩) := by
  rcases h with rfl | rfl <;> decide +kernel

theorem exists_answer (r : WireRecord) (h : r = optRecord ∨ r = answerRecord) : ∃ c src src' c' res,
    addressCache = .ok c ∧ answer (requestWith r) c = .ok (src, src', c', 1, res) ∧
    readSections res.sent = some ⟨[([1, 97, 0], typeA, 1)], [r], [answerRecord], []⟩ := by
  obtain ⟨c, hc, h⟩ := bind_ok.1 (answer_with r h)
  obtain ⟨⟨src, src', c', ret, res⟩, ha, h⟩ := bind_ok.1 h
  obtain ⟨rfl, hread⟩ := Prod.mk.inj (Except.ok.inj h)
  exact ⟨c, src, src', c', res, hc, ha, hread⟩

theorem section_layout_same : ∃ c src src' c' r, addressCache = .ok c ∧
    answer (requestWith answerRecord) c = .ok (src, src', c', 1, r) ∧ LaidOut [questFor typeA 97] [answerRecord] r := by
  obtain ⟨c, src, src', c', r, hc, ha, hread⟩ := exists_answer answerRecord (.inr rfl)
  refine ⟨c, src, src', c', r, hc, ha, ?_⟩
  obtain ⟨src₁, hsrc, ha⟩ := bind_ok.1 ha
  obtain ⟨⟨ret, src₂, c₂⟩, hquery, ha⟩ := bind_ok.1 ha
  obtain ⟨r₁, hr, ha⟩ := bind_ok.1 ha
  cases ha
  have hquest : ∀ q ∈ [questFor typeA 97], q.Valid := fun q hq => by
    rw [List.mem_singleton.1 hq]
    exact questFor_valid typeA (by decide) (by decide)
  have hvalid : ∀ w ∈ [answerRecord], w.Valid := fun w hw => by
    rw [List.mem_singleton.1 hw]
    exact ⟨⟨[], nofun, .inr ⟨0xc00c, by decide, rfl⟩⟩, by decide⟩
  have hm : requestWith answerRecord = trailingHeader.encode ++ questBytes [questFor typeA 97] ++
      [answerRecord].flatMap WireRecord.encode := rfl
  obtain ⟨names, recs, -, -, hread', hiff⟩ := section_layout Libc.decimal_sized hquest hvalid hm (by decide) rfl rfl
    (by rw [List.append_nil]; exact hsrc) hquery hr
  refine hiff.2 ?_
  have heq : some _ = some _ := hread'.symm.trans hread
  obtain ⟨-, htake, hdrop, -⟩ := Sections.mk.inj (Option.some.inj heq)
  have hall : [answerRecord] ++ recs = [answerRecord] ++ [answerRecord] := by
    rw [← List.take_append_drop recs.length ([answerRecord] ++ recs), htake, hdrop]
  obtain rfl := List.append_cancel_left hall
  exact ⟨rfl, rfl⟩

/-- The EDNS record of a request is read as the answer, and the answer as an additional record. -/
theorem section_confused : ∃ c src src' c' r, addressCache = .ok c ∧
    answer (requestWith optRecord) c = .ok (src, src', c', 1, r) ∧
    readSections r.sent = some ⟨[([1, 97, 0], typeA, 1)], [optRecord], [answerRecord], []⟩ ∧
    ¬ LaidOut [questFor typeA 97] [optRecord] r := by
  obtain ⟨c, src, src', c', r, hc, ha, hread⟩ := exists_answer optRecord (.inl rfl)
  refine ⟨c, src, src', c', r, hc, ha, hread, ?_⟩
  rintro ⟨s, hs, -, -, htrail, -⟩
  rw [hread] at hs
  cases hs
  exact absurd htrail (by decide)

end DnsRelay
