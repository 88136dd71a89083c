import DnsRelay.CompressedName
import DnsRelay.Message

/-!
# What `packetParse` makes of the sections

The question loop finds the end of a name with `strlen` and its text by walking over the labels; the two
agree for labels without NUL, and the walk writes the text unless there is no label. The answer loop
takes the owner name of a record for two bytes, so it is in step with the records as long as every owner
name is a pointer.
-/

namespace DnsRelay
open ByteSeq Exec

/-! ### The question section -/

/-- The question `x` that is to come of `q`, its QNAME in a buffer that held `stale`. -/
structure DecodesTo (stale : List UInt8) (q : WireQuest) (x : Quest) : Prop where
  qname : x.qname = (Block.fresh (64 + 1) stale).patch 0 (q.name ++ [0])
  text : cstr x.qname.bytes = .ok q.name
  qtype : x.qtype = q.qtype
  qclass : x.qclass = q.qclass

/-- The question loop yields the questions `qs` in order and leaves the cursor behind them, and a packet
that comes of the datagram carries them. -/
def QuestsDecoded (C : Libc) (st : Stale) (buf : List UInt8) (len : Nat) (qs : List WireQuest) : Prop :=
  ∃ quests, parseQuests C st buf qs.length 0 12 = .ok (quests, 12 + (questBytes qs).length) ∧
    quests.length = qs.length ∧
    (∀ i q, qs[i]? = some q → ∃ x, quests[i]? = some x ∧ DecodesTo (st.qname i) q x) ∧
    ∀ p, packetParse C st buf len = .ok p → p.quests = quests

section
variable {C : Libc} {st : Stale} {buf : List UInt8} {q : WireQuest} {qs : List WireQuest} {i pos len : Nat}

theorem WireQuest.Legible.text (hq : q.Legible) (hlen : q.name.length ≤ 64) :
    DecodesTo (st.qname i) q (q.quest st i) where
  qname := rfl
  text := Block.cstr_patch (Labels.zero_notMem_dotted (by decide) hq.zero_notMem) (by
    rw [Block.fresh_size]
    exact Nat.succ_le_succ hlen)
  qtype := rfl
  qclass := rfl

theorem getElem?_questsFrom (st : Stale) (i k : Nat) (qs : List WireQuest) :
    (questsFrom st i qs)[k]? = qs[k]?.map (WireQuest.quest st (i + k)) := by
  induction qs generalizing i k with
  | nil => rfl
  | cons q qs ih =>
    cases k with
    | zero => rfl
    | succ k =>
      rw [questsFrom, List.getElem?_cons_succ, List.getElem?_cons_succ, ih, Nat.add_right_comm, Nat.add_assoc]

/-- At a root name the loop writes in front of the buffer. -/
theorem parseQuests_root (hbuf : At buf pos (questBytes qs)) (hqs : ∀ q ∈ qs, q.Legible)
    (hlen : ∀ q ∈ qs, q.name.length ≤ 64) (hroot : ∃ q ∈ qs, q.labels = []) :
    parseQuests C st buf qs.length i pos = .error .write := by
  induction qs generalizing i pos with
  | nil =>
    obtain ⟨q, hq, -⟩ := hroot
    cases hq
  | cons q qs ih =>
    rw [questBytes, List.flatMap_cons, ← questBytes] at hbuf
    rw [List.length_cons]
    by_cases hq : q.labels = []
    · have h0 : At buf pos [0] := by
        have := hbuf.left.left
        rwa [hq] at this
      rw [parseQuests, cstr_at (s := []) List.not_mem_nil h0]
      simp only [ok_bind, urlParse, if_true, inetParse_root h0]
      rfl
    · obtain ⟨q', hq', hnil⟩ := hroot
      have hmem : q' ∈ qs := (List.mem_cons.1 hq').resolve_left fun he => hq (he ▸ hnil)
      rw [parseQuests_cons hbuf.left (hqs q List.mem_cons_self) hq (hlen q List.mem_cons_self),
        ih hbuf.right (fun q hq => hqs q (List.mem_cons_of_mem _ hq))
          (fun q hq => hlen q (List.mem_cons_of_mem _ hq)) ⟨q', hmem, hnil⟩]
      rfl

/-- Questions with legible names of at most 64 characters are decoded if and only if no name is the root. -/
theorem questions_decoded (C : Libc) (st : Stale) (len : Nat) {h : Header}
    (hbuf : At buf 0 (h.encode ++ questBytes qs)) (hqd : h.qdcount.toNat = qs.length)
    (hqs : ∀ q ∈ qs, q.Legible) (hlen : ∀ q ∈ qs, q.name.length ≤ 64) :
    QuestsDecoded C st buf len qs ↔ ∀ q ∈ qs, q.labels ≠ [] := by
  have hat : At buf 12 (questBytes qs) := hbuf.right
  constructor
  · rintro ⟨quests, hparse, -⟩ q hq hnil
    rw [parseQuests_root hat hqs hlen ⟨q, hq, hnil⟩] at hparse
    cases hparse
  · intro hne
    have hparse : parseQuests C st buf qs.length 0 12 = .ok (questsFrom st 0 qs, 12 + (questBytes qs).length) :=
      parseQuests_named hat fun q hq => ⟨hqs q hq, hne q hq, hlen q hq⟩
    refine ⟨questsFrom st 0 qs, hparse, length_questsFrom st 0 qs, fun i q hi => ?_, fun p hp => ?_⟩
    · have hmem : q ∈ qs := List.mem_of_getElem? hi
      refine ⟨q.quest st i, ?_, (hqs q hmem).text (hlen q hmem)⟩
      rw [getElem?_questsFrom, hi, Nat.zero_add]
      rfl
    · obtain ⟨mid, stop, hparsed⟩ := packetParse_parsed hp
      obtain ⟨-, -, hqc, -⟩ := Header.loads hbuf.left
      have hquests := hparsed.quests
      rw [← Except.ok.inj (hqc.symm.trans hparsed.qdcount), hqd, hparse] at hquests
      exact (congrArg Prod.fst (Except.ok.inj hquests)).symm

end

theorem questFor_legible (type : UInt16) {c : UInt8} (h0 : c ≠ 0) (hd : c ≠ dot) : (questFor type c).Legible :=
  (questFor_valid type h0 hd).legible

theorem questions_decoded_request : QuestsDecoded .decimal .zero (requestFor typeA [97, 98]) 31
    [questFor typeA 97, questFor typeA 98] := by
  have hlegible : ∀ q ∈ [questFor typeA 97, questFor typeA 98], q.Legible := by
    simp only [List.forall_mem_cons]
    exact ⟨questFor_legible _ (by decide) (by decide), questFor_legible _ (by decide) (by decide),
      fun _ h => by cases h⟩
  exact (questions_decoded .decimal .zero 31 (h := ⟨0x1234, 0x100, 2, 0, 0, 0⟩) (At.refl _) rfl hlegible
    (by decide)).2 (by decide)

/-- A question for the name servers of the root. -/
def rootQuestion : WireQuest := ⟨[], typeNs, 1⟩

def rootRequest : List UInt8 := Header.encode ⟨0x1234, 0x100, 1, 0, 0, 0⟩ ++ questBytes [rootQuestion]

theorem root_question_undecoded : packetParse .decimal .zero rootRequest 17 = .error .write ∧
    ¬ QuestsDecoded .decimal .zero rootRequest 17 [rootQuestion] := by
  refine ⟨by decide +kernel, ?_⟩
  rintro ⟨quests, hparse, -⟩
  have herr : parseQuests .decimal .zero rootRequest 1 0 12 = .error .write := by decide +kernel
  cases herr.symm.trans hparse

/-! ### The answer section -/

/-- What `packetParse` takes over of the fixed fields of a record. -/
structure FieldsOf (r : WireRecord) (a : Answer) : Prop where
  type : a.type = r.type
  cls : a.cls = r.cls
  ttl : a.ttl = r.ttl
  rdlen : a.rdlen.toNat = r.rdata.length

/-- Where the `i`-th record starts, if the records start at `start`. -/
def recordPos (start : Nat) (recs : List WireRecord) (i : Nat) : Nat :=
  start + ((recs.take i).flatMap WireRecord.encode).length

/-- The call of `urlParse` for the `i`-th answer, the record `r` with its RDATA at `src`. -/
def rdataParse (C : Libc) (st : Stale) (buf : List UInt8) (i : Nat) (r : WireRecord) (src : Nat) :
    Exec (Block × UInt16) :=
  urlParse C buf src (Block.fresh (typeBufSize r.type) (st.rdata i)) (st.addition i) r.type
    (UInt16.ofNat r.rdata.length) (st.temp i)

/-- The round of the answer loop that finds its cursor at `pos` takes the record `r`, which starts at
`start`: it calls `urlParse` on the first byte of the RDATA and keeps the fixed fields. -/
structure RoundOn (C : Libc) (st : Stale) (buf : List UInt8) (i : Nat) (r : WireRecord) (start pos : Nat) :
    Prop where
  rdata : pos + 12 = start + (r.owner.length + 10)
  round : ∃ name, parseAnswer C st buf i pos = (do
    let (rdata, addition) ← rdataParse C st buf i r (pos + 12)
    return ⟨0, name, r.type, r.cls, UInt16.ofNat r.rdata.length, r.ttl, addition, rdata⟩)

/-- The answers `recs` behind the questions `qs` are decoded: every round that the loop comes to takes its
record, the loop comes to its end if and only if `urlParse` does on every RDATA, and the packet then has the
fields of the records. -/
structure AnswersDecoded (C : Libc) (st : Stale) (buf : List UInt8) (len : Nat) (qs : List WireQuest)
    (recs : List WireRecord) : Prop where
  round : ∀ quests mid, parseQuests C st buf qs.length 0 12 = .ok (quests, mid) → ∀ i r, recs[i]? = some r →
    ∀ ans pos, parseAnswers C st buf i 0 mid = .ok (ans, pos) →
      RoundOn C st buf i r (recordPos (12 + (questBytes qs).length) recs i) pos
  returns : (∃ p, packetParse C st buf len = .ok p) ↔ (∃ x, parseQuests C st buf qs.length 0 12 = .ok x) ∧
    ∀ i r, recs[i]? = some r → ∃ x, rdataParse C st buf i r
      (recordPos (12 + (questBytes qs).length) recs i + (r.owner.length + 10)) = .ok x
  fields : ∀ p, packetParse C st buf len = .ok p → List.Forall₂ FieldsOf recs p.ans

/-- The owner name is a pointer, and RDLENGTH is the length of the RDATA. -/
structure WireRecord.Pointed (r : WireRecord) : Prop where
  owner : ∃ x, isNamePtr x = true ∧ r.owner = be16 x
  length_lt : r.rdata.length < 65536

section
variable {C : Libc} {st : Stale} {buf : List UInt8} {qs : List WireQuest} {r : WireRecord}
  {recs : List WireRecord} {ans : List Answer} {i pos stop len : Nat}

namespace WireRecord.Pointed

theorem owner_length (hr : r.Pointed) : r.owner.length = 2 := by
  obtain ⟨x, -, hx⟩ := hr.owner
  rw [hx, length_be16]

theorem length_encode (hr : r.Pointed) : r.encode.length = 12 + r.rdata.length := by
  rw [WireRecord.length_encode, hr.owner_length]

theorem rdata_at (hr : r.Pointed) (hbuf : At buf pos r.encode) : At buf (pos + 12) r.rdata := by
  have := hbuf.right
  rwa [List.length_append, hr.owner_length, WireRecord.length_fields] at this

theorem rdlen (hr : r.Pointed) : (UInt16.ofNat r.rdata.length).toNat = r.rdata.length := by
  rw [UInt16.toNat_ofNat']
  exact Nat.mod_eq_of_lt hr.length_lt

/-- The step of the answer loop. -/
theorem round (hr : r.Pointed) (hbuf : At buf pos r.encode) : RoundOn C st buf i r pos pos where
  rdata := by rw [hr.owner_length]
  round := parseAnswer_eq C st i hbuf hr.owner_length

end WireRecord.Pointed

theorem RoundOn.fields {start : Nat} (h : RoundOn C st buf i r start pos) (hr : r.Pointed) {a : Answer}
    (ha : parseAnswer C st buf i pos = .ok a) : FieldsOf r a := by
  obtain ⟨name, hround⟩ := h.round
  rw [hround] at ha
  obtain ⟨⟨rdata, addition⟩, -, ha⟩ := bind_ok.1 ha
  cases ha
  exact ⟨rfl, rfl, rfl, hr.rdlen⟩

theorem RoundOn.returns {start : Nat} (h : RoundOn C st buf i r start pos) :
    (∃ a, parseAnswer C st buf i pos = .ok a) ↔ ∃ x, rdataParse C st buf i r (pos + 12) = .ok x := by
  obtain ⟨name, hround⟩ := h.round
  rw [hround]
  constructor
  · rintro ⟨a, ha⟩
    obtain ⟨x, hx, -⟩ := bind_ok.1 ha
    exact ⟨x, hx⟩
  · rintro ⟨⟨rdata, addition⟩, hx⟩
    exact ⟨_, by rw [hx]; rfl⟩

/-- The cursor behind a record. -/
theorem FieldsOf.next (h : FieldsOf r a) (hr : r.Pointed) : 12 + a.rdlen.toNat = r.encode.length := by
  rw [h.rdlen, hr.length_encode]

/-- The answer loop stays in step with the records. -/
theorem parseAnswers_fields (hbuf : At buf pos (recs.flatMap WireRecord.encode)) (hrecs : ∀ r ∈ recs, r.Pointed)
    (h : parseAnswers C st buf recs.length i pos = .ok (ans, stop)) :
    List.Forall₂ FieldsOf recs ans ∧ stop = pos + (recs.flatMap WireRecord.encode).length := by
  induction recs generalizing i pos ans with
  | nil => cases h; exact ⟨.nil, rfl⟩
  | cons r recs ih =>
    have hr := hrecs r List.mem_cons_self
    rw [List.flatMap_cons] at hbuf
    obtain ⟨a, ha, h⟩ := bind_ok.1 h
    obtain ⟨⟨ans', pos'⟩, hans, h⟩ := bind_ok.1 h
    cases h
    have hround : RoundOn C st buf i r pos pos := hr.round hbuf.left
    have hfields := hround.fields hr ha
    rw [hfields.next hr] at hans
    obtain ⟨hall, hstop⟩ := ih hbuf.right (fun r hr => hrecs r (List.mem_cons_of_mem _ hr)) hans
    refine ⟨.cons hfields hall, ?_⟩
    rw [hstop, List.flatMap_cons, List.length_append, Nat.add_assoc]

/-- The round for a record starts where the record does. -/
theorem parseAnswers_at {k : Nat} (hbuf : At buf pos (recs.flatMap WireRecord.encode))
    (hrecs : ∀ r ∈ recs, r.Pointed) (hk : recs[k]? = some r)
    (h : parseAnswers C st buf k i pos = .ok (ans, stop)) : stop = recordPos pos recs k ∧ At buf stop r.encode := by
  obtain ⟨hsplit, hlen⟩ := take_append_getElem? hk
  rw [hsplit, List.flatMap_append, List.flatMap_cons] at hbuf
  obtain ⟨-, rfl⟩ := parseAnswers_fields hbuf.left (fun r hr => hrecs r (List.mem_of_mem_take hr)) (hlen.symm ▸ h)
  exact ⟨rfl, hbuf.right.left⟩

theorem recordPos_cons (start i : Nat) (r : WireRecord) (recs : List WireRecord) :
    recordPos start (r :: recs) (i + 1) = recordPos (start + r.encode.length) recs i := by
  rw [recordPos, List.take_succ_cons, List.flatMap_cons, List.length_append, ← Nat.add_assoc, recordPos]

/-- It comes to its end if and only if `urlParse` does on every RDATA. -/
theorem parseAnswers_returns (hbuf : At buf pos (recs.flatMap WireRecord.encode)) (hrecs : ∀ r ∈ recs, r.Pointed) :
    (∃ x, parseAnswers C st buf recs.length i pos = .ok x) ↔ ∀ k r, recs[k]? = some r →
      ∃ x, rdataParse C st buf (i + k) r (recordPos pos recs k + 12) = .ok x := by
  induction recs generalizing i pos with
  | nil => exact ⟨fun _ k r h => (by cases h), fun _ => ⟨_, rfl⟩⟩
  | cons r recs ih =>
    have hr := hrecs r List.mem_cons_self
    rw [List.flatMap_cons] at hbuf
    have hround : RoundOn C st buf i r pos pos := hr.round hbuf.left
    have ih := ih (i := i + 1) hbuf.right fun r hr => hrecs r (List.mem_cons_of_mem _ hr)
    have hnext {a : Answer} (ha : parseAnswer C st buf i pos = .ok a) : 12 + a.rdlen.toNat = r.encode.length :=
      (hround.fields hr ha).next hr
    constructor
    · rintro ⟨x, hx⟩ k r' hk
      obtain ⟨a, ha, hx⟩ := bind_ok.1 hx
      obtain ⟨y, hy, -⟩ := bind_ok.1 hx
      cases k with
      | zero =>
        cases hk
        exact hround.returns.1 ⟨a, ha⟩
      | succ k =>
        rw [hnext ha] at hy
        rw [recordPos_cons, show i + (k + 1) = i + 1 + k by omega]
        exact ih.1 ⟨y, hy⟩ k r' hk
    · intro h
      obtain ⟨a, ha⟩ := hround.returns.2 (h 0 r rfl)
      obtain ⟨⟨ans, stop⟩, hans⟩ := ih.2 fun k r' hk => by
        have hrest := h (k + 1) r' hk
        rwa [recordPos_cons, show i + (k + 1) = i + 1 + k by omega] at hrest
      refine ⟨(a :: ans, stop), ?_⟩
      rw [List.length_cons, parseAnswers, ha, ok_bind, hnext ha, hans]
      rfl

/-- The cursor behind the question section. -/
theorem parseQuests_cursor {quests : List Quest} (hbuf : At buf pos (questBytes qs)) (hqs : ∀ q ∈ qs, q.Legible)
    (h : parseQuests C st buf qs.length i pos = .ok (quests, stop)) : stop = pos + (questBytes qs).length := by
  induction qs generalizing i pos quests with
  | nil => cases h; rfl
  | cons q qs ih =>
    rw [questBytes, List.flatMap_cons, ← questBytes] at hbuf
    rw [List.length_cons, parseQuests_step hbuf.left (hqs q List.mem_cons_self)] at h
    obtain ⟨⟨qname, addition⟩, -, h⟩ := bind_ok.1 h
    obtain ⟨⟨quests', stop'⟩, hquests, h⟩ := bind_ok.1 h
    cases h
    rw [ih hbuf.right (fun q hq => hqs q (List.mem_cons_of_mem _ hq)) hquests, questBytes, questBytes,
      List.flatMap_cons, List.length_append, Nat.add_assoc]

theorem parseQuests_at {k : Nat} {q : WireQuest} {quests : List Quest} (hbuf : At buf pos (questBytes qs))
    (hqs : ∀ q ∈ qs, q.Legible) (hk : qs[k]? = some q) (h : parseQuests C st buf k i pos = .ok (quests, stop)) :
    At buf stop q.encode := by
  obtain ⟨hsplit, hlen⟩ := take_append_getElem? hk
  rw [hsplit, questBytes, List.flatMap_append, List.flatMap_cons] at hbuf
  obtain rfl := parseQuests_cursor hbuf.left (fun q hq => hqs q (List.mem_of_mem_take hq)) (hlen.symm ▸ h)
  exact hbuf.right.left

/-- Answers whose owner names are pointers are decoded behind questions with legible names. -/
theorem answers_decoded (C : Libc) (st : Stale) (len : Nat) {h : Header}
    (hbuf : At buf 0 (h.encode ++ questBytes qs ++ recs.flatMap WireRecord.encode))
    (hqd : h.qdcount.toNat = qs.length) (han : h.ancount.toNat = recs.length) (hqs : ∀ q ∈ qs, q.Legible)
    (hrecs : ∀ r ∈ recs, r.Pointed) : AnswersDecoded C st buf len qs recs := by
  obtain ⟨hheader, hquest, hanswer⟩ := sections_at hbuf
  obtain ⟨hid, hflags, hqc, hac⟩ := Header.loads hheader
  have hloops {p : Packet} (hp : packetParse C st buf len = .ok p) : ∃ stop,
      parseQuests C st buf qs.length 0 12 = .ok (p.quests, 12 + (questBytes qs).length) ∧
      parseAnswers C st buf recs.length 0 (12 + (questBytes qs).length) = .ok (p.ans, stop) := by
    obtain ⟨mid, stop, hparsed⟩ := packetParse_parsed hp
    have hquests := hparsed.quests
    have hans := hparsed.ans
    rw [← Except.ok.inj (hqc.symm.trans hparsed.qdcount), hqd] at hquests
    rw [← Except.ok.inj (hac.symm.trans hparsed.ancount), han] at hans
    obtain rfl := parseQuests_cursor hquest hqs hquests
    exact ⟨stop, hquests, hans⟩
  refine ⟨fun quests mid hparse i r hi ans pos hans => ?_, ?_, fun p hp => ?_⟩
  · obtain rfl := parseQuests_cursor hquest hqs hparse
    obtain ⟨rfl, hat⟩ := parseAnswers_at hanswer hrecs hi hans
    exact (hrecs r (List.mem_of_getElem? hi)).round hat
  · have hsrc {k : Nat} {r : WireRecord} (hk : recs[k]? = some r) : r.owner.length + 10 = 12 := by
      rw [(hrecs r (List.mem_of_getElem? hk)).owner_length]
    have hret : (∃ x, parseAnswers C st buf recs.length 0 (12 + (questBytes qs).length) = .ok x) ↔ _ :=
      parseAnswers_returns hanswer hrecs
    simp only [Nat.zero_add] at hret
    constructor
    · rintro ⟨p, hp⟩
      obtain ⟨stop, hquests, hans⟩ := hloops hp
      refine ⟨⟨_, hquests⟩, fun k r hk => ?_⟩
      rw [hsrc hk]
      exact hret.1 ⟨_, hans⟩ k r hk
    · rintro ⟨⟨⟨quests, mid⟩, hquests⟩, hrdata⟩
      obtain rfl := parseQuests_cursor hquest hqs hquests
      obtain ⟨⟨ans, stop⟩, hans⟩ := hret.2 fun k r hk => by
        have := hrdata k r hk
        rwa [hsrc hk] at this
      exact ⟨⟨buf, len, h.id, h.flags, h.qdcount, h.ancount, quests, ans⟩, ParsesTo.packetParse_eq
        ⟨hid, hflags, hqc, hac, hqd ▸ hquests, han ▸ hans, rfl, rfl⟩⟩
  · obtain ⟨stop, -, hans⟩ := hloops hp
    exact (parseAnswers_fields hanswer hrecs hans).1

end

/-- An answer to `questFor typeA 97`. -/
def pointedRecord : WireRecord := ⟨[0xc0, 12], typeA, 1, 60, [6, 6, 6, 6]⟩

/-- The answers to `mixedQuests`. -/
def mixedRecords : List WireRecord := [pointedRecord, ⟨[0xc0, 19], typeAaaa, 1, 90, List.replicate 16 7⟩]

theorem answers_decoded_response : AnswersDecoded .decimal .zero (Header.encode ⟨0x1234, 0x8180, 2, 2, 0, 0⟩ ++
    questBytes mixedQuests ++ mixedRecords.flatMap WireRecord.encode) 73 mixedQuests mixedRecords := by
  refine answers_decoded .decimal .zero 73 (At.refl _) rfl rfl (fun q hq => (mixedQuests_valid q hq).legible) ?_
  simp only [mixedRecords, List.forall_mem_cons]
  exact ⟨⟨⟨0xc00c, by decide, by decide⟩, by decide⟩, ⟨⟨0xc013, by decide, by decide⟩, by decide⟩, nofun⟩

/-- The same answer for `w.a`, its owner name a label and a pointer. -/
def labelledRecord : WireRecord := { pointedRecord with owner := [1, 119, 0xc0, 12] }

/-- A response to the question `q` with the one answer `r`. -/
def responseWith (q : WireQuest) (r : WireRecord) : List UInt8 :=
  Header.encode ⟨0x1234, 0x8180, 1, 1, 0, 0⟩ ++ questBytes [q] ++ r.encode

/-- What was the pointer is taken for the type; behind a label that holds a NUL the cursor is a byte short. -/
theorem answers_undecoded :
    ¬ AnswersDecoded .decimal .zero (responseWith (questFor typeA 97) labelledRecord) 37 [questFor typeA 97]
        [labelledRecord] ∧
      ¬ AnswersDecoded .decimal .zero (responseWith (questFor typeA 0) pointedRecord) 35 [questFor typeA 0]
        [pointedRecord] := by
  have htypes {buf : List UInt8} {len : Nat} {q : WireQuest} {r : WireRecord} {type : UInt16}
      (h : (packetParse .decimal .zero buf len).toOption.map (fun p => p.ans.map Answer.type) = some [type])
      (hne : type ≠ r.type) : ¬ AnswersDecoded .decimal .zero buf len [q] [r] := by
    intro hdec
    cases hp : packetParse .decimal .zero buf len with
    | error e => rw [hp] at h; cases h
    | ok p =>
      rw [hp] at h
      have hmap : p.ans.map Answer.type = [type] := Option.some.inj h
      cases hans : p.ans with
      | nil => rw [hans] at hmap; cases hmap
      | cons a as =>
        have hfields := hdec.fields p hp
        rw [hans] at hmap hfields
        cases hfields with
        | cons ha _ => exact hne ((List.cons.inj hmap).1.symm.trans ha.type)
  exact ⟨@htypes _ _ _ _ 0xc00c (by decide +kernel) (by decide), @htypes _ _ _ _ 0xc00 (by decide +kernel) (by decide)⟩

end DnsRelay
