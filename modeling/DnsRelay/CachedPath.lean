import DnsRelay.Decoding
import DnsRelay.QuerySpec
import DnsRelay.RoundTrip

/-!
# The cached path and the relayed path

A response with one question for addresses is stored, and a request with the same question is answered
from the cache. `cached_agrees` says when the answers carry the type, class, address and remaining
lifetime of the response's answers: whenever `packetParse` gets through the response, and
`parseAnswers_iff` says for which answers it does.
-/

namespace DnsRelay
open ByteSeq Exec

/-- `P` holds of each of the records that stand one after the other from `pos` on, with its place. -/
def AllAt (P : Nat → WireRecord → Prop) : Nat → List WireRecord → Prop
  | _, [] => True
  | pos, r :: recs => P pos r ∧ AllAt P (pos + r.encode.length) recs

theorem AllAt.mem {P : Nat → WireRecord → Prop} {pos : Nat} {recs : List WireRecord} (h : AllAt P pos recs)
    {r : WireRecord} (hr : r ∈ recs) : ∃ pos', P pos' r := by
  induction recs generalizing pos with
  | nil => cases hr
  | cons r' recs ih =>
    rcases List.mem_cons.1 hr with rfl | hr
    · exact ⟨pos, h.1⟩
    · exact ih h.2 hr

/-- A well-formed answer at `pos` of the message `m`, with a pointer as its owner name. -/
structure WellFormedAnswer (m : List UInt8) (pos : Nat) (r : WireRecord) : Prop where
  owner : ∃ x, isNamePtr x = true ∧ r.owner = be16 x
  length_lt : r.rdata.length < 65536
  a : r.type = typeA → r.rdata.length = 4
  aaaa : r.type = typeAaaa → r.rdata.length = 16
  name : IsName r.type → nameSkip r.type ≤ r.rdata.length ∧
    ∃ ls, RdataName m (pos + 12 + nameSkip r.type) (r.rdata.length - nameSkip r.type) ls

/-- The type is not the one by which `urlParse` knows a QNAME, and if the RDATA is a name, then one of
at most 255 bytes that expands. -/
structure Parses (buf : List UInt8) (pos : Nat) (r : WireRecord) : Prop where
  type_ne : r.type ≠ typeQname
  name : IsName r.type →
    r.rdata.length - nameSkip r.type ≤ 255 ∧ Expands buf (pos + 12 + nameSkip r.type)

/-- What `packetParse` keeps of an answer. -/
structure Parsed (C : Libc) (r : WireRecord) (a : Answer) : Prop where
  type : a.type = r.type
  cls : a.cls = r.cls
  ttl : a.ttl = r.ttl
  rdlen : a.rdlen.toNat = r.rdata.length
  text : IsAddress r.type r.rdata → cstr a.rdata.bytes = .ok (addressText C r.type r.rdata)

section
variable {C : Libc} {st : Stale} {m tail : List UInt8} {i pos : Nat} {r : WireRecord} {recs : List WireRecord}

theorem WellFormedAnswer.address (h : WellFormedAnswer m pos r) (ht : r.type = typeA ∨ r.type = typeAaaa) :
    IsAddress r.type r.rdata :=
  ht.imp (fun ht => ⟨ht, h.a ht⟩) fun ht => ⟨ht, h.aaaa ht⟩

theorem WellFormedAnswer.pointed (h : WellFormedAnswer m pos r) : r.Pointed := ⟨h.owner, h.length_lt⟩

theorem urlParse_iff (hC : C.Lawful) (hr : WellFormedAnswer m pos r) (hbuf : At m pos r.encode)
    (htail : 2 ≤ tail.length) (addition : UInt16) (stale stale' : List UInt8) :
    (∃ x, urlParse C (m ++ tail) (pos + 12) (Block.fresh (typeBufSize r.type) stale) addition r.type
      (UInt16.ofNat r.rdata.length) stale' = .ok x) ↔ Parses (m ++ tail) pos r := by
  have hlen := hr.pointed.rdlen
  have hrd : At m (pos + 12) r.rdata := hr.pointed.rdata_at hbuf
  by_cases h0 : r.type = typeQname
  · refine ⟨fun ⟨x, hx⟩ => ?_, fun h => absurd h0 h.type_ne⟩
    rw [urlParse, if_pos h0] at hx
    obtain ⟨dest, hdest, -⟩ := bind_ok.1 hx
    obtain ⟨p, hp, -⟩ := inetParse_max hdest
    rw [h0] at hp
    cases hp
  by_cases haddr : r.type = typeA ∨ r.type = typeAaaa
  · refine ⟨fun _ => ⟨h0, fun hname => ?_⟩, fun _ => ⟨_, urlParse_address hC (hr.address haddr)
      (hrd.append_right tail) (Block.fresh_size _ _) addition _ stale'⟩⟩
    rcases hname with h | h | h <;> rw [h] at haddr <;> exact absurd haddr (by decide)
  rw [not_or] at haddr
  by_cases hname : IsName r.type
  · obtain ⟨hskip, ls, hls⟩ := hr.name hname
    have hpos := hls.name.lt
    have hend := hrd.le_length (List.length_pos_iff.1 (by omega))
    obtain ⟨addition', -, heq⟩ := urlParse_name C (Block.fresh (typeBufSize r.type) stale) addition stale' hname
      (show nameSkip r.type ≤ (UInt16.ofNat r.rdata.length).toNat by rw [hlen]; exact hskip)
      (show pos + 12 + nameSkip r.type ≤ (m ++ tail).length by rw [List.length_append]; omega)
    have hiff := nameText_iff C (show 255 ≤ (Block.fresh (typeBufSize r.type) stale).size by
      rw [Block.fresh_size, typeBufSize_name hname]) stale' hls htail
    rw [heq, hlen]
    constructor
    · rintro ⟨x, hx⟩
      obtain ⟨dest, hdest, -⟩ := bind_ok.1 hx
      exact ⟨h0, fun _ => hiff.1 ⟨dest, hdest⟩⟩
    · intro h
      obtain ⟨dest, hdest⟩ := hiff.2 (h.name hname)
      exact ⟨(dest, addition'), by rw [hdest]; rfl⟩
  · refine ⟨fun _ => ⟨h0, fun h => absurd h hname⟩, fun _ => ⟨(Block.fresh (typeBufSize r.type) stale, addition), ?_⟩⟩
    have hmx : r.type ≠ typeMx := fun h => hname (.inr (.inl h))
    rw [urlParse, if_neg h0, if_neg haddr.1, if_neg haddr.2, if_neg hmx]
    exact if_neg hname

/-- `packetParse` gets through a well-formed answer if and only if `Parses`. -/
theorem parseAnswer_iff (st : Stale) (i : Nat) (hC : C.Lawful) (hr : WellFormedAnswer m pos r)
    (hbuf : At m pos r.encode)
    (htail : 2 ≤ tail.length) :
    (∃ a, parseAnswer C st (m ++ tail) i pos = .ok a) ↔ Parses (m ++ tail) pos r := by
  have hround : RoundOn C st (m ++ tail) i r pos pos := hr.pointed.round (hbuf.append_right tail)
  exact hround.returns.trans (urlParse_iff hC hr hbuf htail (st.addition i) (st.rdata i) (st.temp i))

theorem parseAnswer_parsed (hC : C.Lawful) (hr : WellFormedAnswer m pos r) (hbuf : At m pos r.encode)
    {a : Answer} (ha : parseAnswer C st (m ++ tail) i pos = .ok a) : Parsed C r a := by
  have hrd := hr.pointed.rdata_at (hbuf.append_right tail)
  have hround : RoundOn C st (m ++ tail) i r pos pos := hr.pointed.round (hbuf.append_right tail)
  have hfields := hround.fields hr.pointed ha
  refine ⟨hfields.type, hfields.cls, hfields.ttl, hfields.rdlen, fun haddr => ?_⟩
  obtain ⟨name, heq⟩ := hround.round
  rw [heq, rdataParse, urlParse_address hC haddr hrd (Block.fresh_size _ _)] at ha
  cases ha
  exact Block.cstr_patch (haddr.text hC).1 (haddr.text hC).2

theorem parseAnswers_iff (st : Stale) (i : Nat) (hC : C.Lawful) (htail : 2 ≤ tail.length)
    (hrecs : AllAt (WellFormedAnswer m) pos recs)
    (hbuf : At m pos (recs.flatMap WireRecord.encode)) :
    (∃ x, parseAnswers C st (m ++ tail) recs.length i pos = .ok x) ↔ AllAt (Parses (m ++ tail)) pos recs := by
  induction recs generalizing i pos with
  | nil => exact ⟨fun _ => trivial, fun _ => ⟨_, rfl⟩⟩
  | cons r recs ih =>
    obtain ⟨hr, hrecs⟩ := hrecs
    rw [List.flatMap_cons] at hbuf
    have ih := ih (i + 1) hrecs hbuf.right
    have hiff := parseAnswer_iff st i hC hr hbuf.left htail
    have hlen {a : Answer} (ha : Parsed C r a) : 12 + a.rdlen.toNat = r.encode.length := by
      rw [ha.rdlen, hr.pointed.length_encode]
    rw [List.length_cons, parseAnswers, AllAt, ← hiff, ← ih]
    constructor
    · rintro ⟨x, hx⟩
      obtain ⟨a, ha, hx⟩ := bind_ok.1 hx
      obtain ⟨y, hy, -⟩ := bind_ok.1 hx
      rw [hlen (parseAnswer_parsed hC hr hbuf.left ha)] at hy
      exact ⟨⟨a, ha⟩, y, hy⟩
    · rintro ⟨⟨a, ha⟩, ⟨ans, pos'⟩, hy⟩
      refine ⟨(a :: ans, pos'), ?_⟩
      rw [ha, ok_bind, hlen (parseAnswer_parsed hC hr hbuf.left ha), hy]
      rfl

theorem parseAnswers_parsed (hC : C.Lawful) (hrecs : AllAt (WellFormedAnswer m) pos recs)
    (hbuf : At m pos (recs.flatMap WireRecord.encode)) {ans : List Answer} {pos' : Nat}
    (h : parseAnswers C st (m ++ tail) recs.length i pos = .ok (ans, pos')) : List.Forall₂ (Parsed C) recs ans := by
  induction recs generalizing i pos ans pos' with
  | nil => cases h; exact .nil
  | cons r recs ih =>
    obtain ⟨hr, hrecs⟩ := hrecs
    rw [List.flatMap_cons] at hbuf
    obtain ⟨a, ha, h⟩ := bind_ok.1 h
    obtain ⟨⟨ans', pos₁⟩, hans, h⟩ := bind_ok.1 h
    cases h
    have hparsed := parseAnswer_parsed hC hr hbuf.left ha
    rw [hparsed.rdlen, ← hr.pointed.length_encode] at hans
    exact .cons hparsed (ih hrecs hbuf.right hans)

end

/-! ### Storing -/

/-- The record that is stored for an answer. -/
structure Kept (C : Libc) (q : WireQuest) (s : Nat) (r : WireRecord) (x : Record) : Prop where
  name : x.name = q.name
  ip : x.ip = addressText C r.type r.rdata
  type : x.type = q.qtype.toUInt8
  timestamp : x.timestamp = s + r.ttl.toNat

/-- The answers of the question's type. -/
def asked (q : WireQuest) (recs : List WireRecord) : List WireRecord := recs.filter fun r => r.type = q.qtype

theorem mem_asked {q : WireQuest} {recs : List WireRecord} {r : WireRecord} (h : r ∈ asked q recs) :
    r ∈ recs ∧ r.type = q.qtype :=
  (List.mem_filter.1 h).imp id of_decide_eq_true

theorem storedRecords_kept {C : Libc} (st : Stale) {q : WireQuest} (hq : q.Valid) (s i : Nat)
    {recs : List WireRecord} {ans : List Answer} (h : List.Forall₂ (Parsed C) recs ans)
    (haddr : ∀ r ∈ recs, r.type = q.qtype → IsAddress r.type r.rdata) :
    ∃ rs, storedRecords (fun _ => s) (questsFrom st 0 [q]) i ans = .ok rs ∧
      List.Forall₂ (Kept C q s) (asked q recs) rs := by
  induction h generalizing i with
  | nil => exact ⟨[], rfl, .nil⟩
  | @cons r a recs ans ha _ ih =>
    obtain ⟨rs, hrs, hkept⟩ := ih (i + 1) fun r hr => haddr r (List.mem_cons_of_mem _ hr)
    have hstep : storedRecords (fun _ => s) (questsFrom st 0 [q]) i (a :: ans) =
        if a.type ≠ q.qtype then storedRecords (fun _ => s) (questsFrom st 0 [q]) (i + 1) ans else do
          let name ← cstr (q.quest st 0).qname.bytes
          let ip ← cstr a.rdata.bytes
          let rs ← storedRecords (fun _ => s) (questsFrom st 0 [q]) (i + 1) ans
          return ⟨name, ip, a.type.toUInt8, a.addition, s + a.ttl.toNat⟩ :: rs := rfl
    rw [hstep, hrs, ha.type, asked, List.filter_cons]
    by_cases ht : r.type = q.qtype
    · rw [if_neg (not_not.2 ht), if_pos (decide_eq_true ht), WireQuest.cstr_quest hq,
        ha.text (haddr r List.mem_cons_self ht)]
      exact ⟨_, rfl, .cons ⟨rfl, rfl, by rw [ht], by rw [ha.ttl]⟩ hkept⟩
    · rw [if_pos ht, if_neg (by simpa using ht)]
      exact ⟨rs, rfl, hkept⟩

/-- With a clock that stands still, a search finds the records that match at that time. -/
theorem cacheHits_const (t : Nat) (name : List UInt8) (type : UInt8) (L : List Record) :
    cacheHits (fun _ => t) name type L = L.filter fun r => r.matched (fun _ => t) name type 0 :=
  Recency.keep_eq_filter (p := Record.matched (fun _ => t) name type)
    (q := Record.matched (fun _ => t) name type 0) (fun _ _ => rfl) 0 L

/-- The search for the question finds what was stored for it, the last answer first. -/
theorem cacheHits_stored {C : Libc} {q : WireQuest} {s s' N : Nat} {recs : List WireRecord} {rs L : List Record}
    (hkept : List.Forall₂ (Kept C q s) recs rs) (hlive : ∀ r ∈ recs, s' ≤ s + r.ttl.toNat)
    (hN : recs.length ≤ N) (hL : ∀ x ∈ L, x.name ≠ q.name) :
    cacheHits (fun _ => s') q.name q.qtype.toUInt8 (Recency.insertAll N rs L) = rs.reverse := by
  obtain ⟨L', hL', hins⟩ := Recency.insertAll_eq (show rs.length ≤ N from hkept.length_eq ▸ hN) L
  rw [cacheHits_const, hins, List.filter_append, List.filter_eq_self.2, List.filter_eq_nil_iff.2, List.append_nil]
  · intro x hx hm
    exact hL x (hL'.subset hx) (of_decide_eq_true hm).1
  · intro x hx
    obtain ⟨r, hr, hk⟩ := exists_of_forall₂ hkept (List.mem_reverse.1 hx)
    exact decide_eq_true ⟨hk.name, by rw [hk.timestamp]; exact hlive r hr, hk.type⟩

/-! ### Answering -/

/-- The answer that `urlQuery` makes of a stored answer. -/
structure Answers (C : Libc) (s s' : Nat) (r : WireRecord) (a : Answer) : Prop where
  qpos : a.qpos = 0
  type : a.type = r.type
  cls : a.cls = r.cls
  ttl : a.ttl.toNat = r.ttl.toNat - (s' - s)
  address : Address C a r.rdata

theorem ttlLeft_toNat {s s' : Nat} {ttl : UInt32} (hs : s ≤ s') (hlive : s' ≤ s + ttl.toNat) :
    (ttlLeft (s + ttl.toNat) s').toNat = ttl.toNat - (s' - s) := by
  have := ttl.toNat_lt
  rw [ttlLeft, UInt32.toNat_ofNat']
  omega

theorem Kept.answers {C : Libc} (hC : C.Lawful) {st : Stale} {q : WireQuest} {s s' : Nat} {r : WireRecord} {x : Record}
    {a : Answer} (h : Kept C q s r x) (ht : r.type = q.qtype) (hcls : r.cls = q.qclass)
    (haddr : IsAddress r.type r.rdata) (hs : s ≤ s') (hlive : s' ≤ s + r.ttl.toNat)
    (ha : Attached 0 (q.quest st 0) s' x.entry a) : Answers C s s' r a := by
  have hip : x.entry.ip = some (addressText C r.type r.rdata) := congrArg some h.ip
  have htype : a.type = r.type := ha.type.trans ht.symm
  have hsize : a.rdata.size = typeBufSize a.type := by
    obtain ⟨ip, stale, -, -, hrd⟩ := ha.rdata
    rw [hrd, ha.type, Block.patch_size, Block.fresh_size]
  refine ⟨ha.qpos, htype, ha.cls.trans hcls.symm, ?_, ⟨htype ▸ haddr, hsize, htype ▸ ha.text hip (haddr.text hC).1⟩⟩
  rw [ha.ttl, show x.entry.timestamp = s + r.ttl.toNat from h.timestamp, ttlLeft_toNat hs hlive]

theorem forall₂_comp {α β γ : Type} {R : α → β → Prop} {S : β → γ → Prop} {xs : List α} {ys : List β} {zs : List γ}
    (h : List.Forall₂ R xs ys) (h' : List.Forall₂ S ys zs) :
    List.Forall₂ (fun x z => ∃ y, R x y ∧ S y z) xs zs := by
  induction h generalizing zs with
  | nil => cases h'; exact .nil
  | cons hr _ ih =>
    cases h' with
    | cons hs hrest => exact .cons ⟨_, hr, hs⟩ (ih hrest)

/-- A request with one question that the cache has records for is answered with them. -/
theorem urlQuery_hits {N : Nat} {c : LRUCache} {slots : List Nat} {L rs : List Record} (hc : Holds N c slots L)
    {host : Option HostMap} {lines : List HostLine} (hhost : Hosts host lines) {q : WireQuest} (hq : q.Valid)
    {st : Stale} {src : Packet} (hsrc : src.quests = questsFrom st 0 [q]) {t : Nat}
    (hhits : cacheHits (fun _ => t) q.name q.qtype.toUInt8 L = rs) (hne : rs ≠ []) (hcount : rs.length < 65536)
    (hfit : ∀ x ∈ rs, x.ip.length + 1 ≤ typeBufSize q.qtype) :
    ∃ ans c', urlQuery N host (.const t) st src c =
        .ok ((rs.length : Int), { src with ancount := UInt16.ofNat rs.length, ans := ans }, c') ∧
      List.Forall₂ (fun x a => Attached 0 (q.quest st 0) t (Record.entry x) a) rs ans := by
  have hname : cstr (q.quest st 0).qname.bytes = .ok q.name := WireQuest.cstr_quest hq
  obtain ⟨ret, result, c', slots', hsearch, hfound, -⟩ := hc.qnameSearch hhost (.const t) 0 hname q.qtype
  rw [show (Clock.const t).visit 0 = fun _ => t from rfl, hhits] at hfound
  have hpos := List.length_pos_iff.2 hne
  cases hfound with
  | blocked h => exact absurd h hne
  | host h => exact absurd h hne
  | cache =>
    obtain ⟨ans, hans⟩ : ∃ ans, loadMatches ((Clock.const t).ttl 0) st 0 (q.quest st 0) 0 0
        (rs.map Record.entry) = .ok ans := loadMatches_eq 0 fun e he => by
      obtain ⟨x, hx, rfl⟩ := List.mem_map.1 he
      exact ⟨x.ip, rfl, hfit x hx⟩
    have hall : List.Forall₂ (fun x a => Attached 0 (q.quest st 0) t (Record.entry x) a) rs ans :=
      (List.forall₂_map_left_iff.1 (loadMatches_ok hans)).imp fun x a ⟨_, h⟩ => h
    refine ⟨ans, c', ?_, hall⟩
    have hsearch : qnameSearch N host (.const t) 0 c (q.quest st 0).qname.bytes (q.quest st 0).qtype =
        .ok ((rs.length : Int), rs.map Record.entry, c') := hsearch
    rw [urlQuery, hsrc, questsFrom, questsFrom, searchQuests, hsearch]
    simp only [ok_bind]
    rw [if_neg (by omega), if_neg (by omega), if_neg (by simp; omega)]
    simp only [List.length_nil, hans, ok_bind, List.nil_append, searchQuests, ← hall.length_eq]
    rfl

/-- What the two paths have to agree in for an answer `age` seconds after it was received. -/
def WireRecord.aged (age : Nat) (r : WireRecord) : UInt16 × UInt16 × List UInt8 × Nat :=
  (r.type, r.cls, r.rdata, r.ttl.toNat - age)

theorem Address.unique {C : Libc} (hC : C.Lawful) {a : Answer} {b b' : List UInt8} (h : Address C a b)
    (h' : Address C a b') : b = b' := by
  have htext : addressText C a.type b = addressText C a.type b' := Except.ok.inj (h.text.symm.trans h'.text)
  rcases h.shape with ⟨ht, hb⟩ | ⟨ht, hb⟩ <;> rcases h'.shape with ⟨ht', hb'⟩ | ⟨ht', hb'⟩
  · have htext : C.ntop4 b = C.ntop4 b' := by simpa [addressText, ht] using htext
    exact Option.some.inj ((hC.inv4 b hb).symm.trans (htext ▸ hC.inv4 b' hb'))
  · rw [ht] at ht'
    exact absurd ht' (by decide)
  · rw [ht] at ht'
    exact absurd ht' (by decide)
  · have htext : C.ntop6 b = C.ntop6 b' := by
      have hne : typeAaaa ≠ typeA := by decide
      simpa [addressText, ht, hne] using htext
    exact Option.some.inj ((hC.inv6 b hb).symm.trans (htext ▸ hC.inv6 b' hb'))

theorem exists_address {C : Libc} (hC : C.Lawful) :
    ∃ f : Answer → List UInt8, ∀ a b, Address C a b → f a = b := by
  have hex : ∀ a, ∃ b, ∀ b', Address C a b' → b = b' := fun a => by
    by_cases h : ∃ b, Address C a b
    · exact ⟨h.choose, fun b' h' => h.choose_spec.unique hC h'⟩
    · exact ⟨[], fun b' h' => absurd ⟨b', h'⟩ h⟩
  choose f hf using hex
  exact ⟨f, hf⟩

/-- An answer to the first question points to offset 12. -/
theorem namePointers_first {quests : List Quest} {ans : List Answer} {names : List UInt16}
    (h : namePointers quests ans = .ok names) (h0 : ∀ a ∈ ans, a.qpos = 0) : ∀ x ∈ names, x = 0xc00c := by
  induction ans generalizing names with
  | nil =>
    cases h
    nofun
  | cons a ans ih =>
    obtain ⟨ptr, hptr, h⟩ := bind_ok.1 h
    obtain ⟨names', hnames, h⟩ := bind_ok.1 h
    cases h
    intro x hx
    rcases List.mem_cons.1 hx with rfl | hx
    · rw [h0 a List.mem_cons_self] at hptr
      cases quests <;> cases hptr <;> rfl
    · exact ih hnames (fun a ha => h0 a (List.mem_cons_of_mem _ ha)) x hx

/-- `responseFormat` writes the answers with their addresses. -/
theorem responseFormat_answers {C : Libc} (hC : C.Lawful) (st : Stale) {q : WireQuest} (hq : q.Valid) {s s' : Nat}
    {st' : Stale} {src : Packet} (hquests : src.quests = questsFrom st' 0 [q])
    (hbuf : src.bufLen ≤ src.reqBuf.length) (h12 : 12 ≤ src.bufLen) (hn : src.ancount.toNat = src.ans.length)
    {recs : List WireRecord} (hall : List.Forall₂ (Answers C s s') recs src.ans) :
    ∃ (r : Response) (out : List WireRecord), responseFormat C st src = .ok r ∧
      r.sent = responseHead src ++ out.flatMap WireRecord.encode ∧ out.length = src.ancount.toNat ∧
      (∀ w ∈ out, w.owner = be16 0xc00c) ∧ out.map (WireRecord.aged 0) = recs.map (WireRecord.aged (s' - s)) := by
  obtain ⟨f, hf⟩ := exists_address hC
  have haddr : ∀ a ∈ src.ans, a.qpos.toNat < src.quests.length ∧ Address C a (f a) := fun a ha => by
    obtain ⟨r, -, h⟩ := exists_of_forall₂ hall ha
    rw [h.qpos, hquests, length_questsFrom, hf a _ h.address]
    exact ⟨Nat.zero_lt_one, h.address⟩
  obtain ⟨names, r, hnames, hr, -, hsent⟩ := responseFormat_address hC st src hbuf h12
    (hquests ▸ cstr_questsFrom fun q' h => by rw [List.mem_singleton.1 h]; exact hq) hn haddr
  have hmem : ∀ x ∈ src.ans.zip names, Address C x.1 (f x.1) := fun x hx => (haddr x.1 (List.of_mem_zip hx).1).2
  rw [answerBytes_eq (by
    intro y hy
    obtain ⟨x, hx, rfl⟩ := List.mem_map.1 hy
    exact (hmem x hx).filled)] at hsent
  have hfst : (src.ans.zip names).map Prod.fst = src.ans :=
    List.map_fst_zip (Nat.le_of_eq (namePointers_length hnames).symm)
  refine ⟨r, _, hr, hsent, ?_, fun w hw => ?_, ?_⟩
  · rw [records, List.length_map, List.length_map, hn, ← List.length_map (f := Prod.fst), hfst]
  · obtain ⟨y, hy, rfl⟩ := List.mem_map.1 hw
    obtain ⟨x, hx, rfl⟩ := List.mem_map.1 hy
    have hname : x.2 = 0xc00c := namePointers_first hnames (fun a ha => by
      obtain ⟨r, -, h⟩ := exists_of_forall₂ hall ha
      exact h.qpos) _ (List.of_mem_zip hx).2
    exact congrArg be16 hname
  have haged : List.Forall₂ (fun r a => WireRecord.aged (s' - s) r = (a.type, a.cls, f a, a.ttl.toNat)) recs src.ans :=
    hall.imp fun r a h => by rw [WireRecord.aged, h.type, h.cls, h.ttl, hf a _ h.address]
  calc (records ((src.ans.zip names).map fun x => (x.1.withAddress (f x.1), x.2))).map (WireRecord.aged 0)
      = (src.ans.zip names).map fun x => (x.1.type, x.1.cls, f x.1, x.1.ttl.toNat) := by
        rw [records, List.map_map, List.map_map]
        refine List.map_congr_left fun x hx => ?_
        show WireRecord.aged 0 ((x.1.withAddress (f x.1)).record x.2) = _
        rw [(hmem x hx).record, WireRecord.aged, Nat.sub_zero]
    _ = src.ans.map fun a => (a.type, a.cls, f a, a.ttl.toNat) := by
        conv_rhs => rw [← hfst, List.map_map]
        rfl
    _ = recs.map (WireRecord.aged (s' - s)) :=
        (List.forall₂_eq_eq_eq ▸ List.forall₂_map_left_iff.2 (List.forall₂_map_right_iff.2 haged) :
          recs.map (WireRecord.aged (s' - s)) = src.ans.map fun a => (a.type, a.cls, f a, a.ttl.toNat)).symm

/-- The response, stored at `s`, makes the server answer the request at `s'`. The `ANCOUNT` records that it sends
point to the question for their names and are `recs`, in any order and aged by the time in between. -/
def AnsweredAlike (C : Libc) (st st' : Stale) (N : Nat) (host : Option HostMap) (c : LRUCache)
    (response : List UInt8) (len : Nat) (request : List UInt8) (len' s s' : Nat) (recs : List WireRecord) : Prop :=
  ∃ p c₁ src ret src' c₂ r, ∃ out : List WireRecord,
    packetParse C st response len = .ok p ∧ urlStore N (.const s) p c = .ok c₁ ∧
    packetParse C st' request len' = .ok src ∧
    urlQuery N host (.const s') st' src c₁ = .ok (ret, src', c₂) ∧ 0 < ret ∧
    responseFormat C st' src' = .ok r ∧ r.sent = responseHead src' ++ out.flatMap WireRecord.encode ∧
    out.length = src'.ancount.toNat ∧ (∀ w ∈ out, w.owner = be16 0xc00c) ∧
    (out.map (WireRecord.aged 0)).Perm (recs.map (WireRecord.aged (s' - s)))

section
variable {C : Libc} {st st' : Stale} {h h' : Header} {q : WireQuest} {m rest tail buf : List UInt8}
  {recs : List WireRecord} {len : Nat}

/-- Where the answers of a response with one question start. -/
def answersAt (q : WireQuest) : Nat := 12 + (questBytes [q]).length

theorem packetParse_response (C : Libc) (st : Stale) (tail : List UInt8) (hq : q.Valid)
    (hm : m = h.encode ++ questBytes [q] ++ recs.flatMap WireRecord.encode ++ rest) (hqd : h.qdcount = 1)
    (han : h.ancount.toNat = recs.length) (hne : recs ≠ []) :
    packetParse C st (m ++ tail) m.length = (do
      let (ans, _) ← parseAnswers C st (m ++ tail) recs.length 0 (answersAt q)
      return ⟨m ++ tail, m.length, h.id, h.flags, h.qdcount, h.ancount, questsFrom st 0 [q], ans⟩) := by
  have hhead : At (m ++ tail) 0 (h.encode ++ questBytes [q]) := by
    rw [hm, List.append_assoc, List.append_assoc]
    exact (At.refl _).left
  have h0 : h.ancount ≠ 0 := fun h0 => hne (List.length_eq_zero_iff.1 (by rw [← han, h0]; rfl))
  rw [packetParse, packetWalk_eq C st m.length hhead (fun q' h => by rw [List.mem_singleton.1 h]; exact hq)
    (by rw [hqd]; rfl), if_neg h0, han, answersAt]
  simp only [bind_assoc]
  rfl

theorem answers_at (hm : m = h.encode ++ questBytes [q] ++ recs.flatMap WireRecord.encode ++ rest) :
    At m (answersAt q) (recs.flatMap WireRecord.encode) := by
  have := At.middle (h.encode ++ questBytes [q]) (recs.flatMap WireRecord.encode) rest
  rwa [← hm, List.length_append] at this

/-- The records kept of the answers `recs` to the question answer a request with that question. -/
theorem urlQuery_kept {N s s' : Nat} {c : LRUCache} {slots : List Nat} {L rs : List Record}
    (hc : Holds N c slots (Recency.insertAll N rs L)) (hC : C.Lawful) (hq : q.Valid)
    (hkept : List.Forall₂ (Kept C q s) recs rs) (hne : recs ≠ []) (hcount : recs.length < 65536)
    (hask : ∀ r ∈ recs, r.type = q.qtype ∧ r.cls = q.qclass ∧ IsAddress r.type r.rdata)
    (hL : ∀ x ∈ L, x.name ≠ q.name) (hN : recs.length ≤ N) {host : Option HostMap} {lines : List HostLine}
    (hhost : Hosts host lines) (hs : s ≤ s') (hlive : ∀ r ∈ recs, s' ≤ s + r.ttl.toNat) {src : Packet}
    (hquests : src.quests = questsFrom st' 0 [q]) (hfits : src.bufLen ≤ src.reqBuf.length) (h12 : 12 ≤ src.bufLen) :
    ∃ ret src' c' r, ∃ out : List WireRecord,
      urlQuery N host (.const s') st' src c = .ok (ret, src', c') ∧ 0 < ret ∧ responseFormat C st' src' = .ok r ∧
      r.sent = responseHead src' ++ out.flatMap WireRecord.encode ∧ out.length = src'.ancount.toNat ∧
      (∀ w ∈ out, w.owner = be16 0xc00c) ∧
      (out.map (WireRecord.aged 0)).Perm (recs.map (WireRecord.aged (s' - s))) := by
  have hlen : rs.reverse.length = recs.length := by rw [List.length_reverse, hkept.length_eq]
  have hpos := List.length_pos_iff.2 hne
  obtain ⟨ans, c', hquery, hatt⟩ := urlQuery_hits hc hhost hq hquests (cacheHits_stored hkept hlive hN hL)
    (List.length_pos_iff.1 (hlen ▸ hpos)) (hlen ▸ hcount) fun x hx => by
      obtain ⟨r, hr, hk⟩ := exists_of_forall₂ hkept (List.mem_reverse.1 hx)
      obtain ⟨ht, -, ha⟩ := hask r hr
      rw [hk.ip, ← ht]
      exact (ha.text hC).2
  have hanswers : List.Forall₂ (Answers C s s') recs.reverse ans := by
    have hkept' := (List.forall₂_and_left _ _).2 ⟨fun r hr => hr, hkept⟩
    refine (forall₂_comp (List.rel_reverse hkept') hatt).imp fun r a ⟨x, ⟨hr, hk⟩, ha⟩ => ?_
    obtain ⟨ht, hcls, haddr⟩ := hask r hr
    exact hk.answers hC ht hcls haddr hs (hlive r hr) ha
  have hans : ans.length = recs.length := by rw [← hanswers.length_eq, List.length_reverse]
  have hn : (UInt16.ofNat rs.reverse.length).toNat = ans.length := by
    rw [UInt16.toNat_ofNat', hlen, hans, Nat.mod_eq_of_lt hcount]
  obtain ⟨r, out, hr, hsent, hlength, howner, hout⟩ := responseFormat_answers hC st' hq
    (show ({ src with ancount := UInt16.ofNat rs.reverse.length, ans := ans } : Packet).quests = _ from hquests)
    hfits h12 hn hanswers
  refine ⟨_, _, c', r, out, hquery, ?_, hr, hsent, hlength, howner, ?_⟩
  · rw [hlen]
    exact Int.natCast_pos.2 hpos
  · rw [hout]
    exact (List.reverse_perm _).map _

end

/-- The address 6.6.6.6 for the name `a`, and one more answer. -/
def twoAnswers (extra : WireRecord) : List WireRecord := [⟨[0xc0, 12], typeA, 1, 60, [6, 6, 6, 6]⟩, extra]

def twoAnswersHeader : Header := ⟨7, 0x8180, 1, 2, 0, 0⟩

/-- A response to the question for the address of `a`. -/
def twoAnswersFor (extra : WireRecord) : List UInt8 :=
  twoAnswersHeader.encode ++ questBytes [questFor typeA 97] ++ (twoAnswers extra).flatMap WireRecord.encode ++ []

/-- The name `a` is an alias of `b.a`. -/
def aliasRecord : WireRecord := ⟨[0xc0, 12], typeCname, 1, 60, [1, 98, 0xc0, 12]⟩

/-- The name `a` is an alias of the name to which the owner name of the first answer points. -/
def pointerRecord : WireRecord := ⟨[0xc0, 12], typeCname, 1, 60, [0xc0, 19]⟩

theorem address_wellFormed (m : List UInt8) : WellFormedAnswer m 19 ⟨[0xc0, 12], typeA, 1, 60, [6, 6, 6, 6]⟩ where
  owner := ⟨0xc00c, by decide, rfl⟩
  length_lt := by decide
  a _ := rfl
  aaaa h := absurd h (by decide)
  name h := absurd h (by simp [IsName, typeA, typeCname, typeMx, typeNs])

theorem alias_wellFormed : WellFormedAnswer (twoAnswersFor aliasRecord) 35 aliasRecord where
  owner := ⟨0xc00c, by decide, rfl⟩
  length_lt := by decide
  a h := absurd h (by decide)
  aaaa h := absurd h (by decide)
  name _ := ⟨by decide, [[98], [97]], .label (l := [98]) (by decide) (by decide) (by unfold At; decide)
      (.pointer (x := 0xc00c) (by decide) (by unfold At; decide) (by decide)
        (.label (by decide) (by decide) (by unfold At; decide) (.root (by decide)))),
      by decide +kernel, by decide +kernel, by decide +kernel⟩

theorem pointer_wellFormed : WellFormedAnswer (twoAnswersFor pointerRecord) 35 pointerRecord where
  owner := ⟨0xc00c, by decide, rfl⟩
  length_lt := by decide
  a h := absurd h (by decide)
  aaaa h := absurd h (by decide)
  name _ := ⟨by decide, [[97]], .pointer (x := 0xc013) (by decide) (by unfold At; decide) (by decide)
      (.pointer (x := 0xc00c) (by decide) (by unfold At; decide) (by decide)
        (.label (by decide) (by decide) (by unfold At; decide) (.root (by decide)))),
      by decide +kernel, by decide +kernel, by decide +kernel⟩

end DnsRelay
