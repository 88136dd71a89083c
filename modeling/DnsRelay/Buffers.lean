import DnsRelay.NameKeys
import DnsRelay.Bounds

/-!
# What `packetParse` writes into its buffers

`packetParse` allocates 65 bytes for a QNAME and `TYPE_BUF_SIZE` bytes for the text of a record before it
knows how long they are, and `inetParse` is not told. `ParseWrites` are the indices of its destination that it
writes, whatever the size of that is. A record's buffer takes every legal name, a question's only names of at
most 64 characters.
-/

namespace DnsRelay
open ByteSeq Exec Relation

/-- A round of the loop of `inetParse` where `dest` takes all that is written. -/
inductive LabelPass (src : List UInt8) (off : Nat) (p : Int) : Int → Prop
  | mk {c : UInt8} (hc : load src (off + p) = .ok c) (h0 : c ≠ 0) : LabelPass src off p (p + (labelLen c + 1))

/-- The indices that `inetParse(AF_MAX, src + off, dest)` writes: those of a label, of its `.`, and of the
terminator. -/
inductive ParseWrites (src : List UInt8) (off : Nat) : Int → Prop
  | char {p i : Int} {c : UInt8} (hp : ReflTransGen (LabelPass src off) 0 p) (hc : load src (off + p) = .ok c)
      (h0 : c ≠ 0) (hi : 0 ≤ i) (hlt : i < labelLen c) : ParseWrites src off (p + i)
  | dot {p : Int} {c : UInt8} (hp : ReflTransGen (LabelPass src off) 0 p) (hc : load src (off + p) = .ok c)
      (h0 : c ≠ 0) : ParseWrites src off (p + labelLen c)
  | stop {p : Int} (hp : ReflTransGen (LabelPass src off) 0 p) (hc : load src (off + p) = .ok 0) :
      ParseWrites src off (p - 1)

/-- The labels of the name at `off`, each behind its length byte, end within `n` bytes. -/
def LabelsWithin (src : List UInt8) (off n : Nat) : Prop :=
  ∀ p c, ReflTransGen (LabelPass src off) 0 p → load src (off + p) = .ok c → c ≠ 0 → p + (labelLen c + 1) ≤ n

section
variable {C : Libc} {src : List UInt8} {off size n : Nat} {p q i : Int} {dest d : Block} {ls : List (List UInt8)}

theorem writes_lt_iff : (∀ i, ParseWrites src off i → i < size) ↔ LabelsWithin src off size := by
  constructor
  · intro h p c hp hc h0
    have := h _ (.dot hp hc h0)
    omega
  · rintro h i (⟨hp, hc, h0, hi, hlt⟩ | ⟨hp, hc, h0⟩ | ⟨hp, hc⟩)
    · have := h _ _ hp hc h0
      omega
    · have := h _ _ hp hc h0
      omega
    · rcases ReflTransGen.cases_tail hp with rfl | ⟨_, hp', hc', h0⟩
      · omega
      · have := h _ _ hp' hc' h0
        omega

theorem LabelStep.pass (h : LabelStep src off size p q) : LabelPass src off p q := by
  obtain ⟨hc, h0, -⟩ := h
  exact .mk hc h0

/-- A round that can be made writes a label and its `.` inside the buffer. -/
theorem LabelStep.fits {c : UInt8} (h : LabelStep src off size p q) (hc : load src (off + p) = .ok c) :
    (labelLen c).toNat ≤ room size p ∧ 0 < room size (p + labelLen c) := by
  obtain ⟨hc', -, -, hroom, hdot⟩ := h
  cases hc.symm.trans hc'
  exact ⟨hroom, hdot⟩

theorem passes_of_steps (h : ReflTransGen (LabelStep src off size) p q) : ReflTransGen (LabelPass src off) p q :=
  ReflTransGen.mono (fun _ _ => LabelStep.pass) _ _ h

/-- Where the loop comes to its end within the buffer, each of its rounds is one that fits. -/
theorem steps_of_passes (hq : ReflTransGen (LabelStep src off size) 0 q) (hstop : load src (off + q) = .ok 0)
    (h : ReflTransGen (LabelPass src off) 0 p) :
    ReflTransGen (LabelStep src off size) 0 p ∧ ∀ c, load src (off + p) = .ok c → c ≠ 0 →
      LabelStep src off size p (p + (labelLen c + 1)) := by
  have hdet := labels_deterministic src off size
  have hnext {p : Int} (hp : ReflTransGen (LabelStep src off size) 0 p) {c : UInt8} (hc : load src (off + p) = .ok c)
      (h0 : c ≠ 0) : LabelStep src off size p (p + (labelLen c + 1)) := by
    rcases ReflTransGen.total_of_right_unique hdet.next_unique hp hq with hpq | hqp
    · rcases ReflTransGen.cases_head hpq with rfl | ⟨_, hstep, -⟩
      · cases hc.symm.trans hstop
        exact absurd rfl h0
      · have hstep' := hstep
        obtain ⟨hc', -⟩ := hstep
        cases hc.symm.trans hc'
        exact hstep'
    · rcases ReflTransGen.cases_head hqp with rfl | ⟨_, hstep, -⟩
      · cases hc.symm.trans hstop
        exact absurd rfl h0
      · exact absurd hstep (hdet.end_stuck (.stop hstop))
  have hsteps : ReflTransGen (LabelStep src off size) 0 p := by
    induction h with
    | refl => exact .refl
    | tail _ hpass ih =>
      obtain ⟨hc, h0⟩ := hpass
      exact ih.tail (hnext ih hc h0)
  exact ⟨hsteps, fun c => hnext hsteps⟩

/-- What goes through has written inside its buffer. -/
theorem inetParse_ok_writes (h : inetParse C .max src off dest = .ok d) (hi : ParseWrites src off i) :
    0 ≤ i ∧ i < dest.size := by
  obtain ⟨q, hq1, hq, hstop⟩ := (inetParse_max_ok C src off rfl).1 ⟨d, h⟩
  cases hi with
  | @char p i c hp hc h0 hi hlt =>
    obtain ⟨hsteps, hnext⟩ := steps_of_passes hq hstop hp
    have hle := labelSteps_le hsteps
    have hroom := ((hnext c hc h0).fits hc).1
    rw [room_eq hle.1] at hroom
    omega
  | @dot p c hp hc h0 =>
    obtain ⟨-, hnext⟩ := steps_of_passes hq hstop hp
    exact room_pos ((hnext c hc h0).fits hc).2
  | @stop p hp hc =>
    obtain ⟨hsteps, -⟩ := steps_of_passes hq hstop hp
    obtain rfl := (labels_deterministic src off dest.size).unique_place hsteps (.stop hc) hq (.stop hstop)
    have := (labelSteps_le hsteps).2
    omega

/-- What ends in a write outside its buffer has written there. -/
theorem inetParse_write_writes (h : inetParse C .max src off dest = .error .write) :
    ∃ i, ParseWrites src off i ∧ ¬ (0 ≤ i ∧ i < dest.size) := by
  rw [inetParse] at h
  cases hwalk : labelWalk src off (dest.size + 2) 0 dest with
  | error f =>
    rw [hwalk] at h
    cases h
    obtain ⟨p, hp, hend⟩ := (labelWalk_end src off rfl _).1 ((outcome_eq_error (by decide)).2 hwalk)
    have hle := labelSteps_le hp
    have hp := passes_of_steps hp
    cases hend with
    | full hc h0 hroom =>
      rw [room_eq hle.1] at hroom
      exact ⟨p + (dest.size - p), .char hp hc h0 (by omega) (by omega), by omega⟩
    | fullDot hc h0 hmem hroom hdot =>
      refine ⟨_, .dot hp hc h0, fun hin => ?_⟩
      rw [room_eq hin.1] at hdot
      omega
  | ok r =>
    obtain ⟨q, d⟩ := r
    rw [hwalk, ok_bind] at h
    obtain ⟨hsteps, hc, hd⟩ := labelWalk_ok (Int.le_refl 0) rfl hwalk
    refine ⟨q - 1, .stop (passes_of_steps hsteps) hc, fun hin => ?_⟩
    obtain ⟨d', -, hstore⟩ := Block.store_room (b := d) (p := q - 1) 0 (by rw [room_eq hin.1, hd]; omega)
    cases hstore.symm.trans h

/-! ### Names in the wire form -/

theorem length_prefixed_concat (pre : List (List UInt8)) (l : List UInt8) :
    (Labels.prefixed (pre ++ [l])).length = (Labels.prefixed pre).length + (l.length + 1) := by
  rw [Labels.prefixed_append, List.length_append, Labels.prefixed_cons, Labels.prefixed_nil, List.append_nil,
    List.length_cons]

/-- What the loop finds behind the labels `pre`. -/
theorem load_label {pre suf : List (List UInt8)} {l : List UInt8} (hsrc : At src off (Labels.encode (pre ++ l :: suf)))
    (hls : Labels.Sized (pre ++ l :: suf)) : ∃ c, load src (off + ((Labels.prefixed pre).length : Nat)) = .ok c ∧
      c ≠ 0 ∧ labelLen c = l.length := by
  have hl : l ∈ pre ++ l :: suf := List.mem_append_right _ List.mem_cons_self
  rw [Labels.encode_append, Labels.encode_cons, List.cons_append] at hsrc
  exact ⟨_, load_at (p := off + _) hsrc.right, (hls.length_byte hl).2, labelLen_ofNat (hls l hl).2⟩

theorem load_end {pre : List (List UInt8)} (hsrc : At src off (Labels.encode pre)) :
    load src (off + ((Labels.prefixed pre).length : Nat)) = .ok 0 :=
  load_at (p := off + _) hsrc.right

/-- The loop goes from label to label. -/
theorem passes_iff (hsrc : At src off (Labels.encode ls)) (hls : Labels.Sized ls) :
    ReflTransGen (LabelPass src off) 0 p ↔
      ∃ pre suf, ls = pre ++ suf ∧ p = ((Labels.prefixed pre).length : Nat) := by
  constructor
  · intro h
    induction h with
    | refl => exact ⟨[], ls, rfl, rfl⟩
    | tail _ hpass ih =>
      obtain ⟨pre, suf, rfl, rfl⟩ := ih
      obtain ⟨hc, h0⟩ := hpass
      cases suf with
      | nil =>
        rw [List.append_nil] at hsrc
        cases hc.symm.trans (load_end hsrc)
        exact absurd rfl h0
      | cons l suf =>
        obtain ⟨c, hc', -, hlen⟩ := load_label hsrc hls
        cases hc.symm.trans hc'
        refine ⟨pre ++ [l], suf, by rw [List.append_assoc]; rfl, ?_⟩
        rw [length_prefixed_concat, hlen]
        push_cast
        rfl
  · rintro ⟨pre, suf, rfl, rfl⟩
    induction pre using List.reverseRecOn generalizing suf with
    | nil => exact .refl
    | append_singleton pre l ih =>
      rw [List.append_assoc] at hsrc hls
      obtain ⟨c, hc, h0, hlen⟩ := load_label hsrc hls
      have hpass := LabelPass.mk hc h0
      have hnext : (((Labels.prefixed pre).length : Nat) : Int) + ((l.length : Int) + 1) =
          ((Labels.prefixed (pre ++ [l])).length : Nat) := by
        rw [length_prefixed_concat]
        push_cast
        rfl
      rw [hlen, hnext] at hpass
      exact (ih _ hsrc hls).tail hpass

theorem labelsWithin_iff (hsrc : At src off (Labels.encode ls)) (hls : Labels.Sized ls) :
    LabelsWithin src off n ↔ (Labels.prefixed ls).length ≤ n := by
  constructor
  · intro h
    rcases List.eq_nil_or_concat ls with rfl | ⟨pre, l, rfl⟩
    · exact Nat.zero_le n
    · rw [List.concat_eq_append] at hsrc hls ⊢
      obtain ⟨c, hc, h0, hlen⟩ := load_label hsrc hls
      have hle := h _ c ((passes_iff hsrc hls).2 ⟨pre, [l], rfl, rfl⟩) hc h0
      rw [length_prefixed_concat]
      omega
  · intro h p c hp hc h0
    obtain ⟨pre, suf, rfl, rfl⟩ := (passes_iff hsrc hls).1 hp
    cases suf with
    | nil =>
      rw [List.append_nil] at hsrc
      cases hc.symm.trans (load_end hsrc)
      exact absurd rfl h0
    | cons l suf =>
      obtain ⟨c', hc', -, hlen⟩ := load_label hsrc hls
      cases hc.symm.trans hc'
      rw [Labels.prefixed_append, List.length_append, Labels.prefixed_cons, List.length_cons, List.length_append] at h
      omega

end

/-! ### The calls of `packetParse` -/

/-- The indices of its buffer that are written for a record of `type` with `len` bytes of RDATA at `src`. -/
inductive RdataWrites (C : Libc) (buf : List UInt8) (src : Nat) (type len : UInt16) (stale : List UInt8) : Int → Prop
  | qname {i : Int} (htype : type = typeQname) (hi : ParseWrites buf src i) : RdataWrites C buf src type len stale i
  | a {b : List UInt8} {n : Nat} (htype : type = typeA) (hb : loadBytes buf src 4 = .ok b)
      (hlen : (C.ntop4 b).length + 1 ≤ 16) (hn : n < (C.ntop4 b).length + 1) : RdataWrites C buf src type len stale n
  | aaaa {b : List UInt8} {n : Nat} (htype : type = typeAaaa) (hb : loadBytes buf src 16 = .ok b)
      (hlen : (C.ntop6 b).length + 1 ≤ 40) (hn : n < (C.ntop6 b).length + 1) : RdataWrites C buf src type len stale n
  | name {temp : Block} {i : Int} (htype : IsName type) (htemp : urlExpand buf expandFuel src type len stale = .ok temp)
      (hi : ParseWrites temp.bytes 0 i) : RdataWrites C buf src type len stale i

/-- For every question and every record that the loops come to, the indices that are written are below the
size of the buffer. -/
structure BuffersSuffice (C : Libc) (st : Stale) (buf : List UInt8) : Prop where
  quest : ∀ qd, load16 buf 4 = .ok qd → ∀ k < qd.toNat, ∀ quests pos,
    parseQuests C st buf k 0 12 = .ok (quests, pos) → ∀ i, ParseWrites buf pos i → i < 64 + 1
  answer : ∀ qd an, load16 buf 4 = .ok qd → load16 buf 6 = .ok an → ∀ quests mid,
    parseQuests C st buf qd.toNat 0 12 = .ok (quests, mid) → ∀ k < an.toNat, ∀ ans pos,
    parseAnswers C st buf k 0 mid = .ok (ans, pos) → ∀ type len, load16 buf (pos + 2) = .ok type →
    load16 buf (pos + 10) = .ok len → ∀ i, RdataWrites C buf (pos + 12) type len (st.temp k) i → i < typeBufSize type

/-- The names that the loops come to are short enough: those of the questions, the RDATA of a record of type 0
read as a name, and what the RDATA that is a name expands to. -/
structure NamesWithin (C : Libc) (st : Stale) (buf : List UInt8) : Prop where
  quest : ∀ qd, load16 buf 4 = .ok qd → ∀ k < qd.toNat, ∀ quests pos,
    parseQuests C st buf k 0 12 = .ok (quests, pos) → LabelsWithin buf pos 65
  answer : ∀ qd an, load16 buf 4 = .ok qd → load16 buf 6 = .ok an → ∀ quests mid,
    parseQuests C st buf qd.toNat 0 12 = .ok (quests, mid) → ∀ k < an.toNat, ∀ ans pos,
    parseAnswers C st buf k 0 mid = .ok (ans, pos) → ∀ type len, load16 buf (pos + 2) = .ok type →
    load16 buf (pos + 10) = .ok len →
      (type = typeQname → LabelsWithin buf (pos + 12) 0) ∧
      (IsName type → ∀ temp, urlExpand buf expandFuel (pos + 12) type len (st.temp k) = .ok temp →
        LabelsWithin temp.bytes 0 255)

/-- A message within the limits, which the loops walk through question by question and record by record: the
labels of the questions have no NUL, the owner names are pointers and the names in RDATA are ASCII. -/
structure LegalMessage (m : List UInt8) (h : Header) (qs : List WireQuest) (recs : List WireRecord) : Prop where
  sections : At m 0 (h.encode ++ questBytes qs ++ recs.flatMap WireRecord.encode)
  qdcount : h.qdcount.toNat = qs.length
  ancount : h.ancount.toNat = recs.length
  quest : ∀ q ∈ qs, q.Legible ∧ q.labels ≠ []
  pointed : ∀ r ∈ recs, r.Pointed
  typed : ∀ r ∈ recs, r.type ≠ typeQname
  name : ∀ i r, recs[i]? = some r → IsName r.type → ∃ n ls, r.rdata.length = nameSkip r.type + n ∧
    RdataName m (recordPos (12 + (questBytes qs).length) recs i + 12 + nameSkip r.type) n ls

section
variable {C : Libc} {st : Stale} {m buf tail stale : List UInt8} {src k : Nat} {i : Int} {type len addition : UInt16}
  {dest : Block} {h : Header} {qs : List WireQuest} {recs : List WireRecord}

/-- What goes through has written inside the buffer of the record. -/
theorem urlParse_ok_writes {x : Block × UInt16} (h : urlParse C buf src dest addition type len stale = .ok x)
    (hi : RdataWrites C buf src type len stale i) : 0 ≤ i ∧ i < dest.size := by
  have hstored {xs : List UInt8} {d : Block} {n : Nat} (hs : dest.storeBytes 0 (xs ++ [0]) = .ok d)
      (hn : n < xs.length + 1) : 0 ≤ (n : Int) ∧ (n : Int) < dest.size := by
    have hroom := (Block.storeBytes_ok (p := 0) (by simp) hs).1
    rw [List.length_append, List.length_singleton] at hroom
    omega
  cases hi with
  | qname htype hi =>
    rw [urlParse, if_pos htype] at h
    obtain ⟨d, hd, -⟩ := bind_ok.1 h
    exact inetParse_ok_writes hd hi
  | a htype hb hlen hn =>
    subst htype
    rw [urlParse, if_neg (by decide), if_pos rfl] at h
    obtain ⟨d, hd, -⟩ := bind_ok.1 h
    rw [inetParse, hb, ok_bind, if_pos hlen] at hd
    exact hstored hd hn
  | aaaa htype hb hlen hn =>
    subst htype
    rw [urlParse, if_neg (by decide), if_neg (by decide), if_pos rfl] at h
    obtain ⟨d, hd, -⟩ := bind_ok.1 h
    rw [inetParse, hb, ok_bind, if_pos hlen] at hd
    exact hstored hd hn
  | name htype htemp hi =>
    obtain ⟨addition', heq⟩ := urlParse_expand C buf src dest addition len stale htype
    rw [heq, htemp, ok_bind] at h
    obtain ⟨d, hd, -⟩ := bind_ok.1 h
    exact inetParse_ok_writes hd hi

theorem rdataWrites_lt_iff : (∀ i, RdataWrites C buf src type len stale i → i < typeBufSize type) ↔
    (type = typeQname → LabelsWithin buf src 0) ∧
    (IsName type → ∀ temp, urlExpand buf expandFuel src type len stale = .ok temp → LabelsWithin temp.bytes 0 255) := by
  constructor
  · intro h
    refine ⟨fun htype => writes_lt_iff.1 fun i hi => ?_, fun htype temp htemp => writes_lt_iff.1 fun i hi => ?_⟩
    · subst htype
      exact h i (.qname rfl hi)
    · have := h i (.name htype htemp hi)
      rwa [typeBufSize_name htype] at this
  · rintro ⟨hq, hn⟩ i (⟨htype, hi⟩ | ⟨htype, -, hlen, hn⟩ | ⟨htype, -, hlen, hn⟩ | ⟨htype, htemp, hi⟩)
    · have := writes_lt_iff.2 (hq htype) i hi
      subst htype
      exact this
    · subst htype
      show _ < ((22 : Nat) : Int)
      omega
    · subst htype
      show _ < ((50 : Nat) : Int)
      omega
    · rw [typeBufSize_name htype]
      exact writes_lt_iff.2 (hn htype _ htemp) i hi

theorem buffersSuffice_iff : BuffersSuffice C st buf ↔ NamesWithin C st buf := by
  constructor
  · intro h
    refine ⟨fun qd hqd k hk quests pos hpos => writes_lt_iff.1 (h.quest qd hqd k hk quests pos hpos),
      fun qd an hqd han quests mid hmid k hk ans pos hpos type len htype hlen => ?_⟩
    exact rdataWrites_lt_iff.1 (h.answer qd an hqd han quests mid hmid k hk ans pos hpos type len htype hlen)
  · intro h
    refine ⟨fun qd hqd k hk quests pos hpos => writes_lt_iff.2 (h.quest qd hqd k hk quests pos hpos),
      fun qd an hqd han quests mid hmid k hk ans pos hpos type len htype hlen => ?_⟩
    exact rdataWrites_lt_iff.2 (h.answer qd an hqd han quests mid hmid k hk ans pos hpos type len htype hlen)

theorem WireQuest.labels_within (q : WireQuest) (hne : q.labels ≠ []) :
    (Labels.prefixed q.labels).length ≤ 65 ↔ q.name.length ≤ 64 := by
  rw [Labels.length_prefixed dot, Labels.length_dots hne]
  exact Nat.succ_le_succ_iff

/-- What a legal name in RDATA expands to takes at most 255 bytes. -/
theorem RdataName.within {p n : Nat} {ls : List (List UInt8)} {temp : Block} (h : RdataName m p n ls)
    (htail : 2 ≤ tail.length) (htemp : expandRdata (m ++ tail) expandFuel p n stale = .ok temp) :
    LabelsWithin temp.bytes 0 255 := by
  have hn : n ≤ 255 := by
    obtain ⟨temp', hcopy, -⟩ := bind_ok.1 htemp
    obtain ⟨-, -, -, hroom, -⟩ := Block.copy_ok (p := 0) hcopy
    rw [Block.fresh_size] at hroom
    omega
  obtain ⟨ls', hpre, -, temp', hat, hexp⟩ := expandRdata_name stale h htail hn
  cases htemp.symm.trans hexp
  refine (labelsWithin_iff hat fun l hl => h.name.sized l (hpre.subset hl)).2 ?_
  have hle := Nat.le_trans (prefix_length_encode_le hpre) h.length_le
  rw [Labels.encode, List.length_append] at hle
  omega

namespace LegalMessage

/-- In a legal message every record has room. -/
theorem answer_within (hm : LegalMessage m h qs recs) (htail : 2 ≤ tail.length) {quests : List Quest} {mid : Nat}
    (hmid : parseQuests C st (m ++ tail) qs.length 0 12 = .ok (quests, mid)) (hk : k < recs.length) {ans : List Answer}
    {pos : Nat} (hpos : parseAnswers C st (m ++ tail) k 0 mid = .ok (ans, pos))
    (htype : load16 (m ++ tail) (pos + 2) = .ok type) (hlen : load16 (m ++ tail) (pos + 10) = .ok len) :
    (type = typeQname → LabelsWithin (m ++ tail) (pos + 12) 0) ∧
    (IsName type → ∀ temp, urlExpand (m ++ tail) expandFuel (pos + 12) type len (st.temp k) = .ok temp →
      LabelsWithin temp.bytes 0 255) := by
  obtain ⟨-, hquest, hanswer⟩ := sections_at (hm.sections.append_right tail)
  obtain rfl := parseQuests_cursor hquest (fun q hq => (hm.quest q hq).1) hmid
  have hget : recs[k]? = some recs[k] := List.getElem?_eq_getElem hk
  have hr := List.getElem_mem hk
  generalize recs[k] = r at hget hr
  obtain ⟨rfl, hat⟩ := parseAnswers_at hanswer hm.pointed hget hpos
  have hfields := hat.left.right
  rw [(hm.pointed r hr).owner_length] at hfields
  cases htype.symm.trans (load16_at (p := _ + 2) hfields.left.left.left)
  cases hlen.symm.trans (load16_at (p := _ + 10) hfields.right)
  refine ⟨fun hq => absurd hq (hm.typed r hr), fun hname temp htemp => ?_⟩
  obtain ⟨n, ls, hlen, hrdata⟩ := hm.name k r hget hname
  have hrdlen := (hm.pointed r hr).rdlen
  rcases urlExpand_cases (m ++ tail) (recordPos (12 + (questBytes qs).length) recs k + 12) r.type
    (UInt16.ofNat r.rdata.length) (st.temp k) with ⟨-, heq⟩ | ⟨-, heq⟩
  · rw [heq, nameLen_eq (by omega), hrdlen, hlen, Nat.add_sub_cancel_left] at htemp
    exact hrdata.within htail htemp
  · cases (heq _).symm.trans htemp

theorem namesWithin_iff (hm : LegalMessage m h qs recs) (htail : 2 ≤ tail.length) :
    NamesWithin C st (m ++ tail) ↔ ∀ q ∈ qs, q.name.length ≤ 64 := by
  obtain ⟨hheader, hquest, -⟩ := sections_at (hm.sections.append_right tail)
  obtain ⟨-, -, hqc, hac⟩ := Header.loads hheader
  have hlegible : ∀ q ∈ qs, q.Legible := fun q hq => (hm.quest q hq).1
  constructor
  · intro hw
    -- the loop comes to a question behind others that fit
    suffices hfront : ∀ k ≤ qs.length, ∀ q ∈ qs.take k, q.name.length ≤ 64 by
      intro q hq
      exact hfront qs.length (Nat.le_refl _) q (by rwa [List.take_length])
    intro k hk
    induction k with
    | zero => exact fun q hq => by cases hq
    | succ k ih =>
      have ih := ih (Nat.le_of_succ_le hk)
      have hget : qs[k]? = some qs[k] := List.getElem?_eq_getElem hk
      have hmem : qs[k] ∈ qs := List.getElem_mem hk
      obtain ⟨hsplit, hlen⟩ := take_append_getElem? hget
      have hbefore : At (m ++ tail) 12 (questBytes (qs.take k)) := by
        rw [hsplit, questBytes, List.flatMap_append] at hquest
        exact hquest.left
      have hparse : parseQuests C st (m ++ tail) _ 0 12 = _ := parseQuests_named hbefore fun q hq =>
        ⟨hlegible q (List.mem_of_mem_take hq), (hm.quest q (List.mem_of_mem_take hq)).2, ih q hq⟩
      rw [hlen] at hparse
      have hat := parseQuests_at hquest hlegible hget hparse
      have hwithin := hw.quest h.qdcount hqc k (by rw [hm.qdcount]; exact hk) _ _ hparse
      intro q hq
      rw [List.take_succ_eq_append_getElem hk] at hq
      rcases List.mem_append.1 hq with hq | hq
      · exact ih q hq
      · rw [List.mem_singleton.1 hq]
        exact (WireQuest.labels_within _ (hm.quest _ hmem).2).1
          ((labelsWithin_iff hat.left (hlegible _ hmem).sized).1 hwithin)
  · intro hall
    refine ⟨fun qd hqd k hk quests pos hpos => ?_, fun qd an hqd han quests mid hmid k hk ans pos hpos type len htype
      hlen => ?_⟩
    · cases hqd.symm.trans hqc
      rw [hm.qdcount] at hk
      have hat := parseQuests_at hquest hlegible (List.getElem?_eq_getElem hk) hpos
      have hmem := List.getElem_mem hk
      exact (labelsWithin_iff hat.left (hlegible _ hmem).sized).2
        ((WireQuest.labels_within _ (hm.quest _ hmem).2).2 (hall _ hmem))
    · cases hqd.symm.trans hqc
      cases han.symm.trans hac
      rw [hm.qdcount] at hmid
      rw [hm.ancount] at hk
      exact hm.answer_within htail hmid hk hpos htype hlen

end LegalMessage

end

/-- A response to `questFor typeA 97` whose answer is an alias, its RDATA a pointer to the question's name. -/
def aliasMessage : List UInt8 := responseWith (questFor typeA 97) ⟨[0xc0, 12], typeCname, 1, 60, [0xc0, 12]⟩

theorem aliasMessage_legal : LegalMessage aliasMessage ⟨0x1234, 0x8180, 1, 1, 0, 0⟩ [questFor typeA 97]
    [⟨[0xc0, 12], typeCname, 1, 60, [0xc0, 12]⟩] where
  sections := by
    have hsame : aliasMessage = Header.encode ⟨0x1234, 0x8180, 1, 1, 0, 0⟩ ++ questBytes [questFor typeA 97] ++
        [(⟨[0xc0, 12], typeCname, 1, 60, [0xc0, 12]⟩ : WireRecord)].flatMap WireRecord.encode := by decide
    rw [← hsame]
    exact At.refl _
  qdcount := rfl
  ancount := rfl
  quest := List.forall_mem_singleton.2 ⟨questFor_legible _ (by decide) (by decide), by decide⟩
  pointed := List.forall_mem_singleton.2 ⟨⟨0xc00c, by decide, by decide⟩, by decide⟩
  typed := List.forall_mem_singleton.2 (by decide)
  name i r hi _ := by
    have hat : At aliasMessage 31 (be16 0xc00c) := At.cons_iff.2 ⟨rfl, At.cons_iff.2 ⟨rfl, .nil⟩⟩
    have hlabel : At aliasMessage 12 [1, 97] := At.cons_iff.2 ⟨rfl, At.cons_iff.2 ⟨rfl, .nil⟩⟩
    cases i with
    | zero =>
      cases hi
      have htarget : NameAt aliasMessage 12 12 15 [[97]] := .label (by decide) (by decide) hlabel (.root rfl)
      have htext : (Labels.encode [[97]]).length ≤ 255 := Nat.le_of_ble_eq_true rfl
      have hname : RdataName aliasMessage 31 2 [[97]] :=
        ⟨.pointer (x := 0xc00c) rfl hat (by decide +kernel) htarget, List.cons_ne_nil _ _,
          List.forall_mem_singleton.2 (List.forall_mem_singleton.2 (by decide)), htext⟩
      exact ⟨2, [[97]], rfl, hname⟩
    | succ i => cases hi

/-- A question for a name of 65 characters. -/
def longQuestion : WireQuest := ⟨[List.replicate 63 97, [98]], typeA, 1⟩

def longRequest : List UInt8 := Header.encode ⟨0x1234, 0x100, 1, 0, 0, 0⟩ ++ questBytes [longQuestion]

end DnsRelay
