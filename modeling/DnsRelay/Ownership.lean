import DnsRelay.CompressedName
import DnsRelay.Decoding
import DnsRelay.QuerySpec

/-!
# The owner names of stored records

`urlStore` puts every answer of the first question's type under the first question's name and does not
look at the owner names. So a record is stored under its owner's name, or under one that leads to it by
CNAME answers, exactly if this holds of the first question's name.
-/

namespace DnsRelay
open ByteSeq Exec Relation

/-- The answer loop of `packetParse` comes to the `i`-th answer at `pos`. -/
def AnswerPos (C : Libc) (st : Stale) (buf : List UInt8) (p : Packet) (i pos : Nat) : Prop :=
  ∃ quests mid ans, parseQuests C st buf p.qdcount.toNat 0 12 = .ok (quests, mid) ∧
    parseAnswers C st buf i 0 mid = .ok (ans, pos)

/-- The owner name of the `i`-th answer. -/
def OwnerName (C : Libc) (st : Stale) (buf : List UInt8) (p : Packet) (i : Nat) (ls : List (List UInt8)) : Prop :=
  ∃ pos e, AnswerPos C st buf p i pos ∧ NameAt buf pos pos e ls

/-- A CNAME answer with owner name `ls` and the name `ls'` in its RDATA. -/
def AliasOf (C : Libc) (st : Stale) (buf : List UInt8) (p : Packet) (ls ls' : List (List UInt8)) : Prop :=
  ∃ i a pos e, p.ans[i]? = some a ∧ a.type = typeCname ∧ OwnerName C st buf p i ls ∧
    AnswerPos C st buf p i pos ∧ NameAt buf (pos + 12) (pos + 12) e ls'

/-- The owner name of the `i`-th answer is the one with the text `n`, or is reached from it by CNAME
answers. -/
def Belongs (C : Libc) (st : Stale) (buf : List UInt8) (p : Packet) (i : Nat) (n : List UInt8) : Prop :=
  ∃ ls ls', n = dotted ls ∧ ReflTransGen (AliasOf C st buf p) ls ls' ∧ OwnerName C st buf p i ls'

/-- `r` is the record that `urlStore` makes of the `i`-th answer `a`. -/
structure StoredFrom (clk : Nat → Nat) (quests : List Quest) (i : Nat) (a : Answer) (r : Record) : Prop where
  quest : ∃ q, quests[0]? = some q ∧ a.type = q.qtype ∧ cstr q.qname.bytes = .ok r.name
  ip : cstr a.rdata.bytes = .ok r.ip
  type : r.type = a.type.toUInt8
  addition : r.addition = a.addition
  timestamp : r.timestamp = clk i + a.ttl.toNat

section
variable {m : List UInt8} {s s' p e e' : Nat} {l l' : List UInt8} {ls ls' : List (List UInt8)}

/-- The byte at the start of a label is its length. -/
theorem label_head (h0 : 0 < l.length) (h63 : l.length ≤ 63) (hl : At m p (UInt8.ofNat l.length :: l)) :
    ∃ b, m[p]? = some b ∧ b.toNat = l.length ∧ b ≠ 0 ∧ b.toNat < 192 := by
  obtain ⟨hlen, hne⟩ := label_byte h0 h63
  exact ⟨_, (At.cons_iff.1 hl).1, hlen, hne, by omega⟩

theorem label_unique (h0 : 0 < l.length) (h63 : l.length ≤ 63) (hl : At m p (UInt8.ofNat l.length :: l))
    (h0' : 0 < l'.length) (h63' : l'.length ≤ 63) (hl' : At m p (UInt8.ofNat l'.length :: l')) : l = l' := by
  obtain ⟨b, hb, hlen, -⟩ := label_head h0 h63 hl
  obtain ⟨b', hb', hlen', -⟩ := label_head h0' h63' hl'
  cases hb.symm.trans hb'
  exact (At.cons_iff.1 hl).2.unique (At.cons_iff.1 hl').2 (hlen.symm.trans hlen')

/-- At one place stands one name. -/
theorem NameAt.unique (h : NameAt m s p e ls) (h' : NameAt m s' p e' ls') : ls = ls' := by
  induction h generalizing s' e' ls' with
  | root h =>
    cases h' with
    | root => rfl
    | label h0 h63 hl =>
      obtain ⟨b, hb, -, hne, -⟩ := label_head h0 h63 hl
      cases h.symm.trans hb
      exact absurd rfl hne
    | pointer hx hat => exact absurd (Option.some.inj (h.symm.trans (At.cons_iff.1 hat).1)).symm (pointer_byte hx)
  | label h0 h63 hl _ ih =>
    cases h' with
    | root h =>
      obtain ⟨b, hb, -, hne, -⟩ := label_head h0 h63 hl
      cases h.symm.trans hb
      exact absurd rfl hne
    | label h0' h63' hl' hrest' =>
      obtain rfl := label_unique h0 h63 hl h0' h63' hl'
      rw [ih hrest']
    | pointer hx hat =>
      obtain ⟨b, hb, -, -, hlt⟩ := label_head h0 h63 hl
      exact absurd ((isNamePtr_at hat hb).1 hx) (by omega)
  | pointer hx hat _ _ ih =>
    cases h' with
    | root h => exact absurd (Option.some.inj (h.symm.trans (At.cons_iff.1 hat).1)).symm (pointer_byte hx)
    | label h0 h63 hl =>
      obtain ⟨b, hb, -, -, hlt⟩ := label_head h0 h63 hl
      exact absurd ((isNamePtr_at hat hb).1 hx) (by omega)
    | pointer _ hat' _ hname' =>
      rw [be16_inj (hat.unique hat' rfl)] at ih
      exact ih hname'

end

section
variable {C : Libc} {st : Stale} {buf : List UInt8} {len N i : Nat} {clk : Clock} {p : Packet}
  {c c' : LRUCache} {slots : List Nat} {L rs : List Record} {quests : List Quest} {ans : List Answer}

/-- Each record that is stored comes of its own answer, and each answer of the first question's type is
stored. -/
theorem storedRecords_from {clk : Nat → Nat} (h : storedRecords clk quests i ans = .ok rs) :
    ∃ ins : List (Nat × Record), ins.map Prod.snd = rs ∧
      (∀ k r, (k, r) ∈ ins → ∃ j a, k = i + j ∧ ans[j]? = some a ∧ StoredFrom clk quests k a r) ∧
      ∀ j a q, ans[j]? = some a → quests[0]? = some q → a.type = q.qtype → ∃ r, (i + j, r) ∈ ins := by
  induction ans generalizing i rs with
  | nil => cases h; exact ⟨[], rfl, fun k r hr => (by cases hr), fun j a q ha => (by cases ha)⟩
  | cons a ans ih =>
    -- the answers behind the first, whose numbers are one higher
    have hrest {rs : List Record} (h : storedRecords clk quests (i + 1) ans = .ok rs) :
        ∃ ins : List (Nat × Record), ins.map Prod.snd = rs ∧ (∀ k r, (k, r) ∈ ins →
          ∃ j b, k = i + j ∧ (a :: ans)[j]? = some b ∧ StoredFrom clk quests k b r) ∧
          ∀ j b q, ans[j]? = some b → quests[0]? = some q → b.type = q.qtype → ∃ r, (i + (j + 1), r) ∈ ins := by
      obtain ⟨ins, hins, hfrom, hall⟩ := ih h
      refine ⟨ins, hins, fun k r hr => ?_, fun j b q hb hq ht => ?_⟩
      · obtain ⟨j, b, rfl, hb, hs⟩ := hfrom k r hr
        exact ⟨j + 1, b, by omega, hb, hs⟩
      · rw [show i + (j + 1) = i + 1 + j by omega]
        exact hall j b q hb hq ht
    rw [storedRecords] at h
    cases hq : quests[0]? with
    | none => rw [hq] at h; cases h
    | some q =>
      rw [hq] at h
      dsimp only at h
      split at h
      case isTrue ht =>
        obtain ⟨ins, hins, hfrom, hall⟩ := hrest h
        rw [hq] at hall
        refine ⟨ins, hins, hfrom, fun j b q' hb hq' htype => ?_⟩
        cases j with
        | zero =>
          cases hb
          cases hq'
          exact absurd htype ht
        | succ j => exact hall j b q' hb hq' htype
      case isFalse ht =>
        obtain ⟨name, hname, h⟩ := bind_ok.1 h
        obtain ⟨ip, hip, h⟩ := bind_ok.1 h
        obtain ⟨rs', hrs, h⟩ := bind_ok.1 h
        cases h
        obtain ⟨ins, rfl, hfrom, hall⟩ := hrest hrs
        rw [hq] at hall
        refine ⟨(i, _) :: ins, rfl, fun k r hr => ?_, fun j b q' hb hq' htype => ?_⟩
        · rcases List.mem_cons.1 hr with heq | hr
          · cases heq
            exact ⟨0, a, rfl, rfl, ⟨q, hq, not_not.1 ht, hname⟩, hip, rfl, rfl, rfl⟩
          · exact hfrom k r hr
        · cases j with
          | zero => exact ⟨_, List.mem_cons_self⟩
          | succ j => exact (hall j b q' hb hq' htype).imp fun r hr => List.mem_cons_of_mem _ hr

/-- The records `urlStore` inserts, with the numbers of their answers. -/
theorem Holds.urlStore_from (hc : Holds N c slots L) (hN : 1 ≤ N) (hs : DnsRelay.urlStore N clk p c = .ok c') :
    ∃ (ins : List (Nat × Record)) (slots' : List Nat),
      Holds N c' slots' (Recency.insertAll N (ins.map Prod.snd) L) ∧
      (∀ k r, (k, r) ∈ ins → ∃ a, p.ans[k]? = some a ∧ StoredFrom clk.store p.quests k a r) ∧
      ∀ k a q, k < p.ancount.toNat → p.ans[k]? = some a → p.quests[0]? = some q → a.type = q.qtype →
        ∃ r, (k, r) ∈ ins := by
  obtain ⟨rs, slots', hrs, hc'⟩ := hc.urlStore hN hs
  obtain ⟨ins, rfl, hfrom, hall⟩ := storedRecords_from hrs
  refine ⟨ins, slots', hc', fun k r hr => ?_, fun k a q hk ha hq ht => ?_⟩
  · obtain ⟨j, a, rfl, ha, hs⟩ := hfrom k r hr
    rw [Nat.zero_add] at hs ⊢
    rw [List.getElem?_take] at ha
    split at ha
    · exact ⟨a, ha, hs⟩
    · cases ha
  · have := hall k a q (by rw [List.getElem?_take, if_pos hk, ha]) hq ht
    rwa [Nat.zero_add] at this

/-- Where an answer was read. -/
theorem packetParse_get {a : Answer} (hp : packetParse C st buf len = .ok p) (ha : p.ans[i]? = some a) :
    ∃ pos, AnswerPos C st buf p i pos ∧ parseAnswer C st buf i pos = .ok a := by
  obtain ⟨mid, stop, hparsed⟩ := packetParse_parsed hp
  obtain ⟨pre, pos, hpre, hread⟩ := parseAnswers_get hparsed.ans ha
  rw [Nat.zero_add] at hread
  exact ⟨pos, ⟨p.quests, mid, pre, hparsed.quests, hpre⟩, hread⟩

end

/-- The first answer is read where the question section ends. -/
theorem ParsesTo.answerPos {C : Libc} {st : Stale} {buf : List UInt8} {len mid stop pos : Nat} {p : Packet}
    (h : ParsesTo C st buf len p mid stop) : AnswerPos C st buf p 0 pos ↔ pos = mid := by
  constructor
  · rintro ⟨quests, mid', ans, hquests, hans⟩
    cases h.quests.symm.trans hquests
    cases hans
    rfl
  · rintro rfl
    exact ⟨p.quests, pos, [], h.quests, rfl⟩

/-- The answer to the question for `a` or `a.b` (QNAME at 12) whose owner name is at `target`. -/
def ownedResponse (labels : List (List UInt8)) (target : UInt8) : List UInt8 :=
  responseWith ⟨labels, typeA, 1⟩ { pointedRecord with owner := [0xc0, target] }

/-- What comes of it in an empty cache. -/
theorem ownedResponse_stored (labels : List (List UInt8)) (target : UInt8) (len mid : Nat) (r : Record)
    (hrun : (do
      let p ← packetParse .decimal .zero (ownedResponse labels target) len
      let (_, mid) ← parseQuests .decimal .zero (ownedResponse labels target) p.qdcount.toNat 0 12
      let _ ← urlStore 4 (.const 100) p .zeroed
      let rs ← p.records fun _ => 100
      return (mid, p.ans.map Answer.type, rs) : Exec (Nat × List UInt16 × List Record)) = .ok (mid, [typeA], [r])) :
    ∃ p c' slots stop, packetParse .decimal .zero (ownedResponse labels target) len = .ok p ∧
      ParsesTo .decimal .zero (ownedResponse labels target) len p mid stop ∧ p.ans.map Answer.type = [typeA] ∧
      urlStore 4 (.const 100) p .zeroed = .ok c' ∧ Holds 4 c' slots [r] := by
  obtain ⟨p, hp, h⟩ := bind_ok.1 hrun
  obtain ⟨⟨quests, mid'⟩, hquests, h⟩ := bind_ok.1 h
  obtain ⟨c', hs, h⟩ := bind_ok.1 h
  obtain ⟨rs, hrs, h⟩ := bind_ok.1 h
  obtain ⟨hmid, hpair⟩ := Prod.mk.inj (Except.ok.inj h)
  obtain ⟨htypes, hrecs⟩ := Prod.mk.inj hpair
  subst hmid hrecs
  obtain ⟨mid, stop, hparsed⟩ := packetParse_parsed hp
  cases hparsed.quests.symm.trans hquests
  obtain ⟨rs', slots, hrs', hc'⟩ := (Holds.init 4 _ _).urlStore (by decide) hs
  cases hrs.symm.trans hrs'
  exact ⟨p, c', slots, stop, hp, hparsed, htypes, hs, hc'⟩

end DnsRelay
