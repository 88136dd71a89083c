import Mathlib.Data.Nat.Find
import DnsRelay.ReadsRefine

/-!
# Where `packetParse` reads

`packetParse` moves its cursor by lengths that the datagram gives and compares it with nothing. It reads nothing but
the datagram if and only if every question and every record that its loops come to is there as a whole: `QuestInside`
and `AnswerInside` say what has to be there, given the place of the cursor.
-/

namespace DnsRelay
open Relation

namespace Memory

/-- One round of the loop of `inetParse` over the labels at `m + off`. -/
def Round (m : Memory) (off p q : Int) : Prop := m (off + p) ≠ 0 ∧ q = m.nextLabel off p

def Walk (m : Memory) (off p : Int) : Prop := ReflTransGen (m.Round off) 0 p

/-- The loop comes to its end. -/
def WalkEnds (m : Memory) (off : Int) : Prop := ∃ p, m.Walk off p ∧ m (off + p) = 0

/-- The inner loop of `urlParse` comes to `z`, from the pointer at the end of the `n` bytes at `src`: over labels, and
along pointers that have two bytes behind them that look like a pointer. -/
inductive Zips (buf : Memory) (src : Int) (n : Nat) : Int → Prop
  | start (hx : isNamePtr (buf.word (src + n - 2)) = true) : Zips buf src n (getQnamePtr (buf.word (src + n - 2))).toNat
  | label {z : Int} (h : Zips buf src n z) (h0 : buf z ≠ 0) (hx : isNamePtr (buf.word z) = false) :
      Zips buf src n (z + ((buf z).toNat + 1 : Nat))
  | jump {z : Int} (h : Zips buf src n z) (h0 : buf z ≠ 0) (hx : isNamePtr (buf.word z) = true)
      (hy : isNamePtr (buf.word (z + 2)) = true) : Zips buf src n (getQnamePtr (buf.word z)).toNat

end Memory

/-- The walk over the labels at `off` does not leave the datagram. -/
def WalkInside (buf : Memory) (len : Nat) (off : Int) : Prop := ∀ p, buf.Walk off p →
  0 ≤ off + p ∧ off + p < len ∧ (buf (off + p) ≠ 0 → off + p + 1 + labelLen (buf (off + p)) ≤ len)

/-- The way along the pointers does not leave the datagram. -/
def ZipInside (buf : Memory) (len : Nat) (src : Int) (n : Nat) : Prop := ∀ z, buf.Zips src n z →
  z < len ∧ (buf z ≠ 0 → z + (if isNamePtr (buf.word z) then 4 else (buf z).toNat + 1 : Nat) ≤ len)

/-- A question at `pos`: there is a NUL, the walk over the labels does not leave the datagram, and if it comes to its
end, type and class stand behind the NUL. -/
def QuestInside (buf : Memory) (len : Nat) (pos : Int) : Prop :=
  ∃ k : Nat, (∀ j < k, buf (pos + j) ≠ 0) ∧ buf (pos + k) = 0 ∧ pos + k < len ∧ WalkInside buf len pos ∧
    (buf.WalkEnds pos → pos + k + 5 ≤ len)

/-- RDATA of `rdlen` bytes at `src`, as far as a record of type `type` makes use of it. -/
structure RdataInside (buf : Memory) (len : Nat) (src : Int) (type rdlen : UInt16) : Prop where
  qname : type = typeQname → WalkInside buf len src
  a : type = typeA → src + 4 ≤ len
  aaaa : type = typeAaaa → src + 16 ≤ len
  name : IsName type → src + nameSkip type + nameLen type rdlen ≤ len
  way : IsName type → ZipInside buf len (src + nameSkip type) (nameLen type rdlen)

/-- A record at `pos`. -/
def AnswerInside (buf : Memory) (len : Nat) (pos : Int) : Prop :=
  pos + 12 ≤ len ∧ RdataInside buf len (pos + 12) (buf.rtype pos) (buf.rdlen pos)

/-- Every question and every record that the loops come to. -/
structure Contained (buf : Memory) (stack : Nat → Memory) (len : Nat) : Prop where
  header : 8 ≤ len
  quest : ∀ i pos, ParsePoint.Comes buf stack (.quests i pos) → i < buf.qdcount → QuestInside buf len pos
  answer : ∀ i pos, ParsePoint.Comes buf stack (.answers i pos) → i < buf.ancount → AnswerInside buf len pos

section
variable {buf : Memory} {stack : Nat → Memory} {len n i k : Nat} {pos p off src z o : Int} {x y : ParsePoint}

theorem span_inside (hn : 0 < n) : (∀ o ∈ span p n, 0 ≤ o ∧ o < (len : Int)) ↔ 0 ≤ p ∧ p + n ≤ len := by
  simp only [mem_span]
  constructor
  · intro h
    have h₁ := h p (by omega)
    have h₂ := h (p + n - 1) (by omega)
    omega
  · rintro ⟨h₁, h₂⟩ o ⟨h₃, h₄⟩
    omega

theorem Memory.Zips.nonneg (h : buf.Zips src n z) : 0 ≤ z := by
  induction h with
  | start | jump => exact Int.natCast_nonneg _
  | label _ _ _ ih => omega

/-! ### How the loops come to a point -/

/-- `packetParse` comes to question `i`. -/
def AtQuest (buf : Memory) (stack : Nat → Memory) (i : Nat) (pos : Int) : Prop :=
  ParsePoint.Comes buf stack (.quests i pos) ∧ i < buf.qdcount ∧ 12 ≤ pos

/-- `packetParse` comes to record `i`. -/
def AtAnswer (buf : Memory) (stack : Nat → Memory) (i : Nat) (pos : Int) : Prop :=
  ParsePoint.Comes buf stack (.answers i pos) ∧ i < buf.ancount ∧ 12 ≤ pos

theorem AtAnswer.behind (h : AtAnswer buf stack i pos) : 12 ≤ buf.behind pos :=
  h.2.2.trans (by unfold Memory.behind; omega)

namespace ParsePoint

/-- What is known at a point that `packetParse` comes to. -/
def Arrived (buf : Memory) (stack : Nat → Memory) : ParsePoint → Prop
  | header | done => True
  | quests _ pos | answers _ pos => 12 ≤ pos
  | strlen i pos k => AtQuest buf stack i pos ∧ ∀ j < k, buf (pos + j) ≠ 0
  | qname i pos k p =>
    AtQuest buf stack i pos ∧ (∀ j < k, buf (pos + j) ≠ 0) ∧ buf (pos + k) = 0 ∧ buf.Walk pos p
  | qtype i p => ∃ (pos : Int) (k : Nat), AtQuest buf stack i pos ∧ (∀ j < k, buf (pos + j) ≠ 0) ∧
    buf (pos + k) = 0 ∧ buf.WalkEnds pos ∧ p = pos + (k + 1)
  | record i pos | rdata i pos | text i pos _ _ => AtAnswer buf stack i pos
  | label i pos p => AtAnswer buf stack i pos ∧ buf.rtype pos = typeQname ∧ buf.Walk (pos + 12) p
  | expand i pos _ _ x => AtAnswer buf stack i pos ∧ IsName (buf.rtype pos) ∧ (isNamePtr x = true →
    buf.Zips (pos + 12 + nameSkip (buf.rtype pos)) (nameLen (buf.rtype pos) (buf.rdlen pos)) (getQnamePtr x).toNat)
  | zip i pos _ _ z => AtAnswer buf stack i pos ∧ IsName (buf.rtype pos) ∧
    buf.Zips (pos + 12 + nameSkip (buf.rtype pos)) (nameLen (buf.rtype pos) (buf.rdlen pos)) z

/-- The inner loop of `urlParse` ended without a pointer. -/
theorem arrived_stop {temp : Memory} (ha : AtAnswer buf stack i pos) (hn : IsName (buf.rtype pos)) :
    Arrived buf stack (expand i pos temp p 0) :=
  ⟨ha, hn, fun h => absurd h (by decide)⟩

theorem arrived_rdata (h : AtAnswer buf stack i pos) (hy : (rdata i pos).next buf stack = some y) :
    y.Arrived buf stack := by
  rw [ParsePoint.next] at hy
  dsimp only at hy
  split at hy
  case isTrue hq =>
    cases hy
    exact ⟨h, hq, .refl⟩
  case isFalse =>
    split at hy
    case isTrue hn =>
      cases hy
      exact ⟨h, hn, .start⟩
    case isFalse =>
      cases hy
      exact h.behind

theorem arrived_zip {temp : Memory} (ha : AtAnswer buf stack i pos) (hn : IsName (buf.rtype pos))
    (hz : buf.Zips (pos + 12 + nameSkip (buf.rtype pos)) (nameLen (buf.rtype pos) (buf.rdlen pos)) z)
    (hy : (zip i pos temp p z).next buf stack = some y) : y.Arrived buf stack := by
  rw [ParsePoint.next] at hy
  split at hy
  case isTrue =>
    cases hy
    exact arrived_stop ha hn
  case isFalse hne =>
    split at hy
    case isTrue hptr =>
      split at hy
      case isTrue hptr' =>
        cases hy
        exact ⟨ha, hn, fun _ => hz.jump hne hptr hptr'⟩
      case isFalse =>
        cases hy
        exact arrived_stop ha hn
    case isFalse hptr =>
      cases hy
      exact ⟨ha, hn, hz.label hne (Bool.eq_false_iff.2 hptr)⟩

theorem Arrived.next (hx : Comes buf stack x) (h : x.Arrived buf stack) (hy : x.next buf stack = some y) :
    y.Arrived buf stack := by
  cases x with
  | header =>
    cases hy
    exact Int.le_refl 12
  | quests i pos =>
    rw [ParsePoint.next] at hy
    split at hy
    case isTrue hi =>
      cases hy
      exact ⟨⟨hx, hi, h⟩, fun j hj => absurd hj (Nat.not_lt_zero j)⟩
    case isFalse =>
      split at hy
      · cases hy
        trivial
      · cases hy
        exact h
  | strlen i pos k =>
    obtain ⟨hq, hk⟩ := h
    rw [ParsePoint.next] at hy
    split at hy
    case isTrue h0 =>
      cases hy
      exact ⟨hq, hk, h0, .refl⟩
    case isFalse h0 =>
      cases hy
      refine ⟨hq, fun j hj => ?_⟩
      rcases Nat.lt_succ_iff_lt_or_eq.1 hj with hj | rfl
      · exact hk j hj
      · exact h0
  | qname i pos k p =>
    obtain ⟨hq, hk, hend, hwalk⟩ := h
    rw [ParsePoint.next] at hy
    split at hy
    case isTrue h0 =>
      cases hy
      exact ⟨pos, k, hq, hk, hend, ⟨p, hwalk, h0⟩, rfl⟩
    case isFalse h0 =>
      cases hy
      exact ⟨hq, hk, hend, hwalk.tail ⟨h0, rfl⟩⟩
  | qtype i p =>
    obtain ⟨pos, k, ⟨-, -, hpos⟩, -, -, -, rfl⟩ := h
    cases hy
    show (12 : Int) ≤ _
    omega
  | answers i pos =>
    rw [ParsePoint.next] at hy
    split at hy
    case isTrue hi =>
      cases hy
      exact ⟨hx, hi, h⟩
    case isFalse =>
      cases hy
      trivial
  | record i pos =>
    cases hy
    exact h
  | rdata i pos => exact arrived_rdata h hy
  | label i pos p =>
    obtain ⟨ha, hq, hwalk⟩ := h
    rw [ParsePoint.next] at hy
    split at hy
    case isTrue =>
      cases hy
      exact ha.behind
    case isFalse h0 =>
      cases hy
      exact ⟨ha, hq, hwalk.tail ⟨h0, rfl⟩⟩
  | expand i pos temp tempPos x =>
    obtain ⟨ha, hn, hz⟩ := h
    rw [ParsePoint.next] at hy
    split at hy
    case isTrue hx =>
      cases hy
      exact ⟨ha, hn, hz hx⟩
    case isFalse =>
      cases hy
      exact ha
  | zip i pos temp tempPos z => exact arrived_zip h.1 h.2.1 h.2.2 hy
  | text i pos temp p =>
    rw [ParsePoint.next] at hy
    split at hy
    case isTrue =>
      cases hy
      exact h.behind
    case isFalse =>
      cases hy
      exact h
  | done => cases hy

theorem Comes.arrived (h : Comes buf stack x) : x.Arrived buf stack := by
  induction h with
  | refl => trivial
  | tail h hy ih => exact ih.next h hy

end ParsePoint

/-! ### What is read is there -/

theorem labelReads_inside : (∀ o ∈ ParsePoint.labelReads buf off p, 0 ≤ o ∧ o < (len : Int)) ↔
    0 ≤ off + p ∧ off + p < len ∧ (buf (off + p) ≠ 0 → off + p + 1 + labelLen (buf (off + p)) ≤ len) := by
  unfold ParsePoint.labelReads
  by_cases h0 : buf (off + p) = 0
  · rw [if_pos h0, span_inside Nat.one_pos]
    simp only [h0, ne_eq, not_true_eq_false, false_implies, and_true]
    omega
  · rw [if_neg h0, span_inside (by omega)]
    simp only [ne_eq, h0, not_false_eq_true, forall_const]
    omega

theorem zipReads_inside (hz : 0 ≤ z) : (∀ o ∈ ParsePoint.zipReads buf z, 0 ≤ o ∧ o < (len : Int)) ↔
    z < len ∧ (buf z ≠ 0 → z + (if isNamePtr (buf.word z) then 4 else (buf z).toNat + 1 : Nat) ≤ len) := by
  by_cases h0 : buf z = 0
  · simp [ParsePoint.zipReads, h0, hz]
  · have hpos : 0 < (buf z).toNat := Nat.pos_of_ne_zero fun h => h0 (UInt8.toNat_inj.1 h)
    simp only [ne_eq, h0, not_false_eq_true, forall_const]
    by_cases hx : isNamePtr (buf.word z) = true
    · simp only [ParsePoint.zipReads_pointer h0 hx, if_pos hx, List.forall_mem_append,
        span_inside (show 0 < 2 by decide)]
      omega
    · simp only [ParsePoint.zipReads_label h0 hx, if_neg hx, List.forall_mem_append,
        span_inside (show 0 < 2 by decide), span_inside (Nat.succ_pos _)]
      omega

/-- What `urlParse` reads before its loops. -/
theorem rdataReads_inside {type rdlen : UInt16} (hsrc : 2 ≤ src ∧ src ≤ len) :
    (∀ o ∈ ParsePoint.rdataReads src type rdlen, 0 ≤ o ∧ o < (len : Int)) ↔ (type = typeA → src + 4 ≤ len) ∧
      (type = typeAaaa → src + 16 ≤ len) ∧ (IsName type → src + nameSkip type + nameLen type rdlen ≤ len) := by
  unfold ParsePoint.rdataReads IsName
  by_cases hq : type = typeQname
  · subst hq
    simp [typeQname, typeA, typeAaaa, typeCname, typeMx, typeNs]
  rw [if_neg hq]
  by_cases ha : type = typeA
  · subst ha
    rw [if_pos rfl, span_inside (by decide)]
    simp [typeA, typeAaaa, typeCname, typeMx, typeNs]
    omega
  rw [if_neg ha]
  by_cases haaaa : type = typeAaaa
  · subst haaaa
    rw [if_pos rfl, span_inside (by decide)]
    simp [typeA, typeAaaa, typeCname, typeMx, typeNs]
    omega
  rw [if_neg haaaa]
  by_cases hn : type = typeCname ∨ type = typeMx ∨ type = typeNs
  · have hskip := nameSkip_le type
    rw [if_pos hn]
    simp only [List.forall_mem_append, span_inside (show 0 < 2 by decide), ha, haaaa, hn, false_implies, true_and,
      forall_const]
    constructor
    · rintro ⟨hpref, hname, hlast⟩
      rcases Nat.eq_zero_or_pos (nameLen type rdlen) with h0 | hpos
      · rw [h0] at hlast ⊢
        omega
      · exact ((span_inside hpos).1 hname).2
    · intro h
      refine ⟨fun o ho => ?_, fun o ho => ?_, by omega⟩
      all_goals
        rw [mem_span] at ho
        omega
  · simp [hn, ha, haaaa]

/-! ### The loops -/

/-- Where there is no NUL `strlen` goes on. -/
theorem comes_strlen (hq : ParsePoint.Comes buf stack (.quests i pos)) (hi : i < buf.qdcount)
    (hk : ∀ j < k, buf (pos + j) ≠ 0) : ParsePoint.Comes buf stack (.strlen i pos k) := by
  induction k with
  | zero => exact hq.tail (if_pos hi)
  | succ k ih => exact (ih fun j hj => hk j (Nat.lt_succ_of_lt hj)).tail (if_neg (hk k (Nat.lt_succ_self k)))

theorem comes_qname (hs : ParsePoint.Comes buf stack (.strlen i pos k)) (h0 : buf (pos + k) = 0)
    (hwalk : buf.Walk pos p) : ParsePoint.Comes buf stack (.qname i pos k p) := by
  induction hwalk with
  | refl => exact hs.tail (if_pos h0)
  | @tail p q _ hround ih =>
    obtain ⟨hne, rfl⟩ := hround
    exact ih.tail (if_neg hne)

theorem comes_rdata (ha : ParsePoint.Comes buf stack (.answers i pos)) (hi : i < buf.ancount) :
    ParsePoint.Comes buf stack (.rdata i pos) := by
  have hrecord : ParsePoint.Comes buf stack (.record i pos) := ha.tail (if_pos hi)
  exact hrecord.tail rfl

theorem comes_label (hr : ParsePoint.Comes buf stack (.rdata i pos)) (hq : buf.rtype pos = typeQname)
    (hwalk : buf.Walk (pos + 12) p) : ParsePoint.Comes buf stack (.label i pos p) := by
  induction hwalk with
  | refl => exact hr.tail (if_pos hq)
  | @tail p q _ hround ih =>
    obtain ⟨hne, rfl⟩ := hround
    exact ih.tail (if_neg hne)

theorem comes_zip (hr : ParsePoint.Comes buf stack (.rdata i pos)) (hn : IsName (buf.rtype pos))
    (hz : buf.Zips (pos + 12 + nameSkip (buf.rtype pos)) (nameLen (buf.rtype pos) (buf.rdlen pos)) z) :
    ∃ temp tempPos, ParsePoint.Comes buf stack (.zip i pos temp tempPos z) := by
  have hq : buf.rtype pos ≠ typeQname := by
    rcases hn with h | h | h <;> rw [h] <;> decide
  induction hz with
  | start hx =>
    have hexpand : ParsePoint.next buf stack (.rdata i pos) = _ := (if_neg hq).trans (if_pos hn)
    have hcome := hr.tail hexpand
    exact ⟨_, _, hcome.tail (if_pos hx)⟩
  | label _ h0 hx ih =>
    obtain ⟨temp, tempPos, ih⟩ := ih
    exact ⟨_, _, ih.tail ((if_neg h0).trans (if_neg (Bool.eq_false_iff.1 hx)))⟩
  | jump _ h0 hx hy ih =>
    obtain ⟨temp, tempPos, ih⟩ := ih
    have hexpand := ih.tail ((if_neg h0).trans ((if_pos hx).trans (if_pos hy)))
    exact ⟨_, _, hexpand.tail (if_pos hx)⟩

/-! ### The packet -/

theorem Contained.inside (h : Contained buf stack len) (hx : ParsePoint.Comes buf stack x) :
    ∀ o ∈ x.reads buf, 0 ≤ o ∧ o < (len : Int) := by
  have harr := hx.arrived
  cases x with
  | header => exact (span_inside (by decide)).2 ⟨Int.le_refl 0, by have := h.header; omega⟩
  | strlen i pos k =>
    obtain ⟨⟨hq, hi, hpos⟩, hk⟩ := harr
    obtain ⟨k', hk', h0, hlt, -⟩ := h.quest i pos hq hi
    have hle : k ≤ k' := Nat.not_lt.1 fun hlt => hk k' hlt h0
    intro o ho
    obtain rfl := List.mem_singleton.1 ho
    omega
  | qname i pos k p =>
    obtain ⟨⟨hq, hi, -⟩, -, -, hwalk⟩ := harr
    obtain ⟨-, -, -, -, hinside, -⟩ := h.quest i pos hq hi
    exact labelReads_inside.2 (hinside p hwalk)
  | qtype i p =>
    obtain ⟨pos, k, ⟨hq, hi, hpos⟩, hk, h0, hends, rfl⟩ := harr
    obtain ⟨k', hk', h0', -, -, hle⟩ := h.quest i pos hq hi
    obtain rfl : k = k' := by
      rcases Nat.lt_trichotomy k k' with hlt | rfl | hlt
      · exact absurd h0 (hk' k hlt)
      · rfl
      · exact absurd h0' (hk k' hlt)
    have := hle hends
    exact (span_inside (by decide)).2 ⟨by omega, by omega⟩
  | record i pos =>
    obtain ⟨ha, hi, hpos⟩ := harr
    have := (h.answer i pos ha hi).1
    exact (span_inside (by decide)).2 ⟨by omega, by omega⟩
  | rdata i pos =>
    obtain ⟨ha, hi, hpos⟩ := harr
    obtain ⟨hle, hr⟩ := h.answer i pos ha hi
    exact (rdataReads_inside ⟨by omega, hle⟩).2 ⟨hr.a, hr.aaaa, hr.name⟩
  | label i pos p =>
    obtain ⟨⟨ha, hi, -⟩, hq, hwalk⟩ := harr
    exact labelReads_inside.2 ((h.answer i pos ha hi).2.qname hq p hwalk)
  | zip i pos temp tempPos z =>
    obtain ⟨⟨ha, hi, -⟩, hn, hz⟩ := harr
    exact (zipReads_inside hz.nonneg).2 ((h.answer i pos ha hi).2.way hn z hz)
  | quests | answers | expand | text | done => exact fun o ho => absurd ho List.not_mem_nil

section
variable (h : ∀ x, ParsePoint.Comes buf stack x → ∀ o ∈ x.reads buf, 0 ≤ o ∧ o < (len : Int))
include h

theorem questInside_of_reads (hq : ParsePoint.Comes buf stack (.quests i pos)) (hi : i < buf.qdcount) :
    QuestInside buf len pos := by
  have hpos : 12 ≤ pos := hq.arrived
  -- `strlen` would read behind the datagram if it found no NUL there
  have hexists : ∃ k : Nat, buf (pos + k) = 0 := by
    by_contra hno
    have := h _ (comes_strlen (k := len) hq hi fun j _ hj => hno ⟨j, hj⟩) (pos + len) List.mem_cons_self
    omega
  classical
  have hk : ∀ j < Nat.find hexists, buf (pos + j) ≠ 0 := fun j hj => Nat.find_min hexists hj
  have h0 := Nat.find_spec hexists
  generalize Nat.find hexists = k at hk h0
  have hs := comes_strlen hq hi hk
  refine ⟨k, hk, h0, (h _ hs (pos + k) List.mem_cons_self).2, fun p hwalk => ?_, fun ⟨p, hwalk, hend⟩ => ?_⟩
  · exact labelReads_inside.1 (h _ (comes_qname hs h0 hwalk))
  · have hn := comes_qname hs h0 hwalk
    have htype : ParsePoint.Comes buf stack (.qtype i (pos + (k + 1))) := hn.tail (if_pos hend)
    have := ((span_inside (by decide)).1 (h _ htype)).2
    omega

theorem answerInside_of_reads (ha : ParsePoint.Comes buf stack (.answers i pos)) (hi : i < buf.ancount) :
    AnswerInside buf len pos := by
  have hpos : 12 ≤ pos := ha.arrived
  have hrecord : ParsePoint.Comes buf stack (.record i pos) := ha.tail (if_pos hi)
  have hle : pos + 12 ≤ len := ((span_inside (by decide)).1 (h _ hrecord)).2
  have hr := comes_rdata ha hi
  obtain ⟨h₁, h₂, h₃⟩ := (rdataReads_inside ⟨by omega, hle⟩).1 (h _ hr)
  refine ⟨hle, fun hq p hwalk => ?_, h₁, h₂, h₃, fun hn z hz => ?_⟩
  · exact labelReads_inside.1 (h _ (comes_label hr hq hwalk))
  · obtain ⟨temp, tempPos, hcome⟩ := comes_zip hr hn hz
    exact (zipReads_inside hz.nonneg).1 (h _ hcome)

end

/-- `packetParse` reads nothing but the datagram if and only if every question and every record that it comes to is
inside. -/
theorem packetParse_contained (buf : Memory) (stack : Nat → Memory) (len : Nat) :
    (∀ o, ReadsAt buf stack o → 0 ≤ o ∧ o < len) ↔ Contained buf stack len := by
  constructor
  · intro hall
    have h : ∀ x, ParsePoint.Comes buf stack x → ∀ o ∈ x.reads buf, 0 ≤ o ∧ o < (len : Int) := fun x hx o ho =>
      hall o ⟨x, hx, ho⟩
    refine ⟨?_, fun i pos hq hi => questInside_of_reads h hq hi, fun i pos ha hi => answerInside_of_reads h ha hi⟩
    have := ((span_inside (by decide)).1 (h .header .refl)).2
    omega
  · rintro h o ⟨x, hx, ho⟩
    exact h.inside hx o ho

/-- The point after `n` rounds. -/
def ParsePoint.after (buf : Memory) (stack : Nat → Memory) : Nat → Option ParsePoint
  | 0 => some .header
  | n + 1 => (after buf stack n).bind (ParsePoint.next buf stack)

theorem ReadsAt.of_after (n : Nat) (h : (ParsePoint.after buf stack n).any (fun x => o ∈ x.reads buf) = true) :
    ReadsAt buf stack o := by
  have hcomes : ∀ {n x}, ParsePoint.after buf stack n = some x → ParsePoint.Comes buf stack x := by
    intro n
    induction n with
    | zero =>
      intro x hx
      cases hx
      exact .refl
    | succ n ih =>
      intro x hx
      obtain ⟨y, hy, hnext⟩ := Option.bind_eq_some_iff.1 hx
      exact (ih hy).tail hnext
  obtain ⟨x, hx, ho⟩ := (Option.any_eq_true _ _).1 h
  exact ⟨x, hcomes hx, of_decide_eq_true ho⟩

end

/-- A datagram among zero bytes. -/
def Memory.around (m : List UInt8) : Memory := fun p => if 0 ≤ p then m.getD p.toNat 0 else 0

theorem Memory.around_shows (m : List UInt8) : (Memory.around m).Shows m := by
  intro p b h
  obtain ⟨k, rfl⟩ := Int.eq_ofNat_of_zero_le (load_inside h).1
  have hk : m[k]? = some b := load_ok.1 h
  rw [around, if_pos (Int.natCast_nonneg k), Int.toNat_natCast, List.getD_eq_getElem?_getD, hk]
  rfl

/-- Fresh memory that reads as zero, also behind `temp`. -/
def Stale.long : Stale := { Stale.zero with temp := fun _ => List.replicate 257 0 }

theorem Stale.long_holds (i : Nat) :
    Memory.Holds (fun _ => 0) 257 (Block.fresh 255 (Stale.long.temp i)) where
  shows p b h := by
    obtain ⟨k, rfl⟩ := Int.eq_ofNat_of_zero_le (load_inside h).1
    have hb := List.mem_of_getElem? (load_ok.1 h)
    rcases List.mem_append.1 hb with hb | hb
    all_goals exact (List.mem_replicate.1 hb).2.symm
  length := by
    rw [Block.fresh, List.length_append]
    exact Nat.le_add_right_of_le (Nat.le_of_eq List.length_replicate.symm)

/-- A response with two questions; a `CNAME` record of which the name ends in a pointer, and an address. -/
def aliasResponse : List UInt8 :=
  Header.encode ⟨0x1234, 0x8180, 2, 2, 0, 0⟩ ++ questBytes [questFor typeCname 97, questFor typeA 98] ++
    WireRecord.encode ⟨[0xc0, 12], typeCname, 1, 60, [1, 119, 0xc0, 12]⟩ ++
      WireRecord.encode ⟨[0xc0, 19], typeA, 1, 60, [6, 6, 6, 6]⟩

theorem packetParse_contained_alias :
    Contained (.around aliasResponse) (fun _ _ => 0) aliasResponse.length := by
  have hok : (packetParse .decimal .long aliasResponse 0).toOption.isSome = true := by decide +kernel
  cases hp : packetParse .decimal .long aliasResponse 0 with
  | error e =>
    rw [hp] at hok
    cases hok
  | ok p =>
    refine (packetParse_contained _ _ _).1 fun o ho => ?_
    exact reads_of_packetParse_ok .decimal (Memory.around_shows _) Stale.long_holds hp ho

/-- A header that announces a question, and nothing behind it. -/
def headerOnly : List UInt8 := Header.encode ⟨0x1234, 0x100, 1, 0, 0, 0⟩

/-- A response whose record announces `rdlen` bytes and has `rdata`. -/
def shortRecord (rdlen : UInt16) (rdata : List UInt8) : List UInt8 :=
  Header.encode ⟨0x1234, 0x8180, 0, 1, 0, 0⟩ ++
    (be16 0xc00c ++ be16 typeCname ++ be16 1 ++ be32 60 ++ be16 rdlen ++ rdata)

/-- A request with a name, and no type behind it. -/
def bareName (name : List UInt8) : List UInt8 := headerOnly ++ name

/-- Labels of 60 and 10 letters. -/
def longName : List UInt8 := 60 :: List.replicate 60 97 ++ 10 :: List.replicate 10 97 ++ [0]

/-- Nothing behind the header; four bytes of RDATA missing; RDATA that overflows `temp` on the way; the root, for which
`inetParse` writes in front of `QNAME`; and a name that does not fit `QNAME`. -/
theorem packetParse_reads_behind :
    (headerOnly.length = 12 ∧ ReadsAt (.around headerOnly) (fun _ _ => 0) 12) ∧
    ((shortRecord 7 [1, 97, 0]).length = 27 ∧ ReadsAt (.around (shortRecord 7 [1, 97, 0])) (fun _ _ => 0) 27) ∧
    ((shortRecord 300 (List.replicate 256 1)).length = 280 ∧
      ReadsAt (.around (shortRecord 300 (List.replicate 256 1))) (fun _ _ => 0) 280) ∧
    ((bareName [0]).length = 13 ∧ ReadsAt (.around (bareName [0])) (fun _ _ => 0) 13) ∧
    (bareName longName).length = 85 ∧ ReadsAt (.around (bareName longName)) (fun _ _ => 0) 85 := by
  refine ⟨⟨rfl, .of_after 2 ?_⟩, ⟨rfl, .of_after 4 ?_⟩, ⟨?_, .of_after 4 ?_⟩, ⟨rfl, .of_after 4 ?_⟩, rfl,
    .of_after 78 ?_⟩
  all_goals decide +kernel

end DnsRelay
