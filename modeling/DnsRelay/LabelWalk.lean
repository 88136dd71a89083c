import Mathlib.Data.Finset.Range
import DnsRelay.Lib.Fuel
import DnsRelay.Message

/-!
# Progress of the label walk

The loop of `inetParse` for `AF_MAX` reads a length byte as a signed `char` and bounds it from above
only. `LabelStep` is one round of it in memory that ends, with a buffer of given size. `LabelRound` leads
from the position of one round to that of the next wherever there is memory; the rounds go forward, and so
come to their end, if and only if no byte from 0x80 on is taken for a length.
-/

namespace DnsRelay
open ByteSeq Exec Relation

/-- `len` for the length byte `c`. -/
def labelLen (c : UInt8) : Int := if schar c > 64 then 64 else schar c

/-! ### The walk between two buffers

In memory that ends and a buffer of given size the walk may also end with a read behind the one or a
write outside the other. -/

/-- A round of the loop: the label can be read, and it fits with its `.`. -/
inductive LabelStep (src : List UInt8) (off size : Nat) (p : Int) : Int → Prop
  | mk {c : UInt8} (hc : load src (off + p) = .ok c) (h0 : c ≠ 0)
      (hmem : (labelLen c).toNat ≤ src.length - (off + p + 1).toNat) (hroom : (labelLen c).toNat ≤ room size p)
      (hdot : 0 < room size (p + labelLen c)) : LabelStep src off size p (p + (labelLen c + 1))

/-- How the loop ends at `p`. -/
inductive LabelEnds (src : List UInt8) (off size : Nat) (p : Int) : Exec Unit → Prop
  | stop (hc : load src (off + p) = .ok 0) : LabelEnds src off size p (.ok ())
  | unread (hc : load src (off + p) = .error .read) : LabelEnds src off size p (.error .read)
  | unreadLabel {c : UInt8} (hc : load src (off + p) = .ok c) (h0 : c ≠ 0)
      (hmem : src.length - (off + p + 1).toNat < (labelLen c).toNat)
      (hroom : src.length - (off + p + 1).toNat ≤ room size p) : LabelEnds src off size p (.error .read)
  | full {c : UInt8} (hc : load src (off + p) = .ok c) (h0 : c ≠ 0) (hroom : room size p < (labelLen c).toNat)
      (hmem : room size p < src.length - (off + p + 1).toNat) : LabelEnds src off size p (.error .write)
  | fullDot {c : UInt8} (hc : load src (off + p) = .ok c) (h0 : c ≠ 0)
      (hmem : (labelLen c).toNat ≤ src.length - (off + p + 1).toNat) (hroom : (labelLen c).toNat ≤ room size p)
      (hdot : room size (p + labelLen c) = 0) : LabelEnds src off size p (.error .write)

section
variable {src : List UInt8} {off size n fuel : Nat} {p q : Int} {dest dest' : Block} {e e' : Exec Unit}

theorem labels_deterministic (src : List UInt8) (off size : Nat) :
    Fuel.Deterministic (LabelStep src off size) (LabelEnds src off size) where
  next_unique := by
    rintro p _ _ ⟨hc, -⟩ ⟨hc', -⟩
    cases hc.symm.trans hc'
    rfl
  end_stuck := by
    rintro p p' e hend ⟨hc, h0, hmem, hroom, hdot⟩
    cases hend with
    | stop hc' => cases hc.symm.trans hc'; exact h0 rfl
    | unread hc' => cases hc.symm.trans hc'
    | unreadLabel hc' | full hc' | fullDot hc' => cases hc.symm.trans hc'; omega
  end_unique := by
    intro p e e' h h'
    cases h with
    | stop hc =>
      cases h' with
      | stop => rfl
      | unread hc' => cases hc.symm.trans hc'
      | unreadLabel hc' h0 | full hc' h0 | fullDot hc' h0 => cases hc.symm.trans hc'; exact absurd rfl h0
    | unread hc =>
      cases h' with
      | unread => rfl
      | stop hc' | unreadLabel hc' | full hc' | fullDot hc' => cases hc.symm.trans hc'
    | unreadLabel hc h0 =>
      cases h' with
      | stop hc' => cases hc.symm.trans hc'; exact absurd rfl h0
      | unread => rfl
      | unreadLabel => rfl
      | full hc' | fullDot hc' => cases hc.symm.trans hc'; omega
    | full hc h0 | fullDot hc h0 =>
      cases h' with
      | stop hc' => cases hc.symm.trans hc'; exact absurd rfl h0
      | unread hc' => cases hc.symm.trans hc'
      | unreadLabel hc' => cases hc.symm.trans hc'; omega
      | full => rfl
      | fullDot => rfl

theorem labelWalk_succ (src : List UInt8) (off : Int) (fuel : Nat) (p : Int) (dest : Block) :
    labelWalk src off (fuel + 1) p dest = (do
      let c ← load src (off + p)
      if c = 0 then
        return (p, dest)
      let dest ← dest.copy p src (off + p + 1) (labelLen c).toNat
      let dest ← dest.store (p + labelLen c) dot
      labelWalk src off fuel (p + (labelLen c + 1)) dest) := rfl

/-- One round of the loop. -/
theorem labelWalk_next (src : List UInt8) (off : Nat) (hp : 0 ≤ p) (hsize : dest.size = size) :
    (∃ p' dest', LabelStep src off size p p' ∧ dest'.size = size ∧
      ∀ fuel, labelWalk src off (fuel + 1) p dest = labelWalk src off fuel p' dest') ∨
    ∃ e, LabelEnds src off size p e ∧ ∀ fuel, outcome (labelWalk src off (fuel + 1) p dest) = some e := by
  simp only [labelWalk_succ]
  cases hc : load src (off + p) with
  | error f =>
    obtain rfl := load_fault hc
    exact .inr ⟨_, .unread hc, fun _ => rfl⟩
  | ok c =>
    by_cases h0 : c = 0
    · subst h0
      exact .inr ⟨_, .stop hc, fun _ => rfl⟩
    obtain ⟨hok, hread, hwrite⟩ := Block.copy_room dest p src (off + p + 1).toNat (labelLen c).toNat
    rw [hsize, show (((off + p + 1).toNat : Nat) : Int) = off + p + 1 by omega] at hok hread hwrite
    simp only [ok_bind, if_neg h0]
    by_cases hfull : room size p < (labelLen c).toNat ∧ room size p < src.length - (off + p + 1).toNat
    · exact .inr ⟨_, .full hc h0 hfull.1 hfull.2, fun _ => by rw [hwrite hfull.1 hfull.2]; rfl⟩
    by_cases hcut : src.length - (off + p + 1).toNat < (labelLen c).toNat
    · have hle : src.length - (off + p + 1).toNat ≤ room size p := by omega
      exact .inr ⟨_, .unreadLabel hc h0 hcut hle, fun _ => by rw [hread hcut hle]; rfl⟩
    have hfits : (labelLen c).toNat ≤ room size p := by omega
    obtain ⟨d₁, hd₁, hcopy⟩ := hok (Nat.not_lt.1 hcut) hfits
    rcases Nat.eq_zero_or_pos (room size (p + labelLen c)) with hz | hdot
    · refine .inr ⟨_, .fullDot hc h0 (Nat.not_lt.1 hcut) hfits hz, fun _ => ?_⟩
      rw [hcopy, ok_bind, Block.store_full dot (by rw [hd₁, hz])]
      rfl
    · obtain ⟨d₂, hd₂, hstore⟩ := Block.store_room (b := d₁) (p := p + labelLen c) dot (by rw [hd₁]; exact hdot)
      refine .inl ⟨_, d₂, .mk hc h0 (Nat.not_lt.1 hcut) hfits hdot, hd₂.trans hd₁, fun _ => ?_⟩
      rw [hcopy, ok_bind, hstore, ok_bind]

/-- The loop stays in the buffer, or ends right behind it. -/
theorem LabelStep.le (h : LabelStep src off size p q) : 1 ≤ q ∧ q ≤ size := by
  obtain ⟨-, -, -, -, hdot⟩ := h
  have := room_pos hdot
  omega

theorem labelSteps_le (h : ReflTransGen (LabelStep src off size) 0 p) : 0 ≤ p ∧ p ≤ size := by
  rcases ReflTransGen.cases_tail h with rfl | ⟨_, -, h⟩
  · omega
  · have := h.le
    omega

/-- With `n` rounds of the loop at `p` the result is `r`. -/
def LabelRun (src : List UInt8) (off size n : Nat) (p : Int) (r : Option (Exec Unit)) : Prop :=
  (0 ≤ p ∧ p ≤ size) ∧ ∃ dest : Block, dest.size = size ∧ outcome (labelWalk src off n p dest) = r

theorem labels_rounds (src : List UInt8) (off size : Nat) :
    Fuel.Rounds (LabelStep src off size) (LabelEnds src off size) (LabelRun src off size) where
  zero := by
    rintro p r ⟨-, dest, -, rfl⟩
    exact .inl rfl
  succ := by
    rintro n p r ⟨⟨hp, -⟩, dest, hsize, rfl⟩
    rcases labelWalk_next src off hp hsize with ⟨p', dest', hstep, hsize', heq⟩ | ⟨e, hend, he⟩
    · have := hstep.le
      exact .inl ⟨p', .single hstep, ⟨by omega, this.2⟩, dest', hsize', by rw [heq]⟩
    · exact .inr ⟨p, e, .refl, hend, he n⟩

/-- The loop of the model comes to its end, if it has one. -/
theorem labelWalk_end (src : List UInt8) (off : Nat) (hsize : dest.size = size) (e : Exec Unit) :
    outcome (labelWalk src off (size + 2) 0 dest) = some e ↔
      ∃ p, ReflTransGen (LabelStep src off size) 0 p ∧ LabelEnds src off size p e := by
  let U := (Finset.range (size + 1)).image fun n : Nat => (n : Int)
  have hU : ∀ n p r, LabelRun src off size n p r → p ∈ U := by
    rintro n p r ⟨⟨hp, hle⟩, -⟩
    exact Finset.mem_image.2 ⟨p.toNat, Finset.mem_range.2 (by omega), Int.toNat_of_nonneg hp⟩
  have hcard : U.card ≤ size + 2 := by
    refine Nat.le_trans Finset.card_image_le ?_
    rw [Finset.card_range]
    omega
  exact (labels_deterministic src off size).eq_some_iff (labels_rounds src off size) U hU hcard
    ⟨⟨Int.le_refl 0, by omega⟩, dest, hsize, rfl⟩

/-- Where the loop returns, it has come to a NUL. -/
theorem labelWalk_ok (hp : 0 ≤ p) (hsize : dest.size = size) (h : labelWalk src off fuel p dest = .ok (q, dest')) :
    ReflTransGen (LabelStep src off size) p q ∧ load src (off + q) = .ok 0 ∧ dest'.size = size := by
  induction fuel generalizing p dest with
  | zero => cases h
  | succ fuel ih =>
    rcases labelWalk_next src off hp hsize with ⟨p', d, hstep, hd, heq⟩ | ⟨e, hend, he⟩
    · rw [heq] at h
      have := hstep.le
      obtain ⟨hsteps, hrest⟩ := ih (by omega) hd h
      exact ⟨.head hstep hsteps, hrest⟩
    · have he := he fuel
      rw [h] at he
      cases he
      cases hend with
      | stop hc =>
        rw [labelWalk_succ, hc, ok_bind, if_pos rfl] at h
        cases h
        exact ⟨.refl, hc, hsize⟩

/-- Where the loop comes to a NUL, it returns. -/
theorem labelWalk_stop (hsize : dest.size = size) (hsteps : ReflTransGen (LabelStep src off size) 0 q)
    (h0 : load src (off + q) = .ok 0) : ∃ d, labelWalk src off (size + 2) 0 dest = .ok (q, d) ∧ d.size = size := by
  have hend := (labelWalk_end src off hsize (.ok ())).2 ⟨q, hsteps, .stop h0⟩
  cases hwalk : labelWalk src off (size + 2) 0 dest with
  | error f => rw [hwalk] at hend; cases f <;> cases hend
  | ok r =>
    obtain ⟨q', d⟩ := r
    obtain ⟨hsteps', h0', hd⟩ := labelWalk_ok (Int.le_refl 0) hsize hwalk
    obtain rfl := (labels_deterministic src off size).unique_place hsteps (.stop h0) hsteps' (.stop h0')
    exact ⟨d, rfl, hd⟩

/-- `inetParse` reads behind the memory if and only if its loop does. -/
theorem inetParse_max_read (C : Libc) (src : List UInt8) (off : Nat) (hsize : dest.size = size) :
    inetParse C .max src off dest = .error .read ↔
      ∃ p, ReflTransGen (LabelStep src off size) 0 p ∧ LabelEnds src off size p (.error .read) := by
  rw [← labelWalk_end src off hsize, outcome_eq_error (by decide), inetParse, hsize]
  cases hwalk : labelWalk src off (size + 2) 0 dest with
  | error f => exact ⟨fun h => by cases h; rfl, fun h => by cases h; rfl⟩
  | ok r =>
    refine ⟨fun h => ?_, fun h => by cases h⟩
    rw [ok_bind] at h
    rcases Nat.eq_zero_or_pos (room r.2.size (r.1 - 1)) with hz | hpos
    · cases (Block.store_full 0 hz).symm.trans h
    · obtain ⟨b, -, hb⟩ := Block.store_room (b := r.2) (p := r.1 - 1) 0 hpos
      cases hb.symm.trans h

/-- It returns if and only if its loop comes to a NUL behind a label. -/
theorem inetParse_max_ok (C : Libc) (src : List UInt8) (off : Nat) (hsize : dest.size = size) :
    (∃ d, inetParse C .max src off dest = .ok d) ↔
      ∃ p, 1 ≤ p ∧ ReflTransGen (LabelStep src off size) 0 p ∧ load src (off + p) = .ok 0 := by
  constructor
  · rintro ⟨d, h⟩
    obtain ⟨⟨q, d₁⟩, hwalk, hstore⟩ := bind_ok.1 h
    obtain ⟨hsteps, h0, hsize'⟩ := labelWalk_ok (Int.le_refl 0) hsize hwalk
    refine ⟨q, ?_, hsteps, h0⟩
    by_contra hlt
    cases (Block.store_neg 0 (by omega)).symm.trans (show d₁.store (q - 1) 0 = .ok d from hstore)
  · rintro ⟨p, hp, hsteps, h0⟩
    obtain ⟨d₁, hwalk, hd₁⟩ := labelWalk_stop hsize hsteps h0
    have hle := (labelSteps_le hsteps).2
    obtain ⟨d, -, hstore⟩ := Block.store_room (b := d₁) (p := p - 1) 0 (by rw [room_eq (by omega)]; omega)
    exact ⟨d, by rw [inetParse, hsize, hwalk, ok_bind]; exact hstore⟩

end

/-! ### Progress -/

/-- `url_src[p]`, where `url_src` is `s` with zero bytes behind it. -/
def byteAt (s : List UInt8) (p : Int) : Option UInt8 := if p < 0 then none else some (s.getD p.toNat 0)

/-- A round of the loop that finds `pos = p` sets it to `p'`. -/
def LabelRound (s : List UInt8) (p p' : Int) : Prop :=
  ∃ c, byteAt s p = some c ∧ c ≠ 0 ∧ p' = p + (labelLen c + 1)

/-- The loop comes to the position `p`. -/
def Walked (s : List UInt8) (p : Int) : Prop := ReflTransGen (LabelRound s) 0 p

/-- The loop goes forward from round to round to a NUL; it reads no byte and writes no `.` at a negative
index. -/
structure Progress (s : List UInt8) : Prop where
  forward : ∀ p p', Walked s p → LabelRound s p p' → p < p'
  read : ∀ p, Walked s p → 0 ≤ p
  dots : ∀ p c, Walked s p → byteAt s p = some c → c ≠ 0 → 0 ≤ p + labelLen c
  stops : ∃ p, Walked s p ∧ byteAt s p = some 0

section
variable {s m : List UInt8} {c : UInt8} {p p' : Int} {off : Nat} {dest : Block}

theorem labelLen_pos (h0 : c ≠ 0) (h : c.toNat < 128) : 0 < labelLen c := by
  have hpos : 0 < c.toNat := Nat.pos_of_ne_zero fun h => h0 (UInt8.toNat_inj.1 h)
  unfold labelLen schar
  rw [if_pos h]
  split <;> omega

theorem labelLen_neg (h : 128 ≤ c.toNat) : labelLen c < 0 := by
  have := c.toNat_lt
  unfold labelLen schar
  rw [if_neg (by omega)]
  split <;> omega

theorem labelLen_le (c : UInt8) : labelLen c ≤ 64 := by
  unfold labelLen
  split <;> omega

theorem byteAt_nonneg (hp : 0 ≤ p) : byteAt s p = some (s.getD p.toNat 0) := if_neg (by omega)

/-- What the loop finds in memory that holds `s` and zero bytes. -/
theorem load_byteAt (hm : At m off (s ++ List.replicate 65 0)) (hp : 0 ≤ p) (hle : p ≤ s.length + 64) :
    load m (off + p) = .ok (s.getD p.toNat 0) := by
  obtain ⟨n, rfl⟩ := Int.eq_ofNat_of_zero_le hp
  have hn := hm n (by rw [List.length_append, List.length_replicate]; omega)
  refine load_ok (p := off + n).2 (hn.trans ?_)
  rw [Int.toNat_natCast, List.getD_eq_getElem?_getD]
  rcases Nat.lt_or_ge n s.length with hlt | hge
  · rw [List.getElem?_append_left hlt, List.getElem?_eq_getElem hlt]
    rfl
  · rw [List.getElem?_append_right hge, List.getElem?_replicate, if_pos (by omega), List.getElem?_eq_none hge]
    rfl

/-- Behind `s` stand zero bytes. -/
theorem lt_length_of_ne_zero (h : byteAt s p = some c) (h0 : c ≠ 0) : 0 ≤ p ∧ p < s.length := by
  unfold byteAt at h
  split at h
  · cases h
  · refine ⟨by omega, ?_⟩
    by_contra hge
    rw [List.getD_eq_getElem?_getD, List.getElem?_eq_none (by omega)] at h
    exact h0 (Option.some.inj h).symm

theorem walked_le (h : Walked s p) : p ≤ s.length + 64 := by
  rcases ReflTransGen.cases_tail h with rfl | ⟨a, -, c, hc, h0, rfl⟩
  · omega
  · have := (lt_length_of_ne_zero hc h0).2
    have := labelLen_le c
    omega

/-- The bytes that are taken for a length. -/
def LengthByte (s : List UInt8) (c : UInt8) : Prop := ∃ p, Walked s p ∧ byteAt s p = some c

section
variable (hs : ∀ c, LengthByte s c → c.toNat < 128)
include hs

theorem walked_nonneg (h : Walked s p) : 0 ≤ p := by
  induction h with
  | refl => exact Int.le_refl 0
  | @tail a b hwalk h ih =>
    obtain ⟨c, hc, h0, rfl⟩ := h
    have := labelLen_pos h0 (hs c ⟨a, hwalk, hc⟩)
    omega

/-- Where the loop is not at its end, it goes forward. -/
theorem walked_next (h : Walked s p) (hc : byteAt s p = some c) (h0 : c ≠ 0) :
    Walked s (p + (labelLen c + 1)) ∧ 0 < labelLen c :=
  ⟨h.tail ⟨c, hc, h0, rfl⟩, labelLen_pos h0 (hs c ⟨p, h, hc⟩)⟩

/-- The loop comes to its end. -/
theorem walked_stops (h : Walked s p) : ∃ q, Walked s q ∧ byteAt s q = some 0 := by
  have hp := walked_nonneg hs h
  have hbyte := byteAt_nonneg (s := s) hp
  -- the bytes of `s` in front of the position become fewer
  induction hn : (s.length - p).toNat using Nat.strong_induction_on generalizing p with
  | _ n ih =>
    by_cases h0 : s.getD p.toNat 0 = 0
    · exact ⟨p, h, h0 ▸ hbyte⟩
    · obtain ⟨hnext, hpos⟩ := walked_next hs h hbyte h0
      have hlt := lt_length_of_ne_zero hbyte h0
      have hp' := walked_nonneg hs hnext
      exact ih _ (by omega) hnext hp' (byteAt_nonneg hp') rfl

/-- In a buffer that takes the labels, the rounds are those of the loop in `inetParse`. -/
theorem walked_steps {size : Nat} (hm : At m off (s ++ List.replicate 65 0)) (hroom : s.length + 65 ≤ size)
    (h : Walked s p) : ReflTransGen (LabelStep m off size) 0 p := by
  have hmem := hm.le_length (by simp)
  rw [List.length_append, List.length_replicate] at hmem
  induction h with
  | refl => exact .refl
  | @tail p q h hround ih =>
    obtain ⟨c, hc, h0, rfl⟩ := hround
    have hp := walked_nonneg hs h
    have hpos := (walked_next hs h hc h0).2
    have hlt := (lt_length_of_ne_zero hc h0).2
    have hlen := labelLen_le c
    have hload := load_byteAt hm hp (walked_le h)
    rw [Option.some.inj ((byteAt_nonneg hp).symm.trans hc)] at hload
    refine ih.tail (.mk hload h0 (by omega) ?_ ?_) <;> rw [room_eq (by omega)] <;> omega

end

/-- The loop goes forward to its end if and only if every byte it takes for a length is below 0x80. Then
the loop in `inetParse` ends there as well, given room for the labels. -/
theorem labelWalk_progress (s : List UInt8) : (Progress s ↔ ∀ c, LengthByte s c → c.toNat < 128) ∧
    (Progress s → ∀ {m : List UInt8} {off : Nat} {dest : Block}, At m off (s ++ List.replicate 65 0) →
      s.length + 65 ≤ dest.size → ∃ q d, Walked s q ∧ byteAt s q = some 0 ∧
        labelWalk m off (dest.size + 2) 0 dest = .ok (q, d)) := by
  have hlow : Progress s → ∀ c, LengthByte s c → c.toNat < 128 := by
    rintro h c ⟨p, hwalk, hc⟩
    by_contra hge
    have hneg := labelLen_neg (c := c) (by omega)
    have h0 : c ≠ 0 := by rintro rfl; exact hge (by decide)
    have := h.forward p _ hwalk ⟨c, hc, h0, rfl⟩
    omega
  refine ⟨⟨hlow, fun hs => ⟨?_, fun p h => walked_nonneg hs h, ?_, ?_⟩⟩, fun h m off dest hm hroom => ?_⟩
  · rintro p p' h ⟨c, hc, h0, rfl⟩
    have := (walked_next hs h hc h0).2
    omega
  · intro p c h hc h0
    have := walked_nonneg hs h
    have := (walked_next hs h hc h0).2
    omega
  · exact walked_stops hs .refl
  · obtain ⟨q, hq, h0⟩ := h.stops
    have hload := load_byteAt hm (h.read q hq) (walked_le hq)
    rw [Option.some.inj ((byteAt_nonneg (h.read q hq)).symm.trans h0)] at hload
    obtain ⟨d, hwalk, -⟩ := labelWalk_stop rfl (walked_steps (hlow h) hm hroom hq) hload
    exact ⟨q, d, hq, h0, hwalk⟩

end

/-- A question with the name `s`. -/
def questionMessage (s : List UInt8) : List UInt8 :=
  Header.encode ⟨0x1234, 0x100, 1, 0, 0, 0⟩ ++ (s ++ [0] ++ (be16 typeA ++ be16 1))

/-- Behind one label the byte 0xFF is taken for the length -1 and the loop stays where it is. The byte
0x80 is taken for -128, and the `.` is written in front of the buffer. -/
theorem labelWalk_no_progress :
    (¬ Progress [1, 97, 255] ∧
      (∀ fuel, labelWalk ([1, 97, 255] ++ List.replicate 65 0) 0 fuel 0 (Block.fresh 65 []) = .error .hang) ∧
      packetParse .decimal .zero (questionMessage [1, 97, 255]) 20 = .error .hang) ∧
    ¬ Progress [128] ∧ packetParse .decimal .zero (questionMessage [128]) 18 = .error .write := by
  have hstart : ∀ s : List UInt8, byteAt s 0 = some (s.getD 0 0) := fun s => byteAt_nonneg (Int.le_refl 0)
  refine ⟨⟨fun h => ?_, fun fuel => ?_, by decide +kernel⟩, fun h => ?_, by decide +kernel⟩
  · have hround : LabelRound [1, 97, 255] 0 2 := ⟨1, hstart _, by decide, by decide⟩
    have := h.forward 2 2 (.single hround) ⟨255, rfl, by decide, by decide⟩
    omega
  · have hstill : ∀ fuel (dest : Block), 2 ≤ dest.size →
        labelWalk ([1, 97, 255] ++ List.replicate 65 0) 0 fuel 2 dest = .error .hang := by
      intro fuel
      induction fuel with
      | zero => exact fun _ _ => rfl
      | succ fuel ih =>
        intro dest hsize
        have hstore : dest.store ((1 : Nat) : Int) dot = .ok (dest.patch 1 [dot]) := Block.store_eq dot hsize
        exact (congrArg (· >>= _) hstore).trans (ih (dest.patch 1 [dot]) hsize)
    cases fuel with
    | zero => rfl
    | succ fuel => exact hstill fuel _ (by decide)
  · have := h.dots 0 128 .refl rfl (by decide)
    exact absurd this (by decide)

end DnsRelay
