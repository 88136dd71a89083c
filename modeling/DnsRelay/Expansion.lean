import DnsRelay.CompressedName
import DnsRelay.Message
import DnsRelay.Lib.Fuel
import Mathlib.Data.Finset.Prod

/-!
# The loops of `urlParse` that follow pointers

What the two loops do next depends on the message and on the `Place` they are at, not on what they
have copied. `Move` leads from place to place, over a label or along a pointer. So the loops run for
ever if and only if the moves come back to a pointer they have been at (`Circular`), and they write
outside `temp` if and only if the moves come to a place where the next bytes do not fit.
-/

namespace DnsRelay
open ByteSeq Exec Relation

/-- What the inner loop finds in front of it. -/
inductive Token
  | label (c : UInt8)
  | jump (x : UInt16)
  | stop

/-- At `o` stands a label with its length and one more byte, a pointer followed by two bytes that look
like a pointer, or the end of the name: the root, or a pointer followed by anything else. -/
inductive TokenAt (buf : List UInt8) (o : Nat) : Token → Prop
  | label {c d : UInt8} (h0 : c ≠ 0) (hlt : c.toNat < 192) (hat : At buf o [c, d]) : TokenAt buf o (.label c)
  | root (h : buf[o]? = some 0) : TokenAt buf o .stop
  | cut {x y : UInt16} (hx : isNamePtr x = true) (hy : isNamePtr y = false) (hat : At buf o (be16 x ++ be16 y)) :
      TokenAt buf o .stop
  | jump {x y : UInt16} (hx : isNamePtr x = true) (hy : isNamePtr y = true) (hat : At buf o (be16 x ++ be16 y)) :
      TokenAt buf o (.jump x)

/-- `temp_pos` and `zip_name`, as positions in `temp` and in the message. -/
structure Place where
  pos : Int
  off : Nat
deriving DecidableEq

/-- One round of the inner loop, over a label that can be read and fits. -/
inductive Along (buf : List UInt8) : Place → Place → Prop
  | mk {k : Place} {c : UInt8} (h : TokenAt buf k.off (.label c)) (hroom : c.toNat + 1 ≤ room 255 k.pos)
      (hmem : k.off + (c.toNat + 1) ≤ buf.length) : Along buf k ⟨k.pos + (c.toNat + 1), k.off + (c.toNat + 1)⟩

/-- The way from a pointer to its target. -/
def Jump (buf : List UInt8) (o o' : Nat) : Prop := ∃ x, TokenAt buf o (.jump x) ∧ o' = (getQnamePtr x).toNat

def Move (buf : List UInt8) (k k' : Place) : Prop := Along buf k k' ∨ k.pos = k'.pos ∧ Jump buf k.off k'.off

/-- How the loops end at `k`: at the end of a name, whose terminator fits or does not, at a label of which
either `temp` or the message holds too few bytes, or where the next token is not there to be read. -/
inductive EndsAt (buf : List UInt8) (k : Place) : Exec Unit → Prop
  | stop (h : TokenAt buf k.off .stop) (hroom : 0 < room 255 k.pos) : EndsAt buf k (.ok ())
  | full (h : TokenAt buf k.off .stop) (hroom : room 255 k.pos = 0) : EndsAt buf k (.error .write)
  | fullLabel {c : UInt8} (h : TokenAt buf k.off (.label c)) (hroom : room 255 k.pos < c.toNat + 1)
      (hmem : room 255 k.pos < buf.length - k.off) : EndsAt buf k (.error .write)
  | unread (h : ∀ t, ¬ TokenAt buf k.off t) : EndsAt buf k (.error .read)
  | unreadLabel {c : UInt8} (h : TokenAt buf k.off (.label c)) (hmem : buf.length - k.off < c.toNat + 1)
      (hroom : buf.length - k.off ≤ room 255 k.pos) : EndsAt buf k (.error .read)

/-- The pointer at the end of the `n` bytes of RDATA at `src` leads to `k`. -/
def Starts (buf : List UInt8) (src n : Nat) (k : Place) : Prop :=
  n ≤ 255 ∧ ∃ x, load16 buf ((src : Int) + n - 2) = .ok x ∧ isNamePtr x = true ∧ k = ⟨(n : Int) - 2, (getQnamePtr x).toNat⟩

def Visits (buf : List UInt8) (src n : Nat) (m : Place) : Prop :=
  ∃ k, Starts buf src n k ∧ ReflTransGen (Move buf) k m

/-- A pointer that is followed leads back to itself. -/
def Circular (buf : List UInt8) (src n : Nat) : Prop := ∃ m, Visits buf src n m ∧ TransGen (Jump buf) m.off m.off

/-- All that is appended to the `n` bytes of RDATA fits `temp`. -/
def Fits (buf : List UInt8) (src n : Nat) : Prop := ∀ m, Visits buf src n m → ¬ EndsAt buf m (.error .write)

section
variable {buf stale : List UInt8} {temp : Block} {o src n fuel : Nat} {pos : Int} {k k' : Place} {t t' : Token}
  {x : UInt16}

/-! ### Tokens -/

/-- The first byte tells a pointer from a label and from the root. -/
theorem TokenAt.unique (h : TokenAt buf o t) (h' : TokenAt buf o t') : t = t' := by
  have hptr : ∀ {x y : UInt16}, isNamePtr x = true → At buf o (be16 x ++ be16 y) → ∃ b, buf[o]? = some b ∧ 192 ≤ b.toNat :=
    fun hx hat => ⟨_, (At.cons_iff.1 hat).1, (isNamePtr_at hat.left (At.cons_iff.1 hat).1).1 hx⟩
  have hsame : ∀ {b b' : UInt8}, buf[o]? = some b → buf[o]? = some b' → b = b' := fun hb hb' =>
    Option.some.inj (hb.symm.trans hb')
  have hroot : ¬ 192 ≤ (0 : UInt8).toNat := by decide
  cases h with
  | @label c d h0 hlt hat =>
    have hc := (At.cons_iff.1 hat).1
    cases h' with
    | label _ _ hat' => rw [hsame hc (At.cons_iff.1 hat').1]
    | root h' => exact absurd (hsame hc h') h0
    | cut hx _ hat' | jump hx _ hat' =>
      obtain ⟨b, hb, hle⟩ := hptr hx hat'
      rw [hsame hc hb] at hlt
      omega
  | root h =>
    cases h' with
    | label h0 _ hat' => exact absurd (hsame (At.cons_iff.1 hat').1 h) h0
    | root => rfl
    | cut => rfl
    | jump hx _ hat' =>
      obtain ⟨b, hb, hle⟩ := hptr hx hat'
      exact absurd (hsame hb h ▸ hle) hroot
  | cut hx hy hat =>
    cases h' with
    | label _ hlt hat' =>
      obtain ⟨b, hb, hle⟩ := hptr hx hat
      rw [hsame (At.cons_iff.1 hat').1 hb] at hlt
      omega
    | root => rfl
    | cut => rfl
    | jump _ hy' hat' =>
      rw [be16_inj (hat.right.unique hat'.right rfl), hy'] at hy
      cases hy
  | jump hx hy hat =>
    cases h' with
    | label _ hlt hat' =>
      obtain ⟨b, hb, hle⟩ := hptr hx hat
      rw [hsame (At.cons_iff.1 hat').1 hb] at hlt
      omega
    | root h' =>
      obtain ⟨b, hb, hle⟩ := hptr hx hat
      exact absurd (hsame hb h' ▸ hle) hroot
    | cut _ hy' hat' =>
      rw [be16_inj (hat'.right.unique hat.right rfl), hy] at hy'
      cases hy'
    | jump _ _ hat' => rw [be16_inj (hat.left.unique hat'.left rfl)]

theorem rightUnique_move (buf : List UInt8) : Relator.RightUnique (Move buf) := by
  rintro k ⟨pos₁, off₁⟩ ⟨pos₂, off₂⟩ h₁ h₂
  rcases h₁ with ⟨t₁, -, -⟩ | ⟨rfl, x, t₁, rfl⟩ <;> rcases h₂ with ⟨t₂, -, -⟩ | ⟨rfl, x', t₂, rfl⟩
  · cases t₁.unique t₂; rfl
  · cases t₁.unique t₂
  · cases t₁.unique t₂
  · cases t₁.unique t₂; rfl

theorem EndsAt.not_move {e : Exec Unit} (h : EndsAt buf k e) : ¬ Move buf k k' := by
  rintro (⟨h', hroom, hmem⟩ | ⟨-, x, h', -⟩)
  · cases h with
    | full h | stop h => cases h.unique h'
    | unread h => exact h _ h'
    | fullLabel h | unreadLabel h => cases h.unique h'; omega
  · cases h with
    | full h | stop h => cases h.unique h'
    | unread h => exact h _ h'
    | fullLabel h | unreadLabel h => cases h.unique h'

theorem EndsAt.unique {e e' : Exec Unit} (h : EndsAt buf k e) (h' : EndsAt buf k e') : e = e' := by
  cases h with
  | full h =>
    cases h' with
    | full => rfl
    | fullLabel => rfl
    | unread h' => exact absurd h (h' _)
    | unreadLabel h' => cases h.unique h'
    | stop => omega
  | fullLabel h =>
    cases h' with
    | full => rfl
    | fullLabel => rfl
    | unread h' => exact absurd h (h' _)
    | unreadLabel h' => omega
    | stop h' => cases h.unique h'
  | unread h =>
    cases h' with
    | full h' | fullLabel h' | stop h' => exact absurd h' (h _)
    | unread => rfl
    | unreadLabel => rfl
  | unreadLabel h =>
    cases h' with
    | full h' => cases h.unique h'
    | fullLabel => omega
    | unread => rfl
    | unreadLabel => rfl
    | stop h' => cases h.unique h'
  | stop h =>
    cases h' with
    | full => omega
    | fullLabel h' | unreadLabel h' => cases h.unique h'
    | unread h' => exact absurd h (h' _)
    | stop => rfl

/-- A way that leads back to the same place consists of pointers. -/
theorem jumps_of_moves (h : TransGen (Move buf) k k') :
    k.pos ≤ k'.pos ∧ (k.pos = k'.pos → TransGen (Jump buf) k.off k'.off) := by
  have hstep : ∀ {k k' : Place}, Move buf k k' → k.pos ≤ k'.pos ∧ (k.pos = k'.pos → Jump buf k.off k'.off) := by
    rintro k k' (⟨-, -, -⟩ | ⟨hpos, hj⟩)
    · exact ⟨by simp only; omega, fun he => by simp only at he; omega⟩
    · exact ⟨by omega, fun _ => hj⟩
  induction h with
  | single h => exact ⟨(hstep h).1, fun he => .single ((hstep h).2 he)⟩
  | tail _ h ih =>
    obtain ⟨hle, hj⟩ := hstep h
    exact ⟨by omega, fun he => (ih.2 (by omega)).tail (hj (by omega))⟩

theorem moves_of_jumps {o' : Nat} (h : TransGen (Jump buf) o o') : TransGen (Move buf) ⟨pos, o⟩ ⟨pos, o'⟩ :=
  h.lift (fun o => (⟨pos, o⟩ : Place)) fun _ _ h => Or.inr ⟨rfl, h⟩

/-- A label that fits leaves `temp_pos` in `temp` or right behind it. -/
theorem Along.pos_le (h : Along buf k k') : k'.pos ≤ 255 := by
  obtain ⟨-, hroom, -⟩ := h
  have hp := room_pos (Nat.lt_of_lt_of_le (Nat.succ_pos _) hroom)
  rw [room_eq hp.1] at hroom
  simp only
  omega

/-! ### One round of the inner loop -/

theorem copyName_stop (h : TokenAt buf o .stop) :
    copyName buf (fuel + 1) temp pos o = (do
      let temp ← temp.store pos 0
      return (temp, pos, 0)) := by
  cases h with
  | root h => rw [copyName, load_ok.2 h, ok_bind, if_pos rfl]
  | @cut x y hx hy hat =>
    have hload : load16 buf ((o : Int) + 2) = .ok y := load16_at (p := o + 2) hat.right
    rw [copyName, load_at hat, ok_bind, if_neg (pointer_byte hx), load16_at hat.left, ok_bind, if_pos hx, hload,
      ok_bind, hy, if_neg Bool.false_ne_true]

theorem copyName_jump (h : TokenAt buf o (.jump x)) : copyName buf (fuel + 1) temp pos o = .ok (temp, pos, x) := by
  cases h with
  | @jump x y hx hy hat =>
    have hload : load16 buf ((o : Int) + 2) = .ok y := load16_at (p := o + 2) hat.right
    rw [copyName, load_at hat, ok_bind, if_neg (pointer_byte hx), load16_at hat.left, ok_bind, if_pos hx, hload,
      ok_bind, if_pos hy]
    rfl

theorem copyName_label {c : UInt8} (h : TokenAt buf o (.label c)) :
    copyName buf (fuel + 1) temp pos o = (do
      let temp ← temp.copy pos buf o (c.toNat + 1)
      copyName buf fuel temp (pos + (c.toNat + 1)) (o + (c.toNat + 1))) := by
  cases h with
  | @label c d h0 hlt hat =>
    have hload : load16 buf o = .ok (word16 c d) := by
      rw [load16, load_at hat, load_at_succ hat]
      rfl
    have hptr : isNamePtr (word16 c d) = false := by
      rw [Bool.eq_false_iff, ne_eq, isNamePtr_word16]
      omega
    rw [copyName, load_at hat, ok_bind, if_neg h0, hload, ok_bind, hptr, if_neg Bool.false_ne_true]

/-- Where no token can be read, the inner loop reads behind the message. -/
theorem copyName_unread (h : ∀ t, ¬ TokenAt buf o t) : copyName buf (fuel + 1) temp pos o = .error .read := by
  rw [copyName]
  rcases Nat.lt_or_ge o buf.length with ho | ho
  · have hc := List.getElem?_eq_getElem ho
    have h0 : buf[o] ≠ 0 := fun h0 => h _ (.root (hc.trans (congrArg some h0)))
    rw [load_ok.2 hc, ok_bind, if_neg h0]
    rcases Nat.lt_or_ge (o + 1) buf.length with ho1 | ho1
    · obtain ⟨x, hx⟩ := exists_at_be16 (show o + 2 ≤ buf.length from ho1)
      rw [load16_at hx, ok_bind]
      by_cases hptr : isNamePtr x = true
      · have hend : buf.length < o + 2 + 2 := by
          by_contra hge
          obtain ⟨y, hy⟩ := exists_at_be16 (show o + 2 + 2 ≤ buf.length by omega)
          cases hy' : isNamePtr y with
          | false => exact h _ (.cut hptr hy' (hx.append hy))
          | true => exact h _ (.jump hptr hy' (hx.append hy))
        have hload : load16 buf ((o : Int) + 2) = .error .read := load16_error (p := o + 2) hend
        rw [if_pos hptr, hload]
        rfl
      · refine absurd (TokenAt.label (c := buf[o]) (d := buf[o + 1]) h0 ?_ ?_) (h _)
        · rw [isNamePtr_at hx hc] at hptr
          omega
        · exact At.cons_iff.2 ⟨hc, At.cons_iff.2 ⟨List.getElem?_eq_getElem ho1, .nil⟩⟩
    · rw [load16_error (by omega)]
      rfl
  · rw [load_error ho]
    rfl

/-! ### The inner loop -/

/-- The inner loop goes along labels until it is at a pointer to follow or the loops end. It never runs
out of fuel, as a label takes two bytes of `temp` at least. -/
theorem copyName_walk (htemp : temp.size = 255) (hpos : k.pos ≤ 255) (hfuel : 256 ≤ k.pos + 2 * fuel) :
    ∃ m, ReflTransGen (Along buf) k m ∧ m.pos ≤ 255 ∧
      ((∃ x temp', temp'.size = 255 ∧ TokenAt buf m.off (.jump x) ∧
          copyName buf fuel temp k.pos k.off = .ok (temp', m.pos, x)) ∨
        ∃ e, EndsAt buf m e ∧ outcome (copyName buf fuel temp k.pos k.off) = some e ∧
          ∀ r, copyName buf fuel temp k.pos k.off = .ok r → r.2.2 = 0) := by
  induction fuel generalizing k temp with
  | zero => omega
  | succ fuel ih =>
    by_cases hunread : ∀ t, ¬ TokenAt buf k.off t
    · rw [copyName_unread hunread]
      exact ⟨k, .refl, hpos, .inr ⟨_, .unread hunread, rfl, nofun⟩⟩
    obtain ⟨t, ht⟩ := not_forall_not.1 hunread
    cases t with
    | stop =>
      rw [copyName_stop ht]
      rcases Nat.eq_zero_or_pos (room 255 k.pos) with h0 | hroom
      · rw [Block.store_full 0 (by rw [htemp, h0])]
        exact ⟨k, .refl, hpos, .inr ⟨_, .full ht h0, rfl, nofun⟩⟩
      · obtain ⟨temp', -, hstore⟩ := Block.store_room (b := temp) 0 (by rw [htemp]; exact hroom)
        rw [hstore]
        exact ⟨k, .refl, hpos, .inr ⟨_, .stop ht hroom, rfl, fun r hr => by cases hr; rfl⟩⟩
    | jump x => exact ⟨k, .refl, hpos, .inl ⟨x, temp, htemp, ht, copyName_jump ht⟩⟩
    | label c =>
      obtain ⟨hok, hread, hwrite⟩ := Block.copy_room temp k.pos buf k.off (c.toNat + 1)
      rw [htemp] at hok hread hwrite
      rw [copyName_label ht]
      by_cases hfull : room 255 k.pos < c.toNat + 1 ∧ room 255 k.pos < buf.length - k.off
      · rw [hwrite hfull.1 hfull.2]
        exact ⟨k, .refl, hpos, .inr ⟨_, .fullLabel ht hfull.1 hfull.2, rfl, nofun⟩⟩
      by_cases hcut : buf.length - k.off < c.toNat + 1
      · have hle : buf.length - k.off ≤ room 255 k.pos := by omega
        rw [hread hcut hle]
        exact ⟨k, .refl, hpos, .inr ⟨_, .unreadLabel ht hcut hle, rfl, nofun⟩⟩
      · have hfits : c.toNat + 1 ≤ room 255 k.pos := by omega
        obtain ⟨temp', hsize, hcopy⟩ := hok (by omega) hfits
        have hstep : Along buf k ⟨k.pos + (c.toNat + 1), k.off + (c.toNat + 1)⟩ := .mk ht hfits (by omega)
        have hc0 : 0 < c.toNat := by
          cases ht with
          | label h0 => exact Nat.pos_of_ne_zero fun h => h0 (UInt8.toNat_inj.1 h)
        rw [hcopy, ok_bind]
        obtain ⟨m, hm, hrest⟩ := ih (k := ⟨k.pos + (c.toNat + 1), k.off + (c.toNat + 1)⟩) hsize
          hstep.pos_le (by simp only; omega)
        exact ⟨m, .head hstep hm, hrest⟩

/-! ### The outer loop -/

/-- The rounds from the place `k` on. -/
def follow (buf : List UInt8) (fuel : Nat) (temp : Block) (k : Place) : Exec Block := do
  let (temp, pos, namePtr) ← copyName buf copyFuel temp k.pos k.off
  expandName buf fuel temp pos namePtr

/-- One round of the outer loop that ends at a pointer. -/
def Round (buf : List UInt8) (k k' : Place) : Prop :=
  ∃ m, ReflTransGen (Along buf) k m ∧ m.pos = k'.pos ∧ Jump buf m.off k'.off

theorem moves_of_along (h : ReflTransGen (Along buf) k k') : ReflTransGen (Move buf) k k' :=
  ReflTransGen.mono (fun _ _ => Or.inl) _ _ h

theorem Round.moves (h : Round buf k k') : TransGen (Move buf) k k' := by
  obtain ⟨m, hm, hpos, hj⟩ := h
  exact .tail' (moves_of_along hm) (.inr ⟨hpos, hj⟩)

theorem target_lt (x : UInt16) : (getQnamePtr x).toNat < 16384 := by
  rw [getQnamePtr_toNat]
  exact Nat.mod_lt _ (by decide)

/-- Where the loops can be: `temp_pos` starts two bytes before the end of the RDATA. -/
def InRange (k : Place) : Prop := -2 ≤ k.pos ∧ k.pos ≤ 255

theorem Round.inRange (h : Round buf k k') (hk : InRange k) : InRange k' ∧ k'.off < 16384 := by
  have hge := (jumps_of_moves h.moves).1
  obtain ⟨m, hm, hpos, x, -, hoff⟩ := h
  refine ⟨⟨Int.le_trans hk.1 hge, hpos ▸ ?_⟩, hoff ▸ target_lt x⟩
  rcases ReflTransGen.cases_tail hm with rfl | ⟨b, -, hb⟩
  · exact hk.2
  · exact hb.pos_le

theorem InRange.copyFuel_le (h : InRange k) : 256 ≤ k.pos + 2 * copyFuel := by
  have : copyFuel = 260 := rfl
  have := h.1
  omega

/-- One round of the outer loop. -/
theorem follow_next (htemp : temp.size = 255) (hk : InRange k) :
    (∃ k' temp', temp'.size = 255 ∧ Round buf k k' ∧ follow buf 0 temp k = .error .hang ∧
      ∀ fuel, follow buf (fuel + 1) temp k = follow buf fuel temp' k') ∨
    ∃ m e, ReflTransGen (Move buf) k m ∧ EndsAt buf m e ∧
      (follow buf 0 temp k = .error .hang ∨ outcome (follow buf 0 temp k) = some e) ∧
      ∀ fuel, outcome (follow buf (fuel + 1) temp k) = some e := by
  obtain ⟨m, hm, hle, h⟩ := copyName_walk htemp hk.2 hk.copyFuel_le
  rcases h with ⟨x, temp', hsize, hx, heq⟩ | ⟨e, hend, he, hptr⟩
  · have hptr : isNamePtr x = true := by
      cases hx with
      | jump hx => exact hx
    refine .inl ⟨⟨m.pos, (getQnamePtr x).toNat⟩, temp', hsize, ⟨m, hm, rfl, x, hx, rfl⟩, ?_, fun fuel => ?_⟩
    · rw [follow, heq]
      rfl
    · rw [follow, heq, ok_bind]
      exact if_pos hptr
  · refine .inr ⟨m, e, moves_of_along hm, hend, ?_⟩
    cases hcopy : copyName buf copyFuel temp k.pos k.off with
    | error f =>
      rw [hcopy] at he
      have heq : ∀ fuel, follow buf fuel temp k = .error f := fun fuel => by
        rw [follow, hcopy]
        rfl
      refine ⟨.inr ?_, fun fuel => ?_⟩ <;> rw [heq] <;> cases f <;> exact he
    | ok r =>
      obtain ⟨temp', pos, x⟩ := r
      obtain rfl : x = 0 := hptr _ hcopy
      rw [hcopy] at he
      refine ⟨.inl ?_, fun fuel => ?_⟩ <;> rw [follow, hcopy]
      · rfl
      · exact he

theorem moves_deterministic (buf : List UInt8) : Fuel.Deterministic (Move buf) (EndsAt buf) where
  next_unique := rightUnique_move buf
  end_stuck := EndsAt.not_move
  end_unique := EndsAt.unique

/-- With `n` rounds of the outer loop at `k` the result is `r`. -/
def ExpandRun (buf : List UInt8) (n : Nat) (k : Place) (r : Option (Exec Unit)) : Prop :=
  InRange k ∧ k.off < 16384 ∧ ∃ temp : Block, temp.size = 255 ∧ outcome (follow buf n temp k) = r

theorem moves_rounds (buf : List UInt8) : Fuel.Rounds (Move buf) (EndsAt buf) (ExpandRun buf) where
  zero := by
    rintro k r ⟨hk, -, temp, htemp, rfl⟩
    rcases follow_next htemp hk with ⟨-, -, -, -, h, -⟩ | ⟨m, e, hm, hend, h | h, -⟩
    · exact .inl (outcome_eq_none.2 h)
    · exact .inl (outcome_eq_none.2 h)
    · exact .inr ⟨m, e, hm, hend, h⟩
  succ := by
    rintro n k r ⟨hk, -, temp, htemp, rfl⟩
    rcases follow_next htemp hk with ⟨k', temp', hsize, hround, -, h⟩ | ⟨m, e, hm, hend, -, h⟩
    · obtain ⟨hrange, hlt⟩ := hround.inRange hk
      exact .inl ⟨k', hround.moves, hrange, hlt, temp', hsize, by rw [h]⟩
    · exact .inr ⟨m, e, hm, hend, h n⟩

/-- Finitely many places have their positions in given ranges. -/
theorem exists_places (n m : Nat) : ∃ U : Finset Place, U.card ≤ n * m ∧
    ∀ k : Place, -2 ≤ k.pos → k.pos < (n : Int) - 2 → k.off < m → k ∈ U := by
  refine ⟨(Finset.range n ×ˢ Finset.range m).image fun p => ⟨(p.1 : Int) - 2, p.2⟩, ?_, fun k h1 h2 hoff => ?_⟩
  · refine Nat.le_trans Finset.card_image_le ?_
    rw [Finset.card_product, Finset.card_range, Finset.card_range]
  · refine Finset.mem_image.2 ⟨((k.pos + 2).toNat, k.off), ?_, ?_⟩
    · rw [Finset.mem_product, Finset.mem_range, Finset.mem_range]
      exact ⟨by simp only; omega, hoff⟩
    · rw [show (((k.pos + 2).toNat : Nat) : Int) - 2 = k.pos by omega]

/-- The model has a round for every place the rounds come to. -/
theorem places_enough (buf : List UInt8) :
    ∃ U : Finset Place, (∀ n k r, ExpandRun buf n k r → k ∈ U) ∧ U.card ≤ expandFuel - 1 := by
  obtain ⟨U, hcard, hU⟩ := exists_places 258 16384
  refine ⟨U, ?_, Nat.le_trans hcard (by decide)⟩
  rintro n k r ⟨⟨hge, hle⟩, hoff, -⟩
  exact hU k hge (by omega) hoff

/-- Loops that are still running at the end of these rounds go in a circle. -/
theorem exists_circle (h : ExpandRun buf (expandFuel - 1) k none) :
    ∃ m, ReflTransGen (Move buf) k m ∧ TransGen (Jump buf) m.off m.off := by
  obtain ⟨U, hU, hcard⟩ := places_enough buf
  obtain ⟨m, hm, hcycle⟩ := (moves_rounds buf).exists_cycle U hU hcard h
  exact ⟨m, hm, (jumps_of_moves hcycle).2 rfl⟩

/-- Loops that come to an end come to it in these rounds. -/
theorem run_end {r : Option (Exec Unit)} {e : Exec Unit} (h : ExpandRun buf (expandFuel - 1) k r) :
    r = some e ↔ ∃ m, ReflTransGen (Move buf) k m ∧ EndsAt buf m e := by
  obtain ⟨U, hU, hcard⟩ := places_enough buf
  exact (moves_deterministic buf).eq_some_iff (moves_rounds buf) U hU hcard h

/-! ### The RDATA -/

/-- The same for a record of type `mode` with RDATA of `len` bytes at `src`. -/
def urlExpand (buf : List UInt8) (fuel src : Nat) (mode len : UInt16) (stale : List UInt8) : Exec Block := do
  let (src, len) ← (if mode = typeMx then do
      let _ ← load16 buf src
      return (src + 2, len - 2)
    else return (src, len) : Exec (Nat × UInt16))
  expandRdata buf fuel src len.toNat stale

/-- The length of the name in the RDATA, as `urlParse` counts it. -/
def nameLen (mode len : UInt16) : Nat := (if mode = typeMx then len - 2 else len).toNat

theorem nameLen_eq {mode len : UInt16} (h : nameSkip mode ≤ len.toNat) :
    nameLen mode len = len.toNat - nameSkip mode := by
  unfold nameSkip at h ⊢
  unfold nameLen
  by_cases hmx : mode = typeMx
  · rw [if_pos hmx] at h ⊢
    rw [if_pos hmx]
    exact UInt16.toNat_sub_of_le _ _ (UInt16.le_iff_toNat_le.2 h)
  · rw [if_neg hmx, if_neg hmx]
    rfl

theorem Starts.unique (h : Starts buf src n k) (h' : Starts buf src n k') : k = k' := by
  obtain ⟨-, x, hx, -, rfl⟩ := h
  obtain ⟨-, x', hx', -, rfl⟩ := h'
  cases hx.symm.trans hx'
  rfl

theorem Starts.le_length (h : Starts buf src n k) : src + n ≤ buf.length := by
  obtain ⟨-, x, hx, -⟩ := h
  obtain ⟨p, hp, hle⟩ := load16_ok hx
  omega

/-- The RDATA overruns `temp`, or is not there to be read, or it ends in a pointer, or it does not. -/
theorem expandRdata_cases (buf : List UInt8) (src n : Nat) (stale : List UInt8) :
    (255 < n ∧ src + 255 < buf.length ∧ ∀ fuel, expandRdata buf fuel src n stale = .error .write) ∨
    (∃ k temp, Starts buf src n k ∧ temp.size = 255 ∧ expandRdata buf 0 src n stale = .error .hang ∧
      ∀ fuel, expandRdata buf (fuel + 1) src n stale = follow buf fuel temp k) ∨
    (∀ k, ¬ Starts buf src n k) ∧ (n ≤ 255 ∨ buf.length ≤ src + 255) ∧
      ((buf.length - src < n ∨ load16 buf ((src : Int) + n - 2) = .error .read) ∧
          (∀ fuel, expandRdata buf fuel src n stale = .error .read) ∨
        n ≤ buf.length - src ∧ (∃ x, load16 buf ((src : Int) + n - 2) = .ok x) ∧
          expandRdata buf 0 src n stale = .error .hang ∧
          ∃ temp, ∀ fuel, expandRdata buf (fuel + 1) src n stale = .ok temp) := by
  obtain ⟨hok, hread, hwrite⟩ := Block.copy_room (Block.fresh 255 stale) 0 buf src n
  have hroom : room (Block.fresh 255 stale).size 0 = 255 := rfl
  rw [hroom] at hok hread hwrite
  by_cases hbig : 255 < n ∧ src + 255 < buf.length
  · refine .inl ⟨hbig.1, hbig.2, fun fuel => ?_⟩
    rw [expandRdata, hwrite hbig.1 (by omega)]
    rfl
  refine .inr ?_
  rcases Nat.lt_or_ge (buf.length - src) n with hshort | hlong
  · refine .inr ⟨fun k hk => ?_, by omega, .inl ⟨.inl hshort, fun fuel => ?_⟩⟩
    · have := hk.le_length
      omega
    · rw [expandRdata, hread hshort (by omega)]
      rfl
  · obtain ⟨temp, hsize, hcopy⟩ := hok hlong (by omega)
    cases hload : load16 buf ((src : Int) + n - 2) with
    | error e =>
      obtain rfl := load16_fault hload
      refine .inr ⟨?_, by omega, .inl ⟨.inr rfl, fun fuel => ?_⟩⟩
      · rintro k ⟨-, x, hx, -⟩
        cases hload.symm.trans hx
      · rw [expandRdata, hcopy, ok_bind, hload]
        rfl
    | ok x =>
      have he : ∀ fuel, expandRdata buf fuel src n stale = expandName buf fuel temp (n - 2) x := fun fuel => by
        rw [expandRdata, hcopy, ok_bind, hload]
        rfl
      by_cases hx : isNamePtr x = true
      · refine .inl ⟨_, temp, ⟨by omega, x, hload, hx, rfl⟩, hsize, he 0, fun fuel => ?_⟩
        rw [he, expandName, if_pos hx]
        rfl
      · refine .inr ⟨?_, by omega, .inr ⟨hlong, ⟨x, rfl⟩, he 0, temp, fun fuel => ?_⟩⟩
        · rintro k ⟨-, x', hx', hptr, -⟩
          cases hload.symm.trans hx'
          exact hx hptr
        · rw [he, expandName, if_neg hx]
          rfl

theorem Starts.run (h : Starts buf src n k) (htemp : temp.size = 255) (fuel : Nat) :
    ExpandRun buf fuel k (outcome (follow buf fuel temp k)) := by
  obtain ⟨hn, x, -, -, rfl⟩ := h
  exact ⟨⟨by simp only; omega, by simp only; omega⟩, target_lt x, temp, htemp, rfl⟩

/-- On a circle of pointers no number of rounds is enough. -/
theorem expandRdata_hang (h : Circular buf src n) (fuel : Nat) (stale : List UInt8) :
    expandRdata buf fuel src n stale = .error .hang := by
  obtain ⟨s, ⟨k, hk, hs⟩, hcircle⟩ := h
  rcases expandRdata_cases buf src n stale with ⟨hn, -⟩ | ⟨k', temp, hk', hsize, h0, heq⟩ | ⟨hno, -⟩
  · exact absurd hk.1 (by omega)
  · obtain rfl := hk.unique hk'
    cases fuel with
    | zero => exact h0
    | succ fuel =>
      rw [heq, ← outcome_eq_none]
      exact (moves_deterministic buf).eq_none_of_cycle (moves_rounds buf) hs (moves_of_jumps hcircle) (hk.run hsize fuel)
  · exact absurd hk (hno k)

/-- Without such a circle the rounds of the model are enough. -/
theorem expandRdata_ends (h : ¬ Circular buf src n) (stale : List UInt8) :
    expandRdata buf expandFuel src n stale ≠ .error .hang := by
  rw [show expandFuel = expandFuel - 1 + 1 from rfl]
  rcases expandRdata_cases buf src n stale with ⟨-, -, hw⟩ | ⟨k, temp, hk, hsize, -, heq⟩ |
    ⟨-, -, ⟨-, hr⟩ | ⟨-, -, -, temp, hok⟩⟩
  · rw [hw]
    nofun
  · rw [heq]
    intro hhang
    have hrun := hk.run hsize (expandFuel - 1)
    rw [outcome_eq_none.2 hhang] at hrun
    obtain ⟨m, hm, hcircle⟩ := exists_circle hrun
    exact h ⟨m, ⟨k, hk, hm⟩, hcircle⟩
  · rw [hr]
    nofun
  · rw [hok]
    nofun

/-- A write outside `temp`, in the copy of the RDATA or behind it. -/
theorem expandRdata_write : (∃ fuel, expandRdata buf fuel src n stale = .error .write) ↔
    255 < n ∧ src + 255 < buf.length ∨ ¬ Fits buf src n := by
  rcases expandRdata_cases buf src n stale with ⟨hn, hmem, hw⟩ | ⟨k, temp, hk, hsize, h0, heq⟩ | ⟨hno, hn, hend⟩
  · exact ⟨fun _ => .inl ⟨hn, hmem⟩, fun _ => ⟨0, hw 0⟩⟩
  · constructor
    · rintro ⟨fuel, hw⟩
      refine .inr fun hfits => ?_
      cases fuel with
      | zero => cases h0.symm.trans hw
      | succ fuel =>
        rw [heq] at hw
        have hrun := hk.run hsize fuel
        rw [(outcome_eq_error (by decide)).2 hw] at hrun
        rcases (moves_rounds buf).result hrun with h | ⟨m, e, hm, hend, he⟩
        · cases h
        · cases he
          exact hfits m ⟨k, hk, hm⟩ hend
    · rintro (⟨hn, -⟩ | hfits)
      · exact absurd hk.1 (by omega)
      · simp only [Fits, not_forall, not_not] at hfits
        obtain ⟨m, ⟨k', hk', hm⟩, hfull⟩ := hfits
        obtain rfl := hk.unique hk'
        refine ⟨expandFuel - 1 + 1, ?_⟩
        rw [heq, ← outcome_eq_error (by decide), run_end (hk.run hsize _)]
        exact ⟨m, hm, hfull⟩
  · refine ⟨?_, ?_⟩
    · rintro ⟨fuel, hw⟩
      rcases hend with ⟨-, hr⟩ | ⟨-, -, h0, temp, hok⟩
      · cases (hr fuel).symm.trans hw
      · cases fuel with
        | zero => cases h0.symm.trans hw
        | succ fuel => cases (hok fuel).symm.trans hw
    · rintro (⟨hn', hmem⟩ | hfits)
      · omega
      · exact absurd (fun m hm => absurd hm.choose_spec.1 (hno _)) hfits

/-- The type decides where the name starts. -/
theorem urlExpand_cases (buf : List UInt8) (src : Nat) (mode len : UInt16) (stale : List UInt8) :
    ((src ≤ buf.length → src + nameSkip mode ≤ buf.length) ∧ ∀ fuel, urlExpand buf fuel src mode len stale =
      expandRdata buf fuel (src + nameSkip mode) (nameLen mode len) stale) ∨
    buf.length < src + nameSkip mode ∧ ∀ fuel, urlExpand buf fuel src mode len stale = .error .read := by
  unfold urlExpand nameSkip nameLen
  by_cases hmx : mode = typeMx
  · simp only [if_pos hmx]
    rcases Nat.lt_or_ge buf.length (src + 2) with hlt | hge
    · exact .inr ⟨hlt, fun fuel => by rw [load16_error hlt]; rfl⟩
    · obtain ⟨pref, hpref⟩ := exists_at_be16 hge
      exact .inl ⟨fun _ => hge, fun fuel => by rw [load16_at hpref]; rfl⟩
  · simp only [if_neg hmx]
    exact .inl ⟨id, fun fuel => rfl⟩

/-- `urlParse` expands the name and hands it to `inetParse`. -/
theorem urlParse_expand (C : Libc) (buf : List UInt8) (src : Nat) (dest : Block) (addition : UInt16) {mode : UInt16}
    (len : UInt16) (stale : List UInt8) (hmode : IsName mode) :
    ∃ addition', urlParse C buf src dest addition mode len stale = (do
      let temp ← urlExpand buf expandFuel src mode len stale
      let dest ← inetParse C .max temp.bytes 0 dest
      return (dest, addition')) := by
  have htype : mode ≠ typeQname ∧ mode ≠ typeA ∧ mode ≠ typeAaaa := by
    rcases hmode with rfl | rfl | rfl <;> decide
  have hname : mode = typeCname ∨ mode = typeMx ∨ mode = typeNs := hmode
  unfold urlParse urlExpand expandRdata
  simp only [if_neg htype.1, if_neg htype.2.1, if_neg htype.2.2]
  by_cases hmx : mode = typeMx
  · simp only [if_pos hmx]
    cases hload : load16 buf src with
    | error e => exact ⟨addition, rfl⟩
    | ok pref =>
      refine ⟨pref, ?_⟩
      simp only [ok_bind, Pure.pure, Except.pure]
      rw [if_pos hname]
      simp only [bind_assoc]
  · refine ⟨addition, ?_⟩
    simp only [if_neg hmx, ok_bind, Pure.pure, Except.pure]
    rw [if_pos hname]
    simp only [bind_assoc]

/-- A response with one record, whose RDATA is a pointer to itself, twice. -/
def circularMessage : List UInt8 :=
  Header.encode ⟨0x1234, 0x8180, 0, 1, 0, 0⟩ ++
    WireRecord.encode ⟨[0xc0, 12], typeCname, 1, 60, be16 0xc018 ++ be16 0xc018⟩

theorem circular_self : Circular circularMessage 24 4 := by
  have hload : load16 circularMessage (((24 : Nat) : Int) + (4 : Nat) - 2) = .ok 0xc018 := rfl
  refine ⟨⟨2, 24⟩, ⟨⟨2, 24⟩, ⟨by decide, 0xc018, hload, rfl, rfl⟩, .refl⟩, .single ⟨0xc018, ?_, rfl⟩⟩
  exact .jump (y := 0xc018) rfl rfl (At.middle (circularMessage.take 24) _ [])

/-- Decompression stays in `temp`: RDLEN covers the preference, `temp_pos` starts in `temp`, and nothing is
written outside, however long the loops run. -/
def InTemp (buf : List UInt8) (src : Nat) (mode len : UInt16) (stale : List UInt8) : Prop :=
  nameSkip mode ≤ len.toNat ∧ (2 ≤ nameLen mode len ∧ nameLen mode len - 2 ≤ 254) ∧
    ∀ fuel, urlExpand buf fuel src mode len stale ≠ .error .write

/-- It does so if and only if RDLEN leaves two bytes for the name, which fit `temp` or are not there, and
every label and terminator that is appended fits as well. -/
theorem urlParse_inTemp (buf : List UInt8) (src : Nat) (mode len : UInt16) (stale : List UInt8) :
    InTemp buf src mode len stale ↔
      nameSkip mode + 2 ≤ len.toNat ∧ len.toNat ≤ nameSkip mode + 256 ∧
        (len.toNat ≤ nameSkip mode + 255 ∨ buf.length ≤ src + nameSkip mode + 255) ∧
        Fits buf (src + nameSkip mode) (len.toNat - nameSkip mode) := by
  rw [InTemp]
  by_cases hskip : nameSkip mode ≤ len.toNat
  · have hn : nameLen mode len = len.toNat - nameSkip mode := nameLen_eq hskip
    have hw : (∀ fuel, urlExpand buf fuel src mode len stale ≠ .error .write) ↔
        (nameLen mode len ≤ 255 ∨ buf.length ≤ src + nameSkip mode + 255) ∧
          Fits buf (src + nameSkip mode) (nameLen mode len) := by
      rcases urlExpand_cases buf src mode len stale with ⟨-, heq⟩ | ⟨hlt, heq⟩
      · simp only [heq]
        rw [← not_exists, expandRdata_write, not_or, not_not, not_and_or, Nat.not_lt, Nat.not_lt]
      · refine ⟨fun _ => ⟨.inr (by omega), ?_⟩, fun _ fuel => by rw [heq]; nofun⟩
        rintro m ⟨k, hk, -⟩
        have := hk.le_length
        omega
    rw [hw, hn]
    constructor
    · rintro ⟨-, ⟨h1, h2⟩, h3, hfits⟩
      exact ⟨by omega, by omega, by omega, hfits⟩
    · rintro ⟨h1, h2, h3, hfits⟩
      exact ⟨hskip, ⟨by omega, by omega⟩, by omega, hfits⟩
  · exact ⟨fun h => absurd h.1 hskip, fun h => absurd (Nat.le_of_add_right_le h.1) hskip⟩

/-- A response with one record: six bytes of RDATA that are a label and two pointers to it. -/
def growingMessage : List UInt8 :=
  Header.encode ⟨0x1234, 0x8180, 0, 1, 0, 0⟩ ++
    WireRecord.encode ⟨[0xc0, 12], typeCname, 1, 60, [1, 97] ++ be16 0xc018 ++ be16 0xc018⟩

/-- The label is appended until `temp` is full, and once more. -/
theorem urlParse_overflow : ¬ InTemp growingMessage 24 typeCname 6 [] ∧
    packetParse .decimal .zero growingMessage 30 = .error .write := by
  refine ⟨fun h => h.2.2 expandFuel ?_, ?_⟩ <;> decide +kernel

end

end DnsRelay
