import DnsRelay.Lib.Labels
import DnsRelay.Packet

/-!
# Well-formed names

What the conversions do to a name whose labels hold 1 to 63 bytes without `.` or NUL: `inetParse`
writes its dotted text, `inetFormat` the wire form.
-/

namespace DnsRelay
open ByteSeq Exec

abbrev ValidName (ls : List (List UInt8)) : Prop := Labels.Valid dot ls

/-- The dotted text of a name. -/
abbrev dotted (ls : List (List UInt8)) : List UInt8 := Labels.dotted dot ls

theorem ValidName.zero_notMem {ls : List (List UInt8)} (h : ValidName ls) : 0 ∉ dotted ls :=
  Labels.zero_notMem_dotted (by decide) (Labels.Valid.zero_notMem h)

theorem schar_of_le {b : UInt8} {n : Nat} (h : b.toNat = n) (hn : n ≤ 63) : schar b = n := by
  rw [schar, if_pos (by omega), h]

/-- The label loop of `inetParse`, from `pos` on. -/
theorem labelWalk_eq {src : List UInt8} {off pos : Nat} {ls : List (List UInt8)} {fuel : Nat} {dest : Block}
    (hsrc : At src (off + pos) (Labels.encode ls)) (hls : Labels.Sized ls)
    (hfuel : ls.length < fuel) (hroom : pos + (Labels.dots dot ls).length ≤ dest.size) :
    labelWalk src off fuel pos dest = .ok (((pos + (Labels.dots dot ls).length : Nat) : Int),
      dest.patch pos (Labels.dots dot ls)) := by
  induction ls generalizing pos fuel dest with
  | nil =>
    obtain ⟨fuel, rfl⟩ := Nat.exists_eq_add_one.2 hfuel
    have h0 : load src ((off : Int) + pos) = .ok 0 := load_at (p := off + pos) hsrc
    rw [labelWalk, h0]
    rfl
  | cons l ls ih =>
    obtain ⟨fuel, rfl⟩ := Nat.exists_eq_add_one.2 (Nat.zero_lt_of_lt hfuel)
    obtain ⟨hlen, hne⟩ := hls.length_byte List.mem_cons_self
    have hle := (hls l List.mem_cons_self).2
    rw [Labels.encode, Labels.prefixed_cons, List.cons_append, List.append_assoc] at hsrc
    rw [Labels.dots_cons] at hroom ⊢
    simp only [List.length_append, List.length_cons] at hroom
    have h0 : load src ((off : Int) + pos) = .ok (UInt8.ofNat l.length) := load_at (p := off + pos) hsrc
    have hl : At src (off + pos + 1) l := (At.cons_iff.1 hsrc).2.left
    have hrest : At src (off + (pos + l.length + 1)) (Labels.encode ls) := by
      have := (At.cons_iff.1 hsrc).2.right
      rwa [show off + pos + 1 + l.length = off + (pos + l.length + 1) by omega] at this
    have hcopy : dest.copy pos src ((off : Int) + pos + 1) l.length = .ok (dest.patch pos l) := by
      exact_mod_cast Block.copy_eq hl (by omega)
    have hdot : (dest.patch pos l).store ((pos : Int) + l.length) dot =
        .ok ((dest.patch pos l).patch (pos + l.length) [dot]) := by
      exact_mod_cast Block.store_eq dot (by rw [Block.patch_size]; omega)
    have hclip : (if schar (UInt8.ofNat l.length) > 64 then 64 else schar (UInt8.ofNat l.length)) =
        (l.length : Int) := by
      rw [schar_of_le hlen hle, if_neg (by omega)]
    rw [labelWalk, h0]
    simp only [ok_bind, if_neg hne, hclip, Int.toNat_natCast, hcopy, hdot]
    have hpos : (pos : Int) + ((l.length : Int) + 1) = ((pos + l.length + 1 : Nat) : Int) := by
      push_cast; omega
    rw [hpos, ih hrest hls.tail (by simp only [List.length_cons] at hfuel; omega)
      (by simp only [Block.patch_size]; omega)]
    refine congrArg Except.ok (Prod.ext ?_ ?_)
    · simp only [List.length_append, List.length_cons]
      congr 1; omega
    · rw [Block.patch_append, ← List.singleton_append, Block.patch_append]
      rfl

theorem inetParse_name {C : Libc} {src : List UInt8} {off : Nat} {ls : List (List UInt8)} {dest : Block}
    (hsrc : At src off (Labels.encode ls)) (hls : Labels.Sized ls) (hne : ls ≠ [])
    (hroom : (dotted ls).length + 1 ≤ dest.size) :
    inetParse C .max src off dest = .ok (dest.patch 0 (dotted ls ++ [0])) := by
  have hdots : (Labels.dots dot ls).length = (dotted ls).length + 1 := Labels.length_dots hne
  have htwo := Labels.two_mul_length_le dot fun l hl => (hls l hl).1
  have hwalk : labelWalk src off (dest.size + 2) 0 dest = _ :=
    labelWalk_eq (show At src (off + 0) _ from hsrc) hls (by omega)
      (by rw [Nat.zero_add]; omega)
  have hpos : (((0 + (Labels.dots dot ls).length : Nat) : Int) - 1) = ((dotted ls).length : Nat) := by
    omega
  rw [inetParse, hwalk, ok_bind]
  simp only [hpos]
  rw [Block.store_eq 0 (by rw [Block.patch_size]; omega), Labels.dots_eq hne]
  refine congrArg Except.ok (Block.ext' rfl ?_)
  have hfit := dest.size_le
  have := patch_overwrite dest.bytes 0 (dotted ls) [dot] [0] rfl (by
    simp only [List.length_append, List.length_singleton]; omega)
  rwa [Nat.zero_add] at this

/-- Whatever the bytes, the text that `inetParse` makes of a name ends inside the buffer. -/
theorem labelWalk_size {src : List UInt8} {off pos pos' : Int} {fuel : Nat} {dest dest' : Block}
    (h : labelWalk src off fuel pos dest = .ok (pos', dest')) : dest'.size = dest.size := by
  induction fuel generalizing pos dest with
  | zero => cases h
  | succ fuel ih =>
    obtain ⟨c, -, h⟩ := bind_ok.1 h
    dsimp only at h
    split at h
    · cases h; rfl
    · obtain ⟨dest₁, hcopy, h⟩ := bind_ok.1 h
      obtain ⟨dest₂, hstore, h⟩ := bind_ok.1 h
      obtain ⟨p, -, rfl⟩ := Block.store_ok hstore
      rw [ih h, Block.patch_size, Block.copy_size hcopy]

theorem inetParse_max {C : Libc} {src : List UInt8} {off : Int} {dest dest' : Block}
    (h : inetParse C .max src off dest = .ok dest') : ∃ p < dest.size, dest'.bytes[p]? = some 0 := by
  obtain ⟨⟨pos, dest₁⟩, hwalk, h⟩ := bind_ok.1 h
  obtain ⟨p, hp, rfl⟩ := Block.store_ok h
  have hsize := labelWalk_size hwalk
  have hat : At (dest₁.patch p [0]).bytes p [0] := Block.at_patch (Nat.succ_le_of_lt hp)
  exact ⟨p, by omega, (At.cons_iff.1 hat).1⟩

/-- The loop writes every byte before `dest[pos]`, whatever was there. -/
theorem labelWalk_agree {src : List UInt8} {off pos pos' : Int} {fuel : Nat} {dest dest' b : Block}
    (hb : Block.AgreeTo pos dest b) (h : labelWalk src off fuel pos dest = .ok (pos', dest')) :
    ∃ b', labelWalk src off fuel pos b = .ok (pos', b') ∧ Block.AgreeTo pos' dest' b' := by
  induction fuel generalizing pos dest b with
  | zero => cases h
  | succ fuel ih =>
    obtain ⟨c, hc, h⟩ := bind_ok.1 h
    rw [labelWalk, hc, ok_bind]
    dsimp only at h ⊢
    split at h
    case isTrue h0 =>
      cases h
      exact ⟨b, if_pos h0, hb⟩
    case isFalse h0 =>
      rw [if_neg h0]
      obtain ⟨dest₁, hcopy, h⟩ := bind_ok.1 h
      obtain ⟨dest₂, hstore, h⟩ := bind_ok.1 h
      obtain ⟨b₁, hcopy', hb₁⟩ := hb.copy hcopy
      obtain ⟨b₂, hstore', hb₂⟩ := hb₁.store (by omega) hstore
      rw [hcopy', ok_bind, hstore', ok_bind]
      exact ih (hb₂.mono (by omega)) h

/-- The text that `inetParse` makes of a name and its NUL are written by it: they do not depend on what was in
`dest`. -/
theorem inetParse_written {C : Libc} {src : List UInt8} {off : Int} {dest dest' : Block}
    (h : inetParse C .max src off dest = .ok dest') :
    ∃ s, 0 ∉ s ∧ s.length < dest.size ∧ At dest'.bytes 0 (s ++ [0]) ∧
      ∀ b : Block, b.size = dest.size → ∃ b', inetParse C .max src off b = .ok b' ∧ At b'.bytes 0 (s ++ [0]) := by
  obtain ⟨⟨pos, dest₁⟩, hwalk, hstore⟩ := bind_ok.1 h
  dsimp only at hstore
  have hsize := labelWalk_size hwalk
  obtain ⟨k, hk⟩ : ∃ k : Nat, pos - 1 = k := by
    cases hi : pos - 1 with
    | ofNat k => exact ⟨k, rfl⟩
    | negSucc k =>
      rw [hi] at hstore
      cases hstore
  have hstore₁ := hstore
  rw [hk] at hstore₁
  obtain ⟨hlt, rfl⟩ := Block.store_inv hstore₁
  have h0 : (dest₁.patch k [0]).bytes[k]? = some 0 := (At.cons_iff.1 (Block.at_patch hlt)).1
  obtain ⟨s, hs⟩ := exists_cstr (List.mem_of_getElem? h0)
  have hlen := cstr_length_le hs h0
  obtain ⟨hz, hat⟩ := cstr_ok hs
  refine ⟨s, hz, by omega, hat, fun b hb => ?_⟩
  obtain ⟨b₁, hwalk', hb₁⟩ := labelWalk_agree (.zero hb.symm) hwalk
  obtain ⟨b₂, hstore', hb₂⟩ := hb₁.store (by omega) hstore
  refine ⟨b₂, ?_, fun i hi => ?_⟩
  · rw [inetParse, hb, hwalk', ok_bind]
    exact hstore'
  · rw [← hb₂.bytes (0 + i) (by rw [List.length_append, List.length_singleton] at hi; omega)]
    exact hat i hi

/-! ### Addresses -/

/-- `b` is an address of record type `type`, which is A or AAAA. -/
def IsAddress (type : UInt16) (b : List UInt8) : Prop :=
  type = typeA ∧ b.length = 4 ∨ type = typeAaaa ∧ b.length = 16

/-- The text of an address of type A or AAAA. -/
def addressText (C : Libc) (type : UInt16) (b : List UInt8) : List UInt8 :=
  if type = typeA then C.ntop4 b else C.ntop6 b

section
variable {C : Libc} {type : UInt16} {buf b : List UInt8} {p : Nat} {dest : Block}

theorem IsAddress.length_le (h : IsAddress type b) : b.length ≤ 16 ∧ b.length ≤ typeBufSize type := by
  rcases h with ⟨rfl, hb⟩ | ⟨rfl, hb⟩ <;> rw [hb] <;> decide

theorem IsAddress.text (hC : C.Lawful) (h : IsAddress type b) :
    0 ∉ addressText C type b ∧ (addressText C type b).length + 1 ≤ typeBufSize type := by
  rcases h with ⟨rfl, hb⟩ | ⟨rfl, hb⟩
  · obtain ⟨hz, hl⟩ := hC.text4 b hb
    exact ⟨hz, show (C.ntop4 b).length + 1 ≤ 22 by omega⟩
  · obtain ⟨hz, hl⟩ := hC.text6 b hb
    exact ⟨hz, show (C.ntop6 b).length + 1 ≤ 50 by omega⟩

/-- `urlParse` turns an address into its text. -/
theorem urlParse_address (hC : C.Lawful) (h : IsAddress type b) (hbuf : At buf p b)
    (hsize : dest.size = typeBufSize type) (addition len : UInt16) (stale : List UInt8) :
    urlParse C buf p dest addition type len stale =
      .ok (dest.patch 0 (addressText C type b ++ [0]), addition) := by
  have hload := loadBytes_at hbuf
  have hstore := Block.storeBytes_eq (b := dest) (p := 0)
    (show 0 + (addressText C type b ++ [0]).length ≤ _ by
      have := (h.text hC).2
      rw [List.length_append, List.length_singleton]; omega)
  rcases h with ⟨rfl, hb⟩ | ⟨rfl, hb⟩
  · have hlen := (hC.text4 b hb).2
    rw [hb] at hload
    have hinet : inetParse C .inet buf p dest = .ok (dest.patch 0 (C.ntop4 b ++ [0])) := by
      rw [inetParse, hload]
      simp only [ok_bind, if_pos (show (C.ntop4 b).length + 1 ≤ 16 by omega)]
      exact hstore
    rw [urlParse, if_neg (by decide), if_pos rfl, hinet]
    rfl
  · have hlen := (hC.text6 b hb).2
    rw [hb] at hload
    have hinet : inetParse C .inet6 buf p dest = .ok (dest.patch 0 (C.ntop6 b ++ [0])) := by
      rw [inetParse, hload]
      simp only [ok_bind, if_pos (show (C.ntop6 b).length + 1 ≤ 40 by omega)]
      exact hstore
    rw [urlParse, if_neg (by decide), if_neg (by decide), if_pos rfl, hinet]
    rfl

/-- `urlFormat` turns the text back into the address. -/
theorem urlFormat_address (hC : C.Lawful) (h : IsAddress type b) {url : List UInt8}
    (hurl : cstr url = .ok (addressText C type b)) (hroom : b.length ≤ dest.size) (name : List UInt8)
    (pointer addition : UInt16) :
    urlFormat C url dest type name pointer addition = .ok ((b.length : Int), dest.patch 0 b) := by
  have hstore := Block.storeBytes_eq (b := dest) (p := 0) (show 0 + b.length ≤ _ by omega)
  rcases h with ⟨rfl, hb⟩ | ⟨rfl, hb⟩
  · have hurl : cstr url = .ok (C.ntop4 b) := hurl
    rw [urlFormat, if_pos rfl, inetFormat, hurl]
    simp only [ok_bind, hC.inv4 b hb]
    rw [hstore, hb]
    rfl
  · have hurl : cstr url = .ok (C.ntop6 b) := hurl
    rw [urlFormat, if_neg (by decide), if_pos rfl, inetFormat, hurl]
    simp only [ok_bind, hC.inv6 b hb]
    rw [hstore, hb]
    rfl

end

end DnsRelay
