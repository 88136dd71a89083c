import DnsRelay.Names

/-!
# Compressed names in RDATA

`NameAt` is a well-formed compressed name. `urlParse` copies the bytes of the RDATA and then follows
the pointer at their end; the walk takes a pointer it meets for the end of the name unless two
further bytes look like a pointer as well. `Copied` is what the walk copies. `nameText_iff` says for
which names a text comes out.
-/

namespace DnsRelay
open ByteSeq Exec

theorem isNamePtr_iff (x : UInt16) : isNamePtr x = true ↔ 49152 ≤ x.toNat := by
  have hx := x.toNat_lt
  have hdiv := Nat.and_div_two_pow (a := x.toNat) (b := 49152) (n := 14)
  have hmod := Nat.and_mod_two_pow (a := x.toNat) (b := 49152) (n := 14)
  rw [show 49152 % 2 ^ 14 = 0 from rfl, Nat.and_zero] at hmod
  have hand : x.toNat &&& 49152 = 16384 * (x.toNat / 16384 &&& 3) := by
    rw [show 49152 / 2 ^ 14 = 3 from rfl, show (2 : Nat) ^ 14 = 16384 from rfl] at hdiv
    rw [show (2 : Nat) ^ 14 = 16384 from rfl] at hmod
    omega
  rw [isNamePtr, decide_eq_true_iff, ← UInt16.toNat_inj, UInt16.toNat_and,
    show (0xc000 : UInt16).toNat = 49152 from rfl,
    hand]
  have hq : x.toNat / 16384 < 4 := by omega
  rcases (by omega : x.toNat / 16384 = 0 ∨ x.toNat / 16384 = 1 ∨ x.toNat / 16384 = 2 ∨ x.toNat / 16384 = 3) with
    h | h | h | h <;> rw [h] <;> simp <;> omega

/-- A pointer does not start with a zero. -/
theorem pointer_byte {x : UInt16} (hx : isNamePtr x = true) : UInt8.ofNat (x.toNat / 256) ≠ 0 := fun h0 => by
  have hlt := x.toNat_lt
  have hle := (isNamePtr_iff x).1 hx
  have := congrArg UInt8.toNat h0
  rw [UInt8.toNat_ofNat', show (0 : UInt8).toNat = 0 from rfl] at this
  omega

theorem word16_toNat (hi lo : UInt8) : (word16 hi lo).toNat = hi.toNat * 256 + lo.toNat := by
  have h₁ := hi.toNat_lt
  have h₂ := lo.toNat_lt
  rw [word16, UInt16.toNat_ofNat', Nat.mod_eq_of_lt (by omega)]

/-- Whether two bytes are a pointer shows in the first. -/
theorem isNamePtr_word16 (hi lo : UInt8) : isNamePtr (word16 hi lo) = true ↔ 192 ≤ hi.toNat := by
  have := lo.toNat_lt
  rw [isNamePtr_iff, word16_toNat]
  omega

theorem isNamePtr_at {m : List UInt8} {p : Nat} {x : UInt16} {b : UInt8} (h : At m p (be16 x))
    (hb : m[p]? = some b) : isNamePtr x = true ↔ 192 ≤ b.toNat := by
  have h0 := (At.cons_iff.1 h).1
  rw [hb] at h0
  have hx := x.toNat_lt
  rw [isNamePtr_iff, Option.some.inj h0, UInt8.toNat_ofNat']
  omega

/-- A name in the message `m`: at `p` of the name that starts at `s`, and up to `e`, stand labels and
then the root or a pointer to an earlier name. -/
inductive NameAt (m : List UInt8) : Nat → Nat → Nat → List (List UInt8) → Prop
  | root {s p : Nat} (h : m[p]? = some 0) : NameAt m s p (p + 1) []
  | label {s p e : Nat} {l : List UInt8} {ls : List (List UInt8)} (h0 : 0 < l.length) (h63 : l.length ≤ 63)
      (hl : At m p (UInt8.ofNat l.length :: l)) (hrest : NameAt m s (p + (l.length + 1)) e ls) :
      NameAt m s p e (l :: ls)
  | pointer {s p e : Nat} {x : UInt16} {ls : List (List UInt8)} (hx : isNamePtr x = true)
      (hat : At m p (be16 x)) (hlt : (getQnamePtr x).toNat < s)
      (hname : NameAt m (getQnamePtr x).toNat (getQnamePtr x).toNat e ls) : NameAt m s p (p + 2) ls

/-- The labels that the walk of `urlParse` copies from `p` on, in the name that starts at `s`. -/
inductive Copied (buf : List UInt8) : Nat → Nat → List (List UInt8) → Prop
  | root {s p : Nat} (h : buf[p]? = some 0) : Copied buf s p []
  | label {s p : Nat} {l : List UInt8} {ls : List (List UInt8)} (h0 : 0 < l.length) (h63 : l.length ≤ 63)
      (hl : At buf p (UInt8.ofNat l.length :: l)) (hrest : Copied buf s (p + (l.length + 1)) ls) :
      Copied buf s p (l :: ls)
  | jump {s p : Nat} {x y : UInt16} {ls : List (List UInt8)} (hx : isNamePtr x = true) (hy : isNamePtr y = true)
      (hat : At buf p (be16 x ++ be16 y)) (hlt : (getQnamePtr x).toNat < s)
      (hrest : Copied buf (getQnamePtr x).toNat (getQnamePtr x).toNat ls) : Copied buf s p ls
  | cut {s p : Nat} {x y : UInt16} (hx : isNamePtr x = true) (hy : isNamePtr y = false)
      (hat : At buf p (be16 x ++ be16 y)) : Copied buf s p []

/-- The walk from `p` comes to a label before it stops. -/
inductive Reaches (buf : List UInt8) : Nat → Prop
  | label {p : Nat} {b : UInt8} (h : buf[p]? = some b) (h0 : b ≠ 0) (hb : b.toNat < 192) : Reaches buf p
  | jump {p : Nat} {x y : UInt16} (hx : isNamePtr x = true) (hy : isNamePtr y = true)
      (hat : At buf p (be16 x ++ be16 y)) (hrest : Reaches buf (getQnamePtr x).toNat) : Reaches buf p

/-- The name at `p` starts with a label, or is a pointer from whose target the walk comes to one. -/
inductive Expands (buf : List UInt8) (p : Nat) : Prop
  | label {b : UInt8} (h : buf[p]? = some b) (h0 : b ≠ 0) (hb : b.toNat < 192)
  | pointer {x : UInt16} (hx : isNamePtr x = true) (hat : At buf p (be16 x))
      (hrest : Reaches buf (getQnamePtr x).toNat)

section
variable {m buf tail : List UInt8} {s p e : Nat} {l : List UInt8} {ls : List (List UInt8)}

theorem exists_be16 {xs : List UInt8} (h : xs.length = 2) : ∃ x, xs = be16 x := by
  obtain ⟨a, b, rfl⟩ := List.length_eq_two.1 h
  have ha := a.toNat_lt
  have hb := b.toNat_lt
  refine ⟨word16 a b, ?_⟩
  simp only [be16, word16_toNat, List.cons.injEq, and_true]
  exact ⟨UInt8.toNat_inj.1 (by rw [UInt8.toNat_ofNat']; omega),
    UInt8.toNat_inj.1 (by rw [UInt8.toNat_ofNat']; omega)⟩

theorem exists_at_be16 (h : p + 2 ≤ buf.length) : ∃ x, At buf p (be16 x) := by
  obtain ⟨x, hx⟩ := exists_be16 (show ((buf.drop p).take 2).length = 2 by
    rw [List.length_take, List.length_drop]; omega)
  exact ⟨x, hx ▸ At.slice buf p 2⟩

/-- Of a well-formed name the walk copies the first labels. -/
theorem NameAt.copied (h : NameAt m s p e ls) (htail : 2 ≤ tail.length) :
    ∃ ls', ls' <+: ls ∧ Copied (m ++ tail) s p ls' := by
  induction h with
  | @root s p h =>
    refine ⟨[], List.prefix_rfl, .root ?_⟩
    rw [List.getElem?_append_left (List.getElem?_eq_some_iff.1 h).1, h]
  | @label s p e l ls h0 h63 hl hrest ih =>
    obtain ⟨ls', hpre, hcop⟩ := ih
    exact ⟨l :: ls', (List.prefix_cons_inj l).2 hpre, .label h0 h63 (hl.append_right tail) hcop⟩
  | @pointer s p e x ls hx hat hlt hname ih =>
    have hp := hat.le_length (List.cons_ne_nil _ _)
    rw [length_be16] at hp
    obtain ⟨y, hy⟩ := exists_at_be16 (show p + 2 + 2 ≤ (m ++ tail).length by
      rw [List.length_append]; omega)
    have hboth := (hat.append_right tail).append hy
    cases hptr : isNamePtr y with
    | false => exact ⟨[], List.nil_prefix, .cut hx hptr hboth⟩
    | true =>
      obtain ⟨ls', hpre, hcop⟩ := ih
      exact ⟨ls', hpre, .jump hx hptr hboth hlt hcop⟩

theorem label_byte (h0 : 0 < l.length) (h63 : l.length ≤ 63) :
    (UInt8.ofNat l.length).toNat = l.length ∧ UInt8.ofNat l.length ≠ 0 :=
  (show Labels.Sized [l] from fun l' hl' => by rw [List.mem_singleton.1 hl']; exact ⟨h0, h63⟩).length_byte
    List.mem_cons_self

theorem Copied.ne_nil_iff (h : Copied buf s p ls) : ls ≠ [] ↔ Reaches buf p := by
  have hptr : ∀ {p : Nat} {x y : UInt16}, At buf p (be16 x ++ be16 y) → isNamePtr x = true →
      ∃ b, buf[p]? = some b ∧ 192 ≤ b.toNat := fun hat hx =>
    ⟨_, (At.cons_iff.1 hat).1, (isNamePtr_at hat.left (At.cons_iff.1 hat).1).1 hx⟩
  induction h with
  | @root s p h =>
    refine ⟨fun hne => absurd rfl hne, fun hr => ?_⟩
    cases hr with
    | label h' h0 => exact absurd (Option.some.inj (h'.symm.trans h)) h0
    | jump hx _ hat =>
      obtain ⟨b, hb, hle⟩ := hptr hat hx
      rw [Option.some.inj (hb.symm.trans h)] at hle
      exact absurd hle (by decide)
  | @label s p l ls h0 h63 hl =>
    obtain ⟨hn, hne⟩ := label_byte h0 h63
    exact ⟨fun _ => .label (At.cons_iff.1 hl).1 hne (by omega), fun _ => List.cons_ne_nil l ls⟩
  | @jump s p x y ls hx hy hat _ _ ih =>
    refine ih.trans ⟨fun hr => .jump hx hy hat hr, fun hr => ?_⟩
    cases hr with
    | label h' _ hb =>
      obtain ⟨b, hb', hle⟩ := hptr hat hx
      rw [Option.some.inj (h'.symm.trans hb')] at hb
      omega
    | jump _ _ hat' hr =>
      rwa [be16_inj (hat.left.unique hat'.left rfl)]
  | @cut s p x y hx hy hat =>
    refine ⟨fun hne => absurd rfl hne, fun hr => ?_⟩
    cases hr with
    | label h' _ hb =>
      obtain ⟨b, hb', hle⟩ := hptr hat hx
      rw [Option.some.inj (h'.symm.trans hb')] at hb
      omega
    | jump _ hy' hat' _ =>
      rw [be16_inj (hat.right.unique hat'.right rfl), hy'] at hy
      cases hy

/-! ### The walk -/

/-- The first two bytes of a label are no pointer. -/
theorem load16_label (h0 : 0 < l.length) (h63 : l.length ≤ 63) (hl : At buf p (UInt8.ofNat l.length :: l)) :
    ∃ x, load16 buf p = .ok x ∧ isNamePtr x = false := by
  obtain ⟨b, l, rfl⟩ := List.exists_cons_of_length_pos h0
  obtain ⟨hn, -⟩ := label_byte h0 h63
  have hload : load16 buf p = .ok (word16 (UInt8.ofNat (b :: l).length) b) := by
    rw [load16, load_at hl, load_at_succ hl]
    rfl
  refine ⟨_, hload, ?_⟩
  rw [Bool.eq_false_iff, ne_eq, isNamePtr_word16, hn]
  omega

/-- From a name on, the two loops of `urlParse` append the labels that are copied. Each label takes one
round of the inner loop, and each pointer one of the outer loop, to an earlier name. -/
theorem Copied.walk (h : Copied buf s p ls) {temp : Block} {pos fuelC fuelE : Nat} (hC : ls.length < fuelC)
    (hcopy : ls.length < copyFuel) (hE : s < fuelE) (hroom : pos + (Labels.encode ls).length ≤ temp.size) :
    (do
      let (temp, pos, namePtr) ← copyName buf fuelC temp pos p
      expandName buf fuelE temp pos namePtr : Exec Block) = .ok (temp.patch pos (Labels.encode ls)) := by
  induction h generalizing temp pos fuelC fuelE with
  | @root s p h =>
    obtain ⟨fuelC, rfl⟩ := Nat.exists_eq_add_one.2 (Nat.zero_lt_of_lt hC)
    obtain ⟨fuelE, rfl⟩ := Nat.exists_eq_add_one.2 (Nat.zero_lt_of_lt hE)
    rw [copyName, load_ok.2 h, ok_bind, if_pos rfl, Block.store_eq 0 (Nat.lt_of_succ_le hroom)]
    rfl
  | @label s p l ls h0 h63 hl hrest ih =>
    obtain ⟨fuelC, rfl⟩ := Nat.exists_eq_add_one.2 (Nat.zero_lt_of_lt hC)
    obtain ⟨hn, hne⟩ := label_byte h0 h63
    obtain ⟨x, hx, hptr⟩ := load16_label h0 h63 hl
    rw [List.length_cons] at hC hcopy
    rw [Labels.encode_cons] at hroom ⊢
    rw [List.length_append, List.length_cons] at hroom
    have hcp := Block.copy_eq (b := temp) (p := pos) hl (by rw [List.length_cons]; omega)
    rw [List.length_cons] at hcp
    have ih := ih (show ls.length < fuelC by omega) (by omega) hE (show pos + (l.length + 1) +
      (Labels.encode ls).length ≤ (temp.patch pos (UInt8.ofNat l.length :: l)).size by rw [Block.patch_size]; omega)
    rw [copyName, load_at hl, ok_bind, if_neg hne, hx, ok_bind, hptr, if_neg Bool.false_ne_true, hn, hcp, ok_bind,
      show (pos : Int) + ((l.length : Int) + 1) = ((pos + (l.length + 1) : Nat) : Int) by push_cast; rfl, ih,
      Block.patch_append, List.length_cons]
  | @jump s p x y ls hx hy hat hlt hrest ih =>
    obtain ⟨fuelC, rfl⟩ := Nat.exists_eq_add_one.2 (Nat.zero_lt_of_lt hC)
    obtain ⟨fuelE, rfl⟩ := Nat.exists_eq_add_one.2 (Nat.zero_lt_of_lt hE)
    have h0 := pointer_byte hx
    have hload : load16 buf ((p : Int) + 2) = .ok y := load16_at (p := p + 2) hat.right
    rw [copyName, load_at hat, ok_bind, if_neg h0, load16_at hat.left, ok_bind, hx, if_pos rfl, hload, ok_bind, hy,
      if_pos rfl]
    simp only [Pure.pure, Except.pure, ok_bind]
    rw [expandName, if_pos hx]
    exact ih hcopy hcopy (by omega) hroom
  | @cut s p x y hx hy hat =>
    obtain ⟨fuelC, rfl⟩ := Nat.exists_eq_add_one.2 (Nat.zero_lt_of_lt hC)
    obtain ⟨fuelE, rfl⟩ := Nat.exists_eq_add_one.2 (Nat.zero_lt_of_lt hE)
    have h0 := pointer_byte hx
    have hload : load16 buf ((p : Int) + 2) = .ok y := load16_at (p := p + 2) hat.right
    rw [copyName, load_at hat, ok_bind, if_neg h0, load16_at hat.left, ok_bind, hx, if_pos rfl, hload, ok_bind, hy,
      if_neg Bool.false_ne_true, Block.store_eq 0 (Nat.lt_of_succ_le hroom)]
    rfl

/-! ### The text of a name -/

/-- What `urlParse` does with a name of `n` bytes at `src` up to its call of `inetParse`; the outer loop
has `fuel` rounds. -/
def expandRdata (buf : List UInt8) (fuel src n : Nat) (stale : List UInt8) : Exec Block := do
  let temp ← (Block.fresh 255 stale).copy 0 buf src n
  let namePtr ← load16 buf (src + n - 2)
  expandName buf fuel temp (n - 2) namePtr

/-- What `urlParse` does for CNAME and NS, and for MX behind the preference. -/
def nameText (C : Libc) (buf : List UInt8) (src n : Nat) (dest : Block) (stale : List UInt8) : Exec Block := do
  let temp ← (Block.fresh 255 stale).copy 0 buf src n
  let namePtr ← load16 buf (src + n - 2)
  let temp ← expandName buf expandFuel temp (n - 2) namePtr
  inetParse C .max temp.bytes 0 dest

/-- The `n` bytes of the message `m` from `p` on are the name `ls`. -/
structure RdataName (m : List UInt8) (p n : Nat) (ls : List (List UInt8)) : Prop where
  name : NameAt m p p (p + n) ls
  ne_nil : ls ≠ []
  ascii : ∀ l ∈ ls, ∀ b ∈ l, b.toNat < 128
  length_le : (Labels.encode ls).length ≤ 255

theorem NameAt.sized (h : NameAt m s p e ls) : Labels.Sized ls := by
  induction h with
  | root => nofun
  | label h0 h63 _ _ ih =>
    intro l hl
    rcases List.mem_cons.1 hl with rfl | hl
    · exact ⟨h0, h63⟩
    · exact ih l hl
  | pointer _ _ _ _ ih => exact ih

/-- A name is labels in place and then the root or a pointer. -/
theorem NameAt.split (h : NameAt m s p e ls) : ∃ pre suf, ls = pre ++ suf ∧ At m p (Labels.prefixed pre) ∧
    (suf = [] ∧ m[p + (Labels.prefixed pre).length]? = some 0 ∧ e = p + (Labels.prefixed pre).length + 1 ∨
      ∃ x e', isNamePtr x = true ∧ At m (p + (Labels.prefixed pre).length) (be16 x) ∧
        NameAt m (getQnamePtr x).toNat (getQnamePtr x).toNat e' suf ∧
        e = p + (Labels.prefixed pre).length + 2) := by
  induction h with
  | @root s p h => exact ⟨[], [], rfl, .nil, .inl ⟨rfl, h, rfl⟩⟩
  | @pointer s p e x ls hx hat hlt hname => exact ⟨[], ls, rfl, .nil, .inr ⟨x, e, hx, hat, hname, rfl⟩⟩
  | @label s p e l ls h0 h63 hl hrest ih =>
    obtain ⟨pre, suf, rfl, hpre, hend⟩ := ih
    have hlen : p + (Labels.prefixed (l :: pre)).length = p + (l.length + 1) + (Labels.prefixed pre).length := by
      rw [Labels.prefixed_cons, List.length_cons, List.length_append]
      omega
    refine ⟨l :: pre, suf, rfl, ?_, by rw [hlen]; exact hend⟩
    rw [Labels.prefixed_cons, ← List.cons_append]
    exact hl.append hpre

theorem NameAt.lt (h : NameAt m s p e ls) : p < e := by
  obtain ⟨pre, suf, -, -, ⟨-, -, rfl⟩ | ⟨x, e', -, -, -, rfl⟩⟩ := h.split <;> omega

theorem getQnamePtr_toNat (p : UInt16) : (getQnamePtr p).toNat = p.toNat % 16384 := by
  rw [getQnamePtr, UInt16.toNat_and]
  exact Nat.and_two_pow_sub_one_eq_mod p.toNat 14

theorem prefix_length_encode_le {ls' : List (List UInt8)} (h : ls' <+: ls) :
    (Labels.encode ls').length ≤ (Labels.encode ls).length := by
  obtain ⟨suf, rfl⟩ := h
  rw [Labels.encode_append, Labels.encode]
  simp only [List.length_append, Labels.encode]
  omega

/-- A sized name of at most 255 bytes has few labels. -/
theorem length_lt_copyFuel (h : Labels.Sized ls) (hlen : (Labels.encode ls).length ≤ 255) : ls.length < copyFuel := by
  have h2 := Labels.two_mul_length_le dot fun l hl => (h l hl).1
  rw [← Labels.length_prefixed] at h2
  rw [Labels.encode, List.length_append, List.length_singleton] at hlen
  have : copyFuel = 260 := rfl
  omega

/-- The last two bytes of a name that ends in place are no pointer. -/
theorem load16_root {pre : List (List UInt8)} (hne : pre ≠ []) (hsize : Labels.Sized pre)
    (hascii : ∀ l ∈ pre, ∀ b ∈ l, b.toNat < 128) (hat : At buf p (Labels.encode pre)) :
    ∃ x, load16 buf ((p : Int) + (Labels.encode pre).length - 2) = .ok x ∧ isNamePtr x = false := by
  obtain ⟨pre, l, rfl⟩ := (List.eq_nil_or_concat pre).resolve_left hne
  rw [List.concat_eq_append] at hat hsize hascii ⊢
  have hl : l ∈ pre ++ [l] := by simp
  have hlne : l ≠ [] := List.length_pos_iff.1 (hsize l hl).1
  obtain ⟨l', b, rfl⟩ := (List.eq_nil_or_concat l).resolve_left hlne
  rw [List.concat_eq_append] at hat hl hascii ⊢
  have hb := hascii _ hl b (by simp)
  have henc : Labels.encode (pre ++ [l' ++ [b]]) =
      Labels.prefixed pre ++ UInt8.ofNat (l' ++ [b]).length :: l' ++ [b, 0] := by
    rw [Labels.encode_append, Labels.encode_cons]
    simp [Labels.encode]
  rw [henc] at hat ⊢
  have hlast := hat.right
  have hpos : (p : Int) + (Labels.prefixed pre ++ UInt8.ofNat (l' ++ [b]).length :: l' ++ [b, 0]).length - 2 =
      ((p + (Labels.prefixed pre ++ UInt8.ofNat (l' ++ [b]).length :: l').length : Nat) : Int) := by
    simp only [List.length_append, List.length_cons, List.length_nil]
    push_cast
    omega
  have hload : load16 buf ((p + (Labels.prefixed pre ++ UInt8.ofNat (l' ++ [b]).length :: l').length : Nat) : Int) =
      .ok (word16 b 0) := by
    rw [load16, load_at hlast, load_at_succ hlast]
    rfl
  refine ⟨_, hpos ▸ hload, ?_⟩
  rw [Bool.eq_false_iff, ne_eq, isNamePtr_word16]
  omega

theorem nameText_of_expand (C : Libc) (dest : Block) {stale : List UInt8} {n : Nat} {temp : Block}
    (h : expandRdata buf expandFuel p n stale = .ok temp) :
    nameText C buf p n dest stale = inetParse C .max temp.bytes 0 dest := by
  have hsplit : nameText C buf p n dest stale = (do
      let temp ← expandRdata buf expandFuel p n stale
      inetParse C .max temp.bytes 0 dest) := by
    simp only [nameText, expandRdata, bind_assoc]
  rw [hsplit, h]
  rfl

/-- `temp` after a name that ends in place. -/
theorem expandRdata_root (stale : List UInt8) (hne : ls ≠ []) (hsize : Labels.Sized ls)
    (hascii : ∀ l ∈ ls, ∀ b ∈ l, b.toNat < 128) (hat : At buf p (Labels.encode ls))
    (hlen : (Labels.encode ls).length ≤ 255) :
    ∃ temp : Block, At temp.bytes 0 (Labels.encode ls) ∧
      expandRdata buf expandFuel p (Labels.encode ls).length stale = .ok temp := by
  obtain ⟨x, hx, hptr⟩ := load16_root hne hsize hascii hat
  have hroom : 0 + (Labels.encode ls).length ≤ (Block.fresh 255 stale).size := by
    rw [Block.fresh_size]; omega
  have hcopy := Block.copy_eq hat hroom
  refine ⟨(Block.fresh 255 stale).patch 0 (Labels.encode ls), Block.at_patch hroom, ?_⟩
  rw [expandRdata, show (0 : Int) = ((0 : Nat) : Int) from rfl, hcopy, ok_bind, hx, ok_bind,
    show expandFuel = (expandFuel - 1) + 1 from rfl, expandName, hptr, if_neg Bool.false_ne_true]
  rfl

theorem nameText_root (C : Libc) (dest : Block) (stale : List UInt8) (hne : ls ≠ []) (hsize : Labels.Sized ls)
    (hascii : ∀ l ∈ ls, ∀ b ∈ l, b.toNat < 128) (hat : At buf p (Labels.encode ls))
    (hlen : (Labels.encode ls).length ≤ 255) :
    ∃ temp : Block, At temp.bytes 0 (Labels.encode ls) ∧
      nameText C buf p (Labels.encode ls).length dest stale = inetParse C .max temp.bytes 0 dest := by
  obtain ⟨temp, htemp, hexp⟩ := expandRdata_root stale hne hsize hascii hat hlen
  exact ⟨temp, htemp, nameText_of_expand C dest hexp⟩

/-- `temp` after a name that ends in a pointer from which the labels `suf` are copied. -/
theorem expandRdata_pointer (stale : List UInt8) {pre suf : List (List UInt8)} {x : UInt16}
    (hx : isNamePtr x = true) (hat : At buf p (Labels.prefixed pre ++ be16 x))
    (hcop : Copied buf (getQnamePtr x).toNat (getQnamePtr x).toNat suf) (hsize : Labels.Sized suf)
    (hlen : (Labels.encode (pre ++ suf)).length ≤ 255) (hn : (Labels.prefixed pre ++ be16 x).length ≤ 255) :
    ∃ temp : Block, At temp.bytes 0 (Labels.encode (pre ++ suf)) ∧
      expandRdata buf expandFuel p (Labels.prefixed pre ++ be16 x).length stale = .ok temp := by
  rw [Labels.encode_append, List.length_append] at hlen
  have hcount := length_lt_copyFuel hsize (by omega)
  have hroom : 0 + (Labels.prefixed pre ++ be16 x).length ≤ (Block.fresh 255 stale).size := by
    rw [Block.fresh_size]; omega
  have hcopy := Block.copy_eq hat hroom
  have hpos : (p : Int) + (Labels.prefixed pre ++ be16 x).length - 2 =
      ((p + (Labels.prefixed pre).length : Nat) : Int) := by
    rw [List.length_append, length_be16]; push_cast; omega
  have hpos' : ((Labels.prefixed pre ++ be16 x).length : Int) - 2 = ((Labels.prefixed pre).length : Nat) := by
    rw [List.length_append, length_be16]; push_cast; omega
  have hoff : (getQnamePtr x).toNat < expandFuel - 1 := by
    rw [getQnamePtr_toNat]
    exact Nat.lt_of_lt_of_le (Nat.mod_lt _ (by decide)) (by decide)
  have hfit : (Labels.prefixed pre).length + (Labels.encode suf).length ≤
      ((Block.fresh 255 stale).patch 0 (Labels.prefixed pre ++ be16 x)).size := by
    rw [Block.patch_size, Block.fresh_size]; omega
  have hwalk := hcop.walk hcount hcount hoff hfit
  refine ⟨((Block.fresh 255 stale).patch 0 (Labels.prefixed pre ++ be16 x)).patch (Labels.prefixed pre).length
    (Labels.encode suf), ?_, ?_⟩
  · rw [Labels.encode_append]
    refine At.append (At.patch (Block.at_patch hroom).left (.inl (by omega))) ?_
    rw [Nat.zero_add]
    exact Block.at_patch hfit
  · rw [expandRdata, show (0 : Int) = ((0 : Nat) : Int) from rfl, hcopy, ok_bind, hpos, hpos', load16_at hat.right,
      ok_bind, show expandFuel = (expandFuel - 1) + 1 from rfl, expandName, if_pos hx]
    exact hwalk

theorem nameText_pointer (C : Libc) (dest : Block) (stale : List UInt8) {pre suf : List (List UInt8)} {x : UInt16}
    (hx : isNamePtr x = true) (hat : At buf p (Labels.prefixed pre ++ be16 x))
    (hcop : Copied buf (getQnamePtr x).toNat (getQnamePtr x).toNat suf) (hsize : Labels.Sized suf)
    (hlen : (Labels.encode (pre ++ suf)).length ≤ 255) (hn : (Labels.prefixed pre ++ be16 x).length ≤ 255) :
    ∃ temp : Block, At temp.bytes 0 (Labels.encode (pre ++ suf)) ∧
      nameText C buf p (Labels.prefixed pre ++ be16 x).length dest stale =
        inetParse C .max temp.bytes 0 dest := by
  obtain ⟨temp, htemp, hexp⟩ := expandRdata_pointer stale hx hat hcop hsize hlen hn
  exact ⟨temp, htemp, nameText_of_expand C dest hexp⟩

theorem Expands.of_labels (hne : ls ≠ []) (hsize : Labels.Sized ls) (hat : At buf p (Labels.prefixed ls)) :
    Expands buf p := by
  obtain ⟨l, ls, rfl⟩ := List.exists_cons_of_ne_nil hne
  obtain ⟨hl0, hl63⟩ := hsize l List.mem_cons_self
  obtain ⟨hl, hl0⟩ := label_byte hl0 hl63
  rw [Labels.prefixed_cons] at hat
  exact .label (At.cons_iff.1 hat).1 hl0 (by omega)

theorem expands_pointer {x : UInt16} (hx : isNamePtr x = true) (hat : At buf p (be16 x)) :
    Expands buf p ↔ Reaches buf (getQnamePtr x).toNat := by
  refine ⟨fun h => ?_, .pointer hx hat⟩
  cases h with
  | label h _ hb =>
    have := (isNamePtr_at hat h).1 hx
    omega
  | pointer _ hat' hr => rwa [be16_inj (hat.unique hat' rfl)]

/-- Of a name that fits `temp` the first labels are expanded. There are none if and only if the name does
not expand. -/
theorem expandRdata_name (stale : List UInt8) {n : Nat} (h : RdataName m p n ls)
    (htail : 2 ≤ tail.length) (hn : n ≤ 255) :
    ∃ ls', ls' <+: ls ∧ (ls' ≠ [] ↔ Expands (m ++ tail) p) ∧
      ∃ temp : Block, At temp.bytes 0 (Labels.encode ls') ∧
        expandRdata (m ++ tail) expandFuel p n stale = .ok temp := by
  obtain ⟨pre, suf, rfl, hpre, hend⟩ := h.name.split
  have hsize := h.name.sized
  have hlen := h.length_le
  rcases hend with ⟨rfl, h0, hn'⟩ | ⟨x, e', hx, hat, hname, hn'⟩
  · rw [List.append_nil] at h hsize hlen ⊢
    have henc : At (m ++ tail) p (Labels.encode pre) :=
      (hpre.append (At.cons_iff.2 ⟨h0, .nil⟩)).append_right tail
    obtain rfl : n = (Labels.encode pre).length := by
      rw [Labels.encode, List.length_append, List.length_singleton]; omega
    exact ⟨pre, List.prefix_rfl, ⟨fun _ => .of_labels h.ne_nil hsize henc.left, fun _ => h.ne_nil⟩,
      expandRdata_root stale h.ne_nil hsize h.ascii henc hlen⟩
  · obtain ⟨suf', hsuf, hcop⟩ := hname.copied htail
    have hall : pre ++ suf' <+: pre ++ suf := (List.prefix_append_right_inj pre).2 hsuf
    have hin : At (m ++ tail) p (Labels.prefixed pre ++ be16 x) := (hpre.append hat).append_right tail
    obtain rfl : n = (Labels.prefixed pre ++ be16 x).length := by
      rw [List.length_append, length_be16]; omega
    refine ⟨pre ++ suf', hall, ?_, expandRdata_pointer stale hx hin hcop
      (fun l hl => hsize l (List.mem_append_right _ (hsuf.subset hl)))
      (Nat.le_trans (prefix_length_encode_le hall) hlen) hn⟩
    by_cases hpre0 : pre = []
    · subst hpre0
      rw [List.nil_append, hcop.ne_nil_iff, expands_pointer hx hin]
    · exact ⟨fun _ => .of_labels hpre0 (fun l hl => hsize l (List.mem_append_left _ hl)) hin.left,
        fun _ hnil => hpre0 (List.append_eq_nil_iff.1 hnil).1⟩

/-- These labels are what reaches `inetParse`. -/
theorem nameText_eq (C : Libc) (dest : Block) (stale : List UInt8) {n : Nat} (h : RdataName m p n ls)
    (htail : 2 ≤ tail.length) (hn : n ≤ 255) :
    ∃ ls', ls' <+: ls ∧ (ls' ≠ [] ↔ Expands (m ++ tail) p) ∧
      ∃ temp : Block, At temp.bytes 0 (Labels.encode ls') ∧
        nameText C (m ++ tail) p n dest stale = inetParse C .max temp.bytes 0 dest := by
  obtain ⟨ls', hpre, hexp, temp, htemp, heq⟩ := expandRdata_name stale h htail hn
  exact ⟨ls', hpre, hexp, temp, htemp, nameText_of_expand C dest heq⟩

/-- `inetParse` on the root writes its terminator in front of `dest`. -/
theorem inetParse_root {C : Libc} {off : Nat} {dest : Block} (h : At buf off [0]) :
    inetParse C .max buf off dest = .error .write := by
  have h0 : load buf ((off : Int) + 0) = .ok 0 := load_at (p := off + 0) h
  rw [inetParse, labelWalk, h0]
  rfl

/-- `urlParse` makes a text of a name if and only if `temp` holds the RDATA and the name expands. -/
theorem nameText_iff (C : Libc) {dest : Block} (hdest : 255 ≤ dest.size) (stale : List UInt8) {n : Nat}
    (h : RdataName m p n ls) (htail : 2 ≤ tail.length) :
    (∃ dest', nameText C (m ++ tail) p n dest stale = .ok dest') ↔ n ≤ 255 ∧ Expands (m ++ tail) p := by
  by_cases hn : n ≤ 255
  · obtain ⟨ls', hpre, hexp, temp, hat, heq⟩ := nameText_eq C dest stale h htail hn
    rw [heq, ← hexp, and_iff_right hn, ne_eq]
    by_cases hnil : ls' = []
    · have hroot : inetParse C .max temp.bytes 0 dest = .error .write :=
        inetParse_root (show At temp.bytes 0 [0] by rw [hnil] at hat; exact hat)
      rw [hroot]
      exact ⟨nofun, fun hne => absurd hnil hne⟩
    · refine ⟨fun _ => hnil, fun _ => ⟨_, inetParse_name hat (fun l hl => h.name.sized l (hpre.subset hl))
        hnil ?_⟩⟩
      have hlen := Nat.le_trans (prefix_length_encode_le hpre) h.length_le
      have : (Labels.encode ls').length = (dotted ls').length + 2 := Labels.length_encode hnil
      omega
  · refine ⟨?_, fun h => absurd h.1 hn⟩
    rintro ⟨dest', hok⟩
    obtain ⟨temp, hcopy, -⟩ := bind_ok.1 hok
    obtain ⟨-, -, -, hroom, -⟩ := Block.copy_ok (p := 0) hcopy
    rw [Block.fresh_size] at hroom
    omega

/-! ### `urlParse` -/

/-- The types whose RDATA is a name. -/
def IsName (type : UInt16) : Prop := type = typeCname ∨ type = typeMx ∨ type = typeNs

theorem typeBufSize_name {type : UInt16} (h : IsName type) : typeBufSize type = 255 := by
  rcases h with rfl | rfl | rfl <;> rfl

/-- The bytes in front of the name: the preference of an MX record. -/
def nameSkip (type : UInt16) : Nat := if type = typeMx then 2 else 0

theorem nameSkip_le (type : UInt16) : nameSkip type ≤ 2 := by
  unfold nameSkip
  split <;> omega

theorem urlParse_name (C : Libc) {src : Nat} (dest : Block) (addition : UInt16) {mode len : UInt16}
    (stale : List UInt8) (hmode : IsName mode) (hskip : nameSkip mode ≤ len.toNat)
    (hsrc : src + nameSkip mode ≤ buf.length) :
    ∃ addition', (mode = typeMx → At buf src (be16 addition')) ∧
      urlParse C buf src dest addition mode len stale = (do
        let dest ← nameText C buf (src + nameSkip mode) (len.toNat - nameSkip mode) dest stale
        return (dest, addition')) := by
  have htype : mode ≠ typeQname ∧ mode ≠ typeA ∧ mode ≠ typeAaaa := by
    rcases hmode with rfl | rfl | rfl <;> decide
  have hname : mode = typeCname ∨ mode = typeMx ∨ mode = typeNs := hmode
  unfold nameSkip at hskip hsrc ⊢
  by_cases hmx : mode = typeMx
  · rw [if_pos hmx] at hskip hsrc ⊢
    obtain ⟨pref, hpref⟩ := exists_at_be16 hsrc
    have hlen : (len - 2).toNat = len.toNat - 2 := UInt16.toNat_sub_of_le _ _ (UInt16.le_iff_toNat_le.2 hskip)
    refine ⟨pref, fun _ => hpref, ?_⟩
    rw [urlParse, if_neg htype.1, if_neg htype.2.1, if_neg htype.2.2, if_pos hmx, load16_at hpref]
    simp only [ok_bind, Pure.pure, Except.pure, hlen]
    rw [if_pos hname, nameText]
    simp only [bind_assoc]
  · rw [if_neg hmx] at hskip hsrc ⊢
    refine ⟨addition, fun h => absurd h hmx, ?_⟩
    rw [urlParse, if_neg htype.1, if_neg htype.2.1, if_neg htype.2.2, if_neg hmx]
    simp only [ok_bind, Pure.pure, Except.pure]
    rw [if_pos hname, nameText]
    simp only [bind_assoc]
    rfl

end

end DnsRelay
