import Mathlib.Data.List.Induction
import DnsRelay.CompressedName
import DnsRelay.FormatName

/-!
# Names as `urlFormat` compresses them

`urlFormat` writes the wire form of a name and puts a pointer over the end it has in common with the
question's name (`Shared`). For CNAME and NS the result reads back as the name unless the common end
is all of the question's name and starts inside a label. For MX the length counts the preference only
if the name was compressed.
-/

namespace DnsRelay
open ByteSeq Exec

/-- `c` is the end that the names `s` and `q` have in common: all of `q`, or what follows a `.` in both. -/
def Shared (s q c : List UInt8) : Prop :=
  (c = q ∧ q ≠ [] ∧ q <:+ s) ∨ (dot :: c <:+ s ∧ dot :: c <:+ q)

/-- What stands in front of the name: the preference of an MX record. -/
def preference (mode addition : UInt16) : List UInt8 := if mode = typeMx then be16 addition else []

/-- The call returns the length of `w` and has written `w`. -/
def Writes (x : Exec (Int × Block)) (w : List UInt8) : Prop :=
  ∃ dest, x = .ok ((w.length : Int), dest) ∧ At dest.bytes 0 w

section
variable {C : Libc} {url name s q c : List UInt8} {dest : Block} {mode pointer addition : UInt16}

theorem length_preference (mode addition : UInt16) : (preference mode addition).length = nameSkip mode := by
  unfold preference nameSkip
  split <;> rfl

theorem Shared.ne_nil (h : Shared s q c) (hdot : ¬ [dot] <:+ s ∨ ¬ [dot] <:+ q) : c ≠ [] := by
  rintro rfl
  rcases h with ⟨rfl, hq0, -⟩ | ⟨hs, hq⟩
  · exact hq0 rfl
  · exact hdot.elim (· hs) (· hq)

theorem Shared.length_le (h : Shared s q c) : c.length ≤ s.length := by
  rcases h with ⟨rfl, -, h⟩ | ⟨h, -⟩
  · exact h.length_le
  · exact Nat.le_of_succ_le h.length_le

/-- The loop that compares the names finds the end they have in common, and all of `q` if it can. -/
theorem comparePos_shared (s q : List UInt8) :
    (∃ c, Shared s q c ∧ (q <:+ s → c = q) ∧ c.length ≤ q.length ∧
      comparePos s q s.length q.length (-1) = (q.length : Int) - c.length) ∨
      (∀ c, ¬ Shared s q c) ∧ comparePos s q s.length q.length (-1) = -1 := by
  have h := comparePos_spec s q [] (-1)
  rw [List.append_nil, List.append_nil] at h
  rcases h with ⟨h₁, h₂, h₃⟩ | ⟨h₁, x₁, a₁, b, hs, hq, h₃⟩ | ⟨h₁, h₂, h₃⟩
  · exact .inl ⟨q, .inl ⟨rfl, h₁, h₂⟩, fun _ => rfl, Nat.le_refl _, by rw [h₃]; omega⟩
  · refine .inl ⟨b, .inr ⟨⟨x₁, hs.symm⟩, ⟨a₁, hq.symm⟩⟩, fun h => absurd h h₁, ?_, ?_⟩
    · rw [hq, List.length_append, List.length_cons]; omega
    · rw [h₃, hq, List.length_append, List.length_cons]; push_cast; omega
  · refine .inr ⟨fun c hc => ?_, h₃⟩
    rcases hc with ⟨rfl, h⟩ | h
    · exact h₁ h
    · exact h₂ c h

/-- The common part of the three name modes. -/
theorem urlFormat_name (hmode : IsName mode) (hs : cstr url = .ok s) (hq : cstr name = .ok q)
    (hroom : nameSkip mode ≤ dest.size) :
    urlFormat C url dest mode name pointer addition = (do
      let (resLen, dest) ← inetFormat C .max url (dest.patch 0 (preference mode addition)) (nameSkip mode)
      if comparePos s q s.length q.length (-1) = -1 then
        let dest ← dest.store (nameSkip mode + resLen : Nat) 0
        return ((resLen : Int) + 1, dest)
      let cmpLen : Int := q.length - comparePos s q s.length q.length (-1)
      let offset := UInt16.ofNat (pointer.toNat + (comparePos s q s.length q.length (-1)).toNat)
      let dest ← dest.storeBytes ((nameSkip mode : Int) + ((resLen : Int) - 1 - cmpLen)) (be16 offset)
      return ((resLen : Int) - cmpLen + 1 + (nameSkip mode : Int), dest)) := by
  have htype : mode ≠ typeA ∧ mode ≠ typeAaaa := by
    rcases hmode with rfl | rfl | rfl <;> decide
  have hname : mode = typeCname ∨ mode = typeMx ∨ mode = typeNs := hmode
  rw [urlFormat, if_neg htype.1, if_neg htype.2]
  unfold nameSkip preference at *
  by_cases hmx : mode = typeMx
  · simp only [if_pos hmx] at hroom ⊢
    have hstore : dest.storeBytes 0 (be16 addition) = .ok (dest.patch 0 (be16 addition)) :=
      Block.storeBytes_eq (p := 0) (by rw [length_be16]; omega)
    rw [hstore]
    simp only [ok_bind, Pure.pure, Except.pure, if_pos hname, hs, hq]
    rfl
  · simp only [if_neg hmx, ok_bind, Pure.pure, Except.pure, if_pos hname, hs, hq]
    rfl

/-- The name goes through if its labels, and what follows them in memory, fit. -/
theorem urlFormat_fits (hmode : IsName mode) (hs : cstr url = .ok s) (hq : cstr name = .ok q)
    (hroom : nameSkip mode ≤ dest.size) {y : Int × Block}
    (h : urlFormat C url dest mode name pointer addition = .ok y) :
    ∃ ls, Pieces url ls ∧ nameSkip mode + (Labels.encode ls).length ≤ dest.size := by
  rw [urlFormat_name hmode hs hq hroom] at h
  obtain ⟨x, hfmt, -⟩ := bind_ok.1 h
  obtain ⟨ls, hls, hfit, -⟩ := (inetFormat_iff hs).1 hfmt
  exact ⟨ls, hls, hfit⟩

theorem patch_preference (dest : Block) (mode addition : UInt16) (xs : List UInt8) :
    (dest.patch 0 (preference mode addition)).patch (nameSkip mode) xs =
      dest.patch 0 (preference mode addition ++ xs) := by
  rw [Block.patch_append, length_preference, Nat.zero_add]

/-- A pointer in place of a common end `c`. -/
theorem urlFormat_shared (C : Libc) (dest : Block) (pointer addition : UInt16) (hmode : IsName mode)
    (hs : cstr url = .ok s) (hq : cstr name = .ok q)
    (hc0 : c ≠ []) (hcs : c.length ≤ s.length) (hcq : c.length ≤ q.length)
    (hpos : comparePos s q s.length q.length (-1) = (q.length : Int) - c.length) {ls : List (List UInt8)}
    (hls : Pieces url ls) (hfit : nameSkip mode + (Labels.encode ls).length ≤ dest.size) :
    Writes (urlFormat C url dest mode name pointer addition)
      (preference mode addition ++ (Labels.encode ls).take (s.length - c.length) ++
        be16 (UInt16.ofNat (pointer.toNat + (q.length - c.length)))) := by
  have hcpos := List.length_pos_iff.2 hc0
  have hlen : s.length + 1 ≤ (Labels.encode ls).length := by
    rw [Labels.encode, List.length_append, List.length_singleton]
    exact Nat.succ_le_succ (cstr_length_le hs hls.stop)
  have hpre := length_preference mode addition
  have hcut : ((Labels.encode ls).take (s.length - c.length)).length = s.length - c.length := by
    rw [List.length_take]; omega
  set x := be16 (UInt16.ofNat (pointer.toNat + (q.length - c.length))) with hx
  have hx2 : x.length = 2 := length_be16 _
  set b := dest.patch 0 (preference mode addition ++ Labels.encode ls) with hb
  have hroom : nameSkip mode + (s.length - c.length) + x.length ≤ b.size := by
    rw [hb, Block.patch_size]; omega
  have hfmt : inetFormat C .max url (dest.patch 0 (preference mode addition)) (nameSkip mode) = .ok _ :=
    (inetFormat_iff hs).2 ⟨ls, hls, hfit, rfl⟩
  refine ⟨b.patch (nameSkip mode + (s.length - c.length)) x, ?_, ?_⟩
  · rw [urlFormat_name hmode hs hq (by omega), hfmt, ok_bind]
    dsimp only
    rw [if_neg (by rw [hpos]; omega), patch_preference, hpos,
      show ((q.length : Int) - c.length).toNat = q.length - c.length by omega,
      show (nameSkip mode : Int) + (((s.length + 1 : Nat) : Int) - 1 - ((q.length : Int) - ((q.length : Int) - c.length)))
        = ((nameSkip mode + (s.length - c.length) : Nat) : Int) by omega, ← hx, ← hb, Block.storeBytes_eq hroom]
    refine congrArg Except.ok (Prod.ext ?_ rfl)
    simp only [List.length_append, hpre, hcut, hx2]
    omega
  · have hall : At b.bytes 0 (preference mode addition ++ (Labels.encode ls).take (s.length - c.length) ++
        (Labels.encode ls).drop (s.length - c.length)) := by
      rw [List.append_assoc, List.take_append_drop]
      exact Block.at_patch (by rw [List.length_append]; omega)
    refine At.append (hall.left.patch (.inl ?_)) ?_
    · rw [List.length_append, hpre, hcut]; omega
    · rw [List.length_append, hpre, hcut, Nat.zero_add]
      exact Block.at_patch hroom

/-- Without a common end the preference is not counted. -/
theorem urlFormat_unshared (hmode : IsName mode) (hs : cstr url = .ok s) (hq : cstr name = .ok q)
    (hroom : nameSkip mode ≤ dest.size) (hpos : comparePos s q s.length q.length (-1) = -1) {y : Int × Block}
    (h : urlFormat C url dest mode name pointer addition = .ok y) : y.1 = (s.length : Int) + 2 := by
  rw [urlFormat_name hmode hs hq hroom] at h
  obtain ⟨x, hfmt, h⟩ := bind_ok.1 h
  obtain ⟨ls, -, -, rfl⟩ := (inetFormat_iff hs).1 hfmt
  dsimp only at h
  rw [if_pos hpos] at h
  obtain ⟨dest', -, h⟩ := bind_ok.1 h
  cases h
  push_cast
  omega

/-- Without a common end a root is written behind the text. -/
theorem urlFormat_root (C : Libc) (dest : Block) (pointer addition : UInt16) (hmode : IsName mode)
    (hs : cstr url = .ok s) (hq : cstr name = .ok q) (hpos : comparePos s q s.length q.length (-1) = -1)
    {ls : List (List UInt8)} (hls : Pieces url ls) (hfit : nameSkip mode + (Labels.encode ls).length ≤ dest.size)
    (hlt : nameSkip mode + (s.length + 1) < dest.size) :
    urlFormat C url dest mode name pointer addition = .ok (((s.length + 2 : Nat) : Int),
      (dest.patch 0 (preference mode addition ++ Labels.encode ls)).patch (nameSkip mode + (s.length + 1)) [0]) := by
  have hfmt : inetFormat C .max url (dest.patch 0 (preference mode addition)) (nameSkip mode) = .ok _ :=
    (inetFormat_iff hs).2 ⟨ls, hls, hfit, rfl⟩
  rw [urlFormat_name hmode hs hq (by omega), hfmt, ok_bind]
  dsimp only
  rw [if_pos hpos, patch_preference, Block.store_eq 0 (by rw [Block.patch_size]; exact hlt), ok_bind]
  rfl

/-- For CNAME and NS this is what is written. -/
theorem urlFormat_plain (C : Libc) (dest : Block) (pointer addition : UInt16)
    (hmode : mode = typeCname ∨ mode = typeNs) (hs : cstr url = .ok s) (hq : cstr name = .ok q)
    (hpos : comparePos s q s.length q.length (-1) = -1) {ls : List (List UInt8)} (hls : Pieces url ls)
    (hfit : (Labels.encode ls).length ≤ dest.size) (hlt : s.length + 1 < dest.size) :
    Writes (urlFormat C url dest mode name pointer addition) ((Labels.encode ls).take (s.length + 1) ++ [0]) := by
  have hname : IsName mode := hmode.imp id .inr
  have hmx : mode ≠ typeMx := by rcases hmode with rfl | rfl <;> decide
  have hskip : nameSkip mode = 0 := if_neg hmx
  have hpre : preference mode addition = [] := if_neg hmx
  have hlen : s.length + 1 ≤ (Labels.encode ls).length := by
    rw [Labels.encode, List.length_append, List.length_singleton]
    exact Nat.succ_le_succ (cstr_length_le hs hls.stop)
  have hcut : ((Labels.encode ls).take (s.length + 1)).length = s.length + 1 := by
    rw [List.length_take]; omega
  refine ⟨(dest.patch 0 (Labels.encode ls)).patch (s.length + 1) [0], ?_, ?_⟩
  · rw [urlFormat_root C dest pointer addition hname hs hq hpos hls (by omega) (by omega), hskip, hpre, List.nil_append,
      Nat.zero_add, List.length_append, hcut]
    rfl
  · have hall : At (dest.patch 0 (Labels.encode ls)).bytes 0
        ((Labels.encode ls).take (s.length + 1) ++ (Labels.encode ls).drop (s.length + 1)) := by
      rw [List.take_append_drop]
      exact Block.at_patch (by omega)
    refine At.append (hall.left.patch (.inl (by rw [hcut]; omega))) ?_
    rw [hcut, Nat.zero_add]
    exact Block.at_patch (by rw [Block.patch_size]; exact Nat.succ_le_of_lt hlt)

end

/-! ### CNAME and NS -/

/-- The name `us` ends in all of `qs`, from a place inside a label on. -/
def MidLabel (us qs : List (List UInt8)) : Prop := ∃ x d, d ≠ dot ∧ dotted us = x ++ d :: dotted qs

/-- If there is a pointer in `w`, it stands behind whole labels of the name `us`. -/
def AtBoundary (us : List (List UInt8)) (w : List UInt8) : Prop :=
  w = Labels.encode us ∨
    ∃ us₁ x, us₁ <+: us ∧ isNamePtr x = true ∧ w = Labels.prefixed us₁ ++ be16 x

/-- In every message with the question name `qs` at offset 12, `urlParse` makes the text of `us` of the
RDATA `w`. -/
def ReadsBack (C : Libc) (us qs : List (List UInt8)) (mode : UInt16) (w : List UInt8) : Prop :=
  ∀ (m : List UInt8) (p : Nat) (addition : UInt16) (stale stale' : List UInt8), At m 12 (Labels.encode qs) → At m p w →
    ∃ r, urlParse C m p (Block.fresh (typeBufSize mode) stale) addition mode (UInt16.ofNat w.length) stale' = .ok r ∧
      cstr r.1.bytes = .ok (dotted us)

section
variable {C : Libc} {url name : List UInt8} {us qs ls : List (List UInt8)} {dest : Block} {mode : UInt16}

theorem Writes.unique {x : Exec (Int × Block)} {w w' : List UInt8} (h : Writes x w) (h' : Writes x w') : w = w' := by
  obtain ⟨b, hx, hat⟩ := h
  obtain ⟨b', hx', hat'⟩ := h'
  rw [hx] at hx'
  obtain ⟨hlen, rfl⟩ := Prod.mk.inj (Except.ok.inj hx')
  exact hat.unique hat' (by exact_mod_cast hlen)

theorem exists_rest {s : List UInt8} (h : At url 0 (s ++ [0])) : ∃ rest, url = s ++ 0 :: rest := by
  have := h.take_drop
  rw [List.drop_zero] at this
  refine ⟨url.drop (s ++ [0]).length, ?_⟩
  conv_lhs => rw [← List.take_append_drop (s ++ [0]).length url, this]
  rw [List.append_assoc]
  rfl

theorem Copied.of_encode {buf : List UInt8} {s p : Nat} (hls : Labels.Sized ls) (h : At buf p (Labels.encode ls)) :
    Copied buf s p ls := by
  induction ls generalizing p with
  | nil => exact .root (At.cons_iff.1 h).1
  | cons l ls ih =>
    rw [Labels.encode_cons] at h
    obtain ⟨h0, h63⟩ := hls l List.mem_cons_self
    refine .label h0 h63 h.left (ih hls.tail ?_)
    have := h.right
    rwa [List.length_cons] at this

theorem ValidName.plain (h : ValidName us) : ∀ l ∈ us, l ≠ [] ∧ Plain l := fun l hl =>
  ⟨List.length_pos_iff.1 (h.pos l hl), fun c hc hcd => by
    rcases hcd with rfl | rfl
    · exact h.sep_notMem l hl hc
    · exact Labels.Valid.zero_notMem h l hl hc⟩

theorem ValidName.dotted_ne_nil (h : ValidName us) : dotted us ≠ [] := fun hnil => by
  have h1 : (Labels.dots dot us).length = (dotted us).length + 1 := Labels.length_dots h.ne_nil
  have h2 := Labels.two_mul_length_le dot h.pos
  have h3 := List.length_pos_iff.2 h.ne_nil
  rw [hnil, List.length_nil] at h1
  omega

theorem ValidName.right {us₁ : List (List UInt8)} (h : ValidName (us₁ ++ ls)) (hne : ls ≠ []) : ValidName ls where
  ne_nil := hne
  pos l hl := h.pos l (List.mem_append_right _ hl)
  le l hl := h.le l (List.mem_append_right _ hl)
  sep_notMem l hl := h.sep_notMem l (List.mem_append_right _ hl)
  zero_notMem l hl := Labels.Valid.zero_notMem h l (List.mem_append_right _ hl)

theorem ValidName.not_dot_suffix (h : ValidName us) : ¬ [dot] <:+ dotted us := by
  rintro ⟨x, hx⟩
  obtain ⟨l₁, l₂, rfl, -, hne, -, hl₂⟩ := Labels.dotted_split h.sep_notMem hx.symm
  exact (h.right hne).dotted_ne_nil hl₂

/-- A common end that does not start inside a label consists of labels. -/
theorem Shared.labels (hus : ValidName us) (hqs : ValidName qs) (hmid : ¬ MidLabel us qs) {c : List UInt8}
    (hc : Shared (dotted us) (dotted qs) c) :
    ∃ us₁ qs₁ ls, us = us₁ ++ ls ∧ qs = qs₁ ++ ls ∧ ls ≠ [] ∧ dotted ls = c := by
  rcases hc with ⟨rfl, -, x, hx⟩ | ⟨⟨x, hx⟩, y, hy⟩
  · cases x using List.reverseRecOn with
    | nil =>
      obtain rfl := Labels.dotted_inj hqs.ne_nil hus.ne_nil hqs.sep_notMem hus.sep_notMem hx
      exact ⟨[], [], qs, rfl, rfl, hqs.ne_nil, rfl⟩
    | append_singleton x d =>
      rw [List.append_assoc] at hx
      obtain rfl : d = dot := by
        by_contra hd
        exact hmid ⟨x, d, hd, hx.symm⟩
      obtain ⟨us₁, l₂, rfl, -, hne, -, hl₂⟩ := Labels.dotted_split hus.sep_notMem hx.symm
      obtain rfl := Labels.dotted_inj hne hqs.ne_nil (hus.right hne).sep_notMem hqs.sep_notMem hl₂
      exact ⟨us₁, [], l₂, rfl, rfl, hne, rfl⟩
  · obtain ⟨us₁, l₂, rfl, -, hne, -, rfl⟩ := Labels.dotted_split hus.sep_notMem hx.symm
    obtain ⟨qs₁, l₂', rfl, -, hne', -, hl₂'⟩ := Labels.dotted_split hqs.sep_notMem hy.symm
    obtain rfl := Labels.dotted_inj hne hne' (hus.right hne).sep_notMem (hqs.right hne').sep_notMem hl₂'.symm
    exact ⟨us₁, qs₁, l₂, rfl, rfl, hne, rfl⟩

/-- The text of an end of a name is so much shorter than its text. -/
theorem length_dotted_append (us₁ : List (List UInt8)) (hne : ls ≠ []) :
    (dotted (us₁ ++ ls)).length = (Labels.prefixed us₁).length + (dotted ls).length := by
  have h1 : (Labels.dots dot (us₁ ++ ls)).length = (dotted (us₁ ++ ls)).length + 1 := Labels.length_dots (by simp [hne])
  have h2 : (Labels.dots dot ls).length = (dotted ls).length + 1 := Labels.length_dots hne
  rw [← Labels.length_prefixed, Labels.prefixed_append, List.length_append] at h1
  rw [← Labels.length_prefixed] at h2
  omega

/-- RDATA whose expansion is the name reads back as its text. -/
theorem ReadsBack.of_text {w : List UInt8} (hmode : mode = typeCname ∨ mode = typeNs) (hus : ValidName us)
    (hu : (dotted us).length ≤ 253) (hw : w ≠ []) (hlen : w.length ≤ 255)
    (h : ∀ (m : List UInt8) (p : Nat) (stale : List UInt8) (dest : Block), At m 12 (Labels.encode qs) → At m p w →
      ∃ temp : Block, At temp.bytes 0 (Labels.encode us) ∧
        nameText C m p w.length dest stale = inetParse C .max temp.bytes 0 dest) :
    ReadsBack C us qs mode w := by
  intro m p addition stale stale' hq hat
  have hname : IsName mode := hmode.imp id .inr
  have hskip : nameSkip mode = 0 := if_neg (by rcases hmode with rfl | rfl <;> decide)
  have hsize : typeBufSize mode = 255 := by rcases hmode with rfl | rfl <;> rfl
  have hn : (UInt16.ofNat w.length).toNat = w.length := by
    rw [UInt16.toNat_ofNat']
    exact Nat.mod_eq_of_lt (by omega)
  have hp := hat.le_length hw
  obtain ⟨addition', -, heq⟩ := urlParse_name C (Block.fresh (typeBufSize mode) stale) addition stale' hname
    (show nameSkip mode ≤ (UInt16.ofNat w.length).toNat by omega) (show p + nameSkip mode ≤ m.length by omega)
  rw [hskip, hn, Nat.add_zero, Nat.sub_zero] at heq
  obtain ⟨temp, htemp, htext⟩ := h m p stale' (Block.fresh (typeBufSize mode) stale) hq hat
  have hroom : (dotted us).length + 1 ≤ (Block.fresh (typeBufSize mode) stale).size := by
    rw [Block.fresh_size]; omega
  have hparse : inetParse C .max temp.bytes 0 (Block.fresh (typeBufSize mode) stale) = .ok _ :=
    inetParse_name htemp hus.sized hus.ne_nil hroom
  rw [htext, hparse] at heq
  exact ⟨_, heq, Block.cstr_patch hus.zero_notMem hroom⟩

theorem readsBack_root (hmode : mode = typeCname ∨ mode = typeNs) (hus : ValidName us)
    (hascii : ∀ l ∈ us, ∀ b ∈ l, b.toNat < 128) (hu : (dotted us).length ≤ 253) :
    ReadsBack C us qs mode (Labels.encode us) := by
  have hlen : (Labels.encode us).length = (dotted us).length + 2 := Labels.length_encode hus.ne_nil
  refine .of_text hmode hus hu (List.length_pos_iff.1 (by omega)) (by omega) fun m p stale dest _ hat => ?_
  exact nameText_root C dest stale hus.ne_nil hus.sized hascii hat (by omega)

/-- The pointer that `urlFormat` makes of 0xC00C. -/
theorem pointer_toNat {n : Nat} (hn : n ≤ 64) : (UInt16.ofNat ((0xc00c : UInt16).toNat + n)).toNat = 49164 + n := by
  rw [UInt16.toNat_ofNat', show (0xc00c : UInt16).toNat = 49164 from rfl]
  exact Nat.mod_eq_of_lt (by omega)

theorem readsBack_pointer (hmode : mode = typeCname ∨ mode = typeNs) {us₁ qs₁ : List (List UInt8)}
    (hus : ValidName (us₁ ++ ls)) (hu : (dotted (us₁ ++ ls)).length ≤ 253) (hne : ls ≠ [])
    (hn : (Labels.prefixed qs₁).length ≤ 64) :
    ReadsBack C (us₁ ++ ls) (qs₁ ++ ls) mode
      (Labels.prefixed us₁ ++ be16 (UInt16.ofNat ((0xc00c : UInt16).toNat + (Labels.prefixed qs₁).length))) := by
  have hx := pointer_toNat hn
  have hptr : isNamePtr (UInt16.ofNat ((0xc00c : UInt16).toNat + (Labels.prefixed qs₁).length)) = true := by
    rw [isNamePtr_iff, hx]; omega
  have hoff : (getQnamePtr (UInt16.ofNat ((0xc00c : UInt16).toNat + (Labels.prefixed qs₁).length))).toNat =
      12 + (Labels.prefixed qs₁).length := by
    rw [getQnamePtr_toNat, hx]; omega
  have hsize : Labels.Sized ls := fun l hl => hus.sized l (List.mem_append_right _ hl)
  have hlen : (Labels.encode (us₁ ++ ls)).length = (dotted (us₁ ++ ls)).length + 2 := Labels.length_encode hus.ne_nil
  have hw : (Labels.prefixed us₁ ++ be16 (UInt16.ofNat ((0xc00c : UInt16).toNat +
      (Labels.prefixed qs₁).length))).length = (Labels.prefixed us₁).length + 2 := by
    rw [List.length_append, length_be16]
  have hle := length_dotted_append us₁ hne
  refine .of_text hmode hus hu (List.length_pos_iff.1 (by omega)) (by omega) fun m p stale dest hq hat => ?_
  rw [Labels.encode_append] at hq
  refine nameText_pointer C dest stale hptr hat (.of_encode hsize ?_) hsize (by omega) (by omega)
  rw [hoff]
  exact hq.right

/-- A pointer inside a label is not one behind whole labels. -/
theorem MidLabel.not_atBoundary (h : MidLabel us qs) (hqs : ValidName qs) (hne : us ≠ []) {w : List UInt8}
    (hw : w.length = (dotted us).length - (dotted qs).length + 2) : ¬ AtBoundary us w := by
  obtain ⟨x, d, hd, hus⟩ := h
  have hq0 := List.length_pos_iff.2 hqs.dotted_ne_nil
  have hlen : (dotted us).length = x.length + 1 + (dotted qs).length := by
    rw [hus, List.length_append, List.length_cons]; omega
  rintro (rfl | ⟨us₁, y, ⟨us₂, rfl⟩, -, rfl⟩)
  · have : (Labels.encode us).length = (dotted us).length + 2 := Labels.length_encode hne
    omega
  · rw [List.length_append, length_be16] at hw
    have hdots : Labels.dots dot (us₁ ++ us₂) = x ++ d :: dotted qs ++ [dot] := by
      rw [Labels.dots_eq hne]
      exact congrArg (· ++ [dot]) hus
    rw [Labels.dots_append, List.append_assoc, List.cons_append, ← List.singleton_append, ← List.append_assoc] at hdots
    have hlen₁ := Labels.length_prefixed dot us₁
    obtain ⟨hdots₁, -⟩ := List.append_inj hdots (by rw [List.length_append, List.length_singleton]; omega)
    have hne₁ : us₁ ≠ [] := by
      rintro rfl
      exact absurd hdots₁ (by simp)
    rw [Labels.dots_eq hne₁] at hdots₁
    exact hd (List.cons.inj (List.append_inj' hdots₁ rfl).2).1.symm

/-- For CNAME and NS the name comes back, and a pointer stands behind whole labels, if and only if the
name does not end in all of the question's name inside a label and fits with what follows it in memory. -/
theorem urlFormat_round_trip (hmode : mode = typeCname ∨ mode = typeNs) (hus : ValidName us) (hqs : ValidName qs)
    (hascii : ∀ l ∈ us, ∀ b ∈ l, b.toNat < 128) (hu : (dotted us).length ≤ 253) (hq64 : (dotted qs).length ≤ 64)
    (hs : cstr url = .ok (dotted us)) (hq : cstr name = .ok (dotted qs)) (hdest : dest.size = 255) (addition : UInt16) :
    (∃ w, Writes (urlFormat C url dest mode name 0xc00c addition) w ∧ AtBoundary us w ∧ ReadsBack C us qs mode w) ↔
      ¬ MidLabel us qs ∧ ∃ ls, Pieces url ls ∧ (Labels.encode ls).length ≤ 255 := by
  have hname : IsName mode := hmode.imp id .inr
  have hmx : mode ≠ typeMx := by rcases hmode with rfl | rfl <;> decide
  have hskip : nameSkip mode = 0 := if_neg hmx
  have hpre : preference mode addition = [] := if_neg hmx
  have hname' : ∀ ls, Pieces url ls → ∃ gs, ls = us ++ gs := fun ls hls => by
    obtain ⟨rest, hurl⟩ := exists_rest (cstr_ok hs).2
    obtain ⟨gs, hgs, -⟩ := (Pieces.name_iff hus.ne_nil hus.plain).1 (hurl ▸ hls)
    exact ⟨gs, hgs⟩
  constructor
  · rintro ⟨w, hw, hbound, -⟩
    obtain ⟨b, hok, -⟩ := id hw
    obtain ⟨ls, hls, hfit⟩ := urlFormat_fits hname hs hq (by omega) hok
    refine ⟨fun hmid => ?_, ls, hls, by omega⟩
    obtain ⟨x, d, -, hmid'⟩ := id hmid
    have hsuf : dotted qs <:+ dotted us := ⟨x ++ [d], by rw [hmid']; simp⟩
    rcases comparePos_shared (dotted us) (dotted qs) with ⟨c, hc, hall, hcq, hpos⟩ | ⟨hno, -⟩
    · obtain rfl := hall hsuf
      have hw' := urlFormat_shared C dest 0xc00c addition hname hs hq
        (hc.ne_nil (.inr hqs.not_dot_suffix)) hc.length_le hcq hpos hls hfit
      refine hmid.not_atBoundary hqs hus.ne_nil ?_ hbound
      have hstop := cstr_length_le hs hls.stop
      rw [hw.unique hw', hpre, List.nil_append, List.length_append, length_be16, List.length_take, Labels.encode,
        List.length_append, List.length_singleton]
      omega
    · exact hno _ (.inl ⟨rfl, hqs.dotted_ne_nil, hsuf⟩)
  · rintro ⟨hmid, ls, hls, hfit⟩
    obtain ⟨gs, rfl⟩ := hname' ls hls
    rcases comparePos_shared (dotted us) (dotted qs) with ⟨c, hc, -, hcq, hpos⟩ | ⟨-, hpos⟩
    · have hw := urlFormat_shared C dest 0xc00c addition hname hs hq
        (hc.ne_nil (.inr hqs.not_dot_suffix)) hc.length_le hcq hpos hls (by omega)
      obtain ⟨us₁, qs₁, l₂, rfl, rfl, hne, rfl⟩ := hc.labels hus hqs hmid
      rw [length_dotted_append us₁ hne, length_dotted_append qs₁ hne, Nat.add_sub_cancel, Nat.add_sub_cancel, hpre,
        List.nil_append, List.append_assoc, Labels.encode_append, List.take_left] at hw
      have hn : (Labels.prefixed qs₁).length ≤ 64 := by
        rw [length_dotted_append qs₁ hne] at hq64
        omega
      refine ⟨_, hw, .inr ⟨us₁, _, List.prefix_append us₁ l₂, ?_, rfl⟩, readsBack_pointer hmode hus hu hne hn⟩
      rw [isNamePtr_iff, pointer_toNat hn]
      omega
    · have hw := urlFormat_plain C dest 0xc00c addition hmode hs hq hpos hls
        (by omega) (by omega)
      have hlen : (Labels.prefixed us).length = (dotted us).length + 1 := by
        rw [Labels.length_prefixed dot]
        exact Labels.length_dots hus.ne_nil
      rw [← hlen, Labels.encode_append, List.take_left] at hw
      exact ⟨_, hw, .inl rfl, readsBack_root hmode hus hascii hu⟩

end

/-- `b.a` and a second NUL. -/
def suffixUrl : List UInt8 := [98, 46, 97, 0, 0]

theorem suffixUrl_pieces : Pieces suffixUrl [[98], [97]] :=
  .cons (l := [98]) (by decide +kernel) (.inl rfl) (.inl (by decide))
    (.cons (l := [97]) (by decide +kernel) (.inr rfl) (.inl (by decide)) (.nil []))

/-- `b.a` in answer to a question for `a`. -/
theorem urlFormat_round_trip_suffix : ∃ w,
    Writes (urlFormat .decimal suffixUrl (Block.fresh 255 []) typeNs [97, 0] 0xc00c 0) w ∧
      AtBoundary [[98], [97]] w ∧ ReadsBack .decimal [[98], [97]] [[97]] typeNs w := by
  have hmid : ¬ MidLabel [[98], [97]] [[97]] := by
    rintro ⟨x, d, hd, h⟩
    have h : [98] ++ [46] ++ [97] = x ++ [d] ++ [97] := by rw [List.append_assoc x]; exact h
    have h := List.append_inj_left' h rfl
    exact hd (List.cons.inj (List.append_inj_right' h rfl)).1.symm
  exact (urlFormat_round_trip (.inr rfl) ⟨by decide, by decide, by decide, by decide, by decide⟩
    ⟨by decide, by decide, by decide, by decide, by decide⟩ (by decide +kernel) (by decide) (by decide) rfl rfl rfl 0).2
    ⟨hmid, _, suffixUrl_pieces, by decide⟩

/-- `ba` in answer to a question for `a`: the pointer overwrites the label, and the name comes back as
another one. -/
theorem urlFormat_mid_label :
    (urlFormat .decimal [98, 97, 0, 0] (Block.fresh 255 []) typeCname [97, 0] 0xc00c 0).map
        (fun y => (y.1, y.2.bytes.take 3)) = .ok (3, [2, 0xc0, 0x0c]) ∧
    (do
      let m := List.replicate 12 0 ++ [1, 97, 0] ++ [2, 0xc0, 0x0c]
      let (b, _) ← urlParse .decimal m 15 (Block.fresh 255 []) 0 typeCname 3 []
      cstr b.bytes : Exec (List UInt8)) = .ok [1, 97] := by
  decide +kernel

/-! ### MX -/

section
variable {C : Libc} {url name s q : List UInt8} {dest : Block}

/-- What `urlFormat` writes for MX is the preference and then what it writes for NS, if and only if the
name shares an end with the question's name and the name, with what follows it in memory, fits behind
the preference. -/
theorem urlFormat_mx (hs : cstr url = .ok s) (hq : cstr name = .ok q) (hdot : ¬ [dot] <:+ q) (hdest : dest.size = 255)
    (pointer addition : UInt16) :
    (∃ w, Writes (urlFormat C url dest typeNs name pointer addition) w ∧
      Writes (urlFormat C url dest typeMx name pointer addition) (be16 addition ++ w)) ↔
      (∃ c, Shared s q c) ∧ ∃ ls, Pieces url ls ∧ 2 + (Labels.encode ls).length ≤ 255 := by
  constructor
  · rintro ⟨w, ⟨b, hns, -⟩, b', hmx, -⟩
    obtain ⟨ls, hls, hfit⟩ := urlFormat_fits (.inr (.inl rfl)) hs hq (show nameSkip typeMx ≤ dest.size by
      rw [hdest]; decide) hmx
    refine ⟨?_, ls, hls, hdest ▸ hfit⟩
    rcases comparePos_shared s q with ⟨c, hc, -⟩ | ⟨-, hpos⟩
    · exact ⟨c, hc⟩
    · have h₁ := urlFormat_unshared (.inr (.inr rfl)) hs hq (Nat.zero_le _) hpos hns
      have h₂ := urlFormat_unshared (.inr (.inl rfl)) hs hq (show nameSkip typeMx ≤ dest.size by
        rw [hdest]; decide) hpos hmx
      rw [List.length_append, length_be16] at h₂
      dsimp only at h₁ h₂
      omega
  · rintro ⟨⟨c, hc⟩, ls, hls, hfit⟩
    rcases comparePos_shared s q with ⟨c, hc, -, hcq, hpos⟩ | ⟨hno, -⟩
    · have hc0 := hc.ne_nil (.inr hdot)
      have hcs := hc.length_le
      refine ⟨_, urlFormat_shared C dest pointer addition (.inr (.inr rfl)) hs hq hc0 hcs hcq hpos hls ?_, ?_⟩
      · show 0 + _ ≤ _
        omega
      · have := urlFormat_shared C dest pointer addition (.inr (.inl rfl)) hs hq hc0 hcs hcq hpos hls
          (show 2 + _ ≤ _ by omega)
        rwa [List.append_assoc] at this
    · exact absurd hc (hno c)

end

theorem urlFormat_mx_suffix : ∃ w,
    Writes (urlFormat .decimal suffixUrl (Block.fresh 255 []) typeNs [97, 0] 0xc00c 10) w ∧
      Writes (urlFormat .decimal suffixUrl (Block.fresh 255 []) typeMx [97, 0] 0xc00c 10) (be16 10 ++ w) := by
  have hdot : ¬ [dot] <:+ [97] := by decide
  exact (urlFormat_mx (s := [98, 46, 97]) rfl rfl hdot rfl 0xc00c 10).2
    ⟨⟨[97], .inl ⟨rfl, by decide, by decide⟩⟩, _, suffixUrl_pieces, by decide⟩

/-- `b` in answer to a question for `a`: the length leaves out the preference. -/
theorem urlFormat_mx_short :
    (urlFormat .decimal [98, 0, 0] (Block.fresh 255 []) typeNs [97, 0] 0xc00c 10).map
        (fun y => (y.1, y.2.bytes.take 3)) = .ok (3, [1, 98, 0]) ∧
    (urlFormat .decimal [98, 0, 0] (Block.fresh 255 []) typeMx [97, 0] 0xc00c 10).map
        (fun y => (y.1, y.2.bytes.take 5)) = .ok (3, [0, 10, 1, 98, 0]) := by
  decide +kernel

/-! ### The room in `resData` -/

/-- An answer whose text is the name `us`, with a NUL behind the terminator, in a buffer of the size for its type. -/
structure NameAnswer (a : Answer) (us : List (List UInt8)) : Prop where
  type : IsName a.type
  name : ValidName us
  length_le : (dotted us).length ≤ 253
  text : dotted us ++ [0, 0] <+: a.rdata.bytes
  size : a.rdata.size = typeBufSize a.type

/-- One pass of the first answer loop of `responseFormat`: what `urlFormat` makes of the answer goes into `resData`
and back to `RDATA`, and the `RDLEN` that is stored is in bounds. -/
def RdataFits (C : Libc) (quests : List Quest) (a : Answer) (name : UInt16) (resData : Block) (len : Nat) : Prop :=
  ∃ a' len', formatAnswers C quests [(a, name)] resData len = .ok ([a'], len') ∧
    a'.rdlen.toNat ≤ 255 ∧ a'.rdlen.toNat ≤ a.rdata.size

section
variable {C : Libc} {a : Answer} {us ls : List (List UInt8)} {quests : List Quest} {q : Quest} {name s : List UInt8}
  {resData : Block}

theorem NameAnswer.cstr_text (h : NameAnswer a us) : cstr a.rdata.bytes = .ok (dotted us) := by
  obtain ⟨rest, hrest⟩ := h.text
  rw [← hrest, List.append_assoc]
  exact cstr_append h.name.zero_notMem (0 :: rest)

theorem NameAnswer.pieces_iff (h : NameAnswer a us) : Pieces a.rdata.bytes ls ↔ ls = us := by
  obtain ⟨rest, hrest⟩ := h.text
  have hsplit : dotted us ++ [0, 0] ++ rest = dotted us ++ 0 :: (0 :: rest) := by simp
  rw [← hrest, hsplit, Pieces.name_iff h.name.ne_nil h.name.plain]
  simp only [Pieces.nil_iff]
  constructor
  · rintro ⟨-, rfl, rfl⟩
    exact List.append_nil us
  · rintro rfl
    exact ⟨[], (List.append_nil ls).symm, rfl⟩

theorem NameAnswer.length_encode (h : NameAnswer a us) : (Labels.encode us).length = (dotted us).length + 2 :=
  Labels.length_encode h.name.ne_nil

/-- Where the wire form fits behind the preference, `urlFormat` goes through and returns a length in bounds. -/
theorem NameAnswer.urlFormat_room (h : NameAnswer a us) (hname : cstr name = .ok s) (hres : resData.size = 255)
    (hroom : nameSkip a.type + (dotted us).length + 2 ≤ 255) (pointer : UInt16) :
    ∃ n dest, urlFormat C a.rdata.bytes resData a.type name pointer a.addition = .ok ((n : Nat), dest) ∧ n ≤ 255 ∧
      n ≤ dest.bytes.length := by
  have hpieces := h.pieces_iff.2 rfl
  have hlen := h.length_encode
  rcases comparePos_shared (dotted us) s with ⟨c, hc, -, hcq, hpos⟩ | ⟨-, hpos⟩
  · have hc0 := hc.ne_nil (.inl h.name.not_dot_suffix)
    have hcpos := List.length_pos_iff.2 hc0
    obtain ⟨dest, hdest, hat⟩ := urlFormat_shared C resData pointer a.addition h.type h.cstr_text hname
      hc0 hc.length_le hcq hpos hpieces (by omega)
    have hle := hat.le_length (by simp [be16])
    refine ⟨_, dest, hdest, ?_, by omega⟩
    rw [List.length_append, List.length_append, length_preference, List.length_take, length_be16]
    omega
  · refine ⟨(dotted us).length + 2, _, urlFormat_root C resData pointer a.addition h.type h.cstr_text hname hpos hpieces
      (by omega) (by omega), by omega, ?_⟩
    have := ((resData.patch 0 (preference a.type a.addition ++ Labels.encode us)).patch
      (nameSkip a.type + ((dotted us).length + 1)) [0]).size_le
    rw [Block.patch_size, Block.patch_size] at this
    omega

/-- The pass stays in its buffers if and only if the record is not MX or its text has at most 251 characters:
the preference takes two bytes more. -/
theorem rdataFits_iff (C : Libc) (h : NameAnswer a us) (hq : quests[a.qpos.toNat]? = some q)
    (hname : cstr q.qname.bytes = .ok s) (hres : resData.size = 255) (pointer : UInt16) (len : Nat) :
    RdataFits C quests a pointer resData len ↔ a.type ≠ typeMx ∨ (dotted us).length ≤ 251 := by
  have hbound : a.type ≠ typeMx ∨ (dotted us).length ≤ 251 ↔ nameSkip a.type + (dotted us).length + 2 ≤ 255 := by
    have := h.length_le
    unfold nameSkip
    split
    case isTrue hmx => simp only [hmx, ne_eq, not_true_eq_false, false_or]; omega
    case isFalse hmx => simp only [hmx, ne_eq, not_false_eq_true, true_or, true_iff]; omega
  rw [hbound]
  constructor
  · rintro ⟨a', len', hgo, -⟩
    rw [formatAnswers, hq] at hgo
    obtain ⟨y, hurl, -⟩ := bind_ok.1 hgo
    have hskip : nameSkip a.type ≤ 2 := by unfold nameSkip; split <;> decide
    obtain ⟨ls, hls, hfit⟩ := urlFormat_fits h.type h.cstr_text hname (by omega) hurl
    obtain rfl := h.pieces_iff.1 hls
    rw [h.length_encode, hres] at hfit
    omega
  · intro hroom
    obtain ⟨n, dest, hurl, hn, hbytes⟩ := h.urlFormat_room (C := C) hname hres hroom pointer
    have hsize : a.rdata.size = 255 := h.size.trans (typeBufSize_name h.type)
    have hrdlen : (UInt16.ofNat ((n : Int) % 65536).toNat).toNat = n := by
      rw [UInt16.toNat_ofNat']
      omega
    have hcopy := Block.copy_eq (b := a.rdata) (p := 0) (At.slice dest.bytes 0 n) (by rw [List.length_take]; omega)
    rw [List.length_take, List.length_drop, Nat.sub_zero, Nat.min_eq_left hbytes] at hcopy
    have hcopy : a.rdata.copy 0 dest.bytes 0 n = .ok _ := hcopy
    have hpass : formatAnswers C quests [(a, pointer)] resData len = .ok
        ([{ a with rdlen := UInt16.ofNat ((n : Int) % 65536).toNat, rdata := a.rdata.patch 0 (dest.bytes.take n) }],
          len + (n + 12)) := by
      rw [formatAnswers, hq]
      simp only [hurl, ok_bind, hrdlen, hcopy]
      rfl
    exact ⟨_, _, hpass, by rw [hrdlen]; exact hn, by rw [hrdlen, hsize]; exact hn⟩

end

/-- Four labels, of `192 + n` characters with the dots. -/
def longLabels (n : Nat) : List (List UInt8) :=
  [.replicate 63 97, .replicate 63 97, .replicate 63 97, .replicate n 97]

def longMx (n : Nat) : Answer :=
  ⟨0, 0, typeMx, 1, 0, 0, 10, Block.fresh 255 (dotted (longLabels n))⟩

def longQuest : Quest := ⟨Block.fresh 65 [98], typeMx, 1⟩

theorem longMx_name {n : Nat} (h : n = 59 ∨ n = 60) : NameAnswer (longMx n) (longLabels n) := by
  rcases h with rfl | rfl <;>
    exact ⟨.inr (.inl rfl), ⟨by decide, by decide +kernel, by decide +kernel, by decide +kernel, by decide +kernel⟩,
      by decide +kernel, by decide +kernel, rfl⟩

/-- An MX name of 251 characters fills `resData`. -/
theorem rdataFits_longest : RdataFits .decimal [longQuest] (longMx 59) 0xc00c (.fresh 255 []) 20 :=
  (rdataFits_iff .decimal (longMx_name (.inl rfl)) rfl (s := [98]) rfl rfl 0xc00c 20).2 (.inr (by decide +kernel))

/-- With one character more the root is written behind it. -/
theorem rdataFits_overflow : NameAnswer (longMx 60) (longLabels 60) ∧
    (formatAnswers .decimal [longQuest] [(longMx 60, 0xc00c)] (.fresh 255 []) 20).map Prod.snd = .error .write :=
  ⟨longMx_name (.inr rfl), by decide +kernel⟩

end DnsRelay
