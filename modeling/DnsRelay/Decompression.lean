import DnsRelay.CompressedName

/-!
# What `urlParse` makes of a compressed name

The walk that expands pointers follows its first pointer, the one that ends the RDATA, in any case,
and a pointer it meets later only if the two bytes behind that one look like a pointer as well. So the
text is that of the name if and only if this is so wherever labels are still to come, or nothing is
(`Whole`), and the RDATA fits `temp`.
-/

namespace DnsRelay
open ByteSeq Exec

/-- From `p` on, where the labels `ls` are to come, every pointer is followed by two bytes that look
like a pointer, as long as there are labels to come. -/
inductive Followed (m buf : List UInt8) : Nat → List (List UInt8) → Prop
  | done (p : Nat) : Followed m buf p []
  | label {p : Nat} {l : List UInt8} {ls : List (List UInt8)} (hl : At m p (UInt8.ofNat l.length :: l))
      (hrest : Followed m buf (p + (l.length + 1)) ls) : Followed m buf p (l :: ls)
  | pointer {p : Nat} {x y : UInt16} {ls : List (List UInt8)} (hx : isNamePtr x = true) (hat : At m p (be16 x))
      (hy : isNamePtr y = true) (hbehind : At buf (p + 2) (be16 y))
      (hrest : Followed m buf (getQnamePtr x).toNat ls) : Followed m buf p ls

/-- The `n` bytes at `p` are the labels `ls` and the root, or the first of them and a pointer, from the
target of which the others are followed to the end. -/
def Whole (m buf : List UInt8) (p n : Nat) (ls : List (List UInt8)) : Prop :=
  ∃ pre suf, ls = pre ++ suf ∧ At m p (Labels.prefixed pre) ∧
    (suf = [] ∧ m[p + (Labels.prefixed pre).length]? = some 0 ∧ n = (Labels.prefixed pre).length + 1 ∨
      ∃ x, isNamePtr x = true ∧ At m (p + (Labels.prefixed pre).length) (be16 x) ∧
        n = (Labels.prefixed pre).length + 2 ∧ Followed m buf (getQnamePtr x).toNat suf)

section
variable {m tail : List UInt8} {s p e n : Nat} {l l' : List UInt8} {ls ls' : List (List UInt8)} {x : UInt16}

/-- Where a label stands there is no pointer. -/
theorem label_not_pointer (h0 : 0 < l.length) (h63 : l.length ≤ 63) (hl : At m p (UInt8.ofNat l.length :: l))
    (hat : At m p (be16 x)) : isNamePtr x = false := by
  obtain ⟨hn, -⟩ := label_byte h0 h63
  rw [Bool.eq_false_iff, ne_eq, isNamePtr_at hat (At.cons_iff.1 hl).1, hn]
  omega

/-- Where a name ends in the root there is no pointer. -/
theorem root_not_pointer (h : m[p]? = some 0) (hat : At m p (be16 x)) : isNamePtr x = false := by
  rw [Bool.eq_false_iff, ne_eq, isNamePtr_at hat h]
  decide

/-- What is followed to the end is copied. -/
theorem Followed.copied (h : Followed m (m ++ tail) p ls) (hname : NameAt m s p e ls) (htail : 2 ≤ tail.length) :
    Copied (m ++ tail) s p ls := by
  induction hname with
  | @root s p h0 =>
    exact .root (by rw [List.getElem?_append_left (List.getElem?_eq_some_iff.1 h0).1, h0])
  | @label s p e l ls h0 h63 hl hrest ih =>
    refine .label h0 h63 (hl.append_right tail) (ih ?_)
    cases h with
    | label _ hrest' => exact hrest'
    | pointer hx hat => exact absurd hx (by rw [label_not_pointer h0 h63 hl hat]; decide)
  | @pointer s p e x ls hx hat hlt hname ih =>
    have hp := hat.le_length (List.cons_ne_nil _ _)
    rw [length_be16] at hp
    obtain ⟨y, hy⟩ := exists_at_be16 (show p + 2 + 2 ≤ (m ++ tail).length by
      rw [List.length_append]; omega)
    have hboth := (hat.append_right tail).append hy
    have hcases : ls = [] ∨ isNamePtr y = true ∧ Followed m (m ++ tail) (getQnamePtr x).toNat ls := by
      cases h with
      | done => exact .inl rfl
      | @label _ l ls hl _ =>
        obtain ⟨h0, h63⟩ := hname.sized l List.mem_cons_self
        exact absurd hx (by rw [label_not_pointer h0 h63 hl hat]; decide)
      | @pointer _ x' y' _ hx' hat' hy' hbehind hrest =>
        obtain rfl := be16_inj (hat.unique hat' rfl)
        obtain rfl := be16_inj (hy.unique hbehind rfl)
        exact .inr ⟨hy', hrest⟩
    cases hptr : isNamePtr y with
    | true =>
      refine .jump hx hptr hboth hlt (ih ?_)
      rcases hcases with rfl | ⟨-, hrest⟩
      · exact .done _
      · exact hrest
    | false =>
      obtain rfl : ls = [] := hcases.resolve_right fun h => by rw [hptr] at h; exact absurd h.1 (by decide)
      exact .cut hx hptr hboth

/-- What is copied was followed to the end. -/
theorem NameAt.followed (h : NameAt m s p e ls) (hcop : Copied (m ++ tail) s p ls) : Followed m (m ++ tail) p ls := by
  induction h with
  | root => exact .done _
  | @label s p e l ls h0 h63 hl hrest ih =>
    refine .label hl (ih ?_)
    cases hcop with
    | label _ _ _ hcop => exact hcop
    | jump hx _ hat => exact absurd hx (by rw [label_not_pointer h0 h63 (hl.append_right tail) hat.left]; decide)
  | @pointer s p e x ls hx hat hlt hname ih =>
    have hat' := hat.append_right tail
    cases hcop with
    | root => exact .done _
    | cut => exact .done _
    | @label _ _ l ls h0 h63 hl _ =>
      exact absurd hx (by rw [label_not_pointer h0 h63 hl hat']; decide)
    | @jump _ _ x' y _ hx' hy hboth hlt' hcop =>
      obtain rfl := be16_inj (hat'.unique hboth.left rfl)
      exact .pointer hx hat hy hboth.right (ih hcop)

theorem NameAt.lt_length (h : NameAt m s p e ls) : p < m.length := by
  have hcons : ∀ {b : UInt8} {xs : List UInt8}, At m p (b :: xs) → p < m.length := fun hat =>
    (List.getElem?_eq_some_iff.1 (At.cons_iff.1 hat).1).1
  cases h with
  | root h0 => exact (List.getElem?_eq_some_iff.1 h0).1
  | label _ _ hl _ => exact hcons hl
  | pointer _ hat _ _ => exact hcons hat

/-! ### The text -/

/-- The texts of a name and of its first labels differ. -/
theorem patch_dotted_inj {dest : Block} (hroom : (dotted ls).length + 1 ≤ dest.size) (hpre : ls' <+: ls)
    (hne : ls' ≠ [])
    (h : dest.patch 0 (dotted ls' ++ [0]) = dest.patch 0 (dotted ls ++ [0])) : ls' = ls := by
  obtain ⟨suf, rfl⟩ := hpre
  by_contra hsuf
  have hsuf : suf ≠ [] := by
    rintro rfl
    exact hsuf (List.append_nil _).symm
  have hsplit : dotted (ls' ++ suf) = dotted ls' ++ dot :: dotted suf := Labels.dotted_append hne hsuf
  rw [hsplit, List.length_append] at hroom
  have h₁ : At (dest.patch 0 (dotted ls' ++ [0])).bytes 0 (dotted ls' ++ [0]) :=
    Block.at_patch (by rw [List.length_append, List.length_singleton]; omega)
  have h₂ : At (dest.patch 0 (dotted ls' ++ [0])).bytes 0 (dotted ls' ++ dot :: (dotted suf ++ [0])) := by
    rw [h, hsplit, List.append_assoc]
    exact Block.at_patch (by simp only [List.length_append, List.length_cons, List.length_nil] at hroom ⊢; omega)
  have := (At.cons_iff.1 h₁.right).1.symm.trans (At.cons_iff.1 h₂.right).1
  exact absurd (Option.some.inj this) (by decide)

/-- What comes after the first labels of a name. -/
theorem NameAt.advance {pre suf : List (List UInt8)} (h : NameAt m s p e (pre ++ suf))
    (hat : At m p (Labels.prefixed pre)) : NameAt m s (p + (Labels.prefixed pre).length) e suf := by
  induction pre generalizing p with
  | nil => exact h
  | cons l pre ih =>
    obtain ⟨h0, h63⟩ := h.sized l List.mem_cons_self
    rw [Labels.prefixed_cons, ← List.cons_append] at hat ⊢
    rw [List.length_append, List.length_cons, ← Nat.add_assoc]
    have hrest := hat.right
    rw [List.length_cons] at hrest
    cases h with
    | label _ _ _ hname => exact ih hname hrest
    | pointer hx hptr => exact absurd hx (by rw [label_not_pointer h0 h63 hat.left hptr]; decide)

/-- Where a pointer points to. -/
theorem NameAt.target (h : NameAt m s p e ls) (hx : isNamePtr x = true) (hat : At m p (be16 x)) :
    ∃ e', NameAt m (getQnamePtr x).toNat (getQnamePtr x).toNat e' ls := by
  cases h with
  | root h0 => exact absurd hx (by rw [root_not_pointer h0 hat]; decide)
  | label h0 h63 hl => exact absurd hx (by rw [label_not_pointer h0 h63 hl hat]; decide)
  | pointer _ hat' _ hname =>
    obtain rfl := be16_inj (hat.unique hat' rfl)
    exact ⟨_, hname⟩

/-- The labels that reach `inetParse` when the name is followed to its end are all of them. -/
theorem RdataName.whole (C : Libc) (dest : Block) (stale : List UInt8) (h : RdataName m p n ls)
    (htail : 2 ≤ tail.length) (hn : n ≤ 255) (hw : Whole m (m ++ tail) p n ls) :
    ∃ temp : Block, At temp.bytes 0 (Labels.encode ls) ∧
      nameText C (m ++ tail) p n dest stale = inetParse C .max temp.bytes 0 dest := by
  obtain ⟨pre, suf, rfl, hpre, ⟨rfl, h0, rfl⟩ | ⟨x, hx, hat, rfl, hfol⟩⟩ := hw
  · rw [List.append_nil] at h ⊢
    have henc : At (m ++ tail) p (Labels.encode pre) :=
      (hpre.append (At.cons_iff.2 ⟨h0, .nil⟩)).append_right tail
    have hlen : (Labels.encode pre).length = (Labels.prefixed pre).length + 1 := by
      rw [Labels.encode, List.length_append, List.length_singleton]
    rw [← hlen]
    exact nameText_root C dest stale h.ne_nil h.name.sized h.ascii henc h.length_le
  · obtain ⟨e', hname⟩ := (h.name.advance hpre).target hx hat
    have hlen : (Labels.prefixed pre ++ be16 x).length = (Labels.prefixed pre).length + 2 := by
      rw [List.length_append, length_be16]
    rw [← hlen]
    exact nameText_pointer C dest stale hx ((hpre.append hat).append_right tail) (hfol.copied hname htail)
      hname.sized h.length_le (hlen ▸ hn)

/-- If all labels reach `inetParse`, the name was followed to its end. -/
theorem RdataName.whole_of_text (C : Libc) {dest : Block} (hdest : 255 ≤ dest.size) (stale : List UInt8)
    (h : RdataName m p n ls) (htail : 2 ≤ tail.length)
    (htext : nameText C (m ++ tail) p n dest stale = .ok (dest.patch 0 (dotted ls ++ [0]))) :
    n ≤ 255 ∧ Whole m (m ++ tail) p n ls := by
  have hn := ((nameText_iff C hdest stale h htail).1 ⟨_, htext⟩).1
  refine ⟨hn, ?_⟩
  obtain ⟨pre, suf, rfl, hpre, ⟨rfl, h0, hend⟩ | ⟨x, e', hx, hat, hname, hend⟩⟩ := h.name.split
  · exact ⟨pre, [], rfl, hpre, .inl ⟨rfl, h0, by omega⟩⟩
  obtain ⟨suf', hsuf, hcop⟩ := hname.copied htail
  have hall : pre ++ suf' <+: pre ++ suf := (List.prefix_append_right_inj pre).2 hsuf
  have hlen : (Labels.encode (pre ++ suf)).length = (dotted (pre ++ suf)).length + 2 := Labels.length_encode h.ne_nil
  have hlen' := Nat.le_trans (prefix_length_encode_le hall) h.length_le
  have hmax := h.length_le
  obtain rfl : n = (Labels.prefixed pre ++ be16 x).length := by
    rw [List.length_append, length_be16]; omega
  obtain ⟨temp, htemp, heq⟩ := nameText_pointer C dest stale hx ((hpre.append hat).append_right tail) hcop
    (fun l hl => hname.sized l (hsuf.subset hl)) hlen' hn
  have hsuf' : suf' = suf := by
    rw [heq] at htext
    by_cases hnil : pre ++ suf' = []
    · rw [hnil] at htemp
      have hroot : inetParse C .max temp.bytes 0 dest = .error .write := inetParse_root htemp
      rw [hroot] at htext
      cases htext
    · have htext' : (dotted (pre ++ suf')).length + 2 = (Labels.encode (pre ++ suf')).length :=
        (Labels.length_encode hnil).symm
      have hparse : inetParse C .max temp.bytes 0 dest = .ok _ :=
        inetParse_name htemp (fun l hl => h.name.sized l (hall.subset hl)) hnil (by omega)
      rw [hparse] at htext
      exact List.append_cancel_left (patch_dotted_inj (by omega) hall hnil (Except.ok.inj htext))
  subst hsuf'
  refine ⟨pre, suf', rfl, hpre, .inr ⟨x, hx, hat, ?_, hname.followed hcop⟩⟩
  rw [List.length_append, length_be16]

/-- `urlParse` writes exactly the text of the name, and for MX reads the preference, if and only if
`temp` holds the RDATA and the name is followed to its end. -/
theorem urlParse_decompresses (C : Libc) {dest : Block} (hdest : 255 ≤ dest.size) {mode len : UInt16} (hmode : IsName mode)
    {src : Nat} (h : RdataName m (src + nameSkip mode) n ls) (hlen : len.toNat = nameSkip mode + n)
    (htail : 2 ≤ tail.length) (addition : UInt16) (stale : List UInt8) :
    (∃ addition', urlParse C (m ++ tail) src dest addition mode len stale =
        .ok (dest.patch 0 (dotted ls ++ [0]), addition') ∧ (mode = typeMx → At m src (be16 addition'))) ↔
      n ≤ 255 ∧ Whole m (m ++ tail) (src + nameSkip mode) n ls := by
  have hsrc := h.name.lt_length
  obtain ⟨addition', hpref, heq⟩ := urlParse_name C dest addition stale hmode (show nameSkip mode ≤ len.toNat by omega)
    (show src + nameSkip mode ≤ (m ++ tail).length by rw [List.length_append]; omega)
  rw [hlen, Nat.add_sub_cancel_left] at heq
  constructor
  · rintro ⟨x, hx, -⟩
    rw [heq] at hx
    obtain ⟨dest', htext, hx⟩ := bind_ok.1 hx
    cases hx
    exact h.whole_of_text C hdest stale htail htext
  · rintro ⟨hn, hw⟩
    obtain ⟨temp, htemp, htext⟩ := h.whole C dest stale htail hn hw
    have henc : (Labels.encode ls).length = (dotted ls).length + 2 := Labels.length_encode h.ne_nil
    have hmax := h.length_le
    have hparse : inetParse C .max temp.bytes 0 dest = .ok _ :=
      inetParse_name htemp h.name.sized h.ne_nil (by omega)
    refine ⟨addition', by rw [heq, htext, hparse]; rfl, fun hmx => ?_⟩
    have hskip : nameSkip mode = 2 := if_pos hmx
    have := hpref hmx
    refine this.congr fun i _ hi => ?_
    rw [length_be16] at hi
    rw [List.getElem?_append_left (by omega)]

end

/-! ### Two messages -/

/-- A response with the question `a` and the answer whose owner is a pointer to it; the RDATA at 31 is
`w` and a pointer to `target`. -/
def chainMessage (target : UInt8) : List UInt8 :=
  List.replicate 12 0 ++ [1, 97, 0, 0, 5, 0, 1] ++ [0xc0, 12, 0, 5, 0, 1, 0, 0, 0, 60, 0, 4] ++ [1, 119, 0xc0, target]

theorem chainMessage_question (target : UInt8) (s : Nat) : NameAt (chainMessage target) s 12 15 [[97]] :=
  .label (by decide) (by decide) (At.cons_iff.2 ⟨rfl, At.cons_iff.2 ⟨rfl, .nil⟩⟩) (.root rfl)

theorem chainMessage_rdata {target : UInt8} {x : UInt16} (hx : isNamePtr x = true) (hbytes : be16 x = [0xc0, target])
    {e : Nat} (hlt : (getQnamePtr x).toNat < 31)
    (h : NameAt (chainMessage target) (getQnamePtr x).toNat (getQnamePtr x).toNat e [[97]]) :
    RdataName (chainMessage target) 31 4 [[119], [97]] where
  name := .label (by decide) (by decide) (At.cons_iff.2 ⟨rfl, At.cons_iff.2 ⟨rfl, .nil⟩⟩)
    (.pointer hx (by rw [hbytes]; exact At.cons_iff.2 ⟨rfl, At.cons_iff.2 ⟨rfl, .nil⟩⟩) hlt h)
  ne_nil := by decide
  ascii := by decide +kernel
  length_le := by decide

/-- The pointer to the question's name. -/
theorem urlParse_decompresses_question : ∃ addition',
    urlParse .decimal (chainMessage 12 ++ [0, 0]) 31 (Block.fresh 255 []) 0 typeCname 4 [] =
      .ok ((Block.fresh 255 []).patch 0 (dotted [[119], [97]] ++ [0]), addition') := by
  have hname : RdataName (chainMessage 12) (31 + nameSkip typeCname) 4 [[119], [97]] :=
    chainMessage_rdata (x := 0xc00c) (by decide) (by decide) (by decide) (chainMessage_question 12 _)
  have hdest : 255 ≤ (Block.fresh 255 []).size := Nat.le_refl 255
  have hlen : (4 : UInt16).toNat = nameSkip typeCname + 4 := rfl
  have htail : 2 ≤ [(0 : UInt8), 0].length := by decide
  obtain ⟨addition', h, -⟩ := (urlParse_decompresses .decimal hdest (.inl rfl) hname hlen htail 0 []).2
    ⟨by decide, [[119]], [[97]], rfl, At.cons_iff.2 ⟨rfl, At.cons_iff.2 ⟨rfl, .nil⟩⟩,
      .inr ⟨0xc00c, by decide, At.cons_iff.2 ⟨rfl, At.cons_iff.2 ⟨rfl, .nil⟩⟩, by decide,
        .label (At.cons_iff.2 ⟨rfl, At.cons_iff.2 ⟨rfl, .nil⟩⟩) (.done _)⟩⟩
  exact ⟨addition', h⟩

/-- The pointer to the owner name, which is a pointer followed by the type: the walk stops there, and the
name `w.a` comes out as `w`. -/
theorem urlParse_cuts :
    RdataName (chainMessage 19) 31 4 [[119], [97]] ∧
    (do
      let (b, _) ← urlParse .decimal (chainMessage 19 ++ [0, 0]) 31 (Block.fresh 255 []) 0 typeCname 4 []
      cstr b.bytes : Exec (List UInt8)) = .ok [119] := by
  refine ⟨chainMessage_rdata (x := 0xc013) (by decide) (by decide) (by decide)
    (.pointer (x := 0xc00c) (by decide) ?_ (by decide) (chainMessage_question 19 _)), by decide +kernel⟩
  exact At.cons_iff.2 ⟨rfl, At.cons_iff.2 ⟨rfl, .nil⟩⟩

end DnsRelay
