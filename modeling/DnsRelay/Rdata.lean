import DnsRelay.Response

/-!
# RDATA as `urlFormat` writes it

`responseFormat` formats every answer in the same buffer, which it never clears. The bytes that count,
as many as `urlFormat` returns, do not depend on what the buffer held: `Alike` compares two buffers at
the places a loop has written, and `attached` is what every answer becomes in a clear one.
-/

namespace DnsRelay
open ByteSeq Exec

/-- Two buffers of size `n` that hold the same bytes at the places in `P`. -/
structure Alike (n : Nat) (P : Nat → Prop) (b b' : Block) : Prop where
  left : b.size = n
  right : b'.size = n
  same : ∀ i, P i → b.bytes[i]? = b'.bytes[i]?

section
variable {N : Nat} {P Q : Nat → Prop} {b b' c : Block} {C : Libc}

theorem Alike.mono (h : Alike N P b b') (hQ : ∀ i, Q i → P i) : Alike N Q b b' :=
  ⟨h.left, h.right, fun i hi => h.same i (hQ i hi)⟩

theorem Alike.store {i : Int} {v : UInt8} (h : Alike N P b b') (hs : b.store i v = .ok c) :
    ∃ c', b'.store i v = .ok c' ∧ Alike N (fun j => P j ∨ (j : Int) = i) c c' := by
  cases i with
  | negSucc p => cases hs
  | ofNat p =>
    obtain ⟨hp, rfl⟩ := Block.store_inv hs
    have hb := b.size_le
    have hb' := b'.size_le
    have hl := h.left
    have hr := h.right
    refine ⟨b'.patch p [v], Block.store_eq v (by omega), hl, hr, fun j hj => ?_⟩
    simp only [Block.patch_bytes, ByteSeq.patch]
    by_cases hjp : p = j
    · subst hjp
      rw [List.getElem?_set_self (by omega), List.getElem?_set_self (by omega)]
    · rw [List.getElem?_set_ne hjp, List.getElem?_set_ne hjp]
      exact h.same j (hj.resolve_right fun he => hjp (Int.ofNat_inj.1 he).symm)

theorem Alike.storeBytes {i : Int} {xs : List UInt8} (h : Alike N P b b') (hs : b.storeBytes i xs = .ok c) :
    ∃ c', b'.storeBytes i xs = .ok c' ∧ Alike N (fun j => P j ∨ i ≤ j ∧ (j : Int) < i + xs.length) c c' := by
  induction xs generalizing i b b' P with
  | nil =>
    cases hs
    exact ⟨b', rfl, h.mono fun j hj => hj.resolve_right (by simp only [List.length_nil]; omega)⟩
  | cons x xs ih =>
    obtain ⟨b₁, hb₁, hs⟩ := bind_ok.1 hs
    obtain ⟨b₁', hb₁', h₁⟩ := h.store hb₁
    obtain ⟨c', hc', h₂⟩ := ih h₁ hs
    refine ⟨c', by rw [Block.storeBytes, hb₁', ok_bind]; exact hc', h₂.mono fun j hj => ?_⟩
    rw [List.length_cons] at hj
    rcases hj with hj | hj
    · exact .inl (.inl hj)
    · by_cases he : (j : Int) = i
      · exact .inl (.inr he)
      · exact .inr (by push_cast at hj; omega)

theorem storeBytes_nonneg {i : Int} {xs : List UInt8} (hne : xs ≠ []) (hs : b.storeBytes i xs = .ok c) : 0 ≤ i := by
  obtain ⟨x, xs, rfl⟩ := List.exists_cons_of_ne_nil hne
  obtain ⟨b₁, hb₁, -⟩ := bind_ok.1 hs
  by_contra hneg
  rw [Block.store_neg x (by omega)] at hb₁
  cases hb₁

/-- The label loop: the bytes it writes, and how it ends. -/
theorem formatLabel_alike {src src' : List UInt8} {pos pos' : Nat} {len len' : UInt8} (h : Alike N P b b')
    (hf : formatLabel src b pos len = .ok (src', c, pos', len')) :
    (∃ c', formatLabel src b' pos len = .ok (src', c', pos', len') ∧
      Alike N (fun j => P j ∨ pos ≤ j ∧ j < pos') c c') ∧
    ∃ l e rest, src = l ++ e :: rest ∧ src' = e :: rest ∧ 0 ∉ l ∧ (e = dot ∨ e = 0) ∧ pos' = pos + l.length := by
  induction src generalizing b b' P pos len with
  | nil => cases hf
  | cons x src ih =>
    rw [formatLabel] at hf
    split at hf
    case isTrue hx =>
      cases hf
      refine ⟨⟨b', ?_, h.mono fun j hj => hj.resolve_right (by omega)⟩, [], x, src, rfl, rfl, nofun, hx, rfl⟩
      rw [formatLabel, if_pos hx]
      rfl
    case isFalse hx =>
      obtain ⟨b₁, hb₁, hf⟩ := bind_ok.1 hf
      obtain ⟨b₁', hb₁', h₁⟩ := h.store hb₁
      obtain ⟨⟨c', hc', h₂⟩, l, e, rest, rfl, rfl, hl, he, hpos⟩ := ih h₁ hf
      refine ⟨⟨c', ?_, h₂.mono fun j hj => ?_⟩, x :: l, e, rest, rfl, rfl, ?_, he, ?_⟩
      · rw [formatLabel, if_neg hx, hb₁', ok_bind]
        exact hc'
      · rcases hj with hj | hj
        · exact .inl (.inl hj)
        · by_cases hjp : j = pos
          · exact .inl (.inr (by rw [hjp]))
          · exact .inr (by omega)
      · rw [List.mem_cons, not_or]
        exact ⟨fun h0 => hx (.inr h0.symm), hl⟩
      · rw [List.length_cons]; omega

theorem cstr_label {l rest : List UInt8} (hl : 0 ∉ l) {e : UInt8} {s : List UInt8}
    (h : cstr (l ++ e :: rest) = .ok s) :
    e = 0 ∧ s = l ∨ e ≠ 0 ∧ ∃ s', cstr rest = .ok s' ∧ s = l ++ e :: s' := by
  induction l generalizing s with
  | nil =>
    rw [List.nil_append, cstr] at h
    split at h
    case isTrue he => cases h; exact .inl ⟨he, rfl⟩
    case isFalse he =>
      obtain ⟨s', hs', h⟩ := bind_ok.1 h
      cases h
      exact .inr ⟨he, s', hs', rfl⟩
  | cons x l ih =>
    rw [List.mem_cons, not_or] at hl
    rw [List.cons_append, cstr, if_neg (Ne.symm hl.1)] at h
    obtain ⟨t, ht, h⟩ := bind_ok.1 h
    cases h
    rcases ih hl.2 ht with ⟨he, rfl⟩ | ⟨he, s', hs', rfl⟩
    · exact .inl ⟨he, rfl⟩
    · exact .inr ⟨he, s', hs', rfl⟩

/-- The loop over the labels writes the bytes from the first length byte on, at least as many as the
text has, one more, and leaves the last place open. -/
theorem formatLoop_alike {fuel : Nat} {src : List UInt8} {lenPos stop : Nat} (h : Alike N P b b')
    (hf : formatLoop fuel src b lenPos (lenPos + 1) = .ok (c, stop)) :
    (∃ c', formatLoop fuel src b' lenPos (lenPos + 1) = .ok (c', stop) ∧
      Alike N (fun j => P j ∨ lenPos ≤ j ∧ j + 1 < stop) c c') ∧
    lenPos + 1 ≤ stop ∧ ∀ s, cstr src = .ok s → lenPos + 1 + s.length ≤ stop := by
  induction fuel generalizing src b b' P lenPos with
  | zero => cases hf
  | succ fuel ih =>
    obtain ⟨x, hx, hf⟩ := bind_ok.1 hf
    dsimp only at hf
    split at hf
    case isTrue h0 =>
      cases hf
      refine ⟨⟨b', ?_, h.mono fun j hj => hj.resolve_right (by omega)⟩, Nat.le_refl _, fun s hs => ?_⟩
      · rw [formatLoop, hx, ok_bind, if_pos h0]
        rfl
      · have h0 : src[0]? = some 0 := h0 ▸ load_ok (p := 0).1 hx
        have := cstr_length_le hs h0
        omega
    case isFalse h0 =>
      obtain ⟨⟨src', b₁, pos', len⟩, hlabel, hf⟩ := bind_ok.1 hf
      dsimp only at hf
      obtain ⟨b₂, hb₂, hf⟩ := bind_ok.1 hf
      obtain ⟨⟨b₁', hlabel', h₁⟩, l, e, rest, rfl, rfl, hl, he, rfl⟩ := formatLabel_alike h hlabel
      obtain ⟨b₂', hb₂', h₂⟩ := h₁.store hb₂
      obtain ⟨⟨c', hc', h₃⟩, hle, hlen⟩ := ih h₂ hf
      refine ⟨⟨c', ?_, h₃.mono fun j hj => ?_⟩, by omega, fun s hs => ?_⟩
      · rw [formatLoop, hx, ok_bind, if_neg h0, hlabel', ok_bind]
        simp only [hb₂', ok_bind]
        exact hc'
      · rcases hj with hj | hj
        · exact .inl (.inl (.inl hj))
        · by_cases hj' : j = lenPos
          · exact .inl (.inr (by rw [hj']))
          · by_cases hj'' : j < lenPos + 1 + l.length
            · exact .inl (.inl (.inr (by omega)))
            · exact .inr (by omega)
      · rcases cstr_label hl hs with ⟨-, rfl⟩ | ⟨-, s', hs', rfl⟩
        · omega
        · have := hlen s' hs'
          rw [List.length_append, List.length_cons]
          omega

/-- `inetFormat` of a name returns the length of the text, one more, and has written that many bytes. -/
theorem inetFormat_alike {url : List UInt8} {d n : Nat} (h : Alike N P b b')
    (hf : inetFormat C .max url b d = .ok (n, c)) :
    (∃ s, cstr url = .ok s ∧ n = s.length + 1) ∧
    ∃ c', inetFormat C .max url b' d = .ok (n, c') ∧ Alike N (fun j => P j ∨ d ≤ j ∧ j < d + n) c c' := by
  obtain ⟨⟨b₁, stop⟩, hloop, hf⟩ := bind_ok.1 hf
  obtain ⟨b₂, hb₂, hf⟩ := bind_ok.1 hf
  obtain ⟨s, hs, hf⟩ := bind_ok.1 hf
  cases hf
  obtain ⟨⟨b₁', hloop', h₁⟩, hle, hlen⟩ := formatLoop_alike h hloop
  obtain ⟨c', hc', h₂⟩ := h₁.store hb₂
  have := hlen s hs
  refine ⟨⟨s, hs, rfl⟩, c', ?_, h₂.mono fun j hj => ?_⟩
  · rw [inetFormat, hloop', ok_bind]
    simp only [hc', hs, ok_bind]
    rfl
  · by_cases hj' : j + 1 = stop
    · exact .inr (by omega)
    · exact .inl (hj.imp id fun hj => by omega)

theorem comparePos_le {url name : List UInt8} {i j : Nat} {pos : Int} {n : Nat} (hpos : pos ≤ n) (hj : j ≤ n) :
    comparePos url name i j pos ≤ n := by
  induction i generalizing j pos with
  | zero =>
    rw [comparePos]
    exact hpos
  | succ i ih =>
    cases j with
    | zero => exact hpos
    | succ j =>
      rw [comparePos]
      split
      · exact hpos
      · refine ih ?_ (by omega)
        split_ifs <;> omega

/-- The address conversions write as many bytes as they return. -/
theorem inetFormat_alike_address (hC : C.Sized) {url : List UInt8} {af : Af} (haf : af ≠ .max) {n : Nat}
    (h : Alike N P b b') (hf : inetFormat C af url b 0 = .ok (n, c)) :
    ∃ c', inetFormat C af url b' 0 = .ok (n, c') ∧ Alike N (fun j => j < n) c c' := by
  have hstore : ∀ {xs : List UInt8} {d : Block}, b.storeBytes 0 xs = .ok d →
      ∃ d', b'.storeBytes 0 xs = .ok d' ∧ Alike N (fun j => j < xs.length) d d' := fun hs => by
    obtain ⟨d', hd', hall⟩ := h.storeBytes hs
    exact ⟨d', hd', hall.mono fun j hj => .inr (by omega)⟩
  have hnone : Alike N (fun j => j < 0) b b' := h.mono fun j hj => absurd hj (Nat.not_lt_zero j)
  cases af with
  | max => exact absurd rfl haf
  | inet =>
    obtain ⟨s, hs, hf⟩ := bind_ok.1 hf
    rw [inetFormat, hs, ok_bind]
    cases hp : C.pton4 s with
    | none =>
      rw [hp] at hf
      cases hf
      exact ⟨b', rfl, hnone⟩
    | some xs =>
      rw [hp] at hf
      obtain ⟨d, hd, hf⟩ := bind_ok.1 hf
      cases hf
      obtain ⟨d', hd', hall⟩ := hstore hd
      rw [hC.pton4 s xs hp] at hall
      exact ⟨d', congrArg (· >>= _) hd', hall⟩
  | inet6 =>
    obtain ⟨s, hs, hf⟩ := bind_ok.1 hf
    rw [inetFormat, hs, ok_bind]
    cases hp : C.pton6 s with
    | none =>
      rw [hp] at hf
      cases hf
      exact ⟨b', rfl, hnone⟩
    | some xs =>
      rw [hp] at hf
      obtain ⟨d, hd, hf⟩ := bind_ok.1 hf
      cases hf
      obtain ⟨d', hd', hall⟩ := hstore hd
      rw [hC.pton6 s xs hp] at hall
      exact ⟨d', congrArg (· >>= _) hd', hall⟩

/-- As many bytes as `urlFormat` returns do not depend on what the buffer held. -/
theorem urlFormat_alike (hC : C.Sized) {url name : List UInt8} {mode pointer addition : UInt16} {ret : Int}
    (hb : b.size = N) (hb' : b'.size = N) (hf : urlFormat C url b mode name pointer addition = .ok (ret, c)) :
    -1 ≤ ret ∧ ∃ c', urlFormat C url b' mode name pointer addition = .ok (ret, c') ∧
      Alike N (fun j => (j : Int) < ret) c c' := by
  have h : Alike N (fun _ => False) b b' := ⟨hb, hb', nofun⟩
  by_cases hA : mode = typeA
  · rw [urlFormat, if_pos hA] at hf ⊢
    obtain ⟨⟨n, d⟩, hinet, hf⟩ := bind_ok.1 hf
    cases hf
    obtain ⟨c', hc', hall⟩ := inetFormat_alike_address hC (by decide) h hinet
    exact ⟨by omega, c', congrArg (· >>= _) hc', hall.mono fun j hj => by omega⟩
  rw [urlFormat, if_neg hA] at hf ⊢
  by_cases h6 : mode = typeAaaa
  · rw [if_pos h6] at hf ⊢
    obtain ⟨⟨n, d⟩, hinet, hf⟩ := bind_ok.1 hf
    cases hf
    obtain ⟨c', hc', hall⟩ := inetFormat_alike_address hC (by decide) h hinet
    exact ⟨by omega, c', congrArg (· >>= _) hc', hall.mono fun j hj => by omega⟩
  rw [if_neg h6] at hf ⊢
  obtain ⟨⟨b₁, d⟩, hpref, hf⟩ := bind_ok.1 hf
  -- the preference, and where the name starts
  obtain ⟨b₁', hpref', h₁, hd⟩ : ∃ b₁', (if mode = typeMx then do
        let dest ← b'.storeBytes 0 (be16 addition)
        return (dest, 2)
      else return (b', 0) : Exec (Block × Nat)) = .ok (b₁', d) ∧ Alike N (fun j => j < d) b₁ b₁' ∧
      d = if mode = typeMx then 2 else 0 := by
    split at hpref
    case isTrue hmx =>
      obtain ⟨b₂, hb₂, hpref⟩ := bind_ok.1 hpref
      cases hpref
      obtain ⟨b₂', hb₂', h₂⟩ := h.storeBytes hb₂
      refine ⟨b₂', by rw [if_pos hmx, hb₂']; rfl, h₂.mono fun j hj => .inr ?_, (if_pos hmx).symm⟩
      rw [length_be16]
      omega
    case isFalse hmx =>
      cases hpref
      exact ⟨b', by rw [if_neg hmx]; rfl, h.mono fun j hj => absurd hj (Nat.not_lt_zero j), (if_neg hmx).symm⟩
  rw [hpref', ok_bind]
  dsimp only at hf ⊢
  split at hf
  case isFalse hname =>
    cases hf
    exact ⟨Int.le_refl _, b₁', if_neg hname, h₁.mono fun j hj => by omega⟩
  case isTrue hname =>
    rw [if_pos hname]
    obtain ⟨s, hs, hf⟩ := bind_ok.1 hf
    obtain ⟨q, hq, hf⟩ := bind_ok.1 hf
    obtain ⟨⟨n, b₂⟩, hinet, hf⟩ := bind_ok.1 hf
    obtain ⟨⟨s', hs', rfl⟩, b₂', hinet', h₂⟩ := inetFormat_alike h₁ hinet
    have hpos : comparePos s q s.length q.length (-1) ≤ q.length := comparePos_le (by omega) (Nat.le_refl _)
    rw [hs, ok_bind, hq, ok_bind, hinet', ok_bind]
    dsimp only at hf ⊢
    split at hf
    case isTrue hnone =>
      obtain ⟨b₃, hb₃, hf⟩ := bind_ok.1 hf
      cases hf
      obtain ⟨b₃', hb₃', h₃⟩ := h₂.store hb₃
      refine ⟨by omega, b₃', by rw [if_pos hnone, hb₃']; rfl, h₃.mono fun j hj => ?_⟩
      omega
    case isFalse hsome =>
      obtain ⟨b₃, hb₃, hf⟩ := bind_ok.1 hf
      cases hf
      obtain ⟨b₃', hb₃', h₃⟩ := h₂.storeBytes hb₃
      have hskip : (if mode = typeMx then (2 : Int) else 0) = d := by rw [hd]; split <;> rfl
      have hplace := storeBytes_nonneg (List.cons_ne_nil _ _) hb₃
      rw [hskip]
      refine ⟨by omega, b₃', by rw [if_neg hsome, hb₃']; rfl, h₃.mono fun j hj => ?_⟩
      rw [length_be16]
      omega

end

/-! ### The attached records -/

/-- The record of an answer to the question `q`, formatted in a clear buffer. -/
def Answer.format (C : Libc) (q : Quest) (name : UInt16) (a : Answer) : Exec WireRecord := do
  let (ret, b) ← urlFormat C a.rdata.bytes (Block.fresh 255 []) a.type q.qname.bytes name a.addition
  return ⟨be16 name, a.type, a.cls, a.ttl, b.bytes.take (ret % 65536).toNat⟩

def attached (C : Libc) (quests : List Quest) : List (Answer × UInt16) → Exec (List WireRecord)
  | [] => .ok []
  | (a, name) :: xs => match quests[a.qpos.toNat]? with
    | none => .error .read
    | some q => do
      let r ← a.format C q name
      let rs ← attached C quests xs
      return r :: rs

section
variable {C : Libc} {quests : List Quest}

/-- What `responseFormat` copies to `RDATA` is what the clear buffer holds. -/
theorem format_eq (hC : C.Sized) {q : Quest} {a : Answer} {name : UInt16} {resData resData' rdata : Block} {ret : Int}
    (hres : resData.size = 255) (hsize : a.rdata.size < 65535)
    (hf : urlFormat C a.rdata.bytes resData a.type q.qname.bytes name a.addition = .ok (ret, resData'))
    (hcopy : a.rdata.copy 0 resData'.bytes 0 (UInt16.ofNat (ret % 65536).toNat).toNat = .ok rdata) :
    resData'.size = 255 ∧ a.format C q name =
      .ok ({ a with rdlen := UInt16.ofNat (ret % 65536).toNat, rdata := rdata }.record name) := by
  obtain ⟨hret, b, hb, halike⟩ := urlFormat_alike hC hres (Block.fresh_size 255 []) hf
  have hrd : (UInt16.ofNat (ret % 65536).toNat).toNat = (ret % 65536).toNat := by
    rw [UInt16.toNat_ofNat']
    omega
  rw [hrd] at hcopy
  obtain ⟨xs, hxs, hat, hroom, rfl⟩ := Block.copy_ok (p := 0) (q := 0) hcopy
  refine ⟨halike.left, ?_⟩
  have hwritten : (a.rdata.patch 0 xs).bytes.take xs.length = xs := by
    have hat : At (a.rdata.patch 0 xs).bytes 0 xs := Block.at_patch (by rcases hroom with h | h <;> omega)
    have := hat.take_drop
    rwa [List.drop_zero] at this
  have hclear : b.bytes.take xs.length = xs := by
    have hatb : At b.bytes 0 xs := hat.congr fun i _ hi => (halike.same i (by
      rcases hroom with h | h <;> omega)).symm
    have := hatb.take_drop
    rwa [List.drop_zero] at this
  rw [Answer.format, hb, ok_bind, Answer.record]
  simp only [hrd.trans hxs.symm, hwritten]
  rw [← hxs, hclear]
  rfl

/-- The first loop of `responseFormat` makes the attached records. -/
theorem formatAnswers_attached (hC : C.Sized) {xs : List (Answer × UInt16)} {resData : Block} {len len' : Nat}
    {ans : List Answer} (hres : resData.size = 255) (hsize : ∀ x ∈ xs, x.1.rdata.size < 65535)
    (h : formatAnswers C quests xs resData len = .ok (ans, len')) :
    attached C quests xs = .ok (records (ans.zip (xs.map Prod.snd))) := by
  induction xs generalizing resData len ans with
  | nil => cases h; rfl
  | cons x xs ih =>
    obtain ⟨a, name⟩ := x
    rw [formatAnswers] at h
    rw [attached]
    cases hq : quests[a.qpos.toNat]? with
    | none => rw [hq] at h; cases h
    | some q =>
      rw [hq] at h
      obtain ⟨⟨ret, resData'⟩, hf, h⟩ := bind_ok.1 h
      obtain ⟨rdata, hcopy, h⟩ := bind_ok.1 h
      obtain ⟨⟨ans', len''⟩, hrest, h⟩ := bind_ok.1 h
      cases h
      obtain ⟨hres', hfmt⟩ := format_eq hC hres (hsize (a, name) List.mem_cons_self) hf hcopy
      simp only [hfmt, ok_bind, ih hres' (fun x hx => hsize x (List.mem_cons_of_mem _ hx)) hrest]
      rfl

end

end DnsRelay
