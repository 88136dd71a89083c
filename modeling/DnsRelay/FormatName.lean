import Mathlib.Data.List.Induction
import DnsRelay.Names

/-!
# What `inetFormat` writes for a name

The loop of `inetFormat` steps over the byte that ended a label, also when that was the terminator,
and goes on until a NUL stands where a label would begin. `Pieces` are the labels it finds so, and
what it writes is their wire form. The labels of the name come first; what follows them depends on the
memory behind the terminator.
-/

namespace DnsRelay
open ByteSeq Exec

/-- The bytes that the inner loop copies. -/
def Plain (l : List UInt8) : Prop := ∀ c ∈ l, ¬ (c = dot ∨ c = 0)

instance (l : List UInt8) : Decidable (Plain l) := inferInstanceAs (Decidable (∀ c ∈ l, ¬ (c = dot ∨ c = 0)))

/-- The labels that the loop finds in `src`. -/
inductive Pieces : List UInt8 → List (List UInt8) → Prop
  | nil (rest : List UInt8) : Pieces (0 :: rest) []
  | cons {l rest : List UInt8} {ls : List (List UInt8)} {e : UInt8} (hl : Plain l) (he : e = dot ∨ e = 0)
      (hne : l ≠ [] ∨ e = dot) (hrest : Pieces rest ls) : Pieces (l ++ e :: rest) (l :: ls)

section
variable {C : Libc} {src url s : List UInt8} {l l' rest rest' : List UInt8} {e e' : UInt8} {ls us : List (List UInt8)}
  {dest : Block} {p d fuel : Nat}

theorem Plain.tail {c : UInt8} (h : Plain (c :: l)) : Plain l := fun c hc => h c (List.mem_cons_of_mem _ hc)

/-- A run of plain bytes ends in one way. -/
theorem plain_nil : Plain [] := nofun

theorem Plain.unique (hl : Plain l) (hl' : Plain l') (he : e = dot ∨ e = 0) (he' : e' = dot ∨ e' = 0)
    (h : l ++ e :: rest = l' ++ e' :: rest') : l = l' ∧ e = e' ∧ rest = rest' := by
  induction l generalizing l' with
  | nil =>
    cases l' with
    | nil => exact ⟨rfl, List.cons.inj h⟩
    | cons c l' =>
      obtain ⟨rfl, -⟩ := List.cons.inj h
      exact absurd he (hl' _ List.mem_cons_self)
  | cons c l ih =>
    cases l' with
    | nil =>
      obtain ⟨rfl, -⟩ := List.cons.inj h
      exact absurd he' (hl _ List.mem_cons_self)
    | cons c' l' =>
      obtain ⟨rfl, htail⟩ := List.cons.inj h
      obtain ⟨rfl, hrest⟩ := ih hl.tail hl'.tail htail
      exact ⟨rfl, hrest⟩

/-! ### The loops -/

theorem formatLabel_eq (hl : Plain l) (he : e = dot ∨ e = 0) (hroom : l = [] ∨ p + l.length ≤ dest.size)
    (n : UInt8) :
    formatLabel (l ++ e :: rest) dest p n =
      .ok (e :: rest, dest.patch p l, p + l.length, n + UInt8.ofNat l.length) := by
  induction l generalizing dest p n with
  | nil =>
    rw [List.nil_append, formatLabel, if_pos he]
    exact congrArg (fun n => Except.ok (e :: rest, dest, p, n)) (UInt8.add_zero n).symm
  | cons c l ih =>
    have hroom := hroom.resolve_left (List.cons_ne_nil c l)
    rw [List.length_cons] at hroom
    rw [List.cons_append, formatLabel, if_neg (hl c List.mem_cons_self), Block.store_eq c (by omega), ok_bind,
      ih hl.tail (.inr (by rw [Block.patch_size]; omega)), List.length_cons]
    refine congrArg Except.ok (Prod.ext rfl (Prod.ext (Block.patch_append dest p [c] l).symm (Prod.ext ?_ ?_)))
    · exact show p + 1 + l.length = p + (l.length + 1) by omega
    · show n + 1 + UInt8.ofNat l.length = n + UInt8.ofNat (l.length + 1)
      rw [UInt8.ofNat_add, UInt8.add_assoc, UInt8.add_comm 1]
      rfl

/-- Where the inner loop stops. -/
theorem formatLabel_ok {n : UInt8} {x : List UInt8 × Block × Nat × UInt8} (h : formatLabel src dest p n = .ok x) :
    ∃ l e rest, src = l ++ e :: rest ∧ Plain l ∧ (e = dot ∨ e = 0) ∧ (l = [] ∨ p + l.length ≤ dest.size) := by
  induction src generalizing dest p n with
  | nil => cases h
  | cons c src ih =>
    rw [formatLabel] at h
    split at h
    case isTrue hc => exact ⟨[], c, src, rfl, nofun, hc, .inl rfl⟩
    case isFalse hc =>
      obtain ⟨dest₁, hdest, h⟩ := bind_ok.1 h
      obtain ⟨hp, rfl⟩ := Block.store_inv hdest
      obtain ⟨l, e, rest, rfl, hl, he, hroom⟩ := ih h
      refine ⟨c :: l, e, rest, rfl, fun b hb => ?_, he, .inr ?_⟩
      · rcases List.mem_cons.1 hb with rfl | hb
        · exact hc
        · exact hl b hb
      · rw [List.length_cons]
        rw [Block.patch_size] at hroom
        rcases hroom with rfl | hroom
        · exact Nat.succ_le_of_lt hp
        · omega

/-- One label with its length byte. -/
theorem patch_label (dest : Block) (p : Nat) (n : UInt8) (l : List UInt8) :
    (dest.patch (p + 1) l).patch p [n] = dest.patch p (n :: l) :=
  Block.ext' rfl (patch_set dest.bytes n l (Nat.lt_succ_self p)).symm

/-- One round of the outer loop. -/
theorem formatLoop_round (hl : Plain l) (he : e = dot ∨ e = 0) (hne : l ≠ [] ∨ e = dot)
    (hroom : p + (l.length + 1) ≤ dest.size) :
    formatLoop (fuel + 1) (l ++ e :: rest) dest p (p + 1) =
      formatLoop fuel rest (dest.patch p (UInt8.ofNat l.length :: l)) (p + (l.length + 1))
        (p + (l.length + 1) + 1) := by
  have hhead : ∃ c, load (l ++ e :: rest) 0 = .ok c ∧ c ≠ 0 := by
    cases l with
    | nil =>
      refine ⟨e, rfl, ?_⟩
      rw [hne.resolve_left fun h => h rfl]
      decide
    | cons c l => exact ⟨c, rfl, fun h0 => hl c List.mem_cons_self (.inr h0)⟩
  obtain ⟨c, hc, hc0⟩ := hhead
  rw [formatLoop, hc, ok_bind, if_neg hc0, formatLabel_eq hl he (.inr (by omega)), ok_bind]
  have hp : p < (dest.patch (p + 1) l).size := by
    rw [Block.patch_size]
    omega
  dsimp only
  rw [UInt8.zero_add, Block.store_eq _ hp, ok_bind, patch_label, show p + 1 + l.length = p + (l.length + 1) by omega]
  rfl

theorem prefixed_cons_end (p : Nat) (l : List UInt8) (ls : List (List UInt8)) :
    p + (Labels.prefixed (l :: ls)).length = p + (l.length + 1) + (Labels.prefixed ls).length := by
  rw [Labels.prefixed_cons, List.length_cons, List.length_append]
  omega

theorem patch_prefixed_cons (dest : Block) (p : Nat) (l : List UInt8) (ls : List (List UInt8)) :
    (dest.patch p (UInt8.ofNat l.length :: l)).patch (p + (l.length + 1)) (Labels.prefixed ls) =
      dest.patch p (Labels.prefixed (l :: ls)) := by
  rw [Labels.prefixed_cons, ← List.cons_append, Block.patch_append, List.length_cons]

/-- The outer loop writes the wire form of the labels it finds, without the root. -/
theorem formatLoop_iff (hfuel : src.length < fuel) {x : Block × Nat} :
    formatLoop fuel src dest p (p + 1) = .ok x ↔ ∃ ls, Pieces src ls ∧
      (ls = [] ∨ p + (Labels.prefixed ls).length ≤ dest.size) ∧
      x = (dest.patch p (Labels.prefixed ls), p + (Labels.prefixed ls).length + 1) := by
  induction fuel generalizing src dest p x with
  | zero => cases hfuel
  | succ fuel ih =>
    constructor
    · intro h
      obtain ⟨c, hc, hrun⟩ := bind_ok.1 h
      dsimp only at hrun
      split at hrun
      case isTrue h0 =>
        cases hrun
        obtain ⟨rest, rfl⟩ : ∃ rest, src = 0 :: rest := by
          cases src with
          | nil => cases hc
          | cons c' rest => cases hc; exact ⟨rest, by rw [h0]⟩
        exact ⟨[], .nil rest, .inl rfl, rfl⟩
      case isFalse h0 =>
        obtain ⟨y, hlabel, hrun⟩ := bind_ok.1 hrun
        obtain ⟨l, e, rest, rfl, hl, he, hroom⟩ := formatLabel_ok hlabel
        have hne : l ≠ [] ∨ e = dot := by
          refine or_iff_not_imp_left.2 fun hnil => he.resolve_right fun h0' => h0 ?_
          rw [not_not.1 hnil, h0'] at hc
          exact (Except.ok.inj hc).symm
        have hroom : p + (l.length + 1) ≤ dest.size := by
          rcases hroom with rfl | hroom
          · -- the length byte of the empty label was stored
            rw [formatLabel_eq hl he (.inl rfl)] at hlabel
            cases hlabel
            obtain ⟨dest₁, hstore, -⟩ := bind_ok.1 hrun
            by_contra hge
            have : dest.store p (0 + UInt8.ofNat ([] : List UInt8).length) = .error .write :=
              if_neg fun hlt => hge hlt
            cases this.symm.trans hstore
          · omega
        rw [formatLoop_round hl he hne hroom] at h
        rw [List.length_append, List.length_cons] at hfuel
        obtain ⟨ls, hls, hfit, rfl⟩ := (ih (by omega)).1 h
        rw [Block.patch_size] at hfit
        refine ⟨l :: ls, .cons hl he hne hls, .inr ?_, ?_⟩
        · rw [prefixed_cons_end]
          rcases hfit with rfl | hfit
          · exact hroom
          · exact hfit
        · rw [patch_prefixed_cons, prefixed_cons_end]
    · rintro ⟨ls, hls, hroom, rfl⟩
      cases hls with
      | nil rest => rfl
      | @cons l rest ls e hl he hne hrest =>
        have hroom := hroom.resolve_left (List.cons_ne_nil l ls)
        rw [prefixed_cons_end] at hroom ⊢
        rw [List.length_append, List.length_cons] at hfuel
        rw [formatLoop_round hl he hne (by omega), ← patch_prefixed_cons, ih (by omega)]
        exact ⟨ls, hrest, .inr hroom, rfl⟩

/-- `inetFormat` of a name goes through if the labels found and the root fit, and writes them. -/
theorem inetFormat_iff (hs : cstr url = .ok s) {x : Nat × Block} :
    inetFormat C .max url dest d = .ok x ↔ ∃ ls, Pieces url ls ∧ d + (Labels.encode ls).length ≤ dest.size ∧
      x = (s.length + 1, dest.patch d (Labels.encode ls)) := by
  have henc : ∀ ls, dest.patch d (Labels.encode ls) =
      (dest.patch d (Labels.prefixed ls)).patch (d + (Labels.prefixed ls).length) [0] :=
    fun ls => Block.patch_append dest d _ _
  have hlen : ∀ ls, (Labels.encode ls).length = (Labels.prefixed ls).length + 1 := fun ls => by
    rw [Labels.encode, List.length_append, List.length_singleton]
  constructor
  · intro h
    obtain ⟨⟨dest₁, stop⟩, hloop, h⟩ := bind_ok.1 h
    obtain ⟨ls, hls, -, hx⟩ := (formatLoop_iff (Nat.lt_succ_self _)).1 hloop
    cases hx
    obtain ⟨dest₂, hstore, h⟩ := bind_ok.1 h
    rw [hs] at h
    cases h
    rw [Nat.add_sub_cancel] at hstore
    obtain ⟨hfit, rfl⟩ := Block.store_inv hstore
    rw [Block.patch_size] at hfit
    exact ⟨ls, hls, by rw [hlen]; omega, by rw [henc]⟩
  · rintro ⟨ls, hls, hfit, rfl⟩
    rw [hlen] at hfit
    rw [inetFormat, (formatLoop_iff (Nat.lt_succ_self _)).2 ⟨ls, hls, .inr (by omega), rfl⟩]
    simp only [ok_bind, Nat.add_sub_cancel]
    rw [Block.store_eq 0 (by rw [Block.patch_size]; omega), ok_bind, hs, henc]
    rfl

/-- Where the loop stops. -/
theorem Pieces.stop (h : Pieces src ls) : src[(Labels.prefixed ls).length]? = some 0 := by
  induction h with
  | nil rest => rfl
  | @cons l rest ls e _ _ _ _ ih =>
    rw [← Nat.zero_add (Labels.prefixed (l :: ls)).length, prefixed_cons_end,
      List.getElem?_append_right (by omega),
      show 0 + (l.length + 1) + (Labels.prefixed ls).length - l.length = (Labels.prefixed ls).length + 1 by omega,
      List.getElem?_cons_succ, ih]

theorem Pieces.nil_iff : Pieces (0 :: rest) ls ↔ ls = [] := by
  constructor
  · intro h
    generalize hsrc : (0 :: rest : List UInt8) = src at h
    cases h with
    | nil => rfl
    | @cons l rest' ls e hl he hne _ =>
      obtain ⟨rfl, rfl, -⟩ := hl.unique plain_nil he (.inr rfl) hsrc.symm
      rcases hne with hne | hne
      · exact absurd rfl hne
      · exact absurd hne (by decide)
  · rintro rfl
    exact .nil rest

/-- A label comes first, and then those that are found behind the byte that ends it. -/
theorem Pieces.cons_iff (hl : Plain l) (he : e = dot ∨ e = 0) (hne : l ≠ [] ∨ e = dot) :
    Pieces (l ++ e :: rest) ls ↔ ∃ gs, ls = l :: gs ∧ Pieces rest gs := by
  constructor
  · intro h
    generalize hsrc : l ++ e :: rest = src at h
    cases h with
    | nil rest' =>
      obtain ⟨rfl, rfl, -⟩ := hl.unique plain_nil he (.inr rfl) hsrc
      rcases hne with hne | hne
      · exact absurd rfl hne
      · exact absurd hne (by decide)
    | @cons l' rest' ls e' hl' he' _ hrest =>
      obtain ⟨rfl, rfl, rfl⟩ := hl.unique hl' he he' hsrc
      exact ⟨ls, rfl, hrest⟩
  · rintro ⟨gs, rfl, h⟩
    exact .cons hl he hne h

/-- The labels that a `.` ends. -/
theorem Pieces.dots_iff (hus : ∀ l ∈ us, Plain l) :
    Pieces (Labels.dots dot us ++ rest) ls ↔ ∃ gs, ls = us ++ gs ∧ Pieces rest gs := by
  induction us generalizing ls with
  | nil => simp
  | cons u us ih =>
    rw [Labels.dots_cons, List.append_assoc, List.cons_append,
      Pieces.cons_iff (hus u List.mem_cons_self) (.inl rfl) (.inr rfl)]
    simp only [ih fun l hl => hus l (List.mem_cons_of_mem _ hl)]
    constructor
    · rintro ⟨-, rfl, gs, rfl, h⟩
      exact ⟨gs, rfl, h⟩
    · rintro ⟨gs, rfl, h⟩
      exact ⟨us ++ gs, rfl, gs, rfl, h⟩

/-- The labels of a name come first. -/
theorem Pieces.name_iff (hne : us ≠ []) (hus : ∀ l ∈ us, l ≠ [] ∧ Plain l) :
    Pieces (dotted us ++ 0 :: rest) ls ↔ ∃ gs, ls = us ++ gs ∧ Pieces rest gs := by
  obtain ⟨us, u, rfl⟩ := (List.eq_nil_or_concat us).resolve_left hne
  rw [List.concat_eq_append] at hus ⊢
  have hsplit : dotted (us ++ [u]) = Labels.dots dot us ++ u := by
    have : Labels.dots dot (us ++ [u]) = dotted (us ++ [u]) ++ [dot] := Labels.dots_eq (by simp)
    rw [Labels.dots_append, Labels.dots_cons, ← List.append_assoc] at this
    exact (List.append_cancel_right this).symm
  obtain ⟨hu0, hu⟩ := hus u (by simp)
  rw [hsplit, List.append_assoc, Pieces.dots_iff fun l hl => (hus l (by simp [hl])).2]
  simp only [Pieces.cons_iff hu (.inr rfl) (.inl hu0)]
  constructor
  · rintro ⟨-, rfl, gs, rfl, h⟩
    exact ⟨gs, by simp, h⟩
  · rintro ⟨gs, rfl, h⟩
    exact ⟨u :: gs, by simp, gs, rfl, h⟩

/-! ### The common end of two names -/

theorem eq_nil_of_suffix_concat {t x a : List UInt8} {y z : UInt8} (hyz : y ≠ z) (hx : t <:+ x ++ [y])
    (ha : t <:+ a ++ [z]) : t = [] := by
  rcases List.suffix_concat_iff.1 hx with h | ⟨t₁, rfl, -⟩
  · exact h
  rcases List.suffix_concat_iff.1 ha with h | ⟨t₂, h, -⟩
  · exact absurd h (by simp)
  · exact absurd (List.append_inj_right' h rfl) fun h => hyz (List.cons.inj h).1

/-- The loop that compares the names from their ends: they have the end `c` in common so far. It finds
all of `a`, or a common end that a `.` precedes, or nothing. -/
theorem comparePos_spec (x a c : List UInt8) (pos : Int) :
    (a ≠ [] ∧ a <:+ x ∧ comparePos (x ++ c) (a ++ c) x.length a.length pos = 0) ∨
    (¬ a <:+ x ∧ ∃ x₁ a₁ b, x = x₁ ++ dot :: b ∧ a = a₁ ++ dot :: b ∧
      comparePos (x ++ c) (a ++ c) x.length a.length pos = (a₁.length : Int) + 1) ∨
    (¬ (a ≠ [] ∧ a <:+ x) ∧ (∀ b, ¬ (dot :: b <:+ x ∧ dot :: b <:+ a)) ∧
      comparePos (x ++ c) (a ++ c) x.length a.length pos = pos) := by
  induction x using List.reverseRecOn generalizing a c pos with
  | nil =>
    refine .inr (.inr ⟨fun h => h.1 (List.suffix_nil.1 h.2), fun b h => ?_, rfl⟩)
    exact List.cons_ne_nil dot b (List.suffix_nil.1 h.1)
  | append_singleton x y ih =>
    cases a using List.reverseRecOn with
    | nil =>
      refine .inr (.inr ⟨fun h => h.1 rfl, fun b h => List.cons_ne_nil dot b (List.suffix_nil.1 h.2), ?_⟩)
      rw [List.length_append]
      rfl
    | append_singleton a z =>
      have hx : (x ++ [y] ++ c)[x.length]? = some y := by simp
      have ha : (a ++ [z] ++ c)[a.length]? = some z := by simp
      rw [List.length_append, List.length_append, List.length_singleton, List.length_singleton, comparePos, hx, ha]
      by_cases hyz : y = z
      case neg =>
        refine .inr (.inr ⟨fun h => h.1 (eq_nil_of_suffix_concat hyz h.2 List.suffix_rfl), fun b h => ?_, ?_⟩)
        · exact List.cons_ne_nil dot b (eq_nil_of_suffix_concat hyz h.1 h.2)
        · exact if_pos fun h => hyz (Option.some.inj h)
      case pos =>
      subst hyz
      rw [if_neg (not_not.2 rfl), List.append_assoc, List.append_assoc]
      dsimp only
      cases a with
      | nil =>
        refine .inl ⟨by simp, (List.suffix_append x [y]), ?_⟩
        rw [if_pos List.length_nil, List.length_nil]
        cases x.length <;> rfl
      | cons a₀ a =>
        rw [if_neg (by simp)]
        rcases ih (a₀ :: a) ([y] ++ c) (if some y = some dot then ((a₀ :: a).length : Int) + 1 else pos) with
          ⟨h₁, h₂, h₃⟩ | ⟨h₁, x₁, a₁, b, rfl, h₂, h₃⟩ | ⟨h₁, h₂, h₃⟩
        · exact .inl ⟨by simp, List.suffix_append_self_iff.2 h₂, h₃⟩
        · exact .inr (.inl ⟨mt List.suffix_append_self_iff.1 h₁, x₁, a₁, b ++ [y], by simp, by rw [h₂]; simp, h₃⟩)
        · rw [h₃]
          by_cases hy : y = dot
          · subst hy
            exact .inr (.inl ⟨fun h => h₁ ⟨by simp, List.suffix_append_self_iff.1 h⟩, x, a₀ :: a, [], rfl, rfl, if_pos rfl⟩)
          · refine .inr (.inr ⟨fun h => h₁ ⟨by simp, List.suffix_append_self_iff.1 h.2⟩, fun b h => ?_,
              if_neg fun h => hy (Option.some.inj h)⟩)
            rcases List.suffix_concat_iff.1 h.1 with h' | ⟨t, ht, hx'⟩
            · exact List.cons_ne_nil dot b h'
            have ha' := h.2
            rw [ht] at ha'
            cases t with
            | nil => exact hy (List.cons.inj ht).1.symm
            | cons d t =>
              obtain ⟨rfl, -⟩ := List.cons.inj ht
              exact h₂ t ⟨hx', List.suffix_append_self_iff.1 ha'⟩

end

/-! ### What stands behind the terminator -/

/-- The call goes through on memory that ends with the terminator. -/
def ReadsName (C : Libc) (s : List UInt8) : Prop :=
  ∀ (dest : Block) (d : Nat), d + (s.length + 2) ≤ dest.size → ∃ x, inetFormat C .max (s ++ [0]) dest d = .ok x

/-- Two buffers that hold `s` and anything behind its terminator: the same bytes are written to the same places. -/
def WritesName (C : Libc) (s : List UInt8) : Prop :=
  ∀ (rest rest' : List UInt8) (dest : Block) (d : Nat), d + (s.length + 2) ≤ dest.size →
    ∃ w, w.length ≤ s.length + 2 ∧
      inetFormat C .max (s ++ 0 :: rest) dest d = .ok (s.length + 1, dest.patch d w) ∧
      inetFormat C .max (s ++ 0 :: rest') dest d = .ok (s.length + 1, dest.patch d w)

section
variable {C : Libc} {s l rest : List UInt8} {us : List (List UInt8)} {dest : Block} {d : Nat}

/-- A string is labels that a `.` ends and the bytes behind the last `.`. -/
theorem exists_dots (h0 : 0 ∉ s) : ∃ us l, (∀ u ∈ us, Plain u) ∧ Plain l ∧ s = Labels.dots dot us ++ l := by
  induction s with
  | nil => exact ⟨[], [], nofun, nofun, rfl⟩
  | cons c s ih =>
    obtain ⟨us, l, hus, hl, rfl⟩ := ih fun hm => h0 (List.mem_cons_of_mem _ hm)
    have hc0 : c ≠ 0 := fun hc => h0 (hc ▸ List.mem_cons_self)
    have hcons : ∀ {u : List UInt8}, c ≠ dot → Plain u → Plain (c :: u) := by
      intro u hc hu b hb
      rcases List.mem_cons.1 hb with rfl | hb
      · exact not_or.2 ⟨hc, hc0⟩
      · exact hu b hb
    by_cases hc : c = dot
    · exact ⟨[] :: us, l, List.forall_mem_cons.2 ⟨nofun, hus⟩, hl, by rw [hc, Labels.dots_cons]; rfl⟩
    · cases us with
      | nil => exact ⟨[], c :: l, nofun, hcons hc hl, rfl⟩
      | cons u us =>
        obtain ⟨hu, hus⟩ := List.forall_mem_cons.1 hus
        exact ⟨(c :: u) :: us, l, List.forall_mem_cons.2 ⟨hcons hc hu, hus⟩, hl, by
          rw [Labels.dots_cons, Labels.dots_cons]; rfl⟩

theorem getLast?_dots (hl : Plain l) (hne : Labels.dots dot us ++ l ≠ []) :
    (Labels.dots dot us ++ l).getLast? = some dot ↔ l = [] := by
  constructor
  · intro h
    by_contra hl0
    rw [List.getLast?_append_of_ne_nil _ hl0] at h
    exact hl dot (List.mem_of_getLast? h) (.inl rfl)
  · rintro rfl
    rw [List.append_nil] at hne ⊢
    have hus : us ≠ [] := by
      rintro rfl
      exact hne rfl
    rw [Labels.dots_eq hus, List.getLast?_concat]

theorem zero_notMem_dots (hus : ∀ u ∈ us, Plain u) (hl : Plain l) : 0 ∉ Labels.dots dot us ++ l := by
  intro hm
  rcases List.mem_append.1 hm with hm | hm
  · obtain ⟨u, hu, hm⟩ := List.mem_flatMap.1 hm
    rcases List.mem_append.1 hm with hm | hm
    · exact hus u hu 0 hm (.inr rfl)
    · exact absurd (List.mem_singleton.1 hm) (by decide)
  · exact hl 0 hm (.inr rfl)

/-- A string that ends with a `.`: the terminator stands where a label would begin. -/
theorem inetFormat_dots (hus : ∀ u ∈ us, Plain u) (rest : List UInt8)
    (hroom : d + ((Labels.dots dot us).length + 2) ≤ dest.size) :
    inetFormat C .max (Labels.dots dot us ++ 0 :: rest) dest d =
      .ok ((Labels.dots dot us).length + 1, dest.patch d (Labels.encode us)) := by
  have hs : cstr (Labels.dots dot us ++ 0 :: rest) = .ok (Labels.dots dot us) := by
    have h0 := zero_notMem_dots (l := []) hus nofun
    rw [List.append_nil] at h0
    exact cstr_append h0 rest
  refine (inetFormat_iff hs).2 ⟨us, (Pieces.dots_iff hus).2 ⟨[], by simp, .nil rest⟩, ?_, rfl⟩
  rw [Labels.encode, List.length_append, Labels.length_prefixed dot, List.length_singleton]
  omega

/-- Any other string: the loop goes on behind the terminator. -/
theorem inetFormat_open (hus : ∀ u ∈ us, Plain u) (hl : Plain l) (hl0 : l ≠ []) {x : Nat × Block} :
    inetFormat C .max (Labels.dots dot us ++ l ++ 0 :: rest) dest d = .ok x ↔
      ∃ gs, Pieces rest gs ∧ d + (Labels.encode (us ++ l :: gs)).length ≤ dest.size ∧
        x = ((Labels.dots dot us ++ l).length + 1, dest.patch d (Labels.encode (us ++ l :: gs))) := by
  rw [inetFormat_iff (cstr_append (zero_notMem_dots hus hl) rest), List.append_assoc]
  simp only [Pieces.dots_iff hus, Pieces.cons_iff hl (.inr rfl) (.inl hl0)]
  constructor
  · rintro ⟨-, ⟨-, rfl, gs, rfl, h⟩, hfit, rfl⟩
    exact ⟨gs, h, hfit, rfl⟩
  · rintro ⟨gs, h, hfit, rfl⟩
    exact ⟨us ++ l :: gs, ⟨l :: gs, rfl, gs, rfl, h⟩, hfit, rfl⟩

theorem readsName_iff (hne : s ≠ []) (h0 : 0 ∉ s) : ReadsName C s ↔ s.getLast? = some dot := by
  obtain ⟨us, l, hus, hl, rfl⟩ := exists_dots h0
  rw [getLast?_dots hl hne]
  constructor
  · intro h
    by_contra hl0
    -- no byte stands behind the terminator, and no label is found there
    obtain ⟨x, hx⟩ := h (Block.fresh ((Labels.dots dot us ++ l).length + 2) []) 0 (by simp)
    obtain ⟨gs, hgs, -⟩ := (inetFormat_open hus hl hl0).1 hx
    generalize hnil : ([] : List UInt8) = src at hgs
    cases hgs <;> simp at hnil
  · rintro rfl dest d hroom
    rw [List.append_nil] at hroom ⊢
    exact ⟨_, inetFormat_dots hus [] hroom⟩

theorem writesName_iff (hne : s ≠ []) (h0 : 0 ∉ s) : WritesName C s ↔ s.getLast? = some dot := by
  obtain ⟨us, l, hus, hl, rfl⟩ := exists_dots h0
  rw [getLast?_dots hl hne]
  constructor
  · intro h
    by_contra hl0
    -- a NUL behind the terminator, or the label `b`
    have hb : Plain [98] := by decide +kernel
    obtain ⟨w, -, h₁, h₂⟩ := h [0] [98, 0, 0] (Block.fresh ((Labels.dots dot us ++ l).length + 4) []) 0 (by simp)
    obtain ⟨gs, hgs, hfit, he₁⟩ := (inetFormat_open hus hl hl0).1 h₁
    obtain ⟨gs', hgs', hfit', he₂⟩ := (inetFormat_open hus hl hl0).1 h₂
    obtain rfl := Pieces.nil_iff.1 hgs
    obtain ⟨gs₂, rfl, hgs₂⟩ := (Pieces.cons_iff (l := [98]) hb (.inr rfl) (.inl (by simp))).1 hgs'
    obtain rfl := Pieces.nil_iff.1 hgs₂
    have hat := Block.at_patch hfit
    have hat' := Block.at_patch hfit'
    rw [← (Prod.mk.inj he₁).2, Labels.encode] at hat
    rw [← (Prod.mk.inj he₂).2, ← List.singleton_append, ← List.append_assoc, Labels.encode, Labels.prefixed_append,
      List.append_assoc] at hat'
    have hzero := (At.cons_iff.1 hat.right).1
    have hone := (At.cons_iff.1 hat'.right).1
    cases hzero.symm.trans hone
  · rintro rfl rest rest' dest d hroom
    rw [List.append_nil] at hroom ⊢
    refine ⟨Labels.encode us, ?_, inetFormat_dots hus rest hroom, inetFormat_dots hus rest' hroom⟩
    rw [Labels.encode, List.length_append, Labels.length_prefixed dot, List.length_singleton]
    omega

/-- The call reads nothing behind the terminator, and writes the same whatever stands there, if and only if the
string ends with a `.`; otherwise it does neither. -/
theorem inetFormat_string (C : Libc) (hne : s ≠ []) (h0 : 0 ∉ s) :
    (ReadsName C s ∧ WritesName C s ↔ s.getLast? = some dot) ∧ (ReadsName C s ↔ WritesName C s) := by
  rw [readsName_iff hne h0, writesName_iff hne h0]
  exact ⟨and_self_iff, Iff.rfl⟩

theorem inetFormat_string_dot : ReadsName Libc.decimal [97, dot] ∧ WritesName Libc.decimal [97, dot] :=
  (inetFormat_string Libc.decimal (s := [97, dot]) (by simp) (by decide)).1.2 rfl

/-- The name `a`: no byte behind its terminator, a NUL, and the bytes of `b`. -/
theorem inetFormat_trailing :
    inetFormat .decimal .max [97, 0] (.fresh 255 []) 0 = .error .read ∧
    inetFormat .decimal .max [97, 0, 0] (.fresh 255 []) 0 = .ok (2, (Block.fresh 255 []).patch 0 [1, 97, 0]) ∧
    inetFormat .decimal .max [97, 0, 98, 0, 0] (.fresh 255 []) 0 =
      .ok (2, (Block.fresh 255 []).patch 0 [1, 97, 1, 98, 0]) := by
  decide +kernel

end

end DnsRelay
