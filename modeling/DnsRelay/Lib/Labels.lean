import Mathlib.Data.List.Basic

/-!
# Sequences of labels

A name is a list of labels. On the wire every label follows its length and an empty one ends the
name; as text the labels are joined by a separator. The two forms have almost the same length, as a
length byte and a separator take the same room.
-/

namespace Labels

variable {sep : UInt8} {l : List UInt8} {ls : List (List UInt8)}

/-- Every label after its length. -/
def prefixed (ls : List (List UInt8)) : List UInt8 := ls.flatMap fun l => UInt8.ofNat l.length :: l

/-- The wire form. -/
def encode (ls : List (List UInt8)) : List UInt8 := prefixed ls ++ [0]

/-- Every label before a separator. -/
def dots (sep : UInt8) (ls : List (List UInt8)) : List UInt8 := ls.flatMap (· ++ [sep])

/-- The text. -/
def dotted (sep : UInt8) (ls : List (List UInt8)) : List UInt8 := List.intercalate [sep] ls

structure Valid (sep : UInt8) (ls : List (List UInt8)) : Prop where
  ne_nil : ls ≠ []
  pos : ∀ l ∈ ls, 0 < l.length
  le : ∀ l ∈ ls, l.length ≤ 63
  sep_notMem : ∀ l ∈ ls, sep ∉ l
  zero_notMem : ∀ l ∈ ls, 0 ∉ l

/-- The labels have the lengths the wire form allows. -/
def Sized (ls : List (List UInt8)) : Prop := ∀ l ∈ ls, 0 < l.length ∧ l.length ≤ 63

theorem Sized.tail (h : Sized (l :: ls)) : Sized ls := fun l hl => h l (List.mem_cons_of_mem _ hl)

/-- A length byte is its length, and not 0. -/
theorem Sized.length_byte (h : Sized ls) (hl : l ∈ ls) :
    (UInt8.ofNat l.length).toNat = l.length ∧ UInt8.ofNat l.length ≠ 0 := by
  obtain ⟨h1, h2⟩ := h l hl
  have hn : (UInt8.ofNat l.length).toNat = l.length := by
    rw [UInt8.toNat_ofNat']; exact Nat.mod_eq_of_lt (by omega)
  refine ⟨hn, fun h0 => ?_⟩
  rw [h0] at hn
  exact absurd hn (by simp; omega)

@[simp] theorem prefixed_nil : prefixed [] = [] := rfl
@[simp] theorem dots_nil : dots sep [] = [] := rfl

theorem prefixed_cons : prefixed (l :: ls) = UInt8.ofNat l.length :: (l ++ prefixed ls) := by
  simp [prefixed]

theorem encode_cons : encode (l :: ls) = UInt8.ofNat l.length :: l ++ encode ls := by
  rw [encode, prefixed_cons, encode]; simp

theorem prefixed_append (ls ls' : List (List UInt8)) : prefixed (ls ++ ls') = prefixed ls ++ prefixed ls' :=
  List.flatMap_append

theorem encode_append (ls ls' : List (List UInt8)) : encode (ls ++ ls') = prefixed ls ++ encode ls' := by
  rw [encode, prefixed_append, List.append_assoc, encode]

theorem dots_cons : dots sep (l :: ls) = l ++ (sep :: dots sep ls) := by simp [dots]

theorem dots_append (sep : UInt8) (ls ls' : List (List UInt8)) : dots sep (ls ++ ls') = dots sep ls ++ dots sep ls' :=
  List.flatMap_append

theorem length_prefixed (sep : UInt8) (ls : List (List UInt8)) :
    (prefixed ls).length = (dots sep ls).length := by
  induction ls with
  | nil => rfl
  | cons l ls ih => rw [prefixed_cons, dots_cons]; simp [ih]; omega

theorem dots_eq (hne : ls ≠ []) : dots sep ls = dotted sep ls ++ [sep] := by
  induction ls with
  | nil => exact absurd rfl hne
  | cons l ls ih =>
    cases ls with
    | nil => simp [dots, dotted]
    | cons l' ls =>
      rw [dots_cons, ih (List.cons_ne_nil _ _), dotted, dotted, List.intercalate_cons_cons]
      simp

theorem length_dots (hne : ls ≠ []) : (dots sep ls).length = (dotted sep ls).length + 1 := by
  rw [dots_eq hne]; simp

/-- The wire form is two bytes longer than the text. -/
theorem length_encode (hne : ls ≠ []) : (encode ls).length = (dotted sep ls).length + 2 := by
  rw [encode, List.length_append, length_prefixed sep, length_dots hne]; rfl

theorem dotted_cons (hne : ls ≠ []) : dotted sep (l :: ls) = l ++ sep :: dotted sep ls := by
  obtain ⟨l', ls, rfl⟩ := List.exists_cons_of_ne_nil hne
  rw [dotted, List.intercalate_cons_cons]
  simp [dotted]

theorem dotted_append {ls' : List (List UInt8)} (hne : ls ≠ []) (hne' : ls' ≠ []) :
    dotted sep (ls ++ ls') = dotted sep ls ++ sep :: dotted sep ls' := by
  induction ls with
  | nil => exact absurd rfl hne
  | cons l ls ih =>
    by_cases hls : ls = []
    · subst hls
      exact (dotted_cons hne').trans (by simp [dotted])
    · rw [List.cons_append, dotted_cons (by simp [hls]), ih hls, dotted_cons hls]
      simp

/-- A separator in the text stands between two labels. -/
theorem dotted_split {x b : List UInt8} (hsep : ∀ l ∈ ls, sep ∉ l) (h : dotted sep ls = x ++ sep :: b) :
    ∃ l₁ l₂, ls = l₁ ++ l₂ ∧ l₁ ≠ [] ∧ l₂ ≠ [] ∧ dotted sep l₁ = x ∧ dotted sep l₂ = b := by
  induction ls generalizing x with
  | nil => exact absurd h (by simp [dotted])
  | cons l ls ih =>
    have hl := hsep l List.mem_cons_self
    by_cases hne : ls = []
    · subst hne
      have hm : sep ∈ dotted sep [l] := by rw [h]; simp
      exact absurd (by simpa [dotted] using hm) hl
    rw [dotted_cons hne] at h
    rcases List.append_eq_append_iff.1 h with ⟨a, rfl, ha⟩ | ⟨a, rfl, ha⟩
    · cases a with
      | nil => exact ⟨[l], ls, rfl, by simp, hne, by simp [dotted], (List.cons.inj ha).2⟩
      | cons c a =>
        obtain ⟨rfl, htail⟩ := List.cons.inj ha
        obtain ⟨l₁, l₂, rfl, h₁, h₂, rfl, rfl⟩ := ih (fun l hl => hsep l (List.mem_cons_of_mem _ hl)) htail
        exact ⟨l :: l₁, l₂, rfl, by simp, h₂, dotted_cons h₁, rfl⟩
    · cases a with
      | nil => exact ⟨[x], ls, by simp, by simp, hne, by simp [dotted], (List.cons.inj ha).2.symm⟩
      | cons c a =>
        obtain ⟨rfl, -⟩ := List.cons.inj ha
        exact absurd (by simp) hl

/-- The text determines the labels. -/
theorem dotted_inj {ls' : List (List UInt8)} (hne : ls ≠ []) (hne' : ls' ≠ []) (hsep : ∀ l ∈ ls, sep ∉ l)
    (hsep' : ∀ l ∈ ls', sep ∉ l) (h : dotted sep ls = dotted sep ls') : ls = ls' := by
  rw [← List.splitOn_intercalate sep hsep hne, ← List.splitOn_intercalate sep hsep' hne']
  exact congrArg _ h

theorem two_mul_length_le (sep : UInt8) (h : ∀ l ∈ ls, 0 < l.length) : 2 * ls.length ≤ (dots sep ls).length := by
  induction ls with
  | nil => simp
  | cons l ls ih =>
    have := h l List.mem_cons_self
    have := ih fun l hl => h l (List.mem_cons_of_mem _ hl)
    rw [dots_cons]
    simp only [List.length_cons, List.length_append]
    omega

theorem zero_notMem_prefixed (hs : Sized ls) (h : ∀ l ∈ ls, 0 ∉ l) : 0 ∉ prefixed ls := by
  intro hm
  obtain ⟨l, hl, hm⟩ := List.mem_flatMap.1 hm
  rcases List.mem_cons.1 hm with h0 | hm
  · exact (hs.length_byte hl).2 h0.symm
  · exact h l hl hm

theorem zero_notMem_dotted (hsep : sep ≠ 0) (h : ∀ l ∈ ls, 0 ∉ l) : 0 ∉ dotted sep ls := by
  intro hm
  have hne : ls ≠ [] := by
    rintro rfl
    cases hm
  have hm : 0 ∈ dots sep ls := by rw [dots_eq hne]; exact List.mem_append_left _ hm
  obtain ⟨l, hl, hm⟩ := List.mem_flatMap.1 hm
  rcases List.mem_append.1 hm with hm | hm
  · exact h l hl hm
  · exact hsep (List.mem_singleton.1 hm).symm

theorem Valid.sized (h : Valid sep ls) : Sized ls := fun l hl => ⟨h.pos l hl, h.le l hl⟩

end Labels
