import Mathlib.Data.List.Basic

/-!
# Sequences as memory

`At m p xs`: the sequence `xs` stands in `m` from index `p` on. `patch m p xs` overwrites `m` there.
Both are read position by position, so a claim about a long buffer splits at every `++` and
survives every write elsewhere.
-/

namespace ByteSeq

variable {α : Type*} {m m' xs ys : List α} {p q i : Nat} {x : α}

/-- `xs` stands in `m` from index `p` on. -/
def At (m : List α) (p : Nat) (xs : List α) : Prop := ∀ i, i < xs.length → m[p + i]? = xs[i]?

/-- Overwrite `m` from index `p` on with `xs`; what would fall behind the end of `m` is dropped. -/
def patch (m : List α) : Nat → List α → List α
  | _, [] => m
  | p, x :: xs => patch (m.set p x) (p + 1) xs

/-- The sequence in front of a member, the member, and what is behind it. -/
theorem take_append_getElem? (h : xs[i]? = some x) :
    xs = xs.take i ++ x :: xs.drop (i + 1) ∧ (xs.take i).length = i := by
  obtain ⟨hlt, rfl⟩ := List.getElem?_eq_some_iff.1 h
  exact ⟨by rw [← List.drop_eq_getElem_cons hlt, List.take_append_drop], List.length_take_of_le (Nat.le_of_lt hlt)⟩

/-! ### Reading -/

namespace At

@[simp] theorem nil : At m p [] := fun _ h => absurd h (Nat.not_lt_zero _)

theorem cons_iff : At m p (x :: xs) ↔ m[p]? = some x ∧ At m (p + 1) xs := by
  constructor
  · intro h
    refine ⟨by simpa using h 0 (by simp), fun i hi => ?_⟩
    have := h (i + 1) (by simpa using hi)
    simpa [Nat.add_assoc, Nat.add_comm 1 i] using this
  · rintro ⟨h0, hs⟩ i hi
    cases i with
    | zero => simpa using h0
    | succ i =>
      have := hs i (by simpa using hi)
      simpa [Nat.add_assoc, Nat.add_comm 1 i] using this

theorem append_iff : At m p (xs ++ ys) ↔ At m p xs ∧ At m (p + xs.length) ys := by
  induction xs generalizing p with
  | nil => simp
  | cons x xs ih =>
    rw [List.cons_append, cons_iff, cons_iff, ih, and_assoc, List.length_cons,
      Nat.add_assoc, Nat.add_comm 1]

theorem left (h : At m p (xs ++ ys)) : At m p xs := (append_iff.1 h).1

theorem right (h : At m p (xs ++ ys)) : At m (p + xs.length) ys := (append_iff.1 h).2

theorem append (h : At m p xs) (h' : At m (p + xs.length) ys) : At m p (xs ++ ys) :=
  append_iff.2 ⟨h, h'⟩

theorem refl (m : List α) : At m 0 m := fun i _ => by rw [Nat.zero_add]

theorem slice (m : List α) (p n : Nat) : At m p ((m.drop p).take n) := by
  intro i hi
  rw [List.length_take] at hi
  rw [List.getElem?_take_of_lt (by omega), List.getElem?_drop]

theorem middle (l xs r : List α) : At (l ++ xs ++ r) l.length xs := by
  intro i hi
  rw [List.append_assoc, List.getElem?_append_right (Nat.le_add_right _ _), Nat.add_sub_cancel_left,
    List.getElem?_append_left hi]

/-- A sequence that stands in a part of `m` stands in `m`. -/
theorem trans (h : At m p xs) (h' : At xs q ys) (hq : q + ys.length ≤ xs.length) :
    At m (p + q) ys := by
  intro i hi
  rw [Nat.add_assoc, h (q + i) (by omega), h' i hi]

theorem le_length (h : At m p xs) (hne : xs ≠ []) : p + xs.length ≤ m.length := by
  obtain ⟨n, hn⟩ := Nat.exists_eq_add_one.2 (List.length_pos_iff.2 hne)
  have hlt : p + n < m.length := by
    by_contra hge
    have := h n (by omega)
    rw [List.getElem?_eq_none (by omega), List.getElem?_eq_getElem (by omega)] at this
    cases this
  omega

theorem take_drop (h : At m p xs) : (m.drop p).take xs.length = xs := by
  apply List.ext_getElem?
  intro i
  by_cases hi : i < xs.length
  · rw [List.getElem?_take_of_lt hi, List.getElem?_drop, h i hi]
  · rw [List.getElem?_eq_none (by simp; omega), List.getElem?_eq_none (by omega)]

/-- Reading what stands at `p` from the suffix of `m` that starts there. -/
theorem drop (h : At m p xs) (q : Nat) (hq : q ≤ p) : At (m.drop q) (p - q) xs := by
  intro i hi
  rw [List.getElem?_drop, ← Nat.add_assoc, Nat.add_sub_cancel' hq]
  exact h i hi

theorem congr (h : At m p xs) (hm : ∀ i, p ≤ i → i < p + xs.length → m'[i]? = m[i]?) :
    At m' p xs := fun i hi => by
  rw [hm _ (Nat.le_add_right _ _) (by omega)]
  exact h i hi

theorem take {n : Nat} (h : At m p xs) (hn : p + xs.length ≤ n) : At (m.take n) p xs :=
  h.congr fun _ _ hi => List.getElem?_take_of_lt (Nat.lt_of_lt_of_le hi hn)

theorem append_right (h : At m p xs) (r : List α) : At (m ++ r) p xs := by
  intro i hi
  have hm := h i hi
  rw [List.getElem?_eq_getElem hi, List.getElem?_eq_some_iff] at hm
  rw [List.getElem?_append_left hm.1, ← h i hi]

/-- Two sequences of one length that stand at one place are equal. -/
theorem unique (h : At m p xs) (h' : At m p ys) (hlen : xs.length = ys.length) : xs = ys := by
  rw [← h.take_drop, ← h'.take_drop, hlen]

end At

/-! ### Writing -/

@[simp] theorem length_patch (m : List α) (p : Nat) (xs : List α) :
    (patch m p xs).length = m.length := by
  induction xs generalizing m p with
  | nil => rfl
  | cons x xs ih => rw [patch, ih, List.length_set]

theorem patch_append (m : List α) (p : Nat) (xs ys : List α) :
    patch m p (xs ++ ys) = patch (patch m p xs) (p + xs.length) ys := by
  induction xs generalizing m p with
  | nil => rfl
  | cons x xs ih =>
    rw [List.cons_append, patch, patch, ih, List.length_cons, Nat.add_assoc, Nat.add_comm 1]

theorem getElem?_patch_of_lt (h : i < p) : (patch m p xs)[i]? = m[i]? := by
  induction xs generalizing m p with
  | nil => rfl
  | cons x xs ih => rw [patch, ih (by omega), List.getElem?_set_ne (by omega)]

theorem getElem?_patch_of_ge (h : p + xs.length ≤ i) : (patch m p xs)[i]? = m[i]? := by
  induction xs generalizing m p with
  | nil => rfl
  | cons x xs ih =>
    rw [List.length_cons] at h
    rw [patch, ih (by omega), List.getElem?_set_ne (by omega)]

theorem at_patch (m : List α) (p : Nat) (xs : List α) (h : p + xs.length ≤ m.length) :
    At (patch m p xs) p xs := by
  induction xs generalizing m p with
  | nil => exact .nil
  | cons x xs ih =>
    rw [List.length_cons] at h
    refine At.cons_iff.2 ⟨?_, ih _ _ (by simpa using by omega)⟩
    rw [patch, getElem?_patch_of_lt (by omega), List.getElem?_set_self (by omega)]

theorem At.patch (h : At m q ys) (hd : q + ys.length ≤ p ∨ p + xs.length ≤ q) :
    At (patch m p xs) q ys := by
  refine h.congr fun i h1 h2 => ?_
  rcases hd with hd | hd
  · exact getElem?_patch_of_lt (by omega)
  · exact getElem?_patch_of_ge (by omega)

theorem patch_set (m : List α) {p q : Nat} (x : α) (ys : List α) (h : p < q) :
    patch (m.set p x) q ys = (patch m q ys).set p x := by
  induction ys generalizing m q with
  | nil => rfl
  | cons y ys ih => rw [patch, patch, List.set_comm _ _ (Nat.ne_of_lt h), ih _ (Nat.lt_succ_of_lt h)]

theorem At.set {y : α} (h : At m p xs) (hq : q < xs.length) : At (m.set (p + q) y) p (xs.set q y) := by
  intro i hi
  rw [List.length_set] at hi
  have hm : p + q < m.length := by
    by_contra hge
    have := h q hq
    rw [List.getElem?_eq_none (by omega), List.getElem?_eq_getElem hq] at this
    cases this
  by_cases he : q = i
  · subst he
    rw [List.getElem?_set_self hm, List.getElem?_set_self hq]
  · rw [List.getElem?_set_ne (by omega), List.getElem?_set_ne he]
    exact h i hi

/-- Overwriting a part of a sequence where it stands. -/
theorem At.patch_inside (h : At m p xs) (hq : q + ys.length ≤ xs.length) :
    At (ByteSeq.patch m (p + q) ys) p (ByteSeq.patch xs q ys) := by
  induction ys generalizing m xs q with
  | nil => exact h
  | cons y ys ih =>
    rw [List.length_cons] at hq
    exact ih (h.set (by omega)) (by rw [List.length_set]; omega)

/-- Writes to separate places commute. -/
theorem patch_comm (m : List α) {p q : Nat} (xs ys : List α) (hd : p + xs.length ≤ q) :
    patch (patch m p xs) q ys = patch (patch m q ys) p xs := by
  induction xs generalizing m p with
  | nil => rfl
  | cons x xs ih =>
    rw [List.length_cons] at hd
    rw [patch, patch, ih _ (by omega), patch_set _ _ _ (by omega)]

/-- Writing `ys` over the end of what was just written. -/
theorem patch_overwrite (m : List α) (p : Nat) (xs ys zs : List α) (hlen : ys.length = zs.length)
    (h : p + (xs ++ ys).length ≤ m.length) :
    patch (patch m p (xs ++ ys)) (p + xs.length) zs = patch m p (xs ++ zs) := by
  rw [List.length_append] at h
  apply List.ext_getElem?
  intro i
  rcases Nat.lt_or_ge i (p + xs.length) with h1 | h1
  · rw [getElem?_patch_of_lt h1]
    rcases Nat.lt_or_ge i p with h2 | h2
    · rw [getElem?_patch_of_lt h2, getElem?_patch_of_lt h2]
    · have e1 := (at_patch m p (xs ++ ys) (by simp; omega)).left (i - p) (by omega)
      have e2 := (at_patch m p (xs ++ zs) (by simp; omega)).left (i - p) (by omega)
      rw [Nat.add_sub_cancel' h2] at e1 e2
      rw [e1, e2]
  · rcases Nat.lt_or_ge i (p + xs.length + zs.length) with h2 | h2
    · have e1 := at_patch (ByteSeq.patch m p (xs ++ ys)) (p + xs.length) zs (by simp; omega)
        (i - (p + xs.length)) (by omega)
      have e2 := (at_patch m p (xs ++ zs) (by simp; omega)).right (i - (p + xs.length)) (by omega)
      rw [Nat.add_sub_cancel' h1] at e1 e2
      rw [e1, e2]
    · rw [getElem?_patch_of_ge h2, getElem?_patch_of_ge (by simp; omega),
        getElem?_patch_of_ge (by simp; omega)]

end ByteSeq
