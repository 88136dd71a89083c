import Mathlib.Data.List.Nodup
import Mathlib.Data.List.Dedup
import Mathlib.Order.Defs.PartialOrder

/-!
# Recency lists

A least-recently-used store of capacity `N`, seen from outside, is a list with the most recently
used item first. `insert` puts a new item in front and drops the last one when the list is full,
`touch` brings the items that match to the front, one after the other, so that they come out in
reverse, and `keep` drops what fails a test. Tests may depend on the position at which an item is
looked at: `hits` and `keep` count positions from `k`.
-/

namespace Recency

variable {α β : Type*}

def insert (N : Nat) (e : α) (L : List α) : List α :=
  if L.length < N then e :: L else e :: L.dropLast

/-- The items that pass `p`, the item at distance `i` from the front being tested by `p (k + i)`. -/
def keep (p : Nat → α → Bool) : Nat → List α → List α
  | _, [] => []
  | k, a :: L => if p k a then a :: keep p (k + 1) L else keep p (k + 1) L

/-- Bring the items `xs`, one after the other, to the front. -/
def touch [DecidableEq α] (xs L : List α) : List α := xs.foldl (fun L x => x :: L.erase x) L

theorem keep_sublist (p : Nat → α → Bool) (k : Nat) (L : List α) : (keep p k L).Sublist L := by
  induction L generalizing k with
  | nil => exact .slnil
  | cons a L ih =>
    rw [keep]; split
    · exact (ih _).cons_cons a
    · exact (ih _).cons a

theorem keep_eq_filter {p : Nat → α → Bool} {q : α → Bool} (h : ∀ k a, p k a = q a) (k : Nat)
    (L : List α) : keep p k L = L.filter q := by
  induction L generalizing k with
  | nil => rfl
  | cons a L ih => rw [keep, ih, List.filter_cons, h]

theorem keep_map (f : α → β) (p : Nat → β → Bool) (k : Nat) (L : List α) :
    keep p k (L.map f) = (keep (fun k a => p k (f a)) k L).map f := by
  induction L generalizing k with
  | nil => rfl
  | cons a L ih =>
    rw [List.map_cons, keep, keep, ih]
    split <;> rfl

theorem keep_congr {p q : Nat → α → Bool} {k : Nat} {L : List α} (h : ∀ k, ∀ a ∈ L, p k a = q k a) :
    keep p k L = keep q k L := by
  induction L generalizing k with
  | nil => rfl
  | cons a L ih =>
    rw [keep, keep, h k a List.mem_cons_self, ih fun k b hb => h k b (List.mem_cons_of_mem _ hb)]

/-- Nothing is lost between what passes a test and what fails it. -/
theorem keep_perm (p : Nat → α → Bool) (k : Nat) (L : List α) :
    (keep p k L ++ keep (fun k a => !p k a) k L).Perm L := by
  induction L generalizing k with
  | nil => exact .refl []
  | cons a L ih =>
    rw [keep, keep]
    cases p k a with
    | true => exact (ih (k + 1)).cons a
    | false => exact List.perm_middle.trans ((ih (k + 1)).cons a)

/-- An item that is kept passed the test. -/
theorem exists_of_mem_keep {p : Nat → α → Bool} {k : Nat} {L : List α} {a : α} (h : a ∈ keep p k L) :
    ∃ k, p k a = true := by
  induction L generalizing k with
  | nil => cases h
  | cons b L ih =>
    rw [keep] at h
    split at h
    case isTrue hp =>
      rcases List.mem_cons.1 h with rfl | h
      · exact ⟨k, hp⟩
      · exact ih h
    case isFalse => exact ih h

/-- It did at a position of the list. -/
theorem exists_lt_of_mem_keep {p : Nat → α → Bool} {k : Nat} {L : List α} {a : α} (h : a ∈ keep p k L) :
    ∃ j < k + L.length, p j a = true := by
  induction L generalizing k with
  | nil => cases h
  | cons b L ih =>
    rw [List.length_cons]
    rw [keep] at h
    have hrest : a ∈ keep p (k + 1) L → ∃ j < k + (L.length + 1), p j a = true := by
      intro hm
      obtain ⟨j, hj, hp⟩ := ih hm
      exact ⟨j, by omega, hp⟩
    split at h
    case isTrue hp =>
      rcases List.mem_cons.1 h with rfl | h
      · exact ⟨k, by omega, hp⟩
      · exact hrest h
    case isFalse => exact hrest h

/-- Nothing is kept if every item fails the test at its position. -/
theorem keep_eq_nil {p : Nat → α → Bool} {k : Nat} {L : List α} :
    keep p k L = [] ↔ ∀ i a, L[i]? = some a → p (k + i) a = false := by
  induction L generalizing k with
  | nil => exact ⟨nofun, fun _ => rfl⟩
  | cons b L ih =>
    have htail : (∀ i a, L[i]? = some a → p (k + 1 + i) a = false) ↔
        ∀ i a, (b :: L)[i + 1]? = some a → p (k + (i + 1)) a = false := by
      simp only [List.getElem?_cons_succ, Nat.add_right_comm k 1, Nat.add_assoc]
    rw [keep]
    constructor
    · intro h i a hi
      cases hb : p k b with
      | true => rw [hb] at h; cases h
      | false =>
        rw [hb] at h
        cases i with
        | zero => cases hi; exact hb
        | succ i => exact htail.1 (ih.1 h) i a hi
    · intro h
      have hb : p k b = false := h 0 b rfl
      rw [hb]
      exact ih.2 (htail.2 fun i a => h (i + 1) a)

/-- An item that is not kept failed the test. -/
theorem exists_of_notMem_keep {p : Nat → α → Bool} {k : Nat} {L : List α} {a : α} (h : a ∈ L)
    (hn : a ∉ keep p k L) : ∃ k, p k a = false := by
  induction L generalizing k with
  | nil => cases h
  | cons b L ih =>
    rw [keep] at hn
    rcases List.mem_cons.1 h with rfl | h
    · refine ⟨k, Bool.eq_false_iff.2 fun hp => hn ?_⟩
      rw [if_pos hp]
      exact List.mem_cons_self
    · refine ih (k := k + 1) h fun hm => hn ?_
      split
      · exact List.mem_cons_of_mem _ hm
      · exact hm

/-- In a list without repetitions, what is not kept is what the opposite test keeps. -/
theorem filter_notMem_keep [DecidableEq α] (p : Nat → α → Bool) (k : Nat) {L : List α} (hL : L.Nodup) :
    L.filter (fun a => a ∉ keep p k L) = keep (fun k a => !p k a) k L := by
  induction L generalizing k with
  | nil => rfl
  | cons a L ih =>
    obtain ⟨ha, hL⟩ := List.nodup_cons.1 hL
    have hak : a ∉ keep p (k + 1) L := fun hm => ha ((keep_sublist p (k + 1) L).subset hm)
    rw [keep, keep, ← ih (k + 1) hL]
    have hcongr : ∀ b ∈ L, decide (b ∉ a :: keep p (k + 1) L) = decide (b ∉ keep p (k + 1) L) := by
      intro b hb
      have hba : b ≠ a := fun he => ha (he ▸ hb)
      simp [hba]
    cases hp : p k a with
    | true => simpa using List.filter_congr hcongr
    | false => simp [hak]

theorem mem_insert {N : Nat} {e x : α} {L : List α} (h : x ∈ insert N e L) : x = e ∨ x ∈ L := by
  unfold insert at h; split at h
  · exact List.mem_cons.1 h
  · exact (List.mem_cons.1 h).imp (fun h => h) fun h => List.dropLast_subset _ h

/-- Insert items one after the other. -/
def insertAll (N : Nat) (xs L : List α) : List α := xs.foldl (fun L x => insert N x L) L

@[simp] theorem insertAll_nil (N : Nat) (L : List α) : insertAll N [] L = L := rfl
@[simp] theorem insertAll_cons (N : Nat) (x : α) (xs L : List α) :
    insertAll N (x :: xs) L = insertAll N xs (insert N x L) := rfl

theorem mem_insertAll {N : Nat} {xs L : List α} {x : α} (h : x ∈ insertAll N xs L) : x ∈ xs ∨ x ∈ L := by
  induction xs generalizing L with
  | nil => exact .inr h
  | cons y xs ih =>
    rcases ih h with h | h
    · exact .inl (List.mem_cons_of_mem _ h)
    · rcases mem_insert h with rfl | h
      · exact .inl List.mem_cons_self
      · exact .inr h

theorem insert_sublist (N : Nat) (e : α) (L : List α) : (insert N e L).Sublist (e :: L) := by
  unfold insert; split
  · exact .refl _
  · exact (List.dropLast_sublist L).cons_cons e

theorem insertAll_sublist (N : Nat) (xs L : List α) : (insertAll N xs L).Sublist (xs.reverse ++ L) := by
  induction xs generalizing L with
  | nil => exact .refl L
  | cons x xs ih =>
    rw [insertAll_cons, List.reverse_cons, List.append_assoc]
    exact (ih (insert N x L)).trans ((insert_sublist N x L).append_left _)

/-- Items for which there is room end up in front, the last one first. -/
theorem insertAll_eq {N : Nat} {xs : List α} (h : xs.length ≤ N) (L : List α) :
    ∃ L', L'.Sublist L ∧ insertAll N xs L = xs.reverse ++ L' := by
  suffices H : ∀ (ys M : List α), ys.length + xs.length ≤ N →
      ∃ L', L'.Sublist M ∧ insertAll N xs (ys ++ M) = xs.reverse ++ (ys ++ L') from
    H [] L (by simpa using h)
  clear h
  induction xs with
  | nil => exact fun ys M _ => ⟨M, .refl M, rfl⟩
  | cons x xs ih =>
    intro ys M h
    rw [List.length_cons] at h
    have hins : ∃ M', M'.Sublist M ∧ insert N x (ys ++ M) = x :: ys ++ M' := by
      unfold insert
      split
      case isTrue => exact ⟨M, .refl M, rfl⟩
      case isFalse hfull =>
        have hM : M ≠ [] := by
          rintro rfl
          rw [List.append_nil] at hfull
          omega
        exact ⟨M.dropLast, List.dropLast_sublist M, by rw [List.dropLast_append_of_ne_nil hM]; rfl⟩
    obtain ⟨M', hM', hins⟩ := hins
    obtain ⟨L', hL', hall⟩ := ih (x :: ys) M' (by rw [List.length_cons]; omega)
    refine ⟨L', hL'.trans hM', ?_⟩
    rw [insertAll_cons, hins, hall, List.reverse_cons]
    simp

/-- Touching items of the list brings them to the front in reverse and leaves the others in order. -/
theorem touch_eq [DecidableEq α] {xs L : List α} (hxs : xs.Nodup) (hL : L.Nodup) (hsub : xs ⊆ L) :
    touch xs L = xs.reverse ++ L.filter (fun a => a ∉ xs) := by
  suffices H : ∀ (ys zs M : List α), ys.Nodup → M.Nodup → ys ⊆ M → (∀ y ∈ ys, y ∉ zs) →
      touch ys (zs ++ M) = ys.reverse ++ (zs ++ M.filter (fun a => a ∉ ys)) by
    simpa using H xs [] L hxs hL hsub
  intro ys
  induction ys with
  | nil => intro zs M _ _ _ _; simp [touch]
  | cons y ys ih =>
    intro zs M hys hM hsub hzs
    obtain ⟨hy, hys⟩ := List.nodup_cons.1 hys
    have hyz : y ∉ zs := hzs y List.mem_cons_self
    have hstep : touch (y :: ys) (zs ++ M) = touch ys ((y :: zs) ++ M.erase y) := by
      show ys.foldl _ (y :: (zs ++ M).erase y) = _
      rw [List.erase_append_right _ hyz]; rfl
    rw [hstep, ih (y :: zs) (M.erase y) hys (hM.erase y)]
    · rw [hM.erase_eq_filter, List.filter_filter, List.reverse_cons, List.append_assoc]
      simp only [List.cons_append, List.nil_append, List.mem_cons, not_or]
      congr 3
      refine List.filter_congr fun a _ => ?_
      by_cases h : a = y <;> simp [h]
    · intro a ha
      exact (hM.mem_erase_iff).2 ⟨fun he => hy (he ▸ ha), hsub (List.mem_cons_of_mem _ ha)⟩
    · intro a ha
      simp only [List.mem_cons, not_or]
      exact ⟨fun he => hy (he ▸ ha), hzs a (List.mem_cons_of_mem _ ha)⟩

theorem touch_perm [DecidableEq α] {xs L : List α} (hsub : xs ⊆ L) : (touch xs L).Perm L := by
  induction xs generalizing L with
  | nil => exact .refl L
  | cons x xs ih =>
    have hx : x ∈ L := hsub List.mem_cons_self
    have hp : (x :: L.erase x).Perm L := (List.perm_cons_erase hx).symm
    exact (ih fun a ha => hp.mem_iff.2 (hsub (List.mem_cons_of_mem _ ha))).trans hp

/-! ### Stamps

Every item carries the time of its last use; the list is ranked if the newest comes first. -/

section
variable {S : Type*} [Preorder S] {stamp stamp' : α → S} {xs L L' : List α} {a : α}

/-- Newest first. -/
def Ranked (stamp : α → S) (L : List α) : Prop := L.Pairwise fun a b => stamp b < stamp a

theorem Ranked.sublist (h : Ranked stamp L) (hs : L'.Sublist L) : Ranked stamp L' := List.Pairwise.sublist hs h

theorem Ranked.congr (h : Ranked stamp L) (hs : ∀ a ∈ L, stamp' a = stamp a) : Ranked stamp' L := by
  refine List.Pairwise.imp_of_mem (fun {a b} ha hb hab => ?_) h
  rw [hs a ha, hs b hb]
  exact hab

/-- A newer item in front. -/
theorem Ranked.cons (h : Ranked stamp L) (hs : ∀ b ∈ L, stamp' b = stamp b) (ha : ∀ b ∈ L, stamp b < stamp' a) :
    Ranked stamp' (a :: L) :=
  List.pairwise_cons.2 ⟨fun b hb => by rw [hs b hb]; exact ha b hb, h.congr hs⟩

/-- The last item is the oldest one. -/
theorem Ranked.last_lt (h : Ranked stamp (L ++ [a])) : ∀ b ∈ L, stamp a < stamp b :=
  fun b hb => (List.pairwise_append.1 h).2.2 b hb a (List.mem_singleton_self a)

/-- Items that are touched one after the other, each later than all that went before. -/
theorem Ranked.touch [DecidableEq α] (h : Ranked stamp L) (hL : L.Nodup) (hxs : xs.Nodup) (hsub : xs ⊆ L)
    (hs : ∀ b ∈ L, b ∉ xs → stamp' b = stamp b) (hnew : ∀ b ∈ L, ∀ x ∈ xs, stamp b < stamp' x)
    (hinc : xs.Pairwise fun x y => stamp' x < stamp' y) : Ranked stamp' (touch xs L) := by
  rw [touch_eq hxs hL hsub]
  have hrest : ∀ b ∈ L.filter (fun a => a ∉ xs), b ∈ L ∧ b ∉ xs := fun b hb => by simpa using List.mem_filter.1 hb
  refine List.pairwise_append.2 ⟨List.pairwise_reverse.2 hinc, ?_, fun x hx b hb => ?_⟩
  · exact (h.sublist List.filter_sublist).congr fun b hb => hs b (hrest b hb).1 (hrest b hb).2
  · obtain ⟨hb, hbx⟩ := hrest b hb
    rw [hs b hb hbx]
    exact hnew b hb x (List.mem_reverse.1 hx)

end

end Recency
