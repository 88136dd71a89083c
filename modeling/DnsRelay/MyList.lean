import DnsRelay.Lib.LinkedRing
import DnsRelay.Machine

/-!
# `utils/list.h`: the intrusive list

The inline functions of the header on the links of arbitrary nodes. Where the C code follows a
pointer that may be `NULL`, so does the model.
-/

namespace DnsRelay

/-- Follow a pointer. -/
def deref {α : Type} : Option α → Exec α
  | some p => .ok p
  | none => .error .null

section
variable {P : Type} [DecidableEq P]

/-- `_mylist_add` -/
def mylistAdd (L : Links P) (new prev next : P) : Links P where
  next := Function.update (Function.update L.next new (some next)) prev (some new)
  prev := Function.update (Function.update L.prev next (some new)) new (some prev)

def mylistAddHead (L : Links P) (new head : P) : Exec (Links P) := do
  let next ← deref (L.next head)
  return mylistAdd L new head next

/-- `_mylist_del`, with the two arguments read from the node -/
def mylistUnlink (L : Links P) (entry : P) : Exec (Links P) := do
  let next ← deref (L.next entry)
  let prev ← deref (L.prev entry)
  return ⟨Function.update L.next prev (some next), Function.update L.prev next (some prev)⟩

def mylistDel (L : Links P) (entry : P) : Exec (Links P) := do
  let L ← mylistUnlink L entry
  return ⟨Function.update L.next entry none, Function.update L.prev entry none⟩

def mylistMoveHead (L : Links P) (list head : P) : Exec (Links P) := do
  let L ← mylistUnlink L list
  mylistAddHead L list head

def mylistIsLast (L : Links P) (entry head : P) : Bool := L.next entry = some head

def mylistEmpty (L : Links P) (head : P) : Bool := L.next head = some head ∧ L.next head = L.prev head

def mylistRotateNodeHead (L : Links P) (node head : P) : Exec (Links P) :=
  if mylistEmpty L head then .ok L else mylistMoveHead L node head

/-! ### The operations on a ring -/

variable {L : Links P} {h y : P} {xs l₁ l₂ : List P}

theorem mylistAddHead_ring (hr : IsRing L h xs) (hy : y ∉ h :: xs) :
    ∃ L', mylistAddHead L y h = .ok L' ∧ IsRing L' h (y :: xs) ∧
      ∀ p ∉ h :: y :: xs, L'.next p = L.next p ∧ L'.prev p = L.prev p := by
  refine ⟨mylistAdd L y h (xs.headD h), ?_, hr.push hy, fun p hp => ?_⟩
  · simp [mylistAddHead, hr.next_head, deref, Pure.pure, Except.pure]
  · simp only [List.mem_cons, not_or] at hp
    have hpz : p ≠ xs.headD h := by
      rintro rfl
      rcases List.mem_append.1 (IsRing.headD_mem h xs) with hm | hm
      · exact hp.2.2 hm
      · exact hp.1 (List.mem_singleton.1 hm)
    exact ⟨by simp only [mylistAdd, Function.update_of_ne hp.1, Function.update_of_ne hp.2.1],
      by simp only [mylistAdd, Function.update_of_ne hp.2.1, Function.update_of_ne hpz]⟩

theorem mylistUnlink_ring (hr : IsRing L h (l₁ ++ y :: l₂)) :
    ∃ L', mylistUnlink L y = .ok L' ∧ IsRing L' h (l₁ ++ l₂) ∧
      ∀ p ∉ h :: (l₁ ++ l₂), L'.next p = L.next p ∧ L'.prev p = L.prev p := by
  refine ⟨L.join (l₁.getLastD h) (l₂.headD h), ?_, hr.unlink, fun p hp => ?_⟩
  · simp [mylistUnlink, hr.next_mid, hr.prev_mid, deref, Links.join, Pure.pure, Except.pure]
  · simp only [List.mem_cons, List.mem_append, not_or] at hp
    have hpx : p ≠ l₁.getLastD h := by
      rintro rfl
      rcases List.mem_cons.1 (IsRing.getLastD_mem h l₁) with hm | hm
      · exact hp.1 hm
      · exact hp.2.1 hm
    have hpz : p ≠ l₂.headD h := by
      rintro rfl
      rcases List.mem_append.1 (IsRing.headD_mem h l₂) with hm | hm
      · exact hp.2.2 hm
      · exact hp.1 (List.mem_singleton.1 hm)
    exact ⟨Links.join_next_of_ne hpx, Links.join_prev_of_ne hpz⟩

theorem mylistDel_ring (hr : IsRing L h (l₁ ++ y :: l₂)) :
    ∃ L', mylistDel L y = .ok L' ∧ IsRing L' h (l₁ ++ l₂) ∧ L'.next y = none ∧ L'.prev y = none ∧
      ∀ p ∉ h :: (l₁ ++ y :: l₂), L'.next p = L.next p ∧ L'.prev p = L.prev p := by
  obtain ⟨L₁, h₁, hr₁, hf₁⟩ := mylistUnlink_ring hr
  have hy : y ∉ h :: (l₁ ++ l₂) := by
    have := hr.nodup
    rw [← List.cons_append] at this ⊢
    exact (List.nodup_middle.1 this).notMem
  refine ⟨L₁.clear y, by rw [mylistDel, h₁]; rfl, ?_, Links.clear_next_self .., Links.clear_prev_self ..,
    fun p hp => ?_⟩
  · refine hr₁.congr (fun p hp => Links.clear_next_of_ne ?_) fun p hp => Links.clear_prev_of_ne ?_
    · rintro rfl; exact hy hp
    · rintro rfl; exact hy hp
  · simp only [List.mem_cons, List.mem_append, not_or] at hp
    have := hf₁ p (by simp only [List.mem_cons, List.mem_append, not_or]; exact ⟨hp.1, hp.2.1, hp.2.2.2⟩)
    exact ⟨(Links.clear_next_of_ne hp.2.2.1).trans this.1, (Links.clear_prev_of_ne hp.2.2.1).trans this.2⟩

theorem mylistMoveHead_ring (hr : IsRing L h (l₁ ++ y :: l₂)) :
    ∃ L', mylistMoveHead L y h = .ok L' ∧ IsRing L' h (y :: (l₁ ++ l₂)) ∧
      ∀ p ∉ h :: (l₁ ++ y :: l₂), L'.next p = L.next p ∧ L'.prev p = L.prev p := by
  obtain ⟨L₁, h₁, hr₁, hf₁⟩ := mylistUnlink_ring hr
  have hy : y ∉ h :: (l₁ ++ l₂) := by
    have := hr.nodup
    rw [← List.cons_append] at this ⊢
    exact (List.nodup_middle.1 this).notMem
  obtain ⟨L₂, h₂, hr₂, hf₂⟩ := mylistAddHead_ring hr₁ hy
  refine ⟨L₂, by rw [mylistMoveHead, h₁]; exact h₂, hr₂, fun p hp => ?_⟩
  simp only [List.mem_cons, List.mem_append, not_or] at hp
  have e₁ := hf₁ p (by simp only [List.mem_cons, List.mem_append, not_or]; exact ⟨hp.1, hp.2.1, hp.2.2.2⟩)
  have e₂ := hf₂ p (by
    simp only [List.mem_cons, List.mem_append, not_or]; exact ⟨hp.1, hp.2.2.1, hp.2.1, hp.2.2.2⟩)
  exact ⟨e₂.1.trans e₁.1, e₂.2.trans e₁.2⟩

theorem mylistEmpty_ring (hr : IsRing L h xs) : mylistEmpty L h = true ↔ xs = [] := by
  simp only [mylistEmpty, hr.next_head, hr.prev_head, decide_eq_true_eq, Option.some.injEq]
  constructor
  · rintro ⟨hh, -⟩
    cases xs with
    | nil => rfl
    | cons x xs =>
      have hx : x = h := hh
      exact absurd (List.mem_cons.2 (.inl hx.symm)) hr.head_notMem
  · rintro rfl; exact ⟨rfl, rfl⟩

/-- Rotating a node of the ring brings it to the front. -/
theorem mylistRotateNodeHead_ring (hr : IsRing L h (l₁ ++ y :: l₂)) :
    ∃ L', mylistRotateNodeHead L y h = .ok L' ∧ IsRing L' h (y :: (l₁ ++ l₂)) ∧
      ∀ p ∉ h :: (l₁ ++ y :: l₂), L'.next p = L.next p ∧ L'.prev p = L.prev p := by
  have hne : ¬ mylistEmpty L h = true := fun he =>
    absurd ((mylistEmpty_ring hr).1 he) (by simp)
  rw [mylistRotateNodeHead, if_neg hne]
  exact mylistMoveHead_ring hr

end

end DnsRelay
