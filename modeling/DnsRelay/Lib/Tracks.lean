/-!
# Programs that track another

`Tracks f R x y`: where the program `x` has a result, `y` has one to which `R` relates it, and where `x` fails, `y`
fails in the same way, `f` translating the failure. The rules follow the way the two programs are put together: they
go in step (`bind`), or `y` does something of its own that goes through (`step`).
-/

universe u v w

variable {ε : Type u} {δ : Type u} {α α' : Type v} {β β' : Type v} {f : ε → δ} {R : α → β → Prop} {S : α' → β' → Prop}

def Tracks (f : ε → δ) (R : α → β → Prop) (x : Except ε α) (y : Except δ β) : Prop :=
  match x with
  | .ok a => ∃ b, y = .ok b ∧ R a b
  | .error e => y = .error (f e)

namespace Tracks
variable {x : Except ε α} {y : Except δ β} {a : α} {b : β}

theorem ok (h : R a b) : Tracks f R (.ok a) (.ok b) := ⟨b, rfl, h⟩

theorem error (e : ε) : Tracks f R (.error e) (.error (f e)) := rfl

/-- A step that the two have in common. -/
theorem mapError (x : Except ε α) : Tracks f Eq x (x.mapError f) := by
  unfold Tracks
  rcases x with e | a
  · rfl
  · exact ⟨a, rfl, rfl⟩

theorem mono {R' : α → β → Prop} (h : Tracks f R x y) (himp : ∀ a b, R a b → R' a b) : Tracks f R' x y := by
  unfold Tracks at h ⊢
  rcases x with e | a
  · exact h
  · obtain ⟨b, hy, hr⟩ := h
    exact ⟨b, hy, himp a b hr⟩

theorem bind {k : α → Except ε α'} {l : β → Except δ β'} (h : Tracks f R x y)
    (hk : ∀ a b, R a b → Tracks f S (k a) (l b)) : Tracks f S (x >>= k) (y >>= l) := by
  unfold Tracks at h
  rcases x with e | a
  · rw [h]
    exact error e
  · obtain ⟨b, rfl, hr⟩ := h
    exact hk a b hr

/-- A step of both that is the same; what follows may depend on its result. -/
theorem bind_same_eq {k : α → Except ε α'} {l : α → Except δ β'} (x : Except ε α)
    (hk : ∀ a, x = .ok a → Tracks f S (k a) (l a)) : Tracks f S (x >>= k) (x.mapError f >>= l) := by
  rcases x with e | a
  · exact error e
  · exact hk a rfl

theorem bind_same {k : α → Except ε α'} {l : α → Except δ β'} (x : Except ε α)
    (hk : ∀ a, Tracks f S (k a) (l a)) : Tracks f S (x >>= k) (x.mapError f >>= l) :=
  bind_same_eq x fun a _ => hk a

/-- A step of `x` alone. -/
theorem bind_left {k : α → Except ε α'} {S : α' → β → Prop} (h : Tracks f R x y)
    (hk : ∀ a b, R a b → ∃ a', k a = .ok a' ∧ S a' b) : Tracks f S (x >>= k) y := by
  unfold Tracks at h
  rcases x with e | a
  · rw [h]
    exact error e
  · obtain ⟨b, rfl, hr⟩ := h
    obtain ⟨a', hk, hs⟩ := hk a b hr
    change Tracks f S (k a) _
    rw [hk]
    exact ok hs

/-- A step of `y` alone. -/
theorem step {l : β → Except δ β'} {x : Except ε α'} (hy : y = .ok b) (h : Tracks f S x (l b)) :
    Tracks f S x (y >>= l) := by
  rw [hy]
  exact h

theorem ite {p : Prop} [Decidable p] {x' : Except ε α} {y' : Except δ β} (ht : p → Tracks f R x y)
    (hf : ¬ p → Tracks f R x' y') : Tracks f R (if p then x else x') (if p then y else y') := by
  by_cases hp : p
  · rw [if_pos hp, if_pos hp]
    exact ht hp
  · rw [if_neg hp, if_neg hp]
    exact hf hp

theorem of_ok (h : Tracks f R x y) (hx : x = .ok a) : ∃ b, y = .ok b ∧ R a b := by
  rw [hx] at h
  exact h

theorem ok_of (h : Tracks f R x y) (hy : y = .ok b) : ∃ a, x = .ok a ∧ R a b := by
  unfold Tracks at h
  rcases x with e | a
  · rw [hy] at h
    cases h
  · obtain ⟨b', hb, hr⟩ := h
    rw [hy] at hb
    cases hb
    exact ⟨a, rfl, hr⟩

/-- Whether a run of steps that track each other goes wrong, and where it ends. -/
theorem foldlM {ι : Type w} {k : α → ι → Except ε α} {l : β → ι → Except δ β}
    (hstep : ∀ a b i, R a b → Tracks f R (k a i) (l b i)) (is : List ι) (hr : R a b) :
    Tracks f R (is.foldlM k a) (is.foldlM l b) := by
  induction is generalizing a b with
  | nil => exact ok hr
  | cons i is ih =>
    rw [List.foldlM_cons, List.foldlM_cons]
    exact (hstep a b i hr).bind fun a b hr => ih hr

end Tracks
