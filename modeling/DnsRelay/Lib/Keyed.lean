import Mathlib.Data.List.Nodup
import Mathlib.Data.List.Perm.Basic

/-!
# Threads that work on one key at a time

A part of the shared memory belongs to each key. `Quiet` says what is seen there when no thread is inside the key,
`At` what is seen in the middle of a thread's work, both in terms of what the key stands for. As long as no two
threads are inside one key, a thread that changes its own key only leaves what the others rely on.
-/

namespace Keyed

structure Work (π κ ν β : Type) where
  inside : π → Option κ
  Quiet : ν → β → Prop
  At : π → ν → β → Prop

variable {π κ ν β : Type} (W : Work π κ ν β)

structure Coherent (view : κ → ν) (abs : κ → β) (threads : List π) : Prop where
  quiet : ∀ c, (∀ t ∈ threads, W.inside t ≠ some c) → W.Quiet (view c) (abs c)
  busy : ∀ t ∈ threads, ∀ c, W.inside t = some c → W.At t (view c) (abs c)
  alone : (threads.filterMap W.inside).Nodup

namespace Coherent
variable {W} {view view' : κ → ν} {abs abs' : κ → β} {threads rest : List π} {t t' : π} {c : κ}

theorem perm (h : Coherent W view abs threads) (hp : threads.Perm rest) : Coherent W view abs rest where
  quiet c hc := h.quiet c fun t ht => hc t (hp.mem_iff.1 ht)
  busy t ht := h.busy t (hp.mem_iff.2 ht)
  alone := (hp.filterMap W.inside).nodup_iff.1 h.alone

/-- A thread inside a key is alone there. -/
theorem others (h : Coherent W view abs (t :: rest)) (ht : W.inside t = some c) : ∀ x ∈ rest, W.inside x ≠ some c := by
  intro x hx hc
  have hn := h.alone
  rw [List.filterMap_cons_some ht] at hn
  exact (List.nodup_cons.1 hn).1 (List.mem_filterMap.2 ⟨x, hx, hc⟩)

theorem alone_tail (h : Coherent W view abs (t :: rest)) : (rest.filterMap W.inside).Nodup := by
  have hn := h.alone
  rw [List.filterMap_cons] at hn
  split at hn
  · exact hn
  · exact (List.nodup_cons.1 hn).2

/-- A thread that is, or comes, inside a key where no other one is does a step of its work. -/
theorem step (h : Coherent W view abs (t :: rest)) (hin : ∀ c', W.inside t = some c' → c' = c)
    (hrest : ∀ x ∈ rest, W.inside x ≠ some c) (hview : ∀ c' ≠ c, view' c' = view c') (habs : ∀ c' ≠ c, abs' c' = abs c')
    (ht' : W.inside t' = some c) (hat : W.At t' (view' c) (abs' c)) : Coherent W view' abs' (t' :: rest) where
  quiet c' hc' := by
    have hne : c' ≠ c := fun he => hc' t' List.mem_cons_self (he ▸ ht')
    rw [hview c' hne, habs c' hne]
    refine h.quiet c' fun x hx => ?_
    rcases List.mem_cons.1 hx with rfl | hx
    · exact fun he => hne (hin c' he)
    · exact hc' x (List.mem_cons_of_mem _ hx)
  busy x hx c' hc' := by
    rcases List.mem_cons.1 hx with rfl | hx
    · rw [ht'] at hc'
      cases hc'
      exact hat
    · have hne : c' ≠ c := fun he => hrest x hx (he ▸ hc')
      rw [hview c' hne, habs c' hne]
      exact h.busy x (List.mem_cons_of_mem _ hx) c' hc'
  alone := by
    rw [List.filterMap_cons_some ht']
    refine List.nodup_cons.2 ⟨fun hm => ?_, h.alone_tail⟩
    obtain ⟨x, hx, hc⟩ := List.mem_filterMap.1 hm
    exact hrest x hx hc

/-- The last step of its work. -/
theorem finish (h : Coherent W view abs (t :: rest)) (hin : ∀ c', W.inside t = some c' → c' = c)
    (hrest : ∀ x ∈ rest, W.inside x ≠ some c) (hview : ∀ c' ≠ c, view' c' = view c') (habs : ∀ c' ≠ c, abs' c' = abs c')
    (hq : W.Quiet (view' c) (abs' c)) : Coherent W view' abs' rest where
  quiet c' hc' := by
    by_cases hne : c' = c
    · rw [hne]
      exact hq
    rw [hview c' hne, habs c' hne]
    refine h.quiet c' fun x hx => ?_
    rcases List.mem_cons.1 hx with rfl | hx
    · exact fun he => hne (hin c' he)
    · exact hc' x hx
  busy x hx c' hc' := by
    have hne : c' ≠ c := fun he => hrest x hx (he ▸ hc')
    rw [hview c' hne, habs c' hne]
    exact h.busy x (List.mem_cons_of_mem _ hx) c' hc'
  alone := h.alone_tail

/-- A thread that is inside no key. -/
theorem cons (h : Coherent W view abs rest) (ht : W.inside t = none) : Coherent W view abs (t :: rest) where
  quiet c hc := h.quiet c fun x hx => hc x (List.mem_cons_of_mem _ hx)
  busy x hx c hc := by
    rcases List.mem_cons.1 hx with rfl | hx
    · rw [ht] at hc
      cases hc
    · exact h.busy x hx c hc
  alone := by
    rw [List.filterMap_cons_none ht]
    exact h.alone

theorem tail (h : Coherent W view abs (t :: rest)) (ht : W.inside t = none) : Coherent W view abs rest where
  quiet c hc := h.quiet c fun x hx => by
    rcases List.mem_cons.1 hx with rfl | hx
    · rw [ht]
      exact (Option.some_ne_none c).symm
    · exact hc x hx
  busy x hx := h.busy x (List.mem_cons_of_mem _ hx)
  alone := h.alone_tail

end Coherent

end Keyed
