import Mathlib.Data.Finset.Card
import Mathlib.Logic.Relation

/-!
# Loops that may run out of fuel

`Run n k r` says that a loop with `n` rounds to go, at the place `k`, has the result `r`; `none` is the
result of a loop that is still running when its rounds are used up. `R` leads from place to place and
`E k e` says that the loop ends at `k` with `e`. If nothing but the place decides where the loop goes
(`Deterministic`), and it comes to finitely many places at the start of its rounds, then as many rounds
tell how it ends: it comes to an end if it can, and otherwise it has come back to a place it has been at
and never ends.
-/

namespace Fuel
open Relation

variable {κ ε : Type*} {R : κ → κ → Prop} {E : κ → ε → Prop} {Run : Nat → κ → Option ε → Prop} {k m s : κ} {e : ε}
  {n : Nat} {r : Option ε}

/-- A place leads to one other at most, or is an end of one kind. -/
structure Deterministic (R : κ → κ → Prop) (E : κ → ε → Prop) : Prop where
  next_unique : Relator.RightUnique R
  end_stuck : ∀ {k k' e}, E k e → ¬ R k k'
  end_unique : ∀ {k e e'}, E k e → E k e' → e = e'

/-- A round takes the loop further, or to its end; without a round it may be at its end. -/
structure Rounds (R : κ → κ → Prop) (E : κ → ε → Prop) (Run : Nat → κ → Option ε → Prop) : Prop where
  zero : ∀ {k r}, Run 0 k r → r = none ∨ ∃ m e, ReflTransGen R k m ∧ E m e ∧ r = some e
  succ : ∀ {n k r}, Run (n + 1) k r →
    (∃ k', TransGen R k k' ∧ Run n k' r) ∨ ∃ m e, ReflTransGen R k m ∧ E m e ∧ r = some e

/-- A loop that is still running or came to an end. -/
theorem Rounds.result (hr : Rounds R E Run) (h : Run n k r) :
    r = none ∨ ∃ m e, ReflTransGen R k m ∧ E m e ∧ r = some e := by
  induction n generalizing k with
  | zero => exact hr.zero h
  | succ n ih =>
    rcases hr.succ h with ⟨k', hk, h⟩ | hend
    · exact (ih h).imp_right fun ⟨m, e, hm, hend⟩ => ⟨m, e, hk.to_reflTransGen.trans hm, hend⟩
    · exact .inr hend

/-- A loop that outlives the number of the places it comes to has been at one of them twice. -/
theorem Rounds.exists_cycle [DecidableEq κ] (hr : Rounds R E Run) (U : Finset κ) (hU : ∀ n k r, Run n k r → k ∈ U)
    (hn : U.card ≤ n) (h : Run n k none) : ∃ s, ReflTransGen R k s ∧ TransGen R s s := by
  -- `V` are the places the loop has left behind
  suffices H : ∀ (n : Nat) (V : Finset κ) (a : κ), ReflTransGen R k a → V ⊆ U →
      (∀ v ∈ V, ReflTransGen R k v ∧ TransGen R v a) → U.card ≤ n + V.card → Run n a none →
      ∃ s, ReflTransGen R k s ∧ TransGen R s s from
    H n ∅ k .refl (Finset.empty_subset U) (by simp) (by simpa using hn) h
  clear h hn
  intro n
  induction n with
  | zero =>
    intro V a ha hVU hV hcard h
    by_contra hno
    have haV : a ∉ V := fun hm => hno ⟨a, ha, (hV a hm).2⟩
    have hsub : insert a V ⊆ U := Finset.insert_subset (hU 0 a none h) hVU
    have := Finset.card_le_card hsub
    rw [Finset.card_insert_of_notMem haV] at this
    omega
  | succ n ih =>
    intro V a ha hVU hV hcard h
    by_cases haV : a ∈ V
    · exact ⟨a, ha, (hV a haV).2⟩
    rcases hr.succ h with ⟨b, hab, hb⟩ | ⟨_, _, _, _, hnone⟩
    · refine ih (insert a V) b (ha.trans hab.to_reflTransGen) (Finset.insert_subset (hU _ a none h) hVU)
        (fun v hv => ?_) ?_ hb
      · rcases Finset.mem_insert.1 hv with rfl | hv
        · exact ⟨ha, hab⟩
        · exact ⟨(hV v hv).1, (hV v hv).2.trans hab⟩
      · rw [Finset.card_insert_of_notMem haV]
        omega
    · cases hnone

/-- A way into a cycle has no end. -/
theorem Deterministic.not_cycle (hd : Deterministic R E) (hm : ReflTransGen R k m) (hend : E m e)
    (hs : ReflTransGen R k s) : ¬ TransGen R s s := fun hcycle => by
  suffices h : ∃ m', R m m' from h.elim fun m' => hd.end_stuck hend
  rcases ReflTransGen.total_of_right_unique hd.next_unique hs hm with hsm | hms
  · -- the cycle goes through every place between `s` and `m`
    clear hs hm
    induction hsm using ReflTransGen.head_induction_on with
    | refl => exact (TransGen.head'_iff.1 hcycle).imp fun _ h => h.1
    | @head a b hab hbm ih =>
      obtain ⟨b', hab', hback⟩ := TransGen.head'_iff.1 hcycle
      obtain rfl := hd.next_unique hab hab'
      exact ih (.tail' hback hab)
  · rcases ReflTransGen.cases_head hms with rfl | ⟨d, hmd, -⟩
    · exact (TransGen.head'_iff.1 hcycle).imp fun _ h => h.1
    · exact ⟨d, hmd⟩

/-- All ways from one place come to one end. -/
theorem Deterministic.unique_place (hd : Deterministic R E) {e' : ε} (hm : ReflTransGen R k m) (hend : E m e)
    (hs : ReflTransGen R k s) (hend' : E s e') : m = s := by
  rcases ReflTransGen.total_of_right_unique hd.next_unique hm hs with h | h
  · rcases ReflTransGen.cases_head h with he | ⟨d, hmd, -⟩
    · exact he
    · exact absurd hmd (hd.end_stuck hend)
  · rcases ReflTransGen.cases_head h with he | ⟨d, hsd, -⟩
    · exact he.symm
    · exact absurd hsd (hd.end_stuck hend')

theorem Deterministic.unique_end (hd : Deterministic R E) {e' : ε} (hm : ReflTransGen R k m) (hend : E m e)
    (hs : ReflTransGen R k s) (hend' : E s e') : e = e' := by
  obtain rfl := hd.unique_place hm hend hs hend'
  exact hd.end_unique hend hend'

/-- A loop that comes into a cycle is running whenever its rounds are used up. -/
theorem Deterministic.eq_none_of_cycle (hd : Deterministic R E) (hr : Rounds R E Run) (hs : ReflTransGen R k s)
    (hcycle : TransGen R s s) (h : Run n k r) : r = none :=
  (hr.result h).resolve_right fun ⟨_, _, hm, hend, _⟩ => hd.not_cycle hm hend hs hcycle

/-- With a round for every place a loop comes to its end, if it has one. -/
theorem Deterministic.eq_some_iff [DecidableEq κ] (hd : Deterministic R E) (hr : Rounds R E Run) (U : Finset κ)
    (hU : ∀ n k r, Run n k r → k ∈ U) (hn : U.card ≤ n) (h : Run n k r) :
    r = some e ↔ ∃ m, ReflTransGen R k m ∧ E m e := by
  rcases hr.result h with rfl | ⟨m, e', hm, hend, rfl⟩
  · refine ⟨nofun, fun ⟨m, hm, hend⟩ => ?_⟩
    obtain ⟨s, hs, hcycle⟩ := hr.exists_cycle U hU hn h
    exact absurd hcycle (hd.not_cycle hm hend hs)
  · refine ⟨fun he => ?_, fun ⟨m', hm', hend'⟩ => congrArg some (hd.unique_end hm hend hm' hend')⟩
    obtain rfl := Option.some.inj he
    exact ⟨m, hm, hend⟩

end Fuel
