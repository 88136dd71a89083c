import Mathlib.Data.List.Basic

/-!
# Readers

A reader takes an item from the front of a sequence and leaves the rest. If it takes the
encoding of an item off whatever follows, it takes a sequence of encoded items one by one.
-/

namespace Reader

variable {σ α β : Type*} {f : List σ → Option (α × List σ)} {enc : β → List σ} {val : β → α}

/-- `f` takes the encoding `e` of `x` off every sequence. -/
def Takes (f : List σ → Option (α × List σ)) (e : List σ) (x : α) : Prop := ∀ s, f (e ++ s) = some (x, s)

/-- `n` items. -/
def many (f : List σ → Option (α × List σ)) : Nat → List σ → Option (List α × List σ)
  | 0, s => some ([], s)
  | n + 1, s => do
    let (x, s) ← f s
    let (xs, s) ← many f n s
    return (x :: xs, s)

theorem takes_many {ws : List β} (h : ∀ w ∈ ws, Takes f (enc w) (val w)) :
    Takes (many f ws.length) (ws.flatMap enc) (ws.map val) := by
  induction ws with
  | nil => exact fun _ => rfl
  | cons w ws ih =>
    intro s
    have hw := h w List.mem_cons_self (ws.flatMap enc ++ s)
    have hws := ih (fun w hw => h w (List.mem_cons_of_mem _ hw)) s
    rw [List.flatMap_cons, List.append_assoc, List.length_cons, many, hw]
    simp only [Option.bind_eq_bind, Option.bind_some, hws]
    rfl

end Reader
