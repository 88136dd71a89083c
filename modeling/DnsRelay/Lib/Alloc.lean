import Mathlib

/-!
# Allocated blocks and who owns them

A heap is the set of the blocks in use and what each of them holds. `malloc` takes any block that is not in use;
which one is the business of the `Allocator`, so that a block may come back after it was released. Reading a block
that is not in use, and releasing one, are misuses. `Owns h l` says that the blocks in use are those of the list
`l`, each of them once: what owns a block may release it, and it is gone from the list then.
-/

namespace Alloc

structure Allocator where
  pick : Finset Nat → Nat
  fresh : ∀ live, pick live ∉ live

/-- The block above all that are in use. -/
def Allocator.bump : Allocator where
  pick live := live.sup id + 1
  fresh live hm := by
    have : live.sup id + 1 ≤ live.sup id := Finset.le_sup (f := id) hm
    omega

/-- The least address that is not in use. -/
def Allocator.least : Allocator where
  pick live := ((List.range (live.card + 1)).find? fun a => a ∉ live).getD (bump.pick live)
  fresh live := by
    cases hfind : (List.range (live.card + 1)).find? fun a => a ∉ live with
    | none => exact bump.fresh live
    | some a => simpa using List.find?_some hfind

structure Heap (α : Type) where
  live : Finset Nat
  val : Nat → α

inductive Misuse
  | dangling
  | badFree
deriving DecidableEq

namespace Heap
variable {α : Type}

def malloc (A : Allocator) (h : Heap α) (v : α) : Nat × Heap α :=
  (A.pick h.live, ⟨insert (A.pick h.live) h.live, Function.update h.val (A.pick h.live) v⟩)

/-- Releasing no block does nothing. -/
def free (h : Heap α) : Option Nat → Except Misuse (Heap α)
  | none => .ok h
  | some a => if a ∈ h.live then .ok { h with live := h.live.erase a } else .error .badFree

def read (h : Heap α) (a : Nat) : Except Misuse α := if a ∈ h.live then .ok (h.val a) else .error .dangling

def write (h : Heap α) (a : Nat) (v : α) : Except Misuse (Heap α) :=
  if a ∈ h.live then .ok { h with val := Function.update h.val a v } else .error .dangling

end Heap

structure Owns {α : Type} (h : Heap α) (l : List Nat) : Prop where
  nodup : l.Nodup
  live_iff : ∀ a, a ∈ h.live ↔ a ∈ l

namespace Owns
variable {α : Type} {A : Allocator} {h : Heap α} {l l' : List Nat} {a : Nat} {v : α}

theorem perm (ho : Owns h l) (hp : l.Perm l') : Owns h l' :=
  ⟨hp.nodup_iff.1 ho.nodup, fun a => (ho.live_iff a).trans hp.mem_iff⟩

theorem card (ho : Owns h l) : h.live.card = l.length := by
  have he : h.live = l.toFinset := by
    ext a
    rw [ho.live_iff, List.mem_toFinset]
  rw [he, List.toFinset_card_of_nodup ho.nodup]

theorem malloc (ho : Owns h l) (A : Allocator) (v : α) : Owns (h.malloc A v).2 ((h.malloc A v).1 :: l) := by
  have hfresh : A.pick h.live ∉ l := fun hm => A.fresh h.live ((ho.live_iff _).2 hm)
  refine ⟨List.nodup_cons.2 ⟨hfresh, ho.nodup⟩, fun a => ?_⟩
  simp [Heap.malloc, ho.live_iff]

theorem read (ho : Owns h l) (ha : a ∈ l) : h.read a = .ok (h.val a) := if_pos ((ho.live_iff a).2 ha)

theorem write (ho : Owns h l) (ha : a ∈ l) (v : α) :
    h.write a v = .ok { h with val := Function.update h.val a v } := if_pos ((ho.live_iff a).2 ha)

theorem update (ho : Owns h l) (val : Nat → α) : Owns { h with val := val } l := ⟨ho.nodup, ho.live_iff⟩

/-- The owner releases a block. -/
theorem free (ho : Owns h (a :: l)) :
    h.free (some a) = .ok { h with live := h.live.erase a } ∧ Owns { h with live := h.live.erase a } l := by
  have ha : a ∈ h.live := (ho.live_iff a).2 List.mem_cons_self
  obtain ⟨hn, hl⟩ := List.nodup_cons.1 ho.nodup
  refine ⟨if_pos ha, hl, fun b => ?_⟩
  rw [Finset.mem_erase, ho.live_iff, List.mem_cons]
  constructor
  · rintro ⟨hne, rfl | hb⟩
    · exact absurd rfl hne
    · exact hb
  · intro hb
    exact ⟨fun he => hn (he ▸ hb), .inr hb⟩

/-- A new block belongs to who asked for it; what the others hold stays. -/
theorem exists_malloc (ho : Owns h l) (A : Allocator) (v : α) : ∃ a h', h.malloc A v = (a, h') ∧ Owns h' (a :: l) ∧
    h'.val a = v ∧ ∀ b ∈ l, h'.val b = h.val b := by
  refine ⟨_, _, rfl, ho.malloc A v, Function.update_self (A.pick h.live) v h.val, fun b hb => ?_⟩
  have hne : b ≠ A.pick h.live := by
    rintro rfl
    exact A.fresh h.live ((ho.live_iff _).2 hb)
  exact Function.update_of_ne hne v h.val

theorem exists_write (ho : Owns h l) (ha : a ∈ l) (v : α) : ∃ h', h.write a v = .ok h' ∧ Owns h' l ∧ h'.val a = v ∧
    ∀ b, b ≠ a → h'.val b = h.val b :=
  ⟨_, ho.write ha v, ho.update _, Function.update_self a v h.val, fun _ hb => Function.update_of_ne hb v h.val⟩

/-- A new block, and its address in a block that was there before. -/
theorem exists_malloc_write (ho : Owns h l) (ha : a ∈ l) (A : Allocator) (v : α) (w : Nat → α) : ∃ b h₁ h₂,
    h.malloc A v = (b, h₁) ∧ h₁.write a (w b) = .ok h₂ ∧ Owns h₂ (b :: l) ∧ b ∉ l ∧ h₂.val b = v ∧
      h₂.val a = w b ∧ ∀ c ∈ l, c ≠ a → h₂.val c = h.val c := by
  obtain ⟨b, h₁, hm, ho₁, hb, hk₁⟩ := ho.exists_malloc A v
  obtain ⟨h₂, hw, ho₂, ha₂, hk₂⟩ := ho₁.exists_write (List.mem_cons_of_mem _ ha) (w b)
  have hnew : b ∉ l := (List.nodup_cons.1 ho₁.nodup).1
  refine ⟨b, h₁, h₂, hm, hw, ho₂, hnew, ?_, ha₂, fun c hc hne => by rw [hk₂ c hne, hk₁ c hc]⟩
  rw [hk₂ b fun he => hnew (he ▸ ha), hb]

theorem exists_free (ho : Owns h (a :: l)) : ∃ h', h.free (some a) = .ok h' ∧ Owns h' l ∧ h'.val = h.val :=
  ⟨_, ho.free.1, ho.free.2, rfl⟩

end Owns

/-- From `h` to `h'` the owner of `l` got the blocks `new`; of `l` it wrote to none but those of `dirty`. -/
structure Grows {α : Type} (h h' : Heap α) (l new dirty : List Nat) : Prop where
  owns : Owns h' (new ++ l)
  kept : ∀ a ∈ l, a ∉ dirty → h'.val a = h.val a

namespace Grows
variable {α : Type} {h h₁ h₂ : Heap α} {l new dirty : List Nat} {a : Nat}

theorem refl (ho : Owns h l) (dirty : List Nat) : Grows h h l [] dirty := ⟨ho, fun _ _ _ => rfl⟩

/-- One more block at the front of a loop that gets others. -/
theorem cons (hg : Grows h₁ h₂ (a :: l) new dirty) (hk : ∀ b ∈ l, b ∉ dirty → h₁.val b = h.val b) :
    Grows h h₂ l (a :: new) dirty :=
  ⟨hg.owns.perm List.perm_middle, fun b hb hn => (hg.kept b (List.mem_cons_of_mem _ hb) hn).trans (hk b hb hn)⟩

end Grows

end Alloc
