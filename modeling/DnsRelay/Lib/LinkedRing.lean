import Mathlib.Data.List.Chain
import Mathlib.Data.List.Nodup
import Mathlib.Logic.Function.Basic

/-!
# Circular doubly linked lists

A node is anything with decidable equality. `Links` gives each node its two links, `none` being the
null pointer; `IsRing L h xs` says that from `h` the `next` links run through `xs` and back to `h`
while the `prev` links run the other way round. `Links.join x z` makes `z` the successor of `x`,
which is the one edit that insertion and removal are made of.
-/

structure Links (P : Type*) where
  next : P → Option P
  prev : P → Option P

namespace Links
variable {P : Type*} [DecidableEq P]

/-- `next` of `x` is `z` and `prev` of `z` is `x`. -/
def Joined (L : Links P) (x z : P) : Prop := L.next x = some z ∧ L.prev z = some x

def join (L : Links P) (x z : P) : Links P where
  next := Function.update L.next x (some z)
  prev := Function.update L.prev z (some x)

/-- Take both links away from `y`. -/
def clear (L : Links P) (y : P) : Links P where
  next := Function.update L.next y none
  prev := Function.update L.prev y none

@[simp] theorem join_next_self (L : Links P) (x z : P) : (L.join x z).next x = some z :=
  Function.update_self ..

@[simp] theorem join_prev_self (L : Links P) (x z : P) : (L.join x z).prev z = some x :=
  Function.update_self ..

theorem join_next_of_ne {L : Links P} {x z y : P} (h : y ≠ x) : (L.join x z).next y = L.next y :=
  Function.update_of_ne h ..

theorem join_prev_of_ne {L : Links P} {x z y : P} (h : y ≠ z) : (L.join x z).prev y = L.prev y :=
  Function.update_of_ne h ..

@[simp] theorem clear_next_self (L : Links P) (y : P) : (L.clear y).next y = none :=
  Function.update_self ..

@[simp] theorem clear_prev_self (L : Links P) (y : P) : (L.clear y).prev y = none :=
  Function.update_self ..

theorem clear_next_of_ne {L : Links P} {x y : P} (h : x ≠ y) : (L.clear y).next x = L.next x :=
  Function.update_of_ne h ..

theorem clear_prev_of_ne {L : Links P} {x y : P} (h : x ≠ y) : (L.clear y).prev x = L.prev x :=
  Function.update_of_ne h ..

end Links

/-- The ring of `h` through `xs`. -/
structure IsRing {P : Type*} (L : Links P) (h : P) (xs : List P) : Prop where
  nodup : (h :: xs).Nodup
  chain : (h :: (xs ++ [h])).IsChain L.Joined

theorem List.IsChain.congr_dropLast_tail {α : Type*} {R S : α → α → Prop} {l : List α}
    (H : ∀ a b, a ∈ l.dropLast → b ∈ l.tail → R a b → S a b) (p : l.IsChain R) : l.IsChain S := by
  induction p with
  | nil => exact .nil
  | singleton a => exact .singleton a
  | @cons_cons a b l hab _ ih =>
    refine .cons_cons (H a b (by simp) (by simp) hab) (ih fun c d hc hd => H c d ?_ ?_)
    · rw [List.dropLast_cons_of_ne_nil (List.cons_ne_nil _ _)]
      exact List.mem_cons_of_mem _ hc
    · exact List.mem_of_mem_tail hd

namespace IsRing
variable {P : Type*} {L L' : Links P} {h y : P} {xs l₁ l₂ : List P}

theorem nil (hn : L.next h = some h) (hp : L.prev h = some h) : IsRing L h [] :=
  ⟨List.nodup_singleton h, .cons_cons ⟨hn, hp⟩ (.singleton h)⟩

theorem congr (hr : IsRing L h xs) (hn : ∀ p ∈ h :: xs, L'.next p = L.next p)
    (hp : ∀ p ∈ h :: xs, L'.prev p = L.prev p) : IsRing L' h xs := by
  refine ⟨hr.nodup, hr.chain.imp_of_mem_imp fun a b ha hb hab => ?_⟩
  have hmem : ∀ p ∈ h :: (xs ++ [h]), p ∈ h :: xs := by
    intro p; simp only [List.mem_cons, List.mem_append, List.not_mem_nil, or_false]; tauto
  exact ⟨(hn a (hmem a ha)).trans hab.1, (hp b (hmem b hb)).trans hab.2⟩

theorem head_notMem (hr : IsRing L h xs) : h ∉ xs := (List.nodup_cons.1 hr.nodup).1

theorem nodup_tail (hr : IsRing L h xs) : xs.Nodup := (List.nodup_cons.1 hr.nodup).2

/-! ### Reading the links -/

/-- `h :: l₁` ends in the node before what follows, `l₂ ++ [h]` starts with the node after. -/
theorem cons_eq_concat (h : P) (l₁ : List P) :
    h :: l₁ = (h :: l₁).dropLast ++ [l₁.getLastD h] := by
  induction l₁ using List.reverseRecOn with
  | nil => rfl
  | append_singleton l a => rw [List.getLastD_concat, ← List.cons_append, List.dropLast_concat]

theorem append_eq_cons (h : P) (l₂ : List P) :
    l₂ ++ [h] = l₂.headD h :: (l₂ ++ [h]).tail := by
  cases l₂ <;> rfl

theorem getLastD_mem (h : P) (l₁ : List P) : l₁.getLastD h ∈ h :: l₁ := by
  rw [cons_eq_concat h l₁]; exact List.mem_concat_self

theorem headD_mem (h : P) (l₂ : List P) : l₂.headD h ∈ l₂ ++ [h] := by
  rw [append_eq_cons h l₂]; exact List.mem_cons_self

theorem joined_seam (hr : IsRing L h (l₁ ++ l₂)) : L.Joined (l₁.getLastD h) (l₂.headD h) := by
  have hc := hr.chain
  rw [List.append_assoc, ← List.cons_append, cons_eq_concat h l₁, append_eq_cons h l₂,
    List.append_assoc] at hc
  exact (List.isChain_append_cons_cons.1 hc).2.1

theorem next_head (hr : IsRing L h xs) : L.next h = some (xs.headD h) :=
  (show IsRing L h ([] ++ xs) from hr).joined_seam.1

theorem prev_head (hr : IsRing L h xs) : L.prev h = some (xs.getLastD h) :=
  (show IsRing L h (xs ++ []) by rwa [List.append_nil]).joined_seam.2

theorem next_mid (hr : IsRing L h (l₁ ++ y :: l₂)) : L.next y = some (l₂.headD h) := by
  have := (show IsRing L h ((l₁ ++ [y]) ++ l₂) by simpa using hr).joined_seam.1
  rwa [List.getLastD_concat] at this

theorem prev_mid (hr : IsRing L h (l₁ ++ y :: l₂)) : L.prev y = some (l₁.getLastD h) :=
  (joined_seam hr).2

/-- No node of a ring has a null link. -/
theorem linked (hr : IsRing L h xs) (hy : y ∈ h :: xs) : L.next y ≠ none ∧ L.prev y ≠ none := by
  rcases List.mem_cons.1 hy with rfl | hy
  · rw [hr.next_head, hr.prev_head]; exact ⟨nofun, nofun⟩
  · obtain ⟨l₁, l₂, rfl⟩ := List.append_of_mem hy
    rw [hr.next_mid, hr.prev_mid]; exact ⟨nofun, nofun⟩

/-! ### Editing the ring -/

variable [DecidableEq P]

/-- Taking `y` out of the ring. -/
theorem unlink (hr : IsRing L h (l₁ ++ y :: l₂)) :
    IsRing (L.join (l₁.getLastD h) (l₂.headD h)) h (l₁ ++ l₂) := by
  set x := l₁.getLastD h with hx
  set z := l₂.headD h with hz
  obtain ⟨hh, hnd⟩ := List.nodup_cons.1 hr.nodup
  obtain ⟨hnd₁, hnd₂, hd⟩ := List.nodup_append.1 hnd
  have hxm : x ∈ h :: l₁ := getLastD_mem h l₁
  have hzm : z ∈ l₂ ++ [h] := headD_mem h l₂
  refine ⟨List.nodup_cons.2 ⟨fun hm => hh ?_, ?_⟩, ?_⟩
  · rcases List.mem_append.1 hm with hm | hm <;> simp [hm]
  · exact List.nodup_append.2 ⟨hnd₁, (List.nodup_cons.1 hnd₂).2,
      fun a ha b hb => hd a ha b (List.mem_cons_of_mem _ hb)⟩
  have hc := hr.chain
  rw [List.append_assoc, List.cons_append, ← List.cons_append, List.isChain_split] at hc
  rw [List.append_assoc, ← List.cons_append, cons_eq_concat h l₁, append_eq_cons h l₂,
    List.append_assoc, List.singleton_append, ← hx, ← hz, List.isChain_append_cons_cons]
  refine ⟨?_, ⟨Links.join_next_self .., Links.join_prev_self ..⟩, ?_⟩
  · -- before the seam: sources precede `x`, targets are in `l₁`
    rw [hx, ← cons_eq_concat h l₁, ← hx]
    have hpre : (h :: l₁).IsChain L.Joined := hc.1.left_of_append
    refine hpre.congr_dropLast_tail fun a b ha hb hab => ⟨?_, ?_⟩
    · have hax : a ≠ x := by
        rintro rfl
        have := hr.nodup
        rw [← List.cons_append, cons_eq_concat h l₁, ← hx, List.append_assoc] at this
        exact (List.nodup_append.1 this).2.2 _ ha _ (by simp) rfl
      rw [Links.join_next_of_ne hax]; exact hab.1
    · have hb : b ∈ l₁ := hb
      have hbz : b ≠ z := by
        rintro rfl
        rcases List.mem_append.1 hzm with hm | hm
        · exact hd _ hb _ (List.mem_cons_of_mem _ hm) rfl
        · rw [List.mem_singleton.1 hm] at hb
          exact hh (by simp [hb])
      rw [Links.join_prev_of_ne hbz]; exact hab.2
  · -- after it: sources are in `l₂`, targets follow `z`
    rw [hz, ← append_eq_cons h l₂]
    have hpost : (l₂ ++ [h]).IsChain L.Joined := hc.2.tail
    refine hpost.congr_dropLast_tail fun a b ha hb hab => ⟨?_, ?_⟩
    · rw [List.dropLast_concat] at ha
      have hax : a ≠ x := by
        rintro rfl
        rcases List.mem_cons.1 hxm with hm | hm
        · rw [hm] at ha; exact hh (by simp [ha])
        · exact hd _ hm _ (List.mem_cons_of_mem _ ha) rfl
      rw [Links.join_next_of_ne hax]; exact hab.1
    · have hbz : b ≠ z := by
        rintro rfl
        have hnd' : (l₂ ++ [h]).Nodup := by
          refine List.nodup_append.2 ⟨(List.nodup_cons.1 hnd₂).2, List.nodup_singleton h, ?_⟩
          intro a ha c hc heq
          rw [List.mem_singleton.1 hc] at heq
          exact hh (by simp [← heq, ha])
        rw [append_eq_cons h l₂, ← hz] at hnd'
        exact (List.nodup_cons.1 hnd').1 hb
      rw [Links.join_prev_of_ne hbz]; exact hab.2

/-- Putting a node of no ring right behind `h`. -/
theorem push (hr : IsRing L h xs) (hy : y ∉ h :: xs) :
    IsRing ((L.join y (xs.headD h)).join h y) h (y :: xs) := by
  have hyh : y ≠ h := fun he => hy (by simp [he])
  have hyx : y ∉ xs := fun hm => hy (by simp [hm])
  set z := xs.headD h with hz
  have hzy : z ≠ y := by
    rintro rfl
    have hzm : z ∈ xs ++ [h] := headD_mem h xs
    rcases List.mem_append.1 hzm with hm | hm
    · exact hyx hm
    · exact hyh (List.mem_singleton.1 hm)
  refine ⟨?_, ?_⟩
  · refine List.nodup_cons.2 ⟨?_, List.nodup_cons.2 ⟨hyx, hr.nodup_tail⟩⟩
    intro hm
    rcases List.mem_cons.1 hm with hm | hm
    · exact hyh hm.symm
    · exact hr.head_notMem hm
  have hc : (h :: (xs ++ [h])).IsChain L.Joined := hr.chain
  rw [List.cons_append, append_eq_cons h xs, ← hz]
  rw [append_eq_cons h xs, ← hz] at hc
  refine .cons_cons ⟨Links.join_next_self .., Links.join_prev_self ..⟩ (.cons_cons ⟨?_, ?_⟩ ?_)
  · rw [Links.join_next_of_ne hyh]; exact Links.join_next_self ..
  · rw [Links.join_prev_of_ne hzy]; exact Links.join_prev_self ..
  · rw [hz, ← append_eq_cons h xs]
    have hpost : (xs ++ [h]).IsChain L.Joined := by
      rw [append_eq_cons h xs, ← hz]; exact (List.isChain_cons_cons.1 hc).2
    refine hpost.congr_dropLast_tail fun a b ha hb hab => ⟨?_, ?_⟩
    · rw [List.dropLast_concat] at ha
      have hah : a ≠ h := fun he => hr.head_notMem (he ▸ ha)
      have hay : a ≠ y := fun he => hyx (he ▸ ha)
      rw [Links.join_next_of_ne hah, Links.join_next_of_ne hay]; exact hab.1
    · have hbz : b ≠ z := by
        rintro rfl
        have hnd : (xs ++ [h]).Nodup := List.nodup_append.2 ⟨hr.nodup_tail, List.nodup_singleton h,
          fun a ha c hc heq => hr.head_notMem (List.mem_singleton.1 hc ▸ heq ▸ ha)⟩
        rw [append_eq_cons h xs, ← hz] at hnd
        exact (List.nodup_cons.1 hnd).1 hb
      have hby : b ≠ y := by
        rintro rfl
        rcases List.mem_append.1 (List.mem_of_mem_tail hb) with hm | hm
        · exact hyx hm
        · exact hyh (List.mem_singleton.1 hm)
      rw [Links.join_prev_of_ne hby, Links.join_prev_of_ne hbz]; exact hab.2

end IsRing

/-! ### Walking -/

/-- Follow `f` from `p` until `h` comes up, for at most `n` steps: the nodes on the way. -/
def walk {P : Type*} [DecidableEq P] (f : P → Option P) (h : P) : Nat → P → Option (List P)
  | 0, _ => none
  | n + 1, p => match f p with
    | none => none
    | some q => if q = h then some [] else (walk f h n q).map (q :: ·)

namespace IsRing
variable {P : Type*} [DecidableEq P] {L : Links P} {h : P} {xs : List P}

/-- Walking `next` from the head visits the nodes in order. -/
theorem walk_next (hr : IsRing L h xs) {n : Nat} (hn : xs.length < n) : walk L.next h n h = some xs := by
  suffices H : ∀ (l₁ l₂ : List P) (n : Nat), IsRing L h (l₁ ++ l₂) → l₂.length < n →
      walk L.next h n (l₁.getLastD h) = some l₂ from H [] xs n hr hn
  intro l₁ l₂
  induction l₂ generalizing l₁ with
  | nil =>
    intro n hr hn
    obtain ⟨n, rfl⟩ := Nat.exists_eq_add_one.2 hn
    rw [walk, hr.joined_seam.1]
    simp
  | cons y l₂ ih =>
    intro n hr hn
    obtain ⟨n, rfl⟩ := Nat.exists_eq_add_one.2 (Nat.zero_lt_of_lt hn)
    have hyh : y ≠ h := fun he => hr.head_notMem (by simp [he])
    have := ih (l₁ ++ [y]) n (by simpa using hr) (by simpa using hn)
    rw [List.getLastD_concat] at this
    rw [walk, hr.joined_seam.1]
    simp [hyh, this]

/-- Walking `prev` from the head visits them in reverse. -/
theorem walk_prev (hr : IsRing L h xs) {n : Nat} (hn : xs.length < n) :
    walk L.prev h n h = some xs.reverse := by
  suffices H : ∀ (l₁ l₂ : List P) (n : Nat), IsRing L h (l₁ ++ l₂) → l₁.length < n →
      walk L.prev h n (l₂.headD h) = some l₁.reverse from
    H xs [] n (by rwa [List.append_nil]) hn
  intro l₁
  induction l₁ using List.reverseRecOn with
  | nil =>
    intro l₂ n hr hn
    obtain ⟨n, rfl⟩ := Nat.exists_eq_add_one.2 hn
    rw [walk, hr.joined_seam.2]
    simp
  | append_singleton l₁ y ih =>
    intro l₂ n hr hn
    obtain ⟨n, rfl⟩ := Nat.exists_eq_add_one.2 (Nat.zero_lt_of_lt hn)
    have hyh : y ≠ h := fun he => hr.head_notMem (by simp [he])
    have := ih (y :: l₂) n (by simpa using hr) (by simpa using hn)
    rw [List.headD_cons] at this
    rw [walk, hr.joined_seam.2, List.getLastD_concat]
    simp [hyh, this]

end IsRing
