import DnsRelay.Lib.Alloc

/-!
# Parts of a program on one heap

`Rep h own p` says that the part `p` of a program holds the blocks `own` of the heap `h`, and what they contain. If
that is a matter of these blocks alone (`Footprint`), and a step of one part keeps away from the blocks of the others,
then the other parts do not notice it: `Shares.focus` hands out the blocks of one part and takes back what its step
left.
-/

namespace Alloc

variable {α π : Type} {Rep : Heap α → List Nat → π → Prop} {h h' : Heap α} {ps : List π} {p p' : π} {k : Nat}
  {own rest rest' : List Nat}

/-- The parts hold blocks of their own; `rest` is what the rest of the program holds. -/
def Shares (Rep : Heap α → List Nat → π → Prop) (h : Heap α) : List π → List Nat → Prop
  | [], rest => Owns h rest
  | p :: ps, rest => ∃ own, Rep h own p ∧ Shares Rep h ps (own ++ rest)

def Footprint (Rep : Heap α → List Nat → π → Prop) : Prop :=
  ∀ h h' own p, (∀ a ∈ own, h'.val a = h.val a) → Rep h own p → Rep h' own p

/-- What a step of a part leaves, the blocks of the others being `rest`. -/
structure Leaves (Rep : Heap α → List Nat → π → Prop) (h h' : Heap α) (p' : π) (rest : List Nat) : Prop where
  rep : ∃ own', Rep h' own' p' ∧ Owns h' (own' ++ rest)
  kept : ∀ a ∈ rest, h'.val a = h.val a

namespace Shares

theorem perm (hs : Shares Rep h ps rest) (hp : rest.Perm rest') : Shares Rep h ps rest' := by
  induction ps generalizing rest rest' with
  | nil => exact Owns.perm hs hp
  | cons p ps ih =>
    obtain ⟨own, hrep, hs⟩ := hs
    exact ⟨own, hrep, ih hs (hp.append_left own)⟩

theorem live_rest (hs : Shares Rep h ps rest) : ∀ a ∈ rest, a ∈ h.live := by
  induction ps generalizing rest with
  | nil => exact fun a => (hs.live_iff a).2
  | cons p ps ih =>
    obtain ⟨own, -, hs⟩ := hs
    exact fun a ha => ih hs a (List.mem_append_right _ ha)

/-- A new part, with blocks that were among the rest. -/
theorem join (hs : Shares Rep h ps (own ++ rest)) (hp : Rep h own p) : Shares Rep h (ps ++ [p]) rest := by
  induction ps generalizing rest with
  | nil => exact ⟨own, hp, hs⟩
  | cons q ps ih =>
    obtain ⟨own', hrep, hs⟩ := hs
    exact ⟨own', hrep, ih (hs.perm (List.perm_append_comm_assoc own' own rest))⟩

/-- A part that holds nothing yet. -/
theorem add (hs : Shares Rep h ps rest) (hp : Rep h [] p) : Shares Rep h (ps ++ [p]) rest := hs.join hp

/-- Each part holds something. -/
theorem exists_rep (hs : Shares Rep h ps rest) (hp : p ∈ ps) : ∃ own, Rep h own p := by
  induction ps generalizing rest with
  | nil => cases hp
  | cons q ps ih =>
    obtain ⟨own, hrep, hs⟩ := hs
    rcases List.mem_cons.1 hp with rfl | hp
    · exact ⟨own, hrep⟩
    · exact ih hs hp

/-- All blocks of the parts. -/
theorem gather (hfoot : Footprint Rep) (hs : Shares Rep h ps rest) : ∃ all, Owns h (all ++ rest) ∧
    ∀ h' rest', (∀ a ∈ all, h'.val a = h.val a) → Owns h' (all ++ rest') → Shares Rep h' ps rest' := by
  induction ps generalizing rest with
  | nil => exact ⟨[], hs, fun _ _ _ ho => ho⟩
  | cons p ps ih =>
    obtain ⟨own, hrep, hs⟩ := hs
    obtain ⟨all, ho, hback⟩ := ih hs
    have hswap : ∀ l, (all ++ (own ++ l)).Perm (own ++ all ++ l) := by
      intro l
      rw [List.append_assoc]
      exact List.perm_append_comm_assoc all own l
    refine ⟨own ++ all, ho.perm (hswap rest), fun h' rest' hkept ho' => ⟨own, ?_, hback h' _ ?_ ?_⟩⟩
    · exact hfoot h h' own p (fun a ha => hkept a (List.mem_append_left _ ha)) hrep
    · exact fun a ha => hkept a (List.mem_append_right _ ha)
    · exact ho'.perm (hswap rest').symm

/-- The blocks of one part, and those of the others. -/
theorem focus (hfoot : Footprint Rep) (hs : Shares Rep h ps rest) (hk : ps[k]? = some p) :
    ∃ own others, Rep h own p ∧ Owns h (own ++ others) ∧ (∀ a ∈ rest, a ∈ others) ∧
      ∀ h' p', Leaves Rep h h' p' others → Shares Rep h' (ps.set k p') rest := by
  induction ps generalizing k rest with
  | nil => cases hk
  | cons q ps ih =>
    obtain ⟨own₀, hrep, hs⟩ := hs
    cases k with
    | zero =>
      cases hk
      obtain ⟨all, ho, hback⟩ := gather hfoot hs
      have hswap : ∀ own, (all ++ (own ++ rest)).Perm (own ++ (all ++ rest)) :=
        fun own => List.perm_append_comm_assoc all own rest
      refine ⟨own₀, all ++ rest, hrep, ho.perm (hswap own₀), fun a ha => List.mem_append_right _ ha,
        fun h' p' hleaves => ?_⟩
      obtain ⟨own', hrep', ho'⟩ := hleaves.rep
      exact ⟨own', hrep', hback h' _ (fun a ha => hleaves.kept a (List.mem_append_left _ ha))
        (ho'.perm (hswap own').symm)⟩
    | succ k =>
      obtain ⟨own, others, hp, ho, hsub, hback⟩ := ih hs hk
      refine ⟨own, others, hp, ho, fun a ha => hsub a (List.mem_append_right _ ha), fun h' p' hleaves => ?_⟩
      exact ⟨own₀, hfoot h h' own₀ q (fun a ha => hleaves.kept a (hsub a (List.mem_append_left _ ha))) hrep,
        hback h' p' hleaves⟩

/-- How many blocks are in use, where each part tells how many it holds. -/
theorem card (hs : Shares Rep h ps rest) (n : π → Nat) (hn : ∀ p ∈ ps, ∀ own, Rep h own p → own.length = n p) :
    h.live.card = (ps.map n).sum + rest.length := by
  induction ps generalizing rest with
  | nil => rw [Owns.card hs, List.map_nil, List.sum_nil, Nat.zero_add]
  | cons p ps ih =>
    obtain ⟨own, hrep, hs⟩ := hs
    rw [ih hs fun q hq => hn q (List.mem_cons_of_mem _ hq), List.length_append, hn p List.mem_cons_self own hrep,
      List.map_cons, List.sum_cons]
    omega

end Shares

end Alloc
