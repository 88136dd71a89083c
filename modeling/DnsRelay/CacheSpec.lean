import Mathlib.Data.List.Perm.Subperm
import DnsRelay.Cache
import DnsRelay.Lib.Recency

/-!
# The cache as a list of slots

`WellFormed N c slots` says that the four representations of the cache agree on the linked slots,
taken from the front. Each operation is described by what it does to that list of slots:
`cacheInsert` links a free slot at the front, or evicts the last one and reuses it; `cacheRotate`
brings slots to the front one after the other; `cacheScan` drops the expired ones; `cacheQuery` only
looks.
-/

namespace DnsRelay
open Exec

namespace LRUCache

structure WellFormed (N : Nat) (c : LRUCache) (slots : List Nat) : Prop where
  ring : IsRing c.links .head (slots.map .slot)
  lt : ∀ i ∈ slots, i < N
  set_iff : ∀ i, c.set i = true ↔ i ∈ slots
  length : c.length = slots.length

namespace WellFormed
variable {N : Nat} {c : LRUCache} {slots : List Nat}

theorem nodup (h : WellFormed N c slots) : slots.Nodup := h.ring.nodup_tail.of_map _

theorem length_le (h : WellFormed N c slots) : slots.length ≤ N := by
  have hsub : slots ⊆ List.range N := fun i hi => List.mem_range.2 (h.lt i hi)
  have := (h.nodup.subperm hsub).length_le
  rwa [List.length_range] at this

/-- A full cache has a last slot. -/
theorem eq_concat (h : WellFormed N c slots) (hN : 1 ≤ N) (hge : ¬ slots.length < N) :
    ∃ l tail, slots = l ++ [tail] ∧ l.length + 1 = N := by
  have hlen : slots.length = N := le_antisymm h.length_le (not_lt.1 hge)
  have hne : slots ≠ [] := by rintro rfl; rw [← hlen] at hN; cases hN
  obtain ⟨l, tail, rfl⟩ := (List.eq_nil_or_concat slots).resolve_left hne
  exact ⟨l, tail, List.concat_eq_append, by simpa using hlen⟩

theorem next_head (h : WellFormed N c slots) :
    c.links.next .head = some ((slots.map Node.slot).headD .head) := h.ring.next_head

/-- Equal links and set bits, equal well-formedness. -/
theorem congr {c' : LRUCache} (h : WellFormed N c slots) (hl : c'.links = c.links)
    (hs : c'.set = c.set) (hn : c'.length = c.length) : WellFormed N c' slots :=
  ⟨hl ▸ h.ring, h.lt, hs ▸ h.set_iff, hn ▸ h.length⟩

/-- The number of linked slots is the number of set bits. -/
theorem card_set (h : WellFormed N c slots) : (List.range N).countP c.set = slots.length := by
  rw [List.countP_eq_length_filter]
  refine List.Perm.length_eq ((List.perm_ext_iff_of_nodup (List.nodup_range.filter _) h.nodup).2 fun i => ?_)
  rw [List.mem_filter, List.mem_range, h.set_iff]
  exact ⟨fun hi => hi.2, fun hi => ⟨h.lt i hi, hi⟩⟩

theorem init (N : Nat) (list : Nat → DNSEntry) (links : Links Node) :
    WellFormed N (.init list links) [] where
  ring := .nil (by simp [LRUCache.init]) (by simp [LRUCache.init])
  lt := nofun
  set_iff i := by simp [LRUCache.init]
  length := rfl

end WellFormed

section
variable {N : Nat} {c : LRUCache} {slots l₁ l₂ : List Nat} {i : Nat}

theorem map_slot_append : (l₁ ++ i :: l₂).map Node.slot = l₁.map .slot ++ .slot i :: l₂.map .slot := by simp

theorem slot_notMem (hi : i ∉ slots) : Node.slot i ∉ Node.head :: slots.map Node.slot := by
  simpa using hi

/-! ### Unlinking -/

/-- `__LRU_list_del` of a linked slot. -/
theorem listDel_ok (hr : IsRing c.links .head ((l₁ ++ i :: l₂).map .slot)) :
    ∃ links, c.listDel i = .ok { c with
        list := Function.update c.list i { c.list i with domainName := none, ip := none }, links := links } ∧
      IsRing links .head ((l₁ ++ l₂).map .slot) ∧ links.next (.slot i) = none ∧
      ∀ j ∉ l₁ ++ i :: l₂, links.next (.slot j) = c.links.next (.slot j) := by
  rw [map_slot_append] at hr
  obtain ⟨links, hdel, hr', hnull, -, hframe⟩ := mylistDel_ring hr
  rw [← List.map_append] at hr'
  exact ⟨links, by rw [listDel, hdel]; rfl, hr', hnull, fun j hj => (hframe (.slot j) (by simpa using hj)).1⟩

/-- An unlinked slot whose set bit is cleared is free. -/
theorem WellFormed.free (h : WellFormed N c (l₁ ++ i :: l₂)) {list : Nat → DNSEntry} {links : Links Node}
    (hr : IsRing links .head ((l₁ ++ l₂).map .slot)) :
    WellFormed N ⟨list, links, Function.update c.set i false, c.length - 1⟩ (l₁ ++ l₂) := by
  have hperm : (l₁ ++ i :: l₂).Perm (i :: (l₁ ++ l₂)) := List.perm_middle
  have hi : i ∉ l₁ ++ l₂ := (List.nodup_middle.1 h.nodup).notMem
  refine ⟨hr, fun j hj => h.lt j (hperm.mem_iff.2 (List.mem_cons_of_mem _ hj)), fun j => ?_, ?_⟩
  · rcases eq_or_ne j i with rfl | hne
    · simpa using hi
    · simp [hne, h.set_iff]
  · show c.length - 1 = _
    rw [h.length, hperm.length_eq, List.length_cons]
    push_cast; omega

/-! ### Insertion -/

theorem freeSlot_spec (h : WellFormed N c slots) (hlt : slots.length < N) :
    c.freeSlot N < N ∧ c.freeSlot N ∉ slots := by
  have hex : ∃ i ∈ List.range N, (!c.set i) = true := by
    by_contra hno
    simp only [List.mem_range, Bool.not_eq_true', not_exists, not_and, Bool.not_eq_false] at hno
    have hsub : List.range N ⊆ slots := fun i hi => (h.set_iff i).1 (hno i (List.mem_range.1 hi))
    have := (List.nodup_range.subperm hsub).length_le
    rw [List.length_range] at this
    omega
  have hfind := List.findIdx_lt_length_of_exists hex
  have hget := List.findIdx_getElem (w := hfind)
  rw [List.length_range] at hfind
  refine ⟨hfind, fun hm => ?_⟩
  have hset := (h.set_iff _).2 hm
  rw [List.getElem_range, Bool.not_eq_true', ← freeSlot, hset] at hget
  cases hget

theorem cacheInsert_free (h : WellFormed N c slots) (hlt : slots.length < N) (e : DNSEntry) :
    ∃ c', c.cacheInsert N e = .ok c' ∧ c.freeSlot N ∉ slots ∧ WellFormed N c' (c.freeSlot N :: slots) ∧
      c'.list = Function.update c.list (c.freeSlot N) e ∧
      ∀ j ∉ c.freeSlot N :: slots, c'.links.next (.slot j) = c.links.next (.slot j) := by
  obtain ⟨hi, hni⟩ := freeSlot_spec h hlt
  obtain ⟨L', hL', hr, hf⟩ := mylistAddHead_ring h.ring (slot_notMem hni)
  have hlen : c.length < N := by rw [h.length]; exact_mod_cast hlt
  refine ⟨⟨Function.update c.list (c.freeSlot N) e, L',
    Function.update c.set (c.freeSlot N) true, c.length + 1⟩, ?_, hni, ⟨hr, ?_, fun j => ?_, ?_⟩,
    rfl, fun j hj => ?_⟩
  · rw [cacheInsert, if_pos hlen, if_pos hi, listAdd, hL']; rfl
  · intro j hj
    rcases List.mem_cons.1 hj with rfl | hj
    · exact hi
    · exact h.lt j hj
  · rcases eq_or_ne j (c.freeSlot N) with rfl | hne
    · simp
    · simp [hne, h.set_iff]
  · rw [List.length_cons, h.length]; push_cast; rfl
  · refine (hf (.slot j) ?_).1
    simpa using hj

theorem cacheInsert_full {tail : Nat} (h : WellFormed N c (l₁ ++ [tail])) (hN : l₁.length + 1 = N)
    (e : DNSEntry) :
    ∃ c', c.cacheInsert N e = .ok c' ∧ WellFormed N c' (tail :: l₁) ∧
      c'.list = Function.update c.list tail e ∧
      ∀ j ∉ l₁ ++ [tail], c'.links.next (.slot j) = c.links.next (.slot j) := by
  have hlen : ¬ c.length < N := by
    rw [h.length, List.length_append, List.length_singleton, hN]; simp
  have hr := h.ring
  obtain ⟨L₁, h₁, hr₁, -, hf₁⟩ := listDel_ok hr
  rw [map_slot_append] at hr
  have ht : tail ∉ l₁ := (List.nodup_middle.1 h.nodup).notMem ∘ List.mem_append_left _
  rw [List.append_nil] at hr₁
  obtain ⟨L₂, h₂, hr₂, hf₂⟩ := mylistAddHead_ring hr₁ (slot_notMem ht)
  have hprev : c.links.prev .head = some (.slot tail) := by
    rw [hr.prev_head, List.map_nil, List.getLastD_concat]
  have hlast : mylistIsLast c.links (.slot tail) .head = true := by
    rw [mylistIsLast, hr.next_mid]; simp
  refine ⟨⟨Function.update c.list tail e, L₂, c.set, c.length⟩, ?_, ⟨hr₂, ?_, fun j => ?_, ?_⟩, rfl,
    fun j hj => ?_⟩
  · rw [cacheInsert, if_neg hlen, hprev]
    simp only [deref, ok_bind, hlast, if_true, h₁, listAdd, h₂, Pure.pure, Except.pure]
    rw [Function.update_idem]
  · intro j hj
    exact h.lt j (by simpa [or_comm] using hj)
  · rw [h.set_iff]; simp [or_comm]
  · rw [h.length]; simp
  · have hj' : j ∉ l₁ ∧ j ≠ tail := by simpa using hj
    rw [(hf₂ (.slot j) (by simpa using ⟨hj'.2, hj'.1⟩)).1, hf₁ j hj]

/-! ### Rotation -/

theorem cacheRotate_spec (h : WellFormed N c slots) {temp : List Nat} (hsub : temp ⊆ slots) :
    ∃ links, c.cacheRotate temp = .ok { c with links := links } ∧
      WellFormed N { c with links := links } (Recency.touch temp slots) ∧
      ∀ j ∉ slots, links.next (.slot j) = c.links.next (.slot j) := by
  induction temp generalizing c slots with
  | nil => exact ⟨c.links, rfl, h, fun _ _ => rfl⟩
  | cons i temp ih =>
    obtain ⟨l₁, l₂, -, rfl, herase⟩ := List.exists_erase_eq (hsub List.mem_cons_self)
    have hr := h.ring
    rw [map_slot_append] at hr
    obtain ⟨L', hL', hr', hf⟩ := mylistRotateNodeHead_ring hr
    rw [← List.map_append] at hr'
    have hperm : (i :: (l₁ ++ l₂)).Perm (l₁ ++ i :: l₂) := List.perm_middle.symm
    have h' : WellFormed N { c with links := L' } (i :: (l₁ ++ l₂)) :=
      ⟨hr', fun j hj => h.lt j (hperm.mem_iff.1 hj), fun j => (h.set_iff j).trans hperm.mem_iff.symm,
        by rw [hperm.length_eq]; exact h.length⟩
    have htouch : Recency.touch (i :: temp) (l₁ ++ i :: l₂) = Recency.touch temp (i :: (l₁ ++ l₂)) := by
      rw [← herase]; rfl
    obtain ⟨links, h₁, h₂, h₃⟩ := ih h' fun j hj => hperm.mem_iff.2 (hsub (List.mem_cons_of_mem _ hj))
    refine ⟨links, by rw [cacheRotate, hL']; exact h₁, htouch ▸ h₂, fun j hj => ?_⟩
    rw [h₃ j (mt hperm.mem_iff.1 hj), (hf (.slot j) (by simpa using hj)).1]

/-! ### Queries -/

/-- What `cacheQuery` tests a record for. -/
def hit (clk : Nat → Nat) (name : List UInt8) (type : UInt8) (k : Nat) (e : DNSEntry) : Bool :=
  e.domainName = some name ∧ clk k ≤ e.timestamp ∧ e.type = type

/-- `name` and `ip` are strings. -/
def Named (e : DNSEntry) : Prop := e.domainName ≠ none ∧ e.ip ≠ none

theorem named_update {list : Nat → DNSEntry} {e : DNSEntry} {slots' : List Nat} (he : Named e)
    (h : ∀ j ∈ slots, Named (list j)) (hsub : ∀ j ∈ slots', j ≠ i → j ∈ slots) :
    ∀ j ∈ slots', Named (Function.update list i e j) := by
  intro j hj
  rcases eq_or_ne j i with rfl | hne
  · rwa [Function.update_self]
  · rw [Function.update_of_ne hne]
    exact h j (hsub j hj hne)

theorem queryLoop_spec (clk : Nat → Nat) {query : DNSEntry} {name : List UInt8}
    (hq : query.domainName = some name) (h : WellFormed N c (l₁ ++ l₂))
    (hnamed : ∀ i ∈ l₂, Named (c.list i)) {fuel : Nat} (hfuel : l₂.length < fuel) (k : Nat)
    (acc : List (DNSEntry × Nat)) (hacc : acc.length + l₂.length ≤ N) :
    queryLoop N clk c query fuel k ((l₂.map Node.slot).headD .head) acc =
      .ok (acc ++ (Recency.keep (fun k i => hit clk name query.type k (c.list i)) k l₂).map
        fun i => (c.list i, i)) := by
  induction l₂ generalizing l₁ fuel k acc with
  | nil =>
    obtain ⟨fuel, rfl⟩ := Nat.exists_eq_add_one.2 hfuel
    simp [queryLoop, Recency.keep]
  | cons i l₂ ih =>
    obtain ⟨fuel, rfl⟩ := Nat.exists_eq_add_one.2 (Nat.zero_lt_of_lt hfuel)
    obtain ⟨hn, hip⟩ := hnamed i List.mem_cons_self
    obtain ⟨n, hn⟩ := Option.ne_none_iff_exists'.1 hn
    obtain ⟨ip, hip⟩ := Option.ne_none_iff_exists'.1 hip
    have hr := h.ring
    rw [map_slot_append] at hr
    have h' : WellFormed N c ((l₁ ++ [i]) ++ l₂) := by rwa [List.append_assoc]
    have hnamed' : ∀ j ∈ l₂, Named (c.list j) := fun j hj => hnamed j (List.mem_cons_of_mem _ hj)
    simp only [List.length_cons] at hacc hfuel
    simp only [List.map_cons, List.headD_cons, queryLoop, hn, hq, deref, ok_bind, hr.next_mid]
    rw [Recency.keep]
    by_cases hit' : hit clk name query.type k (c.list i) = true
    · have hcond : n = name ∧ clk k ≤ (c.list i).timestamp ∧ (c.list i).type = query.type := by
        simpa [hit, hn] using hit'
      have hroom : acc.length < N := by omega
      rw [if_pos hcond, if_pos hit', hip]
      simp only [if_pos hroom]
      rw [ih h' hnamed' (by omega) (k + 1) _ (by simp; omega)]
      simp
    · have hcond : ¬ (n = name ∧ clk k ≤ (c.list i).timestamp ∧ (c.list i).type = query.type) := by
        simpa [hit, hn] using hit'
      rw [if_neg hcond, if_neg hit']
      exact ih h' hnamed' (by omega) (k + 1) _ (by omega)

theorem lt_walkFuel {n : Nat} (h : n ≤ N) : n < walkFuel N := by
  have : N + 1 ≤ walkFuel N := Nat.le_mul_of_pos_right _ (by omega)
  omega

/-- The slots `cacheQuery` finds. -/
def found (clk : Nat → Nat) (name : List UInt8) (type : UInt8) (c : LRUCache) (slots : List Nat) :
    List Nat :=
  Recency.keep (fun k i => hit clk name type k (c.list i)) 0 slots

/-- The slots of what `cacheQuery` returns. -/
theorem map_snd_found : (slots.map fun i => (c.list i, i)).map Prod.snd = slots := by simp [Function.comp_def]

theorem found_subset {clk : Nat → Nat} {name : List UInt8} {type : UInt8} :
    found clk name type c slots ⊆ slots := (Recency.keep_sublist _ _ _).subset

theorem cacheQuery_spec (clk : Nat → Nat) (query : DNSEntry) {name : List UInt8}
    (hq : query.domainName = some name) (h : WellFormed N c slots)
    (hnamed : ∀ i ∈ slots, Named (c.list i)) :
    c.cacheQuery N clk query = .ok ((found clk name query.type c slots).map fun i => (c.list i, i)) := by
  rw [cacheQuery, h.next_head]
  simp only [deref, ok_bind]
  have := queryLoop_spec clk hq (show WellFormed N c ([] ++ slots) from h) hnamed
    (lt_walkFuel h.length_le) 0 [] (by simpa using h.length_le)
  simpa [found] using this

/-! ### The scan -/

/-- The test by which `cacheScan` keeps a record. -/
def alive (clk : Nat → Nat) (k : Nat) (e : DNSEntry) : Bool := clk k ≤ e.timestamp

/-- The slots `cacheScan` leaves. -/
def kept (clk : Nat → Nat) (c : LRUCache) (slots : List Nat) : List Nat :=
  Recency.keep (fun k i => alive clk k (c.list i)) 0 slots

/-- From the loop's state after the slots `l₁`: all of them stay, and those of `l₂` that are not
expired. The step back before an unlinking lands on the last of `l₁`, or on `head`. -/
theorem scanLoop_spec (clk : Nat → Nat) (h : WellFormed N c (l₁ ++ l₂)) {fuel : Nat}
    (hfuel : l₂.length < fuel) (k : Nat) (flag : Bool) :
    ∃ c', scanLoop clk fuel k ((l₂.map Node.slot).headD .head) c flag =
        .ok (c', flag || decide ((Recency.keep (fun k i => alive clk k (c.list i)) k l₂).length <
          l₂.length)) ∧
      WellFormed N c' (l₁ ++ Recency.keep (fun k i => alive clk k (c.list i)) k l₂) ∧
      (∀ j, j ∉ l₂ ∨ j ∈ Recency.keep (fun k i => alive clk k (c.list i)) k l₂ →
        c'.list j = c.list j) ∧
      (∀ j ∈ l₂, j ∉ Recency.keep (fun k i => alive clk k (c.list i)) k l₂ →
        c'.links.next (.slot j) = none) ∧
      ∀ j ∉ l₁ ++ l₂, c'.links.next (.slot j) = c.links.next (.slot j) := by
  induction l₂ generalizing c l₁ fuel k flag with
  | nil =>
    obtain ⟨fuel, rfl⟩ := Nat.exists_eq_add_one.2 hfuel
    exact ⟨c, by simp [scanLoop, Recency.keep], h, fun _ _ => rfl, nofun, fun _ _ => rfl⟩
  | cons i l₂ ih =>
    obtain ⟨fuel, rfl⟩ := Nat.exists_eq_add_one.2 (Nat.zero_lt_of_lt hfuel)
    have hr := h.ring
    rw [map_slot_append] at hr
    have hnd := List.nodup_middle.1 h.nodup
    have hi : i ∉ l₁ ++ l₂ := hnd.notMem
    simp only [List.length_cons] at hfuel
    simp only [List.map_cons, List.headD_cons, scanLoop]
    rw [Recency.keep]
    by_cases hal : alive clk k (c.list i) = true
    · have hcond : ¬ (c.list i).timestamp < clk k := by simpa [alive] using hal
      obtain ⟨c', h₁, h₂, h₃, h₄, h₅⟩ := ih
        (show WellFormed N c ((l₁ ++ [i]) ++ l₂) by rwa [List.append_assoc])
        (show l₂.length < fuel by omega) (k + 1) flag
      rw [if_neg hcond, if_pos hal, hr.next_mid]
      refine ⟨c', ?_, by simpa using h₂, fun j hj => h₃ j ?_, fun j hj hk => h₄ j ?_ ?_,
        fun j hj => h₅ j (by simpa using hj)⟩
      · simp only [deref, ok_bind, List.length_cons, Nat.add_lt_add_iff_right]
        exact h₁
      · rcases hj with hj | hj
        · exact .inl fun hm => hj (List.mem_cons_of_mem _ hm)
        · rcases List.mem_cons.1 hj with rfl | hj
          · exact .inl fun hm => hi (List.mem_append_right _ hm)
          · exact .inr hj
      · rcases List.mem_cons.1 hj with rfl | hj
        · exact absurd List.mem_cons_self hk
        · exact hj
      · exact fun hm => hk (List.mem_cons_of_mem _ hm)
    · have hcond : (c.list i).timestamp < clk k := by simpa [alive] using hal
      obtain ⟨links, hdel, hr', hnull, hframe⟩ := listDel_ok h.ring
      have hfirst : links.next ((l₁.map Node.slot).getLastD .head) = some ((l₂.map Node.slot).headD .head) := by
        rw [List.map_append] at hr'
        exact hr'.joined_seam.1
      have hsame : ∀ j ∈ l₂, Function.update c.list i { c.list i with domainName := none, ip := none } j =
          c.list j := fun j hj => Function.update_of_ne (by rintro rfl; exact hi (List.mem_append_right _ hj)) _ _
      have hkeep : Recency.keep (fun k j => alive clk k
          (Function.update c.list i { c.list i with domainName := none, ip := none } j)) (k + 1) l₂ =
          Recency.keep (fun k j => alive clk k (c.list j)) (k + 1) l₂ :=
        Recency.keep_congr fun k j hj => by rw [hsame j hj]
      obtain ⟨c', h₁, h₂, h₃, h₄, h₅⟩ := ih (h.free hr') (show l₂.length < fuel by omega) (k + 1) true
      rw [hkeep] at h₁ h₂ h₃ h₄
      rw [if_pos hcond, if_neg hal, hr.prev_mid]
      have hle := (Recency.keep_sublist (fun k j => alive clk k (c.list j)) (k + 1) l₂).length_le
      refine ⟨c', ?_, h₂, fun j hj => ?_, fun j hj hk => ?_, fun j hj => ?_⟩
      · simp only [deref, ok_bind, hdel, hfirst, h₁, List.length_cons]
        simp [Nat.lt_succ_of_le hle]
      · have hji : j ≠ i := by
          rintro rfl
          rcases hj with hj | hj
          · exact hj List.mem_cons_self
          · exact hi (List.mem_append_right _ ((Recency.keep_sublist _ _ _).subset hj))
        rw [h₃ j (hj.imp_left fun hj hm => hj (List.mem_cons_of_mem _ hm))]
        exact Function.update_of_ne hji _ _
      · rcases List.mem_cons.1 hj with rfl | hj
        · rw [h₅ j hi]; exact hnull
        · exact h₄ j hj hk
      · rw [h₅ j fun hm => hj (List.perm_middle.mem_iff.2 (List.mem_cons_of_mem _ hm))]
        exact hframe j hj

theorem cacheScan_spec (clk : Nat → Nat) (h : WellFormed N c slots) :
    ∃ c', c.cacheScan N clk = .ok (c', decide ((kept clk c slots).length < slots.length)) ∧
      WellFormed N c' (kept clk c slots) ∧ (∀ j ∈ kept clk c slots, c'.list j = c.list j) ∧
      (∀ j ∈ slots, j ∉ kept clk c slots → c'.links.next (.slot j) = none) ∧
      ∀ j ∉ slots, c'.links.next (.slot j) = c.links.next (.slot j) := by
  obtain ⟨c', h₁, h₂, h₃, h₄, h₅⟩ := scanLoop_spec clk
    (show WellFormed N c ([] ++ slots) from h) (lt_walkFuel h.length_le) 0 false
  refine ⟨c', ?_, h₂, fun j hj => h₃ j (.inr hj), h₄, h₅⟩
  rw [Bool.false_or] at h₁
  rw [cacheScan, h.next_head]
  exact h₁

end

end LRUCache

end DnsRelay
