import Mathlib
import DnsRelay.CacheHeap

/-!
# The cache on the heap refines the cache with its strings

`view` reads the strings of every record. `Rep N c slots l` says that what is seen so is a tidy cache with the
slots `slots`, and that the blocks in use are the strings of these slots and the blocks `l` of everyone else, each
of them once. Every command does to the view what it does to the cache whose records hold their strings, and to the
blocks what `leaked` says: it releases what it allocated, but for these.
-/

namespace DnsRelay
open Alloc Exec

/-! ### Strings in blocks -/

/-- The string in a block. -/
def textOf (h : Heap Cell) (a : Nat) : Option (List UInt8) :=
  match h.val a with
  | .text s => some s
  | _ => none

theorem bind_textOf_congr {h h' : Heap Cell} {p : Option Nat} (hv : ∀ a ∈ p.toList, h'.val a = h.val a) :
    p.bind (textOf h') = p.bind (textOf h) := by
  cases p with
  | none => rfl
  | some a =>
    have := hv a (by simp)
    simp [textOf, this]

namespace PtrEntry

def view (h : Heap Cell) (e : PtrEntry) : DNSEntry :=
  ⟨e.domainName.bind (textOf h), e.ip.bind (textOf h), e.type, e.addition, e.timestamp⟩

/-- The blocks an entry points to. -/
def blocks (e : PtrEntry) : List Nat := e.domainName.toList ++ e.ip.toList

theorem view_congr {h h' : Heap Cell} {e : PtrEntry} (hv : ∀ a ∈ e.blocks, h'.val a = h.val a) :
    e.view h' = e.view h := by
  unfold view
  rw [bind_textOf_congr fun a ha => hv a (List.mem_append_left _ ha),
    bind_textOf_congr fun a ha => hv a (List.mem_append_right _ ha)]

/-- An entry whose two strings can be read. -/
theorem exists_of_named {h : Heap Cell} {e : PtrEntry} (hn : LRUCache.Named (e.view h)) :
    ∃ a b s t, e.domainName = some a ∧ e.ip = some b ∧ h.val a = .text s ∧ h.val b = .text t ∧
      e.blocks = [a, b] ∧ e.view h = ⟨some s, some t, e.type, e.addition, e.timestamp⟩ := by
  have htext : ∀ {p : Option Nat}, p.bind (textOf h) ≠ none → ∃ a s, p = some a ∧ h.val a = .text s := by
    intro p hp
    cases p with
    | none => exact absurd rfl hp
    | some a =>
      refine ⟨a, ?_⟩
      simp only [Option.bind_some, textOf] at hp
      split at hp
      · exact ⟨_, rfl, ‹_›⟩
      · exact absurd rfl hp
  obtain ⟨a, s, ha, hs⟩ := htext hn.1
  obtain ⟨b, t, hb, ht⟩ := htext hn.2
  refine ⟨a, b, s, t, ha, hb, hs, ht, ?_, ?_⟩
  · simp [blocks, ha, hb]
  · simp [view, ha, hb, textOf, hs, ht]

theorem length_flatMap_blocks {h : Heap Cell} {es : List PtrEntry} (hn : ∀ e ∈ es, LRUCache.Named (e.view h)) :
    (es.flatMap blocks).length = 2 * es.length := by
  have htwo : es.map (fun e => e.blocks.length) = es.map fun _ => 2 := by
    refine List.map_congr_left fun e he => ?_
    obtain ⟨a, b, s, t, -, -, -, -, hblocks, -⟩ := exists_of_named (hn e he)
    rw [hblocks]
    rfl
  rw [List.length_flatMap, htwo, List.map_const', List.sum_replicate_nat, Nat.mul_comm]

end PtrEntry

section
variable {A : Allocator} {h : Heap Cell} {l : List Nat} {a p : Nat} {s : List UInt8} {e : PtrEntry}

theorem text_ok (ho : Owns h l) (ha : a ∈ l) (hs : h.val a = .text s) : text h (some a) = .ok s := by
  simp only [text, ho.read ha, hs]
  rfl

theorem entryAt_ok (ho : Owns h l) (hp : p ∈ l) (he : h.val p = .entry e) : entryAt h p = .ok e := by
  simp only [entryAt, ho.read hp, he]
  rfl

theorem copyText_ok (ho : Owns h l) (A : Allocator) (s : List UInt8) : ∃ b h', copyText A h (some s) = (some b, h') ∧
    Owns h' (b :: l) ∧ h'.val b = .text s ∧ ∀ a ∈ l, h'.val a = h.val a := by
  obtain ⟨b, h', hm, ho', hb, hv⟩ := ho.exists_malloc A (.text s)
  exact ⟨b, h', by rw [copyText, hm], ho', hb, hv⟩

/-- The same, where there may be no string. -/
theorem copyText_toList (ho : Owns h l) (A : Allocator) (s : Option (List UInt8)) : ∃ q h', copyText A h s = (q, h') ∧
    Owns h' (q.toList ++ l) ∧ q.toList.length = s.toList.length ∧ q.bind (textOf h') = s ∧
      ∀ a ∈ l, h'.val a = h.val a := by
  cases s with
  | none => exact ⟨none, h, rfl, ho, rfl, rfl, fun _ _ => rfl⟩
  | some s =>
    obtain ⟨b, h', hc, ho', hb, hv⟩ := copyText_ok ho A s
    exact ⟨some b, h', hc, ho', rfl, by simp [textOf, hb], hv⟩

theorem copyAt_ok (ho : Owns h l) (A : Allocator) (ha : a ∈ l) (hs : h.val a = .text s) :
    ∃ b h', copyAt A h (some a) = .ok (some b, h') ∧ Owns h' (b :: l) ∧ h'.val b = .text s ∧
      ∀ a ∈ l, h'.val a = h.val a := by
  obtain ⟨b, h', hc, hrest⟩ := copyText_ok ho A s
  refine ⟨b, h', ?_, hrest⟩
  simp only [copyAt, text_ok ho ha hs]
  exact congrArg Except.ok hc

/-- An entry that was filled belongs to the caller, with its strings. -/
theorem entrySet_ok (ho : Owns h l) (A : Allocator) (name : List UInt8) (ip : Option (List UInt8)) (ttl : UInt32)
    (type : UInt8) (addition : UInt16) (now : Nat) :
    ∃ p h' e, entrySet A h (some name) ip ttl type addition now = .ok (p, h') ∧ Owns h' (p :: (e.blocks ++ l)) ∧
      h'.val p = .entry e ∧ e.view h' = dnsEntrySet (some name) ip ttl type addition now ∧
      e.blocks.length = 1 + ip.toList.length ∧ ∀ a ∈ l, h'.val a = h.val a := by
  obtain ⟨p, h₁, hp, ho₁, -, hv₁⟩ := ho.exists_malloc A .blank
  obtain ⟨q, h₂, hq, ho₂, hlq, htq, hv₂⟩ := copyText_toList ho₁ A (some name)
  obtain ⟨r, h₃, hr, ho₃, hlr, htr, hv₃⟩ := copyText_toList ho₂ A ip
  have hp₃ : p ∈ r.toList ++ (q.toList ++ p :: l) := by simp
  have hperm : (r.toList ++ (q.toList ++ p :: l)).Perm (p :: ((q.toList ++ r.toList) ++ l)) :=
    (List.perm_middle.append_left _).trans (List.perm_middle.trans ((List.perm_append_comm_assoc _ _ _).trans
      (by rw [List.append_assoc]) |>.cons p))
  set e : PtrEntry := ⟨q, r, type, addition, now + ttl.toNat⟩ with he
  have hwrite := ho₃.write hp₃ (.entry e)
  have hnot : ∀ a ∈ e.blocks ++ l, a ≠ p := by
    intro a ha hap
    have := (List.nodup_cons.1 ((ho₃.perm hperm).nodup)).1
    exact this (hap ▸ ha)
  have hkeep : ∀ a ∈ e.blocks ++ l, Function.update h₃.val p (.entry e) a = h₃.val a := fun a ha =>
    Function.update_of_ne (hnot a ha) (Cell.entry e) h₃.val
  refine ⟨p, { h₃ with val := Function.update h₃.val p (.entry e) }, e, ?_, (ho₃.update _).perm hperm,
    Function.update_self p (Cell.entry e) h₃.val, ?_, ?_, fun a ha => ?_⟩
  · simp only [entrySet, hp, hq, hr, ← he, hwrite]
    rfl
  · rw [PtrEntry.view_congr fun a ha => hkeep a (List.mem_append_left _ ha)]
    show (⟨q.bind (textOf h₃), r.bind (textOf h₃), type, addition, now + ttl.toNat⟩ : DNSEntry) = _
    rw [htr, bind_textOf_congr fun a ha => hv₃ a (List.mem_append_left _ ha), htq]
    rfl
  · rw [PtrEntry.blocks, List.length_append, hlq, hlr]
    rfl
  · refine (hkeep a (List.mem_append_right _ ha)).trans ?_
    rw [hv₃ a (by simp [ha]), hv₂ a (by simp [ha]), hv₁ a ha]

/-- The strings of an entry are released by who owns them. -/
theorem freeStrings_ok (ho : Owns h (e.blocks ++ l)) : ∃ h', freeStrings h e = .ok h' ∧ Owns h' l ∧ h'.val = h.val := by
  have hfree : ∀ {h : Heap Cell} {p : Option Nat} {l : List Nat}, Owns h (p.toList ++ l) →
      ∃ h', onHeap (h.free p) = .ok h' ∧ Owns h' l ∧ h'.val = h.val := by
    intro h p l ho
    cases p with
    | none => exact ⟨h, rfl, ho, rfl⟩
    | some a =>
      obtain ⟨hf, ho'⟩ := ho.free
      exact ⟨_, by rw [hf]; rfl, ho', rfl⟩
  unfold PtrEntry.blocks at ho
  rw [List.append_assoc] at ho
  obtain ⟨h₁, hf₁, ho₁, hv₁⟩ := hfree ho
  obtain ⟨h₂, hf₂, ho₂, hv₂⟩ := hfree ho₁
  refine ⟨h₂, ?_, ho₂, hv₂.trans hv₁⟩
  unfold freeStrings
  rw [hf₁]
  exact hf₂

theorem entryFree_ok (ho : Owns h (p :: (e.blocks ++ l))) (he : h.val p = .entry e) :
    ∃ h', entryFree h p = .ok h' ∧ Owns h' l ∧ h'.val = h.val := by
  have hperm : (p :: (e.blocks ++ l)).Perm (e.blocks ++ p :: l) := List.perm_middle.symm
  obtain ⟨h₁, hf, ho₁, hv⟩ := freeStrings_ok (ho.perm hperm)
  obtain ⟨hp, ho₂⟩ := ho₁.free
  refine ⟨_, ?_, ho₂, hv⟩
  unfold entryFree
  rw [entryAt_ok ho List.mem_cons_self he]
  simp only [bind, Except.bind, hf, hp]
  rfl

end

/-! ### The cache seen with its strings -/

namespace HeapCache

def view (c : HeapCache) : LRUCache := ⟨fun i => (c.list i).view c.heap, c.links, c.set, c.length⟩

/-- The strings of the slots. -/
def blocks (list : Nat → PtrEntry) (slots : List Nat) : List Nat := slots.flatMap fun i => (list i).blocks

/-- The view is a tidy cache, a free slot below one in use has no strings, and each block in use is a string of the
slots or one of `l`. -/
structure Rep (N : Nat) (c : HeapCache) (slots l : List Nat) : Prop where
  tidy : LRUCache.Tidy N c.view slots
  clear : ∀ i j, j ∈ slots → i < j → i ∉ slots → (c.list i).blocks = []
  owns : Owns c.heap (blocks c.list slots ++ l)

section
variable {A : Allocator} {N i p : Nat} {c c' : HeapCache} {heap : Heap Cell} {slots slots' l l' : List Nat}
  {e : PtrEntry} {links : Links Node}

theorem mem_blocks {a : Nat} (hi : i ∈ slots) (ha : a ∈ (c.list i).blocks) : a ∈ blocks c.list slots :=
  List.mem_flatMap.2 ⟨i, hi, ha⟩

theorem blocks_congr {list list' : Nat → PtrEntry} (h : ∀ i ∈ slots, list' i = list i) :
    blocks list' slots = blocks list slots := List.flatMap_congr fun i hi => by rw [h i hi]

theorem view_list (hv : ∀ a ∈ blocks c.list slots, heap.val a = c.heap.val a) (hi : i ∈ slots) :
    (c.list i).view heap = c.view.list i := PtrEntry.view_congr fun a ha => hv a (mem_blocks hi ha)

/-- Other blocks may come and go. -/
theorem Rep.withHeap (h : Rep N c slots l) (ho : Owns heap (blocks c.list slots ++ l'))
    (hv : ∀ a ∈ blocks c.list slots, heap.val a = c.heap.val a) : Rep N { c with heap := heap } slots l' := by
  refine ⟨⟨h.tidy.toWellFormed.congr rfl rfl rfl, fun i hi => ?_, h.tidy.null⟩, h.clear, ho⟩
  have := h.tidy.named i hi
  rw [← view_list hv hi] at this
  exact this

/-- `__LRU_list_add` of an entry whose strings belong to someone else. -/
theorem listAdd_ok (A : Allocator) (ho : Owns c.heap l) (he : LRUCache.Named (e.view c.heap)) (hsub : e.blocks ⊆ l)
    (hl : mylistAddHead c.links (.slot i) .head = .ok links) :
    ∃ heap e', c.listAdd A e i = .ok ⟨heap, Function.update c.list i e', links, c.set, c.length⟩ ∧
      Owns heap (e'.blocks ++ l) ∧ e'.view heap = e.view c.heap ∧ ∀ a ∈ l, heap.val a = c.heap.val a := by
  obtain ⟨a, b, s, t, ha, hb, hs, ht, hblocks, hview⟩ := PtrEntry.exists_of_named he
  have ham : a ∈ l := hsub (by simp [hblocks])
  have hbm : b ∈ l := hsub (by simp [hblocks])
  obtain ⟨a', h₁, hc₁, ho₁, hs₁, hv₁⟩ := copyAt_ok ho A ham hs
  obtain ⟨b', h₂, hc₂, ho₂, ht₂, hv₂⟩ := copyAt_ok ho₁ A (List.mem_cons_of_mem _ hbm) ((hv₁ b hbm).trans ht)
  have hs₂ : h₂.val a' = .text s := (hv₂ a' List.mem_cons_self).trans hs₁
  refine ⟨h₂, { e with domainName := some a', ip := some b' }, ?_, ho₂.perm (.swap ..), ?_, fun x hx => ?_⟩
  · simp only [listAdd, ha, hb, hc₁, hc₂, lift_ok hl, bind, Except.bind]
    rfl
  · rw [hview]
    simp [PtrEntry.view, textOf, hs₂, ht₂]
  · rw [hv₂ x (List.mem_cons_of_mem _ hx), hv₁ x hx]

/-- `__LRU_list_del` of a slot that owns its strings. -/
theorem listDel_ok (ho : Owns c.heap ((c.list i).blocks ++ l)) (hl : mylistDel c.links (.slot i) = .ok links) :
    ∃ heap, c.listDel i = .ok ⟨heap,
        Function.update c.list i { c.list i with domainName := none, ip := none }, links, c.set, c.length⟩ ∧
      Owns heap l ∧ heap.val = c.heap.val := by
  obtain ⟨heap, hf, ho', hv⟩ := freeStrings_ok ho
  refine ⟨heap, ?_, ho', hv⟩
  simp only [listDel, hf, lift_ok hl, bind, Except.bind]
  rfl

theorem tidy_congr {d d' : LRUCache} (h : LRUCache.Tidy N d slots) (hl : d'.links = d.links) (hs : d'.set = d.set)
    (hn : d'.length = d.length) (hlist : ∀ i ∈ slots, d'.list i = d.list i) : LRUCache.Tidy N d' slots := by
  refine ⟨h.toWellFormed.congr hl hs hn, fun i hi => ?_, fun i j hj hij hi => ?_⟩
  · rw [hlist i hi]
    exact h.named i hi
  · rw [hl]
    exact h.null i j hj hij hi

/-! ### Insertion -/

/-- The entry at `p`, with its strings, belongs to the caller of `cacheInsert`. -/
structure Given (c : HeapCache) (l : List Nat) (p : Nat) (e : PtrEntry) (r : Record) : Prop where
  mem : p ∈ l
  val : c.heap.val p = .entry e
  sub : e.blocks ⊆ l
  view : e.view c.heap = r.entry

/-- A slot `i` filled by `__LRU_list_add`, where the other slots keep theirs. -/
theorem blocks_fill {list : Nat → PtrEntry} {e' : PtrEntry} (hi : i ∉ slots) :
    blocks (Function.update list i e') (i :: slots) = e'.blocks ++ blocks list slots := by
  have hrest : blocks (Function.update list i e') slots = blocks list slots :=
    blocks_congr fun j hj => Function.update_of_ne (show j ≠ i from fun he => hi (he ▸ hj)) e' list
  unfold blocks at hrest ⊢
  rw [List.flatMap_cons, hrest, Function.update_self]

theorem view_fill {e' : PtrEntry} {r : Record} (he : e'.view heap = r.entry)
    (hv : ∀ a ∈ blocks c.list slots, heap.val a = c.heap.val a) :
    ∀ j ∈ i :: slots, (Function.update c.list i e' j).view heap = if i = j then r.entry else c.view.list j := by
  intro j hj
  by_cases hji : i = j
  · subst hji
    rw [Function.update_self, if_pos rfl, he]
  · rw [Function.update_of_ne (Ne.symm hji), if_neg hji]
    exact view_list hv ((List.mem_cons.1 hj).resolve_left (Ne.symm hji))

theorem Rep.insert_free (h : Rep N c slots l) (hlt : slots.length < N) (A : Allocator) {r : Record}
    (hg : Given c l p e r) : ∃ c', c.cacheInsert A N p = .ok c' ∧ Rep N c' (c.freeSlot N :: slots) l ∧
      (∀ i ∈ c.freeSlot N :: slots, c'.view.list i = if c.freeSlot N = i then r.entry else c.view.list i) ∧
      ∀ a ∈ l, c'.heap.val a = c.heap.val a := by
  obtain ⟨hi, hni⟩ : c.freeSlot N < N ∧ c.freeSlot N ∉ slots := LRUCache.freeSlot_spec h.tidy.toWellFormed hlt
  obtain ⟨d, hins, hd, hlist⟩ := h.tidy.insert_free hlt r
  have hlen : c.length < N := by
    have : c.length = slots.length := h.tidy.length
    omega
  have hsub : e.blocks ⊆ blocks c.list slots ++ l := fun a ha => List.mem_append_right _ (hg.sub ha)
  rw [LRUCache.cacheInsert, if_pos (show c.view.length < N from hlen),
    if_pos (show c.view.freeSlot N < N from hi)] at hins
  obtain ⟨d₁, hadd, hins⟩ := bind_ok.1 hins
  obtain ⟨links, hl, hadd⟩ := bind_ok.1 hadd
  cases hadd
  cases hins
  obtain ⟨heap, e', hadd, ho, he', hv⟩ := listAdd_ok (i := c.freeSlot N) A h.owns
    (hg.view ▸ r.named) hsub hl
  have hlist' := view_fill (i := c.freeSlot N) (he'.trans hg.view) fun a ha => hv a (List.mem_append_left _ ha)
  refine ⟨⟨heap, Function.update c.list (c.freeSlot N) e', links, Function.update c.set (c.freeSlot N) true,
    c.length + 1⟩, ?_, ⟨?_, fun i j hj hij hi' => ?_, ?_⟩, hlist', fun a ha => hv a (List.mem_append_right _ ha)⟩
  · have hentry := entryAt_ok h.owns (List.mem_append_right _ hg.mem) hg.val
    simp only [cacheInsert, if_pos hlen, if_pos hi, hentry, hadd, bind, Except.bind]
    rfl
  · exact tidy_congr hd rfl rfl rfl fun j hj => (hlist' j hj).trans (hlist j).symm
  · rw [List.mem_cons, not_or] at hi'
    show (Function.update c.list _ e' i).blocks = []
    rw [Function.update_of_ne hi'.1]
    rcases List.mem_cons.1 hj with rfl | hj
    · exact absurd ((h.tidy.set_iff i).1 (LRUCache.set_of_lt_freeSlot hij)) hi'.2
    · exact h.clear i j hj hij hi'.2
  · show Owns heap (blocks (Function.update c.list (c.freeSlot N) e') (c.freeSlot N :: slots) ++ l)
    rw [blocks_fill hni, List.append_assoc]
    exact ho

theorem blocks_concat {list : Nat → PtrEntry} (l₁ : List Nat) (i : Nat) (l₂ : List Nat) :
    (blocks list (l₁ ++ i :: l₂)).Perm ((list i).blocks ++ blocks list (l₁ ++ l₂)) := by
  unfold blocks
  rw [List.flatMap_append, List.flatMap_cons, List.flatMap_append]
  exact List.perm_append_comm_assoc _ _ _

/-- A slot that is on the list, without its strings. -/
theorem listDel_slot {l₁ l₂ : List Nat} (ho : Owns c.heap (blocks c.list (l₁ ++ i :: l₂) ++ l)) (hi : i ∉ l₁ ++ l₂)
    (hl : mylistDel c.links (.slot i) = .ok links) :
    ∃ heap, c.listDel i = .ok ⟨heap,
        Function.update c.list i { c.list i with domainName := none, ip := none }, links, c.set, c.length⟩ ∧
      Owns heap (blocks (Function.update c.list i { c.list i with domainName := none, ip := none }) (l₁ ++ l₂) ++ l) ∧
      heap.val = c.heap.val := by
  have hperm : (blocks c.list (l₁ ++ i :: l₂) ++ l).Perm ((c.list i).blocks ++ (blocks c.list (l₁ ++ l₂) ++ l)) :=
    ((blocks_concat l₁ i l₂).append_right l).trans (by rw [List.append_assoc])
  obtain ⟨heap, hdel, ho', hv⟩ := listDel_ok (ho.perm hperm) hl
  refine ⟨heap, hdel, ?_, hv⟩
  rw [blocks_congr fun j hj => Function.update_of_ne (show j ≠ i from fun he => hi (he ▸ hj)) _ c.list]
  exact ho'

theorem Rep.insert_full {l₁ : List Nat} {tail : Nat} (h : Rep N c (l₁ ++ [tail]) l) (hN : l₁.length + 1 = N)
    (A : Allocator) {r : Record} (hg : Given c l p e r) :
    ∃ c', c.cacheInsert A N p = .ok c' ∧ Rep N c' (tail :: l₁) l ∧
      (∀ i ∈ tail :: l₁, c'.view.list i = if tail = i then r.entry else c.view.list i) ∧
      ∀ a ∈ l, c'.heap.val a = c.heap.val a := by
  obtain ⟨d, hins, hd, hlist⟩ := h.tidy.insert_full hN r
  have hlen : ¬ c.length < N := by
    have : c.length = (l₁ ++ [tail]).length := h.tidy.length
    rw [List.length_append, List.length_singleton, hN] at this
    omega
  have ht : tail ∉ l₁ ++ [] := (List.nodup_middle.1 h.tidy.nodup).notMem
  have hr := h.tidy.ring
  rw [LRUCache.map_slot_append] at hr
  have hprev : deref (c.links.prev .head) = .ok (.slot tail) := by
    have : c.links.prev .head = some (.slot tail) := by
      rw [show c.links = c.view.links from rfl, hr.prev_head, List.map_nil, List.getLastD_concat]
    rw [this]
    rfl
  have hlast : mylistIsLast c.links (.slot tail) .head = true := by
    rw [mylistIsLast, show c.links = c.view.links from rfl, hr.next_mid]
    simp
  rw [LRUCache.cacheInsert, if_neg (show ¬ c.view.length < N from hlen),
    show deref (c.view.links.prev .head) = .ok (.slot tail) from hprev] at hins
  simp only [ok_bind] at hins
  rw [if_pos (show mylistIsLast c.view.links (.slot tail) .head = true from hlast)] at hins
  obtain ⟨d₁, hdel, hins⟩ := bind_ok.1 hins
  obtain ⟨links₁, hl₁, hdel⟩ := bind_ok.1 hdel
  cases hdel
  obtain ⟨links₂, hl₂, hins⟩ := bind_ok.1 hins
  cases hins
  obtain ⟨heap₁, hdel, ho₁, hv₁⟩ := listDel_slot h.owns ht hl₁
  rw [List.append_nil] at ht ho₁
  set list₁ := Function.update c.list tail { c.list tail with domainName := none, ip := none } with hlist₁
  have hview₁ : e.view heap₁ = r.entry := (PtrEntry.view_congr fun a _ => congrFun hv₁ a).trans hg.view
  obtain ⟨heap₂, e', hadd, ho₂, he', hv₂⟩ := listAdd_ok (i := tail) (c := ⟨heap₁, list₁, links₁, c.set, c.length⟩) A ho₁
    (hview₁ ▸ r.named) (fun a ha => List.mem_append_right _ (hg.sub ha)) hl₂
  have hview : ∀ j ∈ tail :: l₁,
      (Function.update list₁ tail e' j).view heap₂ = if tail = j then r.entry else c.view.list j := by
    intro j hj
    rw [view_fill (c := ⟨heap₁, list₁, links₁, c.set, c.length⟩) (he'.trans hview₁)
      (fun a ha => hv₂ a (List.mem_append_left _ ha)) j hj]
    by_cases htj : tail = j
    · rw [if_pos htj, if_pos htj]
    · rw [if_neg htj, if_neg htj]
      show (list₁ j).view heap₁ = _
      rw [hlist₁, Function.update_of_ne (Ne.symm htj)]
      exact PtrEntry.view_congr fun a _ => congrFun hv₁ a
  have hupd : ∀ j, j ≠ tail → Function.update list₁ tail e' j = c.list j := by
    intro j hj
    rw [Function.update_of_ne hj, hlist₁, Function.update_of_ne hj]
  refine ⟨⟨heap₂, Function.update list₁ tail e', links₂, c.set, c.length⟩, ?_, ⟨?_, fun i j hj hij hi => ?_, ?_⟩, hview,
    fun a ha => ?_⟩
  · have hentry := entryAt_ok ho₁ (List.mem_append_right _ hg.mem) ((congrFun hv₁ p).trans hg.val)
    simp only [cacheInsert, if_neg hlen, lift_ok hprev, if_pos hlast, hdel, hentry, hadd, bind, Except.bind]
  · exact tidy_congr hd rfl rfl rfl fun j hj => (hview j hj).trans (hlist j).symm
  · rw [List.mem_cons, not_or] at hi
    show (Function.update list₁ tail e' i).blocks = []
    rw [hupd i hi.1]
    exact h.clear i j (by simpa [or_comm] using hj) hij (by simpa [or_comm] using hi)
  · show Owns heap₂ (blocks (Function.update list₁ tail e') (tail :: l₁) ++ l)
    rw [blocks_fill ht, List.append_assoc]
    exact ho₂
  · rw [hv₂ a (List.mem_append_right _ ha), hv₁]

/-! ### The scan -/

/-- The slots of `l₂` that a walk from reading `k` on leaves. -/
def live (clk : Nat → Nat) (k : Nat) (c : HeapCache) (l₂ : List Nat) : List Nat :=
  Recency.keep (fun k i => LRUCache.alive clk k (c.view.list i)) k l₂

theorem mylistDel_ok {l₁ l₂ : List Nat} (hr : IsRing c.links .head ((l₁ ++ i :: l₂).map Node.slot)) :
    ∃ links, mylistDel c.links (.slot i) = .ok links ∧ IsRing links .head ((l₁ ++ l₂).map .slot) ∧
      c.view.listDel i = .ok { c.view with
        list := Function.update c.view.list i { c.view.list i with domainName := none, ip := none }
        links := links } := by
  obtain ⟨links, hdel, hr', -⟩ := LRUCache.listDel_ok (c := c.view) hr
  obtain ⟨links', hl, he⟩ := bind_ok.1 hdel
  cases he
  exact ⟨links, hl, hr', hdel⟩

/-- Clearing the pointers of a slot clears the strings that are seen. -/
theorem view_clear (hv : heap.val = c.heap.val) (links : Links Node) (set : Nat → Bool) (length : Int) :
    (⟨heap, Function.update c.list i { c.list i with domainName := none, ip := none }, links, set, length⟩ :
      HeapCache).view =
    ⟨Function.update c.view.list i { c.view.list i with domainName := none, ip := none }, links, set, length⟩ := by
  have hlist : (fun j => (Function.update c.list i { c.list i with domainName := none, ip := none } j).view heap) =
      Function.update c.view.list i { c.view.list i with domainName := none, ip := none } := by
    funext j
    by_cases hji : j = i
    · subst hji
      rw [Function.update_self, Function.update_self]
      rfl
    · rw [Function.update_of_ne hji, Function.update_of_ne hji]
      exact PtrEntry.view_congr fun a _ => congrFun hv a
  simp only [view]
  rw [hlist]
  rfl

theorem scanLoop_ok (clk : Nat → Nat) {l₁ l₂ : List Nat} (h : LRUCache.WellFormed N c.view (l₁ ++ l₂))
    (ho : Owns c.heap (blocks c.list (l₁ ++ l₂) ++ l)) {fuel : Nat} (hfuel : l₂.length < fuel) (k : Nat) (flag : Bool) :
    ∃ c' flag', scanLoop clk fuel k ((l₂.map Node.slot).headD .head) c flag = .ok (c', flag') ∧
      LRUCache.scanLoop clk fuel k ((l₂.map Node.slot).headD .head) c.view flag = .ok (c'.view, flag') ∧
      Owns c'.heap (blocks c'.list (l₁ ++ live clk k c l₂) ++ l) ∧ c'.heap.val = c.heap.val ∧
      (∀ j ∈ l₂, j ∉ live clk k c l₂ → (c'.list j).blocks = []) ∧ ∀ j ∉ l₂, c'.list j = c.list j := by
  induction l₂ generalizing c l₁ fuel k flag with
  | nil =>
    obtain ⟨fuel, rfl⟩ := Nat.exists_eq_add_one.2 hfuel
    exact ⟨c, flag, rfl, rfl, ho, rfl, fun _ hj => (by cases hj), fun _ _ => rfl⟩
  | cons i l₂ ih =>
    obtain ⟨fuel, rfl⟩ := Nat.exists_eq_add_one.2 (Nat.zero_lt_of_lt hfuel)
    have hr := h.ring
    rw [LRUCache.map_slot_append] at hr
    have hi : i ∉ l₁ ++ l₂ := (List.nodup_middle.1 h.nodup).notMem
    have hi₂ : i ∉ l₂ := fun hm => hi (List.mem_append_right _ hm)
    rw [List.length_cons] at hfuel
    simp only [List.map_cons, List.headD_cons, scanLoop, LRUCache.scanLoop]
    by_cases hal : LRUCache.alive clk k (c.view.list i) = true
    · have hcond : ¬ (c.list i).timestamp < clk k := not_lt.2 (of_decide_eq_true hal)
      have hlive : live clk k c (i :: l₂) = i :: live clk (k + 1) c l₂ := if_pos hal
      have hnext : deref (c.links.next (.slot i)) = .ok ((l₂.map Node.slot).headD .head) := by
        rw [show c.links = c.view.links from rfl, hr.next_mid]
        rfl
      have hassoc : (l₁ ++ [i]) ++ l₂ = l₁ ++ i :: l₂ := by rw [List.append_assoc]; rfl
      obtain ⟨c', flag', h₁, h₂, h₃, h₄, h₅, h₆⟩ := ih
        (show LRUCache.WellFormed N c.view ((l₁ ++ [i]) ++ l₂) by rwa [hassoc]) (by rwa [hassoc])
        (show l₂.length < fuel by omega) (k + 1) flag
      rw [if_neg hcond, if_neg (show ¬ (c.view.list i).timestamp < clk k from hcond)]
      refine ⟨c', flag', ?_, ?_, ?_, h₄, fun j hj hj' => ?_, fun j hj => ?_⟩
      · rw [lift_ok hnext]
        exact h₁
      · rw [show deref (c.view.links.next (.slot i)) = .ok ((l₂.map Node.slot).headD .head) from hnext]
        exact h₂
      · rw [hlive, ← List.singleton_append, ← List.append_assoc l₁]
        exact h₃
      · rw [hlive, List.mem_cons, not_or] at hj'
        exact h₅ j ((List.mem_cons.1 hj).resolve_left hj'.1) hj'.2
      · exact h₆ j fun hm => hj (List.mem_cons_of_mem _ hm)
    · have hcond : (c.list i).timestamp < clk k := not_le.1 fun hle => hal (decide_eq_true hle)
      obtain ⟨links, hl, hr', hdelv⟩ := mylistDel_ok (c := c) h.ring
      obtain ⟨heap, hdel, ho', hv⟩ := listDel_slot ho hi hl
      have hprev : deref (c.links.prev (.slot i)) = .ok ((l₁.map Node.slot).getLastD .head) := by
        rw [show c.links = c.view.links from rfl, hr.prev_mid]
        rfl
      have hfirst : deref (links.next ((l₁.map Node.slot).getLastD .head)) =
          .ok ((l₂.map Node.slot).headD .head) := by
        rw [List.map_append] at hr'
        rw [hr'.joined_seam.1]
        rfl
      set list := Function.update c.list i { c.list i with domainName := none, ip := none } with hlist
      have hview : (⟨heap, list, links, Function.update c.set i false, c.length - 1⟩ : HeapCache).view =
          ⟨Function.update c.view.list i { c.view.list i with domainName := none, ip := none }, links,
            Function.update c.set i false, c.length - 1⟩ := view_clear hv ..
      have hw : LRUCache.WellFormed N ⟨Function.update c.view.list i { c.view.list i with domainName := none, ip := none },
          links, Function.update c.view.set i false, c.view.length - 1⟩ (l₁ ++ l₂) := h.free hr'
      have hlive : live clk k c (i :: l₂) =
          live clk (k + 1) ⟨heap, list, links, Function.update c.set i false, c.length - 1⟩ l₂ := by
        refine (if_neg hal).trans (Recency.keep_congr fun k j hj => ?_)
        rw [hview]
        have hji : j ≠ i := fun he => hi₂ (he ▸ hj)
        show _ = LRUCache.alive clk k (Function.update c.view.list i _ j)
        rw [Function.update_of_ne hji]
      obtain ⟨c', flag', h₁, h₂, h₃, h₄, h₅, h₆⟩ := ih
        (c := ⟨heap, list, links, Function.update c.set i false, c.length - 1⟩) (hview ▸ hw) ho'
        (show l₂.length < fuel by omega) (k + 1) true
      rw [if_pos hcond, if_pos (show (c.view.list i).timestamp < clk k from hcond)]
      refine ⟨c', flag', ?_, ?_, hlive ▸ h₃, h₄.trans hv, fun j hj hj' => ?_, fun j hj => ?_⟩
      · rw [lift_ok hprev]
        simp only [bind, Except.bind, hdel, lift_ok hfirst]
        exact h₁
      · rw [show deref (c.view.links.prev (.slot i)) = .ok ((l₁.map Node.slot).getLastD .head) from hprev]
        simp only [ok_bind, hdelv, hfirst]
        rw [hview] at h₂
        exact h₂
      · rw [hlive] at hj'
        by_cases hj₂ : j ∈ l₂
        · exact h₅ j hj₂ hj'
        · obtain rfl := (List.mem_cons.1 hj).resolve_right hj₂
          rw [h₆ j hj₂, hlist]
          simp [PtrEntry.blocks]
      · rw [List.mem_cons, not_or] at hj
        rw [h₆ j hj.2]
        exact Function.update_of_ne hj.1 _ c.list

theorem Rep.scan (h : Rep N c slots l) (clk : Nat → Nat) :
    ∃ c', c.cacheScan N clk = .ok (c', decide ((LRUCache.kept clk c.view slots).length < slots.length)) ∧
      Rep N c' (LRUCache.kept clk c.view slots) l ∧
      (∀ i ∈ LRUCache.kept clk c.view slots, c'.view.list i = c.view.list i) ∧ c'.heap.val = c.heap.val := by
  obtain ⟨d, hscan, hd, hlist⟩ := h.tidy.scan clk
  obtain ⟨c', flag', h₁, h₂, h₃, h₄, h₅, h₆⟩ := scanLoop_ok clk
    (show LRUCache.WellFormed N c.view ([] ++ slots) from h.tidy.toWellFormed) h.owns
    (LRUCache.lt_walkFuel h.tidy.length_le) 0 false
  have hnext : deref (c.links.next .head) = .ok ((slots.map Node.slot).headD .head) := by
    rw [show c.links = c.view.links from rfl, h.tidy.next_head]
    rfl
  rw [LRUCache.cacheScan, show deref (c.view.links.next .head) = .ok ((slots.map Node.slot).headD .head) from hnext]
    at hscan
  cases h₂.symm.trans hscan
  have hsub : LRUCache.kept clk c.view slots ⊆ slots := (Recency.keep_sublist _ _ _).subset
  refine ⟨c', ?_, ⟨hd, fun i j hj hij hi => ?_, h₃⟩, hlist, h₄⟩
  · simp only [cacheScan, lift_ok hnext, bind, Except.bind]
    exact h₁
  · by_cases him : i ∈ slots
    · exact h₅ i him hi
    · rw [h₆ i him]
      exact h.clear i j (hsub hj) hij him

/-! ### The flush -/

theorem flushLoop_ok {n : Nat} (hr : IsRing c.links .head (slots.map Node.slot))
    (ho : Owns c.heap (blocks c.list slots ++ l)) (hmem : ∀ k < n, i + k ∈ slots) :
    ∃ c' slots', flushLoop n i c = .ok c' ∧ LRUCache.flushLoop n i c.view = .ok c'.view ∧
      slots'.length + n = slots.length ∧ Owns c'.heap (blocks c'.list slots' ++ l) ∧ c'.heap.val = c.heap.val := by
  induction n generalizing i c slots with
  | zero => exact ⟨c, slots, rfl, rfl, rfl, ho, rfl⟩
  | succ n ih =>
    have hi : i ∈ slots := hmem 0 (Nat.succ_pos n)
    obtain ⟨l₁, l₂, rfl⟩ := List.append_of_mem hi
    have hn : i ∉ l₁ ++ l₂ := (List.nodup_middle.1 (hr.nodup_tail.of_map Node.slot)).notMem
    obtain ⟨links, hl, hr', hdelv⟩ := mylistDel_ok hr
    obtain ⟨heap, hdel, ho', hv⟩ := listDel_slot ho hn hl
    have hmem' : ∀ k < n, i + 1 + k ∈ l₁ ++ l₂ := by
      intro k hk
      have := hmem (k + 1) (Nat.succ_lt_succ hk)
      simp only [List.mem_append, List.mem_cons] at this ⊢
      rw [show i + 1 + k = i + (k + 1) by omega]
      exact this.imp_right fun h => h.resolve_left (by omega)
    obtain ⟨c', slots', h₁, h₂, h₃, h₄, h₅⟩ := ih (c := ⟨heap,
      Function.update c.list i { c.list i with domainName := none, ip := none }, links, c.set, c.length⟩) hr' ho' hmem'
    rw [view_clear hv] at h₂
    refine ⟨c', slots', ?_, ?_, ?_, h₄, h₅.trans hv⟩
    · simp only [flushLoop, hdel, bind, Except.bind]
      exact h₁
    · rw [LRUCache.flushLoop, hdelv]
      exact h₂
    · simp only [List.length_append, List.length_cons] at h₃ ⊢
      omega

theorem flushLoop_null {n : Nat} (hr : IsRing c.links .head (slots.map Node.slot))
    (ho : Owns c.heap (blocks c.list slots ++ l)) (hout : ∃ k < n, i + k ∉ slots)
    (hnull : ∀ k < n, i + k ∉ slots → c.links.next (.slot (i + k)) = none ∧ (c.list (i + k)).blocks = []) :
    flushLoop n i c = .error (.fault .null) := by
  induction n generalizing i c slots with
  | zero =>
    obtain ⟨k, hk, -⟩ := hout
    exact absurd hk (Nat.not_lt_zero k)
  | succ n ih =>
    by_cases hi : i ∈ slots
    · obtain ⟨l₁, l₂, rfl⟩ := List.append_of_mem hi
      have hn : i ∉ l₁ ++ l₂ := (List.nodup_middle.1 (hr.nodup_tail.of_map Node.slot)).notMem
      obtain ⟨links, hl, hr', hdelv⟩ := mylistDel_ok hr
      obtain ⟨heap, hdel, ho', -⟩ := listDel_slot ho hn hl
      have hframe : ∀ j ∉ l₁ ++ i :: l₂, links.next (.slot j) = c.links.next (.slot j) := by
        obtain ⟨links', hdel', -, -, hframe⟩ := LRUCache.listDel_ok (c := c.view) hr
        cases hdelv.symm.trans hdel'
        exact hframe
      have hiff (k : Nat) : i + 1 + k ∉ l₁ ++ l₂ ↔ i + (k + 1) ∉ l₁ ++ i :: l₂ := by
        rw [show i + 1 + k = i + (k + 1) by omega, List.mem_append, List.mem_append, List.mem_cons,
          or_iff_right (show ¬ i + (k + 1) = i by omega)]
      simp only [flushLoop, hdel, bind, Except.bind]
      refine ih hr' ho' ?_ fun k hk hmem => ?_
      · obtain ⟨k, hk, hmem⟩ := hout
        cases k with
        | zero => exact absurd hi hmem
        | succ k => exact ⟨k, Nat.lt_of_succ_lt_succ hk, (hiff k).2 hmem⟩
      · have hmem := (hiff k).1 hmem
        obtain ⟨hnext, hblocks⟩ := hnull (k + 1) (Nat.succ_lt_succ hk) hmem
        have hne : i + (k + 1) ≠ i := by omega
        rw [show i + 1 + k = i + (k + 1) by omega]
        refine ⟨(hframe _ hmem).trans hnext, ?_⟩
        rw [← hblocks]
        exact congrArg PtrEntry.blocks (Function.update_of_ne hne _ c.list)
    · obtain ⟨hnext, hblocks⟩ := hnull 0 (Nat.succ_pos n) hi
      obtain ⟨heap, hfree, -⟩ := freeStrings_ok (l := blocks c.list slots ++ l) (e := c.list i) (by
        rw [show (c.list i).blocks = [] from hblocks]
        exact ho)
      have hdel : mylistDel c.links (.slot i) = .error .null := by
        rw [mylistDel, mylistUnlink, show c.links.next (.slot i) = none from hnext]
        rfl
      simp only [flushLoop, listDel, hfree, hdel, bind, Except.bind]
      rfl

theorem Rep.flush (h : Rep N c slots l) (hc : c.view.Compact) :
    ∃ c', c.cacheFlush N = .ok c' ∧ Rep N c' [] l ∧ c'.heap.val = c.heap.val := by
  obtain ⟨d, hflush, -, hd, -⟩ := h.tidy.flush_ok hc
  have hlen : c.length.toNat = slots.length := by
    rw [show c.length = slots.length from h.tidy.length, Int.toNat_natCast]
  obtain ⟨c', slots', h₁, h₂, h₃, h₄, h₅⟩ := flushLoop_ok (n := slots.length) (i := 0) h.tidy.ring h.owns fun k hk => by
    rw [Nat.zero_add]
    exact h.tidy.compact_iff.1 hc k hk
  obtain rfl : slots' = [] := List.eq_nil_of_length_eq_zero (by omega)
  rw [LRUCache.cacheFlush, show c.view.length.toNat = slots.length from hlen, h₂] at hflush
  cases hflush
  have hflush : c.cacheFlush N = .ok { c' with
      links := ⟨Function.update c'.links.next .head (some .head), Function.update c'.links.prev .head (some .head)⟩
      set := fun i => if i < N then false else c'.set i
      length := 0 } := by
    simp only [cacheFlush, hlen, h₁, bind, Except.bind]
    rfl
  exact ⟨_, hflush, ⟨⟨hd, fun i hi => (by cases hi), fun _ _ hj => by cases hj⟩, fun _ _ hj => (by cases hj), h₄⟩, h₅⟩

theorem Rep.flush_null (h : Rep N c slots l) (hc : ¬ c.view.Compact) : c.cacheFlush N = .error (.fault .null) := by
  have hlen : c.length.toNat = slots.length := by
    rw [show c.length = slots.length from h.tidy.length, Int.toNat_natCast]
  have hout : ∃ i < slots.length, i ∉ slots := by
    rw [h.tidy.compact_iff] at hc
    push Not at hc
    exact hc
  have hloop : flushLoop slots.length 0 c = .error (.fault .null) := by
    refine flushLoop_null h.tidy.ring h.owns (by simpa only [Nat.zero_add] using hout) fun k hk hmem => ?_
    rw [Nat.zero_add] at hmem ⊢
    obtain ⟨j, hj, hlt⟩ := LRUCache.exists_above h.tidy.nodup hk hmem
    exact ⟨h.tidy.null k j hj hlt hmem, h.clear k j hj hlt hmem⟩
  simp only [cacheFlush, hlen, hloop, bind, Except.bind]

/-! ### The query -/

/-- The strings of the records found. -/
def resultBlocks (found : List (PtrEntry × Nat)) : List Nat := found.flatMap fun x => x.1.blocks

def resultView (h : Heap Cell) (found : List (PtrEntry × Nat)) : List (DNSEntry × Nat) :=
  found.map fun x => (x.1.view h, x.2)

theorem resultView_congr {h h' : Heap Cell} {found : List (PtrEntry × Nat)}
    (hv : ∀ a ∈ resultBlocks found, h'.val a = h.val a) : resultView h' found = resultView h found :=
  List.map_congr_left fun x hx => by
    rw [PtrEntry.view_congr fun a ha => hv a (List.mem_flatMap.2 ⟨x, hx, ha⟩)]

/-- The entry of the query, with its name, belongs to the caller. -/
structure Asked (c : HeapCache) (l : List Nat) (p : Nat) (e : PtrEntry) (name : List UInt8) (w : Nat) : Prop where
  mem : p ∈ l
  val : c.heap.val p = .entry e
  ptr : e.domainName = some w
  word : w ∈ l
  text : c.heap.val w = .text name

theorem queryLoop_ok (A : Allocator) (clk : Nat → Nat) {name : List UInt8} {w : Nat} (hq : Asked c l p e name w)
    {m : List Nat}
    {l₁ l₂ : List Nat} (h : LRUCache.WellFormed N c.view (l₁ ++ l₂))
    (hnamed : ∀ i ∈ l₂, LRUCache.Named (c.view.list i)) {fuel : Nat} (hfuel : l₂.length < fuel) (k : Nat)
    {acc : List (PtrEntry × Nat)} (hacc : acc.length + l₂.length ≤ N)
    (ho : Owns heap (resultBlocks acc ++ (m ++ (blocks c.list (l₁ ++ l₂) ++ l))))
    (hv : ∀ a ∈ blocks c.list (l₁ ++ l₂) ++ l, heap.val a = c.heap.val a) :
    ∃ heap' found, queryLoop A N clk c p fuel k ((l₂.map Node.slot).headD .head) heap acc = .ok (heap', found) ∧
      Owns heap' (resultBlocks found ++ (m ++ (blocks c.list (l₁ ++ l₂) ++ l))) ∧
      (∀ a ∈ blocks c.list (l₁ ++ l₂) ++ l, heap'.val a = c.heap.val a) ∧
      resultView heap' found = resultView heap acc ++
        (Recency.keep (fun k i => LRUCache.hit clk name e.type k (c.view.list i)) k l₂).map
          fun i => (c.view.list i, i) := by
  induction l₂ generalizing l₁ fuel k heap acc with
  | nil =>
    obtain ⟨fuel, rfl⟩ := Nat.exists_eq_add_one.2 hfuel
    exact ⟨heap, acc, rfl, ho, hv, (List.append_nil _).symm⟩
  | cons i l₂ ih =>
    obtain ⟨fuel, rfl⟩ := Nat.exists_eq_add_one.2 (Nat.zero_lt_of_lt hfuel)
    have hr := h.ring
    rw [LRUCache.map_slot_append] at hr
    have hassoc : (l₁ ++ [i]) ++ l₂ = l₁ ++ i :: l₂ := by rw [List.append_assoc]; rfl
    have hnamed' : ∀ j ∈ l₂, LRUCache.Named (c.view.list j) := fun j hj => hnamed j (List.mem_cons_of_mem _ hj)
    have hnext : deref (c.links.next (.slot i)) = .ok ((l₂.map Node.slot).headD .head) := by
      rw [show c.links = c.view.links from rfl, hr.next_mid]
      rfl
    obtain ⟨a, b, s, t, ha, hb, hs, ht, hblocks, hview⟩ := PtrEntry.exists_of_named (hnamed i List.mem_cons_self)
    have hsub : ∀ x ∈ (c.list i).blocks, x ∈ blocks c.list (l₁ ++ i :: l₂) ++ l := fun x hx =>
      List.mem_append_left _ (mem_blocks (by simp) hx)
    have ham := hsub a (by simp [hblocks])
    have hbm := hsub b (by simp [hblocks])
    have hin : ∀ x ∈ blocks c.list (l₁ ++ i :: l₂) ++ l,
        x ∈ resultBlocks acc ++ (m ++ (blocks c.list (l₁ ++ i :: l₂) ++ l)) := fun x hx =>
      List.mem_append_right _ (List.mem_append_right _ hx)
    have hpm := List.mem_append_right (blocks c.list (l₁ ++ i :: l₂)) hq.mem
    have hwm := List.mem_append_right (blocks c.list (l₁ ++ i :: l₂)) hq.word
    have htext := text_ok ho (hin a ham) ((hv a ham).trans hs)
    have hentry := entryAt_ok ho (hin p hpm) ((hv p hpm).trans hq.val)
    have hword := text_ok ho (hin w hwm) ((hv w hwm).trans hq.text)
    rw [List.length_cons] at hfuel hacc
    simp only [List.map_cons, List.headD_cons, queryLoop, ha, hb, htext, hentry, hq.ptr, hword, bind, Except.bind]
    have hlist : c.view.list i = ⟨some s, some t, (c.list i).type, (c.list i).addition, (c.list i).timestamp⟩ := hview
    rw [Recency.keep]
    by_cases hhit : LRUCache.hit clk name e.type k (c.view.list i) = true
    · have hcond : s = name ∧ clk k ≤ (c.list i).timestamp ∧ (c.list i).type = e.type := by
        simpa [LRUCache.hit, hlist] using hhit
      obtain ⟨a', h₁, hc₁, ho₁, hs₁, hv₁⟩ := copyAt_ok ho A (hin a ham) ((hv a ham).trans hs)
      have ht₁ := text_ok ho₁ (List.mem_cons_of_mem _ (hin b hbm)) ((hv₁ b (hin b hbm)).trans ((hv b hbm).trans ht))
      obtain ⟨b', h₂, hc₂, ho₂, ht₂, hv₂⟩ := copyText_ok ho₁ A t
      have hroom : acc.length < N := by omega
      have hkeep : ∀ x ∈ resultBlocks acc ++ (m ++ (blocks c.list (l₁ ++ i :: l₂) ++ l)), h₂.val x = heap.val x :=
        fun x hx => (hv₂ x (List.mem_cons_of_mem _ hx)).trans (hv₁ x hx)
      rw [if_pos hcond, if_pos hhit]
      simp only [hc₁, ht₁, hc₂, if_pos hroom, lift_ok hnext]
      set e' : PtrEntry := ⟨some a', some b', (c.list i).type, (c.list i).addition, (c.list i).timestamp⟩ with he'
      have hown : resultBlocks (acc ++ [(e', i)]) = resultBlocks acc ++ [a', b'] := by
        simp [resultBlocks, PtrEntry.blocks, he']
      have hperm : (b' :: a' :: (resultBlocks acc ++ (m ++ (blocks c.list (l₁ ++ i :: l₂) ++ l)))).Perm
          (resultBlocks (acc ++ [(e', i)]) ++ (m ++ (blocks c.list (l₁ ++ i :: l₂) ++ l))) := by
        rw [hown]
        refine List.perm_iff_count.2 fun x => ?_
        simp only [List.count_append, List.count_cons, List.count_nil]
        ac_rfl
      obtain ⟨heap', found, h₁', h₂', h₃', h₄'⟩ := ih
        (show LRUCache.WellFormed N c.view ((l₁ ++ [i]) ++ l₂) by rwa [hassoc]) hnamed'
        (show l₂.length < fuel by omega) (k + 1) (show (acc ++ [(e', i)]).length + l₂.length ≤ N by simp; omega)
        (by rw [hassoc]; exact ho₂.perm hperm)
        (by rw [hassoc]; exact fun x hx => (hkeep x (hin x hx)).trans (hv x hx))
      rw [hassoc] at h₂' h₃'
      have hnew : e'.view h₂ = c.view.list i := by
        rw [hlist]
        simp [he', PtrEntry.view, textOf, (hv₂ a' List.mem_cons_self).trans hs₁, ht₂]
      refine ⟨heap', found, h₁', h₂', h₃', ?_⟩
      rw [h₄', resultView, List.map_append]
      show resultView h₂ acc ++ [(e'.view h₂, i)] ++ _ = _
      rw [resultView_congr fun x hx => hkeep x (List.mem_append_left _ hx), hnew, List.append_assoc]
      rfl
    · have hcond : ¬ (s = name ∧ clk k ≤ (c.list i).timestamp ∧ (c.list i).type = e.type) := by
        simpa [LRUCache.hit, hlist] using hhit
      rw [if_neg hcond, if_neg hhit]
      simp only [lift_ok hnext]
      obtain ⟨heap', found, h₁, h₂, h₃, h₄⟩ := ih
        (show LRUCache.WellFormed N c.view ((l₁ ++ [i]) ++ l₂) by rwa [hassoc]) hnamed'
        (show l₂.length < fuel by omega) (k + 1) (show acc.length + l₂.length ≤ N by omega) (by rwa [hassoc])
        (by rwa [hassoc])
      rw [hassoc] at h₂ h₃
      exact ⟨heap', found, h₁, h₂, h₃, h₄⟩

/-- What is released of the records found: their strings, or nothing. -/
theorem takeResults_ok {h : Heap Cell} {es : List PtrEntry} (cached : Bool)
    (ho : Owns h (es.flatMap PtrEntry.blocks ++ l)) (hn : ∀ e ∈ es, LRUCache.Named (e.view h)) :
    ∃ h', takeResults cached h es = .ok (h', es.map (PtrEntry.view h)) ∧
      Owns h' ((if cached then [] else es.flatMap PtrEntry.blocks) ++ l) ∧ h'.val = h.val := by
  induction es generalizing h l with
  | nil => exact ⟨h, rfl, by simpa using ho, rfl⟩
  | cons e es ih =>
    obtain ⟨a, b, s, t, ha, hb, hs, ht, hblocks, hview⟩ := PtrEntry.exists_of_named (hn e List.mem_cons_self)
    rw [List.flatMap_cons, List.append_assoc] at ho
    have hta := text_ok ho (List.mem_append_left _ (by simp [hblocks])) hs
    have htb := text_ok ho (List.mem_append_left _ (by simp [hblocks])) ht
    obtain ⟨h₁, hf, ho₁, hv₁⟩ : ∃ h₁, (if cached then freeStrings h e else .ok h) = .ok h₁ ∧
        Owns h₁ (es.flatMap PtrEntry.blocks ++ ((if cached then [] else e.blocks) ++ l)) ∧ h₁.val = h.val := by
      cases cached with
      | true => exact freeStrings_ok ho
      | false => exact ⟨h, rfl, ho.perm (List.perm_append_comm_assoc _ _ _), rfl⟩
    have hviews : ∀ e : PtrEntry, e.view h₁ = e.view h := fun e => PtrEntry.view_congr fun a _ => congrFun hv₁ a
    obtain ⟨h₂, htake, ho₂, hv₂⟩ := ih ho₁ fun e' he' => by
      rw [hviews]
      exact hn e' (List.mem_cons_of_mem _ he')
    refine ⟨h₂, ?_, ?_, hv₂.trans hv₁⟩
    · simp only [takeResults, ha, hb, hta, htb, hf, htake, bind, Except.bind]
      rw [List.map_cons, hview, List.map_congr_left fun e _ => hviews e]
      rfl
    · cases cached with
      | true => exact ho₂
      | false =>
        refine ho₂.perm ?_
        rw [if_neg Bool.false_ne_true, if_neg Bool.false_ne_true, if_neg Bool.false_ne_true, List.flatMap_cons,
          List.append_assoc]
        exact List.perm_append_comm_assoc _ _ _

/-- The records found, and the three blocks, belong to the caller. -/
theorem cacheQuery_ok (A : Allocator) (clk : Nat → Nat) {name : List UInt8} {w : Nat} (hq : Asked c l p e name w)
    (h : Rep N c slots l) :
    ∃ heap found result temp cargs, cacheQuery A N clk c p = .ok (heap, found, result, temp, cargs) ∧
      Owns heap (cargs :: temp :: result :: (resultBlocks found ++ (blocks c.list slots ++ l))) ∧
      (∀ a ∈ blocks c.list slots ++ l, heap.val a = c.heap.val a) ∧
      resultView heap found = (LRUCache.found clk name e.type c.view slots).map fun i => (c.view.list i, i) := by
  obtain ⟨result, h₁, hm₁, ho₁, -, hv₁⟩ := h.owns.exists_malloc A .blank
  obtain ⟨temp, h₂, hm₂, ho₂, -, hv₂⟩ := ho₁.exists_malloc A .blank
  have hkeep : ∀ a ∈ blocks c.list slots ++ l, h₂.val a = c.heap.val a := fun a ha =>
    (hv₂ a (List.mem_cons_of_mem _ ha)).trans (hv₁ a ha)
  have hnext : deref (c.links.next .head) = .ok ((slots.map Node.slot).headD .head) := by
    rw [show c.links = c.view.links from rfl, h.tidy.next_head]
    rfl
  obtain ⟨h₃, found, hloop, ho₃, hv₃, hview₃⟩ := queryLoop_ok A clk hq
    (show LRUCache.WellFormed N c.view ([] ++ slots) from h.tidy.toWellFormed) h.tidy.named
    (LRUCache.lt_walkFuel h.tidy.length_le) 0
    (show ([] : List (PtrEntry × Nat)).length + slots.length ≤ N by simpa using h.tidy.length_le)
    (show Owns h₂ (resultBlocks [] ++ ([temp, result] ++ (blocks c.list ([] ++ slots) ++ l))) from ho₂) hkeep
  obtain ⟨cargs, h₄, hm₄, ho₄, -, hv₄⟩ := ho₃.exists_malloc A .blank
  have hperm : (cargs :: (resultBlocks found ++ ([temp, result] ++ (blocks c.list slots ++ l)))).Perm
      (cargs :: temp :: result :: (resultBlocks found ++ (blocks c.list slots ++ l))) := by
    refine List.perm_iff_count.2 fun x => ?_
    simp only [List.count_append, List.count_cons, List.count_nil]
    ac_rfl
  refine ⟨h₄, found, result, temp, cargs, ?_, ho₄.perm hperm, fun a ha => ?_, ?_⟩
  · simp only [cacheQuery, hm₁, hm₂, lift_ok hnext, hloop, hm₄, bind, Except.bind]
    rfl
  · exact (hv₄ a (List.mem_append_right _ (List.mem_append_right _ ha))).trans (hv₃ a ha)
  · rw [resultView_congr fun a ha => hv₄ a (List.mem_append_left _ ha), hview₃]
    rfl

theorem cacheRotate_links {d d' : LRUCache} {is : List Nat} (h : d.cacheRotate is = .ok d') :
    is.foldlM (fun links i => mylistRotateNodeHead links (.slot i) .head) d.links = .ok d'.links := by
  induction is generalizing d with
  | nil =>
    cases h
    rfl
  | cons i is ih =>
    obtain ⟨links, hl, h⟩ := bind_ok.1 h
    rw [List.foldlM_cons, hl]
    exact ih h

theorem Rep.rotate {is : List Nat} {temp args : Nat} (h : Rep N c slots (args :: temp :: l)) (hsub : is ⊆ slots) :
    ∃ c', c.cacheRotate is temp args = .ok c' ∧ Rep N c' (Recency.touch is slots) l ∧ c'.list = c.list ∧
      c'.heap.val = c.heap.val := by
  obtain ⟨d, hrot, hd, hlist⟩ := h.tidy.rotate hsub
  obtain ⟨links, hrot', -, -⟩ := LRUCache.cacheRotate_spec h.tidy.toWellFormed hsub
  cases hrot.symm.trans hrot'
  have hl : is.foldlM (fun links i => mylistRotateNodeHead links (.slot i) .head) c.links = .ok links :=
    cacheRotate_links hrot
  have hperm := Recency.touch_perm hsub
  have hperm₁ : (blocks c.list slots ++ args :: temp :: l).Perm (temp :: args :: (blocks c.list slots ++ l)) := by
    refine List.perm_iff_count.2 fun x => ?_
    simp only [List.count_append, List.count_cons]
    ac_rfl
  obtain ⟨hf₁, ho₁⟩ := (h.owns.perm hperm₁).free
  obtain ⟨hf₂, ho₂⟩ := ho₁.free
  refine ⟨{ c with heap := ⟨(c.heap.live.erase temp).erase args, c.heap.val⟩, links := links }, ?_,
    ⟨tidy_congr hd rfl rfl rfl fun i hi => rfl, fun i j hj hij hi => ?_, ?_⟩, rfl, rfl⟩
  · simp only [cacheRotate, lift_ok hl, onHeap_ok hf₁, onHeap_ok hf₂, bind, Except.bind]
    rfl
  · exact h.clear i j (hperm.mem_iff.1 hj) hij (mt hperm.mem_iff.2 hi)
  · exact ho₂.perm ((hperm.symm.flatMap_right _).append_right l)

theorem hostFlag_ok (ho : Owns heap l) (A : Allocator) (resource : Resource) :
    ∃ flag : List Nat, flag.length = (if resource = .told then 1 else 0) ∧
      Owns (hostFlag A heap resource) (flag ++ l) ∧ ∀ a ∈ l, (hostFlag A heap resource).val a = heap.val a := by
  cases resource with
  | told =>
    obtain ⟨a, heap', hm, ho', -, hv⟩ := ho.exists_malloc A .blank
    refine ⟨[a], (if_pos rfl).symm, ?_, ?_⟩
    all_goals rw [hostFlag, hm]
    · exact ho'
    · exact hv
  | unset cache => exact ⟨[], rfl, ho, fun _ _ => rfl⟩

/-- The query of a lookup: who asked holds the entry with its name, the flag of the search of the host file, the three
blocks and the records found. -/
theorem Rep.ask (h : Rep N c slots l) (A : Allocator) (name : List UInt8) (type : UInt8) (clk : Nat → Nat)
    (resource : Resource) :
    ∃ query heap₁ e heap found result temp cargs, ∃ flag : List Nat,
      entrySet A c.heap (some name) none 0 type 0 (clk 0) = .ok (query, heap₁) ∧
      cacheQuery A N clk { c with heap := hostFlag A heap₁ resource } query =
        .ok (heap, found, result, temp, cargs) ∧
      heap.val query = .entry e ∧ e.blocks.length = 1 ∧ flag.length = (if resource = .told then 1 else 0) ∧
      Owns heap (query :: (e.blocks ++
        cargs :: temp :: result :: (resultBlocks found ++ (blocks c.list slots ++ (flag ++ l))))) ∧
      (∀ a ∈ blocks c.list slots ++ l, heap.val a = c.heap.val a) ∧
      resultView heap found = (LRUCache.found clk name type c.view slots).map fun i => (c.view.list i, i) := by
  obtain ⟨query, heap₁, e, hset, ho₁, he₁, hview₁, hlen, hv₁⟩ := entrySet_ok h.owns A name none 0 type 0 (clk 0)
  obtain ⟨flag, hflag, ho₂, hv₂⟩ := hostFlag_ok ho₁ A resource
  set heap₂ := hostFlag A heap₁ resource with hheap₂
  have hperm₂ : (flag ++ query :: (e.blocks ++ (blocks c.list slots ++ l))).Perm
      (blocks c.list slots ++ query :: (e.blocks ++ (flag ++ l))) := by
    refine List.perm_iff_count.2 fun x => ?_
    simp only [List.count_append, List.count_cons]
    ac_rfl
  have hkept : ∀ a ∈ blocks c.list slots ++ l, heap₂.val a = c.heap.val a := fun a ha =>
    (hv₂ a (List.mem_cons_of_mem _ (List.mem_append_right _ ha))).trans (hv₁ a ha)
  have h₂ := h.withHeap (ho₂.perm hperm₂) fun a ha => hkept a (List.mem_append_left _ ha)
  have he₂ : heap₂.val query = .entry e := (hv₂ query List.mem_cons_self).trans he₁
  have htype : e.type = type := congrArg DNSEntry.type hview₁
  obtain ⟨w, hptr, hw⟩ : ∃ w, e.domainName = some w ∧ heap₁.val w = .text name := by
    have hname : e.domainName.bind (textOf heap₁) = some name := congrArg DNSEntry.domainName hview₁
    obtain ⟨w, hptr, hw⟩ := Option.bind_eq_some_iff.1 hname
    refine ⟨w, hptr, ?_⟩
    unfold textOf at hw
    split at hw
    · cases hw
      assumption
    · cases hw
  have hwmem : w ∈ e.blocks := by simp [PtrEntry.blocks, hptr]
  have hask : Asked { c with heap := heap₂ } (query :: (e.blocks ++ (flag ++ l))) query e name w := by
    refine ⟨List.mem_cons_self, he₂, hptr, List.mem_cons_of_mem _ (List.mem_append_left _ hwmem), ?_⟩
    exact (hv₂ w (List.mem_cons_of_mem _ (List.mem_append_left _ hwmem))).trans hw
  obtain ⟨heap, found, result, temp, cargs, hquery, ho, hv, hfound⟩ := cacheQuery_ok A clk hask h₂
  have hperm : (cargs :: temp :: result :: (resultBlocks found ++
      (blocks c.list slots ++ query :: (e.blocks ++ (flag ++ l))))).Perm
      (query :: (e.blocks ++
        cargs :: temp :: result :: (resultBlocks found ++ (blocks c.list slots ++ (flag ++ l))))) := by
    refine List.perm_iff_count.2 fun x => ?_
    simp only [List.count_append, List.count_cons]
    ac_rfl
  refine ⟨query, heap₁, e, heap, found, result, temp, cargs, flag, hset, hquery, ?_, hlen, hflag, ho.perm hperm,
    fun a ha => ?_, ?_⟩
  · exact (hv query (List.mem_append_right _ List.mem_cons_self)).trans he₂
  · have ha' : a ∈ blocks c.list slots ++ query :: (e.blocks ++ (flag ++ l)) := by
      rcases List.mem_append.1 ha with ha | ha
      · exact List.mem_append_left _ ha
      · exact List.mem_append_right _ (List.mem_cons_of_mem _
          (List.mem_append_right _ (List.mem_append_right _ ha)))
    exact (hv a ha').trans (hkept a ha)
  · -- neither the entry of the query nor the flag is seen in the cache
    have hsame : ∀ i ∈ slots, (c.list i).view heap₂ = c.view.list i := fun i hi =>
      view_list (fun a ha => hkept a (List.mem_append_left _ ha)) hi
    have hkeep : LRUCache.found clk name type ({ c with heap := heap₂ } : HeapCache).view slots =
        LRUCache.found clk name type c.view slots :=
      Recency.keep_congr fun k i hi => congrArg (LRUCache.hit clk name type k) (hsame i hi)
    rw [hfound, htype, hkeep]
    exact List.map_congr_left fun i hi => congrArg (·, i) (hsame i (LRUCache.found_subset hi))

/-- A lookup leaves what `leaked` says. -/
theorem Rep.lookup (h : Rep N c slots l) (A : Allocator) (name : List UInt8) (type : UInt8) (clk : Nat → Nat)
    (resource : Resource) :
    ∃ c' extra, heapStep A N c (.lookup name type clk resource) =
        .ok (c', .found ((LRUCache.found clk name type c.view slots).map c.view.list)) ∧
      extra.length = leaked (.found ((LRUCache.found clk name type c.view slots).map c.view.list))
        (.lookup name type clk resource) ∧
      Rep N c' (Recency.touch (LRUCache.found clk name type c.view slots) slots) (extra ++ l) ∧
      (∀ i ∈ slots, c'.view.list i = c.view.list i) ∧ ∀ a ∈ l, c'.heap.val a = c.heap.val a := by
  obtain ⟨query, heap₁, e, heap₂, found, result, temp, cargs, flag, hset, hquery, he, hlen, hflag, ho₂, hv₂,
    hresult⟩ := h.ask A name type clk resource
  set is := LRUCache.found clk name type c.view slots with his
  have hsub : is ⊆ slots := LRUCache.found_subset
  have hsnd : found.map Prod.snd = is := by
    have := congrArg (List.map Prod.snd) hresult
    simpa [resultView, Function.comp_def] using this
  have hfst : found.map (fun x => x.1.view heap₂) = is.map c.view.list := by
    have := congrArg (List.map Prod.fst) hresult
    simpa [resultView, Function.comp_def] using this
  -- the entry of the query goes, or stays with its name
  obtain ⟨heap₃, m, hfree, hm, ho₃, hv₃⟩ : ∃ heap₃ m,
      (if resource = .told then entryFree heap₂ query else .ok heap₂) = .ok heap₃ ∧
      m.length = (if resource = .told then 0 else 2) ∧
      Owns heap₃ (m ++
        cargs :: temp :: result :: (resultBlocks found ++ (blocks c.list slots ++ (flag ++ l)))) ∧
      heap₃.val = heap₂.val := by
    by_cases hres : resource = .told
    · obtain ⟨heap₃, hfree, ho₃, hv₃⟩ := entryFree_ok ho₂ he
      exact ⟨heap₃, [], by rw [if_pos hres, hfree], (if_pos hres).symm, ho₃, hv₃⟩
    · exact ⟨heap₂, query :: e.blocks, if_neg hres, by simp [hlen, hres], ho₂, rfl⟩
  have hkept : ∀ a ∈ blocks c.list slots ++ l, heap₃.val a = c.heap.val a := fun a ha =>
    (congrFun hv₃ a).trans (hv₂ a ha)
  have hperm₃ : (m ++ cargs :: temp :: result :: (resultBlocks found ++ (blocks c.list slots ++ (flag ++ l)))).Perm
      (blocks c.list slots ++ cargs :: temp :: result :: (resultBlocks found ++ (m ++ (flag ++ l)))) := by
    refine List.perm_iff_count.2 fun x => ?_
    simp only [List.count_append, List.count_cons]
    ac_rfl
  have h₃ := h.withHeap (ho₃.perm hperm₃) fun a ha => hkept a (List.mem_append_left _ ha)
  obtain ⟨c₄, hrot, h₄, hlist₄, hv₄⟩ := h₃.rotate hsub
  have hview₄ : ∀ i ∈ slots, c₄.view.list i = c.view.list i := by
    intro i hi
    show (c₄.list i).view c₄.heap = _
    rw [hlist₄]
    exact view_list (fun a ha => (congrFun hv₄ a).trans (hkept a (List.mem_append_left _ ha))) hi
  have hl₄ : ∀ a ∈ l, c₄.heap.val a = c.heap.val a := fun a ha =>
    (congrFun hv₄ a).trans (hkept a (List.mem_append_right _ ha))
  have hstart : heapStep A N c (.lookup name type clk resource) = takeFound c₄ found result resource := by
    unfold heapStep
    simp only [hset, hquery, hfree, hsnd, hrot, bind, Except.bind]
  by_cases hnone : found = [] ∧ resource = .told
  · obtain ⟨rfl, rfl⟩ := hnone
    obtain rfl : m = [] := List.eq_nil_of_length_eq_zero hm
    have his₀ : is = [] := hsnd.symm
    refine ⟨c₄, result :: flag, ?_, ?_, h₄, hview₄, hl₄⟩
    · rw [hstart, takeFound, if_pos ⟨rfl, rfl⟩, his₀]
      rfl
    · rw [List.length_cons, hflag, his₀]
      rfl
  · have hviews : ∀ x : PtrEntry, x.view c₄.heap = x.view heap₂ := fun x =>
      PtrEntry.view_congr fun a _ => (congrFun hv₄ a).trans (congrFun hv₃ a)
    have hmap : (found.map Prod.fst).map (PtrEntry.view c₄.heap) = is.map c.view.list := by
      rw [← hfst, List.map_map]
      exact List.map_congr_left fun x _ => hviews x.1
    have hperm₄ : (blocks c₄.list (Recency.touch is slots) ++
        result :: (resultBlocks found ++ (m ++ (flag ++ l)))).Perm
        ((found.map Prod.fst).flatMap PtrEntry.blocks ++
          result :: (blocks c₄.list (Recency.touch is slots) ++ (m ++ (flag ++ l)))) := by
      rw [List.flatMap_map, show found.flatMap (fun x => x.1.blocks) = resultBlocks found from rfl]
      refine List.perm_iff_count.2 fun x => ?_
      simp only [List.count_append, List.count_cons]
      ac_rfl
    have hnamed : ∀ x ∈ found.map Prod.fst, LRUCache.Named (x.view c₄.heap) := by
      intro x hx
      have hmem : x.view c₄.heap ∈ is.map c.view.list := hmap ▸ List.mem_map_of_mem hx
      obtain ⟨i, hi, hix⟩ := List.mem_map.1 hmem
      rw [← hix]
      exact h.tidy.named i (hsub hi)
    obtain ⟨heap₅, htake, ho₅, hv₅⟩ := takeResults_ok resource.isCache (h₄.owns.perm hperm₄) hnamed
    set kept := if resource.isCache then [] else (found.map Prod.fst).flatMap PtrEntry.blocks with hkept
    obtain ⟨hf, ho₆⟩ := (ho₅.perm List.perm_middle).free
    have hperm₆ : (kept ++ (blocks c₄.list (Recency.touch is slots) ++ (m ++ (flag ++ l)))).Perm
        (blocks c₄.list (Recency.touch is slots) ++ ((m ++ kept ++ flag) ++ l)) := by
      refine List.perm_iff_count.2 fun x => ?_
      simp only [List.count_append]
      ac_rfl
    have h₆ := h₄.withHeap (ho₆.perm hperm₆) fun a _ => congrFun hv₅ a
    refine ⟨_, m ++ kept ++ flag, ?_, ?_, h₆, fun i hi => ?_, fun a ha => (congrFun hv₅ a).trans (hl₄ a ha)⟩
    · rw [hstart, takeFound, if_neg hnone]
      simp only [htake, bind, Except.bind, onHeap_ok hf, hmap]
      rfl
    · have hlen₆ : kept.length = if resource.isCache then 0 else 2 * is.length := by
        rw [hkept, apply_ite List.length, PtrEntry.length_flatMap_blocks hnamed, List.length_map, ← hsnd,
          List.length_map]
        rfl
      rw [List.length_append, List.length_append, hm, hlen₆, hflag]
      cases resource with
      | told =>
        have his₀ : is ≠ [] := fun he => hnone ⟨List.map_eq_nil_iff.1 (hsnd.trans he), rfl⟩
        simp [leaked, Resource.isCache, his₀]
      | unset cache =>
        rw [leaked, List.length_map]
        rfl
    · rw [← hview₄ i hi]
      exact PtrEntry.view_congr fun a _ => congrFun hv₅ a

/-! ### Every command -/

theorem content_insert {d : LRUCache} {r : Record} {f g : Nat → DNSEntry} {is : List Nat}
    (hf : ∀ j ∈ i :: is, f j = if i = j then r.entry else g j) (hg : ∀ j ∈ is, g j = d.list j) :
    ∀ j ∈ i :: is, f j = LRUCache.content d (i :: is) j (.insert r) := by
  intro j hj
  rw [hf j hj, LRUCache.content, List.head?_cons]
  by_cases hij : i = j
  · rw [if_pos hij, if_pos (congrArg some hij)]
  · rw [if_neg hij, if_neg fun he => hij (Option.some_inj.1 he)]
    exact hg j ((List.mem_cons.1 hj).resolve_left fun he => hij he.symm)

/-- `urlStore` leaves the entry that it filled, and its strings. -/
theorem Rep.store (h : Rep N c slots l) (hN : 1 ≤ N) (A : Allocator) (r : Record) {ttl : UInt32} {now : Nat}
    (ht : r.timestamp = now + ttl.toNat) :
    ∃ c' extra, heapStep A N c (.store r.name r.ip ttl r.type r.addition now) = .ok (c', .done) ∧ extra.length = 3 ∧
      Rep N c' (LRUCache.nextSlots N c.view slots (.insert r)) (extra ++ l) ∧
      (∀ i ∈ LRUCache.nextSlots N c.view slots (.insert r),
        c'.view.list i = LRUCache.content c.view (LRUCache.nextSlots N c.view slots (.insert r)) i (.insert r)) ∧
      ∀ a ∈ l, c'.heap.val a = c.heap.val a := by
  obtain ⟨p, heap₁, e, hset, ho₁, he₁, hview₁, hlen, hv₁⟩ :=
    entrySet_ok h.owns A r.name (some r.ip) ttl r.type r.addition now
  have hperm : (p :: (e.blocks ++ (blocks c.list slots ++ l))).Perm
      (blocks c.list slots ++ ((p :: e.blocks) ++ l)) := by
    refine List.perm_iff_count.2 fun x => ?_
    simp only [List.count_append, List.count_cons]
    ac_rfl
  have h₁ := h.withHeap (ho₁.perm hperm) fun a ha => hv₁ a (List.mem_append_left _ ha)
  have hgiven : Given { c with heap := heap₁ } ((p :: e.blocks) ++ l) p e r := by
    refine ⟨List.mem_append_left _ List.mem_cons_self, he₁, fun a ha => ?_, ?_⟩
    · exact List.mem_append_left _ (List.mem_cons_of_mem _ ha)
    · rw [hview₁, dnsEntrySet, ← ht]
      rfl
  have hview : ∀ i ∈ slots, ({ c with heap := heap₁ } : HeapCache).view.list i = c.view.list i := fun i hi =>
    view_list (fun a ha => hv₁ a (List.mem_append_left _ ha)) hi
  have hstep : ∀ c', cacheInsert A N { c with heap := heap₁ } p = .ok c' →
      heapStep A N c (.store r.name r.ip ttl r.type r.addition now) = .ok (c', .done) := by
    intro c' hins
    unfold heapStep
    simp only [hset, hins, bind, Except.bind]
    rfl
  have hkept : ∀ a ∈ l, heap₁.val a = c.heap.val a := fun a ha => hv₁ a (List.mem_append_right _ ha)
  have hthree : (p :: e.blocks).length = 3 := by
    rw [List.length_cons, hlen]
    rfl
  rw [LRUCache.nextSlots]
  split
  case isTrue hlt =>
    obtain ⟨c', hins, hc', hlist, hv⟩ := h₁.insert_free hlt A hgiven
    refine ⟨c', p :: e.blocks, hstep c' hins, hthree, hc', content_insert hlist hview, fun a ha => ?_⟩
    rw [hv a (List.mem_append_right _ ha), hkept a ha]
  case isFalse hge =>
    obtain ⟨l₁, tail, rfl, htail⟩ := h.tidy.toWellFormed.eq_concat hN hge
    obtain ⟨c', hins, hc', hlist, hv⟩ := h₁.insert_full htail A hgiven
    rw [List.getLastD_concat, List.dropLast_concat]
    refine ⟨c', p :: e.blocks, hstep c' hins, hthree, hc', ?_, fun a ha => ?_⟩
    · exact content_insert hlist fun i hi => hview i (List.mem_append_left _ hi)
    · rw [hv a (List.mem_append_right _ ha), hkept a ha]

/-- What every command but a flush of slots that are not compact does. -/
theorem Rep.step (h : Rep N c slots l) (hN : 1 ≤ N) (A : Allocator) (cmd : HeapCmd)
    (hcmd : cmd.cmd = .flush → c.view.Compact) :
    ∃ c' extra, heapStep A N c cmd = .ok (c', LRUCache.output c.view slots cmd.cmd) ∧
      extra.length = leaked (LRUCache.output c.view slots cmd.cmd) cmd ∧
      Rep N c' (LRUCache.nextSlots N c.view slots cmd.cmd) (extra ++ l) ∧
      (∀ i ∈ LRUCache.nextSlots N c.view slots cmd.cmd,
        c'.view.list i = LRUCache.content c.view (LRUCache.nextSlots N c.view slots cmd.cmd) i cmd.cmd) ∧
      ∀ a ∈ l, c'.heap.val a = c.heap.val a := by
  cases cmd with
  | store name ip ttl type addition now => exact h.store hN A ⟨name, ip, type, addition, now + ttl.toNat⟩ rfl
  | lookup name type clk resource =>
    obtain ⟨c', extra, hstep, hlen, hc', hview, hv⟩ := h.lookup A name type clk resource
    refine ⟨c', extra, hstep, hlen, hc', fun i hi => ?_, hv⟩
    exact hview i ((Recency.touch_perm LRUCache.found_subset).subset hi)
  | scan clk =>
    obtain ⟨c', hscan, hc', hview, hv⟩ := h.scan clk
    refine ⟨c', [], ?_, rfl, hc', hview, fun a _ => congrFun hv a⟩
    simp only [heapStep, hscan, bind, Except.bind]
    rfl
  | flush =>
    obtain ⟨c', hflush, hc', hv⟩ := h.flush (hcmd rfl)
    refine ⟨c', [], ?_, rfl, hc', fun i hi => (by cases hi), fun a _ => congrFun hv a⟩
    simp only [heapStep, hflush, bind, Except.bind]
    rfl

theorem Rep.step_null {cmd : HeapCmd} (h : Rep N c slots l) (hcmd : ¬ (cmd.cmd = .flush → c.view.Compact)) :
    cmd = .flush ∧ ¬ c.view.Compact ∧ heapStep A N c cmd = .error (.fault .null) := by
  obtain ⟨hflush, hc⟩ := Classical.not_imp.1 hcmd
  cases cmd with
  | flush =>
    refine ⟨rfl, hc, ?_⟩
    unfold heapStep
    rw [h.flush_null hc]
    rfl
  | store | lookup | scan => cases hflush

/-- A step that goes through is one that the slots in use allow. -/
theorem Rep.step_inv {cmd : HeapCmd} {out : CmdOut} (h : Rep N c slots l)
    (hstep : heapStep A N c cmd = .ok (c', out)) : cmd.cmd = .flush → c.view.Compact := by
  by_contra hcmd
  rw [(h.step_null hcmd).2.2] at hstep
  cases hstep

theorem Rep.init (N : Nat) (heap : Heap Cell) (list : Nat → PtrEntry) (links : Links Node) :
    Rep N (.init heap list links) [] heap.live.toList where
  tidy := .init N _ links
  clear := fun _ _ hj => by cases hj
  owns := ⟨Finset.nodup_toList _, fun _ => Finset.mem_toList.symm⟩

theorem length_blocks (hn : ∀ i ∈ slots, LRUCache.Named (c.view.list i)) :
    (blocks c.list slots).length = 2 * slots.length := by
  have hlen : ((slots.map c.list).flatMap PtrEntry.blocks).length = 2 * (slots.map c.list).length := by
    refine PtrEntry.length_flatMap_blocks (h := c.heap) fun e he => ?_
    obtain ⟨i, hi, rfl⟩ := List.mem_map.1 he
    exact hn i hi
  rwa [List.flatMap_map, List.length_map] at hlen

/-- The blocks in use. -/
theorem Rep.card (h : Rep N c slots l) : (c.heap.live.card : Int) = l.length + 2 * c.length := by
  have hlen : c.length = slots.length := h.tidy.length
  rw [h.owns.card, List.length_append, length_blocks h.tidy.named, hlen]
  omega

/-! ### Runs -/

/-- A run keeps the blocks that others hold, and leaves behind what its commands do. -/
theorem Rep.run {cmds : List HeapCmd} {outs : List CmdOut} (h : Rep N c slots l) (hN : 1 ≤ N)
    (hrun : Transducer.run (heapStep A N) c cmds = .ok (c', outs)) :
    ∃ slots' extra, Rep N c' slots' (extra ++ l) ∧ extra.length = (List.zipWith leaked outs cmds).sum ∧
      ∀ a ∈ l, c'.heap.val a = c.heap.val a := by
  induction cmds generalizing c slots l outs with
  | nil =>
    cases hrun
    exact ⟨slots, [], h, rfl, fun _ _ => rfl⟩
  | cons cmd cmds ih =>
    obtain ⟨c₁, out, c₂, outs, hstep, hrest, he⟩ := Transducer.run_cons_ok.1 hrun
    cases he
    obtain ⟨c₁', extra, hstep', hlen, h₁, -, hv₁⟩ := h.step hN A cmd (h.step_inv hstep)
    cases hstep.symm.trans hstep'
    obtain ⟨slots', extra', h₂, hlen', hv₂⟩ := ih h₁ hrest
    refine ⟨slots', extra' ++ extra, by rwa [List.append_assoc], ?_, fun a ha => ?_⟩
    · rw [List.length_append, List.zipWith_cons_cons, List.sum_cons, hlen, hlen', Nat.add_comm]
    · rw [hv₂ a (List.mem_append_right _ ha), hv₁ a ha]

/-- The cache on the heap and one that holds its strings, with the same records in the same slots. -/
def Alike (N : Nat) (c : HeapCache) (d : LRUCache) : Prop := ∃ slots l, Rep N c slots l ∧ LRUCache.Twin N c.view d slots

theorem Rep.lockstep {d : LRUCache} (h : Rep N c slots l) (ht : LRUCache.Twin N c.view d slots) (hN : 1 ≤ N)
    (A : Allocator) (cmd : HeapCmd) :
    Transducer.Lockstep (Alike N) (heapStep A N c cmd) (lift (cmdStep N d cmd.cmd)) := by
  by_cases hcmd : cmd.cmd = .flush → c.view.Compact
  · have hcmd' : cmd.cmd = .flush → d.Compact := fun he =>
      ht.right.compact_iff.2 (ht.left.compact_iff.1 (hcmd he))
    obtain ⟨c', extra, hstep, -, hc', hview, -⟩ := h.step hN A cmd hcmd
    obtain ⟨d', hd, hd', hlist⟩ := ht.right.cmdStep hN cmd.cmd hcmd'
    rw [hstep, hd, ← ht.output_eq]
    refine .ok _ ⟨_, _, hc', hc'.tidy, ht.nextSlots_eq cmd.cmd ▸ hd', fun i hi => ?_⟩
    rw [hview i hi, hlist i (ht.nextSlots_eq cmd.cmd ▸ hi), ht.content_eq cmd.cmd hi]
  · obtain ⟨rfl, hc, hleft⟩ := h.step_null (A := A) hcmd
    have hd : ¬ d.Compact := fun hd => hc (ht.left.compact_iff.2 (ht.right.compact_iff.1 hd))
    rw [hleft, HeapCmd.cmd, cmdStep, ht.right.flush_null hd]
    exact .fail _

/-! ### Release -/

theorem freeLoop_ok {n : Nat} (hn : slots.Nodup) (ho : Owns c.heap (blocks c.list slots ++ l))
    (hclear : ∀ k < n, i + k ∉ slots → (c.list (i + k)).blocks = []) :
    ∃ heap, freeLoop n i c = .ok { c with heap := heap } ∧ heap.val = c.heap.val ∧
      Owns heap (blocks c.list (slots.filter fun j => ¬ (i ≤ j ∧ j < i + n)) ++ l) := by
  induction n generalizing i c slots with
  | zero =>
    refine ⟨c.heap, rfl, rfl, ?_⟩
    rw [List.filter_eq_self.2 fun j _ => by simp only [decide_eq_true_eq]; omega]
    exact ho
  | succ n ih =>
    have ho₁ : Owns c.heap ((c.list i).blocks ++ (blocks c.list (slots.erase i) ++ l)) := by
      by_cases hi : i ∈ slots
      · have hperm := ((List.perm_cons_erase hi).flatMap_right fun j => (c.list j).blocks).append_right l
        rw [List.flatMap_cons, List.append_assoc] at hperm
        exact ho.perm hperm
      · rw [List.erase_of_not_mem hi, show (c.list i).blocks = [] from hclear 0 (Nat.succ_pos n) hi]
        exact ho
    obtain ⟨heap₁, hf, ho₂, hv₁⟩ := freeStrings_ok ho₁
    obtain ⟨heap, hloop, hv, ho'⟩ := ih (c := { c with heap := heap₁ }) (i := i + 1) (hn.erase i) ho₂ fun k hk hk' => by
      have hne : i + (k + 1) ≠ i := by omega
      rw [show i + 1 + k = i + (k + 1) by omega] at hk' ⊢
      exact hclear (k + 1) (Nat.succ_lt_succ hk) fun hs => hk' ((List.mem_erase_of_ne hne).2 hs)
    have hfilter : (slots.erase i).filter (fun j => ¬ (i + 1 ≤ j ∧ j < i + 1 + n)) =
        slots.filter fun j => ¬ (i ≤ j ∧ j < i + (n + 1)) := by
      rw [hn.erase_eq_filter, List.filter_filter]
      refine List.filter_congr fun j _ => ?_
      rw [Bool.eq_iff_iff]
      simp only [Bool.and_eq_true, decide_eq_true_eq, bne_iff_ne]
      omega
    refine ⟨heap, ?_, hv.trans hv₁, hfilter ▸ ho'⟩
    simp only [freeLoop, hf, bind, Except.bind]
    exact hloop

/-- `cacheFree` releases the strings of the slots below `length`. -/
theorem Rep.release (h : Rep N c slots l) :
    ∃ c', c.cacheFree = .ok c' ∧ c'.heap.val = c.heap.val ∧
      Owns c'.heap (blocks c.list (slots.filter fun j => slots.length ≤ j) ++ l) := by
  have hlen : c.length.toNat = slots.length := by
    rw [show c.length = slots.length from h.tidy.length, Int.toNat_natCast]
  obtain ⟨heap, hloop, hv, ho⟩ := freeLoop_ok (n := slots.length) (i := 0) h.tidy.nodup h.owns fun k hk hk' => by
    rw [Nat.zero_add] at hk' ⊢
    obtain ⟨j, hj, hlt⟩ := LRUCache.exists_above h.tidy.nodup hk hk'
    exact h.clear k j hj hlt hk'
  refine ⟨_, by rw [cacheFree, hlen, hloop], hv, ?_⟩
  rw [List.filter_congr fun j _ => show decide (¬ (0 ≤ j ∧ j < 0 + slots.length)) = decide (slots.length ≤ j) by
    rw [decide_eq_decide]; omega] at ho
  exact ho

/-- The slots in use above as many as there are. -/
def above (N : Nat) (c : HeapCache) : Nat := (List.range N).countP fun i => c.set i && c.length ≤ i

theorem Rep.above_eq (h : Rep N c slots l) : c.above N = (slots.filter fun j => slots.length ≤ j).length := by
  have hlen : c.length = slots.length := h.tidy.length
  rw [above, List.countP_eq_length_filter]
  refine List.Perm.length_eq ((List.perm_ext_iff_of_nodup (List.nodup_range.filter _) (h.tidy.nodup.filter _)).2 ?_)
  intro i
  have hset : c.set i = true ↔ i ∈ slots := h.tidy.set_iff i
  simp only [List.mem_filter, List.mem_range, Bool.and_eq_true, hset, decide_eq_true_eq, hlen, Int.ofNat_le]
  exact ⟨fun hi => hi.2, fun hi => ⟨h.tidy.lt i hi.1, hi⟩⟩

theorem Rep.above_eq_zero (h : Rep N c slots l) : c.above N = 0 ↔ c.view.Compact := by
  rw [h.above_eq, List.length_eq_zero_iff, List.filter_eq_nil_iff, h.tidy.compact_iff]
  simp only [decide_eq_true_eq, not_le]
  -- as many slots as numbers below `length`: each of the two lists is in the other
  have hlen : (List.range slots.length).length = slots.length := List.length_range
  constructor
  · intro hlt i hi
    have hsub : slots ⊆ List.range slots.length := fun j hj => List.mem_range.2 (hlt j hj)
    exact ((h.tidy.nodup.subperm hsub).perm_of_length_le hlen.le).mem_iff.2 (List.mem_range.2 hi)
  · intro hall j hj
    have hsub : List.range slots.length ⊆ slots := fun i hi => hall i (List.mem_range.1 hi)
    exact List.mem_range.1 (((List.nodup_range.subperm hsub).perm_of_length_le hlen.ge).mem_iff.2 hj)

end

end HeapCache

open HeapCache

/-- Whatever addresses the allocator hands out, every sequence of commands does on the heap what it does to the cache
whose records hold their strings: the same results, and a flush that follows a null link is the only fault. So no
block is read or released when it is not in use. -/
theorem heap_refines {N : Nat} (hN : 1 ≤ N) (A : Allocator) (heap : Heap Cell) (list : Nat → PtrEntry)
    (links : Links Node) (list' : Nat → DNSEntry) (links' : Links Node) (cmds : List HeapCmd) :
    (Transducer.run (heapStep A N) (.init heap list links) cmds).map Prod.snd =
      lift ((Transducer.run (cmdStep N) (.init list' links') (cmds.map HeapCmd.cmd)).map Prod.snd) ∧
    ∀ f, Transducer.run (heapStep A N) (.init heap list links) cmds = .error f ↔
      f = .fault .null ∧ ∃ pre post c outs, cmds = pre ++ .flush :: post ∧
        Transducer.run (heapStep A N) (.init heap list links) pre = .ok (c, outs) ∧
        ∃ i : Nat, i < c.length ∧ c.links.next (.slot i) = none := by
  have h := Rep.init N heap list links
  constructor
  · have hstep : ∀ c d cmd, Alike N c d → Transducer.Lockstep (Alike N) (heapStep A N c cmd)
        ((cmdStep N d (HeapCmd.cmd cmd)).mapError HeapFault.fault) := by
      rintro c d cmd ⟨slots, l, hr, ht⟩
      exact hr.lockstep ht hN A cmd
    have hlock := Transducer.run_lockstep hstep
      ⟨[], _, h, h.tidy, .init N list' links', fun i hi => (by cases hi)⟩ cmds
    rw [hlock.outputs, Transducer.run_map]
    cases Transducer.run (cmdStep N) (.init list' links') (cmds.map HeapCmd.cmd) <;> rfl
  · intro f
    rw [Transducer.run_error_iff]
    constructor
    · rintro ⟨pre, cmd, post, c, outs, rfl, hpre, hf⟩
      obtain ⟨slots, extra, hc, -⟩ := h.run hN hpre
      have hcmd : ¬ (cmd.cmd = .flush → c.view.Compact) := by
        intro hcmd
        obtain ⟨c', -, hstep, -⟩ := hc.step hN A cmd hcmd
        cases hf.symm.trans hstep
      obtain ⟨rfl, hnot, hnull⟩ := hc.step_null (A := A) hcmd
      cases hf.symm.trans hnull
      exact ⟨rfl, pre, post, c, outs, rfl, hpre, hc.tidy.exists_null_iff.2 hnot⟩
    · rintro ⟨rfl, pre, post, c, outs, rfl, hpre, hnull⟩
      obtain ⟨slots, extra, hc, -⟩ := h.run hN hpre
      have hnot := hc.tidy.exists_null_iff.1 hnull
      exact ⟨pre, .flush, post, c, outs, rfl, hpre, (hc.step_null fun hcmd => hnot (hcmd rfl)).2.2⟩

/-- A heap of which another part of the program uses one block. -/
def inUse : Heap Cell := ⟨{7}, fun _ => .blank⟩

/-- The cache in cleared memory. -/
def zeroHeap : HeapCache := .init inUse (fun _ => ⟨none, none, 0, 0, 0⟩) ⟨fun _ => none, fun _ => none⟩

/-- Records are stored, looked up with a host file and without, and expire. -/
def heapCmds : List HeapCmd :=
  [.store [97] [49] 5 1 0 1, .lookup [97] 1 (fun _ => 4) .told, .store [98] [50] 9 1 0 1,
    .lookup [99] 1 (fun _ => 4) .told, .lookup [98] 1 (fun _ => 4) (.unset false), .scan fun _ => 7]

theorem heap_refines_six :
    (Transducer.run (heapStep .bump 2) zeroHeap heapCmds).map Prod.snd = .ok
      [.done, .found [⟨some [97], some [49], 1, 0, 6⟩], .done, .found [],
        .found [⟨some [98], some [50], 1, 0, 10⟩], .scanned true] := by
  refine (heap_refines (by decide) .bump inUse _ _ (fun _ => ⟨none, none, 0, 0, 0⟩) ⟨fun _ => none, fun _ => none⟩
    heapCmds).1.trans ?_
  decide +kernel

theorem exists_heapCmds : ∃ c outs, Transducer.run (heapStep .bump 2) zeroHeap heapCmds = .ok (c, outs) ∧
    c.length = 1 ∧ c.above 2 = 1 ∧ (List.zipWith leaked outs heapCmds).sum = 13 := by
  have hrun : (Transducer.run (heapStep .bump 2) zeroHeap heapCmds).map
      (fun r => (r.1.length, r.1.above 2, (List.zipWith leaked r.2 heapCmds).sum)) = .ok (1, 1, 13) := by
    decide +kernel
  cases h : Transducer.run (heapStep .bump 2) zeroHeap heapCmds with
  | error f => rw [h] at hrun; cases hrun
  | ok r =>
    rw [h] at hrun
    simp only [Except.map, Except.ok.injEq, Prod.mk.injEq] at hrun
    exact ⟨r.1, r.2, rfl, hrun⟩

/-- A run leaves in use what was, unchanged, two strings for each record, and what its commands dropped: nothing
else. -/
theorem heap_blocks {N : Nat} (hN : 1 ≤ N) (A : Allocator) (heap : Heap Cell) (list : Nat → PtrEntry)
    (links : Links Node) (cmds : List HeapCmd) {c : HeapCache} {outs : List CmdOut}
    (hrun : Transducer.run (heapStep A N) (.init heap list links) cmds = .ok (c, outs)) :
    (c.heap.live.card : Int) = heap.live.card + 2 * c.length + (List.zipWith leaked outs cmds).sum ∧
    ∀ a ∈ heap.live, a ∈ c.heap.live ∧ c.heap.val a = heap.val a := by
  obtain ⟨slots, extra, h, hlen, hv⟩ := (Rep.init N heap list links).run hN hrun
  constructor
  · rw [h.card, List.length_append, Finset.length_toList, hlen]
    omega
  · intro a ha
    have hm := Finset.mem_toList.2 ha
    exact ⟨(h.owns.live_iff a).2 (by simp [ha]), hv a hm⟩

theorem heap_blocks_six : ∃ c outs, Transducer.run (heapStep .bump 2) zeroHeap heapCmds = .ok (c, outs) ∧
    c.heap.live.card = 16 ∧ 7 ∈ c.heap.live := by
  obtain ⟨c, outs, hrun, hlen, -, hsum⟩ := exists_heapCmds
  obtain ⟨hcard, hkept⟩ := heap_blocks (by decide) .bump inUse _ _ heapCmds hrun
  rw [hlen, hsum] at hcard
  exact ⟨c, outs, hrun, Int.ofNat.inj hcard, (hkept 7 (by decide)).1⟩

/-- `cacheFree` after a run releases no block twice, and leaves two strings for each slot in use at or above `length`:
it releases those of every record if and only if the slots in use are the first ones. -/
theorem heap_release {N : Nat} (hN : 1 ≤ N) (A : Allocator) (heap : Heap Cell) (list : Nat → PtrEntry)
    (links : Links Node) (cmds : List HeapCmd) {c : HeapCache} {outs : List CmdOut}
    (hrun : Transducer.run (heapStep A N) (.init heap list links) cmds = .ok (c, outs)) :
    ∃ c', c.cacheFree = .ok c' ∧
      c'.heap.live.card = heap.live.card + 2 * c.above N + (List.zipWith leaked outs cmds).sum ∧
      (∀ a ∈ heap.live, a ∈ c'.heap.live ∧ c'.heap.val a = heap.val a) ∧ (c.above N = 0 ↔ c.view.Compact) := by
  obtain ⟨slots, extra, h, hlen, hv⟩ := (Rep.init N heap list links).run hN hrun
  obtain ⟨c', hfree, hval, ho⟩ := h.release
  refine ⟨c', hfree, ?_, fun a ha => ?_, h.above_eq_zero⟩
  · rw [ho.card, List.length_append, List.length_append, Finset.length_toList, hlen, h.above_eq,
      length_blocks fun i hi => h.tidy.named i (List.mem_filter.1 hi).1]
    omega
  · have hm := Finset.mem_toList.2 ha
    exact ⟨(ho.live_iff a).2 (by simp [ha]), (congrFun hval a).trans (hv a hm)⟩

/-- The record that is left is in the second slot, and `length` is one. -/
theorem heap_release_six : ∃ c outs c', Transducer.run (heapStep .bump 2) zeroHeap heapCmds = .ok (c, outs) ∧
    c.cacheFree = .ok c' ∧ c'.heap.live.card = 16 := by
  obtain ⟨c, outs, hrun, -, habove, hsum⟩ := exists_heapCmds
  obtain ⟨c', hfree, hcard, -⟩ := heap_release (by decide) .bump inUse _ _ heapCmds hrun
  rw [habove, hsum] at hcard
  exact ⟨c, outs, c', hrun, hfree, hcard⟩

end DnsRelay
