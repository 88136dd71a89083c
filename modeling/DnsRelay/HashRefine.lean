import DnsRelay.Hash
import DnsRelay.Lib.Transducer

/-!
# The string map refines a partial function

`Stores` is what every operation keeps: the buckets are `Good`, no bucket holds a key twice, and
`query_hash` finds the values that a partial function gives. `remove_bucket` has a branch for the head
of a chain and one for every other node; both take one address out of the chain.
-/

namespace DnsRelay
open Exec

namespace StringHash
variable {V : Type}

/-- The keys of the nodes at `as`. -/
def keysAt (nodes : List (HashNode V)) (as : List Nat) : List (List UInt8) :=
  (as.filterMap (nodes[·]?)).map HashNode.key

structure Stores (m : StringHash V) (chain : Nat → List Nat) (f : List UInt8 → Option V) : Prop
    extends Good m chain where
  values : ∀ key, (matched m.nodes key (chain (bucketId key))).map HashNode.value = f key
  keys : ∀ i, (keysAt m.nodes (chain i)).Nodup

section
variable {nodes nodes' : List (HashNode V)} {p prev : Option Nat} {as l₁ l₂ : List Nat} {now : Nat}
  {key k : List UInt8} {node : HashNode V}

theorem keysAt_split (l₁ l₂ : List Nat) (hn : nodes[now]? = some node) :
    keysAt nodes (l₁ ++ now :: l₂) = keysAt nodes l₁ ++ node.key :: keysAt nodes l₂ := by
  simp [keysAt, hn]

theorem keysAt_congr (h : ∀ a ∈ as, (nodes'[a]?).map HashNode.key = (nodes[a]?).map HashNode.key) :
    keysAt nodes' as = keysAt nodes as := by
  rw [keysAt, keysAt, List.map_filterMap, List.map_filterMap]
  exact List.filterMap_congr h

theorem keysAt_sublist (h : l₁.Sublist l₂) : (keysAt nodes l₁).Sublist (keysAt nodes l₂) :=
  (h.filterMap _).map _

theorem matched_eq_none : matched nodes key as = none ↔ strmem key ∉ keysAt nodes as := by
  rw [matched, List.find?_eq_none, keysAt, List.mem_map]
  constructor
  · rintro h ⟨n, hn, hk⟩
    exact h n hn (by simpa using hk)
  · intro h n hn hk
    exact h ⟨n, hn, by simpa using hk⟩

/-- What an update of one node keeps of it stays the same at every address. -/
theorem map_getElem?_set {β : Type} (hn : nodes[now]? = some node) (node' : HashNode V) (g : HashNode V → β)
    (hg : g node' = g node) (a : Nat) : ((nodes.set now node')[a]?).map g = (nodes[a]?).map g := by
  rcases eq_or_ne a now with rfl | ha
  · rw [List.getElem?_set_self (List.getElem?_eq_some_iff.1 hn).1, hn, Option.map_some, hg]
    rfl
  · rw [List.getElem?_set_ne ha.symm]

theorem modifyNode_eq (hn : nodes[now]? = some node) (v : V) :
    modifyNode nodes now v = nodes.set now { node with value := v } := by
  rw [modifyNode, List.modify_eq_set_getElem?, hn]
  rfl

theorem strmem_injective : Function.Injective strmem := fun _ _ => List.append_cancel_right

theorem matched_split (l₁ l₂ : List Nat) (k : List UInt8) (hn : nodes[now]? = some node) :
    matched nodes k (l₁ ++ now :: l₂) =
      (matched nodes k l₁).or (if node.key = strmem k then some node else matched nodes k l₂) := by
  rw [matched, List.filterMap_append, List.find?_append, List.filterMap_cons, hn, List.find?_cons, ← matched,
    ← matched]
  by_cases hk : node.key = strmem k <;> simp [hk]

/-- The loop comes to the first node that matches, with the node before it. -/
theorem locate_spec (key : List UInt8) (prev : Option Nat) (h : Chain nodes p as) {fuel : Nat}
    (hfuel : as.length ≤ fuel) :
    matched nodes key as = none ∧ locate nodes key fuel prev p = .ok none ∨
    ∃ l₁ now l₂ node, as = l₁ ++ now :: l₂ ∧ nodes[now]? = some node ∧ node.key = strmem key ∧
      matched nodes key l₁ = none ∧ locate nodes key fuel prev p = .ok (some (l₁.getLast?.or prev, now)) := by
  induction as generalizing p prev fuel with
  | nil =>
    obtain rfl : p = none := h
    exact .inl ⟨rfl, by cases fuel <;> rfl⟩
  | cons a as ih =>
    obtain ⟨rfl, node, hn, hc⟩ := h
    obtain ⟨fuel, rfl⟩ := Nat.exists_eq_add_one.2 (Nat.lt_of_lt_of_le (Nat.succ_pos _) hfuel)
    have hsplit := matched_split [] as key hn
    have hloop : locate nodes key (fuel + 1) prev (some a) =
        if node.key = strmem key then .ok (some (prev, a)) else locate nodes key fuel (some a) node.next := by
      rw [locate, hn]
    rw [hloop]
    by_cases hk : node.key = strmem key
    · exact .inr ⟨[], a, as, node, rfl, hn, hk, rfl, if_pos hk⟩
    · rw [if_neg hk] at hsplit ⊢
      rcases ih (some a) hc (Nat.le_of_succ_le_succ hfuel) with
        ⟨hnone, hloc⟩ | ⟨l₁, now, l₂, node', rfl, hnow, hkey, hnone, hloc⟩
      · exact .inl ⟨by rw [← List.nil_append (a :: as), hsplit, hnone]; rfl, hloc⟩
      · refine .inr ⟨a :: l₁, now, l₂, node', rfl, hnow, hkey, ?_, ?_⟩
        · have := matched_split [] l₁ key hn
          rw [List.nil_append, if_neg hk, hnone] at this
          exact this
        · rw [hloc]
          cases l₁ using List.reverseRecOn with
          | nil => rfl
          | append_singleton l b =>
            rw [← List.cons_append, List.getLast?_concat, List.getLast?_concat]
            rfl

/-- Taking the node after `prev` out of a chain. -/
theorem Chain.unlink {prev : Nat} (h : Chain nodes p (l₁ ++ prev :: now :: l₂))
    (hnd : (l₁ ++ prev :: now :: l₂).Nodup)
    {pn : HashNode V} (hp : nodes[prev]? = some pn) (hn : nodes[now]? = some node) :
    Chain (nodes.set prev { pn with next := node.next }) p (l₁ ++ prev :: l₂) := by
  induction l₁ generalizing p with
  | nil =>
    obtain ⟨rfl, pn', hp', hpn, node', hn', hrest⟩ := h
    rw [hn] at hn'
    cases hn'
    have hlt := (List.getElem?_eq_some_iff.1 hp).1
    refine ⟨rfl, _, List.getElem?_set_self hlt, hrest.congr fun a ha => ?_⟩
    have hap : prev ≠ a := fun he => (List.nodup_cons.1 hnd).1 (he ▸ List.mem_cons_of_mem _ ha)
    rw [List.getElem?_set_ne hap]
  | cons b l₁ ih =>
    obtain ⟨rfl, bn, hb, hrest⟩ := h
    obtain ⟨hbn, hnd⟩ := List.nodup_cons.1 hnd
    have hbp : prev ≠ b := fun he => hbn (he ▸ by simp)
    exact ⟨rfl, bn, (List.getElem?_set_ne hbp).trans hb, ih hrest hnd⟩

end

section
variable {m : StringHash V} {chain : Nat → List Nat} {f f' : List UInt8 → Option V} {key : List UInt8}

theorem Stores.represents (h : Stores m chain f) : Represents m f := ⟨chain, h.toGood, h.values⟩

theorem stores_init : Stores (init : StringHash V) (fun _ => []) fun _ => none :=
  ⟨⟨fun _ => rfl, fun _ => rfl, fun _ => rfl, fun _ => .nil, nofun⟩, fun _ => rfl, fun _ => .nil⟩

/-- One bucket anew, its chain a part of the old one. -/
theorem Stores.update (h : Stores m chain f) (id : Nat) (nodes : List (HashNode V)) (bk : HashBucket) (as : List Nat)
    (f' : List UInt8 → Option V) (hchain : Chain nodes bk.head as) (htail : bk.tail = as.getLast?)
    (hsize : bk.size = as.length) (hsub : as.Sublist (chain id))
    (hkeys : ∀ a ∈ as, (nodes[a]?).map HashNode.key = (m.nodes[a]?).map HashNode.key)
    (hother : ∀ i ≠ id, ∀ a ∈ chain i, nodes[a]? = m.nodes[a]?)
    (hid : ∀ k, bucketId k = id → (matched nodes k as).map HashNode.value = f' k)
    (hf' : ∀ k, bucketId k ≠ id → f' k = f k) :
    Stores ⟨nodes, Function.update m.bks id bk⟩ (Function.update chain id as) f' := by
  refine ⟨h.toGood.update hchain htail hsize (hsub.nodup (h.nodup id)) (fun a ha => ?_) hother,
    values_update h.values hid hother hf', fun i => ?_⟩
  · obtain ⟨node, k, hn, hk, hb⟩ := h.bucket id a (hsub.subset ha)
    have := hkeys a ha
    rw [hn] at this
    obtain ⟨node', hn', hk'⟩ := Option.map_eq_some_iff.1 this
    exact ⟨node', k, hn', hk'.trans hk, hb⟩
  · rcases eq_or_ne i id with rfl | hi
    · rw [Function.update_self, keysAt_congr hkeys]
      exact (keysAt_sublist hsub).nodup (h.keys i)
    · have hsame : keysAt nodes (chain i) = keysAt m.nodes (chain i) :=
        keysAt_congr fun a ha => by rw [hother i hi a ha]
      rw [Function.update_of_ne hi, hsame]
      exact h.keys i

/-! ### Insertion -/

theorem Stores.insert_absent (h : Stores m chain f) (hkey : f key = none) (v : V) :
    ∃ m' chain', insertHash m key v = .ok (m', true) ∧ Stores m' chain' (Function.update f key (some v)) := by
  obtain ⟨m', hins, hg, hf, hold, hnew⟩ := insertHash_spec h.toGood h.values hkey v
  refine ⟨m', _, hins, hg, hf, fun i => ?_⟩
  have hsame : ∀ i, keysAt m'.nodes (chain i) = keysAt m.nodes (chain i) :=
    fun i => keysAt_congr fun a ha => hold a (h.lt ha)
  rcases eq_or_ne i (bucketId key) with rfl | hi
  · obtain ⟨node, hn, hk⟩ := Option.map_eq_some_iff.1 hnew
    have habsent : strmem key ∉ keysAt m.nodes (chain (bucketId key)) := by
      have := h.values key
      rw [hkey, Option.map_eq_none_iff] at this
      exact matched_eq_none.1 this
    rw [Function.update_self, keysAt_split _ _ hn, hsame, hk]
    exact (h.keys _).append (List.nodup_singleton _) fun a ha ha' => habsent (List.mem_singleton.1 ha' ▸ ha)
  · rw [Function.update_of_ne hi, hsame]
    exact h.keys i

/-- Inserting a key that is there changes nothing but the arena. -/
theorem Stores.insert_present (h : Stores m chain f) (hkey : f key ≠ none) (v : V) :
    insertHash m key v = .ok (⟨m.allocated key v, m.bks⟩, false) ∧ Stores ⟨m.allocated key v, m.bks⟩ chain f := by
  have hold : ∀ i, ∀ a ∈ chain i, (m.allocated key v)[a]? = m.nodes[a]? :=
    fun i a ha => allocated_old m key v (h.lt ha)
  have hval := h.values key
  constructor
  · have hne : chain (bucketId key) ≠ [] := by
      intro hnil
      rw [hnil] at hval
      exact hkey hval.symm
    have hsome : matched (m.allocated key v) key (chain (bucketId key)) ≠ none := by
      intro hnone
      rw [← matched_congr (fun a ha => by rw [hold _ a ha]), hnone] at hval
      exact hkey hval.symm
    obtain ⟨node, hnode⟩ := Option.ne_none_iff_exists'.1 hsome
    rw [insertHash_chain h.toGood hne, hnode]
  · have := h.update (bucketId key) _ (m.bks (bucketId key)) _ f
      ((h.chains _).congr fun a ha => by rw [hold _ a ha]) (h.tail _) (h.size _) (.refl _)
      (fun a ha => by rw [hold _ a ha]) (fun i _ a ha => hold i a ha)
      (fun k hk => by rw [← h.values k, hk]; exact matched_congr fun a ha => by rw [hold _ a ha]) fun _ _ => rfl
    rwa [Function.update_eq_self, Function.update_eq_self] at this

/-! ### Modification -/

theorem Stores.absent (h : Stores m chain f) (hnone : matched m.nodes key (chain (bucketId key)) = none) :
    f key = none := by
  rw [← h.values key, hnone]
  rfl

/-- A key that is there stands in its bucket once. -/
theorem Stores.alone (h : Stores m chain f) {l₁ l₂ : List Nat} {now : Nat} {node : HashNode V}
    (has : chain (bucketId key) = l₁ ++ now :: l₂) (hn : m.nodes[now]? = some node) (hk : node.key = strmem key) :
    matched m.nodes key l₂ = none ∧ f key = some node.value ∨ matched m.nodes key l₁ ≠ none := by
  by_cases h₁ : matched m.nodes key l₁ = none
  · refine .inl ⟨matched_eq_none.2 fun hm => ?_, ?_⟩
    · have := h.keys (bucketId key)
      rw [has, keysAt_split _ _ hn, hk] at this
      exact (List.nodup_cons.1 (List.nodup_append.1 this).2.1).1 hm
    · rw [← h.values key, has, matched_split _ _ _ hn, h₁, if_pos hk]
      rfl
  · exact .inr h₁

theorem Stores.modify (h : Stores m chain f) (key : List UInt8) (v : V) :
    ∃ m', modifyHash m key v = .ok (m', (f key).isSome) ∧
      Stores m' chain (if (f key).isSome then Function.update f key (some v) else f) := by
  rcases locate_spec key none (h.chains (bucketId key)) (h.length_le _) with
    ⟨hnone, hloc⟩ | ⟨l₁, now, l₂, node, has, hn, hk, h₁, hloc⟩
  · refine ⟨m, ?_, ?_⟩ <;> rw [h.absent hnone]
    · rw [modifyHash, hloc]
      rfl
    · exact h
  obtain ⟨h₂, hf⟩ := (h.alone has hn hk).resolve_right fun hne => hne h₁
  have hself : (m.nodes.set now { node with value := v })[now]? = some { node with value := v } :=
    List.getElem?_set_self (List.getElem?_eq_some_iff.1 hn).1
  have hsame : ∀ a ≠ now, (m.nodes.set now { node with value := v })[a]? = m.nodes[a]? :=
    fun a ha => List.getElem?_set_ne ha.symm
  have hnd := h.nodup (bucketId key)
  rw [has] at hnd
  obtain ⟨hnd₁, hnd₂, hdis⟩ := List.nodup_append.1 hnd
  refine ⟨{ m with nodes := modifyNode m.nodes now v }, by rw [modifyHash, hloc, hf]; rfl, ?_⟩
  rw [hf, modifyNode_eq hn]
  have := h.update (bucketId key) (m.nodes.set now { node with value := v }) (m.bks (bucketId key)) _
    (Function.update f key (some v))
    ((h.chains _).congr fun a _ => map_getElem?_set hn { node with value := v } HashNode.next rfl a) (h.tail _)
    (h.size _) (.refl _)
    (fun a _ => map_getElem?_set hn { node with value := v } HashNode.key rfl a)
    (fun i hi a ha => hsame a fun he => ?_) (fun k hk' => ?_)
    fun k hk' => Function.update_of_ne (fun he => hk' (congrArg bucketId he)) _ _
  · rwa [Function.update_eq_self, Function.update_eq_self] at this
  · refine hi (h.toGood.disjoint ha ?_)
    rw [he, has]
    exact List.mem_append_right _ List.mem_cons_self
  · have hpart : ∀ l : List Nat, now ∉ l →
        (matched (m.nodes.set now { node with value := v }) k l).map HashNode.value =
          (matched m.nodes k l).map HashNode.value := fun l hl => matched_congr fun a ha => by
      rw [hsame a fun he => hl (he ▸ ha)]
    have hp₁ := hpart l₁ fun hm => hdis now hm now List.mem_cons_self rfl
    have hp₂ := hpart l₂ (List.nodup_cons.1 hnd₂).1
    rw [has, matched_split _ _ _ hself, Option.map_or, hp₁]
    rcases eq_or_ne k key with rfl | hne
    · rw [h₁, if_pos hk, Function.update_self]
      rfl
    · have hnk : node.key ≠ strmem k := fun he => hne (strmem_injective (he.symm.trans hk))
      rw [if_neg hnk, hp₂, Function.update_of_ne hne, ← h.values k, hk', has, matched_split _ _ _ hn, if_neg hnk,
        Option.map_or]

/-! ### Removal -/

/-- What the bucket holds without the node of the key. -/
theorem Stores.without (h : Stores m chain f) {l₁ l₂ : List Nat} {now : Nat} {node : HashNode V}
    (has : chain (bucketId key) = l₁ ++ now :: l₂) (hn : m.nodes[now]? = some node) (hk : node.key = strmem key)
    (h₁ : matched m.nodes key l₁ = none) (k : List UInt8) (hb : bucketId k = bucketId key) :
    (matched m.nodes k (l₁ ++ l₂)).map HashNode.value = Function.update f key none k := by
  obtain ⟨h₂, -⟩ := (h.alone has hn hk).resolve_right fun hne => hne h₁
  have happ : matched m.nodes k (l₁ ++ l₂) = (matched m.nodes k l₁).or (matched m.nodes k l₂) := by
    rw [matched, List.filterMap_append, List.find?_append, ← matched, ← matched]
  rw [happ]
  rcases eq_or_ne k key with rfl | hne
  · rw [h₁, h₂, Function.update_self]
    rfl
  · have hnk : node.key ≠ strmem k := fun he => hne (strmem_injective (he.symm.trans hk))
    rw [Function.update_of_ne hne, ← h.values k, hb, has, matched_split _ _ _ hn, if_neg hnk]

theorem Stores.occupied_iff (h : Stores m chain f) :
    (∃ k, bucketId k = bucketId key ∧ f k ≠ none) ↔ chain (bucketId key) ≠ [] := by
  constructor
  · rintro ⟨k, hk, hf⟩ hnil
    refine hf ?_
    rw [← h.values k, hk, hnil]
    rfl
  · intro hne
    obtain ⟨a, as, has⟩ := List.exists_cons_of_ne_nil hne
    obtain ⟨node, k, hn, hk, hb⟩ := h.bucket (bucketId key) a (by rw [has]; exact List.mem_cons_self)
    refine ⟨k, hb, ?_⟩
    have hsplit := matched_split [] as k hn
    rw [List.nil_append, if_pos hk] at hsplit
    rw [← h.values k, hb, has, hsplit]
    simp [matched]

/-- The key of the head is read before the bucket is known to have one. -/
theorem Stores.remove_missing (h : Stores m chain f) (hkey : f key = none) :
    removeHash m key = if chain (bucketId key) = [] then .error .null else .ok (m, false) := by
  have hch := h.chains (bucketId key)
  have hnone : matched m.nodes key (chain (bucketId key)) = none := by
    have := h.values key
    rwa [hkey, Option.map_eq_none_iff] at this
  rcases locate_spec key none hch (h.length_le _) with ⟨-, hloc⟩ | ⟨l₁, now, l₂, node, has, hn, hk, -, -⟩
  · rw [removeHash]
    cases hc : chain (bucketId key) with
    | nil =>
      rw [hc] at hch
      have hhead : (m.bks (bucketId key)).head = none := hch
      simp only [hhead]
      rfl
    | cons a as =>
      rw [hc] at hch hnone
      obtain ⟨hhead, node, hn, -⟩ := hch
      have hk : node.key ≠ strmem key := by
        intro hk
        have hsplit := matched_split [] as key hn
        rw [List.nil_append, if_pos hk, hnone] at hsplit
        simp [matched] at hsplit
      rw [hhead] at hloc
      simp only [hhead, deref, ok_bind, hn, if_neg hk, hloc]
      rfl
  · rw [has, matched_split _ _ _ hn, if_pos hk] at hnone
    simp at hnone

theorem Stores.remove (h : Stores m chain f) (hkey : f key ≠ none) :
    ∃ m' chain', removeHash m key = .ok (m', true) ∧ Stores m' chain' (Function.update f key none) := by
  have hch := h.chains (bucketId key)
  have hother' : ∀ k, bucketId k ≠ bucketId key → Function.update f key none k = f k :=
    fun k hk => Function.update_of_ne (fun he => hk (congrArg bucketId he)) _ _
  rcases locate_spec key none hch (h.length_le _) with
    ⟨hnone, -⟩ | ⟨l₁, now, l₂, node, has, hn, hk, h₁, hloc⟩
  · exact absurd (h.absent hnone) hkey
  have hwithout := h.without has hn hk h₁
  have hnd := h.nodup (bucketId key)
  have hsize := h.size (bucketId key)
  have htail := h.tail (bucketId key)
  rw [has] at hch hnd hsize htail
  rcases List.eq_nil_or_concat l₁ with rfl | ⟨l₀, prev, rfl⟩
  · -- the head of the chain
    obtain ⟨hhead, node', hn', hrest⟩ := hch
    rw [hn] at hn'
    cases hn'
    have hlen : (m.bks (bucketId key)).size - 1 = l₂.length := by rw [hsize]; simp
    refine ⟨_, _, ?_, h.update (bucketId key) m.nodes
      ⟨node.next, if (m.bks (bucketId key)).size - 1 = 0 then none else (m.bks (bucketId key)).tail,
        (m.bks (bucketId key)).size - 1⟩ l₂ _ hrest ?_ hlen (by rw [has]; exact List.sublist_cons_self _ _)
      (fun _ _ => rfl) (fun _ _ _ _ => rfl) (fun k hb => hwithout k hb) hother'⟩
    · rw [removeHash]
      simp only [hhead, deref, ok_bind, hn, if_pos hk]
      rfl
    · dsimp only
      rw [hlen]
      cases l₂ with
      | nil => rfl
      | cons a l₂ =>
        rw [if_neg (by simp), htail]
        exact List.getLast?_cons_cons
  · -- a node behind `prev`
    rw [List.concat_eq_append, List.append_assoc] at hch hnd hsize htail
    rw [List.concat_eq_append] at has hloc h₁ hwithout
    simp only [List.singleton_append] at hch hnd hsize htail
    have hprev : prev ∈ chain (bucketId key) := by rw [has]; simp
    obtain ⟨pn, -, hp, -⟩ := h.bucket _ prev hprev
    obtain ⟨head, hhead, hd, hhd, hdk⟩ : ∃ head, (m.bks (bucketId key)).head = some head ∧
        ∃ hd, m.nodes[head]? = some hd ∧ hd.key ≠ strmem key := by
      cases l₀ with
      | nil =>
        refine ⟨prev, hch.1, pn, hp, fun he => ?_⟩
        have := matched_split [] [] key hp
        rw [if_pos he] at this
        exact absurd (h₁.symm.trans this) (by simp)
      | cons b l₀ =>
        obtain ⟨hb, bn, hbn, -⟩ := hch
        refine ⟨b, hb, bn, hbn, fun he => ?_⟩
        have := matched_split [] (l₀ ++ [prev]) key hbn
        rw [if_pos he] at this
        exact absurd (h₁.symm.trans this) (by simp)
    have hsub : (l₀ ++ prev :: l₂).Sublist (chain (bucketId key)) := by
      rw [has, List.append_assoc]
      exact ((List.sublist_cons_self now l₂).cons_cons prev).append_left l₀
    refine ⟨_, _, ?_, h.update (bucketId key) (m.nodes.set prev { pn with next := node.next })
      ⟨(m.bks (bucketId key)).head,
        if (m.bks (bucketId key)).tail = some now then some prev else (m.bks (bucketId key)).tail,
        (m.bks (bucketId key)).size - 1⟩ (l₀ ++ prev :: l₂) _ (hch.unlink hnd hp hn) ?_ ?_ hsub
      (fun a _ => map_getElem?_set hp { pn with next := node.next } HashNode.key rfl a)
      (fun i hi a ha => List.getElem?_set_ne ?_) (fun k hb => ?_) hother'⟩
    · rw [removeHash]
      simp only [hhead, deref, ok_bind, hhd, if_neg hdk]
      rw [hhead] at hloc
      simp only [hloc, ok_bind, List.getLast?_append, List.getLast?_singleton, Option.some_or, hn, catNode, hp]
      rfl
    · dsimp only
      rw [htail]
      cases l₂ using List.reverseRecOn with
      | nil => simp
      | append_singleton l b =>
        have hbn : b ≠ now := by
          rintro rfl
          have := (List.nodup_cons.1 (List.nodup_append.1 hnd).2.1).2
          simp at this
        have e₁ : (l₀ ++ prev :: now :: (l ++ [b])).getLast? = some b := by
          rw [← List.cons_append, ← List.cons_append, ← List.append_assoc, List.getLast?_concat]
        have e₂ : (l₀ ++ prev :: (l ++ [b])).getLast? = some b := by
          rw [← List.cons_append, ← List.append_assoc, List.getLast?_concat]
        rw [e₁, e₂, if_neg (by simpa using hbn)]
    · dsimp only
      rw [hsize]
      simp
    · rintro rfl
      exact hi (h.toGood.disjoint ha hprev)
    · rw [matched_congr fun a _ =>
        map_getElem?_set hp { pn with next := node.next } (fun n => (n.key, n.value)) rfl a]
      have := hwithout k hb
      rwa [List.append_assoc, List.singleton_append] at this

end

/-! ### Sequences of operations -/

inductive Op (V : Type)
  | insert (key : List UInt8) (v : V)
  | query (key : List UInt8)
  | modify (key : List UInt8) (v : V)
  | remove (key : List UInt8)

inductive Out (V : Type)
  | code (success : Bool)
  | value (v : Option V)

def step (m : StringHash V) : Op V → Exec (StringHash V × Out V)
  | .insert key v => do
    let (m, b) ← insertHash m key v
    return (m, .code b)
  | .query key => do
    let v ← queryHash m key
    return (m, .value v)
  | .modify key v => do
    let (m, b) ← modifyHash m key v
    return (m, .code b)
  | .remove key => do
    let (m, b) ← removeHash m key
    return (m, .code b)

/-- The same operation on a partial function. -/
def mapStep (f : List UInt8 → Option V) : Op V → (List UInt8 → Option V) × Out V
  | .insert key v => if (f key).isSome then (f, .code false) else (Function.update f key (some v), .code true)
  | .query key => (f, .value (f key))
  | .modify key v => if (f key).isSome then (Function.update f key (some v), .code true) else (f, .code false)
  | .remove key => (Function.update f key none, .code (f key).isSome)

/-- Keys are removed only while they are there. -/
def Removable (f : List UInt8 → Option V) : Op V → Prop
  | .remove key => (f key).isSome
  | _ => True

/-- A bucket that is not empty: a key from it is in the map. -/
def Occupied (f : List UInt8 → Option V) (key : List UInt8) : Prop := ∃ k, bucketId k = bucketId key ∧ f k ≠ none

/-- Keys are removed from buckets that are not empty. -/
def Populated (f : List UInt8 → Option V) : Op V → Prop
  | .remove key => Occupied f key
  | _ => True

theorem Removable.populated {f : List UInt8 → Option V} {op : Op V} (h : Removable f op) : Populated f op := by
  cases op with
  | remove key => exact ⟨key, rfl, Option.isSome_iff_ne_none.1 h⟩
  | _ => exact trivial

/-- The bucket `i` of the map: head, tail and count agree on a chain of nodes with different keys, all of
which belong there. -/
structure BucketOk (m : StringHash V) (i : Nat) (as : List Nat) : Prop where
  chain : Chain m.nodes (m.bks i).head as
  tail : (m.bks i).tail = as.getLast?
  size : (m.bks i).size = as.length
  empty : ((m.bks i).head = none ↔ (m.bks i).tail = none) ∧ ((m.bks i).head = none ↔ (m.bks i).size = 0)
  keys : (keysAt m.nodes as).Nodup ∧ (keysAt m.nodes as).length = as.length
  bucket : ∀ k ∈ keysAt m.nodes as, ∃ key, k = strmem key ∧ bucketId key = i

theorem Stores.bucketOk {m : StringHash V} {chain : Nat → List Nat} {f : List UInt8 → Option V}
    (h : Stores m chain f) (i : Nat) : BucketOk m i (chain i) := by
  have hch := h.chains i
  have hnil : (m.bks i).head = none ↔ chain i = [] := by
    cases hc : chain i with
    | nil => rw [hc] at hch; exact ⟨fun _ => rfl, fun _ => hch⟩
    | cons a as =>
      rw [hc] at hch
      exact ⟨fun hn => absurd (hn.symm.trans hch.1) (by simp), fun hn => absurd hn (by simp)⟩
  have hkeys : ∀ as ⊆ chain i, (keysAt m.nodes as).length = as.length ∧
      ∀ k ∈ keysAt m.nodes as, ∃ key, k = strmem key ∧ bucketId key = i := by
    intro as has
    induction as with
    | nil => exact ⟨rfl, nofun⟩
    | cons a as ih =>
      obtain ⟨node, key, hn, hk, hb⟩ := h.bucket i a (has List.mem_cons_self)
      obtain ⟨hlen, hall⟩ := ih fun b hb => has (List.mem_cons_of_mem _ hb)
      have hsplit := keysAt_split [] as hn
      rw [List.nil_append] at hsplit
      rw [hsplit]
      refine ⟨congrArg (· + 1) hlen, fun k hk' => ?_⟩
      rcases List.mem_append.1 hk' with hk' | hk'
      · cases hk'
      · rcases List.mem_cons.1 hk' with rfl | hk'
        · exact ⟨key, hk, hb⟩
        · exact hall k hk'
  obtain ⟨hlen, hall⟩ := hkeys _ (List.Subset.refl _)
  exact ⟨hch, h.tail i, h.size i, ⟨by rw [hnil, h.tail, List.getLast?_eq_none_iff],
    by rw [hnil, h.size, List.length_eq_zero_iff]⟩, ⟨h.keys i, hlen⟩, hall⟩

theorem step_refines {m : StringHash V} {f : List UInt8 → Option V} (h : ∃ chain, Stores m chain f) (op : Op V)
    (hop : Populated f op) :
    ∃ m', step m op = .ok (m', (mapStep f op).2) ∧ ∃ chain, Stores m' chain (mapStep f op).1 := by
  obtain ⟨chain, h⟩ := h
  cases op with
  | insert key v =>
    rw [mapStep]
    cases hf : f key with
    | none =>
      obtain ⟨m', chain', hins, h'⟩ := h.insert_absent hf v
      exact ⟨m', by rw [step, hins]; rfl, chain', h'⟩
    | some v' =>
      obtain ⟨hins, h'⟩ := h.insert_present (by rw [hf]; nofun) v
      exact ⟨_, by rw [step, hins]; rfl, chain, h'⟩
  | query key => exact ⟨m, by rw [step, queryHash_eq h.represents]; rfl, chain, h⟩
  | modify key v =>
    obtain ⟨m', hmod, h'⟩ := h.modify key v
    refine ⟨m', ?_, chain, ?_⟩
    · rw [step, hmod, mapStep]
      cases f key <;> rfl
    · rw [mapStep]
      cases hf : f key <;> rw [hf] at h' <;> exact h'
  | remove key =>
    rw [mapStep]
    cases hf : f key with
    | none =>
      have hrem := h.remove_missing hf
      rw [if_neg (h.occupied_iff.1 hop)] at hrem
      refine ⟨m, by rw [step, hrem]; rfl, chain, ?_⟩
      rwa [← hf, Function.update_eq_self]
    | some v =>
      obtain ⟨m', chain', hrem, h'⟩ := h.remove (by rw [hf]; nofun)
      exact ⟨m', by rw [step, hrem]; rfl, chain', h'⟩

/-- A removal from an empty bucket fails. -/
theorem populated_of_step {m : StringHash V} {f : List UInt8 → Option V} {op : Op V} {p : StringHash V × Out V}
    (h : ∃ chain, Stores m chain f) (hstep : step m op = .ok p) : Populated f op := by
  obtain ⟨chain, h⟩ := h
  cases op with
  | remove key =>
    cases hf : f key with
    | none =>
      refine h.occupied_iff.2 fun hnil => ?_
      rw [step, h.remove_missing hf, if_pos hnil] at hstep
      cases hstep
    | some v => exact ⟨key, rfl, by rw [hf]; nofun⟩
  | _ => exact trivial

theorem run_refines {ops : List (Op V)} (hops : Transducer.Allowed mapStep Populated (fun _ => none) ops) :
    ∃ m, Transducer.run step (init : StringHash V) ops = .ok (m, (Transducer.total mapStep (fun _ => none) ops).2) ∧
      ∃ chain, Stores m chain (Transducer.total mapStep (fun _ => none) ops).1 :=
  Transducer.run_simulates_allowed (R := fun m f => ∃ chain, Stores m chain f)
    (fun _ _ op h hop => step_refines h op hop) ⟨_, stores_init⟩ hops

/-- The runs that go through are those that remove keys only from buckets that are not empty. -/
theorem populated_of_run {ops : List (Op V)} {r : StringHash V × List (Out V)}
    (hrun : Transducer.run step (init : StringHash V) ops = .ok r) :
    Transducer.Allowed mapStep Populated (fun _ => none) ops :=
  Transducer.allowed_of_run (R := fun m f => ∃ chain, Stores m chain f)
    (fun _ _ op h hop => step_refines h op hop) (fun _ _ _ _ h hstep => populated_of_step h hstep)
    ⟨_, stores_init⟩ hrun

/-- Every sequence of operations that removes only keys that are there runs without a fault, answers as
the partial function does, and leaves every bucket in order. -/
theorem hash_refines (ops : List (Op V)) (hops : Transducer.Allowed mapStep Removable (fun _ => none) ops) :
    ∃ m, Transducer.run step (init : StringHash V) ops = .ok (m, (Transducer.total mapStep (fun _ => none) ops).2) ∧
      (∀ key, queryHash m key = .ok ((Transducer.total mapStep (fun _ => none) ops).1 key)) ∧
      ∀ i, ∃ as, BucketOk m i as := by
  obtain ⟨m, hrun, chain, h⟩ := run_refines (hops.mono fun _ _ => Removable.populated)
  exact ⟨m, hrun, fun key => queryHash_eq h.represents key, fun i => ⟨chain i, h.bucketOk i⟩⟩

/-- Two keys of one bucket: the second insertion of the first one is refused, it is removed at the head of the
chain and, inserted again, at its end. -/
def sharedBucket : List (Op Nat) :=
  [.insert [99] 1, .insert [105, 98] 2, .insert [99] 3, .remove [99], .insert [99] 4, .modify [105, 98] 5,
    .remove [99], .query [105, 98], .query [99]]

theorem hash_refines_shared : bucketId [99] = bucketId [105, 98] ∧
    ∃ m, Transducer.run step init sharedBucket = .ok (m, [.code true, .code true, .code false, .code true, .code true,
        .code true, .code true, .value (some 5), .value none]) ∧ ∃ as, BucketOk m (bucketId [99]) as := by
  have hops : Transducer.Allowed mapStep Removable (fun _ => none) sharedBucket :=
    ⟨trivial, trivial, trivial, rfl, trivial, trivial, rfl, trivial, trivial, trivial⟩
  obtain ⟨m, hrun, -, hbucket⟩ := hash_refines sharedBucket hops
  exact ⟨by decide +kernel, m, hrun, hbucket _⟩

/-- A run goes through if and only if it removes keys only from buckets that are not empty. In a map that a run
leads to, the removal of a key that is not there is refused, and nothing changes, if and only if the map has
another key of its bucket. -/
theorem remove_absent (ops : List (Op V)) :
    ((∃ r, Transducer.run step (init : StringHash V) ops = .ok r) ↔
      Transducer.Allowed mapStep Populated (fun _ => none) ops) ∧
    ∀ m outs, Transducer.run step (init : StringHash V) ops = .ok (m, outs) → ∀ key, queryHash m key = .ok none →
      (removeHash m key = .ok (m, false) ↔ ∃ k v, bucketId k = bucketId key ∧ queryHash m k = .ok (some v)) := by
  refine ⟨⟨fun ⟨_, hrun⟩ => populated_of_run hrun, fun hops => ?_⟩, fun m outs hrun key hkey => ?_⟩
  · obtain ⟨m, hrun, -⟩ := run_refines hops
    exact ⟨_, hrun⟩
  · obtain ⟨m', hrun', chain, h⟩ := run_refines (populated_of_run hrun)
    rw [hrun] at hrun'
    cases hrun'
    generalize (Transducer.total mapStep (fun _ => none) ops).1 = f at h
    have hquery : ∀ k, queryHash m k = .ok (f k) := queryHash_eq h.represents
    have hnone : f key = none := by
      rw [hquery] at hkey
      exact Except.ok.inj hkey
    have hocc : (∃ k v, bucketId k = bucketId key ∧ queryHash m k = .ok (some v)) ↔ chain (bucketId key) ≠ [] := by
      rw [← h.occupied_iff]
      simp only [hquery, Except.ok.injEq, Option.ne_none_iff_exists', exists_and_left]
    rw [hocc, h.remove_missing hnone]
    split <;> simp [*]

/-- The keys `c` and `ib` share a bucket: with `ib` in the map, the removal of the absent `c` is refused. -/
theorem remove_absent_shared : ∃ m : StringHash Nat,
    Transducer.run step init [.insert [105, 98] 2] = .ok (m, [.code true]) ∧ removeHash m [99] = .ok (m, false) := by
  have hops : Transducer.Allowed mapStep Populated (fun _ => none) [Op.insert [105, 98] 2] := ⟨trivial, trivial⟩
  obtain ⟨hgo, hall⟩ := remove_absent [Op.insert [105, 98] 2]
  obtain ⟨⟨m, outs⟩, hrun⟩ := hgo.2 hops
  obtain ⟨m', hrun', chain, h⟩ := run_refines hops
  rw [hrun] at hrun'
  cases hrun'
  refine ⟨m, hrun, (hall m _ hrun [99] (queryHash_eq h.represents _)).2 ⟨[105, 98], 2, ?_, queryHash_eq h.represents _⟩⟩
  decide +kernel

/-- A key that is removed a second time, its bucket by then empty. -/
theorem remove_absent_twice : ∃ m : StringHash Nat,
    Transducer.run step init [.insert [99] 1, .remove [99]] = .ok (m, [.code true, .code true]) ∧
      queryHash m [99] = .ok none ∧ removeHash m [99] = .error .null := by
  have hops : Transducer.Allowed mapStep Populated (fun _ => none) [Op.insert [99] 1, .remove [99]] :=
    ⟨trivial, ⟨[99], rfl, by simp [mapStep]⟩, trivial⟩
  obtain ⟨m, hrun, chain, h⟩ := run_refines hops
  have hf : ∀ k, (Transducer.total mapStep (fun _ => none) [Op.insert [99] 1, .remove [99]]).1 k = none := by
    intro k
    simp [Transducer.total, mapStep]
  refine ⟨m, hrun, by rw [queryHash_eq h.represents, hf], ?_⟩
  rw [h.remove_missing (hf _), if_pos]
  by_contra hne
  obtain ⟨k, -, hk⟩ := h.occupied_iff.2 hne
  exact hk (hf k)

end StringHash

end DnsRelay
