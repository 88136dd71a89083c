import Mathlib.Data.List.Perm.Subperm
import DnsRelay.MyList

/-!
# `Utils/hash.c`

A string map of 1024 buckets, each a singly linked chain of nodes. Nodes live in one arena, in which
a node's address is its index; `make_node` appends one. A map represents a partial function on
strings: `query_hash` reads it and `insert_hash` extends it where it is undefined.
-/

namespace DnsRelay
open Exec

/-- `fnv32` -/
def fnv32 (str : List UInt8) : UInt32 :=
  str.foldl (fun hash b => (hash ^^^ b.toUInt32) * 16777619) 2166136261

/-- A string with its terminator: the `STRMEM` bytes that are hashed, stored and compared. -/
def strmem (s : List UInt8) : List UInt8 := s ++ [0]

def bucketId (key : List UInt8) : Nat := (fnv32 (strmem key) &&& 1023).toNat

structure HashNode (V : Type) where
  key : List UInt8
  value : V
  next : Option Nat

structure HashBucket where
  head : Option Nat
  tail : Option Nat
  size : Nat

structure StringHash (V : Type) where
  nodes : List (HashNode V)
  bks : Nat → HashBucket

namespace StringHash
variable {V : Type}

/-- `init_hash` -/
def init : StringHash V := ⟨[], fun _ => ⟨none, none, 0⟩⟩

/-- The loop `for(now = bk->head; now; now = now->next)` up to the first node that matches. A chain
that is longer than the arena is a cycle. -/
def findNode (nodes : List (HashNode V)) (key : List UInt8) : Nat → Option Nat → Exec (Option (HashNode V))
  | _, none => .ok none
  | 0, some _ => .error .hang
  | fuel + 1, some now => match nodes[now]? with
    | none => .error .read
    | some node => if node.key = strmem key then .ok (some node) else findNode nodes key fuel node.next

/-- `query_hash`: the value, or `none` for `FAILURE` -/
def queryHash (m : StringHash V) (key : List UInt8) : Exec (Option V) := do
  let node ← findNode m.nodes key m.nodes.length (m.bks (bucketId key)).head
  return node.map HashNode.value

/-- `cat_node` -/
def catNode (nodes : List (HashNode V)) (prev : Nat) (nxtv : Option Nat) : Exec (List (HashNode V)) :=
  match nodes[prev]? with
  | none => .error .write
  | some node => .ok (nodes.set prev { node with next := nxtv })

/-- `insert_hash`: the map and whether it answered `SUCCUSS` -/
def insertHash (m : StringHash V) (key : List UInt8) (value : V) : Exec (StringHash V × Bool) := do
  let id := bucketId key
  let bk := m.bks id
  let node := m.nodes.length
  let nodes := m.nodes ++ [⟨strmem key, value, none⟩]
  match bk.head with
  | none => return (⟨nodes, Function.update m.bks id ⟨some node, some node, 1⟩⟩, true)
  | some _ =>
    match ← findNode nodes key nodes.length bk.head with
    | some _ => return (⟨nodes, m.bks⟩, false)
    | none =>
      let tail ← deref bk.tail
      let nodes ← catNode nodes tail (some node)
      return (⟨nodes, Function.update m.bks id ⟨bk.head, some node, bk.size + 1⟩⟩, true)

/-- The loop of `modify_bucket` and `remove_bucket` up to the first node that matches: that node and the one
before it. -/
def locate (nodes : List (HashNode V)) (key : List UInt8) :
    Nat → Option Nat → Option Nat → Exec (Option (Option Nat × Nat))
  | _, _, none => .ok none
  | 0, _, some _ => .error .hang
  | fuel + 1, prev, some now => match nodes[now]? with
    | none => .error .read
    | some node =>
      if node.key = strmem key then .ok (some (prev, now)) else locate nodes key fuel (some now) node.next

/-- `modify_node` -/
def modifyNode (nodes : List (HashNode V)) (now : Nat) (value : V) : List (HashNode V) :=
  nodes.modify now fun node => { node with value := value }

/-- `modify_hash`: the map and whether it answered `SUCCUSS` -/
def modifyHash (m : StringHash V) (key : List UInt8) (value : V) : Exec (StringHash V × Bool) := do
  match ← locate m.nodes key m.nodes.length none (m.bks (bucketId key)).head with
  | none => return (m, false)
  | some (_, now) => return ({ m with nodes := modifyNode m.nodes now value }, true)

/-- `remove_hash`, less `free_node`: the map and whether it answered `SUCCUSS`. The first comparison follows
`bk->head`, whatever it is. -/
def removeHash (m : StringHash V) (key : List UInt8) : Exec (StringHash V × Bool) := do
  let id := bucketId key
  let bk := m.bks id
  let head ← deref bk.head
  match m.nodes[head]? with
  | none => .error .read
  | some node =>
    if node.key = strmem key then
      let size := bk.size - 1
      return (⟨m.nodes, Function.update m.bks id ⟨node.next, if size = 0 then none else bk.tail, size⟩⟩, true)
    else match ← locate m.nodes key m.nodes.length none bk.head with
    | none => return (m, false)
    | some (prev, now) =>
      let prev ← deref prev
      match m.nodes[now]? with
      | none => .error .read
      | some node =>
        let nodes ← catNode m.nodes prev node.next
        let tail := if bk.tail = some now then some prev else bk.tail
        return (⟨nodes, Function.update m.bks id ⟨bk.head, tail, bk.size - 1⟩⟩, true)

/-! ### Chains -/

/-- The nodes from `p` on are those at the addresses `as`, the last one without a successor. -/
def Chain (nodes : List (HashNode V)) : Option Nat → List Nat → Prop
  | p, [] => p = none
  | p, a :: as => p = some a ∧ ∃ node, nodes[a]? = some node ∧ Chain nodes node.next as

def matched (nodes : List (HashNode V)) (key : List UInt8) (as : List Nat) : Option (HashNode V) :=
  (as.filterMap (nodes[·]?)).find? fun node => node.key = strmem key

variable {nodes nodes' : List (HashNode V)} {p : Option Nat} {as : List Nat} {key : List UInt8}

theorem findNode_eq (key : List UInt8) (h : Chain nodes p as) {fuel : Nat} (hfuel : as.length ≤ fuel) :
    findNode nodes key fuel p = .ok (matched nodes key as) := by
  induction as generalizing p fuel with
  | nil =>
    obtain rfl : p = none := h
    cases fuel <;> rfl
  | cons a as ih =>
    obtain ⟨rfl, node, hn, hc⟩ := h
    obtain ⟨fuel, rfl⟩ := Nat.exists_eq_add_one.2 (Nat.lt_of_lt_of_le (Nat.succ_pos _) hfuel)
    have hm : matched nodes key (a :: as) =
        if node.key = strmem key then some node else matched nodes key as := by
      rw [matched, List.filterMap_cons, hn, List.find?_cons]
      by_cases hk : node.key = strmem key <;> simp [hk, matched]
    simp only [findNode, hn, hm]
    split
    · rfl
    · exact ih hc (Nat.le_of_succ_le_succ hfuel)

/-- A chain in an arena that links its addresses alike. -/
theorem Chain.congr (h : Chain nodes p as)
    (hn : ∀ a ∈ as, (nodes'[a]?).map HashNode.next = (nodes[a]?).map HashNode.next) : Chain nodes' p as := by
  induction as generalizing p with
  | nil => exact h
  | cons a as ih =>
    obtain ⟨rfl, node, hget, hc⟩ := h
    have ha := hn a List.mem_cons_self
    rw [hget] at ha
    obtain ⟨node', hget', hnext⟩ := Option.map_eq_some_iff.1 ha
    exact ⟨rfl, node', hget', hnext ▸ ih hc fun b hb => hn b (List.mem_cons_of_mem _ hb)⟩

theorem matched_congr (hn : ∀ a ∈ as, (nodes'[a]?).map (fun n => (n.key, n.value)) =
      (nodes[a]?).map fun n => (n.key, n.value)) :
    (matched nodes' key as).map HashNode.value = (matched nodes key as).map HashNode.value := by
  induction as with
  | nil => rfl
  | cons a as ih =>
    have ih := ih fun b hb => hn b (List.mem_cons_of_mem _ hb)
    have ha := hn a List.mem_cons_self
    simp only [matched, List.filterMap_cons] at ih ⊢
    cases h : nodes[a]? with
    | none =>
      rw [h, Option.map_none, Option.map_eq_none_iff] at ha
      rw [ha]
      exact ih
    | some n =>
      rw [h] at ha
      obtain ⟨n', hn', he⟩ := Option.map_eq_some_iff.1 ha
      obtain ⟨hk, hv⟩ := Prod.mk.inj he
      rw [hn']
      simp only [List.find?_cons, hk]
      by_cases hkey : n.key = strmem key
      · simp [hkey, hv]
      · simpa [hkey] using ih

/-- Linking a node after the last one of a chain. -/
theorem Chain.snoc (h : Chain nodes p as) (hnd : as.Nodup) (hne : as ≠ []) {tail new : Nat}
    (htail : as.getLast? = some tail) {node last : HashNode V} (hnew : nodes[new]? = some node)
    (hnext : node.next = none) (hlast : nodes[tail]? = some last) (hnot : new ∉ as) :
    Chain (nodes.set tail { last with next := some new }) p (as ++ [new]) := by
  induction as generalizing p with
  | nil => exact absurd rfl hne
  | cons a as ih =>
    obtain ⟨rfl, n, hn, hc⟩ := h
    have hlen : ∀ {i : Nat} {x : HashNode V}, nodes[i]? = some x → i < nodes.length :=
      fun h => (List.getElem?_eq_some_iff.1 h).1
    cases as with
    | nil =>
      obtain rfl : a = tail := by simpa using htail
      have hna : new ≠ a := by simpa using hnot
      exact ⟨rfl, _, List.getElem?_set_self (hlen hlast), rfl, node,
        (List.getElem?_set_ne hna.symm).trans hnew, hnext⟩
    | cons b as =>
      obtain ⟨ha, hnd⟩ := List.nodup_cons.1 hnd
      rw [List.getLast?_cons_cons] at htail
      have hta : tail ≠ a := fun he => ha (he ▸ List.mem_of_getLast? htail)
      exact ⟨rfl, n, (List.getElem?_set_ne hta).trans hn,
        ih hc hnd (List.cons_ne_nil _ _) htail (fun hm => hnot (List.mem_cons_of_mem _ hm))⟩

/-! ### Maps -/

/-- Bucket `i` consists of the nodes at `chain i`, and their keys belong there. -/
structure Good (m : StringHash V) (chain : Nat → List Nat) : Prop where
  chains : ∀ i, Chain m.nodes (m.bks i).head (chain i)
  tail : ∀ i, (m.bks i).tail = (chain i).getLast?
  size : ∀ i, (m.bks i).size = (chain i).length
  nodup : ∀ i, (chain i).Nodup
  bucket : ∀ i, ∀ a ∈ chain i, ∃ node key, m.nodes[a]? = some node ∧ node.key = strmem key ∧ bucketId key = i

/-- The map holds the values that `f` gives. -/
def Represents (m : StringHash V) (f : List UInt8 → Option V) : Prop :=
  ∃ chain, Good m chain ∧ ∀ key, (matched m.nodes key (chain (bucketId key))).map HashNode.value = f key

variable {m : StringHash V} {chain : Nat → List Nat} {f : List UInt8 → Option V}

theorem Good.lt (h : Good m chain) {i a : Nat} (ha : a ∈ chain i) : a < m.nodes.length := by
  obtain ⟨node, -, hn, -⟩ := h.bucket i a ha
  exact (List.getElem?_eq_some_iff.1 hn).1

theorem Good.length_le (h : Good m chain) (i : Nat) : (chain i).length ≤ m.nodes.length := by
  have hsub : chain i ⊆ List.range m.nodes.length := fun a ha => List.mem_range.2 (h.lt ha)
  have := ((h.nodup i).subperm hsub).length_le
  rwa [List.length_range] at this

theorem Good.disjoint (h : Good m chain) {i j a : Nat} (hi : a ∈ chain i) (hj : a ∈ chain j) : i = j := by
  obtain ⟨n, k, hn, hk, rfl⟩ := h.bucket i a hi
  obtain ⟨n', k', hn', hk', rfl⟩ := h.bucket j a hj
  rw [hn] at hn'
  cases hn'
  rw [List.append_cancel_right (hk.symm.trans hk' : k ++ [0] = k' ++ [0])]

theorem represents_init : Represents (init : StringHash V) fun _ => none :=
  ⟨fun _ => [], ⟨fun _ => rfl, fun _ => rfl, fun _ => rfl, fun _ => .nil, nofun⟩, fun _ => rfl⟩

theorem queryHash_eq (h : Represents m f) (key : List UInt8) : queryHash m key = .ok (f key) := by
  obtain ⟨chain, hg, hf⟩ := h
  rw [queryHash, findNode_eq key (hg.chains _) (hg.length_le _), ok_bind, hf]
  rfl

/-- The arena after `make_node`. -/
def allocated (m : StringHash V) (key : List UInt8) (v : V) : List (HashNode V) :=
  m.nodes ++ [⟨strmem key, v, none⟩]

theorem allocated_old (m : StringHash V) (key : List UInt8) (v : V) {a : Nat} (ha : a < m.nodes.length) :
    (m.allocated key v)[a]? = m.nodes[a]? := List.getElem?_append_left ha

theorem allocated_new (m : StringHash V) (key : List UInt8) (v : V) :
    (m.allocated key v)[m.nodes.length]? = some ⟨strmem key, v, none⟩ := by simp [allocated]

theorem length_allocated (m : StringHash V) (key : List UInt8) (v : V) :
    (m.allocated key v).length = m.nodes.length + 1 := by simp [allocated]

/-- One bucket anew. -/
theorem Good.update (hg : Good m chain) {id : Nat} {nodes : List (HashNode V)} {bk : HashBucket} {as : List Nat}
    (hchain : Chain nodes bk.head as) (htail : bk.tail = as.getLast?) (hsize : bk.size = as.length) (hnd : as.Nodup)
    (hin : ∀ a ∈ as, ∃ node key, nodes[a]? = some node ∧ node.key = strmem key ∧ bucketId key = id)
    (hother : ∀ i ≠ id, ∀ a ∈ chain i, nodes[a]? = m.nodes[a]?) :
    Good ⟨nodes, Function.update m.bks id bk⟩ (Function.update chain id as) := by
  refine ⟨fun i => ?_, fun i => ?_, fun i => ?_, fun i => ?_, fun i a ha => ?_⟩ <;>
    rcases eq_or_ne i id with rfl | hi
  · simpa using hchain
  · simpa [hi] using (hg.chains i).congr fun a ha => by rw [hother i hi a ha]
  · simpa using htail
  · simpa [hi] using hg.tail i
  · simpa using hsize
  · simpa [hi] using hg.size i
  · simpa using hnd
  · simpa [hi] using hg.nodup i
  · rw [Function.update_self] at ha
    exact hin a ha
  · rw [Function.update_of_ne hi] at ha
    rw [hother i hi a ha]
    exact hg.bucket i a ha

theorem values_update (hf : ∀ k, (matched m.nodes k (chain (bucketId k))).map HashNode.value = f k) {id : Nat}
    {nodes : List (HashNode V)} {as : List Nat} {f' : List UInt8 → Option V}
    (hid : ∀ k, bucketId k = id → (matched nodes k as).map HashNode.value = f' k)
    (hother : ∀ i ≠ id, ∀ a ∈ chain i, nodes[a]? = m.nodes[a]?) (hf' : ∀ k, bucketId k ≠ id → f' k = f k)
    (k : List UInt8) : (matched nodes k (Function.update chain id as (bucketId k))).map HashNode.value = f' k := by
  by_cases hk : bucketId k = id
  · rw [hk, Function.update_self, hid k hk]
  · rw [Function.update_of_ne hk, hf' k hk, ← hf k]
    exact matched_congr fun a ha => by rw [hother _ hk a ha]

/-- Adding a node at the end of its bucket. -/
theorem good_extend (hg : Good m chain) (nodes : List (HashNode V)) (head : Option Nat)
    (hf : ∀ key, (matched m.nodes key (chain (bucketId key))).map HashNode.value = f key)
    {key : List UInt8} (hkey : f key = none) {v : V}
    (hold : ∀ a < m.nodes.length, (nodes[a]?).map (fun n => (n.key, n.value)) =
      (m.nodes[a]?).map fun n => (n.key, n.value))
    {node : HashNode V} (hnew : nodes[m.nodes.length]? = some node) (hnk : node.key = strmem key)
    (hnv : node.value = v) (hchain : Chain nodes head (chain (bucketId key) ++ [m.nodes.length]))
    (hother : ∀ i ≠ bucketId key, ∀ a ∈ chain i, nodes[a]? = m.nodes[a]?) :
    Good ⟨nodes, Function.update m.bks (bucketId key) ⟨head, some m.nodes.length, (m.bks (bucketId key)).size + 1⟩⟩
      (Function.update chain (bucketId key) (chain (bucketId key) ++ [m.nodes.length])) ∧
    ∀ k, (matched nodes k (Function.update chain (bucketId key) (chain (bucketId key) ++ [m.nodes.length])
      (bucketId k))).map HashNode.value = Function.update f key (some v) k := by
  have hnew' : m.nodes.length ∉ chain (bucketId key) := fun hm => absurd (hg.lt hm) (lt_irrefl _)
  refine ⟨hg.update hchain (by simp) (by simp [hg.size]) ((hg.nodup _).append (List.nodup_singleton _)
    fun a ha ha' => hnew' (List.mem_singleton.1 ha' ▸ ha)) (fun a ha => ?_) hother,
    values_update hf (fun k hk => ?_) hother
      fun k hk => Function.update_of_ne (fun he => hk (congrArg bucketId he)) _ _⟩
  · rcases List.mem_append.1 ha with ha | ha
    · obtain ⟨n, k, hn, hk, hb⟩ := hg.bucket _ a ha
      have := hold a (hg.lt ha)
      rw [hn, Option.map_some, Option.map_eq_some_iff] at this
      obtain ⟨n', hn', he⟩ := this
      exact ⟨n', k, hn', (Prod.mk.inj he).1.trans hk, hb⟩
    · rw [List.mem_singleton.1 ha]
      exact ⟨node, key, hnew, hnk, rfl⟩
  · have hsame : (matched nodes k (chain (bucketId key))).map HashNode.value = f k := by
      rw [← hk]
      exact (matched_congr fun a ha => hold a (hg.lt ha)).trans (hf k)
    have hone : ([m.nodes.length].filterMap (nodes[·]?)) = [node] := by simp [hnew]
    rw [matched, List.filterMap_append, List.find?_append, ← matched, hone]
    rcases eq_or_ne k key with rfl | hne
    · rw [hkey, Option.map_eq_none_iff] at hsame
      rw [hsame, Function.update_self]
      simp [hnk, hnv]
    · have hne' : node.key ≠ strmem k := fun he =>
        hne (List.append_cancel_right (he.symm.trans hnk : k ++ [0] = key ++ [0]))
      rw [Function.update_of_ne hne, ← hsame]
      simp [hne']

theorem insertHash_allocated (m : StringHash V) (key : List UInt8) (v : V) : insertHash m key v = (do
    match (m.bks (bucketId key)).head with
    | none => return (⟨m.allocated key v, Function.update m.bks (bucketId key)
        ⟨some m.nodes.length, some m.nodes.length, 1⟩⟩, true)
    | some _ =>
      match ← findNode (m.allocated key v) key (m.allocated key v).length (m.bks (bucketId key)).head with
      | some _ => return (⟨m.allocated key v, m.bks⟩, false)
      | none =>
        let tail ← deref (m.bks (bucketId key)).tail
        let nodes ← catNode (m.allocated key v) tail (some m.nodes.length)
        return (⟨nodes, Function.update m.bks (bucketId key) ⟨(m.bks (bucketId key)).head,
          some m.nodes.length, (m.bks (bucketId key)).size + 1⟩⟩, true)) := rfl

/-- In a bucket that is not empty the loop of `insert_bucket` decides. -/
theorem insertHash_chain (hg : Good m chain) {key : List UInt8} (hne : chain (bucketId key) ≠ []) {v : V} :
    insertHash m key v = (match matched (m.allocated key v) key (chain (bucketId key)) with
      | some _ => .ok (⟨m.allocated key v, m.bks⟩, false)
      | none => do
        let tail ← deref (m.bks (bucketId key)).tail
        let nodes ← catNode (m.allocated key v) tail (some m.nodes.length)
        return (⟨nodes, Function.update m.bks (bucketId key) ⟨(m.bks (bucketId key)).head,
          some m.nodes.length, (m.bks (bucketId key)).size + 1⟩⟩, true)) := by
  have hch := hg.chains (bucketId key)
  obtain ⟨first, hhead⟩ : ∃ first, (m.bks (bucketId key)).head = some first := by
    obtain ⟨a, as, ha⟩ := List.exists_cons_of_ne_nil hne
    rw [ha] at hch
    exact ⟨a, hch.1⟩
  have hfind := findNode_eq key (hch.congr fun a ha => by rw [allocated_old m key v (hg.lt ha)])
    (show _ ≤ (m.allocated key v).length by
      rw [length_allocated]
      exact Nat.le_succ_of_le (hg.length_le _))
  rw [insertHash_allocated, hhead]
  rw [hhead] at hfind
  simp only [hfind, ok_bind]
  cases matched (m.allocated key v) key (chain (bucketId key)) <;> rfl

/-- Inserting a key that is absent. -/
theorem insertHash_spec (hg : Good m chain)
    (hf : ∀ key, (matched m.nodes key (chain (bucketId key))).map HashNode.value = f key) {key : List UInt8}
    (hkey : f key = none) (v : V) :
    ∃ m', insertHash m key v = .ok (m', true) ∧
      Good m' (Function.update chain (bucketId key) (chain (bucketId key) ++ [m.nodes.length])) ∧
      (∀ k, (matched m'.nodes k (Function.update chain (bucketId key) (chain (bucketId key) ++ [m.nodes.length])
        (bucketId k))).map HashNode.value = Function.update f key (some v) k) ∧
      (∀ a < m.nodes.length, (m'.nodes[a]?).map HashNode.key = (m.nodes[a]?).map HashNode.key) ∧
      (m'.nodes[m.nodes.length]?).map HashNode.key = some (strmem key) := by
  have hch := hg.chains (bucketId key)
  have hold : ∀ i, ∀ a ∈ chain i, (m.allocated key v)[a]? = m.nodes[a]? :=
    fun i a ha => allocated_old m key v (hg.lt ha)
  have hkeys : ∀ a < m.nodes.length, ((m.allocated key v)[a]?).map HashNode.key = (m.nodes[a]?).map HashNode.key :=
    fun a ha => by rw [allocated_old m key v ha]
  by_cases hnil : chain (bucketId key) = []
  · have hhead : (m.bks (bucketId key)).head = none := by rwa [hnil] at hch
    have hsize : (m.bks (bucketId key)).size = 0 := by rw [hg.size, hnil]; rfl
    obtain ⟨hg', hf'⟩ := good_extend hg (m.allocated key v) (some m.nodes.length) hf hkey
      (fun a ha => by rw [allocated_old m key v ha]) (allocated_new m key v) rfl rfl
      (by rw [hnil]; exact ⟨rfl, _, allocated_new m key v, rfl⟩) fun i _ => hold i
    rw [hsize] at hg'
    exact ⟨_, by rw [insertHash_allocated, hhead]; rfl, hg', hf', hkeys, by rw [allocated_new]; rfl⟩
  · have hnone : matched (m.allocated key v) key (chain (bucketId key)) = none := by
      have := hf key
      rw [hkey, ← matched_congr fun a ha => by rw [hold _ a ha]] at this
      exact Option.map_eq_none_iff.1 this
    obtain ⟨tail, htail⟩ : ∃ tail, (chain (bucketId key)).getLast? = some tail :=
      ⟨_, List.getLast?_eq_getLast_of_ne_nil hnil⟩
    have hmem : tail ∈ chain (bucketId key) := List.mem_of_getLast? htail
    have hlt := hg.lt hmem
    obtain ⟨last, -, hlast, -⟩ := hg.bucket _ tail hmem
    have hlast' := (allocated_old m key v hlt).trans hlast
    have hcat : catNode (m.allocated key v) tail (some m.nodes.length) =
        .ok ((m.allocated key v).set tail { last with next := some m.nodes.length }) := by
      rw [catNode, hlast']
    have htaillt : tail < (m.allocated key v).length := by rw [length_allocated]; omega
    have hsame : ∀ a ≠ tail, ((m.allocated key v).set tail { last with next := some m.nodes.length })[a]? =
        (m.allocated key v)[a]? := fun a hat => List.getElem?_set_ne hat.symm
    have hself : ((m.allocated key v).set tail { last with next := some m.nodes.length })[tail]? =
        some { last with next := some m.nodes.length } := List.getElem?_set_self htaillt
    have hnew := (hsame _ (Nat.ne_of_gt hlt)).trans (allocated_new m key v)
    obtain ⟨hg', hf'⟩ := good_extend hg ((m.allocated key v).set tail { last with next := some m.nodes.length })
      (m.bks (bucketId key)).head hf hkey (fun a ha => by
        rcases eq_or_ne a tail with rfl | hat
        · rw [hself, hlast]
          rfl
        · rw [hsame a hat, allocated_old m key v ha])
      hnew rfl rfl
      ((hch.congr fun a ha => by rw [hold _ a ha]).snoc (hg.nodup _) hnil htail (allocated_new m key v) rfl hlast'
        fun hm => absurd (hg.lt hm) (lt_irrefl _))
      fun i hi a ha => by
        have hat : a ≠ tail := fun he => hi (hg.disjoint ha (he ▸ hmem))
        rw [hsame a hat, hold i a ha]
    refine ⟨_, ?_, hg', hf', fun a ha => ?_, by rw [hnew]; rfl⟩
    · rw [insertHash_chain hg hnil, hnone]
      simp only [hg.tail, htail, deref, ok_bind, hcat]
      rfl
    · rcases eq_or_ne a tail with rfl | hat
      · rw [hself, hlast]
        rfl
      · rw [hsame a hat, hkeys a ha]

theorem insertHash_eq (h : Represents m f) {key : List UInt8} (hkey : f key = none) (v : V) :
    ∃ m', insertHash m key v = .ok (m', true) ∧ Represents m' (Function.update f key (some v)) := by
  obtain ⟨chain, hg, hf⟩ := h
  obtain ⟨m', hins, hg', hf', -⟩ := insertHash_spec hg hf hkey v
  exact ⟨m', hins, _, hg', hf'⟩

end StringHash

end DnsRelay
