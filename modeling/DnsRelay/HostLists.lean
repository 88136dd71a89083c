import DnsRelay.Host

/-!
# The lists of the host table

The lists that `hostInit` builds, as nodes: each head and the `node` of each entry has its two links, and a
line that comes in is linked in behind the head its name is mapped to. A heap `Refines` a `HostMap` if every
head's links run through the entries of its list, no entry being on two lists.
-/

namespace DnsRelay
open Exec

inductive HostNode
  | head (i : Nat)
  | entry (j : Nat)
deriving DecidableEq

/-- `__HOST_HASHMAP__`, the heads and the entries in the order of their allocation, and the links of both. -/
structure HostHeap where
  hash : StringHash Nat
  heads : Nat
  entries : List DNSEntry
  links : Links HostNode

namespace HostHeap

/-- An empty map; memory that is not allocated yet may hold any links. -/
def init (links : Links HostNode) : HostHeap := ⟨.init, 0, [], links⟩

/-- `malloc` and `INIT_MY_LIST_HEAD` -/
def newHead (h : HostHeap) : HostHeap where
  hash := h.hash
  heads := h.heads + 1
  entries := h.entries
  links := ⟨Function.update h.links.next (.head h.heads) (some (.head h.heads)),
    Function.update h.links.prev (.head h.heads) (some (.head h.heads))⟩

/-- `mylist_add_head(&entry->node, head)` for a new entry -/
def addHead (h : HostHeap) (entry : DNSEntry) (head : Nat) : Exec HostHeap := do
  let links ← mylistAddHead h.links (.entry h.entries.length) (.head head)
  return { h with entries := h.entries ++ [entry], links := links }

/-- The body of the loop of `hostInit`. -/
def hostLine (h : HostHeap) (buffer : List UInt8) (now : Nat) : Exec HostHeap :=
  if buffer.head? = some newline then .ok h else do
  let (val, rest) := strtok space (buffer.takeWhile (· ≠ 0))
  let (key, _) := strtok newline rest
  let entry := dnsEntrySet key val 0 typeA.toUInt8 0 now
  let val ← deref val
  let entry := if colon ∈ val then { entry with type := typeAaaa.toUInt8 } else entry
  let name ← deref entry.domainName
  match ← h.hash.queryHash name with
  | some head => if h.heads ≤ head then .error .write else h.addHead entry head
  | none =>
    let head := h.heads
    let h ← h.newHead.addHead entry head
    let (hash, _) ← h.hash.insertHash name head
    return { h with hash := hash }

def hostLoop (clk : Nat → Nat) : Nat → Nat → List UInt8 → HostHeap → Exec HostHeap
  | 0, _, _, _ => .error .hang
  | fuel + 1, k, file, h => match fgets file with
    | none => .ok h
    | some (buffer, rest, eof) => if eof then .ok h else do
      let h ← h.hostLine buffer (clk k)
      hostLoop clk fuel (k + 1) rest h

def hostInit (links : Links HostNode) (clk : Nat → Nat) (file : List UInt8) : Exec HostHeap :=
  hostLoop clk (file.length + 1) 0 file (.init links)

/-- The first walk of `hostQuery`, from node `p` on: it counts the nodes. -/
def hostCount (h : HostHeap) (res : Nat) : Nat → HostNode → Nat → Exec Nat
  | 0, _, _ => .error .hang
  | fuel + 1, p, count => if p = .head res then .ok count else do
    let p ← deref (h.links.next p)
    hostCount h res fuel p (count + 1)

/-- The second, which fills the `count` entries of `*result`. -/
def hostWalk (clk : Nat → Nat) (entry : DNSEntry) (h : HostHeap) (res count : Nat) :
    Nat → Nat → HostNode → List DNSEntry → Exec (Int × List DNSEntry)
  | 0, _, _, _ => .error .hang
  | _ + 1, _, .head i, result => if i = res then .ok (result.length, result) else .error .read
  | fuel + 1, k, .entry j, result => match h.entries[j]? with
    | none => .error .read
    | some temp => do
      let blocked ← (if entry.type = typeA.toUInt8 then do
          let ip ← deref temp.ip
          return decide (ip = blockIp)
        else return false : Exec Bool)
      if blocked then return (-1, result)
      let result ← (if temp.type = entry.type then
          if result.length < count then .ok (result ++ [{ temp with timestamp := clk k + 0x80 }]) else .error .write
        else .ok result : Exec (List DNSEntry))
      let p ← deref (h.links.next (.entry j))
      hostWalk clk entry h res count fuel (k + 1) p result

/-- A walk that has met more nodes than there are entries is in a cycle. -/
def hostQuery (h : HostHeap) (clk : Nat → Nat) (entry : DNSEntry) : Exec (Int × List DNSEntry) := do
  let name ← deref entry.domainName
  match ← h.hash.queryHash name with
  | none => return (0, [])
  | some head => if h.heads ≤ head then .error .read else do
    let p ← deref (h.links.next (.head head))
    let count ← h.hostCount head (h.entries.length + 1) p 0
    hostWalk clk entry h head count (h.entries.length + 1) 0 p []

/-- The entry goes to the list of its name, or to a new one. -/
def link (h : HostHeap) (entry : DNSEntry) (name : List UInt8) : Exec HostHeap := do
  match ← h.hash.queryHash name with
  | some head => if h.heads ≤ head then .error .write else h.addHead entry head
  | none =>
    let head := h.heads
    let h ← h.newHead.addHead entry head
    let (hash, _) ← h.hash.insertHash name head
    return { h with hash := hash }

theorem hostLine_eq (h : HostHeap) (buffer : List UInt8) (now : Nat) :
    h.hostLine buffer now = if buffer.head? = some newline then .ok h else
      match tokens buffer with
      | none => .error .null
      | some l => h.link (l.entry now) l.name := by
  rw [hostLine]
  split
  · rfl
  · exact deref_tokens buffer now h.link

/-- The list behind head `i` runs through the entries `chain i`. -/
structure Refines (h : HostHeap) (m : HostMap) (chain : Nat → List Nat) : Prop where
  hash : h.hash = m.hash
  heads : h.heads = m.lists.length
  ring : ∀ i < h.heads, IsRing h.links (.head i) ((chain i).map .entry)
  list : ∀ {i list}, m.lists[i]? = some list → list.map some = (chain i).map (h.entries[·]?)
  lt : ∀ {i j}, j ∈ chain i → j < h.entries.length
  apart : ∀ {i i' j}, j ∈ chain i → j ∈ chain i' → i = i'

section
variable {h h' : HostHeap} {m m' : HostMap} {chain : Nat → List Nat} {list : List DNSEntry} {entry : DNSEntry}
  {i j n : Nat} {res count : Nat} {js js₁ js₂ : List Nat}

theorem mem_update_nil {chain : Nat → List Nat} {i i' j : Nat} (hj : j ∈ Function.update chain i [] i') :
    j ∈ chain i' := by
  rcases eq_or_ne i' i with rfl | hne
  · rw [Function.update_self] at hj
    cases hj
  · rwa [Function.update_of_ne hne] at hj

theorem mem_update_cons {chain : Nat → List Nat} {i i' j n : Nat}
    (hj : j ∈ Function.update chain i (n :: chain i) i') : (i' = i ∧ j = n) ∨ j ∈ chain i' := by
  rcases eq_or_ne i' i with rfl | hne
  · rw [Function.update_self] at hj
    exact (List.mem_cons.1 hj).imp_left fun he => ⟨rfl, he⟩
  · rw [Function.update_of_ne hne] at hj
    exact .inr hj

namespace Refines

theorem init (links : Links HostNode) : Refines (.init links) ⟨.init, []⟩ fun _ => [] :=
  ⟨rfl, rfl, nofun, nofun, nofun, nofun⟩

theorem newHead (hr : Refines h m chain) :
    Refines h.newHead { m with lists := m.lists ++ [[]] } (Function.update chain h.heads []) where
  hash := hr.hash
  heads := by rw [List.length_append, ← hr.heads]; rfl
  ring i hi := by
    rcases Nat.lt_succ_iff_lt_or_eq.1 hi with hlt | rfl
    · have hne {p : HostNode} (hp : p ∈ .head i :: (chain i).map .entry) : p ≠ .head h.heads := by
        rintro rfl
        rcases List.mem_cons.1 hp with he | hm
        · exact absurd (HostNode.head.inj he) (by omega)
        · obtain ⟨_, -, he⟩ := List.mem_map.1 hm
          cases he
      rw [Function.update_of_ne (by omega)]
      exact (hr.ring i hlt).congr (fun p hp => Function.update_of_ne (hne hp) _ _) fun p hp =>
        Function.update_of_ne (hne hp) _ _
    · rw [Function.update_self]
      exact .nil (Function.update_self (HostNode.head h.heads) _ h.links.next)
        (Function.update_self (HostNode.head h.heads) _ h.links.prev)
  list {i list} hl := by
    rcases eq_or_ne i h.heads with rfl | hne
    · rw [hr.heads, List.getElem?_concat_length] at hl
      cases hl
      rw [Function.update_self]
      rfl
    · have hlt : i < m.lists.length := by
        have := (List.getElem?_eq_some_iff.1 hl).1
        rw [List.length_append, List.length_singleton, ← hr.heads] at this
        rw [← hr.heads]
        omega
      rw [List.getElem?_append_left hlt] at hl
      rw [Function.update_of_ne hne]
      exact hr.list hl
  lt hj := hr.lt (mem_update_nil hj)
  apart hj hj' := hr.apart (mem_update_nil hj) (mem_update_nil hj')

theorem addHead (hr : Refines h m chain) (hl : m.lists[i]? = some list) (entry : DNSEntry) :
    ∃ h', h.addHead entry i = .ok h' ∧ Refines h' { m with lists := m.lists.set i (entry :: list) }
      (Function.update chain i (h.entries.length :: chain i)) := by
  have hi : i < h.heads := hr.heads ▸ (List.getElem?_eq_some_iff.1 hl).1
  have hnew {i : Nat} : HostNode.entry h.entries.length ∉ .head i :: (chain i).map .entry := by
    simp only [List.mem_cons, List.mem_map, reduceCtorEq, HostNode.entry.injEq, exists_eq_right, false_or]
    exact fun hm => Nat.lt_irrefl _ (hr.lt hm)
  have hold {i : Nat} {list : List DNSEntry} (hl : m.lists[i]? = some list) :
      list.map some = (chain i).map ((h.entries ++ [entry])[·]?) :=
    (hr.list hl).trans (List.map_congr_left fun j hj => (List.getElem?_append_left (hr.lt hj)).symm)
  obtain ⟨links, hadd, hring, hframe⟩ := mylistAddHead_ring (hr.ring i hi) hnew
  refine ⟨⟨h.hash, h.heads, h.entries ++ [entry], links⟩, by rw [HostHeap.addHead, hadd]; rfl, hr.hash, ?_,
    fun i' hi' => ?_, fun {i' list'} hl' => ?_, fun {i' j} hj => ?_, fun {i₁ i₂ j} hj hj' => ?_⟩
  · rw [List.length_set]
    exact hr.heads
  · rcases eq_or_ne i' i with rfl | hne
    · rw [Function.update_self]
      exact hring
    · rw [Function.update_of_ne hne]
      have hout (p : HostNode) (hp : p ∈ .head i' :: (chain i').map .entry) :
          p ∉ HostNode.head i :: .entry h.entries.length :: (chain i).map .entry := by
        simp only [List.mem_cons, List.mem_map] at hp ⊢
        rintro (rfl | rfl | ⟨j, hj, rfl⟩)
        · simp at hp
          omega
        · exact hnew (by simpa only [List.mem_cons, List.mem_map] using hp)
        · simp only [reduceCtorEq, HostNode.entry.injEq, exists_eq_right, false_or] at hp
          exact hne (hr.apart hp hj)
      exact (hr.ring i' hi').congr (fun p hp => (hframe p (hout p hp)).1) fun p hp => (hframe p (hout p hp)).2
  · rcases eq_or_ne i' i with rfl | hne
    · rw [List.getElem?_set_self (hr.heads ▸ hi)] at hl'
      cases hl'
      rw [Function.update_self, List.map_cons, List.map_cons, List.getElem?_concat_length, hold hl]
    · rw [List.getElem?_set_ne hne.symm] at hl'
      rw [Function.update_of_ne hne]
      exact hold hl'
  · rw [List.length_append, List.length_singleton]
    rcases mem_update_cons hj with ⟨-, rfl⟩ | hj
    · exact Nat.lt_succ_self _
    · exact Nat.lt_succ_of_lt (hr.lt hj)
  · rcases mem_update_cons hj with ⟨hi₁, he⟩ | hj <;> rcases mem_update_cons hj' with ⟨hi₂, he'⟩ | hj'
    · exact hi₁.trans hi₂.symm
    · exact absurd (he ▸ hr.lt hj') (Nat.lt_irrefl _)
    · exact absurd (he' ▸ hr.lt hj) (Nat.lt_irrefl _)
    · exact hr.apart hj hj'

theorem rehash (hr : Refines h m chain) (hash : StringHash Nat) :
    Refines { h with hash := hash } { m with hash := hash } chain :=
  ⟨rfl, hr.heads, hr.ring, hr.list, hr.lt, hr.apart⟩

/-- A new head with one entry. -/
theorem extend (hr : Refines h m chain) (entry : DNSEntry) :
    ∃ h' chain', h.newHead.addHead entry h.heads = .ok h' ∧
      Refines h' { m with lists := m.lists ++ [[entry]] } chain' := by
  have hl : (m.lists ++ [[]])[h.heads]? = some [] := by rw [hr.heads, List.getElem?_concat_length]
  obtain ⟨h', hadd, hr'⟩ := hr.newHead.addHead hl entry
  have hset : (m.lists ++ [[]]).set h.heads [entry] = m.lists ++ [[entry]] := by
    rw [List.set_append_right _ _ (le_of_eq hr.heads.symm), hr.heads, Nat.sub_self]
    rfl
  rw [hset] at hr'
  exact ⟨h', _, hadd, hr'⟩

theorem length_le (hr : Refines h m chain) (hi : i < h.heads) : (chain i).length ≤ h.entries.length := by
  have hsub : chain i ⊆ List.range h.entries.length := fun j hj => List.mem_range.2 (hr.lt hj)
  have := ((hr.ring i hi).nodup_tail.of_map _).subperm hsub |>.length_le
  rwa [List.length_range] at this

theorem link (hr : Refines h m chain) {name : List UInt8} (hlink : m.link entry name = .ok m') :
    ∃ h' chain', h.link entry name = .ok h' ∧ Refines h' m' chain' := by
  rw [HostMap.link] at hlink
  obtain ⟨found, hfound, hlink⟩ := bind_ok.1 hlink
  rw [HostHeap.link, hr.hash, hfound, ok_bind]
  cases found with
  | some head =>
    dsimp only at hlink ⊢
    cases hl : m.lists[head]? with
    | none => rw [hl] at hlink; cases hlink
    | some list =>
      rw [hl] at hlink
      cases hlink
      have hlt : head < h.heads := hr.heads ▸ (List.getElem?_eq_some_iff.1 hl).1
      obtain ⟨h', hadd, hr'⟩ := hr.addHead hl _
      exact ⟨h', _, by rw [if_neg (Nat.not_le.2 hlt)]; exact hadd, hr'⟩
  | none =>
    dsimp only at hlink ⊢
    obtain ⟨⟨hash, node⟩, hins, hlink⟩ := bind_ok.1 hlink
    cases hlink
    obtain ⟨h', chain', hadd, hr'⟩ := hr.extend _
    refine ⟨⟨hash, h'.heads, h'.entries, h'.links⟩, chain', ?_, hr'.rehash hash⟩
    rw [hadd, ok_bind, hr'.hash, hr.heads, hins]
    rfl

/-- The heap follows the map through a line. -/
theorem hostLine (hr : Refines h m chain) {buffer : List UInt8} {now : Nat}
    (hline : DnsRelay.hostLine m buffer now = .ok m') :
    ∃ h' chain', h.hostLine buffer now = .ok h' ∧ Refines h' m' chain' := by
  rw [DnsRelay.hostLine_eq] at hline
  rw [HostHeap.hostLine_eq]
  by_cases hempty : buffer.head? = some newline
  · rw [if_pos hempty] at hline ⊢
    cases hline
    exact ⟨h, chain, rfl, hr⟩
  · rw [if_neg hempty] at hline ⊢
    cases ht : tokens buffer with
    | none => rw [ht] at hline; cases hline
    | some l =>
      rw [ht] at hline
      exact hr.link hline

theorem hostLoop {clk : Nat → Nat} {fuel k : Nat} {file : List UInt8} (hr : Refines h m chain)
    (hloop : DnsRelay.hostLoop clk fuel k file m = .ok m') :
    ∃ h' chain', hostLoop clk fuel k file h = .ok h' ∧ Refines h' m' chain' := by
  induction fuel generalizing h m chain k file with
  | zero => cases hloop
  | succ fuel ih =>
    rw [DnsRelay.hostLoop] at hloop
    rw [HostHeap.hostLoop]
    cases hget : fgets file with
    | none =>
      rw [hget] at hloop
      cases hloop
      exact ⟨h, chain, rfl, hr⟩
    | some r =>
      obtain ⟨buffer, rest, eof⟩ := r
      rw [hget] at hloop
      cases eof with
      | true =>
        cases hloop
        exact ⟨h, chain, rfl, hr⟩
      | false =>
        obtain ⟨m₁, hline, hloop⟩ := bind_ok.1 hloop
        obtain ⟨h₁, chain₁, hline', hr₁⟩ := hr.hostLine hline
        obtain ⟨h', chain', hloop', hr'⟩ := ih hr₁ hloop
        refine ⟨h', chain', ?_, hr'⟩
        dsimp only
        rw [if_neg Bool.false_ne_true, hline']
        exact hloop'

end Refines

/-! ### The walks -/

theorem hostCount_eq (hr : IsRing h.links (.head i) ((js₁ ++ js₂).map .entry)) {fuel : Nat} (hfuel : js₂.length < fuel)
    (count : Nat) : h.hostCount i fuel ((js₂.map .entry).headD (.head i)) count = .ok (count + js₂.length) := by
  induction js₂ generalizing js₁ fuel count with
  | nil =>
    obtain ⟨fuel, rfl⟩ := Nat.exists_eq_add_one.2 hfuel
    rw [List.map_nil, List.headD_nil, hostCount, if_pos rfl]
    rfl
  | cons j js₂ ih =>
    obtain ⟨fuel, rfl⟩ := Nat.exists_eq_add_one.2 (Nat.zero_lt_of_lt hfuel)
    have hnext : h.links.next (.entry j) = some ((js₂.map .entry).headD (.head i)) := by
      rw [List.map_append] at hr
      exact hr.next_mid
    have hr' : IsRing h.links (.head i) (((js₁ ++ [j]) ++ js₂).map .entry) := by rwa [List.append_assoc]
    have hrest := ih hr' (Nat.lt_of_succ_lt_succ hfuel) (count + 1)
    rw [List.map_cons, List.headD_cons, hostCount, if_neg nofun, hnext, deref, ok_bind, hrest, List.length_cons,
      Nat.add_assoc, Nat.add_comm 1]

/-- As many entries are read as were counted, so `*result` has room for each. -/
theorem hostWalk_eq (clk : Nat → Nat) (entry : DNSEntry) (hr : IsRing h.links (.head i) ((js₁ ++ js₂).map .entry))
    (hlist : list.map some = js₂.map (h.entries[·]?)) {fuel : Nat} (hfuel : js₂.length < fuel) (k : Nat)
    {result : List DNSEntry} (hresult : result.length ≤ js₁.length) :
    hostWalk clk entry h i (js₁ ++ js₂).length fuel k ((js₂.map .entry).headD (.head i)) result =
      DnsRelay.hostWalk clk entry k list result := by
  induction js₂ generalizing js₁ list fuel k result with
  | nil =>
    obtain ⟨fuel, rfl⟩ := Nat.exists_eq_add_one.2 hfuel
    obtain rfl := List.map_eq_nil_iff.1 hlist
    rw [List.map_nil, List.headD_nil, hostWalk, if_pos rfl, DnsRelay.hostWalk]
  | cons j js₂ ih =>
    obtain ⟨fuel, rfl⟩ := Nat.exists_eq_add_one.2 (Nat.zero_lt_of_lt hfuel)
    cases list with
    | nil => cases hlist
    | cons temp list =>
      rw [List.map_cons, List.map_cons, List.cons.injEq] at hlist
      have hnext : h.links.next (.entry j) = some ((js₂.map .entry).headD (.head i)) := by
        rw [List.map_append] at hr
        exact hr.next_mid
      have hroom : result.length < (js₁ ++ j :: js₂).length := by
        rw [List.length_append, List.length_cons]
        omega
      have hr' : IsRing h.links (.head i) (((js₁ ++ [j]) ++ js₂).map .entry) := by rwa [List.append_assoc]
      have hrest (result : List DNSEntry) (hresult : result.length ≤ (js₁ ++ [j]).length) :=
        ih hr' hlist.2 (Nat.lt_of_succ_lt_succ hfuel) (k + 1) hresult
      rw [List.append_assoc, List.singleton_append] at hrest
      rw [List.map_cons, List.headD_cons, hostWalk, ← hlist.1, DnsRelay.hostWalk]
      refine congrArg (Bind.bind _) (funext fun blocked => ?_)
      cases blocked with
      | true => rfl
      | false =>
        rw [if_neg Bool.false_ne_true, if_neg Bool.false_ne_true, hnext]
        by_cases ht : temp.type = entry.type
        · rw [if_pos ht, if_pos ht, if_pos hroom]
          refine hrest _ ?_
          rw [List.length_append, List.length_append]
          exact Nat.succ_le_succ hresult
        · rw [if_neg ht, if_neg ht]
          refine hrest _ ?_
          rw [List.length_append]
          exact Nat.le_succ_of_le hresult

/-- What a query reads off the heap is what it reads off the map. -/
theorem Refines.hostQuery (hr : Refines h m chain) (clk : Nat → Nat) (entry : DNSEntry) :
    h.hostQuery clk entry = DnsRelay.hostQuery clk m entry := by
  rw [HostHeap.hostQuery, DnsRelay.hostQuery, hr.hash]
  refine congrArg (Bind.bind _) (funext fun name => ?_)
  refine congrArg (Bind.bind _) (funext fun found => ?_)
  cases found with
  | none => rfl
  | some head =>
    dsimp only
    cases hl : m.lists[head]? with
    | none =>
      rw [List.getElem?_eq_none_iff, ← hr.heads] at hl
      rw [if_pos hl]
    | some list =>
      have hlt : head < h.heads := hr.heads ▸ (List.getElem?_eq_some_iff.1 hl).1
      have hring := hr.ring head hlt
      have hlen := Nat.lt_succ_of_le (hr.length_le hlt)
      have hring' : IsRing h.links (.head head) (([] ++ chain head).map .entry) := hring
      have hcount := hostCount_eq hring' hlen 0
      have hwalk := hostWalk_eq clk entry hring' (hr.list hl) hlen 0 (Nat.le_refl ([] : List DNSEntry).length)
      rw [List.nil_append] at hwalk
      rw [if_neg (Nat.not_le.2 hlt), hring.next_head, deref, ok_bind, hcount, Nat.zero_add, ok_bind, hwalk]

theorem Refines.hostInit {clk : Nat → Nat} {file : List UInt8} (links : Links HostNode)
    (hinit : DnsRelay.hostInit clk file = .ok m) :
    ∃ h chain, hostInit links clk file = .ok h ∧ Refines h m chain :=
  (Refines.init links).hostLoop hinit

end

end HostHeap

end DnsRelay
