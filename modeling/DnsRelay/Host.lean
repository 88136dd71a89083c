import Mathlib.Data.List.TakeWhile
import DnsRelay.Cache
import DnsRelay.Hash
import DnsRelay.Protocol

/-!
# `Service/host.c`: the host table

`hostInit` reads the host file line by line into a hash map from names to lists of entries,
`hostQuery` walks the list of one name. A list head's address is its index in `lists`, and a list is
kept newest first, as `mylist_add_head` builds it. `table m` is what the map says: the entries of
each name. `hostInit_spec` computes it from the lines of the file.
-/

namespace DnsRelay
open Exec

/-- `__HOST_HASHMAP__` and the lists its values point to. -/
structure HostMap where
  hash : StringHash Nat
  lists : List (List DNSEntry)

def space : UInt8 := 32
def newline : UInt8 := 10
def colon : UInt8 := 58

/-- `"0.0.0.0"` -/
def blockIp : List UInt8 := [48, 46, 48, 46, 48, 46, 48]

/-- Up to `n` bytes, not past a newline: the bytes, the rest of the file, and whether its end was met. -/
def takeLine : Nat → List UInt8 → List UInt8 × List UInt8 × Bool
  | 0, file => ([], file, false)
  | _ + 1, [] => ([], [], true)
  | n + 1, b :: file =>
    if b = newline then ([b], file, false) else
    let (line, rest, eof) := takeLine n file
    (b :: line, rest, eof)

/-- `fgets(buffer, 512, fp)`, `none` for `NULL`, with what `feof(fp)` answers afterwards -/
def fgets (file : List UInt8) : Option (List UInt8 × List UInt8 × Bool) :=
  if file = [] then none else some (takeLine 511 file)

/-- One call of `strtok`: the token, and what is left of the string behind it. -/
def strtok (delim : UInt8) (s : List UInt8) : Option (List UInt8) × List UInt8 :=
  let s := s.dropWhile (· = delim)
  if s = [] then (none, []) else
  (some (s.takeWhile (· ≠ delim)), (s.dropWhile (· ≠ delim)).drop 1)

/-- The body of the loop of `hostInit`, on the bytes `fgets` put into `buffer`. -/
def hostLine (m : HostMap) (buffer : List UInt8) (now : Nat) : Exec HostMap :=
  if buffer.head? = some newline then .ok m else do
  let (val, rest) := strtok space (buffer.takeWhile (· ≠ 0))
  let (key, _) := strtok newline rest
  let entry := dnsEntrySet key val 0 typeA.toUInt8 0 now
  let val ← deref val
  let entry := if colon ∈ val then { entry with type := typeAaaa.toUInt8 } else entry
  let name ← deref entry.domainName
  match ← m.hash.queryHash name with
  | some head => match m.lists[head]? with
    | none => .error .write
    | some list => return { m with lists := m.lists.set head (entry :: list) }
  | none =>
    let (hash, _) ← m.hash.insertHash name m.lists.length
    return ⟨hash, m.lists ++ [[entry]]⟩

/-- The loop of `hostInit`; every round takes at least one byte from the file. -/
def hostLoop (clk : Nat → Nat) : Nat → Nat → List UInt8 → HostMap → Exec HostMap
  | 0, _, _, _ => .error .hang
  | fuel + 1, k, file, m => match fgets file with
    | none => .ok m
    | some (buffer, rest, eof) => if eof then .ok m else do
      let m ← hostLine m buffer (clk k)
      hostLoop clk fuel (k + 1) rest m

/-- `hostInit` on the contents of the host file; `clk k` is what the clock reads at the `k`-th line. -/
def hostInit (clk : Nat → Nat) (file : List UInt8) : Exec HostMap :=
  hostLoop clk (file.length + 1) 0 file ⟨.init, []⟩

/-- The second walk of `hostQuery`; `res` is the result so far. -/
def hostWalk (clk : Nat → Nat) (entry : DNSEntry) : Nat → List DNSEntry → List DNSEntry →
    Exec (Int × List DNSEntry)
  | _, [], res => .ok (res.length, res)
  | k, temp :: list, res => do
    let blocked ← (if entry.type = typeA.toUInt8 then do
        let ip ← deref temp.ip
        return decide (ip = blockIp)
      else return false : Exec Bool)
    if blocked then return (-1, res)
    let res := if temp.type = entry.type then res ++ [{ temp with timestamp := clk k + 0x80 }] else res
    hostWalk clk entry (k + 1) list res

/-- `hostQuery`: the return value and the entries in `*result`. The pointer `flag` is never `NULL`,
so its tests never stop the walk. -/
def hostQuery (clk : Nat → Nat) (m : HostMap) (entry : DNSEntry) : Exec (Int × List DNSEntry) := do
  let name ← deref entry.domainName
  match ← m.hash.queryHash name with
  | none => return (0, [])
  | some head => match m.lists[head]? with
    | none => .error .read
    | some list => hostWalk clk entry 0 list []

/-! ### What the table says -/

/-- A line of the host file. -/
structure HostLine where
  ip : List UInt8
  name : List UInt8
deriving DecidableEq

namespace HostLine

def text (l : HostLine) : List UInt8 := l.ip ++ space :: l.name ++ [newline]

structure Valid (l : HostLine) : Prop where
  ip_ne : l.ip ≠ []
  name_ne : l.name ≠ []
  ip_clean : space ∉ l.ip ∧ newline ∉ l.ip ∧ 0 ∉ l.ip
  name_clean : newline ∉ l.name ∧ 0 ∉ l.name
  length_le : l.text.length ≤ 511

/-- The 8-bit type of the entry. -/
def type (l : HostLine) : UInt8 := if colon ∈ l.ip then typeAaaa.toUInt8 else typeA.toUInt8

def entry (l : HostLine) (now : Nat) : DNSEntry := ⟨some l.name, some l.ip, l.type, 0, now⟩

end HostLine

/-- The bytes of a host file; `none` is an empty line. -/
def hostFile (lines : List (Option HostLine)) : List UInt8 :=
  lines.flatMap fun
    | none => [newline]
    | some l => l.text

section Lines
variable {delim : UInt8} {tok line rest tail : List UInt8} {n : Nat} {l : HostLine}

theorem strtok_eq (hne : tok ≠ []) (h : delim ∉ tok) (rest : List UInt8) :
    strtok delim (tok ++ delim :: rest) = (some tok, rest) := by
  obtain ⟨b, tok', rfl⟩ := List.exists_cons_of_ne_nil hne
  have hb : b ≠ delim := fun he => h (he ▸ List.mem_cons_self)
  have hskip : ((b :: tok') ++ delim :: rest).dropWhile (· = delim) = (b :: tok') ++ delim :: rest := by
    simp [hb]
  have hall : ∀ c ∈ b :: tok', decide (c ≠ delim) = true := fun c hc => by
    simpa using fun he : c = delim => h (he ▸ hc)
  rw [strtok]
  simp only [hskip, List.takeWhile_append_of_pos hall, List.dropWhile_append_of_pos hall]
  simp

theorem HostLine.Valid.zero_notMem (hl : l.Valid) : 0 ∉ l.text := by
  have h₁ := hl.ip_clean.2.2
  have h₂ := hl.name_clean.2
  simp [HostLine.text, h₁, h₂, space, newline]

/-- The two tokens of a line: the address and the name. -/
def tokens (buffer : List UInt8) : Option HostLine :=
  let (val, rest) := strtok space (buffer.takeWhile (· ≠ 0))
  let (key, _) := strtok newline rest
  val.bind fun ip => key.map fun name => ⟨ip, name⟩

/-- The loop body follows both tokens: without one of them it follows `NULL`. -/
theorem deref_tokens {α : Type} (buffer : List UInt8) (now : Nat) (k : DNSEntry → List UInt8 → Exec α) :
    (do
      let (val, rest) := strtok space (buffer.takeWhile (· ≠ 0))
      let (key, _) := strtok newline rest
      let entry := dnsEntrySet key val 0 typeA.toUInt8 0 now
      let val ← deref val
      let entry := if colon ∈ val then { entry with type := typeAaaa.toUInt8 } else entry
      let name ← deref entry.domainName
      k entry name : Exec α) =
    match tokens buffer with
    | none => .error .null
    | some l => k (l.entry now) l.name := by
  unfold tokens
  generalize strtok space (buffer.takeWhile (· ≠ 0)) = p
  obtain ⟨val, rest⟩ := p
  dsimp only
  generalize strtok newline rest = p
  obtain ⟨key, rest'⟩ := p
  cases val with
  | none => rfl
  | some ip =>
    have htype : ∀ key, (if colon ∈ ip then
        { dnsEntrySet key (some ip) 0 typeA.toUInt8 0 now with type := typeAaaa.toUInt8 }
        else dnsEntrySet key (some ip) 0 typeA.toUInt8 0 now) =
        ⟨key, some ip, if colon ∈ ip then typeAaaa.toUInt8 else typeA.toUInt8, 0, now⟩ := by
      intro key
      split <;> rfl
    simp only [deref, ok_bind, htype]
    cases key <;> rfl

/-- The entry goes to the list of its name, or to a new one. -/
def HostMap.link (m : HostMap) (entry : DNSEntry) (name : List UInt8) : Exec HostMap := do
  match ← m.hash.queryHash name with
  | some head => match m.lists[head]? with
    | none => .error .write
    | some list => return { m with lists := m.lists.set head (entry :: list) }
  | none =>
    let (hash, _) ← m.hash.insertHash name m.lists.length
    return ⟨hash, m.lists ++ [[entry]]⟩

theorem hostLine_eq (m : HostMap) (buffer : List UInt8) (now : Nat) :
    hostLine m buffer now = if buffer.head? = some newline then .ok m else
      match tokens buffer with
      | none => .error .null
      | some l => m.link (l.entry now) l.name := by
  rw [hostLine]
  split
  · rfl
  · exact deref_tokens buffer now m.link

/-- What the loop body makes of a buffer. -/
def lineOf (buffer : List UInt8) : Option HostLine := if buffer.head? = some newline then none else tokens buffer

/-- The loop body finds an empty line or both tokens. -/
def Usable (buffer : List UInt8) : Prop := buffer.head? = some newline ∨ tokens buffer ≠ none

instance (buffer : List UInt8) : Decidable (Usable buffer) := inferInstanceAs (Decidable (_ ∨ _))

theorem tokens_text (hl : l.Valid) : tokens l.text = some l := by
  have hstr : l.text.takeWhile (· ≠ 0) = l.ip ++ space :: (l.name ++ [newline]) := by
    have hall : l.text.takeWhile (· ≠ 0) = l.text :=
      List.takeWhile_eq_self_iff.2 fun b hb => by simpa using fun he : b = 0 => hl.zero_notMem (he ▸ hb)
    rw [hall]
    simp [HostLine.text]
  rw [tokens, hstr, strtok_eq hl.ip_ne hl.ip_clean.1]
  simp only [strtok_eq hl.name_ne hl.name_clean.1]
  rfl

theorem lineOf_text (hl : l.Valid) : lineOf l.text = some l := by
  have hhead : l.text.head? ≠ some newline := by
    obtain ⟨b, ip, hip⟩ := List.exists_cons_of_ne_nil hl.ip_ne
    have hb : b ≠ newline := fun he => hl.ip_clean.2.1 (by rw [hip, he]; exact List.mem_cons_self)
    simpa [HostLine.text, hip] using hb
  rw [lineOf, if_neg hhead, tokens_text hl]

/-- The buffers that `fgets` fills before it meets the end of the file; in the current one, which holds `buf`, `n`
bytes are left. -/
def buffers : Nat → List UInt8 → List UInt8 → List (List UInt8)
  | _, _, [] => []
  | n, buf, b :: file =>
    if b = newline ∨ n = 1 then (buf ++ [b]) :: buffers 511 [] file else buffers (n - 1) (buf ++ [b]) file

theorem takeLine_append (n : Nat) (file : List UInt8) : (takeLine n file).1 ++ (takeLine n file).2.1 = file := by
  induction n generalizing file with
  | zero => rfl
  | succ n ih =>
    cases file with
    | nil => rfl
    | cons b file =>
      rw [takeLine]
      split
      · rfl
      · exact congrArg (b :: ·) (ih file)

theorem buffers_takeLine (n : Nat) (buf file : List UInt8) :
    buffers (n + 1) buf file = if (takeLine (n + 1) file).2.2 then []
      else (buf ++ (takeLine (n + 1) file).1) :: buffers 511 [] (takeLine (n + 1) file).2.1 := by
  induction n generalizing buf file with
  | zero =>
    cases file with
    | nil => rfl
    | cons b file =>
      rw [buffers, if_pos (.inr rfl), takeLine]
      split <;> rfl
  | succ n ih =>
    cases file with
    | nil => rfl
    | cons b file =>
      rw [buffers, takeLine]
      by_cases hb : b = newline
      · rw [if_pos (.inl hb), if_pos hb]
        rfl
      · rw [if_neg (by rintro (he | he) <;> [exact hb he; omega]), if_neg hb, Nat.add_sub_cancel, ih, List.append_assoc]
        rfl

/-- One call of `fgets`: the end of the file, or the next buffer. -/
theorem fgets_buffers (file : List UInt8) :
    (fgets file = none ∨ ∃ buffer rest, fgets file = some (buffer, rest, true)) ∧ buffers 511 [] file = [] ∨
    ∃ buffer rest, fgets file = some (buffer, rest, false) ∧ rest.length < file.length ∧
      buffers 511 [] file = buffer :: buffers 511 [] rest := by
  have hbuf := buffers_takeLine 510 [] file
  have happ := takeLine_append 511 file
  cases file with
  | nil => exact .inl ⟨.inl rfl, rfl⟩
  | cons b file =>
    have hget : fgets (b :: file) = some (takeLine 511 (b :: file)) := if_neg (List.cons_ne_nil b file)
    have hne : (takeLine 511 (b :: file)).1 ≠ [] := by
      rw [takeLine]
      split <;> simp
    rw [hget]
    generalize takeLine 511 (b :: file) = p at *
    obtain ⟨buffer, rest, eof⟩ := p
    cases eof with
    | true => exact .inl ⟨.inr ⟨buffer, rest, rfl⟩, hbuf⟩
    | false =>
      refine .inr ⟨buffer, rest, rfl, ?_, by simpa using hbuf⟩
      have := List.length_pos_iff.2 hne
      rw [← happ, List.length_append]
      dsimp only at this ⊢
      omega

/-- What stands behind a newline starts a new buffer. -/
theorem buffers_append (h : newline ∉ line) (n : Nat) (buf rest : List UInt8) :
    buffers n buf (line ++ newline :: rest) = buffers n buf (line ++ [newline]) ++ buffers 511 [] rest := by
  induction line generalizing n buf with
  | nil => simp [buffers]
  | cons b line ih =>
    rw [List.mem_cons, not_or] at h
    rw [List.cons_append, List.cons_append, buffers, buffers]
    split
    · rw [ih h.2, List.cons_append]
    · exact ih h.2 _ _

/-- A line that fits the buffer. -/
theorem buffers_line (h : newline ∉ line) (hlen : line.length < n) (buf : List UInt8) :
    buffers n buf (line ++ [newline]) = [buf ++ (line ++ [newline])] := by
  induction line generalizing n buf with
  | nil => simp [buffers]
  | cons b line ih =>
    rw [List.mem_cons, not_or] at h
    rw [List.length_cons] at hlen
    rw [List.cons_append, buffers, if_neg (by rintro (hb | rfl) <;> [exact h.1 hb.symm; omega]),
      ih h.2 (by omega), List.append_assoc]
    rfl

/-- A short rest without a newline is met together with the end of the file. -/
theorem buffers_tail (h : newline ∉ tail) (hlen : tail.length < n) (buf : List UInt8) : buffers n buf tail = [] := by
  induction tail generalizing n buf with
  | nil => rfl
  | cons b tail ih =>
    rw [List.mem_cons, not_or] at h
    rw [List.length_cons] at hlen
    rw [buffers, if_neg (by rintro (hb | rfl) <;> [exact h.1 hb.symm; omega]), ih h.2 (by omega)]

end Lines

/-- `f` gives every name the list that holds the entries of its `lines`, the last line first. -/
structure Table (m : HostMap) (lines : List HostLine) (f : List UInt8 → Option Nat) : Prop where
  hash : m.hash.Represents f
  inj : ∀ {name name' head}, f name = some head → f name' = some head → name = name'
  absent : ∀ {name}, f name = none → ∀ l ∈ lines, l.name ≠ name
  list : ∀ {name head}, f name = some head → ∃ list, m.lists[head]? = some list ∧
    List.Forall₂ (fun e l => ∃ now, e = HostLine.entry l now) list (lines.filter (·.name = name)).reverse

namespace Table
variable {m : HostMap} {lines : List HostLine} {f : List UInt8 → Option Nat} {l : HostLine}

theorem empty : Table ⟨.init, []⟩ [] fun _ => none :=
  ⟨StringHash.represents_init, nofun, fun _ => nofun, nofun⟩

theorem head_lt (h : Table m lines f) {name : List UInt8} {head : Nat} (hf : f name = some head) :
    head < m.lists.length := by
  obtain ⟨list, hl, -⟩ := h.list hf
  exact (List.getElem?_eq_some_iff.1 hl).1

theorem filter_snoc (lines : List HostLine) (l : HostLine) (name : List UInt8) :
    ((lines ++ [l]).filter (·.name = name)).reverse =
      if l.name = name then l :: (lines.filter (·.name = name)).reverse
      else (lines.filter (·.name = name)).reverse := by
  rw [List.filter_append, List.reverse_append]
  by_cases h : l.name = name <;> simp [h]

/-- A further line for a name that is there. -/
theorem push (h : Table m lines f) {head : Nat} (now : Nat) (hf : f l.name = some head) {list : List DNSEntry}
    (hl : m.lists[head]? = some list) :
    Table { m with lists := m.lists.set head (l.entry now :: list) } (lines ++ [l]) f where
  hash := h.hash
  inj := h.inj
  absent {name} hn l' hl' := by
    rcases List.mem_append.1 hl' with hl' | hl'
    · exact h.absent hn l' hl'
    · rw [List.mem_singleton.1 hl']
      rintro rfl
      rw [hf] at hn
      cases hn
  list {name head'} hn := by
    rw [filter_snoc]
    rcases eq_or_ne head' head with rfl | hne
    · have hname := h.inj hf hn
      obtain ⟨list', hl', hall⟩ := h.list hn
      rw [hl] at hl'
      cases hl'
      rw [if_pos hname]
      exact ⟨_, List.getElem?_set_self (h.head_lt hf), .cons ⟨now, rfl⟩ hall⟩
    · have hname : l.name ≠ name := by
        rintro rfl
        rw [hf] at hn
        exact hne (Option.some.inj hn).symm
      rw [if_neg hname, List.getElem?_set_ne hne.symm]
      exact h.list hn

/-- The first line for its name. -/
theorem extend (h : Table m lines f) (now : Nat) (hf : f l.name = none) {hash : StringHash Nat}
    (hh : hash.Represents (Function.update f l.name (some m.lists.length))) :
    Table ⟨hash, m.lists ++ [[l.entry now]]⟩ (lines ++ [l])
      (Function.update f l.name (some m.lists.length)) where
  hash := hh
  inj {name name' head} hn hn' := by
    rcases eq_or_ne name l.name with rfl | hne <;> rcases eq_or_ne name' l.name with rfl | hne'
    · rfl
    · rw [Function.update_self] at hn
      rw [Function.update_of_ne hne'] at hn'
      cases hn
      exact absurd (h.head_lt hn') (Nat.lt_irrefl _)
    · rw [Function.update_self] at hn'
      rw [Function.update_of_ne hne] at hn
      cases hn'
      exact absurd (h.head_lt hn) (Nat.lt_irrefl _)
    · rw [Function.update_of_ne hne] at hn
      rw [Function.update_of_ne hne'] at hn'
      exact h.inj hn hn'
  absent {name} hn l' hl' := by
    have hne : name ≠ l.name := by
      rintro rfl
      simp at hn
    rw [Function.update_of_ne hne] at hn
    rcases List.mem_append.1 hl' with hl' | hl'
    · exact h.absent hn l' hl'
    · rw [List.mem_singleton.1 hl']; exact hne.symm
  list {name head} hn := by
    rw [filter_snoc]
    rcases eq_or_ne name l.name with rfl | hne
    · rw [Function.update_self] at hn
      cases hn
      have hnil : lines.filter (·.name = l.name) = [] :=
        List.filter_eq_nil_iff.2 fun l' hl' => by simpa using h.absent hf l' hl'
      rw [if_pos rfl, hnil]
      exact ⟨_, by simp, .cons ⟨now, rfl⟩ .nil⟩
    · rw [Function.update_of_ne hne] at hn
      rw [if_neg hne.symm, List.getElem?_append_left (h.head_lt hn)]
      exact h.list hn

/-- A line enters the table. -/
theorem hostLine (h : Table m lines f) {buffer : List UInt8} (hb : Usable buffer) (now : Nat) :
    ∃ m' f', hostLine m buffer now = .ok m' ∧ Table m' (lines ++ (lineOf buffer).toList) f' := by
  by_cases hhead : buffer.head? = some newline
  · refine ⟨m, f, ?_, ?_⟩
    · rw [DnsRelay.hostLine, if_pos hhead]
    · rw [lineOf, if_pos hhead, Option.toList_none, List.append_nil]
      exact h
  obtain ⟨l, hl⟩ := Option.ne_none_iff_exists'.1 (hb.resolve_left hhead)
  have hline : DnsRelay.hostLine m buffer now = m.link (l.entry now) l.name := by
    rw [hostLine_eq, if_neg hhead, hl]
  rw [hline, HostMap.link, StringHash.queryHash_eq h.hash, lineOf, if_neg hhead, hl]
  cases hf : f l.name with
  | some head =>
    obtain ⟨list, hlist, -⟩ := h.list hf
    refine ⟨_, f, ?_, h.push now hf hlist⟩
    simp only [ok_bind, hlist]
    rfl
  | none =>
    obtain ⟨hash, hins, hrep⟩ := StringHash.insertHash_eq h.hash hf m.lists.length
    refine ⟨_, _, ?_, h.extend now hf hrep⟩
    simp only [ok_bind, hins]
    rfl

theorem hostLoop (clk : Nat → Nat) (h : Table m lines f) {file : List UInt8}
    (hfile : ∀ b ∈ buffers 511 [] file, Usable b) {fuel : Nat} (hfuel : file.length < fuel) (k : Nat) :
    ∃ m' f', hostLoop clk fuel k file m = .ok m' ∧ Table m' (lines ++ (buffers 511 [] file).filterMap lineOf) f' := by
  induction fuel generalizing m lines f file k with
  | zero => cases hfuel
  | succ fuel ih =>
    rcases fgets_buffers file with ⟨hend, hbuf⟩ | ⟨buffer, rest, hget, hlt, hbuf⟩
    · refine ⟨m, f, ?_, by rw [hbuf, List.filterMap_nil, List.append_nil]; exact h⟩
      rcases hend with hend | ⟨buffer, rest, hend⟩ <;> simp [DnsRelay.hostLoop, hend]
    · rw [hbuf] at hfile ⊢
      obtain ⟨hb, hrest⟩ := List.forall_mem_cons.1 hfile
      obtain ⟨m₁, f₁, hm₁, ht₁⟩ := h.hostLine hb (clk k)
      obtain ⟨m', f', hm', ht⟩ := ih ht₁ hrest (by omega) (k + 1)
      refine ⟨m', f', ?_, ?_⟩
      · rw [DnsRelay.hostLoop, hget]
        simp only [Bool.false_eq_true, if_false, hm₁, ok_bind]
        exact hm'
      · rw [List.append_assoc] at ht
        cases hl : lineOf buffer with
        | none => rwa [List.filterMap_cons_none hl, ← List.nil_append (List.filterMap _ _), ← Option.toList_none, ← hl]
        | some l => rwa [List.filterMap_cons_some hl, ← List.singleton_append, ← Option.toList_some, ← hl]

end Table

/-- `hostInit` on a file whose buffers can all be used. -/
theorem hostInit_buffers (clk : Nat → Nat) {file : List UInt8} (hfile : ∀ b ∈ buffers 511 [] file, Usable b) :
    ∃ m f, hostInit clk file = .ok m ∧ Table m ((buffers 511 [] file).filterMap lineOf) f :=
  Table.empty.hostLoop clk hfile (Nat.lt_succ_self _) 0

theorem HostLine.Valid.newline_notMem {l : HostLine} (hl : l.Valid) : newline ∉ l.ip ++ space :: l.name := by
  rw [List.mem_append, List.mem_cons]
  rintro (hm | hm | hm)
  · exact hl.ip_clean.2.1 hm
  · exact absurd hm (by decide)
  · exact hl.name_clean.1 hm

/-- Well-formed lines fill a buffer each. -/
theorem buffers_hostFile {lines : List (Option HostLine)} (hlines : ∀ l, some l ∈ lines → l.Valid)
    {tail : List UInt8} (htail : newline ∉ tail) (hlen : tail.length < 511) :
    buffers 511 [] (hostFile lines ++ tail) = lines.map fun o => o.elim [newline] HostLine.text := by
  induction lines with
  | nil => exact buffers_tail htail hlen []
  | cons o lines ih =>
    have ih := ih fun l hl => hlines l (List.mem_cons_of_mem _ hl)
    cases o with
    | none => exact congrArg ([newline] :: ·) ih
    | some l =>
      have hl := hlines l List.mem_cons_self
      have hle := hl.length_le
      rw [HostLine.text, List.length_append, List.length_singleton] at hle
      have hfile : hostFile (some l :: lines) ++ tail =
          (l.ip ++ space :: l.name) ++ newline :: (hostFile lines ++ tail) := by
        simp [HostLine.text, hostFile]
      rw [hfile, buffers_append hl.newline_notMem, buffers_line hl.newline_notMem hle, ih]
      rfl

/-- `hostInit` on well-formed lines, whatever follows the last newline. -/
theorem hostInit_spec (clk : Nat → Nat) {lines : List (Option HostLine)}
    (hlines : ∀ l, some l ∈ lines → l.Valid) {tail : List UInt8} (htail : newline ∉ tail)
    (hlen : tail.length < 511) :
    ∃ m f, hostInit clk (hostFile lines ++ tail) = .ok m ∧ Table m (lines.filterMap id) f := by
  have hbuf := buffers_hostFile hlines htail hlen
  have hline : ∀ o ∈ lines, lineOf (o.elim [newline] HostLine.text) = o := by
    intro o ho
    cases o with
    | none => rfl
    | some l => exact lineOf_text (hlines l ho)
  have husable : ∀ b ∈ buffers 511 [] (hostFile lines ++ tail), Usable b := by
    rw [hbuf]
    intro b hb
    obtain ⟨o, ho, rfl⟩ := List.mem_map.1 hb
    cases o with
    | none => exact .inl rfl
    | some l => exact .inr (by rw [Option.elim_some, tokens_text (hlines l ho)]; nofun)
  obtain ⟨m, f, hm, ht⟩ := hostInit_buffers clk husable
  rw [hbuf, List.filterMap_map, show List.filterMap (lineOf ∘ _) lines = lines.filterMap id from
    List.filterMap_congr hline] at ht
  exact ⟨m, f, hm, ht⟩

/-! ### Queries -/

/-- A type-A query for the name meets a line that blocks it. -/
def Blocked (lines : List HostLine) (name : List UInt8) (type : UInt8) : Prop :=
  type = typeA.toUInt8 ∧ ⟨blockIp, name⟩ ∈ lines

/-- The lines a query for `name` and `type` finds, the last line first. -/
def hostHits (lines : List HostLine) (name : List UInt8) (type : UInt8) : List HostLine :=
  (lines.filter fun l => l.name = name ∧ l.type = type).reverse

/-- A result of `hostQuery` that stands for the line `l`. -/
def Reads (e : DNSEntry) (l : HostLine) : Prop :=
  e.domainName = some l.name ∧ e.ip = some l.ip ∧ e.type = l.type ∧ e.addition = 0

section
variable {clk : Nat → Nat} {entry : DNSEntry} {list res : List DNSEntry} {ls : List HostLine} {k : Nat}

theorem hostWalk_blocked (h : List.Forall₂ (fun e l => ∃ now, e = HostLine.entry l now) list ls)
    (ht : entry.type = typeA.toUInt8) (hb : ∃ l ∈ ls, l.ip = blockIp) :
    ∃ res', hostWalk clk entry k list res = .ok (-1, res') := by
  induction h generalizing k res with
  | nil => obtain ⟨_, hl, -⟩ := hb; cases hl
  | @cons e l list ls he hall ih =>
    obtain ⟨now, rfl⟩ := he
    rw [hostWalk]
    simp only [if_pos ht, HostLine.entry, deref, ok_bind, Pure.pure, Except.pure]
    by_cases hip : l.ip = blockIp
    · simp [hip]
    · simp only [hip, decide_false, Bool.false_eq_true, if_false]
      obtain ⟨l', hl', hb'⟩ := hb
      rcases List.mem_cons.1 hl' with rfl | hl'
      · exact absurd hb' hip
      · exact ih ⟨l', hl', hb'⟩

theorem hostWalk_found (clk : Nat → Nat) (k : Nat) (res : List DNSEntry)
    (h : List.Forall₂ (fun e l => ∃ now, e = HostLine.entry l now) list ls)
    (hb : entry.type = typeA.toUInt8 → ∀ l ∈ ls, l.ip ≠ blockIp) :
    ∃ found, hostWalk clk entry k list res = .ok (((res ++ found).length : Int), res ++ found) ∧
      List.Forall₂ Reads found (ls.filter (·.type = entry.type)) := by
  induction h generalizing k res with
  | nil => exact ⟨[], by rw [List.append_nil]; rfl, .nil⟩
  | @cons e l list ls he hall ih =>
    obtain ⟨now, rfl⟩ := he
    have ih := fun k res => ih k res fun ht l hl => hb ht l (List.mem_cons_of_mem _ hl)
    have hgo : hostWalk clk entry k (l.entry now :: list) res = hostWalk clk entry (k + 1) list
        (if l.type = entry.type then res ++ [l.entry (clk k + 0x80)] else res) := by
      rw [hostWalk]
      by_cases ht : entry.type = typeA.toUInt8
      · have hip := hb ht l List.mem_cons_self
        simp only [if_pos ht, HostLine.entry, deref, ok_bind, Pure.pure, Except.pure, hip, decide_false,
          Bool.false_eq_true, if_false]
        rfl
      · simp only [if_neg ht, HostLine.entry, ok_bind, Pure.pure, Except.pure, Bool.false_eq_true, if_false]
        rfl
    rw [hgo, List.filter_cons]
    by_cases hty : l.type = entry.type
    · obtain ⟨found, hrun, hfound⟩ := ih (k + 1) (res ++ [l.entry (clk k + 0x80)])
      rw [if_pos hty, if_pos (by simpa using hty), hrun]
      refine ⟨l.entry (clk k + 0x80) :: found, ?_, .cons ⟨rfl, rfl, rfl, rfl⟩ hfound⟩
      rw [List.append_assoc]
      rfl
    · obtain ⟨found, hrun, hfound⟩ := ih (k + 1) res
      rw [if_neg hty, if_neg (by simpa using hty)]
      exact ⟨found, hrun, hfound⟩

end

section
variable {m : HostMap} {lines : List HostLine} {f : List UInt8 → Option Nat}
  {entry : DNSEntry} {name : List UInt8}

theorem hostQuery_blocked (clk : Nat → Nat) (h : Table m lines f) (hn : entry.domainName = some name)
    (hb : Blocked lines name entry.type) : ∃ res, hostQuery clk m entry = .ok (-1, res) := by
  rw [hostQuery, hn]
  simp only [deref, ok_bind, StringHash.queryHash_eq h.hash]
  cases hf : f name with
  | none => exact absurd rfl (h.absent hf _ hb.2)
  | some head =>
    obtain ⟨list, hl, hall⟩ := h.list hf
    simp only [hl]
    exact hostWalk_blocked hall hb.1 ⟨⟨blockIp, name⟩, by simp [hb.2], rfl⟩

theorem hostQuery_found (clk : Nat → Nat) (h : Table m lines f) (hn : entry.domainName = some name)
    (hb : ¬ Blocked lines name entry.type) :
    ∃ found, hostQuery clk m entry = .ok ((found.length : Int), found) ∧
      List.Forall₂ Reads found (hostHits lines name entry.type) := by
  rw [hostQuery, hn]
  simp only [deref, ok_bind, StringHash.queryHash_eq h.hash]
  cases hf : f name with
  | none =>
    refine ⟨[], rfl, ?_⟩
    have hnil : lines.filter (fun l => l.name = name ∧ l.type = entry.type) = [] :=
      List.filter_eq_nil_iff.2 fun l hl hd => h.absent hf l hl (of_decide_eq_true hd).1
    rw [hostHits, hnil]
    exact .nil
  | some head =>
    obtain ⟨list, hl, hall⟩ := h.list hf
    simp only [hl]
    obtain ⟨found, hrun, hfound⟩ := hostWalk_found clk 0 [] hall
      fun ht l hl hip => hb ⟨ht, by
        obtain ⟨hl, hname⟩ := List.mem_filter.1 (List.mem_reverse.1 hl)
        rw [← hip, ← of_decide_eq_true hname]
        exact hl⟩
    refine ⟨found, hrun, ?_⟩
    rw [List.filter_reverse, List.filter_filter] at hfound
    have hand : lines.filter (fun l => l.name = name ∧ l.type = entry.type) =
        lines.filter fun l => l.type = entry.type && l.name = name :=
      List.filter_congr fun l _ => by rw [Bool.decide_and, Bool.and_comm]
    rw [hostHits, hand]
    exact hfound

end

end DnsRelay
