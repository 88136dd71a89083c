import DnsRelay.HostLists

/-!
# What the host file says

`hostQuery` after `hostInit`, in terms of the lines of the file. The loop of `hostInit` asks `feof` when
it has read a line and before it uses it, so what stands behind the last newline never enters the table.
-/

namespace DnsRelay
open Exec

/-- The lines for `name` of the family that `type` asks for, the last line first. -/
def hostLines (lines : List (Option HostLine)) (name : List UInt8) (type : UInt8) : List HostLine :=
  ((lines.filterMap id).filter fun l => l.name = name ∧ (colon ∈ l.ip ↔ type = typeAaaa.toUInt8)).reverse

/-- What the caller of `hostQuery` learns: the return value and, unless that is -1, the addresses. -/
def hostAnswer (query : Exec (Int × List DNSEntry)) : Exec (Int × List (Option (List UInt8))) := do
  let (count, result) ← query
  return (count, if count = -1 then [] else result.map DNSEntry.ip)

instance (lines : List HostLine) (name : List UInt8) (type : UInt8) : Decidable (Blocked lines name type) :=
  inferInstanceAs (Decidable (_ ∧ _))

section
variable {m : HostMap} {lines : List HostLine} {file : List (Option HostLine)} {f : List UInt8 → Option Nat}
  {entry : DNSEntry} {name : List UInt8} {type : UInt8} {l : HostLine} {result : List DNSEntry}

theorem HostLine.type_eq_a : l.type = typeA.toUInt8 ↔ colon ∉ l.ip := by
  rw [HostLine.type]
  split
  · exact ⟨fun h => absurd h (by decide), fun h => absurd ‹_› h⟩
  · exact ⟨fun _ => ‹_›, fun _ => rfl⟩

theorem HostLine.type_eq_iff (ht : type = typeA.toUInt8 ∨ type = typeAaaa.toUInt8) :
    l.type = type ↔ (colon ∈ l.ip ↔ type = typeAaaa.toUInt8) := by
  have hne : typeA.toUInt8 ≠ typeAaaa.toUInt8 := by decide
  rcases ht with rfl | rfl <;> rw [HostLine.type] <;> split <;> simp [*, hne.symm]

theorem hostHits_eq (ht : type = typeA.toUInt8 ∨ type = typeAaaa.toUInt8) :
    hostHits (file.filterMap id) name type = hostLines file name type := by
  rw [hostHits, hostLines]
  congr 2
  funext l
  simp only [HostLine.type_eq_iff ht]

theorem blocked_iff : Blocked (file.filterMap id) name type ↔ type = typeA.toUInt8 ∧ some ⟨blockIp, name⟩ ∈ file := by
  rw [Blocked, List.mem_filterMap]
  simp

theorem Reads.ips {ls : List HostLine} (h : List.Forall₂ Reads result ls) :
    result.map DNSEntry.ip = ls.map fun l => some l.ip := by
  induction h with
  | nil => rfl
  | cons he _ ih => rw [List.map_cons, List.map_cons, ih, he.2.1]

/-- Whatever the file's names are, colliding or not, a query reads the lines for its own. -/
theorem host_table (links : Links HostNode) (clk clk' : Nat → Nat) (hfile : ∀ l, some l ∈ file → l.Valid) :
    ∃ h, HostHeap.hostInit links clk (hostFile file) = .ok h ∧ ∀ entry name, entry.domainName = some name →
      entry.type = typeA.toUInt8 ∨ entry.type = typeAaaa.toUInt8 →
      ∃ count result, h.hostQuery clk' entry = .ok (count, result) ∧
        (count = -1 ↔ entry.type = typeA.toUInt8 ∧ some ⟨blockIp, name⟩ ∈ file) ∧
        (count ≠ -1 → count = (hostLines file name entry.type).length ∧
          result.map DNSEntry.ip = (hostLines file name entry.type).map fun l => some l.ip) := by
  obtain ⟨m, f, hm, htable⟩ := hostInit_spec clk hfile (show newline ∉ [] by simp) (Nat.succ_pos 510)
  rw [List.append_nil] at hm
  obtain ⟨h, chain, hh, hr⟩ := HostHeap.Refines.hostInit links hm
  refine ⟨h, hh, fun entry name hn ht => ?_⟩
  rw [hr.hostQuery]
  by_cases hb : Blocked (file.filterMap id) name entry.type
  · obtain ⟨result, hquery⟩ := hostQuery_blocked clk' htable hn hb
    exact ⟨-1, result, hquery, iff_of_true rfl (blocked_iff.1 hb), fun h => absurd rfl h⟩
  · obtain ⟨result, hquery, hreads⟩ := hostQuery_found clk' htable hn hb
    rw [hostHits_eq ht] at hreads
    refine ⟨result.length, result, hquery, iff_of_false (by omega) fun h => hb (blocked_iff.2 h), fun _ => ⟨?_, ?_⟩⟩
    · rw [hreads.length_eq]
    · exact Reads.ips hreads

/-- `0.0.0.0 a`, an empty line, `::1 a`, `1 b` and `::2 a` -/
def sampleFile : List (Option HostLine) :=
  [some ⟨blockIp, [97]⟩, none, some ⟨[58, 58, 49], [97]⟩, some ⟨[49], [98]⟩, some ⟨[58, 58, 50], [97]⟩]

def hostKey (name : List UInt8) (type : UInt16) : DNSEntry := dnsEntrySet (some name) none 0 type.toUInt8 0 0

def nullLinks : Links HostNode := ⟨fun _ => none, fun _ => none⟩

theorem sampleFile_valid (l : HostLine) (hl : some l ∈ sampleFile) : l.Valid := by
  simp only [sampleFile, List.mem_cons, Option.some.injEq, reduceCtorEq, List.not_mem_nil, or_false, false_or] at hl
  rcases hl with rfl | rfl | rfl | rfl <;>
    exact ⟨by decide, by decide, by decide, by decide, by decide⟩

theorem host_table_sample : ∃ h, HostHeap.hostInit nullLinks (fun _ => 0) (hostFile sampleFile) = .ok h ∧
    (∃ result, h.hostQuery (fun _ => 0) (hostKey [97] typeA) = .ok (-1, result)) ∧
    ∃ result, h.hostQuery (fun _ => 0) (hostKey [97] typeAaaa) = .ok (2, result) ∧
      result.map DNSEntry.ip = [some [58, 58, 50], some [58, 58, 49]] := by
  obtain ⟨h, hh, hquery⟩ := host_table nullLinks (fun _ => 0) (fun _ => 0) sampleFile_valid
  refine ⟨h, hh, ?_, ?_⟩
  · obtain ⟨count, result, hq, hblock, -⟩ := hquery (hostKey [97] typeA) [97] rfl (.inl rfl)
    obtain rfl := hblock.2 ⟨rfl, by decide⟩
    exact ⟨result, hq⟩
  · obtain ⟨count, result, hq, hblock, hfound⟩ := hquery (hostKey [97] typeAaaa) [97] rfl (.inr rfl)
    obtain ⟨rfl, hips⟩ := hfound fun he => absurd (hblock.1 he).1 (by decide)
    exact ⟨result, hq, hips⟩

/-- `1 a\0b`: the name ends at the NUL, and a query for `a` finds a line that is for another name. -/
theorem host_table_nul : ∃ h count result,
    HostHeap.hostInit nullLinks (fun _ => 0) (hostFile [some ⟨[49], [97, 0, 98]⟩]) = .ok h ∧
    h.hostQuery (fun _ => 0) (hostKey [97] typeA) = .ok (count, result) ∧ count ≠ -1 ∧
    count ≠ (hostLines [some ⟨[49], [97, 0, 98]⟩] [97] typeA.toUInt8).length := by
  have hanswer : ((HostHeap.hostInit nullLinks (fun _ => 0) (hostFile [some ⟨[49], [97, 0, 98]⟩])).bind fun h =>
      hostAnswer (h.hostQuery (fun _ => 0) (hostKey [97] typeA))) = .ok (1, [some [49]]) := by decide +kernel
  obtain ⟨h, hh, hanswer⟩ := bind_ok.1 hanswer
  obtain ⟨⟨count, result⟩, hq, hcount⟩ := bind_ok.1 hanswer
  obtain rfl : count = 1 := congrArg Prod.fst (Except.ok.inj hcount)
  exact ⟨h, 1, result, hh, hq, by decide, by decide⟩

/-! ### The last line -/

theorem hostAnswer_blocked (clk : Nat → Nat) (h : Table m lines f) (hn : entry.domainName = some name)
    (hb : Blocked lines name entry.type) : hostAnswer (hostQuery clk m entry) = .ok (-1, []) := by
  obtain ⟨result, hquery⟩ := hostQuery_blocked clk h hn hb
  rw [hostAnswer, hquery]
  rfl

theorem hostAnswer_found (clk : Nat → Nat) (h : Table m lines f) (hn : entry.domainName = some name)
    (hb : ¬ Blocked lines name entry.type) :
    hostAnswer (hostQuery clk m entry) = .ok ((hostHits lines name entry.type).length,
      (hostHits lines name entry.type).map fun l => some l.ip) := by
  obtain ⟨result, hquery, hreads⟩ := hostQuery_found clk h hn hb
  rw [hostAnswer, hquery, ← hreads.length_eq, ← Reads.ips hreads]
  show Except.ok ((result.length : Int), _) = _
  rw [if_neg (show ¬ (result.length : Int) = -1 by omega)]

/-- Two tables answer a query alike if their lines block it or not together, and are the same for it otherwise. -/
theorem hostAnswer_congr {m' : HostMap} {lines' : List HostLine} {f' : List UInt8 → Option Nat}
    (clk clk' : Nat → Nat) (h : Table m lines f) (h' : Table m' lines' f')
    (hblocked : ∀ name, entry.domainName = some name → (Blocked lines name entry.type ↔ Blocked lines' name entry.type))
    (hhits : ∀ name, entry.domainName = some name → ¬ Blocked lines' name entry.type →
      hostHits lines name entry.type = hostHits lines' name entry.type) :
    hostAnswer (hostQuery clk m entry) = hostAnswer (hostQuery clk' m' entry) := by
  cases hn : entry.domainName with
  | none => rw [hostAnswer, hostAnswer, hostQuery, hostQuery, hn]; rfl
  | some name =>
    by_cases hb : Blocked lines' name entry.type
    · rw [hostAnswer_blocked clk' h' hn hb, hostAnswer_blocked clk h hn ((hblocked _ hn).2 hb)]
    · rw [hostAnswer_found clk' h' hn hb, hostAnswer_found clk h hn (mt (hblocked _ hn).1 hb), hhits _ hn hb]

/-- The lines that are marked. -/
def kept (tagged : List (HostLine × Bool)) : List HostLine := (tagged.filter Prod.snd).map Prod.fst

theorem mem_kept {tagged : List (HostLine × Bool)} : l ∈ kept tagged ↔ (l, true) ∈ tagged := by
  simp [kept]

/-- With further lines in between a table answers the queries that are asked as before if and only if none of these
comes to look at such a line: it is of the family for which its name is blocked. -/
theorem hostAnswer_kept_iff {m' : HostMap} {f' : List UInt8 → Option Nat} {tagged : List (HostLine × Bool)}
    (asked : List UInt8 → Prop) (clk clk' : Nat → Nat) (h : Table m (tagged.map Prod.fst) f)
    (h' : Table m' (kept tagged) f') :
    (∀ entry, (∀ name, entry.domainName = some name → asked name) →
      hostAnswer (hostQuery clk m entry) = hostAnswer (hostQuery clk' m' entry)) ↔
    ∀ l, (l, false) ∈ tagged → asked l.name → colon ∉ l.ip ∧ ⟨blockIp, l.name⟩ ∈ kept tagged := by
  have hall : ∀ name type, hostHits (tagged.map Prod.fst) name type =
      ((tagged.filter fun x => x.1.name = name ∧ x.1.type = type).map Prod.fst).reverse := by
    intro name type
    rw [hostHits, List.filter_map]
    rfl
  have hkept : ∀ name type, hostHits (kept tagged) name type =
      (((tagged.filter fun x => x.1.name = name ∧ x.1.type = type).filter Prod.snd).map Prod.fst).reverse := by
    intro name type
    rw [hostHits, kept, List.filter_map, List.filter_comm]
    rfl
  constructor
  · intro hsame l hl hasked
    by_contra hcond
    have hb' : ¬ Blocked (kept tagged) l.name l.type := fun hb => hcond ⟨HostLine.type_eq_a.1 hb.1, hb.2⟩
    have hanswer := hsame (l.entry 0) fun name hn => Option.some.inj hn ▸ hasked
    rw [hostAnswer_found clk' h' rfl hb'] at hanswer
    by_cases hb : Blocked (tagged.map Prod.fst) l.name l.type
    · rw [hostAnswer_blocked clk h rfl hb] at hanswer
      have := congrArg Prod.fst (Except.ok.inj hanswer)
      omega
    · rw [hostAnswer_found clk h rfl hb] at hanswer
      have hlen := congrArg (fun r => r.2.length) (Except.ok.inj hanswer)
      simp only [List.length_map] at hlen
      rw [hall, hkept, List.length_reverse, List.length_reverse, List.length_map, List.length_map] at hlen
      have htrue := List.length_filter_eq_length_iff.1 hlen.symm (l, false)
        (List.mem_filter.2 ⟨hl, by simp [HostLine.entry]⟩)
      cases htrue
  · intro hcond entry hasked
    -- a query that is not blocked is not for the name and type of such a line
    have hother : ∀ name, entry.domainName = some name → ¬ Blocked (kept tagged) name entry.type →
        ∀ x ∈ tagged, x.1.name = name ∧ x.1.type = entry.type → x.2 = true := by
      rintro name hn hb ⟨l, b⟩ hx ⟨rfl, ht⟩
      by_contra hfalse
      obtain rfl : b = false := by simpa using hfalse
      obtain ⟨hip, hmem⟩ := hcond l hx (hasked _ hn)
      exact hb ⟨ht.symm.trans (HostLine.type_eq_a.2 hip), hmem⟩
    refine hostAnswer_congr clk clk' h h' (fun name hn => ⟨fun hb => ?_, fun hb => ?_⟩) fun name hn hb => ?_
    · by_contra hb'
      obtain ⟨x, hx, hxl⟩ := List.mem_map.1 hb.2
      have htrue := hother name hn hb' x hx (by
        rw [hxl]
        exact ⟨rfl, (HostLine.type_eq_a.2 (show colon ∉ blockIp by decide)).trans hb.1.symm⟩)
      refine hb' ⟨hb.1, mem_kept.2 ?_⟩
      rwa [← hxl, ← htrue]
    · obtain ⟨x, hx, hxl⟩ := List.mem_map.1 hb.2
      exact ⟨hb.1, List.mem_map.2 ⟨x, (List.mem_filter.1 hx).1, hxl⟩⟩
    · have hmarked : ∀ x ∈ tagged.filter fun x => x.1.name = name ∧ x.1.type = entry.type, x.2 = true := by
        intro x hx
        obtain ⟨hx, hd⟩ := List.mem_filter.1 hx
        exact hother name hn hb x hx (of_decide_eq_true hd)
      rw [hall, hkept, List.filter_eq_self.2 hmarked]

/-- With one more line at the end. -/
theorem hostAnswer_snoc_iff {m' : HostMap} {f' : List UInt8 → Option Nat} (clk clk' : Nat → Nat)
    (h : Table m (lines ++ [l]) f) (h' : Table m' lines f') :
    (∀ entry, hostAnswer (hostQuery clk m entry) = hostAnswer (hostQuery clk' m' entry)) ↔
      colon ∉ l.ip ∧ ⟨blockIp, l.name⟩ ∈ lines := by
  have hfst : (lines.map (·, true) ++ [(l, false)]).map Prod.fst = lines ++ [l] := by simp [Function.comp_def]
  have hkept : kept (lines.map (·, true) ++ [(l, false)]) = lines := by
    simp [kept, List.filter_map, Function.comp_def]
  rw [← hfst] at h
  rw [← hkept] at h'
  have hiff := hostAnswer_kept_iff (fun _ => True) clk clk' h h'
  rw [hkept] at hiff
  simpa using hiff

theorem hostFile_snoc (file : List (Option HostLine)) (l : HostLine) :
    (hostFile (file ++ [some l])).dropLast = hostFile file ++ (l.ip ++ space :: l.name) := by
  have happ : hostFile (file ++ [some l]) = (hostFile file ++ (l.ip ++ space :: l.name)) ++ [newline] := by
    simp [hostFile, HostLine.text]
  rw [happ, List.dropLast_concat]

theorem hostFile_snoc_empty (file : List (Option HostLine)) : (hostFile (file ++ [none])).dropLast = hostFile file := by
  have happ : hostFile (file ++ [none]) = hostFile file ++ [newline] := by
    simp [hostFile]
  rw [happ, List.dropLast_concat]

theorem HostLine.Valid.unended (hl : l.Valid) :
    newline ∉ l.ip ++ space :: l.name ∧ (l.ip ++ space :: l.name).length < 511 := by
  have hlen := hl.length_le
  rw [HostLine.text, List.length_append, List.length_singleton] at hlen
  exact ⟨hl.newline_notMem, hlen⟩

/-- The tables that are loaded from a file with and without its last newline. -/
theorem hostInit_last_line (clk clk' : Nat → Nat) {last : Option HostLine}
    (hfile : ∀ l, some l ∈ file ++ [last] → l.Valid) :
    ∃ m m', hostInit clk (hostFile (file ++ [last])) = .ok m ∧
      hostInit clk (hostFile (file ++ [last])).dropLast = .ok m' ∧
      ((∀ entry, hostAnswer (hostQuery clk' m entry) = hostAnswer (hostQuery clk' m' entry)) ↔
        ∀ l, last = some l → colon ∉ l.ip ∧ some ⟨blockIp, l.name⟩ ∈ file) := by
  have hrest : ∀ l, some l ∈ file → l.Valid := fun l hl => hfile l (List.mem_append_left _ hl)
  obtain ⟨m, f, hm, htable⟩ := hostInit_spec clk hfile (show newline ∉ [] by simp) (Nat.succ_pos 510)
  rw [List.append_nil] at hm
  cases last with
  | none =>
    obtain ⟨m', f', hm', htable'⟩ := hostInit_spec clk hrest (show newline ∉ [] by simp) (Nat.succ_pos 510)
    rw [List.append_nil, ← hostFile_snoc_empty] at hm'
    rw [List.filterMap_append, List.filterMap_cons, List.filterMap_nil, id, List.append_nil] at htable
    exact ⟨m, m', hm, hm', iff_of_true
      (fun _ => hostAnswer_congr clk' clk' htable htable' (fun _ _ => Iff.rfl) fun _ _ _ => rfl) nofun⟩
  | some l =>
    obtain ⟨hclean, hlen⟩ := (hfile l (by simp)).unended
    obtain ⟨m', f', hm', htable'⟩ := hostInit_spec clk hrest hclean hlen
    rw [← hostFile_snoc] at hm'
    rw [List.filterMap_append] at htable
    refine ⟨m, m', hm, hm', (hostAnswer_snoc_iff clk' clk' htable htable').trans ?_⟩
    simp

/-- Loaded with and without its last newline, a file answers the same if and only if the last line is empty or
is not looked at. -/
theorem last_line_counts_iff (links : Links HostNode) (clk clk' : Nat → Nat) {last : Option HostLine}
    (hfile : ∀ l, some l ∈ file ++ [last] → l.Valid) :
    ∃ h h', HostHeap.hostInit links clk (hostFile (file ++ [last])) = .ok h ∧
      HostHeap.hostInit links clk (hostFile (file ++ [last])).dropLast = .ok h' ∧
      ((∀ entry, hostAnswer (h.hostQuery clk' entry) = hostAnswer (h'.hostQuery clk' entry)) ↔
        ∀ l, last = some l → colon ∉ l.ip ∧ some ⟨blockIp, l.name⟩ ∈ file) := by
  obtain ⟨m, m', hm, hm', hiff⟩ := hostInit_last_line clk clk' hfile
  obtain ⟨h, chain, hh, hr⟩ := HostHeap.Refines.hostInit links hm
  obtain ⟨h', chain', hh', hr'⟩ := HostHeap.Refines.hostInit links hm'
  refine ⟨h, h', hh, hh', ?_⟩
  simp only [hr.hostQuery, hr'.hostQuery]
  exact hiff

theorem last_line_counts_iff_sample : ∃ h h',
    HostHeap.hostInit nullLinks (fun _ => 0) (hostFile (sampleFile ++ [some ⟨[49], [97]⟩])) = .ok h ∧
    HostHeap.hostInit nullLinks (fun _ => 0) (hostFile (sampleFile ++ [some ⟨[49], [97]⟩])).dropLast = .ok h' ∧
    ∀ entry, hostAnswer (h.hostQuery (fun _ => 0) entry) = hostAnswer (h'.hostQuery (fun _ => 0) entry) := by
  have hvalid : ∀ l, some l ∈ sampleFile ++ [some ⟨[49], [97]⟩] → l.Valid := fun l hl => by
    rcases List.mem_append.1 hl with hl | hl
    · exact sampleFile_valid l hl
    · cases List.mem_singleton.1 hl
      exact ⟨by decide, by decide, by decide, by decide, by decide⟩
  obtain ⟨h, h', hh, hh', hiff⟩ := last_line_counts_iff nullLinks (fun _ => 0) (fun _ => 0) hvalid
  exact ⟨h, h', hh, hh', hiff.2 fun l hl => by cases hl; decide⟩

/-- `1 a`: with the newline the name has an address, without it none. -/
theorem last_line_lost : ∃ h h',
    HostHeap.hostInit nullLinks (fun _ => 0) (hostFile [some ⟨[49], [97]⟩]) = .ok h ∧
    HostHeap.hostInit nullLinks (fun _ => 0) (hostFile [some ⟨[49], [97]⟩]).dropLast = .ok h' ∧
    hostAnswer (h.hostQuery (fun _ => 0) (hostKey [97] typeA)) = .ok (1, [some [49]]) ∧
    hostAnswer (h'.hostQuery (fun _ => 0) (hostKey [97] typeA)) = .ok (0, []) := by
  have hwith : ((HostHeap.hostInit nullLinks (fun _ => 0) (hostFile [some ⟨[49], [97]⟩])).bind fun h =>
      hostAnswer (h.hostQuery (fun _ => 0) (hostKey [97] typeA))) = .ok (1, [some [49]]) := by decide +kernel
  have hwithout : ((HostHeap.hostInit nullLinks (fun _ => 0) (hostFile [some ⟨[49], [97]⟩]).dropLast).bind fun h =>
      hostAnswer (h.hostQuery (fun _ => 0) (hostKey [97] typeA))) = .ok (0, []) := by decide +kernel
  obtain ⟨h, hh, hanswer⟩ := bind_ok.1 hwith
  obtain ⟨h', hh', hanswer'⟩ := bind_ok.1 hwithout
  exact ⟨h, h', hh, hh', hanswer, hanswer'⟩

end

end DnsRelay
