import DnsRelay.HostFile

/-!
# Malformed lines in the host file

A file of arbitrary bytes is lines that a newline ends and what stands behind the last one. `fgets` may
deliver a line in several buffers; `hostInit` follows `NULL` at a buffer without an address or without a
name behind it, and takes every other one for a line of its own. So a malformed line either stops the
program or leaves entries, and these are harmless only where no query comes to look at them.
-/

namespace DnsRelay
open Exec

/-- The lines that a newline ends, and what stands behind the last of them. -/
def fileLines : List UInt8 → List (List UInt8) × List UInt8
  | [] => ([], [])
  | b :: file =>
    let (lines, tail) := fileLines file
    if b = newline then ([] :: lines, tail) else
    match lines with
    | [] => ([], b :: tail)
    | line :: lines => ((b :: line) :: lines, tail)

def unlines (lines : List (List UInt8)) : List UInt8 := lines.flatMap (· ++ [newline])

/-- What `hostInit` takes the bytes for. -/
def hostEntries (bytes : List UInt8) : List HostLine := (buffers 511 [] bytes).filterMap lineOf

section
variable {file line tail : List UInt8} {lines : List (List UInt8)} {l : HostLine}

theorem fileLines_spec (file : List UInt8) : (∀ line ∈ (fileLines file).1, newline ∉ line) ∧
    newline ∉ (fileLines file).2 ∧ unlines (fileLines file).1 ++ (fileLines file).2 = file := by
  induction file with
  | nil => exact ⟨nofun, nofun, rfl⟩
  | cons b file ih =>
    rw [fileLines]
    generalize fileLines file = p at *
    obtain ⟨lines, tail⟩ := p
    obtain ⟨hlines, htail, rfl⟩ := ih
    dsimp only at hlines htail ⊢
    split
    case isTrue hb =>
      subst hb
      exact ⟨List.forall_mem_cons.2 ⟨nofun, hlines⟩, htail, rfl⟩
    case isFalse hb =>
      cases lines with
      | nil => exact ⟨nofun, fun hm => (List.mem_cons.1 hm).elim (fun he => hb he.symm) htail, rfl⟩
      | cons line lines =>
        obtain ⟨hline, hlines⟩ := List.forall_mem_cons.1 hlines
        refine ⟨List.forall_mem_cons.2 ⟨fun hm => ?_, hlines⟩, htail, rfl⟩
        exact (List.mem_cons.1 hm).elim (fun he => hb he.symm) hline

theorem buffers_unlines (h : ∀ line ∈ lines, newline ∉ line) (tail : List UInt8) :
    buffers 511 [] (unlines lines ++ tail) =
      lines.flatMap (fun line => buffers 511 [] (line ++ [newline])) ++ buffers 511 [] tail := by
  induction lines with
  | nil => rfl
  | cons line lines ih =>
    obtain ⟨hline, hlines⟩ := List.forall_mem_cons.1 h
    have hfile : unlines (line :: lines) ++ tail = line ++ newline :: (unlines lines ++ tail) := by simp [unlines]
    rw [hfile, buffers_append hline, ih hlines, List.flatMap_cons, List.append_assoc]

theorem hostEntries_unlines (h : ∀ line ∈ lines, newline ∉ line) (tail : List UInt8) :
    hostEntries (unlines lines ++ tail) =
      lines.flatMap (fun line => hostEntries (line ++ [newline])) ++ hostEntries tail := by
  rw [hostEntries, buffers_unlines h, List.filterMap_append, List.filterMap_flatMap]
  rfl

end

/-! ### Tokens -/

/-- Behind spaces an address up to a space, and behind newlines a name up to a newline or the end. -/
def Splits (s : List UInt8) (l : HostLine) : Prop :=
  (l.ip ≠ [] ∧ space ∉ l.ip) ∧ (l.name ≠ [] ∧ newline ∉ l.name) ∧ ∃ n k rest,
    s = List.replicate n space ++ (l.ip ++ space :: (List.replicate k newline ++ (l.name ++ rest))) ∧
    (rest = [] ∨ rest.head? = some newline)

section
variable {delim : UInt8} {s tok rest buffer : List UInt8} {l : HostLine}

theorem strtok_skip (delim : UInt8) (n : Nat) (s : List UInt8) :
    strtok delim (List.replicate n delim ++ s) = strtok delim s := by
  induction n with
  | zero => rfl
  | succ n ih =>
    rw [← ih, List.replicate_succ, List.cons_append]
    simp [strtok]

theorem strtok_whole (hne : tok ≠ []) (h : delim ∉ tok) : strtok delim tok = (some tok, []) := by
  have hall : ∀ b ∈ tok, b ≠ delim := fun b hb he => h (he ▸ hb)
  have hskip : tok.dropWhile (· = delim) = tok :=
    List.dropWhile_eq_self_iff.2 fun hlen => by simpa using hall _ (List.getElem_mem hlen)
  have htake : tok.takeWhile (· ≠ delim) = tok := List.takeWhile_eq_self_iff.2 fun b hb => by simpa using hall b hb
  have hdrop : tok.dropWhile (· ≠ delim) = [] := List.dropWhile_eq_nil_iff.2 fun b hb => by simpa using hall b hb
  rw [strtok]
  simp only [hskip, htake, hdrop, if_neg hne, List.drop_nil]

theorem strtok_eq_some_iff : strtok delim s = (some tok, rest) ↔ (tok ≠ [] ∧ delim ∉ tok) ∧ ∃ n,
    s = List.replicate n delim ++ (tok ++ delim :: rest) ∨ s = List.replicate n delim ++ tok ∧ rest = [] := by
  constructor
  · intro h
    have hskip : s.takeWhile (· = delim) = List.replicate (s.takeWhile (· = delim)).length delim :=
      List.eq_replicate_of_mem fun b hb => by simpa using List.mem_takeWhile_imp hb
    have happ := List.takeWhile_append_dropWhile (p := (· = delim)) (l := s)
    have hhead := List.head?_dropWhile_not (· = delim) s
    rw [strtok] at h
    generalize s.dropWhile (· = delim) = s' at h happ hhead
    generalize s.takeWhile (· = delim) = pad at hskip happ
    cases s' with
    | nil => cases h
    | cons b s' =>
      rw [if_neg (List.cons_ne_nil b s'), Prod.mk.injEq, Option.some.injEq] at h
      obtain ⟨htok, hrest⟩ := h
      have hb : b ≠ delim := by simpa using hhead
      have hclean : delim ∉ tok := by
        intro hm
        rw [← htok] at hm
        simpa using List.mem_takeWhile_imp hm
      have hmore := List.takeWhile_append_dropWhile (p := (· ≠ delim)) (l := b :: s')
      have hnext := List.head?_dropWhile_not (· ≠ delim) (b :: s')
      refine ⟨⟨?_, hclean⟩, pad.length, ?_⟩
      · rw [← htok, List.takeWhile_cons_of_pos (by simpa using hb)]
        exact List.cons_ne_nil _ _
      · rw [← happ, ← hskip]
        rw [htok] at hmore
        generalize (b :: s').dropWhile (· ≠ delim) = behind at *
        cases behind with
        | nil => exact .inr ⟨by rw [← hmore, List.append_nil], hrest.symm⟩
        | cons c behind =>
          obtain rfl : c = delim := by simpa using hnext
          exact .inl (by rw [← hmore, ← hrest]; rfl)
  · rintro ⟨⟨hne, htok⟩, n, rfl | ⟨rfl, rfl⟩⟩
    · rw [strtok_skip, strtok_eq hne htok]
    · rw [strtok_skip, strtok_whole hne htok]

/-- In words of the text: both tokens are there if and only if it splits. -/
theorem tokens_eq_some_iff : tokens buffer = some l ↔ Splits (buffer.takeWhile (· ≠ 0)) l := by
  have hcalls : tokens buffer = some l ↔ ∃ rest rest', strtok space (buffer.takeWhile (· ≠ 0)) = (some l.ip, rest) ∧
      strtok newline rest = (some l.name, rest') := by
    rw [tokens]
    generalize strtok space (buffer.takeWhile (· ≠ 0)) = p
    obtain ⟨val, rest⟩ := p
    dsimp only
    constructor
    · intro h
      generalize hkey : strtok newline rest = p at h
      obtain ⟨key, rest'⟩ := p
      obtain ⟨ip, rfl, h⟩ := Option.bind_eq_some_iff.1 h
      obtain ⟨name, rfl, rfl⟩ := Option.map_eq_some_iff.1 h
      exact ⟨rest, rest', rfl, hkey⟩
    · rintro ⟨rest₁, rest', hip, hname⟩
      cases hip
      rw [hname]
      rfl
  rw [hcalls]
  constructor
  · rintro ⟨rest, rest', hval, hkey⟩
    obtain ⟨hip, n, hs⟩ := strtok_eq_some_iff.1 hval
    obtain ⟨hname, k, hrest⟩ := strtok_eq_some_iff.1 hkey
    have hne : rest ≠ [] := by
      rcases hrest with rfl | ⟨rfl, -⟩ <;> simp [hname.1]
    have hs := hs.resolve_right fun h => hne h.2
    rcases hrest with rfl | ⟨rfl, -⟩
    · exact ⟨hip, hname, n, k, newline :: rest', hs, .inr rfl⟩
    · exact ⟨hip, hname, n, k, [], by rw [List.append_nil]; exact hs, .inl rfl⟩
  · rintro ⟨hip, hname, n, k, rest, hs, hrest⟩
    refine ⟨_, rest.drop 1, strtok_eq_some_iff.2 ⟨hip, n, .inl hs⟩, strtok_eq_some_iff.2 ⟨hname, k, ?_⟩⟩
    cases rest with
    | nil => exact .inr ⟨by rw [List.append_nil], rfl⟩
    | cons c rest =>
      obtain rfl : c = newline := by simpa using hrest
      exact .inl rfl

/-- The loop body makes an entry for `l` of the buffer. -/
def Gives (buffer : List UInt8) (l : HostLine) : Prop :=
  buffer.head? ≠ some newline ∧ Splits (buffer.takeWhile (· ≠ 0)) l

theorem lineOf_eq_some_iff : lineOf buffer = some l ↔ Gives buffer l := by
  rw [lineOf, Gives, ← tokens_eq_some_iff]
  split <;> simp [*]

theorem usable_iff : Usable buffer ↔ buffer.head? = some newline ∨ ∃ l, Gives buffer l := by
  rw [Usable, Option.ne_none_iff_exists']
  by_cases h : buffer.head? = some newline
  · exact iff_of_true (.inl h) (.inl h)
  · simp only [h, Gives, false_or, tokens_eq_some_iff, ne_eq, not_false_eq_true, true_and]

end

/-! ### The lists -/

namespace HostHeap

/-- Both strings of every entry are there. -/
def Named (h : HostHeap) : Prop := ∀ e ∈ h.entries, e.domainName ≠ none ∧ e.ip ≠ none

theorem link_entries {h h' : HostHeap} {entry : DNSEntry} {name : List UInt8} (hlink : h.link entry name = .ok h') :
    h'.entries = h.entries ++ [entry] := by
  have hadd : ∀ {h h' : HostHeap} {i : Nat}, h.addHead entry i = .ok h' → h'.entries = h.entries ++ [entry] := by
    intro h h' i hadd
    obtain ⟨links, -, hadd⟩ := bind_ok.1 hadd
    cases hadd
    rfl
  obtain ⟨found, -, hlink⟩ := bind_ok.1 hlink
  cases found with
  | some head =>
    dsimp only at hlink
    split at hlink
    · cases hlink
    · exact hadd hlink
  | none =>
    obtain ⟨h₁, h₁add, hlink⟩ := bind_ok.1 hlink
    obtain ⟨⟨hash, node⟩, -, hlink⟩ := bind_ok.1 hlink
    cases hlink
    exact (hadd h₁add : h₁.entries = _)

theorem hostLine_ok {h h' : HostHeap} {buffer : List UInt8} {now : Nat} (hline : h.hostLine buffer now = .ok h') :
    Usable buffer ∧ (h.Named → h'.Named) := by
  rw [hostLine_eq] at hline
  by_cases hhead : buffer.head? = some newline
  · rw [if_pos hhead] at hline
    cases hline
    exact ⟨.inl hhead, id⟩
  · rw [if_neg hhead] at hline
    cases ht : tokens buffer with
    | none => rw [ht] at hline; cases hline
    | some l =>
      rw [ht] at hline
      refine ⟨.inr (by rw [ht]; nofun), fun hnamed e he => ?_⟩
      rw [link_entries hline] at he
      rcases List.mem_append.1 he with he | he
      · exact hnamed e he
      · rw [List.mem_singleton.1 he]
        exact ⟨nofun, nofun⟩

theorem hostLoop_ok {clk : Nat → Nat} {fuel k : Nat} {file : List UInt8} {h h' : HostHeap}
    (hloop : h.hostLoop clk fuel k file = .ok h') :
    (∀ b ∈ buffers 511 [] file, Usable b) ∧ (h.Named → h'.Named) := by
  induction fuel generalizing h k file with
  | zero => cases hloop
  | succ fuel ih =>
    rw [hostLoop] at hloop
    rcases fgets_buffers file with ⟨hend, hbuf⟩ | ⟨buffer, rest, hget, -, hbuf⟩
    · rw [hbuf]
      have hsame : h' = h := by
        rcases hend with hend | ⟨buffer, rest, hend⟩ <;> rw [hend] at hloop <;> cases hloop <;> rfl
      exact ⟨List.forall_mem_nil _, fun hnamed => hsame ▸ hnamed⟩
    · rw [hget] at hloop
      obtain ⟨h₁, hline, hloop⟩ := bind_ok.1 hloop
      obtain ⟨husable, hnamed₁⟩ := hostLine_ok hline
      obtain ⟨hrest, hnamed⟩ := ih hloop
      rw [hbuf]
      exact ⟨List.forall_mem_cons.2 ⟨husable, hrest⟩, fun hn => hnamed (hnamed₁ hn)⟩

/-- A file whose buffers can all be used is loaded into lists that say what its entries say. -/
theorem hostInit_table (links : Links HostNode) (clk : Nat → Nat) {file : List UInt8}
    (hfile : ∀ b ∈ buffers 511 [] file, Usable b) :
    ∃ h m f, hostInit links clk file = .ok h ∧ h.Named ∧ Table m (hostEntries file) f ∧
      ∀ clk' entry, h.hostQuery clk' entry = DnsRelay.hostQuery clk' m entry := by
  obtain ⟨m, f, hm, htable⟩ := hostInit_buffers clk hfile
  obtain ⟨h, chain, hh, hr⟩ := Refines.hostInit links hm
  exact ⟨h, m, f, hh, (hostLoop_ok hh).2 nofun, htable, hr.hostQuery⟩

end HostHeap

/-! ### Good and bad lines -/

def carriageReturn : UInt8 := 13

/-- An address, a space and a name that fit the buffer together with the newline. -/
def WellFormed (line : List UInt8) : Prop :=
  line.length ≤ 510 ∧ line.count space = 1 ∧ line.head? ≠ some space ∧ line.getLast? ≠ some space ∧
    0 ∉ line ∧ carriageReturn ∉ line

instance (line : List UInt8) : Decidable (WellFormed line) := inferInstanceAs (Decidable (_ ∧ _))

def goodLines (file : List UInt8) : List (List UInt8) := (fileLines file).1.filter WellFormed

/-- The file without its malformed lines and without what stands behind the last newline. -/
def goodFile (file : List UInt8) : List UInt8 := unlines (goodLines file)

/-- The buffers that malformed lines fill, and what stands behind the last newline. -/
def badBuffers (file : List UInt8) : List (List UInt8) :=
  ((fileLines file).1.filter (¬ WellFormed ·)).flatMap (fun line => buffers 511 [] (line ++ [newline])) ++
    buffers 511 [] (fileLines file).2

/-- All lines are taken in, every entry has both strings, and the queries for `asked` names are answered as if only
the well-formed lines were there. -/
def Harmless (asked : List UInt8 → Prop) (links : Links HostNode) (clk clk' : Nat → Nat) (file : List UInt8) : Prop :=
  ∃ h h', HostHeap.hostInit links clk file = .ok h ∧ h.Named ∧
    HostHeap.hostInit links clk (goodFile file) = .ok h' ∧
    ∀ entry, (∀ name, entry.domainName = some name → asked name) →
      hostAnswer (h.hostQuery clk' entry) = hostAnswer (h'.hostQuery clk' entry)

/-- The entries of a file in order, those of well-formed lines marked. -/
def taggedEntries (file : List UInt8) : List (HostLine × Bool) :=
  (fileLines file).1.flatMap (fun line => (hostEntries (line ++ [newline])).map (·, decide (WellFormed line))) ++
    (hostEntries (fileLines file).2).map (·, false)

section
variable {file line : List UInt8} {l : HostLine}

theorem goodLines_newline (hline : line ∈ goodLines file) : newline ∉ line :=
  (fileLines_spec file).1 line (List.mem_of_mem_filter hline)

theorem goodLines_valid (hline : line ∈ goodLines file) : ∃ l : HostLine, l.Valid ∧ line = l.ip ++ space :: l.name := by
  have hn := goodLines_newline hline
  obtain ⟨hlen, hone, hhead, hlast, hnul, -⟩ : WellFormed line := of_decide_eq_true (List.mem_filter.1 hline).2
  obtain ⟨ip, name, rfl, hip⟩ := List.eq_append_cons_of_mem (List.count_pos_iff.1 (hone ▸ Nat.one_pos))
  simp only [List.mem_append, List.mem_cons, not_or] at hn hnul
  refine ⟨⟨ip, name⟩, ⟨?_, ?_, ⟨hip, hn.1, hnul.1⟩, ⟨hn.2.2, hnul.2.2⟩, ?_⟩, rfl⟩
  · rintro rfl
    exact hhead rfl
  · rintro rfl
    simp at hlast
  · simp only [List.length_append, List.length_cons] at hlen
    simp only [HostLine.text, List.length_append, List.length_cons, List.length_nil]
    omega

/-- A well-formed line fills one buffer. -/
theorem HostLine.Valid.buffers (hl : l.Valid) : buffers 511 [] ((l.ip ++ space :: l.name) ++ [newline]) = [l.text] := by
  have hlen := hl.length_le
  rw [HostLine.text, List.length_append, List.length_singleton] at hlen
  exact buffers_line hl.newline_notMem hlen []

theorem goodFile_buffers (file : List UInt8) : buffers 511 [] (goodFile file) =
    (goodLines file).flatMap fun line => buffers 511 [] (line ++ [newline]) := by
  have hbuf := buffers_unlines (fun line (hline : line ∈ goodLines file) => goodLines_newline hline) []
  rwa [List.append_nil, buffers, List.append_nil] at hbuf

theorem goodFile_usable (file : List UInt8) : ∀ b ∈ buffers 511 [] (goodFile file), Usable b := by
  intro b hb
  rw [goodFile_buffers] at hb
  obtain ⟨line, hline, hb⟩ := List.mem_flatMap.1 hb
  obtain ⟨l, hl, rfl⟩ := goodLines_valid hline
  rw [hl.buffers, List.mem_singleton] at hb
  exact .inr (by rw [hb, tokens_text hl]; nofun)

theorem mem_goodFile {ip name : List UInt8} (hne : ip ≠ []) (hip : space ∉ ip) :
    ⟨ip, name⟩ ∈ hostEntries (goodFile file) ↔ ip ++ space :: name ∈ goodLines file := by
  have hentry : ∀ line ∈ goodLines file, (∃ b ∈ buffers 511 [] (line ++ [newline]), lineOf b = some ⟨ip, name⟩) ↔
      line = ip ++ space :: name := by
    intro line hline
    obtain ⟨⟨ip', name'⟩, hl', rfl⟩ := goodLines_valid hline
    simp only [hl'.buffers, List.mem_singleton, exists_eq_left, lineOf_text hl', Option.some.injEq, HostLine.mk.injEq]
    constructor
    · rintro ⟨rfl, rfl⟩
      rfl
    · intro heq
      have htok : strtok space (ip' ++ space :: name') = (some ip', name') := strtok_eq hl'.ip_ne hl'.ip_clean.1 name'
      rw [heq, strtok_eq hne hip] at htok
      cases htok
      exact ⟨rfl, rfl⟩
  rw [hostEntries, goodFile_buffers]
  simp only [List.mem_filterMap, List.mem_flatMap]
  constructor
  · rintro ⟨b, ⟨line, hline, hb⟩, hbl⟩
    exact (hentry line hline).1 ⟨b, hb, hbl⟩ ▸ hline
  · intro hline
    obtain ⟨b, hb, hbl⟩ := (hentry _ hline).2 rfl
    exact ⟨b, ⟨_, hline, hb⟩, hbl⟩

theorem taggedEntries_fst (file : List UInt8) : (taggedEntries file).map Prod.fst = hostEntries file := by
  obtain ⟨hlines, -, hfile⟩ := fileLines_spec file
  have hsplit := hostEntries_unlines hlines (fileLines file).2
  rw [hfile] at hsplit
  rw [hsplit, taggedEntries, List.map_append, List.map_flatMap]
  simp [Function.comp_def]

theorem kept_taggedEntries (file : List UInt8) : kept (taggedEntries file) = hostEntries (goodFile file) := by
  rw [hostEntries, goodFile_buffers, List.filterMap_flatMap, goodLines, kept, taggedEntries, List.filter_append,
    List.map_append]
  have htail : (List.filter Prod.snd ((hostEntries (fileLines file).2).map (·, false))).map Prod.fst = [] := by
    simp [List.filter_map, Function.comp_def]
  rw [htail, List.append_nil]
  induction (fileLines file).1 with
  | nil => rfl
  | cons line lines ih =>
    rw [List.flatMap_cons, List.filter_append, List.map_append, ih]
    by_cases hwf : WellFormed line
    · simp [hwf, List.filter_map, Function.comp_def, hostEntries]
    · simp [hwf, List.filter_map, Function.comp_def]

theorem mem_taggedEntries : (l, false) ∈ taggedEntries file ↔ ∃ b ∈ badBuffers file, Gives b l := by
  simp only [badBuffers, taggedEntries, hostEntries, ← lineOf_eq_some_iff, List.mem_append, List.mem_flatMap,
    List.mem_map, List.mem_filter, List.mem_filterMap, Prod.mk.injEq, decide_eq_true_eq, decide_eq_false_iff_not]
  constructor
  · rintro (⟨line, hline, l, ⟨b, hb, hl⟩, rfl, hwf⟩ | ⟨l, ⟨b, hb, hl⟩, rfl, -⟩)
    · exact ⟨b, .inl ⟨line, ⟨hline, hwf⟩, hb⟩, hl⟩
    · exact ⟨b, .inr hb, hl⟩
  · rintro ⟨b, ⟨line, ⟨hline, hwf⟩, hb⟩ | hb, hl⟩
    · exact .inl ⟨line, hline, l, ⟨b, hb, hl⟩, rfl, hwf⟩
    · exact .inr ⟨l, ⟨b, hb, hl⟩, rfl, trivial⟩

/-- Malformed lines are harmless if and only if each buffer has an address and a name, and no `asked` query comes to
look at the entries they leave. -/
theorem malformed_harmless_iff (asked : List UInt8 → Prop) (links : Links HostNode) (clk clk' : Nat → Nat)
    (file : List UInt8) : Harmless asked links clk clk' file ↔
      (∀ b ∈ buffers 511 [] file, b.head? = some newline ∨ ∃ l, Gives b l) ∧
      ∀ b ∈ badBuffers file, ∀ l, Gives b l → asked l.name →
        colon ∉ l.ip ∧ blockIp ++ space :: l.name ∈ goodLines file := by
  obtain ⟨h', m', f', hh', -, htable', hquery'⟩ := HostHeap.hostInit_table links clk (goodFile_usable file)
  have hsame : (∀ b ∈ buffers 511 [] file, Usable b) → (Harmless asked links clk clk' file ↔
      ∀ b ∈ badBuffers file, ∀ l, Gives b l → asked l.name →
        colon ∉ l.ip ∧ blockIp ++ space :: l.name ∈ goodLines file) := by
    intro husable
    obtain ⟨h, m, f, hh, hnamed, htable, hquery⟩ := HostHeap.hostInit_table links clk husable
    rw [← taggedEntries_fst] at htable
    rw [← kept_taggedEntries] at htable'
    have hkept := hostAnswer_kept_iff asked clk' clk' htable htable'
    have hblock : blockIp ≠ [] ∧ space ∉ blockIp := by decide
    simp only [mem_taggedEntries, kept_taggedEntries, mem_goodFile hblock.1 hblock.2, ← hquery, ← hquery'] at hkept
    rw [Harmless]
    constructor
    · rintro ⟨h₁, h₁', hh₁, -, hh₁', hanswer⟩ b hb l hl
      obtain rfl := Except.ok.inj (hh₁.symm.trans hh)
      obtain rfl := Except.ok.inj (hh₁'.symm.trans hh')
      exact hkept.1 hanswer l ⟨b, hb, hl⟩
    · exact fun hcond => ⟨h, h', hh, hnamed, hh', hkept.2 fun l ⟨b, hb, hl⟩ => hcond b hb l hl⟩
  simp only [← usable_iff]
  constructor
  · intro hharmless
    have hloaded := hharmless
    obtain ⟨h, -, hh, -⟩ := hloaded
    have husable := (HostHeap.hostLoop_ok hh).1
    exact ⟨husable, (hsame husable).1 hharmless⟩
  · exact fun hcond => (hsame hcond.1).2 hcond.2

/-- `0.0.0.0 a` and ` 1 a`: nobody asks `hostQuery` for the address behind the space. -/
theorem malformed_harmless_blocked : Harmless (fun _ => True) nullLinks (fun _ => 0) (fun _ => 0)
    (blockIp ++ [space, 97, newline] ++ [space, 49, space, 97, newline]) := by
  refine (malformed_harmless_iff _ _ _ _ _).2 ⟨?_, ?_⟩
  · simp only [← usable_iff]
    decide +kernel
  · have hbad : badBuffers (blockIp ++ [space, 97, newline] ++ [space, 49, space, 97, newline]) =
        [[space, 49, space, 97, newline]] := by decide +kernel
    intro b hb l hl _
    rw [hbad, List.mem_singleton] at hb
    rw [hb, ← lineOf_eq_some_iff] at hl
    obtain rfl : ⟨[49], [97]⟩ = l := Option.some.inj hl
    exact ⟨by decide, by decide +kernel⟩

/-- `abc` without a space: the name is `NULL`. -/
theorem malformed_null : HostHeap.hostInit nullLinks (fun _ => 0) [97, 98, 99, newline] = .error .null := rfl

end

end DnsRelay
