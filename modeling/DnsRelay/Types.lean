import DnsRelay.Message
import DnsRelay.Server

/-!
# Record types through the cache

A record's TYPE and a question's QTYPE are 16 bits wide, the cache compares 8 of them. `Faithful`
says of a record the cache finds for a question what the answer buffer relies on: it was stored from
an answer of exactly that type, and its text fits.
-/

namespace DnsRelay
open ByteSeq Exec

/-- A type for which `urlParse` makes a text. -/
def Known (t : UInt16) : Prop := t = typeA ∨ t = typeAaaa ∨ t = typeNs ∨ t = typeMx ∨ t = typeCname

theorem Known.lt {t : UInt16} (h : Known t) : t.toNat < 256 := by
  rcases h with rfl | rfl | rfl | rfl | rfl <;> decide

/-- Eight bits tell types below 256 apart. -/
theorem toUInt8_inj {t t' : UInt16} (h : t.toNat < 256) (h' : t'.toNat < 256)
    (he : t.toUInt8 = t'.toUInt8) : t = t' := by
  apply UInt16.toNat_inj.1
  have := congrArg UInt8.toNat he
  rw [UInt16.toNat_toUInt8, UInt16.toNat_toUInt8] at this
  omega

section
variable {C : Libc} {st : Stale} {buf : List UInt8} {a : Answer}

/-- For a type it knows `urlParse` writes a text and its NUL into the buffer allocated for it, the same whatever was
there before. -/
theorem urlParse_written (hC : C.Lawful) {src : Nat} {addition addition' mode len : UInt16}
    {stale stale' : List UInt8} {dest : Block} (hmode : Known mode)
    (h : urlParse C buf src (Block.fresh (typeBufSize mode) stale') addition mode len stale = .ok (dest, addition')) :
    ∃ s, 0 ∉ s ∧ s.length < typeBufSize mode ∧ At dest.bytes 0 (s ++ [0]) ∧ ∀ found, ∃ dest',
      urlParse C buf src (Block.fresh (typeBufSize mode) found) addition mode len stale = .ok (dest', addition') ∧
        At dest'.bytes 0 (s ++ [0]) := by
  have haddr {text : List UInt8} (found : List UInt8) (hlen : text.length + 1 ≤ typeBufSize mode) :
      (Block.fresh (typeBufSize mode) found).storeBytes 0 (text ++ [0]) =
          .ok ((Block.fresh (typeBufSize mode) found).patch 0 (text ++ [0])) ∧
        At ((Block.fresh (typeBufSize mode) found).patch 0 (text ++ [0])).bytes 0 (text ++ [0]) := by
    have hroom : 0 + (text ++ [0]).length ≤ (Block.fresh (typeBufSize mode) found).size := by simpa using hlen
    exact ⟨Block.storeBytes_eq hroom, Block.at_patch hroom⟩
  by_cases hA : mode = typeA
  · subst hA
    obtain ⟨d, hd, h⟩ := bind_ok.1 h
    cases h
    obtain ⟨b, hb, hd⟩ := bind_ok.1 hd
    obtain ⟨hzero, hlen⟩ := hC.text4 b (loadBytes_length hb)
    have hsize : (C.ntop4 b).length + 1 ≤ typeBufSize typeA := show _ ≤ 22 by omega
    rw [if_pos (by omega), (haddr stale' hsize).1] at hd
    cases hd
    refine ⟨C.ntop4 b, hzero, hsize, (haddr stale' hsize).2, fun found => ⟨_, ?_, (haddr found hsize).2⟩⟩
    rw [urlParse, if_neg (by decide), if_pos rfl, inetParse, hb, ok_bind, if_pos (by omega), (haddr found hsize).1]
    rfl
  by_cases h6 : mode = typeAaaa
  · subst h6
    obtain ⟨d, hd, h⟩ := bind_ok.1 h
    cases h
    obtain ⟨b, hb, hd⟩ := bind_ok.1 hd
    obtain ⟨hzero, hlen⟩ := hC.text6 b (loadBytes_length hb)
    have hsize : (C.ntop6 b).length + 1 ≤ typeBufSize typeAaaa := show _ ≤ 50 by omega
    rw [if_pos (by omega), (haddr stale' hsize).1] at hd
    cases hd
    refine ⟨C.ntop6 b, hzero, hsize, (haddr stale' hsize).2, fun found => ⟨_, ?_, (haddr found hsize).2⟩⟩
    rw [urlParse, if_neg (by decide), if_neg (by decide), if_pos rfl, inetParse, hb, ok_bind, if_pos (by omega),
      (haddr found hsize).1]
    rfl
  have hnames : mode = typeCname ∨ mode = typeMx ∨ mode = typeNs := by
    rcases hmode with h | h | h | h | h
    · exact absurd h hA
    · exact absurd h h6
    · exact .inr (.inr h)
    · exact .inr (.inl h)
    · exact .inl h
  have hq : mode ≠ typeQname := by rcases hnames with rfl | rfl | rfl <;> decide
  rw [urlParse, if_neg hq, if_neg hA, if_neg h6] at h
  obtain ⟨⟨addition₁, src₁, len₁⟩, hpref, h⟩ := bind_ok.1 h
  dsimp only at h
  rw [if_pos hnames] at h
  obtain ⟨temp, htemp, h⟩ := bind_ok.1 h
  obtain ⟨namePtr, hptr, h⟩ := bind_ok.1 h
  obtain ⟨temp', hexpand, h⟩ := bind_ok.1 h
  obtain ⟨d, hd, h⟩ := bind_ok.1 h
  cases h
  obtain ⟨s, hzero, hlen, hat, hany⟩ := inetParse_written hd
  refine ⟨s, hzero, hlen, hat, fun found => ?_⟩
  obtain ⟨d', hd', hat'⟩ := hany (Block.fresh (typeBufSize mode) found) rfl
  refine ⟨d', ?_, hat'⟩
  rw [urlParse, if_neg hq, if_neg hA, if_neg h6, hpref, ok_bind]
  dsimp only
  rw [if_pos hnames, htemp, ok_bind, hptr, ok_bind, hexpand, ok_bind, hd']
  rfl

/-- The text of the answer `a` that was read at `pos` was written by `urlParse`. -/
theorem parseAnswer_written (hC : C.Lawful) {i pos : Nat} (h : parseAnswer C st buf i pos = .ok a)
    (hk : Known a.type) :
    ∃ s, cstr a.rdata.bytes = .ok s ∧ s.length < typeBufSize a.type ∧ ∀ found, ∃ dest,
      urlParse C buf (pos + 12) (Block.fresh (typeBufSize a.type) found) (st.addition i) a.type a.rdlen (st.temp i) =
        .ok (dest, a.addition) ∧ At dest.bytes 0 (s ++ [0]) := by
  obtain ⟨name, -, h⟩ := bind_ok.1 h
  obtain ⟨type, -, h⟩ := bind_ok.1 h
  obtain ⟨cls, -, h⟩ := bind_ok.1 h
  obtain ⟨ttl, -, h⟩ := bind_ok.1 h
  obtain ⟨rdlen, -, h⟩ := bind_ok.1 h
  obtain ⟨⟨rdata, addition⟩, hurl, h⟩ := bind_ok.1 h
  cases h
  obtain ⟨s, hzero, hlen, hat, hany⟩ := urlParse_written hC hk hurl
  exact ⟨s, cstr_at (p := 0) hzero hat, hlen, hany⟩

/-- The text fits. -/
theorem packetParse_fits (hC : C.Lawful) {len : Nat} {p : Packet} (h : packetParse C st buf len = .ok p)
    (ha : a ∈ p.ans) (hk : Known a.type) {s : List UInt8} (hs : cstr a.rdata.bytes = .ok s) :
    s.length + 1 ≤ typeBufSize a.type := by
  obtain ⟨k, hget⟩ := List.mem_iff_getElem?.1 ha
  obtain ⟨mid, stop, hparsed⟩ := packetParse_parsed h
  obtain ⟨pre, pos, -, hread⟩ := parseAnswers_get hparsed.ans hget
  obtain ⟨s', hs', hlen, -⟩ := parseAnswer_written hC hread hk
  cases hs.symm.trans hs'
  exact hlen

end

namespace Server
variable {σ : Type}

/-- The record `r` was stored by the event from an answer of type `t`. -/
def StoredAs (cfg : Config) (r : Record) (t : UInt16) (e : Event σ) : Prop :=
  ∃ d p rs q a, Responds cfg e d p ∧ p.records d.clk.store = .ok rs ∧ r ∈ rs ∧ p.quests[0]? = some q ∧
    a ∈ p.ans ∧ a.type = q.qtype ∧ a.type = t ∧ cstr a.rdata.bytes = .ok r.ip

/-- The entry holds a record stored by a response among `es` from an answer of type `t`, and the text
fits the buffer `urlQuery` allocates for `t`. -/
def Faithful (cfg : Config) (es : List (Event σ)) (t : UInt16) (entry : DNSEntry) : Prop :=
  ∃ r, entry = r.entry ∧ (∃ e ∈ es, StoredAs cfg r t e) ∧ r.ip.length + 1 ≤ typeBufSize t

/-- If the event is a response, the answers it stores are of a known type. -/
def KnownStores (cfg : Config) (e : Event σ) : Prop :=
  ∀ d p q a, Responds cfg e d p → p.quests[0]? = some q → a ∈ p.ans → a.type = q.qtype → Known a.type

theorem Stored.storedAs {cfg : Config} {r : Record} {e : Event σ} (h : Stored cfg r e) :
    ∃ t, StoredAs cfg r t e ∧ r.type = t.toUInt8 := by
  obtain ⟨d, p, rs, hresp, hrs, hr⟩ := h
  obtain ⟨q, a, hq, ha, ht, -, hip, hty⟩ := mem_storedRecords hrs hr
  exact ⟨a.type, ⟨d, p, rs, q, a, hresp, hrs, hr, hq, List.take_subset _ _ ha, ht, rfl, hip⟩, hty⟩

theorem StoredAs.known {cfg : Config} {r : Record} {t : UInt16} {e : Event σ} (h : StoredAs cfg r t e)
    (hk : KnownStores cfg e) : Known t := by
  obtain ⟨d, p, rs, q, a, hresp, -, -, hq, ha, ht, rfl, -⟩ := h
  exact hk d p q a hresp hq ha ht

theorem StoredAs.fits {cfg : Config} (hC : cfg.libc.Lawful) {r : Record} {t : UInt16} {e : Event σ}
    (h : StoredAs cfg r t e) (hk : Known t) : r.ip.length + 1 ≤ typeBufSize t := by
  obtain ⟨d, p, rs, q, a, ⟨-, hp, -⟩, -, -, -, ha, -, rfl, hip⟩ := h
  exact packetParse_fits hC hp ha hk hip

/-- What the cache finds for a question after a run was stored by responses of the run, as a type with the
same eight bits. -/
theorem found_storedAs {cfg : Config} (hN : 1 ≤ cfg.capacity) {lines : List HostLine} (hhost : Hosts cfg.host lines)
    {list : Nat → DNSEntry} {links : Links Node} {es : List (Event σ)} {s : Server σ}
    (hrun : (run cfg (some (.init list links)) es).1 = some s) {clk : Clock} {pre : List Quest}
    {gs : List (List Answer)} {c : LRUCache} (hpre : Answered cfg.capacity cfg.host clk 0 pre s.cache gs c)
    (q : Quest) (name : List UInt8) :
    ∃ slots L found, Holds cfg.capacity c slots L ∧ c.cacheQuery cfg.capacity (clk.visit pre.length)
        (dnsEntrySet (some name) none 0 q.qtype.toUInt8 0 (clk.search pre.length)) = .ok found ∧
      (found = [] ↔ Absent (clk.visit pre.length) name q.qtype.toUInt8 L) ∧
      ∀ x ∈ found, ∃ r, x.1 = r.entry ∧ ∃ e ∈ es, ∃ t, StoredAs cfg r t e ∧ t.toUInt8 = q.qtype.toUInt8 := by
  obtain ⟨slots, L, hc, hL⟩ := run_sourced hN hhost (Sourced.init cfg list links) hrun
  rw [List.nil_append] at hL
  obtain ⟨slots₁, L₁, hc₁, hperm⟩ := hpre.holds hc hhost
  obtain ⟨found, c', slots', hfound, hentries, -⟩ := hc₁.cacheQuery (clk.visit pre.length)
    (dnsEntrySet (some name) none 0 q.qtype.toUInt8 0 (clk.search pre.length)) rfl
  refine ⟨slots₁, L₁, found, hc₁, hfound, ?_, fun x hx => ?_⟩
  · rw [← hc₁.cacheMiss_iff clk pre.length q name, CacheMiss, hfound, Except.ok.injEq]
  have hx : x.1 ∈ found.map Prod.fst := List.mem_map_of_mem hx
  rw [hentries] at hx
  obtain ⟨r, hr, hxr⟩ := List.mem_map.1 hx
  obtain ⟨hr, -, hty⟩ := mem_cacheHits hr
  obtain ⟨e, he, hs⟩ := hL r (hperm.subset hr)
  obtain ⟨t, ht, htr⟩ := hs.storedAs
  exact ⟨r, hxr.symm, e, he, t, ht, htr.symm.trans hty⟩

/-- A response with an address for `a`. -/
def storeRun : List (Event Nat) := [.datagram (.response 7 97 100)]

theorem storeRun_known (e : Event Nat) (he : e ∈ storeRun) : KnownStores smallConfig e := by
  rintro d p q a ⟨rfl, hp, -⟩ - ha -
  have hd := List.mem_singleton.1 he
  cases hd
  have htypes : (packetParse .decimal .zero (responseFor 7 [97] ++ List.replicate bufferSize 0)
      (responseFor 7 [97]).length).map (fun p => p.ans.map Answer.type) = .ok [typeA] := by decide +kernel
  rw [show packetParse .decimal .zero (responseFor 7 [97] ++ List.replicate bufferSize 0)
    (responseFor 7 [97]).length = .ok p from hp] at htypes
  have htypes : p.ans.map Answer.type = [typeA] := Except.ok.inj htypes
  have ha : a.type ∈ p.ans.map Answer.type := List.mem_map_of_mem ha
  rw [htypes] at ha
  exact .inl (List.mem_singleton.1 ha)

end Server

end DnsRelay
