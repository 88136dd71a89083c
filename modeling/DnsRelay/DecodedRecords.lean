import DnsRelay.FormatName
import DnsRelay.Ownership
import DnsRelay.Types

/-!
# Records without a text

`urlParse` makes a text of the RDATA for five types; an answer of any other type gets a buffer of no
bytes, which stays as it is. `urlStore` stores it all the same if the first question asks for its type,
and `urlFormat` returns -1 for it. So every record has a text, and every record the cache finds is turned
back into RDATA, as long as no response stores an answer of such a type.
-/

namespace DnsRelay
open ByteSeq Exec

/-- The text of the record is the one that ends inside the RDATA buffer of the `k`-th answer `a`, and `urlParse`
wrote it and its NUL there: it leaves them at the start of the buffer whatever was in it before. -/
structure DecodedAs (C : Libc) (st : Stale) (buf : List UInt8) (p : Packet) (k : Nat) (a : Answer) (r : Record) :
    Prop where
  text : cstr a.rdata.bytes = .ok r.ip
  inside : r.ip.length < typeBufSize a.type
  written : ∃ pos, AnswerPos C st buf p k pos ∧ parseAnswer C st buf k pos = .ok a ∧ ∀ found, ∃ dest,
    urlParse C buf (pos + 12) (Block.fresh (typeBufSize a.type) found) (st.addition k) a.type a.rdlen (st.temp k) =
      .ok (dest, a.addition) ∧ At dest.bytes 0 (r.ip ++ [0])

/-- `urlFormat` for the type `type` and the text of `e` does not return a negative length, so
`responseFormat` does not copy 65535 bytes for it. -/
def Formats (C : Libc) (type : UInt16) (e : DNSEntry) : Prop :=
  ∀ ip url resData name pointer ret resData', e.ip = some ip → cstr url = .ok ip →
    urlFormat C url resData type name pointer e.addition = .ok (ret, resData') →
    0 ≤ ret ∧ UInt16.ofNat (ret % 65536).toNat ≠ 65535

section
variable {C : Libc} {st : Stale} {buf url s name : List UInt8} {mode pointer addition : UInt16} {dest dest' : Block}
  {ret : Int}

theorem known_of_bufSize (h : 0 < typeBufSize mode) : Known mode := by
  unfold typeBufSize at h
  split_ifs at h with hA h6 hname
  · exact .inl hA
  · exact .inr (.inl h6)
  · rcases hname with h | h | h
    · exact .inr (.inr (.inl h))
    · exact .inr (.inr (.inr (.inl h)))
    · exact .inr (.inr (.inr (.inr h)))
  · omega

/-- The end that `urlFormat` takes for shared is a part of both names. -/
theorem comparePos_bounds (s q : List UInt8) :
    comparePos s q s.length q.length (-1) = -1 ∨
      0 ≤ comparePos s q s.length q.length (-1) ∧
        (q.length : Int) - comparePos s q s.length q.length (-1) ≤ s.length ∧
        comparePos s q s.length q.length (-1) ≤ q.length := by
  have hspec := comparePos_spec s q [] (-1)
  rw [List.append_nil, List.append_nil] at hspec
  rcases hspec with ⟨-, hsuf, heq⟩ | ⟨-, x₁, a₁, b, rfl, rfl, heq⟩ | ⟨-, -, heq⟩
  · have := hsuf.length_le
    rw [heq]
    omega
  · rw [heq]
    simp only [List.length_append, List.length_cons]
    omega
  · exact .inl heq

/-- For a type it knows `urlFormat` returns no negative length. -/
theorem urlFormat_nonneg (hmode : Known mode) (hs : cstr url = .ok s)
    (h : urlFormat C url dest mode name pointer addition = .ok (ret, dest')) : 0 ≤ ret ∧ ret ≤ s.length + 16 := by
  by_cases hA : mode = typeA
  · rw [urlFormat, if_pos hA] at h
    obtain ⟨⟨n, d⟩, hn, h⟩ := bind_ok.1 h
    cases h
    obtain ⟨s', -, hn⟩ := bind_ok.1 hn
    split at hn
    · cases hn; omega
    · obtain ⟨d', -, hn⟩ := bind_ok.1 hn
      cases hn
      omega
  by_cases h6 : mode = typeAaaa
  · rw [urlFormat, if_neg hA, if_pos h6] at h
    obtain ⟨⟨n, d⟩, hn, h⟩ := bind_ok.1 h
    cases h
    obtain ⟨s', -, hn⟩ := bind_ok.1 hn
    split at hn
    · cases hn; omega
    · obtain ⟨d', -, hn⟩ := bind_ok.1 hn
      cases hn
      omega
  have hnames : mode = typeCname ∨ mode = typeMx ∨ mode = typeNs := by
    rcases hmode with h | h | h | h | h
    · exact absurd h hA
    · exact absurd h h6
    · exact .inr (.inr h)
    · exact .inr (.inl h)
    · exact .inl h
  rw [urlFormat, if_neg hA, if_neg h6] at h
  obtain ⟨⟨dest₁, d⟩, -, h⟩ := bind_ok.1 h
  dsimp only at h
  rw [if_pos hnames] at h
  obtain ⟨s', hs', h⟩ := bind_ok.1 h
  cases hs.symm.trans hs'
  obtain ⟨q, -, h⟩ := bind_ok.1 h
  obtain ⟨⟨resLen, dest₂⟩, hlen, h⟩ := bind_ok.1 h
  obtain ⟨ls, -, -, hres⟩ := (inetFormat_iff hs).1 hlen
  obtain ⟨rfl, -⟩ := Prod.mk.inj hres
  dsimp only at h
  have hbounds := comparePos_bounds s q
  split at h
  case isTrue =>
    obtain ⟨d', -, h⟩ := bind_ok.1 h
    cases h
    omega
  case isFalse hpos =>
    obtain ⟨d', -, h⟩ := bind_ok.1 h
    have hbounds := hbounds.resolve_left hpos
    cases h
    split <;> omega

/-- For any other it returns -1. -/
theorem urlFormat_unknown (hmode : ¬ Known mode) (C : Libc) (url name : List UInt8) (dest : Block)
    (pointer addition : UInt16) : urlFormat C url dest mode name pointer addition = .ok (-1, dest) := by
  have hA : mode ≠ typeA := fun h => hmode (.inl h)
  have h6 : mode ≠ typeAaaa := fun h => hmode (.inr (.inl h))
  have hmx : mode ≠ typeMx := fun h => hmode (.inr (.inr (.inr (.inl h))))
  have hnames : ¬ (mode = typeCname ∨ mode = typeMx ∨ mode = typeNs) := by
    rintro (h | h | h)
    · exact hmode (.inr (.inr (.inr (.inr h))))
    · exact hmx h
    · exact hmode (.inr (.inr (.inl h)))
  rw [urlFormat, if_neg hA, if_neg h6, if_neg hmx]
  exact if_neg hnames

/-- A text that fits is formatted if and only if the type is known. -/
theorem formats_iff {r : Record} (h0 : 0 ∉ r.ip) (hlen : r.ip.length ≤ 255) :
    Formats C mode r.entry ↔ Known mode := by
  constructor
  · intro h
    by_contra hmode
    have hneg := (h r.ip (r.ip ++ [0]) (Block.fresh 0 []) [] 0 (-1) (Block.fresh 0 []) rfl (cstr_append h0 [])
      (urlFormat_unknown hmode C _ _ _ _ _)).1
    omega
  · intro hmode ip url resData name pointer ret resData' hip hurl hret
    cases hip
    have hbounds := urlFormat_nonneg hmode hurl hret
    refine ⟨hbounds.1, fun h => ?_⟩
    have h := congrArg UInt16.toNat h
    rw [UInt16.toNat_ofNat', show (65535 : UInt16).toNat = 65535 from rfl] at h
    omega

end

namespace Server
variable {σ : Type} {cfg : Config} {e : Event σ} {d : Datagram σ} {p : Packet} {ins : List (Nat × Record)}

theorem Responds.unique {d' : Datagram σ} {p' : Packet} (h : Responds cfg e d p) (h' : Responds cfg e d' p') :
    d = d' ∧ p = p' := by
  obtain ⟨rfl, hp, -⟩ := h
  obtain ⟨he, hp', -⟩ := h'
  cases he
  exact ⟨rfl, Except.ok.inj (hp.symm.trans hp')⟩

/-- The records of a response have texts if and only if it stores known types only. -/
theorem response_decoded (hC : cfg.libc.Lawful) (hresp : Responds cfg e d p)
    (hfrom : ∀ k r, (k, r) ∈ ins → ∃ a, p.ans[k]? = some a ∧ StoredFrom d.clk.store p.quests k a r)
    (hall : ∀ k a q, k < p.ancount.toNat → p.ans[k]? = some a → p.quests[0]? = some q → a.type = q.qtype →
      ∃ r, (k, r) ∈ ins) :
    (∀ k r, (k, r) ∈ ins → ∃ a, p.ans[k]? = some a ∧ DecodedAs cfg.libc d.stale d.buf p k a r) ↔ KnownStores cfg e := by
  obtain ⟨he, hp, hqr⟩ := hresp
  constructor
  · intro hdec d' p' q a hresp' hq ha ht
    obtain ⟨rfl, rfl⟩ := Responds.unique ⟨he, hp, hqr⟩ hresp'
    obtain ⟨k, hk⟩ := List.mem_iff_getElem?.1 ha
    obtain ⟨mid, stop, hparsed⟩ := packetParse_parsed hp
    have hlt : k < p.ancount.toNat := parseAnswers_length hparsed.ans ▸ (List.getElem?_eq_some_iff.1 hk).1
    obtain ⟨r, hr⟩ := hall k a q hlt hk hq ht
    obtain ⟨a', ha', hinside⟩ := hdec k r hr
    cases hk.symm.trans ha'
    exact known_of_bufSize (Nat.zero_lt_of_lt hinside.inside)
  · intro hknown k r hr
    obtain ⟨a, ha, hstored⟩ := hfrom k r hr
    obtain ⟨q, hq, ht, -⟩ := hstored.quest
    obtain ⟨pos, hpos, hread⟩ := packetParse_get hp ha
    have hk : Known a.type := hknown d p q a ⟨he, hp, hqr⟩ hq (List.mem_of_getElem? ha) ht
    obtain ⟨text, htext, hlen, hany⟩ := parseAnswer_written hC hread hk
    cases hstored.ip.symm.trans htext
    exact ⟨a, ha, hstored.ip, hlen, pos, hpos, hread, hany⟩

/-- After every run, the records that a response stores have texts if and only if it stores known types
only; and after a run of such responses, what the cache finds for a question is formatted if and only if
the question's type is below 256 or the cache holds no unexpired record of the question's name and 8-bit type. -/
theorem decoded_records (hC : cfg.libc.Lawful) (hN : 1 ≤ cfg.capacity) {lines : List HostLine}
    (hhost : Hosts cfg.host lines) (list : Nat → DNSEntry) (links : Links Node) (es : List (Event σ)) {s : Server σ}
    (hrun : (run cfg (some (.init list links)) es).1 = some s) :
    (∀ (e : Event σ) d p c', Responds cfg e d p → urlStore cfg.capacity d.clk p s.cache = .ok c' →
      ∃ (ins : List (Nat × Record)) (slots slots' : List Nat) (L : List Record), Holds cfg.capacity s.cache slots L ∧
        Holds cfg.capacity c' slots' (Recency.insertAll cfg.capacity (ins.map Prod.snd) L) ∧
        (∀ k r, (k, r) ∈ ins → ∃ a, p.ans[k]? = some a ∧ StoredFrom d.clk.store p.quests k a r) ∧
        ((∀ k r, (k, r) ∈ ins → ∃ a, p.ans[k]? = some a ∧ DecodedAs cfg.libc d.stale d.buf p k a r) ↔
          KnownStores cfg e)) ∧
    ((∀ e ∈ es, KnownStores cfg e) → ∀ (clk : Clock) (pre : List Quest) (gs : List (List Answer)) (c : LRUCache),
      Answered cfg.capacity cfg.host clk 0 pre s.cache gs c → ∀ (q : Quest) (name : List UInt8),
      ∃ slots L found, Holds cfg.capacity c slots L ∧ c.cacheQuery cfg.capacity (clk.visit pre.length)
          (dnsEntrySet (some name) none 0 q.qtype.toUInt8 0 (clk.search pre.length)) = .ok found ∧
        ((∀ x ∈ found, Formats cfg.libc q.qtype x.1) ↔
          q.qtype.toNat < 256 ∨ Absent (clk.visit pre.length) name q.qtype.toUInt8 L)) := by
  constructor
  · intro e d p c' hresp hstore
    obtain ⟨slots, L, hc, -⟩ := run_sourced hN hhost (Sourced.init cfg list links) hrun
    obtain ⟨ins, slots', hc', hfrom, hall⟩ := hc.urlStore_from hN hstore
    exact ⟨ins, slots, slots', L, hc, hc', hfrom, response_decoded hC hresp hfrom hall⟩
  · intro hk clk pre gs c hpre q name
    obtain ⟨slots, L, found, hc, hfound, hnil, hsource⟩ := found_storedAs hN hhost hrun hpre q name
    -- what is found was stored with a text that fits, whatever the question's type
    have hformats : ∀ x ∈ found, ∃ t, Known t ∧ t.toUInt8 = q.qtype.toUInt8 ∧
        (Formats cfg.libc q.qtype x.1 ↔ Known q.qtype) := fun x hx => by
      obtain ⟨r, hxr, e, he, t, ht, htq⟩ := hsource x hx
      have hkt := ht.known (hk e he)
      have hfit := ht.fits hC hkt
      obtain ⟨_, _, _, _, _, -, -, -, -, -, -, -, hip⟩ := ht
      have hle := typeBufSize_le t
      rw [hxr]
      exact ⟨t, hkt, htq, formats_iff (cstr_ok hip).1 (by omega)⟩
    refine ⟨slots, L, found, hc, hfound, fun h => ?_, ?_⟩
    · refine (List.eq_nil_or_concat found).elim (fun h => .inr (hnil.1 h)) fun ⟨xs, x, hxs⟩ => .inl ?_
      have hx : x ∈ found := by rw [hxs]; simp
      obtain ⟨t, -, -, hiff⟩ := hformats x hx
      exact (hiff.1 (h x hx)).lt
    · rintro (hlt | habsent)
      · intro x hx
        obtain ⟨t, hkt, htq, hiff⟩ := hformats x hx
        exact hiff.2 (toUInt8_inj hkt.lt hlt htq ▸ hkt)
      · obtain rfl := hnil.2 habsent
        exact fun x hx => by cases hx

/-- `TYPE_TXT`, which no function mentions. -/
def typeTxt : UInt16 := 16

/-- The response to a question for the text of `a`, in memory that held `?` where the RDATA buffer is. -/
def txtDatagram : Datagram Nat where
  addr := 66
  buf := responseWith (questFor typeTxt 97) ⟨[0xc0, 12], typeTxt, 1, 60, [1, 88]⟩ ++ List.replicate bufferSize 0
  len := 33
  stale := { Stale.zero with rdata := fun _ => [63, 0] }
  clk := .const 100
  fits := by simp
  bounds := by decide

/-- A response with the MX record that stands for no host: preference 0, and the root for a name. -/
def nullMxResponse : List UInt8 := responseWith (questFor typeMx 97) ⟨[0xc0, 12], typeMx, 1, 60, [0, 0, 0]⟩

theorem decoded_records_address : ∃ s found, (run smallConfig (some .zeroed) storeRun).1 = some s ∧
    s.cache.cacheQuery 4 (fun _ => 110) (dnsEntrySet (some [97]) none 0 typeA.toUInt8 0 110) = .ok found ∧
    ∀ x ∈ found, Formats .decimal typeA x.1 := by
  have hsome : (run smallConfig (some .zeroed) storeRun).1.isSome = true := by decide +kernel
  obtain ⟨s, hs⟩ := Option.isSome_iff_exists.1 hsome
  obtain ⟨slots, L, found, -, hfound, hiff⟩ := (decoded_records
    (show smallConfig.libc.Lawful from Libc.decimal_lawful) (by decide)
    (show Hosts smallConfig.host [] from rfl) _ _ storeRun hs).2 storeRun_known (.const 110) [] [] s.cache
    (.nil 0 s.cache) ((questFor typeA 97).quest .zero 0) [97]
  exact ⟨s, found, hs, hfound, hiff.2 (.inl (by decide))⟩

/-- The uninitialised `?` is stored as the text of the answer, which has a buffer of no bytes. Found again,
it makes `urlFormat` return -1, that is an RDLEN of 65535. For the name of a null MX `inetParse` writes `dest[-1]`
only. -/
theorem txt_undecoded :
    (do
      let p ← packetParse .decimal txtDatagram.stale txtDatagram.buf txtDatagram.len
      p.records txtDatagram.clk.store : Exec (List Record)) = .ok [⟨[97], [63], typeTxt.toUInt8, 0, 160⟩] ∧
    (∀ p k (a : Answer), a.type = typeTxt → ¬ DecodedAs .decimal txtDatagram.stale txtDatagram.buf p k a
      ⟨[97], [63], typeTxt.toUInt8, 0, 160⟩) ∧
    (do
      let (s, _) ← connectHandle smallConfig .zeroed txtDatagram
      let found ← s.cache.cacheQuery 4 (fun _ => 110) (dnsEntrySet (some [97]) none 0 typeTxt.toUInt8 0 110)
      return found.map Prod.fst : Exec (List DNSEntry)) = .ok [⟨some [97], some [63], typeTxt.toUInt8, 0, 160⟩] ∧
    ¬ Formats .decimal typeTxt ⟨some [97], some [63], typeTxt.toUInt8, 0, 160⟩ ∧
    (urlFormat .decimal [63, 0] (Block.fresh 255 []) typeTxt [97, 0] 0xc00c 0).map
      (fun x => UInt16.ofNat (x.1 % 65536).toNat) = .ok 65535 ∧
    packetParse .decimal .zero nullMxResponse nullMxResponse.length = .error .write := by
  refine ⟨by decide +kernel, fun p k a ha h => ?_, by decide +kernel, fun h => ?_, by decide +kernel, by decide +kernel⟩
  · have hinside := h.inside
    rw [ha] at hinside
    exact absurd hinside (Nat.not_lt_zero _)
  · have hneg := (h [63] [63, 0] (Block.fresh 255 []) [] 0 (-1) (Block.fresh 255 []) rfl rfl (by decide +kernel)).1
    omega

end Server

end DnsRelay
