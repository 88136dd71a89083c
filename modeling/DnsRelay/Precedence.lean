import DnsRelay.RoundTrip
import DnsRelay.Server

/-!
# The host file against the cache

`qnameSearch` prefers the cache, and `urlQuery` relays a request at its first question that finds
nothing. So the host file decides about a name and a type as long as no response has put a record for
them into the cache, and about a blocked question unless a question before it finds nothing.
-/

namespace DnsRelay
open ByteSeq Exec

/-- A response without answers that says that the name does not exist; `len` is the request's length. -/
structure Refusal (len : Nat) (bytes : List UInt8) : Prop where
  length : bytes.length = len
  ancount : load16 bytes 6 = .ok 0
  flags : ∃ flags, load16 bytes 2 = .ok flags ∧ getQr flags = 1 ∧ getRcode flags = rcodeNameError

section
variable (N : Nat) (host : Option HostMap) (lines : List HostLine) (clk : Clock) (quests : List Quest) (c : LRUCache)

/-- A question before the `k`-th for which nothing is found, in the cache or in the host file. -/
def MissBefore (k : Nat) : Prop :=
  ∃ j q name, j < k ∧ NotCached N host clk quests c j q name ∧ ¬ Blocked lines name q.qtype.toUInt8 ∧
    hostHits lines name q.qtype.toUInt8 = []

/-- A question that is not in the cache and is blocked. -/
def BlockedIn : Prop := ∃ j q name, NotCached N host clk quests c j q name ∧ Blocked lines name q.qtype.toUInt8

end

/-- The answer to question `k` that stands for the line `l`. -/
structure FromLine (k : Nat) (q : Quest) (a : Answer) (l : HostLine) : Prop where
  text : cstr a.rdata.bytes = .ok l.ip
  qpos : a.qpos = UInt8.ofNat k
  type : a.type = q.qtype
  cls : a.cls = q.qclass

/-- Without answers `responseFormat` sends the request's bytes back as a refusal. -/
theorem responseFormat_refusal {C : Libc} {st : Stale} {src : Packet} {r : Response} (h0 : src.ancount = 0)
    (h12 : 12 ≤ src.bufLen) (h : responseFormat C st src = .ok r) : Refusal src.bufLen r.sent := by
  obtain ⟨names, ans, hnames, hfmt, -, -, hbuf, -, hsent⟩ := responseFormat_ok h h12
  have htake : src.ans.take src.ancount.toNat = [] := by rw [h0]; rfl
  rw [htake] at hnames hfmt
  cases hnames
  obtain rfl : [] = ans := (Prod.mk.inj (Except.ok.inj hfmt)).1
  have hlen : (src.reqBuf.take src.bufLen).length = src.bufLen := by
    rw [List.length_take, Nat.min_eq_left hbuf]
  have hsent : r.sent = responseHead src := by rw [hsent]; exact List.append_nil _
  have hflag : At (responseHead src) 2 (be16 (responseFlag src)) :=
    (at_patch _ 2 _ (by rw [hlen, length_be16]; omega)).patch (.inl (show 2 + 2 ≤ 6 by decide))
  have hanc : At (responseHead src) 6 (be16 0) := by
    rw [← h0]
    exact at_patch _ 6 _ (by rw [length_patch, hlen, length_be16]; omega)
  rw [hsent]
  exact ⟨length_responseHead hbuf, load16_at hanc, _, load16_at hflag, responseFlag_none h0⟩

/-- It always sends them. -/
theorem responseFormat_ancount_zero (C : Libc) (st : Stale) {src : Packet} (h0 : src.ancount = 0)
    (h12 : 12 ≤ src.bufLen) (hbuf : src.bufLen ≤ src.reqBuf.length) : ∃ r, responseFormat C st src = .ok r := by
  have htake : src.ans.take src.ancount.toNat = [] := by rw [h0]; rfl
  have hnames : namePointers src.quests (src.ans.take src.ancount.toNat) = .ok [] := by rw [htake]; rfl
  have hfmt : formatAnswers C src.quests ((src.ans.take src.ancount.toNat).zip []) (Block.fresh 255 st.resData)
      src.bufLen = .ok ([], src.bufLen) := by rw [htake]; rfl
  obtain ⟨dest, h, -⟩ := responseFormat_eq hbuf h12 hnames hfmt
  exact ⟨_, h⟩

section
variable {N : Nat} {host : Option HostMap} {clk : Clock} {i j k : Nat} {q : Quest} {quests : List Quest}
  {gs : List (List Answer)} {c c' : LRUCache} {slots : List Nat} {L : List Record} {lines : List HostLine}
  {name : List UInt8} {st : Stale} {src src' : Packet} {ret : Int}

theorem absent_of_forall {visit : Nat → Nat} {type : UInt8} (h : ∀ r ∈ L, ¬ (r.name = name ∧ r.type = type)) :
    Absent visit name type L := fun _ r hr ⟨hn, _, ht⟩ => h r (List.mem_of_getElem? hr) ⟨hn, ht⟩

/-- A question for which the cache has no record, in a request that is answered, is answered from the
host file. -/
theorem Answered.fromHost (h : Answered N host clk i quests c gs c') (hc : Holds N c slots L)
    (hhost : Hosts host lines) (hq : quests[k]? = some q) (hn : cstr q.qname.bytes = .ok name)
    (hno : ∀ r ∈ L, ¬ (r.name = name ∧ r.type = q.qtype.toUInt8)) :
    ∃ g result, gs[k]? = some g ∧ ¬ Blocked lines name q.qtype.toUInt8 ∧
      List.Forall₂ Reads result (hostHits lines name q.qtype.toUInt8) ∧
      List.Forall₂ (fun e a => ∃ j, Attached (i + k) q (clk.ttl (i + k) j) e a) result g := by
  have hk : k < gs.length := by rw [h.length_eq]; exact (List.getElem?_eq_some_iff.1 hq).1
  obtain ⟨q', name', c₁, slots₁, L₁, ret, result, hq', hn', -, -, hperm, hret, hfound, hall⟩ :=
    h.found hc hhost (List.getElem?_eq_getElem hk)
  rw [hq] at hq'
  cases hq'
  rw [hn] at hn'
  cases hn'
  rw [cacheHits_eq_nil.2 (absent_of_forall fun r hr => hno r (hperm.subset hr))] at hfound
  refine ⟨gs[k], result, List.getElem?_eq_getElem hk, ?_⟩
  cases hfound with
  | cache h => exact absurd rfl h
  | blocked => exact absurd rfl hret
  | host _ hb hr => exact ⟨hb, hr, hall⟩

/-- The questions before the `j`-th have answers, so a blocked one for which the cache has no record is not among
them. -/
theorem Answered.le_of_blocked (h : Answered N host clk 0 (quests.take j) c gs c') (hc : Holds N c slots L)
    (hhost : Hosts host lines) (hq : quests[k]? = some q) (hn : cstr q.qname.bytes = .ok name)
    (hno : ∀ r ∈ L, ¬ (r.name = name ∧ r.type = q.qtype.toUInt8)) (hb : Blocked lines name q.qtype.toUInt8) :
    j ≤ k := by
  by_contra hlt
  have hq' : (quests.take j)[k]? = some q := by rw [List.getElem?_take_of_lt (by omega)]; exact hq
  obtain ⟨-, -, -, hnb, -⟩ := h.fromHost hc hhost hq' hn hno
  exact hnb hb

/-- What a search that ended `urlQuery` says about the cache and the host file. -/
theorem Found.stopped {name : List UInt8} {type : UInt8} {hits : List Record} {result : List DNSEntry}
    (h : Found lines name type hits ret result) (hret : ret = -1 ∨ ret = 0) :
    hits = [] ∧ (ret = -1 → Blocked lines name type) ∧
      (ret = 0 → ¬ Blocked lines name type ∧ hostHits lines name type = []) := by
  cases h with
  | cache h =>
    have := List.length_pos_iff.2 h
    omega
  | blocked h hb => exact ⟨h, fun _ => hb, fun h => by omega⟩
  | host h hb hr =>
    refine ⟨h, fun h => by omega, fun h => ⟨hb, List.eq_nil_of_length_eq_zero ?_⟩⟩
    rw [← hr.length_eq]
    exact_mod_cast h

theorem fromLines {result : List DNSEntry} {ls : List HostLine} {g : List Answer} {ttl : Nat → Nat}
    (hr : List.Forall₂ Reads result ls) (ha : List.Forall₂ (fun e a => ∃ j, Attached k q (ttl j) e a) result g)
    (h0 : ∀ l ∈ ls, 0 ∉ l.ip) : List.Forall₂ (FromLine k q) g ls := by
  induction hr generalizing g with
  | nil => cases ha; exact .nil
  | @cons e l result ls he _ ih =>
    cases ha with
    | cons ha hrest =>
      obtain ⟨j, ha⟩ := ha
      exact .cons ⟨ha.text he.2.1 (h0 l List.mem_cons_self), ha.qpos, ha.type, ha.cls⟩
        (ih hrest fun l hl => h0 l (List.mem_cons_of_mem _ hl))

/-- The search that stopped `urlQuery` was for a question that is not in the cache. -/
theorem Stopped.notCached (h : Stopped N host clk 0 quests c ret c') (hc : Holds N c slots L)
    (hhost : Hosts host lines) :
    ∃ j q name, NotCached N host clk quests c j q name ∧
      (ret = -1 ∧ Blocked lines name q.qtype.toUInt8 ∨
        ret = 0 ∧ ¬ Blocked lines name q.qtype.toUInt8 ∧ hostHits lines name q.qtype.toUInt8 = []) := by
  obtain ⟨-, hret, pre, q, post, gs, c₁, slots₁, L₁, name, result, hquests, hgs, hn, h₁, -, hfound⟩ := h.found hc hhost
  obtain ⟨hnil, hblocked, hmiss⟩ := hfound.stopped hret
  rw [Nat.zero_add] at hnil
  have habsent := (h₁.cacheMiss_iff clk pre.length q name).2 (cacheHits_eq_nil.1 hnil)
  refine ⟨pre.length, q, name, ⟨by rw [hquests]; simp, hn, gs, c₁, ?_, habsent⟩,
    hret.imp (fun h => ⟨h, hblocked h⟩) fun h => ⟨h, hmiss h⟩⟩
  rw [hquests, List.take_left]
  exact hgs

/-- A request with a blocked question, asked when the cache has no record for it. -/
theorem urlQuery_blocked (clk : Clock) (st : Stale) (hc : Holds N c slots L) (hhost : Hosts host lines)
    (hnames : ∀ q ∈ src.quests, ∃ s, cstr q.qname.bytes = .ok s) (hq : src.quests[k]? = some q)
    (hn : cstr q.qname.bytes = .ok name) (hno : ∀ r ∈ L, ¬ (r.name = name ∧ r.type = q.qtype.toUInt8))
    (hb : Blocked lines name q.qtype.toUInt8) :
    (∃ src' c', urlQuery N host clk st src c = .ok (-1, src', c') ∧ src'.ancount = 0 ∧ src'.bufLen = src.bufLen ∧
        src'.reqBuf = src.reqBuf) ∨
      (MissBefore N host lines clk src.quests c k ∧ ∃ src' c', urlQuery N host clk st src c = .ok (0, src', c')) ∨
      (∃ j < k, Overflows N host clk src.quests c j) ∧ urlQuery N host clk st src c = .error .write := by
  have hno' {L₁ : List Record} (hperm : L₁.Perm L) (visit : Nat → Nat) :
      cacheHits visit name q.qtype.toUInt8 L₁ = [] :=
    cacheHits_eq_nil.2 (absent_of_forall fun r hr => hno r (hperm.subset hr))
  rcases urlQuery_total clk st hc hhost hnames with ⟨⟨ret, src', c'⟩, hrun⟩ |
    ⟨hrun, j, q', gs, c₁, ret, result, c₂, hq', hpre, hs, hret, hlong⟩
  · rcases urlQuery_ok hrun with ⟨hstop, ans, rfl⟩ | ⟨gs, ancount, hgs, -⟩
    · obtain ⟨j, q', name', hmiss, ⟨rfl, -⟩ | ⟨rfl, hb', hhits⟩⟩ := hstop.notCached hc hhost
      · exact .inl ⟨_, c', hrun, rfl, rfl, rfl⟩
      refine .inr (.inl ⟨⟨j, q', name', ?_, hmiss, hb', hhits⟩, _, c', hrun⟩)
      -- it is not the blocked question that found nothing, nor a later one
      obtain ⟨hq', hn', gs, c₁, hpre, -⟩ := hmiss
      refine lt_of_le_of_ne (hpre.le_of_blocked hc hhost hq hn hno hb) ?_
      rintro rfl
      cases hq.symm.trans hq'
      cases hn.symm.trans hn'
      exact hb' hb
    · obtain ⟨-, -, -, hnb, -⟩ := hgs.fromHost hc hhost hq hn hno
      exact absurd hb hnb
  · refine .inr (.inr ⟨⟨j, ?_, q', gs, c₁, ret, result, c₂, hq', hpre, hs, hret, hlong⟩, hrun⟩)
    refine lt_of_le_of_ne (hpre.le_of_blocked hc hhost hq hn hno hb) ?_
    rintro rfl
    cases hq.symm.trans hq'
    -- the search for the blocked question itself returns -1
    obtain ⟨slots₁, L₁, h₁, hperm⟩ := hpre.holds hc hhost
    obtain ⟨ret', result', c₃, slots₃, hs', hfound, -⟩ := h₁.qnameSearch hhost clk j hn q.qtype
    cases hs.symm.trans hs'
    rw [hno' hperm] at hfound
    cases hfound with
    | cache h => exact h rfl
    | blocked => exact hret rfl
    | host _ hnb _ => exact hnb hb

/-- A request that is answered, and the host file has addresses for a question for which the cache has
no record. -/
theorem urlQuery_hosted (hc : Holds N c slots L) (hhost : Hosts host lines) (h0 : ∀ l ∈ lines, 0 ∉ l.ip)
    (hq : src.quests[k]? = some q) (hn : cstr q.qname.bytes = .ok name)
    (hno : ∀ r ∈ L, ¬ (r.name = name ∧ r.type = q.qtype.toUInt8))
    (h : urlQuery N host clk st src c = .ok (ret, src', c')) (hret : ret ≠ 0) :
    (BlockedIn N host lines clk src.quests c ∧ src'.ancount = 0 ∧ src'.bufLen = src.bufLen) ∨
      ∃ gs g, Answered N host clk 0 src.quests c gs c' ∧ src'.ans = gs.flatten ∧
        src'.ancount.toNat = gs.flatten.length ∧ gs[k]? = some g ∧
        List.Forall₂ (FromLine k q) g (hostHits lines name q.qtype.toUInt8) := by
  rcases urlQuery_ok h with ⟨hstop, ans, rfl⟩ | ⟨gs, ancount, hgs, rfl, -, hcount⟩
  · obtain ⟨j, q', name', hmiss, ⟨-, hb⟩ | ⟨h0, -⟩⟩ := hstop.notCached hc hhost
    · exact .inl ⟨⟨j, q', name', hmiss, hb⟩, rfl, rfl⟩
    · exact absurd h0 hret
  · obtain ⟨g, result, hg, -, hr, ha⟩ := hgs.fromHost hc hhost hq hn hno
    rw [Nat.zero_add] at ha
    exact .inr ⟨gs, g, hgs, rfl, hcount, hg,
      fromLines hr ha fun l hl => h0 l (List.mem_filter.1 (List.mem_reverse.1 hl)).1⟩

end

namespace Server
variable {σ : Type}

/-- No response among `es` stored a record for `name` and the 8-bit type `type`. -/
def Unstored (cfg : Config) (es : List (Event σ)) (name : List UInt8) (type : UInt8) : Prop :=
  ∀ e ∈ es, ∀ r, Stored cfg r e → ¬ (r.name = name ∧ r.type = type)

/-- `b` is blocked, `a` has the address 1.2.3.4. -/
def smallFile : List (Option HostLine) := [some ⟨blockIp, [98]⟩, some ⟨[49, 46, 50, 46, 51, 46, 52], [97]⟩]

def hostedConfig : Config := ⟨.decimal, 4, (hostInit (fun _ => 0) (hostFile smallFile ++ [])).toOption⟩

theorem smallFile_valid (l : HostLine) (hl : some l ∈ smallFile) : l.Valid := by
  rcases List.mem_cons.1 hl with h | h
  · cases h
    exact ⟨by decide, by decide, by decide, by decide, by decide⟩
  · cases List.mem_singleton.1 h
    exact ⟨by decide, by decide, by decide, by decide, by decide⟩

/-- A request for `a` and the unknown `c` is relayed, and so is one for `c` and the blocked `b`; the
responses put records for `a` and `b` into the cache. -/
def overruledRun : List (Event Nat) :=
  [.datagram (.at 5 (requestFor typeA [97, 99]) 100 (by decide)),
    .datagram (.at 66 (responseFor 1 [97, 99]) 101 (by decide)),
    .datagram (.request typeA 97 102),
    .datagram (.at 5 (requestFor typeA [99, 98]) 103 (by decide)),
    .datagram (.response 2 98 104),
    .datagram (.request typeA 98 105)]

/-- `b` is blocked, `a` has an address of 22 characters. -/
def longConfig : Config :=
  ⟨.decimal, 4, (hostInit (fun _ => 0) (hostFile [some ⟨blockIp, [98]⟩, some ⟨List.replicate 22 49, [97]⟩])).toOption⟩

end Server

end DnsRelay
