import DnsRelay.Query

/-!
# What `urlStore` and `urlQuery` do

On a cache that holds the records `L`, `urlStore` inserts the records a response yields
(`storedRecords`), and `qnameSearch` answers in one of three ways (`Found`): with the records of the
cache, because the host file blocks the name, or with the lines of the host file. `Answered` lists
the searches behind a `urlQuery` that found something for every question.
-/

namespace DnsRelay
open Exec

/-! ### `urlStore` -/

/-- The records that the answers from the `i`-th on yield. -/
def storedRecords (clk : Nat → Nat) (quests : List Quest) : Nat → List Answer → Exec (List Record)
  | _, [] => .ok []
  | i, a :: ans => match quests[0]? with
    | none => .error .read
    | some q =>
      if a.type ≠ q.qtype then storedRecords clk quests (i + 1) ans else do
      let name ← cstr q.qname.bytes
      let ip ← cstr a.rdata.bytes
      let rs ← storedRecords clk quests (i + 1) ans
      return ⟨name, ip, a.type.toUInt8, a.addition, clk i + a.ttl.toNat⟩ :: rs

/-- The records a response yields. -/
def Packet.records (src : Packet) (clk : Nat → Nat) : Exec (List Record) :=
  storedRecords clk src.quests 0 (src.ans.take src.ancount.toNat)

section
variable {N : Nat} {clk : Nat → Nat} {quests : List Quest} {ans : List Answer} {i : Nat} {c c' : LRUCache}
  {slots : List Nat} {L rs : List Record} {src : Packet} {r : Record}

/-- The loop of `urlStore` inserts these records. -/
theorem Holds.storeAnswers (h : Holds N c slots L) (hN : 1 ≤ N)
    (hr : storedRecords clk quests i ans = .ok rs) :
    ∃ c' slots', storeAnswers N clk quests i ans c = .ok c' ∧ Holds N c' slots' (Recency.insertAll N rs L) := by
  induction ans generalizing i c slots L rs with
  | nil => cases hr; exact ⟨c, slots, rfl, h⟩
  | cons a ans ih =>
    rw [storedRecords] at hr
    rw [DnsRelay.storeAnswers]
    cases hq : quests[0]? with
    | none => rw [hq] at hr; cases hr
    | some q =>
      rw [hq] at hr
      dsimp only at hr ⊢
      split at hr
      case isTrue ht => rw [if_pos ht]; exact ih h hr
      case isFalse ht =>
        rw [if_neg ht]
        obtain ⟨name, hname, hr⟩ := bind_ok.1 hr
        obtain ⟨ip, hip, hr⟩ := bind_ok.1 hr
        obtain ⟨rs', hrs, hr⟩ := bind_ok.1 hr
        cases hr
        obtain ⟨c₁, slots₁, h₁, h₂⟩ := h.cacheInsert hN
          ⟨name, ip, a.type.toUInt8, a.addition, clk i + a.ttl.toNat⟩
        obtain ⟨c', slots', h₃, h₄⟩ := ih h₂ hrs
        refine ⟨c', slots', ?_, h₄⟩
        simp only [hname, hip, ok_bind]
        exact (congrArg (· >>= _) h₁).trans h₃

theorem storedRecords_of_ok (h : storeAnswers N clk quests i ans c = .ok c') :
    ∃ rs, storedRecords clk quests i ans = .ok rs := by
  induction ans generalizing i c with
  | nil => exact ⟨[], rfl⟩
  | cons a ans ih =>
    rw [storeAnswers] at h
    rw [storedRecords]
    cases hq : quests[0]? with
    | none => rw [hq] at h; cases h
    | some q =>
      rw [hq] at h
      dsimp only at h ⊢
      split at h
      case isTrue ht => rw [if_pos ht]; exact ih h
      case isFalse ht =>
        rw [if_neg ht]
        obtain ⟨name, hname, h⟩ := bind_ok.1 h
        obtain ⟨ip, hip, h⟩ := bind_ok.1 h
        obtain ⟨c₁, -, h⟩ := bind_ok.1 h
        obtain ⟨rs, hrs⟩ := ih h
        exact ⟨_, by rw [hname, ok_bind, hip, ok_bind, hrs]; rfl⟩

/-- What `urlStore` did when it returned. -/
theorem Holds.urlStore (h : Holds N c slots L) (hN : 1 ≤ N) {clk : Clock}
    (hs : urlStore N clk src c = .ok c') :
    ∃ rs slots', src.records clk.store = .ok rs ∧ Holds N c' slots' (Recency.insertAll N rs L) := by
  obtain ⟨rs, hrs⟩ := storedRecords_of_ok hs
  obtain ⟨c'', slots', h₁, h₂⟩ := h.storeAnswers hN hrs
  rw [DnsRelay.urlStore, h₁] at hs
  cases hs
  exact ⟨rs, slots', hrs, h₂⟩

/-- Where a stored record comes from: an answer of the type the first question asks for. -/
theorem mem_storedRecords (h : storedRecords clk quests i ans = .ok rs) (hr : r ∈ rs) :
    ∃ q a, quests[0]? = some q ∧ a ∈ ans ∧ a.type = q.qtype ∧ cstr q.qname.bytes = .ok r.name ∧
      cstr a.rdata.bytes = .ok r.ip ∧ r.type = a.type.toUInt8 := by
  induction ans generalizing i rs with
  | nil => cases h; cases hr
  | cons a ans ih =>
    rw [storedRecords] at h
    have hrest : ∀ {i rs}, storedRecords clk quests i ans = .ok rs → r ∈ rs → ∃ q b, quests[0]? = some q ∧
        b ∈ a :: ans ∧ b.type = q.qtype ∧ cstr q.qname.bytes = .ok r.name ∧
        cstr b.rdata.bytes = .ok r.ip ∧ r.type = b.type.toUInt8 := fun h hr => by
      obtain ⟨q, b, hq, hb, rest⟩ := ih h hr
      exact ⟨q, b, hq, List.mem_cons_of_mem _ hb, rest⟩
    cases hq : quests[0]? with
    | none => rw [hq] at h; cases h
    | some q =>
      rw [hq] at h hrest
      dsimp only at h
      split at h
      case isTrue => exact hrest h hr
      case isFalse ht =>
        obtain ⟨name, hname, h⟩ := bind_ok.1 h
        obtain ⟨ip, hip, h⟩ := bind_ok.1 h
        obtain ⟨rs', hrs, h⟩ := bind_ok.1 h
        cases h
        rcases List.mem_cons.1 hr with rfl | hr
        · exact ⟨q, a, rfl, List.mem_cons_self, not_not.1 ht, hname, hip, rfl⟩
        · exact hrest hrs hr

end

/-! ### `qnameSearch` -/

/-- The host table, or its absence, that the lines of the host file lead to. -/
def Hosts (host : Option HostMap) (lines : List HostLine) : Prop :=
  match host with
  | none => lines = []
  | some m => ∃ f, Table m lines f

/-- The records of `L` that answer a search. -/
def cacheHits (visit : Nat → Nat) (name : List UInt8) (type : UInt8) (L : List Record) : List Record :=
  Recency.keep (Record.matched visit name type) 0 L

/-- How the search brings them to the front. -/
def turned (visit : Nat → Nat) (name : List UInt8) (type : UInt8) (L : List Record) : List Record :=
  (cacheHits visit name type L).reverse ++ Recency.keep (fun k r => !r.matched visit name type k) 0 L

/-- What a search for `name` and `type` returns when the cache has `hits` for it. -/
inductive Found (lines : List HostLine) (name : List UInt8) (type : UInt8) (hits : List Record) :
    Int → List DNSEntry → Prop
  | cache (h : hits ≠ []) : Found lines name type hits hits.length (hits.map Record.entry)
  | blocked (h : hits = []) (hb : Blocked lines name type) (result : List DNSEntry) :
      Found lines name type hits (-1) result
  | host (h : hits = []) (hb : ¬ Blocked lines name type) {result : List DNSEntry}
      (hr : List.Forall₂ Reads result (hostHits lines name type)) :
      Found lines name type hits result.length result

theorem turned_perm (visit : Nat → Nat) (name : List UInt8) (type : UInt8) (L : List Record) :
    (turned visit name type L).Perm L :=
  ((List.reverse_perm _).append_right _).trans (Recency.keep_perm _ _ _)

/-- A record that is found matched when it was looked at. -/
theorem exists_matched {visit : Nat → Nat} {name : List UInt8} {type : UInt8} {L : List Record} {r : Record}
    (h : r ∈ cacheHits visit name type L) : ∃ k, r.name = name ∧ visit k ≤ r.timestamp ∧ r.type = type := by
  obtain ⟨k, hk⟩ := Recency.exists_of_mem_keep h
  exact ⟨k, of_decide_eq_true hk⟩

theorem mem_cacheHits {visit : Nat → Nat} {name : List UInt8} {type : UInt8} {L : List Record} {r : Record}
    (h : r ∈ cacheHits visit name type L) : r ∈ L ∧ r.name = name ∧ r.type = type := by
  obtain ⟨k, hn, -, ht⟩ := exists_matched h
  exact ⟨(Recency.keep_sublist _ _ _).subset h, hn, ht⟩

/-- `L` has no unexpired record for a search; `visit k` is when the record at distance `k` from the front is looked
at. -/
def Absent (visit : Nat → Nat) (name : List UInt8) (type : UInt8) (L : List Record) : Prop :=
  ∀ k r, L[k]? = some r → ¬ (r.name = name ∧ visit k ≤ r.timestamp ∧ r.type = type)

theorem cacheHits_eq_nil {visit : Nat → Nat} {name : List UInt8} {type : UInt8} {L : List Record} :
    cacheHits visit name type L = [] ↔ Absent visit name type L := by
  rw [cacheHits, Recency.keep_eq_nil]
  refine forall_congr' fun k => forall_congr' fun r => imp_congr Iff.rfl ?_
  rw [Nat.zero_add, Record.matched, decide_eq_false_iff_not]

/-- The end of `qnameSearch`, when the cache found `cached`. -/
def finish (host : Option HostMap) (clk : Nat → Nat) (entry : DNSEntry) (cached : List DNSEntry)
    (c : LRUCache) : Exec (Int × List DNSEntry × LRUCache) :=
  match host with
  | none => .ok (cached.length, cached, c)
  | some m => do
    let (ret, result) ← hostQuery clk m entry
    if cached.length = 0 then return (ret, result, c) else return (cached.length, cached, c)

theorem finish_found {host : Option HostMap} {lines : List HostLine} (hhost : Hosts host lines)
    (clk : Nat → Nat) {entry : DNSEntry} {name : List UInt8} (hn : entry.domainName = some name)
    (hits : List Record) (c : LRUCache) :
    ∃ ret result, finish host clk entry (hits.map Record.entry) c = .ok (ret, result, c) ∧
      Found lines name entry.type hits ret result := by
  have hcache (h : hits ≠ []) : Found lines name entry.type hits
      ((hits.map Record.entry).length : Nat) (hits.map Record.entry) := by
    rw [List.length_map]; exact .cache h
  cases host with
  | none =>
    obtain rfl : lines = [] := hhost
    refine ⟨_, _, rfl, ?_⟩
    by_cases h : hits = []
    · rw [h]
      exact .host rfl (fun hb => by cases hb.2) .nil
    · exact hcache h
  | some m =>
    obtain ⟨f, ht⟩ := hhost
    by_cases hb : Blocked lines name entry.type
    · obtain ⟨res, hres⟩ := hostQuery_blocked clk ht hn hb
      rw [finish, hres]
      by_cases h : hits = []
      · exact ⟨-1, res, by rw [h]; rfl, .blocked h hb res⟩
      · exact ⟨_, _, if_neg (by simpa using h), hcache h⟩
    · obtain ⟨res, hres, hreads⟩ := hostQuery_found clk ht hn hb
      rw [finish, hres]
      by_cases h : hits = []
      · exact ⟨_, res, by rw [h]; rfl, .host h hb hreads⟩
      · exact ⟨_, _, if_neg (by simpa using h), hcache h⟩

/-- Every search returns, in one of the three ways, and turns its hits over to the front. -/
theorem Holds.qnameSearch {N : Nat} {c : LRUCache} {slots : List Nat} {L : List Record}
    (h : Holds N c slots L) {host : Option HostMap} {lines : List HostLine} (hhost : Hosts host lines)
    (clk : Clock) (i : Nat) {qname name : List UInt8} (hq : cstr qname = .ok name) (qtype : UInt16) :
    ∃ ret result c' slots', qnameSearch N host clk i c qname qtype = .ok (ret, result, c') ∧
      Found lines name qtype.toUInt8 (cacheHits (clk.visit i) name qtype.toUInt8 L) ret result ∧
      Holds N c' slots' (turned (clk.visit i) name qtype.toUInt8 L) := by
  obtain ⟨found, c', slots', h₁, h₂, h₃, h₄⟩ := h.cacheQuery (clk.visit i)
    (dnsEntrySet (some name) none 0 qtype.toUInt8 0 (clk.search i)) rfl
  change found.map Prod.fst = (cacheHits (clk.visit i) name qtype.toUInt8 L).map Record.entry at h₂
  have hrun : DnsRelay.qnameSearch N host clk i c qname qtype =
      finish host (clk.host i) (dnsEntrySet (some name) none 0 qtype.toUInt8 0 (clk.search i))
        (found.map Prod.fst) c' := by
    rw [DnsRelay.qnameSearch, hq]
    simp only [ok_bind, h₁, h₃]
    cases host with
    | none => rw [finish, List.length_map]; rfl
    | some m => simp only [finish, List.length_map]
  have hname : (dnsEntrySet (some name) none 0 qtype.toUInt8 0 (clk.search i)).domainName = some name := rfl
  obtain ⟨ret, result, hfin, hfound⟩ := finish_found hhost (clk.host i) hname
    (cacheHits (clk.visit i) name qtype.toUInt8 L) c'
  exact ⟨ret, result, c', slots', by rw [hrun, h₂, hfin], hfound, h₄⟩

/-! ### `urlQuery` -/

/-- The answer `urlQuery` makes of the result `e` of the search for question `i`. -/
structure Attached (i : Nat) (q : Quest) (now : Nat) (e : DNSEntry) (a : Answer) : Prop where
  qpos : a.qpos = UInt8.ofNat i
  type : a.type = q.qtype
  cls : a.cls = q.qclass
  addition : a.addition = e.addition
  ttl : a.ttl = ttlLeft e.timestamp now
  rdata : ∃ ip stale, e.ip = some ip ∧ ip.length + 1 ≤ typeBufSize q.qtype ∧
    a.rdata = (Block.fresh (typeBufSize q.qtype) stale).patch 0 (ip ++ [0])

/-- Its text. -/
theorem Attached.text {i : Nat} {q : Quest} {now : Nat} {e : DNSEntry} {a : Answer} (h : Attached i q now e a)
    {ip : List UInt8} (hip : e.ip = some ip) (h0 : 0 ∉ ip) : cstr a.rdata.bytes = .ok ip := by
  obtain ⟨ip', stale, hip', hlen, hrd⟩ := h.rdata
  rw [hip] at hip'
  cases hip'
  rw [hrd]
  exact Block.cstr_patch h0 hlen

section
variable {N : Nat} {host : Option HostMap} {clk : Clock} {st : Stale} {i : Nat} {q : Quest}
  {quests : List Quest} {ans : List Answer} {result : List DNSEntry} {c c' c₁ : LRUCache}

theorem exists_of_forall₂ {α β : Type} {R : α → β → Prop} {xs : List α} {ys : List β}
    (h : List.Forall₂ R xs ys) {y : β} (hy : y ∈ ys) : ∃ x ∈ xs, R x y := by
  induction h with
  | nil => cases hy
  | cons hr _ ih =>
    rcases List.mem_cons.1 hy with rfl | hy
    · exact ⟨_, List.mem_cons_self, hr⟩
    · obtain ⟨x, hx, hr⟩ := ih hy
      exact ⟨x, List.mem_cons_of_mem _ hx, hr⟩

theorem loadMatches_ok {ttl : Nat → Nat} {pos j : Nat}
    (h : loadMatches ttl st i q pos j result = .ok ans) :
    List.Forall₂ (fun e a => ∃ k, Attached i q (ttl k) e a) result ans := by
  induction result generalizing j ans with
  | nil => cases h; exact .nil
  | cons e result ih =>
    obtain ⟨ip, hip, h⟩ := bind_ok.1 h
    obtain ⟨rdata, hrd, h⟩ := bind_ok.1 h
    obtain ⟨ans', hans, h⟩ := bind_ok.1 h
    cases h
    have hip : e.ip = some ip := by
      cases he : e.ip with
      | none => rw [he] at hip; cases hip
      | some ip' => rw [he] at hip; cases hip; rfl
    obtain ⟨hroom, rfl⟩ := Block.storeBytes_ok (p := 0) (by simp) hrd
    refine .cons ⟨j, rfl, rfl, rfl, rfl, rfl, ip, _, hip, ?_, rfl⟩ (ih hans)
    simpa using hroom

/-- Results whose text fits are loaded. -/
theorem loadMatches_eq {ttl : Nat → Nat} {pos : Nat} (j : Nat)
    (h : ∀ e ∈ result, ∃ ip, e.ip = some ip ∧ ip.length + 1 ≤ typeBufSize q.qtype) :
    ∃ ans, loadMatches ttl st i q pos j result = .ok ans := by
  induction result generalizing j with
  | nil => exact ⟨[], rfl⟩
  | cons e result ih =>
    obtain ⟨ip, hip, hlen⟩ := h e List.mem_cons_self
    obtain ⟨ans, hans⟩ := ih (j + 1) fun e he => h e (List.mem_cons_of_mem _ he)
    have hstore := Block.storeBytes_eq (show 0 + (ip ++ [0]).length ≤
      (Block.fresh (typeBufSize q.qtype) (st.found (pos + j))).size by simpa using hlen)
    refine ⟨⟨UInt8.ofNat i, 0, q.qtype, q.qclass, 0, ttlLeft e.timestamp (ttl j), e.addition,
      (Block.fresh (typeBufSize q.qtype) (st.found (pos + j))).patch 0 (ip ++ [0])⟩ :: ans, ?_⟩
    rw [loadMatches, hip]
    simp only [deref, ok_bind, show (0 : Int) = ((0 : Nat) : Int) from rfl, hstore, hans]
    rfl

/-- A text that does not fit is written outside its buffer. -/
theorem loadMatches_error {ttl : Nat → Nat} {pos : Nat} (j : Nat) (htext : ∀ e ∈ result, ∃ ip, e.ip = some ip)
    (hlong : ∃ e ∈ result, ∃ ip, e.ip = some ip ∧ typeBufSize q.qtype ≤ ip.length) :
    loadMatches ttl st i q pos j result = .error .write := by
  induction result generalizing j with
  | nil =>
    obtain ⟨e, he, -⟩ := hlong
    cases he
  | cons e result ih =>
    obtain ⟨ip, hip⟩ := htext e List.mem_cons_self
    rw [loadMatches, hip]
    simp only [deref, ok_bind, show (0 : Int) = ((0 : Nat) : Int) from rfl]
    by_cases hfit : ip.length < typeBufSize q.qtype
    · rw [Block.storeBytes_eq (by simp; omega), ok_bind, ih (j + 1) fun e he => htext e (List.mem_cons_of_mem _ he)]
      · rfl
      · obtain ⟨e', he', ip', hip', hlen⟩ := hlong
        rcases List.mem_cons.1 he' with rfl | he'
        · cases hip.symm.trans hip'
          omega
        · exact ⟨e', he', ip', hip', hlen⟩
    · rw [Block.storeBytes_error (by simp) (by simp; omega)]
      rfl

theorem hostWalk_count {ttl : Nat → Nat} {entry : DNSEntry} {k : Nat} {list res result : List DNSEntry}
    {ret : Int} (h : hostWalk ttl entry k list res = .ok (ret, result)) : ret = -1 ∨ ret = result.length := by
  induction list generalizing k res with
  | nil => cases h; exact .inr rfl
  | cons e list ih =>
    obtain ⟨blocked, -, h⟩ := bind_ok.1 h
    cases blocked with
    | true => cases h; exact .inl rfl
    | false => exact ih h

/-- A search returns -1 or the number of its results. -/
theorem qnameSearch_count {qname : List UInt8} {qtype : UInt16} {ret : Int}
    (h : qnameSearch N host clk i c qname qtype = .ok (ret, result, c')) : ret = -1 ∨ ret = result.length := by
  obtain ⟨name, -, h⟩ := bind_ok.1 h
  obtain ⟨found, -, h⟩ := bind_ok.1 h
  obtain ⟨c₁, -, h⟩ := bind_ok.1 h
  cases host with
  | none => cases h; exact .inr (by rw [List.length_map])
  | some m =>
    obtain ⟨⟨retHost, resHost⟩, hhost, h⟩ := bind_ok.1 h
    dsimp only at h
    split at h
    · cases h
      obtain ⟨name', -, hhost⟩ := bind_ok.1 hhost
      obtain ⟨head, -, hhost⟩ := bind_ok.1 hhost
      cases head with
      | none => cases hhost; exact .inr rfl
      | some head =>
        dsimp only at hhost
        split at hhost
        · cases hhost
        · exact hostWalk_count hhost
    · cases h; exact .inr (by rw [List.length_map])

/-- The cache finds no record for question `i`, whose name is `name`. -/
def CacheMiss (N : Nat) (clk : Clock) (i : Nat) (q : Quest) (name : List UInt8) (c : LRUCache) : Prop :=
  c.cacheQuery N (clk.visit i) (dnsEntrySet (some name) none 0 q.qtype.toUInt8 0 (clk.search i)) = .ok []

theorem Holds.cacheMiss_iff {slots : List Nat} {L : List Record} (h : Holds N c slots L) (clk : Clock) (i : Nat)
    (q : Quest) (name : List UInt8) :
    CacheMiss N clk i q name c ↔ Absent (clk.visit i) name q.qtype.toUInt8 L := by
  obtain ⟨found, c', slots', hfound, hentries, -⟩ := h.cacheQuery (clk.visit i)
    (dnsEntrySet (some name) none 0 q.qtype.toUInt8 0 (clk.search i)) rfl
  change found.map Prod.fst = (cacheHits (clk.visit i) name q.qtype.toUInt8 L).map Record.entry at hentries
  rw [CacheMiss, hfound, Except.ok.injEq, ← List.map_eq_nil_iff (f := Prod.fst), hentries, List.map_eq_nil_iff,
    cacheHits_eq_nil]

/-- The searches for `quests`, from question `i` on, all of which found something, and the answers made
of each one's results. -/
inductive Answered (N : Nat) (host : Option HostMap) (clk : Clock) :
    Nat → List Quest → LRUCache → List (List Answer) → LRUCache → Prop
  | nil (i : Nat) (c : LRUCache) : Answered N host clk i [] c [] c
  | cons {i : Nat} {q : Quest} {quests : List Quest} {c c₁ c' : LRUCache} {ret : Int} {result : List DNSEntry}
      {g : List Answer} {gs : List (List Answer)}
      (hs : qnameSearch N host clk i c q.qname.bytes q.qtype = .ok (ret, result, c₁)) (hret : ret ≠ -1)
      (hne : result ≠ []) (hg : List.Forall₂ (fun e a => ∃ j, Attached i q (clk.ttl i j) e a) result g)
      (hrest : Answered N host clk (i + 1) quests c₁ gs c') :
      Answered N host clk i (q :: quests) c (g :: gs) c'

/-- The search for one of `quests` that ended them: the searches before it found something, it returned
-1 or nothing. -/
def Stopped (N : Nat) (host : Option HostMap) (clk : Clock) (i : Nat) (quests : List Quest) (c : LRUCache)
    (ret : Int) (c' : LRUCache) : Prop :=
  (ret = -1 ∨ ret = 0) ∧ ∃ pre q post gs c₁ result, quests = pre ++ q :: post ∧
    Answered N host clk i pre c gs c₁ ∧
    qnameSearch N host clk (i + pre.length) c₁ q.qname.bytes q.qtype = .ok (ret, result, c')

/-- What the loop of `urlQuery` returns: an early end without answers, or the answers of all searches. -/
theorem searchQuests_ok {ret : Int} {ancount : UInt16} {ans' : List Answer} (hlen : ans.length < 65536)
    (h : searchQuests N host clk st i quests ans c = .ok (ret, ancount, ans', c')) :
    (Stopped N host clk i quests c ret c' ∧ ancount = 0) ∨ ∃ gs, Answered N host clk i quests c gs c' ∧
      ans' = ans ++ gs.flatten ∧ ret = ans'.length ∧ ancount.toNat = ans'.length := by
  induction quests generalizing i ans c with
  | nil =>
    cases h
    refine .inr ⟨[], .nil i _, by simp, rfl, ?_⟩
    rw [UInt16.toNat_ofNat']
    exact Nat.mod_eq_of_lt hlen
  | cons q quests ih =>
    obtain ⟨⟨found, result, c₁⟩, hs, h⟩ := bind_ok.1 h
    dsimp only at h
    split at h
    case isTrue hm1 =>
      cases h
      exact .inl ⟨⟨.inl rfl, [], q, quests, [], c, result, rfl, .nil i c, hm1 ▸ hs⟩, rfl⟩
    case isFalse hm1 =>
    split at h
    case isTrue h0 =>
      cases h
      exact .inl ⟨⟨.inr rfl, [], q, quests, [], c, result, rfl, .nil i c, h0 ▸ hs⟩, rfl⟩
    case isFalse h0 =>
    split at h
    · cases h
    obtain ⟨new, hnew, h⟩ := bind_ok.1 h
    have hcount := (qnameSearch_count hs).resolve_left hm1
    have hall := loadMatches_ok hnew
    have hne : result ≠ [] := by rintro rfl; exact h0 hcount
    rcases ih (by rw [List.length_append, ← hall.length_eq]; omega) h with
      ⟨⟨hret, pre, q', post, gs, c₂, result', rfl, hgs, hs'⟩, hanc⟩ | ⟨gs, hgs, rfl, hret, hanc⟩
    · refine .inl ⟨⟨hret, q :: pre, q', post, new :: gs, c₂, result', rfl, .cons hs hm1 hne hall hgs, ?_⟩, hanc⟩
      rw [List.length_cons, show i + (pre.length + 1) = i + 1 + pre.length by omega]
      exact hs'
    · refine .inr ⟨new :: gs, .cons hs hm1 hne hall hgs, ?_, hret, hanc⟩
      rw [List.flatten_cons, List.append_assoc]

/-- What `urlQuery` returns. Only `ANCOUNT` and `ANS` of the packet change. -/
theorem urlQuery_ok {src src' : Packet} {ret : Int} (h : urlQuery N host clk st src c = .ok (ret, src', c')) :
    (Stopped N host clk 0 src.quests c ret c' ∧ ∃ ans, src' = { src with ancount := 0, ans := ans }) ∨
      ∃ gs ancount, Answered N host clk 0 src.quests c gs c' ∧
        src' = { src with ancount := ancount, ans := gs.flatten } ∧ ret = gs.flatten.length ∧
        ancount.toNat = gs.flatten.length := by
  obtain ⟨⟨ret', ancount, ans, c''⟩, hs, h⟩ := bind_ok.1 h
  cases h
  rcases searchQuests_ok (by simp) hs with ⟨hstop, rfl⟩ | ⟨gs, hgs, rfl, rfl, hanc⟩
  · exact .inl ⟨hstop, ans, rfl⟩
  · exact .inr ⟨gs, ancount, hgs, rfl, rfl, hanc⟩

namespace Answered
variable {gs : List (List Answer)}

theorem length_eq (h : Answered N host clk i quests c gs c') : gs.length = quests.length := by
  induction h with
  | nil => rfl
  | cons _ _ _ _ _ ih => rw [List.length_cons, List.length_cons, ih]

/-- Every answer carries the number of a question and a buffer of the size its type gets. -/
theorem mem (h : Answered N host clk i quests c gs c') {a : Answer} (ha : a ∈ gs.flatten) :
    (∃ k < quests.length, a.qpos = UInt8.ofNat (i + k)) ∧ a.rdata.size = typeBufSize a.type := by
  induction h with
  | nil => cases ha
  | @cons i q quests c c₁ c' ret result g' gs hs hret hne hall hrest ih =>
    rw [List.flatten_cons] at ha
    rcases List.mem_append.1 ha with ha | ha
    · obtain ⟨e, -, j, hatt⟩ := exists_of_forall₂ hall ha
      obtain ⟨ip, stale, -, -, hrd⟩ := hatt.rdata
      exact ⟨⟨0, Nat.zero_lt_succ _, hatt.qpos⟩, by rw [hrd, hatt.type, Block.patch_size, Block.fresh_size]⟩
    · obtain ⟨⟨k, hk, hq⟩, hsize⟩ := ih ha
      exact ⟨⟨k + 1, Nat.succ_lt_succ hk, by rw [hq]; congr 1; omega⟩, hsize⟩

/-- Every question has answers, and they carry its number, type and class. -/
theorem get (h : Answered N host clk i quests c gs c') {k : Nat} {g : List Answer} (hg : gs[k]? = some g) :
    g ≠ [] ∧ ∃ q, quests[k]? = some q ∧
      ∀ a ∈ g, a.qpos = UInt8.ofNat (i + k) ∧ a.type = q.qtype ∧ a.cls = q.qclass := by
  induction h generalizing k with
  | nil => cases hg
  | @cons i q quests c c₁ c' ret result g' gs hs hret hne hall hrest ih =>
    cases k with
    | zero =>
      obtain rfl := Option.some.inj hg
      refine ⟨fun hnil => hne (List.eq_nil_of_length_eq_zero (by rw [hall.length_eq, hnil]; rfl)), q, rfl,
        fun a ha => ?_⟩
      obtain ⟨e, -, j, hj⟩ := exists_of_forall₂ hall ha
      exact ⟨hj.qpos, hj.type, hj.cls⟩
    | succ k =>
      obtain ⟨h₁, q', hq', h₂⟩ := ih hg
      refine ⟨h₁, q', hq', fun a ha => ?_⟩
      rw [show i + (k + 1) = i + 1 + k by omega]
      exact h₂ a ha

theorem exists_to_question (h : Answered N host clk i quests c gs c') {k : Nat} (hk : k < quests.length) :
    ∃ a ∈ gs.flatten, a.qpos = UInt8.ofNat (i + k) := by
  have hlt : k < gs.length := h.length_eq ▸ hk
  obtain ⟨hne, q, -, hq⟩ := h.get (List.getElem?_eq_getElem hlt)
  obtain ⟨a, ha⟩ := List.exists_mem_of_ne_nil _ hne
  exact ⟨a, List.mem_flatten.2 ⟨_, List.getElem_mem hlt, ha⟩, (hq a ha).1⟩

/-- The searches turn the records over and keep them. -/
theorem holds (h : Answered N host clk i quests c gs c') {slots : List Nat} {L : List Record}
    (hc : Holds N c slots L) {lines : List HostLine} (hhost : Hosts host lines) :
    ∃ slots' L', Holds N c' slots' L' ∧ L'.Perm L := by
  induction h generalizing slots L with
  | nil => exact ⟨slots, L, hc, .refl L⟩
  | @cons i q quests c c₁ c' ret result g gs hs hret hne hall hrest ih =>
    obtain ⟨name, hn, -⟩ := bind_ok.1 hs
    obtain ⟨ret', result', c₂, slots₂, hs', -, h₂⟩ := hc.qnameSearch hhost clk i hn q.qtype
    rw [hs] at hs'
    cases hs'
    obtain ⟨slots', L', h', hperm⟩ := ih h₂
    exact ⟨slots', L', h', hperm.trans (turned_perm _ _ _ _)⟩

/-- The search for question `k`, and the cache before it. -/
theorem before (h : Answered N host clk i quests c gs c') {k : Nat} {g : List Answer} (hg : gs[k]? = some g) :
    ∃ q c₁ ret result c₂, quests[k]? = some q ∧ Answered N host clk i (quests.take k) c (gs.take k) c₁ ∧
      qnameSearch N host clk (i + k) c₁ q.qname.bytes q.qtype = .ok (ret, result, c₂) ∧ ret ≠ -1 ∧
      List.Forall₂ (fun e a => ∃ j, Attached (i + k) q (clk.ttl (i + k) j) e a) result g := by
  induction h generalizing k with
  | nil => cases hg
  | @cons i q quests c c₁ c' ret result g' gs hs hret hne hall hrest ih =>
    cases k with
    | zero =>
      cases hg
      exact ⟨q, c, ret, result, c₁, rfl, .nil i c, hs, hret, hall⟩
    | succ k =>
      obtain ⟨q', c₂, ret', result', c₃, hq', hpre, hs', hret', hall'⟩ := ih hg
      rw [show i + 1 + k = i + (k + 1) by omega] at hs' hall'
      exact ⟨q', c₂, ret', result', c₃, hq', .cons hs hret hne hall hpre, hs', hret', hall'⟩

/-- What the search behind each group of answers found. -/
theorem found (h : Answered N host clk i quests c gs c') {slots : List Nat} {L : List Record}
    (hc : Holds N c slots L) {lines : List HostLine} (hhost : Hosts host lines) {k : Nat} {g : List Answer}
    (hg : gs[k]? = some g) :
    ∃ q name c₁ slots₁ L₁ ret result, quests[k]? = some q ∧ cstr q.qname.bytes = .ok name ∧
      Answered N host clk i (quests.take k) c (gs.take k) c₁ ∧ Holds N c₁ slots₁ L₁ ∧ L₁.Perm L ∧ ret ≠ -1 ∧
      Found lines name q.qtype.toUInt8 (cacheHits (clk.visit (i + k)) name q.qtype.toUInt8 L₁) ret result ∧
      List.Forall₂ (fun e a => ∃ j, Attached (i + k) q (clk.ttl (i + k) j) e a) result g := by
  obtain ⟨q, c₁, ret, result, c₂, hq, hpre, hs, hret, hall⟩ := h.before hg
  obtain ⟨slots₁, L₁, h₁, hperm⟩ := hpre.holds hc hhost
  obtain ⟨name, hn, -⟩ := bind_ok.1 hs
  obtain ⟨ret', result', c₃, slots₃, hs', hfound, -⟩ := h₁.qnameSearch hhost clk (i + k) hn q.qtype
  rw [hs] at hs'
  cases hs'
  exact ⟨q, name, c₁, slots₁, L₁, ret, result, hq, hn, hpre, h₁, hperm, hret, hfound, hall⟩

end Answered

/-- Question `k` of `quests` is `q`, with the name `name`. It is searched for, since every question before it finds
something, and the cache finds nothing. -/
def NotCached (N : Nat) (host : Option HostMap) (clk : Clock) (quests : List Quest) (c : LRUCache) (k : Nat)
    (q : Quest) (name : List UInt8) : Prop :=
  quests[k]? = some q ∧ cstr q.qname.bytes = .ok name ∧
    ∃ gs c₁, Answered N host clk 0 (quests.take k) c gs c₁ ∧ CacheMiss N clk k q name c₁

/-- What `urlQuery` does not have room for in the result of a search when it has `n` answers: a text that does not fit
the buffer for the type `qtype`, or too many results for `ANCOUNT`. -/
def Overlong (n : Nat) (qtype : UInt16) (result : List DNSEntry) : Prop :=
  65536 ≤ n + result.length ∨ ∃ e ∈ result, ∃ ip, e.ip = some ip ∧ typeBufSize qtype ≤ ip.length

/-- The search for question `k` of `quests` finds something for which `urlQuery` does not have room. -/
def Overflows (N : Nat) (host : Option HostMap) (clk : Clock) (quests : List Quest) (c : LRUCache) (k : Nat) : Prop :=
  ∃ q gs c₁ ret result c₂, quests[k]? = some q ∧ Answered N host clk 0 (quests.take k) c gs c₁ ∧
    qnameSearch N host clk k c₁ q.qname.bytes q.qtype = .ok (ret, result, c₂) ∧ ret ≠ -1 ∧
    Overlong gs.flatten.length q.qtype result

/-- Every result has a text. -/
theorem Found.text {lines : List HostLine} {name : List UInt8} {type : UInt8} {hits : List Record} {ret : Int}
    (h : Found lines name type hits ret result) (hret : ret ≠ -1) : ∀ e ∈ result, ∃ ip, e.ip = some ip := by
  intro e he
  cases h with
  | blocked => exact absurd rfl hret
  | cache =>
    obtain ⟨r, -, rfl⟩ := List.mem_map.1 he
    exact ⟨r.ip, rfl⟩
  | host _ _ hr =>
    obtain ⟨l, -, hl⟩ := exists_of_forall₂ hr.flip he
    exact ⟨l.ip, hl.2.1⟩

/-- The loop of `urlQuery` fails at most by writing what it does not have room for. -/
theorem searchQuests_total (clk : Clock) (st : Stale) (i : Nat) (ans : List Answer) {slots : List Nat}
    {L : List Record} (hc : Holds N c slots L) {lines : List HostLine}
    (hhost : Hosts host lines) (hnames : ∀ q ∈ quests, ∃ name, cstr q.qname.bytes = .ok name) :
    (∃ y, searchQuests N host clk st i quests ans c = .ok y) ∨
      searchQuests N host clk st i quests ans c = .error .write ∧
      ∃ pre q post gs c₁ ret result c₂, quests = pre ++ q :: post ∧ Answered N host clk i pre c gs c₁ ∧
        qnameSearch N host clk (i + pre.length) c₁ q.qname.bytes q.qtype = .ok (ret, result, c₂) ∧ ret ≠ -1 ∧
        Overlong (ans.length + gs.flatten.length) q.qtype result := by
  induction quests generalizing i ans c slots L with
  | nil => exact .inl ⟨_, rfl⟩
  | cons q quests ih =>
    obtain ⟨name, hn⟩ := hnames q List.mem_cons_self
    obtain ⟨ret, result, c₁, slots₁, hs, hfound, h₁⟩ := hc.qnameSearch hhost clk i hn q.qtype
    have hhere (hret : ret ≠ -1) (hlong : Overlong ans.length q.qtype result) :
        ∃ pre q' post gs c₁ ret result c₂, q :: quests = pre ++ q' :: post ∧ Answered N host clk i pre c gs c₁ ∧
          qnameSearch N host clk (i + pre.length) c₁ q'.qname.bytes q'.qtype = .ok (ret, result, c₂) ∧ ret ≠ -1 ∧
          Overlong (ans.length + gs.flatten.length) q'.qtype result :=
      ⟨[], q, quests, [], c, ret, result, c₁, rfl, .nil i c, hs, hret, hlong⟩
    rw [searchQuests, hs]
    simp only [ok_bind]
    by_cases hm1 : ret = -1
    · rw [if_pos hm1]
      exact .inl ⟨_, rfl⟩
    rw [if_neg hm1]
    by_cases h0 : ret = 0
    · rw [if_pos h0]
      exact .inl ⟨_, rfl⟩
    rw [if_neg h0]
    have hne : result ≠ [] := by
      rintro rfl
      exact h0 ((qnameSearch_count hs).resolve_left hm1)
    by_cases hcount : 65536 ≤ ans.length + result.length
    · rw [if_pos hcount]
      exact .inr ⟨rfl, hhere hm1 (.inl hcount)⟩
    rw [if_neg hcount]
    by_cases hlong : ∃ e ∈ result, ∃ ip, e.ip = some ip ∧ typeBufSize q.qtype ≤ ip.length
    · rw [loadMatches_error 0 (hfound.text hm1) hlong]
      exact .inr ⟨rfl, hhere hm1 (.inr hlong)⟩
    obtain ⟨new, hnew⟩ : ∃ new, loadMatches (clk.ttl i) st i q ans.length 0 result = .ok new :=
      loadMatches_eq 0 fun e he => by
        obtain ⟨ip, hip⟩ := hfound.text hm1 e he
        by_contra hno
        exact hlong ⟨e, he, ip, hip, by_contra fun hlt => hno ⟨ip, hip, by omega⟩⟩
    rw [hnew, ok_bind]
    refine (ih (i + 1) (ans ++ new) h₁ fun q hq => hnames q (List.mem_cons_of_mem _ hq)).imp id ?_
    rintro ⟨hrun, pre, q', post, gs, c₂, ret', result', c₃, rfl, hpre, hs', hret', hlong'⟩
    refine ⟨hrun, q :: pre, q', post, new :: gs, c₂, ret', result', c₃, rfl,
      .cons hs hm1 hne (loadMatches_ok hnew) hpre, ?_, hret', ?_⟩
    · rw [List.length_cons, show i + (pre.length + 1) = i + 1 + pre.length by omega]
      exact hs'
    · rw [List.flatten_cons, List.length_append, ← Nat.add_assoc, ← List.length_append]
      exact hlong'

/-- `urlQuery` returns, or a question overflows. -/
theorem urlQuery_total (clk : Clock) (st : Stale) {slots : List Nat} {L : List Record} (hc : Holds N c slots L)
    {lines : List HostLine}
    (hhost : Hosts host lines) {src : Packet} (hnames : ∀ q ∈ src.quests, ∃ name, cstr q.qname.bytes = .ok name) :
    (∃ y, urlQuery N host clk st src c = .ok y) ∨
      urlQuery N host clk st src c = .error .write ∧ ∃ k, Overflows N host clk src.quests c k := by
  rcases searchQuests_total clk st 0 [] hc hhost hnames with ⟨y, hy⟩ |
    ⟨hrun, pre, q, post, gs, c₁, ret, result, c₂, hquests, hpre, hs, hret, hlong⟩
  · exact .inl ⟨_, by rw [urlQuery, hy]; rfl⟩
  · refine .inr ⟨by rw [urlQuery, hrun]; rfl, pre.length, q, gs, c₁, ret, result, c₂, by rw [hquests]; simp, ?_, ?_,
      hret, ?_⟩
    · rw [hquests, List.take_left]
      exact hpre
    · rwa [Nat.zero_add] at hs
    · rwa [List.length_nil, Nat.zero_add] at hlong

/-- The search that stopped `urlQuery`. -/
theorem Stopped.found {ret : Int} (h : Stopped N host clk i quests c ret c') {slots : List Nat}
    {L : List Record} (hc : Holds N c slots L) {lines : List HostLine} (hhost : Hosts host lines) :
    (∃ slots' L', Holds N c' slots' L' ∧ L'.Perm L) ∧ (ret = -1 ∨ ret = 0) ∧
      ∃ pre q post gs c₁ slots₁ L₁ name result, quests = pre ++ q :: post ∧ Answered N host clk i pre c gs c₁ ∧
        cstr q.qname.bytes = .ok name ∧ Holds N c₁ slots₁ L₁ ∧ L₁.Perm L ∧
        Found lines name q.qtype.toUInt8 (cacheHits (clk.visit (i + pre.length)) name q.qtype.toUInt8 L₁)
          ret result := by
  obtain ⟨hret, pre, q, post, gs, c₁, result, hquests, hgs, hs⟩ := h
  obtain ⟨slots₁, L₁, hc₁, hperm₁⟩ := hgs.holds hc hhost
  obtain ⟨name, hn, -⟩ := bind_ok.1 hs
  obtain ⟨ret', result', c₂, slots₂, hs', hfound, h₂⟩ := hc₁.qnameSearch hhost clk (i + pre.length) hn q.qtype
  rw [hs] at hs'
  cases hs'
  exact ⟨⟨slots₂, _, h₂, (turned_perm _ _ _ _).trans hperm₁⟩, hret, pre, q, post, gs, c₁, slots₁, L₁, name, result,
    hquests, hgs, hn, hc₁, hperm₁, hfound⟩

/-- The searches of `urlQuery` turn the records over and keep them. -/
theorem Holds.urlQuery {slots : List Nat} {L : List Record} (h : Holds N c slots L)
    {lines : List HostLine} (hhost : Hosts host lines) {src src' : Packet} {ret : Int}
    (hq : urlQuery N host clk st src c = .ok (ret, src', c')) :
    ∃ slots' L', Holds N c' slots' L' ∧ L'.Perm L := by
  rcases urlQuery_ok hq with ⟨hstop, -⟩ | ⟨gs, ancount, hgs, -⟩
  · exact (hstop.found h hhost).1
  · exact hgs.holds h hhost

end

end DnsRelay
