import DnsRelay.Pointers

/-!
# Requests with several questions

`Searched` are the searches that `urlQuery` makes, one question after the other, until one finds
nothing or is blocked. If every text that is found fits the buffer allocated for it, either each
question contributes its answers, in order, or there are none at all; a text that does not fit is
written behind its buffer.
-/

namespace DnsRelay
open ByteSeq Exec

/-- The searches for `quests`, from question `i` on, with what each returns. -/
inductive Searched (N : Nat) (host : Option HostMap) (clk : Clock) :
    Nat → List Quest → LRUCache → List (Int × List DNSEntry) → LRUCache → Prop
  | nil (i : Nat) (c : LRUCache) : Searched N host clk i [] c [] c
  | stop {i : Nat} {q : Quest} {c c' : LRUCache} {ret : Int} {result : List DNSEntry} (quests : List Quest)
      (hs : qnameSearch N host clk i c q.qname.bytes q.qtype = .ok (ret, result, c')) (hret : ret ≤ 0) :
      Searched N host clk i (q :: quests) c [(ret, result)] c'
  | found {i : Nat} {q : Quest} {quests : List Quest} {c c₁ c' : LRUCache} {ret : Int} {result : List DNSEntry}
      {rs : List (Int × List DNSEntry)}
      (hs : qnameSearch N host clk i c q.qname.bytes q.qtype = .ok (ret, result, c₁)) (hret : 0 < ret)
      (hrest : Searched N host clk (i + 1) quests c₁ rs c') :
      Searched N host clk i (q :: quests) c ((ret, result) :: rs) c'

/-- The positive counts, added up. -/
def total (rs : List (Int × List DNSEntry)) : Nat := (rs.map fun r => r.1.toNat).sum

/-- The answers to the questions from number `i` on, one group for each. -/
inductive Groups (clk : Clock) : Nat → List Quest → List (Int × List DNSEntry) → List (List Answer) → Prop
  | nil (i : Nat) : Groups clk i [] [] []
  | cons {i : Nat} {q : Quest} {quests : List Quest} {r : Int × List DNSEntry} {rs : List (Int × List DNSEntry)}
      {g : List Answer} {gs : List (List Answer)}
      (hg : List.Forall₂ (fun e a => a.qpos.toNat = i ∧ ∃ k, Attached i q (clk.ttl i k) e a) r.2 g)
      (hrest : Groups clk (i + 1) quests rs gs) : Groups clk i (q :: quests) (r :: rs) (g :: gs)

/-- Every text that is found fits the buffer for the question's type. -/
def TextsFit (quests : List Quest) (rs : List (Int × List DNSEntry)) : Prop :=
  ∀ x ∈ quests.zip rs, 0 < x.2.1 → ∀ e ∈ x.2.2, ∃ ip, e.ip = some ip ∧ ip.length + 1 ≤ typeBufSize x.1.qtype

/-- All searches found something, and the answers are theirs; or the first that did not decides. -/
def AllOrNothing (clk : Clock) (src : Packet) (rs : List (Int × List DNSEntry)) (ret : Int) (src' : Packet) : Prop :=
  match rs.find? fun r => r.1 ≤ 0 with
  | none => ret = total rs ∧ src'.ancount.toNat = total rs ∧ ∃ gs, Groups clk 0 src.quests rs gs ∧
      src' = { src with ancount := src'.ancount, ans := gs.flatten }
  | some r => ret = r.1 ∧ (ret = 0 ∨ ret = -1) ∧ src'.ancount = 0

section
variable {N : Nat} {host : Option HostMap} {clk : Clock} {st : Stale} {i : Nat} {q : Quest} {quests : List Quest}
  {ans : List Answer} {c c' : LRUCache} {r : Int × List DNSEntry} {rs : List (Int × List DNSEntry)}

theorem total_cons (r : Int × List DNSEntry) (rs : List (Int × List DNSEntry)) :
    total (r :: rs) = r.1.toNat + total rs := by
  simp [total]

theorem textsFit_cons : TextsFit (q :: quests) (r :: rs) ↔
    (0 < r.1 → ∀ e ∈ r.2, ∃ ip, e.ip = some ip ∧ ip.length + 1 ≤ typeBufSize q.qtype) ∧ TextsFit quests rs := by
  simp [TextsFit]

theorem Groups.length_flatten {gs : List (List Answer)} (h : Groups clk i quests rs gs)
    (hcount : ∀ r ∈ rs, r.1 = r.2.length) : gs.flatten.length = total rs := by
  induction h with
  | nil => rfl
  | @cons i q quests r rs g gs hg hrest ih =>
    have hr := hcount r List.mem_cons_self
    rw [List.flatten_cons, List.length_append, ih fun r hr => hcount r (List.mem_cons_of_mem _ hr), total_cons,
      ← hg.length_eq, hr]
    rfl

namespace Searched

/-- The number a search returns is that of its results, unless it is blocked. -/
theorem count (h : Searched N host clk i quests c rs c') (hr : r ∈ rs) (hpos : 0 < r.1) : r.1 = r.2.length := by
  induction h with
  | nil => cases hr
  | stop _ _ hret =>
    obtain rfl := List.mem_singleton.1 hr
    exact absurd hpos (by omega)
  | found hs hret hrest ih =>
    rcases List.mem_cons.1 hr with rfl | hr
    · exact (qnameSearch_count hs).resolve_left (by dsimp only at hpos; omega)
    · exact ih hr

/-- The loop of `urlQuery` goes through only if the texts fit. -/
theorem textsFit (h : Searched N host clk i quests c rs c') {y : Int × UInt16 × List Answer × LRUCache}
    (hy : searchQuests N host clk st i quests ans c = .ok y) : TextsFit quests rs := by
  induction h generalizing ans with
  | nil => nofun
  | stop quests hs hret =>
    refine textsFit_cons.2 ⟨fun hpos => ?_, ?_⟩
    · exact absurd hpos (by dsimp only; omega)
    · intro x hx
      simp at hx
  | @found i q quests c c₁ c' ret result rs hs hret hrest ih =>
    rw [searchQuests, hs] at hy
    simp only [ok_bind, if_neg (show ret ≠ -1 by omega), if_neg (show ret ≠ 0 by omega)] at hy
    split at hy
    · cases hy
    obtain ⟨new, hnew, hy⟩ := bind_ok.1 hy
    refine textsFit_cons.2 ⟨fun _ e he => ?_, ih hy⟩
    obtain ⟨a, -, k, hatt⟩ := exists_of_forall₂ (loadMatches_ok hnew).flip he
    obtain ⟨ip, stale, hip, hlen, -⟩ := hatt.rdata
    exact ⟨ip, hip, hlen⟩

/-- If they fit, it returns the sum with all answers, or what the last search returned. -/
theorem run (h : Searched N host clk i quests c rs c') (st : Stale) (hfit : TextsFit quests rs)
    (hi : i + quests.length ≤ 255) (hsum : ans.length + total rs < 65535) :
    ((rs.find? fun r => r.1 ≤ 0) = none ∧ ∃ gs, Groups clk i quests rs gs ∧
      searchQuests N host clk st i quests ans c = .ok (((ans ++ gs.flatten).length : Nat),
        UInt16.ofNat (ans ++ gs.flatten).length, ans ++ gs.flatten, c')) ∨
    ∃ r ans', (rs.find? fun r => r.1 ≤ 0) = some r ∧ (r.1 = 0 ∨ r.1 = -1) ∧
      searchQuests N host clk st i quests ans c = .ok (r.1, 0, ans', c') := by
  induction h generalizing ans with
  | nil i c => exact .inl ⟨rfl, [], .nil i, by rw [List.flatten_nil, List.append_nil]; rfl⟩
  | @stop i q c c' ret result quests hs hret =>
    refine .inr ⟨(ret, result), ans, by simp [hret], ?_⟩
    rw [searchQuests, hs]
    simp only [ok_bind]
    rcases qnameSearch_count hs with rfl | hcount
    · exact ⟨.inr rfl, rfl⟩
    · obtain rfl : ret = 0 := by omega
      exact ⟨.inl rfl, rfl⟩
  | @found i q quests c c₁ c' ret result rs hs hret hrest ih =>
    obtain ⟨hfit, hfits⟩ := textsFit_cons.1 hfit
    have hcount : ret = result.length := (qnameSearch_count hs).resolve_left (by omega)
    obtain ⟨new, hnew⟩ : ∃ new, loadMatches (clk.ttl i) st i q ans.length 0 result = .ok new :=
      loadMatches_eq 0 (hfit hret)
    have hatt := loadMatches_ok hnew
    rw [total_cons, hcount] at hsum
    rw [List.length_cons] at hi
    have hround : searchQuests N host clk st i (q :: quests) ans c =
        searchQuests N host clk st (i + 1) quests (ans ++ new) c₁ := by
      rw [searchQuests, hs]
      simp only [ok_bind, if_neg (show ret ≠ -1 by omega), if_neg (show ret ≠ 0 by omega),
        if_neg (show ¬ 65536 ≤ ans.length + result.length by dsimp only at hsum; omega), hnew]
    have hfind : ((ret, result) :: rs).find? (fun r => r.1 ≤ 0) = rs.find? fun r => r.1 ≤ 0 :=
      List.find?_cons_of_neg (by simpa using hret)
    have hnew : new.length = result.length := hatt.length_eq.symm
    have hgroup : List.Forall₂ (fun e a => a.qpos.toNat = i ∧ ∃ k, Attached i q (clk.ttl i k) e a) result new := by
      refine hatt.imp fun e a hk => ⟨?_, hk⟩
      obtain ⟨k, ha⟩ := hk
      rw [ha.qpos, UInt8.toNat_ofNat']
      exact Nat.mod_eq_of_lt (by omega)
    rw [hfind, hround]
    have hsum : (ans ++ new).length + total rs < 65535 := by
      rw [List.length_append]
      dsimp only at hsum
      omega
    rcases ih hfits (by omega) hsum with ⟨hnone, gs, hgs, hrun⟩ | hstop
    · refine .inl ⟨hnone, new :: gs, .cons hgroup hgs, ?_⟩
      rw [hrun, List.flatten_cons, List.append_assoc]
    · exact .inr hstop

end Searched

end

/-- A request of type `type` for the one-letter names `cs`. -/
def asking (type : UInt16) (cs : List UInt8) : Packet :=
  ⟨[], 0, 0, 0, UInt16.ofNat cs.length, 0, questsFrom .zero 0 (cs.map (questFor type)), []⟩

theorem search_two : (do
      let c ← addressCache
      let (r₀, result₀, c) ← qnameSearch 4 none (.const 5) 0 c ((questFor typeA 97).quest .zero 0).qname.bytes typeA
      let (r₁, result₁, _) ← qnameSearch 4 none (.const 5) 1 c ((questFor typeA 98).quest .zero 1).qname.bytes typeA
      return [(r₀, result₀), (r₁, result₁)] : Exec (List (Int × List DNSEntry))) =
    .ok [(1, [⟨some [97], some [49, 46, 50, 46, 51, 46, 52], 1, 0, 9⟩]),
      (1, [⟨some [98], some [53, 46, 54, 46, 55, 46, 56], 1, 0, 9⟩])] := by
  decide +kernel

end DnsRelay
