import DnsRelay.LookupThreads
import DnsRelay.Lib.Parts

/-!
# The threads of the searches

In every interleaving in which no search returns before its thread has written its answer, each search comes to what
`qnameSearch` comes to that asks the cache and the host table one after the other, whatever the order in which the
threads ran. Every block is released at most once, and after it was used for the last time; `*host_flag` is never
released, nor is the result that is not taken.
-/

namespace DnsRelay
open Alloc

/-! ### What the thread of a search has done -/

/-- The name is in the host table. -/
def hosted (m : HostMap) (entry : DNSEntry) : Bool :=
  match entry.domainName with
  | none => false
  | some name => match m.hash.queryHash name with
    | .ok (some _) => true
    | _ => false

/-- `hostQuery` has come to the `k`-th entry of the list: with any clock that shows the times read so far it goes on
as `x`. -/
def WalkReaches (m : HostMap) (entry : DNSEntry) (k : Nat) (x : (Nat → Nat) → Exec (Int × List DNSEntry)) : Prop :=
  ∃ clk : Nat → Nat, ∀ clk', (∀ j < k, clk' j = clk j) → hostQuery clk' m entry = x clk'

/-- The array begins with the records `res`, and has room for `room` more. -/
def ArrayAt (h : Heap LookupCell) (arr : Option Nat) (res : List DNSEntry) (room : Nat) : Prop :=
  ∃ p rest, arr = some p ∧ h.val p = .records (res ++ rest) ∧ room ≤ rest.length

/-- `hostQuery` has returned `ret`. -/
structure HostAnswered (m : HostMap) (h : Heap LookupCell) (entry : DNSEntry) (arr : Option Nat) (ret : Int) :
    Prop where
  array : arr.isSome = hosted m entry
  made : ret ≠ 0 → arr ≠ none
  answer : ∃ clk res, hostQuery clk m entry = .ok (ret, res) ∧ (0 < ret → ArrayAt h arr res 0)

/-- The thread holds its arguments and its entry, and knows the variables of the search. -/
structure Working (h : Heap LookupCell) (entry : DNSEntry) (v : Vars) (arr : Option Nat) (own : List Nat) (args : Nat)
    (a : HqArgs) : Prop where
  own : own = [args, a.entry]
  args : h.val args = .args a
  entry : h.val a.entry = .entry entry
  dest : a.resDest = v.resHost
  num : a.resNum = v.retHost
  result : h.val v.resHost = .pointer arr

/-- What the thread holds, and the result array `arr`, while the variables of the search are there. -/
def HostPoint.Holds (m : HostMap) (h : Heap LookupCell) (entry : DNSEntry) (v : Vars) (arr : Option Nat)
    (own : List Nat) : HostPoint → Prop
  | idle => False
  | begin args => arr = none ∧ ∃ a, Working h entry v arr own args a
  | askHash args a => arr = none ∧ Working h entry v arr own args a
  | make args a list => arr = none ∧ Working h entry v arr own args a ∧ hosted m entry = true ∧
    WalkReaches m entry 0 fun clk => hostWalk clk entry 0 list []
  | walk args a k list num => Working h entry v arr own args a ∧ hosted m entry = true ∧
    ∃ res, res.length = num ∧ ArrayAt h arr res list.length ∧ WalkReaches m entry k fun clk =>
      hostWalk clk entry k list res
  | copy args a k temp list num => Working h entry v arr own args a ∧ hosted m entry = true ∧
    ∃ res, res.length = num ∧ ArrayAt h arr res (list.length + 1) ∧ WalkReaches m entry k fun clk =>
      hostWalk clk entry (k + 1) list (res ++ [{ temp with timestamp := clk k + 0x80 }])
  | stamp args a k list num => Working h entry v arr own args a ∧ hosted m entry = true ∧
    ∃ res temp, res.length = num ∧ ArrayAt h arr (res ++ [temp]) list.length ∧ WalkReaches m entry k fun clk =>
      hostWalk clk entry (k + 1) list (res ++ [{ temp with timestamp := clk k + 0x80 }])
  | store args a ret => Working h entry v arr own args a ∧ HostAnswered m h entry arr ret
  | clean args a => own = [args, a.entry] ∧ h.val v.resHost = .pointer arr ∧
    ∃ ret, h.val v.retHost = .number ret ∧ HostAnswered m h entry arr ret
  | done => own = [] ∧ h.val v.resHost = .pointer arr ∧
    ∃ ret, h.val v.retHost = .number ret ∧ HostAnswered m h entry arr ret

/-- What it holds when they are gone. -/
def HostPoint.Left (m : HostMap) (entry : DNSEntry) (arr : Option Nat) (own : List Nat) : HostPoint → Prop
  | clean args a => own = [args, a.entry] ∧ arr.isSome = hosted m entry
  | done => own = [] ∧ arr.isSome = hosted m entry
  | _ => False

/-! ### What a search holds -/

/-- The cache found the records in the array `p`. -/
def Hit (h : Heap LookupCell) (s : Search) (p : Nat) (ret : Int) : Prop :=
  ∃ found, s.found = some found ∧ found ≠ [] ∧ ret = found.length ∧ h.val p = .records found

/-- The blocks of a search whose variables are there: these, `front`, and those of the thread. -/
def Search.Alive (m : HostMap) (h : Heap LookupCell) (own : List Nat) (s : Search) (v : Vars) (front : List Nat) :
    Prop :=
  ∃ arr hown, own = v.resHost :: v.retHost :: (front ++ (arr.toList ++ hown)) ∧ s.host.Holds m h s.entry v arr hown

/-- The blocks of a search that has returned. -/
def Search.Gone (m : HostMap) (own : List Nat) (s : Search) (front : List Nat) : Prop :=
  ∃ arr hown, own = front ++ (arr.toList ++ hown) ∧ s.host.Left m s.entry arr hown

def SearchPoint.Rep (m : HostMap) (h : Heap LookupCell) (own : List Nat) (s : Search) : SearchPoint → Prop
  | start => own = [] ∧ s.host = .idle
  | askCache v => s.Alive m h own v [v.entryCache, v.hostFlag] ∧ h.val v.entryCache = .entry s.entry
  | join v => s.found = some [] ∧ ∃ resCache, s.Alive m h own v [v.entryCache, v.hostFlag, resCache]
  | stop v resCache retCache => s.Alive m h own v [v.entryCache, v.hostFlag, resCache] ∧ Hit h s resCache retCache
  | leave v result ret true => ∃ p, result = some p ∧ s.Alive m h own v [v.entryCache, v.hostFlag, p] ∧ Hit h s p ret
  | leave v result ret false => s.found = some [] ∧ s.host = .done ∧
    ∃ arr resCache, own = v.resHost :: v.retHost :: ([v.entryCache, v.hostFlag, resCache] ++ arr.toList) ∧
      result = (if ret ≠ 0 then arr else none) ∧ HostAnswered m h s.entry arr ret
  | take result ret true => ∃ p flag, result = some p ∧ s.Gone m own [p, flag] ∧ Hit h s p ret
  | take result ret false => s.found = some [] ∧ s.host = .done ∧
    ∃ arr flag resCache, own = [flag, resCache] ++ arr.toList ∧ result = (if ret ≠ 0 then arr else none) ∧
      HostAnswered m h s.entry arr ret
  | done ret result true => (∃ flag, s.Gone m own [flag]) ∧ result ≠ [] ∧ s.found = some result ∧ ret = result.length
  | done ret result false => s.found = some [] ∧ s.host = .done ∧
    own.length = 2 + (if ret = 0 then (hosted m s.entry).toNat else 0) ∧
    ∃ clk res, hostQuery clk m s.entry = .ok (ret, res) ∧ result = res.take ret.toNat

/-- The blocks that a search holds. -/
def Search.Rep (m : HostMap) (h : Heap LookupCell) (own : List Nat) (s : Search) : Prop :=
  s.entry.domainName.isSome = true ∧ s.main.Rep m h own s

/-! ### Only its blocks matter -/

section
variable {m : HostMap} {h h' : Heap LookupCell} {entry : DNSEntry} {v : Vars} {arr : Option Nat}
  {own front rest : List Nat} {args : Nat} {a : HqArgs} {s : Search} {p : HostPoint} {ret : Int}
  {res : List DNSEntry} {room : Nat}

theorem ArrayAt.congr (hval : ∀ b ∈ arr, h'.val b = h.val b) (ha : ArrayAt h arr res room) :
    ArrayAt h' arr res room := by
  obtain ⟨p, rest, rfl, hp, hroom⟩ := ha
  exact ⟨p, rest, rfl, (hval p rfl).trans hp, hroom⟩

theorem HostAnswered.congr (hval : ∀ b ∈ arr, h'.val b = h.val b) (ha : HostAnswered m h entry arr ret) :
    HostAnswered m h' entry arr ret := by
  obtain ⟨clk, res, hq, harr⟩ := ha.answer
  exact ⟨ha.array, ha.made, clk, res, hq, fun hret => (harr hret).congr hval⟩

theorem Working.congr (hown : ∀ b ∈ own, h'.val b = h.val b) (hres : h'.val v.resHost = h.val v.resHost)
    (hw : Working h entry v arr own args a) : Working h' entry v arr own args a := by
  obtain ⟨rfl, hargs, hentry, hdest, hnum, hresult⟩ := hw
  refine ⟨rfl, ?_, ?_, hdest, hnum, hres.trans hresult⟩
  · rw [hown args (by simp), hargs]
  · rw [hown a.entry (by simp), hentry]

theorem HostPoint.Holds.congr (hp : p.Holds m h entry v arr own) (hown : ∀ b ∈ own, h'.val b = h.val b)
    (harr : ∀ b ∈ arr, h'.val b = h.val b) (hres : h'.val v.resHost = h.val v.resHost)
    (hret : h'.val v.retHost = h.val v.retHost) : p.Holds m h' entry v arr own := by
  cases p with
  | idle => exact hp
  | begin args =>
    obtain ⟨hnone, a, hw⟩ := hp
    exact ⟨hnone, a, hw.congr hown hres⟩
  | askHash args a => exact ⟨hp.1, hp.2.congr hown hres⟩
  | make args a list => exact ⟨hp.1, hp.2.1.congr hown hres, hp.2.2⟩
  | walk args a k list num =>
    obtain ⟨hw, hh, res, hlen, ha, hreach⟩ := hp
    exact ⟨hw.congr hown hres, hh, res, hlen, ha.congr harr, hreach⟩
  | copy args a k temp list num =>
    obtain ⟨hw, hh, res, hlen, ha, hreach⟩ := hp
    exact ⟨hw.congr hown hres, hh, res, hlen, ha.congr harr, hreach⟩
  | stamp args a k list num =>
    obtain ⟨hw, hh, res, temp, hlen, ha, hreach⟩ := hp
    exact ⟨hw.congr hown hres, hh, res, temp, hlen, ha.congr harr, hreach⟩
  | store args a ret => exact ⟨hp.1.congr hown hres, hp.2.congr harr⟩
  | clean args a =>
    obtain ⟨heq, hr, ret, hn, ha⟩ := hp
    exact ⟨heq, hres.trans hr, ret, hret.trans hn, ha.congr harr⟩
  | done =>
    obtain ⟨heq, hr, ret, hn, ha⟩ := hp
    exact ⟨heq, hres.trans hr, ret, hret.trans hn, ha.congr harr⟩

theorem Search.Alive.congr (hs : s.Alive m h own v front) (hown : ∀ b ∈ own, h'.val b = h.val b) :
    s.Alive m h' own v front := by
  obtain ⟨arr, hown', rfl, hp⟩ := hs
  refine ⟨arr, hown', rfl, hp.congr (fun b hb => hown b ?_) (fun b hb => hown b ?_) (hown _ ?_) (hown _ ?_)⟩ <;>
    simp_all

theorem Hit.congr {p : Nat} (hs : Hit h s p ret) (hp : h'.val p = h.val p) : Hit h' s p ret := by
  obtain ⟨found, hf, hne, hret, hval⟩ := hs
  exact ⟨found, hf, hne, hret, hp.trans hval⟩

theorem Search.Rep.congr (hs : s.Rep m h own) (hown : ∀ b ∈ own, h'.val b = h.val b) : s.Rep m h' own := by
  obtain ⟨entry, found, main, host⟩ := s
  obtain ⟨hname, hs⟩ := hs
  refine ⟨hname, ?_⟩
  have hfront : ∀ {v front}, Search.Alive m h own ⟨entry, found, main, host⟩ v front →
      ∀ b ∈ front, h'.val b = h.val b := by
    rintro v front ⟨arr, hown', rfl, -⟩ b hb
    exact hown b (by simp [hb])
  have hgone : ∀ {front}, Search.Gone m own ⟨entry, found, main, host⟩ front → ∀ b ∈ front, h'.val b = h.val b := by
    rintro front ⟨arr, hown', rfl, -⟩ b hb
    exact hown b (by simp [hb])
  cases main with
  | start => exact hs
  | askCache v => exact ⟨hs.1.congr hown, (hfront hs.1 _ (by simp)).trans hs.2⟩
  | join v =>
    obtain ⟨hf, resCache, hs⟩ := hs
    exact ⟨hf, resCache, hs.congr hown⟩
  | stop v resCache retCache => exact ⟨hs.1.congr hown, hs.2.congr (hfront hs.1 _ (by simp))⟩
  | leave v result ret cached =>
    cases cached with
    | true =>
      obtain ⟨p, hp, hs, hhit⟩ := hs
      exact ⟨p, hp, hs.congr hown, hhit.congr (hfront hs _ (by simp))⟩
    | false =>
      obtain ⟨hf, hdone, arr, resCache, rfl, hr, ha⟩ := hs
      exact ⟨hf, hdone, arr, resCache, rfl, hr, ha.congr fun b hb => hown b (by simp_all)⟩
  | take result ret cached =>
    cases cached with
    | true =>
      obtain ⟨p, flag, hp, hs, hhit⟩ := hs
      exact ⟨p, flag, hp, hs, hhit.congr (hgone hs _ (by simp))⟩
    | false =>
      obtain ⟨hf, hdone, arr, flag, resCache, rfl, hr, ha⟩ := hs
      exact ⟨hf, hdone, arr, flag, resCache, rfl, hr, ha.congr fun b hb => hown b (by simp_all)⟩
  | done ret result cached =>
    cases cached with
    | true => exact hs
    | false => exact hs

end

/-! ### `hostQuery` step by step -/

/-- `hostQuery` returns, for every name. -/
def HostMap.Returns (m : HostMap) : Prop :=
  ∀ clk (entry : DNSEntry), entry.domainName.isSome = true → ∃ r, hostQuery clk m entry = .ok r

section
variable {m : HostMap} {entry temp : DNSEntry} {name : List UInt8} {list res : List DNSEntry} {clk : Nat → Nat}
  {k : Nat}

theorem hostQuery_cases (hm : m.Returns) (hname : entry.domainName = some name) :
    m.hash.queryHash name = .ok none ∧ hosted m entry = false ∧ (∀ clk, hostQuery clk m entry = .ok (0, [])) ∨
    ∃ head list, m.hash.queryHash name = .ok (some head) ∧ m.lists[head]? = some list ∧ hosted m entry = true ∧
      ∀ clk, hostQuery clk m entry = hostWalk clk entry 0 list [] := by
  obtain ⟨r, hr⟩ := hm (fun _ => 0) entry (by rw [hname]; rfl)
  have hderef : deref (some name) = .ok name := rfl
  unfold hostQuery at hr ⊢
  unfold hosted
  simp only [hname, hderef, Exec.ok_bind] at hr ⊢
  rcases hhash : m.hash.queryHash name with e | ⟨_ | head⟩
  · rw [hhash] at hr
    cases hr
  · exact .inl ⟨rfl, rfl, fun _ => rfl⟩
  · simp only [hhash, Exec.ok_bind] at hr
    rcases hlist : m.lists[head]? with _ | list
    · rw [hlist] at hr
      cases hr
    · refine .inr ⟨head, list, rfl, hlist, rfl, fun clk => ?_⟩
      simp only [Exec.ok_bind, hlist]

/-- Whether an entry stops the walk. -/
def stops (entry temp : DNSEntry) : Exec Bool :=
  if entry.type = typeA.toUInt8 then do
    let ip ← deref temp.ip
    return decide (ip = blockIp)
  else return false

theorem hostWalk_cons (clk : Nat → Nat) (entry temp : DNSEntry) (k : Nat) (list res : List DNSEntry) :
    hostWalk clk entry k (temp :: list) res = (do
      let blocked ← stops entry temp
      if blocked then return (-1, res)
      hostWalk clk entry (k + 1) list
        (if temp.type = entry.type then res ++ [{ temp with timestamp := clk k + 0x80 }] else res)) := by
  rw [hostWalk]
  rfl

/-- A walk that returns can tell whether the entry stops it. -/
theorem stops_ok {r : Int × List DNSEntry} (h : hostWalk clk entry k (temp :: list) res = .ok r) :
    ∃ blocked, stops entry temp = .ok blocked ∧ ∀ clk k res, hostWalk clk entry k (temp :: list) res =
      if blocked then .ok (-1, res) else hostWalk clk entry (k + 1) list
        (if temp.type = entry.type then res ++ [{ temp with timestamp := clk k + 0x80 }] else res) := by
  rw [hostWalk_cons] at h
  obtain ⟨blocked, hb, -⟩ := Exec.bind_ok.1 h
  refine ⟨blocked, hb, fun clk k res => ?_⟩
  rw [hostWalk_cons, hb, Exec.ok_bind]
  cases blocked <;> rfl

theorem WalkReaches.ok (hm : m.Returns) (hname : entry.domainName.isSome = true)
    {x : (Nat → Nat) → Exec (Int × List DNSEntry)} (h : WalkReaches m entry k x) :
    ∃ clk r, hostQuery clk m entry = x clk ∧ x clk = .ok r := by
  obtain ⟨clk, hclk⟩ := h
  obtain ⟨r, hr⟩ := hm clk entry hname
  have he := hclk clk fun _ _ => rfl
  exact ⟨clk, r, he, he ▸ hr⟩

theorem WalkReaches.imp {x y : (Nat → Nat) → Exec (Int × List DNSEntry)} (h : WalkReaches m entry k x)
    (hxy : ∀ clk, x clk = y clk) : WalkReaches m entry k y := by
  obtain ⟨clk, hclk⟩ := h
  exact ⟨clk, fun clk' hc => (hclk clk' hc).trans (hxy clk')⟩

/-- One more time is read. -/
theorem WalkReaches.tick {x : (Nat → Nat) → Exec (Int × List DNSEntry)} (h : WalkReaches m entry k x) (now : Nat)
    {y : (Nat → Nat) → Exec (Int × List DNSEntry)} (hxy : ∀ clk, clk k = now → x clk = y clk) :
    WalkReaches m entry (k + 1) y := by
  obtain ⟨clk, hclk⟩ := h
  refine ⟨Function.update clk k now, fun clk' hc => ?_⟩
  have hk : clk' k = now := (hc k (Nat.lt_succ_self k)).trans (Function.update_self k now clk)
  rw [hclk clk' fun j hj => ?_, hxy clk' hk]
  exact (hc j (Nat.lt_succ_of_lt hj)).trans (Function.update_of_ne (Nat.ne_of_lt hj) _ _)

end

/-! ### Steps of the thread -/

section
variable {m : HostMap} {h : Heap LookupCell} {entry : DNSEntry} {v : Vars} {arr : Option Nat}
  {own l rest others : List Nat} {args now k num : Nat} {a : HqArgs} {s : Search} {p : HostPoint}
  {A : Allocator} {list res : List DNSEntry}
  {temp : DNSEntry} {p₀ : Nat}

/-- What a step of the thread leaves of the variables of the search, the array and its own blocks; the other blocks
are `others`. -/
def HostPoint.Steps (A : Allocator) (m : HostMap) (h : Heap LookupCell) (now : Nat) (entry : DNSEntry) (v : Vars)
    (others : List Nat) (p : HostPoint) : Prop :=
  ∃ h' p' arr' own', hostStep A m h now p = .ok (h', p') ∧ p'.Holds m h' entry v arr' own' ∧
    Owns h' (v.resHost :: v.retHost :: (arr'.toList ++ (own' ++ others))) ∧ ∀ b ∈ others, h'.val b = h.val b

theorem stops_lift {e temp : DNSEntry} {blocked : Bool} (hb : stops e temp = .ok blocked) :
    (if e.type = typeA.toUInt8 then do
        let ip ← lift (deref temp.ip)
        return decide (ip = blockIp)
      else return false : HeapExec Bool) = .ok blocked := by
  unfold stops at hb
  by_cases ht : e.type = typeA.toUInt8
  · rw [if_pos ht] at hb ⊢
    obtain ⟨ip, hip, hb⟩ := Exec.bind_ok.1 hb
    rw [lift_ok hip, heap_bind, ← Except.ok.inj hb]
    rfl
  · rw [if_neg ht] at hb ⊢
    rw [← Except.ok.inj hb]
    rfl

/-- A step that only reads. -/
theorem steps_look (p' : HostPoint) (ho : Owns h (v.resHost :: v.retHost :: (arr.toList ++ (own ++ others))))
    (hstep : hostStep A m h now p = .ok (h, p')) (hp' : p'.Holds m h entry v arr own) :
    p.Steps A m h now entry v others := ⟨h, p', arr, own, hstep, hp', ho, fun _ _ => rfl⟩

theorem Working.read (hw : Working h entry v arr own args a)
    (ho : Owns h (v.resHost :: v.retHost :: (arr.toList ++ (own ++ others)))) :
    cellAs LookupCell.args? h args = .ok a ∧ cellAs LookupCell.entry? h a.entry = .ok entry := by
  obtain ⟨rfl, hargs, hentry, -⟩ := hw
  exact ⟨cellAs_ok ho (by simp) (by rw [hargs]; rfl), cellAs_ok ho (by simp) (by rw [hentry]; rfl)⟩

theorem steps_begin (hp : (HostPoint.begin args).Holds m h entry v arr own)
    (ho : Owns h (v.resHost :: v.retHost :: (arr.toList ++ (own ++ others)))) :
    (HostPoint.begin args).Steps A m h now entry v others := by
  obtain ⟨hnone, a, hw⟩ := hp
  refine steps_look (.askHash args a) ho ?_ ⟨hnone, hw⟩
  rw [hostStep, (hw.read ho).1]
  rfl

theorem steps_askHash (hm : m.Returns) (hname : entry.domainName.isSome = true)
    (hp : (HostPoint.askHash args a).Holds m h entry v arr own)
    (ho : Owns h (v.resHost :: v.retHost :: (arr.toList ++ (own ++ others)))) :
    (HostPoint.askHash args a).Steps A m h now entry v others := by
  obtain ⟨rfl, hw⟩ := hp
  obtain ⟨name, hn⟩ := Option.isSome_iff_exists.1 hname
  have hread := (hw.read ho).2
  rcases hostQuery_cases hm hn with ⟨hhash, hh, hq⟩ | ⟨head, list, hhash, hlist, hh, hq⟩
  · have hans : HostAnswered m h entry none 0 :=
      ⟨hh.symm, absurd rfl, fun _ => 0, [], hq _, fun hlt => absurd hlt (lt_irrefl 0)⟩
    refine steps_look (.store args a 0) ho ?_ ⟨hw, hans⟩
    rw [hostStep, hread]
    simp only [heap_bind, hn, deref, lift_ok rfl, hhash]
    rfl
  · refine steps_look (.make args a list) ho ?_ ⟨rfl, hw, hh, fun _ => 0, fun clk _ => hq clk⟩
    rw [hostStep, hread]
    simp only [heap_bind, hn, deref, lift_ok rfl, hhash, hlist]
    rfl

theorem steps_make (hp : (HostPoint.make args a list).Holds m h entry v arr own)
    (ho : Owns h (v.resHost :: v.retHost :: (arr.toList ++ (own ++ others)))) :
    (HostPoint.make args a list).Steps A m h now entry v others := by
  obtain ⟨rfl, hw, hh, hreach⟩ := hp
  obtain ⟨p, h₁, h₂, hmalloc, hwrite, ho₂, -, hp₂, hres, hval⟩ := ho.exists_malloc_write (a := v.resHost)
    List.mem_cons_self A (.records (List.replicate list.length zeroEntry)) fun p => .pointer (some p)
  obtain ⟨rfl, hargs, hentry, hdest, hnum, -⟩ := hw
  have hnd := ho.nodup
  simp only [Option.toList_none, List.nil_append, List.cons_append, List.nodup_cons, List.mem_cons, not_or] at hnd
  obtain ⟨-, hra, hre, hro⟩ := hnd.1
  have hkept : ∀ b ∈ args :: a.entry :: others, h₂.val b = h.val b := by
    intro b hb
    have hne : b ≠ v.resHost := by
      rintro rfl
      simp only [List.mem_cons] at hb
      exact hb.elim hra fun hb => hb.elim hre hro
    exact hval b (List.mem_cons_of_mem _ (List.mem_cons_of_mem _ hb)) hne
  refine ⟨h₂, .walk args a 0 list 0, some p, [args, a.entry], ?_, ⟨⟨rfl, ?_, ?_, hdest, hnum, hres⟩, hh, [], rfl,
    ⟨p, List.replicate list.length zeroEntry, rfl, ?_, by rw [List.length_replicate]⟩, hreach⟩, ho₂.perm ?_,
    fun b hb => hkept b (by simp [hb])⟩
  · rw [hostStep, hmalloc]
    simp only [hdest, onHeap_ok hwrite]
    rfl
  · rw [hkept args (by simp), hargs]
  · rw [hkept a.entry (by simp), hentry]
  · rw [List.nil_append, hp₂]
  · exact (List.Perm.swap ..).trans ((List.Perm.swap ..).cons _)

theorem steps_walk (hm : m.Returns) (hname : entry.domainName.isSome = true)
    (hp : (HostPoint.walk args a k list num).Holds m h entry v arr own)
    (ho : Owns h (v.resHost :: v.retHost :: (arr.toList ++ (own ++ others)))) :
    (HostPoint.walk args a k list num).Steps A m h now entry v others := by
  obtain ⟨hw, hh, res, rfl, harr, hreach⟩ := hp
  have hmade : arr.isSome = hosted m entry ∧ ∀ ret : Int, ret ≠ 0 → arr ≠ none := by
    obtain ⟨p, rest, rfl, -⟩ := harr
    exact ⟨hh.symm, fun _ _ => Option.some_ne_none p⟩
  obtain ⟨clk, r, hq, hr⟩ := hreach.ok hm hname
  cases list with
  | nil =>
    refine steps_look (.store args a res.length) ho rfl ⟨hw, hmade.1, hmade.2 _, clk, res, hq, fun _ => harr⟩
  | cons temp list =>
    obtain ⟨blocked, hb, hwalk⟩ := stops_ok hr
    have hroom : ArrayAt h arr res (list.length + 1) := harr
    have hstep : hostStep A m h now (.walk args a k (temp :: list) res.length) =
        if blocked then .ok (h, .store args a (-1))
        else if temp.type = entry.type then .ok (h, .copy args a k temp list res.length)
        else .ok (h, .walk args a (k + 1) list res.length) := by
      rw [hostStep, (hw.read ho).2, heap_bind, stops_lift hb]
      rfl
    cases blocked with
    | true =>
      refine steps_look (.store args a (-1)) ho hstep ⟨hw, hmade.1, hmade.2 _, clk, res, ?_, fun hlt => ?_⟩
      · rw [hq, hwalk]
        rfl
      · exact absurd hlt (by decide)
    | false =>
      by_cases ht : temp.type = entry.type
      · refine steps_look (.copy args a k temp list res.length) ho ?_ ⟨hw, hh, res, rfl, hroom, ?_⟩
        · rw [hstep, if_neg Bool.false_ne_true, if_pos ht]
        · refine hreach.imp fun clk => ?_
          rw [hwalk, if_neg Bool.false_ne_true, if_pos ht]
      · refine steps_look (.walk args a (k + 1) list res.length) ho ?_ ⟨hw, hh, res, rfl, ?_, ?_⟩
        · rw [hstep, if_neg Bool.false_ne_true, if_neg ht]
        · obtain ⟨p, rest, hp, hval, hlen⟩ := hroom
          exact ⟨p, rest, hp, hval, Nat.le_of_succ_le hlen⟩
        · refine hreach.tick (clk k) fun clk _ => ?_
          rw [hwalk, if_neg Bool.false_ne_true, if_neg ht]

/-- The array behind `*result`. -/
theorem Working.array (hw : Working h entry v (some p₀) own args a) {l : List DNSEntry} (hl : h.val p₀ = .records l)
    (ho : Owns h (v.resHost :: v.retHost :: ([p₀] ++ (own ++ others)))) : resultArray h a = .ok (p₀, l) := by
  unfold resultArray
  rw [hw.dest, cellAs_ok ho (by simp) (by rw [hw.result]; rfl)]
  simp only [heap_bind, deref, lift_ok rfl]
  rw [cellAs_ok ho (by simp) (by rw [hl]; rfl)]
  rfl

/-- The array is written. -/
theorem steps_array (p' : HostPoint) (hw : Working h entry v (some p₀) own args a)
    (ho : Owns h (v.resHost :: v.retHost :: ([p₀] ++ (own ++ others)))) (l : List DNSEntry)
    (hstep : hostStep A m h now p = (do
      let h ← onHeap (h.write p₀ (.records l))
      return (h, p')))
    (hp' : ∀ h', Working h' entry v (some p₀) own args a → h'.val p₀ = .records l →
      p'.Holds m h' entry v (some p₀) own) : p.Steps A m h now entry v others := by
  obtain ⟨h', hwrite, ho', hval, hkept⟩ := ho.exists_write (a := p₀) (by simp) (.records l)
  have hnd := ho.nodup
  simp only [List.singleton_append, List.nodup_cons, List.mem_cons, List.mem_append, not_or] at hnd
  obtain ⟨⟨-, hpr, -⟩, -, ⟨hown, hothers⟩, -⟩ := hnd
  have hne : ∀ {b : Nat} {l : List Nat}, p₀ ∉ l → b ∈ l → b ≠ p₀ := fun hl hb he => hl (he ▸ hb)
  refine ⟨h', p', some p₀, own, ?_, hp' h' (hw.congr (fun b hb => hkept b (hne hown hb)) (hkept _ hpr)) hval, ho',
    fun b hb => hkept b (hne hothers hb)⟩
  rw [hstep, onHeap_ok hwrite]
  rfl

theorem steps_copy (hp : (HostPoint.copy args a k temp list num).Holds m h entry v arr own)
    (ho : Owns h (v.resHost :: v.retHost :: (arr.toList ++ (own ++ others)))) :
    (HostPoint.copy args a k temp list num).Steps A m h now entry v others := by
  obtain ⟨hw, hh, res, rfl, ⟨p₀, rest, rfl, hval, hroom⟩, hreach⟩ := hp
  obtain ⟨z, rest, rfl⟩ : ∃ z rest', rest = z :: rest' := List.exists_cons_of_length_pos (by omega)
  refine steps_array (.stamp args a k list res.length) hw ho (res ++ temp :: rest) ?_ fun h' hw' hval' => ?_
  · rw [hostStep, hw.array hval ho, heap_bind]
    simp only [List.length_append, List.length_cons, List.set_append_right _ _ (Nat.le_refl _), Nat.sub_self,
      List.set_cons_zero]
    rw [if_pos (by omega)]
  · refine ⟨hw', hh, res, temp, rfl, ⟨p₀, rest, rfl, ?_, Nat.le_of_succ_le_succ hroom⟩, hreach⟩
    rw [hval', List.append_assoc]
    rfl

theorem steps_stamp (hp : (HostPoint.stamp args a k list num).Holds m h entry v arr own)
    (ho : Owns h (v.resHost :: v.retHost :: (arr.toList ++ (own ++ others)))) :
    (HostPoint.stamp args a k list num).Steps A m h now entry v others := by
  obtain ⟨hw, hh, res, temp, rfl, ⟨p₀, rest, rfl, hval, hroom⟩, hreach⟩ := hp
  refine steps_array (.walk args a (k + 1) list (res.length + 1)) hw ho
    (res ++ [{ temp with timestamp := now + 0x80 }] ++ rest) ?_ fun h' hw' hval' => ?_
  · rw [hostStep, hw.array hval ho, heap_bind]
    have hmod : (res ++ [temp] ++ rest).modify res.length (fun e => { e with timestamp := now + 0x80 }) =
        res ++ [{ temp with timestamp := now + 0x80 }] ++ rest := by
      rw [List.append_assoc, List.modify_eq_set_getElem?, List.getElem?_append_right (Nat.le_refl _), Nat.sub_self]
      show (res ++ ([temp] ++ rest)).set res.length _ = _
      rw [List.set_append_right _ _ (Nat.le_refl _), Nat.sub_self, List.append_assoc]
      rfl
    simp only [hmod]
  · refine ⟨hw', hh, res ++ [{ temp with timestamp := now + 0x80 }], by simp, ⟨p₀, rest, rfl, hval', hroom⟩, ?_⟩
    refine hreach.tick now fun clk hclk => ?_
    rw [hclk]

theorem steps_store {ret : Int} (hp : (HostPoint.store args a ret).Holds m h entry v arr own)
    (ho : Owns h (v.resHost :: v.retHost :: (arr.toList ++ (own ++ others)))) :
    (HostPoint.store args a ret).Steps A m h now entry v others := by
  obtain ⟨hw, hans⟩ := hp
  obtain ⟨h', hwrite, ho', hval, hkept⟩ := ho.exists_write (a := v.retHost) (by simp) (.number ret)
  have hnd := ho.nodup
  simp only [List.nodup_cons, List.mem_cons, List.mem_append, not_or] at hnd
  obtain ⟨⟨hne, -⟩, ⟨harr, -, hothers⟩, -⟩ := hnd
  refine ⟨h', .clean args a, arr, own, ?_, ⟨hw.own, ?_, ret, hval, hans.congr fun b hb => hkept b ?_⟩, ho',
    fun b hb => hkept b fun he => hothers (he ▸ hb)⟩
  · rw [hostStep, hw.num, onHeap_ok hwrite]
    rfl
  · rw [hkept _ hne, hw.result]
  · rintro rfl
    exact harr (by simpa using hb)

/-- The thread releases what is left. -/
theorem clean_ok (A : Allocator) (m : HostMap) (now : Nat) (front : List Nat)
    (ho : Owns h (front ++ ([args, a.entry] ++ others))) : ∃ h',
    hostStep A m h now (.clean args a) = .ok (h', .done) ∧ Owns h' (front ++ others) ∧ h'.val = h.val := by
  obtain ⟨h₁, hf₁, ho₁, hv₁⟩ :=
    (ho.perm ((List.perm_append_comm_assoc front [args, a.entry] others).trans (.swap ..))).exists_free
  obtain ⟨h₂, hf₂, ho₂, hv₂⟩ := ho₁.exists_free
  refine ⟨h₂, ?_, ho₂, hv₂.trans hv₁⟩
  rw [hostStep, onHeap_ok hf₁, heap_bind, onHeap_ok hf₂]
  rfl

theorem steps_clean (hp : (HostPoint.clean args a).Holds m h entry v arr own)
    (ho : Owns h (v.resHost :: v.retHost :: (arr.toList ++ (own ++ others)))) :
    (HostPoint.clean args a).Steps A m h now entry v others := by
  obtain ⟨rfl, hres, ret, hret, hans⟩ := hp
  obtain ⟨h', hstep, ho', hval⟩ := clean_ok A m now (v.resHost :: v.retHost :: arr.toList) ho
  refine ⟨h', .done, arr, [], hstep, ⟨rfl, ?_, ret, ?_, hans.congr fun b _ => ?_⟩, ho', fun b _ => ?_⟩
  · rw [hval, hres]
  · rw [hval, hret]
  · rw [hval]
  · rw [hval]

/-- Whatever the thread does next, it goes through. -/
theorem host_steps (A : Allocator) (now : Nat) (hm : m.Returns) (hname : entry.domainName.isSome = true)
    (hp : p.Holds m h entry v arr own)
    (ho : Owns h (v.resHost :: v.retHost :: (arr.toList ++ (own ++ others)))) : p.Steps A m h now entry v others := by
  cases p with
  | idle => exact hp.elim
  | begin args => exact steps_begin hp ho
  | askHash args a => exact steps_askHash hm hname hp ho
  | make args a list => exact steps_make hp ho
  | walk args a k list num => exact steps_walk hm hname hp ho
  | copy args a k temp list num => exact steps_copy hp ho
  | stamp args a k list num => exact steps_stamp hp ho
  | store args a ret => exact steps_store hp ho
  | clean args a => exact steps_clean hp ho
  | done => exact steps_look .done ho rfl hp

theorem Search.Alive.host (A : Allocator) (now : Nat) {front : List Nat} (hm : m.Returns)
    (hname : s.entry.domainName.isSome = true) (hs : s.Alive m h own v front) (ho : Owns h (own ++ rest)) :
    ∃ h' p' own', hostStep A m h now s.host = .ok (h', p') ∧
      Search.Alive m h' own' { s with host := p' } v front ∧ Owns h' (own' ++ rest) ∧
      ∀ b ∈ front ++ rest, h'.val b = h.val b := by
  obtain ⟨arr, hown, rfl, hp⟩ := hs
  have hperm : ∀ (arr : Option Nat) hown, (v.resHost :: v.retHost :: (front ++ (arr.toList ++ hown)) ++ rest).Perm
      (v.resHost :: v.retHost :: (arr.toList ++ (hown ++ (front ++ rest)))) := by
    intro arr hown
    have hmove := List.perm_append_comm_assoc front (arr.toList ++ hown) rest
    rw [← List.append_assoc front, List.append_assoc arr.toList] at hmove
    exact (hmove.cons _).cons _
  obtain ⟨h', p', arr', own', hstep, hp', ho', hkept⟩ :=
    host_steps A now hm hname hp (ho.perm (hperm arr hown))
  exact ⟨h', p', _, hstep, ⟨arr', own', rfl, hp'⟩, ho'.perm (hperm arr' own').symm, hkept⟩

theorem Search.Gone.host (A : Allocator) (now : Nat) {front : List Nat} (hs : s.Gone m own front)
    (ho : Owns h (own ++ rest)) :
    ∃ h' p' own', hostStep A m h now s.host = .ok (h', p') ∧ Search.Gone m own' { s with host := p' } front ∧
      Owns h' (own' ++ rest) ∧ h'.val = h.val := by
  obtain ⟨entry, found, main, host⟩ := s
  obtain ⟨arr, hown, rfl, hp⟩ := hs
  cases host with
  | clean args a =>
    obtain ⟨rfl, harr⟩ := hp
    rw [List.append_assoc, List.append_assoc, ← List.append_assoc front] at ho
    obtain ⟨h', hstep, ho', hval⟩ := clean_ok A m now _ ho
    refine ⟨h', .done, _, hstep, ⟨arr, [], rfl, rfl, harr⟩, ?_, hval⟩
    rwa [List.append_nil]
  | done => exact ⟨h, .done, _, rfl, ⟨arr, hown, rfl, hp⟩, ho, rfl⟩
  | _ => exact hp.elim

/-- The thread of a search runs. -/
theorem Search.Rep.host (A : Allocator) (now : Nat) (hm : m.Returns) (hs : s.Rep m h own) (ho : Owns h (own ++ rest)) :
    ∃ h' p', hostStep A m h now s.host = .ok (h', p') ∧
      Leaves (Search.Rep m) h h' { s with host := p' } rest := by
  obtain ⟨hname, hs⟩ := hs
  have halive : ∀ {v front}, s.Alive m h own v front → (∀ h' p' own', (∀ b ∈ front, h'.val b = h.val b) →
      Search.Alive m h' own' { s with host := p' } v front → s.main.Rep m h' own' { s with host := p' }) →
      ∃ h' p', hostStep A m h now s.host = .ok (h', p') ∧
        Leaves (Search.Rep m) h h' { s with host := p' } rest := by
    intro v front hs hback
    obtain ⟨h', p', own', hstep, hs', ho', hkept⟩ := hs.host A now hm hname ho
    exact ⟨h', p', hstep, ⟨own', ⟨hname, hback h' p' own' (fun b hb => hkept b (List.mem_append_left _ hb)) hs'⟩, ho'⟩,
      fun b hb => hkept b (List.mem_append_right _ hb)⟩
  have hgone : ∀ {front}, s.Gone m own front → (∀ h' p' own', h'.val = h.val →
      Search.Gone m own' { s with host := p' } front → s.main.Rep m h' own' { s with host := p' }) →
      ∃ h' p', hostStep A m h now s.host = .ok (h', p') ∧
        Leaves (Search.Rep m) h h' { s with host := p' } rest := by
    intro front hs hback
    obtain ⟨h', p', own', hstep, hs', ho', hval⟩ := hs.host A now ho
    exact ⟨h', p', hstep, ⟨own', ⟨hname, hback h' p' own' hval hs'⟩, ho'⟩, fun b _ => by rw [hval]⟩
  have hstill : ∀ {p}, s.host = p → hostStep A m h now p = .ok (h, p) →
      ∃ h' p', hostStep A m h now s.host = .ok (h', p') ∧
        Leaves (Search.Rep m) h h' { s with host := p' } rest := by
    rintro p rfl hstep
    exact ⟨h, s.host, hstep, ⟨own, ⟨hname, hs⟩, ho⟩, fun _ _ => rfl⟩
  obtain ⟨entry, found, main, host⟩ := s
  cases main with
  | start => exact hstill hs.2 rfl
  | askCache v => exact halive hs.1 fun h' p' own' hv hs' => ⟨hs', (hv _ (by simp)).trans hs.2⟩
  | join v =>
    obtain ⟨hf, resCache, hs⟩ := hs
    exact halive hs fun h' p' own' _ hs' => ⟨hf, resCache, hs'⟩
  | stop v resCache retCache =>
    exact halive hs.1 fun h' p' own' hv hs' => ⟨hs', Hit.congr (s := ⟨entry, found, _, p'⟩) hs.2 (hv _ (by simp))⟩
  | leave v result ret cached =>
    cases cached with
    | true =>
      obtain ⟨p, hp, hs, hhit⟩ := hs
      exact halive hs fun h' p' own' hv hs' =>
        ⟨p, hp, hs', Hit.congr (s := ⟨entry, found, _, p'⟩) hhit (hv _ (by simp))⟩
    | false => exact hstill hs.2.1 rfl
  | take result ret cached =>
    cases cached with
    | true =>
      obtain ⟨p, flag, hp, hs, hhit⟩ := hs
      exact hgone hs fun h' p' own' hv hs' =>
        ⟨p, flag, hp, hs', Hit.congr (s := ⟨entry, found, _, p'⟩) hhit (by rw [hv])⟩
    | false => exact hstill hs.2.1 rfl
  | done ret result cached =>
    cases cached with
    | true =>
      obtain ⟨⟨flag, hs⟩, hrest⟩ := hs
      exact hgone hs fun h' p' own' _ hs' => ⟨⟨flag, hs'⟩, hrest⟩
    | false => exact hstill hs.2.1 rfl

end

/-! ### Steps of the search -/

theorem hostWalk_ret {entry : DNSEntry} {clk : Nat → Nat} {k : Nat} {list res res' : List DNSEntry} {ret : Int}
    (h : hostWalk clk entry k list res = .ok (ret, res')) : ret = res'.length ∨ ret = -1 := by
  induction list generalizing k res with
  | nil =>
    cases h
    exact .inl rfl
  | cons temp list ih =>
    rw [hostWalk_cons] at h
    obtain ⟨blocked, -, h⟩ := Exec.bind_ok.1 h
    cases blocked with
    | true =>
      cases h
      exact .inr rfl
    | false => exact ih h

theorem hostQuery_ret {m : HostMap} {entry : DNSEntry} {clk : Nat → Nat} {res : List DNSEntry} {ret : Int}
    (hm : m.Returns) (hname : entry.domainName.isSome = true) (h : hostQuery clk m entry = .ok (ret, res)) :
    ret = res.length ∨ ret = -1 := by
  obtain ⟨name, hn⟩ := Option.isSome_iff_exists.1 hname
  rcases hostQuery_cases hm hn with ⟨-, -, hq⟩ | ⟨-, list, -, -, -, hq⟩
  · rw [hq] at h
    cases h
    exact .inl rfl
  · rw [hq] at h
    exact hostWalk_ret h

section
variable {m : HostMap} {h : Heap LookupCell} {entry : DNSEntry} {v : Vars} {own rest : List Nat} {s : Search}
  {found : List DNSEntry} {found₀ : Option (List DNSEntry)} {host : HostPoint} {A : Allocator} {ret : Int}
  {result : Option Nat}

/-- What the next step of a search comes to, the blocks of the others being `rest`. -/
def Search.Steps (A : Allocator) (m : HostMap) (h : Heap LookupCell) (found : List DNSEntry) (rest : List Nat)
    (s : Search) : Prop :=
  ∃ h' s', searchStep A h s found = .ok (h', s') ∧ Leaves (Search.Rep m) h h' s' rest

theorem steps_start (hname : entry.domainName.isSome = true) (ho : Owns h rest) :
    Search.Steps A m h found rest ⟨entry, found₀, .start, .idle⟩ := by
  obtain ⟨resHost, h₁, e₁, ho₁, v₁, k₁⟩ := ho.exists_malloc A (.pointer none)
  obtain ⟨retHost, h₂, e₂, ho₂, v₂, k₂⟩ := ho₁.exists_malloc A (.number 0)
  obtain ⟨entryCache, h₃, e₃, ho₃, v₃, k₃⟩ := ho₂.exists_malloc A (.entry entry)
  obtain ⟨entryHost, h₄, e₄, ho₄, v₄, k₄⟩ := ho₃.exists_malloc A (.entry entry)
  obtain ⟨flag, h₅, e₅, ho₅, v₅, k₅⟩ := ho₄.exists_malloc A (.number 1)
  obtain ⟨args, h₆, e₆, ho₆, v₆, k₆⟩ := ho₅.exists_malloc A (.args ⟨entryHost, resHost, retHost, flag⟩)
  have hkept : ∀ b ∈ rest, h₆.val b = h.val b := by
    intro b hb
    rw [k₆ b (by simp [hb]), k₅ b (by simp [hb]), k₄ b (by simp [hb]), k₃ b (by simp [hb]), k₂ b (by simp [hb]),
      k₁ b hb]
  have hresHost : h₆.val resHost = .pointer none := by
    rw [k₆ _ (by simp), k₅ _ (by simp), k₄ _ (by simp), k₃ _ (by simp), k₂ _ (by simp), v₁]
  have hcache : h₆.val entryCache = .entry entry := by
    rw [k₆ _ (by simp), k₅ _ (by simp), k₄ _ (by simp), v₃]
  have hentry : h₆.val entryHost = .entry entry := by
    rw [k₆ _ (by simp), k₅ _ (by simp), v₄]
  have hperm : [args, flag, entryHost, entryCache, retHost, resHost].Perm
      [resHost, retHost, entryCache, flag, args, entryHost] :=
    (List.reverse_perm [resHost, retHost, entryCache, entryHost, flag, args]).trans
      ((((List.perm_append_comm : ([entryHost] ++ [flag, args]).Perm _).cons entryCache).cons retHost).cons resHost)
  refine ⟨h₆, ⟨entry, found₀, .askCache ⟨resHost, retHost, entryCache, flag⟩, .begin args⟩, ?_,
    ⟨_, ⟨hname, ⟨none, [args, entryHost], rfl, rfl, ⟨entryHost, resHost, retHost, flag⟩,
      rfl, v₆, hentry, rfl, rfl, hresHost⟩, hcache⟩, ho₆.perm (hperm.append_right rest)⟩, hkept⟩
  simp only [searchStep, e₁, e₂, e₃, e₄, e₅, e₆]

theorem steps_askCache (hs : Search.Rep m h own ⟨entry, found₀, .askCache v, host⟩) (ho : Owns h (own ++ rest)) :
    Search.Steps A m h found rest ⟨entry, found₀, .askCache v, host⟩ := by
  obtain ⟨hname, ⟨arr, hown, rfl, hp⟩, hcache⟩ := hs
  obtain ⟨resCache, h', hmalloc, ho', hval, hkept⟩ := ho.exists_malloc A (.records found)
  have hread : cellAs LookupCell.entry? h v.entryCache = .ok entry := cellAs_ok ho (by simp) (by rw [hcache]; rfl)
  have hp' : host.Holds m h' entry v arr hown := by
    refine hp.congr (fun b hb => hkept b ?_) (fun b hb => hkept b ?_) (hkept _ ?_) (hkept _ ?_) <;> simp_all
  have hown' : ∀ b ∈ rest, h'.val b = h.val b := fun b hb => hkept b (by simp [hb])
  have hperm : Owns h'
      (v.resHost :: v.retHost :: ([v.entryCache, v.hostFlag, resCache] ++ (arr.toList ++ hown)) ++ rest) :=
    ho'.perm (@List.perm_middle _ resCache [v.resHost, v.retHost, v.entryCache, v.hostFlag] _).symm
  obtain rfl | hf := eq_or_ne found []
  · refine ⟨h', ⟨entry, some [], .join v, host⟩, ?_, ⟨_, ⟨hname, rfl, resCache, arr, hown, rfl, hp'⟩, hperm⟩, hown'⟩
    simp only [searchStep, hread, heap_bind, hmalloc, List.length_nil, if_true]
    rfl
  · refine ⟨h', ⟨entry, some found, .stop v resCache found.length, host⟩, ?_,
      ⟨_, ⟨hname, ⟨arr, hown, rfl, hp'⟩, found, rfl, hf, rfl, hval⟩, hperm⟩, hown'⟩
    simp only [searchStep, hread, heap_bind, hmalloc, List.length_eq_zero_iff, if_neg hf]
    rfl

theorem steps_join (hs : Search.Rep m h own ⟨entry, found₀, .join v, host⟩) (ho : Owns h (own ++ rest)) :
    Search.Steps A m h found rest ⟨entry, found₀, .join v, host⟩ := by
  have hwait : searchStep A h ⟨entry, found₀, .join v, host⟩ found = .ok (h, ⟨entry, found₀, .join v, host⟩) →
      Search.Steps A m h found rest ⟨entry, found₀, .join v, host⟩ :=
    fun hstep => ⟨h, _, hstep, ⟨own, hs, ho⟩, fun _ _ => rfl⟩
  cases host with
  | done =>
    obtain ⟨hname, hf, resCache, arr, hown, rfl, rfl, hres, ret, hret, hans⟩ := hs
    have hnum : cellAs LookupCell.number? h v.retHost = .ok ret := cellAs_ok ho (by simp) (by rw [hret]; rfl)
    have hpointer : cellAs LookupCell.pointer? h v.resHost = .ok arr := cellAs_ok ho (by simp) (by rw [hres]; rfl)
    refine ⟨h, ⟨entry, found₀, .leave v (if ret ≠ 0 then arr else none) ret false, .done⟩, ?_,
      ⟨_, ⟨hname, hf, rfl, arr, resCache, rfl, rfl, hans⟩, ?_⟩, fun _ _ => rfl⟩
    · simp only [searchStep, hnum, heap_bind, hpointer]
      split <;> rfl
    · rwa [List.append_nil] at ho
  | _ => exact hwait rfl

theorem steps_stop {resCache retCache : Nat} (hs : Search.Rep m h own ⟨entry, found₀, .stop v resCache retCache, host⟩)
    (ho : Owns h (own ++ rest)) : Search.Steps A m h found rest ⟨entry, found₀, .stop v resCache retCache, host⟩ := by
  obtain ⟨hname, ⟨arr, hown, rfl, hp⟩, hhit⟩ := hs
  obtain ⟨h', hwrite, ho', -, hkept⟩ := ho.exists_write (a := v.hostFlag) (by simp) (.number 0)
  have hnd := ho.nodup
  simp only [List.cons_append, List.nil_append, List.append_assoc, List.nodup_cons, List.mem_cons, List.mem_append,
    not_or] at hnd
  obtain ⟨⟨-, -, hres, -⟩, ⟨-, hret, -⟩, -, ⟨hcache, harr, hhown, hrest⟩, -⟩ := hnd
  refine ⟨h', ⟨entry, found₀, .leave v (some resCache) retCache true, host⟩, ?_,
    ⟨_, ⟨hname, resCache, rfl, ⟨arr, hown, rfl, ?_⟩, hhit.congr (hkept _ (Ne.symm hcache))⟩, ho'⟩,
    fun b hb => hkept b fun he => hrest (he ▸ hb)⟩
  · simp only [searchStep, onHeap_ok hwrite]
    rfl
  · refine hp.congr (fun b hb => hkept b fun he => hhown (he ▸ hb)) (fun b hb => hkept b ?_) (hkept _ hres)
      (hkept _ hret)
    rintro rfl
    exact harr (by simpa using hb)

/-- The frame of the call goes, and the entry for the cache. -/
theorem leave_ok (A : Allocator) (s : Search) (found : List DNSEntry) (cached : Bool) {l : List Nat}
    (hs : s.main = .leave v result ret cached) (ho : Owns h (v.resHost :: v.retHost :: v.entryCache :: l)) :
    ∃ h', searchStep A h s found = .ok (h', { s with main := .take result ret cached }) ∧ Owns h' l ∧
      h'.val = h.val := by
  obtain ⟨h₁, hf₁, ho₁, hv₁⟩ :=
    (ho.perm ((@List.perm_middle _ v.entryCache [v.resHost, v.retHost] l))).exists_free
  obtain ⟨h₂, hf₂, ho₂, hv₂⟩ := ho₁.exists_free
  obtain ⟨h₃, hf₃, ho₃, hv₃⟩ := ho₂.exists_free
  refine ⟨h₃, ?_, ho₃, hv₃.trans (hv₂.trans hv₁)⟩
  simp only [searchStep, hs, onHeap_ok hf₁, onHeap_ok hf₂, onHeap_ok hf₃, heap_bind]
  rfl

theorem HostPoint.Holds.left {arr : Option Nat} (hp : host.Holds m h entry v arr own) (hw : host.written = true) :
    host.Left m entry arr own := by
  cases host with
  | clean args a =>
    obtain ⟨rfl, -, ret, -, hans⟩ := hp
    exact ⟨rfl, hans.array⟩
  | done =>
    obtain ⟨rfl, -, ret, -, hans⟩ := hp
    exact ⟨rfl, hans.array⟩
  | _ => cases hw

theorem steps_leave {cached : Bool} (hs : Search.Rep m h own ⟨entry, found₀, .leave v result ret cached, host⟩)
    (ho : Owns h (own ++ rest)) (hw : host.written = true) :
    Search.Steps A m h found rest ⟨entry, found₀, .leave v result ret cached, host⟩ := by
  cases cached with
  | true =>
    obtain ⟨hname, p, rfl, ⟨arr, hown, rfl, hp⟩, hhit⟩ := hs
    obtain ⟨h', hstep, ho', hval⟩ := leave_ok A ⟨entry, found₀, _, host⟩ found true rfl ho
    refine ⟨h', _, hstep, ⟨_, ⟨hname, p, v.hostFlag, rfl, ⟨arr, hown, rfl, hp.left hw⟩, ?_⟩, ho'.perm (.swap ..)⟩, ?_⟩
    · exact Hit.congr (s := ⟨entry, found₀, _, host⟩) hhit (by rw [hval])
    · exact fun b _ => by rw [hval]
  | false =>
    obtain ⟨hname, hf, rfl, arr, resCache, rfl, hres, hans⟩ := hs
    obtain ⟨h', hstep, ho', hval⟩ := leave_ok A ⟨entry, found₀, _, .done⟩ found false rfl ho
    exact ⟨h', _, hstep, ⟨_, ⟨hname, hf, rfl, arr, v.hostFlag, resCache, rfl, hres, hans.congr fun b _ => by rw [hval]⟩,
      ho'⟩, fun b _ => by rw [hval]⟩

theorem steps_take {cached : Bool} (hm : m.Returns)
    (hs : Search.Rep m h own ⟨entry, found₀, .take result ret cached, host⟩) (ho : Owns h (own ++ rest)) :
    Search.Steps A m h found rest ⟨entry, found₀, .take result ret cached, host⟩ := by
  cases cached with
  | true =>
    obtain ⟨hname, p, flag, rfl, ⟨arr, hown, rfl, hp⟩, l, hf, hne, rfl, hval⟩ := hs
    have hread : cellAs LookupCell.records? h p = .ok l := cellAs_ok ho (by simp) (by rw [hval]; rfl)
    obtain ⟨h', hfree, ho', hv⟩ := ho.exists_free
    have hpos : (0 : Int) < l.length := by
      have := List.length_pos_iff.2 hne
      omega
    refine ⟨h', ⟨entry, found₀, .done l.length l true, host⟩, ?_,
      ⟨_, ⟨hname, ⟨flag, arr, hown, rfl, hp⟩, hne, hf, rfl⟩, ho'⟩, fun b _ => by rw [hv]⟩
    simp only [searchStep, if_pos hpos, deref, lift_ok rfl, heap_bind, hread, onHeap_ok hfree, Int.toNat_natCast,
      List.take_length, lt_irrefl, if_false]
    rfl
  | false =>
    obtain ⟨hname, hf, rfl, arr, flag, resCache, rfl, rfl, hans⟩ := hs
    obtain ⟨clk, res, hq, harr⟩ := hans.answer
    have hrest : ∀ (h' : Heap LookupCell) (own' : List Nat) (l : List DNSEntry), (∀ b, h'.val b = h.val b) →
        own'.length = 2 + (if ret = 0 then (hosted m entry).toNat else 0) →
        Owns h' (own' ++ rest) → l.take ret.toNat = res.take ret.toNat →
        searchStep A h ⟨entry, found₀, .take (if ret ≠ 0 then arr else none) ret false, .done⟩ found =
          .ok (h', ⟨entry, found₀, .done ret (l.take ret.toNat) false, .done⟩) →
        Search.Steps A m h found rest ⟨entry, found₀, .take (if ret ≠ 0 then arr else none) ret false, .done⟩ := by
      intro h' own' l hv hlen ho' hl hstep
      exact ⟨h', _, hstep, ⟨own', ⟨hname, hf, rfl, hlen, clk, res, hq, hl⟩, ho'⟩, fun b _ => hv b⟩
    by_cases hzero : ret = 0
    · subst hzero
      refine hrest h ([flag, resCache] ++ arr.toList) [] (fun _ => rfl) ?_ ho rfl rfl
      rw [← hans.array]
      cases arr <;> rfl
    · obtain ⟨p, rfl⟩ := Option.ne_none_iff_exists'.1 (hans.made hzero)
      obtain ⟨h', hfree, ho', hv⟩ := (ho.perm (@List.perm_middle _ p [flag, resCache] rest)).exists_free
      have hlen : [flag, resCache].length = 2 + (if ret = 0 then (hosted m entry).toNat else 0) := by
        rw [if_neg hzero]
        rfl
      by_cases hpos : 0 < ret
      · obtain ⟨p', tail, he, hval, -⟩ := harr hpos
        cases he
        have hret : ret = res.length := (hostQuery_ret hm hname hq).resolve_right (by omega)
        have hread : cellAs LookupCell.records? h p = .ok (res ++ tail) := cellAs_ok ho (by simp) (by rw [hval]; rfl)
        have hshort : ¬ ((res ++ tail).length : Int) < ret := by
          rw [hret, List.length_append]
          omega
        refine hrest h' _ (res ++ tail) (fun b => by rw [hv]) hlen ho' ?_ ?_
        · rw [hret, Int.toNat_natCast, List.take_length, List.take_left]
        · simp only [searchStep, if_pos hpos, if_pos hzero, deref, lift_ok rfl, heap_bind, hread, onHeap_ok hfree,
            if_neg hshort]
          rfl
      · have hneg : ¬ (([] : List DNSEntry).length : Int) < ret := by
          simpa using hpos
        have hnat : ret.toNat = 0 := by omega
        refine hrest h' _ [] (fun b => by rw [hv]) hlen ho' (by rw [hnat]; rfl) ?_
        simp only [searchStep, if_neg hpos, if_pos hzero, pure, Except.pure, heap_bind, onHeap_ok hfree, if_neg hneg]

/-- The search goes on. -/
theorem Search.Rep.main (A : Allocator) (found : List DNSEntry) (hm : m.Returns) (hs : s.Rep m h own)
    (ho : Owns h (own ++ rest)) (hw : ∀ v r n c, s.main = .leave v r n c → s.host.written = true) :
    s.Steps A m h found rest := by
  obtain ⟨entry, found₀, main, host⟩ := s
  cases main with
  | start =>
    obtain ⟨hname, rfl, rfl⟩ := hs
    exact steps_start hname ho
  | askCache v => exact steps_askCache hs ho
  | join v => exact steps_join hs ho
  | stop v resCache retCache => exact steps_stop hs ho
  | leave v result ret cached => exact steps_leave hs ho (hw _ _ _ _ rfl)
  | take result ret cached => exact steps_take hm hs ho
  | done ret result cached => exact ⟨h, _, rfl, ⟨own, hs, ho⟩, fun _ _ => rfl⟩

end

end DnsRelay
