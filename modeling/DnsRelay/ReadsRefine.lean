import DnsRelay.Reads

/-!
# The rounds of `packetParse` and its model

In memory that holds the datagram alone, `packetParse` goes along its rounds: if it has a result, the rounds come to
their end and read the datagram only; if it reads behind its memory, so does one of them. A run that ends with a write
outside a buffer or does not end says nothing about what the rounds behind it read.
-/

namespace DnsRelay
open ByteSeq Exec Relation

/-- `m` can be read in the memory. -/
def Memory.Shows (mem : Memory) (m : List UInt8) : Prop := ∀ p b, load m p = .ok b → mem p = b

namespace ParsePoint

/-- A round that reads the datagram only. -/
def Step (buf : Memory) (stack : Nat → Memory) (len : Nat) (x y : ParsePoint) : Prop :=
  x.next buf stack = some y ∧ ∀ o ∈ x.reads buf, 0 ≤ o ∧ o < (len : Int)

def Runs (buf : Memory) (stack : Nat → Memory) (len : Nat) : ParsePoint → ParsePoint → Prop :=
  ReflTransGen (Step buf stack len)

/-- The rounds from `x` on come to one that reads something else. -/
def Strays (buf : Memory) (stack : Nat → Memory) (len : Nat) (x : ParsePoint) : Prop :=
  ∃ y, Runs buf stack len x y ∧ ∃ o ∈ y.reads buf, ¬ (0 ≤ o ∧ o < (len : Int))

/-- The computation goes along the rounds from `x` on. -/
structure Traces {α : Type} (buf : Memory) (stack : Nat → Memory) (len : Nat) (x : ParsePoint) (e : Exec α) : Prop where
  ok : ∀ r, e = .ok r → Runs buf stack len x done
  read : e = .error .read → Strays buf stack len x

section
variable {α β : Type} {buf : Memory} {stack : Nat → Memory} {len : Nat} {x y : ParsePoint} {e : Exec α} {f : α → Exec β}

theorem Traces.runs (h : Traces buf stack len y e) (hxy : Runs buf stack len x y) : Traces buf stack len x e where
  ok r hr := ReflTransGen.trans hxy (h.ok r hr)
  read hr := by
    obtain ⟨z, hz, hout⟩ := h.read hr
    exact ⟨z, ReflTransGen.trans hxy hz, hout⟩

/-- The next round. -/
theorem Traces.round (hnext : x.next buf stack = some y)
    (hok : ∀ r, e = .ok r → ∀ o ∈ x.reads buf, 0 ≤ o ∧ o < (len : Int))
    (h : (∀ o ∈ x.reads buf, 0 ≤ o ∧ o < (len : Int)) → Traces buf stack len y e) : Traces buf stack len x e where
  ok r hr := ((h (hok r hr)).runs (.single ⟨hnext, hok r hr⟩)).ok r hr
  read hr := by
    by_cases hin : ∀ o ∈ x.reads buf, 0 ≤ o ∧ o < (len : Int)
    · exact ((h hin).runs (.single ⟨hnext, hin⟩)).read hr
    · push Not at hin
      obtain ⟨o, ho, hout⟩ := hin
      exact ⟨x, .refl, o, ho, fun h => absurd h.2 (not_lt.2 (hout h.1))⟩

/-- A round that reads nothing. -/
theorem Traces.quiet (hnext : x.next buf stack = some y) (hx : x.reads buf = []) (h : Traces buf stack len y e) :
    Traces buf stack len x e := by
  refine .round hnext ?_ fun _ => h
  rw [hx]
  exact fun _ _ o ho => absurd ho List.not_mem_nil

/-- A computation that fails. -/
theorem Traces.fails {g : Fault} (h : g = .read → Strays buf stack len x) :
    Traces buf stack len x (.error g : Exec α) where
  ok r hr := by cases hr
  read hr := h (Except.error.inj hr)

theorem Traces.bind {e : Exec α} (he : e ≠ .error .read) (h : ∀ a, e = .ok a → Traces buf stack len x (f a)) :
    Traces buf stack len x (e >>= f) := by
  cases e with
  | ok a => exact h a rfl
  | error g => exact .fails fun hg => absurd (congrArg Except.error hg) he

theorem Traces.return (he : e ≠ .error .read) : Traces buf stack len done e where
  ok _ _ := .refl
  read hr := absurd hr he

end

end ParsePoint

/-! ### Loads, stores and copies -/

section
variable {buf mem : Memory} {m : List UInt8} {p q : Int} {n : Nat} {b b' : Block} {v : UInt8} {x : UInt16}

theorem load_inside (h : load m p = .ok v) : 0 ≤ p ∧ p < m.length := by
  cases p with
  | ofNat k =>
    have hk := (List.getElem?_eq_some_iff.1 (load_ok (p := k).1 h)).1
    exact ⟨Int.natCast_nonneg k, Int.ofNat_lt.2 hk⟩
  | negSucc k => cases h

theorem load16_inside (h : load16 m p = .ok x) : 0 ≤ p ∧ p + 2 ≤ m.length := by
  obtain ⟨hi, hhi, h⟩ := bind_ok.1 h
  obtain ⟨lo, hlo, -⟩ := bind_ok.1 h
  have h₁ := load_inside hhi
  have h₂ := load_inside hlo
  omega

theorem store_ne_read : b.store p v ≠ .error .read := by
  rcases Nat.eq_zero_or_pos (room b.size p) with h0 | hpos
  · rw [Block.store_full v h0]
    nofun
  · obtain ⟨b', -, hb⟩ := Block.store_room (b := b) (p := p) v hpos
    rw [hb]
    nofun

theorem storeBytes_ne_read {xs : List UInt8} : b.storeBytes p xs ≠ .error .read := by
  induction xs generalizing b p with
  | nil => nofun
  | cons x xs ih =>
    rw [Block.storeBytes]
    cases h : b.store p x with
    | ok b' => exact ih
    | error e =>
      intro he
      cases he
      exact store_ne_read h

theorem copy_inside (h : b.copy p m q n = .ok b') : ∀ o ∈ span q n, 0 ≤ o ∧ o < (m.length : Int) := by
  induction n generalizing b p q with
  | zero => exact fun o ho => absurd ho List.not_mem_nil
  | succ n ih =>
    obtain ⟨v, hv, h⟩ := bind_ok.1 h
    obtain ⟨b₁, -, h⟩ := bind_ok.1 h
    intro o ho
    rw [mem_span] at ho
    rcases eq_or_ne o q with rfl | hne
    · exact load_inside hv
    · exact ih h o (mem_span.2 (by omega))

theorem store_length (h : b.store p v = .ok b') : b'.bytes.length = b.bytes.length := by
  obtain ⟨k, -, rfl⟩ := Block.store_ok h
  rw [Block.patch_bytes, length_patch]

theorem copy_length (h : b.copy p m q n = .ok b') : b'.bytes.length = b.bytes.length := by
  induction n generalizing b p q with
  | zero =>
    cases h
    rfl
  | succ n ih =>
    obtain ⟨v, -, h⟩ := bind_ok.1 h
    obtain ⟨b₁, hb₁, h⟩ := bind_ok.1 h
    rw [ih h, store_length hb₁]

theorem loadBytes_inside {bs : List UInt8} (h : loadBytes m q n = .ok bs) :
    ∀ o ∈ span q n, 0 ≤ o ∧ o < (m.length : Int) := by
  induction n generalizing q bs with
  | zero => exact fun o ho => absurd ho List.not_mem_nil
  | succ n ih =>
    obtain ⟨v, hv, h⟩ := bind_ok.1 h
    obtain ⟨bs', hbs, -⟩ := bind_ok.1 h
    intro o ho
    rw [mem_span] at ho
    rcases eq_or_ne o q with rfl | hne
    · exact load_inside hv
    · exact ih hbs o (mem_span.2 (by omega))

namespace Memory.Shows

theorem load_eq (h : buf.Shows m) (hp : 0 ≤ p ∧ p < m.length) : load m p = .ok (buf p) := by
  obtain ⟨k, rfl⟩ := Int.eq_ofNat_of_zero_le hp.1
  have hk := load_ok.2 (List.getElem?_eq_getElem (Int.ofNat_lt.1 hp.2))
  rw [hk, h k _ hk]

theorem load16_eq (h : buf.Shows m) (hp : 0 ≤ p ∧ p + 2 ≤ m.length) : load16 m p = .ok (buf.word p) := by
  rw [load16, h.load_eq ⟨hp.1, by omega⟩, ok_bind, h.load_eq ⟨by omega, by omega⟩]
  rfl

theorem word_eq (h : buf.Shows m) (hx : load16 m p = .ok x) : buf.word p = x := by
  rw [h.load16_eq (load16_inside hx)] at hx
  exact Except.ok.inj hx

theorem load16_outside (h : buf.Shows m) {f : Fault} (hx : load16 m p = .error f) :
    ¬ (0 ≤ p ∧ p + 2 ≤ (m.length : Int)) := by
  intro hin
  cases (h.load16_eq hin).symm.trans hx

theorem copy_ne_read (h : buf.Shows m) (hin : ∀ o ∈ span q n, 0 ≤ o ∧ o < (m.length : Int)) :
    b.copy p m q n ≠ .error .read := by
  induction n generalizing b p q with
  | zero => nofun
  | succ n ih =>
    rw [Block.copy, h.load_eq (hin q (mem_span.2 (by omega))), ok_bind]
    cases hs : b.store p (buf q) with
    | ok b₁ => exact ih fun o ho => hin o (by rw [mem_span] at ho ⊢; omega)
    | error e =>
      intro he
      cases he
      exact store_ne_read hs

theorem exists_loadBytes (h : buf.Shows m) (hin : ∀ o ∈ span q n, 0 ≤ o ∧ o < (m.length : Int)) :
    ∃ bs, loadBytes m q n = .ok bs := by
  induction n generalizing q with
  | zero => exact ⟨[], rfl⟩
  | succ n ih =>
    obtain ⟨bs, hbs⟩ := ih (q := q + 1) fun o ho => hin o (by rw [mem_span] at ho ⊢; omega)
    rw [loadBytes, h.load_eq (hin q (mem_span.2 (by omega))), ok_bind, hbs]
    exact ⟨_, rfl⟩

theorem store (h : mem.Shows b.bytes) (hs : b.store p v = .ok b') :
    Memory.Shows (Function.update mem p v) b'.bytes := by
  cases p with
  | negSucc k => cases hs
  | ofNat k =>
    obtain ⟨hk, rfl⟩ := Block.store_inv hs
    intro o w hw
    obtain ⟨j, rfl⟩ := Int.eq_ofNat_of_zero_le (load_inside hw).1
    have hw' : (b.bytes.set k v)[j]? = some w := load_ok.1 hw
    rcases eq_or_ne j k with rfl | hne
    · rw [List.getElem?_set_self (Nat.lt_of_lt_of_le hk b.size_le)] at hw'
      rw [← Option.some.inj hw']
      exact Function.update_self _ v mem
    · rw [List.getElem?_set_ne hne.symm] at hw'
      rw [← h j w (load_ok.2 hw')]
      exact Function.update_of_ne (fun he => hne (Int.ofNat.inj he)) v mem

theorem copy (h : mem.Shows b.bytes) (hm : buf.Shows m) (hc : b.copy p m q n = .ok b') :
    Memory.Shows (mem.copy p buf q n) b'.bytes := by
  induction n generalizing mem b p q with
  | zero =>
    cases hc
    intro o w hw
    rw [Memory.copy, if_neg (by omega)]
    exact h o w hw
  | succ n ih =>
    obtain ⟨v, hv, hc⟩ := bind_ok.1 hc
    obtain ⟨b₁, hb₁, hc⟩ := bind_ok.1 hc
    have hrest := ih (h.store hb₁) hc
    intro o w hw
    rw [← hrest o w hw]
    unfold Memory.copy
    by_cases hop : o = p
    · subst hop
      rw [if_pos (by omega), if_neg (by omega), Function.update_self, Int.sub_self, Int.add_zero, hm q v hv]
    · rw [Function.update_of_ne hop]
      by_cases ho : p + 1 ≤ o ∧ o < p + 1 + n
      · rw [if_pos ho, if_pos (by omega)]
        exact congrArg buf (by omega)
      · rw [if_neg ho, if_neg (by omega)]

end Memory.Shows

/-- The memory shows the block, which can be read `n` bytes far at least. -/
structure Memory.Holds (mem : Memory) (n : Nat) (b : Block) : Prop where
  shows : mem.Shows b.bytes
  length : n ≤ b.bytes.length

theorem Memory.Holds.store {k : Nat} (h : mem.Holds k b) (hs : b.store p v = .ok b') :
    Memory.Holds (Function.update mem p v) k b' :=
  ⟨h.shows.store hs, store_length hs ▸ h.length⟩

theorem Memory.Holds.copy {k : Nat} (h : mem.Holds k b) (hm : buf.Shows m) (hc : b.copy p m q n = .ok b') :
    (mem.copy p buf q n).Holds k b' :=
  ⟨h.shows.copy hm hc, copy_length hc ▸ h.length⟩

end

/-! ### The loops -/

namespace ParsePoint

section
variable {α : Type} {buf mem : Memory} {stack : Nat → Memory} {m src : List UInt8} {p q pos : Int} {s n i k : Nat}
  {x y : ParsePoint} {e : Exec α} {dest : Block}

/-- Rounds over labels, one after the other. -/
theorem runs_labels {P : Int → ParsePoint} (hsrc : mem.Shows src) (size : Nat)
    (hnext : ∀ p, mem (s + p) ≠ 0 → (P p).next buf stack = some (P (mem.nextLabel s p)))
    (hreads : ∀ p c, load src (s + p) = .ok c → c ≠ 0 → (labelLen c).toNat ≤ src.length - (s + p + 1).toNat →
      ∀ o ∈ (P p).reads buf, 0 ≤ o ∧ o < (n : Int))
    (h : ReflTransGen (LabelStep src s size) p q) : Runs buf stack n (P p) (P q) := by
  induction h with
  | refl => exact .refl
  | @tail a b _ hstep ih =>
    obtain ⟨hc, h0, hmem, -, -⟩ := hstep
    have hcell := hsrc _ _ hc
    refine ih.tail ⟨?_, hreads a _ hc h0 hmem⟩
    rw [hnext a (by rwa [hcell]), Memory.nextLabel, hcell]

/-- A walk over labels of the datagram: `P` are its rounds, and `y` comes behind it. -/
theorem Traces.of_labels {P : Int → ParsePoint} (C : Libc) (hm : buf.Shows m)
    (hnext : ∀ p, (P p).next buf stack = if buf (s + p) = 0 then some y else some (P (buf.nextLabel s p)))
    (hreads : ∀ p, (P p).reads buf = labelReads buf s p) {f : Block → Exec α}
    (hy : ∀ d, Traces buf stack m.length y (f d)) :
    Traces buf stack m.length (P 0) (inetParse C .max m s dest >>= f) := by
  have hwalk (p : Int) (h : ReflTransGen (LabelStep m s dest.size) 0 p) : Runs buf stack m.length (P 0) (P p) := by
    refine runs_labels hm dest.size (fun p h0 => (hnext p).trans (if_neg h0)) (fun p c hc h0 hmem o ho => ?_) h
    have hin := load_inside hc
    rw [hreads, labelReads, hm _ _ hc, if_neg h0, mem_span] at ho
    omega
  cases hd : inetParse C .max m s dest with
  | ok d =>
    obtain ⟨p, -, hsteps, h0⟩ := (inetParse_max_ok C m s rfl).1 ⟨d, hd⟩
    have hin := load_inside h0
    refine (hy d).runs ((hwalk p hsteps).tail ⟨(hnext p).trans (if_pos (hm _ _ h0)), fun o ho => ?_⟩)
    rw [hreads, labelReads, if_pos (hm _ _ h0), mem_span] at ho
    omega
  | error f =>
    refine .fails fun hg => ?_
    rw [hg] at hd
    obtain ⟨p, hsteps, hend⟩ := (inetParse_max_read C m s rfl).1 hd
    refine ⟨P p, hwalk p hsteps, ?_⟩
    rw [hreads, labelReads]
    cases hend with
    | unread hc =>
      refine ⟨s + p, mem_span.2 (by split <;> omega), fun hin => ?_⟩
      cases (hm.load_eq hin).symm.trans hc
    | @unreadLabel c hc h0 hmem hroom =>
      have hin := load_inside hc
      rw [hm _ _ hc, if_neg h0]
      exact ⟨s + p + (labelLen c).toNat, mem_span.2 (by omega), by omega⟩

/-- In a memory that is longer than its buffer the walk over the labels stays. -/
theorem inetParse_ne_read (C : Libc) (h : dest.size + 2 ≤ src.length) : inetParse C .max src 0 dest ≠ .error .read := by
  intro hread
  obtain ⟨p, hsteps, hend⟩ := (inetParse_max_read C src 0 rfl).1 hread
  obtain ⟨h0, hle⟩ := labelSteps_le hsteps
  obtain ⟨k, rfl⟩ := Int.eq_ofNat_of_zero_le h0
  have hk : k < src.length := by omega
  have hload : load src (((0 : Nat) : Int) + k) = .ok src[k] :=
    load_ok (p := 0 + k).2 (by rw [Nat.zero_add]; exact List.getElem?_eq_getElem hk)
  cases hend with
  | unread hc => cases hc.symm.trans hload
  | unreadLabel hc h0 hmem hroom =>
    rw [room_eq (Int.natCast_nonneg k)] at hroom
    omega

/-- The walk over the labels of `temp` reads nothing of the datagram. -/
theorem Traces.of_temp (C : Libc) {temp : Block} (hmem : mem.Holds (dest.size + 2) temp) {f : Block → Exec α}
    (hy : ∀ d, Traces buf stack n (answers (i + 1) (buf.behind pos)) (f d)) :
    Traces buf stack n (text i pos mem 0) (inetParse C .max temp.bytes 0 dest >>= f) := by
  refine .bind (inetParse_ne_read C hmem.length) fun d hd => ?_
  obtain ⟨p, -, hsteps, h0⟩ := (inetParse_max_ok C temp.bytes 0 rfl).1 ⟨d, hd⟩
  have hwalk : Runs buf stack n (text i pos mem 0) (text i pos mem p) := by
    refine runs_labels (s := 0) hmem.shows dest.size (fun p h0 => ?_) (fun p c _ _ _ o ho => ?_) hsteps
    · rw [Int.natCast_zero, Int.zero_add] at h0
      exact if_neg h0
    · cases ho
  have hend : mem p = 0 := by
    rw [← hmem.shows _ _ h0, Int.natCast_zero, Int.zero_add]
  exact (hy d).runs (hwalk.tail ⟨if_pos hend, fun o ho => absurd ho List.not_mem_nil⟩)

/-- The copy of a label to `temp`. -/
theorem Traces.of_label (hm : buf.Shows m) {z : Nat} {c : UInt8} (hc : buf z = c) (h0 : c ≠ 0)
    (hptr : ¬ isNamePtr (buf.word z) = true) {temp : Block} (hmem : mem.Holds k temp) {f : Block → Exec α}
    (hf : ∀ (temp : Block) (mem : Memory), mem.Holds k temp → Traces buf stack m.length
      (zip i pos mem (q + (c.toNat + 1 : Nat)) (z + (c.toNat + 1 : Nat))) (f temp)) :
    Traces buf stack m.length (zip i pos mem q z) (temp.copy q m z (c.toNat + 1) >>= f) := by
  subst hc
  have hreads := zipReads_label h0 hptr
  by_cases hlabel : (z : Int) + ((buf z).toNat + 1 : Nat) ≤ m.length
  · have hin : ∀ o ∈ span (z : Int) ((buf z).toNat + 1), 0 ≤ o ∧ o < (m.length : Int) := by
      intro o ho
      rw [mem_span] at ho
      omega
    refine .round ((if_neg h0).trans (if_neg hptr)) (fun _ _ => ?_) fun _ => ?_
    · show ∀ o ∈ zipReads buf z, _
      rw [hreads, List.forall_mem_append]
      have h1 : 0 < (buf z).toNat := Nat.pos_of_ne_zero fun h => h0 (UInt8.toNat_inj.1 h)
      exact ⟨fun o ho => hin o (by rw [mem_span] at ho ⊢; omega), hin⟩
    · exact .bind (hm.copy_ne_read hin) fun temp' hcopy => hf temp' _ (hmem.copy hm hcopy)
  · -- the label goes on behind the datagram
    refine ⟨fun r hr => ?_, fun _ => ⟨_, .refl, z + (buf z).toNat, ?_, by omega⟩⟩
    · obtain ⟨temp', hcopy, -⟩ := bind_ok.1 hr
      have := copy_inside hcopy (z + (buf z).toNat) (mem_span.2 (by omega))
      omega
    · show _ ∈ zipReads buf z
      rw [hreads]
      exact List.mem_append_right _ (mem_span.2 (by omega))

/-- The inner loop of `urlParse`. -/
theorem Traces.of_copyName (hm : buf.Shows m) {f : Block × Int × UInt16 → Exec α}
    (hf : ∀ (temp : Block) (mem : Memory) (q : Int) (x : UInt16), mem.Holds k temp →
      Traces buf stack m.length (expand i pos mem q x) (f (temp, q, x)))
    (fuel : Nat) (temp : Block) (hmem : mem.Holds k temp) (z : Nat) :
    Traces buf stack m.length (zip i pos mem q z) (copyName m fuel temp q z >>= f) := by
  induction fuel generalizing temp mem q z with
  | zero => exact .fails fun h => by cases h
  | succ fuel ih =>
    -- the end of the name
    have hstop : Traces buf stack m.length (expand i pos (Function.update mem q 0) q 0) ((do
        let temp ← temp.store q 0
        return (temp, q, 0) : Exec (Block × Int × UInt16)) >>= f) := by
      rw [bind_assoc]
      exact .bind store_ne_read fun temp' hstore => hf temp' _ q 0 (hmem.store hstore)
    have hstray {o : Int} (ho : o ∈ zipReads buf z) (hout : ¬ (0 ≤ o ∧ o < (m.length : Int))) :
        Strays buf stack m.length (zip i pos mem q z) := ⟨_, .refl, o, ho, hout⟩
    rw [copyName]
    cases hc : load m z with
    | error g =>
      obtain rfl := load_fault hc
      refine .fails fun _ => hstray mem_zipReads fun hin => ?_
      cases (hm.load_eq hin).symm.trans hc
    | ok c =>
    have hcell := hm _ _ hc
    have hz := load_inside hc
    rw [ok_bind]
    by_cases h0 : c = 0
    · rw [if_pos h0]
      rw [h0] at hcell
      refine hstop.runs (.single ⟨if_pos hcell, fun o ho => ?_⟩)
      change o ∈ zipReads buf z at ho
      rw [zipReads, if_pos hcell] at ho
      rwa [List.mem_singleton.1 ho]
    have hne : buf z ≠ 0 := hcell ▸ h0
    rw [if_neg h0]
    cases hx : load16 m z with
    | error g =>
      obtain rfl := load16_fault hx
      have hout := hm.load16_outside hx
      exact .fails fun _ => hstray (succ_mem_zipReads hne) (by omega)
    | ok x =>
    obtain rfl := hm.word_eq hx
    have hin := load16_inside hx
    rw [ok_bind]
    by_cases hptr : isNamePtr (buf.word z) = true
    · have hreads := zipReads_pointer hne hptr
      rw [if_pos hptr]
      cases hy : load16 m (z + 2) with
      | error g =>
        obtain rfl := load16_fault hy
        have hout := hm.load16_outside hy
        refine .fails fun _ => hstray (o := z + 3) ?_ (by omega)
        rw [hreads]
        exact List.mem_append_right _ (mem_span.2 (by omega))
      | ok y =>
      obtain rfl := hm.word_eq hy
      have hin' := load16_inside hy
      have hinside : ∀ o ∈ zipReads buf z, 0 ≤ o ∧ o < (m.length : Int) := by
        rw [hreads]
        simp only [List.forall_mem_append, mem_span]
        constructor <;> omega
      rw [ok_bind]
      by_cases hptr' : isNamePtr (buf.word (z + 2)) = true
      · rw [if_pos hptr']
        have hnext : (zip i pos mem q z).next buf stack = _ := (if_neg hne).trans ((if_pos hptr).trans (if_pos hptr'))
        exact (hf temp mem q _ hmem).runs (.single ⟨hnext, hinside⟩)
      · rw [if_neg hptr']
        have hnext : (zip i pos mem q z).next buf stack = _ := (if_neg hne).trans ((if_pos hptr).trans (if_neg hptr'))
        exact hstop.runs (.single ⟨hnext, hinside⟩)
    · rw [if_neg hptr, bind_assoc]
      exact Traces.of_label hm hcell h0 hptr hmem fun temp mem hmem => ih temp hmem (z + (c.toNat + 1))

/-- The outer loop. -/
theorem Traces.of_expandName (hm : buf.Shows m) {f : Block → Exec α}
    (hf : ∀ (temp : Block) (mem : Memory), mem.Holds k temp →
      Traces buf stack m.length (text i pos mem 0) (f temp))
    (fuel : Nat) (temp : Block) (hmem : mem.Holds k temp) (x : UInt16) :
    Traces buf stack m.length (expand i pos mem q x) (expandName m fuel temp q x >>= f) := by
  induction fuel generalizing temp mem q x with
  | zero => exact .fails fun h => by cases h
  | succ fuel ih =>
    rw [expandName]
    by_cases hx : isNamePtr x = true
    · rw [if_pos hx, bind_assoc]
      refine Traces.quiet (if_pos hx) rfl (Traces.of_copyName hm (fun temp mem q x hmem => ?_) copyFuel temp hmem _)
      exact ih temp hmem x
    · rw [if_neg hx]
      exact Traces.quiet (if_neg hx) rfl (hf temp mem hmem)

/-- What `urlParse` does with RDATA that is a name. -/
theorem Traces.of_name (C : Libc) (hm : buf.Shows m) {src : Nat} {type rdlen : UInt16} (hn : IsName type)
    (hsrc : src ≤ m.length) {stale : List UInt8} (hstack : (stack i).Holds 257 (Block.fresh 255 stale))
    (hsize : dest.size = 255) (addition : UInt16) (hx : x.reads buf = rdataReads src type rdlen)
    (hnext : x.next buf stack = some (expand i pos
      ((stack i).copy 0 buf (src + nameSkip type : Nat) (nameLen type rdlen)) (nameLen type rdlen - 2)
      (buf.word ((src + nameSkip type : Nat) + nameLen type rdlen - 2))))
    {f : Block × UInt16 → Exec α} (hy : ∀ r, Traces buf stack m.length (answers (i + 1) (buf.behind pos)) (f r)) :
    Traces buf stack m.length x (urlParse C m src dest addition type rdlen stale >>= f) := by
  have htype : type ≠ typeQname ∧ type ≠ typeA ∧ type ≠ typeAaaa := by
    rcases hn with rfl | rfl | rfl <;> decide
  have hreads : x.reads buf = span src (nameSkip type) ++ (span (src + nameSkip type : Nat) (nameLen type rdlen) ++
      span ((src + nameSkip type : Nat) + nameLen type rdlen - 2) 2) := by
    rw [hx, rdataReads, if_neg htype.1, if_neg htype.2.1, if_neg htype.2.2]
    exact if_pos hn
  have hskip := nameSkip_le type
  obtain ⟨addition', heq⟩ := urlParse_expand C m src dest addition rdlen stale hn
  rw [heq, bind_assoc]
  rcases urlExpand_cases m src type rdlen stale with ⟨hin, hexp⟩ | ⟨hlt, hexp⟩
  · rw [hexp, expandRdata, bind_assoc]
    have hin := hin hsrc
    refine .round hnext (fun r hr => ?_) fun hall => ?_
    · obtain ⟨temp, hcopy, hr⟩ := bind_ok.1 hr
      rw [bind_assoc] at hr
      obtain ⟨y, hy, -⟩ := bind_ok.1 hr
      have hlast := load16_inside hy
      rw [hreads, List.forall_mem_append, List.forall_mem_append]
      refine ⟨fun o ho => ?_, copy_inside hcopy, fun o ho => ?_⟩
      all_goals
        rw [mem_span] at ho
        omega
    · rw [hreads, List.forall_mem_append, List.forall_mem_append] at hall
      obtain ⟨-, hname, hlast⟩ := hall
      refine .bind (hm.copy_ne_read hname) fun temp hcopy => ?_
      have h₁ := hlast _ (mem_span.2 ⟨Int.le_refl _, by omega⟩)
      have h₂ := hlast ((src + nameSkip type : Nat) + nameLen type rdlen - 2 + 1) (mem_span.2 (by omega))
      rw [hm.load16_eq ⟨h₁.1, by omega⟩, ok_bind]
      refine Traces.of_expandName hm (fun temp mem hmem => ?_) expandFuel temp (hstack.copy hm hcopy) _
      rw [bind_assoc]
      refine Traces.of_temp C (by rwa [hsize]) fun d => ?_
      exact hy (d, addition')
  · rw [hexp]
    refine .fails fun _ => ⟨x, .refl, src + nameSkip type - 1, ?_, by omega⟩
    rw [hreads]
    exact List.mem_append_left _ (mem_span.2 (by omega))

/-- What `urlParse` does with an address. -/
theorem Traces.of_address (hm : buf.Shows m) {s k : Nat} {text : List UInt8 → List UInt8}
    (hx : x.reads buf = span s k) (hnext : x.next buf stack = some y) {f : Block → Exec α}
    (hy : ∀ d, Traces buf stack m.length y (f d)) :
    Traces buf stack m.length x ((do
      let b ← loadBytes m s k
      if (text b).length + 1 ≤ n then dest.storeBytes 0 (text b ++ [0]) else return dest : Exec Block) >>= f) := by
  rw [bind_assoc]
  refine .round hnext (fun r hr => ?_) fun hall => ?_
  · obtain ⟨b, hb, -⟩ := bind_ok.1 hr
    rw [hx]
    exact loadBytes_inside hb
  · rw [hx] at hall
    obtain ⟨b, hb⟩ := hm.exists_loadBytes hall
    rw [hb, ok_bind]
    refine .bind ?_ fun d _ => hy d
    split
    · exact storeBytes_ne_read
    · nofun

theorem Traces.of_rdata (C : Libc) (hm : buf.Shows m) {pos : Nat} (hpos : pos + 12 ≤ m.length) {stale : List UInt8}
    (hstack : (stack i).Holds 257 (Block.fresh 255 stale)) (hsize : dest.size = typeBufSize (buf.rtype pos))
    (addition : UInt16) {f : Block × UInt16 → Exec α}
    (hy : ∀ r, Traces buf stack m.length (answers (i + 1) (buf.behind pos)) (f r)) :
    Traces buf stack m.length (rdata i pos)
      (urlParse C m (pos + 12) dest addition (buf.rtype pos) (buf.rdlen pos) stale >>= f) := by
  by_cases hn : IsName (buf.rtype pos)
  · have hq : buf.rtype pos ≠ typeQname := by
      rcases hn with h | h | h <;> rw [h] <;> decide
    have hnext : (rdata i pos).next buf stack = some (expand i pos
        ((stack i).copy 0 buf (pos + 12 + nameSkip (buf.rtype pos) : Nat) (nameLen (buf.rtype pos) (buf.rdlen pos)))
        (nameLen (buf.rtype pos) (buf.rdlen pos) - 2) (buf.word ((pos + 12 + nameSkip (buf.rtype pos) : Nat) +
          nameLen (buf.rtype pos) (buf.rdlen pos) - 2))) := (if_neg hq).trans (if_pos hn)
    exact Traces.of_name C hm hn hpos hstack (hsize.trans (typeBufSize_name hn)) addition rfl hnext hy
  have hreads : (rdata i pos).reads buf = rdataReads (pos + 12) (buf.rtype pos) (buf.rdlen pos) := rfl
  by_cases hq : buf.rtype pos = typeQname
  · rw [urlParse, if_pos hq, bind_assoc]
    refine Traces.quiet (if_pos hq) (hreads.trans (if_pos hq)) ?_
    exact Traces.of_labels (P := label i pos) (s := pos + 12) C hm (fun p => rfl) (fun p => rfl)
      fun d => hy (d, addition)
  have hnext : (rdata i pos).next buf stack = some (answers (i + 1) (buf.behind pos)) := (if_neg hq).trans (if_neg hn)
  rw [urlParse, if_neg hq]
  rw [rdataReads, if_neg hq] at hreads
  by_cases ha : buf.rtype pos = typeA
  · rw [if_pos ha, bind_assoc]
    rw [if_pos ha] at hreads
    exact Traces.of_address (s := pos + 12) hm hreads hnext fun d => hy (d, addition)
  rw [if_neg ha] at hreads ⊢
  by_cases haaaa : buf.rtype pos = typeAaaa
  · rw [if_pos haaaa, bind_assoc]
    rw [if_pos haaaa] at hreads
    exact Traces.of_address (s := pos + 12) hm hreads hnext fun d => hy (d, addition)
  rw [if_neg haaaa] at hreads ⊢
  have hmx : buf.rtype pos ≠ typeMx := fun h => hn (.inr (.inl h))
  have hnone : ¬ (buf.rtype pos = typeCname ∨ buf.rtype pos = typeMx ∨ buf.rtype pos = typeNs) := hn
  rw [if_neg hnone] at hreads
  rw [if_neg hmx]
  simp only [Pure.pure, Except.pure, ok_bind]
  rw [if_neg hnone]
  exact Traces.quiet hnext hreads (hy (dest, addition))

/-- The loop over the answers. -/
theorem Traces.of_parseAnswers (C : Libc) (hm : buf.Shows m) {st : Stale}
    (hstack : ∀ i, (stack i).Holds 257 (Block.fresh 255 (st.temp i))) {f : List Answer × Nat → Exec α}
    (hf : ∀ r, f r ≠ .error .read) (n i : Nat) (hn : i + n = buf.ancount) (pos : Nat) :
    Traces buf stack m.length (answers i pos) (parseAnswers C st m n i pos >>= f) := by
  induction n generalizing i pos f with
  | zero => exact Traces.quiet (if_neg (by omega)) rfl (.return (hf _))
  | succ n ih =>
    rw [parseAnswers, bind_assoc]
    refine Traces.quiet (if_pos (by omega)) rfl (.round rfl (fun r hr => ?_) fun hall => ?_)
    · obtain ⟨a, ha, -⟩ := bind_ok.1 hr
      obtain ⟨name, hname, ha⟩ := bind_ok.1 ha
      obtain ⟨type, -, ha⟩ := bind_ok.1 ha
      obtain ⟨cls, -, ha⟩ := bind_ok.1 ha
      obtain ⟨ttl, -, ha⟩ := bind_ok.1 ha
      obtain ⟨rdlen, hlen, -⟩ := bind_ok.1 ha
      have hlast := load16_inside hlen
      intro o ho
      change o ∈ span pos 12 at ho
      rw [mem_span] at ho
      omega
    · have hlast := hall (pos + 11) (mem_span.2 (by omega))
      have hload (k : Nat) (hk : k + 2 ≤ 12) : load16 m ((pos : Int) + k) = .ok (buf.word (pos + k)) :=
        hm.load16_eq (by omega)
      obtain ⟨name, hname⟩ : ∃ name, load16le m pos = .ok name := by
        rw [load16le, hm.load_eq (by omega), ok_bind, hm.load_eq (by omega)]
        exact ⟨_, rfl⟩
      obtain ⟨ttl, httl⟩ : ∃ ttl, load32 m ((pos : Int) + 6) = .ok ttl := by
        rw [load32, hm.load16_eq (by omega), ok_bind, hm.load16_eq (by omega)]
        exact ⟨_, rfl⟩
      have htype : load16 m ((pos : Int) + 2) = .ok (buf.rtype pos) := hload 2 (by decide)
      have hlen : load16 m ((pos : Int) + 10) = .ok (buf.rdlen pos) := hload 10 (by decide)
      rw [parseAnswer, hname, htype, hm.load16_eq (by omega), httl, hlen]
      simp only [ok_bind, bind_assoc]
      refine Traces.of_rdata C hm (by omega) (hstack i) rfl _ fun r => ?_
      exact ih (f := fun rest => pure (_ :: rest.1, rest.2) >>= f) (fun _ => hf _) (i + 1) (by omega)
        (pos + (12 + (buf.rdlen pos).toNat))

theorem runs_strlen (hm : buf.Shows m) (h : ∀ j < k, ∃ c, load m (pos + j) = .ok c ∧ c ≠ 0) :
    Runs buf stack m.length (strlen i pos 0) (strlen i pos k) := by
  induction k with
  | zero => exact .refl
  | succ k ih =>
    obtain ⟨c, hc, h0⟩ := h k (Nat.lt_succ_self k)
    refine (ih fun j hj => h j (Nat.lt_succ_of_lt hj)).tail ⟨if_neg (by rwa [hm _ _ hc]), fun o ho => ?_⟩
    rw [List.mem_singleton.1 ho]
    exact load_inside hc

/-- `strlen` finds a NUL, or reads behind the datagram. -/
theorem Traces.of_cstr (hm : buf.Shows m) {pos : Nat} {f : List UInt8 → Exec α}
    (hy : ∀ s, Traces buf stack m.length (qname i pos s.length 0) (f s)) :
    Traces buf stack m.length (strlen i pos 0) (cstr (m.drop pos) >>= f) := by
  cases hs : cstr (m.drop pos) with
  | ok s =>
    obtain ⟨h0, hat⟩ := cstr_ok hs
    have hload (j : Nat) (c : UInt8) (hj : (s ++ [0])[j]? = some c) : load m (pos + j) = .ok c := by
      have hlt := (List.getElem?_eq_some_iff.1 hj).1
      have hcell := (hat j hlt).trans hj
      rw [Nat.zero_add, List.getElem?_drop] at hcell
      exact load_ok (p := pos + j).2 hcell
    have hend : load m (pos + s.length) = .ok 0 := hload s.length 0 List.getElem?_concat_length
    refine (hy s).runs ((runs_strlen hm fun j hj => ⟨s[j], hload j _ ?_, ?_⟩).tail
      ⟨if_pos (hm _ _ hend), fun o ho => ?_⟩)
    · rw [List.getElem?_append_left hj, List.getElem?_eq_getElem hj]
    · exact fun he => h0 (he ▸ List.getElem_mem hj)
    · rw [List.mem_singleton.1 ho]
      exact load_inside hend
  | error e =>
    refine .fails fun _ => ?_
    have hnone : 0 ∉ m.drop pos := fun h => by
      obtain ⟨s, hs'⟩ := exists_cstr h
      cases hs.symm.trans hs'
    refine ⟨strlen i pos (m.length - pos), runs_strlen hm fun j hj => ?_, _, List.mem_singleton_self _, by omega⟩
    have hlt : pos + j < m.length := by omega
    refine ⟨m[pos + j], load_ok (p := pos + j).2 (List.getElem?_eq_getElem hlt), fun he => hnone ?_⟩
    exact List.mem_drop_iff_getElem.2 ⟨j, by omega, he⟩

/-- The loop over the questions. -/
theorem Traces.of_parseQuests (C : Libc) (hm : buf.Shows m) (st : Stale) {f : List Quest × Nat → Exec α}
    (hf : ∀ qs (pos : Nat), Traces buf stack m.length (quests buf.qdcount pos) (f (qs, pos))) (n i : Nat)
    (hn : i + n = buf.qdcount) (pos : Nat) :
    Traces buf stack m.length (quests i pos) (parseQuests C st m n i pos >>= f) := by
  induction n generalizing i pos f with
  | zero =>
    obtain rfl : i = buf.qdcount := hn
    exact hf [] pos
  | succ n ih =>
    rw [parseQuests, bind_assoc]
    refine Traces.quiet (if_pos (by omega)) rfl (Traces.of_cstr hm fun s => ?_)
    rw [urlParse, if_pos rfl, bind_assoc, bind_assoc]
    refine Traces.of_labels (P := qname i pos s.length) (y := qtype i (pos + (s.length + 1))) C hm (fun p => rfl)
      (fun p => rfl) fun d => .round rfl (fun r hr => ?_) fun hall => ?_
    · obtain ⟨x, -, hr⟩ := bind_ok.1 hr
      rw [bind_assoc] at hr
      obtain ⟨qtype, htype, hr⟩ := bind_ok.1 hr
      rw [bind_assoc] at hr
      obtain ⟨qclass, hclass, -⟩ := bind_ok.1 hr
      have h₁ := load16_inside htype
      have h₂ := load16_inside hclass
      intro o ho
      change o ∈ span (pos + (s.length + 1)) 4 at ho
      rw [mem_span] at ho
      omega
    · have hlast := hall (pos + (s.length + 1) + 3) (mem_span.2 (by omega))
      show Traces _ _ _ _ ((do
        let qtype ← load16 m (pos + (s.length + 1) : Nat)
        let qclass ← load16 m ((pos + (s.length + 1) : Nat) + 2)
        let rest ← parseQuests C st m n (i + 1) (pos + (s.length + 1) + 4)
        return (⟨d, qtype, qclass⟩ :: rest.1, rest.2) : Exec (List Quest × Nat)) >>= f)
      rw [hm.load16_eq (by omega), ok_bind, hm.load16_eq (by omega), ok_bind, bind_assoc]
      exact ih (f := fun rest => pure (_ :: rest.1, rest.2) >>= f) (fun qs p => hf _ p) (i + 1) (by omega)
        (pos + (s.length + 1) + 4)

/-- `packetParse` goes along its rounds. -/
theorem packetParse_traces (C : Libc) (hm : buf.Shows m) {st : Stale}
    (hstack : ∀ i, (stack i).Holds 257 (Block.fresh 255 (st.temp i))) (len : Nat) :
    Traces buf stack m.length header (packetParse C st m len) := by
  rw [packetParse, packetWalk]
  simp only [bind_assoc]
  refine .round rfl (fun r hr => ?_) fun hall => ?_
  · obtain ⟨id, hid, hr⟩ := bind_ok.1 hr
    obtain ⟨flags, -, hr⟩ := bind_ok.1 hr
    obtain ⟨qdcount, -, hr⟩ := bind_ok.1 hr
    obtain ⟨ancount, hancount, -⟩ := bind_ok.1 hr
    have hlast := load16_inside hancount
    intro o ho
    change o ∈ span 0 8 at ho
    rw [mem_span] at ho
    omega
  · have hlast := hall 7 (mem_span.2 (by decide))
    obtain ⟨id, hid⟩ : ∃ id, load16le m 0 = .ok id := by
      rw [load16le, hm.load_eq (by omega), ok_bind, hm.load_eq (by omega)]
      exact ⟨_, rfl⟩
    rw [hid, hm.load16_eq (show 0 ≤ (2 : Int) ∧ _ by omega), hm.load16_eq (show 0 ≤ (4 : Int) ∧ _ by omega),
      hm.load16_eq (show 0 ≤ (6 : Int) ∧ _ by omega)]
    simp only [ok_bind]
    refine Traces.of_parseQuests C hm st (fun qs pos => ?_) _ 0 (Nat.zero_add _) 12
    dsimp only
    by_cases h0 : buf.word 6 = 0
    · rw [if_pos h0]
      refine Traces.quiet ((if_neg (Nat.lt_irrefl _)).trans (if_pos (congrArg UInt16.toNat h0))) rfl (.return ?_)
      exact fun h => by cases h
    · rw [if_neg h0]
      have hne : buf.ancount ≠ 0 := fun h => h0 (UInt16.toNat_inj.1 h)
      simp only [bind_assoc]
      refine Traces.quiet ((if_neg (Nat.lt_irrefl _)).trans (if_neg hne)) rfl ?_
      exact Traces.of_parseAnswers C hm hstack (fun r h => by cases h) _ 0 (Nat.zero_add _) pos

/-- The rounds that come to their end inside the datagram are all there are. -/
theorem Runs.inside (h : Runs buf stack n x done) (hy : ReflTransGen (fun x y => next buf stack x = some y) x y) :
    ∀ o ∈ y.reads buf, 0 ≤ o ∧ o < (n : Int) := by
  induction h using ReflTransGen.head_induction_on with
  | refl =>
    rcases ReflTransGen.cases_head hy with rfl | ⟨z, hz, -⟩
    · exact fun o ho => absurd ho List.not_mem_nil
    · cases hz
  | head hstep _ ih =>
    rcases ReflTransGen.cases_head hy with rfl | ⟨z, hz, hrest⟩
    · exact hstep.2
    · cases hstep.1.symm.trans hz
      exact ih hrest

end

end ParsePoint

section
variable {buf : Memory} {stack : Nat → Memory} {m : List UInt8} {st : Stale} {len : Nat}

/-- Where `packetParse` has a result it has read nothing but the datagram. -/
theorem reads_of_packetParse_ok (C : Libc) (hm : buf.Shows m)
    (hstack : ∀ i, (stack i).Holds 257 (Block.fresh 255 (st.temp i))) {p : Packet}
    (h : packetParse C st m len = .ok p) {o : Int} (ho : ReadsAt buf stack o) : 0 ≤ o ∧ o < m.length := by
  obtain ⟨x, hx, ho⟩ := ho
  exact ((ParsePoint.packetParse_traces C hm hstack len).ok p h).inside hx o ho

/-- Where it reads behind its memory there is a read behind the datagram. -/
theorem exists_reads_of_packetParse_read (C : Libc) (hm : buf.Shows m)
    (hstack : ∀ i, (stack i).Holds 257 (Block.fresh 255 (st.temp i))) (h : packetParse C st m len = .error .read) :
    ∃ o, ReadsAt buf stack o ∧ ¬ (0 ≤ o ∧ o < m.length) := by
  obtain ⟨y, hy, o, ho, hout⟩ := (ParsePoint.packetParse_traces C hm hstack len).read h
  exact ⟨o, ⟨y, ReflTransGen.mono (fun _ _ h => h.1) _ _ hy, ho⟩, hout⟩

end

end DnsRelay
