import Mathlib.Tactic.SplitIfs
import DnsRelay.Lib.ByteSeq

/-!
# The machine the server runs on

Readable memory is the list of bytes found from some address on. A `Block` is one allocation (a
`malloc`ed buffer or a local array): `size` bytes that may be written, followed by whatever the
machine lets the program read after them. A read past the readable bytes, a write outside the
block, a `NULL` that is followed and a loop that never ends are the four ways an execution fails to
have a result.
-/

namespace DnsRelay
open ByteSeq

inductive Fault
  | null
  | read
  | write
  | hang
deriving DecidableEq, Repr

abbrev Exec := Except Fault

namespace Exec

theorem bind_ok {α β : Type} {x : Exec α} {f : α → Exec β} {b : β} :
    (x >>= f) = .ok b ↔ ∃ a, x = .ok a ∧ f a = .ok b := by
  cases x with
  | error e => simp [Bind.bind, Except.bind]
  | ok a => simp [Bind.bind, Except.bind]

@[simp] theorem ok_bind {α β : Type} (a : α) (f : α → Exec β) :
    ((.ok a : Exec α) >>= f) = f a := rfl

@[simp] theorem error_bind {α β : Type} (e : Fault) (f : α → Exec β) :
    ((.error e : Exec α) >>= f) = .error e := rfl

end Exec

/-- How a run ends, if it does. -/
def outcome {α : Type} : Exec α → Option (Exec Unit)
  | .ok _ => some (.ok ())
  | .error .hang => none
  | .error e => some (.error e)

theorem outcome_eq_none {α : Type} {r : Exec α} : outcome r = none ↔ r = .error .hang := by
  rcases r with (_ | _ | _ | _) | _ <;> simp [outcome]

theorem outcome_eq_error {α : Type} {r : Exec α} {e : Fault} (he : e ≠ .hang) :
    outcome r = some (.error e) ↔ r = .error e := by
  cases e <;> rcases r with (_ | _ | _ | _) | _ <;> simp_all [outcome]

/-! ### Reading memory -/

def load (m : List UInt8) : Int → Exec UInt8
  | .ofNat p => match m[p]? with
    | some b => .ok b
    | none => .error .read
  | .negSucc _ => .error .read

/-- `char` is signed on x86. -/
def schar (b : UInt8) : Int := if b.toNat < 128 then b.toNat else b.toNat - 256

def word16 (hi lo : UInt8) : UInt16 := UInt16.ofNat (hi.toNat * 256 + lo.toNat)

/-- `ntohs(*(uint16_t*)p)` -/
def load16 (m : List UInt8) (p : Int) : Exec UInt16 := do
  let hi ← load m p
  let lo ← load m (p + 1)
  return word16 hi lo

/-- `*(uint16_t*)p`, on a little-endian host -/
def load16le (m : List UInt8) (p : Int) : Exec UInt16 := do
  let lo ← load m p
  let hi ← load m (p + 1)
  return word16 hi lo

/-- `ntohl(*(uint32_t*)p)` -/
def load32 (m : List UInt8) (p : Int) : Exec UInt32 := do
  let hi ← load16 m p
  let lo ← load16 m (p + 2)
  return UInt32.ofNat (hi.toNat * 65536 + lo.toNat)

def loadBytes (m : List UInt8) (p : Int) : Nat → Exec (List UInt8)
  | 0 => .ok []
  | n + 1 => do
    let b ← load m p
    let bs ← loadBytes m (p + 1) n
    return b :: bs

/-- The C string at the start of `m`: the bytes before the first NUL. -/
def cstr : List UInt8 → Exec (List UInt8)
  | [] => .error .read
  | b :: m => if b = 0 then .ok [] else do
    let s ← cstr m
    return b :: s

/-! ### Network byte order -/

def be16 (x : UInt16) : List UInt8 := [UInt8.ofNat (x.toNat / 256), UInt8.ofNat x.toNat]

def be32 (x : UInt32) : List UInt8 :=
  be16 (UInt16.ofNat (x.toNat / 65536)) ++ be16 (UInt16.ofNat x.toNat)

/-- A `uint16_t` as it lies in the memory of a little-endian host. -/
def le16 (x : UInt16) : List UInt8 := [UInt8.ofNat x.toNat, UInt8.ofNat (x.toNat / 256)]

@[simp] theorem length_be16 (x : UInt16) : (be16 x).length = 2 := rfl
@[simp] theorem length_be32 (x : UInt32) : (be32 x).length = 4 := rfl
@[simp] theorem length_le16 (x : UInt16) : (le16 x).length = 2 := rfl

theorem word16_bytes (x : UInt16) : word16 (UInt8.ofNat (x.toNat / 256)) (UInt8.ofNat x.toNat) = x := by
  have hx := x.toNat_lt
  apply UInt16.toNat_inj.1
  simp only [word16, UInt16.toNat_ofNat', UInt8.toNat_ofNat']
  omega

theorem be16_inj {x y : UInt16} (h : be16 x = be16 y) : x = y := by
  obtain ⟨h₁, h⟩ := List.cons.inj h
  rw [← word16_bytes x, ← word16_bytes y, h₁, (List.cons.inj h).1]

/-! ### Allocations -/

structure Block where
  size : Nat
  bytes : List UInt8
  size_le : size ≤ bytes.length
deriving DecidableEq

namespace Block

@[ext] theorem ext' {b b' : Block} (hs : b.size = b'.size) (hb : b.bytes = b'.bytes) : b = b' := by
  cases b; cases b'; cases hs; cases hb; rfl

/-- `n` bytes from `malloc` or of a local array, in memory that held `stale` so far. -/
def fresh (n : Nat) (stale : List UInt8) : Block where
  size := n
  bytes := stale ++ List.replicate (n - stale.length) 0
  size_le := by simp; omega

def store (b : Block) : Int → UInt8 → Exec Block
  | .ofNat p, v =>
    if p < b.size then .ok ⟨b.size, b.bytes.set p v, by simpa using b.size_le⟩ else .error .write
  | .negSucc _, _ => .error .write

def storeBytes (b : Block) (p : Int) : List UInt8 → Exec Block
  | [] => .ok b
  | v :: vs => do
    let b ← b.store p v
    storeBytes b (p + 1) vs

/-- `memcpy(b + p, m + q, n)`, byte by byte -/
def copy (b : Block) (p : Int) (m : List UInt8) (q : Int) : Nat → Exec Block
  | 0 => .ok b
  | n + 1 => do
    let v ← load m q
    let b ← b.store p v
    copy b (p + 1) m (q + 1) n

/-- The block after `xs` was written at `p`. -/
def patch (b : Block) (p : Nat) (xs : List UInt8) : Block where
  size := b.size
  bytes := ByteSeq.patch b.bytes p xs
  size_le := by simpa using b.size_le

@[simp] theorem fresh_size (n : Nat) (stale : List UInt8) : (fresh n stale).size = n := rfl
@[simp] theorem patch_size (b : Block) (p : Nat) (xs : List UInt8) : (b.patch p xs).size = b.size := rfl
@[simp] theorem patch_bytes (b : Block) (p : Nat) (xs : List UInt8) :
    (b.patch p xs).bytes = ByteSeq.patch b.bytes p xs := rfl

end Block

/-- How many bytes a block of `size` bytes takes at `p`. -/
def room (size : Nat) (p : Int) : Nat := if p < 0 then 0 else (size - p).toNat

theorem room_eq {size : Nat} {p : Int} (hp : 0 ≤ p) : room size p = (size - p).toNat := if_neg (by omega)

theorem room_pos {size : Nat} {p : Int} (h : 0 < room size p) : 0 ≤ p ∧ p < size := by
  unfold room at h
  split at h <;> omega

/-! ### What a read finds -/

theorem load_nat (m : List UInt8) (p : Nat) :
    load m p = match m[p]? with | some b => .ok b | none => .error .read := rfl

theorem load_ok {m : List UInt8} {p : Nat} {b : UInt8} : load m p = .ok b ↔ m[p]? = some b := by
  rw [load_nat]; cases m[p]? <;> simp

theorem load_error {m : List UInt8} {p : Nat} (h : m.length ≤ p) : load m p = .error .read := by
  rw [load_nat, List.getElem?_eq_none h]

section Reads
variable {m : List UInt8} {p : Nat}

theorem load_at {b : UInt8} {xs : List UInt8} (h : At m p (b :: xs)) : load m p = .ok b :=
  load_ok.2 (At.cons_iff.1 h).1

theorem load_at_succ {b c : UInt8} {xs : List UInt8} (h : At m p (b :: c :: xs)) :
    load m ((p : Int) + 1) = .ok c := load_at (p := p + 1) (At.cons_iff.1 h).2

theorem load16_at {x : UInt16} (h : At m p (be16 x)) : load16 m p = .ok x := by
  unfold load16
  rw [load_at h, load_at_succ h]
  exact congrArg Except.ok (word16_bytes x)

theorem load16le_at {x : UInt16} (h : At m p (le16 x)) : load16le m p = .ok x := by
  unfold load16le
  rw [load_at h, load_at_succ h]
  exact congrArg Except.ok (word16_bytes x)

theorem load16_error (h : m.length < p + 2) : load16 m p = .error .read := by
  rcases Nat.lt_or_ge p m.length with hp | hp
  · have h1 : load m ((p : Int) + 1) = .error .read := load_error (p := p + 1) (by omega)
    rw [load16, load_ok.2 (List.getElem?_eq_getElem hp), Exec.ok_bind, h1]
    rfl
  · rw [load16, load_error hp]
    rfl

theorem load_fault {i : Int} {e : Fault} (h : load m i = .error e) : e = .read := by
  cases i with
  | negSucc p => cases h; rfl
  | ofNat p =>
    have h : load m p = .error e := h
    rw [load_nat] at h
    split at h <;> cases h
    rfl

theorem fault_bind {α β : Type} {x : Exec α} {f : α → Exec β} (hx : ∀ e, x = .error e → e = .read)
    (hf : ∀ a e, f a = .error e → e = .read) {e : Fault} (h : (x >>= f) = .error e) : e = .read := by
  cases x with
  | error e' =>
    cases h
    exact hx _ rfl
  | ok a => exact hf a e h

theorem load16_fault {i : Int} {e : Fault} (h : load16 m i = .error e) : e = .read :=
  fault_bind (fun _ => load_fault) (fun _ _ => fault_bind (fun _ => load_fault) fun _ _ h => by cases h) h

theorem load16_ok {i : Int} {x : UInt16} (h : load16 m i = .ok x) : ∃ p : Nat, i = p ∧ p + 2 ≤ m.length := by
  cases i with
  | negSucc p => cases h
  | ofNat p =>
    refine ⟨p, rfl, ?_⟩
    by_contra hlt
    cases (load16_error (m := m) (p := p) (by omega)).symm.trans h

theorem load32_at {x : UInt32} (h : At m p (be32 x)) : load32 m p = .ok x := by
  have hx := x.toNat_lt
  have h2 : load16 m ((p : Int) + 2) = _ := load16_at (p := p + 2) h.right
  unfold load32
  rw [load16_at h.left, h2]
  refine congrArg Except.ok (UInt32.toNat_inj.1 ?_)
  simp only [UInt32.toNat_ofNat', UInt16.toNat_ofNat']
  omega

theorem load16le_length {x : UInt16} (h : load16le m 0 = .ok x) : 2 ≤ m.length := by
  obtain ⟨_, -, h⟩ := Exec.bind_ok.1 h
  obtain ⟨_, hb, -⟩ := Exec.bind_ok.1 h
  exact (List.getElem?_eq_some_iff.1 (load_ok (p := 1).1 hb)).1

theorem loadBytes_at {xs : List UInt8} (h : At m p xs) : loadBytes m p xs.length = .ok xs := by
  induction xs generalizing p with
  | nil => rfl
  | cons x xs ih =>
    have h1 : loadBytes m ((p : Int) + 1) xs.length = .ok xs := ih (p := p + 1) (At.cons_iff.1 h).2
    simp only [List.length_cons, loadBytes, load_at h, h1, Exec.ok_bind]
    rfl

theorem loadBytes_length {q : Int} {n : Nat} {xs : List UInt8} (h : loadBytes m q n = .ok xs) :
    xs.length = n := by
  induction n generalizing q xs with
  | zero => cases h; rfl
  | succ n ih =>
    obtain ⟨b, -, h⟩ := Exec.bind_ok.1 h
    obtain ⟨bs, hbs, h⟩ := Exec.bind_ok.1 h
    cases h
    rw [List.length_cons, ih hbs]

/-- A NUL-free text and its terminator read as that text, whatever follows. -/
theorem cstr_append {s : List UInt8} (hs : 0 ∉ s) (r : List UInt8) : cstr (s ++ 0 :: r) = .ok s := by
  induction s with
  | nil => rfl
  | cons b s ih =>
    rw [List.mem_cons, not_or] at hs
    rw [List.cons_append, cstr, if_neg (Ne.symm hs.1), ih hs.2]
    rfl

theorem cstr_at {s : List UInt8} (hs : 0 ∉ s) (h : At m p (s ++ [0])) : cstr (m.drop p) = .ok s := by
  have := h.take_drop
  rw [← List.take_append_drop (s ++ [0]).length (m.drop p), this, List.append_assoc]
  exact cstr_append hs _

theorem cstr_ok {s : List UInt8} (h : cstr m = .ok s) : 0 ∉ s ∧ At m 0 (s ++ [0]) := by
  induction m generalizing s with
  | nil => cases h
  | cons b m ih =>
    rw [cstr] at h
    split at h
    · cases h
      exact ⟨List.not_mem_nil, At.cons_iff.2 ⟨by simp [*], .nil⟩⟩
    · obtain ⟨t, ht, h⟩ := Exec.bind_ok.1 h
      cases h
      obtain ⟨h0, hat⟩ := ih ht
      refine ⟨by simp [h0, Ne.symm ‹_›], At.cons_iff.2 ⟨rfl, fun i hi => ?_⟩⟩
      have := hat i hi
      rw [Nat.zero_add] at this
      rw [Nat.zero_add, Nat.add_comm, List.getElem?_cons_succ]
      exact this

theorem exists_cstr (h : 0 ∈ m) : ∃ s, cstr m = .ok s := by
  induction m with
  | nil => cases h
  | cons b m ih =>
    rw [cstr]
    by_cases hb : b = 0
    · exact ⟨[], if_pos hb⟩
    · obtain ⟨s, hs⟩ := ih ((List.mem_cons.1 h).resolve_left (Ne.symm hb))
      exact ⟨b :: s, by rw [if_neg hb, hs]; rfl⟩

/-- A C string ends at the first NUL. -/
theorem cstr_length_le {s : List UInt8} (h : cstr m = .ok s) (h0 : m[p]? = some 0) : s.length ≤ p := by
  obtain ⟨hz, hat⟩ := cstr_ok h
  by_contra hlt
  have hp := hat p (by rw [List.length_append, List.length_singleton]; omega)
  rw [Nat.zero_add, h0, List.getElem?_append_left (by omega)] at hp
  exact hz (List.mem_of_getElem? hp.symm)

end Reads

/-! ### What a write does -/

namespace Block
variable {b : Block} {p : Nat}

theorem store_eq (v : UInt8) (h : p < b.size) : b.store p v = .ok (b.patch p [v]) := by
  show (if p < b.size then _ else _) = _
  rw [if_pos h]; rfl

theorem store_neg (v : UInt8) {i : Int} (h : i < 0) : b.store i v = .error .write := by
  cases i with
  | ofNat p => exact absurd h (by simp)
  | negSucc p => rfl

/-- What a store that went through did. -/
theorem store_inv {b' : Block} {v : UInt8} (h : b.store p v = .ok b') : p < b.size ∧ b' = b.patch p [v] := by
  by_cases hp : p < b.size
  · exact ⟨hp, Except.ok.inj (h.symm.trans (store_eq v hp))⟩
  · cases (show b.store p v = .error .write from if_neg hp).symm.trans h

theorem store_ok {b' : Block} {i : Int} {v : UInt8} (h : b.store i v = .ok b') :
    ∃ p : Nat, p < b.size ∧ b' = b.patch p [v] := by
  cases i with
  | negSucc p => cases h
  | ofNat p => exact ⟨p, store_inv h⟩

theorem copy_size {b' : Block} {m : List UInt8} {i q : Int} {n : Nat} (h : b.copy i m q n = .ok b') :
    b'.size = b.size := by
  induction n generalizing b i q with
  | zero => cases h; rfl
  | succ n ih =>
    obtain ⟨v, -, h⟩ := Exec.bind_ok.1 h
    obtain ⟨b₁, hb₁, h⟩ := Exec.bind_ok.1 h
    obtain ⟨p, -, rfl⟩ := store_ok hb₁
    rw [ih h, patch_size]

theorem patch_append (b : Block) (p : Nat) (xs ys : List UInt8) :
    b.patch p (xs ++ ys) = (b.patch p xs).patch (p + xs.length) ys :=
  ext' rfl (ByteSeq.patch_append _ _ _ _)

theorem storeBytes_eq {xs : List UInt8} (h : p + xs.length ≤ b.size) :
    b.storeBytes p xs = .ok (b.patch p xs) := by
  induction xs generalizing b p with
  | nil => rfl
  | cons x xs ih =>
    rw [List.length_cons] at h
    have h1 := ih (b := b.patch p [x]) (p := p + 1) (by rw [patch_size]; omega)
    rw [storeBytes, store_eq x (by omega), Exec.ok_bind]
    exact h1.trans (congrArg Except.ok (patch_append b p [x] xs).symm)

theorem copy_eq {m xs : List UInt8} {q : Nat} (hm : At m q xs) (h : p + xs.length ≤ b.size) :
    b.copy p m q xs.length = .ok (b.patch p xs) := by
  induction xs generalizing b p q with
  | nil => rfl
  | cons x xs ih =>
    rw [List.length_cons] at h
    have h1 := ih (b := b.patch p [x]) (p := p + 1) (q := q + 1) (At.cons_iff.1 hm).2
      (by rw [patch_size]; omega)
    rw [List.length_cons, copy, load_at hm, Exec.ok_bind, store_eq x (by omega), Exec.ok_bind]
    exact h1.trans (congrArg Except.ok (patch_append b p [x] xs).symm)

/-- What a copy that went through did. -/
theorem copy_ok {b' : Block} {m : List UInt8} {q n : Nat} (h : b.copy p m q n = .ok b') :
    ∃ xs, xs.length = n ∧ At m q xs ∧ (n = 0 ∨ p + n ≤ b.size) ∧ b' = b.patch p xs := by
  induction n generalizing b p q with
  | zero => cases h; exact ⟨[], rfl, .nil, .inl rfl, rfl⟩
  | succ n ih =>
    obtain ⟨v, hv, h⟩ := Exec.bind_ok.1 h
    obtain ⟨b₁, hb₁, h⟩ := Exec.bind_ok.1 h
    obtain ⟨hp, rfl⟩ := store_inv hb₁
    obtain ⟨xs, hlen, hat, hroom, rfl⟩ := ih (b := b.patch p [v]) (p := p + 1) (q := q + 1) h
    refine ⟨v :: xs, by rw [List.length_cons, hlen], At.cons_iff.2 ⟨load_ok.1 hv, hat⟩, .inr ?_, ?_⟩
    · rw [patch_size] at hroom; omega
    · exact (patch_append b p [v] xs).symm

/-- What a store of a whole sequence that went through did. -/
theorem storeBytes_ok {b' : Block} {xs : List UInt8} (hne : xs ≠ []) (h : b.storeBytes p xs = .ok b') :
    p + xs.length ≤ b.size ∧ b' = b.patch p xs := by
  suffices hroom : p + xs.length ≤ b.size by
    rw [storeBytes_eq hroom] at h
    exact ⟨hroom, (Except.ok.inj h).symm⟩
  induction xs generalizing b p with
  | nil => exact absurd rfl hne
  | cons x xs ih =>
    obtain ⟨b₁, hb₁, h⟩ := Exec.bind_ok.1 h
    obtain ⟨hp, rfl⟩ := store_inv hb₁
    cases xs with
    | nil => exact hp
    | cons y xs =>
      have := ih (b := b.patch p [x]) (p := p + 1) (List.cons_ne_nil _ _) h
      rw [patch_size, List.length_cons] at this
      simp only [List.length_cons]
      omega

/-- A store of a sequence that does not fit fails at its first byte outside. -/
theorem storeBytes_error {xs : List UInt8} (hne : xs ≠ []) (h : b.size < p + xs.length) :
    b.storeBytes p xs = .error .write := by
  induction xs generalizing b p with
  | nil => exact absurd rfl hne
  | cons x xs ih =>
    rw [List.length_cons] at h
    rw [storeBytes]
    by_cases hp : p < b.size
    · have hxs : xs ≠ [] := by
        rintro rfl
        rw [List.length_nil] at h
        omega
      rw [store_eq x hp, Exec.ok_bind]
      exact ih (b := b.patch p [x]) (p := p + 1) hxs (by rw [patch_size]; omega)
    · have hfull : b.store p x = .error .write := if_neg hp
      rw [hfull, Exec.error_bind]

theorem at_patch {xs : List UInt8} (h : p + xs.length ≤ b.size) : At (b.patch p xs).bytes p xs :=
  ByteSeq.at_patch _ _ _ (Nat.le_trans h b.size_le)

/-- The text a block holds after it was written at its start with its terminator. -/
theorem cstr_patch {s : List UInt8} (hs : 0 ∉ s) (h : s.length + 1 ≤ b.size) :
    cstr (b.patch 0 (s ++ [0])).bytes = .ok s :=
  cstr_at (p := 0) hs (at_patch (by simpa using h))

end Block

/-! ### What a write does not depend on -/

namespace Block

/-- The blocks have one size and the same bytes before the offset `n`. -/
structure AgreeTo (n : Int) (b b' : Block) : Prop where
  size : b.size = b'.size
  bytes : ∀ p : Nat, (p : Int) < n → b.bytes[p]? = b'.bytes[p]?

namespace AgreeTo
variable {b b' c : Block} {n k : Int}

theorem mono (h : AgreeTo n b b') (hk : k ≤ n) : AgreeTo k b b' :=
  ⟨h.size, fun p hp => h.bytes p (Int.lt_of_lt_of_le hp hk)⟩

theorem zero (h : b.size = b'.size) : AgreeTo 0 b b' := ⟨h, fun p hp => by omega⟩

/-- A byte written where the agreement ends, or before, extends it up to there. -/
theorem store {v : UInt8} (h : AgreeTo n b b') (hk : k ≤ n) (hs : b.store k v = .ok c) :
    ∃ c', b'.store k v = .ok c' ∧ AgreeTo (max n (k + 1)) c c' := by
  cases k with
  | negSucc k => cases hs
  | ofNat k =>
    obtain ⟨hlt, rfl⟩ := store_inv hs
    refine ⟨b'.patch k [v], store_eq v (h.size ▸ hlt), h.size, fun p hp => ?_⟩
    have hset {d : Block} : (d.patch k [v]).bytes = d.bytes.set k v := rfl
    have hb := b.size_le
    have hb' := b'.size_le
    have hsize := h.size
    rw [hset, hset, List.getElem?_set, List.getElem?_set]
    by_cases hpk : k = p
    · rw [if_pos hpk, if_pos hpk, if_pos (by omega), if_pos (by omega)]
    · rw [if_neg hpk, if_neg hpk]
      refine h.bytes p ?_
      have hk : (k : Int) ≤ n := hk
      have hp : (p : Int) < max n ((k : Int) + 1) := hp
      omega

theorem copy {m : List UInt8} {q : Int} {j : Nat} (h : AgreeTo n b b') (hs : b.copy n m q j = .ok c) :
    ∃ c', b'.copy n m q j = .ok c' ∧ AgreeTo (n + j) c c' := by
  induction j generalizing n q b b' with
  | zero =>
    cases hs
    exact ⟨b', rfl, by rwa [Int.natCast_zero, Int.add_zero]⟩
  | succ j ih =>
    obtain ⟨v, hv, hs⟩ := Exec.bind_ok.1 hs
    obtain ⟨b₁, hb₁, hs⟩ := Exec.bind_ok.1 hs
    obtain ⟨b₁', hb₁', h₁⟩ := h.store (Int.le_refl n) hb₁
    obtain ⟨c', hc', h'⟩ := ih (h₁.mono (by omega)) hs
    refine ⟨c', ?_, h'.mono (by omega)⟩
    rw [Block.copy, hv, Exec.ok_bind, hb₁', Exec.ok_bind, hc']

end AgreeTo

end Block

/-! ### Which writes go through -/

namespace Block
variable {b : Block} {p : Int}

theorem store_room (v : UInt8) (h : 0 < room b.size p) : ∃ b' : Block, b'.size = b.size ∧ b.store p v = .ok b' := by
  obtain ⟨h0, hlt⟩ := room_pos h
  obtain ⟨n, rfl⟩ := Int.eq_ofNat_of_zero_le h0
  exact ⟨b.patch n [v], rfl, store_eq v (by omega)⟩

theorem store_full (v : UInt8) (h : room b.size p = 0) : b.store p v = .error .write := by
  cases p with
  | negSucc p => rfl
  | ofNat p =>
    have h : room b.size p = 0 := h
    rw [room_eq (Int.natCast_nonneg p)] at h
    exact if_neg (by omega)

/-- What becomes of a copy depends on the bytes that can be read and on those that can be written. -/
theorem copy_room (b : Block) (p : Int) (m : List UInt8) (q n : Nat) :
    (n ≤ m.length - q → n ≤ room b.size p → ∃ b' : Block, b'.size = b.size ∧ b.copy p m q n = .ok b') ∧
    (m.length - q < n → m.length - q ≤ room b.size p → b.copy p m q n = .error .read) ∧
    (room b.size p < n → room b.size p < m.length - q → b.copy p m q n = .error .write) := by
  induction n generalizing b p q with
  | zero =>
    exact ⟨fun _ _ => ⟨b, rfl, rfl⟩, fun h => absurd h (Nat.not_lt_zero _), fun h => absurd h (Nat.not_lt_zero _)⟩
  | succ n ih =>
    rw [copy]
    rcases Nat.lt_or_ge q m.length with hq | hq
    · rw [load_ok.2 (List.getElem?_eq_getElem hq)]
      rcases Nat.eq_zero_or_pos (room b.size p) with h0 | hpos
      · rw [Exec.ok_bind, store_full _ h0]
        exact ⟨fun _ _ => absurd h0 (by omega), fun _ _ => absurd h0 (by omega), fun _ _ => rfl⟩
      · obtain ⟨b', hsize, hstore⟩ := store_room (m[q]) hpos
        have hroom : room b'.size (p + 1) = room b.size p - 1 := by
          have h0 := (room_pos hpos).1
          rw [hsize, room_eq h0, room_eq (by omega)]
          omega
        obtain ⟨hok, hread, hwrite⟩ := ih b' (p + 1) (q + 1)
        rw [hroom, hsize] at hok
        rw [hroom] at hread hwrite
        rw [Exec.ok_bind, hstore, Exec.ok_bind]
        refine ⟨fun _ _ => hok ?_ ?_, fun _ _ => hread ?_ ?_, fun _ _ => hwrite ?_ ?_⟩ <;>
          clear hok hread hwrite <;> omega
    · rw [load_error hq]
      exact ⟨fun _ _ => by omega, fun _ _ => rfl, fun _ _ => by omega⟩

end Block

end DnsRelay
