import DnsRelay.Protocol

/-!
# `Utils/inet.c`: names and addresses between wire and text

`inet_ntop` and `inet_pton` are the C library's and stay parameters (`Libc`). The two name
conversions are the loops of the source, on memory that may end and buffers that may be too small.
-/

namespace DnsRelay

/-- `inet_ntop` and `inet_pton` for `AF_INET` and `AF_INET6`; `none` is the return value 0. -/
structure Libc where
  ntop4 : List UInt8 → List UInt8
  ntop6 : List UInt8 → List UInt8
  pton4 : List UInt8 → Option (List UInt8)
  pton6 : List UInt8 → Option (List UInt8)

/-- The documented behaviour of the two functions: the text of an address is a C string that fits
`INET_ADDRSTRLEN` bytes (the 40 bytes `inetParse` passes for `AF_INET6`) and reads back as it. -/
structure Libc.Lawful (C : Libc) : Prop where
  text4 : ∀ b : List UInt8, b.length = 4 → 0 ∉ C.ntop4 b ∧ (C.ntop4 b).length ≤ 15
  text6 : ∀ b : List UInt8, b.length = 16 → 0 ∉ C.ntop6 b ∧ (C.ntop6 b).length ≤ 39
  inv4 : ∀ b : List UInt8, b.length = 4 → C.pton4 (C.ntop4 b) = some b
  inv6 : ∀ b : List UInt8, b.length = 16 → C.pton6 (C.ntop6 b) = some b

inductive Af
  | inet
  | inet6
  | max
deriving DecidableEq, Repr

def dot : UInt8 := 46

/-- The `while` loop of `inetParse` for `AF_MAX`. Every round that ends writes `dest[pos + len]` and
sets `pos` to `pos + len + 1`, so the rounds after the first start at one of the positions
`1 .. dest.size`; the next round depends on the position only, and a loop that is still running
after `dest.size + 2` rounds never ends. -/
def labelWalk (src : List UInt8) (off : Int) : Nat → Int → Block → Exec (Int × Block)
  | 0, _, _ => .error .hang
  | fuel + 1, pos, dest => do
    let c ← load src (off + pos)
    if c = 0 then
      return (pos, dest)
    let len : Int := if schar c > 64 then 64 else schar c
    let dest ← dest.copy pos src (off + pos + 1) len.toNat
    let dest ← dest.store (pos + len) dot
    labelWalk src off fuel (pos + (len + 1)) dest

/-- `inetParse(af, src + off, dest)`. Every caller ignores the return value. -/
def inetParse (C : Libc) (af : Af) (src : List UInt8) (off : Int) (dest : Block) : Exec Block :=
  match af with
  | .inet => do
    let b ← loadBytes src off 4
    if (C.ntop4 b).length + 1 ≤ 16 then dest.storeBytes 0 (C.ntop4 b ++ [0]) else return dest
  | .inet6 => do
    let b ← loadBytes src off 16
    if (C.ntop6 b).length + 1 ≤ 40 then dest.storeBytes 0 (C.ntop6 b ++ [0]) else return dest
  | .max => do
    let (pos, dest) ← labelWalk src off (dest.size + 2) 0 dest
    dest.store (pos - 1) 0

/-- The inner `while` loop of `inetFormat`: copy up to the next `.` or NUL, counting in a `uint8_t`. -/
def formatLabel : List UInt8 → Block → Nat → UInt8 → Exec (List UInt8 × Block × Nat × UInt8)
  | [], _, _, _ => .error .read
  | c :: src, dest, destPos, len =>
    if c = dot ∨ c = 0 then return (c :: src, dest, destPos, len) else do
    let dest ← dest.store destPos c
    formatLabel src dest (destPos + 1) (len + 1)

/-- The outer `while` loop of `inetFormat`. It steps over the byte that ended the label, the
terminator of the string included. -/
def formatLoop : Nat → List UInt8 → Block → Nat → Nat → Exec (Block × Nat)
  | 0, _, _, _, _ => .error .hang
  | fuel + 1, src, dest, lenPos, destPos => do
    let c ← load src 0
    if c = 0 then
      return (dest, destPos)
    let (src, dest, destPos, len) ← formatLabel src dest destPos 0
    let dest ← dest.store lenPos len
    formatLoop fuel (src.drop 1) dest destPos (destPos + 1)

/-- `inetFormat(af, url_src, dest + d)`: the length it returns and the buffer it leaves. -/
def inetFormat (C : Libc) (af : Af) (url : List UInt8) (dest : Block) (d : Nat) :
    Exec (Nat × Block) :=
  match af with
  | .inet => do
    let s ← cstr url
    match C.pton4 s with
    | none => return (0, dest)
    | some b =>
      let dest ← dest.storeBytes d b
      return (4, dest)
  | .inet6 => do
    let s ← cstr url
    match C.pton6 s with
    | none => return (0, dest)
    | some b =>
      let dest ← dest.storeBytes d b
      return (16, dest)
  | .max => do
    let (dest, destPos) ← formatLoop (url.length + 1) url dest d (d + 1)
    let dest ← dest.store (destPos - 1 : Nat) 0
    let s ← cstr url
    return (s.length + 1, dest)

/-! ### A C library

The IPv4 functions are the usual ones; an IPv6 address is written as its 32 hexadecimal digits. -/

def decimal (b : UInt8) : List UInt8 :=
  if b < 10 then [48 + b] else if b < 100 then [48 + b / 10, 48 + b % 10]
  else [48 + b / 100, 48 + b / 10 % 10, 48 + b % 10]

def undecimal (s : List UInt8) : UInt8 := s.foldl (fun n d => 10 * n + (d - 48)) 0

def hexDigit (d : UInt8) : UInt8 := if d < 10 then 48 + d else 87 + d
def unhexDigit (c : UInt8) : UInt8 := if c < 58 then c - 48 else c - 87

def hex (b : List UInt8) : List UInt8 := b.flatMap fun b => [hexDigit (b / 16), hexDigit (b % 16)]

def unhex : List UInt8 → List UInt8
  | c :: d :: s => (16 * unhexDigit c + unhexDigit d) :: unhex s
  | _ => []

def Libc.decimal : Libc where
  ntop4 b := List.intercalate [dot] (b.map DnsRelay.decimal)
  ntop6 b := hex b
  pton4 s := if ((s.splitOn dot).map undecimal).length = 4 then some ((s.splitOn dot).map undecimal) else none
  pton6 s := if (unhex s).length = 16 then some (unhex s) else none

theorem forall_byte {P : UInt8 → Prop} (h : ∀ n : Fin 256, P (UInt8.ofNat n)) (b : UInt8) : P b := by
  have := h ⟨b.toNat, b.toNat_lt⟩
  rwa [UInt8.ofNat_toNat] at this

theorem decimal_spec : ∀ b : UInt8, undecimal (decimal b) = b ∧ dot ∉ decimal b ∧ 0 ∉ decimal b ∧
    (decimal b).length ≤ 3 :=
  forall_byte (by decide +kernel)

theorem hex_spec : ∀ b : UInt8, 16 * unhexDigit (hexDigit (b / 16)) + unhexDigit (hexDigit (b % 16)) = b ∧
    hexDigit (b / 16) ≠ 0 ∧ hexDigit (b % 16) ≠ 0 :=
  forall_byte (by decide +kernel)

theorem unhex_hex (b : List UInt8) : unhex (hex b) = b := by
  induction b with
  | nil => rfl
  | cons b bs ih => exact congrArg₂ List.cons (hex_spec b).1 ih

theorem Libc.decimal_lawful : Libc.decimal.Lawful where
  text4 b hb := by
    match b, hb with
    | [b₁, b₂, b₃, b₄], _ =>
      obtain ⟨-, -, z₁, l₁⟩ := decimal_spec b₁
      obtain ⟨-, -, z₂, l₂⟩ := decimal_spec b₂
      obtain ⟨-, -, z₃, l₃⟩ := decimal_spec b₃
      obtain ⟨-, -, z₄, l₄⟩ := decimal_spec b₄
      constructor
      · simp [Libc.decimal, List.intercalate_cons_cons, z₁, z₂, z₃, z₄, dot]
      · simp only [Libc.decimal, List.map_cons, List.map_nil, List.intercalate_cons_cons,
          List.intercalate_singleton, List.length_append, List.length_singleton]
        omega
  text6 b hb := by
    constructor
    · intro hz
      obtain ⟨b, -, hz⟩ := List.mem_flatMap.1 hz
      obtain ⟨-, h₁, h₂⟩ := hex_spec b
      rcases List.mem_cons.1 hz with h | hz
      · exact h₁ h.symm
      · exact h₂ (List.mem_singleton.1 hz).symm
    · have : (hex b).length = 2 * b.length := by
        rw [hex, List.length_flatMap]
        simp [Nat.mul_comm]
      show (hex b).length ≤ 39
      omega
  inv4 b hb := by
    have hne : b.map DnsRelay.decimal ≠ [] := by
      rw [ne_eq, List.map_eq_nil_iff]
      rintro rfl
      simp at hb
    have hdot : ∀ l ∈ b.map DnsRelay.decimal, dot ∉ l := by
      intro l hl
      obtain ⟨b, -, rfl⟩ := List.mem_map.1 hl
      exact (decimal_spec b).2.1
    have hback : (List.splitOn dot (List.intercalate [dot] (b.map DnsRelay.decimal))).map undecimal = b := by
      rw [List.splitOn_intercalate dot hdot hne, List.map_map]
      exact (List.map_congr_left fun b _ => (decimal_spec b).1).trans (List.map_id b)
    simp only [Libc.decimal, hback, hb, if_true]
  inv6 b hb := by simp only [Libc.decimal, unhex_hex, hb, if_true]

/-- `inet_pton` stores an address of the family's size. -/
structure Libc.Sized (C : Libc) : Prop where
  pton4 : ∀ s b, C.pton4 s = some b → b.length = 4
  pton6 : ∀ s b, C.pton6 s = some b → b.length = 16

theorem Libc.decimal_sized : Libc.decimal.Sized where
  pton4 s b h := by
    simp only [Libc.decimal] at h
    split at h
    case isTrue hlen => cases h; exact hlen
    case isFalse => cases h
  pton6 s b h := by
    simp only [Libc.decimal] at h
    split at h
    case isTrue hlen => cases h; exact hlen
    case isFalse => cases h

end DnsRelay
