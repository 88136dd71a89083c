import DnsRelay.Inet

/-!
# `Service/url.c`: RDATA between wire and text
-/

namespace DnsRelay

/-- The inner `while (1)` of `urlParse`: copy labels found at `zip` to `temp + pos` until the name
ends or a pointer is met. The new `temp_pos` and `name_ptr` come back with the buffer. -/
def copyName (buf : List UInt8) : Nat → Block → Int → Nat → Exec (Block × Int × UInt16)
  | 0, _, _, _ => .error .hang
  | fuel + 1, temp, pos, zip => do
    let c ← load buf zip
    if c = 0 then
      let temp ← temp.store pos 0
      return (temp, pos, 0)
    let ptrTest1 ← load16 buf zip
    if isNamePtr ptrTest1 then
      let ptrTest2 ← load16 buf (zip + 2)
      if isNamePtr ptrTest2 then
        return (temp, pos, ptrTest1)
      let temp ← temp.store pos 0
      return (temp, pos, 0)
    let temp ← temp.copy pos buf zip (c.toNat + 1)
    copyName buf fuel temp (pos + (c.toNat + 1)) (zip + (c.toNat + 1))

/-- A label copied to `temp` moves `temp_pos` on, which the 255 bytes of `temp` allow at most this
often. -/
def copyFuel : Nat := 260

/-- The outer `while` of `urlParse`. -/
def expandName (buf : List UInt8) : Nat → Block → Int → UInt16 → Exec Block
  | 0, _, _, _ => .error .hang
  | fuel + 1, temp, pos, namePtr =>
    if isNamePtr namePtr then do
      let (temp, pos, namePtr) ← copyName buf copyFuel temp pos (getQnamePtr namePtr).toNat
      expandName buf fuel temp pos namePtr
    else
      return temp

/-- A round depends on the 14-bit offset and on `temp_pos` only, so more rounds than there are such
pairs means that one has come back and the loop never ends. -/
def expandFuel : Nat := 16384 * 260

/-- `urlParse(buf + src, dest, addition, mode, len, buf)`: the destination and the preference. -/
def urlParse (C : Libc) (buf : List UInt8) (src : Nat) (dest : Block) (addition : UInt16)
    (mode len : UInt16) (stale : List UInt8) : Exec (Block × UInt16) := do
  if mode = typeQname then
    let dest ← inetParse C .max buf src dest
    return (dest, addition)
  if mode = typeA then
    let dest ← inetParse C .inet buf src dest
    return (dest, addition)
  if mode = typeAaaa then
    let dest ← inetParse C .inet6 buf src dest
    return (dest, addition)
  let (addition, src, len) ← (if mode = typeMx then do
      let pref ← load16 buf src
      return (pref, src + 2, len - 2)
    else return (addition, src, len) : Exec (UInt16 × Nat × UInt16))
  if mode = typeCname ∨ mode = typeMx ∨ mode = typeNs then
    let temp ← (Block.fresh 255 stale).copy 0 buf src len.toNat
    let namePtr ← load16 buf (src + len.toNat - 2)
    let temp ← expandName buf expandFuel temp (len.toNat - 2) namePtr
    let dest ← inetParse C .max temp.bytes 0 dest
    return (dest, addition)
  return (dest, addition)

/-- The `for` loop of `urlFormat` that compares the two names from their ends; the arguments are
`i + 1`, `j + 1` and `pos`. -/
def comparePos (url name : List UInt8) : Nat → Nat → Int → Int
  | 0, _, pos => pos
  | _, 0, pos => pos
  | i + 1, j + 1, pos =>
    if url[i]? ≠ name[j]? then pos else
    let pos := if name[j]? = some dot then (j : Int) + 1 else pos
    let pos := if j = 0 then 0 else pos
    comparePos url name i j pos

/-- `urlFormat(url, resData, mode, name, pointer, addition)`: the return value and the buffer. -/
def urlFormat (C : Libc) (url : List UInt8) (dest : Block) (mode : UInt16) (name : List UInt8)
    (pointer addition : UInt16) : Exec (Int × Block) := do
  if mode = typeA then
    let (n, dest) ← inetFormat C .inet url dest 0
    return ((n : Int), dest)
  if mode = typeAaaa then
    let (n, dest) ← inetFormat C .inet6 url dest 0
    return ((n : Int), dest)
  let (dest, d) ← (if mode = typeMx then do
      let dest ← dest.storeBytes 0 (be16 addition)
      return (dest, 2)
    else return (dest, 0) : Exec (Block × Nat))
  if mode = typeCname ∨ mode = typeMx ∨ mode = typeNs then
    let s ← cstr url
    let q ← cstr name
    let pos := comparePos s q s.length q.length (-1)
    let (resLen, dest) ← inetFormat C .max url dest d
    if pos = -1 then
      let dest ← dest.store (d + resLen) 0
      return ((resLen : Int) + 1, dest)
    let cmpLen : Int := q.length - pos
    let offset := UInt16.ofNat (pointer.toNat + pos.toNat)
    let dest ← dest.storeBytes (d + ((resLen : Int) - 1 - cmpLen)) (be16 offset)
    return ((resLen : Int) - cmpLen + 1 + (if mode = typeMx then 2 else 0), dest)
  return (-1, dest)

end DnsRelay
