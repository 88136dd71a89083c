import Mathlib.Logic.Function.Basic
import DnsRelay.Protocol

/-!
# `Server/map.c`: the ID translation table

`time(NULL)` is read twice in `addToMap`, before and after the check; the two readings are `t₁` and
`t₂`. A client address is a value of an arbitrary type `σ`.
-/

namespace DnsRelay

def maxMapSize : Nat := 128
def convertTtl : Nat := 5
def uint16Max : Nat := 65535

structure MapNode (σ : Type) where
  last : Nat
  origin : UInt16
  fromAddr : σ
  timeOut : Nat
deriving DecidableEq, Repr

/-- `__ID_MAP__` and `__MAP_ALLOC__`. -/
structure IdMap (σ : Type) where
  nodes : Nat → Option (MapNode σ)
  alloc : Nat

namespace IdMap
variable {σ : Type}

/-- The zero-initialised statics; `MapInit` would store the same values. -/
def init : IdMap σ := ⟨fun _ => none, 0⟩

/-- The serial the next `addToMap` draws. -/
def nextSerial (m : IdMap σ) : Nat := (m.alloc + 1) % uint16Max

/-- The time-out check of `addToMap`: the slot is taken and not timed out. -/
def busy (m : IdMap σ) (slot t₁ : Nat) : Bool :=
  match m.nodes slot with
  | some n => t₁ < n.timeOut
  | none => false

def addToMap (m : IdMap σ) (origin : UInt16) (addr : σ) (t₁ t₂ : Nat) : Nat × IdMap σ :=
  let serial := m.nextSerial
  let m := { m with alloc := serial }
  let converted := serial % maxMapSize
  let current := serial / maxMapSize
  if m.busy converted t₁ then
    (uint16Max, m)
  else
    (serial, { m with
      nodes := Function.update m.nodes converted (some ⟨current, origin, addr, t₂ + convertTtl⟩) })

/-- `none` is the return value -1. -/
def queryMap (m : IdMap σ) (serial : Nat) : Option (UInt16 × σ) × IdMap σ :=
  let converted := serial % maxMapSize
  let current := serial / maxMapSize
  match m.nodes converted with
  | none => (none, m)
  | some n =>
    if n.last ≠ current then
      (none, m)
    else
      (some (n.origin, n.fromAddr), { m with nodes := Function.update m.nodes converted none })

/-! ### What one call does -/

theorem addToMap_busy {m : IdMap σ} {t₁ : Nat} (origin : UInt16) (addr : σ) (t₂ : Nat)
    (hb : m.busy (m.nextSerial % maxMapSize) t₁ = true) :
    m.addToMap origin addr t₁ t₂ = (uint16Max, ⟨m.nodes, m.nextSerial⟩) := by
  show (if m.busy (m.nextSerial % maxMapSize) t₁ then _ else _) = _
  rw [if_pos hb]

theorem addToMap_free {m : IdMap σ} {t₁ : Nat} (origin : UInt16) (addr : σ) (t₂ : Nat)
    (hb : m.busy (m.nextSerial % maxMapSize) t₁ = false) :
    m.addToMap origin addr t₁ t₂ = (m.nextSerial, ⟨Function.update m.nodes (m.nextSerial % maxMapSize)
      (some ⟨m.nextSerial / maxMapSize, origin, addr, t₂ + convertTtl⟩), m.nextSerial⟩) := by
  show (if m.busy (m.nextSerial % maxMapSize) t₁ then _ else _) = _
  rw [hb, if_neg Bool.false_ne_true]

theorem queryMap_hit {m : IdMap σ} {serial : Nat} {n : MapNode σ}
    (hn : m.nodes (serial % maxMapSize) = some n) (hl : n.last = serial / maxMapSize) :
    m.queryMap serial = (some (n.origin, n.fromAddr),
      { m with nodes := Function.update m.nodes (serial % maxMapSize) none }) := by
  simp [queryMap, hn, hl]

/-- A response that matches no entry leaves the table alone. -/
theorem queryMap_miss {m : IdMap σ} {serial : Nat}
    (h : ∀ n, m.nodes (serial % maxMapSize) = some n → n.last ≠ serial / maxMapSize) :
    m.queryMap serial = (none, m) := by
  cases hn : m.nodes (serial % maxMapSize) with
  | none => simp [queryMap, hn]
  | some n => simp [queryMap, hn, h n hn]

theorem queryMap_none {m : IdMap σ} {serial : Nat} (h : (m.queryMap serial).1 = none) :
    m.queryMap serial = (none, m) := by
  refine queryMap_miss fun n hn hl => ?_
  rw [queryMap_hit hn hl] at h
  cases h

end IdMap

/-- `SET_ID(buf, &id)` -/
def setId (buf : List UInt8) (id : UInt16) : List UInt8 := ByteSeq.patch buf 0 (le16 id)

/-- What `connectHandle` does with a response once it is parsed: look its ID up and send the
datagram back under the original one. -/
def sendBack {σ : Type} (m : IdMap σ) (id : UInt16) (buf : List UInt8) (len : Nat) :
    Option (σ × List UInt8) × IdMap σ :=
  match m.queryMap id.toNat with
  | (some (origin, addr), m) => (some (addr, (setId buf origin).take len), m)
  | (none, m) => (none, m)

section SendBack
variable {σ : Type} {m : IdMap σ} {id : UInt16} (buf : List UInt8) (len : Nat)

theorem sendBack_hit {n : MapNode σ} (hn : m.nodes (id.toNat % maxMapSize) = some n)
    (hl : n.last = id.toNat / maxMapSize) :
    sendBack m id buf len = (some (n.fromAddr, (setId buf n.origin).take len),
      { m with nodes := Function.update m.nodes (id.toNat % maxMapSize) none }) := by
  simp only [sendBack, IdMap.queryMap_hit hn hl]

theorem sendBack_miss
    (h : ∀ n, m.nodes (id.toNat % maxMapSize) = some n → n.last ≠ id.toNat / maxMapSize) :
    sendBack m id buf len = (none, m) := by
  simp only [sendBack, IdMap.queryMap_miss h]

/-- The two ID bytes change, every other byte of the datagram stays. -/
theorem getElem?_setId {buf : List UInt8} (h2 : 2 ≤ buf.length) (id : UInt16) (k : Nat) :
    (setId buf id)[k]? = if k < 2 then (le16 id)[k]? else buf[k]? := by
  split
  case isTrue hk =>
    have := ByteSeq.at_patch buf 0 (le16 id) (by simpa using h2) k (by rwa [length_le16])
    rwa [Nat.zero_add] at this
  case isFalse hk => exact ByteSeq.getElem?_patch_of_ge (by rw [length_le16]; omega)

end SendBack

end DnsRelay
