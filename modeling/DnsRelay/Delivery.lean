import DnsRelay.Relay
import DnsRelay.Server

/-!
# Who gets which datagram

The outputs of a whole run. Position `k` of the run is the `k`-th event; `before` is the state it meets and
`sent` is what `connectHandle` sends for it. A relayed request is *open* while no later request has been relayed
through its slot and nothing has been sent back under its serial. The ID map is a function of that history:
slot `c` holds the node of the open request with that slot (`nodes_iff`). So a response is sent back if and only
if a request is open under its ID, and then to the client of that request, under the ID the client chose.
-/

namespace DnsRelay
open Exec

namespace Server
variable {σ : Type}

section
variable (cfg : Config) (o : Option (Server σ)) (es : List (Event σ))

/-- The state that event `k` meets. -/
def before (k : Nat) : Option (Server σ) := (run cfg o (es.take k)).1

/-- What is sent for event `k`. -/
def sent (k : Nat) : Option (Output σ) := ((run cfg o es).2[k]?).join

/-- Event `k` is a request with ID `id` that goes upstream under the serial `x`. -/
structure Relayed (k : Nat) (d : Datagram σ) (x id : UInt16) : Prop where
  event : es[k]? = some (.datagram d)
  head : load16le d.buf 0 = .ok id
  serial : ∃ s, before cfg o es k = some s ∧ s.map.nextSerial = x.toNat
  sent : sent cfg o es k = some (.relay ((setId d.buf x).take d.len))

/-- The datagram has QR = 1 and the ID `x`. -/
def IsResponse (d : Datagram σ) (x : UInt16) : Prop :=
  load16le d.buf 0 = .ok x ∧ ∃ flags, load16 d.buf 2 = .ok flags ∧ getQr flags = 1

/-- Before event `n`: request `k` is relayed under `x`, no later request has taken its slot, and nothing was sent
for a response with its serial. -/
structure Open (k n : Nat) (d : Datagram σ) (x id : UInt16) : Prop where
  lt : k < n
  relayed : Relayed cfg o es k d x id
  last : ∀ k', k < k' → k' < n → ∀ d' x' id', Relayed cfg o es k' d' x' id' →
    x'.toNat % maxMapSize ≠ x.toNat % maxMapSize
  unanswered : ∀ k', k < k' → k' < n → ∀ d', es[k']? = some (.datagram d') → IsResponse d' x →
    Server.sent cfg o es k' = none

end

/-! ### Positions in a run -/

section
variable {cfg : Config} {o : Option (Server σ)} {es es' : List (Event σ)} {e : Event σ} {k n : Nat}

theorem run_append (o : Option (Server σ)) (es es' : List (Event σ)) :
    (run cfg o (es ++ es')).1 = (run cfg (run cfg o es).1 es').1 ∧
    (run cfg o (es ++ es')).2 = (run cfg o es).2 ++ (run cfg (run cfg o es).1 es').2 := by
  induction es generalizing o with
  | nil => exact ⟨rfl, rfl⟩
  | cons e es ih =>
    obtain ⟨h₁, h₂⟩ := ih (step cfg o e).1
    exact ⟨h₁, congrArg ((step cfg o e).2 :: ·) h₂⟩

theorem length_run (o : Option (Server σ)) (es : List (Event σ)) : (run cfg o es).2.length = es.length := by
  induction es generalizing o with
  | nil => rfl
  | cons e es ih => exact congrArg Nat.succ (ih (step cfg o e).1)

theorem before_succ (he : es[k]? = some e) : before cfg o es (k + 1) = (step cfg (before cfg o es k) e).1 := by
  unfold before
  rw [List.take_add_one, he, Option.toList_some, (run_append o (es.take k) [e]).1]
  rfl

theorem sent_eq (he : es[k]? = some e) : sent cfg o es k = (step cfg (before cfg o es k) e).2 := by
  obtain ⟨hk, rfl⟩ := List.getElem?_eq_some_iff.1 he
  have hsplit : es = es.take k ++ es[k] :: es.drop (k + 1) := by simp
  have hlen : (run cfg o (es.take k)).2.length = k := by
    rw [length_run, List.length_take, Nat.min_eq_left hk.le]
  unfold sent
  conv_lhs => rw [hsplit]
  rw [(run_append o _ _).2, List.getElem?_append_right hlen.le, hlen, Nat.sub_self]
  rfl

/-- A server that is running was running before. -/
theorem before_some {s : Server σ} (he : es[k]? = some e) (h : before cfg o es (k + 1) = some s) :
    ∃ s₀, before cfg o es k = some s₀ ∧ step cfg (some s₀) e = (some s, sent cfg o es k) := by
  rw [before_succ he] at h
  rw [sent_eq he]
  cases hs : before cfg o es k with
  | none => rw [hs] at h; cases h
  | some s₀ =>
    rw [hs] at h
    exact ⟨s₀, rfl, Prod.ext h rfl⟩

end

/-! ### What an event does to the ID map -/

section
variable {cfg : Config} {s s' : Server σ} {e : Event σ} {out : Option (Output σ)} {d : Datagram σ}

/-- The event does not touch the nodes of the map, and sends nothing or answers a request itself. -/
def Keeps (s s' : Server σ) (e : Event σ) (out : Option (Output σ)) : Prop :=
  s'.map.nodes = s.map.nodes ∧
    (out = none ∨ ∃ d bytes, e = .datagram d ∧ (∀ x, ¬ IsResponse d x) ∧ out = some (.reply d.addr bytes))

/-- The event is a request that is relayed under the next serial, through a slot that is not busy. -/
structure Sends (s s' : Server σ) (d : Datagram σ) (x id : UInt16) (out : Option (Output σ)) : Prop where
  request : ∀ x, ¬ IsResponse d x
  head : load16le d.buf 0 = .ok id
  serial : s.map.nextSerial = x.toNat
  sent : out = some (.relay ((setId d.buf x).take d.len))
  nodes : s'.map.nodes = Function.update s.map.nodes (x.toNat % maxMapSize)
    (some ⟨x.toNat / maxMapSize, id, d.addr, d.clk.added + convertTtl⟩)

/-- The event is a response that is sent back to the client its slot names, and clears the slot. -/
structure SendsBack (s s' : Server σ) (d : Datagram σ) (x : UInt16) (node : MapNode σ) (out : Option (Output σ)) :
    Prop where
  response : IsResponse d x
  slot : s.map.nodes (x.toNat % maxMapSize) = some node
  last : node.last = x.toNat / maxMapSize
  sent : out = some (.reply node.fromAddr ((setId d.buf node.origin).take d.len))
  nodes : s'.map.nodes = Function.update s.map.nodes (x.toNat % maxMapSize) none

theorem IsResponse.unique {x y : UInt16} (h : IsResponse d x) (h' : IsResponse d y) : x = y :=
  Except.ok.inj (h.1.symm.trans h'.1)

theorem isResponse_iff {p : Packet} (hp : packetParse cfg.libc d.stale d.buf d.len = .ok p) (x : UInt16) :
    IsResponse d x ↔ x = p.id ∧ getQr p.flags = 1 := by
  obtain ⟨hid, hflags, -⟩ := packetParse_fields hp
  constructor
  · rintro ⟨hx, flags, hf, hqr⟩
    rw [hid] at hx
    rw [hflags] at hf
    cases hx
    cases hf
    exact ⟨rfl, hqr⟩
  · rintro ⟨rfl, hqr⟩
    exact ⟨hid, p.flags, hflags, hqr⟩

/-- A response that is processed to its end is sent back if and only if its ID finds a node. -/
theorem handleResponse_map {p : Packet} (hp : packetParse cfg.libc d.stale d.buf d.len = .ok p)
    (hqr : getQr p.flags = 1) (h : handleResponse cfg s d p = .ok (s', out)) :
    (∃ node, SendsBack s s' d p.id node out) ∨ s'.map = s.map ∧ out = none ∧
      ∀ node, s.map.nodes (p.id.toNat % maxMapSize) = some node → node.last ≠ p.id.toNat / maxMapSize := by
  have hresp := (isResponse_iff hp p.id).2 ⟨rfl, hqr⟩
  obtain ⟨cache, -, rfl, rfl⟩ := handleResponse_ok h
  by_cases hhit : ∃ node, s.map.nodes (p.id.toNat % maxMapSize) = some node ∧ node.last = p.id.toNat / maxMapSize
  · obtain ⟨node, hn, hl⟩ := hhit
    rw [sendBack_hit d.buf d.len hn hl]
    exact .inl ⟨node, hresp, hn, hl, rfl, rfl⟩
  · have hmiss : ∀ node, s.map.nodes (p.id.toNat % maxMapSize) = some node → node.last ≠ p.id.toNat / maxMapSize :=
      fun node hn hl => hhit ⟨node, hn, hl⟩
    rw [sendBack_miss d.buf d.len hmiss]
    exact .inr ⟨rfl, rfl, hmiss⟩

theorem nextSerial_lt (m : IdMap σ) : m.nextSerial < uint16Max := Nat.mod_lt _ (by decide)

theorem handleRequest_map {p : Packet} (hp : packetParse cfg.libc d.stale d.buf d.len = .ok p)
    (hqr : getQr p.flags ≠ 1) (h : handleRequest cfg s d p = .ok (s', out)) :
    Keeps s s' (.datagram d) out ∨ ∃ x, Sends s s' d x p.id out := by
  have hreq : ∀ x, ¬ IsResponse d x := fun x hx => hqr ((isResponse_iff hp x).1 hx).2
  obtain ⟨hid, -, -, -⟩ := packetParse_fields hp
  obtain ⟨⟨ret, p', cache⟩, hq, h⟩ := bind_ok.1 h
  have hpid : p'.id = p.id := by
    obtain ⟨y, -, hq⟩ := bind_ok.1 hq
    cases hq
    rfl
  dsimp only at h
  split at h
  case isFalse =>
    obtain ⟨r, -, h⟩ := bind_ok.1 h
    cases h
    exact .inl ⟨rfl, .inr ⟨d, _, rfl, hreq, rfl⟩⟩
  case isTrue =>
    cases hb : s.map.busy (s.map.nextSerial % maxMapSize) d.clk.check with
    | true =>
      rw [IdMap.addToMap_busy _ _ _ hb] at h
      dsimp only at h
      rw [if_pos rfl] at h
      cases h
      exact .inl ⟨rfl, .inl rfl⟩
    | false =>
      have hlt := nextSerial_lt s.map
      have hx : (UInt16.ofNat s.map.nextSerial).toNat = s.map.nextSerial := by
        rw [UInt16.toNat_ofNat']
        exact Nat.mod_eq_of_lt (Nat.lt_succ_of_lt hlt)
      rw [IdMap.addToMap_free _ _ _ hb] at h
      dsimp only at h
      rw [if_neg hlt.ne] at h
      cases h
      refine .inr ⟨UInt16.ofNat s.map.nextSerial, hreq, hid, hx.symm, rfl, ?_⟩
      rw [hx, hpid]

theorem step_map (h : step cfg (some s) e = (some s', out)) :
    Keeps s s' e out ∨ (∃ d x id, e = .datagram d ∧ Sends s s' d x id out) ∨
      ∃ d x node, e = .datagram d ∧ SendsBack s s' d x node out := by
  rcases step_some h with hok | ⟨rfl, rfl⟩
  · cases e with
    | scan clk =>
      obtain ⟨x, -, hok⟩ := bind_ok.1 hok
      cases hok
      exact .inl ⟨rfl, .inl rfl⟩
    | datagram d =>
      obtain ⟨p, hp, hok⟩ := bind_ok.1 hok
      split at hok
      case isTrue hqr =>
        rcases handleResponse_map hp hqr hok with ⟨node, hback⟩ | ⟨hmap, hout, -⟩
        · exact .inr (.inr ⟨d, p.id, node, rfl, hback⟩)
        · exact .inl ⟨by rw [hmap], .inl hout⟩
      case isFalse hqr =>
        rcases handleRequest_map hp hqr hok with hkeep | ⟨x, hsend⟩
        · exact .inl hkeep
        · exact .inr (.inl ⟨d, x, p.id, rfl, hsend⟩)
  · exact .inl ⟨rfl, .inl rfl⟩

theorem Keeps.not_relay (h : Keeps s s' e out) (bytes : List UInt8) : out ≠ some (.relay bytes) := by
  rcases h.2 with rfl | ⟨d, bytes', -, -, rfl⟩ <;> simp

theorem Keeps.unanswered (h : Keeps s s' (.datagram d) out) {x : UInt16} (hx : IsResponse d x) : out = none := by
  rcases h.2 with rfl | ⟨d', bytes, he, hreq, rfl⟩
  · rfl
  · cases he
    exact absurd hx (hreq x)

end

/-! ### The map as a function of the history -/

section
variable {cfg : Config} {o : Option (Server σ)} {es : List (Event σ)} {k n : Nat} {d : Datagram σ} {x id : UInt16}

/-- The node that a relayed request leaves in its slot. -/
def nodeOf (d : Datagram σ) (x id : UInt16) : MapNode σ :=
  ⟨x.toNat / maxMapSize, id, d.addr, d.clk.added + convertTtl⟩

theorem open_succ : Open cfg o es k (n + 1) d x id ↔
    k = n ∧ Relayed cfg o es n d x id ∨
    Open cfg o es k n d x id ∧
      (∀ d' x' id', Relayed cfg o es n d' x' id' → x'.toNat % maxMapSize ≠ x.toNat % maxMapSize) ∧
      ∀ d', es[n]? = some (.datagram d') → IsResponse d' x → sent cfg o es n = none := by
  constructor
  · intro h
    rcases Nat.lt_succ_iff_lt_or_eq.1 h.lt with hlt | rfl
    · refine .inr ⟨⟨hlt, h.relayed, fun k' hk hn => h.last k' hk (Nat.lt_succ_of_lt hn),
        fun k' hk hn => h.unanswered k' hk (Nat.lt_succ_of_lt hn)⟩, ?_, ?_⟩
      · exact h.last n hlt n.lt_succ_self
      · exact h.unanswered n hlt n.lt_succ_self
    · exact .inl ⟨rfl, h.relayed⟩
  · rintro (⟨rfl, h⟩ | ⟨h, hlast, hun⟩)
    · exact ⟨k.lt_succ_self, h, fun k' hk hn => by omega, fun k' hk hn => by omega⟩
    · refine ⟨Nat.lt_succ_of_lt h.lt, h.relayed, fun k' hk hn => ?_, fun k' hk hn => ?_⟩
      · rcases Nat.lt_succ_iff_lt_or_eq.1 hn with hn | rfl
        · exact h.last k' hk hn
        · exact hlast
      · rcases Nat.lt_succ_iff_lt_or_eq.1 hn with hn | rfl
        · exact h.unanswered k' hk hn
        · exact hun

/-- A slot holds the node of the open request that was relayed through it. -/
theorem nodes_iff (list : Nat → DNSEntry) (links : Links Node) {s : Server σ} (hn : n ≤ es.length)
    (hs : before cfg (some (.init list links)) es n = some s) (c : Nat) (node : MapNode σ) :
    s.map.nodes c = some node ↔ ∃ k d x id, Open cfg (some (.init list links)) es k n d x id ∧
      x.toNat % maxMapSize = c ∧ nodeOf d x id = node := by
  induction n generalizing s c node with
  | zero =>
    cases hs
    constructor
    · intro h
      cases h
    · rintro ⟨k, d, x, id, h, -⟩
      exact absurd h.lt (Nat.not_lt_zero k)
  | succ n ih =>
    obtain ⟨e, he⟩ : ∃ e, es[n]? = some e := ⟨es[n], List.getElem?_eq_getElem hn⟩
    obtain ⟨s₀, hs₀, hstep⟩ := before_some he hs
    have ih := fun c node => ih (Nat.le_of_succ_le hn) hs₀ c node
    simp only [open_succ]
    rcases step_map hstep with hkeep | ⟨d₀, x₀, id₀, rfl, hsend⟩ | ⟨d₀, x₀, node₀, rfl, hback⟩
    · -- nothing is relayed and nothing is sent back
      have hno : ∀ d x id, ¬ Relayed cfg (some (.init list links)) es n d x id :=
        fun d x id hr => hkeep.not_relay _ hr.sent
      have hun : ∀ x d', es[n]? = some (.datagram d') → IsResponse d' x →
          sent cfg (some (.init list links)) es n = none := by
        intro x d' he' hx
        rw [he] at he'
        cases he'
        exact hkeep.unanswered hx
      rw [hkeep.1, ih]
      constructor
      · rintro ⟨k, d, x, id, h, hc⟩
        exact ⟨k, d, x, id, .inr ⟨h, fun d' x' id' hr => absurd hr (hno d' x' id'), hun x⟩, hc⟩
      · rintro ⟨k, d, x, id, ⟨-, hr⟩ | ⟨h, -⟩, hc⟩
        · exact absurd hr (hno d x id)
        · exact ⟨k, d, x, id, h, hc⟩
    · -- the request takes its slot over
      have hr₀ : Relayed cfg (some (.init list links)) es n d₀ x₀ id₀ := ⟨he, hsend.head, ⟨s₀, hs₀, hsend.serial⟩, hsend.sent⟩
      have huniq : ∀ d x id, Relayed cfg (some (.init list links)) es n d x id → d = d₀ ∧ x = x₀ ∧ id = id₀ := by
        intro d x id hr
        obtain ⟨s, hs, hx⟩ := hr.serial
        have hd := hr.event
        rw [he] at hd
        rw [hs₀] at hs
        cases hd
        cases hs
        exact ⟨rfl, UInt16.toNat_inj.1 (hx.symm.trans hsend.serial), Except.ok.inj (hr.head.symm.trans hsend.head)⟩
      have hun : ∀ x d', es[n]? = some (.datagram d') → IsResponse d' x →
          sent cfg (some (.init list links)) es n = none := by
        intro x d' he' hx
        rw [he] at he'
        cases he'
        exact absurd hx (hsend.request x)
      rw [hsend.nodes]
      by_cases hc : c = x₀.toNat % maxMapSize
      · subst hc
        rw [Function.update_self, Option.some.injEq]
        constructor
        · rintro rfl
          exact ⟨n, d₀, x₀, id₀, .inl ⟨rfl, hr₀⟩, rfl, rfl⟩
        · rintro ⟨k, d, x, id, ⟨-, hr⟩ | ⟨-, hlast, -⟩, hc, rfl⟩
          · obtain ⟨rfl, rfl, rfl⟩ := huniq d x id hr
            rfl
          · exact absurd hc.symm (hlast d₀ x₀ id₀ hr₀)
      · rw [Function.update_of_ne hc, ih]
        constructor
        · rintro ⟨k, d, x, id, h, rfl, rfl⟩
          refine ⟨k, d, x, id, .inr ⟨h, fun d' x' id' hr => ?_, hun x⟩, rfl, rfl⟩
          obtain ⟨-, rfl, -⟩ := huniq d' x' id' hr
          exact Ne.symm hc
        · rintro ⟨k, d, x, id, ⟨-, hr⟩ | ⟨h, -⟩, rfl, rfl⟩
          · obtain ⟨-, rfl, -⟩ := huniq d x id hr
            exact absurd rfl hc
          · exact ⟨k, d, x, id, h, rfl, rfl⟩
    · -- the slot is cleared: its request is answered
      have hno : ∀ d x id, ¬ Relayed cfg (some (.init list links)) es n d x id := by
        intro d x id hr
        have := hr.sent
        rw [hback.sent] at this
        cases this
      have hun : ∀ x, (∀ d', es[n]? = some (.datagram d') → IsResponse d' x →
          sent cfg (some (.init list links)) es n = none) ↔ x ≠ x₀ := by
        intro x
        constructor
        · rintro h rfl
          have := h d₀ he hback.response
          rw [hback.sent] at this
          cases this
        · intro hx d' he' hresp
          rw [he] at he'
          cases he'
          exact absurd (hresp.unique hback.response) hx
      rw [hback.nodes]
      by_cases hc : c = x₀.toNat % maxMapSize
      · subst hc
        rw [Function.update_self]
        refine iff_of_false nofun ?_
        rintro ⟨k, d, x, id, ⟨-, hr⟩ | ⟨h, -, hx⟩, hc, rfl⟩
        · exact hno d x id hr
        · have hnode := (ih _ _).2 ⟨k, d, x, id, h, hc, rfl⟩
          rw [hback.slot, Option.some.injEq] at hnode
          have hlast := hback.last
          rw [hnode] at hlast
          exact (hun x).1 hx (UInt16.toNat_inj.1 (Relay.serial_eq_of_slot_last hc hlast))
      · rw [Function.update_of_ne hc, ih]
        constructor
        · rintro ⟨k, d, x, id, h, rfl, rfl⟩
          refine ⟨k, d, x, id, .inr ⟨h, fun d' x' id' hr => absurd hr (hno d' x' id'), (hun x).2 ?_⟩, rfl, rfl⟩
          rintro rfl
          exact hc rfl
        · rintro ⟨k, d, x, id, ⟨-, hr⟩ | ⟨h, -⟩, hc⟩
          · exact absurd hr (hno d x id)
          · exact ⟨k, d, x, id, h, hc⟩

theorem Open.unique {k' : Nat} {d' : Datagram σ} {id' : UInt16} (h : Open cfg o es k n d x id)
    (h' : Open cfg o es k' n d' x id') : k = k' := by
  rcases Nat.lt_trichotomy k k' with hlt | heq | hlt
  · exact absurd rfl (h.last k' hlt h'.lt d' x id' h'.relayed)
  · exact heq
  · exact absurd rfl (h'.last k hlt h.lt d x id h.relayed)

/-- Event `n` is a response to the relayed request `k`, and is sent back to its client under the client's ID. -/
def Answers (cfg : Config) (o : Option (Server σ)) (es : List (Event σ)) (k n : Nat) : Prop :=
  ∃ d x d' id, es[n]? = some (.datagram d) ∧ IsResponse d x ∧ Open cfg o es k n d' x id ∧
    sent cfg o es n = some (.reply d'.addr ((setId d.buf id).take d.len))

/-- The server gets to the end of event `n`. -/
def Processed (cfg : Config) (o : Option (Server σ)) (es : List (Event σ)) (n : Nat) : Prop :=
  ∃ s e r, es[n]? = some e ∧ before cfg o es n = some s ∧ handle cfg s e = .ok r

/-- What is sent for a response answers an open request. -/
theorem answers_of_sent (list : Nat → DNSEntry) (links : Links Node) (he : es[n]? = some (.datagram d))
    (hx : IsResponse d x) {out : Output σ} (hout : sent cfg (some (.init list links)) es n = some out) :
    ∃ k d' id, Open cfg (some (.init list links)) es k n d' x id ∧
      out = .reply d'.addr ((setId d.buf id).take d.len) := by
  rw [sent_eq he] at hout
  cases hs : before cfg (some (Server.init list links)) es n with
  | none =>
    rw [hs] at hout
    cases hout
  | some s =>
    rw [hs] at hout
    obtain ⟨s', hstep⟩ : ∃ s', step cfg (some s) (.datagram d) = (s', some out) := ⟨_, Prod.ext rfl hout⟩
    obtain ⟨s', rfl⟩ : ∃ s₁, s' = some s₁ := by
      rw [step] at hstep
      split at hstep <;> cases hstep
      exact ⟨_, rfl⟩
    rcases step_map hstep with hkeep | ⟨d₀, x₀, id₀, he₀, hsend⟩ | ⟨d₀, x₀, node, he₀, hback⟩
    · cases hkeep.unanswered hx
    · cases he₀
      exact absurd hx (hsend.request x)
    · cases he₀
      obtain rfl := hback.response.unique hx
      have hn := (List.getElem?_eq_some_iff.1 he).1
      obtain ⟨k, d', x', id, hopen, hslot, hnode⟩ := (nodes_iff list links hn.le hs _ _).1 hback.slot
      have hlast := hback.last
      rw [← hnode] at hlast
      obtain rfl := UInt16.toNat_inj.1 (Relay.serial_eq_of_slot_last hslot hlast)
      refine ⟨k, d', id, hopen, ?_⟩
      rw [Option.some.inj hback.sent, ← hnode]
      rfl

/-- A response that is processed is sent back if and only if a request is open under its ID, and then to the client
of that request, under the ID the client chose. -/
theorem sent_back_iff (list : Nat → DNSEntry) (links : Links Node) (he : es[n]? = some (.datagram d))
    (hx : IsResponse d x) (hp : Processed cfg (some (.init list links)) es n) (out : Output σ) :
    sent cfg (some (.init list links)) es n = some out ↔
      ∃ k d' id, Open cfg (some (.init list links)) es k n d' x id ∧
        out = .reply d'.addr ((setId d.buf id).take d.len) := by
  refine ⟨answers_of_sent list links he hx, ?_⟩
  rintro ⟨k, d', id, hopen, rfl⟩
  obtain ⟨s, e, ⟨s', out⟩, he', hs, hok⟩ := hp
  rw [he] at he'
  cases he'
  have hn := (List.getElem?_eq_some_iff.1 he).1
  have hnode := (nodes_iff list links hn.le hs _ _).2 ⟨k, d', x, id, hopen, rfl, rfl⟩
  have hsent : sent cfg (some (.init list links)) es n = out := by
    rw [sent_eq he, hs, step, hok]
  obtain ⟨p, hparse, hok⟩ := bind_ok.1 hok
  obtain ⟨rfl, hqr⟩ := (isResponse_iff hparse x).1 hx
  rw [if_pos hqr] at hok
  rw [hsent]
  rcases handleResponse_map hparse hqr hok with ⟨node, hback⟩ | ⟨-, -, hmiss⟩
  · have hslot := hback.slot
    rw [hnode, Option.some.injEq] at hslot
    rw [hback.sent, ← hslot]
    rfl
  · exact absurd rfl (hmiss _ hnode)

/-- The client 5 asks for `a`, and upstream answers under the serial of the request. -/
def relayRun : List (Event Nat) := [.datagram (.request typeA 97 100), .datagram (.response 1 97 101)]

theorem sent_back_iff_relayed : sent smallConfig (some .zeroed) relayRun 1 =
    some (.reply 5 ((setId (Datagram.response 1 97 101).buf 0x1234).take 35)) := by
  have hopen : Open smallConfig (some .zeroed) relayRun 0 1 (.request typeA 97 100) 1 0x1234 :=
    ⟨Nat.one_pos, ⟨rfl, by decide, ⟨_, rfl, by decide⟩, by decide +kernel⟩, fun k' _ _ => by omega, fun k' _ _ => by omega⟩
  have hp : Processed smallConfig (some .zeroed) relayRun 1 := by
    have hsome : (before smallConfig (some .zeroed) relayRun 1).isSome = true := by decide +kernel
    obtain ⟨s, hs⟩ := Option.isSome_iff_exists.1 hsome
    have hok : ((before smallConfig (some .zeroed) relayRun 1).map fun s =>
        (handle smallConfig s (.datagram (.response 1 97 101))).isOk) = some true := by decide +kernel
    rw [hs, Option.map_some, Option.some.injEq] at hok
    cases hr : handle smallConfig s (.datagram (.response 1 97 101)) with
    | ok r => exact ⟨s, _, r, rfl, hs, hr⟩
    | error f => rw [hr] at hok; cases hok
  exact (sent_back_iff _ _ rfl ⟨by decide, 0x8180, by decide, by decide⟩ hp _).2 ⟨0, _, _, hopen, rfl⟩

/-- Every datagram that a run sends to a client is a local answer to the request being handled, from that client, or
answers an earlier request of that client that went upstream; these answers and their requests are one to one. -/
theorem replies_solicited (cfg : Config) (list : Nat → DNSEntry) (links : Links Node) (es : List (Event σ)) :
    (∀ n addr bytes, sent cfg (some (.init list links)) es n = some (.reply addr bytes) →
      (∃ d, es[n]? = some (.datagram d) ∧ addr = d.addr ∧ ∀ x, ¬ IsResponse d x) ∨
      ∃ k d' x id, Relayed cfg (some (.init list links)) es k d' x id ∧ addr = d'.addr ∧
        Answers cfg (some (.init list links)) es k n) ∧
    (∀ k k' n, Answers cfg (some (.init list links)) es k n → Answers cfg (some (.init list links)) es k' n → k = k') ∧
    ∀ k n n', Answers cfg (some (.init list links)) es k n → Answers cfg (some (.init list links)) es k n' → n = n' := by
  refine ⟨fun n addr bytes hout => ?_, ?_, ?_⟩
  · obtain ⟨e, he⟩ : ∃ e, es[n]? = some e := by
      rw [← Option.ne_none_iff_exists']
      intro hnone
      have hlen : (run cfg (some (Server.init list links)) es).2.length ≤ n := by
        rw [length_run]
        exact List.getElem?_eq_none_iff.1 hnone
      rw [sent, List.getElem?_eq_none hlen] at hout
      cases hout
    by_cases hresp : ∃ d x, e = .datagram d ∧ IsResponse d x
    · obtain ⟨d, x, rfl, hx⟩ := hresp
      obtain ⟨k, d', id, hopen, heq⟩ := answers_of_sent list links he hx hout
      cases heq
      exact .inr ⟨k, d', x, id, hopen.relayed, rfl, d, x, d', id, he, hx, hopen, hout⟩
    · have hout' := hout
      rw [sent_eq he] at hout'
      cases hs : before cfg (some (Server.init list links)) es n with
      | none =>
        rw [hs] at hout'
        cases hout'
      | some s =>
        rw [hs, step] at hout'
        split at hout'
        · rename_i s₁ out₁ hok
          cases hout'
          have hstep : step cfg (some s) e = (some s₁, some (.reply addr bytes)) := by rw [step, hok]
          rcases step_map hstep with ⟨-, hnone | ⟨d, bytes', rfl, hreq, heq⟩⟩ | ⟨d, x, id, rfl, hsend⟩ | ⟨d, x, node, rfl, hback⟩
          · cases hnone
          · cases heq
            exact .inl ⟨d, he, rfl, hreq⟩
          · cases hsend.sent
          · exact absurd ⟨d, x, rfl, hback.response⟩ hresp
        · cases hout'
        · cases hout'
  · rintro k k' n ⟨d, x, d₁, id₁, he, hx, hopen, -⟩ ⟨d', x', d₂, id₂, he', hx', hopen', -⟩
    rw [he] at he'
    cases he'
    obtain rfl := hx.unique hx'
    exact hopen.unique hopen'
  · rintro k n n' ⟨d, x, d₁, id₁, he, hx, hopen, hout⟩ ⟨d', x', d₂, id₂, he', hx', hopen', hout'⟩
    obtain rfl : x = x' := by
      obtain ⟨s, hs, hser⟩ := hopen.relayed.serial
      obtain ⟨s', hs', hser'⟩ := hopen'.relayed.serial
      rw [hs] at hs'
      cases hs'
      exact UInt16.toNat_inj.1 (hser.symm.trans hser')
    rcases Nat.lt_trichotomy n n' with hlt | heq | hlt
    · have := hopen'.unanswered n hopen.lt hlt d he hx
      rw [hout] at this
      cases this
    · exact heq
    · have := hopen.unanswered n' hopen'.lt hlt d' he' hx'
      rw [hout'] at this
      cases this

end

end Server

end DnsRelay
