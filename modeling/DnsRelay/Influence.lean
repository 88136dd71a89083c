import DnsRelay.Message
import DnsRelay.Server

/-!
# Unsolicited responses

A response is unsolicited when its ID finds no node in the ID map. `connectHandle` looks at the ID
after `urlStore`, so such a response is dropped and still stored. `prune` deletes these responses
from a run. A run whose deleted responses store nothing and do not bring the process down cannot be
told from the pruned one.
-/

namespace DnsRelay
open Exec

namespace Server
variable {σ : Type}

/-- The datagram has QR = 1 and `queryMap` would return -1 on its ID. -/
def unsolicited (s : Server σ) (d : Datagram σ) : Bool :=
  match load16le d.buf 0, load16 d.buf 2 with
  | .ok id, .ok flags => getQr flags = 1 && (s.map.queryMap id.toNat).1.isNone
  | _, _ => false

def deleted : Option (Server σ) → Event σ → Bool
  | some s, .datagram d => s.unsolicited d
  | _, _ => false

/-- The run without the datagrams that arrive unsolicited in it. -/
def prune (cfg : Config) : Option (Server σ) → List (Event σ) → List (Event σ)
  | _, [] => []
  | s, e :: es =>
    if deleted s e then prune cfg (step cfg s e).1 es else e :: prune cfg (step cfg s e).1 es

end Server

/-- No answer is of the type the first question asks for. -/
def Packet.StoresNothing (p : Packet) : Prop :=
  p.ans = [] ∨ ∃ q, p.quests[0]? = some q ∧ ∀ a ∈ p.ans, a.type ≠ q.qtype

/-- The datagram is parsed and stores nothing, or its parse never ends. -/
def Event.Inert {σ : Type} (cfg : Config) : Event σ → Prop
  | .datagram d =>
    match packetParse cfg.libc d.stale d.buf d.len with
    | .ok p => p.StoresNothing
    | .error f => f = .hang
  | .scan _ => True

section
variable {N : Nat} {clk : Nat → Nat} {quests : List Quest} {ans : List Answer} {i : Nat} {c : LRUCache}

theorem storeAnswers_none {q : Quest} (hq : quests[0]? = some q) (h : ∀ a ∈ ans, a.type ≠ q.qtype) :
    storeAnswers N clk quests i ans c = .ok c := by
  induction ans generalizing i with
  | nil => rfl
  | cons a ans ih =>
    rw [storeAnswers, hq]
    exact (if_pos (h a List.mem_cons_self)).trans (ih fun a ha => h a (List.mem_cons_of_mem _ ha))

theorem urlStore_none {p : Packet} (h : p.StoresNothing) (clk : Clock) : urlStore N clk p c = .ok c := by
  rcases h with h | ⟨q, hq, h⟩
  · rw [urlStore, h, List.take_nil]; rfl
  · exact storeAnswers_none hq fun a ha => h a (List.take_subset _ _ ha)

end

namespace Server
variable {σ : Type} {cfg : Config} {s : Server σ} {o : Option (Server σ)} {d : Datagram σ} {e : Event σ}
  {es : List (Event σ)}

/-- An inert unsolicited response changes nothing and sends nothing. -/
theorem step_deleted (hd : deleted o e) (hi : e.Inert cfg) : step cfg o e = (o, none) := by
  cases o with
  | none => rfl
  | some s =>
    cases e with
    | scan clk => cases hd
    | datagram d =>
      have hd : s.unsolicited d = true := hd
      rw [Event.Inert] at hi
      rw [step, handle, connectHandle]
      cases hp : packetParse cfg.libc d.stale d.buf d.len with
      | error f =>
        rw [hp] at hi
        obtain rfl : f = .hang := hi
        rfl
      | ok p =>
        rw [hp] at hi
        obtain ⟨hid, hflags, -⟩ := packetParse_fields hp
        rw [unsolicited, hid, hflags] at hd
        obtain ⟨hqr, hmiss⟩ : getQr p.flags = 1 ∧ (s.map.queryMap p.id.toNat).1 = none := by
          simpa using hd
        have hback : sendBack s.map p.id d.buf d.len = (none, s.map) := by
          rw [sendBack, IdMap.queryMap_none hmiss]
        simp only [ok_bind, if_pos hqr, handleResponse, urlStore_none hi, hback]
        rfl

/-- Every response that is deleted from the run is inert. -/
def Meets (cfg : Config) : Option (Server σ) → List (Event σ) → Prop
  | _, [] => True
  | o, e :: es => (deleted o e → e.Inert cfg) ∧ Meets cfg (step cfg o e).1 es

/-- In a run whose unsolicited responses are inert, they have no influence: without them the server
sends the same and ends in the same state, and each of them leaves the cache and the ID map alone. -/
theorem unsolicited_no_influence (cfg : Config) (o : Option (Server σ)) (es : List (Event σ))
    (h : Meets cfg o es) :
    (run cfg o es).2.filterMap id = (run cfg o (prune cfg o es)).2.filterMap id ∧
      (run cfg o es).1 = (run cfg o (prune cfg o es)).1 ∧
      ∀ pre e post, es = pre ++ e :: post → deleted (run cfg o pre).1 e →
        step cfg (run cfg o pre).1 e = ((run cfg o pre).1, none) := by
  induction es generalizing o with
  | nil => exact ⟨rfl, rfl, fun pre e post he => absurd he (by simp)⟩
  | cons e es ih =>
    obtain ⟨hinert, hrest⟩ := h
    obtain ⟨hout, hend, hsteps⟩ := ih (step cfg o e).1 hrest
    have hsteps' : ∀ pre e' post, e :: es = pre ++ e' :: post → deleted (run cfg o pre).1 e' →
        step cfg (run cfg o pre).1 e' = ((run cfg o pre).1, none) := by
      intro pre e' post he hd
      cases pre with
      | nil =>
        obtain ⟨rfl, -⟩ := List.cons.inj he
        exact step_deleted hd (hinert hd)
      | cons e₀ pre =>
        obtain ⟨rfl, hes⟩ := List.cons.inj he
        exact hsteps pre e' post hes hd
    rw [prune]
    by_cases hd : deleted o e
    · have hstep := step_deleted hd (hinert hd)
      rw [if_pos hd]
      rw [hstep] at hout hend ⊢
      have hcons : run cfg o (e :: es) = ((run cfg o es).1, none :: (run cfg o es).2) := by
        rw [run, Transducer.total, hstep]; rfl
      rw [hcons]
      exact ⟨hout, hend, hsteps'⟩
    · have hcons : ∀ es', run cfg o (e :: es') =
          ((run cfg (step cfg o e).1 es').1, (step cfg o e).2 :: (run cfg (step cfg o e).1 es').2) :=
        fun _ => rfl
      rw [if_neg hd, hcons, hcons]
      refine ⟨?_, hend, hsteps'⟩
      simp only [List.filterMap_cons, hout]

end Server

/-! ### Two runs -/

/-- The response with ID 7 for `a`, without an answer. -/
def emptyBytes : List UInt8 := Header.encode ⟨7, 0x8180, 1, 0, 0, 0⟩ ++ questBytes [questFor typeA 97]

def forgedRun : List (Event Nat) :=
  [.datagram (.response 7 97 100), .datagram (.request typeA 97 110)]

def emptyRun : List (Event Nat) :=
  [.datagram (.at 66 emptyBytes 100 (by decide)), .datagram (.request typeA 97 110)]

namespace Server

theorem unsolicited_no_influence_empty :
    (run smallConfig (some .zeroed) emptyRun).2 = [none, some (.relay (setId (requestFor typeA [97]) 1))] ∧
    (run smallConfig (some .zeroed) emptyRun).2.filterMap id =
      (run smallConfig (some .zeroed) (prune smallConfig (some .zeroed) emptyRun)).2.filterMap id := by
  have hm : Meets smallConfig (some .zeroed) emptyRun := by
    refine ⟨fun _ => ?_, fun hd => absurd hd (by decide +kernel), trivial⟩
    have hans : (packetParse .decimal .zero (emptyBytes ++ List.replicate bufferSize 0)
        emptyBytes.length).map Packet.ans = .ok [] := by decide +kernel
    show (match packetParse .decimal .zero (emptyBytes ++ List.replicate bufferSize 0)
      emptyBytes.length with | .ok p => p.StoresNothing | .error f => f = .hang)
    cases hp : packetParse .decimal .zero (emptyBytes ++ List.replicate bufferSize 0) emptyBytes.length with
    | error f => rw [hp] at hans; cases hans
    | ok p =>
      rw [hp] at hans
      exact .inl (Except.ok.inj hans)
  exact ⟨by decide +kernel, (unsolicited_no_influence smallConfig _ emptyRun hm).1⟩

/-- The forged response is stored and answers the client's request, which is relayed without it. -/
theorem unsolicited_influence :
    (run smallConfig (some .zeroed) forgedRun).2.filterMap id =
      [.reply 5 (Header.encode ⟨0x1234, 0x8100, 1, 1, 0, 0⟩ ++ questBytes [questFor typeA 97] ++
        WireRecord.encode ⟨[0xc0, 12], 1, 1, 50, [6, 6, 6, 6]⟩)] ∧
    (run smallConfig (some .zeroed) (prune smallConfig (some .zeroed) forgedRun)).2.filterMap id =
      [.relay (setId (requestFor typeA [97]) 1)] := by
  decide +kernel

end Server

end DnsRelay
