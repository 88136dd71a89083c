import DnsRelay.Decoding
import DnsRelay.LabelWalk

/-!
# Which name a key stands for

The cache and the host table know a question by the C string that `inetParse` made of its name. The
string determines the labels as long as they hold neither `.` nor NUL, which the text does not escape.
-/

namespace DnsRelay
open ByteSeq Exec

/-- In some buffer, the C string that `inetParse` makes of the name at `off` is `s`. -/
def TextAt (C : Libc) (src : List UInt8) (off : Nat) (s : List UInt8) : Prop :=
  ∃ dest d, inetParse C .max src off dest = .ok d ∧ cstr d.bytes = .ok s

/-- `packetParse` made `x` of a question for the name `ls`. -/
def AsksFor (C : Libc) (ls : List (List UInt8)) (x : Quest) : Prop :=
  ∃ (st : Stale) (buf : List UInt8) (len : Nat) (h : Header) (qs : List WireQuest) (i : Nat) (q : WireQuest)
    (p : Packet), At buf 0 (h.encode ++ questBytes qs) ∧ h.qdcount.toNat = qs.length ∧ (∀ q ∈ qs, q.Legible) ∧
    packetParse C st buf len = .ok p ∧ qs[i]? = some q ∧ q.labels = ls ∧ p.quests[i]? = some x

section
variable {C : Libc} {src buf : List UInt8} {off pos fuel i k stop : Nat} {q : Int} {ls : List (List UInt8)}
  {dest d : Block} {s : List UInt8} {st : Stale} {qs : List WireQuest} {quests : List Quest} {x : Quest}

theorem labelLen_ofNat {n : Nat} (h : n ≤ 63) : labelLen (UInt8.ofNat n) = n := by
  have hn : (UInt8.ofNat n).toNat = n := by
    rw [UInt8.toNat_ofNat']
    omega
  rw [labelLen, schar_of_le hn h, if_neg (by omega)]

/-- The walk returns only if the text fits. -/
theorem labelWalk_room (hsrc : At src (off + pos) (Labels.encode ls)) (hls : Labels.Sized ls)
    (hpos : pos ≤ dest.size) (h : labelWalk src off fuel pos dest = .ok (q, d)) :
    pos + (Labels.dots dot ls).length ≤ dest.size := by
  induction ls generalizing pos fuel dest with
  | nil => exact hpos
  | cons l ls ih =>
    cases fuel with
    | zero => cases h
    | succ fuel =>
      obtain ⟨-, hne⟩ := hls.length_byte List.mem_cons_self
      rw [Labels.encode_cons, List.cons_append] at hsrc
      have hload : load src ((off : Int) + pos) = .ok (UInt8.ofNat l.length) := load_at (p := off + pos) hsrc
      rcases labelWalk_next src off (Int.natCast_nonneg pos) rfl with
        ⟨p', dest', ⟨hc, -, -, -, hdot⟩, hsize, heq⟩ | ⟨e, hend, he⟩
      · cases hload.symm.trans hc
        rw [labelLen_ofNat (hls l List.mem_cons_self).2] at hdot heq
        have hlt := (room_pos hdot).2
        have hrest : At src (off + (pos + l.length + 1)) (Labels.encode ls) := by
          have := (At.cons_iff.1 hsrc).2.right
          rwa [show off + pos + 1 + l.length = off + (pos + l.length + 1) by omega] at this
        rw [heq, show (pos : Int) + ((l.length : Int) + 1) = ((pos + l.length + 1 : Nat) : Int) by omega] at h
        have hfits := ih hrest hls.tail (by rw [hsize]; omega) h
        rw [Labels.dots_cons, List.length_append, List.length_cons]
        omega
      · have he := he fuel
        rw [h] at he
        cases he
        cases hend with
        | stop hc => exact absurd (Except.ok.inj (hload.symm.trans hc)) hne

theorem inetParse_room (hsrc : At src off (Labels.encode ls)) (hls : Labels.Sized ls) (hne : ls ≠ [])
    (h : inetParse C .max src off dest = .ok d) : (dotted ls).length + 1 ≤ dest.size := by
  obtain ⟨⟨q, d'⟩, hwalk, -⟩ := bind_ok.1 h
  have hfits : 0 + _ ≤ _ := labelWalk_room hsrc hls (Nat.zero_le _) hwalk
  rwa [Nat.zero_add, Labels.length_dots hne] at hfits

/-- The text of a well-formed name. -/
theorem TextAt.eq_dotted (h : TextAt C src off s) (hsrc : At src off (Labels.encode ls)) (hls : ValidName ls) :
    s = dotted ls := by
  obtain ⟨dest, d, hd, hs⟩ := h
  have hroom := inetParse_room hsrc hls.sized hls.ne_nil hd
  rw [inetParse_name hsrc hls.sized hls.ne_nil hroom] at hd
  cases hd
  exact Except.ok.inj (hs.symm.trans (Block.cstr_patch hls.zero_notMem hroom))

/-- Every question that was parsed holds what `inetParse` made of its name. -/
theorem parseQuests_qname {w : WireQuest} (hbuf : At buf pos (questBytes qs)) (hqs : ∀ q ∈ qs, q.Legible)
    (h : parseQuests C st buf qs.length i pos = .ok (quests, stop)) (hk : qs[k]? = some w)
    (hx : quests[k]? = some x) : ∃ off, At buf off (Labels.encode w.labels) ∧
      inetParse C .max buf (off : Nat) (Block.fresh (64 + 1) (st.qname (i + k))) = .ok x.qname := by
  induction qs generalizing i pos quests k with
  | nil => cases hk
  | cons q qs ih =>
    rw [questBytes, List.flatMap_cons, ← questBytes] at hbuf
    rw [List.length_cons, parseQuests_step hbuf.left (hqs q List.mem_cons_self)] at h
    obtain ⟨⟨qname, addition⟩, hname, h⟩ := bind_ok.1 h
    obtain ⟨⟨quests', stop'⟩, hquests, h⟩ := bind_ok.1 h
    cases h
    cases k with
    | zero =>
      cases hk
      cases hx
      rw [urlParse, if_pos rfl] at hname
      obtain ⟨d, hd, hname⟩ := bind_ok.1 hname
      cases hname
      exact ⟨pos, hbuf.left.left, hd⟩
    | succ k =>
      rw [show i + (k + 1) = i + 1 + k by omega]
      exact ih hbuf.right (fun q hq => hqs q (List.mem_cons_of_mem _ hq)) hquests hk hx

theorem AsksFor.text (h : AsksFor C ls x) (hls : ValidName ls) : cstr x.qname.bytes = .ok (dotted ls) := by
  obtain ⟨st, buf, len, h, qs, i, q, p, hbuf, hqd, hqs, hp, hi, rfl, hx⟩ := h
  obtain ⟨mid, stop, hparsed⟩ := packetParse_parsed hp
  obtain ⟨-, -, hqc, -⟩ := Header.loads hbuf.left
  have hquests := hparsed.quests
  rw [← Except.ok.inj (hqc.symm.trans hparsed.qdcount), hqd] at hquests
  obtain ⟨off, hat, hname⟩ := parseQuests_qname hbuf.right hqs hquests hi hx
  have hroom := inetParse_room hat hls.sized hls.ne_nil hname
  rw [inetParse_name hat hls.sized hls.ne_nil hroom] at hname
  rw [← Except.ok.inj hname]
  exact Block.cstr_patch hls.zero_notMem hroom

end

/-- Well-formed names have equal texts only if they are equal, and so have the questions for them. -/
theorem texts_identify_names (C : Libc) {ls ls' : List (List UInt8)} (hls : ValidName ls) (hls' : ValidName ls') :
    (∀ src off s src' off' s', At src off (Labels.encode ls) → At src' off' (Labels.encode ls') →
      TextAt C src off s → TextAt C src' off' s' → (s = s' ↔ ls = ls')) ∧
    ∀ x x', AsksFor C ls x → AsksFor C ls' x' → (cstr x.qname.bytes = cstr x'.qname.bytes ↔ ls = ls') := by
  have hdotted : dotted ls = dotted ls' ↔ ls = ls' :=
    ⟨Labels.dotted_inj hls.ne_nil hls'.ne_nil hls.sep_notMem hls'.sep_notMem, congrArg dotted⟩
  constructor
  · intro src off s src' off' s' hsrc hsrc' hs hs'
    rw [hs.eq_dotted hsrc hls, hs'.eq_dotted hsrc' hls', hdotted]
  · intro x x' hx hx'
    rw [hx.text hls, hx'.text hls', Except.ok.injEq, hdotted]

theorem texts_identify_names_letters :
    cstr ((questFor typeA 97).quest .zero 0).qname.bytes ≠ cstr ((questFor typeA 98).quest .zero 1).qname.bytes := by
  have hvalid : ∀ q ∈ [questFor typeA 97, questFor typeA 98], q.Valid := by
    simp only [List.forall_mem_cons]
    exact ⟨questFor_valid _ (by decide) (by decide), questFor_valid _ (by decide) (by decide), fun _ h => by cases h⟩
  have hasks : ∀ (i : Nat) (q : WireQuest), [questFor typeA 97, questFor typeA 98][i]? = some q →
      AsksFor .decimal q.labels (q.quest .zero i) := by
    intro i q hi
    have hp : packetParse .decimal .zero (requestFor typeA [97, 98]) 31 = _ :=
      packetParse_request .decimal .zero 31 (h := ⟨0x1234, 0x100, 2, 0, 0, 0⟩) (At.refl _) hvalid rfl rfl
    refine ⟨.zero, _, 31, _, _, i, q, _, At.refl _, rfl, fun q hq => (hvalid q hq).legible, hp, hi, rfl, ?_⟩
    exact (getElem?_questsFrom .zero 0 i _).trans (by rw [Nat.zero_add]; exact congrArg _ hi)
  have hname (k : Fin 2) : ValidName ([questFor typeA 97, questFor typeA 98][k]).labels :=
    (hvalid _ (List.getElem_mem _)).labels
  exact fun h => absurd (((texts_identify_names .decimal (hname 0) (hname 1)).2 _ _ (hasks 0 _ rfl) (hasks 1 _ rfl)).1 h)
    (by decide)

/-- A `.` in a label reads like the end of one, and the C string ends at a NUL. -/
theorem texts_collide :
    (TextAt .decimal (Labels.encode [[97, 46, 98]]) 0 [97, 46, 98] ∧
      TextAt .decimal (Labels.encode [[97], [98]]) 0 [97, 46, 98] ∧
      Labels.encode [[97, 46, 98]] ≠ Labels.encode [[97], [98]]) ∧
    TextAt .decimal (Labels.encode [[97, 0, 98]]) 0 [97] ∧ TextAt .decimal (Labels.encode [[97]]) 0 [97] ∧
      Labels.encode [[97, 0, 98]] ≠ Labels.encode [[97]] := by
  have htext {m s : List UInt8} (h : ((inetParse .decimal .max m 0 (Block.fresh 65 [])).bind fun d => cstr d.bytes) =
      .ok s) : TextAt .decimal m 0 s := by
    obtain ⟨d, hd, hs⟩ := bind_ok.1 h
    exact ⟨_, d, hd, hs⟩
  exact ⟨⟨htext (by decide +kernel), htext (by decide +kernel), by decide⟩, htext (by decide +kernel),
    htext (by decide +kernel), by decide⟩

end DnsRelay
