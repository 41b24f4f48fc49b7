/-
The closing handshake. `tcp_process` takes an acknowledgement for that of the `FIN` when it is one past
`snd_nxt`, which is the number of the `FIN` only while nothing was sent again behind it; in `LAST_ACK` it
takes any. The states are left exactly on an acknowledgement that covers the `FIN` as long as such a
segment finds `snd_nxt` at the `FIN`, others are not one past `snd_nxt`, and `LAST_ACK` gets no others.
-/
import Onix.Tcp.Retransmit

namespace Onix.Tcp

open Onix.Lib

/-! ## The number of the FIN -/

def TcpState.isClosing (st : TcpState) : Prop := st = .finWait1 ∨ st = .closing ∨ st = .lastAck

instance (st : TcpState) : Decidable st.isClosing := inferInstanceAs (Decidable (_ ∨ _))

/-- The number `tcp_close` gave the `FIN`: `snd_nbb` once it is queued. -/
def finAfter (fin : Seq) (s : State) (a : Act) (t : State) : Seq :=
  match a with
  | .close => if s.pcb.state = .synRcvd ∨ s.pcb.state = .established ∨ s.pcb.state = .closeWait then t.pcb.sndNbb else fin
  | _ => fin

def finishing : Machine (State × Seq) Act Fault := tcp.record (fun _ _ => True) finAfter

/-! ## The condition -/

def AckCloses (s : Pcb) (fin : Seq) (g : Segment) : Prop :=
  match s.state with
  | .finWait1 | .closing =>
    if seqGEQ s.sndUna g.ackno then ¬ seqGT g.ackno fin ∧ ¬ PastNxt s g
    else (s.sndNxt = fin ∧ ¬ seqGT g.ackno (fin + 1)) ∨ (¬ seqGT g.ackno fin ∧ g.ackno ≠ s.sndNxt + 1)
  | .lastAck => seqGT g.ackno fin
  | _ => True

instance (s : Pcb) (fin : Seq) (g : Segment) : Decidable (AckCloses s fin g) :=
  decidable_of_iff ((s.state = .finWait1 ∨ s.state = .closing → if seqGEQ s.sndUna g.ackno then ¬ seqGT g.ackno fin ∧ ¬ PastNxt s g
    else (s.sndNxt = fin ∧ ¬ seqGT g.ackno (fin + 1)) ∨ (¬ seqGT g.ackno fin ∧ g.ackno ≠ s.sndNxt + 1)) ∧
      (s.state = .lastAck → seqGT g.ackno fin)) (by unfold AckCloses; cases s.state <;> simp)

def Closes (x : State × Seq) : Act → Prop
  | .input g => Accepts x.1.pcb g → AckCloses x.1.pcb x.2 g
  | _ => True

instance (x : State × Seq) : (a : Act) → Decidable (Closes x a)
  | .input _ => inferInstanceAs (Decidable (_ → _))
  | .connect | .send _ _ | .recv _ | .resume _ | .setsockopt _ _ | .close | .timeout _ | .slowtimo | .fastimo | .sent _ =>
    inferInstanceAs (Decidable True)

/-! ## Transitions -/

def Aborts (a : Act) : Prop := (∃ type, a = .timeout type) ∨ ∃ g, a = .input g ∧ g.flags.has tcpRst = true

/-- The closing handshake goes on: `FIN_WAIT1` is left for `FIN_WAIT2` or `TIME_WAIT`, `CLOSING` for
`TIME_WAIT`, and `LAST_ACK` for `CLOSED` other than by a timer or a reset. -/
def Leaves (s : State) (a : Act) (t : State) : Prop :=
  (s.pcb.state = .finWait1 ∧ (t.pcb.state = .finWait2 ∨ t.pcb.state = .timeWait)) ∨
    (s.pcb.state = .closing ∧ t.pcb.state = .timeWait) ∨
    (s.pcb.state = .lastAck ∧ t.pcb.state = .closed ∧ ¬ Aborts a)

/-- The `switch` of `tcp_process` takes the segment for the acknowledgement of the `FIN`. -/
def TakenForFin (s : Pcb) (g : Segment) : Prop :=
  g.flags.has tcpAck = true ∧ (s.state = .lastAck ∨ g.ackno = s.sndNxt + 1)

theorem processState_closing (hst : s.state.isClosing) (h : processState s g = .ok t) :
    (TakenForFin s g ∧ ((s.state = .finWait1 ∧ (t.state = .finWait2 ∨ t.state = .timeWait)) ∨
      (s.state = .closing ∧ t.state = .timeWait) ∨ (s.state = .lastAck ∧ t.state = .closed))) ∨
    (¬ TakenForFin s g ∧ (t.state = s.state ∨ (s.state = .finWait1 ∧ t.state = .closing)) ∧ t.sndNbb = s.sndNbb) := by
  unfold TakenForFin
  unfold processState at h
  rcases hst with hst | hst | hst <;> rw [hst] at h ⊢ <;> dsimp only at h
  · -- `FIN_WAIT1`
    obtain ⟨u, hu, h⟩ := bind_ok h
    have hsame : t.state = u.state ∧ t.sndNbb = u.sndNbb := by
      cases h
      split <;> exact ⟨rfl, rfl⟩
    rw [hsame.1, hsame.2]
    split at hu
    · rename_i hf
      exact .inl ⟨⟨hf.2.1, .inr hf.2.2⟩, .inl ⟨rfl, .inr (tcpPcbTimewait_recv hu).2⟩⟩
    rename_i hf
    split at hu
    · rename_i hfin
      cases hu
      exact .inr ⟨fun ha => hf ⟨hfin, ha.1, ha.2.resolve_left (by decide)⟩, .inr ⟨rfl, rfl⟩, rfl⟩
    split at hu
    · rename_i ha
      cases hu
      exact .inl ⟨⟨ha.1, .inr ha.2⟩, .inl ⟨rfl, .inl rfl⟩⟩
    · rename_i ha
      cases hu
      exact .inr ⟨fun h => ha ⟨h.1, h.2.resolve_left (by decide)⟩, .inl hst, rfl⟩
  · -- `CLOSING`
    split at h
    · rename_i ha
      exact .inl ⟨⟨ha.1, .inr ha.2⟩, .inr (.inl ⟨rfl, (tcpPcbTimewait_recv h).2⟩)⟩
    · rename_i ha
      cases h
      exact .inr ⟨fun h => ha ⟨h.1, h.2.resolve_left (by decide)⟩, .inl hst, rfl⟩
  · -- `LAST_ACK`
    split at h
    · rename_i ha
      exact .inl ⟨⟨ha, .inl rfl⟩, .inr (.inr ⟨rfl, (tcpPcbPurge_recv h).2⟩)⟩
    · rename_i ha
      cases h
      exact .inr ⟨fun h => ha h.1, .inl hst, rfl⟩

theorem eq_succ_of_seqGT {a b : Seq} (h1 : seqGT a b) (h2 : ¬ seqGT a (b + 1)) : a = b + 1 := by
  unfold seqGT at h1 h2
  rw [BitVec.toInt_eq_toNat_cond] at h1 h2
  have e : (a - (b + 1)).toNat = ((a - b).toNat + 2 ^ 32 - 1) % 2 ^ 32 := by bv_omega
  have h3 : (a - b).toNat = 1 := by
    split at h1 <;> split at h2 <;> omega
  bv_omega

theorem seqGT_succ (a : Seq) : seqGT (a + 1) a := by
  have e : a + 1 - a = 1 := by bv_omega
  unfold seqGT
  rw [e]; decide

theorem taken_iff {s u : Pcb} {fin : Seq} (hst : s.state.isClosing) (hack : g.flags.has tcpAck = true)
    (hc : AckCloses s fin g) (hu : u.state = s.state)
    (hnxt : (seqGEQ s.sndUna g.ackno ∧ (u.sndNxt = s.sndNxt ∨ ∃ p ∈ s.segs, u.sndNxt = p.endSeq)) ∨
      (¬ seqGEQ s.sndUna g.ackno ∧ u.sndNxt = s.sndNxt)) : TakenForFin u g ↔ seqGT g.ackno fin := by
  have hwait : s.state ≠ .lastAck → (if seqGEQ s.sndUna g.ackno then ¬ seqGT g.ackno fin ∧ ¬ PastNxt s g
      else (s.sndNxt = fin ∧ ¬ seqGT g.ackno (fin + 1)) ∨ (¬ seqGT g.ackno fin ∧ g.ackno ≠ s.sndNxt + 1)) →
      (TakenForFin u g ↔ seqGT g.ackno fin) := by
    intro hne hc
    have htaken : TakenForFin u g ↔ g.ackno = u.sndNxt + 1 := by
      unfold TakenForFin
      rw [hu]
      exact ⟨fun h => h.2.resolve_left hne, fun h => ⟨hack, .inr h⟩⟩
    rw [htaken]
    rcases hnxt with ⟨hge, hnxt⟩ | ⟨hlt, e⟩
    · rw [if_pos hge] at hc
      refine iff_of_false (fun ha => hc.2 ?_) hc.1
      rcases hnxt with e | ⟨p, hp, e⟩
      · exact .inl (by rw [ha, e])
      · exact .inr ⟨hge, p, hp, by rw [ha, e]⟩
    · rw [if_neg hlt] at hc
      rw [e]
      rcases hc with ⟨h1, h2⟩ | ⟨h1, h2⟩
      · rw [h1]
        constructor
        · intro ha
          rw [ha]; exact seqGT_succ fin
        · exact fun hgt => eq_succ_of_seqGT hgt h2
      · exact iff_of_false h2 h1
  unfold AckCloses at hc
  rcases hst with hst | hst | hst
  · rw [hst] at hc
    exact hwait (by rw [hst]; decide) hc
  · rw [hst] at hc
    exact hwait (by rw [hst]; decide) hc
  · rw [hst] at hc
    exact iff_of_true ⟨hack, .inl (hu.trans hst)⟩ hc

theorem tcpInput_closing {fin : Seq} (hst : s.state.isClosing) (hc : Accepts s g → AckCloses s fin g)
    (h : tcpInput s g = .ok t) :
    ((Accepts s g ∧ seqGT g.ackno fin) ∧ g.flags.has tcpRst = false ∧ ((s.state = .finWait1 ∧ (t.state = .finWait2 ∨ t.state = .timeWait)) ∨
      (s.state = .closing ∧ t.state = .timeWait) ∨ (s.state = .lastAck ∧ t.state = .closed))) ∨
    (¬ (Accepts s g ∧ seqGT g.ackno fin) ∧ (((t.state = s.state ∨ (s.state = .finWait1 ∧ t.state = .closing)) ∧ t.sndNbb = s.sndNbb) ∨
      (g.flags.has tcpRst = true ∧ t.state = .closed))) := by
  obtain ⟨e1, e2, e3, e4, e5⟩ := processPcb_send s g
  rcases tcpInput_parts h with ⟨hnp, rfl | rfl⟩ | ⟨-, hrst, h⟩ | ⟨-, hn, h⟩ | ⟨ha, u, hu, h⟩
  · exact .inr ⟨fun ha => hnp (accepts_iff.1 ha.1).1, .inl ⟨.inl rfl, rfl⟩⟩
  · obtain ⟨mss, e, -⟩ := tcpParseOption_send g.options s
    refine .inr ⟨fun ha => hnp (accepts_iff.1 ha.1).1, .inl ⟨.inl ?_, ?_⟩⟩ <;> rw [e]
  · refine .inr ⟨fun ha => absurd ha.1.2.2.1 (by rw [hrst]; decide), ?_⟩
    rcases tcpHandleReset_recv h with e | ⟨-, e, -⟩
    · unfold tcpHandleReset at h
      rw [if_neg (by rcases hst with e | e | e <;> rw [e] <;> decide)] at h
      obtain ⟨v, -, h⟩ := bind_ok h
      cases h
      exact .inr ⟨hrst, rfl⟩
    · exact .inr ⟨hrst, e⟩
  · have htw : s.state ≠ .timeWait := by
      rcases hst with e | e | e <;> rw [e] <;> decide
    have hnack : ¬ g.flags.has tcpAck = true := fun ha => hn ⟨ha, htw⟩
    rcases processState_closing (by rw [e1]; exact hst) h with ⟨h1, -⟩ | ⟨-, h2, h3⟩
    · exact absurd h1.1 hnack
    · rw [e1] at h2
      exact .inr ⟨fun ha => hnack (accepts_iff.1 ha.1).2.1, .inl ⟨h2, h3.trans e5⟩⟩
  · obtain ⟨-, hack, -⟩ := accepts_iff.1 ha
    obtain ⟨e6, h0⟩ := tcpReceive_send hack hu
    rw [e3] at h0
    have hust : u.state = s.state := e6.trans e1
    have hnbb : u.sndNbb = s.sndNbb := by
      rcases h0 with ⟨-, hr⟩ | ⟨-, hr⟩
      · exact hr.nbb.trans e5
      · exact hr.nbb.trans e5
    have hiff : TakenForFin u g ↔ seqGT g.ackno fin := by
      refine taken_iff hst hack (hc ha) hust ?_
      rcases h0 with ⟨hge, hr⟩ | ⟨hlt, hr⟩
      · refine .inl ⟨hge, ?_⟩
        have := hr.nxt
        rwa [e2, e4] at this
      · exact .inr ⟨hlt, hr.nxt.trans e4⟩
    rcases processState_closing (by rw [hust]; exact hst) h with ⟨h1, h2⟩ | ⟨h1, h2, h3⟩
    · rw [hust] at h2
      exact .inl ⟨⟨ha, hiff.1 h1⟩, ha.2.2.1, h2⟩
    · rw [hust] at h2
      exact .inr ⟨fun hk => h1 (hiff.2 hk.2), .inl ⟨h2, h3.trans hnbb⟩⟩

/-! ## Runs -/

theorem step_closing {s t : State} {a : Act} (hno : ∀ g, a ≠ .input g) (hcl : a ≠ .close) (h : step s a = .ok t) :
    (t.pcb.state = s.pcb.state ∧ (s.pcb.state.isClosing → t.pcb.sndNbb = s.pcb.sndNbb)) ∨
      (¬ t.pcb.state.isClosing ∧ t.pcb.state ≠ .finWait2 ∧ t.pcb.state ≠ .timeWait ∧
        (s.pcb.state = .lastAck → t.pcb.state = .closed → Aborts a)) := by
  have hsame : ∀ {u : Pcb}, u.state = s.pcb.state → SameSend s.pcb u → u.state = s.pcb.state ∧
      (s.pcb.state.isClosing → u.sndNbb = s.pcb.sndNbb) := fun e1 e2 => ⟨e1, fun _ => e2.nbb⟩
  cases a with
  | input g => exact absurd rfl (hno g)
  | close => exact absurd rfl hcl
  | connect =>
    obtain ⟨u, hu, h⟩ := bind_ok h
    cases h
    rcases tcpConnect_side hu with e | ⟨-, h1, h2⟩
    · unfold tcpConnect at hu
      split at hu
      · cases hu; exact .inl (hsame rfl (.refl _))
      · rename_i hc
        refine .inl ⟨e.state, fun hk => ?_⟩
        rw [not_not.1 hc] at hk; exact absurd hk (by decide)
    · refine .inr ⟨by dsimp only; rw [h2]; decide, by dsimp only; rw [h2]; decide, by dsimp only; rw [h2]; decide, fun h0 => ?_⟩
      rw [h1] at h0; cases h0
  | send iov flags =>
    obtain ⟨u, hu, h⟩ := bind_ok h
    cases h
    refine .inl ⟨(tcpSendmsg_recv hu).state, fun hk => ?_⟩
    unfold tcpSendmsg at hu
    rw [if_pos (by rcases hk with e | e | e <;> rw [e] <;> decide)] at hu
    cases hu; rfl
  | recv sizes =>
    obtain ⟨⟨u, iov⟩, hu, h⟩ := bind_ok h
    cases h
    rcases tcpRecvmsg_cases hu with rfl | hu
    · exact .inl (hsame rfl (.refl _))
    · exact .inl (hsame (recvQueued_loop hu).2.1 (recvQueued_send hu))
  | resume sizes =>
    obtain ⟨⟨u, iov⟩, hu, h⟩ := bind_ok h
    cases h
    exact .inl (hsame (recvQueued_loop hu).2.1 (recvQueued_send hu))
  | setsockopt opt val =>
    cases h
    refine .inl (hsame ?_ (tcpSetsockopt_send _ _ _))
    cases opt <;> rfl
  | timeout type =>
    obtain ⟨u, hu, h⟩ := bind_ok h
    cases h
    rcases tcpTimeout_parts hu with ⟨h1, h2⟩ | ⟨-, h1, -⟩
    · exact .inl ⟨h1.state, fun _ => h2.nbb⟩
    · refine .inr ⟨by dsimp only; rw [h1]; decide, by dsimp only; rw [h1]; decide, by dsimp only; rw [h1]; decide, fun _ _ => ?_⟩
      exact .inl ⟨type, rfl⟩
  | slowtimo => cases h; exact .inl (hsame rfl ⟨rfl, rfl, rfl, rfl, rfl, rfl, rfl, rfl⟩)
  | fastimo =>
    obtain ⟨u, hu, h⟩ := bind_ok h
    cases h
    exact .inl ⟨(tcpFastimo_recv hu).state, fun _ => (tcpFastimo_resent hu).nbb⟩
  | sent i => cases h; exact .inl ⟨rfl, fun _ => rfl⟩

theorem TcpState.next_isClosing {st st' : TcpState} {fin : Bool} (h : st' ∈ st.next fin) (hc : st'.isClosing) :
    st.isClosing := by
  cases st <;> cases fin <;> simp only [TcpState.next, List.mem_cons, List.not_mem_nil, or_false] at h
  all_goals
    first
      | decide
      | subst h; exact absurd hc (by decide)
      | rcases h with rfl | rfl <;> exact absurd hc (by decide)

theorem tcpInput_isClosing (h : tcpInput s g = .ok t) (hc : t.state.isClosing) :
    s.state.isClosing := by
  rcases tcpInput_recv h with ⟨-, e | ⟨-, -, -, e, -⟩⟩ | ⟨-, u, e, ⟨-, hsw⟩ | ⟨-, hsw⟩⟩
  · rw [← e.state]; exact hc
  · rw [e] at hc; exact absurd hc (by decide)
  · rw [← e.state]; exact TcpState.next_isClosing hsw.next hc
  · have := TcpState.next_isClosing hsw.next hc
    rw [← e.state]
    split at this
    · rwa [tcpUpdateBuf_state] at this
    · exact this

theorem tcpClose_closing (h : tcpClose s = .ok t) :
    (s.state = .synRcvd ∨ s.state = .established ∨ s.state = .closeWait) ∨ t = s ∨
    (¬ s.state.isClosing ∧ t.state = .closed) := by
  unfold tcpClose at h
  cases hst : s.state with
  | closed | synSent | listen =>
    rw [hst] at h
    exact .inr (.inr ⟨by decide, (tcpPcbPurge_recv h).2⟩)
  | synRcvd => exact .inl (.inl rfl)
  | established => exact .inl (.inr (.inl rfl))
  | closeWait => exact .inl (.inr (.inr rfl))
  | finWait1 | finWait2 | closing | lastAck | timeWait =>
    rw [hst] at h
    cases h; exact .inr (.inl rfl)

def FinInv (x : State × Seq) : Prop := x.1.pcb.state.isClosing → x.2 = x.1.pcb.sndNbb

theorem step_fin {x y : State × Seq} {a : Act} (h : FinInv x) (hc : Closes x a) (hs : finishing.Steps x a y) : FinInv y := by
  obtain ⟨⟨-, hs⟩, hr⟩ := Machine.record_steps.1 hs
  intro hy
  rw [hr]
  by_cases hin : ∃ g, a = .input g
  · obtain ⟨g, rfl⟩ := hin
    obtain ⟨u, hu, hs⟩ := bind_ok hs
    have hyu : y.1.pcb = u := by rw [← Except.ok.inj hs]
    rw [hyu] at hy ⊢
    have hx := tcpInput_isClosing hu hy
    rw [h hx]
    rcases tcpInput_closing hx hc hu with ⟨-, -, ⟨-, e | e⟩ | ⟨-, e⟩ | ⟨-, e⟩⟩ | ⟨-, ⟨-, e⟩ | ⟨-, e⟩⟩
    · rw [e] at hy; exact absurd hy (by decide)
    · rw [e] at hy; exact absurd hy (by decide)
    · rw [e] at hy; exact absurd hy (by decide)
    · rw [e] at hy; exact absurd hy (by decide)
    · exact e.symm
    · rw [e] at hy; exact absurd hy (by decide)
  by_cases hcl : a = .close
  · subst hcl
    obtain ⟨u, hu, hs⟩ := bind_ok hs
    have hyu : y.1.pcb = u := by rw [← Except.ok.inj hs]
    unfold finAfter
    by_cases h0 : x.1.pcb.state = .synRcvd ∨ x.1.pcb.state = .established ∨ x.1.pcb.state = .closeWait
    · rw [if_pos h0]
    · rw [if_neg h0]
      rcases tcpClose_closing hu with h1 | h1 | ⟨-, h1⟩
      · exact absurd h1 h0
      · rw [hyu, h1] at hy ⊢
        exact h hy
      · rw [hyu, h1] at hy; exact absurd hy (by decide)
  · have hfin : finAfter x.2 x.1 a y.1 = x.2 := by
      cases a with
      | close => exact absurd rfl hcl
      | input | connect | send | recv | resume | setsockopt | timeout | slowtimo | fastimo | sent => rfl
    rw [hfin]
    rcases step_closing (fun g hg => hin ⟨g, hg⟩) hcl hs with ⟨h1, h2⟩ | ⟨h1, -⟩
    · rw [h1] at hy
      rw [h2 hy]; exact h hy
    · exact absurd hy h1

theorem reach_fin {x : State × Seq} (h : finishing.Reach Closes x) : FinInv x := by
  refine h.inv (I := FinInv) (fun y hy hcl => ?_) fun _ _ _ hi hc hs => step_fin hi hc hs
  -- no connection starts in one of the three states
  exfalso
  obtain ⟨⟨-, isn, e | ⟨mss, g, -, -, hl⟩⟩, -⟩ := hy
  · rw [show y.1.pcb.state = .closed by rw [e]; rfl] at hcl
    exact absurd hcl (by decide)
  · unfold tcpHandleListen at hl
    obtain ⟨t, h1, hl⟩ := bind_ok hl
    rw [show y.1.pcb.state = .synRcvd from ((tcpEnqueue_recv h1).trans (tcpOutput_recv hl)).state] at hcl
    exact absurd hcl (by decide)

/-- The closing handshake: in every run whose steps meet the condition, `FIN_WAIT1`, `CLOSING` and `LAST_ACK`
are left for the next state exactly on a segment whose acknowledgement covers the number of the `FIN`. -/
theorem closing_handshake {x y : State × Seq} {a : Act} (h : finishing.Reach Closes x) (hc : Closes x a)
    (hs : finishing.Steps x a y) :
    (x.1.pcb.state.isClosing → x.2 = x.1.pcb.sndNbb) ∧
      (Leaves x.1 a y.1 ↔ x.1.pcb.state.isClosing ∧ ∃ g, a = .input g ∧ Accepts x.1.pcb g ∧ seqGT g.ackno x.2) := by
  refine ⟨reach_fin h, ?_⟩
  obtain ⟨⟨-, hs⟩, -⟩ := Machine.record_steps.1 hs
  have hfrom : Leaves x.1 a y.1 → x.1.pcb.state.isClosing := by
    rintro (⟨h1, -⟩ | ⟨h1, -⟩ | ⟨h1, -⟩)
    · exact .inl h1
    · exact .inr (.inl h1)
    · exact .inr (.inr h1)
  by_cases hin : ∃ g, a = .input g
  · obtain ⟨g, rfl⟩ := hin
    obtain ⟨u, hu, hs⟩ := bind_ok hs
    have hyu : y.1.pcb = u := by rw [← Except.ok.inj hs]
    have hcov : (∃ g', Act.input g = .input g' ∧ Accepts x.1.pcb g' ∧ seqGT g'.ackno x.2) ↔ Accepts x.1.pcb g ∧ seqGT g.ackno x.2 := by
      constructor
      · rintro ⟨g', e, h⟩
        cases e; exact h
      · exact fun h => ⟨g, rfl, h⟩
    rw [hcov]
    by_cases hx : x.1.pcb.state.isClosing
    case neg => exact iff_of_false (fun h => hx (hfrom h)) fun h => hx h.1
    rcases tcpInput_closing hx hc hu with ⟨h1, hrst, h2⟩ | ⟨h1, h2⟩
    · refine iff_of_true ?_ ⟨hx, h1⟩
      unfold Leaves
      rw [hyu]
      refine h2.imp_right (Or.imp_right fun h2 => ⟨h2.1, h2.2, ?_⟩)
      rintro (⟨type, e⟩ | ⟨g', e, h3⟩)
      · cases e
      · cases e
        rw [hrst] at h3; cases h3
    · refine iff_of_false ?_ fun h => h1 h.2
      unfold Leaves
      rw [hyu]
      rcases h2 with ⟨h2 | ⟨h2, h3⟩, -⟩ | ⟨hrst, h2⟩
      · rw [h2]
        rintro (⟨h4, h5 | h5⟩ | ⟨h4, h5⟩ | ⟨h4, h5, -⟩) <;> · rw [h4] at h5; cases h5
      · rw [h2, h3]
        rintro (⟨-, h5 | h5⟩ | ⟨-, h5⟩ | ⟨-, h5, -⟩) <;> cases h5
      · rw [h2]
        rintro (⟨-, h5 | h5⟩ | ⟨-, h5⟩ | ⟨-, -, h5⟩)
        · cases h5
        · cases h5
        · cases h5
        · exact h5 (.inr ⟨g, rfl, hrst⟩)
  · -- other steps do not go on with the handshake
    refine iff_of_false ?_ fun ⟨_, g, hg, _⟩ => hin ⟨g, hg⟩
    intro hl
    have hx := hfrom hl
    have hstay : y.1.pcb.state = x.1.pcb.state → False := by
      intro e
      unfold Leaves at hl
      rw [e] at hl
      rcases hl with ⟨h4, h5 | h5⟩ | ⟨h4, h5⟩ | ⟨h4, h5, -⟩ <;> · rw [h4] at h5; cases h5
    by_cases hcl : a = .close
    · subst hcl
      obtain ⟨u, hu, hs⟩ := bind_ok hs
      have hyu : y.1.pcb = u := by rw [← Except.ok.inj hs]
      rcases tcpClose_closing hu with h1 | h1 | ⟨h1, -⟩
      · rcases h1 with h1 | h1 | h1 <;> · rw [h1] at hx; exact absurd hx (by decide)
      · exact hstay (by rw [hyu, h1])
      · exact h1 hx
    · rcases step_closing (fun g hg => hin ⟨g, hg⟩) hcl hs with ⟨h1, -⟩ | ⟨-, h2, h3, h4⟩
      · exact hstay h1
      · rcases hl with ⟨-, h5 | h5⟩ | ⟨-, h5⟩ | ⟨h5, h6, h7⟩
        · exact h2 h5
        · exact h3 h5
        · exact h3 h5
        · exact h7 (h4 h5 h6)

instance (x : State × Seq) (a : Act) : Decidable (finishing.enabled x a) := inferInstanceAs (Decidable (enabled x.1 a))

theorem finishing_start (isn fin : Seq) : finishing.start (⟨tcpPcbGet isn, true, []⟩, fin) := ⟨⟨rfl, isn, .inl rfl⟩, trivial⟩

/-- The `FIN` with the number 8 is acknowledged in `FIN_WAIT1`. -/
theorem closing_handshake_fin : ∃ x y, finishing.Reach Closes x ∧ finishing.Steps x (.input ⟨8, 9, tcpAck, 4096, [], []⟩) y ∧
    x.1.pcb.state = .finWait1 ∧ (Leaves x.1 (.input ⟨8, 9, tcpAck, 4096, [], []⟩) y.1 ↔ x.1.pcb.state.isClosing ∧
      ∃ g, Act.input ⟨8, 9, tcpAck, 4096, [], []⟩ = .input g ∧ Accepts x.1.pcb g ∧ seqGT g.ackno x.2) := by
  have h : (finishing.trace Closes (⟨tcpPcbGet 5, true, []⟩, 0) sendAndClose).map (fun x =>
      (x.1.pcb.state, decide (Closes x (.input ⟨8, 9, tcpAck, 4096, [], []⟩)),
        decide (enabled x.1 (.input ⟨8, 9, tcpAck, 4096, [], []⟩)),
        (step x.1 (.input ⟨8, 9, tcpAck, 4096, [], []⟩)).toOption.isSome)) = some (.finWait1, true, true, true) := by decide +kernel
  obtain ⟨x, hx, he⟩ := Option.map_eq_some_iff.1 h
  obtain ⟨h1, h2⟩ := Prod.mk.inj he
  obtain ⟨h2, h3⟩ := Prod.mk.inj h2
  obtain ⟨h3, h4⟩ := Prod.mk.inj h3
  have hr : finishing.Reach Closes x := Machine.trace_reach (finishing_start 5 0) hx
  cases hst : step x.1 (.input ⟨8, 9, tcpAck, 4096, [], []⟩) with
  | error e => rw [hst] at h4; cases h4
  | ok t =>
    have hs : finishing.Steps x (.input ⟨8, 9, tcpAck, 4096, [], []⟩) (t, x.2) :=
      Machine.record_steps.2 ⟨⟨of_decide_eq_true h3, hst⟩, rfl⟩
    exact ⟨x, _, hr, hs, h1, (closing_handshake hr (of_decide_eq_true h2) hs).2⟩

/-- The peer closes first; the `FIN` that follows, with the number 6, goes out. -/
def closeAfterPeer : List Act := handshake ++ [Act.input ⟨8, 6, tcpFin ||| tcpAck, 4096, [], []⟩, .close, .sent 0]

/-- An acknowledgement that does not cover it ends the connection all the same. -/
theorem last_ack_uncovered : ∃ x y, finishing.Reach Machine.Any x ∧ finishing.Steps x (.input ⟨9, 6, tcpAck, 4096, [], []⟩) y ∧
    Leaves x.1 (.input ⟨9, 6, tcpAck, 4096, [], []⟩) y.1 ∧ x.2 = 6 ∧ ¬ seqGT 6 x.2 := by
  have h : (finishing.trace Machine.Any (⟨tcpPcbGet 5, true, []⟩, 0) closeAfterPeer).map (fun x =>
      (x.1.pcb.state, x.2, decide (enabled x.1 (.input ⟨9, 6, tcpAck, 4096, [], []⟩)),
        (step x.1 (.input ⟨9, 6, tcpAck, 4096, [], []⟩)).toOption.map fun t => t.pcb.state)) =
      some (.lastAck, 6, true, some .closed) := by decide +kernel
  obtain ⟨x, hx, he⟩ := Option.map_eq_some_iff.1 h
  obtain ⟨h1, h2⟩ := Prod.mk.inj he
  obtain ⟨h2, h3⟩ := Prod.mk.inj h2
  obtain ⟨h3, h4⟩ := Prod.mk.inj h3
  cases hst : step x.1 (.input ⟨9, 6, tcpAck, 4096, [], []⟩) with
  | error e => rw [hst] at h4; cases h4
  | ok t =>
    rw [hst] at h4
    have hs : finishing.Steps x (.input ⟨9, 6, tcpAck, 4096, [], []⟩) (t, x.2) :=
      Machine.record_steps.2 ⟨⟨of_decide_eq_true h3, hst⟩, rfl⟩
    refine ⟨x, _, Machine.trace_reach (finishing_start 5 0) hx, hs, .inr (.inr ⟨h1, Option.some.inj h4, ?_⟩), h2, ?_⟩
    · rintro (⟨type, e⟩ | ⟨g, e, h5⟩)
      · cases e
      · cases e
        exact absurd h5 (by decide)
    · rw [h2]; decide

end Onix.Tcp
