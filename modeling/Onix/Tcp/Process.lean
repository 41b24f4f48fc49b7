/-
What one step does to the receive side of a connection, action by action: the functions of the send
side leave it alone, a segment goes through `tcp_receive` and the `switch` of `tcp_process`, a read
takes from the queue, and a connection that ends drops it.
-/
import Onix.Tcp.Order

namespace Onix.Tcp

open List Onix.Lib

/-- The queue, `rcv_nxt` and `rcv_wnd` are as they were; the state may differ. -/
structure SameQueue (s s' : Pcb) : Prop where
  recved : s'.recved = s.recved
  rcvNxt : s'.rcvNxt = s.rcvNxt
  rcvWnd : s'.rcvWnd = s.rcvWnd

/-- The connection is over: the queue is dropped, the counters stay. -/
structure Dropped (s s' : Pcb) : Prop where
  recved : s'.recved = []
  rcvNxt : s'.rcvNxt = s.rcvNxt
  rcvWnd : s'.rcvWnd = s.rcvWnd

variable {s s' : Pcb}

theorem tcpPcbPurge_recv (h : tcpPcbPurge s = .ok s') : Dropped s s' ∧ s'.state = s.state := by
  unfold tcpPcbPurge at h
  split at h
  · cases h
  · cases h; exact ⟨⟨rfl, rfl, rfl⟩, rfl⟩

def TcpState.takesFin (st : TcpState) : Prop := st = .established ∨ st = .closeWait ∨ st = .finWait1 ∨ st = .finWait2

instance (st : TcpState) : Decidable st.takesFin := inferInstanceAs (Decidable (_ ∨ _ ∨ _ ∨ _))

/-- `rcv_nxt` after the `switch` of `tcp_process`, but for the handshake. -/
def finNxt (s : Pcb) (g : Segment) : Seq :=
  if s.state = .timeWait then if seqGT g.pbuf.endSeq s.rcvNxt then g.pbuf.endSeq else s.rcvNxt
  else if s.state.takesFin ∧ g.flags.has tcpFin = true then g.seqno + 1 else s.rcvNxt

/-- The states the `switch` of `tcp_process` may lead to, with and without a `FIN`. -/
def TcpState.next : TcpState → Bool → List TcpState
  | .synSent, _ => [.synSent, .established]
  | .synRcvd, _ => [.synRcvd, .established]
  | .established, false => [.established]
  | .established, true | .closeWait, _ => [.closeWait]
  | .finWait1, false => [.finWait1, .finWait2]
  | .finWait1, true => [.closing, .timeWait]
  | .finWait2, false => [.finWait2]
  | .finWait2, true | .timeWait, _ => [.timeWait]
  | .closing, _ => [.closing, .timeWait]
  | .lastAck, _ => [.lastAck, .closed]
  | .closed, _ => [.closed]
  | .listen, _ => [.listen]

theorem TcpState.next_early {st st' : TcpState} {fin : Bool} (h : st' ∈ st.next fin)
    (hle : st'.val ≤ TcpState.established.val) :
    st' = st ∨ (st = .lastAck ∧ st' = .closed) ∨ (st' = .established ∧ (st = .synSent ∨ st = .synRcvd)) := by
  cases st <;> cases fin <;> simp only [TcpState.next, mem_cons, not_mem_nil, or_false] at h
  all_goals
    first
      | subst h; first | exact .inl rfl | exact absurd hle (by decide)
      | rcases h with rfl | rfl <;>
          first
            | exact .inl rfl
            | exact absurd hle (by decide)
            | exact .inr (.inl ⟨rfl, rfl⟩)
            | exact .inr (.inr ⟨rfl, .inl rfl⟩)
            | exact .inr (.inr ⟨rfl, .inr rfl⟩)

/-- What the `switch` of `tcp_process` does to the receive side. -/
structure Switched (s : Pcb) (g : Segment) (s' : Pcb) : Prop where
  next : s'.state ∈ s.state.next (g.flags.has tcpFin)
  rcvWnd : s'.rcvWnd = s.rcvWnd
  recved : s'.recved = s.recved ∨ (s'.recved = [] ∧ (s'.state = .closed ∨ s'.state = .timeWait))
  closed : s.state = .lastAck → s'.state = .closed → s'.recved = []
  rcvNxt : s.state ≠ .synSent → s'.rcvNxt = finNxt s g
  opened : s.state = .synSent → s' = s ∨ (s'.state = .established ∧ s'.rcvNxt = g.seqno + 1)

theorem tcpHandleSynSent_recv (s : Pcb) (g : Segment) :
    (tcpHandleSynSent s g = s ∨ ((tcpHandleSynSent s g).state = .established ∧ (tcpHandleSynSent s g).rcvNxt = g.seqno + 1)) ∧
      (tcpHandleSynSent s g).rcvWnd = s.rcvWnd ∧ (tcpHandleSynSent s g).recved = s.recved := by
  unfold tcpHandleSynSent
  split
  · exact ⟨.inl rfl, rfl, rfl⟩
  split
  · exact ⟨.inl rfl, rfl, rfl⟩
  dsimp only
  split
  · exact ⟨.inr ⟨rfl, rfl⟩, rfl, rfl⟩
  · exact ⟨.inr ⟨rfl, rfl⟩, rfl, rfl⟩

theorem tcpPcbTimewait_recv (h : tcpPcbTimewait s = .ok s') : Dropped s s' ∧ s'.state = .timeWait := by
  obtain ⟨h1, h2⟩ := tcpPcbPurge_recv h
  exact ⟨⟨h1.recved, h1.rcvNxt, h1.rcvWnd⟩, h2⟩

variable {g : Segment}

theorem Switched.same (hq : SameQueue s s') (hn : s'.state ∈ s.state.next (g.flags.has tcpFin))
    (hcl : s'.state ≠ .closed ∨ s.state ≠ .lastAck) (h1 : s.state ≠ .synSent ∨ s' = s) (h2 : s.state ≠ .timeWait)
    (hf : ¬ (s.state.takesFin ∧ g.flags.has tcpFin = true)) : Switched s g s' := by
  refine ⟨hn, hq.rcvWnd, .inl hq.recved, fun h3 h4 => ?_, fun _ => ?_, fun h => ?_⟩
  · rcases hcl with h | h
    · exact absurd h4 h
    · exact absurd h3 h
  · unfold finNxt
    rw [if_neg h2, if_neg hf, hq.rcvNxt]
  · exact .inl (h1.resolve_left (not_not.2 h))

theorem Switched.dropped (hd : s'.recved = []) (hw : s'.rcvWnd = s.rcvWnd)
    (hn : s'.state ∈ s.state.next (g.flags.has tcpFin)) (hst : s'.state = .closed ∨ s'.state = .timeWait)
    (h1 : s.state ≠ .synSent) (hnxt : s'.rcvNxt = finNxt s g) : Switched s g s' :=
  ⟨hn, hw, .inr ⟨hd, hst⟩, fun _ _ => hd, fun _ => hnxt, fun h => absurd h h1⟩

theorem processFinWait1_recv (hst : s.state = .finWait1) (hs : processFinWait1 s g = .ok s') :
    Switched s g s' := by
  have htakes : s.state.takesFin := .inr (.inr (.inl hst))
  obtain ⟨t, ht, hs⟩ := bind_ok hs
  -- the pcb before `rcv_nxt` moves
  have facts : SameQueue s t ∨ (Dropped s t ∧ t.state = .timeWait) := by
    split at ht
    · obtain ⟨h1, h2⟩ := tcpPcbTimewait_recv ht
      exact .inr ⟨⟨h1.recved, h1.rcvNxt, h1.rcvWnd⟩, h2⟩
    split at ht
    · cases ht; exact .inl ⟨rfl, rfl, rfl⟩
    split at ht
    · cases ht; exact .inl ⟨rfl, rfl, rfl⟩
    · cases ht; exact .inl ⟨rfl, rfl, rfl⟩
  have hfin : t.state ∈ s.state.next (g.flags.has tcpFin) := by
    rw [hst]
    by_cases ha : g.flags.has tcpFin = true ∧ g.flags.has tcpAck = true ∧ g.ackno = s.sndNxt + 1
    · rw [if_pos ha] at ht
      rw [(tcpPcbTimewait_recv ht).2, ha.1]; decide
    rw [if_neg ha] at ht
    cases hf : g.flags.has tcpFin with
    | true =>
      rw [if_pos hf] at ht
      cases ht; exact .head _
    | false =>
      rw [hf, if_neg (by decide)] at ht
      split at ht
      · cases ht; exact .tail _ (.head _)
      · cases ht
        rw [hst]; exact .head _
  have hwnd : t.rcvWnd = s.rcvWnd := by
    rcases facts with h | ⟨h, -⟩
    · exact h.rcvWnd
    · exact h.rcvWnd
  have hnxt : t.rcvNxt = s.rcvNxt := by
    rcases facts with h | ⟨h, -⟩
    · exact h.rcvNxt
    · exact h.rcvNxt
  have hrec : t.recved = s.recved ∨ (t.recved = [] ∧ (t.state = .closed ∨ t.state = .timeWait)) :=
    facts.imp SameQueue.recved fun h => ⟨h.1.recved, .inr h.2⟩
  split at hs
  · rename_i hf
    cases hs
    refine ⟨hfin, hwnd, hrec, fun h => absurd (hst.symm.trans h) (by decide), fun _ => ?_, fun h => absurd (hst.symm.trans h) (by decide)⟩
    unfold finNxt
    rw [if_neg (by rw [hst]; decide), if_pos ⟨htakes, hf⟩]
  · rename_i hf
    cases hs
    refine ⟨hfin, hwnd, hrec, fun h => absurd (hst.symm.trans h) (by decide), fun _ => ?_, fun h => absurd (hst.symm.trans h) (by decide)⟩
    unfold finNxt
    rw [if_neg (by rw [hst]; decide), if_neg fun h => hf h.2, hnxt]

theorem processState_recv (hs : processState s g = .ok s') : Switched s g s' := by
  unfold processState at hs
  -- the states in which a `FIN` is not looked at
  have hno : ∀ st, s.state = st → ¬ st.takesFin → ¬ (s.state.takesFin ∧ g.flags.has tcpFin = true) := by
    rintro st rfl h1 ⟨h2, -⟩; exact h1 h2
  cases hst : s.state with
  | synSent =>
    rw [hst] at hs
    cases hs
    obtain ⟨h1, h2, h3⟩ := tcpHandleSynSent_recv s g
    refine ⟨?_, h2, .inl h3, fun h => absurd (hst.symm.trans h) (by decide), fun h => absurd hst h, fun _ => h1⟩
    rw [hst]
    rcases h1 with e | ⟨e, -⟩
    · rw [e, hst]; exact .head _
    · rw [e]; exact .tail _ (.head _)
  | synRcvd =>
    rw [hst] at hs
    dsimp only at hs
    have hne : s.state ≠ .synSent := by rw [hst]; decide
    have hnt : s.state ≠ .timeWait := by rw [hst]; decide
    split at hs
    · cases hs
      refine .same ⟨rfl, rfl, rfl⟩ ?_ (.inr (by rw [hst]; decide)) (.inl hne) hnt (hno _ hst (by decide))
      rw [hst]; exact .head _
    · cases hs
      refine .same ⟨rfl, rfl, rfl⟩ ?_ (.inr (by rw [hst]; decide)) (.inl hne) hnt (hno _ hst (by decide))
      rw [hst]; exact .tail _ (.head _)
  | established | closeWait =>
    have htakes : s.state.takesFin := by rw [hst]; decide
    have hne : s.state ≠ .synSent := by rw [hst]; decide
    have hnt : s.state ≠ .timeWait := by rw [hst]; decide
    rw [hst] at hs
    dsimp only at hs
    split at hs
    · rename_i hfin
      cases hs
      refine ⟨?_, rfl, .inl rfl, fun h => absurd (hst.symm.trans h) (by decide), fun _ => ?_, fun h => absurd h hne⟩
      · rw [hst, hfin]; exact .head _
      · unfold finNxt
        rw [if_neg hnt, if_pos ⟨htakes, hfin⟩]
    · rename_i hfin
      cases hs
      refine .same ⟨rfl, rfl, rfl⟩ ?_ (.inr (by rw [hst]; decide)) (.inl hne) hnt fun h => hfin h.2
      rw [hst, eq_false_of_ne_true hfin]; decide
  | lastAck =>
    have hne : s.state ≠ .synSent := by rw [hst]; decide
    have hnt : s.state ≠ .timeWait := by rw [hst]; decide
    rw [hst] at hs
    dsimp only at hs
    split at hs
    · obtain ⟨h1, h2⟩ := tcpPcbPurge_recv hs
      refine .dropped h1.recved h1.rcvWnd ?_ (.inl h2) hne ?_
      · rw [hst, h2]; exact .tail _ (.head _)
      · unfold finNxt
        rw [if_neg hnt, if_neg (hno _ hst (by decide))]; exact h1.rcvNxt
    · cases hs
      refine .same ⟨rfl, rfl, rfl⟩ ?_ (.inl (by rw [hst]; decide)) (.inl hne) hnt (hno _ hst (by decide))
      rw [hst]; exact .head _
  | finWait1 =>
    rw [hst] at hs
    exact processFinWait1_recv hst hs
  | finWait2 =>
    have htakes : s.state.takesFin := by rw [hst]; decide
    have hne : s.state ≠ .synSent := by rw [hst]; decide
    have hnt : s.state ≠ .timeWait := by rw [hst]; decide
    rw [hst] at hs
    dsimp only at hs
    split at hs
    · rename_i hfin
      obtain ⟨h1, h2⟩ := tcpPcbTimewait_recv hs
      refine .dropped h1.recved h1.rcvWnd ?_ (.inr h2) hne ?_
      · rw [hst, h2, hfin]; decide
      · unfold finNxt
        rw [if_neg hnt, if_pos ⟨htakes, hfin⟩]; exact h1.rcvNxt
    · rename_i hfin
      cases hs
      refine .same ⟨rfl, rfl, rfl⟩ ?_ (.inr (by rw [hst]; decide)) (.inl hne) hnt fun h => hfin h.2
      rw [hst, eq_false_of_ne_true hfin]; decide
  | closing =>
    have hne : s.state ≠ .synSent := by rw [hst]; decide
    have hnt : s.state ≠ .timeWait := by rw [hst]; decide
    rw [hst] at hs
    dsimp only at hs
    split at hs
    · obtain ⟨h1, h2⟩ := tcpPcbTimewait_recv hs
      refine .dropped h1.recved h1.rcvWnd ?_ (.inr h2) hne ?_
      · rw [hst, h2]; exact .tail _ (.head _)
      · unfold finNxt
        rw [if_neg hnt, if_neg (hno _ hst (by decide))]; exact h1.rcvNxt
    · cases hs
      refine .same ⟨rfl, rfl, rfl⟩ ?_ (.inr (by rw [hst]; decide)) (.inl hne) hnt (hno _ hst (by decide))
      rw [hst]; exact .head _
  | timeWait =>
    rw [hst] at hs
    cases hs
    obtain ⟨-, h1, h2⟩ := processTimeWait_send s g
    refine ⟨?_, ?_, .inl h2, fun h => absurd (hst.symm.trans h) (by decide), fun _ => ?_, fun h => absurd (hst.symm.trans h) (by decide)⟩
    · rw [h1, hst]; exact .head _
    · unfold processTimeWait
      dsimp only
      split <;> split <;> rfl
    · unfold finNxt processTimeWait
      rw [if_pos hst]
      dsimp only
      show _ = if seqGT (g.seqno + BitVec.ofNat 32 g.size) s.rcvNxt then g.seqno + BitVec.ofNat 32 g.size else s.rcvNxt
      split <;> split <;> rfl
  | listen | closed =>
    rw [hst] at hs
    cases hs
    refine .same ⟨rfl, rfl, rfl⟩ ?_ (.inr (by rw [hst]; decide)) (.inr rfl) (by rw [hst]; decide) (hno _ hst (by decide))
    rw [hst]; exact .head _

theorem tcpReceive_recv (hs : tcpReceive s g = .ok s') :
    ∃ t, SameRecv s t ∧ s' = if 0 < g.size then tcpUpdateBuf t g else t := by
  obtain ⟨t, ht, hs⟩ := bind_ok hs
  cases hs
  refine ⟨t, ?_, rfl⟩
  split at ht
  · exact (tcpUpdateWnd_recv s g).trans (tcpUpdateAck_recv ht)
  · cases ht; exact .refl _

theorem tcpHandleReset_recv (hs : tcpHandleReset s = .ok s') :
    SameRecv s s' ∨ (TcpState.synSent.val < s.state.val ∧ s'.state = .closed ∧ Dropped s s') := by
  unfold tcpHandleReset at hs
  split at hs
  · cases hs; exact .inl (.refl _)
  · rename_i hlt
    obtain ⟨t, ht, hs⟩ := bind_ok hs
    cases hs
    obtain ⟨h1, h2, h3⟩ := (tcpPcbPurge_recv ht).1
    exact .inr ⟨by omega, rfl, h1, h2, h3⟩

theorem tcpInput_recv (hs : tcpInput s g = .ok s') :
    (¬ Processed s g ∧ (SameRecv s s' ∨ (tcpValidate s g = true ∧ g.flags.has tcpRst = true ∧
      TcpState.synSent.val < s.state.val ∧ s'.state = .closed ∧ Dropped s s'))) ∨
    (Processed s g ∧ ∃ t, SameRecv s t ∧ ((¬ Accepts s g ∧ Switched t g s') ∨
      (Accepts s g ∧ Switched (if 0 < g.size then tcpUpdateBuf t g else t) g s'))) := by
  have hidle : SameRecv s (processPcb s g) := (tcpParseOption_recv g.options s).trans ⟨rfl, rfl, rfl, rfl⟩
  rcases tcpInput_parts hs with ⟨hnp, rfl | rfl⟩ | ⟨hv, hrst, h⟩ | ⟨hproc, hn, h⟩ | ⟨ha, t, ht, h⟩
  · exact .inl ⟨hnp, .inl (.refl _)⟩
  · exact .inl ⟨hnp, .inl (tcpParseOption_recv g.options s)⟩
  · refine .inl ⟨fun hp => absurd hp.2.2.1 (by rw [hrst]; decide), ?_⟩
    exact (tcpHandleReset_recv h).imp_right fun h => ⟨hv, hrst, h⟩
  · exact .inr ⟨hproc, _, hidle, .inl ⟨fun ha => hn (accepts_iff.1 ha).2, processState_recv h⟩⟩
  · obtain ⟨u, hu, rfl⟩ := tcpReceive_recv ht
    exact .inr ⟨(accepts_iff.1 ha).1, u, hidle.trans hu, .inr ⟨ha, processState_recv h⟩⟩

/-! ## One step -/

/-- What a step that neither receives a segment nor reads does to the receive side. -/
inductive SideStep (s t : Pcb) : Act → Prop
  | same {a : Act} (h : SameRecv s t) : SideStep s t a
  | connect (h : SameQueue s t) (h1 : s.state = .closed) (h2 : t.state = .synSent) : SideStep s t .connect
  | close (h : SameQueue s t) (h1 : ((s.state = .synRcvd ∨ s.state = .established) ∧ t.state = .finWait1) ∨
      (s.state = .closeWait ∧ t.state = .lastAck)) : SideStep s t .close
  | closed (h : Dropped s t) (h1 : t.state = .closed) : SideStep s t .close
  | timeout {type : TcpTimer} (h : Dropped s t) (h1 : t.state = .closed) : SideStep s t (.timeout type)

theorem tcpConnect_side (hs : tcpConnect s = .ok s') : SideStep s s' .connect := by
  unfold tcpConnect at hs
  split at hs
  · cases hs; exact .same (.refl _)
  · rename_i hcl
    obtain ⟨t, ht, hs⟩ := bind_ok hs
    have h := (tcpEnqueue_recv ht).trans (tcpOutput_recv hs)
    exact .connect ⟨h.recved, h.rcvNxt, h.rcvWnd⟩ (not_not.1 hcl) h.state

theorem tcpClose_side (hs : tcpClose s = .ok s') : SideStep s s' .close := by
  have hpurge : tcpPcbPurge { s with state := .closed } = .ok s' → SideStep s s' .close := by
    intro h
    obtain ⟨h1, h2⟩ := tcpPcbPurge_recv h
    exact .closed ⟨h1.recved, h1.rcvNxt, h1.rcvWnd⟩ h2
  have hfin : ∀ st : TcpState, ((s.state = .synRcvd ∨ s.state = .established) ∧ st = .finWait1) ∨
      (s.state = .closeWait ∧ st = .lastAck) →
      (tcpEnqueue s (fun _ => 0) 0 tcpFin >>= fun t => tcpOutput { t with state := st }) = .ok s' → SideStep s s' .close := by
    intro st hst h
    obtain ⟨t, ht, h⟩ := bind_ok h
    have h1 := tcpEnqueue_recv ht
    have h2 := tcpOutput_recv h
    refine .close ⟨h2.recved.trans h1.recved, h2.rcvNxt.trans h1.rcvNxt, h2.rcvWnd.trans h1.rcvWnd⟩ ?_
    rw [h2.state]; exact hst
  unfold tcpClose at hs
  cases hst : s.state with
  | closed | synSent | listen => rw [hst] at hs; exact hpurge hs
  | synRcvd => rw [hst] at hs; exact hfin .finWait1 (.inl ⟨.inl hst, rfl⟩) hs
  | established => rw [hst] at hs; exact hfin .finWait1 (.inl ⟨.inr hst, rfl⟩) hs
  | closeWait => rw [hst] at hs; exact hfin .lastAck (.inr ⟨hst, rfl⟩) hs
  | finWait1 | finWait2 | closing | lastAck | timeWait => rw [hst] at hs; cases hs; exact .same (.refl _)

theorem tcpTimeout_side {type : TcpTimer} (hs : tcpTimeout s type = .ok s') : SideStep s s' (.timeout type) := by
  have hend : ∀ t : Pcb, SameQueue s t → (tcpPcbPurge t >>= fun u => Except.ok { u with state := .closed }) = .ok s' →
      SideStep s s' (.timeout type) := by
    intro t ht h
    obtain ⟨u, hu, h⟩ := bind_ok h
    cases h
    have h1 := (tcpPcbPurge_recv hu).1
    exact .timeout ⟨h1.recved, h1.rcvNxt.trans ht.rcvNxt, h1.rcvWnd.trans ht.rcvWnd⟩ rfl
  unfold tcpTimeout at hs
  cases type with
  | syn =>
    dsimp only at hs
    split at hs
    · cases hs; exact .same (.refl _)
    · exact hend s ⟨rfl, rfl, rfl⟩ hs
  | rexmit =>
    dsimp only at hs
    split at hs
    · refine hend _ ?_ hs
      exact ⟨rfl, rfl, rfl⟩
    · have := tcpRexmit_recv hs
      exact .same ⟨this.state, this.recved, this.rcvNxt, this.rcvWnd⟩
  | persist =>
    cases hs
    split <;> exact .same ⟨rfl, rfl, rfl, rfl⟩
  | keepalive =>
    dsimp only at hs
    split at hs
    · cases hs; exact .same (.refl _)
    · exact hend s ⟨rfl, rfl, rfl⟩ hs
  | finWait2 | timewait =>
    obtain ⟨h1, h2⟩ := tcpPcbPurge_recv hs
    exact .timeout ⟨h1.recved, h1.rcvNxt, h1.rcvWnd⟩ h2

def vectors (sizes : List Nat) : List Iovec := sizes.map fun n => ⟨[], n⟩

def Read (s : State) (sizes : List Nat) (t : State) : Prop :=
  ∃ iov, recvQueued s.pcb (vectors sizes) = .ok (t.pcb, iov) ∧ t.sock = s.sock ∧
    t.delivered = s.delivered ++ iov.flatMap Iovec.base

theorem recvQueued_loop {iov iov' : List Iovec} (hs : recvQueued s iov = .ok (s', iov')) :
    (∃ left', recvLoop s.recved ((iov.map Iovec.size).sum % 2 ^ 32) iov s.rcvWnd = .ok (left', iov', s'.rcvWnd, s'.recved)) ∧
      s'.state = s.state ∧ s'.rcvNxt = s.rcvNxt := by
  unfold recvQueued at hs
  dsimp only at hs
  split at hs
  · cases hs
  obtain ⟨⟨left', iov1, wnd, rest⟩, h1, hs⟩ := bind_ok hs
  obtain ⟨rfl, rfl⟩ := Prod.mk.inj (Except.ok.inj hs)
  exact ⟨⟨left', h1⟩, rfl, rfl⟩

theorem step_recv {s t : State} {a : Act} (hs : step s a = .ok t) :
    (∃ g, a = .input g ∧ tcpInput s.pcb g = .ok t.pcb ∧ t.sock = s.sock ∧ t.delivered = s.delivered) ∨
    (∃ sizes, (a = .resume sizes ∨ (a = .recv sizes ∧ s.pcb.state = .established)) ∧ Read s sizes t) ∨
    ((∀ g, a ≠ .input g) ∧ SideStep s.pcb t.pcb a ∧ t.delivered = s.delivered ∧ (t.sock = true → s.sock = true)) := by
  cases a with
  | input g =>
    obtain ⟨p, h, hs⟩ := bind_ok hs
    cases hs; exact .inl ⟨g, rfl, h, rfl, rfl⟩
  | recv sizes =>
    obtain ⟨⟨p, iov⟩, h, hs⟩ := bind_ok hs
    cases hs
    unfold tcpRecvmsg at h
    split at h
    · cases h
      refine .inr (.inr ⟨nofun, .same (.refl _), ?_, id⟩)
      have : ((sizes.map fun n => (⟨[], n⟩ : Iovec)).flatMap Iovec.base) = [] := by simp [flatMap_eq_nil_iff]
      rw [this, append_nil]
    · rename_i hc
      exact .inr (.inl ⟨sizes, .inr ⟨rfl, not_not.1 fun h => hc (.inl h)⟩, iov, h, rfl, rfl⟩)
  | resume sizes =>
    obtain ⟨⟨p, iov⟩, h, hs⟩ := bind_ok hs
    cases hs; exact .inr (.inl ⟨sizes, .inl rfl, iov, h, rfl, rfl⟩)
  | connect =>
    obtain ⟨p, h, hs⟩ := bind_ok hs
    cases hs; exact .inr (.inr ⟨nofun, tcpConnect_side h, rfl, id⟩)
  | send iov flags =>
    obtain ⟨p, h, hs⟩ := bind_ok hs
    cases hs; exact .inr (.inr ⟨nofun, .same (tcpSendmsg_recv h), rfl, id⟩)
  | setsockopt opt val =>
    cases hs
    refine .inr (.inr ⟨nofun, .same ?_, rfl, id⟩)
    cases opt <;> exact ⟨rfl, rfl, rfl, rfl⟩
  | close =>
    obtain ⟨p, h, hs⟩ := bind_ok hs
    cases hs; exact .inr (.inr ⟨nofun, tcpClose_side h, rfl, fun h => nomatch h⟩)
  | timeout type =>
    obtain ⟨p, h, hs⟩ := bind_ok hs
    cases hs; exact .inr (.inr ⟨nofun, tcpTimeout_side h, rfl, id⟩)
  | slowtimo => cases hs; exact .inr (.inr ⟨nofun, .same ⟨rfl, rfl, rfl, rfl⟩, rfl, id⟩)
  | fastimo =>
    obtain ⟨p, h, hs⟩ := bind_ok hs
    cases hs; exact .inr (.inr ⟨nofun, .same (tcpFastimo_recv h), rfl, id⟩)
  | sent i => cases hs; exact .inr (.inr ⟨nofun, .same ⟨rfl, rfl, rfl, rfl⟩, rfl, id⟩)

end Onix.Tcp
