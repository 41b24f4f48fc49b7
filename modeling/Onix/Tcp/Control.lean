/-
The fields of a pcb that pace it: the segment size, the congestion windows, the duplicate
acknowledgements, the timeout and its count, the idle time. Few functions change them; the rest are shown here to
leave them as they are and to divide nothing, so that congestion control and the timers can be
followed by themselves.
-/
import Onix.Tcp.Sequence

namespace Onix.Tcp

open Onix.Lib

/-- What congestion control and retransmission keep in a pcb. -/
@[ext] structure Ctl where
  mss : Nat
  cwnd : BitVec 32
  ssthresh : BitVec 32
  dupacks : BitVec 32
  rto : BitVec 32
  rttmin : BitVec 32
  rtxCnt : BitVec 32
  idle : BitVec 32
  keepalive : Bool

def Pcb.ctl (s : Pcb) : Ctl :=
  { mss := s.sndMss, cwnd := s.sndCwnd, ssthresh := s.sndSsthresh, dupacks := s.dupacks, rto := s.rto, rttmin := s.rttmin
    rtxCnt := s.rtxCnt, idle := s.idle, keepalive := s.keepalive }

abbrev Divides {α : Type} (r : Except Fault α) (Q : α → Prop) : Prop := Sat (· = Fault.divide) r Q

def Paced (s t : Pcb) : Prop := t.ctl = s.ctl

theorem Paced.trans {s t u : Pcb} (h1 : Paced s t) (h2 : Paced t u) : Paced s u := Eq.trans h2 h1

/-! ## Output -/

theorem tcpOutputSeg_paced (s : Pcb) (f : Flags) : Paced s (tcpOutputSeg s f) := by
  unfold tcpOutputSeg
  split <;> rfl

theorem tcpSendAck_paced (s : Pcb) (f : Flags) : Paced s (tcpSendAck s f) := tcpOutputSeg_paced s f

theorem tcpEnqueueSeg_paced (src : Nat → UInt8) (ptr size : Nat) (left : Int) (f : Flags) (s : Pcb) :
    Divides (tcpEnqueueSeg src ptr left size f s) fun r => Paced s r.1 := by
  refine sat_ite (fun _ => Sat.error (by decide)) fun _ => ?_
  exact sat_ite (fun _ => rfl) fun _ => rfl

theorem enqueueLoop_paced (src : Nat → UInt8) (size : Nat) (f : Flags) : ∀ (fuel ptr : Nat) (left : Int) (s : Pcb),
    Divides (enqueueLoop src size f fuel ptr left s) (Paced s)
  | 0, _, _, s => Sat.ok (rfl : Paced s s)
  | fuel + 1, ptr, left, s => by
    refine (tcpEnqueueSeg_paced src ptr size left f s).bind fun r _ hr => ?_
    refine sat_ite (fun _ => ?_) fun _ => hr
    exact (enqueueLoop_paced src size f fuel _ _ r.1).mono fun t ht => hr.trans ht

theorem tcpEnqueue_paced (s : Pcb) (src : Nat → UInt8) (size : Nat) (f : Flags) :
    Divides (tcpEnqueue s src size f) fun t => t.ctl = { s.ctl with mss := max s.sndMss tcpDefaultMss } := by
  refine (enqueueLoop_paced _ _ _ _ _ _ _).mono fun t ht => ?_
  rw [ht]
  split
  · rw [max_eq_right (by omega)]; rfl
  · rw [max_eq_left (by omega)]; rfl

theorem outputLoop_paced (wnd : BitVec 32) : ∀ (l : List Pbuf) (s : Pcb), Divides (outputLoop wnd l s) (Paced s)
  | [], s => Sat.ok (rfl : Paced s s)
  | p :: rest, s => by
    refine sat_ite (fun _ => Sat.ok rfl) fun _ => ?_
    refine sat_ite (fun _ => Sat.error (by decide)) fun _ => ?_
    refine (outputLoop_paced wnd rest _).mono fun t ht => ?_
    refine Paced.trans ?_ ht
    refine Paced.trans ?_ (tcpOutputSeg_paced _ _)
    split <;> rfl

theorem slowStart_cases (s : Pcb) :
    (slowStart s).ctl = s.ctl ∨ (slowStart s).ctl = { s.ctl with cwnd := BitVec.ofNat 32 s.sndMss } := by
  unfold slowStart
  split
  · exact .inr rfl
  · exact .inl rfl

theorem tcpOutput_paced (s : Pcb) : Divides (tcpOutput s) (Paced (slowStart s)) := by
  refine sat_ite (fun _ => Sat.ok rfl) fun _ => ?_
  refine (outputLoop_paced _ _ _).bind fun t _ ht => ?_
  exact sat_ite (fun _ => ht.trans (tcpSendAck_paced t tcpAck)) fun _ => ht

theorem tcpRexmit_paced (s : Pcb) : Divides (tcpRexmit s) (Paced (slowStart s)) := by
  refine (tcpOutput_paced (requeue s)).mono fun t ht => ?_
  refine Paced.trans ?_ ht
  unfold slowStart requeue
  split <;> rfl

theorem sendLoop_paced (f : Flags) : ∀ (iov : List ((Nat → UInt8) × Nat)) (left : Nat) (s : Pcb),
    Divides (sendLoop f iov left s) fun t => Paced s t ∨ t.ctl = { s.ctl with mss := max s.sndMss tcpDefaultMss }
  | [], _, s => Sat.ok (.inl rfl)
  | v :: iov, left, s => by
    refine sat_ite (fun _ => Sat.ok (.inl rfl)) fun _ => sat_ite (fun _ => sendLoop_paced f iov left s) fun _ => ?_
    refine (tcpEnqueue_paced s v.1 _ f).bind fun u _ hu => ?_
    refine (sendLoop_paced f iov _ u).mono fun t ht => .inr ?_
    have hm : u.sndMss = max s.sndMss tcpDefaultMss := congrArg Ctl.mss hu
    rcases ht with ht | ht
    · exact Eq.trans ht hu
    · rw [ht, hu, hm, max_eq_left (le_max_right ..)]

/-! ## Input -/

theorem tcpUpdateWnd_paced (s : Pcb) (g : Segment) : Paced s (tcpUpdateWnd s g) := by
  unfold tcpUpdateWnd
  split <;> rfl

theorem dropAcked_paced (s : Pcb) (a : Seq) : Divides (dropAcked s a) (Paced s) := by
  exact sat_ite (fun _ => Sat.error (by decide)) fun _ => rfl

theorem flushBuf_paced (s : Pcb) (a : Seq) : Paced s (flushBuf s a) := by
  unfold flushBuf
  split
  · split <;> rfl
  · rfl

theorem tcpUpdateBuf_paced (s : Pcb) (g : Segment) : Paced s (tcpUpdateBuf s g) := by
  unfold tcpUpdateBuf
  dsimp only
  split
  · rfl
  split
  · rfl
  split
  · rfl
  split <;> split <;> rfl

theorem tcpPcbPurge_paced (s : Pcb) : Divides (tcpPcbPurge s) (Paced s) := by
  exact sat_ite (fun _ => Sat.error (by decide)) fun _ => rfl

theorem tcpPcbTimewait_paced (s : Pcb) : Divides (tcpPcbTimewait s) (Paced s) := tcpPcbPurge_paced { s with state := .timeWait }

theorem tcpHandleSynSent_paced (s : Pcb) (g : Segment) : Paced s (tcpHandleSynSent s g) := by
  unfold tcpHandleSynSent
  split
  · rfl
  split
  · rfl
  dsimp only
  split
  · exact tcpSendAck_paced _ _
  · rfl

theorem processFinWait1_paced (s : Pcb) (g : Segment) : Divides (processFinWait1 s g) (Paced s) := by
  refine Sat.bind (Q := Paced s) ?_ fun t _ ht => ?_
  · refine sat_ite (fun _ => tcpPcbTimewait_paced (finAcked s)) fun _ => ?_
    exact sat_ite (fun _ => rfl) fun _ => sat_ite (fun _ => rfl) fun _ => rfl
  · refine Sat.ok ?_
    split <;> exact ht

theorem processTimeWait_paced (s : Pcb) (g : Segment) : Paced s (processTimeWait s g) := by
  unfold processTimeWait
  dsimp only
  split <;> split <;> rfl

theorem processState_paced (s : Pcb) (g : Segment) : Divides (processState s g) (Paced s) := by
  unfold processState
  split
  · exact Sat.ok (tcpHandleSynSent_paced s g)
  · exact sat_ite (fun _ => rfl) fun _ => rfl
  · exact sat_ite (fun _ => rfl) fun _ => rfl
  · exact sat_ite (fun _ => rfl) fun _ => rfl
  · exact sat_ite (fun _ => tcpPcbPurge_paced { s with state := .closed }) fun _ => rfl
  · exact processFinWait1_paced s g
  · exact sat_ite (fun _ => tcpPcbTimewait_paced { s with rcvNxt := g.seqno + 1, ackNow := true }) fun _ => rfl
  · exact sat_ite (fun _ => tcpPcbTimewait_paced (finAcked s)) fun _ => rfl
  · exact Sat.ok (processTimeWait_paced s g)
  · exact Sat.ok rfl
  · exact Sat.ok rfl

theorem tcpHandleReset_paced (s : Pcb) : Divides (tcpHandleReset s) (Paced s) := by
  refine sat_ite (fun _ => Sat.ok rfl) fun _ => ?_
  exact (tcpPcbPurge_paced s).bind fun t _ ht => Sat.ok ht

/-! ## Calls -/

theorem recvLoop_divides : ∀ (l : List Pbuf) (left : Nat) (iov : List Iovec) (wnd : Nat),
    Divides (recvLoop l left iov wnd) fun _ => True
  | [], _, _, _ => Sat.ok trivial
  | p :: rest, left, iov, wnd => by
    refine sat_ite (fun _ => Sat.error (by decide)) fun _ => sat_ite (fun _ => Sat.ok trivial) fun _ => ?_
    refine sat_ite (fun _ => Sat.error (by decide)) fun _ => sat_ite (fun _ => Sat.error (by decide)) fun _ => ?_
    exact recvLoop_divides rest _ _ _

theorem recvQueued_paced (s : Pcb) (iov : List Iovec) : Divides (recvQueued s iov) fun r => Paced s r.1 := by
  refine sat_ite (fun _ => Sat.error (by decide)) fun _ => ?_
  exact (recvLoop_divides _ _ _ _).bind fun r _ _ => Sat.ok rfl

theorem tcpRecvmsg_paced (s : Pcb) (iov : List Iovec) : Divides (tcpRecvmsg s iov) fun r => Paced s r.1 := by
  exact sat_ite (fun _ => rfl) fun _ => recvQueued_paced s iov

end Onix.Tcp
