/-
What the functions of one connection leave alone: the send side never touches the receive queue,
`rcv_nxt`, `rcv_wnd` or the state, the receive side neither the send queues nor their counters.
-/
import Onix.Lib.Loop
import Onix.Tcp.Model

namespace Onix.Tcp

open Except Onix.Lib

/-- The receive side and the state are as they were. -/
structure SameRecv (s s' : Pcb) : Prop where
  state : s'.state = s.state
  recved : s'.recved = s.recved
  rcvNxt : s'.rcvNxt = s.rcvNxt
  rcvWnd : s'.rcvWnd = s.rcvWnd

theorem SameRecv.refl (s : Pcb) : SameRecv s s := ⟨rfl, rfl, rfl, rfl⟩

variable {s : Pcb}

theorem SameRecv.trans {t u : Pcb} (h1 : SameRecv s t) (h2 : SameRecv t u) : SameRecv s u :=
  ⟨h2.state.trans h1.state, h2.recved.trans h1.recved, h2.rcvNxt.trans h1.rcvNxt, h2.rcvWnd.trans h1.rcvWnd⟩

theorem tcpOutputSeg_recv (s : Pcb) (f : Flags) : SameRecv s (tcpOutputSeg s f) := by
  unfold tcpOutputSeg
  split
  · exact .refl s
  · exact ⟨rfl, rfl, rfl, rfl⟩

variable {f : Flags} {size : Nat} {src : Nat → UInt8} {s' : Pcb}

theorem tcpEnqueueSeg_recv {ptr : Nat} {left len : Int}
    (h : tcpEnqueueSeg src ptr left size f s = .ok (s', len)) : SameRecv s s' := by
  simp only [tcpEnqueueSeg] at h
  split at h
  · cases h
  · split at h
    · obtain ⟨rfl, -⟩ := Prod.mk.inj (ok.inj h); exact ⟨rfl, rfl, rfl, rfl⟩
    · obtain ⟨rfl, -⟩ := Prod.mk.inj (ok.inj h); exact ⟨rfl, rfl, rfl, rfl⟩

theorem enqueueLoop_recv :
    ∀ (fuel ptr : Nat) (left : Int) (s s' : Pcb), enqueueLoop src size f fuel ptr left s = .ok s' → SameRecv s s'
  | 0, _, _, s, s', h => by cases h; exact .refl s
  | fuel + 1, ptr, left, s, s', h => by
    obtain ⟨⟨s1, len⟩, h1, h⟩ := bind_ok h
    have h1' := tcpEnqueueSeg_recv h1
    dsimp only at h
    split at h
    · exact h1'.trans (enqueueLoop_recv _ _ _ _ _ h)
    · cases h; exact h1'

theorem tcpEnqueue_recv
    (h : tcpEnqueue s src size f = .ok s') : SameRecv s s' := by
  unfold tcpEnqueue at h
  refine SameRecv.trans ?_ (enqueueLoop_recv _ _ _ _ _ h)
  split <;> exact ⟨rfl, rfl, rfl, rfl⟩

theorem outputLoop_recv {wnd : BitVec 32} :
    ∀ (l : List Pbuf) (s s' : Pcb), outputLoop wnd l s = .ok s' → SameRecv s s'
  | [], s, s', h => by cases h; exact .refl s
  | p :: rest, s, s', h => by
    simp only [outputLoop] at h
    split at h
    · cases h; exact .refl s
    · split at h
      · cases h
      · refine SameRecv.trans ?_ (outputLoop_recv _ _ _ h)
        refine SameRecv.trans ?_ (tcpOutputSeg_recv _ _)
        split <;> exact ⟨rfl, rfl, rfl, rfl⟩

theorem slowStart_recv (s : Pcb) : SameRecv s (slowStart s) := by
  unfold slowStart
  split
  · exact ⟨rfl, rfl, rfl, rfl⟩
  · exact .refl s

theorem tcpOutput_recv (h : tcpOutput s = .ok s') : SameRecv s s' := by
  unfold tcpOutput at h
  refine (slowStart_recv s).trans ?_
  simp only at h
  split at h
  · cases h; exact .refl _
  · obtain ⟨s1, h1, h⟩ := bind_ok h
    refine (outputLoop_recv _ _ _ h1).trans ?_
    split at h
    · cases h; exact tcpOutputSeg_recv _ _
    · cases h; exact .refl _

theorem tcpRexmit_recv (h : tcpRexmit s = .ok s') : SameRecv s s' :=
  SameRecv.trans (t := requeue s) ⟨rfl, rfl, rfl, rfl⟩ (tcpOutput_recv h)

theorem tcpHandleDuppacks_recv (h : tcpHandleDuppacks s = .ok s') : SameRecv s s' := by
  unfold tcpHandleDuppacks at h
  split at h
  · cases h; exact .refl s
  · split at h
    · split at h
      · cases h
      · obtain ⟨s1, h1, h⟩ := bind_ok h
        cases h
        have := tcpRexmit_recv h1
        exact ⟨this.state, this.recved, this.rcvNxt, this.rcvWnd⟩
    · have := tcpRexmit_recv h
      exact ⟨this.state, this.recved, this.rcvNxt, this.rcvWnd⟩

theorem tcpUpdateWnd_recv (s : Pcb) (g : Segment) : SameRecv s (tcpUpdateWnd s g) := by
  unfold tcpUpdateWnd
  split <;> exact ⟨rfl, rfl, rfl, rfl⟩

theorem advanceUna_recv (s : Pcb) (a : Seq) : SameRecv s (advanceUna (growCwnd s) a) := by
  unfold advanceUna growCwnd tcpXmitTimer
  simp only
  split <;> split <;> exact ⟨rfl, rfl, rfl, rfl⟩

theorem dropAcked_recv {a : Seq} (h : dropAcked s a = .ok s') : SameRecv s s' := by
  unfold dropAcked at h
  split at h
  · cases h
  · cases h; exact ⟨rfl, rfl, rfl, rfl⟩

theorem flushBuf_recv (s : Pcb) (a : Seq) : SameRecv s (flushBuf s a) := by
  unfold flushBuf
  split
  · split <;> exact ⟨rfl, rfl, rfl, rfl⟩
  · exact .refl s

theorem tcpUpdateAck_recv {g : Segment} (h : tcpUpdateAck s g = .ok s') : SameRecv s s' := by
  unfold tcpUpdateAck at h
  split at h
  · split at h
    · have := tcpHandleDuppacks_recv h
      exact ⟨this.state, this.recved, this.rcvNxt, this.rcvWnd⟩
    · cases h; exact ⟨rfl, rfl, rfl, rfl⟩
  · obtain ⟨s1, h1, h⟩ := bind_ok h
    cases h
    exact ((advanceUna_recv s _).trans (dropAcked_recv h1)).trans (flushBuf_recv _ _)

theorem tcpParseOption_recv : ∀ (os : List TcpOpt) (s : Pcb), SameRecv s (tcpParseOption s os).1
  | [], s => .refl s
  | .optEnd :: _, s => .refl s
  | .optMss size value :: os, s => by
    unfold tcpParseOption
    split
    · exact .refl s
    · exact SameRecv.trans (t := { s with sndMss := value }) ⟨rfl, rfl, rfl, rfl⟩ (tcpParseOption_recv os _)
  | .other :: os, s => tcpParseOption_recv os s

theorem sendLoop_recv :
    ∀ (iov : List ((Nat → UInt8) × Nat)) (left : Nat) (s s' : Pcb), sendLoop f iov left s = .ok s' → SameRecv s s'
  | [], _, s, s', h => by cases h; exact .refl s
  | v :: iov, left, s, s', h => by
    unfold sendLoop at h
    split at h
    · cases h; exact .refl s
    · split at h
      · exact sendLoop_recv _ _ _ _ h
      · obtain ⟨s1, h1, h⟩ := bind_ok h
        exact (tcpEnqueue_recv h1).trans (sendLoop_recv _ _ _ _ h)

theorem tcpSendmsg_recv {iov : List ((Nat → UInt8) × Nat)}
    (h : tcpSendmsg s iov f = .ok s') : SameRecv s s' := by
  unfold tcpSendmsg at h
  split at h
  · cases h; exact .refl s
  · simp only at h
    split at h
    · cases h; exact .refl s
    · obtain ⟨s1, h1, h⟩ := bind_ok h
      exact (sendLoop_recv _ _ _ _ h1).trans (tcpOutput_recv h)

theorem tcpFastimo_recv (h : tcpFastimo s = .ok s') : SameRecv s s' := by
  unfold tcpFastimo at h
  simp only at h
  have h0 : SameRecv s (if s.ackDelay then { s with ackNow := true } else s) := by
    split <;> exact ⟨rfl, rfl, rfl, rfl⟩
  generalize (if s.ackDelay then { s with ackNow := true } else s) = s1 at h h0
  split at h
  · exact h0.trans (tcpOutput_recv h)
  · cases h; exact h0

def InOrder (s : Pcb) (g : Segment) : Prop :=
  ¬ seqLEQ (g.seqno + BitVec.ofNat 32 g.size) s.rcvNxt ∧ ¬ seqGT g.seqno s.rcvNxt

theorem tcpUpdateBuf_cases (s : Pcb) (g : Segment) :
    (¬ (InOrder s g ∧ (trimSeg s g).size ≠ 0) ∧ SameRecv s (tcpUpdateBuf s g)) ∨
    (InOrder s g ∧ (tcpUpdateBuf s g).state = s.state ∧
      (tcpUpdateBuf s g).rcvNxt = g.seqno + BitVec.ofNat 32 g.size ∧
      (tcpUpdateBuf s g).rcvWnd = (s.rcvWnd + 65536 - (trimSeg s g).size % 65536) % 65536 ∧
      (tcpUpdateBuf s g).recved =
        if TcpState.established.val < s.state.val then s.recved else insertSeg (trimSeg s g) s.recved) := by
  unfold tcpUpdateBuf
  dsimp only
  by_cases h1 : seqLEQ (g.seqno + BitVec.ofNat 32 g.size) s.rcvNxt
  · rw [if_pos h1]; exact .inl ⟨fun h => h.1.1 h1, rfl, rfl, rfl, rfl⟩
  rw [if_neg h1]
  by_cases h2 : seqGT g.seqno s.rcvNxt
  · rw [if_pos h2]; exact .inl ⟨fun h => h.1.2 h2, rfl, rfl, rfl, rfl⟩
  rw [if_neg h2]
  by_cases h3 : (trimSeg s g).size = 0
  · rw [if_pos h3]; exact .inl ⟨fun h => h.2 h3, rfl, rfl, rfl, rfl⟩
  rw [if_neg h3]
  right
  -- a quick acknowledgement changes flags only
  have key : ∀ t : Pcb, t.state = s.state → t.rcvNxt = g.seqno + BitVec.ofNat 32 g.size →
      t.rcvWnd = (s.rcvWnd + 65536 - (trimSeg s g).size % 65536) % 65536 → t.recved = s.recved →
      InOrder s g ∧ (if TcpState.established.val < t.state.val then t
          else { t with recved := insertSeg (trimSeg s g) t.recved }).state = s.state ∧
        (if TcpState.established.val < t.state.val then t
          else { t with recved := insertSeg (trimSeg s g) t.recved }).rcvNxt = g.seqno + BitVec.ofNat 32 g.size ∧
        (if TcpState.established.val < t.state.val then t
          else { t with recved := insertSeg (trimSeg s g) t.recved }).rcvWnd =
            (s.rcvWnd + 65536 - (trimSeg s g).size % 65536) % 65536 ∧
        (if TcpState.established.val < t.state.val then t
          else { t with recved := insertSeg (trimSeg s g) t.recved }).recved =
            if TcpState.established.val < s.state.val then s.recved else insertSeg (trimSeg s g) s.recved := by
    intro t e1 e2 e3 e4
    rw [← e1]
    split
    · exact ⟨⟨h1, h2⟩, rfl, e2, e3, e4⟩
    · exact ⟨⟨h1, h2⟩, rfl, e2, e3, by rw [e4]⟩
  split
  · obtain ⟨a, b, c, d⟩ := tcpOutputSeg_recv
      { s with rcvNxt := g.seqno + BitVec.ofNat 32 g.size,
               rcvWnd := (s.rcvWnd + 65536 - (trimSeg s g).size % 65536) % 65536, ackDelay := true } tcpAck
    exact key _ a c d b
  · exact key _ rfl rfl rfl rfl

theorem tcpUpdateBuf_state (s : Pcb) (g : Segment) : (tcpUpdateBuf s g).state = s.state := by
  rcases tcpUpdateBuf_cases s g with ⟨-, h⟩ | ⟨-, h, -⟩
  · exact h.state
  · exact h

/-! ## The send side -/

/-- The send queues and their counters are as they were. -/
structure SameSend (s s' : Pcb) : Prop where
  una : s'.sndUna = s.sndUna
  nxt : s'.sndNxt = s.sndNxt
  max : s'.sndMax = s.sndMax
  nbb : s'.sndNbb = s.sndNbb
  mss : s'.sndMss = s.sndMss
  buf : s'.sndBuf = s.sndBuf
  unsent : s'.unsent = s.unsent
  unacked : s'.unacked = s.unacked

theorem SameSend.refl (s : Pcb) : SameSend s s := ⟨rfl, rfl, rfl, rfl, rfl, rfl, rfl, rfl⟩

theorem SameSend.trans {t u : Pcb} (h1 : SameSend s t) (h2 : SameSend t u) : SameSend s u :=
  ⟨h2.una.trans h1.una, h2.nxt.trans h1.nxt, h2.max.trans h1.max, h2.nbb.trans h1.nbb, h2.mss.trans h1.mss,
    h2.buf.trans h1.buf, h2.unsent.trans h1.unsent, h2.unacked.trans h1.unacked⟩

theorem tcpOutputSeg_send (s : Pcb) (f : Flags) : SameSend s (tcpOutputSeg s f) := by
  unfold tcpOutputSeg
  split
  · exact .refl s
  · exact ⟨rfl, rfl, rfl, rfl, rfl, rfl, rfl, rfl⟩

theorem tcpSendAck_send (s : Pcb) (f : Flags) : SameSend s (tcpSendAck s f) := tcpOutputSeg_send s f

theorem slowStart_send (s : Pcb) : SameSend s (slowStart s) := by
  unfold slowStart
  split
  · exact ⟨rfl, rfl, rfl, rfl, rfl, rfl, rfl, rfl⟩
  · exact .refl s

theorem tcpUpdateWnd_send (s : Pcb) (g : Segment) : SameSend s (tcpUpdateWnd s g) := by
  unfold tcpUpdateWnd
  split
  · exact ⟨rfl, rfl, rfl, rfl, rfl, rfl, rfl, rfl⟩
  · exact .refl s

theorem tcpUpdateBuf_send (s : Pcb) (g : Segment) : SameSend s (tcpUpdateBuf s g) := by
  unfold tcpUpdateBuf
  dsimp only
  split
  · exact ⟨rfl, rfl, rfl, rfl, rfl, rfl, rfl, rfl⟩
  split
  · exact ⟨rfl, rfl, rfl, rfl, rfl, rfl, rfl, rfl⟩
  split
  · exact ⟨rfl, rfl, rfl, rfl, rfl, rfl, rfl, rfl⟩
  -- a quick acknowledgement changes flags only
  have key : ∀ t : Pcb, SameSend s t → SameSend s (if TcpState.established.val < t.state.val then t
      else { t with recved := insertSeg (trimSeg s g) t.recved }) := by
    intro t h
    split
    · exact h
    · exact h.trans ⟨rfl, rfl, rfl, rfl, rfl, rfl, rfl, rfl⟩
  split
  · refine key _ (SameSend.trans ?_ (tcpSendAck_send _ _))
    exact ⟨rfl, rfl, rfl, rfl, rfl, rfl, rfl, rfl⟩
  · exact key _ ⟨rfl, rfl, rfl, rfl, rfl, rfl, rfl, rfl⟩

theorem processTimeWait_send (s : Pcb) (g : Segment) :
    SameSend s (processTimeWait s g) ∧ (processTimeWait s g).state = s.state ∧ (processTimeWait s g).recved = s.recved := by
  unfold processTimeWait
  dsimp only
  split <;> split <;> exact ⟨⟨rfl, rfl, rfl, rfl, rfl, rfl, rfl, rfl⟩, rfl, rfl⟩

theorem tcpSetsockopt_send (s : Pcb) (opt : SockOpt) (val : Bool) : SameSend s (tcpSetsockopt s opt val) := by
  cases opt <;> exact ⟨rfl, rfl, rfl, rfl, rfl, rfl, rfl, rfl⟩

theorem recvQueued_send {iov iov' : List Iovec} (h : recvQueued s iov = .ok (s', iov')) : SameSend s s' := by
  unfold recvQueued at h
  dsimp only at h
  split at h
  · cases h
  · obtain ⟨r, -, h⟩ := bind_ok h
    obtain ⟨rfl, -⟩ := Prod.mk.inj (ok.inj h)
    exact ⟨rfl, rfl, rfl, rfl, rfl, rfl, rfl, rfl⟩

theorem tcpRecvmsg_cases {iov iov' : List Iovec} (h : tcpRecvmsg s iov = .ok (s', iov')) :
    s' = s ∨ recvQueued s iov = .ok (s', iov') := by
  unfold tcpRecvmsg at h
  split at h
  · cases h; exact .inl rfl
  · exact .inr h

theorem tcpParseOption_send : ∀ (os : List TcpOpt) (s : Pcb),
    ∃ mss, (tcpParseOption s os).1 = { s with sndMss := mss } ∧
      (mss = s.sndMss ∨ ∃ n, TcpOpt.optMss n mss ∈ os)
  | [], s => ⟨s.sndMss, rfl, .inl rfl⟩
  | .optEnd :: _, s => ⟨s.sndMss, rfl, .inl rfl⟩
  | .optMss size value :: os, s => by
    unfold tcpParseOption
    split
    · exact ⟨s.sndMss, rfl, .inl rfl⟩
    · obtain ⟨mss, e, h⟩ := tcpParseOption_send os { s with sndMss := value }
      refine ⟨mss, e, .inr ?_⟩
      rcases h with rfl | ⟨n, h⟩
      · exact ⟨size, .head _⟩
      · exact ⟨n, .tail _ h⟩
  | .other :: os, s => by
    obtain ⟨mss, e, h⟩ := tcpParseOption_send os s
    exact ⟨mss, e, h.imp_right fun ⟨n, h⟩ => ⟨n, .tail _ h⟩⟩

theorem tcpReceive_state {g : Segment} (h : tcpReceive s g = .ok s') : s'.state = s.state := by
  unfold tcpReceive at h
  obtain ⟨t, h1, h⟩ := bind_ok h
  cases h
  have ht : t.state = s.state := by
    split at h1
    · exact (tcpUpdateAck_recv h1).state.trans (tcpUpdateWnd_recv s g).state
    · cases h1; rfl
  split
  · exact (tcpUpdateBuf_state t g).trans ht
  · exact ht

/-! ## The loop of `tcp_enqueue` ends -/

theorem tcpEnqueueSeg_full {ptr : Nat} {left len : Int}
    (hs : tcpEnqueueSeg src ptr left size f s = .ok (s', len)) (hl : 0 < left - len) :
    len = s.sndMss - (enqueueBuf s f).size ∧ s'.sndBuf = none ∧ s'.sndMss = s.sndMss := by
  unfold tcpEnqueueSeg at hs
  split at hs
  · cases hs
  dsimp only at hs
  have hlen : ∀ len', len' = enqueueLen s (enqueueBuf s f) left → 0 < left - len' →
      len' = s.sndMss - (enqueueBuf s f).size := by
    rintro len' rfl h
    unfold enqueueLen at h ⊢
    dsimp only at h ⊢
    split <;> rename_i hc
    · rw [if_pos hc] at h; omega
    · rfl
  split at hs
  · rename_i hc
    obtain ⟨rfl, rfl⟩ := Prod.mk.inj (ok.inj hs)
    have h1 := hlen _ rfl hl
    have hsz : (fillBuf src ptr left (enqueueLen s (enqueueBuf s f) left) f (enqueueBuf s f)).size =
        ((enqueueBuf s f).size + enqueueLen s (enqueueBuf s f) left).toNat := by
      unfold fillBuf; dsimp only; split <;> rfl
    have := hc.2.1
    rw [hsz, h1] at this
    omega
  · obtain ⟨rfl, rfl⟩ := Prod.mk.inj (ok.inj hs)
    exact ⟨hlen _ rfl hl, rfl, rfl⟩

theorem enqueueLoop_fuel (k : Nat) :
    ∀ (fuel ptr : Nat) (left : Int) (s : Pcb), s.sndBuf = none → 0 < s.sndMss → left ≤ fuel →
      enqueueLoop src size f (fuel + 1 + k) ptr left s = enqueueLoop src size f (fuel + 1) ptr left s := by
  intro fuel
  induction fuel with
  | zero =>
    intro ptr left s hb hm hl
    rw [Nat.add_right_comm]
    simp only [enqueueLoop]
    cases hs : tcpEnqueueSeg src ptr left size f s with
    | error e => rfl
    | ok r =>
      obtain ⟨s1, len⟩ := r
      have hlast : ¬ 0 < left - len := by
        intro h
        obtain ⟨e, -⟩ := tcpEnqueueSeg_full hs h
        unfold enqueueBuf at e
        rw [hb] at e
        dsimp only at e
        omega
      show (if _ then _ else _) = (if _ then _ else _)
      rw [if_neg hlast, if_neg hlast]
  | succ fuel ih =>
    intro ptr left s hb hm hl
    rw [Nat.add_right_comm]
    rw [enqueueLoop.eq_2, enqueueLoop.eq_2]
    cases hs : tcpEnqueueSeg src ptr left size f s with
    | error e => rfl
    | ok r =>
      obtain ⟨s1, len⟩ := r
      show (if _ then _ else _) = (if _ then _ else _)
      by_cases h : 0 < left - len
      · obtain ⟨e, hb1, hm1⟩ := tcpEnqueueSeg_full hs h
        unfold enqueueBuf at e
        rw [hb] at e
        dsimp only at e
        rw [if_pos h, if_pos h]
        exact ih _ _ s1 hb1 (by rw [hm1]; exact hm) (by omega)
      · rw [if_neg h, if_neg h]

/-- Every round but the last fills a segment, the first of them the one in `snd_buf`. -/
theorem tcpEnqueue_ends (k : Nat) (hb : ∀ p, s.sndBuf = some p → p.size ≤ tcpMaxWindow) :
    enqueueLoop src size f (size + tcpMaxWindow + 2 + k) 0 size
      (if s.sndMss < tcpDefaultMss then { s with sndMss := tcpDefaultMss } else s) = tcpEnqueue s src size f := by
  unfold tcpEnqueue
  dsimp only
  have hm : ∀ u, u = (if s.sndMss < tcpDefaultMss then { s with sndMss := tcpDefaultMss } else s) → tcpDefaultMss ≤ u.sndMss := by
    rintro u rfl
    split
    · exact Nat.le_refl _
    · omega
  have hb : ∀ u, u = (if s.sndMss < tcpDefaultMss then { s with sndMss := tcpDefaultMss } else s) →
      ∀ p, u.sndBuf = some p → p.size ≤ tcpMaxWindow := by
    rintro u rfl
    split <;> exact hb
  generalize (if s.sndMss < tcpDefaultMss then { s with sndMss := tcpDefaultMss } else s) = s at hm hb ⊢
  have hm := hm s rfl
  have hb := hb s rfl
  -- the bound stays a variable, so that no one counts up to it
  obtain ⟨n, hn⟩ : ∃ n, n = size + tcpMaxWindow := ⟨_, rfl⟩
  have e1 : size + tcpMaxWindow + 2 + k = n + 1 + k + 1 := by omega
  have e2 : size + tcpMaxWindow + 2 = n + 1 + 1 := by omega
  rw [e1, e2, enqueueLoop.eq_2, enqueueLoop.eq_2]
  cases hs : tcpEnqueueSeg src 0 size size f s with
  | error e => rfl
  | ok r =>
    obtain ⟨s1, len⟩ := r
    show (if _ then _ else _) = (if _ then _ else _)
    by_cases h : 0 < (size : Int) - len
    · obtain ⟨e, hb1, hm1⟩ := tcpEnqueueSeg_full hs h
      have hsz : (enqueueBuf s f).size ≤ tcpMaxWindow := by
        unfold enqueueBuf
        cases hp : s.sndBuf with
        | none => exact Nat.zero_le _
        | some p => exact hb p hp
      have hpos : 0 < tcpDefaultMss := by decide
      rw [if_pos h, if_pos h]
      exact enqueueLoop_fuel k _ _ _ s1 hb1 (by omega) (by omega)
    · rw [if_neg h, if_neg h]

theorem tcpEnqueue_ends_fresh : enqueueLoop (fun _ => 7) 3 tcpAck (3 + tcpMaxWindow + 2 + 1) 0 3
    (if (tcpPcbGet 0).sndMss < tcpDefaultMss then { tcpPcbGet 0 with sndMss := tcpDefaultMss } else tcpPcbGet 0) =
      tcpEnqueue (tcpPcbGet 0) (fun _ => 7) 3 tcpAck :=
  tcpEnqueue_ends 1 nofun

end Onix.Tcp
