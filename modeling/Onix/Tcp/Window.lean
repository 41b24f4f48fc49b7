/-
The receive window. A segment takes the bytes `tcp_update_buf` keeps of it from `rcv_wnd`, and a read
gives back the length a segment had when it was queued, once the segment is used up. Both balance as
long as `tcp_validate` bounds what is accepted, which it does not for a segment with `SYN`, and as
long as a connection starts with the whole window, which one opened again after a reset does not.
-/
import Onix.Tcp.Process
import Onix.Tcp.Receive

namespace Onix.Tcp

open List Onix.Lib

/-! ## Reads -/

def Kept (p : Pbuf) : Prop := p.total ≠ 0 ∨ p.length = p.size

theorem pending_insert (p : Pbuf) (l : List Pbuf) : pending (insertSeg p l) = p.size + pending l := by
  unfold pending
  have h : ((insertSeg p l).map Pbuf.size).Perm ((p :: l).map Pbuf.size) := (listInsertSort_perm p l).map Pbuf.size
  rw [h.sum_eq, map_cons, sum_cons]

theorem recvLoop_window : ∀ (l : List Pbuf) (left : Nat) (iov : List Iovec) (wnd : Nat), (∀ p ∈ l, Kept p) →
    wnd + pending l = tcpWindow →
    Sat (· = Fault.window) (recvLoop l left iov wnd) fun r => (∀ p ∈ r.2.2.2, Kept p) ∧ r.2.2.1 + pending r.2.2.2 = tcpWindow
  | [], left, iov, wnd, hl, hw => Sat.ok ⟨hl, hw⟩
  | p :: rest, left, iov, wnd, hl, hw => by
    have hrest : ∀ q ∈ rest, Kept q := fun q hq => hl q (mem_cons_of_mem _ hq)
    have hpend : pending (p :: rest) = p.size + pending rest := by simp [pending]
    -- the first read of a segment notes its size
    obtain ⟨q, hq, hd, hs, hlen⟩ : ∃ q : Pbuf, q = (if p.total ≠ 0 then { p with length := p.size, total := 0 } else p) ∧
        q.data = p.data ∧ q.size = p.size ∧ q.length = p.size := by
      refine ⟨_, rfl, ?_⟩
      split
      · exact ⟨rfl, rfl, rfl⟩
      · rename_i h
        exact ⟨rfl, rfl, (hl p (mem_cons_self ..)).resolve_left h⟩
    unfold recvLoop
    rw [← hq]
    dsimp only
    obtain ⟨len, hl⟩ : ∃ len, len = if left < q.size then left else q.size := ⟨_, rfl⟩
    rw [← hl]
    obtain ⟨⟨iov1, ret⟩, hr⟩ : ∃ r, r = iovecWrite iov q.data len := ⟨_, rfl⟩
    rw [← hr]
    by_cases hret : ret ≠ len
    · rw [if_pos hret]
      exact Sat.error (by simp)
    obtain rfl : ret = len := not_not.1 hret
    rw [if_neg (by simp)]
    by_cases hlt : ret < q.size
    · -- the segment stays: nothing is left to copy, so its size is the same
      have hleft : left - ret = 0 := by
        split at hl <;> omega
      rw [if_pos hlt, hleft]
      refine Sat.ok ⟨fun r hr => ?_, ?_⟩
      · rcases mem_cons.1 hr with rfl | hr
        · exact .inr (by dsimp only; omega)
        · exact hrest r hr
      · have : pending ({ q with data := q.data.drop 0, size := q.size - 0 } :: rest) = p.size + pending rest := by
          simp [pending, hs]
        rw [this, ← hpend]; exact hw
    · rw [if_neg hlt]
      by_cases hc : q.count ≠ 1
      · rw [if_pos hc]
        exact Sat.error (by simp)
      have hsum : (wnd + q.length) % 65536 = wnd + p.size := by
        rw [hlen]
        exact Nat.mod_eq_of_lt (by unfold tcpWindow at hw; omega)
      rw [if_neg hc, hsum, if_neg (by omega)]
      exact recvLoop_window rest _ _ _ hrest (by omega)

/-! ## Segments -/

variable {s : Pcb} {g : Segment}

theorem inOrder_size (h : InOrder s g) : 0 < g.size := by
  by_contra h0
  obtain ⟨h1, h2⟩ := h
  rw [Nat.eq_zero_of_not_pos h0] at h1
  have e : g.seqno + BitVec.ofNat 32 0 = g.seqno := BitVec.add_zero _
  rw [e] at h1
  unfold seqLEQ at h1
  unfold seqGT at h2
  omega

theorem trimSeg_size (h : InOrder s g) (hsz : g.size < 65536) :
    (trimSeg s g).size = (g.pbuf.endSeq - s.rcvNxt).toNat ∧ (g.pbuf.endSeq - s.rcvNxt).toNat ≤ g.size ∧
      (trimSeg s g).total ≠ 0 := by
  obtain ⟨h1, h2⟩ := h
  unfold seqLEQ at h1
  unfold seqGT at h2
  have e1 : g.pbuf.endSeq = g.seqno + BitVec.ofNat 32 g.size := rfl
  have e2 : g.pbuf.size = g.size := rfl
  rw [← e1] at h1
  have hoff : (g.pbuf.endSeq - s.rcvNxt).toNat = (g.size + (g.seqno - s.rcvNxt).toNat) % 2 ^ 32 := by
    bv_omega
  have hneg : (s.rcvNxt - g.seqno).toNat = (2 ^ 32 - (g.seqno - s.rcvNxt).toNat) % 2 ^ 32 := by bv_omega
  have hint : (g.seqno - s.rcvNxt).toInt = _ := BitVec.toInt_eq_toNat_cond _
  rw [BitVec.toInt_eq_toNat_cond] at h1
  rw [hint] at h2
  have hless : seqLT g.seqno s.rcvNxt ↔ (g.seqno - s.rcvNxt).toInt < 0 := Iff.rfl
  rw [hint] at hless
  unfold trimSeg
  by_cases h0 : (g.seqno - s.rcvNxt).toNat = 0
  · rw [if_neg (by rw [hless]; split <;> omega)]
    refine ⟨?_, ?_, ?_⟩
    · rw [hoff, e2]; omega
    · rw [hoff]; omega
    · show 20 + g.size ≠ 0; omega
  · rw [if_pos (by rw [hless]; split at h2 <;> split <;> omega)]
    refine ⟨?_, ?_, ?_⟩
    · show g.size - (s.rcvNxt - g.seqno).toNat = _
      split at h1 <;> split at h2 <;> omega
    · split at h1 <;> split at h2 <;> omega
    · show 20 + g.size ≠ 0; omega

theorem tcpValidate_fits (h : InOrder s g) (hsz : g.size < 65536) (hw : s.rcvWnd ≤ tcpWindow)
    (hsyn : g.flags.has tcpSyn = false) (hv : tcpValidate s g = true) : (g.pbuf.endSeq - s.rcvNxt).toNat ≤ s.rcvWnd := by
  obtain ⟨-, hle, -⟩ := trimSeg_size h hsz
  simp only [tcpValidate, hsyn, Bool.false_eq_true, false_or, decide_eq_true_eq] at hv
  have hgt := hv.1
  unfold seqGT at hgt
  have e1 : g.pbuf.endSeq = g.seqno + BitVec.ofNat 32 g.size := rfl
  rw [← e1, BitVec.toInt_eq_toNat_cond] at hgt
  unfold tcpWindow at hw
  have : (g.pbuf.endSeq - (s.rcvNxt + BitVec.ofNat 32 s.rcvWnd)).toNat =
      ((g.pbuf.endSeq - s.rcvNxt).toNat + 2 ^ 32 - s.rcvWnd) % 2 ^ 32 := by bv_omega
  split at hgt <;> omega

theorem accepts_fits (hsz : g.size < 65536) (hw : s.rcvWnd ≤ tcpWindow)
    (hfit : g.flags.has tcpSyn = true → Accepts s g → InOrder s g → (g.pbuf.endSeq - s.rcvNxt).toNat ≤ s.rcvWnd)
    (ha : Accepts s g) (hin : InOrder s g) : (g.pbuf.endSeq - s.rcvNxt).toNat ≤ s.rcvWnd := by
  cases hsyn : g.flags.has tcpSyn with
  | true => exact hfit hsyn ha hin
  | false => exact tcpValidate_fits hin hsz hw hsyn ha.1

theorem tcpUpdateBuf_window (hk : ∀ p ∈ s.recved, Kept p) (hw : s.rcvWnd + pending s.recved = tcpWindow)
    (hst : s.state.val ≤ TcpState.established.val) (hsz : g.size < 65536)
    (hfit : InOrder s g → (g.pbuf.endSeq - s.rcvNxt).toNat ≤ s.rcvWnd) :
    (∀ p ∈ (tcpUpdateBuf s g).recved, Kept p) ∧ (tcpUpdateBuf s g).rcvWnd + pending (tcpUpdateBuf s g).recved = tcpWindow := by
  rcases tcpUpdateBuf_cases s g with ⟨-, h⟩ | ⟨hin, -, -, h1, h2⟩
  · rw [h.recved, h.rcvWnd]; exact ⟨hk, hw⟩
  obtain ⟨e, -, htotal⟩ := trimSeg_size hin hsz
  have hle := hfit hin
  rw [if_neg (by omega)] at h2
  rw [h1, h2, pending_insert]
  constructor
  · intro p hp
    rcases mem_listInsertSort.1 hp with rfl | hp
    · exact .inl htotal
    · exact hk p hp
  · unfold tcpWindow at hw ⊢
    omega

/-! ## Runs -/

/-- The window and the queue account for each other until the handshake is over and while the
connection is open. -/
structure WindowInv (s : Pcb) : Prop where
  closed : s.state = .closed → s.recved = []
  kept : s.state.val ≤ TcpState.established.val → s.state ≠ .closed → ∀ p ∈ s.recved, Kept p
  window : s.state.val ≤ TcpState.established.val → s.state ≠ .closed → s.rcvWnd + pending s.recved = tcpWindow

/-- A segment with `SYN`, which `tcp_validate` lets through, brings no more than the window holds; and
a connection is opened with the whole window. -/
def WindowFits (s : State) : Act → Prop
  | .input g => g.flags.has tcpSyn = true → Accepts s.pcb g → InOrder s.pcb g → (g.pbuf.endSeq - s.pcb.rcvNxt).toNat ≤ s.pcb.rcvWnd
  | .connect => s.pcb.state = .closed → s.pcb.rcvWnd = tcpWindow
  | _ => True

instance (s : Pcb) (g : Segment) : Decidable (InOrder s g) := inferInstanceAs (Decidable (_ ∧ _))

instance (s : State) : (a : Act) → Decidable (WindowFits s a)
  | .input _ | .connect => inferInstanceAs (Decidable (_ → _))
  | .send _ _ | .recv _ | .resume _ | .setsockopt _ _ | .close | .timeout _ | .slowtimo | .fastimo | .sent _ =>
    inferInstanceAs (Decidable True)

variable {s' : Pcb}

theorem WindowInv.same (h : WindowInv s) (e : SameRecv s s') : WindowInv s' := by
  refine ⟨?_, ?_, ?_⟩
  · rw [e.state, e.recved]; exact h.closed
  · rw [e.state, e.recved]; exact h.kept
  · rw [e.state, e.recved, e.rcvWnd]; exact h.window

theorem WindowInv.late (h : TcpState.established.val < s.state.val) : WindowInv s := by
  refine ⟨fun e => ?_, fun hle => absurd h (by omega), fun hle => absurd h (by omega)⟩
  rw [e] at h; exact absurd h (by decide)

theorem WindowInv.over (h : s.state = .closed) (hr : s.recved = []) : WindowInv s :=
  ⟨fun _ => hr, fun _ hne => absurd h hne, fun _ hne => absurd h hne⟩

theorem WindowInv.switched (h : WindowInv s) (hs : Switched s g s') : WindowInv s' := by
  by_cases hlate : TcpState.established.val < s'.state.val
  · exact .late hlate
  have hle : s'.state.val ≤ TcpState.established.val := by omega
  rcases hs.recved with e | ⟨e, hcl | htw⟩
  · rcases TcpState.next_early hs.next hle with e1 | ⟨h1, h2⟩ | ⟨h1, h2⟩
    · refine ⟨fun hcl => ?_, fun h1 hne => ?_, fun h1 hne => ?_⟩
      · rw [e]; exact h.closed (e1.symm.trans hcl)
      · rw [e]; exact h.kept (e1 ▸ h1) (e1 ▸ hne)
      · rw [e, hs.rcvWnd]; exact h.window (e1 ▸ h1) (e1 ▸ hne)
    · exact .over h2 (hs.closed h1 h2)
    · -- the handshake ends
      have hle' : s.state.val ≤ TcpState.established.val ∧ s.state ≠ .closed := by
        rcases h2 with h2 | h2 <;> · rw [h2]; decide
      refine ⟨fun hcl => absurd (h1.symm.trans hcl) (by decide), fun _ _ => ?_, fun _ _ => ?_⟩
      · rw [e]; exact h.kept hle'.1 hle'.2
      · rw [e, hs.rcvWnd]; exact h.window hle'.1 hle'.2
  · exact .over hcl e
  · rw [htw] at hle; exact absurd hle (by decide)

theorem tcpInput_window (h : WindowInv s) (hsz : g.size < 65536)
    (hfit : g.flags.has tcpSyn = true → Accepts s g → InOrder s g → (g.pbuf.endSeq - s.rcvNxt).toNat ≤ s.rcvWnd)
    (hs : tcpInput s g = .ok s') : WindowInv s' := by
  rcases tcpInput_recv hs with ⟨-, e | ⟨-, -, -, hcl, hd⟩⟩ | ⟨⟨-, hne, -⟩, t, e, ⟨-, hsw⟩ | ⟨ha, hsw⟩⟩
  · exact h.same e
  · exact .over hcl hd.recved
  · exact (h.same e).switched hsw
  refine WindowInv.switched ?_ hsw
  by_cases h0 : 0 < g.size
  · rw [if_pos h0]
    by_cases hlate : TcpState.established.val < t.state.val
    · exact .late (by rw [tcpUpdateBuf_state]; exact hlate)
    have hle : t.state.val ≤ TcpState.established.val := by omega
    have hne' : t.state ≠ .closed := by rw [e.state]; exact hne
    have hst := tcpUpdateBuf_state t g
    have hin : InOrder t g ↔ InOrder s g := by unfold InOrder; rw [e.rcvNxt]
    have ht := h.same e
    have hw := ht.window hle hne'
    obtain ⟨h1, h2⟩ := tcpUpdateBuf_window (ht.kept hle hne') hw hle hsz fun hi => by
      rw [e.rcvNxt, e.rcvWnd]
      exact accepts_fits hsz (by rw [← e.rcvWnd]; omega) hfit ha (hin.1 hi)
    refine ⟨fun hcl => absurd (hst.symm.trans hcl) hne', fun _ _ => h1, fun _ _ => h2⟩
  · rw [if_neg h0]; exact h.same e

theorem recvQueued_window {iov iov' : List Iovec} (h : WindowInv s) (hs : recvQueued s iov = .ok (s', iov')) :
    WindowInv s' := by
  obtain ⟨⟨left', h1⟩, hst, -⟩ := recvQueued_loop hs
  by_cases hlate : TcpState.established.val < s.state.val
  · exact .late (by rw [hst]; exact hlate)
  by_cases hcl : s.state = .closed
  · rw [h.closed hcl] at h1
    obtain ⟨-, h1⟩ := Prod.mk.inj (Except.ok.inj h1)
    obtain ⟨-, h1⟩ := Prod.mk.inj h1
    exact .over (hst.trans hcl) (Prod.mk.inj h1).2.symm
  have hle : s.state.val ≤ TcpState.established.val := by omega
  obtain ⟨h2, h3⟩ := (recvLoop_window s.recved _ iov s.rcvWnd (h.kept hle hcl) (h.window hle hcl)).of_ok h1
  exact ⟨fun hc => absurd (hst.symm.trans hc) hcl, fun _ _ => h2, fun _ _ => h3⟩

theorem step_window {s t : State} {a : Act} (h : WindowInv s.pcb) (hc : WindowFits s a) (he : enabled s a)
    (hs : step s a = .ok t) : WindowInv t.pcb := by
  rcases step_recv hs with ⟨g, rfl, hs, -, -⟩ | ⟨sizes, -, iov, hs, -, -⟩ | ⟨-, hside, -, -⟩
  · exact tcpInput_window h he.1 hc hs
  · exact recvQueued_window h hs
  · cases hside with
    | same e => exact h.same e
    | connect e h1 h2 =>
      have hr := h.closed h1
      refine ⟨fun hcl => ?_, fun _ _ => ?_, fun _ _ => ?_⟩
      · rw [h2] at hcl; cases hcl
      · rw [e.recved, hr]; exact forall_mem_nil _
      · rw [e.recved, e.rcvWnd, hr, hc h1]; rfl
    | close e h1 =>
      refine .late ?_
      rcases h1 with ⟨-, h1⟩ | ⟨-, h1⟩ <;> · rw [h1]; decide
    | closed e h1 => exact .over h1 e.recved
    | timeout e h1 => exact .over h1 e.recved

theorem start_window {s : State} (h : tcp.start s) : WindowInv s.pcb := by
  obtain ⟨-, isn, h | ⟨mss, g, -, -, h⟩⟩ := h
  · rw [h]; exact .over rfl rfl
  · unfold tcpHandleListen at h
    obtain ⟨t, h1, h⟩ := bind_ok h
    have e := (tcpEnqueue_recv h1).trans (tcpOutput_recv h)
    refine WindowInv.same ⟨fun hcl => ?_, fun _ _ => ?_, fun _ _ => rfl⟩ e
    · cases hcl
    · exact forall_mem_nil _

theorem reach_window {s : State} (h : tcp.Reach WindowFits s) : WindowInv s.pcb :=
  h.inv (I := fun s => WindowInv s.pcb) (fun _ => start_window) fun _ _ _ hi hc hs => step_window hi hc hs.1 hs.2

def handshake : List Act := [Act.connect, Act.input ⟨7, 6, tcpSyn ||| tcpAck, 4096, [], []⟩]

def closedByPeer : List Act :=
  handshake ++ [Act.input ⟨8, 6, tcpAck, 4096, [], [1, 2, 3, 4]⟩, Act.input ⟨12, 6, tcpFin ||| tcpAck, 4096, [], []⟩]

/-- Six segments of `TCP_MSS` bytes in order, the last one with `SYN`. -/
def flooded : List Act :=
  handshake ++ (List.range 6).map fun k =>
    Act.input ⟨8 + BitVec.ofNat 32 (1460 * k), 6, if k = 5 then tcpSyn ||| tcpAck else tcpAck, 4096, [], List.replicate 1460 0⟩

end Onix.Tcp
