/-
Data that was acknowledged stays deliverable: each piece `tcp_update_buf` moved `rcv_nxt` over is in
`recved` until a read returns it, and a read returns it, as long as the steps keep clear of what the code
does not provide for. `tcp_recvmsg` refuses every state but `ESTABLISHED`; in `CLOSE_WAIT` data moves
`rcv_nxt` and is not queued; a `FIN` ahead of missing data moves `rcv_nxt` past it; and the end of a
connection drops the queue.
-/
import Onix.Tcp.Window
import Onix.Tcp.Resend

namespace Onix.Tcp

open List Onix.Lib

/-! ## The history -/

/-- The pieces `rcv_nxt` was moved over and those the reads used up. -/
structure Taken where
  pieces : List (List UInt8)
  returned : List (List UInt8)

namespace Taken

def input (r : Taken) (s : Pcb) (g : Segment) : Taken :=
  if Accepts s g ∧ InOrder s g then { r with pieces := r.pieces ++ [(trimSeg s g).bytes] } else r

def after (r : Taken) (s : State) (a : Act) (t : State) : Taken :=
  match a with
  | .input g => r.input s.pcb g
  | .recv _ | .resume _ =>
    { r with returned := r.returned ++ (s.pcb.recved.take (s.pcb.recved.length - t.pcb.recved.length)).map Pbuf.bytes }
  | _ => r

end Taken

def taking : Machine (State × Taken) Act Fault := tcp.record (fun _ r => r = ⟨[], []⟩) Taken.after

/-! ## The condition -/

/-- A reset finds nothing queued; no data comes in order in `CLOSE_WAIT`; a `FIN` is not ahead of `rcv_nxt`. -/
structure SegmentDelivers (s : Pcb) (g : Segment) : Prop where
  reset : tcpValidate s g = true → g.flags.has tcpRst = true → TcpState.synSent.val < s.state.val → s.recved = []
  late : s.state = .closeWait → ¬ (Accepts s g ∧ InOrder s g)
  fin : s.state.takesFin → Processed s g → g.flags.has tcpFin = true → ¬ seqGT g.seqno s.rcvNxt

instance (s : Pcb) (g : Segment) : Decidable (SegmentDelivers s g) :=
  decidable_of_iff (_ ∧ _ ∧ _) ⟨fun ⟨h1, h2, h3⟩ => ⟨h1, h2, h3⟩, fun ⟨h1, h2, h3⟩ => ⟨h1, h2, h3⟩⟩

instance : (left : Nat) → (l : List Pbuf) → Decidable (EndsOnSegment left l)
  | _, [] => inferInstanceAs (Decidable True)
  | left, p :: rest =>
    have := instDecidableEndsOnSegment (left - p.size) rest
    inferInstanceAs (Decidable (_ ∨ _))

/-- The window balances; a read ends where a segment ends and is made in `ESTABLISHED` or with nothing
queued; a timer that ends the connection finds nothing queued. -/
def Deliverable (s : State) (a : Act) : Prop :=
  WindowFits s a ∧ match a with
  | .input g => SegmentDelivers s.pcb g
  | .recv sizes => (s.pcb.state = .established ∨ s.pcb.recved = []) ∧ EndsOnSegment (sizes.sum % 2 ^ 32) s.pcb.recved
  | .resume sizes => EndsOnSegment (sizes.sum % 2 ^ 32) s.pcb.recved
  | .timeout type => TimeoutEnds s.pcb type → s.pcb.recved = []
  | _ => True

instance (s : State) : (a : Act) → Decidable (Deliverable s a)
  | .input _ | .recv _ | .resume _ | .timeout _ => inferInstanceAs (Decidable (_ ∧ _))
  | .connect | .send _ _ | .setsockopt _ _ | .close | .slowtimo | .fastimo | .sent _ => inferInstanceAs (Decidable (_ ∧ True))

/-! ## Reads -/

theorem recvLoop_taken : ∀ (l : List Pbuf) (left : Nat) (iov : List Iovec) (wnd : Nat) {left' wnd' : Nat} {iov' : List Iovec}
    {rest : List Pbuf}, EndsOnSegment left l → recvLoop l left iov wnd = .ok (left', iov', wnd', rest) →
    rest.map Pbuf.bytes = (l.drop (l.length - rest.length)).map Pbuf.bytes ∧ rest.length ≤ l.length ∧
      left' + pending l = left + pending rest ∧ (rest = [] ∨ left' = 0)
  | [], left, iov, wnd, left', wnd', iov', rest, _, h => by
    obtain ⟨rfl, -, -, rfl⟩ : left = left' ∧ iov = iov' ∧ wnd = wnd' ∧ [] = rest := by simpa [recvLoop] using h
    exact ⟨rfl, le_rfl, rfl, .inl rfl⟩
  | p :: l, left, iov, wnd, left', wnd', iov', rest, he, h => by
    have hpend : pending (p :: l) = p.size + pending l := by simp [pending]
    obtain ⟨q, hq, hd, hs⟩ : ∃ q : Pbuf, q = (if p.total ≠ 0 then { p with length := p.size, total := 0 } else p) ∧
        q.data = p.data ∧ q.size = p.size := by
      refine ⟨_, rfl, ?_⟩
      split <;> exact ⟨rfl, rfl⟩
    unfold recvLoop at h
    rw [← hq] at h
    dsimp only at h
    by_cases hlt : left < q.size
    · -- the segment stays, so the read ended before it
      have h0 : left = 0 := by
        rcases he with h0 | ⟨hle, -⟩
        · exact h0
        · omega
      subst h0
      rw [if_pos hlt, if_pos hlt] at h
      split at h
      · cases h
      obtain ⟨rfl, -, -, rfl⟩ := by simpa only [Except.ok.injEq, Prod.mk.injEq] using h
      refine ⟨?_, by simp, ?_, .inr (Nat.zero_sub _)⟩
      · simp [Pbuf.bytes, hd, hs]
      · simp [pending, hs]
    · rw [if_neg hlt, if_neg (lt_irrefl _)] at h
      by_cases hret : (iovecWrite iov q.data q.size).2 ≠ q.size
      · rw [if_pos hret] at h; cases h
      rw [if_neg hret, not_not.1 hret] at h
      split at h
      · cases h
      split at h
      · cases h
      have he' : EndsOnSegment (left - q.size) l := by
        rcases he with h0 | ⟨-, he⟩
        · rw [h0, Nat.zero_sub]
          cases l with
          | nil => trivial
          | cons => exact .inl rfl
        · rw [hs]; exact he
      obtain ⟨h1, h2, h3, h4⟩ := recvLoop_taken l (left - q.size) _ _ he' h
      refine ⟨?_, by rw [length_cons]; omega, by omega, h4⟩
      rw [h1, length_cons, Nat.succ_sub h2, drop_succ_cons]

theorem recvQueued_taken {s : Pcb} {sizes : List Nat} (hsegs : ∀ p ∈ s.recved, SegOk p)
    (hw : s.rcvWnd + pending s.recved = tcpWindow) (he : EndsOnSegment (sizes.sum % 2 ^ 32) s.recved)
    (h0 : sizes.sum % 2 ^ 32 ≠ 0) :
    ∃ t iov, recvQueued s (vectors sizes) = .ok (t, iov) ∧
      filled iov = queued (s.recved.take (s.recved.length - t.recved.length)) ∧
      filled iov ++ queued t.recved = queued s.recved ∧
      (filled iov).length = min (sizes.sum % 2 ^ 32) (pending s.recved) ∧
      t.recved.map Pbuf.bytes = (s.recved.drop (s.recved.length - t.recved.length)).map Pbuf.bytes ∧
      (∀ p ∈ t.recved, SegOk p) ∧ t.rcvWnd + pending t.recved = tcpWindow ∧ t.state = s.state := by
  obtain ⟨hsum, hbase⟩ := freshVectors sizes
  obtain ⟨left, iov, wnd, rest, h1, h2, h3, h4, -⟩ := recvLoop_spec s.recved (sizes.sum % 2 ^ 32) (vectors sizes) s.rcvWnd
    hsegs he (packed_of_empty hbase) (by rw [room, vectors, hsum]; exact Nat.mod_le _ _) hw
  obtain ⟨h5, h6, h7, h8⟩ := recvLoop_taken _ _ _ _ he h1
  rw [vectors, filled_of_empty hbase, nil_append] at h2
  have hread : recvQueued s (vectors sizes) = .ok ({ s with recved := rest, rcvWnd := wnd }, iov) := by
    unfold recvQueued
    rw [vectors, hsum]
    dsimp only
    rw [if_neg h0]
    rw [vectors] at h1
    rw [h1]; rfl
  have hlen : (filled iov).length + pending rest = pending s.recved := by
    rw [← length_queued hsegs, ← h2, length_append, length_queued h3]
  refine ⟨_, iov, hread, ?_, h2, ?_, h5, h3, h4, rfl⟩
  · have hq : queued rest = queued (s.recved.drop (s.recved.length - rest.length)) := by
      unfold queued
      rw [flatMap_def, h5, ← flatMap_def]
    have hsplit : queued (s.recved.take (s.recved.length - rest.length)) ++ queued rest = queued s.recved := by
      rw [hq]
      unfold queued
      rw [← flatMap_append, take_append_drop]
    exact append_cancel_right (h2.trans hsplit.symm)
  · rcases h8 with rfl | h8
    · have : pending [] = 0 := rfl
      omega
    · omega

/-! ## Segments -/

variable {g : Segment}

theorem trimSeg_ok {s : Pcb} (h : InOrder s g) (hsz : g.size < 65536) : SegOk (trimSeg s g) := by
  obtain ⟨h1, h2, h3⟩ := trimSeg_size h hsz
  have hpos : 0 < (g.pbuf.endSeq - s.rcvNxt).toNat := by
    have h4 := h.1
    unfold seqLEQ at h4
    have e : g.pbuf.endSeq = g.seqno + BitVec.ofNat 32 g.size := rfl
    rw [← e, BitVec.toInt_eq_toNat_cond] at h4
    by_contra h5
    rw [Nat.eq_zero_of_not_pos h5] at h4
    simp at h4
  refine ⟨by omega, ?_, by omega, ?_, .inl h3⟩
  · unfold trimSeg
    split
    · show g.size - _ ≤ (g.data.drop _).length
      rw [length_drop]; rfl
    · exact le_rfl
  · unfold trimSeg
    split <;> rfl

theorem trimSeg_congr {s t : Pcb} (g : Segment) (h : t.rcvNxt = s.rcvNxt) : trimSeg t g = trimSeg s g := by
  unfold trimSeg
  rw [h]

/-! ## The queue of an open socket -/

def TcpState.isOpen (st : TcpState) : Prop := st.val ≤ TcpState.established.val ∨ st = .closeWait

theorem TcpState.next_isOpen {st st' : TcpState} {fin : Bool} (h : st' ∈ st.next fin) (ho : st.isOpen) (hcl : st ≠ .closed) :
    st'.isOpen ∧ st' ≠ .closed ∧ st' ≠ .timeWait := by
  unfold TcpState.isOpen at *
  cases st <;> cases fin <;> simp only [TcpState.next, mem_cons, not_mem_nil, or_false] at h
  all_goals
    first
      | exact absurd rfl hcl
      | exact absurd ho (by decide)
      | subst h; decide
      | rcases h with rfl | rfl <;> decide

/-- What was taken is queued or was returned, and the window balances. -/
structure Holding (s : State) (r : Taken) : Prop where
  pieces : r.pieces.Perm (r.returned ++ s.pcb.recved.map Pbuf.bytes)
  returned : r.returned.flatten = s.delivered
  state : s.pcb.state.isOpen
  segs : ∀ p ∈ s.pcb.recved, SegOk p
  window : s.pcb.state ≠ .closed → s.pcb.rcvWnd + pending s.pcb.recved = tcpWindow
  closed : s.pcb.state = .closed → s.pcb.recved = []

variable {s t : State} {r : Taken}

theorem Holding.keep (h : Holding s r) (hd : t.delivered = s.delivered)
    (hr : t.pcb.recved = s.pcb.recved)
    (hw : t.pcb.rcvWnd = s.pcb.rcvWnd) (ho : t.pcb.state.isOpen) (hcl : t.pcb.state = .closed ↔ s.pcb.state = .closed) :
    Holding t r := by
  refine ⟨?_, ?_, ho, ?_, fun hne => ?_, fun hc => ?_⟩
  · rw [hr]; exact h.pieces
  · rw [hd]; exact h.returned
  · rw [hr]; exact h.segs
  · rw [hr, hw]; exact h.window fun hc => hne (hcl.2 hc)
  · rw [hr]; exact h.closed (hcl.1 hc)

theorem Holding.same (h : Holding s r) (hd : t.delivered = s.delivered) (e : SameRecv s.pcb t.pcb) :
    Holding t r := h.keep hd e.recved e.rcvWnd (by rw [e.state]; exact h.state) (by rw [e.state])

theorem Holding.dropped (h : Holding s r) (hd : t.delivered = s.delivered) (h0 : s.pcb.recved = [])
    (e : Dropped s.pcb t.pcb) (hcl : t.pcb.state = .closed) : Holding t r := by
  have hr : t.pcb.recved = s.pcb.recved := by rw [e.recved, h0]
  refine ⟨?_, ?_, ?_, ?_, fun hne => absurd hcl hne, fun _ => e.recved⟩
  · rw [hr]; exact h.pieces
  · rw [hd]; exact h.returned
  · rw [hcl]; exact .inl (by decide)
  · rw [hr]; exact h.segs

theorem Holding.switched (h : Holding s r) (hcl : s.pcb.state ≠ .closed)
    (hd : t.delivered = s.delivered) (hsw : Switched s.pcb g t.pcb) : Holding t r := by
  obtain ⟨ho, hcl', htw⟩ := TcpState.next_isOpen hsw.next h.state hcl
  rcases hsw.recved with hr | ⟨-, h1 | h1⟩
  · exact h.keep hd hr hsw.rcvWnd ho (iff_of_false hcl' hcl)
  · exact absurd h1 hcl'
  · exact absurd h1 htw

theorem Holding.updateBuf (h : Holding s r) (hcl : s.pcb.state ≠ .closed)
    (hsz : g.size < 65536) (hfit : InOrder s.pcb g → (g.pbuf.endSeq - s.pcb.rcvNxt).toNat ≤ s.pcb.rcvWnd)
    (hlate : s.pcb.state = .closeWait → ¬ InOrder s.pcb g) :
    Holding { s with pcb := tcpUpdateBuf s.pcb g }
      (if InOrder s.pcb g then { r with pieces := r.pieces ++ [(trimSeg s.pcb g).bytes] } else r) := by
  have hst := tcpUpdateBuf_state s.pcb g
  by_cases hin : InOrder s.pcb g
  case neg =>
    rw [if_neg hin]
    rcases tcpUpdateBuf_cases s.pcb g with ⟨-, e⟩ | ⟨h1, -⟩
    · exact h.same rfl e
    · exact absurd h1 hin
  rw [if_pos hin]
  have hok := trimSeg_ok hin hsz
  have hle : s.pcb.state.val ≤ TcpState.established.val := h.state.resolve_right fun h1 => hlate h1 hin
  rcases tcpUpdateBuf_cases s.pcb g with ⟨h1, -⟩ | ⟨-, -, -, -, h5⟩
  · exact absurd ⟨hin, hok.pos.ne'⟩ h1
  rw [if_neg (by omega)] at h5
  obtain ⟨-, hw⟩ := tcpUpdateBuf_window (fun p hp => (h.segs p hp).kept) (h.window hcl) hle hsz hfit
  refine ⟨?_, h.returned, ?_, ?_, fun _ => hw, fun hc => absurd (hst.symm.trans hc) hcl⟩
  · -- the new piece goes somewhere into the queue
    show (r.pieces ++ [(trimSeg s.pcb g).bytes]).Perm (r.returned ++ (tcpUpdateBuf s.pcb g).recved.map Pbuf.bytes)
    have hp : ((tcpUpdateBuf s.pcb g).recved.map Pbuf.bytes).Perm ((trimSeg s.pcb g).bytes :: s.pcb.recved.map Pbuf.bytes) := by
      rw [h5]
      exact (listInsertSort_perm (trimSeg s.pcb g) s.pcb.recved).map Pbuf.bytes
    calc (r.pieces ++ [(trimSeg s.pcb g).bytes]).Perm ((trimSeg s.pcb g).bytes :: r.pieces) := perm_append_singleton _ _
      _ |>.Perm ((trimSeg s.pcb g).bytes :: (r.returned ++ s.pcb.recved.map Pbuf.bytes)) := h.pieces.cons _
      _ |>.Perm (r.returned ++ (trimSeg s.pcb g).bytes :: s.pcb.recved.map Pbuf.bytes) := perm_middle.symm
      _ |>.Perm (r.returned ++ (tcpUpdateBuf s.pcb g).recved.map Pbuf.bytes) := hp.symm.append_left _
  · show (tcpUpdateBuf s.pcb g).state.isOpen
    rw [hst]; exact h.state
  · show ∀ p ∈ (tcpUpdateBuf s.pcb g).recved, SegOk p
    rw [h5]
    intro p hp
    rcases mem_listInsertSort.1 hp with rfl | hp
    · exact hok
    · exact h.segs p hp

theorem tcpInput_holding (h : Holding s r) (hsz : g.size < 65536)
    (hfit : WindowFits s (.input g)) (hc : SegmentDelivers s.pcb g) (hs : tcpInput s.pcb g = .ok t.pcb)
    (hd : t.delivered = s.delivered) : Holding t (r.input s.pcb g) := by
  unfold Taken.input
  rcases tcpInput_recv hs with ⟨hnp, e | ⟨hv, hrst, hlt, hcl, e⟩⟩ | ⟨hp, u, e, ⟨hna, hsw⟩ | ⟨ha, hsw⟩⟩
  · rw [if_neg fun ha => hnp (accepts_iff.1 ha.1).1]
    exact h.same hd e
  · rw [if_neg fun ha => hnp (accepts_iff.1 ha.1).1]
    exact h.dropped hd (hc.reset hv hrst hlt) e hcl
  · rw [if_neg fun ha => hna ha.1]
    exact (h.same (t := { s with pcb := u }) rfl e).switched (by dsimp only; rw [e.state]; exact hp.2.1) hd hsw
  · have hu : Holding { s with pcb := u } r := h.same rfl e
    have hcl : u.state ≠ .closed := by rw [e.state]; exact hp.2.1
    have hin : InOrder u g ↔ InOrder s.pcb g := by unfold InOrder; rw [e.rcvNxt]
    by_cases h0 : 0 < g.size
    · rw [if_pos h0] at hsw
      have hb := hu.updateBuf (g := g) hcl hsz
        (fun hi => by
          have hw := hu.window hcl
          rw [e.rcvNxt, e.rcvWnd]
          exact accepts_fits hsz (by rw [← e.rcvWnd]; exact Nat.le.intro hw) hfit ha (hin.1 hi))
        (fun h1 hi => hc.late (e.state.symm.trans h1) ⟨ha, hin.1 hi⟩)
      have hr : (if InOrder u g then { r with pieces := r.pieces ++ [(trimSeg u g).bytes] } else r) =
          if Accepts s.pcb g ∧ InOrder s.pcb g then { r with pieces := r.pieces ++ [(trimSeg s.pcb g).bytes] } else r := by
        rw [trimSeg_congr g e.rcvNxt]
        exact if_congr (hin.trans ⟨fun hi => ⟨ha, hi⟩, And.right⟩) rfl rfl
      rw [hr] at hb
      exact hb.switched (by dsimp only; rw [tcpUpdateBuf_state]; exact hcl) hd hsw
    · rw [if_neg h0] at hsw
      rw [if_neg fun hi => h0 (inOrder_size hi.2)]
      exact hu.switched hcl hd hsw

theorem Holding.read {sizes : List Nat} (h : Holding s r)
    (he : EndsOnSegment (sizes.sum % 2 ^ 32) s.pcb.recved) (hs : Read s sizes t) :
    Holding t { r with
      returned := r.returned ++ (s.pcb.recved.take (s.pcb.recved.length - t.pcb.recved.length)).map Pbuf.bytes } := by
  obtain ⟨iov, hs, -, hd⟩ := hs
  have hd' : t.delivered = s.delivered ++ filled iov := hd
  have h0 : sizes.sum % 2 ^ 32 ≠ 0 := by
    intro h0
    unfold recvQueued at hs
    rw [vectors, (freshVectors sizes).1] at hs
    dsimp only at hs
    rw [if_pos h0] at hs
    cases hs
  by_cases hcl : s.pcb.state = .closed
  · -- nothing is queued and nothing is returned
    have hr := h.closed hcl
    obtain ⟨⟨left', h1⟩, hst, -⟩ := recvQueued_loop hs
    rw [hr] at h1
    obtain ⟨-, h2, -, h3⟩ : _ ∧ vectors sizes = iov ∧ _ ∧ [] = t.pcb.recved := by simpa [recvLoop] using h1
    have hnil : filled iov = [] := by rw [← h2]; exact filled_of_empty (freshVectors sizes).2
    rw [hr, ← h3, length_nil, take_nil, map_nil, append_nil]
    refine ⟨?_, ?_, ?_, ?_, fun hne => absurd (hst.trans hcl) hne, fun _ => h3.symm⟩
    · rw [← h3, ← hr]; exact h.pieces
    · rw [hd', hnil, append_nil]; exact h.returned
    · rw [hst]; exact h.state
    · rw [← h3]; exact forall_mem_nil _
  · obtain ⟨p, iov', h1, h2, -, -, h3, h4, h5, h6⟩ := recvQueued_taken h.segs (h.window hcl) he h0
    obtain ⟨rfl, rfl⟩ := Prod.mk.inj (Except.ok.inj (h1.symm.trans hs))
    refine ⟨?_, ?_, ?_, h4, fun _ => h5, fun hc => absurd (h6.symm.trans hc) hcl⟩
    · rw [h3, append_assoc, ← map_append, take_append_drop]
      exact h.pieces
    · rw [hd', flatten_append, h.returned, h2, queued, flatMap_def]
    · rw [h6]; exact h.state

/-! ## Runs -/

variable {x : State × Taken}

theorem step_holding {y : State × Taken} {a : Act} (h : x.1.sock = true → Holding x.1 x.2) (hc : Deliverable x.1 a)
    (hs : taking.Steps x a y) : y.1.sock = true → Holding y.1 y.2 := by
  obtain ⟨⟨he, hs⟩, hr⟩ := Machine.record_steps.1 hs
  obtain ⟨hfit, hc⟩ := hc
  intro hsock
  rw [hr]
  rcases step_recv hs with ⟨g, rfl, hs, h1, h2⟩ | ⟨sizes, ha, hread⟩ | ⟨hno, hside, hd, h1⟩
  · exact tcpInput_holding (h (h1 ▸ hsock)) he.1 hfit hc hs h2
  · have hx := h (by obtain ⟨-, -, h1, -⟩ := hread; rw [← h1]; exact hsock)
    rcases ha with rfl | ⟨rfl, -⟩
    · exact hx.read hc hread
    · exact hx.read hc.2 hread
  have hx := h (h1 hsock)
  have hsame : SameRecv x.1.pcb y.1.pcb → Holding y.1 (x.2.after x.1 a y.1) := by
    intro e
    have key : x.2.after x.1 a y.1 = x.2 := by
      cases a with
      | input g => exact absurd rfl (hno g)
      | recv sizes | resume sizes =>
        unfold Taken.after
        dsimp only
        rw [e.recved, Nat.sub_self, take_zero, map_nil, append_nil]
      | connect | send iov flags | setsockopt opt val | close | timeout type | slowtimo | fastimo | sent i => rfl
    rw [key]
    exact hx.same hd e
  cases hside with
  | same e => exact hsame e
  | connect e h1 h2 =>
    have h0 := hx.closed h1
    refine ⟨?_, ?_, ?_, ?_, fun _ => ?_, fun hcl => ?_⟩
    · show x.2.pieces.Perm _
      rw [e.recved]; exact hx.pieces
    · rw [hd]; exact hx.returned
    · rw [h2]; exact .inl (by decide)
    · rw [e.recved]; exact hx.segs
    · rw [e.recved, e.rcvWnd, h0, hfit h1]; rfl
    · rw [h2] at hcl; cases hcl
  | close | closed =>
    obtain ⟨p, -, hs⟩ := bind_ok hs
    rw [← Except.ok.inj hs] at hsock
    cases hsock
  | timeout e h1 =>
    rename_i type
    obtain ⟨p, ht, hs⟩ := bind_ok hs
    have hp : y.1.pcb = p := by rw [← Except.ok.inj hs]
    rcases tcpTimeout_parts ht with ⟨e', -⟩ | ⟨hends, -⟩
    · exact hsame (hp ▸ e')
    · exact hx.dropped hd (hc hends) e h1

theorem start_holding (h : taking.start x) : Holding x.1 x.2 := by
  obtain ⟨⟨hd, isn, e | ⟨mss, g, -, -, hl⟩⟩, hr⟩ := h
  · have hrec : x.1.pcb.recved = [] := by rw [e]; rfl
    have hst : x.1.pcb.state = .closed := by rw [e]; rfl
    refine ⟨?_, ?_, ?_, ?_, fun hne => absurd hst hne, fun _ => hrec⟩
    · rw [hr, hrec]; rfl
    · rw [hr, hd]; rfl
    · rw [hst]; exact .inl (by decide)
    · rw [hrec]; exact forall_mem_nil _
  · unfold tcpHandleListen at hl
    obtain ⟨t, h1, hl⟩ := bind_ok hl
    have e := (tcpEnqueue_recv h1).trans (tcpOutput_recv hl)
    have hrec : x.1.pcb.recved = [] := e.recved
    have hst : x.1.pcb.state = .synRcvd := e.state
    refine ⟨?_, ?_, ?_, ?_, fun _ => ?_, fun _ => hrec⟩
    · rw [hr, hrec]; rfl
    · rw [hr, hd]; rfl
    · rw [hst]; exact .inl (by decide)
    · rw [hrec]; exact forall_mem_nil _
    · rw [hrec, e.rcvWnd]; rfl

theorem tcpInput_advance {s t : Pcb} (hss : s.state ≠ .synSent) (htw : s.state ≠ .timeWait)
    (hsz : g.size < 65536) (hc : SegmentDelivers s g) (hs : tcpInput s g = .ok t) (hgt : seqGT t.rcvNxt s.rcvNxt) :
    ∃ l, (r.input s g).pieces = r.pieces ++ l ∧
      (t.rcvNxt - s.rcvNxt).toNat ≤ (l.map length).sum + if g.flags.has tcpFin then 1 else 0 := by
  have hself : ∀ x : Seq, ¬ seqGT x x := by
    intro x
    unfold seqGT
    rw [BitVec.sub_self]; decide
  have hpieces : ∃ l, (r.input s g).pieces = r.pieces ++ l ∧
      ((Accepts s g ∧ InOrder s g) → l = [(trimSeg s g).bytes]) := by
    unfold Taken.input
    split
    · exact ⟨_, rfl, fun _ => rfl⟩
    · rename_i h
      exact ⟨[], (append_nil _).symm, fun h' => absurd h' h⟩
  obtain ⟨l, hl, hin⟩ := hpieces
  refine ⟨l, hl, ?_⟩
  -- the `switch` with a `FIN`, or `rcv_nxt` as `tcp_update_buf` left it
  have hfin : Processed s g → ∀ v : Pcb, v.state = s.state → Switched v g t →
      (g.flags.has tcpFin = true ∧ (t.rcvNxt - s.rcvNxt).toNat ≤ 1) ∨ t.rcvNxt = v.rcvNxt := by
    intro hp v hv hsw
    have hnxt := hsw.rcvNxt (by rw [hv]; exact hss)
    unfold finNxt at hnxt
    rw [hv, if_neg htw] at hnxt
    split at hnxt
    · rename_i h
      have h1 := hc.fin h.1 hp h.2
      rw [hnxt] at hgt ⊢
      unfold seqGT at h1 hgt
      rw [BitVec.toInt_eq_toNat_cond] at h1 hgt
      refine .inl ⟨h.2, ?_⟩
      have h2 : (g.seqno + 1 - s.rcvNxt).toNat = ((g.seqno - s.rcvNxt).toNat + 1) % 2 ^ 32 := by bv_omega
      have h3 := (g.seqno - s.rcvNxt).isLt
      split at h1 <;> split at hgt <;> omega
    · exact .inr hnxt
  rcases tcpInput_recv hs with ⟨-, e | ⟨-, -, -, -, e⟩⟩ | ⟨hp, u, e, ⟨-, hsw⟩ | ⟨ha, hsw⟩⟩
  · rw [e.rcvNxt] at hgt; exact absurd hgt (hself _)
  · rw [e.rcvNxt] at hgt; exact absurd hgt (hself _)
  · rcases hfin hp u e.state hsw with ⟨h1, h2⟩ | h1
    · rw [if_pos h1]; omega
    · rw [h1, e.rcvNxt] at hgt; exact absurd hgt (hself _)
  · have hstate : (if 0 < g.size then tcpUpdateBuf u g else u).state = s.state := by
      split
      · rw [tcpUpdateBuf_state, e.state]
      · exact e.state
    rcases hfin hp _ hstate hsw with ⟨h1, h2⟩ | h1
    · rw [if_pos h1]; omega
    have hkeep : InOrder s g ∧ t.rcvNxt = g.pbuf.endSeq := by
      by_cases h0 : 0 < g.size
      · rw [if_pos h0] at h1
        rcases tcpUpdateBuf_cases u g with ⟨-, e'⟩ | ⟨hi, -, h2, -⟩
        · rw [h1, e'.rcvNxt, e.rcvNxt] at hgt; exact absurd hgt (hself _)
        · unfold InOrder at hi ⊢
          rw [e.rcvNxt] at hi
          exact ⟨hi, h1.trans h2⟩
      · rw [if_neg h0] at h1
        rw [h1, e.rcvNxt] at hgt; exact absurd hgt (hself _)
    have hok := trimSeg_ok hkeep.1 hsz
    rw [hin ⟨ha, hkeep.1⟩, hkeep.2, map_singleton, sum_singleton, Pbuf.bytes, length_take,
      Nat.min_eq_left hok.len, (trimSeg_size hkeep.1 hsz).1]
    exact Nat.le_add_right _ _

theorem reach_holding (h : taking.Reach (fun x => Deliverable x.1) x) (hsock : x.1.sock = true) :
    Holding x.1 x.2 :=
  h.inv (I := fun x => x.1.sock = true → Holding x.1 x.2) (fun _ h0 _ => start_holding h0)
    (fun _ _ _ hi hc hs => step_holding hi hc hs) hsock

instance (x : State × Taken) (a : Act) : Decidable (taking.enabled x a) := inferInstanceAs (Decidable (enabled x.1 a))

theorem taking_start (isn : Seq) : taking.start (⟨tcpPcbGet isn, true, []⟩, ⟨[], []⟩) := ⟨⟨rfl, isn, .inl rfl⟩, rfl⟩

end Onix.Tcp
