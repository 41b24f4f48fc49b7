/-
What the receiver acknowledges. `rcv_nxt` is the peer's next sequence number as long as every `FIN` that
`tcp_process` takes carries no data and comes when all before it has arrived: the code sets `rcv_nxt` to
`seqno + 1` whatever else is in the segment or missing before it. In `TIME_WAIT` it also moves over data
it does not take.
-/
import Onix.Tcp.Arrive

namespace Onix.Tcp

open Onix.Lib

/-- A `FIN` comes without data and is the next number expected, or the one taken before in `CLOSE_WAIT`;
none comes in order before the handshake is over; the segment of the handshake brings no data, nor does
one in `TIME_WAIT`. -/
def SegmentNumbered (s : Pcb) (g : Segment) : Prop :=
  Processed s g →
    (s.state = .synSent → ¬ (Accepts s g ∧ InOrder s g)) ∧
    (s.state = .synRcvd → g.flags.has tcpFin = true → ¬ (Accepts s g ∧ InOrder s g) ∧ g.pbuf.endSeq ≠ s.rcvNxt) ∧
    (s.state.takesFin → g.flags.has tcpFin = true → g.size = 0 ∧
      ((g.seqno = s.rcvNxt ∧ s.state ≠ .closeWait) ∨ (g.seqno + 1 = s.rcvNxt ∧ s.state = .closeWait))) ∧
    (s.state = .timeWait → ¬ seqGT g.pbuf.endSeq s.rcvNxt)

instance (s : Pcb) (g : Segment) : Decidable (SegmentNumbered s g) := inferInstanceAs (Decidable (_ → _))

def Numbered (s : State) : Act → Prop
  | .input g => SegmentNumbered s.pcb g
  | _ => True

instance (s : State) : (a : Act) → Decidable (Numbered s a)
  | .input g => inferInstanceAs (Decidable (SegmentNumbered s.pcb g))
  | .connect | .send _ _ | .recv _ | .resume _ | .setsockopt _ _ | .close | .timeout _ | .slowtimo | .fastimo | .sent _ =>
    inferInstanceAs (Decidable True)

def TcpState.afterFin (st : TcpState) : Prop := st = .closeWait ∨ st = .closing ∨ st = .lastAck ∨ st = .timeWait

instance (st : TcpState) : Decidable st.afterFin := inferInstanceAs (Decidable (_ ∨ _ ∨ _ ∨ _))

/-- `rcv_nxt` and the state agree with the peer's stream. -/
structure Exact (s : Pcb) (r : Arrived) : Prop where
  nxt : s.rcvNxt = r.nxt
  fin : r.fin = true ↔ s.state.afterFin

variable {r : Arrived} {s t : Pcb}

theorem Exact.same (h : Exact s r) (h1 : t.rcvNxt = s.rcvNxt)
    (h2 : t.state.afterFin ↔ s.state.afterFin) :
    Exact t r := ⟨h1.trans h.nxt, h.fin.trans h2.symm⟩

theorem Arrived.take_fin (r : Arrived) (g : Segment) : (r.take g).fin = r.fin ∧ (r.take g).irs = r.irs := by
  unfold Arrived.take
  split <;> exact ⟨rfl, rfl⟩

variable {g : Segment}

theorem Arrived.finish_nxt (h1 : g.flags.has tcpFin = true) (h2 : g.pbuf.endSeq = r.nxt)
    (h3 : r.fin = false) :
    (r.finish g).nxt = r.nxt + 1 ∧ (r.finish g).fin = true := by
  unfold Arrived.finish
  rw [if_pos ⟨h1, h2, h3⟩]
  refine ⟨?_, rfl⟩
  have e : ({ r with fin := true } : Arrived).nxt = r.irs + 1 + BitVec.ofNat 32 (r.bytes + 1) := rfl
  rw [e]
  unfold Arrived.nxt
  rw [h3, if_neg (by decide), Nat.add_zero, ← add_ofNat]
  rfl

theorem TcpState.next_afterFin {st st' : TcpState} {fin : Bool} (h : st' ∈ st.next fin) (hcl : st' ≠ .closed) :
    (st'.afterFin ↔ st.afterFin ∨ (st.takesFin ∧ fin = true)) := by
  cases st <;> cases fin <;> simp only [TcpState.next, List.mem_cons, List.not_mem_nil, or_false] at h
  all_goals
    first
      | subst h; decide
      | rcases h with rfl | rfl <;> first | decide | exact absurd rfl hcl

theorem Exact.switched (h : Exact s r) (hst : TcpState.synRcvd.val ≤ s.state.val)
    (hsw : Switched s g t) (htw : s.state = .timeWait → ¬ seqGT g.pbuf.endSeq s.rcvNxt)
    (hrcvd : s.state = .synRcvd → g.flags.has tcpFin = true → g.pbuf.endSeq ≠ s.rcvNxt)
    (hfin : s.state.takesFin → g.flags.has tcpFin = true → g.size = 0 ∧
      ((g.seqno = s.rcvNxt ∧ s.state ≠ .closeWait) ∨ (g.seqno + 1 = s.rcvNxt ∧ s.state = .closeWait))) (hcl : t.state ≠ .closed) :
    Exact t (r.finish g) := by
  have hne : s.state ≠ .synSent := by
    intro e
    rw [e] at hst; exact absurd hst (by decide)
  have hnxt := hsw.rcvNxt hne
  have hafter := TcpState.next_afterFin hsw.next hcl
  unfold finNxt at hnxt
  by_cases htk : s.state.takesFin ∧ g.flags.has tcpFin = true
  · -- a `FIN` that is taken
    obtain ⟨h0, hseq⟩ := hfin htk.1 htk.2
    have hend : g.pbuf.endSeq = g.seqno := by
      show g.seqno + BitVec.ofNat 32 g.size = _
      rw [h0]; exact BitVec.add_zero _
    have hnt : s.state ≠ .timeWait := by
      intro e
      rw [e] at htk; exact absurd htk.1 (by decide)
    rw [if_neg hnt, if_pos htk] at hnxt
    have haft : t.state.afterFin := hafter.2 (.inr htk)
    rcases hseq with ⟨e1, e2⟩ | ⟨e1, e2⟩
    · have hno : r.fin = false := by
        rw [← Bool.not_eq_true, h.fin]
        rcases htk.1 with e | e | e | e
        · rw [e]; decide
        · exact absurd e e2
        · rw [e]; decide
        · rw [e]; decide
      obtain ⟨h1, h2⟩ := Arrived.finish_nxt htk.2 (by rw [hend, e1, h.nxt]) hno
      exact ⟨by rw [hnxt, h1, e1, h.nxt], ⟨fun _ => haft, fun _ => h2⟩⟩
    · have hyes : r.fin = true := h.fin.2 (.inl e2)
      have hno : r.finish g = r := by
        unfold Arrived.finish
        rw [if_neg fun h => absurd (h.2.2.symm.trans hyes) (by decide)]
      rw [hno]
      exact ⟨by rw [hnxt, e1, h.nxt], ⟨fun _ => haft, fun _ => hyes⟩⟩
  · -- no `FIN`, or a state that does not look at it
    have hno : r.finish g = r := by
      unfold Arrived.finish
      rw [if_neg]
      rintro ⟨h1, h2, h3⟩
      have hlate : ¬ s.state.afterFin := by rw [← h.fin, h3]; decide
      cases hs : s.state with
      | synRcvd => exact hrcvd hs h1 (h2.trans h.nxt.symm)
      | established | finWait1 | finWait2 => exact htk ⟨by rw [hs]; decide, h1⟩
      | closeWait | closing | lastAck | timeWait => exact hlate (by rw [hs]; decide)
      | closed | listen | synSent => rw [hs] at hst; exact absurd hst (by decide)
    have hsame : t.rcvNxt = s.rcvNxt := by
      by_cases hs : s.state = .timeWait
      · rw [if_pos hs, if_neg (htw hs)] at hnxt; exact hnxt
      · rw [if_neg hs, if_neg htk] at hnxt; exact hnxt
    rw [hno]
    exact h.same hsame (hafter.trans (or_iff_left htk))

def ExactInv (s : Pcb) (r : Arrived) : Prop := TcpState.synRcvd.val ≤ s.state.val → Exact s r

theorem tcpInput_exact (h : ExactInv s r) (hsz : g.size < 65536)
    (hc : SegmentNumbered s g) (hs : tcpInput s g = .ok t) : ExactInv t (r.input s g t) := by
  intro hst
  unfold Arrived.input
  rcases tcpInput_recv hs with ⟨hnp, e | ⟨-, -, -, e, -⟩⟩ | ⟨hp, u, e, hsw⟩
  · -- the segment is dropped
    have hold : TcpState.synRcvd.val ≤ s.state.val := by rw [← e.state]; exact hst
    have hne : s.state ≠ .synSent := by
      intro h0
      rw [h0] at hold; exact absurd hold (by decide)
    rw [if_neg hne, if_neg hnp]
    exact (h hold).same e.rcvNxt (by rw [e.state])
  · rw [e] at hst; exact absurd hst (by decide)
  obtain ⟨hc1, hc2, hc3, hc4⟩ := hc hp
  by_cases hss : s.state = .synSent
  · -- the handshake
    rw [if_pos hss]
    have key : ∀ w : Pcb, w.state = s.state → Switched w g t → Exact t
        (if t.state = .established then Arrived.fresh g.seqno else r) := by
      intro w hw hsw
      rcases hsw.opened (hw.trans hss) with rfl | ⟨h1, h2⟩
      · rw [hw, hss] at hst; exact absurd hst (by decide)
      · rw [if_pos h1]
        refine ⟨by rw [h2, Arrived.fresh_nxt], ?_⟩
        rw [h1]
        exact iff_of_false (by rintro ⟨⟩) (by decide)
    rcases hsw with ⟨-, hsw⟩ | ⟨-, hsw⟩
    · exact key u e.state hsw
    · refine key _ ?_ hsw
      split
      · rw [tcpUpdateBuf_state, e.state]
      · exact e.state
  rw [if_neg hss, if_pos hp]
  have hcl : t.state ≠ .closed := by
    intro h0
    rw [h0] at hst; exact absurd hst (by decide)
  -- the state before
  have hold : ∀ w : Pcb, w.state = s.state → Switched w g t → TcpState.synRcvd.val ≤ s.state.val := by
    intro w hw hsw
    have hmem := hsw.next
    rw [hw] at hmem
    cases h0 : s.state with
    | synSent => exact absurd h0 hss
    | closed | listen =>
      rw [h0] at hmem
      simp only [TcpState.next, List.mem_cons, List.not_mem_nil, or_false] at hmem
      rw [hmem] at hst; exact absurd hst (by decide)
    | synRcvd | established | finWait1 | finWait2 | closeWait | closing | lastAck | timeWait => decide
  rcases hsw with ⟨hna, hsw⟩ | ⟨ha, hsw⟩
  · rw [if_neg hna]
    have hs0 := hold u e.state hsw
    have hu : Exact u r := (h hs0).same e.rcvNxt (by rw [e.state])
    refine hu.switched (by rw [e.state]; exact hs0) hsw ?_ ?_ ?_ hcl
    · rw [e.state, e.rcvNxt]; exact hc4
    · rw [e.state, e.rcvNxt]; exact fun h1 h2 => (hc2 h1 h2).2
    · rw [e.state, e.rcvNxt]; exact hc3
  · rw [if_pos ha]
    have hw : (if 0 < g.size then tcpUpdateBuf u g else u).state = s.state := by
      split
      · rw [tcpUpdateBuf_state, e.state]
      · exact e.state
    have hs0 := hold _ hw hsw
    have hr := h hs0
    have hu : Exact (if 0 < g.size then tcpUpdateBuf u g else u) (r.take g) := by
      refine ⟨tcpUpdateBuf_nxt (e.rcvNxt.trans hr.nxt) hsz, ?_⟩
      rw [(Arrived.take_fin r g).1, hw]; exact hr.fin
    -- a segment without data, or one whose data is not taken, leaves `rcv_nxt`
    have hkeep : ¬ InOrder s g → (if 0 < g.size then tcpUpdateBuf u g else u).rcvNxt = s.rcvNxt := by
      intro hno
      rw [hu.nxt]
      unfold Arrived.take
      rw [if_neg fun hr' => hno ((reached_iff hr.nxt).1 hr'), hr.nxt]
    have hempty : g.size = 0 → ¬ InOrder s g := fun h0 hin => (inOrder_size hin).ne' h0
    refine hu.switched (by rw [hw]; exact hs0) hsw ?_ ?_ ?_ hcl
    · rw [hw]
      intro h0
      exact absurd h0 (accepts_iff.1 ha).2.2
    · rw [hw]
      intro h1 h2
      rw [hkeep fun hin => (hc2 h1 h2).1 ⟨ha, hin⟩]
      exact (hc2 h1 h2).2
    · rw [hw]
      intro h1 h2
      obtain ⟨h3, h4⟩ := hc3 h1 h2
      rw [hkeep (hempty h3)]
      exact ⟨h3, h4⟩

/-! ## Runs -/

theorem Arrived.after_other {s t : State} {a : Act} (h : ∀ g, a ≠ .input g) :
    ∃ l, r.after s a t = { r with returned := l } := by
  cases a with
  | input g => exact absurd rfl (h g)
  | recv sizes | resume sizes => exact ⟨_, rfl⟩
  | connect | send iov flags | setsockopt opt val | close | timeout type | slowtimo | fastimo | sent i => exact ⟨r.returned, rfl⟩

variable {x : State × Arrived}

theorem step_exact {y : State × Arrived} {a : Act} (h : ExactInv x.1.pcb x.2) (hc : Numbered x.1 a)
    (hs : arriving.Steps x a y) : ExactInv y.1.pcb y.2 := by
  obtain ⟨⟨he, hs⟩, hr⟩ := Machine.record_steps.1 hs
  rw [hr]
  rcases step_recv hs with ⟨g, rfl, hs, -, -⟩ | ⟨sizes, ha, iov, hs, -, -⟩ | ⟨hno, hside, -, -⟩
  · exact tcpInput_exact h he.1 hc hs
  · obtain ⟨-, h1, h2⟩ := recvQueued_loop hs
    obtain ⟨l, e⟩ := Arrived.after_other (r := x.2) (s := x.1) (t := y.1) (a := a) (by rcases ha with rfl | ⟨rfl, -⟩ <;> nofun)
    rw [e]
    intro hst
    have := h (by rw [← h1]; exact hst)
    exact ⟨h2.trans this.nxt, by rw [h1]; exact this.fin⟩
  · obtain ⟨l, e⟩ := Arrived.after_other (r := x.2) (s := x.1) (t := y.1) hno
    rw [e]
    intro hst
    cases hside with
    | same e1 =>
      have := h (by rw [← e1.state]; exact hst)
      exact ⟨e1.rcvNxt.trans this.nxt, by rw [e1.state]; exact this.fin⟩
    | connect _ _ h2 => rw [h2] at hst; exact absurd hst (by decide)
    | closed _ h1 => rw [h1] at hst; exact absurd hst (by decide)
    | timeout _ h1 => rw [h1] at hst; exact absurd hst (by decide)
    | close e1 h1 =>
      have key : TcpState.synRcvd.val ≤ x.1.pcb.state.val ∧ (x.1.pcb.state.afterFin ↔ y.1.pcb.state.afterFin) := by
        rcases h1 with ⟨h0 | h0, h1⟩ | ⟨h0, h1⟩ <;> rw [h0, h1] <;> decide
      have := h key.1
      exact ⟨e1.rcvNxt.trans this.nxt, this.fin.trans key.2⟩

theorem start_exact (h : arriving.start x) : ExactInv x.1.pcb x.2 := by
  obtain ⟨⟨-, isn, e | ⟨mss, g, -, -, hl⟩⟩, hr, h1⟩ := h
  · intro hst
    have hcl : x.1.pcb.state = .closed := by rw [e]; rfl
    rw [hcl] at hst; exact absurd hst (by decide)
  · intro _
    have hstate : x.1.pcb.state = .synRcvd := by
      obtain ⟨t, h2, hl⟩ := bind_ok hl
      exact ((tcpEnqueue_recv h2).trans (tcpOutput_recv hl)).state
    refine ⟨?_, ?_⟩
    · rw [h1 hstate, hr]; exact (Arrived.fresh_nxt _).symm
    · rw [hstate, hr]
      exact iff_of_false (by rintro ⟨⟩) (by decide)

theorem reach_exact (h : arriving.Reach (fun x => Numbered x.1) x) : ExactInv x.1.pcb x.2 :=
  h.inv (I := fun x => ExactInv x.1.pcb x.2) (fun _ => start_exact) fun _ _ _ hi hc hs => step_exact hi hc hs

theorem Arrived.input_nxt (r : Arrived) (hss : s.state ≠ .synSent) (hsz : g.size < 65536) :
    ∃ k ≤ g.size + 1, (r.input s g t).nxt = r.nxt + BitVec.ofNat 32 k := by
  have hfin : ∀ r : Arrived, ∃ k ≤ 1, (r.finish g).nxt = r.nxt + BitVec.ofNat 32 k := by
    intro r
    by_cases h : g.flags.has tcpFin = true ∧ g.pbuf.endSeq = r.nxt ∧ r.fin = false
    · exact ⟨1, le_rfl, (Arrived.finish_nxt h.1 h.2.1 h.2.2).1⟩
    · refine ⟨0, Nat.zero_le _, ?_⟩
      unfold Arrived.finish
      rw [if_neg h, BitVec.add_zero]
  have htake : ∃ k ≤ g.size, (r.take g).nxt = r.nxt + BitVec.ofNat 32 k := by
    by_cases h : r.Reached g
    · obtain ⟨h1, h2, -⟩ := Arrived.take_nxt h hsz
      refine ⟨_, h2, ?_⟩
      bv_omega
    · refine ⟨0, Nat.zero_le _, ?_⟩
      unfold Arrived.take
      rw [if_neg h, BitVec.add_zero]
  unfold Arrived.input
  rw [if_neg hss]
  split
  · split
    · obtain ⟨k, hk, e1⟩ := htake
      obtain ⟨m, hm, e2⟩ := hfin (r.take g)
      exact ⟨k + m, by omega, by rw [e2, e1, add_ofNat]⟩
    · obtain ⟨m, hm, e2⟩ := hfin r
      exact ⟨m, by omega, e2⟩
  · exact ⟨0, Nat.zero_le _, by rw [BitVec.add_zero]⟩

/-- What the receiver acknowledges: in every run whose steps meet the condition, `rcv_nxt` of a pcb past
`SYN_SENT` is the peer's initial number, one, the bytes that came in order and one for a `FIN` that did;
and a step moves it forward by no more than a segment and a `FIN`. -/
theorem ack_exact (h : arriving.Reach (fun x => Numbered x.1) x)
    (hst : TcpState.synRcvd.val ≤ x.1.pcb.state.val) :
    x.1.pcb.rcvNxt = x.2.irs + 1 + BitVec.ofNat 32 (x.2.bytes + if x.2.fin then 1 else 0) ∧
      ∀ a y, Numbered x.1 a → arriving.Steps x a y → TcpState.synRcvd.val ≤ y.1.pcb.state.val →
        seqLEQ x.1.pcb.rcvNxt y.1.pcb.rcvNxt := by
  have hi := reach_exact h
  refine ⟨(hi hst).nxt, fun a y hc hs hst' => ?_⟩
  obtain ⟨⟨he, -⟩, hr⟩ := Machine.record_steps.1 hs
  have hle : ∃ k ≤ 65536, y.2.nxt = x.2.nxt + BitVec.ofNat 32 k := by
    rw [hr]
    by_cases ha : ∃ g, a = .input g
    · obtain ⟨g, rfl⟩ := ha
      have hss : x.1.pcb.state ≠ .synSent := by
        intro h0
        rw [h0] at hst; exact absurd hst (by decide)
      obtain ⟨k, hk, e⟩ := x.2.input_nxt (t := y.1.pcb) hss he.1
      exact ⟨k, by have := he.1; omega, e⟩
    · obtain ⟨l, e⟩ := Arrived.after_other (r := x.2) (s := x.1) (t := y.1) (a := a) fun g hg => ha ⟨g, hg⟩
      exact ⟨0, Nat.zero_le _, by rw [e, BitVec.add_zero]; rfl⟩
  obtain ⟨k, hk, e⟩ := hle
  rw [(hi hst).nxt, (step_exact hi hc hs hst').nxt, e]
  have := seqLEQ_iff x.2.nxt (a := 0) (b := k) (by omega) (by omega)
  rw [BitVec.add_zero] at this
  exact this.2 (Nat.zero_le _)

instance (x : State × Arrived) (a : Act) : Decidable (arriving.enabled x a) := inferInstanceAs (Decidable (enabled x.1 a))

theorem arriving_start (isn irs : Seq) : arriving.start (⟨tcpPcbGet isn, true, []⟩, Arrived.fresh irs) :=
  ⟨⟨rfl, isn, .inl rfl⟩, rfl, (nomatch ·)⟩

/-- The acknowledgement counts the bytes and the `FIN`. -/
theorem ack_exact_closed : ∃ x, arriving.Reach (fun x => Numbered x.1) x ∧ x.1.pcb.state = .closeWait ∧
    x.1.pcb.rcvNxt = x.2.irs + 1 + BitVec.ofNat 32 (x.2.bytes + if x.2.fin then 1 else 0) := by
  have h : (arriving.trace (fun x => Numbered x.1) (⟨tcpPcbGet 5, true, []⟩, Arrived.fresh 0) closedByPeer).map
      (fun x => x.1.pcb.state) = some .closeWait := by decide +kernel
  obtain ⟨x, hx, he⟩ := Option.map_eq_some_iff.1 h
  have hr : arriving.Reach (fun x => Numbered x.1) x := Machine.trace_reach (arriving_start 5 0) hx
  exact ⟨x, hr, he, (ack_exact hr (by rw [he]; decide)).1⟩

def finWithData : List Act := handshake ++ [Act.input ⟨8, 6, tcpFin ||| tcpAck, 4096, [], [1, 2, 3, 4]⟩]

/-- Its acknowledgement goes back to the first of the four bytes. -/
theorem fin_data_unacknowledged : ∃ x, arriving.Reach Machine.Any x ∧ x.1.pcb.state = .closeWait ∧
    x.1.pcb.rcvNxt ≠ x.2.irs + 1 + BitVec.ofNat 32 (x.2.bytes + if x.2.fin then 1 else 0) := by
  have h : (arriving.trace Machine.Any (⟨tcpPcbGet 5, true, []⟩, Arrived.fresh 0) finWithData).map
      (fun x => (x.1.pcb.state, x.1.pcb.rcvNxt, x.2.nxt)) = some (.closeWait, 9, 13) := by decide +kernel
  obtain ⟨x, hx, he⟩ := Option.map_eq_some_iff.1 h
  obtain ⟨h1, h2⟩ := Prod.mk.inj he
  obtain ⟨h2, h3⟩ := Prod.mk.inj h2
  refine ⟨x, Machine.trace_reach (arriving_start 5 0) hx, h1, ?_⟩
  show _ ≠ x.2.nxt
  rw [h2, h3]; decide

end Onix.Tcp
