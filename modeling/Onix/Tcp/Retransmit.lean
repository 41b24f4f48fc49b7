/-
Retransmission of `SYN` and `FIN`. `tcp_update_ack` takes a segment out when the acknowledgement reaches
the end of its data, although a `SYN` or a `FIN` takes one more number, and `tcp_process` frees the queues
in `LAST_ACK` on any acknowledgement. A segment that leaves the queues has been acknowledged to its last
number as long as no acknowledgement ends within that part and no step that frees the queues finds a
segment that `snd_una` has not passed.
-/
import Onix.Tcp.Window
import Onix.Tcp.Resend

namespace Onix.Tcp

open List Onix.Lib

/-- `snd_una` has reached the end of the segment, its `SYN` and `FIN` counted. -/
def Reached (s : Pcb) (p : Pbuf) : Prop := seqLEQ p.lastSeq s.sndUna

instance (s : Pcb) (p : Pbuf) : Decidable (Reached s p) := inferInstanceAs (Decidable (seqLEQ _ _))

/-! ## The condition -/

/-- The number acknowledged is that of the `SYN` or the `FIN` of a segment. -/
def WithinCtl (ackno : Seq) (p : Pbuf) : Prop := (ackno - p.endSeq).toNat < p.flags.ctl

instance (a : Seq) (p : Pbuf) : Decidable (WithinCtl a p) := inferInstanceAs (Decidable (_ < _))

/-- One past `snd_nxt`, which a duplicate may have set back to the end of a segment sent again. -/
def PastNxt (s : Pcb) (g : Segment) : Prop :=
  g.ackno = s.sndNxt + 1 ∨ (seqGEQ s.sndUna g.ackno ∧ ∃ p ∈ s.segs, g.ackno = p.endSeq + 1)

instance (s : Pcb) (g : Segment) : Decidable (PastNxt s g) := inferInstanceAs (Decidable (_ ∨ _))

def MayFree (s : Pcb) (g : Segment) : Prop :=
  match s.state with
  | .lastAck => g.flags.has tcpAck = true
  | .finWait2 => g.flags.has tcpFin = true
  | .finWait1 => g.flags.has tcpFin = true ∧ g.flags.has tcpAck = true ∧ PastNxt s g
  | .closing => g.flags.has tcpAck = true ∧ PastNxt s g
  | _ => False

instance (s : Pcb) (g : Segment) : Decidable (MayFree s g) := by
  unfold MayFree
  split <;> infer_instance

def unaAfter (s : Pcb) (g : Segment) : Seq :=
  if g.flags.has tcpAck = true ∧ ¬ seqGEQ s.sndUna g.ackno then g.ackno else s.sndUna

/-- No new acknowledgement ends at a `SYN` or a `FIN`; a segment that may free the queues acknowledges all
of them, and a reset finds all of them acknowledged. -/
structure SegmentAcks (s : Pcb) (g : Segment) : Prop where
  ctl : Accepts s g → ¬ seqGEQ s.sndUna g.ackno → ∀ p ∈ s.segs, ¬ WithinCtl g.ackno p
  free : Processed s g → MayFree s g → ∀ p ∈ s.segs, seqLEQ p.lastSeq (unaAfter s g)
  reset : tcpValidate s g = true → g.flags.has tcpRst = true → TcpState.synSent.val < s.state.val → ∀ p ∈ s.segs, Reached s p

instance (s : Pcb) (g : Segment) : Decidable (SegmentAcks s g) :=
  decidable_of_iff (_ ∧ _ ∧ _) ⟨fun ⟨h1, h2, h3⟩ => ⟨h1, h2, h3⟩, fun ⟨h1, h2, h3⟩ => ⟨h1, h2, h3⟩⟩

/-- A close before the handshake and a timer that ends the connection find all segments acknowledged. -/
def AcksAll (s : State) : Act → Prop
  | .input g => SegmentAcks s.pcb g
  | .close => s.pcb.state.val ≤ TcpState.synSent.val → ∀ p ∈ s.pcb.segs, Reached s.pcb p
  | .timeout type => TimeoutEnds s.pcb type → ∀ p ∈ s.pcb.segs, Reached s.pcb p
  | _ => True

instance (s : State) : (a : Act) → Decidable (AcksAll s a)
  | .input g => inferInstanceAs (Decidable (SegmentAcks s.pcb g))
  | .close | .timeout _ => inferInstanceAs (Decidable (_ → _))
  | .connect | .send _ _ | .recv _ | .resume _ | .setsockopt _ _ | .slowtimo | .fastimo | .sent _ =>
    inferInstanceAs (Decidable True)

/-! ## The `switch` of `tcp_process` -/

def Frees (s : Pcb) (g : Segment) : Prop :=
  (s.state = .lastAck ∧ g.flags.has tcpAck = true) ∨ (s.state = .finWait2 ∧ g.flags.has tcpFin = true) ∨
    (s.state = .finWait1 ∧ g.flags.has tcpFin = true ∧ g.flags.has tcpAck = true ∧ g.ackno = s.sndNxt + 1) ∨
    (s.state = .closing ∧ g.flags.has tcpAck = true ∧ g.ackno = s.sndNxt + 1)

theorem processState_segs {g : Segment} (h : processState s g = .ok t) :
    (t.segs = s.segs ∨ Frees s g) ∧ (t.sndUna = s.sndUna ∨ (s.state = .synSent ∧ t.sndUna = g.ackno)) := by
  unfold processState at h
  cases hst : s.state with
  | synSent =>
    rw [hst] at h
    cases h
    unfold tcpHandleSynSent
    split
    · exact ⟨.inl rfl, .inl rfl⟩
    split
    · exact ⟨.inl rfl, .inl rfl⟩
    dsimp only
    split <;> exact ⟨.inl rfl, .inr ⟨rfl, rfl⟩⟩
  | synRcvd =>
    rw [hst] at h
    dsimp only at h
    split at h <;> · cases h; exact ⟨.inl rfl, .inl rfl⟩
  | established | closeWait =>
    rw [hst] at h
    dsimp only at h
    split at h <;> · cases h; exact ⟨.inl rfl, .inl rfl⟩
  | lastAck =>
    rw [hst] at h
    dsimp only at h
    split at h
    · rename_i hack
      exact ⟨.inr (.inl ⟨hst, hack⟩), .inl (tcpPcbPurge_una h rfl)⟩
    · cases h; exact ⟨.inl rfl, .inl rfl⟩
  | finWait1 =>
    rw [hst] at h
    obtain ⟨u, hu, h⟩ := bind_ok h
    have hseg : t.segs = u.segs ∧ t.sndUna = u.sndUna := by
      cases h
      split <;> exact ⟨rfl, rfl⟩
    rw [hseg.1, hseg.2]
    split at hu
    · rename_i hf
      exact ⟨.inr (.inr (.inr (.inl ⟨hst, hf.1, hf.2⟩))), .inl (tcpPcbPurge_una hu rfl)⟩
    split at hu
    · cases hu; exact ⟨.inl rfl, .inl rfl⟩
    split at hu <;> · cases hu; exact ⟨.inl rfl, .inl rfl⟩
  | finWait2 =>
    rw [hst] at h
    dsimp only at h
    split at h
    · rename_i hf
      exact ⟨.inr (.inr (.inl ⟨hst, hf⟩)), .inl (tcpPcbPurge_una h rfl)⟩
    · cases h; exact ⟨.inl rfl, .inl rfl⟩
  | closing =>
    rw [hst] at h
    dsimp only at h
    split at h
    · rename_i ha
      exact ⟨.inr (.inr (.inr (.inr ⟨hst, ha⟩))), .inl (tcpPcbPurge_una h rfl)⟩
    · cases h; exact ⟨.inl rfl, .inl rfl⟩
  | timeWait =>
    rw [hst] at h
    cases h
    have hq := (processTimeWait_send s g).1
    exact ⟨.inl hq.queues, .inl hq.una⟩
  | closed | listen =>
    rw [hst] at h
    cases h; exact ⟨.inl rfl, .inl rfl⟩

/-! ## Steps -/

theorem reached_of_not_within {a : Seq} {p : Pbuf} (h1 : ¬ seqGT p.endSeq a) (h2 : ¬ WithinCtl a p) : seqLEQ p.lastSeq a := by
  have hctl : p.flags.ctl ≤ 2 := by
    unfold Flags.ctl
    split <;> split <;> omega
  unfold WithinCtl at h2
  unfold seqGT at h1
  unfold seqLEQ Pbuf.lastSeq
  rw [BitVec.toInt_eq_toNat_cond] at h1 ⊢
  have e1 : (p.endSeq - a).toNat = (2 ^ 32 - (a - p.endSeq).toNat) % 2 ^ 32 := by bv_omega
  have e2 : (p.endSeq + BitVec.ofNat 32 p.flags.ctl - a).toNat = (2 ^ 32 - (a - p.endSeq).toNat + p.flags.ctl) % 2 ^ 32 := by
    bv_omega
  split at h1 <;> split <;> omega

def Safe (t : Pcb) (p : Pbuf) : Prop := Queued t p ∨ Reached t p

theorem processPcb_send (s : Pcb) (g : Segment) : (processPcb s g).state = s.state ∧ (processPcb s g).segs = s.segs ∧
    (processPcb s g).sndUna = s.sndUna ∧ (processPcb s g).sndNxt = s.sndNxt ∧ (processPcb s g).sndNbb = s.sndNbb := by
  obtain ⟨mss, e, -⟩ := tcpParseOption_send g.options s
  unfold processPcb
  rw [e]; exact ⟨rfl, rfl, rfl, rfl, rfl⟩

theorem Frees.may {s u : Pcb} {g : Segment} (h : Frees u g) (hst : u.state = s.state)
    (hnxt : u.sndNxt = s.sndNxt ∨ (seqGEQ s.sndUna g.ackno ∧ ∃ p ∈ s.segs, u.sndNxt = p.endSeq)) : MayFree s g := by
  have hpast : g.ackno = u.sndNxt + 1 → PastNxt s g := by
    intro ha
    rcases hnxt with e | ⟨h1, p, hp, e⟩
    · exact .inl (by rw [ha, e])
    · exact .inr ⟨h1, p, hp, by rw [ha, e]⟩
  unfold MayFree
  rcases h with ⟨h1, h2⟩ | ⟨h1, h2⟩ | ⟨h1, h2, h3, h4⟩ | ⟨h1, h2, h3⟩ <;> rw [← hst, h1]
  · exact h2
  · exact h2
  · exact ⟨h2, h3, hpast h4⟩
  · exact ⟨h2, hpast h3⟩

theorem tcpInput_safe {g : Segment} (hc : SegmentAcks s g) (h : tcpInput s g = .ok t) : ∀ p ∈ s.segs, Safe t p := by
  intro p hp
  obtain ⟨e1, e2, e3, e4, -⟩ := processPcb_send s g
  rcases tcpInput_parts h with ⟨-, rfl | rfl⟩ | ⟨hv, hrst, h⟩ | ⟨hproc, hn, h⟩ | ⟨ha, u, hu, h⟩
  · exact .inl (Pcb.queued hp)
  · obtain ⟨mss, e, -⟩ := tcpParseOption_send g.options s
    rw [e]; exact .inl (Pcb.queued hp)
  · unfold tcpHandleReset at h
    split at h
    · cases h; exact .inl (Pcb.queued hp)
    · rename_i hlt
      obtain ⟨v, hv', h⟩ := bind_ok h
      cases h
      right
      rw [tcpPcbPurge_una hv' rfl]
      exact hc.reset hv hrst (by omega) p hp
  · -- without `ACK` only `FIN_WAIT2` frees the queues
    obtain ⟨h1, h2⟩ := processState_segs h
    rcases h1 with h1 | h1
    · exact .inl (Pcb.queued (by rw [h1, e2]; exact hp))
    · have hr := hc.free hproc (h1.may e1 (.inl e4)) p hp
      have hst : s.state ≠ .timeWait := by
        rw [← e1]
        rcases h1 with ⟨h1, -⟩ | ⟨h1, -⟩ | ⟨h1, -⟩ | ⟨h1, -⟩ <;> rw [h1] <;> decide
      have hns : (processPcb s g).state ≠ .synSent := by
        rcases h1 with ⟨h1, -⟩ | ⟨h1, -⟩ | ⟨h1, -⟩ | ⟨h1, -⟩ <;> rw [h1] <;> decide
      unfold unaAfter at hr
      rw [if_neg fun hk => hn ⟨hk.1, hst⟩] at hr
      right
      show seqLEQ p.lastSeq t.sndUna
      rw [h2.resolve_right fun hk => hns hk.1, e3]; exact hr
  · obtain ⟨hproc, hack, -⟩ := accepts_iff.1 ha
    obtain ⟨e5, h0⟩ := tcpReceive_send hack hu
    rw [e3] at h0
    obtain ⟨h1, h2⟩ := processState_segs h
    -- after `tcp_receive` the segment is queued or acknowledged, and `snd_una` is as the condition has it
    have hmid : (Queued u p ∨ (u.sndUna = g.ackno ∧ seqLEQ p.lastSeq g.ackno)) ∧ u.sndUna = unaAfter s g ∧
        (u.sndNxt = s.sndNxt ∨ (seqGEQ s.sndUna g.ackno ∧ ∃ p ∈ s.segs, u.sndNxt = p.endSeq)) := by
      unfold unaAfter
      rcases h0 with ⟨hge, hr⟩ | ⟨hlt, hr⟩
      · rw [if_neg fun hk => hk.2 hge]
        refine ⟨.inl (hr.kept p (by rw [e2]; exact hp)), hr.una.trans e3, ?_⟩
        rcases hr.nxt with e | e
        · exact .inl (e.trans e4)
        · rw [e2] at e
          exact .inr ⟨hge, e⟩
      · rw [if_pos ⟨hack, hlt⟩]
        refine ⟨?_, hr.una, .inl (hr.nxt.trans e4)⟩
        by_cases hgt : seqGT p.endSeq g.ackno
        · exact .inl (Pcb.queued (hr.kept p (by rw [e2]; exact hp) hgt))
        · exact .inr ⟨hr.una, reached_of_not_within hgt (hc.ctl ha hlt p hp)⟩
    obtain ⟨hmid, huna, hnxt⟩ := hmid
    rcases hmid with ⟨q, hq, hpq⟩ | ⟨h3, h4⟩
    · rcases h1 with h1 | h1
      · exact .inl ⟨q, by rw [h1]; exact hq, hpq⟩
      · have hns : u.state ≠ .synSent := by
          rcases h1 with ⟨h1, -⟩ | ⟨h1, -⟩ | ⟨h1, -⟩ | ⟨h1, -⟩ <;> rw [h1] <;> decide
        right
        show seqLEQ p.lastSeq t.sndUna
        rw [h2.resolve_right fun hk => hns hk.1, huna]
        exact hc.free hproc (h1.may (e5.trans e1) hnxt) p hp
    · right
      show seqLEQ p.lastSeq t.sndUna
      rcases h2 with h2 | ⟨-, h2⟩
      · rw [h2, h3]; exact h4
      · rw [h2]; exact h4

theorem Carried.safe (h : Carried s t) : ∀ p ∈ s.segs, Safe t p := fun p hp => .inl (h.segs p hp)

theorem deviceSent_carried (s : Pcb) (i : Nat) : Carried s (deviceSent s i) := by
  refine ⟨rfl, fun p hp => ?_⟩
  rcases mem_append.1 hp with hp | hp
  · obtain ⟨j, hj⟩ := mem_iff_getElem?.1 hp
    by_cases hij : i = j
    · refine ⟨{ p with count := p.count - 1 }, mem_append_left _ ?_, rfl, rfl, rfl, rfl⟩
      refine mem_iff_getElem?.2 ⟨j, ?_⟩
      show (s.unacked.modify i _)[j]? = _
      rw [hij, getElem?_modify_eq, hj]
      rfl
    · refine Pcb.queued (mem_append_left _ (mem_iff_getElem?.2 ⟨j, ?_⟩))
      show (s.unacked.modify i _)[j]? = _
      rw [getElem?_modify, hj]
      exact congrArg some (if_neg hij)
  · exact Pcb.queued (mem_append_right _ hp)

theorem purge_safe {s t u : Pcb} (hr : ∀ p ∈ s.segs, Reached s p) (h : tcpPcbPurge u = .ok t) (e : u.sndUna = s.sndUna) :
    ∀ p ∈ s.segs, Safe t p := by
  intro p hp
  right
  show seqLEQ p.lastSeq t.sndUna
  rw [tcpPcbPurge_una h e]; exact hr p hp

theorem tcpClose_safe (hr : s.state.val ≤ TcpState.synSent.val → ∀ p ∈ s.segs, Reached s p)
    (h : tcpClose s = .ok t) :
    ∀ p ∈ s.segs, Safe t p := by
  have hfin : ∀ st : TcpState, (tcpEnqueue s (fun _ => 0) 0 tcpFin >>= fun u => tcpOutput { u with state := st }) = .ok t →
      ∀ p ∈ s.segs, Safe t p := by
    intro st h
    obtain ⟨u, hu, h⟩ := bind_ok h
    have h1 : Carried u { u with state := st } := ⟨rfl, fun _ => Pcb.queued⟩
    exact (((tcpEnqueue_keeps hu).trans h1).trans (tcpOutput_resent h).keeps).safe
  unfold tcpClose at h
  cases hst : s.state with
  | closed | synSent | listen =>
    rw [hst] at h
    exact purge_safe (hr (le_of_eq_of_le (congrArg TcpState.val hst) (by decide))) h rfl
  | synRcvd | established => rw [hst] at h; exact hfin .finWait1 h
  | closeWait => rw [hst] at h; exact hfin .lastAck h
  | finWait1 | finWait2 | closing | lastAck | timeWait => rw [hst] at h; cases h; exact (Resent.refl s).keeps.safe

theorem tcpTimeout_safe {type : TcpTimer} (hr : TimeoutEnds s type → ∀ p ∈ s.segs, Reached s p)
    (h : tcpTimeout s type = .ok t) : ∀ p ∈ s.segs, Safe t p := by
  rcases tcpTimeout_parts h with ⟨-, h1⟩ | ⟨hends, -, h1⟩
  · exact h1.keeps.safe
  · intro p hp
    right
    show seqLEQ p.lastSeq t.sndUna
    rw [h1]; exact hr hends p hp

theorem step_safe {s t : State} {a : Act} (hc : AcksAll s a) (h : step s a = .ok t) : ∀ p ∈ s.pcb.segs, Safe t.pcb p := by
  have hsame : ∀ {u : Pcb}, SameSend s.pcb u → ∀ p ∈ s.pcb.segs, Safe u p := fun e => e.resent.keeps.safe
  have hread : ∀ {sizes : List Nat} {u : Pcb} {iov : List Iovec}, recvQueued s.pcb (vectors sizes) = .ok (u, iov) →
      SameSend s.pcb u := fun h => recvQueued_send h
  cases a with
  | connect =>
    obtain ⟨u, hu, h⟩ := bind_ok h
    cases h
    unfold tcpConnect at hu
    split at hu
    · cases hu; exact hsame (.refl _)
    · obtain ⟨v, hv, hu⟩ := bind_ok hu
      have h1 : Carried s.pcb { s.pcb with state := .synSent } := ⟨rfl, fun _ => Pcb.queued⟩
      exact ((h1.trans (tcpEnqueue_keeps hv)).trans (tcpOutput_resent hu).keeps).safe
  | input g =>
    obtain ⟨u, hu, h⟩ := bind_ok h
    cases h; exact tcpInput_safe hc hu
  | send iov flags =>
    obtain ⟨u, hu, h⟩ := bind_ok h
    cases h
    unfold tcpSendmsg at hu
    dsimp only at hu
    split at hu
    · cases hu; exact hsame (.refl _)
    split at hu
    · cases hu; exact hsame (.refl _)
    · obtain ⟨v, hv, hu⟩ := bind_ok hu
      exact ((sendLoop_keeps _ _ _ _ hv).trans (tcpOutput_resent hu).keeps).safe
  | recv sizes =>
    obtain ⟨⟨u, iov⟩, hu, h⟩ := bind_ok h
    cases h
    rcases tcpRecvmsg_cases hu with rfl | hu
    · exact hsame (.refl _)
    · exact hsame (hread hu)
  | resume sizes =>
    obtain ⟨⟨u, iov⟩, hu, h⟩ := bind_ok h
    cases h; exact hsame (hread hu)
  | setsockopt opt val => cases h; exact hsame (tcpSetsockopt_send _ _ _)
  | close =>
    obtain ⟨u, hu, h⟩ := bind_ok h
    cases h; exact tcpClose_safe hc hu
  | timeout type =>
    obtain ⟨u, hu, h⟩ := bind_ok h
    cases h; exact tcpTimeout_safe hc hu
  | slowtimo => cases h; exact hsame ⟨rfl, rfl, rfl, rfl, rfl, rfl, rfl, rfl⟩
  | fastimo =>
    obtain ⟨u, hu, h⟩ := bind_ok h
    cases h
    exact (tcpFastimo_resent hu).keeps.safe
  | sent i => cases h; exact (deviceSent_carried _ _).safe

/-! ## Runs -/

/-- Two bytes are sent and the connection is closed: the `FIN` has the number 8. -/
def sendAndClose : List Act := handshake ++ [Act.setsockopt .nodelay true, .send [(fun _ => 1, 2)] 0, .close]

end Onix.Tcp
