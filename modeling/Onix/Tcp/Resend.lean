/-
What sending, sending again and an acknowledgement do to the queues of the send side. Output moves
segments from one queue to the other and leaves `snd_una`; only an acknowledgement takes them out, and
it looks at the end of their data alone.
-/
import Onix.Tcp.Process
import Onix.Tcp.Sequence

namespace Onix.Tcp

open List Onix.Lib

/-! ## Segments and their copies -/

def Flags.ctl (f : Flags) : Nat := (if f.has tcpSyn then 1 else 0) + if f.has tcpFin then 1 else 0

def Pbuf.lastSeq (p : Pbuf) : Seq := p.endSeq + BitVec.ofNat 32 p.flags.ctl

/-- The same data with the same `SYN` and `FIN`. -/
structure SameSeg (p q : Pbuf) : Prop where
  seqno : q.seqno = p.seqno
  size : q.size = p.size
  syn : q.flags.has tcpSyn = p.flags.has tcpSyn
  fin : q.flags.has tcpFin = p.flags.has tcpFin

theorem SameSeg.refl (p : Pbuf) : SameSeg p p := ⟨rfl, rfl, rfl, rfl⟩

variable {p q : Pbuf}

theorem SameSeg.trans {r : Pbuf} (h1 : SameSeg p q) (h2 : SameSeg q r) : SameSeg p r :=
  ⟨h2.seqno.trans h1.seqno, h2.size.trans h1.size, h2.syn.trans h1.syn, h2.fin.trans h1.fin⟩

theorem SameSeg.endSeq (h : SameSeg p q) : q.endSeq = p.endSeq := by
  unfold Pbuf.endSeq
  rw [h.seqno, h.size]

theorem SameSeg.ctl (h : SameSeg p q) : q.flags.ctl = p.flags.ctl := by
  unfold Flags.ctl
  rw [h.syn, h.fin]

theorem SameSeg.lastSeq (h : SameSeg p q) : q.lastSeq = p.lastSeq := by
  unfold Pbuf.lastSeq
  rw [h.endSeq, h.ctl]

def Pcb.segs (s : Pcb) : List Pbuf := s.unacked ++ s.unsent

def Queued (s : Pcb) (p : Pbuf) : Prop := ∃ q ∈ s.segs, SameSeg p q

variable {s : Pcb}

theorem Pcb.queued (h : p ∈ s.segs) : Queued s p := ⟨p, h, .refl p⟩

theorem has_or_ack (f : Flags) : (f ||| tcpAck).has tcpSyn = f.has tcpSyn ∧ (f ||| tcpAck).has tcpFin = f.has tcpFin := by
  have h1 : (f ||| tcpAck) &&& tcpSyn = f &&& tcpSyn := by
    rw [BitVec.and_or_distrib_right, show tcpAck &&& tcpSyn = 0#8 from rfl, BitVec.or_zero]
  have h2 : (f ||| tcpAck) &&& tcpFin = f &&& tcpFin := by
    rw [BitVec.and_or_distrib_right, show tcpAck &&& tcpFin = 0#8 from rfl, BitVec.or_zero]
  unfold Flags.has
  rw [h1, h2]; exact ⟨rfl, rfl⟩

/-! ## Output -/

/-- The queues hold the same segments, `snd_una` and `snd_nbb` stay, and `snd_nxt` moves to the end of a
segment if at all. -/
structure Resent (s t : Pcb) : Prop where
  una : t.sndUna = s.sndUna
  nbb : t.sndNbb = s.sndNbb
  nxt : t.sndNxt = s.sndNxt ∨ ∃ p ∈ s.segs, t.sndNxt = p.endSeq
  kept : ∀ p ∈ s.segs, Queued t p
  old : ∀ q ∈ t.segs, ∃ p ∈ s.segs, SameSeg p q

theorem Resent.refl (s : Pcb) : Resent s s := ⟨rfl, rfl, .inl rfl, fun _ => Pcb.queued, fun q hq => ⟨q, hq, .refl q⟩⟩

variable {t u : Pcb}

theorem Resent.trans (h1 : Resent s t) (h2 : Resent t u) : Resent s u := by
  refine ⟨h2.una.trans h1.una, h2.nbb.trans h1.nbb, ?_, fun p hp => ?_, fun r hr => ?_⟩
  · rcases h2.nxt with e | ⟨q, hq, e⟩
    · rw [e]; exact h1.nxt
    · obtain ⟨p, hp, hpq⟩ := h1.old q hq
      exact .inr ⟨p, hp, e.trans hpq.endSeq⟩
  · obtain ⟨q, hq, hpq⟩ := h1.kept p hp
    obtain ⟨r, hr, hqr⟩ := h2.kept q hq
    exact ⟨r, hr, hpq.trans hqr⟩
  · obtain ⟨q, hq, hqr⟩ := h2.old r hr
    obtain ⟨p, hp, hpq⟩ := h1.old q hq
    exact ⟨p, hp, hpq.trans hqr⟩

theorem Resent.of_perm (h1 : t.sndUna = s.sndUna) (h2 : t.sndNbb = s.sndNbb) (h3 : t.sndNxt = s.sndNxt)
    (hp : t.segs.Perm s.segs) : Resent s t :=
  ⟨h1, h2, .inl h3, fun _ hq => Pcb.queued (hp.mem_iff.2 hq), fun q hq => ⟨q, hp.mem_iff.1 hq, .refl q⟩⟩

theorem SameSend.queues (h : SameSend s t) : t.segs = s.segs := by
  unfold Pcb.segs
  rw [h.unacked, h.unsent]

theorem SameSend.resent (h : SameSend s t) : Resent s t := .of_perm h.una h.nbb h.nxt (by rw [h.queues])

theorem Resent.sent {p' : Pbuf} {rest : List Pbuf} (hl : s.unsent = p :: rest) (hp : SameSeg p p')
    (e1 : t.sndUna = s.sndUna) (e2 : t.sndNbb = s.sndNbb) (e3 : t.sndNxt = p.endSeq) (e4 : t.unsent = rest)
    (e5 : t.unacked = insertSeg p' s.unacked) : Resent s t := by
  have hs : ∀ q, q ∈ s.segs ↔ q = p ∨ q ∈ s.unacked ++ rest := by
    intro q
    unfold Pcb.segs
    rw [hl]
    simp only [mem_append, mem_cons]
    exact or_left_comm
  have ht : ∀ q, q ∈ t.segs ↔ q = p' ∨ q ∈ s.unacked ++ rest := by
    intro q
    unfold Pcb.segs
    rw [e4, e5, mem_append, insertSeg, mem_listInsertSort, mem_append, or_assoc]
  refine ⟨e1, e2, .inr ⟨p, (hs p).2 (.inl rfl), e3⟩, fun q hq => ?_, fun q hq => ?_⟩
  · rcases (hs q).1 hq with rfl | hq
    · exact ⟨p', (ht p').2 (.inl rfl), hp⟩
    · exact Pcb.queued ((ht q).2 (.inr hq))
  · rcases (ht q).1 hq with rfl | hq
    · exact ⟨p, (hs p).2 (.inl rfl), hp⟩
    · exact ⟨q, (hs q).2 (.inr hq), .refl q⟩

theorem outputLoop_resent {wnd : BitVec 32} : ∀ (l : List Pbuf)
    (s t : Pcb), s.unsent = l → outputLoop wnd l s = .ok t → Resent s t
  | [], s, t, _, h => by cases h; exact .refl s
  | p :: rest, s, t, hl, h => by
    simp only [outputLoop] at h
    split at h
    · cases h; exact .refl s
    split at h
    · cases h
    obtain ⟨p', e, hp⟩ : ∃ p' : Pbuf, p' =
        { p with count := p.count + 1, flags := if p.flags.has tcpSyn then p.flags else p.flags ||| tcpAck } ∧ SameSeg p p' := by
      refine ⟨_, rfl, rfl, rfl, ?_, ?_⟩
      · dsimp only
        split
        · rfl
        · exact (has_or_ack _).1
      · dsimp only
        split
        · rfl
        · exact (has_or_ack _).2
    rw [← e] at h
    have key : ∀ u : Pcb, u.sndUna = s.sndUna → u.sndNbb = s.sndNbb → u.sndNxt = p.endSeq → u.unsent = rest →
        u.unacked = insertSeg p' s.unacked → outputLoop wnd rest u = .ok t → Resent s t := by
      intro u e1 e2 e3 e4 e5 hu
      exact (Resent.sent hl hp e1 e2 e3 e4 e5).trans (outputLoop_resent rest u t e4 hu)
    refine key _ ?_ ?_ ?_ ?_ ?_ h
    · rw [(tcpOutputSeg_send _ _).una]; split <;> rfl
    · rw [(tcpOutputSeg_send _ _).nbb]; split <;> rfl
    · rw [(tcpOutputSeg_send _ _).nxt]
    · rw [(tcpOutputSeg_send _ _).unsent]
    · rw [(tcpOutputSeg_send _ _).unacked]; split <;> rfl

theorem tcpOutput_resent (h : tcpOutput s = .ok t) : Resent s t := by
  unfold tcpOutput at h
  have h1 := (slowStart_send s).resent
  dsimp only at h
  split at h
  · cases h; exact h1
  · obtain ⟨u, hu, h⟩ := bind_ok h
    have h2 := h1.trans (outputLoop_resent _ _ _ rfl hu)
    split at h
    · cases h; exact h2.trans (tcpSendAck_send _ _).resent
    · cases h; exact h2

theorem requeue_resent (s : Pcb) : Resent s (requeue s) := .of_perm rfl rfl rfl (requeue_perm s)

theorem tcpRexmit_resent (h : tcpRexmit s = .ok t) : Resent s t :=
  (requeue_resent s).trans (tcpOutput_resent h)

theorem tcpHandleDuppacks_resent (h : tcpHandleDuppacks s = .ok t) : Resent s t := by
  unfold tcpHandleDuppacks at h
  split at h
  · cases h; exact .refl s
  split at h
  · split at h
    · cases h
    · obtain ⟨u, hu, h⟩ := bind_ok h
      cases h
      have h1 : Resent s (fastRexmit s) := SameSend.resent ⟨rfl, rfl, rfl, rfl, rfl, rfl, rfl, rfl⟩
      exact (h1.trans (tcpRexmit_resent hu)).trans (SameSend.resent ⟨rfl, rfl, rfl, rfl, rfl, rfl, rfl, rfl⟩)
  · have h1 : Resent s { s with sndCwnd := s.sndCwnd + BitVec.ofNat 32 s.sndMss } :=
      SameSend.resent ⟨rfl, rfl, rfl, rfl, rfl, rfl, rfl, rfl⟩
    exact h1.trans (tcpRexmit_resent h)

theorem tcpFastimo_resent (h : tcpFastimo s = .ok t) : Resent s t := by
  unfold tcpFastimo at h
  dsimp only at h
  obtain ⟨u, hu, h1⟩ : ∃ u, u = (if s.ackDelay then { s with ackNow := true } else s) ∧ SameSend s u := by
    refine ⟨_, rfl, ?_⟩
    split
    · exact ⟨rfl, rfl, rfl, rfl, rfl, rfl, rfl, rfl⟩
    · exact .refl _
  rw [← hu] at h
  split at h
  · exact h1.resent.trans (tcpOutput_resent h)
  · cases h; exact h1.resent

/-! ## Segments come in -/

/-- The segments of one state are queued in the other and `snd_una` stays. -/
structure Carried (s t : Pcb) : Prop where
  una : t.sndUna = s.sndUna
  segs : ∀ p ∈ s.segs, Queued t p

theorem Resent.keeps (h : Resent s t) : Carried s t := ⟨h.una, h.kept⟩

theorem Carried.trans (h1 : Carried s t) (h2 : Carried t u) : Carried s u := by
  refine ⟨h2.una.trans h1.una, fun p hp => ?_⟩
  obtain ⟨q, hq, hpq⟩ := h1.segs p hp
  obtain ⟨r, hr, hqr⟩ := h2.segs q hq
  exact ⟨r, hr, hpq.trans hqr⟩

theorem mem_segs_insert (e1 : t.unacked = s.unacked) (e2 : t.unsent = insertSeg p s.unsent) :
    q ∈ t.segs ↔ q = p ∨ q ∈ s.segs := by
  unfold Pcb.segs
  rw [e1, e2, mem_append, insertSeg, mem_listInsertSort, mem_append]
  exact or_left_comm

theorem Carried.insert (e1 : t.unacked = s.unacked) (e2 : t.unsent = insertSeg p s.unsent)
    (e3 : t.sndUna = s.sndUna) : Carried s t := ⟨e3, fun _ hq => Pcb.queued ((mem_segs_insert e1 e2).2 (.inr hq))⟩

variable {f : Flags} {size : Nat} {src : Nat → UInt8}

theorem tcpEnqueueSeg_keeps {ptr : Nat} {left len : Int}
    (h : tcpEnqueueSeg src ptr left size f s = .ok (t, len)) : Carried s t := by
  unfold tcpEnqueueSeg at h
  split at h
  · cases h
  dsimp only at h
  split at h
  · obtain ⟨rfl, -⟩ := Prod.mk.inj (Except.ok.inj h)
    exact ⟨rfl, fun _ => Pcb.queued⟩
  · obtain ⟨rfl, -⟩ := Prod.mk.inj (Except.ok.inj h)
    exact .insert rfl rfl rfl

theorem enqueueLoop_keeps : ∀ (fuel ptr : Nat) (left : Int) (s t : Pcb),
    enqueueLoop src size f fuel ptr left s = .ok t → Carried s t
  | 0, _, _, s, t, h => by cases h; exact (Resent.refl s).keeps
  | fuel + 1, ptr, left, s, t, h => by
    obtain ⟨⟨u, len⟩, hu, h⟩ := bind_ok h
    have h1 := tcpEnqueueSeg_keeps hu
    dsimp only at h
    split at h
    · exact h1.trans (enqueueLoop_keeps fuel _ _ _ _ h)
    · cases h; exact h1

theorem tcpEnqueue_keeps (h : tcpEnqueue s src size f = .ok t) :
    Carried s t := by
  refine Carried.trans ?_ (enqueueLoop_keeps _ _ _ _ _ h)
  split
  · exact ⟨rfl, fun _ => Pcb.queued⟩
  · exact (Resent.refl s).keeps

theorem sendLoop_keeps : ∀ (iov : List ((Nat → UInt8) × Nat)) (left : Nat) (s t : Pcb),
    sendLoop f iov left s = .ok t → Carried s t
  | [], _, s, t, h => by cases h; exact (Resent.refl s).keeps
  | v :: iov, left, s, t, h => by
    unfold sendLoop at h
    split at h
    · cases h; exact (Resent.refl s).keeps
    split at h
    · exact sendLoop_keeps iov left s t h
    · obtain ⟨u, hu, h⟩ := bind_ok h
      exact (tcpEnqueue_keeps hu).trans (sendLoop_keeps iov _ _ _ h)

/-! ## Acknowledgements -/

/-- What an acknowledgement of something new does: only the end of the data decides what stays. -/
structure Advanced (s : Pcb) (ackno : Seq) (t : Pcb) : Prop where
  una : t.sndUna = ackno
  nxt : t.sndNxt = s.sndNxt
  nbb : t.sndNbb = s.sndNbb
  kept : ∀ p ∈ s.segs, seqGT p.endSeq ackno → p ∈ t.segs

theorem flushBuf_segs (s : Pcb) (ackno : Seq) : (flushBuf s ackno).sndUna = s.sndUna ∧ (flushBuf s ackno).sndNxt = s.sndNxt ∧
    (flushBuf s ackno).sndNbb = s.sndNbb ∧ ∀ p ∈ s.segs, p ∈ (flushBuf s ackno).segs := by
  unfold flushBuf
  cases hb : s.sndBuf with
  | none => exact ⟨rfl, rfl, rfl, fun _ => id⟩
  | some q =>
    have hin : ∀ t : Pcb, t.unacked = s.unacked → t.unsent = insertSeg q s.unsent → ∀ p ∈ s.segs, p ∈ t.segs :=
      fun t e1 e2 p hp => (mem_segs_insert e1 e2).2 (.inr hp)
    dsimp only
    split
    · exact ⟨rfl, rfl, rfl, hin _ rfl rfl⟩
    · exact ⟨rfl, rfl, rfl, fun _ => id⟩

theorem tcpUpdateAck_send {g : Segment} (h : tcpUpdateAck s g = .ok t) :
    (seqGEQ s.sndUna g.ackno ∧ Resent s t) ∨ (¬ seqGEQ s.sndUna g.ackno ∧ Advanced s g.ackno t) := by
  unfold tcpUpdateAck at h
  split at h
  · rename_i hge
    refine .inl ⟨hge, ?_⟩
    split at h
    · have h1 : Resent s { s with dupacks := s.dupacks + 1 } := SameSend.resent ⟨rfl, rfl, rfl, rfl, rfl, rfl, rfl, rfl⟩
      exact h1.trans (tcpHandleDuppacks_resent h)
    · cases h; exact SameSend.resent ⟨rfl, rfl, rfl, rfl, rfl, rfl, rfl, rfl⟩
  · rename_i hlt
    refine .inr ⟨hlt, ?_⟩
    obtain ⟨u, hu, h⟩ := bind_ok h
    cases h
    obtain ⟨v, hv, e1, e2, e3, e4, e5⟩ : ∃ v, v = advanceUna (growCwnd s) g.ackno ∧ v.sndUna = g.ackno ∧ v.sndNxt = s.sndNxt ∧
        v.sndNbb = s.sndNbb ∧ v.unacked = s.unacked ∧ v.unsent = s.unsent := by
      refine ⟨_, rfl, ?_⟩
      unfold advanceUna growCwnd tcpXmitTimer
      split <;> split <;> exact ⟨rfl, rfl, rfl, rfl, rfl⟩
    rw [← hv] at hu
    unfold dropAcked at hu
    split at hu
    · cases hu
    cases hu
    have hmem : ∀ p ∈ s.segs, seqGT p.endSeq g.ackno →
        p ∈ (v.unacked.filter fun p => decide (seqGT p.endSeq g.ackno)) ++ v.unsent.filter fun p => decide
        (seqGT p.endSeq g.ackno) := by
      intro p hp hgt
      rw [e4, e5, ← filter_append]
      exact mem_filter.2 ⟨hp, decide_eq_true hgt⟩
    obtain ⟨f1, f2, f3, f4⟩ := flushBuf_segs { v with
      unacked := v.unacked.filter fun p => decide (seqGT p.endSeq g.ackno)
      unsent := v.unsent.filter fun p => decide (seqGT p.endSeq g.ackno) } g.ackno
    exact ⟨f1.trans e1, f2.trans e2, f3.trans e3, fun p hp hgt => f4 p (hmem p hp hgt)⟩

theorem tcpReceive_send {g : Segment} (hack : g.flags.has tcpAck = true) (h : tcpReceive s g = .ok t) :
    t.state = s.state ∧ ((seqGEQ s.sndUna g.ackno ∧ Resent s t) ∨ (¬ seqGEQ s.sndUna g.ackno ∧ Advanced s g.ackno t)) := by
  obtain ⟨w, hw, e⟩ := tcpReceive_recv h
  obtain ⟨u, hu, h⟩ := bind_ok h
  rw [if_pos hack] at hu
  cases h
  have h0 := tcpUpdateWnd_send s g
  have hb : SameSend u (if 0 < g.size then tcpUpdateBuf u g else u) := by
    split
    · exact tcpUpdateBuf_send u g
    · exact .refl u
  refine ⟨?_, ?_⟩
  · rw [e]
    split
    · rw [tcpUpdateBuf_state, hw.state]
    · exact hw.state
  · rw [← h0.una]
    refine (tcpUpdateAck_send hu).imp ?_ ?_
    · rintro ⟨hge, h1⟩
      exact ⟨hge, (h0.resent.trans h1).trans hb.resent⟩
    · rintro ⟨hlt, h1⟩
      refine ⟨hlt, hb.una.trans h1.una, hb.nxt.trans (h1.nxt.trans h0.nxt), hb.nbb.trans (h1.nbb.trans h0.nbb), ?_⟩
      rw [hb.queues, ← h0.queues]
      exact h1.kept

/-! ## Timers -/

def TimeoutEnds (s : Pcb) : TcpTimer → Prop
  | .syn => s.state = .synSent ∨ s.state = .synRcvd
  | .rexmit => 12 < s.rtxCnt + 1
  | .persist => False
  | .keepalive => s.keepalive = true ∧ TcpState.established.val ≤ s.state.val ∧ 1200 < s.idle
  | .finWait2 | .timewait => True

instance (s : Pcb) : (type : TcpTimer) → Decidable (TimeoutEnds s type)
  | .syn => inferInstanceAs (Decidable (_ ∨ _))
  | .rexmit => inferInstanceAs (Decidable (_ < _))
  | .persist => inferInstanceAs (Decidable False)
  | .keepalive => inferInstanceAs (Decidable (_ ∧ _))
  | .finWait2 | .timewait => inferInstanceAs (Decidable True)

theorem tcpPcbPurge_una (h : tcpPcbPurge u = .ok t) (e : u.sndUna = s.sndUna) : t.sndUna = s.sndUna := by
  rw [tcpPcbPurge_numbers h, ← e]

theorem tcpTimeout_parts {type : TcpTimer} (h : tcpTimeout s type = .ok t) :
    (SameRecv s t ∧ Resent s t) ∨ (TimeoutEnds s type ∧ t.state = .closed ∧ t.sndUna = s.sndUna) := by
  have hend : ∀ u : Pcb, u.sndUna = s.sndUna → (tcpPcbPurge u >>= fun v => Except.ok { v with state := .closed }) = .ok t →
      t.state = .closed ∧ t.sndUna = s.sndUna := by
    intro u e h
    obtain ⟨v, hv, h⟩ := bind_ok h
    have h1 := tcpPcbPurge_una hv e
    cases h; exact ⟨rfl, h1⟩
  have hsame : SameRecv s s ∧ Resent s s := ⟨.refl s, .refl s⟩
  cases type with
  | syn =>
    unfold tcpTimeout at h
    dsimp only at h
    split at h
    · cases h; exact .inl hsame
    · rename_i hst
      refine .inr ⟨?_, hend s rfl h⟩
      tauto
  | rexmit =>
    unfold tcpTimeout at h
    dsimp only at h
    split at h
    · rename_i hmax
      refine .inr ⟨hmax, hend _ ?_ h⟩
      rfl
    · left
      have h1 : SameSend s { s with rtxCnt := s.rtxCnt + 1, rto := tcpUpdateRto s (tcpBackoff (s.rtxCnt + 1).toNat) } :=
        ⟨rfl, rfl, rfl, rfl, rfl, rfl, rfl, rfl⟩
      have h2 := tcpRexmit_recv h
      exact ⟨⟨h2.state, h2.recved, h2.rcvNxt, h2.rcvWnd⟩, h1.resent.trans (tcpRexmit_resent h)⟩
  | persist =>
    cases h
    left
    split
    · exact ⟨⟨rfl, rfl, rfl, rfl⟩, SameSend.resent ⟨rfl, rfl, rfl, rfl, rfl, rfl, rfl, rfl⟩⟩
    · exact hsame
  | keepalive =>
    unfold tcpTimeout at h
    dsimp only at h
    split at h
    · cases h; exact .inl hsame
    · rename_i hk
      rw [not_or, not_or, not_not] at hk
      exact .inr ⟨⟨Bool.eq_true_of_not_eq_false hk.1, by omega, hk.2.2⟩, hend s rfl h⟩
  | finWait2 | timewait => exact .inr ⟨trivial, (tcpPcbPurge_recv h).2, tcpPcbPurge_una h rfl⟩

end Onix.Tcp
