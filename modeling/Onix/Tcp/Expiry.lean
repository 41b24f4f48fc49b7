/-
What the timers of a connection do over a run. Every function that moves segments to `unacked` starts
the retransmission timer, so it runs while segments wait there. What `CLOSED` should mean is more
than the code keeps: a timeout that moves the pcb there leaves the other timers running and
`rtx_cnt` as it is. `ClosesAlone` is the condition under which neither shows.
-/
import Onix.Tcp.Timers

namespace Onix.Tcp

open List Onix.Lib

/-! ## Partial results -/

abbrev Ensures {α : Type} (r : Except Fault α) (Q : α → Prop) : Prop := Sat (fun _ => False) r Q

theorem ensures_of_divides {α : Type} {r : Except Fault α} {Q : α → Prop} (h : Divides r Q) : Ensures r Q := by
  cases r with
  | error e => exact fun hf => hf
  | ok a => exact h

theorem ensures_error {α : Type} {e : Fault} {Q : α → Prop} : Ensures (.error e : Except Fault α) Q := fun hf => hf

/-! ## The retransmission timer -/

/-- The timeout is in its range, and the retransmission timer runs while segments wait in `unacked`. -/
structure Armed (t : Timed) : Prop where
  rttmin : t.pcb.rttmin = BitVec.ofNat 32 tcpToMin
  rto : tcpToMin ≤ t.pcb.rto.toNat ∧ t.pcb.rto.toNat ≤ tcpToRexmitMax
  running : t.pcb.unacked ≠ [] → t.timers.rexmit ≠ 0

variable {t : Timed}

theorem Armed.rto_ne (h : Armed t) : t.pcb.rto.toNat ≠ 0 := by
  have h1 : 2 ≤ t.pcb.rto.toNat := h.rto.1
  omega

/-- A function keeps `Armed`, and leaves `rtx_cnt` or clears it. -/
structure Follows (t t' : Timed) : Prop where
  armed : Armed t → Armed t'
  count : t'.pcb.rtxCnt = t.pcb.rtxCnt ∨ t'.pcb.rtxCnt = 0

theorem Follows.refl (t : Timed) : Follows t t := ⟨id, .inl rfl⟩

theorem Follows.trans {u v : Timed} (h1 : Follows t u) (h2 : Follows u v) : Follows t v := by
  refine ⟨fun h => h2.armed (h1.armed h), ?_⟩
  rcases h2.count with e | e
  · rw [e]; exact h1.count
  · exact .inr e

theorem Follows.after {u v : Timed} (h2 : Follows u v) (h1 : Follows t u) : Follows t v := h1.trans h2

variable {t' : Timed}

theorem Follows.same (h1 : t'.pcb.rttmin = t.pcb.rttmin) (h2 : t'.pcb.rto = t.pcb.rto)
    (h3 : t'.pcb.rtxCnt = t.pcb.rtxCnt) (hu : t'.pcb.unacked ≠ [] → t.pcb.unacked ≠ [])
    (ht : t'.timers.rexmit = t.timers.rexmit) : Follows t t' := by
  refine ⟨fun h => ⟨h1.trans h.rttmin, by rw [h2]; exact h.rto, fun hn => ?_⟩, .inl h3⟩
  rw [ht]
  exact h.running (hu hn)

theorem Follows.paced (hp : Paced t.pcb t'.pcb) (hu : t'.pcb.unacked ≠ [] → t.pcb.unacked ≠ [])
    (ht : t'.timers.rexmit = t.timers.rexmit) : Follows t t' :=
  .same (congrArg Ctl.rttmin hp) (congrArg Ctl.rto hp) (congrArg Ctl.rtxCnt hp) hu ht

theorem Follows.started (h1 : t'.pcb.rttmin = t.pcb.rttmin) (h2 : t'.pcb.rto = t.pcb.rto)
    (h3 : t'.pcb.rtxCnt = t.pcb.rtxCnt) (ht : t'.timers.rexmit = t'.pcb.rto.toNat) : Follows t t' := by
  refine ⟨fun h => ⟨h1.trans h.rttmin, by rw [h2]; exact h.rto, fun _ => ?_⟩, .inl h3⟩
  rw [ht, h2]
  exact h.rto_ne

/-! ## Output -/

/-- What `tcp_output` does to the timers: none without a segment, the retransmission timer with one. -/
structure OutputT (t t' : Timed) : Prop where
  follows : Follows t t'
  state : t'.pcb.state = t.pcb.state
  timers : t'.timers = t.timers ∨ (t.pcb.unsent ≠ [] ∧ ∃ n, t'.timers = t.timers.set n .rexmit)
  queues : t.pcb.unsent = [] → t.pcb.unacked = [] → t'.pcb.unsent = [] ∧ t'.pcb.unacked = []
  alive : t'.alive = t.alive
  pace : t'.pcb.rttmin = t.pcb.rttmin ∧ t'.pcb.rto = t.pcb.rto ∧ t'.pcb.rtxCnt = t.pcb.rtxCnt ∧
    t'.pcb.idle = t.pcb.idle ∧ t'.pcb.keepalive = t.pcb.keepalive

theorem outputT_spec (t : Timed) : Ensures (outputT t) (OutputT t) := by
  have hlog := tcpOutputLog_handsOver t.pcb
  have hsnd := tcpOutputLog_snd t.pcb
  have hpaced : Ensures (tcpOutputLog t.pcb).2 (Paced (slowStart t.pcb)) := by
    rw [hsnd]
    exact ensures_of_divides (tcpOutput_paced t.pcb)
  refine hpaced.bind fun p hp hctl => Sat.ok ?_
  obtain ⟨h1, h2⟩ := hlog.moved p hp
  have hs := slowStart_send t.pcb
  have h3 : p.state = t.pcb.state := by
    rw [hsnd] at hp
    exact (tcpOutput_recv hp).state
  have hc : p.rttmin = t.pcb.rttmin ∧ p.rto = t.pcb.rto ∧ p.rtxCnt = t.pcb.rtxCnt ∧ p.idle = t.pcb.idle ∧
      p.keepalive = t.pcb.keepalive := by
    refine ⟨(congrArg Ctl.rttmin hctl).trans ?_, (congrArg Ctl.rto hctl).trans ?_, (congrArg Ctl.rtxCnt hctl).trans ?_,
      (congrArg Ctl.idle hctl).trans ?_, (congrArg Ctl.keepalive hctl).trans ?_⟩
    all_goals rcases slowStart_cases t.pcb with e | e <;> rw [e] <;> rfl
  -- without a segment in `unsent` nothing is handed over
  have hlen : t.pcb.unsent = [] → (tcpOutputLog t.pcb).1 = [] := fun hun => by
    have := hlog.order
    rw [hs.unsent, hun, take_nil, map_nil] at this
    exact map_eq_nil_iff.1 this
  refine ⟨?_, h3, ?_, fun hun hua => ?_, rfl, hc⟩
  · by_cases hnil : (tcpOutputLog t.pcb).1 = []
    · refine .same hc.1 hc.2.1 hc.2.2.1 (fun hn hu => hn ?_) (by rw [if_pos hnil])
      rw [hnil, map_nil, nil_append, hs.unacked, hu] at h2
      exact h2.eq_nil
    · exact .started hc.1 hc.2.1 hc.2.2.1 (by rw [if_neg hnil]; rfl)
  · by_cases hnil : (tcpOutputLog t.pcb).1 = []
    · exact .inl (if_pos hnil)
    · exact .inr ⟨fun hun => hnil (hlen hun), _, if_neg hnil⟩
  · rw [hlen hun, hs.unsent, hun] at h1
    rw [hlen hun, hs.unacked, hua] at h2
    exact ⟨h1, h2.eq_nil⟩

theorem rexmitT_follows (t : Timed) : Ensures (rexmitT t) (Follows t) := by
  refine (outputT_spec _).bind fun u _ hu => Sat.ok ?_
  have h1 : Follows t { t with pcb := requeue t.pcb } := by
    refine .same rfl rfl rfl (fun hn he => hn ?_) rfl
    show t.pcb.unacked.filter _ = []
    rw [he, filter_nil]
  exact (h1.trans hu.follows).trans (.started rfl rfl rfl rfl)

theorem rexmitT_starts (h1 : t.pcb.rttmin = BitVec.ofNat 32 tcpToMin)
    (h2 : tcpToMin ≤ t.pcb.rto.toNat ∧ t.pcb.rto.toNat ≤ tcpToRexmitMax) : Ensures (rexmitT t) Armed := by
  refine (outputT_spec _).bind fun u _ hu => Sat.ok ?_
  have hrto : tcpToMin ≤ u.pcb.rto.toNat ∧ u.pcb.rto.toNat ≤ tcpToRexmitMax := by
    rw [hu.pace.2.1]; exact h2
  refine ⟨hu.pace.1.trans h1, hrto, fun _ => ?_⟩
  have h3 : 2 ≤ u.pcb.rto.toNat := hrto.1
  show u.pcb.rto.toNat ≠ 0
  omega

theorem rexmitT_frame (t : Timed) : Ensures (rexmitT t) fun u => u.pcb.state = t.pcb.state ∧
    u.pcb.keepalive = t.pcb.keepalive ∧ u.pcb.idle = t.pcb.idle ∧ u.pcb.rtxCnt = t.pcb.rtxCnt ∧
    u.timers.keepalive = t.timers.keepalive := by
  refine (outputT_spec _).bind fun u _ hu => Sat.ok ?_
  obtain ⟨-, -, e1, e2, e3⟩ := hu.pace
  refine ⟨hu.state, e3, e2, e1, ?_⟩
  show u.timers.keepalive = t.timers.keepalive
  rcases hu.timers with e | ⟨-, n, e⟩
  · rw [e]
  · rw [e]; rfl

/-! ## Input -/

theorem updateWndT_follows (t : Timed) (g : Segment) : Follows t (updateWndT t g) := by
  unfold updateWndT
  split
  · refine .paced (tcpUpdateWnd_paced t.pcb g) (fun h => ?_) rfl
    rwa [(tcpUpdateWnd_send t.pcb g).unacked] at h
  · exact .refl t

theorem handleDuppacksT_follows (t : Timed) : Ensures (handleDuppacksT t) (Follows t) := by
  refine sat_ite (fun _ => Sat.ok (.refl t)) fun _ => sat_ite (fun _ => ?_) fun _ => ?_
  · refine sat_ite (fun _ => ensures_error) fun _ => ?_
    refine (rexmitT_follows _).bind fun u _ hu => Sat.ok ?_
    have h1 : Follows t u := hu.after (.same rfl rfl rfl id rfl)
    exact h1.trans (.same rfl rfl rfl id rfl)
  · exact (rexmitT_follows _).mono fun u hu => hu.after (.same rfl rfl rfl id rfl)

theorem advanceUna_armed (h : Armed t) (a : Seq) : Armed { t with pcb := advanceUna t.pcb a } := by
  unfold advanceUna
  split
  · exact ⟨h.rttmin, tcpUpdateRto_range _ 1 h.rttmin, h.running⟩
  · exact ⟨h.rttmin, h.rto, h.running⟩

theorem growCwnd_same (s : Pcb) : (growCwnd s).rttmin = s.rttmin ∧ (growCwnd s).rto = s.rto ∧
    (growCwnd s).rtxCnt = s.rtxCnt ∧ (growCwnd s).unacked = s.unacked := by
  unfold growCwnd
  split <;> exact ⟨rfl, rfl, rfl, rfl⟩

theorem dropAcked_unacked (s : Pcb) (a : Seq) : Ensures (dropAcked s a) fun p => p.unacked ≠ [] → s.unacked ≠ [] := by
  refine sat_ite (fun _ => ensures_error) fun _ => Sat.ok fun hn he => hn ?_
  rw [he, filter_nil]

theorem flushBuf_unacked (s : Pcb) (a : Seq) : (flushBuf s a).unacked = s.unacked := by
  unfold flushBuf
  split
  · split <;> rfl
  · rfl

theorem updateAckT_follows (t : Timed) (g : Segment) : Ensures (updateAckT t g) (Follows t) := by
  refine sat_ite (fun _ => sat_ite (fun _ => ?_) fun _ => Sat.ok (.same rfl rfl rfl id rfl)) fun _ => ?_
  · exact (handleDuppacksT_follows _).mono fun u hu => hu.after (.same rfl rfl rfl id rfl)
  · obtain ⟨e1, e2, e3, e4⟩ := growCwnd_same t.pcb
    have h1 : Follows t { t with pcb := growCwnd t.pcb } := .same e1 e2 e3 (fun h => by rwa [e4] at h) rfl
    have h2 : Follows { t with pcb := growCwnd t.pcb } { t with pcb := advanceUna (growCwnd t.pcb) g.ackno } := by
      refine ⟨fun h => advanceUna_armed h g.ackno, .inr ?_⟩
      rfl
    refine (ensures_of_divides (dropAcked_paced _ g.ackno)).bind fun p hp hpaced => Sat.ok ?_
    have hun := (dropAcked_unacked (advanceUna (growCwnd t.pcb) g.ackno) g.ackno).of_ok hp
    have h3 : Follows { t with pcb := advanceUna (growCwnd t.pcb) g.ackno } { t with pcb := flushBuf p g.ackno } := by
      refine .paced (hpaced.trans (flushBuf_paced p g.ackno)) (fun h => hun ?_) rfl
      rwa [show (flushBuf p g.ackno).unacked = p.unacked from flushBuf_unacked p g.ackno] at h
    refine ((h1.trans h2).trans h3).trans ?_
    split
    · rename_i hnil
      exact ⟨fun h => ⟨h.rttmin, h.rto, fun hn => absurd hnil.1 hn⟩, .inl rfl⟩
    · exact .refl _

theorem receiveT_follows (t : Timed) (g : Segment) : Ensures (receiveT t g) (Follows t) := by
  refine Sat.bind (Q := Follows t) (sat_ite (fun _ => ?_) fun _ => Sat.ok (.refl t)) fun u _ hu => Sat.ok ?_
  · exact (updateAckT_follows _ g).mono fun u hu => (updateWndT_follows t g).trans hu
  · refine hu.trans ?_
    split
    · refine .paced (tcpUpdateBuf_paced u.pcb g) (fun h => ?_) rfl
      rwa [(tcpUpdateBuf_send u.pcb g).unacked] at h
    · exact .refl u

theorem tcpPcbPurge_empty (s : Pcb) : Ensures (tcpPcbPurge s) fun p => p.unsent = [] ∧ p.unacked = [] ∧ p.state = s.state := by
  exact sat_ite (fun _ => ensures_error) fun _ => Sat.ok ⟨rfl, rfl, rfl⟩

/-- `tcp_pcb_purge` empties the queues and leaves the timers. -/
structure Purged (t t' : Timed) : Prop where
  paced : Paced t.pcb t'.pcb
  unsent : t'.pcb.unsent = []
  unacked : t'.pcb.unacked = []
  state : t'.pcb.state = t.pcb.state
  timers : t'.timers = t.timers
  alive : t'.alive = t.alive

theorem purgeT_purged (t : Timed) : Ensures (purgeT t) (Purged t) := by
  refine (tcpPcbPurge_empty t.pcb).bind fun p hp ⟨h1, h2, h3⟩ => Sat.ok ?_
  exact ⟨(ensures_of_divides (tcpPcbPurge_paced t.pcb)).of_ok hp, h1, h2, h3, rfl, rfl⟩

theorem Purged.follows (h : Purged t t') : Follows t t' :=
  .paced h.paced (fun hn => absurd h.unacked hn) (by rw [h.timers])

def Shrinks (s t : Pcb) : Prop := t.unacked = s.unacked ∨ t.unacked = []

variable {s : Pcb}

theorem Shrinks.ne {t : Pcb} (h : Shrinks s t) (hn : t.unacked ≠ []) : s.unacked ≠ [] := by
  rcases h with e | e
  · rwa [e] at hn
  · exact absurd e hn

theorem purge_shrinks {u : Pcb} : Ensures (tcpPcbPurge u) (Shrinks s) :=
  (tcpPcbPurge_empty u).mono fun _ h => .inr h.2.1

theorem processFinWait1_shrinks (s : Pcb) (g : Segment) : Ensures (processFinWait1 s g) (Shrinks s) := by
  refine Sat.bind (Q := Shrinks s) ?_ fun t _ ht => Sat.ok ?_
  · refine sat_ite (fun _ => purge_shrinks) fun _ => sat_ite (fun _ => Sat.ok (.inl rfl)) fun _ => ?_
    exact sat_ite (fun _ => Sat.ok (.inl rfl)) fun _ => Sat.ok (.inl rfl)
  · split <;> exact ht

theorem processState_shrinks (s : Pcb) (g : Segment) : Ensures (processState s g) (Shrinks s) := by
  unfold processState
  split
  · refine Sat.ok (.inl ?_)
    unfold tcpHandleSynSent tcpSendAck tcpOutputSeg
    dsimp only
    split
    · rfl
    split
    · rfl
    split
    · split <;> rfl
    · rfl
  · exact sat_ite (fun _ => Sat.ok (.inl rfl)) fun _ => Sat.ok (.inl rfl)
  · exact sat_ite (fun _ => Sat.ok (.inl rfl)) fun _ => Sat.ok (.inl rfl)
  · exact sat_ite (fun _ => Sat.ok (.inl rfl)) fun _ => Sat.ok (.inl rfl)
  · exact sat_ite (fun _ => purge_shrinks) fun _ => Sat.ok (.inl rfl)
  · exact processFinWait1_shrinks s g
  · exact sat_ite (fun _ => purge_shrinks) fun _ => Sat.ok (.inl rfl)
  · exact sat_ite (fun _ => purge_shrinks) fun _ => Sat.ok (.inl rfl)
  · exact Sat.ok (.inl (processTimeWait_send s g).1.unacked)
  · exact Sat.ok (.inl rfl)
  · exact Sat.ok (.inl rfl)

theorem processStateT_follows (t : Timed) (g : Segment) : Ensures (processStateT t g) (Follows t) := by
  refine (ensures_of_divides (processState_paced t.pcb g)).bind fun p hp hpaced => ?_
  have hun := (processState_shrinks t.pcb g).of_ok hp
  refine sat_ite (fun _ => ?_) fun _ => sat_ite (fun _ => ?_) fun _ => sat_ite (fun _ => ?_) fun _ => ?_
  all_goals exact Sat.ok (.paced hpaced hun.ne rfl)

theorem handleResetT_follows (t : Timed) : Ensures (handleResetT t) (Follows t) := by
  refine sat_ite (fun _ => Sat.ok (.refl t)) fun _ => ?_
  refine (purgeT_purged t).bind fun u _ hu => Sat.ok ?_
  exact hu.follows.trans (.same rfl rfl rfl id rfl)

theorem inputT_follows (t : Timed) (g : Segment) : Ensures (inputT t g) (Follows t) := by
  refine sat_ite (fun _ => Sat.ok (.refl t)) fun _ => sat_ite (fun _ => Sat.ok (.refl t)) fun _ => ?_
  refine sat_ite (fun _ => handleResetT_follows t) fun _ => ?_
  obtain ⟨mss, e, -⟩ := tcpParseOption_send g.options t.pcb
  generalize tcpParseOption t.pcb g.options = r at e
  obtain ⟨p, ok⟩ := r
  subst e
  refine sat_ite (fun _ => Sat.ok (.same rfl rfl rfl id rfl)) fun _ => ?_
  -- the keepalive timer is not the retransmission timer
  have key : ∀ u : Timed, Follows t u →
      Ensures ((if g.flags.has tcpAck ∧ u.pcb.state ≠ .timeWait then receiveT u g else .ok u) >>= fun u => processStateT u g)
        (Follows t) := by
    intro u hu
    refine Sat.bind (Q := Follows t) (sat_ite (fun _ => ?_) fun _ => Sat.ok hu) fun v _ hv => ?_
    · exact (receiveT_follows u g).mono fun v hv => hu.trans hv
    · exact (processStateT_follows v g).mono fun w hw => hv.trans hw
  refine key _ ?_
  split
  · exact .same rfl rfl rfl id rfl
  · exact .same rfl rfl rfl id rfl

/-! ## Calls -/

theorem tcpEnqueue_follows (t : Timed) (src : Nat → UInt8) (size : Nat) (f : Flags) (hc : Paced t.pcb s)
    (hu : s.unacked = t.pcb.unacked) : Ensures (tcpEnqueue s src size f) fun p => Follows t { t with pcb := p } := by
  refine (ensures_of_divides (tcpEnqueue_paced s src size f)).imp fun p hp hctl => ?_
  refine .same ?_ ?_ ?_ (fun h => ?_) rfl
  · exact (congrArg Ctl.rttmin hctl).trans (congrArg Ctl.rttmin hc)
  · exact (congrArg Ctl.rto hctl).trans (congrArg Ctl.rto hc)
  · exact (congrArg Ctl.rtxCnt hctl).trans (congrArg Ctl.rtxCnt hc)
  · rwa [tcpEnqueue_unacked hp, hu] at h

theorem sendLoop_follows (f : Flags) : ∀ (iov : List ((Nat → UInt8) × Nat)) (left : Nat) (t : Timed),
    Ensures (sendLoop f iov left t.pcb) fun p => Follows t { t with pcb := p }
  | [], _, t => Sat.ok (.refl t)
  | v :: iov, left, t => by
    refine sat_ite (fun _ => Sat.ok (.refl t)) fun _ => sat_ite (fun _ => sendLoop_follows f iov left t) fun _ => ?_
    refine (tcpEnqueue_follows t v.1 _ f rfl rfl).bind fun p _ hp => ?_
    exact (sendLoop_follows f iov _ { t with pcb := p }).mono fun q hq => hp.trans hq

theorem connectT_follows (t : Timed) : Ensures (connectT t) (Follows t) := by
  refine sat_ite (fun _ => Sat.ok (.refl t)) fun _ => ?_
  refine (tcpEnqueue_follows t (s := { t.pcb with state := .synSent }) _ 0 tcpSyn rfl rfl).bind fun p _ hp => ?_
  refine (outputT_spec { t with pcb := p }).bind fun u _ hu => Sat.ok ?_
  exact (hp.trans hu.follows).trans (.same rfl rfl rfl id rfl)

theorem closeT_follows (t : Timed) : Ensures (closeT t) (Follows t) := by
  have hpurge : Ensures (purgeT { t with pcb := { t.pcb with state := .closed }, alive := false }) (Follows t) :=
    (purgeT_purged _).mono fun u hu => hu.follows.after (.same rfl rfl rfl id rfl)
  have hfin : ∀ st, Ensures (tcpEnqueue t.pcb (fun _ => 0) 0 tcpFin >>= fun p => outputT { t with pcb := { p with state := st } })
      (Follows t) := by
    intro st
    refine (tcpEnqueue_follows t _ 0 tcpFin rfl rfl).bind fun p _ hp => ?_
    refine (outputT_spec _).mono fun u hu => ?_
    have h1 : Follows { t with pcb := p } u := hu.follows.after (.same rfl rfl rfl id rfl)
    exact hp.trans h1
  unfold closeT
  split
  · exact hpurge
  · exact hpurge
  · exact hpurge
  · exact hfin _
  · exact hfin _
  · exact hfin _
  · exact Sat.ok (.refl t)

theorem sendmsgT_follows (t : Timed) (iov : List ((Nat → UInt8) × Nat)) (f : Flags) : Ensures (sendmsgT t iov f) (Follows t) := by
  refine sat_ite (fun _ => Sat.ok (.refl t)) fun _ => sat_ite (fun _ => Sat.ok (.refl t)) fun _ => ?_
  refine (sendLoop_follows f iov _ t).bind fun p _ hp => (outputT_spec _).bind fun u _ hu => Sat.ok ?_
  refine (hp.trans hu.follows).trans ?_
  split
  · exact .refl u
  · exact .same rfl rfl rfl id rfl

theorem setsockoptT_follows (t : Timed) (opt : SockOpt) (val : Bool) : Follows t (setsockoptT t opt val) := by
  cases opt with
  | keepalive => exact .same rfl rfl rfl id rfl
  | nodelay => exact .same rfl rfl rfl id rfl
  | quickack => exact .same rfl rfl rfl id rfl

theorem OutputT.refl (t : Timed) : OutputT t t :=
  ⟨.refl t, rfl, .inl rfl, fun h1 h2 => ⟨h1, h2⟩, rfl, rfl, rfl, rfl, rfl, rfl⟩

theorem fastimoT_spec (t : Timed) : Ensures (fastimoT t) (OutputT t) := by
  unfold fastimoT
  -- `TF_ACK_NOW` is not a field that the timers go by
  have hack : ∀ u, OutputT { t with pcb := { t.pcb with ackNow := true } } u → OutputT t u := fun u hu =>
    ⟨hu.follows.after (.same rfl rfl rfl id rfl), hu.state, hu.timers, hu.queues, hu.alive, hu.pace⟩
  split
  · exact sat_ite (fun _ => (outputT_spec _).mono hack) fun _ => Sat.ok (hack _ (.refl _))
  · exact sat_ite (fun _ => outputT_spec t) fun _ => Sat.ok (.refl t)

/-! ## A round of the slow timer -/

/-- The pcb is in `CLOSED` with nothing queued, and no timer runs that would do more than check its state. -/
structure Still (t : Timed) : Prop where
  state : t.pcb.state = .closed
  unsent : t.pcb.unsent = []
  unacked : t.pcb.unacked = []
  rexmit : t.timers.rexmit = 0
  persist : t.timers.persist = 0
  finWait2 : t.timers.finWait2 = 0
  timewait : t.timers.timewait = 0

/-- The entry of `tcp_backoff` exists, and a pcb that a timeout has closed is left alone. -/
structure Expiry.Fine (e : Expiry) : Prop where
  index : ∀ n ∈ e.index, n ≤ tcpMaxrxtcnt
  closed : e.closed = true → e.acts = false

/-- What holds between two timers of a round. -/
structure TickInv (k : Tick) : Prop where
  armed : Armed k.timed
  still : k.timedOut = true → Still k.timed
  count : k.timedOut = false → k.timed.pcb.rtxCnt.toNat ≤ tcpMaxrxtcnt
  expiries : ∀ e ∈ k.expiries, e.Fine

variable {k : Tick}

theorem TickInv.running (h : TickInv k) (hn : ¬ Still k.timed) : k.timedOut = false := by
  cases ho : k.timedOut with
  | false => rfl
  | true => exact absurd (h.still ho) hn

/-- A `SYN` timeout that closes the pcb finds no other timer running. -/
def AloneSyn (t : Timed) : Prop :=
  t.timers.syn = 1 → gaveUp t.pcb .syn = true →
    t.timers.rexmit = 0 ∧ t.timers.persist = 0 ∧ t.timers.finWait2 = 0 ∧ t.timers.timewait = 0

def AloneRexmit (t : Timed) : Prop :=
  t.timers.rexmit = 1 → gaveUp t.pcb .rexmit = true →
    t.timers.persist = 0 ∧ t.timers.finWait2 = 0 ∧ t.timers.timewait = 0

def AloneKeepalive (t : Timed) : Prop :=
  t.timers.keepalive = 1 → gaveUp t.pcb .keepalive = true →
    t.timers.rexmit = 0 ∧ t.timers.persist = 0 ∧ t.timers.finWait2 = 0 ∧ t.timers.timewait = 0

variable {type : TcpTimer} {k' : Tick}

theorem tickTimer_cases (h : tickTimer k type = .ok k') :
    (k.timed.timers.get type = 0 ∧ k' = k) ∨
    (∃ n, n ≠ 0 ∧ k.timed.timers.get type = n + 1 ∧ k' = { k with timed := k.timed.set type n }) ∨
    (k.timed.timers.get type = 1 ∧ ∃ t', timeoutT (k.timed.set type 0) type = .ok t' ∧ k' = {
      timed := t'
      timedOut := k.timedOut || gaveUp k.timed.pcb type
      expiries := k.expiries ++ [⟨type, k.timedOut, acts k.timed.pcb type, backoffIndex k.timed.pcb type⟩] }) := by
  unfold tickTimer at h
  split at h
  · rename_i h0
    cases h
    exact .inl ⟨h0, rfl⟩
  rename_i h0
  have hget : ∀ n, (k.timed.set type n).timers.get type = n := fun n => by cases type <;> rfl
  dsimp only at h
  rw [hget] at h
  obtain ⟨n, hn⟩ := Nat.exists_eq_succ_of_ne_zero h0
  rw [hn, Nat.succ_sub_one] at h
  split at h
  · rename_i h1
    cases h
    exact .inr (.inl ⟨n, h1, hn, rfl⟩)
  · rename_i h1
    obtain rfl : n = 0 := not_not.1 h1
    obtain ⟨t', ht, h⟩ := bind_ok h
    cases h
    exact .inr (.inr ⟨hn, t', ht, rfl⟩)

theorem TickInv.runsOn {n : Nat} (h : TickInv k) (hn : n ≠ 0)
    (hg : k.timed.timers.get type = n + 1) : TickInv { k with timed := k.timed.set type n } := by
  refine ⟨⟨h.armed.rttmin, h.armed.rto, fun hu => ?_⟩, fun ht => ?_, h.count, h.expiries⟩
  · cases type with
    | rexmit => exact hn
    | syn | persist | keepalive | finWait2 | timewait => exact h.armed.running hu
  · have hs := h.still ht
    cases type with
    | syn | keepalive => exact ⟨hs.state, hs.unsent, hs.unacked, hs.rexmit, hs.persist, hs.finWait2, hs.timewait⟩
    | rexmit => exact absurd (hg.symm.trans hs.rexmit) (by omega)
    | persist => exact absurd (hg.symm.trans hs.persist) (by omega)
    | finWait2 => exact absurd (hg.symm.trans hs.finWait2) (by omega)
    | timewait => exact absurd (hg.symm.trans hs.timewait) (by omega)

theorem TickInv.push {out : Bool} {e : Expiry} (h : TickInv k) (h1 : Armed t')
    (h2 : out = true → Still t') (h3 : out = false → t'.pcb.rtxCnt.toNat ≤ tcpMaxrxtcnt) (he : e.Fine) :
    TickInv ⟨t', out, k.expiries ++ [e]⟩ := by
  refine ⟨h1, h2, h3, fun x hx => ?_⟩
  rcases mem_append.1 hx with hx | hx
  · exact h.expiries x hx
  · rw [mem_singleton.1 hx]; exact he

theorem close_spec (t : Timed) :
    Ensures (purgeT t >>= fun t => .ok { t with pcb := { t.pcb with state := .closed } }) fun t' =>
      Paced t.pcb t'.pcb ∧ t'.pcb.state = .closed ∧ t'.pcb.unsent = [] ∧ t'.pcb.unacked = [] ∧ t'.timers = t.timers :=
  (purgeT_purged t).bind fun _ _ hu => Sat.ok ⟨hu.paced, rfl, hu.unsent, hu.unacked, hu.timers⟩

theorem Armed.emptied (h : Armed t) (h1 : t'.pcb.rttmin = t.pcb.rttmin) (h2 : t'.pcb.rto = t.pcb.rto)
    (h3 : t'.pcb.unacked = []) : Armed t' := by
  refine ⟨h1.trans h.rttmin, ?_, fun hn => absurd h3 hn⟩
  rw [h2]
  exact h.rto

theorem still_of_close (h1 : t'.pcb.state = .closed) (h2 : t'.pcb.unsent = []) (h3 : t'.pcb.unacked = [])
    (ht : t'.timers = t.timers)
    (ha : t.timers.rexmit = 0 ∧ t.timers.persist = 0 ∧ t.timers.finWait2 = 0 ∧ t.timers.timewait = 0) : Still t' := by
  refine ⟨h1, h2, h3, ?_, ?_, ?_, ?_⟩ <;> rw [ht]
  · exact ha.1
  · exact ha.2.1
  · exact ha.2.2.1
  · exact ha.2.2.2

theorem closed_acts (h : s.state = .closed) : acts s .syn = false ∧ acts s .keepalive = false := by
  simp [acts, h, TcpState.val]

theorem closed_gaveUp (h : s.state = .closed) : gaveUp s .syn = false ∧ gaveUp s .keepalive = false := by
  obtain ⟨h1, h2⟩ := closed_acts h
  simp [gaveUp, h1, h2]

theorem AloneKeepalive.of_closed (h : t.pcb.state = .closed) : AloneKeepalive t := fun _ hg => by
  rw [(closed_gaveUp h).2] at hg
  cases hg

theorem gaveUp_keepalive {s' : Pcb} (h1 : s'.state = s.state) (h2 : s'.keepalive = s.keepalive) (h3 : s'.idle = s.idle) :
    gaveUp s' .keepalive = gaveUp s .keepalive := by
  simp [gaveUp, acts, h1, h2, h3]

theorem tick_syn (h : TickInv k) (h1 : AloneSyn k.timed) (h2 : AloneRexmit k.timed) (h3 : AloneKeepalive k.timed)
    (hk : tickTimer k .syn = .ok k') : TickInv k' ∧ AloneRexmit k'.timed ∧ AloneKeepalive k'.timed := by
  rcases tickTimer_cases hk with ⟨-, rfl⟩ | ⟨n, hn, hg, rfl⟩ | ⟨hg, t', ht, rfl⟩
  · exact ⟨h, h2, h3⟩
  · exact ⟨h.runsOn hn hg, h2, h3⟩
  have hfine : Expiry.Fine ⟨.syn, k.timedOut, acts k.timed.pcb .syn, backoffIndex k.timed.pcb .syn⟩ :=
    ⟨nofun, fun hc => (closed_acts (h.still hc).state).1⟩
  by_cases hact : gaveUp k.timed.pcb .syn = true
  · -- the pcb is closed, and nothing else runs
    obtain ⟨a1, a2, a3, a4⟩ := h1 hg hact
    unfold timeoutT at ht
    dsimp only at ht
    rw [if_neg (by simpa [gaveUp, acts, Timed.set, imp_iff_not_or] using hact)] at ht
    obtain ⟨e1, e2, e3, e4, e5⟩ := (close_spec _).of_ok ht
    have hstill : Still t' := still_of_close e2 e3 e4 e5 ⟨a1, a2, a3, a4⟩
    have harm' : Armed t' := h.armed.emptied (congrArg Ctl.rttmin e1) (congrArg Ctl.rto e1) e4
    refine ⟨h.push harm' (fun _ => hstill) ?_ hfine, ?_, .of_closed e2⟩
    · rw [hact, Bool.or_true]; nofun
    · intro hr
      rw [hstill.rexmit] at hr
      cases hr
  · have hact : gaveUp k.timed.pcb .syn = false := by simpa using hact
    unfold timeoutT at ht
    dsimp only at ht
    rw [if_pos (by simpa [gaveUp, acts, Timed.set] using hact)] at ht
    cases ht
    rw [hact, Bool.or_false]
    refine ⟨h.push ⟨h.armed.rttmin, h.armed.rto, h.armed.running⟩ (fun hc => ?_) h.count hfine, h2, h3⟩
    have hs := h.still hc
    exact ⟨hs.state, hs.unsent, hs.unacked, hs.rexmit, hs.persist, hs.finWait2, hs.timewait⟩

theorem timeoutT_rexmit (hr : t.pcb.rttmin = BitVec.ofNat 32 tcpToMin) (hg : gaveUp t.pcb .rexmit = false) :
    Ensures (timeoutT t .rexmit) fun u => Armed u ∧ u.pcb.state = t.pcb.state ∧ u.pcb.keepalive = t.pcb.keepalive ∧
      u.pcb.idle = t.pcb.idle ∧ u.pcb.rtxCnt = t.pcb.rtxCnt + 1 ∧ u.timers.keepalive = t.timers.keepalive := by
  have h12 : ¬ 12 < t.pcb.rtxCnt + 1 := by simpa [gaveUp] using hg
  unfold timeoutT
  dsimp only
  rw [if_neg h12]
  refine (rexmitT_frame _).imp fun u hu hf => ⟨(rexmitT_starts ?_ ?_).of_ok hu, hf⟩
  · exact hr
  · exact tcpUpdateRto_range { t.pcb with rtxCnt := t.pcb.rtxCnt + 1 } _ hr

theorem timeoutT_rexmit_close (hg : gaveUp t.pcb .rexmit = true) :
    Ensures (timeoutT t .rexmit) fun u => u.pcb.rttmin = t.pcb.rttmin ∧ u.pcb.rto = t.pcb.rto ∧ u.pcb.state = .closed ∧
      u.pcb.unsent = [] ∧ u.pcb.unacked = [] ∧ u.timers = t.timers := by
  have h12 : 12 < t.pcb.rtxCnt + 1 := by simpa [gaveUp] using hg
  unfold timeoutT
  dsimp only
  rw [if_pos h12]
  exact (close_spec _).mono fun u ⟨e1, e2⟩ => ⟨congrArg Ctl.rttmin e1, congrArg Ctl.rto e1, e2⟩

theorem tick_rexmit (h : TickInv k) (h2 : AloneRexmit k.timed) (h3 : AloneKeepalive k.timed)
    (hk : tickTimer k .rexmit = .ok k') : TickInv k' ∧ AloneKeepalive k'.timed := by
  rcases tickTimer_cases hk with ⟨-, rfl⟩ | ⟨n, hn, hg, rfl⟩ | ⟨hg, t', ht, rfl⟩
  · exact ⟨h, h3⟩
  · refine ⟨h.runsOn hn hg, fun hka hgu => ?_⟩
    -- were the keepalive timer to close the pcb, this timer would not run
    exact absurd (hg.symm.trans (h3 hka hgu).1) (by omega)
  have hout : k.timedOut = false := h.running fun hst => absurd (hg.symm.trans hst.rexmit) (by decide)
  cases hgu : gaveUp k.timed.pcb .rexmit with
  | true =>
    obtain ⟨a2, a3, a4⟩ := h2 hg hgu
    obtain ⟨e1, e2, e3, e4, e5, e6⟩ := (timeoutT_rexmit_close (t := k.timed.set .rexmit 0) hgu).of_ok ht
    have hstill : Still t' := still_of_close e3 e4 e5 e6 ⟨rfl, a2, a3, a4⟩
    refine ⟨h.push (h.armed.emptied e1 e2 e5) (fun _ => hstill) ?_ ⟨fun n hn => ?_, fun hc => ?_⟩, .of_closed e3⟩
    · rw [Bool.or_true]; nofun
    · rw [show backoffIndex k.timed.pcb .rexmit = none from if_pos (by simpa [gaveUp] using hgu)] at hn
      cases hn
    · rw [hout] at hc
      cases hc
  | false =>
    have hle : (k.timed.pcb.rtxCnt + 1).toNat ≤ 12 := BitVec.not_lt.1 (by simpa [gaveUp] using hgu)
    obtain ⟨e1, f1, f2, f3, f4, f5⟩ := (timeoutT_rexmit (t := k.timed.set .rexmit 0) h.armed.rttmin hgu).of_ok ht
    refine ⟨h.push e1 (fun hc => ?_) (fun _ => ?_) ⟨fun n hn => ?_, fun hc => ?_⟩, fun hka hg3 => ?_⟩
    · rw [hout] at hc
      cases hc
    · rw [f4]; exact hle
    · rw [show backoffIndex k.timed.pcb .rexmit = some _ from if_neg (by simpa [gaveUp] using hgu)] at hn
      obtain rfl := Option.some.inj hn
      exact hle
    · rw [hout] at hc
      cases hc
    · rw [gaveUp_keepalive f1 f2 f3] at hg3
      exact absurd (hg.symm.trans (h3 (f5.symm.trans hka) hg3).1) (by decide)

theorem tick_persist (h : TickInv k) (h3 : AloneKeepalive k.timed) (hk : tickTimer k .persist = .ok k') :
    TickInv k' ∧ AloneKeepalive k'.timed := by
  rcases tickTimer_cases hk with ⟨-, rfl⟩ | ⟨n, hn, hg, rfl⟩ | ⟨hg, t', ht, rfl⟩
  · exact ⟨h, h3⟩
  · refine ⟨h.runsOn hn hg, fun hka hgu => ?_⟩
    exact absurd (hg.symm.trans (h3 hka hgu).2.1) (by omega)
  have hout : k.timedOut = false := h.running fun hst => absurd (hg.symm.trans hst.persist) (by decide)
  have hcount : k.timed.pcb.rtxCnt.toNat ≤ 12 := h.count hout
  cases ht
  refine ⟨h.push ?_ (fun hc => ?_) (fun _ => ?_) ⟨fun n hn => ?_, fun hc => ?_⟩, fun hka hg3 => ?_⟩
  · dsimp only
    split
    · exact ⟨h.armed.rttmin, h.armed.rto, h.armed.running⟩
    · exact ⟨h.armed.rttmin, h.armed.rto, h.armed.running⟩
  · rw [hout] at hc
    cases hc
  · show BitVec.toNat (Pcb.rtxCnt (if _ then _ else _)) ≤ 12
    split
    · rename_i hlt
      exact (Nat.mod_le _ _).trans hlt
    · exact hcount
  · obtain rfl := Option.some.inj hn
    exact hcount
  · rw [hout] at hc
    cases hc
  · have hg3 : gaveUp k.timed.pcb .keepalive = true := by
      rw [← hg3]
      refine (gaveUp_keepalive ?_ ?_ ?_).symm <;> dsimp only <;> split <;> rfl
    exact absurd (hg.symm.trans (h3 hka hg3).2.1) (by decide)

theorem tick_keepalive (h : TickInv k) (h3 : AloneKeepalive k.timed) (hk : tickTimer k .keepalive = .ok k') :
    TickInv k' := by
  rcases tickTimer_cases hk with ⟨-, rfl⟩ | ⟨n, hn, hg, rfl⟩ | ⟨hg, t', ht, rfl⟩
  · exact h
  · exact h.runsOn hn hg
  have hfine : Expiry.Fine ⟨.keepalive, k.timedOut, acts k.timed.pcb .keepalive, backoffIndex k.timed.pcb .keepalive⟩ :=
    ⟨nofun, fun hc => (closed_acts (h.still hc).state).2⟩
  -- a keepalive timer that does not close the pcb changes none of what the invariant reads
  have hkeep : ∀ n, gaveUp k.timed.pcb .keepalive = false → t' = k.timed.set .keepalive n → TickInv ⟨t',
      k.timedOut || gaveUp k.timed.pcb .keepalive, k.expiries ++ [⟨.keepalive, k.timedOut, acts k.timed.pcb .keepalive,
        backoffIndex k.timed.pcb .keepalive⟩]⟩ := by
    rintro n hgu rfl
    rw [hgu, Bool.or_false]
    refine h.push ⟨h.armed.rttmin, h.armed.rto, h.armed.running⟩ (fun hc => ?_) h.count hfine
    have hs := h.still hc
    exact ⟨hs.state, hs.unsent, hs.unacked, hs.rexmit, hs.persist, hs.finWait2, hs.timewait⟩
  unfold timeoutT at ht
  dsimp only at ht
  split at ht
  · rename_i hguard
    cases ht
    refine hkeep 0 ?_ rfl
    rcases hguard with hf | hlt
    · have hf : k.timed.pcb.keepalive = false := hf
      simp [gaveUp, acts, hf]
    · have hlt : ¬ TcpState.established.val ≤ k.timed.pcb.state.val := Nat.not_le.2 hlt
      simp [gaveUp, acts, hlt]
  rename_i hguard
  have hact : acts k.timed.pcb .keepalive = true := by
    obtain ⟨h1, h2⟩ := not_or.1 hguard
    have h1 : k.timed.pcb.keepalive = true := eq_true_of_ne_false h1
    have h2 : TcpState.established.val ≤ k.timed.pcb.state.val := Nat.not_lt.1 h2
    simp [acts, h1, h2]
  split at ht
  · rename_i hidle
    have hgu : gaveUp k.timed.pcb .keepalive = true := decide_eq_true ⟨hact, hidle⟩
    obtain ⟨e1, e2, e3, e4, e5⟩ := (close_spec _).of_ok ht
    obtain ⟨a1, a2, a3, a4⟩ := h3 hg hgu
    refine h.push (h.armed.emptied (congrArg Ctl.rttmin e1) (congrArg Ctl.rto e1) e4)
      (fun _ => still_of_close e2 e3 e4 e5 ⟨a1, a2, a3, a4⟩) ?_ hfine
    rw [hgu, Bool.or_true]; nofun
  · rename_i hidle
    cases ht
    exact hkeep tcpToKeepInterval (decide_eq_false fun hg => hidle hg.2) rfl

theorem tick_put (h : TickInv k) (ht : type = .finWait2 ∨ type = .timewait)
    (hk : tickTimer k type = .ok k') : TickInv k' := by
  rcases tickTimer_cases hk with ⟨-, rfl⟩ | ⟨n, hn, hg, rfl⟩ | ⟨hg, t', hs, rfl⟩
  · exact h
  · exact h.runsOn hn hg
  have hout : k.timedOut = false := h.running fun hst => by
    rcases ht with rfl | rfl
    · exact absurd (hg.symm.trans hst.finWait2) (by decide)
    · exact absurd (hg.symm.trans hst.timewait) (by decide)
  have hgu : gaveUp k.timed.pcb type = false := by rcases ht with rfl | rfl <;> rfl
  have hpurge : Purged { k.timed.set type 0 with pcb := { k.timed.pcb with state := .closed }, alive := false } t' := by
    rcases ht with rfl | rfl <;> exact (purgeT_purged _).of_ok hs
  have e := hpurge.paced
  refine h.push (h.armed.emptied (congrArg Ctl.rttmin e) (congrArg Ctl.rto e) hpurge.unacked) (fun hc => ?_) (fun _ => ?_)
    ⟨fun n hn => ?_, fun hc => ?_⟩
  · rw [hout, hgu] at hc
    cases hc
  · rw [show t'.pcb.rtxCnt = k.timed.pcb.rtxCnt from congrArg Ctl.rtxCnt e]
    exact h.count hout
  · rcases ht with rfl | rfl <;> cases hn
  · rw [hout] at hc
    cases hc

/-- A timeout that moves the pcb to `CLOSED` in the next round finds no timer running that would go on acting. -/
structure ClosesAlone (t : Timed) : Prop where
  syn : AloneSyn { t with pcb := tcpSlowtimo t.pcb }
  rexmit : AloneRexmit { t with pcb := tcpSlowtimo t.pcb }
  keepalive : AloneKeepalive { t with pcb := tcpSlowtimo t.pcb }

theorem slowtimoT_inv (h : TickInv k) (ha : ClosesAlone k.timed) (hk : slowtimoT k = .ok k') : TickInv k' := by
  have h0 : TickInv { k with timed := { k.timed with pcb := tcpSlowtimo k.timed.pcb } } := by
    refine ⟨⟨h.armed.rttmin, h.armed.rto, h.armed.running⟩, fun ho => ?_, h.count, h.expiries⟩
    have hs := h.still ho
    exact ⟨hs.state, hs.unsent, hs.unacked, hs.rexmit, hs.persist, hs.finWait2, hs.timewait⟩
  obtain ⟨k1, hk1, hk⟩ := bind_ok hk
  obtain ⟨k2, hk2, hk⟩ := bind_ok hk
  obtain ⟨k3, hk3, hk⟩ := bind_ok hk
  obtain ⟨k4, hk4, hk⟩ := bind_ok hk
  obtain ⟨k5, hk5, hk⟩ := bind_ok hk
  obtain ⟨k6, hk6, hk⟩ := bind_ok hk
  cases hk
  obtain ⟨i1, a2, a3⟩ := tick_syn h0 ha.syn ha.rexmit ha.keepalive hk1
  obtain ⟨i2, a3⟩ := tick_rexmit i1 a2 a3 hk2
  obtain ⟨i3, a3⟩ := tick_persist i2 a3 hk3
  have i4 := tick_keepalive i3 a3 hk4
  exact tick_put (tick_put i4 (.inl rfl) hk5) (.inr rfl) hk6

/-! ## Steps -/

theorem TickInv.follows (h : TickInv k) (hf : Follows k.timed t')
    (hs : k.timedOut = true → Still k.timed → Still t') : TickInv { k with timed := t' } := by
  refine ⟨hf.armed h.armed, fun ho => hs ho (h.still ho), fun ho => ?_, h.expiries⟩
  rcases hf.count with e | e
  · rw [e]; exact h.count ho
  · rw [e]; decide

theorem inputT_closed (h : t.pcb.state = .closed) (g : Segment) : inputT t g = .ok t := by
  unfold inputT
  rw [if_pos h, ite_self]

theorem closed_not_established (h : s.state = .closed) : s.state ≠ .established := by
  rw [h]; decide

theorem Still.output (h : Still t) (ho : OutputT t t') : Still t' := by
  obtain ⟨h1, h2⟩ := ho.queues h.unsent h.unacked
  have ht : t'.timers = t.timers := ho.timers.resolve_right fun hn => hn.1 h.unsent
  exact still_of_close (ho.state.trans h.state) h1 h2 ht ⟨h.rexmit, h.persist, h.finWait2, h.timewait⟩

theorem Still.same {p : Pcb} (h : Still t) (h1 : p.state = t.pcb.state) (h2 : SameSend t.pcb p) :
    Still { t with pcb := p } :=
  ⟨h1.trans h.state, h2.unsent.trans h.unsent, h2.unacked.trans h.unacked, h.rexmit, h.persist, h.finWait2, h.timewait⟩

theorem recvQueued_follows (t : Timed) {iov iov' : List Iovec} {p : Pcb} (h : recvQueued t.pcb iov = .ok (p, iov')) :
    Follows t { t with pcb := p } ∧ (Still t → Still { t with pcb := p }) := by
  have hs := recvQueued_send h
  have hp := (ensures_of_divides (recvQueued_paced t.pcb iov)).of_ok h
  refine ⟨.paced hp (fun hn => ?_) rfl, fun hst => hst.same (recvQueued_state h) hs⟩
  rwa [show p.unacked = t.pcb.unacked from hs.unacked] at hn

/-- A timeout moves the pcb to `CLOSED` when no other timer runs, and one that gave up is not connected again. -/
def TimersFit (s : TimedState) : TimedAct → Prop
  | .slowtimo => ClosesAlone s.tick.timed
  | .connect => s.tick.timed.pcb.state = .closed → s.tick.timed.pcb.rtxCnt.toNat ≤ tcpMaxrxtcnt
  | _ => True

theorem connectT_state (h : connectT t = .ok t') (hc : t.pcb.state = .closed) : t'.pcb.state = .synSent := by
  unfold connectT at h
  rw [if_neg (not_not.2 hc)] at h
  obtain ⟨p, hp, h⟩ := bind_ok h
  obtain ⟨u, hu, h⟩ := bind_ok h
  cases h
  exact ((outputT_spec _).of_ok hu).state.trans (tcpEnqueue_recv hp).state

theorem timedStep_inv {s s' : TimedState} {a : TimedAct} (h : TickInv s.tick) (hf : TimersFit s a)
    (hs : timedStep s a = .ok s') : TickInv s'.tick := by
  cases a with
  | connect =>
    obtain ⟨t, ht, hs⟩ := bind_ok hs
    cases hs
    have hfol := (connectT_follows _).of_ok ht
    by_cases hc : s.tick.timed.pcb.state = .closed
    · have hst := connectT_state ht hc
      refine ⟨hfol.armed h.armed, fun ho => ?_, fun _ => ?_, h.expiries⟩
      · dsimp only at ho
        rw [hst] at ho
        simp at ho
      · show t.pcb.rtxCnt.toNat ≤ tcpMaxrxtcnt
        rcases hfol.count with e | e
        · rw [e]; exact hf hc
        · rw [e]; decide
    · have hout : s.tick.timedOut = false := h.running fun hst => hc hst.state
      have := h.follows hfol fun ho => absurd ho (by rw [hout]; decide)
      refine ⟨this.armed, fun ho => ?_, fun _ => this.count hout, h.expiries⟩
      rw [hout] at ho
      cases ho
  | input g =>
    obtain ⟨t, ht, hs⟩ := bind_ok hs
    cases hs
    refine h.follows ((inputT_follows _ g).of_ok ht) fun _ hst => ?_
    rw [inputT_closed hst.state] at ht
    cases ht
    exact hst
  | send iov f =>
    obtain ⟨t, ht, hs⟩ := bind_ok hs
    cases hs
    refine h.follows ((sendmsgT_follows _ iov f).of_ok ht) fun _ hst => ?_
    unfold sendmsgT at ht
    rw [if_pos (closed_not_established hst.state)] at ht
    cases ht
    exact hst
  | sendEnd =>
    cases hs
    exact h.follows (.same rfl rfl rfl id rfl) fun _ hst =>
      ⟨hst.state, hst.unsent, hst.unacked, hst.rexmit, hst.persist, hst.finWait2, hst.timewait⟩
  | recv sizes =>
    obtain ⟨⟨p, iov⟩, ht, hs⟩ := bind_ok hs
    cases hs
    rcases tcpRecvmsg_cases ht with rfl | hr
    · exact h.follows (.refl _) fun _ hst => hst
    · obtain ⟨h1, h2⟩ := recvQueued_follows _ hr
      exact h.follows h1 fun _ => h2
  | resume sizes =>
    obtain ⟨⟨p, iov⟩, ht, hs⟩ := bind_ok hs
    cases hs
    obtain ⟨h1, h2⟩ := recvQueued_follows _ ht
    exact h.follows h1 fun _ => h2
  | setsockopt opt val =>
    cases hs
    refine h.follows (setsockoptT_follows _ opt val) fun _ hst => ?_
    cases opt <;> exact ⟨hst.state, hst.unsent, hst.unacked, hst.rexmit, hst.persist, hst.finWait2, hst.timewait⟩
  | close =>
    obtain ⟨t, ht, hs⟩ := bind_ok hs
    cases hs
    refine h.follows ((closeT_follows _).of_ok ht) fun _ hst => ?_
    unfold closeT at ht
    rw [hst.state] at ht
    have hp := (purgeT_purged _).of_ok ht
    exact still_of_close hp.state hp.unsent hp.unacked hp.timers ⟨hst.rexmit, hst.persist, hst.finWait2, hst.timewait⟩
  | slowtimo =>
    obtain ⟨k, hk, hs⟩ := bind_ok hs
    cases hs
    exact slowtimoT_inv h hf hk
  | fastimo =>
    obtain ⟨t, ht, hs⟩ := bind_ok hs
    cases hs
    have ho := (fastimoT_spec _).of_ok ht
    exact h.follows ho.follows fun _ hst => hst.output ho
  | sent i =>
    cases hs
    have hnil : s.tick.timed.pcb.unacked = [] → (deviceSent s.tick.timed.pcb i).unacked = [] := fun e => by
      show s.tick.timed.pcb.unacked.modify i _ = []
      rw [e]
      exact modify_nil _ _
    refine h.follows (.same rfl rfl rfl (fun hn he => hn (hnil he)) rfl) fun _ hst => ?_
    exact ⟨hst.state, hst.unsent, hnil hst.unacked, hst.rexmit, hst.persist, hst.finWait2, hst.timewait⟩

/-! ## Runs -/

theorem start_timed {s : TimedState} (h : timed.start s) : TickInv s.tick := by
  obtain ⟨-, h1, h2, isn, h3 | ⟨mss, g, -, -, h3⟩⟩ := h
  · refine ⟨?_, fun ho => absurd ho (by rw [h1]; decide), fun _ => ?_, by rw [h2]; nofun⟩
    · rw [h3]
      exact ⟨rfl, tcpUpdateRto_range _ 1 rfl, fun hn => absurd rfl hn⟩
    · rw [h3]
      show (0 : BitVec 32).toNat ≤ tcpMaxrxtcnt
      decide
  · have hnew : Armed ⟨tcpPcbGet isn, .zero, false, true⟩ :=
      ⟨rfl, tcpUpdateRto_range _ 1 rfl, fun hn => absurd rfl hn⟩
    have hf : Follows ⟨tcpPcbGet isn, .zero, false, true⟩ s.tick.timed := by
      obtain ⟨p, hp, h3⟩ := bind_ok h3
      have h4 := (tcpEnqueue_follows ⟨{ tcpPcbGet isn with
        state := .synRcvd, sndWnd := g.window, sndMss := if mss < tcpDefaultMss then tcpDefaultMss else mss
        rcvNxt := g.seqno + 1 }, .zero, false, true⟩ _ 0 (tcpSyn ||| tcpAck) rfl rfl).of_ok hp
      have h5 : Follows ⟨tcpPcbGet isn, .zero, false, true⟩ ⟨p, .zero, false, true⟩ := h4.after (.same rfl rfl rfl id rfl)
      exact h5.trans ((outputT_spec _).of_ok h3).follows
    refine ⟨hf.armed hnew, fun ho => absurd ho (by rw [h1]; decide), fun _ => ?_, by rw [h2]; nofun⟩
    have e : s.tick.timed.pcb.rtxCnt = 0 := hf.count.elim id id
    rw [e]; decide

theorem reach_timed {s : TimedState} (h : timed.Reach TimersFit s) : TickInv s.tick :=
  h.inv (I := fun s => TickInv s.tick) (fun _ => start_timed) fun _ _ _ hi hc hs => timedStep_inv hi hc hs.2

/-- In every run in which a timeout closes the pcb only with no other timer running, and none that gave up is
connected again, `tcp_backoff` is read at an entry it has, a pcb that a timeout moved to `CLOSED` is left alone by
the timers, and the retransmission timer of an `ESTABLISHED` pcb runs while segments wait in `unacked`. -/
theorem retransmission_timers {s : TimedState} (h : timed.Reach TimersFit s) :
    (∀ e ∈ s.tick.expiries, (∀ n ∈ e.index, n ≤ tcpMaxrxtcnt) ∧ (e.closed = true → e.acts = false)) ∧
      (s.tick.timed.pcb.state = .established → s.tick.timed.pcb.unacked ≠ [] → s.tick.timed.timers.rexmit ≠ 0) := by
  have hi := reach_timed h
  exact ⟨fun e he => ⟨(hi.expiries e he).index, (hi.expiries e he).closed⟩, fun _ => hi.armed.running⟩

/-- A connection to a peer whose window is empty, then `n` rounds of the slow timer. -/
def silentPeer (n : Nat) : List TimedAct :=
  [.connect, .sent 0, .input ⟨7, 6, tcpSyn ||| tcpAck, 0, [], []⟩] ++ List.replicate n .slowtimo

def newTimed (isn : Seq) : TimedState := ⟨⟨⟨tcpPcbGet isn, .zero, false, true⟩, false, []⟩, true, []⟩

theorem newTimed_start (isn : Seq) : timed.start (newTimed isn) := ⟨rfl, rfl, rfl, isn, .inl rfl⟩

instance (t : Timed) : Decidable (AloneSyn t) := inferInstanceAs (Decidable (_ → _ → _))
instance (t : Timed) : Decidable (AloneRexmit t) := inferInstanceAs (Decidable (_ → _ → _))
instance (t : Timed) : Decidable (AloneKeepalive t) := inferInstanceAs (Decidable (_ → _ → _))

instance (t : Timed) : Decidable (ClosesAlone t) :=
  decidable_of_iff (_ ∧ _ ∧ _) ⟨fun ⟨h1, h2, h3⟩ => ⟨h1, h2, h3⟩, fun ⟨h1, h2, h3⟩ => ⟨h1, h2, h3⟩⟩

instance (s : TimedState) : (a : TimedAct) → Decidable (TimersFit s a)
  | .slowtimo => inferInstanceAs (Decidable (ClosesAlone _))
  | .connect => inferInstanceAs (Decidable (_ → _))
  | .input _ | .send _ _ | .sendEnd | .recv _ | .resume _ | .setsockopt _ _ | .close | .fastimo | .sent _ =>
    inferInstanceAs (Decidable True)

/-- Two bytes on their way after a round of the timer. -/
theorem retransmission_timers_sent : ∃ s, timed.Reach TimersFit s ∧ s.tick.timed.pcb.state = .established ∧
    s.tick.timed.pcb.unacked ≠ [] ∧ s.tick.timed.timers.rexmit ≠ 0 := by
  have h : (timed.trace TimersFit (newTimed 5) [.connect, .sent 0, .input ⟨7, 6, tcpSyn ||| tcpAck, 4096, [], []⟩,
      .setsockopt .nodelay true, .send [(fun _ => 1, 2)] 0, .slowtimo]).map (fun s =>
        (s.tick.timed.pcb.state, decide (s.tick.timed.pcb.unacked ≠ []))) = some (.established, true) := by decide +kernel
  obtain ⟨s, hs, he⟩ := Option.map_eq_some_iff.1 h
  obtain ⟨h1, h2⟩ := Prod.mk.inj he
  have hr : timed.Reach TimersFit s := Machine.trace_reach (newTimed_start 5) hs
  exact ⟨s, hr, h1, of_decide_eq_true h2, (retransmission_timers hr).2 h1 (of_decide_eq_true h2)⟩

/-- An idle connection with an empty window: the retransmission timer gives up while the persist timer runs, which then
acts on the closed pcb and reads `tcp_backoff` behind its end. -/
theorem persist_after_close : ∃ s, timed.Reach Machine.Any s ∧
    (⟨.persist, true, true, some 13⟩ : Expiry) ∈ s.tick.expiries := by
  have h : (timed.trace Machine.Any (newTimed 5) (silentPeer 730)).map (fun s => s.tick.expiries.getLast?) =
      some (some ⟨.persist, true, true, some 13⟩) := by decide +kernel
  obtain ⟨s, hs, he⟩ := Option.map_eq_some_iff.1 h
  exact ⟨s, Machine.trace_reach (newTimed_start 5) hs, List.mem_of_getLast? he⟩

end Onix.Tcp
