/-
The order of the queues. `list_insert_sort` reads a sequence number as an `int`, so the lists of a
pcb are always ordered that way; they are in modular order as long as every segment goes into a list
whose sequence numbers compare with its own as `int`s the way they compare modulo 2^32. Two segments
on either side of 2^31 do not, and the later one is then sent, resent or read first.
-/
import Onix.Tcp.Frame

namespace Onix.Tcp

open Except List Onix.Lib

/-! ## Ordered lists -/

def SeqSorted (l : List Pbuf) : Prop := l.Pairwise fun p q => ¬ seqLT q.seqno p.seqno

/-- The two numbers compare as `int`s the way they compare modulo 2^32. -/
def AgreeSeq (a b : Seq) : Prop := (b.toInt ≤ a.toInt → ¬ seqLT a b) ∧ (a.toInt < b.toInt → ¬ seqLT b a)

def AgreeAll (a : Seq) (l : List Pbuf) : Prop := ∀ q ∈ l, AgreeSeq a q.seqno

structure Ordered (l : List Pbuf) : Prop where
  int : IntSorted Pbuf.seqno l
  seq : SeqSorted l

theorem ordered_nil : Ordered [] := ⟨List.Pairwise.nil, List.Pairwise.nil⟩

variable {l l' : List Pbuf}

theorem Ordered.sublist (h : Ordered l) (hs : l'.Sublist l) : Ordered l' :=
  ⟨h.int.sublist hs, h.seq.sublist hs⟩

theorem Ordered.keys (h : Ordered l) (e : l'.map Pbuf.seqno = l.map Pbuf.seqno) : Ordered l' := by
  obtain ⟨h1, h2⟩ := h
  unfold IntSorted at h1
  unfold SeqSorted at h2
  refine ⟨?_, ?_⟩
  · unfold IntSorted
    rw [← pairwise_map (f := Pbuf.seqno) (R := fun a b : Seq => a.toInt ≤ b.toInt)] at h1 ⊢
    rwa [e]
  · unfold SeqSorted
    rw [← pairwise_map (f := Pbuf.seqno) (R := fun a b : Seq => ¬ seqLT b a)] at h2 ⊢
    rwa [e]

variable {p : Pbuf}

theorem seqSorted_insert_iff (h : Ordered l) :
    SeqSorted (insertSeg p l) ↔ AgreeAll p.seqno l := by
  have hR := listInsertSort_pairwise (x := p) h.int h.seq
  unfold SeqSorted insertSeg
  rw [hR]
  rfl

theorem Ordered.insert (h : Ordered l) (ha : AgreeAll p.seqno l) : Ordered (insertSeg p l) :=
  ⟨listInsertSort_intSorted h.int, (seqSorted_insert_iff h).2 ha⟩

theorem Ordered.agree {q : Pbuf} (h : Ordered (p :: l)) (hq : q ∈ l) : AgreeSeq q.seqno p.seqno := by
  have h1 := (pairwise_cons.1 h.int).1 q hq
  have h2 := (pairwise_cons.1 h.seq).1 q hq
  exact ⟨fun _ => h2, fun hlt => absurd h1 (by omega)⟩

/-- The queues of the pcb are ordered. -/
structure Queues (s : Pcb) : Prop where
  unsent : Ordered s.unsent
  unacked : Ordered s.unacked
  recved : Ordered s.recved

variable {s s' : Pcb}

theorem Queues.same (h : Queues s) (e1 : s'.unsent = s.unsent) (e2 : s'.unacked = s.unacked)
    (e3 : s'.recved = s.recved) : Queues s' :=
  ⟨by rw [e1]; exact h.unsent, by rw [e2]; exact h.unacked, by rw [e3]; exact h.recved⟩

theorem Queues.frame (h : Queues s) (e1 : SameSend s s') (e2 : SameRecv s s') : Queues s' :=
  h.same e1.unsent e1.unacked e2.recved

/-! ## Output -/

/-- A round of `tcp_enqueue` that queues its buffer may put it into `unsent`. -/
def SegAgree (src : Nat → UInt8) (ptr : Nat) (left : Int) (size : Nat) (flags : Flags) (s : Pcb) : Prop :=
  ∀ s' len, tcpEnqueueSeg src ptr left size flags s = .ok (s', len) → s'.sndBuf = none →
    AgreeAll (enqueueBuf s flags).seqno s.unsent

def LoopAgree (src : Nat → UInt8) (size : Nat) (flags : Flags) : Nat → Nat → Int → Pcb → Prop
  | 0, _, _, _ => True
  | fuel + 1, ptr, left, s => SegAgree src ptr left size flags s ∧
    ∀ s' len, tcpEnqueueSeg src ptr left size flags s = .ok (s', len) → 0 < left - len →
      LoopAgree src size flags fuel (ptr + len.toNat) (left - len) s'

def EnqueueAgree (s : Pcb) (src : Nat → UInt8) (size : Nat) (flags : Flags) : Prop :=
  LoopAgree src size flags (size + tcpMaxWindow + 2) 0 size
    (if s.sndMss < tcpDefaultMss then { s with sndMss := tcpDefaultMss } else s)

theorem enqueueBuf_fill (src : Nat → UInt8) (ptr : Nat) (left len : Int) (flags : Flags) (p : Pbuf) :
    (fillBuf src ptr left len flags p).seqno = p.seqno := by
  unfold fillBuf
  dsimp only
  split <;> rfl

variable {f : Flags} {size : Nat} {src : Nat → UInt8}

theorem tcpEnqueueSeg_queues {ptr : Nat} {left len : Int}
    (h : Queues s) (ha : SegAgree src ptr left size f s) (hs : tcpEnqueueSeg src ptr left size f s = .ok (s', len)) :
    Queues s' := by
  have ha := ha _ _ hs
  unfold tcpEnqueueSeg at hs
  split at hs
  · cases hs
  · dsimp only at hs
    split at hs
    · obtain ⟨rfl, -⟩ := Prod.mk.inj (ok.inj hs)
      exact h.same rfl rfl rfl
    · obtain ⟨rfl, -⟩ := Prod.mk.inj (ok.inj hs)
      exact ⟨h.unsent.insert (by rw [enqueueBuf_fill]; exact ha rfl), h.unacked, h.recved⟩

theorem enqueueLoop_queues : ∀ (fuel ptr : Nat) (left : Int) (s s' : Pcb),
    Queues s → LoopAgree src size f fuel ptr left s → enqueueLoop src size f fuel ptr left s = .ok s' → Queues s'
  | 0, _, _, s, s', h, _, hs => by cases hs; exact h
  | fuel + 1, ptr, left, s, s', h, ha, hs => by
    obtain ⟨⟨s1, len⟩, h1, hs⟩ := bind_ok hs
    have hq := tcpEnqueueSeg_queues h ha.1 h1
    dsimp only at hs
    split at hs
    · rename_i hlt
      exact enqueueLoop_queues _ _ _ _ _ hq (ha.2 _ _ h1 hlt) hs
    · cases hs; exact hq

theorem tcpEnqueue_queues (h : Queues s)
    (ha : EnqueueAgree s src size f) (hs : tcpEnqueue s src size f = .ok s') : Queues s' := by
  refine enqueueLoop_queues _ _ _ _ _ ?_ ha hs
  split
  · exact h.same rfl rfl rfl
  · exact h

/-- The segments `tcp_output` sends: those of `unsent` up to the first that exceeds the window. -/
def sending (s : Pcb) : List Pbuf :=
  if outputWnd (slowStart s) < BitVec.ofNat 32 tcpDefaultMss then []
  else s.unsent.takeWhile fun p => decide (¬ seqGT p.endSeq (s.sndUna + outputWnd (slowStart s)))

def OutputAgree (s : Pcb) : Prop := ∀ p ∈ sending s, AgreeAll p.seqno s.unacked


theorem outputLoop_queues {wnd : BitVec 32} : ∀ (l : List Pbuf) (s s' : Pcb), s.unsent = l → Queues s →
    (∀ p ∈ l.takeWhile fun p => decide (¬ seqGT p.endSeq (s.sndUna + wnd)), AgreeAll p.seqno s.unacked) →
    outputLoop wnd l s = .ok s' → Queues s'
  | [], s, s', _, h, _, hs => by cases hs; exact h
  | p :: rest, s, s', hl, h, ha, hs => by
    simp only [outputLoop] at hs
    split at hs
    · cases hs; exact h
    rename_i hfit
    split at hs
    · cases hs
    rw [takeWhile_cons_of_pos (by simpa using hfit)] at ha
    have hord : Ordered (p :: rest) := hl ▸ h.unsent
    obtain ⟨p', e, hp'⟩ : ∃ p' : Pbuf, p' =
        { p with count := p.count + 1, flags := if p.flags.has tcpSyn then p.flags else p.flags ||| tcpAck } ∧
        p'.seqno = p.seqno := ⟨_, rfl, rfl⟩
    rw [← e] at hs
    -- the rest goes into `unacked` behind the segment just sent
    have hrest : ∀ q ∈ rest.takeWhile fun p => decide (¬ seqGT p.endSeq (s.sndUna + wnd)),
        AgreeAll q.seqno (insertSeg p' s.unacked) := by
      intro q hq r hr
      rcases mem_listInsertSort.1 hr with rfl | hr
      · rw [hp']; exact hord.agree (takeWhile_subset _ hq)
      · exact ha q (.tail _ hq) r hr
    have key : ∀ t : Pcb, t.sndUna = s.sndUna → t.unsent = rest → t.unacked = insertSeg p' s.unacked →
        t.recved = s.recved → outputLoop wnd rest t = .ok s' → Queues s' := by
      intro t e1 e2 e3 e4 ht
      refine outputLoop_queues rest t s' e2 ⟨?_, ?_, ?_⟩ (by rw [e1, e3]; exact hrest) ht
      · rw [e2]; exact hord.sublist (sublist_cons_self _ _)
      · rw [e3]; exact h.unacked.insert (by rw [hp']; exact ha p (.head _))
      · rw [e4]; exact h.recved
    refine key _ ?_ ?_ ?_ ?_ hs
    · rw [(tcpOutputSeg_send _ _).una]; split <;> rfl
    · rw [(tcpOutputSeg_send _ _).unsent]
    · rw [(tcpOutputSeg_send _ _).unacked]; split <;> rfl
    · rw [(tcpOutputSeg_recv _ _).recved]; split <;> rfl

theorem tcpOutput_queues (h : Queues s) (ha : OutputAgree s) (hs : tcpOutput s = .ok s') : Queues s' := by
  unfold tcpOutput at hs
  have h1 := slowStart_send s
  have hq : Queues (slowStart s) := h.frame h1 (slowStart_recv s)
  unfold OutputAgree sending at ha
  dsimp only at hs
  split at hs
  · cases hs; exact hq
  · rename_i hw
    rw [if_neg hw] at ha
    obtain ⟨s1, h2, hs⟩ := bind_ok hs
    have hq1 : Queues s1 := outputLoop_queues _ _ _ rfl hq (by rw [h1.unsent, h1.una, h1.unacked]; exact ha) h2
    split at hs
    · cases hs; exact hq1.frame (tcpSendAck_send _ _) (tcpOutputSeg_recv _ _)
    · cases hs; exact hq1

/-! ## Retransmission -/

/-- The segments to send again may be put into `unsent`, and what `tcp_output` then sends into `unacked`. -/
def RexmitAgree (s : Pcb) : Prop :=
  (∀ p ∈ s.unacked, p.count ≤ 1 → AgreeAll p.seqno s.unsent) ∧ OutputAgree (requeue s)

theorem Ordered.insertAll : ∀ {m l : List Pbuf}, Ordered m → Ordered l → (∀ p ∈ m, AgreeAll p.seqno l) →
    Ordered (m.foldl (fun l p => insertSeg p l) l)
  | [], l, _, hl, _ => hl
  | p :: m, l, hm, hl, ha => by
    have hm' : Ordered m := hm.sublist (sublist_cons_self _ _)
    refine hm'.insertAll (l := insertSeg p l) (hl.insert (ha p (.head _))) fun q hq r hr => ?_
    rcases mem_listInsertSort.1 hr with rfl | hr
    · exact hm.agree hq
    · exact ha q (.tail _ hq) r hr

theorem requeue_queues (h : Queues s) (ha : RexmitAgree s) : Queues (requeue s) := by
  refine ⟨?_, ?_, h.recved⟩
  · refine (h.unacked.sublist filter_sublist).insertAll h.unsent fun p hp => ?_
    obtain ⟨hp, hc⟩ := mem_filter.1 hp
    exact ha.1 p hp (by simpa using hc)
  · exact h.unacked.sublist filter_sublist

theorem tcpRexmit_queues (h : Queues s) (ha : RexmitAgree s) (hs : tcpRexmit s = .ok s') : Queues s' :=
  tcpOutput_queues (requeue_queues h ha) ha.2 hs

def DuppacksAgree (s : Pcb) : Prop :=
  (s.dupacks = 3 → RexmitAgree (fastRexmit s)) ∧
    (3 < s.dupacks → RexmitAgree { s with sndCwnd := s.sndCwnd + BitVec.ofNat 32 s.sndMss })

theorem tcpHandleDuppacks_queues (h : Queues s) (ha : DuppacksAgree s)
    (hs : tcpHandleDuppacks s = .ok s') : Queues s' := by
  unfold tcpHandleDuppacks at hs
  split at hs
  · cases hs; exact h
  rename_i hlt
  split at hs
  · rename_i h3
    split at hs
    · cases hs
    · obtain ⟨s1, h1, hs⟩ := bind_ok hs
      cases hs
      have hq : Queues (fastRexmit s) := h.same rfl rfl rfl
      exact (tcpRexmit_queues hq (ha.1 h3) h1).same rfl rfl rfl
  · rename_i h3
    have hgt : 3 < s.dupacks := by
      rw [BitVec.lt_def] at hlt ⊢
      have : s.dupacks.toNat ≠ (3 : BitVec 32).toNat := fun e => h3 (BitVec.eq_of_toNat_eq e)
      omega
    refine tcpRexmit_queues ?_ (ha.2 hgt) hs
    exact h.same rfl rfl rfl

/-! ## Input -/

/-- The Nagle buffer may be put into what an acknowledgement leaves of `unsent`. -/
def FlushAgree (s : Pcb) (ackno : Seq) : Prop :=
  ∀ p, s.sndBuf = some p → 0 < p.size → ackno = s.sndMax →
    ∀ q ∈ s.unsent, seqGT q.endSeq ackno → AgreeSeq p.seqno q.seqno

def UpdateAckAgree (s : Pcb) (g : Segment) : Prop :=
  if seqGEQ s.sndUna g.ackno then g.size = 0 → DuppacksAgree { s with dupacks := s.dupacks + 1 }
  else FlushAgree s g.ackno

variable {g : Segment}

theorem tcpUpdateAck_queues (h : Queues s) (ha : UpdateAckAgree s g)
    (hs : tcpUpdateAck s g = .ok s') : Queues s' := by
  unfold tcpUpdateAck at hs
  unfold UpdateAckAgree at ha
  split at hs
  · rename_i hle
    rw [if_pos hle] at ha
    split at hs
    · rename_i h0
      refine tcpHandleDuppacks_queues ?_ (ha h0) hs
      exact h.same rfl rfl rfl
    · cases hs; exact h.same rfl rfl rfl
  · rename_i hle
    rw [if_neg hle] at ha
    obtain ⟨s1, h1, hs⟩ := bind_ok hs
    cases hs
    obtain ⟨t, ht, e⟩ : ∃ t, t = advanceUna (growCwnd s) g.ackno ∧ t.unsent = s.unsent ∧ t.unacked = s.unacked ∧
        t.sndBuf = s.sndBuf ∧ t.sndMax = s.sndMax ∧ t.recved = s.recved := by
      refine ⟨_, rfl, ?_⟩
      unfold advanceUna growCwnd tcpXmitTimer
      split <;> split <;> exact ⟨rfl, rfl, rfl, rfl, rfl⟩
    rw [← ht] at h1
    obtain ⟨e1, e2, e3, e4, e5⟩ := e
    unfold dropAcked at h1
    split at h1
    · cases h1
    cases h1
    have hun : Ordered (t.unsent.filter fun p => decide (seqGT p.endSeq g.ackno)) := by
      rw [e1]; exact h.unsent.sublist filter_sublist
    have hac : Ordered (t.unacked.filter fun p => decide (seqGT p.endSeq g.ackno)) := by
      rw [e2]; exact h.unacked.sublist filter_sublist
    have hre : Ordered t.recved := by rw [e5]; exact h.recved
    unfold flushBuf
    split
    · rename_i p hp
      split
      · rename_i hc
        refine ⟨hun.insert fun q hq => ?_, hac, hre⟩
        rw [e1] at hq
        obtain ⟨hq, hgt⟩ := mem_filter.1 hq
        exact ha p (by rw [← e3]; exact hp) hc.1 (by rw [← e4]; exact hc.2) q hq (by simpa using hgt)
      · exact ⟨hun, hac, hre⟩
    · exact ⟨hun, hac, hre⟩

def ReceiveAgree (s : Pcb) (g : Segment) : Prop :=
  UpdateAckAgree (tcpUpdateWnd s g) g ∧
    (0 < g.size → InOrder s g → s.state.val ≤ TcpState.established.val → AgreeAll g.seqno s.recved)

theorem trimSeg_seqno (s : Pcb) (g : Segment) : (trimSeg s g).seqno = g.seqno := by
  unfold trimSeg
  split <;> rfl

theorem tcpUpdateBuf_queues (h : Queues s)
    (ha : InOrder s g → s.state.val ≤ TcpState.established.val → AgreeAll g.seqno s.recved) :
    Queues (tcpUpdateBuf s g) := by
  have hsend := tcpUpdateBuf_send s g
  rcases tcpUpdateBuf_cases s g with ⟨-, hsame⟩ | ⟨hio, -, -, -, e⟩
  · exact h.frame hsend hsame
  refine ⟨by rw [hsend.unsent]; exact h.unsent, by rw [hsend.unacked]; exact h.unacked, ?_⟩
  rw [e]
  split
  · exact h.recved
  · exact h.recved.insert (by rw [trimSeg_seqno]; exact ha hio (by omega))

theorem tcpReceive_queues (h : Queues s) (hack : g.flags.has tcpAck = true)
    (ha : ReceiveAgree s g) (hs : tcpReceive s g = .ok s') : Queues s' := by
  obtain ⟨s1, h1, hs⟩ := bind_ok hs
  cases hs
  rw [if_pos hack] at h1
  have hq := tcpUpdateAck_queues (h.frame (tcpUpdateWnd_send s g) (tcpUpdateWnd_recv s g)) ha.1 h1
  have hsame := (tcpUpdateWnd_recv s g).trans (tcpUpdateAck_recv h1)
  split
  · rename_i hpos
    refine tcpUpdateBuf_queues hq ?_
    unfold InOrder
    rw [hsame.rcvNxt, hsame.state, hsame.recved]
    exact ha.2 hpos
  · exact hq

theorem tcpPcbPurge_queues (hs : tcpPcbPurge s = .ok s') : Queues s' := by
  unfold tcpPcbPurge at hs
  split at hs
  · cases hs
  · cases hs; exact ⟨ordered_nil, ordered_nil, ordered_nil⟩

theorem processState_queues (h : Queues s) (hs : processState s g = .ok s') : Queues s' := by
  have hfin : Queues (finAcked s) := h.same rfl rfl rfl
  unfold processState at hs
  dsimp only at hs
  split at hs
  · cases hs
    have hsend : Queues s → Queues (tcpHandleSynSent s g) := by
      intro h
      unfold tcpHandleSynSent
      split
      · exact h
      split
      · exact h
      dsimp only
      split
      · refine Queues.frame ?_ (tcpSendAck_send _ _) (tcpOutputSeg_recv _ _)
        exact h.same rfl rfl rfl
      · exact h.same rfl rfl rfl
    exact hsend h
  · split at hs
    · cases hs; exact h
    · cases hs; exact h.same rfl rfl rfl
  · split at hs
    · cases hs; exact h.same rfl rfl rfl
    · cases hs; exact h
  · split at hs
    · cases hs; exact h.same rfl rfl rfl
    · cases hs; exact h
  · split at hs
    · exact tcpPcbPurge_queues hs
    · cases hs; exact h
  · unfold processFinWait1 at hs
    obtain ⟨s1, h1, hs⟩ := bind_ok hs
    cases hs
    have hq : Queues s1 := by
      split at h1
      · exact tcpPcbPurge_queues h1
      split at h1
      · cases h1; exact h.same rfl rfl rfl
      split at h1
      · cases h1; exact hfin.same rfl rfl rfl
      · cases h1; exact h
    split
    · exact hq.same rfl rfl rfl
    · exact hq
  · split at hs
    · exact tcpPcbPurge_queues hs
    · cases hs; exact h
  · split at hs
    · exact tcpPcbPurge_queues hs
    · cases hs; exact h
  · cases hs
    obtain ⟨h1, -, h2⟩ := processTimeWait_send s g
    exact h.same h1.unsent h1.unacked h2
  · cases hs; exact h
  · cases hs; exact h

def Accepts (s : Pcb) (g : Segment) : Prop :=
  tcpValidate s g ∧ s.state ≠ .closed ∧ g.flags.has tcpRst = false ∧ (tcpParseOption s g.options).2 ∧
    g.flags.has tcpAck ∧ s.state ≠ .timeWait

instance (s : Pcb) (g : Segment) : Decidable (Accepts s g) := inferInstanceAs (Decidable (_ ∧ _))

def Processed (s : Pcb) (g : Segment) : Prop :=
  tcpValidate s g = true ∧ s.state ≠ .closed ∧ g.flags.has tcpRst = false ∧ (tcpParseOption s g.options).2 = true

instance (s : Pcb) (g : Segment) : Decidable (Processed s g) := inferInstanceAs (Decidable (_ ∧ _))

theorem accepts_iff :
    Accepts s g ↔ Processed s g ∧ g.flags.has tcpAck = true ∧ s.state ≠ .timeWait := by
  unfold Accepts Processed
  simp only [and_assoc]

def processPcb (s : Pcb) (g : Segment) : Pcb := { (tcpParseOption s g.options).1 with idle := 0 }

def InputAgree (s : Pcb) (g : Segment) : Prop := Accepts s g → ReceiveAgree (processPcb s g) g

theorem processPcb_queues (h : Queues s) : Queues (processPcb s g) := by
  obtain ⟨mss, e, -⟩ := tcpParseOption_send g.options s
  unfold processPcb
  rw [e]; exact h.same rfl rfl rfl

theorem tcpInput_parts (hs : tcpInput s g = .ok s') :
    (¬ Processed s g ∧ (s' = s ∨ s' = (tcpParseOption s g.options).1)) ∨
    (tcpValidate s g = true ∧ g.flags.has tcpRst = true ∧ tcpHandleReset s = .ok s') ∨
    (Processed s g ∧ ¬ (g.flags.has tcpAck = true ∧ s.state ≠ .timeWait) ∧ processState (processPcb s g) g = .ok s') ∨
    (Accepts s g ∧ ∃ t, tcpReceive (processPcb s g) g = .ok t ∧ processState t g = .ok s') := by
  unfold tcpInput at hs
  by_cases h1 : tcpValidate s g = true
  case neg =>
    rw [if_pos (by simpa using h1)] at hs
    cases hs
    exact .inl ⟨fun ha => h1 ha.1, .inl rfl⟩
  rw [if_neg (by simpa using h1)] at hs
  by_cases h2 : s.state = .closed
  · rw [if_pos h2] at hs
    cases hs
    exact .inl ⟨fun ha => ha.2.1 h2, .inl rfl⟩
  rw [if_neg h2] at hs
  cases h3 : g.flags.has tcpRst with
  | true =>
    rw [h3, if_pos rfl] at hs
    exact .inr (.inl ⟨h1, rfl, hs⟩)
  | false =>
    rw [h3, if_neg (by decide)] at hs
    have hst : (tcpParseOption s g.options).1.state = s.state := (tcpParseOption_recv g.options s).state
    obtain ⟨p, ok, e⟩ : ∃ p ok, tcpParseOption s g.options = (p, ok) := ⟨_, _, rfl⟩
    have hp : processPcb s g = { p with idle := 0 } := by unfold processPcb; rw [e]
    rw [e] at hs hst
    dsimp only at hs hst
    cases ok with
    | false =>
      cases hs
      refine .inl ⟨fun ha => ?_, .inr (by rw [e])⟩
      have := ha.2.2.2
      rw [e] at this; cases this
    | true =>
      rw [if_neg (by decide), ← hp] at hs
      have hproc : Processed s g := ⟨h1, h2, h3, by rw [e]⟩
      unfold tcpProcess at hs
      have hst' : (processPcb s g).state = s.state := by rw [hp]; exact hst
      rw [hst'] at hs
      obtain ⟨t, ht, hs⟩ := bind_ok hs
      by_cases h4 : g.flags.has tcpAck = true ∧ s.state ≠ .timeWait
      · rw [if_pos h4] at ht
        exact .inr (.inr (.inr ⟨accepts_iff.2 ⟨hproc, h4⟩, t, ht, hs⟩))
      · rw [if_neg h4] at ht
        cases ht
        exact .inr (.inr (.inl ⟨hproc, h4, hs⟩))

theorem tcpInput_cases (hs : tcpInput s g = .ok s') :
    (¬ Accepts s g ∧ s' = s) ∨
    (¬ Accepts s g ∧ g.flags.has tcpRst = true ∧ tcpHandleReset s = .ok s') ∨
    (¬ Accepts s g ∧ s' = (tcpParseOption s g.options).1) ∨
    (¬ (g.flags.has tcpAck = true ∧ s.state ≠ .timeWait) ∧ processState (processPcb s g) g = .ok s') ∨
    (Accepts s g ∧ ∃ t, tcpReceive (processPcb s g) g = .ok t ∧ processState t g = .ok s') := by
  rcases tcpInput_parts hs with ⟨hnp, e | e⟩ | ⟨-, hrst, h⟩ | ⟨-, hn, h⟩ | h
  · exact .inl ⟨fun ha => hnp (accepts_iff.1 ha).1, e⟩
  · exact .inr (.inr (.inl ⟨fun ha => hnp (accepts_iff.1 ha).1, e⟩))
  · exact .inr (.inl ⟨fun ha => absurd ha.2.2.1 (by rw [hrst]; decide), hrst, h⟩)
  · exact .inr (.inr (.inr (.inl ⟨hn, h⟩)))
  · exact .inr (.inr (.inr (.inr h)))

theorem tcpInput_queues (h : Queues s) (ha : InputAgree s g)
    (hs : tcpInput s g = .ok s') : Queues s' := by
  rcases tcpInput_cases hs with ⟨-, rfl⟩ | ⟨-, -, hr⟩ | ⟨-, rfl⟩ | ⟨-, hp⟩ | ⟨hacc, t, ht, hp⟩
  · exact h
  · unfold tcpHandleReset at hr
    split at hr
    · cases hr; exact h
    · obtain ⟨s1, h1, hr⟩ := bind_ok hr
      cases hr
      exact (tcpPcbPurge_queues h1).same rfl rfl rfl
  · obtain ⟨mss, e, -⟩ := tcpParseOption_send g.options s
    rw [e]; exact h.same rfl rfl rfl
  · exact processState_queues (processPcb_queues h) hp
  · exact processState_queues (tcpReceive_queues (processPcb_queues h) hacc.2.2.2.2.1 (ha hacc) ht) hp

/-! ## System calls -/

def SendLoopAgree (flags : Flags) : List ((Nat → UInt8) × Nat) → Nat → Pcb → Prop
  | [], _, _ => True
  | v :: iov, left, s =>
    if left = 0 then True
    else if v.2 = 0 then SendLoopAgree flags iov left s
    else
      let len := if left < v.2 then left else v.2
      EnqueueAgree s v.1 len flags ∧ ∀ s', tcpEnqueue s v.1 len flags = .ok s' → SendLoopAgree flags iov (left - len) s'

def SendmsgAgree (s : Pcb) (iov : List ((Nat → UInt8) × Nat)) (flags : Flags) : Prop :=
  let size := (iov.map Prod.snd).sum % 2 ^ 32
  s.state = .established → size ≤ s.sndWnd →
    SendLoopAgree flags iov size s ∧ ∀ s', sendLoop flags iov size s = .ok s' → OutputAgree s'

theorem sendLoop_queues : ∀ (iov : List ((Nat → UInt8) × Nat)) (left : Nat) (s s' : Pcb), Queues s →
    SendLoopAgree f iov left s → sendLoop f iov left s = .ok s' → Queues s'
  | [], _, s, s', h, _, hs => by cases hs; exact h
  | v :: iov, left, s, s', h, ha, hs => by
    unfold sendLoop at hs
    unfold SendLoopAgree at ha
    by_cases h0 : left = 0
    · rw [if_pos h0] at hs
      cases hs; exact h
    rw [if_neg h0] at hs ha
    by_cases h1 : v.2 = 0
    · rw [if_pos h1] at hs ha
      exact sendLoop_queues iov left s s' h ha hs
    rw [if_neg h1] at hs ha
    obtain ⟨s1, h2, hs⟩ := bind_ok hs
    exact sendLoop_queues iov _ s1 s' (tcpEnqueue_queues h ha.1 h2) (ha.2 s1 h2) hs

theorem tcpSendmsg_queues {iov : List ((Nat → UInt8) × Nat)} (h : Queues s)
    (ha : SendmsgAgree s iov f) (hs : tcpSendmsg s iov f = .ok s') : Queues s' := by
  unfold tcpSendmsg at hs
  dsimp only at hs ha
  split at hs
  · cases hs; exact h
  rename_i hst
  split at hs
  · cases hs; exact h
  obtain ⟨ha1, ha2⟩ := ha (not_not.1 hst) (by omega)
  obtain ⟨s1, h1, hs⟩ := bind_ok hs
  exact tcpOutput_queues (sendLoop_queues _ _ _ _ h ha1 h1) (ha2 s1 h1) hs

/-- `tcp_enqueue` and `tcp_output` of a segment without data, in the state `st` in between. -/
def HeaderAgree (s : Pcb) (flags : Flags) (st : TcpState) : Prop :=
  EnqueueAgree s (fun _ => 0) 0 flags ∧
    ∀ s', tcpEnqueue s (fun _ => 0) 0 flags = .ok s' → OutputAgree { s' with state := st }

theorem header_queues {s1 : Pcb} {st : TcpState} (h : Queues s) (ha : HeaderAgree s f st)
    (h1 : tcpEnqueue s (fun _ => 0) 0 f = .ok s1) (hs : tcpOutput { s1 with state := st } = .ok s') : Queues s' := by
  refine tcpOutput_queues ?_ (ha.2 s1 h1) hs
  exact (tcpEnqueue_queues h ha.1 h1).same rfl rfl rfl

theorem recvLoop_keys : ∀ (l : List Pbuf) (left : Nat) (iov : List Iovec) (wnd : Nat)
    (r : Nat × List Iovec × Nat × List Pbuf), recvLoop l left iov wnd = .ok r →
    r.2.2.2.map Pbuf.seqno <:+ l.map Pbuf.seqno
  | [], left, iov, wnd, r, hs => by cases hs; exact suffix_refl _
  | p :: rest, left, iov, wnd, r, hs => by
    obtain ⟨q, e, hq⟩ : ∃ q : Pbuf, q = (if p.total ≠ 0 then { p with length := p.size, total := 0 } else p) ∧
        q.seqno = p.seqno := by
      refine ⟨_, rfl, ?_⟩
      split <;> rfl
    simp only [recvLoop, ← e] at hs
    generalize (if left < q.size then left else q.size) = len at hs
    split at hs
    · cases hs
    split at hs
    · cases hs
      simp only [map_cons, hq]
      exact suffix_refl _
    split at hs
    · cases hs
    split at hs
    · cases hs
    · exact (recvLoop_keys _ _ _ _ _ hs).trans (suffix_cons _ _)

theorem recvQueued_keys {iov iov' : List Iovec} (hs : recvQueued s iov = .ok (s', iov')) :
    s'.recved.map Pbuf.seqno <:+ s.recved.map Pbuf.seqno := by
  unfold recvQueued at hs
  dsimp only at hs
  split at hs
  · cases hs
  · obtain ⟨r, hr, hs⟩ := bind_ok hs
    obtain ⟨rfl, -⟩ := Prod.mk.inj (ok.inj hs)
    exact recvLoop_keys _ _ _ _ _ hr

theorem Ordered.suffix (h : Ordered l) (hs : l'.map Pbuf.seqno <:+ l.map Pbuf.seqno) : Ordered l' := by
  obtain ⟨n, hn⟩ : ∃ n, l'.map Pbuf.seqno = (l.drop n).map Pbuf.seqno := by
    obtain ⟨t, ht⟩ := hs
    exact ⟨t.length, by rw [map_drop, ← ht, drop_left]⟩
  exact (h.sublist (drop_sublist n l)).keys hn

theorem recvQueued_queues {iov iov' : List Iovec} (h : Queues s)
    (hs : recvQueued s iov = .ok (s', iov')) : Queues s' := by
  have hsend := recvQueued_send hs
  exact ⟨by rw [hsend.unsent]; exact h.unsent, by rw [hsend.unacked]; exact h.unacked, h.recved.suffix (recvQueued_keys hs)⟩

/-! ## Runs -/

/-- The steps that put segments only where their numbers compare as `int`s as they do modulo 2^32. -/
def Agrees (s : State) : Act → Prop
  | .connect => s.pcb.state = .closed → HeaderAgree { s.pcb with state := .synSent } tcpSyn .synSent
  | .input g => InputAgree s.pcb g
  | .send iov flags => SendmsgAgree s.pcb iov flags
  | .close =>
    (s.pcb.state = .established ∨ s.pcb.state = .synRcvd → HeaderAgree s.pcb tcpFin .finWait1) ∧
      (s.pcb.state = .closeWait → HeaderAgree s.pcb tcpFin .lastAck)
  | .timeout .rexmit => RexmitAgree { s.pcb with
      rtxCnt := s.pcb.rtxCnt + 1, rto := tcpUpdateRto s.pcb (tcpBackoff (s.pcb.rtxCnt + 1).toNat) }
  | .fastimo => OutputAgree (if s.pcb.ackDelay then { s.pcb with ackNow := true } else s.pcb)
  | .recv _ | .resume _ | .setsockopt _ _ | .timeout _ | .slowtimo | .sent _ => True

theorem tcpTimeout_queues {type : TcpTimer} (h : Queues s)
    (ha : type = .rexmit → RexmitAgree { s with
      rtxCnt := s.rtxCnt + 1, rto := tcpUpdateRto s (tcpBackoff (s.rtxCnt + 1).toNat) })
    (hs : tcpTimeout s type = .ok s') : Queues s' := by
  have hclose : ∀ {t : Pcb}, (do let s ← tcpPcbPurge t; pure { s with state := .closed } : Except Fault Pcb) = .ok s' →
      Queues s' := by
    intro t h
    obtain ⟨s1, h1, h⟩ := bind_ok h
    cases h; exact (tcpPcbPurge_queues h1).same rfl rfl rfl
  unfold tcpTimeout at hs
  cases type with
  | syn =>
    dsimp only at hs
    split at hs
    · cases hs; exact h
    · exact hclose hs
  | rexmit =>
    dsimp only at hs
    split at hs
    · exact hclose hs
    · refine tcpRexmit_queues ?_ (ha rfl) hs
      exact h.same rfl rfl rfl
  | persist =>
    cases hs
    split
    · exact h.same rfl rfl rfl
    · exact h
  | keepalive =>
    dsimp only at hs
    split at hs
    · cases hs; exact h
    · exact hclose hs
  | finWait2 => exact tcpPcbPurge_queues hs
  | timewait => exact tcpPcbPurge_queues hs

theorem tcpClose_queues (h : Queues s)
    (h1 : s.state = .established ∨ s.state = .synRcvd → HeaderAgree s tcpFin .finWait1)
    (h2 : s.state = .closeWait → HeaderAgree s tcpFin .lastAck) (hs : tcpClose s = .ok s') : Queues s' := by
  unfold tcpClose at hs
  split at hs
  · exact tcpPcbPurge_queues hs
  · exact tcpPcbPurge_queues hs
  · exact tcpPcbPurge_queues hs
  · obtain ⟨s1, h3, hs⟩ := bind_ok hs
    exact header_queues h (h1 (.inr ‹_›)) h3 hs
  · obtain ⟨s1, h3, hs⟩ := bind_ok hs
    exact header_queues h (h1 (.inl ‹_›)) h3 hs
  · obtain ⟨s1, h3, hs⟩ := bind_ok hs
    exact header_queues h (h2 ‹_›) h3 hs
  · cases hs; exact h

theorem deviceSent_queues (h : Queues s) (i : Nat) : Queues (deviceSent s i) := by
  refine ⟨h.unsent, h.unacked.keys ?_, h.recved⟩
  unfold deviceSent
  refine ext_getElem? fun j => ?_
  rw [getElem?_map, getElem?_map, getElem?_modify]
  cases s.unacked[j]? with
  | none => rfl
  | some p => by_cases hij : i = j <;> simp [hij]

theorem step_queues {s s' : State} {a : Act} (h : Queues s.pcb) (ha : Agrees s a) (hs : step s a = .ok s') :
    Queues s'.pcb := by
  cases a with
  | connect =>
    obtain ⟨p, h1, hs⟩ := bind_ok hs
    cases hs
    unfold tcpConnect at h1
    split at h1
    · cases h1; exact h
    · rename_i hst
      obtain ⟨s1, h2, h1⟩ := bind_ok h1
      have e : { s1 with state := TcpState.synSent } = s1 := by
        have hst1 : s1.state = .synSent := (tcpEnqueue_recv h2).state
        cases s1; cases hst1; rfl
      rw [← e] at h1
      refine header_queues ?_ (ha (not_not.1 hst)) h2 h1
      exact h.same rfl rfl rfl
  | input g =>
    obtain ⟨p, h1, hs⟩ := bind_ok hs
    cases hs; exact tcpInput_queues h ha h1
  | send iov flags =>
    obtain ⟨p, h1, hs⟩ := bind_ok hs
    cases hs; exact tcpSendmsg_queues h ha h1
  | recv sizes =>
    obtain ⟨⟨p, iov⟩, h1, hs⟩ := bind_ok hs
    cases hs
    rcases tcpRecvmsg_cases h1 with rfl | h1
    · exact h
    · exact recvQueued_queues h h1
  | resume sizes =>
    obtain ⟨⟨p, iov⟩, h1, hs⟩ := bind_ok hs
    cases hs; exact recvQueued_queues h h1
  | setsockopt opt val =>
    cases hs
    cases opt <;> exact h.same rfl rfl rfl
  | close =>
    obtain ⟨p, h1, hs⟩ := bind_ok hs
    cases hs; exact tcpClose_queues h ha.1 ha.2 h1
  | timeout type =>
    obtain ⟨p, h1, hs⟩ := bind_ok hs
    cases hs
    exact tcpTimeout_queues h (by rintro rfl; exact ha) h1
  | slowtimo => cases hs; exact h.same rfl rfl rfl
  | fastimo =>
    obtain ⟨p, h1, hs⟩ := bind_ok hs
    cases hs
    unfold tcpFastimo at h1
    have hq : Queues (if s.pcb.ackDelay then { s.pcb with ackNow := true } else s.pcb) := by
      split
      · exact h.same rfl rfl rfl
      · exact h
    have ha : OutputAgree (if s.pcb.ackDelay then { s.pcb with ackNow := true } else s.pcb) := ha
    generalize (if s.pcb.ackDelay then { s.pcb with ackNow := true } else s.pcb) = q at hq ha h1
    dsimp only at h1
    split at h1
    · exact tcpOutput_queues hq ha h1
    · cases h1; exact hq
  | sent i => cases hs; exact deviceSent_queues h i

theorem tcpEnqueueSeg_len {ptr : Nat} {left len : Int}
    (hs : tcpEnqueueSeg src ptr left size f s = .ok (s', len)) :
    len = enqueueLen s (enqueueBuf s f) left ∧ s'.unacked = s.unacked := by
  unfold tcpEnqueueSeg at hs
  split at hs
  · cases hs
  · dsimp only at hs
    split at hs
    · obtain ⟨rfl, rfl⟩ := Prod.mk.inj (ok.inj hs); exact ⟨rfl, rfl⟩
    · obtain ⟨rfl, rfl⟩ := Prod.mk.inj (ok.inj hs); exact ⟨rfl, rfl⟩

theorem enqueueLoop_unacked :
    ∀ (fuel ptr : Nat) (left : Int) (s s' : Pcb), enqueueLoop src size f fuel ptr left s = .ok s' → s'.unacked = s.unacked
  | 0, _, _, s, s', h => by cases h; rfl
  | fuel + 1, ptr, left, s, s', h => by
    obtain ⟨⟨s1, len⟩, h1, h⟩ := bind_ok h
    have h1' := (tcpEnqueueSeg_len h1).2
    dsimp only at h
    split at h
    · exact (enqueueLoop_unacked _ _ _ _ _ h).trans h1'
    · cases h; exact h1'

theorem tcpEnqueue_unacked
    (h : tcpEnqueue s src size f = .ok s') : s'.unacked = s.unacked := by
  rw [enqueueLoop_unacked _ _ _ _ _ h]
  split <;> rfl

theorem headerAgree_of_empty {st : TcpState} (h1 : s.unsent = []) (h2 : s.unacked = [])
    (h3 : s.sndBuf = none) : HeaderAgree s f st := by
  refine ⟨⟨?_, ?_⟩, ?_⟩
  · intro s' len _ _ q hq
    have : (if s.sndMss < tcpDefaultMss then { s with sndMss := tcpDefaultMss } else s).unsent = s.unsent := by
      split <;> rfl
    rw [this, h1] at hq
    cases hq
  · -- a segment without data takes one round
    intro s' len hs hlt
    obtain ⟨hlen, -⟩ := tcpEnqueueSeg_len hs
    have hbuf : (if s.sndMss < tcpDefaultMss then { s with sndMss := tcpDefaultMss } else s).sndBuf = none := by
      split <;> exact h3
    exfalso
    rw [hlen] at hlt
    unfold enqueueLen enqueueBuf at hlt
    rw [hbuf] at hlt
    dsimp only at hlt
    split at hlt <;> omega
  · intro s' hs p _ q hq
    have : s'.unacked = [] := (tcpEnqueue_unacked hs).trans h2
    rw [show ({ s' with state := st } : Pcb).unacked = s'.unacked from rfl, this] at hq
    cases hq

theorem start_queues {s : State} (h : tcp.start s) : Queues s.pcb := by
  obtain ⟨-, isn, e | ⟨mss, g, -, -, e⟩⟩ := h
  · rw [e]; exact ⟨ordered_nil, ordered_nil, ordered_nil⟩
  · unfold tcpHandleListen at e
    obtain ⟨s1, h1, e⟩ := bind_ok e
    have hst : { s1 with state := TcpState.synRcvd } = s1 := by
      have hst1 : s1.state = .synRcvd := (tcpEnqueue_recv h1).state
      cases s1; cases hst1; rfl
    refine header_queues ?_ (headerAgree_of_empty rfl rfl rfl) h1 e
    exact ⟨ordered_nil, ordered_nil, ordered_nil⟩

theorem reach_queues {s : State} (h : tcp.Reach Agrees s) : Queues s.pcb :=
  h.inv (I := fun s => Queues s.pcb) (fun _ => start_queues) fun _ _ _ hi hc hs => step_queues hi hc hs.2

theorem outputLoop_suffix {wnd : BitVec 32} : ∀ (l : List Pbuf) (s s' : Pcb), s.unsent = l →
    outputLoop wnd l s = .ok s' → s'.unsent <:+ l
  | [], s, s', hl, hs => by cases hs; exact hl ▸ suffix_refl _
  | p :: rest, s, s', hl, hs => by
    simp only [outputLoop] at hs
    split at hs
    · cases hs; exact hl ▸ suffix_refl _
    split at hs
    · cases hs
    · refine (outputLoop_suffix rest _ s' ?_ hs).trans (suffix_cons _ _)
      rw [(tcpOutputSeg_send _ _).unsent]

theorem tcpOutput_suffix (hs : tcpOutput s = .ok s') : s'.unsent <:+ s.unsent := by
  unfold tcpOutput at hs
  have h1 := (slowStart_send s).unsent
  dsimp only at hs
  split at hs
  · cases hs; exact h1 ▸ suffix_refl _
  · obtain ⟨s1, h2, hs⟩ := bind_ok hs
    have h3 := outputLoop_suffix _ _ _ rfl h2
    rw [h1] at h3
    split at hs
    · cases hs; rw [(tcpSendAck_send _ _).unsent]; exact h3
    · cases hs; exact h3

/-- The opening of that connection and two calls of `tcp_sendmsg`, the second one from 2^31 on. -/
def crossing : List Act :=
  [.connect, .input ⟨0, 0x7ffffff1, tcpSyn ||| tcpAck, 4096, [], []⟩, .setsockopt .nodelay true,
    .send [(fun _ => 1, 16)] 0, .send [(fun _ => 2, 1)] 0]

end Onix.Tcp
