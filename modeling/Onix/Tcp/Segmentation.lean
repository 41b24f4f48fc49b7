/-
Runs of an established pcb that `tcp_enqueue` fills, `tcp_output` empties and segments with `MSS` options and
acknowledgements reach: the segments stay contiguous and hold exactly the bytes not yet acknowledged, as long as
the segment size is never below what the Nagle buffer holds when `tcp_enqueue` is called. Below it `tcp_enqueue`
takes a negative length and cuts bytes off the buffer.
-/
import Onix.Tcp.Segments

namespace Onix.Tcp

open List Onix.Lib

/-! ## The machine -/

/-- A connection with the bytes enqueued since `snd_nbb` was `base`, how many of them are acknowledged, and the
rounds of `tcp_enqueue`. -/
structure Sending where
  conn : State
  base : Seq
  enqueued : List UInt8
  acked : Nat
  fills : List Fill

/-- A call of `tcp_enqueue` or `tcp_output`, or what else happens to the connection. -/
inductive SendAct
  | enqueue (src : Nat → UInt8) (size : Nat) (flags : Flags)
  | output
  | act (a : Act)

def Act.enqueues : Act → Bool
  | .connect | .send _ _ | .close => true
  | .input _ | .recv _ | .resume _ | .setsockopt _ _ | .timeout _ | .slowtimo | .fastimo | .sent _ => false

def Sending.withPcb (s : Sending) (p : Pcb) : Sending := { s with conn := { s.conn with pcb := p } }

def sendStep (s : Sending) : SendAct → Except Fault Sending
  | .enqueue src size f => do
    let p ← tcpEnqueue s.conn.pcb src size f
    pure { s.withPcb p with
      enqueued := s.enqueued ++ taken src 0 size, fills := s.fills ++ tcpEnqueueFills s.conn.pcb src size f }
  | .output => do let p ← tcpOutput s.conn.pcb; pure (s.withPcb p)
  | .act a => do
    let c ← step s.conn a
    pure { s with conn := c, acked := s.acked + (dist s.conn.pcb.sndUna c.pcb.sndUna).toNat }

/-- The pcb is established, and a size is one that an `int` holds. -/
def sendEnabled (s : Sending) (a : SendAct) : Prop :=
  s.conn.pcb.state = .established ∧ match a with
  | .enqueue _ size _ => size < 2 ^ 31
  | .output => True
  | .act a => enabled s.conn a ∧ a.enqueues = false

instance (s : Sending) : (a : SendAct) → Decidable (sendEnabled s a)
  | .enqueue _ _ _ => inferInstanceAs (Decidable (_ ∧ _ < _))
  | .output => inferInstanceAs (Decidable (_ ∧ True))
  | .act _ => inferInstanceAs (Decidable (_ ∧ _ ∧ _))

def segmenting : Machine Sending SendAct Fault where
  start s := s.conn.pcb.state = .established ∧ listed s.conn.pcb = [] ∧ s.conn.pcb.sndBuf = none ∧
    s.conn.pcb.sndUna = s.base ∧ s.conn.pcb.sndNbb = s.base ∧ s.conn.pcb.sndMss ≤ tcpMaxWindow ∧
    s.enqueued = [] ∧ s.acked = 0 ∧ s.fills = []
  enabled := sendEnabled
  step := sendStep

instance (s : Sending) (a : SendAct) : Decidable (segmenting.enabled s a) := inferInstanceAs (Decidable (sendEnabled s a))

/-! ## What holds of a run -/

/-- The segments in sequence order are contiguous up to `snd_nbb` and hold the bytes not yet acknowledged, the first
of them perhaps some acknowledged ones before; each is as a round of `tcp_enqueue` filled it, within the `snd_mss`
then; and `snd_una` and `snd_nbb` count the bytes acknowledged and enqueued. -/
structure Segmented (s : Sending) : Prop where
  order : ∃ q a m, q.Perm (segments s.conn.pcb) ∧ Contig a q s.conn.pcb.sndNbb ∧
    a + BitVec.ofNat 32 m = s.conn.pcb.sndUna ∧ Headed m q ∧ (content q).drop m = s.enqueued.drop s.acked
  filled : ∀ g ∈ segments s.conn.pcb, ∃ x ∈ s.fills, x.seg = g ∧ g.data.length ≤ x.mss
  una : s.conn.pcb.sndUna = s.base + BitVec.ofNat 32 s.acked
  nbb : s.conn.pcb.sndNbb = s.base + BitVec.ofNat 32 s.enqueued.length
  acked : s.acked ≤ s.enqueued.length

def pbufRoom : Nat := 2048 - 40 - 14 - 20

/-- A call of `tcp_enqueue` that fits: the Nagle buffer is not above the segment size, and no round writes behind the end
of its buffer. -/
structure EnqueueFits (s : Pcb) (size : Nat) (f : Flags) : Prop where
  nagle : (enqueueBuf s f).size ≤ max s.sndMss tcpDefaultMss
  room : (enqueueBuf s f).total + min size (max s.sndMss tcpDefaultMss - (enqueueBuf s f).size) ≤ pbufRoom
  next : max s.sndMss tcpDefaultMss - (enqueueBuf s f).size < size →
    tcpWriteOption f + min (size - (max s.sndMss tcpDefaultMss - (enqueueBuf s f).size)) (max s.sndMss tcpDefaultMss) ≤ pbufRoom

/-- The calls of `tcp_enqueue` fit, and segments acknowledge nothing beyond what is queued. -/
def SendFits (s : Sending) : SendAct → Prop
  | .enqueue _ size f => EnqueueFits s.conn.pcb size f
  | .act (.input g) => Accepts s.conn.pcb g → AckQueued s.conn.pcb g.ackno
  | _ => True

/-- The bytes held are those not acknowledged. -/
structure Sending.Inv (s : Sending) : Prop where
  holds : Holds s.conn.pcb (s.enqueued.drop s.acked)
  segs : ∀ g ∈ segments s.conn.pcb, ∃ x ∈ s.fills, x.seg = g
  sizes : ∀ x ∈ s.fills, x.seg.data.length ≤ x.mss
  una : s.conn.pcb.sndUna = s.base + BitVec.ofNat 32 s.acked
  nbb : s.conn.pcb.sndNbb = s.base + BitVec.ofNat 32 s.enqueued.length
  acked : s.acked ≤ s.enqueued.length

theorem Sending.Inv.segmented {s : Sending} (h : s.Inv) : Segmented s := by
  refine ⟨?_, fun g hg => ?_, h.una, h.nbb, h.acked⟩
  · obtain ⟨q, a, m, hq, hc, hm, hh, hr⟩ := h.holds.order
    refine ⟨q ++ held s.conn.pcb, a, m, hq.append_right _, hc.append ?_, hm, hh.append _, hr⟩
    unfold held queueEnd
    cases hb : s.conn.pcb.sndBuf with
    | none => exact rfl
    | some p =>
      obtain ⟨hend, hw⟩ := h.holds.buf p hb
      exact ⟨rfl, hw.stop.trans hend⟩
  · obtain ⟨x, hx, e⟩ := h.segs g hg
    exact ⟨x, hx, e, e ▸ h.sizes x hx⟩

/-! ## Steps -/

theorem Sending.Inv.enqueue {s : Sending} {src : Nat → UInt8} {size : Nat} {f : Flags} {p : Pcb} (h : s.Inv)
    (hf : EnqueueFits s.conn.pcb size f) (hs : tcpEnqueue s.conn.pcb src size f = .ok p) :
    Sending.Inv { s.withPcb p with
      enqueued := s.enqueued ++ taken src 0 size, fills := s.fills ++ tcpEnqueueFills s.conn.pcb src size f } := by
  obtain ⟨h1, h2⟩ := tcpEnqueue_holds h.holds hf.nagle hs
  refine ⟨?_, fun g hg => ?_, fun x hx => ?_, h1.una.trans h.una, ?_, ?_⟩
  · show Holds p ((s.enqueued ++ taken src 0 size).drop s.acked)
    rw [drop_append_of_le_length h.acked]
    exact h2
  · rcases h1.segs g hg with hg | ⟨x, hx, e⟩
    · obtain ⟨x, hx, e⟩ := h.segs g (mem_append_left _ hg)
      exact ⟨x, mem_append_left _ hx, e⟩
    · exact ⟨x, mem_append_right _ hx, e⟩
  · exact (mem_append.1 hx).elim (h.sizes x) (h1.size x)
  · show p.sndNbb = s.base + BitVec.ofNat 32 (s.enqueued ++ taken src 0 size).length
    rw [h1.nbb, h.nbb, ofNat_add_ofNat, length_append, length_taken]
  · show s.acked ≤ (s.enqueued ++ taken src 0 size).length
    rw [length_append]
    exact h.acked.trans (Nat.le_add_right _ _)

theorem Sending.Inv.drops {s : Sending} {c : State} {k : Nat} (h : s.Inv) (hd : Drops k s.conn.pcb c.pcb) :
    Sending.Inv { s with conn := c, acked := s.acked + (dist s.conn.pcb.sndUna c.pcb.sndUna).toNat } := by
  have hk : (dist s.conn.pcb.sndUna c.pcb.sndUna).toNat = k := by
    have hsmall := hd.small
    have := dist_add (a := s.conn.pcb.sndUna) (x := s.conn.pcb.sndUna) (k := k) (by rw [dist_self]; omega)
      (by rw [dist_self]; omega)
    rw [dist_self, zero_add, BitVec.ofInt_natCast, ← hd.una] at this
    rw [this, Int.toNat_natCast]
  rw [hk]
  obtain ⟨hle, hh⟩ := hd.holds h.holds
  rw [length_drop] at hle
  refine ⟨?_, fun g hg => h.segs g (hd.segs g hg), h.sizes, ?_, hd.nbb.trans h.nbb, ?_⟩
  · rwa [drop_drop] at hh
  · rw [hd.una, h.una, ofNat_add_ofNat]
  · have := h.acked
    show s.acked + k ≤ s.enqueued.length
    omega

theorem tcpTimeout_moves {s t : Pcb} {type : TcpTimer} (hs : tcpTimeout s type = .ok t) : t.state = .closed ∨ Moves s t := by
  have hclose : ∀ {u : Pcb}, (do let s ← tcpPcbPurge u; pure { s with state := .closed } : Except Fault Pcb) = .ok t →
      t.state = .closed := by
    intro u h
    obtain ⟨v, -, h⟩ := bind_ok h
    cases h
    rfl
  have hpurge : tcpPcbPurge { s with state := .closed } = .ok t → t.state = .closed := by
    intro h
    rw [tcpPcbPurge_numbers h]
  unfold tcpTimeout at hs
  cases type with
  | syn =>
    dsimp only at hs
    split at hs
    · cases hs
      exact .inr (.refl s)
    · exact .inl (hclose hs)
  | rexmit =>
    dsimp only at hs
    split at hs
    · exact .inl (hclose hs)
    · refine .inr (Moves.trans ?_ (tcpRexmit_moves hs))
      exact .frame ⟨rfl, rfl, rfl, rfl, rfl, rfl, rfl, rfl⟩
  | persist =>
    cases hs
    right
    split
    · exact .frame ⟨rfl, rfl, rfl, rfl, rfl, rfl, rfl, rfl⟩
    · exact .refl s
  | keepalive =>
    dsimp only at hs
    split at hs
    · cases hs
      exact .inr (.refl s)
    · exact .inl (hclose hs)
  | finWait2 => exact .inl (hpurge hs)
  | timewait => exact .inl (hpurge hs)

theorem tcpFastimo_moves {s t : Pcb} (hs : tcpFastimo s = .ok t) : Moves s t := by
  unfold tcpFastimo at hs
  have h0 : Moves s (if s.ackDelay then { s with ackNow := true } else s) := by
    split
    · exact .frame ⟨rfl, rfl, rfl, rfl, rfl, rfl, rfl, rfl⟩
    · exact .refl s
  generalize (if s.ackDelay then { s with ackNow := true } else s) = u at h0 hs
  dsimp only at hs
  split at hs
  · exact h0.trans (tcpOutput_moves hs)
  · cases hs
    exact h0

theorem step_drops {s t : State} {a : Act} (hst : s.pcb.state = .established) (he : enabled s a) (ha : a.enqueues = false)
    (hq : ∀ g, a = .input g → Accepts s.pcb g → AckQueued s.pcb g.ackno) (hs : step s a = .ok t) :
    t.pcb.state = .closed ∨ ∃ k, Drops k s.pcb t.pcb := by
  cases a with
  | connect => cases ha
  | send iov f => cases ha
  | close => cases ha
  | input g =>
    obtain ⟨p, h1, hs⟩ := bind_ok hs
    cases hs
    exact tcpInput_drops hst he.2.2 (hq g rfl) h1
  | recv sizes =>
    obtain ⟨⟨p, iov⟩, h1, hs⟩ := bind_ok hs
    cases hs
    refine .inr ⟨0, Moves.drops ?_⟩
    rcases tcpRecvmsg_cases h1 with rfl | h1
    · exact .refl _
    · exact .frame (recvQueued_send h1)
  | resume sizes =>
    obtain ⟨⟨p, iov⟩, h1, hs⟩ := bind_ok hs
    cases hs
    exact .inr ⟨0, (Moves.frame (recvQueued_send h1)).drops⟩
  | setsockopt opt val =>
    cases hs
    exact .inr ⟨0, (Moves.frame (tcpSetsockopt_send _ _ _)).drops⟩
  | timeout type =>
    obtain ⟨p, h1, hs⟩ := bind_ok hs
    cases hs
    exact (tcpTimeout_moves h1).imp_right fun h => ⟨0, h.drops⟩
  | slowtimo =>
    cases hs
    have hsame : SameSend s.pcb (tcpSlowtimo s.pcb) := ⟨rfl, rfl, rfl, rfl, rfl, rfl, rfl, rfl⟩
    exact .inr ⟨0, (Moves.frame hsame).drops⟩
  | fastimo =>
    obtain ⟨p, h1, hs⟩ := bind_ok hs
    cases hs
    exact .inr ⟨0, (tcpFastimo_moves h1).drops⟩
  | sent i =>
    cases hs
    exact .inr ⟨0, (deviceSent_moves _ i).drops⟩

theorem sendStep_inv {s t : Sending} {a : SendAct} (h : s.conn.pcb.state ≠ .closed → s.Inv) (hf : SendFits s a)
    (hs : segmenting.Steps s a t) : t.conn.pcb.state ≠ .closed → t.Inv := by
  obtain ⟨⟨hst, he⟩, hs⟩ := hs
  have hi := h (by rw [hst]; decide)
  cases a with
  | enqueue src size f =>
    obtain ⟨p, h1, hs⟩ := bind_ok hs
    cases hs
    exact fun _ => hi.enqueue hf h1
  | output =>
    obtain ⟨p, h1, hs⟩ := bind_ok hs
    cases hs
    have hd : Drops 0 s.conn.pcb p := (tcpOutput_moves h1).drops
    intro _
    have := hi.drops (c := { s.conn with pcb := p }) hd
    rwa [show dist s.conn.pcb.sndUna p.sndUna = 0 by rw [(tcpOutput_moves h1).una, dist_self]] at this
  | act a =>
    obtain ⟨c, h1, hs⟩ := bind_ok hs
    cases hs
    intro hc
    have hq : ∀ g, a = .input g → Accepts s.conn.pcb g → AckQueued s.conn.pcb g.ackno := by
      rintro g rfl
      exact hf
    obtain ⟨k, hk⟩ := (step_drops hst he.1 he.2 hq h1).resolve_left hc
    exact hi.drops hk

theorem start_inv {s : Sending} (h : segmenting.start s) : s.Inv := by
  obtain ⟨-, hl, hb, hu, hn, hm, he, ha, hf⟩ := h
  have hq : listedSegs s.conn.pcb = [] := by
    unfold listedSegs
    rw [hl]
    rfl
  have hh : held s.conn.pcb = [] := by
    unfold held
    rw [hb]
    rfl
  refine ⟨⟨⟨[], s.base, 0, ?_, ?_, ?_, .inl rfl, ?_⟩, ?_, ?_, ?_, hm⟩, ?_, ?_, ?_, ?_, ?_⟩
  · rw [hq]
  · unfold queueEnd
    rw [hb]
    exact hn.symm
  · rw [hu]
    exact BitVec.add_zero _
  · rw [hh, he, drop_nil]
    rfl
  · rw [hl]
    rintro p ⟨⟩
  · rw [hb]
    rintro p ⟨⟩
  · rw [hl, hb]
    exact Nat.zero_le _
  · unfold segments
    rw [hq, hh]
    rintro g ⟨⟩
  · rw [hf]
    rintro x ⟨⟩
  · rw [ha, hu]
    exact (BitVec.add_zero _).symm
  · rw [he, hn]
    exact (BitVec.add_zero _).symm
  · rw [ha]
    exact Nat.zero_le _

/-- In every run whose calls of `tcp_enqueue` find no Nagle buffer above the segment size, the segments are contiguous,
within their segment sizes, and hold the bytes not yet acknowledged, until the pcb is closed. -/
theorem segmentation {s : Sending} (h : segmenting.Reach SendFits s) (hc : s.conn.pcb.state ≠ .closed) : Segmented s :=
  (h.inv (I := fun s : Sending => s.conn.pcb.state ≠ .closed → s.Inv) (fun _ h0 _ => start_inv h0)
    (fun _ _ _ hi hf hs => sendStep_inv hi hf hs) hc).segmented

instance (s : Pcb) (size : Nat) (f : Flags) : Decidable (EnqueueFits s size f) :=
  decidable_of_iff (_ ∧ _ ∧ _) ⟨fun ⟨h1, h2, h3⟩ => ⟨h1, h2, h3⟩, fun ⟨h1, h2, h3⟩ => ⟨h1, h2, h3⟩⟩

instance (s : Sending) : (a : SendAct) → Decidable (SendFits s a)
  | .enqueue _ size f => inferInstanceAs (Decidable (EnqueueFits s.conn.pcb size f))
  | .act (.input g) => inferInstanceAs (Decidable (Accepts s.conn.pcb g → _))
  | .output | .act .connect | .act (.send _ _) | .act (.recv _) | .act (.resume _) | .act (.setsockopt _ _) | .act .close
  | .act (.timeout _) | .act .slowtimo | .act .fastimo | .act (.sent _) => inferInstanceAs (Decidable True)

def opened : Sending := ⟨⟨{ tcpPcbGet 5 with state := .established, sndMss := 1460 }, true, []⟩, 5, [], 0, []⟩

theorem opened_start : segmenting.start opened := ⟨rfl, rfl, rfl, rfl, rfl, by decide, rfl, rfl, rfl⟩

/-- Three bytes in the Nagle buffer and two more, sent with the segment size of 536 that came in between. -/
theorem segmentation_small : ∃ s, segmenting.Reach SendFits s ∧ s.enqueued = [1, 1, 1, 2, 2] ∧ Segmented s := by
  have h : (segmenting.trace SendFits opened [.enqueue (fun _ => 1) 3 0, .act (.input ⟨0, 5, tcpAck, 4096, [.optMss 4 536], []⟩),
      .act (.setsockopt .nodelay true), .enqueue (fun _ => 2) 2 0, .output]).map (fun s => (s.enqueued, s.conn.pcb.state)) =
      some ([1, 1, 1, 2, 2], .established) := by decide +kernel
  obtain ⟨s, hs, he⟩ := Option.map_eq_some_iff.1 h
  obtain ⟨h1, h2⟩ := Prod.mk.inj he
  have hr : segmenting.Reach SendFits s := Machine.trace_reach opened_start hs
  exact ⟨s, hr, h1, segmentation hr (by rw [h2]; decide)⟩

/-- 600 bytes in the Nagle buffer, the last of them 7, an `MSS` of 536, and one more byte: the 7 is cut off. -/
def shrinking : List SendAct :=
  [.enqueue (fun i => if i = 599 then 7 else 0) 600 0, .act (.input ⟨0, 5, tcpAck, 4096, [.optMss 4 536], []⟩),
    .enqueue (fun _ => 0) 1 0]

theorem nagle_cut : ∃ s, segmenting.Reach Machine.Any s ∧ s.conn.pcb.state = .established ∧ ¬ Segmented s := by
  have h : (segmenting.trace Machine.Any opened shrinking).map (fun s => (s.conn.pcb.state, decide (7 ∈ s.enqueued.drop s.acked ∧
      ∀ g ∈ segments s.conn.pcb, 7 ∉ g.data))) = some (.established, true) := by decide +kernel
  obtain ⟨s, hs, he⟩ := Option.map_eq_some_iff.1 h
  obtain ⟨h1, h2⟩ := Prod.mk.inj he
  obtain ⟨h3, h4⟩ := of_decide_eq_true h2
  refine ⟨s, Machine.trace_reach opened_start hs, h1, fun hseg => ?_⟩
  obtain ⟨q, a, m, hq, -, -, -, hd⟩ := hseg.order
  rw [← hd] at h3
  obtain ⟨g, hg, h7⟩ := List.mem_flatMap.1 (List.mem_of_mem_drop h3)
  exact h4 g (hq.mem_iff.1 hg) h7

end Onix.Tcp
