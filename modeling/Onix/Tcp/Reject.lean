/-
Segments a connection before its handshake does not expect. `tcp_process` works on the acknowledgement
and the data of a segment before it looks at the state, so a `LISTEN` or `SYN_SENT` pcb is left as it
was by a segment it rejects exactly when the segment has no acknowledgement, or one whose window, number
and data change nothing.
-/
import Onix.Tcp.Window

namespace Onix.Tcp

open Except Onix.Lib

/-! ## Rejected segments -/

def Expected (s : Pcb) (g : Segment) : Prop :=
  (s.state = .listen ∧ g.flags = tcpSyn) ∨ (s.state = .synSent ∧ g.flags = tcpSyn ||| tcpAck ∧ g.ackno = s.sndNxt + 1)

instance (s : Pcb) (g : Segment) : Decidable (Expected s g) := inferInstanceAs (Decidable (_ ∨ _))

def received (s : Pcb) (g : Segment) : Except Fault Pcb :=
  if g.flags.has tcpAck ∧ s.state ≠ .timeWait then tcpReceive s g else .ok s

/-- `tcp_process` returns an error; `full`: as many connections wait as the backlog allows. -/
def Refuses (s : Pcb) (g : Segment) (full : Bool) : Prop :=
  ∃ t, received s g = .ok t ∧ ((t.state = .listen ∧ (g.flags ≠ tcpSyn ∨ full = true)) ∨
    (t.state = .synSent ∧ (g.flags ≠ tcpSyn ||| tcpAck ∨ g.ackno ≠ t.sndNxt + 1)))

def Rejected (s : Pcb) (g : Segment) (full : Bool) : Prop := ¬ Expected (processPcb s g) g ∨ Refuses (processPcb s g) g full

/-- The fields a rejected segment has to leave alone. -/
structure Untouched (s t : Pcb) : Prop where
  sndUna : t.sndUna = s.sndUna
  sndNxt : t.sndNxt = s.sndNxt
  sndWnd : t.sndWnd = s.sndWnd
  sndCwnd : t.sndCwnd = s.sndCwnd
  dupacks : t.dupacks = s.dupacks
  rcvNxt : t.rcvNxt = s.rcvNxt
  rcvWnd : t.rcvWnd = s.rcvWnd
  unsent : t.unsent = s.unsent
  unacked : t.unacked = s.unacked
  recved : t.recved = s.recved

theorem Untouched.refl (s : Pcb) : Untouched s s := ⟨rfl, rfl, rfl, rfl, rfl, rfl, rfl, rfl, rfl, rfl⟩

def NewWnd (s : Pcb) (g : Segment) : Prop := seqLT s.sndWl1 g.seqno ∨ (g.seqno = s.sndWl1 ∧ seqLEQ s.sndWl2 g.ackno)

instance (s : Pcb) (g : Segment) : Decidable (NewWnd s g) := inferInstanceAs (Decidable (_ ∨ _))
instance (s : Pcb) (g : Segment) : Decidable (InOrder s g) := inferInstanceAs (Decidable (_ ∧ _))

/-- Nothing in the segment changes the pcb: no acknowledgement, or an old one over data that is not new,
with the window the pcb has and no duplicate counted. -/
def Ignored (s : Pcb) (g : Segment) : Prop :=
  g.flags.has tcpAck = false ∨
    ((NewWnd s g → g.window = s.sndWnd) ∧ seqGEQ s.sndUna g.ackno ∧ 0 < g.size ∧ s.dupacks = 0 ∧ ¬ InOrder s g)

instance (s : Pcb) (g : Segment) : Decidable (Ignored s g) := inferInstanceAs (Decidable (_ ∨ _))

/-! ## What stays of an acknowledgement -/

theorem tcpOutputSeg_dupacks (s : Pcb) (f : Flags) : (tcpOutputSeg s f).dupacks = s.dupacks := by
  unfold tcpOutputSeg
  split <;> rfl

theorem outputLoop_dupacks {wnd : BitVec 32} :
    ∀ (l : List Pbuf) (s t : Pcb), outputLoop wnd l s = .ok t → t.dupacks = s.dupacks
  | [], s, t, h => by cases h; rfl
  | p :: rest, s, t, h => by
    simp only [outputLoop] at h
    split at h
    · cases h; rfl
    · split at h
      · cases h
      · refine (outputLoop_dupacks rest _ t h).trans ((tcpOutputSeg_dupacks _ _).trans ?_)
        split <;> rfl

variable {s t : Pcb}

theorem tcpOutput_dupacks (h : tcpOutput s = .ok t) : t.dupacks = s.dupacks := by
  have hslow : (slowStart s).dupacks = s.dupacks := by
    unfold slowStart
    split <;> rfl
  unfold tcpOutput at h
  simp only at h
  split at h
  · cases h; exact hslow
  · obtain ⟨u, hu, h⟩ := bind_ok h
    have hu := outputLoop_dupacks _ _ _ hu
    split at h
    · cases h
      exact (tcpOutputSeg_dupacks _ _).trans (hu.trans hslow)
    · cases h; exact hu.trans hslow

theorem tcpRexmit_dupacks (h : tcpRexmit s = .ok t) : t.dupacks = s.dupacks := by
  exact (tcpOutput_dupacks h).trans rfl

theorem tcpHandleDuppacks_dupacks (h : tcpHandleDuppacks s = .ok t) : t.dupacks = s.dupacks := by
  unfold tcpHandleDuppacks at h
  split at h
  · cases h; rfl
  · split at h
    · split at h
      · cases h
      · obtain ⟨u, hu, h⟩ := bind_ok h
        cases h
        exact (tcpRexmit_dupacks hu).trans rfl
    · exact (tcpRexmit_dupacks h).trans rfl

theorem flushBuf_una (s : Pcb) (a : Seq) : (flushBuf s a).sndUna = s.sndUna := by
  unfold flushBuf
  split
  · split <;> rfl
  · rfl

theorem tcpUpdateBuf_counters (s : Pcb) (g : Segment) : (tcpUpdateBuf s g).dupacks = s.dupacks ∧ (tcpUpdateBuf s g).sndWnd = s.sndWnd ∧
    (tcpUpdateBuf s g).sndCwnd = s.sndCwnd := by
  unfold tcpUpdateBuf tcpSendAck tcpOutputSeg
  simp only
  repeat' split
  all_goals exact ⟨rfl, rfl, rfl⟩

variable {g : Segment}

theorem processState_early (hst : s.state = .listen ∨ s.state = .synSent) :
    ∃ t, processState s g = .ok t ∧ t.dupacks = s.dupacks ∧ (t = s ∨ (s.state = .synSent ∧ g.flags = tcpSyn ||| tcpAck ∧
      g.ackno = s.sndNxt + 1 ∧ t.sndUna = g.ackno)) := by
  rcases hst with e | e
  · refine ⟨s, ?_, rfl, .inl rfl⟩
    unfold processState
    rw [e]
  · refine ⟨tcpHandleSynSent s g, ?_, ?_⟩
    · unfold processState
      rw [e]
    · unfold tcpHandleSynSent
      split
      · exact ⟨rfl, .inl rfl⟩
      · rename_i h1
        split
        · exact ⟨rfl, .inl rfl⟩
        · rename_i h2
          unfold tcpSendAck tcpOutputSeg
          simp only
          split
          · split <;> exact ⟨rfl, .inr ⟨e, not_not.1 h1, not_not.1 h2, rfl⟩⟩
          · exact ⟨rfl, .inr ⟨e, not_not.1 h1, not_not.1 h2, rfl⟩⟩

theorem tcpUpdateAck_new (hnew : ¬ seqGEQ s.sndUna g.ackno) (h : tcpUpdateAck s g = .ok t) :
    t.sndUna = g.ackno := by
  unfold tcpUpdateAck at h
  rw [if_neg hnew] at h
  obtain ⟨u, hu, h⟩ := bind_ok h
  cases h
  rw [flushBuf_una]
  unfold dropAcked at hu
  split at hu
  · cases hu
  · cases hu; rfl

theorem seqGEQ_self (a : Seq) : seqGEQ a a := by
  unfold seqGEQ
  simp

def oldAck (s : Pcb) (g : Segment) : Pcb := { tcpUpdateWnd s g with dupacks := 0 }

theorem oldAck_recv (s : Pcb) (g : Segment) : SameRecv s (oldAck s g) := (tcpUpdateWnd_recv s g).trans ⟨rfl, rfl, rfl, rfl⟩

theorem oldAck_send (s : Pcb) (g : Segment) : SameSend s (oldAck s g) :=
  (tcpUpdateWnd_send s g).trans ⟨rfl, rfl, rfl, rfl, rfl, rfl, rfl, rfl⟩

theorem oldAck_wnd (s : Pcb) (g : Segment) : (oldAck s g).sndCwnd = s.sndCwnd ∧
    (oldAck s g).sndWnd = if NewWnd s g then g.window else s.sndWnd := by
  unfold oldAck tcpUpdateWnd NewWnd
  by_cases h : seqLT s.sndWl1 g.seqno ∨ (g.seqno = s.sndWl1 ∧ seqLEQ s.sndWl2 g.ackno) <;> simp [h]

theorem oldAck_untouched (hsz : g.size < 65536) : Untouched s (tcpUpdateBuf (oldAck s g) g) ↔
    (NewWnd s g → g.window = s.sndWnd) ∧ s.dupacks = 0 ∧ ¬ InOrder s g := by
  obtain ⟨hdup, hwnd, hcwnd⟩ := tcpUpdateBuf_counters (oldAck s g) g
  obtain ⟨hcwnd', hwnd'⟩ := oldAck_wnd s g
  have hsend := (oldAck_send s g).trans (tcpUpdateBuf_send (oldAck s g) g)
  have hrecv := oldAck_recv s g
  have hin : InOrder (oldAck s g) g ↔ InOrder s g := by
    unfold InOrder
    rw [hrecv.rcvNxt]
  constructor
  · intro h
    refine ⟨fun hn => ?_, h.dupacks.symm.trans hdup, fun ho => ?_⟩
    · rw [if_pos hn] at hwnd'
      exact (hwnd.trans hwnd').symm.trans h.sndWnd
    · have hsize := (trimSeg_size (hin.2 ho) hsz).1
      rcases tcpUpdateBuf_cases (oldAck s g) g with ⟨hno, -⟩ | ⟨-, -, hnxt, -⟩
      · refine hno ⟨hin.2 ho, fun h0 => ?_⟩
        rw [h0] at hsize
        have hself : g.pbuf.endSeq = (oldAck s g).rcvNxt := by
          have h0 : g.pbuf.endSeq - (oldAck s g).rcvNxt = 0 := BitVec.eq_of_toNat_eq hsize.symm
          rw [← BitVec.sub_add_cancel g.pbuf.endSeq (oldAck s g).rcvNxt, h0]
          simp
        have hleq : ¬ seqLEQ g.pbuf.endSeq (oldAck s g).rcvNxt := (hin.2 ho).1
        rw [hself] at hleq
        simp [seqLEQ] at hleq
      · have hself : g.seqno + BitVec.ofNat 32 g.size = s.rcvNxt := hnxt.symm.trans h.rcvNxt
        refine ho.1 ?_
        rw [hself]
        simp [seqLEQ]
  · rintro ⟨h1, h2, h3⟩
    have hsame : SameRecv (oldAck s g) (tcpUpdateBuf (oldAck s g) g) := by
      rcases tcpUpdateBuf_cases (oldAck s g) g with ⟨-, h⟩ | ⟨h, -⟩
      · exact h
      · exact absurd (hin.1 h) h3
    have hr := hrecv.trans hsame
    refine ⟨hsend.una, hsend.nxt, ?_, hcwnd.trans hcwnd', hdup.trans h2.symm, hr.rcvNxt, hr.rcvWnd, hsend.unsent, hsend.unacked, hr.recved⟩
    rw [hwnd, hwnd']
    split
    · exact h1 ‹_›
    · rfl

theorem tcpProcess_oldAck (htw : s.state ≠ .timeWait) (hack : g.flags.has tcpAck = true)
    (hgeq : seqGEQ s.sndUna g.ackno) (hsize : 0 < g.size) : received s g = .ok (tcpUpdateBuf (oldAck s g) g) := by
  have hgeq' : seqGEQ (tcpUpdateWnd s g).sndUna g.ackno := by
    rw [(tcpUpdateWnd_send s g).una]
    exact hgeq
  have hup : tcpUpdateAck (tcpUpdateWnd s g) g = .ok (oldAck s g) := by
    unfold tcpUpdateAck
    rw [if_pos hgeq', if_neg (Nat.ne_of_gt hsize)]
    rfl
  unfold received tcpReceive
  rw [if_pos ⟨hack, htw⟩, if_pos hack, hup]
  show ok (if 0 < g.size then tcpUpdateBuf (oldAck s g) g else oldAck s g) = _
  rw [if_pos hsize]

/-! ## Whole segments -/

theorem process_untouched {full : Bool} (hst : s.state = .listen ∨ s.state = .synSent) (hsz : g.size < 65536)
    (hr : ¬ Expected s g ∨ Refuses s g full) : (∃ t, tcpProcess s g = .ok t ∧ Untouched s t) ↔ Ignored s g := by
  have htw : s.state ≠ .timeWait := by
    rcases hst with e | e <;> rw [e] <;> decide
  have hproc : tcpProcess s g = received s g >>= fun t => processState t g := rfl
  cases hack : g.flags.has tcpAck with
  | false =>
    have hrec : received s g = .ok s := by
      unfold received
      rw [if_neg]
      rintro ⟨h, -⟩
      rw [hack] at h; cases h
    refine iff_of_true ?_ (.inl hack)
    obtain ⟨t, ht, -, e | ⟨-, hf, -⟩⟩ := processState_early (g := g) hst
    · subst e
      exact ⟨t, by rw [hproc, hrec]; exact ht, .refl t⟩
    · rw [hf] at hack
      exact absurd hack (by decide)
  | true =>
    have hrec : received s g = tcpReceive s g := if_pos ⟨hack, htw⟩
    have hwnd := tcpUpdateWnd_recv s g
    have hwnd' := tcpUpdateWnd_send s g
    have hdup : (tcpUpdateWnd s g).dupacks = s.dupacks := by
      unfold tcpUpdateWnd
      split <;> rfl
    -- the acknowledgement gives `u`, the data `v`, the state `t`
    have hparts : ∀ t, tcpProcess s g = .ok t → ∃ u, tcpUpdateAck (tcpUpdateWnd s g) g = .ok u ∧ t.dupacks = u.dupacks ∧
        (t.sndUna = u.sndUna ∨ t.sndUna = g.ackno) := by
      intro t ht
      rw [hproc, hrec] at ht
      obtain ⟨v, hv, ht⟩ := bind_ok ht
      unfold tcpReceive at hv
      rw [if_pos hack] at hv
      obtain ⟨u, hu, hv⟩ := bind_ok hv
      have hust : u.state = s.state := (tcpUpdateAck_recv hu).state.trans hwnd.state
      have hvu : v.state = u.state ∧ v.dupacks = u.dupacks ∧ v.sndUna = u.sndUna := by
        cases hv
        split
        · exact ⟨tcpUpdateBuf_state u g, (tcpUpdateBuf_counters u g).1, (tcpUpdateBuf_send u g).una⟩
        · exact ⟨rfl, rfl, rfl⟩
      obtain ⟨t', ht', hd, hua⟩ := processState_early (s := v) (g := g) (by rw [hvu.1, hust]; exact hst)
      obtain rfl := ok.inj (ht.symm.trans ht')
      refine ⟨u, hu, hd.trans hvu.2.1, ?_⟩
      rcases hua with rfl | ⟨-, -, -, hua⟩
      · exact .inl hvu.2.2
      · exact .inr hua
    by_cases hgeq : seqGEQ s.sndUna g.ackno
    case neg =>
      refine iff_of_false ?_ ?_
      · rintro ⟨t, ht, hun⟩
        obtain ⟨u, hu, -, hua⟩ := hparts t ht
        have huna := tcpUpdateAck_new (by rw [hwnd'.una]; exact hgeq) hu
        have hack : s.sndUna = g.ackno := hun.sndUna.symm.trans (hua.elim (fun e => e.trans huna) id)
        rw [hack] at hgeq
        exact hgeq (seqGEQ_self _)
      · rintro (e | ⟨-, h, -⟩)
        · rw [hack] at e; cases e
        · exact hgeq h
    by_cases hsize : 0 < g.size
    case neg =>
      refine iff_of_false ?_ ?_
      · rintro ⟨t, ht, hun⟩
        obtain ⟨u, hu, hd, -⟩ := hparts t ht
        unfold tcpUpdateAck at hu
        rw [if_pos (by rw [hwnd'.una]; exact hgeq), if_pos (Nat.eq_zero_of_not_pos hsize)] at hu
        have hone : s.dupacks = s.dupacks + 1 :=
          calc s.dupacks = t.dupacks := hun.dupacks.symm
            _ = u.dupacks := hd
            _ = (tcpUpdateWnd s g).dupacks + 1 := tcpHandleDuppacks_dupacks hu
            _ = s.dupacks + 1 := by rw [hdup]
        bv_omega
      · rintro (e | ⟨-, -, h, -⟩)
        · rw [hack] at e; cases e
        · exact hsize h
    -- an old acknowledgement over data
    have hu := tcpProcess_oldAck htw hack hgeq hsize
    have hv : (tcpUpdateBuf (oldAck s g) g).state = s.state :=
      (tcpUpdateBuf_state _ _).trans (oldAck_recv s g).state
    have hnxt : (tcpUpdateBuf (oldAck s g) g).sndNxt = s.sndNxt :=
      (tcpUpdateBuf_send _ _).nxt.trans (oldAck_send s g).nxt
    obtain ⟨t, ht, -, e | ⟨he1, he2, he3, -⟩⟩ := processState_early (s := tcpUpdateBuf (oldAck s g) g) (g := g) (by rw [hv]; exact hst)
    · subst e
      have hok : tcpProcess s g = .ok (tcpUpdateBuf (oldAck s g) g) := by
        rw [hproc, hu]
        exact ht
      rw [hok]
      have hiff : (∃ t, ok (ε := Fault) (tcpUpdateBuf (oldAck s g) g) = .ok t ∧ Untouched s t) ↔
          Untouched s (tcpUpdateBuf (oldAck s g) g) :=
        ⟨fun ⟨t, e, h⟩ => ok.inj e ▸ h, fun h => ⟨_, rfl, h⟩⟩
      rw [hiff, oldAck_untouched hsz]
      unfold Ignored
      rw [hack]
      simp [hgeq, hsize]
    · -- the code takes it: then it was expected and is not refused
      exfalso
      rw [hnxt] at he3
      rcases hr with hr | ⟨t', ht', hr⟩
      · exact hr (.inr ⟨hv.symm.trans he1, he2, he3⟩)
      · obtain rfl := ok.inj (hu.symm.trans ht')
        rcases hr with ⟨hl, -⟩ | ⟨-, hr | hr⟩
        · rw [he1] at hl; cases hl
        · exact hr he2
        · exact hr (by rw [hnxt]; exact he3)

theorem processPcb_eq (s : Pcb) (g : Segment) : ∃ mss, processPcb s g = { s with sndMss := mss, idle := 0 } := by
  obtain ⟨mss, e, -⟩ := tcpParseOption_send g.options s
  unfold processPcb
  rw [e]
  exact ⟨mss, rfl⟩

theorem tcpInput_processed (h : Processed s g) : tcpInput s g = tcpProcess (processPcb s g) g := by
  obtain ⟨h1, h2, h3, h4⟩ := h
  unfold tcpInput processPcb
  rw [if_neg (by simpa using h1), if_neg h2, h3, if_neg (by decide)]
  dsimp only at h4 ⊢
  rw [if_neg (by simpa using h4)]

theorem dropped_untouched (hst : s.state = .listen ∨ s.state = .synSent) (hp : ¬ Processed s g) :
    ∃ t, tcpInput s g = .ok t ∧ Untouched s t := by
  have hcl : s.state ≠ .closed := by
    rcases hst with e | e <;> rw [e] <;> decide
  have hreset : tcpHandleReset s = .ok s := by
    unfold tcpHandleReset
    have hle : s.state.val ≤ TcpState.synSent.val := by
      rcases hst with e | e
      · rw [e]; decide
      · rw [e]
    rw [if_pos hle]
    rfl
  unfold tcpInput
  by_cases h1 : tcpValidate s g = true
  case neg => exact ⟨s, if_pos (by simpa using h1), .refl s⟩
  rw [if_neg (by simpa using h1), if_neg hcl]
  cases h3 : g.flags.has tcpRst with
  | true => exact ⟨s, hreset, .refl s⟩
  | false =>
    obtain ⟨mss, e, -⟩ := tcpParseOption_send g.options s
    have hok : (tcpParseOption s g.options).2 = false := by
      by_contra h4
      exact hp ⟨h1, hcl, h3, by simpa using h4⟩
    generalize tcpParseOption s g.options = r at e hok
    obtain ⟨c, ok⟩ := r
    subst hok e
    exact ⟨_, rfl, rfl, rfl, rfl, rfl, rfl, rfl, rfl, rfl, rfl, rfl⟩

/-- A segment that is not for a pcb in `LISTEN` or `SYN_SENT` leaves it as it was exactly when it does not
get to `tcp_process` or is ignored there. -/
theorem handshake_reject {full : Bool} (hst : s.state = .listen ∨ s.state = .synSent) (hsz : g.size < 65536)
    (hr : Processed s g → Rejected s g full) : (∃ t, tcpInput s g = .ok t ∧ Untouched s t) ↔ (Processed s g → Ignored s g) := by
  by_cases hp : Processed s g
  case neg => exact iff_of_true (dropped_untouched hst hp) fun h => absurd h hp
  have hr := hr hp
  obtain ⟨mss, e⟩ := processPcb_eq s g
  unfold Rejected at hr
  rw [tcpInput_processed hp]
  rw [e] at hr ⊢
  have hkey := @process_untouched { s with sndMss := mss, idle := 0 } g full hst hsz hr
  have hfield : ∀ t, Untouched { s with sndMss := mss, idle := 0 } t ↔ Untouched s t := fun t =>
    ⟨fun h => ⟨h.sndUna, h.sndNxt, h.sndWnd, h.sndCwnd, h.dupacks, h.rcvNxt, h.rcvWnd, h.unsent, h.unacked, h.recved⟩,
      fun h => ⟨h.sndUna, h.sndNxt, h.sndWnd, h.sndCwnd, h.dupacks, h.rcvNxt, h.rcvWnd, h.unsent, h.unacked, h.recved⟩⟩
  simp only [hfield] at hkey
  exact hkey.trans ⟨fun h _ => h, fun h => h hp⟩

/-- An acknowledgement at a listening pcb. -/
theorem handshake_reject_listen :
    (∃ t, tcpInput { tcpPcbGet 5 with state := .listen } ⟨0, 6, tcpAck, 4096, [], []⟩ = .ok t ∧
      Untouched { tcpPcbGet 5 with state := .listen } t) ↔
      (Processed { tcpPcbGet 5 with state := .listen } ⟨0, 6, tcpAck, 4096, [], []⟩ →
        Ignored { tcpPcbGet 5 with state := .listen } ⟨0, 6, tcpAck, 4096, [], []⟩) :=
  @handshake_reject _ _ false (.inl rfl) (by decide) fun _ => .inl (by decide)

/-- A stray acknowledgement releases the `SYN` that waits in `SYN_SENT`. -/
theorem stray_ack_releases : ¬ ∀ (s : State) (g : Segment) (full : Bool), tcp.Reach Machine.Any s →
    s.pcb.state = .listen ∨ s.pcb.state = .synSent → g.size < 65536 → (Processed s.pcb g → Rejected s.pcb g full) → ∃ t, tcpInput s.pcb g = .ok t ∧ Untouched s.pcb t := by
  have h : (tcp.trace Machine.Any ⟨tcpPcbGet 5, true, []⟩ [.connect]).map (fun s => (decide (s.pcb.state = .synSent),
      decide (Expected (processPcb s.pcb ⟨0, 6, tcpAck, 4096, [], []⟩) ⟨0, 6, tcpAck, 4096, [], []⟩), s.pcb.unacked.length,
      (tcpInput s.pcb ⟨0, 6, tcpAck, 4096, [], []⟩).toOption.map fun t => t.unacked.length)) = some (true, false, 1, some 0) := by
    decide +kernel
  obtain ⟨s, hs, he⟩ := Option.map_eq_some_iff.1 h
  obtain ⟨h1, h2⟩ := Prod.mk.inj he
  obtain ⟨h2, h3⟩ := Prod.mk.inj h2
  obtain ⟨h3, h4⟩ := Prod.mk.inj h3
  intro hall
  obtain ⟨t, ht, hun⟩ := hall s ⟨0, 6, tcpAck, 4096, [], []⟩ false (Machine.trace_reach ⟨rfl, 5, .inl rfl⟩ hs)
    (.inr (of_decide_eq_true h1)) (by decide) fun _ => .inl (of_decide_eq_false h2)
  rw [ht] at h4
  have h5 : t.unacked.length = 0 := Option.some.inj h4
  rw [hun.unacked, h3] at h5
  cases h5

end Onix.Tcp
