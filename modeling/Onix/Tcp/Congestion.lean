/-
Congestion control: `tcp_handle_duppacks` and the growth in `tcp_update_ack`. `Ctl.Ok` says that the
segment size is not zero and both windows are between one and `TCP_MAX_WINDOW`. It is kept by every
step but the segments that `CongestionFits` leaves out: those with an `MSS` of zero, those whose
repetition grows the window beyond its maximum, and those after which the square of the segment size
does not fit an `int`.
-/
import Onix.Tcp.Control
import Onix.Tcp.Options

namespace Onix.Tcp

open Onix.Lib

/-- The segment size is not zero, the windows are between one and `TCP_MAX_WINDOW`. -/
structure Ctl.Ok (c : Ctl) : Prop where
  mss : 1 ≤ c.mss
  mss_le : c.mss ≤ tcpMaxWindow
  cwnd : 1 ≤ c.cwnd.toNat
  cwnd_le : c.cwnd.toNat ≤ tcpMaxWindow
  ssthresh : 1 ≤ c.ssthresh.toNat
  ssthresh_le : c.ssthresh.toNat ≤ tcpMaxWindow

theorem ofNat_toNat {n : Nat} (h : n < 2 ^ 32) : (BitVec.ofNat 32 n).toNat = n := by
  rw [BitVec.toNat_ofNat, Nat.mod_eq_of_lt h]

variable {c : Ctl}

theorem Ctl.Ok.withMss (h : c.Ok) {mss : Nat} (h1 : 1 ≤ mss) (h2 : mss ≤ tcpMaxWindow) : ({ c with mss := mss } : Ctl).Ok :=
  ⟨h1, h2, h.cwnd, h.cwnd_le, h.ssthresh, h.ssthresh_le⟩

theorem Ctl.Ok.withCwnd (h : c.Ok) {cwnd : BitVec 32} (h1 : 1 ≤ cwnd.toNat) (h2 : cwnd.toNat ≤ tcpMaxWindow) :
    ({ c with cwnd := cwnd } : Ctl).Ok :=
  ⟨h.mss, h.mss_le, h1, h2, h.ssthresh, h.ssthresh_le⟩

theorem Ctl.Ok.raised (h : c.Ok) : ({ c with mss := max c.mss tcpDefaultMss } : Ctl).Ok :=
  h.withMss (h.mss.trans (le_max_left ..)) (max_le h.mss_le (by decide))

variable {s : Pcb}

theorem Ctl.Ok.slowStart (h : s.ctl.Ok) : (slowStart s).ctl.Ok := by
  have h1 : 1 ≤ s.sndMss := h.mss
  have h2 : s.sndMss ≤ 65535 := h.mss_le
  rcases slowStart_cases s with e | e
  · rw [e]; exact h
  · rw [e]
    refine h.withCwnd ?_ ?_ <;> rw [ofNat_toNat (by omega)]
    · exact h1
    · exact h2

/-! ## A new acknowledgement -/

/-- The window a new acknowledgement begins with: `snd_ssthresh` after a fast retransmission. -/
def baseCwnd (s : Pcb) : BitVec 32 := if 3 < s.dupacks ∧ s.sndSsthresh < s.sndCwnd then s.sndSsthresh else s.sndCwnd

def growth (s : Pcb) (c : Nat) : Nat := if s.sndSsthresh.toNat < c then s.sndMss * s.sndMss / c else s.sndMss

theorem baseCwnd_le (h : s.ctl.Ok) : 1 ≤ (baseCwnd s).toNat ∧ (baseCwnd s).toNat ≤ tcpMaxWindow := by
  unfold baseCwnd
  split
  · exact ⟨h.ssthresh, h.ssthresh_le⟩
  · exact ⟨h.cwnd, h.cwnd_le⟩

theorem sdiv_toNat {x y : BitVec 32} (hx : x.toNat < 2 ^ 31) (hy : y.toNat < 2 ^ 31) : (x.sdiv y).toNat = x.toNat / y.toNat := by
  have h1 : x.msb = false := by rw [BitVec.msb_eq_false_iff_two_mul_lt]; omega
  have h2 : y.msb = false := by rw [BitVec.msb_eq_false_iff_two_mul_lt]; omega
  rw [BitVec.sdiv_eq, h1, h2]
  exact BitVec.toNat_udiv

theorem growCwnd_cwnd (h : s.ctl.Ok) (hm : s.sndSsthresh.toNat < (baseCwnd s).toNat → s.sndMss * s.sndMss < 2 ^ 31) :
    (growCwnd s).sndCwnd.toNat = min ((baseCwnd s).toNat + growth s (baseCwnd s).toNat) tcpMaxWindow := by
  have h1 : s.sndMss ≤ 65535 := h.mss_le
  obtain ⟨h2, h3⟩ := baseCwnd_le h
  have h3 : (baseCwnd s).toNat ≤ 65535 := h3
  have hmss : (BitVec.ofNat 32 s.sndMss).toNat = s.sndMss := ofNat_toNat (by omega)
  -- the unit as a number
  have hunit : (if s.sndSsthresh < baseCwnd s then (BitVec.ofNat 32 s.sndMss * BitVec.ofNat 32 s.sndMss).sdiv (baseCwnd s)
      else BitVec.ofNat 32 s.sndMss).toNat = growth s (baseCwnd s).toNat := by
    unfold growth
    by_cases hlt : s.sndSsthresh.toNat < (baseCwnd s).toNat
    · have hsq : (BitVec.ofNat 32 s.sndMss * BitVec.ofNat 32 s.sndMss).toNat = s.sndMss * s.sndMss := by
        rw [BitVec.toNat_mul, hmss, Nat.mod_eq_of_lt (by have := hm hlt; omega)]
      rw [if_pos (BitVec.lt_def.2 hlt), if_pos hlt, sdiv_toNat (by rw [hsq]; exact hm hlt) (by omega), hsq]
    · rw [if_neg (fun hc => hlt (BitVec.lt_def.1 hc)), if_neg hlt, hmss]
  have hgrow : growth s (baseCwnd s).toNat ≤ 46340 * 46340 := by
    unfold growth
    split
    · rename_i hlt
      have : s.sndMss ≤ 46340 := by
        by_contra hc
        have := Nat.mul_le_mul (show 46341 ≤ s.sndMss by omega) (show 46341 ≤ s.sndMss by omega)
        omega
      exact (Nat.div_le_self ..).trans (Nat.mul_le_mul this this)
    · omega
  have e : (growCwnd s).sndCwnd = if (baseCwnd s + (if s.sndSsthresh < baseCwnd s then
      (BitVec.ofNat 32 s.sndMss * BitVec.ofNat 32 s.sndMss).sdiv (baseCwnd s) else BitVec.ofNat 32 s.sndMss)).slt
      (BitVec.ofNat 32 tcpMaxWindow) then baseCwnd s + (if s.sndSsthresh < baseCwnd s then
      (BitVec.ofNat 32 s.sndMss * BitVec.ofNat 32 s.sndMss).sdiv (baseCwnd s) else BitVec.ofNat 32 s.sndMss)
      else BitVec.ofNat 32 tcpMaxWindow := by
    unfold growCwnd baseCwnd
    split <;> rfl
  rw [e]
  generalize hu : (if s.sndSsthresh < baseCwnd s then (BitVec.ofNat 32 s.sndMss * BitVec.ofNat 32 s.sndMss).sdiv (baseCwnd s)
      else BitVec.ofNat 32 s.sndMss) = unit at hunit
  have hsum : (baseCwnd s + unit).toNat = (baseCwnd s).toNat + growth s (baseCwnd s).toNat := by
    rw [BitVec.toNat_add, hunit, Nat.mod_eq_of_lt (by omega)]
  have hint : (baseCwnd s + unit).toInt = (baseCwnd s).toNat + growth s (baseCwnd s).toNat := by
    rw [BitVec.toInt_eq_toNat_of_lt (by omega), hsum]; push_cast; rfl
  have hmax : (BitVec.ofNat 32 tcpMaxWindow).toInt = 65535 := by decide
  unfold tcpMaxWindow at *
  by_cases hlt : (baseCwnd s).toNat + growth s (baseCwnd s).toNat < 65535
  · rw [if_pos (by unfold BitVec.slt; rw [decide_eq_true_eq, hint, hmax]; omega), hsum, min_eq_left (by omega)]
  · rw [if_neg (by unfold BitVec.slt; rw [decide_eq_true_eq, hint, hmax]; omega), min_eq_right (by omega)]
    decide

theorem growCwnd_ok (h : s.ctl.Ok) (hm : s.sndSsthresh.toNat < (baseCwnd s).toNat → s.sndMss * s.sndMss < 2 ^ 31) :
    (growCwnd s).ctl.Ok ∧ (baseCwnd s).toNat ≤ (growCwnd s).sndCwnd.toNat := by
  have hc := growCwnd_cwnd h hm
  obtain ⟨h1, h2⟩ := baseCwnd_le h
  have hle : (baseCwnd s).toNat ≤ (growCwnd s).sndCwnd.toNat := by
    rw [hc]; exact le_min (Nat.le_add_right ..) h2
  have he : (growCwnd s).sndMss = s.sndMss ∧ (growCwnd s).sndSsthresh = s.sndSsthresh := by
    unfold growCwnd
    split <;> exact ⟨rfl, rfl⟩
  have e1 : (growCwnd s).ctl.mss = s.ctl.mss := he.1
  have e2 : (growCwnd s).ctl.ssthresh = s.ctl.ssthresh := he.2
  refine ⟨⟨by rw [e1]; exact h.mss, by rw [e1]; exact h.mss_le, h1.trans hle, ?_, by rw [e2]; exact h.ssthresh,
    by rw [e2]; exact h.ssthresh_le⟩, hle⟩
  exact hc.le.trans (min_le_right ..)

/-! ## Duplicate acknowledgements -/

/-- The segments `snd_ssthresh` keeps after a loss, for a window of `wnd`. -/
def lossSegs (wnd mss : Nat) : Nat := max 2 (wnd / 2 / mss)

theorem outputWnd_le (s : Pcb) : outputWnd s ≤ s.sndCwnd := by
  unfold outputWnd
  split
  · exact BitVec.le_refl _
  · rename_i h
    exact BitVec.not_lt.1 h

theorem fastRexmit_ssthresh (h : s.ctl.Ok) (hl : lossSegs (outputWnd s).toNat s.sndMss * s.sndMss ≤ tcpMaxWindow) :
    (fastRexmit s).sndSsthresh.toNat = lossSegs (outputWnd s).toNat s.sndMss * s.sndMss := by
  have h1 : s.sndMss ≤ 65535 := h.mss_le
  have h2 : s.sndCwnd.toNat ≤ 65535 := h.cwnd_le
  have h3 : (outputWnd s).toNat ≤ s.sndCwnd.toNat := outputWnd_le s
  have hl : lossSegs (outputWnd s).toNat s.sndMss * s.sndMss ≤ 65535 := hl
  have hmss : (BitVec.ofNat 32 s.sndMss).toNat = s.sndMss := ofNat_toNat (by omega)
  have hq : (outputWnd s / 2 / BitVec.ofNat 32 s.sndMss).toNat = (outputWnd s).toNat / 2 / s.sndMss := by
    rw [BitVec.toNat_udiv, BitVec.toNat_udiv, hmss]; rfl
  have hle : (outputWnd s).toNat / 2 / s.sndMss ≤ 65535 :=
    (Nat.div_le_self ..).trans ((Nat.div_le_self ..).trans (by omega))
  have hi : (outputWnd s / 2 / BitVec.ofNat 32 s.sndMss).toInt = (outputWnd s).toNat / 2 / s.sndMss := by
    rw [BitVec.toInt_eq_toNat_of_lt (by omega), hq]; push_cast; rfl
  have hsegs : (if (outputWnd s / 2 / BitVec.ofNat 32 s.sndMss).slt 2 then (2 : BitVec 32)
      else outputWnd s / 2 / BitVec.ofNat 32 s.sndMss).toNat = lossSegs (outputWnd s).toNat s.sndMss := by
    have h2 : (2 : BitVec 32).toInt = 2 := by decide
    unfold lossSegs
    by_cases hlt : (outputWnd s).toNat / 2 / s.sndMss < 2
    · rw [if_pos (by unfold BitVec.slt; rw [decide_eq_true_eq, hi, h2]; exact_mod_cast hlt), max_eq_left (by omega)]
      rfl
    · rw [if_neg (by unfold BitVec.slt; rw [decide_eq_true_eq, hi, h2]; exact_mod_cast hlt), hq, max_eq_right (by omega)]
  show (_ * BitVec.ofNat 32 s.sndMss : BitVec 32).toNat = _
  rw [BitVec.toNat_mul, hsegs, hmss, Nat.mod_eq_of_lt (by omega)]

def DupFits (s : Pcb) : Prop :=
  (s.dupacks = 3 → (lossSegs (outputWnd s).toNat s.sndMss + 3) * s.sndMss ≤ tcpMaxWindow) ∧
    (3 < s.dupacks → s.sndCwnd.toNat + s.sndMss ≤ tcpMaxWindow)

instance (s : Pcb) : Decidable (DupFits s) := inferInstanceAs (Decidable (_ ∧ _))

theorem tcpHandleDuppacks_ok (h : s.ctl.Ok) (hd : DupFits s) :
    Divides (tcpHandleDuppacks s) fun t => t.ctl.Ok := by
  have h0 : 1 ≤ s.sndMss := h.mss
  have h1 : s.sndMss ≤ 65535 := h.mss_le
  have hmss : (BitVec.ofNat 32 s.sndMss).toNat = s.sndMss := ofNat_toNat (by omega)
  refine sat_ite (fun _ => Sat.ok h) fun hlt => sat_ite (fun he => ?_) fun hne => ?_
  · refine sat_ite (fun hz => absurd hz (by omega)) fun _ => ?_
    have hfit : (lossSegs (outputWnd s).toNat s.sndMss + 3) * s.sndMss ≤ 65535 := hd.1 he
    rw [Nat.add_mul] at hfit
    have hth := fastRexmit_ssthresh h ((Nat.le_add_right ..).trans hfit)
    refine (tcpRexmit_paced (fastRexmit s)).bind fun t _ ht => Sat.ok ?_
    -- both ways to open the window lead to one segment
    have hc : t.ctl = { s.ctl with cwnd := BitVec.ofNat 32 s.sndMss, ssthresh := (fastRexmit s).sndSsthresh } := by
      rcases slowStart_cases (fastRexmit s) with e | e <;> exact Eq.trans ht e
    have e1 : t.sndSsthresh = (fastRexmit s).sndSsthresh := congrArg Ctl.ssthresh hc
    have e2 : t.sndMss = s.sndMss := congrArg Ctl.mss hc
    have e3 : t.dupacks = 3 := (congrArg Ctl.dupacks hc).trans he
    have hpos : 2 ≤ lossSegs (outputWnd s).toNat s.sndMss := le_max_left ..
    have hpos2 : 2 * s.sndMss ≤ lossSegs (outputWnd s).toNat s.sndMss * s.sndMss := Nat.mul_le_mul_right _ hpos
    have hcw : (t.sndSsthresh + BitVec.ofNat 32 t.sndMss * t.dupacks).toNat =
        lossSegs (outputWnd s).toNat s.sndMss * s.sndMss + 3 * s.sndMss := by
      have : (BitVec.ofNat 32 s.sndMss * (3 : BitVec 32)).toNat = 3 * s.sndMss := by
        rw [BitVec.toNat_mul, hmss, Nat.mul_comm]
        exact Nat.mod_eq_of_lt (by show 3 * s.sndMss < _; omega)
      rw [e1, e2, e3, BitVec.toNat_add, hth, this, Nat.mod_eq_of_lt (by omega)]
    have e4 : t.ctl.mss = s.ctl.mss := e2
    have e5 : t.ctl.ssthresh.toNat = lossSegs (outputWnd s).toNat s.sndMss * s.sndMss := (congrArg BitVec.toNat e1).trans hth
    refine ⟨by exact e4.ge.trans' h.mss, by exact e4.le.trans h.mss_le, ?_, ?_, ?_, ?_⟩
    · show 1 ≤ (t.sndSsthresh + BitVec.ofNat 32 t.sndMss * t.dupacks).toNat
      omega
    · show (t.sndSsthresh + BitVec.ofNat 32 t.sndMss * t.dupacks).toNat ≤ 65535
      omega
    · show 1 ≤ t.ctl.ssthresh.toNat
      omega
    · show t.ctl.ssthresh.toNat ≤ 65535
      omega
  · have hgt : 3 < s.dupacks := by
      have hge : 3 ≤ s.dupacks.toNat := BitVec.not_lt.1 hlt
      have : s.dupacks.toNat ≠ 3 := fun e => hne (BitVec.toNat_inj.1 e)
      show 3 < s.dupacks.toNat
      omega
    have hfit : s.sndCwnd.toNat + s.sndMss ≤ 65535 := hd.2 hgt
    have hsum : (s.sndCwnd + BitVec.ofNat 32 s.sndMss).toNat = s.sndCwnd.toNat + s.sndMss := by
      rw [BitVec.toNat_add, hmss, Nat.mod_eq_of_lt (by omega)]
    have hok : ({ s with sndCwnd := s.sndCwnd + BitVec.ofNat 32 s.sndMss } : Pcb).ctl.Ok :=
      h.withCwnd (by rw [hsum]; omega) (by rw [hsum]; exact hfit)
    exact (tcpRexmit_paced _).mono fun t ht => by rw [show t.ctl = _ from ht]; exact hok.slowStart

/-! ## A segment -/

/-- What an acknowledgement may do to the windows of `s`, the pcb that `tcp_update_ack` is called with. -/
def AckFits (s : Pcb) (g : Segment) : Prop :=
  if seqGEQ s.sndUna g.ackno then g.size = 0 → DupFits { s with dupacks := s.dupacks + 1 }
  else s.sndSsthresh.toNat < (baseCwnd s).toNat → s.sndMss * s.sndMss < 2 ^ 31

instance (s : Pcb) (g : Segment) : Decidable (AckFits s g) := by
  unfold AckFits
  infer_instance

/-- The segments that keep the windows: the last `MSS` is not zero, and the acknowledgement fits. -/
def CongestionFits (s : Pcb) (g : Segment) : Prop :=
  (tcpValidate s g = true → s.state ≠ .closed → g.flags.has tcpRst = false → lastMss (beforeBad g.options) ≠ some 0) ∧
    (Accepts s g → AckFits (tcpUpdateWnd (processPcb s g) g) g)

instance (s : Pcb) (g : Segment) : Decidable (CongestionFits s g) := inferInstanceAs (Decidable (_ ∧ _))

variable {t : Pcb}

theorem Paced.base (h : Paced s t) : baseCwnd t = baseCwnd s := by
  have e1 : t.dupacks = s.dupacks := congrArg Ctl.dupacks h
  have e2 : t.sndSsthresh = s.sndSsthresh := congrArg Ctl.ssthresh h
  have e3 : t.sndCwnd = s.sndCwnd := congrArg Ctl.cwnd h
  unfold baseCwnd
  rw [e1, e2, e3]

theorem Paced.ok (h : Paced s t) (hs : s.ctl.Ok) : t.ctl.Ok := by
  rw [show t.ctl = _ from h]; exact hs

theorem tcpXmitTimer_windows (s : Pcb) (rtt : BitVec 32) : (tcpXmitTimer s rtt).ctl.mss = s.ctl.mss ∧
    (tcpXmitTimer s rtt).ctl.cwnd = s.ctl.cwnd ∧ (tcpXmitTimer s rtt).ctl.ssthresh = s.ctl.ssthresh := ⟨rfl, rfl, rfl⟩

theorem Ctl.Ok.same {d : Ctl} (h : c.Ok) (h1 : d.mss = c.mss) (h2 : d.cwnd = c.cwnd) (h3 : d.ssthresh = c.ssthresh) : d.Ok := by
  refine ⟨?_, ?_, ?_, ?_, ?_, ?_⟩
  · rw [h1]; exact h.mss
  · rw [h1]; exact h.mss_le
  · rw [h2]; exact h.cwnd
  · rw [h2]; exact h.cwnd_le
  · rw [h3]; exact h.ssthresh
  · rw [h3]; exact h.ssthresh_le

theorem advanceUna_windows (s : Pcb) (a : Seq) : (advanceUna s a).ctl.mss = s.ctl.mss ∧
    (advanceUna s a).ctl.cwnd = s.ctl.cwnd ∧ (advanceUna s a).ctl.ssthresh = s.ctl.ssthresh := by
  unfold advanceUna
  split
  · exact tcpXmitTimer_windows s _
  · exact ⟨rfl, rfl, rfl⟩

def Grows (s : Pcb) (g : Segment) (t : Pcb) : Prop :=
  ¬ seqGEQ s.sndUna g.ackno → (baseCwnd s).toNat ≤ t.sndCwnd.toNat

variable {g : Segment}

theorem tcpUpdateAck_ok (h : s.ctl.Ok) (ha : AckFits s g) :
    Divides (tcpUpdateAck s g) fun t => t.ctl.Ok ∧ Grows s g t := by
  refine sat_ite (fun hge => ?_) fun hge => ?_
  · unfold AckFits at ha
    rw [if_pos hge] at ha
    refine sat_ite (fun h0 => ?_) fun _ => Sat.ok ⟨h.same rfl rfl rfl, fun hn => absurd hge hn⟩
    have hok : ({ s with dupacks := s.dupacks + 1 } : Pcb).ctl.Ok := h.same rfl rfl rfl
    exact (tcpHandleDuppacks_ok hok (ha h0)).mono fun t ht => ⟨ht, fun hn => absurd hge hn⟩
  · unfold AckFits at ha
    rw [if_neg hge] at ha
    obtain ⟨h1, h2⟩ := growCwnd_ok h ha
    obtain ⟨e1, e2, e3⟩ := advanceUna_windows (growCwnd s) g.ackno
    refine (dropAcked_paced _ _).bind fun t _ ht => Sat.ok ?_
    have hp : Paced (advanceUna (growCwnd s) g.ackno) (flushBuf t g.ackno) := ht.trans (flushBuf_paced t g.ackno)
    refine ⟨hp.ok (h1.same e1 e2 e3), fun _ => ?_⟩
    have e4 : (flushBuf t g.ackno).sndCwnd = (growCwnd s).sndCwnd := (congrArg Ctl.cwnd hp).trans e2
    rw [e4]
    exact h2

theorem Grows.paced {u : Pcb} (h : Grows s g t) (hp : Paced t u) : Grows s g u := fun hn => by
  have e : u.sndCwnd = t.sndCwnd := congrArg Ctl.cwnd hp
  rw [e]
  exact h hn

theorem tcpReceive_ok (h : s.ctl.Ok) (hack : g.flags.has tcpAck = true)
    (ha : AckFits (tcpUpdateWnd s g) g) : Divides (tcpReceive s g) fun t => t.ctl.Ok ∧ Grows s g t := by
  unfold tcpReceive
  rw [if_pos hack]
  refine (tcpUpdateAck_ok ((tcpUpdateWnd_paced s g).ok h) ha).bind fun t _ ⟨ht, hg⟩ => Sat.ok ?_
  have hg : Grows s g t := by
    unfold Grows at hg ⊢
    rwa [(tcpUpdateWnd_send s g).una, (tcpUpdateWnd_paced s g).base] at hg
  split
  · exact ⟨(tcpUpdateBuf_paced t g).ok ht, hg.paced (tcpUpdateBuf_paced t g)⟩
  · exact ⟨ht, hg⟩

theorem lastMss_mem {os : List TcpOpt} {v : Nat} (h : lastMss (beforeBad os) = some v) : v ∈ os.filterMap TcpOpt.mss := by
  obtain ⟨o, ho, he⟩ := List.mem_filterMap.1 (List.mem_of_getLast? h)
  refine List.mem_filterMap.2 ⟨o, (List.takeWhile_subset _) ((List.takeWhile_subset _) ho), ?_⟩
  unfold TcpOpt.wellFormed at he
  split at he
  · exact he
  · cases he

theorem tcpParseOption_ok {os : List TcpOpt} (h : s.ctl.Ok) (h0 : lastMss (beforeBad os) ≠ some 0)
    (hv : ∀ v ∈ os.filterMap TcpOpt.mss, v < 65536) : (tcpParseOption s os).1.ctl.Ok := by
  rw [tcpParseOption_mss]
  cases hl : lastMss (beforeBad os) with
  | none => exact h
  | some v =>
    have hlt := hv v (lastMss_mem hl)
    refine h.withMss ?_ ?_
    · refine Nat.one_le_iff_ne_zero.2 fun e => h0 ?_
      rw [hl]
      exact congrArg some e
    · exact Nat.lt_succ_iff.1 hlt

theorem processPcb_base (s : Pcb) (g : Segment) : (processPcb s g).sndUna = s.sndUna ∧ baseCwnd (processPcb s g) = baseCwnd s := by
  unfold processPcb
  rw [tcpParseOption_mss]
  exact ⟨rfl, rfl⟩

theorem tcpInput_ok (h : s.ctl.Ok) (hv : ∀ v ∈ g.options.filterMap TcpOpt.mss, v < 65536)
    (hc : CongestionFits s g) : Divides (tcpInput s g) fun t => t.ctl.Ok ∧ (Accepts s g → Grows s g t) := by
  refine sat_ite (fun hn => ?_) fun hn => sat_ite (fun hcl => ?_) fun hcl => ?_
  · exact Sat.ok ⟨h, fun ha => absurd ha.1 hn⟩
  · exact Sat.ok ⟨h, fun ha => absurd hcl ha.2.1⟩
  cases hrst : g.flags.has tcpRst with
  | true =>
    refine (tcpHandleReset_paced s).mono fun t ht => ⟨ht.ok h, fun ha => absurd ha.2.2.1 (by rw [hrst]; decide)⟩
  | false =>
    rw [if_neg (by decide)]
    have hok := tcpParseOption_ok h (hc.1 (not_not.1 hn) hcl hrst) hv
    have hst : (processPcb s g).state = s.state := (tcpParseOption_recv g.options s).state
    obtain ⟨e1, e2⟩ := processPcb_base s g
    have ha := hc.2
    unfold processPcb at ha hst e1 e2
    unfold Accepts at ha ⊢
    generalize tcpParseOption s g.options = r at hok ha hst e1 e2
    obtain ⟨p, ok⟩ := r
    refine sat_ite (fun hf => Sat.ok ⟨hok, fun hacc => absurd hacc.2.2.2.1 hf⟩) fun hf => ?_
    unfold tcpProcess
    have hq : ({ p with idle := 0 } : Pcb).ctl.Ok := hok.same rfl rfl rfl
    by_cases hack : g.flags.has tcpAck = true ∧ p.state ≠ .timeWait
    · have hacc : tcpValidate s g = true ∧ s.state ≠ .closed ∧ g.flags.has tcpRst = false ∧ ok = true ∧
          g.flags.has tcpAck = true ∧ s.state ≠ .timeWait :=
        ⟨not_not.1 hn, hcl, hrst, not_not.1 hf, hack.1, by rw [← hst]; exact hack.2⟩
      rw [if_pos hack]
      refine (tcpReceive_ok hq hack.1 (ha hacc)).bind fun t _ ⟨ht, hg⟩ => ?_
      refine (processState_paced t g).mono fun u hu => ⟨hu.ok ht, fun _ => ?_⟩
      have := hg.paced hu
      unfold Grows at this ⊢
      rwa [e2, e1] at this
    · rw [if_neg hack]
      refine (processState_paced _ g).mono fun u hu => ⟨hu.ok hq, fun hacc => ?_⟩
      refine absurd ⟨hacc.2.2.2.2.1, ?_⟩ hack
      rw [show p.state = s.state from hst]
      exact hacc.2.2.2.2.2

/-! ## Steps -/

def KeepsWindows (s : State) : Act → Prop
  | .input g => CongestionFits s.pcb g
  | _ => True

instance (s : State) : (a : Act) → Decidable (KeepsWindows s a)
  | .input g => inferInstanceAs (Decidable (CongestionFits s.pcb g))
  | .connect | .setsockopt _ _ | .close | .send _ _ | .recv _ | .resume _ | .sent _ | .timeout _ | .slowtimo | .fastimo =>
    inferInstanceAs (Decidable True)

theorem tcpOutput_ok (h : s.ctl.Ok) : Divides (tcpOutput s) fun t => t.ctl.Ok :=
  (tcpOutput_paced s).mono fun _ ht => ht.ok h.slowStart

theorem tcpEnqueue_ok (h : s.ctl.Ok) (src : Nat → UInt8) (size : Nat) (f : Flags) :
    Divides (tcpEnqueue s src size f) fun t => t.ctl.Ok :=
  (tcpEnqueue_paced s src size f).mono fun t ht => by rw [ht]; exact h.raised

theorem enqueueOutput_ok (h : s.ctl.Ok) (f : Flags) (st : Pcb → TcpState) :
    Divides (tcpEnqueue s (fun _ => 0) 0 f >>= fun t => tcpOutput { t with state := st t }) fun t => t.ctl.Ok :=
  (tcpEnqueue_ok h _ 0 f).bind fun t _ ht => tcpOutput_ok (s := { t with state := st t }) ht

theorem tcpClose_ok (h : s.ctl.Ok) : Divides (tcpClose s) fun t => t.ctl.Ok := by
  have hpurge : Divides (tcpPcbPurge { s with state := .closed }) fun t => t.ctl.Ok :=
    (tcpPcbPurge_paced _).mono fun t ht => ht.ok h
  unfold tcpClose
  split
  · exact hpurge
  · exact hpurge
  · exact hpurge
  · exact enqueueOutput_ok h tcpFin fun _ => .finWait1
  · exact enqueueOutput_ok h tcpFin fun _ => .finWait1
  · exact enqueueOutput_ok h tcpFin fun _ => .lastAck
  · exact Sat.ok h

theorem tcpSendmsg_ok (h : s.ctl.Ok) (iov : List ((Nat → UInt8) × Nat)) (f : Flags) :
    Divides (tcpSendmsg s iov f) fun t => t.ctl.Ok := by
  refine sat_ite (fun _ => Sat.ok h) fun _ => sat_ite (fun _ => Sat.ok h) fun _ => ?_
  refine (sendLoop_paced f iov _ s).bind fun t _ ht => tcpOutput_ok ?_
  rcases ht with ht | ht
  · exact ht.ok h
  · rw [ht]; exact h.raised

theorem tcpTimeout_ok (h : s.ctl.Ok) (type : TcpTimer) : Divides (tcpTimeout s type) fun t => t.ctl.Ok := by
  have hclose : ∀ u : Pcb, u.ctl.Ok →
      Divides (tcpPcbPurge u >>= fun t => .ok { t with state := .closed }) fun t => t.ctl.Ok := fun u hu =>
    (tcpPcbPurge_paced u).bind fun t _ ht => Sat.ok (ht.ok hu)
  have hpurge : Divides (tcpPcbPurge { s with state := .closed }) fun t => t.ctl.Ok :=
    (tcpPcbPurge_paced _).mono fun t ht => ht.ok h
  cases type with
  | syn => exact sat_ite (fun _ => Sat.ok h) fun _ => hclose s h
  | rexmit =>
    have h1 : ({ s with rtxCnt := s.rtxCnt + 1 } : Pcb).ctl.Ok := h.same rfl rfl rfl
    refine sat_ite (fun _ => hclose _ h1) fun _ => ?_
    refine (tcpRexmit_paced _).mono fun t ht => ht.ok (Ctl.Ok.slowStart ?_)
    exact h.same rfl rfl rfl
  | persist =>
    refine Sat.ok ?_
    split
    · exact h.same rfl rfl rfl
    · exact h
  | keepalive => exact sat_ite (fun _ => Sat.ok h) fun _ => hclose s h
  | finWait2 => exact hpurge
  | timewait => exact hpurge

theorem tcpFastimo_ok (h : s.ctl.Ok) : Divides (tcpFastimo s) fun t => t.ctl.Ok := by
  have h1 : (if s.ackDelay = true then { s with ackNow := true } else s).ctl.Ok := by split <;> exact h
  exact sat_ite (fun _ => tcpOutput_ok h1) fun _ => Sat.ok h1

theorem step_ok {s : State} {a : Act} (h : s.pcb.ctl.Ok) (he : enabled s a) (hc : KeepsWindows s a) :
    Divides (step s a) fun t => t.pcb.ctl.Ok ∧ ∀ g, a = .input g → Accepts s.pcb g → Grows s.pcb g t.pcb := by
  have hother : (∀ g, a ≠ .input g) → Divides (step s a) (fun t => t.pcb.ctl.Ok) → Divides (step s a) fun t =>
      t.pcb.ctl.Ok ∧ ∀ g, a = .input g → Accepts s.pcb g → Grows s.pcb g t.pcb :=
    fun hn hs => hs.mono fun t ht => ⟨ht, fun g e => absurd e (hn g)⟩
  cases a with
  | input g =>
    refine (tcpInput_ok h he.2.2 hc).bind fun p _ hp => Sat.ok ⟨hp.1, ?_⟩
    rintro g' ⟨⟩
    exact hp.2
  | connect =>
    refine hother (fun _ => nofun) ((?_ : Divides (tcpConnect s.pcb) fun t => t.ctl.Ok).bind fun p _ hp => Sat.ok hp)
    refine sat_ite (fun _ => Sat.ok h) fun _ => ?_
    exact (tcpEnqueue_ok (s := { s.pcb with state := .synSent }) h _ 0 tcpSyn).bind fun t _ ht => tcpOutput_ok ht
  | send iov f => exact hother (fun _ => nofun) ((tcpSendmsg_ok h iov f).bind fun p _ hp => Sat.ok hp)
  | recv sizes => exact hother (fun _ => nofun) ((tcpRecvmsg_paced s.pcb _).bind fun r _ hr => Sat.ok (hr.ok h))
  | resume sizes => exact hother (fun _ => nofun) ((recvQueued_paced s.pcb _).bind fun r _ hr => Sat.ok (hr.ok h))
  | setsockopt opt val => exact hother (fun _ => nofun) (Sat.ok (by cases opt <;> exact h.same rfl rfl rfl))
  | close => exact hother (fun _ => nofun) ((tcpClose_ok h).bind fun p _ hp => Sat.ok hp)
  | timeout type => exact hother (fun _ => nofun) ((tcpTimeout_ok h type).bind fun p _ hp => Sat.ok hp)
  | slowtimo => exact hother (fun _ => nofun) (Sat.ok (h.same rfl rfl rfl))
  | fastimo => exact hother (fun _ => nofun) ((tcpFastimo_ok h).bind fun p _ hp => Sat.ok hp)
  | sent i => exact hother (fun _ => nofun) (Sat.ok (h.same rfl rfl rfl))

theorem tcpPcbGet_ok (isn : Seq) : (tcpPcbGet isn).ctl.Ok := by
  refine ⟨?_, ?_, ?_, ?_, ?_, ?_⟩
  · show 1 ≤ tcpDefaultMss; decide
  · show tcpDefaultMss ≤ tcpMaxWindow; decide
  · show 1 ≤ (536 : BitVec 32).toNat; decide
  · show (536 : BitVec 32).toNat ≤ tcpMaxWindow; decide
  · show 1 ≤ (65535 : BitVec 32).toNat; decide
  · show (65535 : BitVec 32).toNat ≤ tcpMaxWindow; decide

theorem start_ok {s : State} (h : tcp.start s) : s.pcb.ctl.Ok := by
  obtain ⟨-, isn, h | ⟨mss, g, hmss, -, h⟩⟩ := h
  · rw [h]
    exact tcpPcbGet_ok isn
  · have hm : 1 ≤ (if mss < tcpDefaultMss then tcpDefaultMss else mss) ∧
        (if mss < tcpDefaultMss then tcpDefaultMss else mss) ≤ tcpMaxWindow := by
      unfold tcpDefaultMss tcpMaxWindow
      split <;> omega
    have h1 : ({ tcpPcbGet isn with
        state := .synRcvd, sndWnd := g.window, sndMss := if mss < tcpDefaultMss then tcpDefaultMss else mss
        rcvNxt := g.seqno + 1 } : Pcb).ctl.Ok := (tcpPcbGet_ok isn).withMss hm.1 hm.2
    have h2 : Divides (tcpHandleListen isn mss g) fun t => t.ctl.Ok :=
      (tcpEnqueue_ok h1 _ 0 (tcpSyn ||| tcpAck)).bind fun t _ ht => tcpOutput_ok ht
    exact h2.of_ok h

theorem reach_ok {s : State} (h : tcp.Reach KeepsWindows s) : s.pcb.ctl.Ok :=
  h.inv (I := fun s => s.pcb.ctl.Ok) (fun _ => start_ok) fun _ _ _ hI hP hs => ((step_ok hI hs.1 hP).of_ok hs.2).1

/-- In every run whose segments fit, the segment size stays positive and both windows between one and
`TCP_MAX_WINDOW`, nothing is divided by zero, and a new acknowledgement makes the window no smaller, but for
the return to `snd_ssthresh` after a fast retransmission. -/
theorem congestion_arithmetic {s : State} (h : tcp.Reach KeepsWindows s) :
    s.pcb.ctl.Ok ∧ ∀ a, tcp.enabled s a → KeepsWindows s a → step s a ≠ .error .divide ∧
      ∀ t g, step s a = .ok t → a = .input g → Accepts s.pcb g → ¬ seqGEQ s.pcb.sndUna g.ackno →
        (if 3 < s.pcb.dupacks ∧ s.pcb.sndSsthresh < s.pcb.sndCwnd then s.pcb.sndSsthresh else s.pcb.sndCwnd).toNat ≤
          t.pcb.sndCwnd.toNat := by
  refine ⟨reach_ok h, fun a he hc => ?_⟩
  have hs := step_ok (reach_ok h) he hc
  refine ⟨fun e => hs.not_bad e rfl, fun t g ht hg hacc hn => ?_⟩
  exact (hs.of_ok ht).2 g hg hacc hn

def connected (mss : Nat) : List Act := [Act.connect, Act.input ⟨7, 6, tcpSyn ||| tcpAck, 4096, [.optMss 4 mss], []⟩]

theorem congestion_arithmetic_connected : ∃ s, tcp.Reach KeepsWindows s ∧ s.pcb.state = .established ∧ s.pcb.ctl.Ok ∧
    ∀ a, tcp.enabled s a → KeepsWindows s a → step s a ≠ .error .divide ∧
      ∀ t g, step s a = .ok t → a = .input g → Accepts s.pcb g → ¬ seqGEQ s.pcb.sndUna g.ackno →
        (if 3 < s.pcb.dupacks ∧ s.pcb.sndSsthresh < s.pcb.sndCwnd then s.pcb.sndSsthresh else s.pcb.sndCwnd).toNat ≤
          t.pcb.sndCwnd.toNat := by
  have h : (tcp.trace KeepsWindows ⟨tcpPcbGet 5, true, []⟩ (connected 1460)).map (fun s => s.pcb.state) =
      some .established := by decide +kernel
  obtain ⟨s, hs, he⟩ := Option.map_eq_some_iff.1 h
  have hr : tcp.Reach KeepsWindows s := Machine.trace_reach ⟨rfl, 5, .inl rfl⟩ hs
  exact ⟨s, hr, he, congestion_arithmetic hr⟩

/-- An `MSS` of zero stays in `snd_mss`, and the third duplicate acknowledgement divides by it. -/
theorem mss_zero_divides : ∃ s, tcp.Reach Machine.Any s ∧ s.pcb.sndMss = 0 ∧
    tcp.enabled s (.input ⟨8, 6, tcpAck, 4096, [], []⟩) ∧ step s (.input ⟨8, 6, tcpAck, 4096, [], []⟩) = .error .divide := by
  have h : (tcp.trace Machine.Any ⟨tcpPcbGet 5, true, []⟩ (connected 0 ++ List.replicate 2
      (Act.input ⟨8, 6, tcpAck, 4096, [], []⟩))).map (fun s => (s.pcb.sndMss, match step s (.input ⟨8, 6, tcpAck, 4096, [], []⟩) with
        | .error e => some e
        | .ok _ => none)) = some (0, some .divide) := by decide +kernel
  obtain ⟨s, hs, he⟩ := Option.map_eq_some_iff.1 h
  obtain ⟨h1, h2⟩ := Prod.mk.inj he
  refine ⟨s, Machine.trace_reach ⟨rfl, 5, .inl rfl⟩ hs, h1, ⟨by decide, by decide, by simp⟩, ?_⟩
  cases hr : step s (.input ⟨8, 6, tcpAck, 4096, [], []⟩) with
  | ok t => rw [hr] at h2; cases h2
  | error e =>
    rw [hr] at h2
    rw [Option.some.inj h2]

end Onix.Tcp
