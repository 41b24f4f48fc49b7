/-
The estimator of the round trip time. `tcp_xmit_timer` keeps a running average of the samples and
one of their deviation, in words with arithmetic shifts; the same on integers is `Estimator`. As
long as the samples are below `2 ^ 20` the words compute what the integers do, both averages stay
among the samples and the timeout stays between `TCP_TO_MIN` and `TCP_TO_REXMIT_MAX`.
-/
import Onix.Lib.Average
import Onix.Tcp.Model
import Mathlib.Tactic.IntervalCases

namespace Onix.Tcp

open Onix.Lib

/-! ## The estimator on integers -/

def tcpToMin : Nat := 2

def tcpToRexmitMax : Nat := 128

def tcpMaxrxtcnt : Nat := 12

structure Estimator where
  srtt : Int
  rttvar : Int

def Estimator.sample (e : Estimator) (rtt : Int) : Estimator :=
  ⟨max 1 (average 8 e.srtt rtt), max 1 (average 4 e.rttvar |rtt - e.srtt|)⟩

/-- What holds of the averages while no sample is above `m`. -/
structure Estimator.Within (m : Int) (e : Estimator) : Prop where
  srtt : 0 ≤ e.srtt
  srtt_le : e.srtt ≤ max 1 m
  rttvar : 1 ≤ e.rttvar
  rttvar_le : e.rttvar ≤ max 2 m

theorem Estimator.Within.abs {m rtt : Int} {e : Estimator} (h : e.Within m) (h0 : 0 ≤ rtt) (h1 : rtt ≤ m) :
    |rtt - e.srtt| ≤ max 2 m := by
  have := h.srtt
  have := h.srtt_le
  rw [abs_le]
  omega

theorem Estimator.Within.sample {m rtt : Int} {e : Estimator} (h : e.Within m) (h0 : 0 ≤ rtt) (h1 : rtt ≤ m) :
    (e.sample rtt).Within m where
  srtt := le_trans (by decide) (le_max_left ..)
  srtt_le := max_le (le_max_left ..) (average_le (by decide) h.srtt_le (le_trans h1 (le_max_right ..)))
  rttvar := le_max_left ..
  rttvar_le := max_le (le_trans (by decide) (le_max_left ..)) (average_le (by decide) h.rttvar_le (h.abs h0 h1))

/-! ## Words -/

def Pcb.estimator (s : Pcb) : Estimator := ⟨s.srtt.toInt, s.rttvar.toInt⟩

/-- No step of `tcp_xmit_timer` overflows: each has the value it has on integers. -/
structure SampleExact (s : Pcb) (rtt : BitVec 32) : Prop where
  err : (rtt - s.srtt).toInt = rtt.toNat - s.srtt.toInt
  step : ((rtt - s.srtt).sshiftRight 3).toInt = (rtt.toNat - s.srtt.toInt) / 8
  srtt : (s.srtt + (rtt - s.srtt).sshiftRight 3).toInt = average 8 s.srtt.toInt rtt.toNat
  abs : (absInt (rtt - s.srtt)).toInt = |rtt.toNat - s.srtt.toInt|
  dev : (absInt (rtt - s.srtt) - s.rttvar).toInt = |rtt.toNat - s.srtt.toInt| - s.rttvar.toInt
  devStep : ((absInt (rtt - s.srtt) - s.rttvar).sshiftRight 2).toInt = (|rtt.toNat - s.srtt.toInt| - s.rttvar.toInt) / 4
  rttvar : (s.rttvar + (absInt (rtt - s.srtt) - s.rttvar).sshiftRight 2).toInt =
    average 4 s.rttvar.toInt |rtt.toNat - s.srtt.toInt|

/-- No step of `tcp_update_rto` overflows. -/
structure RtoExact (s : Pcb) (backoff : BitVec 32) : Prop where
  shift : (s.rttvar <<< 2).toInt = s.rttvar.toInt * 4
  sum : (s.srtt + (s.rttvar <<< 2)).toInt = s.srtt.toInt + s.rttvar.toInt * 4
  product : (((s.srtt + (s.rttvar <<< 2)) * backoff).toNat : Int) = (s.srtt.toInt + s.rttvar.toInt * 4) * backoff.toNat

variable {x : BitVec 32}

theorem toInt_eq_toNat (h : x.toNat < 2 ^ 31) : x.toInt = x.toNat := by
  rw [BitVec.toInt_eq_toNat_cond, if_pos (by omega)]

theorem toNat_eq_toInt (h : 0 ≤ x.toInt) : (x.toNat : Int) = x.toInt := by
  have := BitVec.toInt_eq_toNat_cond x
  split at this <;> have := x.isLt <;> omega

theorem absInt_toInt (h : -2 ^ 31 < x.toInt) : (absInt x).toInt = |x.toInt| := by
  unfold absInt
  split
  · rename_i hx
    have hx : x.toInt < 0 := by simpa [BitVec.slt] using hx
    rw [abs_of_neg hx, BitVec.toInt_neg, bmod_word (by decide) (by norm_num; omega) (by norm_num; omega)]
  · rename_i hx
    have hx : 0 ≤ x.toInt := by simpa [BitVec.slt] using hx
    rw [abs_of_nonneg hx]

variable {rtt : BitVec 32} {m : Nat} {s : Pcb}

theorem sampleExact (hm : m < 2 ^ 20) (h : s.estimator.Within m) (hr : rtt.toNat ≤ m) :
    SampleExact s rtt := by
  have h1 : 0 ≤ s.srtt.toInt := h.srtt
  have h2 : s.srtt.toInt ≤ max 1 (m : Int) := h.srtt_le
  have h3 : 1 ≤ s.rttvar.toInt := h.rttvar
  have h4 : s.rttvar.toInt ≤ max 2 (m : Int) := h.rttvar_le
  have h5 : |rtt.toNat - s.srtt.toInt| ≤ max 2 (m : Int) :=
    h.abs (Int.natCast_nonneg rtt.toNat) (by exact_mod_cast hr)
  have hrtt : rtt.toInt = rtt.toNat := toInt_eq_toNat (by omega)
  have err : (rtt - s.srtt).toInt = rtt.toNat - s.srtt.toInt := by
    rw [toInt_sub_exact (by decide) (by norm_num; omega) (by norm_num; omega), hrtt]
  have step : ((rtt - s.srtt).sshiftRight 3).toInt = (rtt.toNat - s.srtt.toInt) / 8 := by
    rw [toInt_sshiftRight_ediv, err]; rfl
  have abs : (absInt (rtt - s.srtt)).toInt = |rtt.toNat - s.srtt.toInt| := by
    rw [absInt_toInt (by omega), err]
  have hpos := abs_nonneg (rtt.toNat - s.srtt.toInt)
  have dev : (absInt (rtt - s.srtt) - s.rttvar).toInt = |rtt.toNat - s.srtt.toInt| - s.rttvar.toInt := by
    rw [toInt_sub_exact (by decide) (by norm_num; omega) (by norm_num; omega), abs]
  have devStep : ((absInt (rtt - s.srtt) - s.rttvar).sshiftRight 2).toInt =
      (|rtt.toNat - s.srtt.toInt| - s.rttvar.toInt) / 4 := by
    rw [toInt_sshiftRight_ediv, dev]; rfl
  refine ⟨err, step, ?_, abs, dev, devStep, ?_⟩
  · rw [toInt_add_exact (by decide) (by rw [step]; norm_num; omega) (by rw [step]; norm_num; omega), step]; rfl
  · rw [toInt_add_exact (by decide) (by rw [devStep]; norm_num; omega) (by rw [devStep]; norm_num; omega), devStep]; rfl

theorem tcpBackoff_le (i : Nat) : (tcpBackoff i).toNat ≤ 64 := by
  unfold tcpBackoff
  split
  · rename_i h
    interval_cases i <;> decide
  · decide

theorem rtoExact {i : Nat} (hm : m < 2 ^ 20) (h : s.estimator.Within m) : RtoExact s (tcpBackoff i) := by
  have h1 : 0 ≤ s.srtt.toInt := h.srtt
  have h2 : s.srtt.toInt ≤ max 1 (m : Int) := h.srtt_le
  have h3 : 1 ≤ s.rttvar.toInt := h.rttvar
  have h4 : s.rttvar.toInt ≤ max 2 (m : Int) := h.rttvar_le
  have shift : (s.rttvar <<< 2).toInt = s.rttvar.toInt * 4 :=
    toInt_shiftLeft_exact (by decide) (by omega) (by norm_num; omega)
  have sum : (s.srtt + (s.rttvar <<< 2)).toInt = s.srtt.toInt + s.rttvar.toInt * 4 := by
    rw [toInt_add_exact (by decide) (by rw [shift]; norm_num; omega) (by rw [shift]; norm_num; omega), shift]
  refine ⟨shift, sum, ?_⟩
  have hb := tcpBackoff_le i
  have hv : ((s.srtt + (s.rttvar <<< 2)).toNat : Int) = s.srtt.toInt + s.rttvar.toInt * 4 := by
    rw [toNat_eq_toInt (by omega), sum]
  rw [BitVec.toNat_mul, Nat.mod_eq_of_lt, Int.natCast_mul, hv]
  have : (s.srtt + (s.rttvar <<< 2)).toNat * (tcpBackoff i).toNat ≤ (5 * 2 ^ 20) * 64 := Nat.mul_le_mul (by omega) hb
  omega

/-! ## Samples -/

theorem clamp_toInt (x : BitVec 32) : (if x.sle 0 then (1 : BitVec 32) else x).toInt = max 1 x.toInt := by
  have hle : x.sle 0 = true ↔ x.toInt ≤ 0 := by simp [BitVec.sle]
  split
  · rename_i h
    rw [max_eq_left (by have := hle.1 h; omega)]
    decide
  · rename_i h
    rw [max_eq_right (by have := mt hle.2 h; omega)]

theorem tcpXmitTimer_estimator (h : SampleExact s rtt) :
    (tcpXmitTimer s rtt).estimator = s.estimator.sample rtt.toNat := by
  unfold Pcb.estimator Estimator.sample
  rw [← h.srtt, ← h.rttvar, ← clamp_toInt, ← clamp_toInt]
  rfl

theorem tcpUpdateRto_range (s : Pcb) (b : BitVec 32) (h : s.rttmin = BitVec.ofNat 32 tcpToMin) :
    tcpToMin ≤ (tcpUpdateRto s b).toNat ∧ (tcpUpdateRto s b).toNat ≤ tcpToRexmitMax := by
  unfold tcpUpdateRto tcpRangeValue
  rw [h]
  split
  · decide
  · rename_i h1
    split
    · decide
    · rename_i h2
      exact ⟨Nat.not_lt.1 h1, Nat.not_lt.1 h2⟩

/-- The pcb after samples no greater than `m`. -/
structure Sampled (m : Nat) (s : Pcb) : Prop where
  within : s.estimator.Within m
  rttmin : s.rttmin = BitVec.ofNat 32 tcpToMin
  rto : tcpToMin ≤ s.rto.toNat ∧ s.rto.toNat ≤ tcpToRexmitMax

theorem tcpPcbGet_sampled (isn : Seq) (m : Nat) : Sampled m (tcpPcbGet isn) where
  within := by
    have e : (tcpPcbGet isn).estimator = ⟨0, 2⟩ := rfl
    rw [e]
    exact ⟨by decide, le_trans (by decide) (le_max_left ..), by decide, le_max_left ..⟩
  rttmin := rfl
  rto := tcpUpdateRto_range _ 1 rfl

theorem Sampled.sample (hm : m < 2 ^ 20) (h : Sampled m s) (hr : rtt.toNat ≤ m) :
    Sampled m (tcpXmitTimer s rtt) where
  within := by
    rw [tcpXmitTimer_estimator (sampleExact hm h.within hr)]
    exact h.within.sample (Int.natCast_nonneg _) (by exact_mod_cast hr)
  rttmin := h.rttmin
  rto := tcpUpdateRto_range _ 1 h.rttmin

theorem samples_sampled (hm : m < 2 ^ 20) : ∀ (rtts : List (BitVec 32)) (s : Pcb), Sampled m s →
    (∀ r ∈ rtts, r.toNat ≤ m) → Sampled m (rtts.foldl tcpXmitTimer s)
  | [], _, h, _ => h
  | r :: rtts, s, h, hr => by
    refine samples_sampled hm rtts _ (h.sample hm (hr r (.head _))) fun r' hr' => ?_
    exact hr r' (.tail _ hr')

theorem samples_srtt (hm : m < 2 ^ 20) : ∀ (rtts : List (BitVec 32)) (s : Pcb), Sampled m s →
    (∀ r ∈ rtts, r.toNat ≤ m) → (rtts = [] → 1 ≤ s.srtt.toInt) → 1 ≤ (rtts.foldl tcpXmitTimer s).srtt.toInt
  | [], _, _, _, h => h rfl
  | r :: rtts, s, h, hr, _ => by
    have hr1 := hr r (.head _)
    refine samples_srtt hm rtts _ (h.sample hm hr1) (fun r' hr' => hr r' (.tail _ hr')) fun _ => ?_
    have e := congrArg Estimator.srtt (tcpXmitTimer_estimator (sampleExact hm h.within hr1))
    exact e.ge.trans' (le_max_left ..)

/-- From a fresh pcb on, samples no greater than `m` keep `srtt` in `[0, max 1 m]`, `rttvar` in `[1, max 2 m]`
and each timeout in its range, and no step of the next sample or of a timeout overflows. -/
theorem rtt_estimator (isn : Seq) {rtts : List (BitVec 32)} (hm : m < 2 ^ 20) (h : ∀ r ∈ rtts, r.toNat ≤ m) :
    let s := rtts.foldl tcpXmitTimer (tcpPcbGet isn)
    0 ≤ s.srtt.toInt ∧ s.srtt.toInt ≤ max 1 (m : Int) ∧ (rtts ≠ [] → 1 ≤ s.srtt.toInt) ∧
      1 ≤ s.rttvar.toInt ∧ s.rttvar.toInt ≤ max 2 (m : Int) ∧
      (∀ rtt : BitVec 32, rtt.toNat ≤ m → SampleExact s rtt) ∧
      ∀ i ≤ tcpMaxrxtcnt, RtoExact s (tcpBackoff i) ∧
        tcpToMin ≤ (tcpUpdateRto s (tcpBackoff i)).toNat ∧ (tcpUpdateRto s (tcpBackoff i)).toNat ≤ tcpToRexmitMax := by
  intro s
  have hs : Sampled m s := samples_sampled hm rtts _ (tcpPcbGet_sampled isn m) h
  refine ⟨hs.within.srtt, hs.within.srtt_le, fun hne => ?_, hs.within.rttvar, hs.within.rttvar_le, fun rtt hr => ?_,
    fun i _ => ⟨rtoExact hm hs.within, tcpUpdateRto_range s _ hs.rttmin⟩⟩
  · exact samples_srtt hm rtts _ (tcpPcbGet_sampled isn m) h fun e => absurd e hne
  · exact sampleExact hm hs.within hr

theorem rtt_estimator_samples :
    let s := [100, 0, 3].foldl tcpXmitTimer (tcpPcbGet 7)
    0 ≤ s.srtt.toInt ∧ s.srtt.toInt ≤ max 1 ((100 : Nat) : Int) ∧ ([100, 0, 3] ≠ ([] : List (BitVec 32)) → 1 ≤ s.srtt.toInt) ∧
      1 ≤ s.rttvar.toInt ∧ s.rttvar.toInt ≤ max 2 ((100 : Nat) : Int) ∧
      (∀ rtt : BitVec 32, rtt.toNat ≤ 100 → SampleExact s rtt) ∧
      ∀ i ≤ tcpMaxrxtcnt, RtoExact s (tcpBackoff i) ∧
        tcpToMin ≤ (tcpUpdateRto s (tcpBackoff i)).toNat ∧ (tcpUpdateRto s (tcpBackoff i)).toNat ≤ tcpToRexmitMax :=
  rtt_estimator 7 (by norm_num) (by simp)

end Onix.Tcp
