/-
Serial numbers: words of `w` bits compared by the sign of their difference. Numbers of one base that
lie less than half the range apart compare as their distances from the base do. A stretch of numbers
that intervals cover is no longer than they are together.
-/
import Mathlib.Algebra.Order.Ring.Int
import Mathlib.Data.BitVec
import Mathlib.Data.Int.Interval
import Mathlib.Tactic.Ring

namespace Onix.Lib

open Finset

variable {w : Nat}

theorem serial_sub_toInt (hw : 0 < w) (x : BitVec w) {a b : Nat} (h1 : a < b + 2 ^ (w - 1)) (h2 : b < a + 2 ^ (w - 1)) :
    ((x + BitVec.ofNat w a) - (x + BitVec.ofNat w b)).toInt = (a : Int) - b := by
  have hp : (2 : Nat) ^ w = 2 * 2 ^ (w - 1) := by
    obtain ⟨n, rfl⟩ : ∃ n, w = n + 1 := ⟨w - 1, by omega⟩
    rw [Nat.add_sub_cancel, pow_succ, mul_comm]
  have hp' : ((2 ^ w : Nat) : Int) = 2 * 2 ^ (w - 1) := by rw [hp]; push_cast; rfl
  rw [← BitVec.ofInt_natCast w a, ← BitVec.ofInt_natCast w b]
  simp only [BitVec.toInt_sub, BitVec.toInt_add, BitVec.toInt_ofInt, Int.bmod_sub_bmod, Int.sub_bmod_bmod]
  have e : x.toInt + (a : Int).bmod (2 ^ w) - (x.toInt + (b : Int).bmod (2 ^ w)) =
      (a : Int).bmod (2 ^ w) - (b : Int).bmod (2 ^ w) := by ring
  rw [e, Int.bmod_sub_bmod, Int.sub_bmod_bmod]
  refine Int.bmod_eq_of_le ?_ ?_ <;> rw [hp'] <;> omega

theorem serial_dist_sub (hw : 0 < w) (a x y : BitVec w) (h1 : -2 ^ (w - 1) ≤ (x - a).toInt - (y - a).toInt)
    (h2 : (x - a).toInt - (y - a).toInt < 2 ^ (w - 1)) : (x - y).toInt = (x - a).toInt - (y - a).toInt := by
  have hp : ((2 ^ w : Nat) : Int) = 2 * 2 ^ (w - 1) := by
    obtain ⟨n, rfl⟩ : ∃ n, w = n + 1 := ⟨w - 1, by omega⟩
    rw [Nat.add_sub_cancel, pow_succ]; push_cast; ring
  rw [← sub_sub_sub_cancel_right x y a, BitVec.toInt_sub]
  refine Int.bmod_eq_of_le ?_ ?_ <;> rw [hp] <;> omega

theorem serial_dist_add (hw : 0 < w) (a x : BitVec w) (k : Int) (h1 : -2 ^ (w - 1) ≤ (x - a).toInt + k)
    (h2 : (x - a).toInt + k < 2 ^ (w - 1)) : (x + BitVec.ofInt w k - a).toInt = (x - a).toInt + k := by
  have hp : ((2 ^ w : Nat) : Int) = 2 * 2 ^ (w - 1) := by
    obtain ⟨n, rfl⟩ : ∃ n, w = n + 1 := ⟨w - 1, by omega⟩
    rw [Nat.add_sub_cancel, pow_succ]; push_cast; ring
  rw [add_sub_right_comm, BitVec.toInt_add, BitVec.toInt_ofInt, Int.add_bmod_bmod]
  refine Int.bmod_eq_of_le ?_ ?_ <;> rw [hp] <;> omega

theorem card_le_of_cover {α : Type} (lo : α → Int) (size : α → Nat) : ∀ (l : List α) (S : Finset Int),
    (∀ k ∈ S, ∃ p ∈ l, lo p ≤ k ∧ k < lo p + size p) → S.card ≤ (l.map size).sum
  | [], S, h => by
    have : S = ∅ := eq_empty_of_forall_notMem fun k hk => by
      obtain ⟨p, hp, -⟩ := h k hk
      cases hp
    simp [this]
  | p :: l, S, h => by
    -- what lies in the first interval, and the rest
    have h1 : (S.filter fun k => lo p ≤ k ∧ k < lo p + size p).card ≤ size p := by
      have hsub : (S.filter fun k => lo p ≤ k ∧ k < lo p + size p) ⊆ Finset.Ico (lo p) (lo p + size p) := by
        intro k hk
        exact mem_Ico.2 (mem_filter.1 hk).2
      have := card_le_card hsub
      rw [Int.card_Ico] at this
      omega
    have h2 : (S.filter fun k => ¬ (lo p ≤ k ∧ k < lo p + size p)).card ≤ (l.map size).sum := by
      refine card_le_of_cover lo size l _ fun k hk => ?_
      obtain ⟨hk, hn⟩ := mem_filter.1 hk
      obtain ⟨q, hq, hc⟩ := h k hk
      rcases List.mem_cons.1 hq with rfl | hq
      · exact absurd hc hn
      · exact ⟨q, hq, hc⟩
    have h3 := card_filter_add_card_filter_not (s := S) (fun k => lo p ≤ k ∧ k < lo p + size p)
    simp only [List.map_cons, List.sum_cons]
    omega

end Onix.Lib
