/-
Sums with end-around carry, where the largest number is `m`: a carry out of a sum is added to it again. Such a sum depends only on the
residue modulo `m` and on whether there is anything but zeros; of the two numbers that are zero modulo `m` it is `m` then.
-/
import Mathlib.Algebra.BigOperators.Group.List.Basic
import Mathlib.Data.Nat.ModEq

namespace Onix.Lib

variable {m a b n : Nat}

def addCarry (m a b : Nat) : Nat := if a + b ≤ m then a + b else a + b - m

def onesSum (m : Nat) (l : List Nat) : Nat := l.foldl (addCarry m) 0

/-- The number that stands for `n`, from 1 to `m` unless `n` is zero. -/
def reduce (m n : Nat) : Nat := if n = 0 then 0 else (n - 1) % m + 1

theorem reduce_self (h : n ≤ m) : reduce m n = n := by
  unfold reduce
  by_cases h0 : n = 0
  · rw [if_pos h0, h0]
  · rw [if_neg h0, Nat.mod_eq_of_lt (by omega)]
    omega

theorem reduce_le (hm : 0 < m) (n : Nat) : reduce m n ≤ m := by
  unfold reduce
  have := Nat.mod_lt (n - 1) hm
  split <;> omega

theorem reduce_zero : reduce m n = 0 ↔ n = 0 := by
  unfold reduce
  split <;> simp_all

theorem reduce_mod (m n : Nat) : reduce m n ≡ n [MOD m] := by
  unfold reduce
  by_cases h0 : n = 0
  · rw [if_pos h0, h0]
  · rw [if_neg h0]
    calc (n - 1) % m + 1 ≡ n - 1 + 1 [MOD m] := (Nat.mod_modEq _ _).add_right 1
      _ = n := by omega

theorem reduce_congr (h : a ≡ b [MOD m]) (h0 : a = 0 ↔ b = 0) : reduce m a = reduce m b := by
  unfold reduce
  by_cases ha : a = 0
  · rw [if_pos ha, if_pos (h0.1 ha)]
  · have hb : b ≠ 0 := fun hb => ha (h0.2 hb)
    rw [if_neg ha, if_neg hb]
    have hpred : a - 1 + 1 ≡ b - 1 + 1 [MOD m] := by
      rw [Nat.sub_add_cancel (by omega), Nat.sub_add_cancel (by omega)]
      exact h
    rw [(Nat.ModEq.add_right_cancel' 1 hpred : (a - 1) % m = (b - 1) % m)]

theorem reduce_add (m a b : Nat) : reduce m (reduce m a + b) = reduce m (a + b) := by
  apply reduce_congr
  · exact (reduce_mod m a).add_right b
  · rw [Nat.add_eq_zero_iff, Nat.add_eq_zero_iff, reduce_zero]

theorem addCarry_eq (ha : a ≤ m) (hb : b ≤ m) : addCarry m a b = reduce m (a + b) := by
  unfold addCarry
  by_cases h : a + b ≤ m
  · rw [if_pos h, reduce_self h]
  · have hle : a + b - m ≤ m := by omega
    rw [if_neg h, ← reduce_self hle]
    apply reduce_congr
    · calc a + b - m ≡ a + b - m + m [MOD m] := (Nat.add_modEq_right).symm
        _ = a + b := by omega
    · omega

theorem onesSum_eq {l : List Nat} (hm : 0 < m) (h : ∀ x ∈ l, x ≤ m) : onesSum m l = reduce m l.sum := by
  have hfold : ∀ (l : List Nat) (a : Nat), (∀ x ∈ l, x ≤ m) → a ≤ m → l.foldl (addCarry m) a = reduce m (a + l.sum) := by
    intro l
    induction l with
    | nil => exact fun a _ ha => (reduce_self ha).symm
    | cons x l ih =>
      intro a h ha
      have hx := h x (.head _)
      rw [List.foldl_cons, addCarry_eq ha hx, ih _ (fun y hy => h y (.tail _ hy)) (reduce_le hm _), reduce_add, List.sum_cons,
        add_assoc]
  unfold onesSum
  rw [hfold l 0 h (Nat.zero_le _), zero_add]

theorem reduce_carry (m n : Nat) : reduce m (n % (m + 1) + n / (m + 1)) = reduce m n := by
  have hn : n % (m + 1) + n / (m + 1) + m * (n / (m + 1)) = n := by
    calc _ = n % (m + 1) + (m * (n / (m + 1)) + n / (m + 1)) := by rw [add_assoc, add_comm (n / (m + 1))]
      _ = n := by rw [← Nat.succ_mul]; exact Nat.mod_add_div n (m + 1)
  apply reduce_congr
  · calc n % (m + 1) + n / (m + 1) ≡ n % (m + 1) + n / (m + 1) + m * (n / (m + 1)) [MOD m] := Nat.modEq_add_modulus_mul_iff.2 rfl
      _ = n := hn
  · constructor
    · intro h
      obtain ⟨h1, h2⟩ := Nat.add_eq_zero_iff.1 h
      rw [← hn, h1, h2]
      simp
    · rintro rfl
      simp

theorem reduce_complement (hm : 0 < m) (n : Nat) : reduce m (n + (m - reduce m n)) = m := by
  have hle := reduce_le hm n
  rw [← reduce_add, Nat.add_sub_cancel' hle, reduce_self (le_refl m)]

theorem reduce_top (hm : 0 < m) : reduce m n = m ↔ n ≠ 0 ∧ n ≡ 0 [MOD m] := by
  constructor
  · intro h
    refine ⟨fun h0 => ?_, ?_⟩
    · rw [h0, reduce_self (Nat.zero_le m)] at h
      omega
    · calc n ≡ reduce m n [MOD m] := (reduce_mod m n).symm
        _ = m := h
        _ ≡ 0 [MOD m] := Nat.modulus_modEq_zero
  · rintro ⟨h0, h⟩
    calc reduce m n = reduce m m := reduce_congr (h.trans Nat.modulus_modEq_zero.symm) (by omega)
      _ = m := reduce_self (le_refl m)

theorem complement_fits (hm : 0 < m) (ha : a ≠ 0) : reduce m (a + (m - reduce m b)) = m ↔ a ≡ b [MOD m] := by
  have hle := reduce_le hm b
  have hb : m - reduce m b + b ≡ 0 [MOD m] := by
    calc m - reduce m b + b ≡ m - reduce m b + reduce m b [MOD m] := (reduce_mod m b).symm.add_left _
      _ = m := Nat.sub_add_cancel hle
      _ ≡ 0 [MOD m] := Nat.modulus_modEq_zero
  rw [reduce_top hm]
  constructor
  · rintro ⟨-, h⟩
    calc a ≡ a + (m - reduce m b + b) [MOD m] := (hb.add_left a).symm
      _ = a + (m - reduce m b) + b := (add_assoc ..).symm
      _ ≡ 0 + b [MOD m] := h.add_right b
      _ = b := zero_add b
  · intro h
    refine ⟨by omega, ?_⟩
    calc a + (m - reduce m b) ≡ b + (m - reduce m b) [MOD m] := h.add_right _
      _ = m - reduce m b + b := add_comm ..
      _ ≡ 0 [MOD m] := hb

end Onix.Lib
