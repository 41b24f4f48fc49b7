/-
Running averages in words of `w` bits: `a + (x - a) / k` with a division that rounds down, as an
arithmetic shift does. The average of two numbers of an interval is in the interval, whatever the
rounding. Signed operations on words are those on integers as long as the result fits.
-/
import Mathlib.Data.BitVec
import Mathlib.Tactic.Linarith
import Mathlib.Tactic.Positivity
import Mathlib.Tactic.Ring

namespace Onix.Lib

variable {w : Nat}

/-! ## Rounding -/

def average (k a x : Int) : Int := a + (x - a) / k

theorem average_le {k hi a x : Int} (hk : 0 < k) (ha : a ≤ hi) (hx : x ≤ hi) : average k a x ≤ hi := by
  have h1 : (x - a) / k ≤ (hi - a) / k := Int.ediv_le_ediv hk (by omega)
  have h2 : (hi - a) / k ≤ hi - a := Int.ediv_le_self k (by omega)
  unfold average
  omega

/-! ## Words -/

theorem bmod_word {z : Int} (hw : 0 < w) (h1 : -2 ^ (w - 1) ≤ z) (h2 : z < 2 ^ (w - 1)) : z.bmod (2 ^ w) = z := by
  have hp : ((2 ^ w : Nat) : Int) = 2 * 2 ^ (w - 1) := by
    obtain ⟨n, rfl⟩ : ∃ n, w = n + 1 := ⟨w - 1, by omega⟩
    rw [Nat.add_sub_cancel, pow_succ]; push_cast; ring
  refine Int.bmod_eq_of_le ?_ ?_ <;> rw [hp] <;> omega

theorem toInt_add_exact {x y : BitVec w} (hw : 0 < w) (h1 : -2 ^ (w - 1) ≤ x.toInt + y.toInt)
    (h2 : x.toInt + y.toInt < 2 ^ (w - 1)) : (x + y).toInt = x.toInt + y.toInt := by
  rw [BitVec.toInt_add, bmod_word hw h1 h2]

theorem toInt_sub_exact {x y : BitVec w} (hw : 0 < w) (h1 : -2 ^ (w - 1) ≤ x.toInt - y.toInt)
    (h2 : x.toInt - y.toInt < 2 ^ (w - 1)) : (x - y).toInt = x.toInt - y.toInt := by
  rw [BitVec.toInt_sub, bmod_word hw h1 h2]

theorem toInt_sshiftRight_ediv (x : BitVec w) (n : Nat) : (x.sshiftRight n).toInt = x.toInt / 2 ^ n := by
  rw [BitVec.toInt_sshiftRight, Int.shiftRight_eq_div_pow]
  rfl

theorem toInt_shiftLeft_exact {x : BitVec w} {n : Nat} (hw : 0 < w) (h0 : 0 ≤ x.toInt)
    (h : x.toInt * 2 ^ n < 2 ^ (w - 1)) : (x <<< n).toInt = x.toInt * 2 ^ n := by
  have hx : (x.toNat : Int) = x.toInt := by
    have := BitVec.toInt_eq_toNat_cond x
    split at this <;> have := x.isLt <;> omega
  rw [BitVec.toInt_shiftLeft, Nat.shiftLeft_eq]
  push_cast
  rw [hx, bmod_word hw _ h]
  have : (0 : Int) ≤ x.toInt * 2 ^ n := by positivity
  omega

end Onix.Lib
