/-
The search for the first number of a range that satisfies a test.
-/
import Mathlib.Tactic.Common

namespace Onix.Lib

/-- The first number from `i` on that satisfies `p`, by the rounds that are left. -/
def findFrom (p : Nat → Bool) : Nat → Nat → Option Nat
  | 0, _ => none
  | n + 1, i => if p i then some i else findFrom p n (i + 1)

theorem findFrom_some {P : Nat → Bool} : ∀ {n i j : Nat}, findFrom P n i = some j → i ≤ j ∧ j < i + n ∧ P j = true
  | 0, _, _, h => nomatch h
  | n + 1, i, j, h => by
    unfold findFrom at h
    split at h
    · rename_i hp
      cases h
      exact ⟨Nat.le_refl _, by omega, hp⟩
    · obtain ⟨h1, h2, h3⟩ := findFrom_some h
      exact ⟨by omega, by omega, h3⟩

theorem findFrom_none {P : Nat → Bool} : ∀ {n i j : Nat}, findFrom P n i = none → i ≤ j → j < i + n → P j = false
  | 0, _, _, _, h1, h2 => by omega
  | n + 1, i, j, h, h1, h2 => by
    unfold findFrom at h
    split at h
    · cases h
    · rename_i hp
      by_cases hj : j = i
      · rw [hj]
        exact eq_false_of_ne_true hp
      · exact findFrom_none h (by omega) (by omega)

theorem findFrom_first {P : Nat → Bool} : ∀ {n i j l : Nat}, findFrom P n i = some j → i ≤ l → l < j → P l = false
  | 0, _, _, _, h, _, _ => nomatch h
  | n + 1, i, j, l, h, h1, h2 => by
    unfold findFrom at h
    split at h
    · cases h
      omega
    · rename_i hp
      by_cases hl : l = i
      · rw [hl]
        exact eq_false_of_ne_true hp
      · exact findFrom_first h (by omega) h2

theorem findFrom_isSome {P : Nat → Bool} {n i j : Nat} (h1 : i ≤ j) (h2 : j < i + n) (h3 : P j = true) : ∃ k, findFrom P n i = some k := by
  cases h : findFrom P n i with
  | some k => exact ⟨k, rfl⟩
  | none =>
    rw [findFrom_none h h1 h2] at h3
    cases h3

end Onix.Lib
