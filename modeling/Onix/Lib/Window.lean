/-
Memory of which a program may use the first `len` cells: a read or a write at another place stops it there. A program that does not stop
has stayed inside.
-/
import Mathlib.Tactic.Common

namespace Onix.Lib

universe u v

structure Window (β : Type u) where
  mem : Nat → β
  len : Nat

namespace Window

variable {β : Type u} {α : Type u} {w : Window β} {i j p q : Nat} {b : β}

def read (w : Window β) (i : Nat) : Except Nat β := if i < w.len then .ok (w.mem i) else .error i

def write (w : Window β) (i : Nat) (b : β) : Except Nat (Window β) :=
  if i < w.len then .ok { w with mem := Function.update w.mem i b } else .error i

def find (w : Window β) (P : β → Bool) (p : Nat) : Except Nat Nat :=
  if p < w.len then if P (w.mem p) then .ok p else w.find P (p + 1) else .error p
  termination_by w.len - p

@[simp] theorem read_ok : w.read i = .ok b ↔ i < w.len ∧ w.mem i = b := by
  unfold read
  split
  · rename_i h
    simp [h]
  · rename_i h
    exact iff_of_false nofun fun e => h e.1

@[simp] theorem bind_read {f : β → Except Nat α} {r : α} : w.read i >>= f = .ok r ↔ i < w.len ∧ f (w.mem i) = .ok r := by
  unfold read
  split
  · rename_i h
    exact (and_iff_right h).symm
  · rename_i h
    exact iff_of_false nofun fun e => h e.1

@[simp] theorem bind_write {f : Window β → Except Nat α} {r : α} :
    w.write i b >>= f = .ok r ↔ i < w.len ∧ f { w with mem := Function.update w.mem i b } = .ok r := by
  unfold write
  split
  · rename_i h
    exact (and_iff_right h).symm
  · rename_i h
    exact iff_of_false nofun fun e => h e.1

theorem find_ok {P : β → Bool} : w.find P p = .ok q ↔ p ≤ q ∧ q < w.len ∧ P (w.mem q) = true ∧ ∀ j, p ≤ j → j < q → P (w.mem j) = false := by
  induction p using Window.find.induct w P with
  | case1 p hp hP =>
    unfold find
    rw [if_pos hp, if_pos hP]
    constructor
    · intro h
      cases h
      exact ⟨Nat.le_refl _, hp, hP, fun j h1 h2 => absurd h2 (Nat.not_lt.2 h1)⟩
    · rintro ⟨h1, -, -, h4⟩
      rcases Nat.eq_or_lt_of_le h1 with rfl | h1
      · rfl
      · cases hP.symm.trans (h4 p (Nat.le_refl _) h1)
  | case2 p hp hP ih =>
    unfold find
    rw [if_pos hp, if_neg hP, ih]
    constructor
    · rintro ⟨h1, h2, h3, h4⟩
      refine ⟨Nat.le_of_succ_le h1, h2, h3, fun j hj1 hj2 => ?_⟩
      rcases Nat.eq_or_lt_of_le hj1 with rfl | hj1
      · exact Bool.eq_false_iff.2 hP
      · exact h4 j hj1 hj2
    · rintro ⟨h1, h2, h3, h4⟩
      rcases Nat.eq_or_lt_of_le h1 with rfl | h1
      · exact absurd h3 hP
      · exact ⟨h1, h2, h3, fun j hj1 hj2 => h4 j (Nat.le_of_succ_le hj1) hj2⟩
  | case3 p hp =>
    unfold find
    rw [if_neg hp]
    exact iff_of_false nofun fun h => hp (Nat.lt_of_le_of_lt h.1 h.2.1)

theorem exists_find {P : β → Bool} : (∃ q, w.find P p = .ok q) ↔ ∃ q, p ≤ q ∧ q < w.len ∧ P (w.mem q) = true := by
  constructor
  · rintro ⟨q, h⟩
    obtain ⟨h1, h2, h3, -⟩ := find_ok.1 h
    exact ⟨q, h1, h2, h3⟩
  · induction p using Window.find.induct w P with
    | case1 p hp hP =>
      intro _
      refine ⟨p, ?_⟩
      unfold find
      rw [if_pos hp, if_pos hP]
    | case2 p hp hP ih =>
      rintro ⟨q, h1, h2, h3⟩
      have hne : p ≠ q := fun e => hP (e ▸ h3)
      obtain ⟨r, hr⟩ := ih ⟨q, by omega, h2, h3⟩
      refine ⟨r, ?_⟩
      unfold find
      rw [if_pos hp, if_neg hP, hr]
    | case3 p hp =>
      omega

end Window

end Onix.Lib
