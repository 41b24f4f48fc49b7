/-
How many of a finite set of places point to a value: what one changed place does to the number.
-/
import Mathlib.Algebra.BigOperators.Group.Finset.Piecewise

namespace Onix.Lib

open Finset Function

variable {ι α : Type} [DecidableEq α] {S : Finset ι} {g g' : ι → Option α} {i : ι} {a : α} {v : Option α}

def tally (S : Finset ι) (g : ι → Option α) (a : α) : Nat := (S.filter fun i => g i = some a).card

theorem tally_congr (h : ∀ i ∈ S, g' i = g i) : tally S g' a = tally S g a := by
  unfold tally
  congr 1
  refine filter_congr fun i hi => ?_
  rw [h i hi]

theorem tally_update [DecidableEq ι] (hi : i ∈ S) :
    tally S (update g i v) a + (if g i = some a then 1 else 0) = tally S g a + if v = some a then 1 else 0 := by
  unfold tally
  rw [card_filter, card_filter, ← add_sum_erase S _ hi, ← add_sum_erase S (fun i => if g i = some a then 1 else 0) hi,
    update_self]
  have hrest : ∑ j ∈ S.erase i, (if update g i v j = some a then 1 else 0) = ∑ j ∈ S.erase i, if g j = some a then 1 else 0 := by
    refine sum_congr rfl fun j hj => ?_
    rw [update_of_ne (ne_of_mem_erase hj)]
  omega

theorem tally_pos : 0 < tally S g a ↔ ∃ i ∈ S, g i = some a := by
  unfold tally
  rw [card_pos]
  constructor
  · rintro ⟨i, hi⟩
    exact ⟨i, (mem_filter.1 hi).1, (mem_filter.1 hi).2⟩
  · rintro ⟨i, h1, h2⟩
    exact ⟨i, mem_filter.2 ⟨h1, h2⟩⟩

theorem tally_zero (h : tally S g a = 0) (hi : i ∈ S) : g i ≠ some a := by
  intro heq
  exact absurd (tally_pos.2 ⟨i, hi, heq⟩) (Nat.not_lt.2 (Nat.le_of_eq h))

theorem tally_eq_zero (h : ∀ i ∈ S, g i ≠ some a) : tally S g a = 0 := by
  by_contra hne
  obtain ⟨i, hi, heq⟩ := tally_pos.1 (Nat.pos_of_ne_zero hne)
  exact h i hi heq

theorem tally_single [DecidableEq ι] (hi : i ∈ S) : tally S (update (fun _ => none) i v) a = if v = some a then 1 else 0 := by
  have h := tally_update (S := S) (g := fun _ => none) (v := v) (a := a) hi
  have h0 : tally S (fun _ => none) a = 0 := tally_eq_zero fun _ _ => nofun
  rw [h0, if_neg (show ¬ (none : Option α) = some a from nofun), Nat.zero_add, Nat.add_zero] at h
  exact h

end Onix.Lib
