/-
Lists laid out in a memory, one element at each address: what a copy leaves where it goes and elsewhere, and how a list that lies
somewhere falls into parts.
-/
import Mathlib.Tactic.Common

namespace Onix.Lib

open List

universe u

variable {α : Type u} {m : Nat → α} {l l' : List α} {a b n : Nat}

def Lies (l : List α) (a : Nat) (m : Nat → α) : Prop := ∀ k (h : k < l.length), m (a + k) = l[k]

def spread (l : List α) (a : Nat) (m : Nat → α) (x : Nat) : α := if a ≤ x then l.getD (x - a) (m x) else m x

def gather (m : Nat → α) (a n : Nat) : List α := (List.range n).map fun k => m (a + k)

theorem Lies.nil : Lies [] a m := fun _ h => absurd h (Nat.not_lt_zero _)

theorem lies_append : Lies (l ++ l') a m ↔ Lies l a m ∧ Lies l' (a + l.length) m := by
  constructor
  · intro h
    refine ⟨fun k hk => ?_, fun k hk => ?_⟩
    · rw [h k (by rw [length_append]; omega), getElem_append_left hk]
    · rw [Nat.add_assoc, h (l.length + k) (by rw [length_append]; omega), getElem_append_right (Nat.le_add_right _ _)]
      simp
  · rintro ⟨h1, h2⟩ k hk
    rw [length_append] at hk
    by_cases hlt : k < l.length
    · rw [h1 k hlt, getElem_append_left hlt]
    · obtain ⟨d, rfl⟩ : ∃ d, k = l.length + d := ⟨k - l.length, by omega⟩
      rw [← Nat.add_assoc, h2 d (by omega), getElem_append_right (Nat.le_add_right _ _)]
      simp

theorem Lies.congr (h : Lies l a m) {m' : Nat → α} (hm : ∀ k < l.length, m' (a + k) = m (a + k)) : Lies l a m' :=
  fun k hk => (hm k hk).trans (h k hk)

theorem spread_lies (l : List α) (a : Nat) (m : Nat → α) : Lies l a (spread l a m) := by
  intro k hk
  unfold spread
  rw [if_pos (Nat.le_add_right a k), Nat.add_sub_cancel_left, getD_eq_getElem?_getD, getElem?_eq_getElem hk]
  rfl

theorem spread_apart {x : Nat} (h : x < a ∨ a + l.length ≤ x) : spread l a m x = m x := by
  unfold spread
  split
  · have hlen : l.length ≤ x - a := by omega
    rw [getD_eq_getElem?_getD, getElem?_eq_none hlen]
    rfl
  · rfl

theorem spread_nil (a : Nat) (m : Nat → α) : spread [] a m = m := by
  funext x
  exact spread_apart (by rw [length_nil]; omega)

theorem spread_cons (b : α) (l : List α) (a : Nat) (m : Nat → α) :
    spread (b :: l) a m = spread l (a + 1) fun x => if x = a then b else m x := by
  funext x
  by_cases h : x = a
  · subst h
    rw [spread_apart (.inl (Nat.lt_succ_self x)), if_pos rfl]
    exact spread_lies (b :: l) x m 0 (Nat.succ_pos _)
  · unfold spread
    dsimp only
    rw [if_neg h]
    by_cases hle : a ≤ x
    · obtain ⟨d, rfl⟩ : ∃ d, x = a + 1 + d := ⟨x - (a + 1), by omega⟩
      have h1 : a + 1 + d - a = d + 1 := by omega
      have h3 : a + 1 ≤ a + 1 + d := by omega
      rw [if_pos hle, if_pos h3, h1, Nat.add_sub_cancel_left, getD_cons_succ]
    · rw [if_neg hle, if_neg (by omega)]

theorem Lies.spread (h : Lies l b m) (hab : b + l.length ≤ a ∨ a + l'.length ≤ b) : Lies l b (spread l' a m) :=
  h.congr fun k hk => spread_apart (by omega)

theorem gather_eq (h : Lies l a m) : gather m a l.length = l := by
  apply ext_getElem
  · simp [gather]
  · intro k h1 h2
    rw [← h k h2]
    simp [gather]

end Onix.Lib
