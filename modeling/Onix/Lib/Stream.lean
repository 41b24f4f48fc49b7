/-
A stream cut into pieces, each with the number of its first element modulo `2 ^ w`. Pieces are
contiguous when each begins where the one before it stops; what is acknowledged up to a number inside
the stream leaves the pieces that stop after it, the first of them whole.
-/
import Mathlib.Data.List.Flatten
import Mathlib.Tactic.Common

namespace Onix.Lib

open List

variable {w : Nat} {α : Type*}

/-- A piece of a stream: the number of its first element, and its elements. -/
structure Piece (w : Nat) (α : Type*) where
  start : BitVec w
  data : List α
  deriving DecidableEq

def Piece.stop (g : Piece w α) : BitVec w := g.start + BitVec.ofNat w g.data.length

def content (l : List (Piece w α)) : List α := l.flatMap Piece.data

@[simp] theorem content_nil : content ([] : List (Piece w α)) = [] := rfl

@[simp] theorem content_cons (g : Piece w α) (l : List (Piece w α)) : content (g :: l) = g.data ++ content l := rfl

@[simp] theorem content_append (l m : List (Piece w α)) : content (l ++ m) = content l ++ content m := flatMap_append

def Contig : BitVec w → List (Piece w α) → BitVec w → Prop
  | a, [], b => a = b
  | a, g :: l, b => g.start = a ∧ Contig g.stop l b

instance [DecidableEq α] : ∀ (a : BitVec w) (l : List (Piece w α)) (b : BitVec w), Decidable (Contig a l b)
  | a, [], b => inferInstanceAs (Decidable (a = b))
  | a, g :: l, b =>
    have := instDecidableContigOfDecidableEq g.stop l b
    inferInstanceAs (Decidable (g.start = a ∧ Contig g.stop l b))

theorem Contig.append {a b c : BitVec w} : ∀ {l m : List (Piece w α)}, Contig a l b → Contig b m c → Contig a (l ++ m) c
  | [], _, h1, h2 => by
    obtain rfl : a = b := h1
    exact h2
  | _ :: _, _, h1, h2 => ⟨h1.1, Contig.append h1.2 h2⟩

theorem ofNat_add_ofNat (a : BitVec w) (m n : Nat) : a + BitVec.ofNat w m + BitVec.ofNat w n = a + BitVec.ofNat w (m + n) := by
  rw [BitVec.add_assoc, ← BitVec.ofNat_add]

theorem Contig.stop {a b : BitVec w} : ∀ {l : List (Piece w α)}, Contig a l b → b = a + BitVec.ofNat w (content l).length
  | [], h => by simpa using (show a = b from h).symm
  | g :: l, h => by
    obtain ⟨rfl, h⟩ := h
    rw [h.stop, Piece.stop, ofNat_add_ofNat, content_cons, length_append]

theorem Contig.stop_mem {a b : BitVec w} {g : Piece w α} : ∀ {l : List (Piece w α)}, Contig a l b → g ∈ l →
    ∃ n ≤ (content l).length, g.stop = a + BitVec.ofNat w n
  | [], _, hg => by cases hg
  | h :: l, hc, hg => by
    obtain ⟨rfl, hc⟩ := hc
    rcases mem_cons.1 hg with rfl | hg
    · exact ⟨g.data.length, by simp, rfl⟩
    · obtain ⟨n, hn, e⟩ := hc.stop_mem hg
      refine ⟨h.data.length + n, ?_, ?_⟩
      · rw [content_cons, length_append]
        omega
      · rw [e, Piece.stop, ofNat_add_ofNat]

def Headed (m : Nat) (l : List (Piece w α)) : Prop := m = 0 ∨ ∃ g t, l = g :: t ∧ m < g.data.length

theorem Headed.le {m : Nat} {l : List (Piece w α)} (h : Headed m l) : m ≤ (content l).length := by
  rcases h with rfl | ⟨g, t, rfl, h⟩
  · exact Nat.zero_le _
  · rw [content_cons, length_append]
    omega

theorem Headed.append {m : Nat} {l : List (Piece w α)} (h : Headed m l) (t : List (Piece w α)) : Headed m (l ++ t) := by
  rcases h with rfl | ⟨g, u, rfl, h⟩
  · exact .inl rfl
  · exact .inr ⟨g, u ++ t, rfl, h⟩

/-- The pieces that stop after the first `k` elements: they lead on to the same number, begin with a part of the
first `k` in one piece at most, and hold all the others. -/
theorem Contig.filter {b : BitVec w} {keep : BitVec w → Bool} : ∀ {l : List (Piece w α)} {a : BitVec w} {k : Nat},
    Contig a l b → k ≤ (content l).length →
    (∀ n ≤ (content l).length, keep (a + BitVec.ofNat w n) = decide (k < n)) →
    ∃ c m, Contig c (l.filter fun g => keep g.stop) b ∧ c + BitVec.ofNat w m = a + BitVec.ofNat w k ∧
      Headed m (l.filter fun g => keep g.stop) ∧ (content (l.filter fun g => keep g.stop)).drop m = (content l).drop k
  | [], a, k, h, hk, _ => by
    obtain rfl : k = 0 := by simpa using hk
    exact ⟨a, 0, h, rfl, .inl rfl, rfl⟩
  | g :: l, a, k, h, hk, hkeep => by
    obtain ⟨rfl, h⟩ := h
    rw [content_cons, length_append] at hk hkeep
    have hg : keep g.stop = decide (k < g.data.length) := hkeep g.data.length (by omega)
    by_cases hlt : k < g.data.length
    · -- this piece is kept, and so are the others
      have hall : (g :: l).filter (fun g => keep g.stop) = g :: l := by
        refine filter_eq_self.2 fun x hx => ?_
        rcases mem_cons.1 hx with rfl | hx
        · rw [hg]
          exact decide_eq_true hlt
        · obtain ⟨n, hn, e⟩ := h.stop_mem hx
          rw [e, Piece.stop, ofNat_add_ofNat, hkeep _ (by omega)]
          exact decide_eq_true (by omega)
      rw [hall]
      exact ⟨g.start, k, ⟨rfl, h⟩, rfl, .inr ⟨g, l, rfl, hlt⟩, rfl⟩
    · have hdrop : (g :: l).filter (fun g => keep g.stop) = l.filter fun g => keep g.stop := by
        refine filter_cons_of_neg ?_
        rw [hg]
        simpa using hlt
      have hrest : ∀ n ≤ (content l).length, keep (g.stop + BitVec.ofNat w n) = decide (k - g.data.length < n) := by
        intro n hn
        rw [Piece.stop, ofNat_add_ofNat, hkeep _ (by omega)]
        exact decide_eq_decide.2 (by omega)
      obtain ⟨c, m, h1, h2, h3, h4⟩ := Contig.filter h (by omega) hrest
      rw [hdrop]
      refine ⟨c, m, h1, ?_, h3, ?_⟩
      · rw [h2, Piece.stop, ofNat_add_ofNat]
        congr 2
        omega
      · rw [h4, content_cons, drop_append, drop_eq_nil_of_le (Nat.not_lt.1 hlt), nil_append]

end Onix.Lib
