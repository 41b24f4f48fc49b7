/-
Byte-addressed memory of 32-bit addresses with little-endian words: a word is read back as it was written, and a write leaves the
words that lie below or above it as they are. Addresses need not be aligned.
-/
import Mathlib.Data.BitVec

namespace Onix.Lib

def ByteMem : Type := BitVec 32 → BitVec 8

namespace ByteMem

variable {m m' : ByteMem} {a b : BitVec 32} {v : BitVec 32}

def load (m : ByteMem) (a : BitVec 32) : BitVec 32 := m (a + 3) ++ (m (a + 2) ++ (m (a + 1) ++ m a))

def store (m : ByteMem) (a v : BitVec 32) : ByteMem := fun b =>
  if b = a then v.extractLsb' 0 8
  else if b = a + 1 then v.extractLsb' 8 8
  else if b = a + 2 then v.extractLsb' 16 8
  else if b = a + 3 then v.extractLsb' 24 8
  else m b

def storeWords (m : ByteMem) (a : BitVec 32) : List (BitVec 32) → ByteMem
  | [] => m
  | v :: vs => (m.store a v).storeWords (a + 4) vs

theorem bytes_word (v : BitVec 32) :
    v.extractLsb' 24 8 ++ (v.extractLsb' 16 8 ++ (v.extractLsb' 8 8 ++ v.extractLsb' 0 8)) = v := by
  rw [BitVec.extractLsb'_append_extractLsb'_eq_extractLsb' (by rfl), BitVec.extractLsb'_append_extractLsb'_eq_extractLsb' (by rfl),
    BitVec.extractLsb'_append_extractLsb'_eq_extractLsb' (by rfl)]
  exact BitVec.extractLsb'_eq_self

theorem add_ne (a : BitVec 32) {i j : BitVec 32} (h : i ≠ j) : a + i ≠ a + j := by
  intro heq
  exact h (BitVec.add_right_inj a |>.1 heq)

theorem load_store (m : ByteMem) (a v : BitVec 32) : (m.store a v).load a = v := by
  have h1 : a + 1 ≠ a := by simp
  have h2 : a + 2 ≠ a := by simp
  have h3 : a + 3 ≠ a := by simp
  have h21 : a + 2 ≠ a + 1 := add_ne a (by decide)
  have h31 : a + 3 ≠ a + 1 := add_ne a (by decide)
  have h32 : a + 3 ≠ a + 2 := add_ne a (by decide)
  unfold load store
  simp only [h1, h2, h3, h21, h31, h32, if_true, if_false]
  exact bytes_word v

theorem store_byte (h : b.toNat < a.toNat ∨ a.toNat + 4 ≤ b.toNat) (ha : a.toNat + 4 ≤ 2 ^ 32) : m.store a v b = m b := by
  have h0 : b ≠ a := by
    rintro rfl
    omega
  have h1 : b ≠ a + 1 := by
    rintro rfl
    simp at h
    omega
  have h2 : b ≠ a + 2 := by
    rintro rfl
    simp at h
    omega
  have h3 : b ≠ a + 3 := by
    rintro rfl
    simp at h
    omega
  unfold store
  rw [if_neg h0, if_neg h1, if_neg h2, if_neg h3]

theorem load_congr (hb : b.toNat + 4 ≤ 2 ^ 32) (h : ∀ c : BitVec 32, b.toNat ≤ c.toNat → c.toNat < b.toNat + 4 → m' c = m c) :
    m'.load b = m.load b := by
  have hoff : ∀ i : BitVec 32, i.toNat < 4 → m' (b + i) = m (b + i) := by
    intro i hi
    have : (b + i).toNat = b.toNat + i.toNat := by
      exact Nat.mod_eq_of_lt (by omega)
    exact h _ (by omega) (by omega)
  have h0 : m' b = m b := by simpa using hoff 0 (by decide)
  unfold load
  rw [h0, hoff 1 (by decide), hoff 2 (by decide), hoff 3 (by decide)]

theorem load_store_ne (h : b.toNat + 4 ≤ a.toNat ∨ a.toNat + 4 ≤ b.toNat) (ha : a.toNat + 4 ≤ 2 ^ 32) (hb : b.toNat + 4 ≤ 2 ^ 32) :
    (m.store a v).load b = m.load b := by
  apply load_congr hb
  intro c h1 h2
  exact store_byte (by omega) ha

theorem toNat_offset (h : a.toNat + n < 2 ^ 32) : (a + BitVec.ofNat 32 n).toNat = a.toNat + n := by
  rw [BitVec.toNat_add, BitVec.toNat_ofNat, Nat.mod_eq_of_lt (by omega : n < 2 ^ 32), Nat.mod_eq_of_lt h]

theorem load_storeWords_ne {vs : List (BitVec 32)} (h : b.toNat + 4 ≤ a.toNat ∨ a.toNat + 4 * vs.length ≤ b.toNat)
    (ha : a.toNat + 4 * vs.length ≤ 2 ^ 32) (hb : b.toNat + 4 ≤ 2 ^ 32) : (m.storeWords a vs).load b = m.load b := by
  induction vs generalizing m a with
  | nil => rfl
  | cons v vs ih =>
    rw [List.length_cons] at h ha
    unfold storeWords
    rcases Nat.eq_zero_or_pos vs.length with h0 | h0
    · rw [List.length_eq_zero_iff.1 h0]
      exact load_store_ne (by omega) (by omega) hb
    · have ha4 : (a + 4).toNat = a.toNat + 4 := toNat_offset (n := 4) (by omega)
      rw [ih (by omega) (by omega)]
      exact load_store_ne (by omega) (by omega) hb

theorem load_storeWords {vs : List (BitVec 32)} {i : Nat} (hi : i < vs.length) (ha : a.toNat + 4 * vs.length ≤ 2 ^ 32) :
    (m.storeWords a vs).load (a + BitVec.ofNat 32 (4 * i)) = vs[i] := by
  induction vs generalizing m a i with
  | nil => exact absurd hi (Nat.not_lt_zero i)
  | cons v vs ih =>
    rw [List.length_cons] at hi ha
    unfold storeWords
    cases i with
    | zero =>
      rw [Nat.mul_zero, BitVec.add_zero, List.getElem_cons_zero]
      rcases Nat.eq_zero_or_pos vs.length with h0 | h0
      · rw [List.length_eq_zero_iff.1 h0]
        exact load_store m a v
      · have ha4 : (a + 4).toNat = a.toNat + 4 := toNat_offset (n := 4) (by omega)
        rw [load_storeWords_ne (by omega) (by omega) (by omega)]
        exact load_store m a v
    | succ i =>
      have ha4 : (a + 4).toNat = a.toNat + 4 := toNat_offset (n := 4) (by omega)
      have hoff : a + BitVec.ofNat 32 (4 * (i + 1)) = a + 4 + BitVec.ofNat 32 (4 * i) := by
        rw [BitVec.add_assoc, show (4 : BitVec 32) = BitVec.ofNat 32 4 from rfl, ← BitVec.ofNat_add, Nat.mul_add, Nat.add_comm]
      rw [hoff, List.getElem_cons_succ]
      exact ih (by omega) (by omega)

end ByteMem

end Onix.Lib
