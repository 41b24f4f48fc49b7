/-
`list_insert_sort` of `lib/list.c`: insertion into a list by a key that it reads as a C `int`. A
list filled by insertion alone is ordered by that reading of its keys; it is ordered by another
relation on the keys exactly when the relation agrees with the reading on the keys that meet.
-/
import Mathlib.Data.List.Basic
import Mathlib.Data.List.Pairwise

namespace Onix

open List

variable {α : Type} {key : α → BitVec 32} {R : α → α → Prop}

/-- `list_insert_sort`: `x` goes before the first element whose key is greater as an `int`. -/
def listInsertSort (key : α → BitVec 32) (x : α) : List α → List α
  | [] => [x]
  | y :: l => if (key x).toInt < (key y).toInt then x :: y :: l else y :: listInsertSort key x l

def IntSorted (key : α → BitVec 32) (l : List α) : Prop := l.Pairwise fun x y => (key x).toInt ≤ (key y).toInt

/-- The place of `x` among the elements of `l` by the `int` reading of the key is its place by `R`. -/
def Agree (key : α → BitVec 32) (R : α → α → Prop) (x : α) (l : List α) : Prop :=
  ∀ y ∈ l, ((key y).toInt ≤ (key x).toInt → R y x) ∧ ((key x).toInt < (key y).toInt → R x y)

theorem listInsertSort_perm (x : α) : ∀ l : List α, (listInsertSort key x l).Perm (x :: l)
  | [] => .refl _
  | y :: l => by
    unfold listInsertSort
    split
    · exact .refl _
    · exact ((listInsertSort_perm x l).cons y).trans (.swap x y l)

theorem mem_listInsertSort {x z : α} {l : List α} : z ∈ listInsertSort key x l ↔ z = x ∨ z ∈ l := by
  rw [(listInsertSort_perm x l).mem_iff, mem_cons]

theorem listInsertSort_intSorted {x : α} : ∀ {l : List α}, IntSorted key l → IntSorted key (listInsertSort key x l)
  | [], _ => pairwise_singleton _ _
  | y :: l, h => by
    obtain ⟨hy, hl⟩ := pairwise_cons.1 h
    unfold listInsertSort
    split
    · rename_i hxy
      refine pairwise_cons.2 ⟨fun z hz => ?_, h⟩
      rcases mem_cons.1 hz with rfl | hz
      · omega
      · have := hy z hz; omega
    · rename_i hxy
      refine pairwise_cons.2 ⟨fun z hz => ?_, listInsertSort_intSorted hl⟩
      rcases mem_listInsertSort.1 hz with rfl | hz
      · omega
      · exact hy z hz

theorem listInsertSort_pairwise {x : α} : ∀ {l : List α}, IntSorted key l → l.Pairwise R →
    ((listInsertSort key x l).Pairwise R ↔ Agree key R x l)
  | [], _, _ => by simp [listInsertSort, Agree]
  | y :: l, h, hR => by
    obtain ⟨hy, hl⟩ := pairwise_cons.1 h
    obtain ⟨hRy, hRl⟩ := pairwise_cons.1 hR
    unfold listInsertSort
    split
    · rename_i hxy
      -- every element of the list has a greater key
      have hall : ∀ z ∈ y :: l, (key x).toInt < (key z).toInt := by
        intro z hz
        rcases mem_cons.1 hz with rfl | hz
        · exact hxy
        · have := hy z hz; omega
      rw [pairwise_cons]
      constructor
      · rintro ⟨hx, -⟩ z hz
        exact ⟨fun hle => absurd (hall z hz) (by omega), fun _ => hx z hz⟩
      · intro ha
        exact ⟨fun z hz => (ha z hz).2 (hall z hz), hR⟩
    · rename_i hxy
      rw [pairwise_cons, listInsertSort_pairwise hl hRl]
      constructor
      · rintro ⟨h1, h2⟩ z hz
        rcases mem_cons.1 hz with rfl | hz
        · exact ⟨fun _ => h1 x (mem_listInsertSort.2 (.inl rfl)), fun hlt => absurd hlt hxy⟩
        · exact h2 z hz
      · intro ha
        refine ⟨fun z hz => ?_, fun z hz => ha z (.tail _ hz)⟩
        rcases mem_listInsertSort.1 hz with rfl | hz
        · exact (ha y (.head _)).1 (by omega)
        · exact hRy z hz

theorem listInsertSort_split (key : α → BitVec 32) (x : α) : ∀ l : List α, ∃ xs ys, l = xs ++ ys ∧ listInsertSort key x l = xs ++ x :: ys ∧
    (∀ y ∈ xs, (key y).toInt ≤ (key x).toInt) ∧ ∀ y ∈ ys.head?, (key x).toInt < (key y).toInt
  | [] => ⟨[], [], rfl, rfl, by simp, by simp⟩
  | y :: l => by
    unfold listInsertSort
    split
    · rename_i h
      exact ⟨[], y :: l, rfl, rfl, by simp, by simpa using h⟩
    · rename_i h
      obtain ⟨xs, ys, h1, h2, h3, h4⟩ := listInsertSort_split key x l
      refine ⟨y :: xs, ys, congrArg (y :: ·) h1, congrArg (y :: ·) h2, fun z hz => ?_, h4⟩
      rcases mem_cons.1 hz with rfl | hz
      · exact Int.not_lt.1 h
      · exact h3 z hz

theorem listInsertSort_last {x : α} : ∀ {l : List α}, (∀ y ∈ l, (key y).toInt ≤ (key x).toInt) →
    listInsertSort key x l = l ++ [x]
  | [], _ => rfl
  | y :: l, h => by
    unfold listInsertSort
    rw [if_neg (by have := h y (.head _); omega),
      listInsertSort_last fun z hz => h z (.tail _ hz), cons_append]

end Onix
