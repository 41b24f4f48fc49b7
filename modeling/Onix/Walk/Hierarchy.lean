/-
Directory trees that are in order: every directory starts with the entries for itself and for its parent, and every other directory it
names has it as parent. What lies below a directory, and what its parent is, across mounts.
-/
import Onix.Walk.Model

namespace Onix.Walk

open Relation

/-! ## Names of entries -/

def selfName : FsType → List Char
  | .minix => ['.']
  | .iso9660 => ['\x00']

def parentName : FsType → List Char
  | .minix => ['.', '.']
  | .iso9660 => ['\x01']

def Named : FsType → List Char → Prop
  | .minix, name => name ≠ []
  | .iso9660, name => isoNamelen name ≠ 0

/-- Filesystems, mounted on one another, whose directories form a tree. -/
structure Hierarchy (t : Tree) where
  top : Node
  /-- the number of the parent entry -/
  up : Node → Nat
  depth : Node → Nat
  dots : ∀ x, t.isDir x = true → ∃ rest, t.entries x = ⟨selfName (t.fs x.dev), x.nr⟩ :: ⟨parentName (t.fs x.dev), up x⟩ :: rest ∧
    ∀ e ∈ rest, Named (t.fs x.dev) e.name
  numbers : ∀ x, t.isDir x = true → x.nr ≠ 0 ∧ up x ≠ 0
  child : ∀ x, t.isDir x = true → ∀ e ∈ (t.entries x).drop 2, t.isDir ⟨x.dev, e.nr⟩ = true →
    up ⟨x.dev, e.nr⟩ = x.nr ∧ ⟨x.dev, e.nr⟩ ≠ t.iroot x.dev ∧ depth ⟨x.dev, e.nr⟩ = depth x + 1
  root : ∀ x, t.isDir x = true → x = t.iroot x.dev → up x = x.nr
  topDir : t.isDir top = true
  topRoot : t.iroot top.dev = top
  topMount : t.imount top.dev = top
  mounted : ∀ x d, t.mount x = some d → t.isDir x = true ∧ (t.iroot d).dev = d ∧ t.isDir (t.iroot d) = true ∧
    (x = top ∧ d = top.dev ∨ x ≠ t.iroot x.dev ∧ t.imount d = x ∧ depth (t.iroot d) = depth x + 1)

variable {t : Tree} {x y z R dir inode : Node} {name next : List Char} {e : Entry}

/-! ## Below -/

def Tree.Edge (t : Tree) (x y : Node) : Prop :=
  (t.isDir x = true ∧ ∃ e ∈ (t.entries x).drop 2, y = ⟨x.dev, e.nr⟩) ∨ ∃ d, t.mount x = some d ∧ x ≠ y ∧ y = t.iroot d

def Tree.Below (t : Tree) : Node → Node → Prop := ReflTransGen t.Edge

def Hierarchy.above (H : Hierarchy t) (x : Node) : Node := if x = t.iroot x.dev then t.imount x.dev else ⟨x.dev, H.up x⟩

theorem Tree.Below.fit (h : t.Below R x) : t.Below R (t.fit x) := by
  unfold Tree.fit
  split
  · exact h
  · rename_i d hd
    by_cases hx : x = t.iroot d
    · rw [← hx]
      exact h
    · exact h.tail (.inr ⟨d, hd, hx, rfl⟩)

variable (H : Hierarchy t)
include H

namespace Hierarchy

theorem edge_isDir (h : t.Edge x y) : t.isDir x = true := by
  rcases h with ⟨h, -⟩ | ⟨d, hd, -⟩
  · exact h
  · exact (H.mounted x d hd).1

theorem edge_above (h : t.Edge x y) (hy : t.isDir y = true) : H.above y = x ∧ H.depth y = H.depth x + 1 := by
  rcases h with ⟨hx, e, he, rfl⟩ | ⟨d, hd, hne, rfl⟩
  · obtain ⟨h1, h2, h3⟩ := H.child x hx e he hy
    refine ⟨?_, h3⟩
    unfold above
    rw [if_neg h2, h1]
  · obtain ⟨-, h2, -, h4⟩ := H.mounted x d hd
    rcases h4 with ⟨rfl, rfl⟩ | ⟨-, h5, h6⟩
    · exact absurd H.topRoot.symm hne
    · refine ⟨?_, h6⟩
      unfold above
      rw [if_pos (by rw [h2]), h2, h5]

theorem above_top : H.above H.top = H.top := by
  unfold above
  rw [if_pos H.topRoot.symm, H.topMount]

theorem climb (h : t.Below R x) (hx : t.isDir x = true) (hne : x ≠ R) : t.Below R (H.above x) ∧ t.isDir (H.above x) = true := by
  rcases ReflTransGen.cases_tail h with rfl | ⟨y, hy, he⟩
  · exact absurd rfl hne
  · rw [(H.edge_above he hx).1]
    exact ⟨hy, H.edge_isDir he⟩

theorem climb_top (h : t.Below H.top x) (hx : t.isDir x = true) : t.Below H.top (H.above x) ∧ t.isDir (H.above x) = true := by
  by_cases hne : x = H.top
  · rw [hne, H.above_top]
    exact ⟨.refl, H.topDir⟩
  · exact H.climb h hx hne

theorem below_depth (h : t.Below R x) (hx : t.isDir x = true) : x = R ∨ H.depth R < H.depth x := by
  induction h with
  | refl => exact .inl rfl
  | tail hb he ih =>
    have hd := (H.edge_above he hx).2
    rcases ih (H.edge_isDir he) with rfl | hlt
    · exact .inr (by omega)
    · exact .inr (by omega)

theorem above_depth (h : t.Below H.top R) (hR : t.isDir R = true) (hne : R ≠ H.top) :
    t.Edge (H.above R) R ∧ H.depth R = H.depth (H.above R) + 1 := by
  rcases ReflTransGen.cases_tail h with rfl | ⟨y, -, he⟩
  · exact absurd rfl hne
  · obtain ⟨h1, h2⟩ := H.edge_above he hR
    rw [h1]
    exact ⟨he, h2⟩

theorem escape (h : t.Below H.top R) (hR : t.isDir R = true) (hne : R ≠ H.top) : ¬ t.Below R (H.above R) := by
  intro hb
  obtain ⟨he, hd⟩ := H.above_depth h hR hne
  rcases H.below_depth hb (H.edge_isDir he) with heq | hlt
  · rw [heq] at hd
    omega
  · omega

theorem escape_fit (h : t.Below H.top R) (hR : t.isDir R = true) (hne : R ≠ H.top) (hroot : R ≠ t.iroot R.dev) :
    ¬ t.Below R (t.fit (H.above R)) := by
  obtain ⟨he, hd⟩ := H.above_depth h hR hne
  unfold Tree.fit
  split
  · exact H.escape h hR hne
  · rename_i d hm
    obtain ⟨-, h2, h3, h4⟩ := H.mounted _ d hm
    intro hb
    rcases H.below_depth hb h3 with heq | hlt
    · apply hroot
      rw [← heq, h2]
    · rcases h4 with ⟨h5, h6⟩ | ⟨-, -, h6⟩
      · rw [h6, H.topRoot, ← h5] at hlt
        omega
      · omega

end Hierarchy

end Onix.Walk
