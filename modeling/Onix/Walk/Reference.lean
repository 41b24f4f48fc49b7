/-
Paths component by component: a reference for `named` and `namei`. A forest of MINIX filesystems is walked by the tree of its directories
and by its mounts, the components of a path are read one after the other, and `..` at the root of the task stays there.
-/
import Onix.Walk.Confine

namespace Onix.Walk

open Relation

/-! ## Components -/

def body (pathname : List Char) : List Char :=
  match pathname with
  | [] => []
  | c :: name => if isSeparator c then name else c :: name

def components (name : List Char) : List (List Char) := if name = [] then [] else name.splitOnP isSeparator

def Proper (pathname : List Char) : Prop := ∀ c ∈ components (body pathname), c ≠ []

instance (pathname : List Char) : Decidable (Proper pathname) := inferInstanceAs (Decidable (∀ c ∈ _, c ≠ []))

/-! ## Forests -/

/-- MINIX filesystems, mounted on one another; the names in their directories have 1 to 13 characters and no separators. -/
structure Forest (t : Tree) extends Hierarchy t where
  minix : ∀ d, t.fs d = .minix
  names : ∀ x, t.isDir x = true → ∀ e ∈ (t.entries x).drop 2, e.name.length ≤ 13 ∧ ∀ c ∈ e.name, isSeparator c = false

variable {t : Tree} (H : Hierarchy t)

/-- The directory a directory is in: that of the mount point for the root of a filesystem that is mounted, and the root of the system is
in itself. -/
def Hierarchy.parent (x : Node) : Node := if x = t.iroot x.dev then H.above (t.imount x.dev) else H.above x

/-! ## The walk -/

/-- Where a component leads from a directory: to the root of what is mounted on the directory itself, on its parent, or on the entry of
that name. -/
def Hierarchy.component (root x : Node) (c : List Char) : Option Node :=
  if c = ['.'] then some (t.fit x)
  else if c = ['.', '.'] then some (t.fit (if x = root then x else H.parent x))
  else (((t.entries x).drop 2).find? fun e => e.name = c ∧ e.nr ≠ 0).map fun e => t.fit ⟨x.dev, e.nr⟩

def Hierarchy.inner (root : Node) : Node → List (List Char) → Option Node
  | x, [] => some x
  | x, c :: cs =>
    match H.component root x c with
    | none => none
    | some y => if t.isDir y && t.exec y then inner root y cs else none

/-- The parent of what a path names, and the last component; none for `/` itself. -/
def Hierarchy.parentOf (s : Task) (pathname : List Char) : Option (Node × List Char) :=
  match s.origin pathname with
  | none => none
  | some (x, name) => (H.inner s.iroot x (components name).dropLast).map fun y => (y, (components name).getLastD [])

def Hierarchy.resolve (s : Task) (pathname : List Char) : Option Node :=
  match H.parentOf s pathname with
  | none => none
  | some (y, c) => if c = [] then some y else H.component s.iroot y c

/-- The walk is not at the root of the task where a component is `..`. -/
def Hierarchy.NoneAtRoot (root : Node) : Node → List (List Char) → Prop
  | _, [] => True
  | x, c :: cs => (c = ['.', '.'] → x ≠ root) ∧ ∀ y, H.component root x c = some y → t.isDir y = true → t.exec y = true →
      NoneAtRoot root y cs

def Hierarchy.Inside (s : Task) (pathname : List Char) : Prop :=
  ∀ x name, s.origin pathname = some (x, name) → H.NoneAtRoot s.iroot x (components name)

end Onix.Walk
