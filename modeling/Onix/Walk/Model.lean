/-
Paths: `fs/namei.c`, the search of a directory of a MINIX and of an ISO 9660 filesystem, and `sys_chdir` and `sys_chroot`.

A string is the list of its characters up to the terminating zero, and a pointer into a path the part of the path from there on. An inode
is known by its device and number. What directories hold, which inodes the task may search, and the mounts are given; devices have
positive numbers, which the assertions ask for. Counts, and the text of the working directory, are left out.
-/
import Onix.Lib.Machine

namespace Onix.Walk

open Onix.Lib

/-! ## Names -/

def isSeparator (c : Char) : Bool := c = '/' || c = '\\'

-- of the characters of the name alone, not of all there are
instance (name : List Char) : Decidable (∀ c ∈ name, isSeparator c = false) := List.decidableBAll _ name

/-- `match_name`: what follows the name and its separator, if the name is the entry's. A count that is used up becomes -1. -/
def matchName : List Char → List Char → Nat → Option (List Char)
  | [], [], _ => some []
  | a :: l, [], _ => if isSeparator a then some l else none
  | [], _ :: _, count => if count = 0 then some [] else none
  | a :: l, b :: r, count =>
    if a = b then
      match count with
      | 0 => none
      | count + 1 => matchName l r count
    else if count ≠ 0 then none
    else if isSeparator a then some l else none

def strrsep : List Char → Option (List Char)
  | [] => none
  | c :: l =>
    match strrsep l with
    | some last => some last
    | none => if isSeparator c then some (c :: l) else none

/-- `namelen`: the length of the first name, and what follows its separator. -/
def namelen : List Char → Nat × List Char
  | [] => (0, [])
  | c :: l => if isSeparator c then (0, l) else ((namelen l).1 + 1, (namelen l).2)

def isoNamelen (name : List Char) : Nat :=
  let len := if 1 < name.length ∧ name[name.length - 2]? = some ';' then name.length - 2 else name.length
  if 0 < len ∧ name[len - 1]? = some '.' then len - 1 else len

def isoMatchName (name1 : List Char) (len1 : Nat) (name2 : List Char) : Bool :=
  if name2 = ['\x00'] ∧ (matchName name1 ['.'] 2).isSome then true
  else if name2 = ['\x01'] ∧ (matchName name1 ['.', '.'] 3).isSome then true
  else if len1 ≠ isoNamelen name2 then false
  else (name1.take len1).map Char.toUpper == name2.take len1

/-! ## Directories -/

inductive FsType
  | minix
  | iso9660
  deriving DecidableEq

structure Node where
  dev : Nat
  nr : Nat
  deriving DecidableEq

/-- A directory entry: its name, and the number of its inode (the first block on ISO 9660). -/
structure Entry where
  name : List Char
  nr : Nat
  deriving DecidableEq

/-- All filesystems with their mounts. `exec`: what the task may search; `iroot` and `imount` are those of the superblock of a device. -/
structure Tree where
  fs : Nat → FsType
  entries : Node → List Entry
  isDir : Node → Bool
  exec : Node → Bool
  mount : Node → Option Nat
  iroot : Nat → Node
  imount : Nat → Node

def MINIX1_NAME_LEN : Nat := 14

/-- Whether an entry is the one a name asks for, and what follows the name: `find_entry`, `iso_find_entry`. -/
def Entry.matched (e : Entry) (name : List Char) : FsType → Option (List Char)
  | .minix => (matchName name e.name MINIX1_NAME_LEN).filter fun _ => e.nr ≠ 0
  | .iso9660 => if isoMatchName name (namelen name).1 e.name then some (namelen name).2 else none

def Tree.find (t : Tree) (dir : Node) (name : List Char) : Option (Entry × List Char) :=
  (t.entries dir).findSome? fun e => (e.matched name (t.fs dir.dev)).map fun next => (e, next)

def Tree.fit (t : Tree) (inode : Node) : Node :=
  match t.mount inode with
  | none => inode
  | some dev => t.iroot dev

def Tree.opNamei (t : Tree) (dir : Node) (name : List Char) : Option (Node × List Char) :=
  (t.find dir name).map fun x => (t.fit ⟨dir.dev, x.1.nr⟩, x.2)

/-! ## `named` and `namei` -/

def Tree.leaves (t : Tree) (dir : Node) (name : List Char) : Bool := (matchName name ['.', '.'] 3).isSome && dir = t.iroot dir.dev

/-- The directory that is searched: the one the filesystem is mounted on when `..` is asked for at its root. -/
def Tree.turn (t : Tree) (dir : Node) (name : List Char) : Node := if t.leaves dir name then t.imount dir.dev else dir

abbrev Reached (α : Type) : Type := List Node × Option α

def Tree.walk (t : Tree) (right : List Char) : Nat → Node → List Char → Reached (Node × List Char)
  | 0, _, _ => ([], none)
  | n + 1, dir, name =>
    let dir := t.turn dir name
    match t.opNamei dir name with
    | none => ([dir], none)
    | some (inode, next) =>
      if !t.isDir inode || !t.exec inode then ([dir, inode], none)
      else if next.length = right.length then ([dir, inode], some (inode, next))
      else
        let r := t.walk right n inode next
        (dir :: inode :: r.1, r.2)

structure Task where
  iroot : Node
  ipwd : Node
  deriving DecidableEq

def Task.origin (s : Task) (pathname : List Char) : Option (Node × List Char) :=
  match pathname with
  | [] => none
  | c :: name => if isSeparator c then some (s.iroot, name) else some (s.ipwd, c :: name)

def Tree.named (t : Tree) (s : Task) (pathname : List Char) : Reached (Node × List Char) :=
  match s.origin pathname with
  | none => ([], none)
  | some (dir, name) =>
    match strrsep name with
    | none => ([dir], some (dir, name))
    | some last =>
      let r := t.walk last.tail (name.length + 1) dir name
      (dir :: r.1, r.2)

/-- The last name of a path, in the directory that `named` returns. -/
def Tree.last (t : Tree) : Reached (Node × List Char) → Reached Node
  | (reached, none) => (reached, none)
  | (reached, some (dir, name)) =>
    if name = [] then (reached, some dir)
    else
      let left := t.leaves dir name
      let dir := t.turn dir name
      match t.opNamei dir name with
      -- the inode of the mount is returned if the search fails after it was taken
      | none => (reached ++ [dir], if left then some dir else none)
      | some (inode, _) => (reached ++ [dir, inode], some inode)

def Tree.namei (t : Tree) (s : Task) (pathname : List Char) : Reached Node := t.last (t.named s pathname)

/-! ## `sys_chdir` and `sys_chroot` -/

def Tree.sysChdir (t : Tree) (s : Task) (pathname : List Char) : Task :=
  match (t.namei s pathname).2 with
  | none => s
  | some inode => if inode = s.ipwd then s else if !t.isDir inode then s else { s with ipwd := inode }

def Tree.sysChroot (t : Tree) (s : Task) (pathname : List Char) : Task :=
  match (t.namei s pathname).2 with
  | none => s
  | some inode => if !t.isDir inode || inode = s.iroot then s else { s with iroot := inode }

inductive Act
  | chdir (pathname : List Char)
  | chroot (pathname : List Char)

def Act.pathname : Act → List Char
  | .chdir pathname | .chroot pathname => pathname

def Tree.call (t : Tree) (s : Task) : Act → Task
  | .chdir pathname => t.sysChdir s pathname
  | .chroot pathname => t.sysChroot s pathname

end Onix.Walk
