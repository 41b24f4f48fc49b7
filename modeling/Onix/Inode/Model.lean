/-
The table of inodes in memory: `fs/inode.c`, and `iget`, `new_inode` and `minix_close` of `fs/minix/minix.c`. A task waits where it
does block I/O: for the read in `iget`, for the write in `minix_close`, and for the one in `brelse`, when the first failed. A part of a
call between two waits is one step; a buffer that needs no I/O is a wait that is over at once.

The filesystems and their mount points are as they are: no `mount` or `umount` runs. A reference is known by the slot of the table.
-/
import Mathlib.Algebra.BigOperators.Group.Finset.Basic
import Onix.Minix.Bitmaps

namespace Onix.Inode

open Onix.Lib
open Minix (Desc)

/-! ## Data -/

def inodeNr : Nat := 64

def blockInodes : Nat := 32

/-- What `iget` copies of a `minix_inode_t`. -/
structure Attr where
  mode : Nat
  size : Nat

/-- A buffer, by its device and block. -/
structure Buf where
  dev : Nat
  block : Nat
  deriving DecidableEq

/-- `inode_t`; `node`: the superblock on whose list it is; `minix`: the type is `FS_TYPE_MINIX`, else `FS_TYPE_NONE`; `desc`: the
buffer and the index in it; `op`: the pointer to the operations is set. -/
structure Slot where
  node : Option Nat
  minix : Bool
  dev : Nat
  nr : Nat
  count : Nat
  buf : Option Buf
  desc : Option (Buf × Nat)
  super : Option Nat
  op : Bool
  mode : Nat
  size : Nat
  mount : Option Nat

/-- `super_t`, with the slot of its root. -/
structure Super where
  desc : Desc
  iroot : Nat

/-- What `minix_close` returns to: the caller of `iput`, or `fit_inode` for the filesystem of a device, in an `iget` that `new_inode`
called or not. -/
inductive Next
  | put
  | fit (dev : Nat) (new : Option Nat)

/-- Where a task waits, and for which buffer: in `iget`, in `minix_close` for its write, or in `brelse` for another. -/
inductive Pc
  | idle
  | reading (i : Nat) (b : Buf) (new : Option Nat)
  | writing (i : Nat) (b : Buf) (k : Next)
  | releasing (i : Nat) (b : Buf) (k : Next)

structure State (T : Type) where
  slot : Nat → Slot
  /-- `inode_list` of the superblock of a device -/
  list : Nat → List Nat
  super : Nat → Option Super
  dirty : Buf → Bool
  disk : Buf → Nat → Attr
  pc : T → Pc
  /-- the references of a task that it has not put -/
  refs : T → List Nat
  /-- the references of the superblocks, to roots and mount points -/
  base : Nat → Nat

/-- A failed assertion or a panic; a `NULL` pointer that is followed; a node that is put on a second list; a count below 0. -/
inductive Fault
  | assert
  | null
  | linked
  | count
  deriving DecidableEq

variable {T : Type} [DecidableEq T]

namespace State

def goto (s : State T) (t : T) (p : Pc) : State T := { s with pc := Function.update s.pc t p }

def setSlot (s : State T) (i : Nat) (x : Slot) : State T := { s with slot := Function.update s.slot i x }

def setRefs (s : State T) (t : T) (l : List Nat) : State T := { s with refs := Function.update s.refs t l }

def setDirty (s : State T) (b : Buf) (v : Bool) : State T := { s with dirty := Function.update s.dirty b v }

end State

/-! ## `inode.c` -/

def getFreeInode (s : State T) : Except Fault Nat :=
  match (List.range inodeNr).find? fun i => !(s.slot i).minix with
  | none => .error .assert
  | some i =>
    let x := s.slot i
    if x.buf = none ∧ x.desc = none ∧ x.super = none ∧ x.op = false then .ok i else .error .assert

def findInode (s : State T) (dev nr : Nat) : Option Nat := (s.list dev).find? fun i => decide ((s.slot i).nr = nr)

def putFreeInode (s : State T) (i : Nat) : Except Fault (State T) :=
  if i = 0 ∨ (s.slot i).count ≠ 0 then .error .assert else .ok (s.setSlot i { s.slot i with minix := false })

/-! ## `minix.c` -/

def inodeBlock (d : Desc) (nr : Nat) : Nat := 2 + d.imapBlocks + d.zmapBlocks + (nr - 1) / blockInodes

def listPush (s : State T) (dev i : Nat) : Except Fault (State T) :=
  if i ∈ s.list dev then .error .assert
  else if (s.slot i).node ≠ none then .error .linked
  else .ok { s.setSlot i { s.slot i with node := some dev } with list := Function.update s.list dev (i :: s.list dev) }

def listRemove (s : State T) (i : Nat) : Except Fault (State T) :=
  match (s.slot i).node with
  | none => .error .assert
  | some dev => .ok { s.setSlot i { s.slot i with node := none } with list := Function.update s.list dev ((s.list dev).erase i) }

/-- What `new_inode` does with the inode `iget` returned; `mode`: `0777 & ~umask`. -/
def newInode (s : State T) (i mode : Nat) : Except Fault (State T) :=
  match (s.slot i).buf, (s.slot i).desc with
  | some b, some p =>
    .ok { (s.setDirty b true).setSlot i { s.slot i with mode := mode, size := 0 } with
      disk := Function.update s.disk p.1 (Function.update (s.disk p.1) p.2 ⟨mode, 0⟩) }
  | _, _ => .error .null

def handOut (s : State T) (t : T) (i : Nat) (new : Option Nat) : Except Fault (State T) :=
  let s := (s.goto t .idle).setRefs t (i :: s.refs t)
  match new with
  | none => .ok s
  | some mode => newInode s i mode

def closed (s : State T) (t : T) : Next → Except Fault (State T)
  | .put => .ok (s.goto t .idle)
  | .fit d new =>
    match s.super d with
    | none => .error .assert
    | some sp => handOut (s.setSlot sp.iroot { s.slot sp.iroot with count := (s.slot sp.iroot).count + 1 }) t sp.iroot new

def release (s : State T) (t : T) (i : Nat) (k : Next) : Except Fault (State T) := do
  let s ← listRemove s i
  let s ← putFreeInode (s.setSlot i { s.slot i with buf := none, desc := none, super := none, op := false }) i
  closed s t k

def drop (s : State T) (t : T) (i : Nat) (k : Next) : Except Fault (State T) :=
  let x := s.slot i
  if x.count = 0 then .error .count
  else
    let s := s.setSlot i { x with count := x.count - 1 }
    if x.count ≠ 1 then closed s t k
    else
      match x.buf with
      | none => release s t i k
      | some b => if s.dirty b then .ok (s.goto t (.releasing i b k)) else release s t i k

def iput (s : State T) (t : T) (i : Nat) (k : Next) : Except Fault (State T) :=
  let x := s.slot i
  if x.op = false then .error .null
  else if x.minix = false then .error .assert
  else
    match x.buf with
    | none => .error .null
    | some b => if s.dirty b then .ok (s.goto t (.writing i b k)) else drop s t i k

def fitInode (s : State T) (t : T) (i : Nat) (new : Option Nat) : Except Fault (State T) :=
  match (s.slot i).mount with
  | none => handOut s t i new
  | some d => iput s t i (.fit d new)

def iget (s : State T) (t : T) (dev nr : Nat) (new : Option Nat) : Except Fault (State T) :=
  match s.super dev with
  | none => .error .assert
  | some sp =>
    match findInode s dev nr with
    | some i => fitInode (s.setSlot i { s.slot i with count := (s.slot i).count + 1 }) t i new
    | none =>
      if ¬ nr ≤ sp.desc.inodes then .error .assert
      else do
        let i ← getFreeInode s
        let s ← listPush (s.setSlot i { s.slot i with dev := dev, nr := nr, count := (s.slot i).count + 1 }) dev i
        pure (s.goto t (.reading i ⟨dev, inodeBlock sp.desc nr⟩ new))

def loaded (s : State T) (t : T) (i : Nat) (b : Buf) (new : Option Nat) : Except Fault (State T) :=
  let x := s.slot i
  let k := (x.nr - 1) % blockInodes
  let a := s.disk b k
  fitInode (s.setSlot i { x with
    buf := some b, desc := some (b, k), mode := a.mode, size := a.size, super := some x.dev, minix := true, op := true }) t i new

/-! ## The machine -/

inductive Act (T : Type)
  | iget (t : T) (dev nr : Nat) (new : Option Nat)
  | put (t : T) (i : Nat)
  | resume (t : T) (ok : Bool)

def resume (s : State T) (t : T) (ok : Bool) : Except Fault (State T) :=
  match s.pc t with
  | .idle => .ok s
  | .reading i b new => if ok then loaded (s.goto t .idle) t i b new else .error .null
  | .writing i b k => drop (if ok then (s.goto t .idle).setDirty b false else s.goto t .idle) t i k
  | .releasing i b k => release (if ok then (s.goto t .idle).setDirty b false else s.goto t .idle) t i k

def step (s : State T) : Act T → Except Fault (State T)
  | .iget t dev nr new => iget s t dev nr new
  | .put t i => iput (s.setRefs t ((s.refs t).erase i)) t i .put
  | .resume t ok => resume s t ok

/-- A task in no call calls `iget` or `new_inode`, or puts a reference it has. -/
def enabled (s : State T) : Act T → Prop
  | .iget t _ nr _ => s.pc t = .idle ∧ 0 < nr
  | .put t i => s.pc t = .idle ∧ i ∈ s.refs t
  | .resume t _ => s.pc t ≠ .idle

/-! ## What is to hold -/

def Super.place (sp : Super) (dev nr : Nat) : Buf × Nat := (⟨dev, inodeBlock sp.desc nr⟩, (nr - 1) % blockInodes)

/-- The slot is as `iget` leaves it. -/
structure Loaded (s : State T) (i : Nat) : Prop where
  minix : (s.slot i).minix = true
  op : (s.slot i).op = true
  super : (s.slot i).super = some (s.slot i).dev
  desc : ∃ sp, s.super (s.slot i).dev = some sp ∧ (s.slot i).buf = some (sp.place (s.slot i).dev (s.slot i).nr).1 ∧
    (s.slot i).desc = some (sp.place (s.slot i).dev (s.slot i).nr) ∧
    s.disk (sp.place (s.slot i).dev (s.slot i).nr).1 (sp.place (s.slot i).dev (s.slot i).nr).2 = ⟨(s.slot i).mode, (s.slot i).size⟩
  node : (s.slot i).node = some (s.slot i).dev

structure Free (s : State T) (i : Nat) : Prop where
  minix : (s.slot i).minix = false
  count : (s.slot i).count = 0
  unset : (s.slot i).buf = none ∧ (s.slot i).desc = none ∧ (s.slot i).super = none ∧ (s.slot i).op = false
  node : (s.slot i).node = none

def Pc.holds (i : Nat) : Pc → Nat
  | .reading j _ _ | .writing j _ _ => if j = i then 1 else 0
  | .idle | .releasing _ _ _ => 0

def State.share (s : State T) (i : Nat) (t : T) : Nat := (s.refs t).count i + (s.pc t).holds i

/-- The table is as it has to be: one slot for an inode; what was handed out is loaded; a slot has as many references as it counts; it
is free when it has none, but for the task that is about to free it, and nobody has it again then. -/
structure Lifecycle [Fintype T] (s : State T) : Prop where
  unique : ∀ i j, ¬ Free s i → ¬ Free s j → (s.slot i).dev = (s.slot j).dev → (s.slot i).nr = (s.slot j).nr → i = j
  loaded : ∀ t, ∀ i ∈ s.refs t, Loaded s i
  counted : ∀ i, (s.slot i).count = s.base i + ∑ t, s.share i t
  freed : ∀ i, Free s i ↔ (s.slot i).count = 0 ∧ ∀ t b k, s.pc t ≠ .releasing i b k
  dying : ∀ t i b k, s.pc t = .releasing i b k → (s.slot i).count = 0

/-- Filesystems are mounted, and nothing runs: the slots in use are their roots and mount points. -/
structure Start [Fintype T] (s : State T) : Prop where
  idle : ∀ t, s.pc t = .idle
  refs : ∀ t, s.refs t = []
  count : ∀ i, (s.slot i).count = s.base i
  slots : ∀ i, if 0 < s.base i then Loaded s i else Free s i
  lists : ∀ d, (s.list d).Nodup ∧ ∀ i, i ∈ s.list d ↔ (s.slot i).node = some d
  unique : ∀ i j, 0 < s.base i → 0 < s.base j → (s.slot i).dev = (s.slot j).dev → (s.slot i).nr = (s.slot j).nr → i = j
  root : ∀ d sp, s.super d = some sp → 0 < s.base sp.iroot
  mount : ∀ i, (s.slot i).mount ≠ none → 0 < s.base i
  number : ∀ i, 0 < s.base i → 0 < (s.slot i).nr

def inodes (T : Type) [DecidableEq T] [Fintype T] : Machine (State T) (Act T) Fault where
  start := Start
  enabled := enabled
  step := step

/-- The slot an `iget` finds is neither being read nor about to be freed, and the free slot it takes is not being read into. -/
def Exclusive (s : State T) : Act T → Prop
  | .iget _ dev nr _ =>
    match findInode s dev nr with
    | some i => ∀ u, (∀ b new, s.pc u ≠ .reading i b new) ∧ ∀ b k, s.pc u ≠ .releasing i b k
    | none => ∀ i, getFreeInode s = .ok i → ∀ u b new, s.pc u ≠ .reading i b new
  | .put _ _ | .resume _ _ => True

end Onix.Inode
