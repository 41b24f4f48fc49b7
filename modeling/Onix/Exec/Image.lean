/-
ELF files, and what a call of `execve` owes its caller: when it returns, all of the caller is as it was; when the task enters the new
program, every segment of the file that is to be loaded is there, and the task has given up its old file for the new one.
-/
import Onix.Exec.Model

namespace Onix.Exec

open Onix.Lib
open Memory (userExecAddr userMmapAddr userStackTop userStackBottom)

variable {I : Type}

/-! ## Program headers -/

/-- `Elf32_Phdr`, without `p_paddr`. -/
structure Phdr where
  type : Nat
  offset : Nat
  vaddr : Nat
  filesz : Nat
  memsz : Nat
  flags : Nat
  align : Nat
  deriving DecidableEq

def phdrAt (byte : Nat → Byte) (a : Nat) : Phdr :=
  ⟨number byte a 4, number byte (a + 4) 4, number byte (a + 8) 4, number byte (a + 16) 4, number byte (a + 20) 4, number byte (a + 24) 4,
    number byte (a + 28) 4⟩

namespace File

def byte (f : File) (k : Nat) : Byte := f.data.getD k 0

def phnum (f : File) : Nat := ePhnum f.byte 0

def phoff (f : File) : Nat := ePhoff f.byte 0

def entry (f : File) : Nat := eEntry f.byte 0

def phdrs (f : File) : List Phdr := (List.range f.phnum).map fun k => phdrAt f.byte (f.phoff + phdrSize * k)

def leading (f : File) : List Phdr := f.phdrs.takeWhile fun h => h.type = PT_LOAD

def headSize (f : File) : Nat := ehdrSize + phdrSize * f.phnum

def head (f : File) (k : Nat) : Byte := if k < ehdrSize then f.byte k else f.byte (f.phoff + (k - ehdrSize))

end File

/-! ## Segments -/

def laid (l : List Byte) (a x : Nat) : Option Byte := if a ≤ x then l[x - a]? else none

def Touched (w : Nat → Option Byte) (p : Nat) : Prop := ∃ x, (w x).isSome ∧ x / pageSize = p

namespace Phdr

def Covers (h : Phdr) (p : Nat) : Prop := h.vaddr / pageSize ≤ p ∧ p * pageSize < h.vaddr + max h.memsz h.filesz

def wrote (h : Phdr) (f : File) (x : Nat) : Option Byte :=
  (laid (List.replicate (h.memsz - h.filesz) 0) (h.vaddr + h.filesz) x).or (laid ((f.data.drop h.offset).take h.filesz) h.vaddr x)

/-- The pages that `load_segment` maps: those it links, and those it stores to. -/
def Links (h : Phdr) (f : File) (p : Nat) : Prop :=
  (h.vaddr / pageSize ≤ p ∧ p < h.vaddr / pageSize + divRoundUp (max h.memsz h.filesz)) ∨ Touched (h.wrote f) p

end Phdr

/-- The headers are in memory as they are in the file while the segments are loaded: all of them are in the file, and no segment is stored
over them with other bytes. -/
structure Intact (f : File) : Prop where
  table : f.phoff + phdrSize * f.phnum ≤ f.data.length
  kept : ∀ h ∈ f.leading, ∀ k < f.headSize, ∀ b, h.wrote f (userExecAddr + k) = some b → b = f.head k

/-! ## All or nothing -/

/-- The task, its memory and the counts are as they were. -/
structure Kept (s t : State I) : Prop where
  name : t.name = s.name
  brk : t.brk = s.brk
  iexec : t.iexec = s.iexec
  count : t.count = s.count
  page : t.page = s.page
  byte : ∀ a, (s.page (a / pageSize)).isSome → t.byte a = s.byte a

def State.Mapped (s : State I) (h : Phdr) : Prop := ∀ p, h.Covers p → (s.page p).isSome

variable [DecidableEq I]

def AllOrNothing (file : I → File) (found : Option I) (s : State I) : Outcome I → Prop
  | .returned _ t => Kept s t
  | .entered t _ => ∃ inode, found = some inode ∧ t.iexec = some inode ∧ (∀ h ∈ (file inode).phdrs, h.type = PT_LOAD → t.Mapped h) ∧
      ∀ i, t.count i = s.count i + (if i = inode then 1 else 0) - if s.iexec = some i then 1 else 0

/-! ## When it holds -/

/-- The pages that are there in any case when the program starts: what the caller had outside of its old program, the stack with the
arguments, and the headers. -/
def There (args : List Byte) (f : File) (s : State I) (p : Nat) : Prop :=
  (((s.page p).isSome ∨ Touched (laid args (userStackTop - args.length)) p) ∧
    ¬ (userExecAddr ≤ p * pageSize ∧ p * pageSize < s.brk)) ∨ ∃ k < f.headSize, (userExecAddr + k) / pageSize = p

/-- The pages of the segments that are to be loaded are those of the program headers before the first that is no `PT_LOAD`, or there in any
case. -/
def Covered (args : List Byte) (f : File) (s : State I) : Prop :=
  ∀ h ∈ f.phdrs, h.type = PT_LOAD → ∀ p, h.Covers p → There args f s p ∨ ∃ g ∈ f.leading, g.Links f p

/-- There is no file to execute, or it is a valid image whose entry is not taken for the error, whose headers stay and whose segments are
covered. -/
def Meets (file : I → File) (found : Option I) (args : List Byte) (s : State I) : Prop :=
  match found with
  | none => True
  | some inode =>
    let f := file inode
    f.regular = false ∨ f.exec = false ∨ elfValidate f.byte 0 = true ∧ f.entry ≠ eofWord ∧ Intact f ∧ Covered args f s

/-- The file is a valid image, but its headers are not all in it, or a segment is loaded over them. -/
def Displaced (file : I → File) (found : Option I) : Prop :=
  match found with
  | none => False
  | some inode => elfValidate (file inode).byte 0 = true ∧ ¬ Intact (file inode)

end Onix.Exec
