/-
`src/kernel/arena.c` and the kernel pages of `src/kernel/memory.c`: the heap as descriptors with their free lists, the headers at the start
of the pages and the bitmap of the kernel's pages.

A free list is the list of the addresses that are linked, since the nodes lie in the free blocks themselves. The arenas there are and
the blocks that are in use are kept beside the state; the code reads neither. Others take and give back kernel pages between two calls.
-/
import Onix.Bitmap
import Onix.Lib.Loop
import Onix.Lib.Machine

namespace Onix.Heap

open Onix.Lib

def PAGE_SIZE : Nat := 4096
def DESC_COUNT : Nat := 7
def BUF_COUNT : Nat := 4
def ONIX_MAGIC : Nat := 0x20220205

def HEADER : Nat := 16

inductive Fault
  | assertion
  | null
  | outside
  | panic
  deriving DecidableEq

structure Desc where
  totalBlock : Nat
  blockSize : Nat
  pageCount : Nat
  freeList : List Nat

/-- `arena_t`; the descriptor by its number. -/
structure Arena where
  desc : Option Nat
  count : Nat
  large : Nat
  magic : Nat

/-- An arena there is: its first page, how many it has, and its descriptor if it is of small blocks. -/
structure Owned where
  page : Nat
  pages : Nat
  desc : Option Nat
  deriving DecidableEq

/-- A block in use and the size that was asked for. -/
structure Block where
  addr : Nat
  size : Nat

structure State where
  map : Bitmap
  descs : Nat → Desc
  arena : Nat → Arena
  arenas : List Owned
  live : List Block

def assert (p : Prop) [Decidable p] : Except Fault Unit := if p then .ok () else .error .assertion

def ofBitmap {α : Type} : Except BitmapFault α → Except Fault α
  | .ok a => .ok a
  | .error .assert => .error .assertion
  | .error .outside => .error .outside

def arenaInit (i : Nat) : Desc :=
  let blockSize := 16 <<< i
  ⟨(PAGE_SIZE - HEADER) / blockSize, blockSize, 0, []⟩

/-! ## Kernel pages -/

def scanPage (map : Bitmap) (count : Nat) : Except Fault (Nat × Bitmap) := do
  assert (0 < count)
  let (index, map) ← ofBitmap (map.scan count)
  match index with
  | none => .error .panic
  | some index => .ok (index * PAGE_SIZE, map)

def allocKpage (map : Bitmap) (count : Nat) : Except Fault (Nat × Bitmap) := do
  assert (0 < count)
  scanPage map count

def resetPage (map : Bitmap) (addr count : Nat) : Except Fault Bitmap := do
  assert (addr % PAGE_SIZE = 0)
  assert (0 < count)
  let index := addr / PAGE_SIZE
  forRange count (fun i map => do
    let taken ← ofBitmap (map.test (index + i))
    assert (taken = true)
    ofBitmap (map.set (index + i) false)) map

def freeKpage (map : Bitmap) (vaddr count : Nat) : Except Fault Bitmap := do
  assert (vaddr % PAGE_SIZE = 0)
  assert (0 < count)
  resetPage map vaddr count

/-! ## Blocks -/

def getArenaBlock (d : Desc) (arena idx : Nat) : Except Fault Nat := do
  assert (idx < d.totalBlock)
  .ok (arena + HEADER + idx * d.blockSize)

def getBlockArena (block : Nat) : Nat := block / PAGE_SIZE

def State.setDesc (s : State) (i : Nat) (d : Desc) : State := { s with descs := Function.update s.descs i d }

def State.setArena (s : State) (p : Nat) (x : Arena) : State := { s with arena := Function.update s.arena p x }

def clearPages (arena : Nat → Arena) (page count : Nat) : Nat → Arena :=
  fun p => if page ≤ p ∧ p < page + count then ⟨none, 0, 0, 0⟩ else arena p

def divRoundUp (num size : Nat) : Nat := (num + size - 1) % 2 ^ 32 / size

def findDesc (descs : Nat → Desc) (size : Nat) : Nat → Nat → Nat
  | 0, i => i - 1
  | n + 1, i => if size ≤ (descs i).blockSize then i else findDesc descs size n (i + 1)

def Desc.withFree (d : Desc) (l : List Nat) : Desc := { d with freeList := l }

def pushBlocks (d : Desc) (arena : Nat) : Except Fault Desc :=
  forRange d.totalBlock (fun i e => do
    let block ← getArenaBlock d arena i
    assert (block ∉ e.freeList)
    let e := e.withFree (block :: e.freeList)
    assert (block ∈ e.freeList)
    .ok e) d

def dropBlocks (d : Desc) (arena : Nat) : Except Fault Desc :=
  forRange d.totalBlock (fun i e => do
    let block ← getArenaBlock d arena i
    assert (block ∈ e.freeList)
    let e := e.withFree (e.freeList.erase block)
    assert (block ∉ e.freeList)
    .ok e) d

/-! ## The calls -/

def kmallocLarge (s : State) (size : Nat) : Except Fault (Nat × State) := do
  let asize := (size + HEADER) % 2 ^ 32
  let count := divRoundUp asize PAGE_SIZE
  let (arena, map) ← allocKpage s.map count
  let page := arena / PAGE_SIZE
  let s := { s with map := map, arena := clearPages s.arena page count, arenas := ⟨page, count, none⟩ :: s.arenas }
  let s := s.setArena page ⟨none, count, 1, ONIX_MAGIC⟩
  .ok (arena + HEADER, s)

def newArena (s : State) (i : Nat) : Except Fault State := do
  let (arena, map) ← allocKpage s.map 1
  let page := arena / PAGE_SIZE
  let d := { s.descs i with pageCount := (s.descs i).pageCount + 1 }
  let s := { s with map := map, arena := clearPages s.arena page 1, arenas := ⟨page, 1, some i⟩ :: s.arenas }
  let s := s.setArena page ⟨some i, d.totalBlock, 0, ONIX_MAGIC⟩
  let d ← pushBlocks d arena
  .ok (s.setDesc i d)

def popBlock (s : State) (i : Nat) : Except Fault (Nat × State) :=
  match (s.descs i).freeList with
  | [] => .error .assertion
  | block :: rest => do
    let page := getBlockArena block
    let x := s.arena page
    assert (x.magic = ONIX_MAGIC ∧ x.large = 0)
    let s := s.setDesc i ((s.descs i).withFree rest)
    .ok (block, s.setArena page { x with count := x.count - 1 })

def kmalloc (s : State) (size : Nat) : Except Fault (Nat × State) :=
  if 1024 < size then kmallocLarge s size
  else do
    let i := findDesc s.descs size DESC_COUNT 0
    let s ← if (s.descs i).freeList = [] then newArena s i else .ok s
    popBlock s i

/-- The page of an arena that has become free is given back if its descriptor has enough others. -/
def releaseArena (s : State) (i page : Nat) : Except Fault State := do
  let d := s.descs i
  if (s.arena page).count = d.totalBlock ∧ BUF_COUNT < d.pageCount then
    let d ← dropBlocks d (page * PAGE_SIZE)
    let d := { d with pageCount := d.pageCount - 1 }
    assert (BUF_COUNT ≤ d.pageCount)
    let map ← freeKpage s.map (page * PAGE_SIZE) 1
    .ok { s.setDesc i d with map := map, arenas := s.arenas.erase ⟨page, 1, some i⟩ }
  else .ok s

def pushBlock (s : State) (i page block : Nat) : Except Fault State := do
  let d := s.descs i
  assert (block ∉ d.freeList)
  let x := s.arena page
  .ok ((s.setDesc i (d.withFree (block :: d.freeList))).setArena page { x with count := x.count + 1 })

def kfree (s : State) (ptr : Nat) : Except Fault State := do
  assert (ptr ≠ 0)
  let page := getBlockArena ptr
  let x := s.arena page
  assert (x.large = 1 ∨ x.large = 0)
  assert (x.magic = ONIX_MAGIC)
  if x.large ≠ 0 then
    let map ← freeKpage s.map (page * PAGE_SIZE) x.count
    .ok { s with map := map, arenas := s.arenas.erase ⟨page, x.count, none⟩ }
  else
    match x.desc with
    | none => .error .null
    | some i => do
      let s ← pushBlock s i page ptr
      releaseArena s i page

/-! ## Runs -/

inductive Act
  | kmalloc (size : Nat)
  | kfree (b : Block)
  | other (map : Bitmap) (arena : Nat → Arena)

def PageTaken (map : Bitmap) (p : Nat) : Prop :=
  map.offset ≤ p ∧ p - map.offset < map.length * 8 ∧ Bitmap.bit map.bits (p - map.offset) = true

def Owned.Has (a : Owned) (p : Nat) : Prop := a.page ≤ p ∧ p < a.page + a.pages

def step (s : State) : Act → Except Fault State
  | .kmalloc size => do
    let (addr, t) ← kmalloc s size
    .ok { t with live := ⟨addr, size⟩ :: t.live }
  | .kfree b => kfree { s with live := s.live.filter fun c => c.addr ≠ b.addr } b.addr
  | .other map arena => .ok { s with map := map, arena := arena }

/-- What callers do: sizes below 2^31, blocks that are in use, and others leave the heap's pages alone. -/
def Enabled (s : State) : Act → Prop
  | .kmalloc size => size < 2 ^ 31
  | .kfree b => b ∈ s.live
  | .other map arena =>
    map.length = s.map.length ∧ map.offset = s.map.offset ∧ map.room = s.map.room ∧
      ∀ a ∈ s.arenas, ∀ p, a.Has p → PageTaken map p ∧ arena p = s.arena p

/-- After `arena_init`; of the kernel's pages from 1M to the ramdisk any may be taken. -/
def Start (s : State) : Prop :=
  s.map.length = (3072 - 256) / 8 ∧ s.map.offset = 256 ∧ s.map.length ≤ s.map.room ∧ s.descs = arenaInit ∧ s.arenas = [] ∧ s.live = []

def machine : Machine State Act Fault := ⟨Start, Enabled, step⟩

end Onix.Heap
