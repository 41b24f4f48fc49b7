/-
The buffer cache of `kernel/buffer.c` with any number of tasks: one descriptor (block size), its
buffers, its free, idle and wait lists and its hash table, over a block device. A task keeps the
processor until it blocks: in `get_free_buffer` when every buffer is in use, in `lock_acquire`, or
in `device_request`, whose transfer goes sector by sector with any delay between two sectors, in
any order among the requests in flight.

Sectors are opaque values of a type `S`: the cache never looks into them. `last` keeps, beside the
state of the code, the last contents written into the buffer of each block, and `refs` the
references `bread` gave out and `brelse` has not yet taken back. Tasks are numbers; a buffer is
its position in allocation order.
-/
import Onix.Lib.Machine

namespace Onix.Cache

open Onix.Lib

structure Key where
  dev : BitVec 32
  block : BitVec 32
  deriving DecidableEq

def maxBufCount : Nat := 4096

def hashCount : Nat := 31

def hash (k : Key) : Nat := (k.dev ^^^ k.block).toNat % hashCount

/-- `buffer_t`; `lock` is the holder of its lock. -/
structure Buffer (S : Type) where
  data : Nat → S
  key : Key
  count : Nat
  lock : Option Nat
  dirty : Bool
  valid : Bool

/-- The size of the descriptor's blocks and the sector size of each device
(`DEV_CMD_SECTOR_SIZE`). -/
structure Config where
  size : Nat
  sizeOk : size = 1024 ∨ size = 2048 ∨ size = 4096
  sectorSize : BitVec 32 → Nat

def Config.sectors (c : Config) (k : Key) : Nat := c.size / c.sectorSize k.dev

def Config.perPage (c : Config) : Nat := 4096 / c.size

inductive Pc
  /-- in no call of the cache -/
  | user
  /-- in `get_free_buffer`, on the wait list -/
  | waiting (k : Key)
  /-- in `get_free_buffer`, unblocked by a `brelse` -/
  | woken (k : Key)
  /-- in `bread`, waiting for the lock of the buffer -/
  | locking (b : Nat)
  /-- in `bread`, `n` sectors read -/
  | reading (b : Nat) (n : Nat)
  /-- in `bread`, the lock given back after an error -/
  | rollback (b : Nat)
  /-- in `bwrite` (of a `brelse` if `rel`), `n` sectors written -/
  | writing (b : Nat) (n : Nat) (rel : Bool)
  deriving DecidableEq

inductive Fault
  | count
  | dirty
  | hashed
  | negative
  | linked
  deriving DecidableEq

structure State (S : Type) where
  /-- `desc->count` -/
  nbuf : Nat
  buf : Nat → Buffer S
  free : List Nat
  idle : List Nat
  wait : List Nat
  hashTable : Nat → List Nat
  pc : Nat → Pc
  refs : List (Nat × Nat)
  disk : Key → Nat → S
  last : Key → Nat → S

variable {S : Type}

def State.setPc (s : State S) (t : Nat) (p : Pc) : State S := { s with pc := fun u => if u = t then p else s.pc u }

def State.setBuf (s : State S) (b : Nat) (x : Buffer S) : State S :=
  { s with buf := fun i => if i = b then x else s.buf i }

/-! ## Finding and taking a buffer -/

def getFromHashTable (s : State S) (k : Key) : Option Nat :=
  (s.hashTable (hash k)).find? fun b => decide ((s.buf b).key = k)

/-- `hash_remove`: `list_remove` takes the node out of whatever chain it is in. -/
def hashRemove (s : State S) (b : Nat) : State S := { s with hashTable := fun i => (s.hashTable i).erase b }

/-- `buffer_alloc`: one page cut into buffers, each pushed on the free list. -/
def bufferAlloc (c : Config) (s : State S) : State S :=
  { s with
    nbuf := s.nbuf + c.perPage
    free := ((List.range c.perPage).map (s.nbuf + ·)).reverse ++ s.free
    buf := fun i => if s.nbuf ≤ i ∧ i < s.nbuf + c.perPage then
        { s.buf i with key := ⟨-1, 0⟩, count := 0, lock := none, dirty := false, valid := false }
      else s.buf i }

def evict (s : State S) (b : Nat) : State S :=
  (hashRemove s b).setBuf b { s.buf b with valid := false }

/-- The end of `get_free_buffer`: the oldest buffer of the idle list, if there is one. -/
def takeIdle (s : State S) : Option (Nat × State S) :=
  s.idle.getLast?.map fun b => (b, evict { s with idle := s.idle.dropLast } b)

/-- `get_free_buffer` up to its wait; `none` when the task has to wait. -/
def getFreeBuffer (c : Config) (s : State S) : Option (Nat × State S) :=
  let s := if s.nbuf < maxBufCount ∧ s.free = [] then bufferAlloc c s else s
  match s.free.getLast? with
  | some b => some (b, evict { s with free := s.free.dropLast } b)
  | none => takeIdle s

def waitFree (s : State S) (t : Nat) (k : Key) : State S := ({ s with wait := t :: s.wait }).setPc t (.waiting k)

/-! ## `bread` -/

/-- `bread` with the lock of an invalid buffer: it starts the request, or gives up on a device
whose sectors are larger than the block. -/
def readStart (c : Config) (s : State S) (t : Nat) (b : Nat) : State S :=
  if c.size < c.sectorSize (s.buf b).key.dev then
    (s.setBuf b { s.buf b with lock := none }).setPc t (.rollback b)
  else s.setPc t (.reading b 0)

def breadFound (c : Config) (s : State S) (t : Nat) (b : Nat) : State S :=
  if (s.buf b).valid then s.setPc t .user
  else if (s.buf b).lock = none then readStart c (s.setBuf b { s.buf b with lock := some t }) t b
  else s.setPc t (.locking b)

/-- `getblk` on a buffer found in the hash table: out of the idle list, one more reference. -/
def getblkHit (s : State S) (t : Nat) (b : Nat) : State S :=
  ({ s with idle := s.idle.erase b, refs := (t, b) :: s.refs }).setBuf b
    { s.buf b with count := (s.buf b).count + 1 }

/-- `hash_locate` of the buffer under its new key, the first reference counted. -/
def hashLocate (s : State S) (t : Nat) (b : Nat) (k : Key) : State S :=
  ({ s with
    hashTable := fun i => if i = hash k then b :: s.hashTable i else s.hashTable i
    refs := (t, b) :: s.refs }).setBuf b { s.buf b with count := 1, key := k }

def install (c : Config) (s : State S) (t : Nat) (b : Nat) (k : Key) : Except Fault (State S) :=
  if (s.buf b).count ≠ 0 then .error .count
  else if (s.buf b).dirty then .error .dirty
  else if b ∈ s.hashTable (hash k) then .error .hashed
  else .ok (breadFound c (hashLocate s t b k) t b)

def bread (c : Config) (s : State S) (t : Nat) (k : Key) : Except Fault (State S) :=
  match getFromHashTable s k with
  | some b => .ok (breadFound c (getblkHit s t b) t b)
  | none =>
    match getFreeBuffer c s with
    | some (b, s) => install c s t b k
    | none => .ok (waitFree s t k)

/-- `getblk` after its wait: it goes back to sleep when the idle list is empty again. -/
def wake (c : Config) (s : State S) (t : Nat) (k : Key) : Except Fault (State S) :=
  match takeIdle s with
  | some (b, s) => install c s t b k
  | none => .ok (waitFree s t k)

def lockAcquired (c : Config) (s : State S) (t : Nat) (b : Nat) : State S :=
  if (s.buf b).valid then s.setPc t .user
  else readStart c (s.setBuf b { s.buf b with lock := some t }) t b

/-! ## `bwrite` and `brelse` -/

def wakeOne (s : State S) : State S :=
  match s.wait.getLast? with
  | none => s
  | some w =>
    match s.pc w with
    | .waiting k => ({ s with wait := s.wait.dropLast }).setPc w (.woken k)
    | _ => { s with wait := s.wait.dropLast }

def release (s : State S) (t : Nat) (b : Nat) : Except Fault (State S) :=
  if (s.buf b).count = 0 then .error .negative
  else
    let s := (({ s with refs := s.refs.erase (t, b) }).setBuf b
      { s.buf b with count := (s.buf b).count - 1 }).setPc t .user
    if (s.buf b).count ≠ 0 then .ok s
    else if b ∈ s.free ∨ b ∈ s.idle then .error .linked
    else .ok (wakeOne { s with idle := b :: s.idle })

def bwrite (s : State S) (t : Nat) (b : Nat) : State S :=
  if (s.buf b).dirty then s.setPc t (.writing b 0 false) else s

def brelse (s : State S) (t : Nat) (b : Nat) : Except Fault (State S) :=
  if (s.buf b).dirty then .ok (s.setPc t (.writing b 0 true)) else release s t b

/-! ## Device requests -/

def transfer (s : State S) (t : Nat) : State S :=
  match s.pc t with
  | .reading b n =>
    (s.setBuf b { s.buf b with data := fun i => if i = n then s.disk (s.buf b).key n else (s.buf b).data i }).setPc t
      (.reading b (n + 1))
  | .writing b n rel =>
    { s.setPc t (.writing b (n + 1) rel) with
      disk := fun k i => if k = (s.buf b).key ∧ i = n then (s.buf b).data n else s.disk k i }
  | _ => s

def finish (s : State S) (t : Nat) : Except Fault (State S) :=
  match s.pc t with
  | .reading b _ =>
    .ok ((s.setBuf b { s.buf b with dirty := false, valid := true, lock := none }).setPc t .user)
  | .writing b _ rel =>
    let s := s.setBuf b { s.buf b with dirty := false, valid := true }
    if rel then release s t b else .ok (s.setPc t .user)
  | _ => .ok s

def fail (s : State S) (t : Nat) : Except Fault (State S) :=
  match s.pc t with
  | .reading b _ => .ok ((s.setBuf b { s.buf b with lock := none }).setPc t (.rollback b))
  | .writing b _ rel => if rel then release s t b else .ok (s.setPc t .user)
  | _ => .ok s

/-! ## The machine -/

/-- A task that holds a buffer changes its contents and sets `dirty`. -/
def update (s : State S) (b : Nat) (data : Nat → S) : State S :=
  { s.setBuf b { s.buf b with data := data, dirty := true } with
    last := fun k => if k = (s.buf b).key then data else s.last k }

inductive Act (S : Type)
  | bread (t : Nat) (k : Key)
  | wake (t : Nat)
  | lock (t : Nat)
  | transfer (t : Nat)
  | finish (t : Nat)
  | fail (t : Nat)
  | undo (t : Nat)
  | bwrite (t : Nat) (b : Nat)
  | brelse (t : Nat) (b : Nat)
  | update (t : Nat) (b : Nat) (data : Nat → S)

def step (c : Config) (s : State S) : Act S → Except Fault (State S)
  | .bread t k => bread c s t k
  | .wake t => match s.pc t with
    | .woken k => wake c s t k
    | _ => .ok s
  | .lock t => match s.pc t with
    | .locking b => .ok (lockAcquired c s t b)
    | _ => .ok s
  | .transfer t => .ok (transfer s t)
  | .finish t => finish s t
  | .fail t => fail s t
  | .undo t => match s.pc t with
    | .rollback b => brelse s t b
    | _ => .ok s
  | .bwrite t b => .ok (bwrite s t b)
  | .brelse t b => brelse s t b
  | .update _ b data => .ok (update s b data)

/-- A call starts in a task that is in none, on a buffer the task holds a reference to; a blocked
task goes on when what it waits for has happened; a request is answered after its last sector, or
fails at any point. -/
def enabled (c : Config) (s : State S) : Act S → Prop
  | .bread t _ => s.pc t = .user
  | .wake t => match s.pc t with | .woken _ => True | _ => False
  | .lock t => match s.pc t with | .locking b => (s.buf b).lock = none | _ => False
  | .transfer t => match s.pc t with
    | .reading b n | .writing b n _ => n < c.sectors (s.buf b).key
    | _ => False
  | .finish t => match s.pc t with
    | .reading b n | .writing b n _ => n = c.sectors (s.buf b).key
    | _ => False
  | .fail t => match s.pc t with | .reading _ _ | .writing _ _ _ => True | _ => False
  | .undo t => match s.pc t with | .rollback _ => True | _ => False
  | .bwrite t b | .brelse t b | .update t b _ => s.pc t = .user ∧ (t, b) ∈ s.refs

instance (c : Config) (s : State S) (a : Act S) : Decidable (enabled c s a) := by
  cases a <;> simp only [enabled] <;> first | infer_instance | (split <;> infer_instance)

def bufferInit (mem : Nat → Buffer S) (disk : Key → Nat → S) : State S :=
  { nbuf := 0, buf := mem, free := [], idle := [], wait := [], hashTable := fun _ => [],
    pc := fun _ => .user, refs := [], disk := disk, last := disk }

def bufferCache (S : Type) (c : Config) : Machine (State S) (Act S) Fault where
  start s := ∃ mem disk, s = bufferInit mem disk
  enabled := enabled c
  step := step c

end Onix.Cache
