/-
The packet queues of `net/netif.c`: `netif_input` and `netif_output`, called by any task and by the
interrupt handler of the network card, and the threads `neti` and `neto` that take the packets out again.
A thread keeps the processor until it blocks, so a step of it goes from one place where it may lose the
processor to the next; while it is inside `eth_input` or `nic_output` any other calls may come. The model
lets it lose the processor at the top of its loop too. What becomes of a packet in its handler is not part
of it, but for the calls of `netif_input` and `netif_output` that come meanwhile.
-/
import Onix.Lib.Loop
import Onix.Lib.Machine

namespace Onix.Netif

open Onix.Lib

/-! ## Queues -/

def netifRxPbufSize : Nat := 8

/-- The receive side, served by `neti`, and the transmit side, served by `neto`. -/
inductive Side
  | rx
  | tx
  deriving DecidableEq

/-- How a packet left its queue: `eth_input` or `nic_output` was called with it, or `netif_input` made room. -/
inductive How
  | handled
  | dropped
  deriving DecidableEq

/-- A packet list with its lock and its size counter. The packets are read from `tail.prev` back, so the
oldest is first. -/
structure Queue where
  pbufs : List Nat
  size : Int
  held : Bool
  /-- the packets that were pushed -/
  arrived : List Nat
  /-- the packets that left -/
  left : List (Nat × How)
  deriving DecidableEq

/-- `contended`: `lock_acquire` would block; `lock`, `search` and `empty`: the assertions of `lock_release`,
`list_push` and `list_popback`; `size`: that of `netif_input`. -/
inductive Fault
  | contended
  | lock
  | search
  | empty
  | size
  deriving DecidableEq

namespace Queue

def lockAcquire (q : Queue) : Except Fault Queue := if q.held then .error .contended else .ok { q with held := true }

def lockRelease (q : Queue) : Except Fault Queue := if q.held then .ok { q with held := false } else .error .lock

def listPush (q : Queue) (p : Nat) : Except Fault Queue :=
  if p ∈ q.pbufs then .error .search
  else .ok { q with pbufs := q.pbufs ++ [p], size := q.size + 1, arrived := q.arrived ++ [p] }

def listPopback (q : Queue) (how : How) : Except Fault (Nat × Queue) :=
  match q.pbufs with
  | [] => .error .empty
  | p :: l => .ok (p, { q with pbufs := l, size := q.size - 1, left := q.left ++ [(p, how)] })

/-- The loop of `netif_input` over the `n` packets that are there. -/
def makeRoom : Nat → Queue → Except Fault Queue
  | 0, q => if (netifRxPbufSize : Int) ≤ q.size then .error .empty else .ok q
  | n + 1, q =>
    if (netifRxPbufSize : Int) ≤ q.size then do
      let (_, q) ← q.listPopback .dropped
      makeRoom n q
    else .ok q

end Queue

/-! ## The threads -/

/-- Where a thread is: at the top of its loop; in the handler for a packet of the interface `i`, with the
interfaces it has still to look at and the packets of this round; or in `TASK_WAITING`. -/
inductive Phase
  | top
  | handling (i p : Nat) (rest : List Nat) (count : Nat)
  | waiting
  deriving DecidableEq

structure Sys where
  /-- `netif_list` -/
  ifs : List Nat
  queue : Side → Nat → Queue
  thread : Side → Phase
  /-- how often the thread had the processor -/
  turns : Side → Nat

namespace Sys

def setQueue (s : Sys) (d : Side) (i : Nat) (q : Queue) : Sys :=
  { s with queue := fun e j => if e = d ∧ j = i then q else s.queue e j }

def setThread (s : Sys) (d : Side) (p : Phase) : Sys := { s with thread := fun e => if e = d then p else s.thread e }

def wake (s : Sys) (d : Side) : Sys := if s.thread d = .waiting then s.setThread d .top else s

def netifInput (s : Sys) (i p : Nat) : Except Fault Sys := do
  let q ← (s.queue .rx i).lockAcquire
  let q ← q.makeRoom q.pbufs.length
  let q ← q.listPush p
  if (netifRxPbufSize : Int) < q.size then throw .size
  let s := s.wake .rx
  let q ← q.lockRelease
  pure (s.setQueue .rx i q)

def netifOutput (s : Sys) (i p : Nat) : Except Fault Sys := do
  let q ← (s.queue .tx i).lockAcquire
  let q ← q.listPush p
  let s := s.wake .tx
  let q ← q.lockRelease
  pure (s.setQueue .tx i q)

/-- The loop of `neti_thread` and `neto_thread` over the interfaces left, up to the next packet or to the
end of the round. -/
def scan (s : Sys) (d : Side) (count : Nat) : List Nat → Except Fault Sys
  | [] => .ok (s.setThread d (if count = 0 then .waiting else .top))
  | i :: rest =>
    if (s.queue d i).pbufs = [] then scan s d count rest
    else do
      let q ← (s.queue d i).lockAcquire
      let (p, q) ← q.listPopback .handled
      let q ← q.lockRelease
      pure ((s.setQueue d i q).setThread d (.handling i p rest count))

def run (s : Sys) (d : Side) : Except Fault Sys :=
  let s := { s with turns := fun e => if e = d then s.turns e + 1 else s.turns e }
  match s.thread d with
  | .top => s.scan d 0 s.ifs
  | .handling _ _ rest count => s.scan d (count + 1) rest
  | .waiting => .ok s

end Sys

inductive Act
  | input (i p : Nat)
  | output (i p : Nat)
  | run (d : Side)
  deriving DecidableEq

def step (s : Sys) : Act → Except Fault Sys
  | .input i p => s.netifInput i p
  | .output i p => s.netifOutput i p
  | .run d => s.run d

def Loose (s : Sys) (p : Nat) : Prop := ∀ d i, p ∉ (s.queue d i).pbufs

def enabled (s : Sys) : Act → Prop
  | .input i p | .output i p => i ∈ s.ifs ∧ Loose s p
  | .run d => s.thread d ≠ .waiting

def netif : Machine Sys Act Fault where
  start s := s.queue = (fun _ _ => ⟨[], 0, false, [], []⟩) ∧ s.thread = (fun _ => .top) ∧ s.turns = fun _ => 0
  enabled := enabled
  step := step

end Onix.Netif
