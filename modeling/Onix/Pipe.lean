/-
The pipe of `fs/pipe/pipe.c`: `pipe_read` and `pipe_write` of any number of tasks on one inode.
A task keeps the processor from the start of its call until it blocks or returns; a task that was
woken goes on right after its `task_block`, with no second look at the fifo.

In every run in which a task that must wait finds no other task waiting on its side, and a woken
task finds the fifo as its waker left it (not emptied by another reader, not filled by another
writer), the bytes delivered followed by the bytes in the fifo are the bytes put, and no
assertion fails; the first step outside that condition fails an assertion or loses a byte.
-/
import Onix.Lib.Machine
import Onix.Fifo

namespace Onix.Pipe

open Onix.Lib

def pageSize : Nat := 4096

abbrev Tid := Nat

/-- A system call on the pipe: the bytes `pipe_read` has stored out of `count`, or the bytes
`pipe_write` has still to put. -/
inductive Call
  | read (data : List Byte) (count : Nat)
  | write (left : List Byte)

inductive Pc
  /-- outside the pipe code -/
  | user
  /-- at the test of the `while` loop -/
  | loop (c : Call)
  /-- in `task_block`, `TASK_BLOCKED` -/
  | blocked (c : Call)
  /-- woken, `TASK_READY`; goes on after its `task_block` when it is scheduled -/
  | ready (c : Call)

/-- The assertions of the pipe code. -/
inductive Fault
  | rxwaiter
  | txwaiter
  | fifoGet
  | fifoPut
  deriving DecidableEq

structure State where
  fifo : Fifo
  rxwaiter : Option Tid
  txwaiter : Option Tid
  pc : Tid → Pc
  /-- the task that holds the processor inside the pipe code -/
  running : Option Tid
  /-- the bytes handed to readers, in delivery order -/
  delivered : List Byte
  /-- the bytes handed to `fifo_put` by writers, in put order -/
  put : List Byte

def setPc (pc : Tid → Pc) (t : Tid) (p : Pc) : Tid → Pc := fun u => if u = t then p else pc u

variable {t : Tid} {pc : Tid → Pc}

@[simp] theorem setPc_self (pc : Tid → Pc) (t : Tid) (p : Pc) : setPc pc t p t = p := by simp [setPc]

theorem setPc_ne {u : Tid} (p : Pc) (h : u ≠ t) : setPc pc t p u = pc u := by simp [setPc, h]

/-- `task_unblock` of the task in a waiter slot, if there is one. -/
def taskUnblock (pc : Tid → Pc) (w : Option Tid) : Tid → Pc := fun u =>
  if w = some u then
    match pc u with
    | .blocked c => .ready c
    | p => p
  else pc u

def readByte (s : State) (t : Tid) (data : List Byte) (count : Nat) : Except Fault State :=
  match fifoGet s.fifo with
  | none => .error .fifoGet
  | some (b, f) => .ok { s with
      fifo := f, delivered := s.delivered ++ [b], txwaiter := none, running := some t,
      pc := taskUnblock (setPc s.pc t (.loop (.read (data ++ [b]) count))) s.txwaiter }

def writeByte (s : State) (t : Tid) (b : Byte) (left : List Byte) : Except Fault State :=
  match fifoPut s.fifo b with
  | none => .error .fifoPut
  | some f => .ok { s with
      fifo := f, put := s.put ++ [b], rxwaiter := none, running := some t,
      pc := taskUnblock (setPc s.pc t (.loop (.write left))) s.rxwaiter }

def leave (s : State) (t : Tid) : State := { s with pc := setPc s.pc t .user, running := none }

def pipeRead (s : State) (t : Tid) (data : List Byte) (count : Nat) : Except Fault State :=
  if data.length < count then
    if fifoEmpty s.fifo then
      if s.rxwaiter.isSome then .error .rxwaiter
      else .ok { s with rxwaiter := some t, pc := setPc s.pc t (.blocked (.read data count)), running := none }
    else readByte s t data count
  else .ok (leave s t)

def pipeWrite (s : State) (t : Tid) : List Byte → Except Fault State
  | [] => .ok (leave s t)
  | b :: left =>
    if fifoFull s.fifo then
      if s.txwaiter.isSome then .error .txwaiter
      else .ok { s with txwaiter := some t, pc := setPc s.pc t (.blocked (.write (b :: left))), running := none }
    else writeByte s t b left

/-- A task starts a call or goes on in one. -/
inductive Act
  | read (t : Tid) (count : Nat)
  | write (t : Tid) (data : List Byte)
  | run (t : Tid)

def resume (s : State) (t : Tid) : Except Fault State :=
  match s.pc t with
  | .loop (.read data count) => pipeRead s t data count
  | .loop (.write left) => pipeWrite s t left
  | .ready (.read data count) => readByte s t data count
  | .ready (.write (b :: left)) => writeByte s t b left
  | _ => .ok s

def step (s : State) : Act → Except Fault State
  | .read t count => .ok { s with pc := setPc s.pc t (.loop (.read [] count)), running := some t }
  | .write t data => .ok { s with pc := setPc s.pc t (.loop (.write data)), running := some t }
  | .run t => resume s t

/-- A call starts in a task that is in none, while no task is inside the pipe code; the task that
holds the processor goes on, or else a woken task does. -/
def enabled (s : State) : Act → Prop
  | .read t _ | .write t _ => s.running = none ∧ s.pc t = .user
  | .run t => s.running = some t ∨ s.running = none ∧ ∃ c, s.pc t = .ready c

def pipeOpen (buf : Nat → Byte) : State :=
  { fifo := fifoInit buf pageSize, rxwaiter := none, txwaiter := none, pc := fun _ => .user,
    running := none, delivered := [], put := [] }

def pipe : Machine State Act Fault where
  start s := ∃ buf, s = pipeOpen buf
  enabled := enabled
  step := step

/-! ## The condition and the invariant -/

def Reading (s : State) (t : Tid) : Prop := ∃ data count, s.pc t = .blocked (.read data count)

def Writing (s : State) (t : Tid) : Prop := ∃ left, s.pc t = .blocked (.write left)

/-- A task about to wait finds no other task waiting on its side; a woken reader finds a byte and a
woken writer finds room. -/
def Fits (s : State) : Act → Prop
  | .run t => match s.pc t with
    | .loop (.read data count) => data.length < count → fifoEmpty s.fifo = true → ∀ u, ¬ Reading s u
    | .loop (.write left) => left ≠ [] → fifoFull s.fifo = true → ∀ u, ¬ Writing s u
    | .ready (.read _ _) => fifoEmpty s.fifo = false
    | .ready (.write (_ :: _)) => fifoFull s.fifo = false
    | _ => True
  | _ => True

def InOrder (s : State) : Prop := s.delivered ++ s.fifo.contents = s.put

/-- The waiter slots name exactly the blocked tasks, and the bytes are in order. -/
structure Inv (s : State) : Prop where
  wf : s.fifo.WF
  order : InOrder s
  rx : ∀ u, Reading s u ↔ s.rxwaiter = some u
  tx : ∀ u, Writing s u ↔ s.txwaiter = some u
  /-- a task that is inside the pipe code and holds the processor is not blocked -/
  run : ∀ t, s.running = some t → ∃ c, s.pc t = .loop c

theorem pipeOpen_inv (buf : Nat → Byte) : Inv (pipeOpen buf) := by
  refine ⟨Fifo.init_wf _ (by decide), by simp [InOrder, pipeOpen], ?_, ?_, ?_⟩ <;>
    simp [Reading, Writing, pipeOpen]

variable {w : Option Tid}

theorem unblock_blocked {p : Pc}
    (hp : ∀ c, p ≠ .blocked c) (ht : ∀ c, pc t ≠ .blocked c) (c : Call) (u : Tid) :
    taskUnblock (setPc pc t p) w u = .blocked c ↔ pc u = .blocked c ∧ w ≠ some u := by
  unfold taskUnblock
  by_cases he : u = t
  · subst he
    simp only [setPc_self, ht c, false_and, iff_false]
    split
    · cases p <;> simp_all
    · exact hp c
  · rw [setPc_ne p he]
    split
    · rename_i hw
      split <;> simp_all
    · rename_i hw; simp [hw]

variable {s : State}

theorem not_blocked_loop {c : Call} (h : s.pc t = .loop c ∨ s.pc t = .ready c) :
    ∀ c, s.pc t ≠ .blocked c := by
  intro c'; rcases h with h | h <;> simp [h]

theorem unblock_self {c : Call} :
    taskUnblock (setPc pc t (.loop c)) w t = .loop c := by
  unfold taskUnblock; simp

/-! ## One transfer -/

theorem readByte_inv (hi : Inv s) {data : List Byte} {n : Nat}
    (hpc : s.pc t = .loop (.read data n) ∨ s.pc t = .ready (.read data n)) (he : fifoEmpty s.fifo = false) :
    ∃ s', readByte s t data n = .ok s' ∧ Inv s' := by
  obtain ⟨b, f, hg, hwf, hc, -⟩ := Fifo.fifoGet_spec hi.wf he
  have hnb := not_blocked_loop hpc
  refine ⟨_, by rw [readByte, hg], hwf, ?_, fun u => ?_, fun u => ?_, ?_⟩
  · have := hi.order
    unfold InOrder at this ⊢
    rw [← this, hc]; simp
  · rw [← hi.rx u]
    simp only [Reading, unblock_blocked (p := .loop (.read (data ++ [b]) n)) (by simp) hnb]
    constructor
    · rintro ⟨d, k, h, -⟩; exact ⟨d, k, h⟩
    · rintro ⟨d, k, h⟩
      refine ⟨d, k, h, fun htx => ?_⟩
      obtain ⟨l, h'⟩ := (hi.tx u).2 htx
      rw [h] at h'; cases h'
  · simp only [Writing, unblock_blocked (p := .loop (.read (data ++ [b]) n)) (by simp) hnb, reduceCtorEq, iff_false]
    rintro ⟨l, h, hne⟩
    exact hne ((hi.tx u).1 ⟨l, h⟩)
  · intro u hu
    cases hu
    exact ⟨_, unblock_self⟩

theorem writeByte_inv (hi : Inv s) {b : Byte} {left : List Byte}
    (hpc : s.pc t = .loop (.write (b :: left)) ∨ s.pc t = .ready (.write (b :: left)))
    (hf : fifoFull s.fifo = false) : ∃ s', writeByte s t b left = .ok s' ∧ Inv s' := by
  obtain ⟨f, hp, hwf, hc, -⟩ := Fifo.fifoPut_spec hi.wf hf b
  have hnb := not_blocked_loop hpc
  refine ⟨_, by rw [writeByte, hp], hwf, ?_, fun u => ?_, fun u => ?_, ?_⟩
  · have := hi.order
    unfold InOrder at this ⊢
    rw [← this, hc]; simp
  · simp only [Reading, unblock_blocked (p := .loop (.write left)) (by simp) hnb, reduceCtorEq, iff_false]
    rintro ⟨d, k, h, hne⟩
    exact hne ((hi.rx u).1 ⟨d, k, h⟩)
  · rw [← hi.tx u]
    simp only [Writing, unblock_blocked (p := .loop (.write left)) (by simp) hnb]
    constructor
    · rintro ⟨l, h, -⟩; exact ⟨l, h⟩
    · rintro ⟨l, h⟩
      refine ⟨l, h, fun hrx => ?_⟩
      obtain ⟨d, k, h'⟩ := (hi.rx u).2 hrx
      rw [h] at h'; cases h'
  · intro u hu
    cases hu
    exact ⟨_, unblock_self⟩

theorem writeByte_full (hi : Inv s) {b : Byte} {l : List Byte}
    (hf : fifoFull s.fifo = true) : ∃ s', writeByte s t b l = .ok s' ∧ ¬ InOrder s' := by
  obtain ⟨f, c, rest, hp, -, hc, hc', -⟩ := Fifo.fifoPut_full hi.wf hf b
  refine ⟨_, by rw [writeByte, hp], fun ho => ?_⟩
  have h := hi.order
  unfold InOrder at h ho
  rw [← h, hc, hc'] at ho
  have := congrArg List.length ho
  simp at this

/-! ## Tasks that start, wait or leave -/

theorem inv_setPc (hi : Inv s) {p : Pc} (r : Option Tid)
    (ht : ∀ c, s.pc t ≠ .blocked c) (hp : ∀ c, p ≠ .blocked c)
    (hr : r = none ∨ r = some t ∧ ∃ c, p = .loop c) :
    Inv { s with pc := setPc s.pc t p, running := r } := by
  have hb : ∀ u c, setPc s.pc t p u = .blocked c ↔ s.pc u = .blocked c := by
    intro u c
    by_cases he : u = t
    · subst he; simp [hp c, ht c]
    · rw [setPc_ne p he]
  refine ⟨hi.wf, hi.order, fun u => ?_, fun u => ?_, fun u hu => ?_⟩
  · rw [← hi.rx u]; simp only [Reading, hb]
  · rw [← hi.tx u]; simp only [Writing, hb]
  · rcases hr with rfl | ⟨rfl, c, rfl⟩
    · cases hu
    · cases hu; exact ⟨c, setPc_self ..⟩

theorem inv_wait_read (hi : Inv s) {data : List Byte} {n : Nat}
    (ht : ∀ c, s.pc t ≠ .blocked c) (h : s.rxwaiter = none) :
    Inv { s with rxwaiter := some t, pc := setPc s.pc t (.blocked (.read data n)), running := none } := by
  refine ⟨hi.wf, hi.order, fun u => ?_, fun u => ?_, by simp⟩
  · by_cases he : u = t
    · subst he; simp [Reading]
    · have hu := hi.rx u
      rw [h] at hu
      simpa [Reading, setPc_ne _ he, Ne.symm he] using hu
  · rw [← hi.tx u]
    by_cases he : u = t
    · subst he; simp [Writing, ht]
    · simp [Writing, setPc_ne _ he]

theorem inv_wait_write (hi : Inv s) {left : List Byte}
    (ht : ∀ c, s.pc t ≠ .blocked c) (h : s.txwaiter = none) :
    Inv { s with txwaiter := some t, pc := setPc s.pc t (.blocked (.write left)), running := none } := by
  refine ⟨hi.wf, hi.order, fun u => ?_, fun u => ?_, by simp⟩
  · rw [← hi.rx u]
    by_cases he : u = t
    · subst he; simp [Reading, ht]
    · simp [Reading, setPc_ne _ he]
  · by_cases he : u = t
    · subst he; simp [Writing]
    · have hu := hi.tx u
      rw [h] at hu
      simpa [Writing, setPc_ne _ he, Ne.symm he] using hu

theorem none_of_forall {P : Tid → Prop} (h : ∀ u, P u ↔ w = some u) :
    (∀ u, ¬ P u) ↔ w = none := by
  cases w with
  | none => simp [h]
  | some v => simp only [reduceCtorEq, iff_false]; intro hn; exact hn v ((h v).2 rfl)

/-! ## One step -/

/-- From the invariant a step meets the condition exactly when it fails no assertion and leaves
the bytes in order; it then keeps the invariant. -/
theorem step_fits (hi : Inv s) {a : Act} (he : enabled s a) :
    (Fits s a → ∃ s', step s a = .ok s' ∧ Inv s') ∧
      (¬ Fits s a → ∀ s', step s a = .ok s' → ¬ InOrder s') := by
  have hrx := none_of_forall hi.rx
  have htx := none_of_forall hi.tx
  cases a with
  | read t n =>
    refine ⟨fun _ => ⟨_, rfl, ?_⟩, fun h => absurd trivial h⟩
    exact inv_setPc hi _ (by simp [he.2]) (by simp) (.inr ⟨rfl, _, rfl⟩)
  | write t data =>
    refine ⟨fun _ => ⟨_, rfl, ?_⟩, fun h => absurd trivial h⟩
    exact inv_setPc hi _ (by simp [he.2]) (by simp) (.inr ⟨rfl, _, rfl⟩)
  | run t =>
    simp only [Fits, step, resume]
    have hnb : ∀ c, s.pc t ≠ .blocked c := by
      rcases he with hr | ⟨-, c, hc⟩
      · obtain ⟨c, hc⟩ := hi.run t hr; exact not_blocked_loop (.inl hc)
      · exact not_blocked_loop (.inr hc)
    match hpc : s.pc t with
    | .user => exact ⟨fun _ => ⟨s, rfl, hi⟩, fun h => absurd trivial h⟩
    | .blocked c => exact absurd hpc (hnb c)
    | .loop (.read data n) =>
      simp only [pipeRead]
      by_cases hn : data.length < n
      · rw [if_pos hn]
        by_cases hemp : fifoEmpty s.fifo = true
        · rw [if_pos hemp]
          simp only [hn, hemp, forall_const, hrx]
          constructor
          · intro h
            rw [h]; exact ⟨_, rfl, inv_wait_read hi hnb h⟩
          · intro h s' hs'
            have : s.rxwaiter.isSome = true := Option.isSome_iff_ne_none.2 h
            rw [if_pos this] at hs'; cases hs'
        · rw [if_neg hemp]
          simp only [Bool.not_eq_true] at hemp
          exact ⟨fun _ => readByte_inv hi (.inl hpc) hemp, fun h => absurd (by simp [hemp]) h⟩
      · rw [if_neg hn]
        exact ⟨fun _ => ⟨_, rfl, inv_setPc hi none hnb (by simp) (.inl rfl)⟩, fun h => absurd (by simp [hn]) h⟩
    | .loop (.write []) =>
      exact ⟨fun _ => ⟨_, rfl, inv_setPc hi none hnb (by simp) (.inl rfl)⟩, fun h => absurd (by simp) h⟩
    | .loop (.write (b :: left)) =>
      simp only [pipeWrite]
      by_cases hful : fifoFull s.fifo = true
      · rw [if_pos hful]
        simp only [hful, ne_eq, reduceCtorEq, not_false_eq_true, forall_const, htx]
        constructor
        · intro h
          rw [h]; exact ⟨_, rfl, inv_wait_write hi hnb h⟩
        · intro h s' hs'
          have : s.txwaiter.isSome = true := Option.isSome_iff_ne_none.2 h
          rw [if_pos this] at hs'; cases hs'
      · rw [if_neg hful]
        simp only [Bool.not_eq_true] at hful
        exact ⟨fun _ => writeByte_inv hi (.inl hpc) hful, fun h => absurd (by simp [hful]) h⟩
    | .ready (.read data n) =>
      simp only
      refine ⟨fun h => readByte_inv hi (.inr hpc) h, fun h s' hs' => ?_⟩
      have hg := Fifo.fifoGet_none.2 (by simpa using h)
      rw [readByte, hg] at hs'; cases hs'
    | .ready (.write []) => exact ⟨fun _ => ⟨s, rfl, hi⟩, fun h => absurd trivial h⟩
    | .ready (.write (b :: left)) =>
      simp only
      refine ⟨fun h => writeByte_inv hi (.inr hpc) h, fun h s' hs' => ?_⟩
      obtain ⟨s1, h1, h2⟩ := writeByte_full hi (t := t) (b := b) (l := left) (by simpa using h)
      rw [h1] at hs'; cases hs'; exact h2

theorem reach_inv (h : pipe.Reach Fits s) : Inv s := by
  refine h.inv ?_ ?_
  · rintro s ⟨buf, rfl⟩; exact pipeOpen_inv buf
  · rintro s a t hi hf ⟨he, hs⟩
    obtain ⟨s', hs', hi'⟩ := (step_fits hi he).1 hf
    have : s' = t := by
      have hs'' : step s a = .ok t := hs
      rw [hs'] at hs''; cases hs''; rfl
    exact this ▸ hi'

/-- The pipe is first in, first out: in every run whose steps meet the condition the delivered
bytes are a prefix of the bytes put, the rest of these are the contents of the fifo, and a further
step meets the condition exactly when it fails no assertion and keeps the bytes in order. -/
theorem pipe_in_order (h : pipe.Reach Fits s) :
    s.delivered <+: s.put ∧ InOrder s ∧
      ∀ a, pipe.enabled s a → (Fits s a ↔ ∃ t, pipe.step s a = .ok t ∧ InOrder t) := by
  have hi := reach_inv h
  refine ⟨⟨_, hi.order⟩, hi.order, fun a he => ?_⟩
  obtain ⟨h1, h2⟩ := step_fits hi he
  constructor
  · intro hf; obtain ⟨t, ht, hti⟩ := h1 hf; exact ⟨t, ht, hti.order⟩
  · rintro ⟨t, ht, ho⟩
    by_contra hf
    exact h2 hf t ht ho

/-- A byte written to an empty pipe is in order. -/
theorem pipe_in_order_byte : ∃ s, pipe.Reach Fits s ∧ s.put = [7] ∧ s.delivered <+: s.put ∧ InOrder s := by
  let s0 := pipeOpen fun _ => 0
  let s1 := { s0 with pc := setPc s0.pc 1 (.loop (.write [7])), running := some 1 }
  have h1 : pipe.Reach Fits s1 := Machine.Reach.tail (a := .write 1 [7]) ⟨s0, ⟨_, rfl⟩, .refl s0⟩ trivial ⟨⟨rfl, rfl⟩, rfl⟩
  have hf : Fits s1 (.run 1) := fun _ h => by cases h
  obtain ⟨s2, h2, -⟩ := (step_fits (reach_inv h1) (a := .run 1) (.inl rfl)).1 hf
  have hr : pipe.Reach Fits s2 := h1.tail hf ⟨.inl rfl, h2⟩
  have hput : s2.put = [7] := by cases h2; rfl
  exact ⟨s2, hr, hput, (pipe_in_order hr).1, (pipe_in_order hr).2.1⟩

/-- Two readers on an empty pipe: the second one finds the waiter slot taken. -/
theorem two_readers_fault :
    ∃ s, pipe.Reach Machine.Any s ∧ pipe.enabled s (.run 2) ∧ pipe.step s (.run 2) = .error .rxwaiter := by
  let s0 := pipeOpen fun _ => 0
  let s1 := { s0 with pc := setPc s0.pc 1 (.loop (.read [] 1)), running := some 1 }
  let s2 := { s1 with rxwaiter := some 1, pc := setPc s1.pc 1 (.blocked (.read [] 1)), running := none }
  let s3 := { s2 with pc := setPc s2.pc 2 (.loop (.read [] 1)), running := some 2 }
  have h1 : pipe.Steps s0 (.read 1 1) s1 := ⟨⟨rfl, rfl⟩, rfl⟩
  have h2 : pipe.Steps s1 (.run 1) s2 := ⟨.inl rfl, rfl⟩
  have h3 : pipe.Steps s2 (.read 2 1) s3 := ⟨⟨rfl, rfl⟩, rfl⟩
  refine ⟨s3, ⟨s0, ⟨_, rfl⟩, ?_⟩, .inl rfl, rfl⟩
  exact .tail (.tail (.tail (.refl s0) trivial h1) trivial h2) trivial h3

end Onix.Pipe
