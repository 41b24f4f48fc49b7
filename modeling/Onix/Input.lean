/-
Character input of `kernel/serial.c` and `kernel/keyboard.c`: a ring that the receive interrupt fills, a
lock, and one waiter. Interrupts are off in a system call, so a reader goes on until `task_block`, and the receive interrupt
comes between two such stretches.
-/
import Mathlib.Data.List.Range
import Onix.Fifo
import Onix.Lib.Machine

namespace Onix.Input

open Option List Function Onix.Lib

/-! ## Data -/

/-- `BUF_LEN` of a serial port and `BUFFER_SIZE` of the keyboard. -/
def bufLen : Nat := 64

inductive Kind
  | serial
  | keyboard
  deriving DecidableEq

inductive Pc
  | idle
  /-- on the list of the lock -/
  | locking
  /-- woken from that list -/
  | granted
  /-- in `task_block`, for a byte -/
  | waiting
  /-- in the loop: running, or woken -/
  | reading
  deriving DecidableEq

/-- A task, with the `count` of its read and the bytes it has got. -/
structure Reader where
  pc : Pc
  count : Nat
  buf : List Byte

/-- The failed assertion: `rx_waiter == NULL`, a fifo that is not empty, a task that is unblocked but does not wait,
and a `fifo_put` that does not return. -/
inductive Fault
  | waiter
  | empty
  | unblock
  | put
  deriving DecidableEq

variable {T : Type} [DecidableEq T]

/-- A port. The mutex of its lock is held as long as the lock has a holder. -/
structure State (T : Type) where
  fifo : Fifo
  holder : Option T
  lockers : List T
  waiter : Option T
  reader : T → Reader
  ret : T → Option (List Byte)

def State.setReader (s : State T) (t : T) (r : Reader) : State T := { s with reader := Function.update s.reader t r }

def State.goto (s : State T) (t : T) (c : Pc) : State T := s.setReader t { s.reader t with pc := c }

/-! ## The code -/

def wake (s : State T) (t : T) : Except Fault (State T) :=
  if (s.reader t).pc = .waiting then .ok (s.goto t .reading) else .error .unblock

def put (s : State T) (ch : Byte) : Except Fault (State T) :=
  match fifoPut s.fifo ch with
  | none => .error .put
  | some f =>
    match s.waiter with
    | none => .ok { s with fifo := f }
    | some t => wake { s with fifo := f, waiter := none } t

def cr : Byte := 13

def nl : Byte := 10

def recvData (ch : Byte) : Byte := if ch = cr then nl else ch

/-- `tty_rx_notify`; `none` where it returns a positive number and takes the key for itself. -/
def ttyRxNotify (ch : Byte) (ctrl : Bool) : Option Byte :=
  let ch := if ch = cr then nl else ch
  if ctrl = false then some ch
  -- 'c' and 'C', 'l' and 'L'
  else if ch = 99 ∨ ch = 67 then some nl
  else if ch = 108 ∨ ch = 76 then some cr
  else none

def accept : Kind → Byte → Bool → Option Byte
  | .serial, ch, _ => some (recvData ch)
  | .keyboard, ch, ctrl => ttyRxNotify ch ctrl

/-- `serial_handler` with data ready, or `keyboard_handler` with a character. -/
def receive (k : Kind) (s : State T) (ch : Byte) (ctrl : Bool) : Except Fault (State T) :=
  match accept k ch ctrl with
  | none => .ok s
  | some b => put s b

/-- `lock_release` and the return from the read. The task that has waited longest is woken. -/
def release (s : State T) (t : T) : State T :=
  let s := match s.lockers.getLast? with
    | none => s
    | some u => { s with lockers := s.lockers.dropLast }.goto u .granted
  { s with holder := none, ret := Function.update s.ret t (some (s.reader t).buf) }.goto t .idle

def State.got (s : State T) (t : T) (b : Byte) (f : Fifo) : State T :=
  { s with fifo := f }.setReader t { s.reader t with buf := (s.reader t).buf ++ [b] }

/-- The loop of a read that lacks `n` bytes, up to the next wait or the end. -/
def readLoop (k : Kind) (t : T) : Nat → State T → Except Fault (State T)
  | 0, s => .ok (release s t)
  | n + 1, s =>
    if fifoEmpty s.fifo then
      -- only `serial_read` asserts that there is no other waiter
      if k = .serial ∧ s.waiter ≠ none then .error .waiter
      else .ok ({ s with waiter := some t }.goto t .waiting)
    else
      match fifoGet s.fifo with
      | none => .error .empty
      | some (b, f) => readLoop k t n (s.got t b f)

def resumeLoop (k : Kind) (s : State T) (t : T) : Except Fault (State T) :=
  readLoop k t ((s.reader t).count - (s.reader t).buf.length) s

/-- `lock_acquire`, and the loop if the lock is free. A task that starts a read does not hold the lock. -/
def acquire (k : Kind) (s : State T) (t : T) : Except Fault (State T) :=
  match s.holder with
  | some _ => .ok ({ s with lockers := t :: s.lockers }.goto t .locking)
  | none => resumeLoop k ({ s with holder := some t }.goto t .reading) t

def read (k : Kind) (s : State T) (t : T) (count : Nat) : Except Fault (State T) := acquire k (s.setReader t ⟨.granted, count, []⟩) t

def resume (k : Kind) (s : State T) (t : T) : Except Fault (State T) :=
  match (s.reader t).pc with
  | .granted => acquire k s t
  | .reading => resumeLoop k s t
  | _ => .ok s

/-! ## The machine -/

inductive Act (T : Type)
  | read (t : T) (count : Nat)
  | resume (t : T)
  | receive (ch : Byte) (ctrl : Bool)

def step (k : Kind) (s : State T) : Act T → Except Fault (State T)
  | .read t n => read k s t n
  | .resume t => resume k s t
  | .receive ch ctrl => receive k s ch ctrl

def enabled (s : State T) : Act T → Prop
  | .read t _ => (s.reader t).pc = .idle
  | .resume t => (s.reader t).pc = .granted ∨ (s.reader t).pc = .reading
  | .receive _ _ => True

instance (s : State T) : ∀ a, Decidable (enabled s a)
  | .read t _ => inferInstanceAs (Decidable ((s.reader t).pc = .idle))
  | .resume t => inferInstanceAs (Decidable ((s.reader t).pc = .granted ∨ (s.reader t).pc = .reading))
  | .receive _ _ => inferInstanceAs (Decidable True)

def port (k : Kind) (T : Type) [DecidableEq T] : Machine (State T) (Act T) Fault where
  start s := (∃ buf, s.fifo = fifoInit buf bufLen) ∧ s.holder = none ∧ s.lockers = [] ∧ s.waiter = none ∧ ∀ t, (s.reader t).pc = .idle
  enabled := enabled
  step := step k

/-- A read that has ended: its task and count, what it returned, and the arrival numbers of these bytes. -/
structure Done (T : Type) where
  task : T
  count : Nat
  bytes : Option (List Byte)
  ids : List Nat

/-- The bytes put so far, by their arrival numbers; those dropped; the reads that have ended, the first
one first, and what the read in progress has. -/
structure History (T : Type) where
  received : List Byte
  lost : List Nat
  reads : List (Done T)
  part : List Nat

def History.given (g : History T) : List Nat := g.reads.flatMap Done.ids ++ g.part

def next (s : State T) (g : History T) : Nat := g.received.length - s.fifo.contents.length

def History.took (g : History T) (s : State T) (t : T) (count : Nat) (s' : State T) : History T :=
  let ids := List.range' (next s g) (s.fifo.contents.length - s'.fifo.contents.length)
  if (s'.reader t).pc = .idle then
    { g with reads := g.reads ++ [⟨t, count, s'.ret t, g.part ++ ids⟩], part := [] }
  else { g with part := g.part ++ ids }

def after (k : Kind) (g : History T) (s : State T) (a : Act T) (s' : State T) : History T :=
  match a with
  | .read t n => g.took s t n s'
  | .resume t => g.took s t (s.reader t).count s'
  | .receive ch ctrl =>
    match accept k ch ctrl with
    | none => g
    | some b => { g with
        received := g.received ++ [b]
        lost := if fifoFull s.fifo then g.lost ++ [next s g] else g.lost }

def logged (k : Kind) (T : Type) [DecidableEq T] : Machine (State T × History T) (Act T) Fault :=
  (port k T).record (fun _ g => g = ⟨[], [], [], []⟩) (after k)

instance (k : Kind) (x : State T × History T) (a : Act T) : Decidable ((logged k T).enabled x a) := inferInstanceAs (Decidable (enabled x.1 a))

/-! ## The invariant -/

structure Inv (s : State T) : Prop where
  wf : s.fifo.WF
  length : s.fifo.length = bufLen
  holder : ∀ t, s.holder = some t ↔ (s.reader t).pc = .waiting ∨ (s.reader t).pc = .reading
  waiter : ∀ t, s.waiter = some t ↔ (s.reader t).pc = .waiting
  dry : ∀ t, (s.reader t).pc = .waiting → s.fifo.contents = []
  le : ∀ t, s.holder = some t → (s.reader t).buf.length ≤ (s.reader t).count
  fresh : ∀ t, (s.reader t).pc = .locking ∨ (s.reader t).pc = .granted → (s.reader t).buf = []
  lockers : ∀ t, t ∈ s.lockers ↔ (s.reader t).pc = .locking
  nodup : s.lockers.Nodup
  /-- someone will take a free lock that others wait for -/
  granted : s.holder = none → s.lockers ≠ [] → ∃ t, (s.reader t).pc = .granted

/-- What is in the ring is the end of what was put; of the rest each byte was dropped or delivered once. A read that
has ended returned its bytes; the read in progress has stored its own. -/
structure Fits (s : State T) (g : History T) : Prop where
  le : s.fifo.contents.length ≤ g.received.length
  pending : g.received.drop (next s g) = s.fifo.contents
  perm : (g.given ++ g.lost).Perm (List.range (next s g))
  order : g.given.Pairwise (· < ·)
  reads : ∀ e ∈ g.reads, e.bytes = some (e.ids.map fun i => g.received.getD i 0) ∧ e.ids.length = e.count
  part : ∀ t, s.holder = some t → (s.reader t).buf = g.part.map fun i => g.received.getD i 0
  free : s.holder = none → g.part = []

variable {s s' : State T} {g : History T} {t u : T} {r : Reader} {c : Pc} {k : Kind}

@[simp] theorem setReader_self : (s.setReader t r).reader t = r := update_self ..

theorem setReader_other (h : u ≠ t) : (s.setReader t r).reader u = s.reader u := update_of_ne h ..

@[simp] theorem goto_self : (s.goto t c).reader t = { s.reader t with pc := c } := update_self ..

theorem goto_other (h : u ≠ t) : (s.goto t c).reader u = s.reader u := update_of_ne h ..

theorem goto_buf : ((s.goto t c).reader u).buf = (s.reader u).buf := by
  by_cases hu : u = t
  · subst hu
    rw [goto_self]
  · rw [goto_other hu]

omit [DecidableEq T] in
theorem Inv.sole (h : Inv s) (ht : s.holder = some t) (hu : (s.reader u).pc = .waiting ∨ (s.reader u).pc = .reading) : u = t := by
  have h1 := (h.holder u).2 hu
  rw [ht] at h1
  exact (some.inj h1).symm

/-- What the invariant says of a task that stands as `r`. -/
structure At (s : State T) (u : T) (r : Reader) : Prop where
  holder : s.holder = some u ↔ r.pc = .waiting ∨ r.pc = .reading
  waiter : s.waiter = some u ↔ r.pc = .waiting
  dry : r.pc = .waiting → s.fifo.contents = []
  le : s.holder = some u → r.buf.length ≤ r.count
  fresh : r.pc = .locking ∨ r.pc = .granted → r.buf = []
  lockers : u ∈ s.lockers ↔ r.pc = .locking

omit [DecidableEq T] in
theorem Inv.at (h : Inv s) (u : T) : At s u (s.reader u) := ⟨h.holder u, h.waiter u, h.dry u, h.le u, h.fresh u, h.lockers u⟩

/-- A task changes; what is said of the others has to be shown for the rest of the state as it is now. -/
theorem inv_setReader (hw : s.fifo.WF) (hl : s.fifo.length = bufLen) (ht : At s t r) (hu : ∀ u, u ≠ t → At s u (s.reader u))
    (hn : s.lockers.Nodup) (hg : s.holder = none → s.lockers ≠ [] → ∃ u, ((s.setReader t r).reader u).pc = .granted) :
    Inv (s.setReader t r) := by
  have h : ∀ u, At s u ((s.setReader t r).reader u) := (Function.forall_update_iff s.reader (At s)).2 ⟨ht, hu⟩
  exact ⟨hw, hl, fun u => (h u).holder, fun u => (h u).waiter, fun u => (h u).dry, fun u => (h u).le, fun u => (h u).fresh,
    fun u => (h u).lockers, hn, hg⟩

/-! ## A byte arrives -/

theorem fifoPut_contents {f : Fifo} (hw : f.WF) (b : Byte) : ∃ f', fifoPut f b = some f' ∧ f'.WF ∧ f'.length = f.length ∧
    f'.contents = (if fifoFull f then f.contents.tail else f.contents) ++ [b] := by
  cases hf : fifoFull f with
  | false =>
    obtain ⟨f', h1, h2, h3, h4⟩ := Fifo.fifoPut_spec hw hf b
    exact ⟨f', h1, h2, h4, h3⟩
  | true =>
    obtain ⟨f', c, rest, h1, h2, h3, h4, h5⟩ := Fifo.fifoPut_full hw hf b
    refine ⟨f', h1, h2, h5, ?_⟩
    rw [if_pos rfl, h3]
    exact h4

/-- The state after a byte was put: a task that waited for one goes on. -/
structure Received (s s' : State T) (b : Byte) : Prop where
  wf : s'.fifo.WF
  length : s'.fifo.length = s.fifo.length
  contents : s'.fifo.contents = (if fifoFull s.fifo then s.fifo.contents.tail else s.fifo.contents) ++ [b]
  holder : s'.holder = s.holder
  lockers : s'.lockers = s.lockers
  waiter : s'.waiter = none
  pc : ∀ t, (s'.reader t).pc = if (s.reader t).pc = .waiting then .reading else (s.reader t).pc
  buf : ∀ t, (s'.reader t).buf = (s.reader t).buf
  count : ∀ t, (s'.reader t).count = (s.reader t).count

theorem Inv.put (h : Inv s) (b : Byte) : ∃ s', put s b = .ok s' ∧ Received s s' b := by
  obtain ⟨f, hf, hw, hl, hc⟩ := fifoPut_contents h.wf b
  unfold Input.put
  rw [hf]
  cases hwait : s.waiter with
  | none =>
    refine ⟨_, rfl, hw, hl, hc, rfl, rfl, rfl, fun t => ?_, fun _ => rfl, fun _ => rfl⟩
    have ht : (s.reader t).pc ≠ .waiting := fun e => by
      rw [(h.waiter t).2 e] at hwait
      cases hwait
    rw [if_neg ht]
  | some u =>
    have hu := (h.waiter u).1 hwait
    dsimp only
    unfold wake
    rw [if_pos hu]
    refine ⟨_, rfl, hw, hl, hc, rfl, rfl, rfl, fun t => ?_, fun t => ?_, fun t => ?_⟩ <;> by_cases htu : t = u
    · subst htu
      rw [goto_self, if_pos hu]
    · have ht : (s.reader t).pc ≠ .waiting := fun e => by
        rw [(h.waiter t).2 e] at hwait
        exact htu (some.inj hwait)
      rw [goto_other htu, if_neg ht]
    · subst htu
      rw [goto_self]
    · rw [goto_other htu]
    · subst htu
      rw [goto_self]
    · rw [goto_other htu]

omit [DecidableEq T] in
theorem Received.inv {b : Byte} (hr : Received s s' b) (h : Inv s) : Inv s' := by
  have hwait : ∀ t, (s'.reader t).pc ≠ .waiting := fun t e => by
    rw [hr.pc] at e
    split at e
    · cases e
    · rename_i hn
      exact hn e
  have hread : ∀ t, (s'.reader t).pc = .reading ↔ (s.reader t).pc = .waiting ∨ (s.reader t).pc = .reading := fun t => by
    rw [hr.pc]
    split
    · rename_i hp
      simp [hp]
    · rename_i hp
      simp [hp]
  have hsame : ∀ t, ∀ c : Pc, c ≠ .waiting → c ≠ .reading → ((s'.reader t).pc = c ↔ (s.reader t).pc = c) := fun t c h1 h2 => by
    rw [hr.pc]
    split
    · rename_i hp
      rw [hp]
      exact ⟨fun e => absurd e.symm h2, fun e => absurd e.symm h1⟩
    · exact .rfl
  refine ⟨hr.wf, hr.length.trans h.length, fun t => ?_, fun t => ?_, fun t e => absurd e (hwait t), fun t ht => ?_, fun t => ?_, fun t => ?_,
    by rw [hr.lockers]; exact h.nodup, fun hn hl => ?_⟩
  · rw [hr.holder, h.holder, ← hread]
    exact ⟨.inr, fun e => e.resolve_left (hwait t)⟩
  · rw [hr.waiter]
    exact ⟨nofun, fun e => absurd e (hwait t)⟩
  · rw [hr.buf, hr.count]
    exact h.le t (hr.holder ▸ ht)
  · rw [hsame t .locking nofun nofun, hsame t .granted nofun nofun, hr.buf]
    exact h.fresh t
  · rw [hr.lockers, h.lockers, hsame t .locking nofun nofun]
  · obtain ⟨t, ht⟩ := h.granted (hr.holder ▸ hn) (hr.lockers ▸ hl)
    exact ⟨t, (hsame t .granted nofun nofun).2 ht⟩

theorem getD_append {l : List Byte} {i : Nat} (b : Byte) (h : i < l.length) : (l ++ [b]).getD i 0 = l.getD i 0 := by
  rw [getD_eq_getElem?_getD, getD_eq_getElem?_getD, getElem?_append_left h]

omit [DecidableEq T] in
theorem Fits.given_lt (h : Fits s g) {i : Nat} (hi : i ∈ g.given) : i < next s g :=
  mem_range.1 (h.perm.mem_iff.1 (mem_append_left _ hi))

omit [DecidableEq T] in
theorem next_le : next s g ≤ g.received.length := Nat.sub_le ..

theorem map_getD_append {l : List Byte} (b : Byte) {ids : List Nat} (h : ∀ i ∈ ids, i < l.length) :
    (ids.map fun i => (l ++ [b]).getD i 0) = ids.map fun i => l.getD i 0 :=
  map_congr_left fun i hi => getD_append b (h i hi)

omit [DecidableEq T] in
theorem Fits.receive {b : Byte} (h : Fits s g) (hi : Inv s) (hr : Received s s' b) :
    Fits s' { g with
      received := g.received ++ [b]
      lost := if fifoFull s.fifo then g.lost ++ [next s g] else g.lost } := by
  have hle := h.le
  have hlt : ∀ i ∈ g.given, i < g.received.length := fun i hm => Nat.lt_of_lt_of_le (h.given_lt hm) next_le
  have hreads : ∀ e ∈ g.reads, e.bytes = some (e.ids.map fun i => (g.received ++ [b]).getD i 0) ∧ e.ids.length = e.count := by
    intro e he
    obtain ⟨h1, h2⟩ := h.reads e he
    refine ⟨?_, h2⟩
    rw [h1, map_getD_append b fun i hm => hlt i (mem_append_left _ (mem_flatMap.2 ⟨e, he, hm⟩))]
  have hpart : ∀ t, s'.holder = some t → (s'.reader t).buf = g.part.map fun i => (g.received ++ [b]).getD i 0 := by
    intro t ht
    rw [hr.buf, h.part t (hr.holder ▸ ht), map_getD_append b fun i hm => hlt i (mem_append_right _ hm)]
  have hfree : s'.holder = none → g.part = [] := fun hn => h.free (hr.holder ▸ hn)
  cases hf : fifoFull s.fifo with
  | false =>
    have hc : s'.fifo.contents = s.fifo.contents ++ [b] := by
      rw [hr.contents, hf]
      rfl
    have hn : next s' { g with received := g.received ++ [b] } = next s g := by
      unfold next
      rw [hc, length_append, length_append]
      omega
    refine ⟨?_, ?_, ?_, h.order, hreads, hpart, hfree⟩
    · rw [hc, length_append, length_append]
      omega
    · show (g.received ++ [b]).drop (next s' { g with received := g.received ++ [b] }) = _
      rw [hn, drop_append_of_le_length next_le, h.pending, hc]
    · show (g.given ++ g.lost).Perm (range (next s' { g with received := g.received ++ [b] }))
      rw [hn]
      exact h.perm
  | true =>
    have hfull := (Fifo.fifoFull_iff hi.wf).1 hf
    rw [hi.length, bufLen] at hfull
    have hc : s'.fifo.contents = s.fifo.contents.tail ++ [b] := by
      rw [hr.contents, hf]
      rfl
    have hn : next s' { g with received := g.received ++ [b] } = next s g + 1 := by
      unfold next
      rw [hc, length_append, length_append, length_tail]
      omega
    refine ⟨?_, ?_, ?_, h.order, hreads, hpart, hfree⟩
    · rw [hc, length_append, length_append, length_tail]
      omega
    · show (g.received ++ [b]).drop (next s' { g with received := g.received ++ [b] }) = _
      have hlast : next s g + 1 ≤ g.received.length := by
        unfold next
        omega
      rw [hn, drop_append_of_le_length hlast, ← tail_drop, h.pending, hc]
    · show (g.given ++ (g.lost ++ [next s g])).Perm (range (next s' { g with received := g.received ++ [b] }))
      rw [hn, range_succ, ← append_assoc]
      exact h.perm.append_right _

/-! ## A reader goes on -/

def State.took (s : State T) (t : T) (bs : List Byte) (f : Fifo) : State T :=
  { s with fifo := f }.setReader t { s.reader t with buf := (s.reader t).buf ++ bs }

theorem took_nil : s.took t [] s.fifo = s := by
  unfold State.took State.setReader
  rw [append_nil]
  rw [update_eq_self]

theorem got_took {b : Byte} {bs : List Byte} {f f' : Fifo} : (s.got t b f).took t bs f' = s.took t (b :: bs) f' := by
  unfold State.got State.took
  rw [setReader_self]
  unfold State.setReader
  rw [update_idem, append_assoc]
  rfl

def State.await (s : State T) (t : T) : State T := { s with waiter := some t }.goto t .waiting

theorem readLoop_spec : ∀ (n : Nat) (s : State T), s.fifo.WF → s.waiter = none → ∃ bs f, f.WF ∧ f.length = s.fifo.length ∧
    s.fifo.contents = bs ++ f.contents ∧ bs.length ≤ n ∧
      ((bs.length = n ∧ readLoop k t n s = .ok (release (s.took t bs f) t)) ∨
        (bs.length < n ∧ f.contents = [] ∧ readLoop k t n s = .ok ((s.took t bs f).await t)))
  | 0, s, hw, _ => ⟨[], s.fifo, hw, rfl, rfl, Nat.le_refl _, .inl ⟨rfl, by rw [took_nil]; rfl⟩⟩
  | n + 1, s, hw, hn => by
    unfold readLoop
    cases he : fifoEmpty s.fifo with
    | true =>
      have hnil := (Fifo.fifoEmpty_iff hw).1 he
      refine ⟨[], s.fifo, hw, rfl, rfl, Nat.zero_le _, .inr ⟨Nat.succ_pos n, hnil, ?_⟩⟩
      rw [if_pos rfl, if_neg (fun h => h.2 hn), took_nil]
      rfl
    | false =>
      obtain ⟨b, f, hg, hwf, hc, hl⟩ := Fifo.fifoGet_spec hw he
      obtain ⟨bs, f', hwf', hl', hc', hle, hor⟩ := readLoop_spec n (s.got t b f) hwf hn
      have hc' : f.contents = bs ++ f'.contents := hc'
      rw [if_neg Bool.false_ne_true, hg]
      dsimp only
      refine ⟨b :: bs, f', hwf', hl'.trans hl, by rw [hc, hc', cons_append], Nat.succ_le_succ hle, ?_⟩
      rcases hor with ⟨h1, h2⟩ | ⟨h1, h2, h3⟩
      · exact .inl ⟨congrArg Nat.succ h1, by rw [h2, got_took]⟩
      · exact .inr ⟨Nat.succ_lt_succ h1, h2, by rw [h3, got_took]⟩

theorem Inv.took (h : Inv s) (ht : (s.reader t).pc = .reading) {bs : List Byte} {f : Fifo} (hw : f.WF)
    (hl : f.length = s.fifo.length) (hle : (s.reader t).buf.length + bs.length ≤ (s.reader t).count) : Inv (s.took t bs f) := by
  have hhold := (h.holder t).2 (.inr ht)
  refine inv_setReader hw (hl.trans h.length) ⟨h.holder t, h.waiter t, fun e => ?_, fun _ => ?_, fun e => ?_, h.lockers t⟩
    (fun u hut => { h.at u with dry := fun e => absurd (h.sole hhold (.inl e)) hut }) h.nodup
    fun hn _ => nomatch hhold.symm.trans (show s.holder = none from hn)
  · cases e.symm.trans ht
  · rw [length_append]
    exact hle
  · rw [show (s.reader t).pc = .reading from ht] at e
    exact e.elim nofun nofun

theorem Inv.await (h : Inv s) (ht : (s.reader t).pc = .reading) (hnil : s.fifo.contents = []) : Inv (s.await t) := by
  have hhold := (h.holder t).2 (.inr ht)
  refine inv_setReader h.wf h.length ⟨⟨fun _ => .inl rfl, fun _ => hhold⟩, ⟨fun _ => rfl, fun _ => rfl⟩, fun _ => hnil, h.le t,
      fun e => e.elim nofun nofun, (h.lockers t).trans ⟨fun e => (nomatch e.symm.trans ht), nofun⟩⟩
    (fun u hut => { h.at u with waiter := ?_ }) h.nodup fun hn _ => nomatch hhold.symm.trans (show s.holder = none from hn)
  exact ⟨fun e => absurd (some.inj e).symm hut, fun e => absurd (h.sole hhold (.inl e)) hut⟩

/-- The end of a read: the lock is free, and the task that has waited longest for it is woken. -/
structure Released (s s' : State T) (t : T) : Prop where
  fifo : s'.fifo = s.fifo
  holder : s'.holder = none
  waiter : s'.waiter = s.waiter
  lockers : s'.lockers = s.lockers.dropLast
  ret : s'.ret t = some (s.reader t).buf
  self : (s'.reader t).pc = .idle
  other : ∀ u, u ≠ t → (s'.reader u).pc = if s.lockers.getLast? = some u then .granted else (s.reader u).pc
  buf : ∀ u, (s'.reader u).buf = (s.reader u).buf

theorem release_released (ht : t ∉ s.lockers) : Released s (release s t) t := by
  unfold release
  cases hl : s.lockers.getLast? with
  | none =>
    have hnil := getLast?_eq_none_iff.1 hl
    refine ⟨rfl, rfl, rfl, by show s.lockers = _; rw [hnil]; rfl, update_self .., by rw [goto_self], fun u hu => ?_, fun u => goto_buf⟩
    rw [hl, if_neg nofun, goto_other hu]
  | some v =>
    have hv : v ∈ s.lockers := mem_of_getLast? hl
    have hvt : t ≠ v := fun e => ht (e ▸ hv)
    refine ⟨rfl, rfl, rfl, rfl, ?_, by rw [goto_self], fun u hu => ?_, fun u => goto_buf.trans goto_buf⟩
    · show update _ _ _ _ = _
      rw [update_self, goto_other hvt]
    · rw [hl, goto_other hu]
      by_cases huv : u = v
      · rw [huv, goto_self, if_pos rfl]
      · rw [goto_other huv, if_neg fun e => huv (some.inj e).symm]

theorem Released.inv (hr : Released s s' t) (h : Inv s) (ht : (s.reader t).pc = .reading) : Inv s' := by
  have hhold := (h.holder t).2 (.inr ht)
  have hlast : ∀ u, s.lockers.getLast? = some u → (s.reader u).pc = .locking := fun u hu =>
    (h.lockers u).1 (mem_of_getLast? hu)
  -- nobody reads or waits for a byte any more
  have hpc : ∀ u, (s'.reader u).pc ≠ .waiting ∧ (s'.reader u).pc ≠ .reading := fun u => by
    by_cases hut : u = t
    · rw [hut, hr.self]
      exact ⟨nofun, nofun⟩
    · rw [hr.other u hut]
      split
      · exact ⟨nofun, nofun⟩
      · exact ⟨fun e => hut (h.sole hhold (.inl e)), fun e => hut (h.sole hhold (.inr e))⟩
  have hmem : ∀ u, u ∈ s.lockers.dropLast ↔ u ∈ s.lockers ∧ s.lockers.getLast? ≠ some u := fun u => by
    rcases eq_nil_or_concat s.lockers with hl | ⟨l, v, hl⟩
    · rw [hl]
      simp
    · have hnd := h.nodup
      rw [concat_eq_append] at hl
      rw [hl, nodup_append] at hnd
      have hv : ∀ x ∈ l, x ≠ v := fun x hx => hnd.2.2 x hx v (mem_singleton_self _)
      rw [hl, dropLast_concat, getLast?_concat, mem_append, mem_singleton]
      constructor
      · exact fun hu => ⟨.inl hu, fun e => hv u hu (some.inj e).symm⟩
      · rintro ⟨hu | hu, hne⟩
        · exact hu
        · exact absurd (congrArg some hu.symm) hne
  refine ⟨hr.fifo ▸ h.wf, hr.fifo ▸ h.length, fun u => ?_, fun u => ?_, fun u hu => absurd hu (hpc u).1, fun u hu => ?_, fun u hu => ?_,
    fun u => ?_, by rw [hr.lockers]; exact h.nodup.sublist (dropLast_sublist _), fun _ hne => ?_⟩
  · rw [hr.holder]
    exact ⟨nofun, fun e => (e.elim (hpc u).1 (hpc u).2).elim⟩
  · rw [hr.waiter, h.waiter]
    refine ⟨fun e => ?_, fun e => absurd e (hpc u).1⟩
    have hut := h.sole hhold (.inl e)
    subst hut
    cases e.symm.trans ht
  · rw [hr.holder] at hu
    cases hu
  · rw [hr.buf]
    have hut : u ≠ t := fun e => by
      rw [e, hr.self] at hu
      exact hu.elim nofun nofun
    rw [hr.other u hut] at hu
    split at hu
    · rename_i hl
      exact h.fresh u (.inl (hlast u hl))
    · exact h.fresh u hu
  · rw [hr.lockers, hmem, h.lockers]
    by_cases hut : u = t
    · rw [hut, hr.self, ht]
      exact ⟨fun e => (nomatch e.1), nofun⟩
    · rw [hr.other u hut]
      by_cases hl : s.lockers.getLast? = some u
      · rw [if_pos hl]
        exact ⟨fun e => absurd hl e.2, nofun⟩
      · rw [if_neg hl]
        exact ⟨fun e => e.1, fun e => ⟨e, hl⟩⟩
  · have hne' : s.lockers ≠ [] := fun e => hne (by rw [hr.lockers, e]; rfl)
    refine ⟨s.lockers.getLast hne', ?_⟩
    have hlast' := getLast?_eq_some_getLast hne'
    have hnt : s.lockers.getLast hne' ≠ t := fun e => by
      have h1 := hlast _ hlast'
      rw [e, ht] at h1
      cases h1
    rw [hr.other _ hnt, if_pos hlast']

/-! ## The history of a stretch -/

theorem Fits.took (h : Fits s g) (hi : Inv s) (ht : (s.reader t).pc = .reading) {bs : List Byte} {f : Fifo}
    (hc : s.fifo.contents = bs ++ f.contents) :
    Fits (s.took t bs f) { g with part := g.part ++ range' (next s g) (s.fifo.contents.length - f.contents.length) } := by
  have hhold := (hi.holder t).2 (.inr ht)
  have hlen : s.fifo.contents.length - f.contents.length = bs.length := by
    rw [hc, length_append]
    omega
  have hle := h.le
  rw [hlen]
  have hsplit : s.fifo.contents.length = bs.length + f.contents.length := by rw [hc, length_append]
  have hnext : next (s.took t bs f) { g with part := g.part ++ range' (next s g) bs.length } = next s g + bs.length := by
    show g.received.length - f.contents.length = g.received.length - s.fifo.contents.length + bs.length
    omega
  have hgiven : History.given { g with part := g.part ++ range' (next s g) bs.length } =
      g.given ++ range' (next s g) bs.length := by
    unfold History.given
    rw [append_assoc]
  have hdrop : g.received.drop (next s g) = bs ++ f.contents := h.pending.trans hc
  refine ⟨?_, ?_, ?_, ?_, h.reads, fun u hu => ?_, fun hn => ?_⟩
  · show f.contents.length ≤ g.received.length
    omega
  · rw [hnext]
    show g.received.drop (next s g + bs.length) = f.contents
    rw [← drop_drop, hdrop, drop_left]
  · rw [hnext, hgiven]
    have hr : range (next s g + bs.length) = range (next s g) ++ range' (next s g) bs.length := by
      rw [range_eq_range', range_eq_range', ← range'_append]
      simp only [Nat.one_mul, Nat.zero_add]
    rw [hr]
    rw [append_assoc]
    exact ((perm_append_comm).append_left _).trans (by rw [← append_assoc]; exact h.perm.append_right _)
  · rw [hgiven, pairwise_append]
    refine ⟨h.order, pairwise_lt_range', fun i hm j hj => ?_⟩
    have h1 := h.given_lt hm
    have h2 := (mem_range'_1.1 hj).1
    omega
  · have hut : u = t := some.inj ((show s.holder = some u from hu).symm.trans hhold)
    subst hut
    unfold State.took
    rw [setReader_self, map_append]
    dsimp only
    rw [← h.part u hhold]
    congr 1
    -- the bytes themselves
    refine ext_getElem (by simp) fun i h1 h2 => ?_
    rw [getElem_map, getElem_range', Nat.one_mul, getD_eq_getElem?_getD, ← getElem?_drop, hdrop,
      getElem?_append_left h1, getElem?_eq_getElem h1, getD_some]
  · cases hhold.symm.trans (show s.holder = none from hn)

omit [DecidableEq T] in
theorem Fits.same (h : Fits s g) (hf : s'.fifo = s.fifo) (hh : ∀ u, s'.holder = some u → s.holder = some u ∧ (s'.reader u).buf = (s.reader u).buf)
    (hn : s'.holder = none → s.holder = none) : Fits s' g := by
  have hnext : next s' g = next s g := by
    unfold next
    rw [hf]
  refine ⟨hf ▸ h.le, by rw [hnext, hf]; exact h.pending, by rw [hnext]; exact h.perm, h.order, h.reads, fun u hu => ?_, fun hu => h.free (hn hu)⟩
  obtain ⟨h1, h2⟩ := hh u hu
  rw [h2]
  exact h.part u h1

theorem Fits.done (h : Fits s g) (hr : Released s s' t) (hh : s.holder = some t) (hlen : (s.reader t).buf.length = (s.reader t).count) :
    Fits s' { g with reads := g.reads ++ [⟨t, (s.reader t).count, s'.ret t, g.part⟩], part := [] } := by
  have hgiven : History.given { g with reads := g.reads ++ [⟨t, (s.reader t).count, s'.ret t, g.part⟩], part := [] } = g.given := by
    unfold History.given
    simp
  have hnext : next s' { g with reads := g.reads ++ [⟨t, (s.reader t).count, s'.ret t, g.part⟩], part := [] } = next s g := by
    unfold next
    rw [hr.fifo]
  have hpart := h.part t hh
  refine ⟨hr.fifo ▸ h.le, by rw [hnext, hr.fifo]; exact h.pending, by rw [hnext, hgiven]; exact h.perm, by rw [hgiven]; exact h.order,
    fun e he => ?_, fun u hu => ?_, fun _ => rfl⟩
  · rcases mem_append.1 he with he | he
    · exact h.reads e he
    · rw [mem_singleton.1 he]
      refine ⟨by rw [hr.ret, hpart], ?_⟩
      rw [← hlen, hpart, length_map]
  · rw [hr.holder] at hu
    cases hu

theorem Inv.resumeLoop (h : Inv s) (hf : Fits s g) (ht : (s.reader t).pc = .reading) :
    ∃ s', resumeLoop k s t = .ok s' ∧ Inv s' ∧ Fits s' (g.took s t (s.reader t).count s') := by
  have hhold := (h.holder t).2 (.inr ht)
  have hwait : s.waiter = none := by
    cases hw : s.waiter with
    | none => rfl
    | some u =>
      have hu := (h.waiter u).1 hw
      have hut := h.sole hhold (.inl hu)
      subst hut
      cases hu.symm.trans ht
  have hcount := h.le t hhold
  obtain ⟨bs, f, hw, hl, hc, hle, hor⟩ := readLoop_spec (k := k) (t := t) ((s.reader t).count - (s.reader t).buf.length) s h.wf hwait
  have h1 : Inv (s.took t bs f) := h.took ht hw hl (by omega)
  have hf1 := hf.took h ht hc
  have ht1 : ((s.took t bs f).reader t).pc = .reading := by
    unfold State.took
    rw [setReader_self]
    exact ht
  rcases hor with ⟨hlen, hloop⟩ | ⟨-, hnil, hloop⟩
  · have hnl : t ∉ (s.took t bs f).lockers := fun hm => by
      cases ((h1.lockers t).1 hm).symm.trans ht1
    have hr := release_released hnl
    refine ⟨_, hloop, hr.inv h1 ht1, ?_⟩
    have hlen1 : ((s.took t bs f).reader t).buf.length = ((s.took t bs f).reader t).count := by
      unfold State.took
      rw [setReader_self]
      simp only [length_append]
      omega
    have hd := hf1.done hr hhold hlen1
    have hcnt : ((s.took t bs f).reader t).count = (s.reader t).count := by
      unfold State.took
      rw [setReader_self]
    unfold History.took
    rw [if_pos hr.self, hr.fifo]
    rw [hcnt] at hd
    exact hd
  · refine ⟨_, hloop, h1.await ht1 hnil, ?_⟩
    have hpc : (((s.took t bs f).await t).reader t).pc ≠ .idle := by
      unfold State.await
      rw [goto_self]
      exact nofun
    unfold History.took
    rw [if_neg hpc]
    refine hf1.same rfl (fun u hu => ⟨hu, ?_⟩) fun hn => hn
    exact goto_buf

/-! ## The lock -/

theorem Inv.take (h : Inv s) (ht : (s.reader t).pc = .granted) (hn : s.holder = none) :
    Inv ({ s with holder := some t }.goto t .reading) := by
  have hpc : ∀ u, (s.reader u).pc ≠ .waiting ∧ (s.reader u).pc ≠ .reading := fun u =>
    ⟨fun e => (nomatch hn.symm.trans ((h.holder u).2 (.inl e))), fun e => (nomatch hn.symm.trans ((h.holder u).2 (.inr e)))⟩
  refine inv_setReader h.wf h.length ⟨⟨fun _ => .inr rfl, fun _ => rfl⟩, (h.waiter t).trans ⟨fun e => absurd e (hpc t).1, nofun⟩, nofun,
      fun _ => ?_, fun e => e.elim nofun nofun, (h.lockers t).trans ⟨fun e => (nomatch e.symm.trans ht), nofun⟩⟩
    (fun u hut => { h.at u with holder := ?_, le := fun e => absurd (some.inj e).symm hut }) h.nodup nofun
  · show (s.reader t).buf.length ≤ _
    rw [h.fresh t (.inr ht)]
    exact Nat.zero_le _
  · exact ⟨fun e => absurd (some.inj e).symm hut, fun e => (e.elim (hpc u).1 (hpc u).2).elim⟩

theorem Fits.take (h : Fits s g) (hn : s.holder = none) (hb : (s.reader t).buf = []) :
    Fits ({ s with holder := some t }.goto t .reading) g := by
  refine ⟨h.le, h.pending, h.perm, h.order, h.reads, fun u hu => ?_, nofun⟩
  cases (show some t = some u from hu)
  rw [goto_buf]
  rw [hb, h.free hn]
  rfl

theorem Inv.queue (h : Inv s) (ht : (s.reader t).pc = .granted) (hn : s.holder ≠ none) :
    Inv ({ s with lockers := t :: s.lockers }.goto t .locking) := by
  have hno : s.holder ≠ some t := fun e => by
    have h1 := (h.holder t).1 e
    rw [ht] at h1
    exact h1.elim nofun nofun
  have hnl : t ∉ s.lockers := fun hm => nomatch ((h.lockers t).1 hm).symm.trans ht
  refine inv_setReader h.wf h.length ⟨⟨fun e => absurd e hno, fun e => e.elim nofun nofun⟩,
      (h.waiter t).trans ⟨fun e => (nomatch e.symm.trans ht), nofun⟩, nofun, fun e => absurd e hno, fun _ => h.fresh t (.inr ht),
      ⟨fun _ => rfl, fun _ => mem_cons_self ..⟩⟩
    (fun u hut => { h.at u with lockers := ?_ }) (nodup_cons.2 ⟨hnl, h.nodup⟩) fun e => absurd e hn
  rw [mem_cons, h.lockers]
  exact or_iff_right hut

theorem Inv.acquire (h : Inv s) (hf : Fits s g) (ht : (s.reader t).pc = .granted) :
    ∃ s', acquire k s t = .ok s' ∧ Inv s' ∧ Fits s' (g.took s t (s.reader t).count s') := by
  by_cases hn : s.holder = none
  · obtain ⟨s', h1, h2, h3⟩ := (h.take ht hn).resumeLoop (k := k) (hf.take hn (h.fresh t (.inr ht))) (by rw [goto_self])
    rw [goto_self] at h3
    refine ⟨s', ?_, h2, h3⟩
    unfold Input.acquire
    rw [hn]
    exact h1
  · have hq : Input.acquire k s t = .ok ({ s with lockers := t :: s.lockers }.goto t .locking) := by
      obtain ⟨v, hv⟩ := ne_none_iff_exists'.1 hn
      unfold Input.acquire
      rw [hv]
    refine ⟨_, hq, h.queue ht hn, ?_⟩
    have hpc : (({ s with lockers := t :: s.lockers }.goto t .locking).reader t).pc ≠ .idle := by
      rw [goto_self]
      exact nofun
    unfold History.took
    rw [if_neg hpc]
    show Fits _ { g with part := g.part ++ range' (next s g) (s.fifo.contents.length - s.fifo.contents.length) }
    rw [Nat.sub_self, range'_zero, append_nil]
    exact hf.same rfl (fun u hu => ⟨hu, goto_buf⟩) fun e => e

theorem Inv.begin (h : Inv s) (ht : (s.reader t).pc = .idle) (n : Nat) : Inv (s.setReader t ⟨.granted, n, []⟩) := by
  have hpc : ∀ c : Pc, c ≠ .idle → c ≠ .granted → ((s.reader t).pc = c ↔ Pc.granted = c) := fun c h1 h2 =>
    ⟨fun e => absurd (e.symm.trans ht) h1, fun e => absurd e.symm h2⟩
  refine inv_setReader h.wf h.length ⟨(h.holder t).trans (or_congr (hpc _ nofun nofun) (hpc _ nofun nofun)),
      (h.waiter t).trans (hpc _ nofun nofun), nofun, fun _ => Nat.zero_le _, fun _ => rfl, (h.lockers t).trans (hpc _ nofun nofun)⟩
    (fun u _ => h.at u) h.nodup fun _ _ => ⟨t, by rw [setReader_self]⟩

theorem step_inv {a : Act T} (h : Inv s) (hf : Fits s g) (he : enabled s a) :
    ∃ s', step k s a = .ok s' ∧ Inv s' ∧ Fits s' (after k g s a s') := by
  cases a with
  | read t n =>
    have hf' : Fits (s.setReader t ⟨.granted, n, []⟩) g := hf.same rfl (fun u hu => ⟨hu, by
      have hut : u ≠ t := fun e => by
        subst e
        have h1 := (h.holder u).1 hu
        rw [he] at h1
        exact h1.elim nofun nofun
      rw [setReader_other hut]⟩) fun e => e
    obtain ⟨s', h1, h2, h3⟩ := (h.begin he n).acquire (k := k) hf' (by rw [setReader_self])
    rw [setReader_self] at h3
    exact ⟨s', h1, h2, h3⟩
  | resume t =>
    rcases he with he | he
    · obtain ⟨s', h1, h2⟩ := h.acquire (k := k) hf he
      refine ⟨s', ?_, h2⟩
      show resume k s t = _
      unfold resume
      rw [he]
      exact h1
    · obtain ⟨s', h1, h2⟩ := h.resumeLoop (k := k) hf he
      refine ⟨s', ?_, h2⟩
      show resume k s t = _
      unfold resume
      rw [he]
      exact h1
  | receive ch ctrl =>
    show ∃ s', receive k s ch ctrl = .ok s' ∧ _
    unfold receive after
    dsimp only
    cases accept k ch ctrl with
    | none => exact ⟨s, rfl, h, hf⟩
    | some b =>
      obtain ⟨s', h1, hr⟩ := h.put b
      exact ⟨s', h1, hr.inv h, hf.receive h hr⟩

/-! ## Every run -/

theorem start_inv (hs : (port k T).start s) : Inv s ∧ Fits s ⟨[], [], [], []⟩ := by
  obtain ⟨⟨buf, hb⟩, hh, hl, hw, hpc⟩ := hs
  have hc : s.fifo.contents = [] := by
    rw [hb]
    exact Fifo.contents_init ..
  have hn : next s ⟨[], [], [], []⟩ = 0 := Nat.zero_sub _
  have hno : ∀ t c, c ≠ .idle → (s.reader t).pc ≠ c := fun t c hne e => hne (e.symm.trans (hpc t))
  refine ⟨⟨?_, ?_, fun t => ?_, fun t => ?_, fun t e => absurd e (hno t _ nofun), fun t e => ?_, fun t e => ?_, fun t => ?_, ?_,
    fun _ e => absurd hl e⟩, ⟨?_, ?_, ?_, .nil, nofun, fun t e => ?_, fun _ => rfl⟩⟩
  · rw [hb]
    exact Fifo.init_wf _ (by decide)
  · rw [hb]
    rfl
  · rw [hh]
    exact ⟨nofun, fun e => (e.elim (hno t _ nofun) (hno t _ nofun)).elim⟩
  · rw [hw]
    exact ⟨nofun, fun e => absurd e (hno t _ nofun)⟩
  · cases hh.symm.trans e
  · exact (e.elim (hno t _ nofun) (hno t _ nofun)).elim
  · rw [hl]
    exact ⟨nofun, fun e => absurd e (hno t _ nofun)⟩
  · rw [hl]
    exact .nil
  · exact Nat.le_of_eq (congrArg length hc)
  · rw [hc]
    exact drop_nil
  · rw [hn]
    exact .refl _
  · cases hh.symm.trans e

theorem reach_inv {x : State T × History T} (h : (logged k T).Reach Machine.Any x) : Inv x.1 ∧ Fits x.1 x.2 :=
  h.inv (I := fun x => Inv x.1 ∧ Fits x.1 x.2) (fun x hs => by
    have h1 := start_inv hs.1
    rw [← hs.2] at h1
    exact h1) fun x a y hi _ hst => by
    obtain ⟨⟨he, hs⟩, hg⟩ := Machine.record_steps.1 hst
    obtain ⟨s', hs', h1, h2⟩ := step_inv (k := k) hi.1 hi.2 he
    cases hs.symm.trans hs'
    rw [hg]
    exact ⟨h1, h2⟩

/-- In every run on a port: a read that has ended returned `count` bytes, those with its arrival numbers, and the one in
progress has stored its own; the reads follow each other whole, in the order of arrival, no byte twice; what was put is
delivered, still in the ring, or dropped as the oldest of a full one; a task that waits is the waiter, at an empty ring; and no
assertion fails. -/
theorem reads_in_order {x : State T × History T} (h : (logged k T).Reach Machine.Any x) :
    (∀ e ∈ x.2.reads, e.ids.length = e.count ∧ e.bytes = some (e.ids.map fun i => x.2.received.getD i 0)) ∧
    (∀ t, x.1.holder = some t → (x.1.reader t).buf = x.2.part.map fun i => x.2.received.getD i 0) ∧
    x.2.given.Pairwise (· < ·) ∧
    ((x.2.given ++ x.2.lost).Perm (List.range (next x.1 x.2)) ∧ x.2.received.drop (next x.1 x.2) = x.1.fifo.contents) ∧
    (fifoFull x.1.fifo = true ↔ x.1.fifo.contents.length = bufLen - 1) ∧
    (∀ t, (x.1.waiter = some t ↔ (x.1.reader t).pc = .waiting) ∧ ((x.1.reader t).pc = .waiting → x.1.fifo.contents = [])) ∧
    ∀ a e, enabled x.1 a → step k x.1 a ≠ .error e := by
  obtain ⟨hi, hf⟩ := reach_inv h
  refine ⟨fun e he => (hf.reads e he).symm, hf.part, hf.order, ⟨hf.perm, hf.pending⟩, ?_, fun t => ⟨hi.waiter t, hi.dry t⟩, fun a e he hs => ?_⟩
  · have hb : bufLen = 64 := rfl
    rw [Fifo.fifoFull_iff hi.wf, hi.length]
    omega
  · obtain ⟨s', h1, -⟩ := step_inv (k := k) hi hf he
    cases h1.symm.trans hs

/-! ## Reads across a full ring -/

def init : State Nat × History Nat := (⟨fifoInit (fun _ => 0) bufLen, none, [], none, fun _ => ⟨.idle, 0, []⟩, fun _ => none⟩, ⟨[], [], [], []⟩)

theorem init_start : (logged k Nat).start init := ⟨⟨⟨_, rfl⟩, rfl, rfl, rfl, fun _ => rfl⟩, rfl⟩

def burst : List (Act Nat) :=
  [.read 0 2, .receive 0 false, .resume 0] ++ (List.range' 1 65).map (fun i => .receive (UInt8.ofNat i) false) ++ [.resume 0]

/-- The bytes of one read need not be consecutive: two were dropped between them. A carriage return is read as a newline. -/
theorem read_skips : (∃ x, (logged .serial Nat).Reach Machine.Any x ∧ ∃ e ∈ x.2.reads, ∀ i, e.ids ≠ List.range' i e.count) ∧
    ∃ x, (logged .serial Nat).Reach Machine.Any x ∧ (logged .serial Nat).trace Machine.Any init [.read 0 1, .receive cr false, .resume 0] = some x ∧
      x.1.ret 0 = some [nl] := by
  constructor
  · have h : ((logged .serial Nat).trace Machine.Any init burst).map (fun x => x.2.reads.map fun e => (e.ids, e.count)) =
        some [([0, 3], 2)] := by decide +kernel
    obtain ⟨x, hx, he⟩ := Option.map_eq_some_iff.1 h
    obtain ⟨e, he1, he2⟩ := List.map_eq_singleton_iff.1 he
    obtain ⟨h1, h2⟩ := Prod.mk.inj he2
    refine ⟨x, Machine.trace_reach init_start hx, e, by rw [he1]; exact List.mem_singleton_self _, fun i hi => ?_⟩
    rw [h1, h2] at hi
    obtain ⟨h3, h4⟩ := List.cons.inj hi
    have h5 := (List.cons.inj h4).1
    omega
  · have h : ((logged .serial Nat).trace Machine.Any init [.read 0 1, .receive cr false, .resume 0]).map (fun x => x.1.ret 0) =
        some (some [nl]) := by decide +kernel
    obtain ⟨x, hx, he⟩ := Option.map_eq_some_iff.1 h
    exact ⟨x, Machine.trace_reach init_start hx, hx, he⟩

/-- Two tasks read from the keyboard; the first one to have the lock gets the first bytes. -/
theorem reads_in_order_two : ∃ x : State Nat × History Nat, x.2.reads.map (fun e => (e.task, e.ids)) = [(0, [0, 1]), (1, [2])] ∧
    ∀ e ∈ x.2.reads, e.ids.length = e.count ∧ e.bytes = some (e.ids.map fun i => x.2.received.getD i 0) := by
  have h : ((logged .keyboard Nat).trace Machine.Any init [.read 0 2, .read 1 1, .receive 97 false, .resume 0, .receive 98 false, .resume 0,
      .receive 99 false, .resume 1]).map (fun x => x.2.reads.map fun e => (e.task, e.ids)) = some [(0, [0, 1]), (1, [2])] := by decide +kernel
  obtain ⟨x, hx, he⟩ := Option.map_eq_some_iff.1 h
  exact ⟨x, he, (reads_in_order (Machine.trace_reach init_start hx)).1⟩

end Onix.Input
