/-
The waiter of a disk controller in `kernel/ide.c`, for any number of tasks and controllers, with the interrupt of a
controller at any time, or never. Interrupts are off in the driver, so that the task an interrupt finds running is
in none of these calls. A disk stands for its controller.
-/
import Onix.Lib.Machine

namespace Onix.Ide

open Option Function Onix.Lib

/-! ## Data -/

/-- What is left of a transfer after `lock_acquire`; at its end stands `lock_release`. -/
inductive Op
  /-- `ide_busy_wait`, and the way to `rollback` unless it returns `EOK` -/
  | busy
  /-- `ide_reset_controller`, up to its delay -/
  | reset
  /-- `ide_busy_wait` in `ide_reset_controller`, whose answer does not matter -/
  | settle
  /-- the waiter is set, `task_block`; with `check`, the way to `rollback` unless it returns `EOK` -/
  | wait (check : Bool)
  /-- the assertion on `ide_stop_dma` -/
  | stop
  deriving DecidableEq

inductive Pc (C : Type)
  | idle
  /-- on the list of the lock -/
  | locking (c : C) (ops : List Op)
  /-- woken from that list -/
  | granted (c : C) (ops : List Op)
  | run (c : C) (ops : List Op) (ret : Int)
  /-- in `ide_delay` -/
  | delayed (c : C) (ops : List Op) (ret : Int)
  /-- in `task_block` for the interrupt -/
  | waiting (c : C) (check : Bool) (ops : List Op) (ret : Int)
  /-- `task_block` will return this status -/
  | woken (c : C) (status : Int) (check : Bool) (ops : List Op) (ret : Int)
  deriving DecidableEq

/-- The failed assertion: on `ide_stop_dma`, on the state in `task_unblock`. -/
inductive Fault
  | dma
  | running
  deriving DecidableEq

variable {T C : Type} [DecidableEq T] [DecidableEq C]

/-- The controllers and the tasks. The mutex of a lock is held as long as the lock has a holder. -/
structure State (T C : Type) where
  holder : C → Option T
  lockers : C → List T
  waiter : C → Option T
  pc : T → Pc C
  ret : T → Option Int

def State.goto (s : State T C) (t : T) (p : Pc C) : State T C := { s with pc := Function.update s.pc t p }

/-! ## The code -/

def eok : Int := 0
def eio : Int := 5
def etime : Int := 62

/-- `ide_pio_read` and `ide_pio_write` of `count` sectors: ready, then for each sector an interrupt and the end of the work. -/
def pioOps (count : Nat) : List Op := .busy :: (List.replicate count [.wait true, .busy]).flatten

def dmaOps : List Op := [.wait false, .stop]

def lockAcquire (s : State T C) (t : T) (c : C) (ops : List Op) : State T C :=
  match s.holder c with
  | some _ => { s with lockers := Function.update s.lockers c (t :: s.lockers c) }.goto t (.locking c ops)
  | none => { s with holder := Function.update s.holder c (some t) }.goto t (.run c ops eok)

def taskUnblock (s : State T C) (t : T) (reason : Int) : State T C :=
  match s.pc t with
  | .waiting c k ops r | .woken c _ k ops r => s.goto t (.woken c reason k ops r)
  | .delayed c ops r => s.goto t (.run c ops r)
  | .locking c ops => { s with lockers := Function.update s.lockers c ((s.lockers c).erase t) }.goto t (.granted c ops)
  | .idle | .granted _ _ | .run _ _ _ => s

/-- `lock_release` and the return. The task that has waited longest is woken. -/
def lockRelease (s : State T C) (t : T) (c : C) (ret : Int) : State T C :=
  let s := { s with holder := Function.update s.holder c none, ret := Function.update s.ret t (some ret) }.goto t .idle
  match (s.lockers c).getLast? with
  | none => s
  | some u => taskUnblock s u eok

/-- What `ide_busy_wait` reads from the status register, and whether `ide_stop_dma` finds an error. -/
inductive Status
  | ready
  | again
  | expired
  | error
  deriving DecidableEq

def busyWait (s : State T C) (t : T) (c : C) (ops : List Op) (r : Int) : Status → State T C
  | .ready => s.goto t (.run c ops eok)
  | .again => s.goto t (.delayed c (.busy :: ops) r)
  | .expired => s.goto t (.run c [] (-etime))
  | .error => s.goto t (.run c [.reset] (-eio))

def settle (s : State T C) (t : T) (c : C) (ops : List Op) (r : Int) : Status → State T C
  | .ready | .expired => s.goto t (.run c ops r)
  | .again => s.goto t (.delayed c (.settle :: ops) r)
  | .error => s.goto t (.run c (.reset :: ops) r)

def runOp (s : State T C) (t : T) (c : C) (r : Int) (st : Status) : List Op → Except Fault (State T C)
  | [] => .ok (lockRelease s t c r)
  | .busy :: ops => .ok (busyWait s t c ops r st)
  | .reset :: ops => .ok (s.goto t (.delayed c (.settle :: ops) r))
  | .settle :: ops => .ok (settle s t c ops r st)
  | .wait k :: ops => .ok ({ s with waiter := Function.update s.waiter c (some t) }.goto t (.waiting c k ops r))
  | .stop :: ops => if st = .error then .error .dma else .ok (s.goto t (.run c ops r))

def afterBlock (s : State T C) (t : T) (c : C) (status : Int) (check : Bool) (ops : List Op) : State T C :=
  s.goto t (.run c (if check ∧ status < eok then [] else ops) status)

def ideHandler (s : State T C) (c : C) (u : T) : Except Fault (State T C) :=
  match s.waiter c with
  | none => .ok s
  | some t =>
    if t = u then .error .running
    else .ok { taskUnblock s t eok with waiter := Function.update s.waiter c none }

/-! ## The machine -/

inductive Act (T C : Type)
  /-- a transfer starts -/
  | call (t : T) (c : C) (ops : List Op)
  /-- the next statement of a task -/
  | run (t : T) (st : Status)
  /-- the end of `ide_delay` -/
  | delay (t : T)
  | interrupt (c : C) (u : T)
  /-- the timer of `task_block` -/
  | timeout (t : T)

def next (s : State T C) (t : T) (st : Status) : Except Fault (State T C) :=
  match s.pc t with
  | .granted c ops => .ok (lockAcquire s t c ops)
  | .run c ops r => runOp s t c r st ops
  | .woken c i k ops _ => .ok (afterBlock s t c i k ops)
  | .idle | .locking _ _ | .delayed _ _ _ | .waiting _ _ _ _ => .ok s

def step (s : State T C) : Act T C → Except Fault (State T C)
  | .call t c ops => .ok (lockAcquire s t c ops)
  | .run t st => next s t st
  | .delay t => .ok (taskUnblock s t eok)
  | .interrupt c u => ideHandler s c u
  | .timeout t => .ok (taskUnblock s t (-etime))

def Pc.ready : Pc C → Bool
  | .granted _ _ | .run _ _ _ | .woken _ _ _ _ _ => true
  | _ => false

def Pc.delaying : Pc C → Bool
  | .delayed _ _ _ => true
  | _ => false

def Pc.waits : Pc C → Bool
  | .waiting _ _ _ _ => true
  | _ => false

def Transfer (ops : List Op) : Prop := (∃ n, 0 < n ∧ ops = pioOps n) ∨ ops = dmaOps

def enabled (s : State T C) : Act T C → Prop
  | .call t _ ops => s.pc t = .idle ∧ Transfer ops
  | .run t _ => (s.pc t).ready = true
  | .delay t => (s.pc t).delaying = true
  | .interrupt _ u => s.pc u = .idle
  | .timeout t => (s.pc t).waits = true

def ide (T C : Type) [DecidableEq T] [DecidableEq C] : Machine (State T C) (Act T C) Fault where
  start s := (∀ c, s.holder c = none) ∧ (∀ c, s.lockers c = []) ∧ (∀ c, s.waiter c = none) ∧ ∀ t, s.pc t = .idle
  enabled := enabled
  step := step

def NoTimeout (_ : State T C) : Act T C → Prop
  | .timeout _ => False
  | _ => True

def Waits (s : State T C) : Prop :=
  ∀ c t, s.waiter c = some t → s.holder c = some t ∧ ∃ k ops r, s.pc t = .waiting c k ops r

/-! ## The invariant -/

def Pc.at : Pc C → Option C
  | .run c _ _ | .delayed c _ _ | .waiting c _ _ _ | .woken c _ _ _ _ => some c
  | .idle | .locking _ _ | .granted _ _ => none

structure Inv (s : State T C) : Prop where
  holder : ∀ c t, s.holder c = some t ↔ (s.pc t).at = some c
  waits : ∀ c t k ops r, s.pc t = .waiting c k ops r → s.waiter c = some t
  lockers : ∀ c t, t ∈ s.lockers c → ∃ ops, s.pc t = .locking c ops
  nodup : ∀ c, (s.lockers c).Nodup

variable {s s' : State T C} {t u : T} {c : C} {p : Pc C} {ops : List Op} {r i : Int} {k : Bool} {st : Status}

omit [DecidableEq C] in
@[simp] theorem goto_self : (s.goto t p).pc t = p := Function.update_self ..

omit [DecidableEq C] in
theorem goto_other (h : u ≠ t) : (s.goto t p).pc u = s.pc u := Function.update_of_ne h ..

omit [DecidableEq C] in
theorem Inv.goto (h : Inv s) (hat : p.at = (s.pc t).at) (hl : ∀ c ops, s.pc t ≠ .locking c ops)
    (hw : ∀ c k ops r, p = .waiting c k ops r → s.waiter c = some t) : Inv (s.goto t p) := by
  refine ⟨fun c u => ?_, fun c u k ops r hu => ?_, fun c u hu => ?_, h.nodup⟩
  · show s.holder c = some u ↔ _
    by_cases hut : u = t
    · subst hut
      rw [goto_self, hat]
      exact h.holder c u
    · rw [goto_other hut]
      exact h.holder c u
  · by_cases hut : u = t
    · subst hut
      rw [goto_self] at hu
      exact hw c k ops r hu
    · rw [goto_other hut] at hu
      exact h.waits c u k ops r hu
  · obtain ⟨ops, ho⟩ := h.lockers c u hu
    have hut : u ≠ t := fun e => hl c ops (e ▸ ho)
    exact ⟨ops, (goto_other hut).trans ho⟩

omit [DecidableEq C] in
theorem Waits.goto (h : Waits s) (ht : (s.pc t).waits = false) : Waits (s.goto t p) := by
  intro c u hu
  obtain ⟨h1, k, ops, r, h2⟩ := h c u hu
  have hut : u ≠ t := fun e => by
    rw [← e, h2] at ht
    cases ht
  exact ⟨h1, k, ops, r, (goto_other hut).trans h2⟩

theorem Inv.unlist (h : Inv s) (ht : s.pc t = .locking c ops) :
    Inv ({ s with lockers := update s.lockers c ((s.lockers c).erase t) }.goto t (.granted c ops)) := by
  refine ⟨fun d u => ?_, fun d u k ops' r hu => ?_, fun d u hu => ?_, fun d => ?_⟩
  · show s.holder d = some u ↔ _
    by_cases hut : u = t
    · subst hut
      rw [goto_self, h.holder, ht]
      exact .rfl
    · rw [goto_other hut]
      exact h.holder d u
  · by_cases hut : u = t
    · subst hut
      rw [goto_self] at hu
      cases hu
    · rw [goto_other hut] at hu
      exact h.waits d u k ops' r hu
  · have hu : u ∈ update s.lockers c ((s.lockers c).erase t) d := hu
    have hut : u ≠ t ∧ u ∈ s.lockers d := by
      by_cases hd : d = c
      · subst hd
        rw [update_self] at hu
        exact (h.nodup d).mem_erase_iff.1 hu
      · rw [update_of_ne hd] at hu
        refine ⟨fun e => hd ?_, hu⟩
        obtain ⟨ops', ho⟩ := h.lockers d u hu
        rw [e, ht] at ho
        cases ho
        rfl
    obtain ⟨ops', ho⟩ := h.lockers d u hut.2
    exact ⟨ops', (goto_other hut.1).trans ho⟩
  · show (update s.lockers c ((s.lockers c).erase t) d).Nodup
    by_cases hd : d = c
    · subst hd
      rw [update_self]
      exact (h.nodup d).erase t
    · rw [update_of_ne hd]
      exact h.nodup d

theorem Inv.taskUnblock (h : Inv s) : Inv (taskUnblock s t i) := by
  unfold Ide.taskUnblock
  cases hp : s.pc t with
  | idle | granted | run => exact h
  | locking c ops => exact h.unlist hp
  | waiting | woken | delayed => exact h.goto (by rw [hp]; rfl) (by rw [hp]; exact nofun) nofun

theorem Waits.unlist (h : Waits s) (ht : s.pc t = .locking c ops) : Waits (taskUnblock s t i) := by
  have h1 : taskUnblock s t i =
      { s with lockers := update s.lockers c ((s.lockers c).erase t) }.goto t (.granted c ops) := by
    unfold taskUnblock
    rw [ht]
  have h2 : Waits { s with lockers := update s.lockers c ((s.lockers c).erase t) } := h
  rw [h1]
  exact h2.goto (show (s.pc t).waits = false by rw [ht]; rfl)

/-! ## The lock -/

theorem Inv.lockAcquire (h : Inv s) (hat : (s.pc t).at = none) (hl : ∀ c ops, s.pc t ≠ .locking c ops) :
    Inv (lockAcquire s t c ops) := by
  unfold Ide.lockAcquire
  split
  · -- the lock is taken: the task goes on its list
    have hn : t ∉ s.lockers c := fun hm => by
      obtain ⟨ops', ho⟩ := h.lockers c t hm
      exact hl c ops' ho
    refine ⟨fun d u => ?_, fun d u k ops' r hu => ?_, fun d u hu => ?_, fun d => ?_⟩
    · show s.holder d = some u ↔ _
      by_cases hut : u = t
      · subst hut
        rw [goto_self, h.holder, hat]
        exact .rfl
      · rw [goto_other hut]
        exact h.holder d u
    · by_cases hut : u = t
      · subst hut
        rw [goto_self] at hu
        cases hu
      · rw [goto_other hut] at hu
        exact h.waits d u k ops' r hu
    · have hu : u ∈ update s.lockers c (t :: s.lockers c) d := hu
      by_cases hd : d = c
      · subst hd
        rw [update_self] at hu
        rcases List.mem_cons.1 hu with rfl | hu
        · exact ⟨ops, goto_self⟩
        · have hut : u ≠ t := fun e => hn (e ▸ hu)
          obtain ⟨ops', ho⟩ := h.lockers d u hu
          exact ⟨ops', (goto_other hut).trans ho⟩
      · rw [update_of_ne hd] at hu
        obtain ⟨ops', ho⟩ := h.lockers d u hu
        have hut : u ≠ t := fun e => hl d ops' (e ▸ ho)
        exact ⟨ops', (goto_other hut).trans ho⟩
    · show (update s.lockers c (t :: s.lockers c) d).Nodup
      by_cases hd : d = c
      · subst hd
        rw [update_self]
        exact List.nodup_cons.2 ⟨hn, h.nodup d⟩
      · rw [update_of_ne hd]
        exact h.nodup d
  · rename_i hfree
    refine ⟨fun d u => ?_, fun d u k ops' r hu => ?_, fun d u hu => ?_, h.nodup⟩
    · show update s.holder c (some t) d = some u ↔ _
      by_cases hd : d = c
      · subst hd
        rw [update_self]
        by_cases hut : u = t
        · subst hut
          rw [goto_self]
          exact ⟨fun _ => rfl, fun _ => rfl⟩
        · rw [goto_other hut]
          exact ⟨fun e => absurd (some.inj e).symm hut, fun e => (nomatch hfree.symm.trans ((h.holder d u).2 e))⟩
      · rw [update_of_ne hd, h.holder]
        by_cases hut : u = t
        · subst hut
          rw [goto_self, hat]
          exact ⟨nofun, fun e => absurd (some.inj e).symm hd⟩
        · rw [goto_other hut]
    · by_cases hut : u = t
      · subst hut
        rw [goto_self] at hu
        cases hu
      · rw [goto_other hut] at hu
        exact h.waits d u k ops' r hu
    · obtain ⟨ops', ho⟩ := h.lockers d u hu
      have hut : u ≠ t := fun e => hl d ops' (e ▸ ho)
      exact ⟨ops', (goto_other hut).trans ho⟩

theorem Waits.lockAcquire (h : Waits s) (ht : (s.pc t).waits = false) : Waits (lockAcquire s t c ops) := by
  unfold Ide.lockAcquire
  split
  · have h1 : Waits { s with lockers := update s.lockers c (t :: s.lockers c) } := h
    exact h1.goto ht
  · rename_i hfree
    have h1 : Waits { s with holder := update s.holder c (some t) } := by
      intro d u hu
      obtain ⟨h2, h3⟩ := h d u hu
      have hd : d ≠ c := fun e => by
        rw [e, hfree] at h2
        cases h2
      exact ⟨(update_of_ne hd ..).trans h2, h3⟩
    exact h1.goto ht

theorem Inv.leave (h : Inv s) (ht : s.pc t = .run c ops r) {f : T → Option Int} :
    Inv ({ s with holder := update s.holder c none, ret := f }.goto t .idle) := by
  have hhold := (h.holder c t).2 (by rw [ht]; rfl)
  refine ⟨fun d u => ?_, fun d u k ops' r hu => ?_, fun d u hu => ?_, h.nodup⟩
  · show update s.holder c none d = some u ↔ _
    by_cases hut : u = t
    · subst hut
      rw [goto_self]
      refine ⟨fun e => ?_, nofun⟩
      by_cases hd : d = c
      · subst hd
        rw [update_self] at e
        cases e
      · rw [update_of_ne hd, h.holder, ht] at e
        exact absurd (some.inj e).symm hd
    · rw [goto_other hut]
      by_cases hd : d = c
      · subst hd
        rw [update_self, ← h.holder, hhold]
        exact ⟨nofun, fun e => absurd (some.inj e).symm hut⟩
      · rw [update_of_ne hd]
        exact h.holder d u
  · by_cases hut : u = t
    · subst hut
      rw [goto_self] at hu
      cases hu
    · rw [goto_other hut] at hu
      exact h.waits d u k ops' r hu
  · obtain ⟨ops', ho⟩ := h.lockers d u hu
    refine ⟨ops', (goto_other fun e => ?_).trans ho⟩
    rw [e, ht] at ho
    cases ho

theorem Waits.leave (h : Waits s) (ht : s.pc t = .run c ops r) (hhold : s.holder c = some t) {f : T → Option Int} :
    Waits ({ s with holder := update s.holder c none, ret := f }.goto t .idle) := by
  intro d u hu
  obtain ⟨h1, k, ops', r', h2⟩ := h d u hu
  have hut : u ≠ t := fun e => by
    rw [e, ht] at h2
    cases h2
  have hd : d ≠ c := fun e => by
    rw [e, hhold] at h1
    exact hut (some.inj h1).symm
  exact ⟨(update_of_ne hd ..).trans h1, k, ops', r', (goto_other hut).trans h2⟩

theorem Inv.lockRelease (h : Inv s) (ht : s.pc t = .run c ops r) :
    Inv (lockRelease s t c i) ∧ (Waits s → Waits (lockRelease s t c i)) := by
  have h1 := h.leave ht (f := update s.ret t (some i))
  have hhold := (h.holder c t).2 (by rw [ht]; rfl)
  unfold Ide.lockRelease
  dsimp only
  split
  · exact ⟨h1, fun hw => hw.leave ht hhold⟩
  · rename_i u hu
    obtain ⟨ops', ho⟩ := h1.lockers c u (List.mem_of_getLast? hu)
    exact ⟨h1.taskUnblock, fun hw => (hw.leave ht hhold).unlist ho⟩

/-! ## The steps -/

theorem Inv.runOp (h : Inv s) (ht : s.pc t = .run c ops r) (hs : runOp s t c r st ops = .ok s') : Inv s' ∧ (Waits s → Waits s') := by
  have hgo : ∀ p : Pc C, p.at = some c → (∀ c k ops r, p ≠ .waiting c k ops r) → Inv (s.goto t p) ∧ (Waits s → Waits (s.goto t p)) :=
    fun p hp hn => ⟨h.goto (by rw [ht]; exact hp) (by rw [ht]; exact nofun) fun c k ops r e => absurd e (hn c k ops r),
      fun hw => hw.goto (by rw [ht]; rfl)⟩
  cases ops with
  | nil =>
    cases hs
    exact h.lockRelease ht
  | cons o ops =>
    cases o with
    | busy =>
      cases hs
      cases st <;> exact hgo _ rfl nofun
    | reset =>
      cases hs
      exact hgo _ rfl nofun
    | settle =>
      cases hs
      cases st <;> exact hgo _ rfl nofun
    | stop =>
      have hs : (if st = .error then .error .dma else .ok (s.goto t (.run c ops r)) : Except Fault (State T C)) = .ok s' := hs
      split at hs
      · cases hs
      · cases hs
        exact hgo _ rfl nofun
    | wait k =>
      cases hs
      have hhold := (h.holder c t).2 (by rw [ht]; rfl)
      -- no other task waits at this controller
      have hkeep : ∀ d u k ops r, u ≠ t → s.pc u = .waiting d k ops r → d ≠ c := fun d u k ops r hut hu e => by
        have h1 := (h.holder d u).2 (by rw [hu]; rfl)
        rw [e, hhold] at h1
        exact hut (some.inj h1).symm
      refine ⟨⟨fun d u => ?_, fun d u k' ops' r' hu => ?_, fun d u hu => ?_, h.nodup⟩, fun hw d u hu => ?_⟩
      · show s.holder d = some u ↔ _
        by_cases hut : u = t
        · subst hut
          rw [goto_self, h.holder, ht]
          exact .rfl
        · rw [goto_other hut]
          exact h.holder d u
      · show update s.waiter c (some t) d = some u
        by_cases hut : u = t
        · subst hut
          rw [goto_self] at hu
          cases hu
          exact update_self ..
        · rw [goto_other hut] at hu
          rw [update_of_ne (hkeep d u k' ops' r' hut hu)]
          exact h.waits d u k' ops' r' hu
      · obtain ⟨ops', ho⟩ := h.lockers d u hu
        refine ⟨ops', (goto_other fun e => ?_).trans ho⟩
        rw [e, ht] at ho
        cases ho
      · have hu : update s.waiter c (some t) d = some u := hu
        by_cases hd : d = c
        · subst hd
          rw [update_self] at hu
          cases hu
          exact ⟨hhold, k, ops, r, goto_self⟩
        · rw [update_of_ne hd] at hu
          obtain ⟨h1, k', ops', r', h2⟩ := hw d u hu
          have hut : u ≠ t := fun e => by
            rw [e, ht] at h2
            cases h2
          exact ⟨h1, k', ops', r', (goto_other hut).trans h2⟩

theorem Inv.next (h : Inv s) (hp : (s.pc t).ready = true) (hs : next s t st = .ok s') : Inv s' ∧ (Waits s → Waits s') := by
  unfold Ide.next at hs
  cases ht : s.pc t with
  | idle | locking | delayed | waiting =>
    rw [ht] at hp
    cases hp
  | granted c ops =>
    rw [ht] at hs
    cases hs
    exact ⟨h.lockAcquire (by rw [ht]; rfl) (by rw [ht]; exact nofun), fun hw => hw.lockAcquire (by rw [ht]; rfl)⟩
  | run c ops r =>
    rw [ht] at hs
    exact h.runOp ht hs
  | woken c i k ops r =>
    rw [ht] at hs
    cases hs
    exact ⟨h.goto (by rw [ht]; rfl) (by rw [ht]; exact nofun) nofun, fun hw => hw.goto (by rw [ht]; rfl)⟩

theorem taskUnblock_waiter : (taskUnblock s t i).waiter = s.waiter := by
  unfold taskUnblock
  cases s.pc t <;> rfl

theorem taskUnblock_waits : ((taskUnblock s t i).pc t).waits = false := by
  unfold taskUnblock
  cases hp : s.pc t
  case locking | delayed | waiting | woken =>
    rw [goto_self]
    rfl
  all_goals
    rw [hp]
    rfl

theorem Waits.ideHandler (h : Waits s) (hw : s.waiter c = some t) (hu : s.pc u = .idle) :
    ∃ k ops r, s.pc t = .waiting c k ops r ∧ ideHandler s c u =
      .ok { s.goto t (.woken c eok k ops r) with waiter := update s.waiter c none } := by
  obtain ⟨-, k, ops, r, hp⟩ := h c t hw
  have htu : t ≠ u := fun e => by
    rw [e, hu] at hp
    cases hp
  refine ⟨k, ops, r, hp, ?_⟩
  unfold Ide.ideHandler taskUnblock
  rw [hw]
  dsimp only
  rw [if_neg htu, hp]

theorem Inv.ideHandler (h : Inv s) (hs : ideHandler s c u = .ok s') : Inv s' := by
  unfold Ide.ideHandler at hs
  cases hw : s.waiter c with
  | none =>
    rw [hw] at hs
    cases hs
    exact h
  | some t =>
    rw [hw] at hs
    dsimp only at hs
    split at hs
    · cases hs
    · cases hs
      have h1 := h.taskUnblock (t := t) (i := eok)
      refine ⟨h1.holder, fun d v k ops r hv => ?_, h1.lockers, h1.nodup⟩
      have hd : s.waiter d = some v := by
        rw [← h1.waits d v k ops r hv, taskUnblock_waiter]
      have hdc : d ≠ c := fun e => by
        -- the one that waited here was woken
        rw [e, hw] at hd
        have h2 := taskUnblock_waits (s := s) (t := t) (i := eok)
        rw [← some.inj hd] at hv
        rw [hv] at h2
        cases h2
      exact (update_of_ne hdc ..).trans hd

theorem Waits.interrupt (h : Waits s) (hu : s.pc u = .idle) : ∃ s', Ide.ideHandler s c u = .ok s' ∧ Waits s' := by
  cases hw : s.waiter c with
  | none =>
    refine ⟨s, ?_, h⟩
    unfold Ide.ideHandler
    rw [hw]
  | some t =>
    obtain ⟨k, ops, r, hp, hs⟩ := h.ideHandler hw hu
    refine ⟨_, hs, fun d v hv => ?_⟩
    have hv : update s.waiter c none d = some v := hv
    have hd : d ≠ c := fun e => by
      rw [e, update_self] at hv
      cases hv
    rw [update_of_ne hd] at hv
    obtain ⟨h1, k', ops', r', h2⟩ := h d v hv
    have hvt : v ≠ t := fun e => by
      rw [e, hp] at h2
      cases h2
      exact hd rfl
    exact ⟨h1, k', ops', r', (goto_other hvt).trans h2⟩

theorem Inv.timeout (h : Inv s) (ht : (s.pc t).waits = true) : ¬ Waits (Ide.taskUnblock s t i) := by
  intro hw
  cases hp : s.pc t
  case waiting c k ops r =>
    have h1 : (Ide.taskUnblock s t i).waiter c = some t := by
      rw [taskUnblock_waiter]
      exact h.waits c t k ops r hp
    obtain ⟨-, k', ops', r', h2⟩ := hw c t h1
    have h3 := taskUnblock_waits (s := s) (t := t) (i := i)
    rw [h2] at h3
    cases h3
  all_goals
    rw [hp] at ht
    cases ht

/-! ## Every run -/

theorem step_inv {a : Act T C} (h : Inv s) (he : (ide T C).enabled s a) (hs : (ide T C).step s a = .ok s') :
    Inv s' ∧ (NoTimeout s a → Waits s → Waits s') := by
  cases a with
  | call t c ops =>
    cases hs
    have ht : s.pc t = .idle := he.1
    exact ⟨h.lockAcquire (by rw [ht]; rfl) (by rw [ht]; exact nofun), fun _ hw => hw.lockAcquire (by rw [ht]; rfl)⟩
  | run t st =>
    obtain ⟨h1, h2⟩ := h.next he hs
    exact ⟨h1, fun _ => h2⟩
  | delay t =>
    cases hs
    refine ⟨h.taskUnblock, fun _ hw => ?_⟩
    have he : (s.pc t).delaying = true := he
    unfold taskUnblock
    cases hp : s.pc t
    case delayed => exact hw.goto (by rw [hp]; rfl)
    all_goals
      rw [hp] at he
      cases he
  | interrupt c u =>
    refine ⟨h.ideHandler hs, fun _ hw => ?_⟩
    obtain ⟨s1, h1, h2⟩ := hw.interrupt (c := c) he
    cases h1.symm.trans hs
    exact h2
  | timeout t =>
    cases hs
    exact ⟨h.taskUnblock, fun hn => hn.elim⟩

theorem start_inv (hs : (ide T C).start s) : Inv s ∧ Waits s := by
  obtain ⟨hh, hl, hw, hp⟩ := hs
  refine ⟨⟨fun c t => ?_, fun c t k ops r ht => ?_, fun c t ht => ?_, fun c => ?_⟩, fun c t ht => ?_⟩
  · rw [hh, hp]
    exact ⟨nofun, nofun⟩
  · cases (hp t).symm.trans ht
  · rw [hl] at ht
    cases ht
  · rw [hl]
    exact .nil
  · rw [hw] at ht
    cases ht

theorem reach_inv (h : (ide T C).Reach Machine.Any s) : Inv s :=
  h.inv (I := Inv) (fun _ hs => (start_inv hs).1) fun _ _ _ hi _ hst => (step_inv hi hst.1 hst.2).1

theorem reach_waits (h : (ide T C).Reach NoTimeout s) : Inv s ∧ Waits s :=
  h.inv (I := fun s => Inv s ∧ Waits s) (fun _ => start_inv) fun _ _ _ hi hn hst => by
    obtain ⟨h1, h2⟩ := step_inv hi.1 hst.1 hst.2
    exact ⟨h1, h2 hn hi.2⟩

/-- In every run in which no wait ends by its timeout the waiter of a controller is the holder of its lock, blocked in
that call, and an interrupt wakes it and no other task; in every run, a timeout leaves a waiter that is not blocked. -/
theorem waiter_waits (s : State T C) :
    ((ide T C).Reach NoTimeout s → Waits s ∧ ∀ c u t, s.waiter c = some t → s.pc u = .idle →
      ∃ k ops r, s.pc t = .waiting c k ops r ∧ ideHandler s c u =
        .ok { s.goto t (.woken c eok k ops r) with waiter := Function.update s.waiter c none }) ∧
    ((ide T C).Reach Machine.Any s → ∀ t s', (ide T C).Steps s (.timeout t) s' → ¬ Waits s') := by
  refine ⟨fun h => ?_, fun h t s' hst => ?_⟩
  · have hw := (reach_waits h).2
    exact ⟨hw, fun c u t ht hu => hw.ideHandler ht hu⟩
  · have hs : Except.ok (taskUnblock s t (-etime)) = .ok s' := hst.2
    cases hs
    exact (reach_inv h).timeout hst.1

/-! ## A late interrupt -/

def init : State Nat Nat := ⟨fun _ => none, fun _ => [], fun _ => none, fun _ => .idle, fun _ => none⟩

theorem init_start : (ide Nat Nat).start init := ⟨fun _ => rfl, fun _ => rfl, fun _ => rfl, fun _ => rfl⟩

theorem init_reach {P : State Nat Nat → Act Nat Nat → Prop} : (ide Nat Nat).Reach P init := ⟨_, init_start, .refl _⟩

/-- The transfer of a task timed out, and its next one is with the other controller: the late interrupt of the first
controller ends that one. -/
theorem late_interrupt : ∃ s s' : State Nat Nat, (ide Nat Nat).Reach Machine.Any s ∧ (ide Nat Nat).Steps s (.interrupt 0 1) s' ∧
    s.waiter 0 = some 0 ∧ s.holder 0 = none ∧ s.pc 0 = .waiting 1 false [.stop] 0 ∧ s'.pc 0 = .woken 1 eok false [.stop] 0 := by
  have h1 := Machine.Reach.next (P := Machine.Any) init_reach (.call 0 0 dmaOps) trivial ⟨rfl, .inr rfl⟩ rfl
  have h2 := Machine.Reach.next h1 (.run 0 .ready) trivial rfl rfl
  have h3 := Machine.Reach.next h2 (.timeout 0) trivial rfl rfl
  have h4 := Machine.Reach.next h3 (.run 0 .ready) trivial rfl rfl
  have h5 := Machine.Reach.next h4 (.run 0 .ready) trivial rfl rfl
  have h6 := Machine.Reach.next h5 (.run 0 .ready) trivial rfl rfl
  have h7 := Machine.Reach.next h6 (.call 0 1 dmaOps) trivial ⟨rfl, .inr rfl⟩ rfl
  have h8 := Machine.Reach.next h7 (.run 0 .ready) trivial rfl rfl
  exact ⟨_, _, h8, ⟨rfl, rfl⟩, rfl, rfl, rfl, rfl⟩

theorem waiter_waits_first : ∃ s : State Nat Nat, s.waiter 0 = some 0 ∧ Waits s := by
  have h1 := Machine.Reach.next (P := NoTimeout) init_reach (.call 0 0 dmaOps) trivial ⟨rfl, .inr rfl⟩ rfl
  have h2 := Machine.Reach.next h1 (.run 0 .ready) trivial rfl rfl
  exact ⟨_, rfl, ((waiter_waits _).1 h2).1⟩

end Onix.Ide
