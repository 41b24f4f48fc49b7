/-
The lazy switch of the floating point unit in `kernel/fpu.c`, with what `schedule`, `task_create`,
`task_fork`, `task_exit` and `task_waitpid` of `kernel/task.c` do to it. `CR0.TS` makes the next
instruction trap; the trap saves the registers for `last_fpu_task` and loads those of the running task.

A task is known by the address of its page, which outlives it: `last_fpu_task` is not reset, and the page
may be given out again. The state of the unit is any type, with the one `fninit` leaves.
-/
import Onix.Lib.Machine
import Onix.Lib.Loop

namespace Onix.Fpu

open Function Onix.Lib

/-! ## The model -/

def taskNr : Nat := 64

/-- The fields of `task_t` the unit depends on: `flags` as its two bits, and whether the state is `TASK_DIED`. -/
structure Task where
  uid : Nat
  used : Bool
  enabled : Bool
  fpu : Option Nat
  died : Bool

def newTask (uid : Nat) : Task := ⟨uid, false, false, none, false⟩

structure State (α : Type) where
  /-- `CR0.EM` and `CR0.TS` -/
  ts : Bool
  /-- the registers of the unit -/
  regs : α
  lastFpuTask : Option Nat
  running : Nat
  /-- the pages in `task_table` -/
  table : List Nat
  task : Nat → Task
  /-- the blocks of `kmalloc` -/
  heap : Nat → α

/-- Failed assertions of `fpu.c` and the panic of `get_free_task`. -/
inductive Fault
  | uid
  | fpu
  | full
  deriving DecidableEq

variable {α : Type} (clean : α)

def State.setTask (s : State α) (p : Nat) (t : Task) : State α := { s with task := Function.update s.task p t }

/-- The first half of `fpu_enable`: `fnsave` for the task that used the unit last. -/
def fpuSave (s : State α) : Except Fault (State α) :=
  match s.lastFpuTask with
  | none => .ok s
  | some q =>
    if (s.task q).enabled then
      match (s.task q).fpu with
      | none => .error .fpu
      | some b => .ok { s.setTask q { s.task q with enabled := false } with heap := Function.update s.heap b s.regs }
    else .ok s

def fpuLoad (s : State α) (p a : Nat) : State α :=
  match (s.task p).fpu with
  | some b => { s with lastFpuTask := some p, regs := s.heap b }
  | none =>
    { s.setTask p { s.task p with fpu := some a, used := true, enabled := true } with lastFpuTask := some p, regs := clean }

def fpuEnable (s : State α) (p a : Nat) : Except Fault (State α) :=
  let s := { s with ts := false }
  if s.lastFpuTask = some p then .ok s
  else do
    let s ← fpuSave s
    pure (fpuLoad clean s p a)

def fpuHandler (s : State α) (a : Nat) : Except Fault (State α) :=
  if (s.task s.running).uid = 0 then .error .uid else fpuEnable clean s s.running a

def trap (s : State α) (a : Nat) : Except Fault (State α) := if s.ts then fpuHandler clean s a else .ok s

/-- `schedule`, with `fpu_disable`, when it picks the task `next`. -/
def schedule (s : State α) (next : Nat) : State α := if next = s.running then s else { s with ts := true, running := next }

def taskCreate (s : State α) (p uid : Nat) : Except Fault (State α) :=
  if taskNr ≤ s.table.length then .error .full else .ok { s.setTask p (newTask uid) with table := p :: s.table }

/-- `task_fork` onto the page `p`, with the block `a` for the copy of the state. -/
def taskFork (s : State α) (p a : Nat) : Except Fault (State α) :=
  if taskNr ≤ s.table.length then .error .full
  else
    let parent := s.task s.running
    let s := { s with table := p :: s.table }
    match parent.fpu with
    | none => .ok (s.setTask p parent)
    | some b => .ok { s.setTask p { parent with fpu := some a } with heap := Function.update s.heap a (s.heap b) }

def exited (t : Task) : Task :=
  match t.fpu with
  | some _ => { t with used := false, enabled := false, fpu := none, died := true }
  | none => { t with died := true }

def taskExit (s : State α) (next : Nat) : State α := schedule (s.setTask s.running (exited (s.task s.running))) next

def State.Alive (s : State α) (p : Nat) : Prop := p ∈ s.table ∧ (s.task p).died = false

instance (s : State α) (p : Nat) : Decidable (s.Alive p) := inferInstanceAs (Decidable (_ ∧ _))

def State.Unused (s : State α) (a : Nat) : Prop := ∀ p ∈ s.table, (s.task p).died = false → (s.task p).fpu ≠ some a

instance (s : State α) (a : Nat) : Decidable (s.Unused a) := inferInstanceAs (Decidable (∀ p ∈ s.table, _ → _))

inductive Act (α : Type)
  | create (p uid : Nat)
  | fork (p a : Nat)
  | switch (next : Nat)
  | use (f : α → α) (a : Nat)
  | exit (next : Nat)
  | reap (p : Nat)
  | reuse (p : Nat) (t : Task)

/-- An instruction traps first; `task_waitpid` takes a dead task from the table; a page that is not in the
table may be used for anything. -/
def step (s : State α) : Act α → Except Fault (State α)
  | .create p uid => taskCreate s p uid
  | .fork p a => taskFork s p a
  | .switch next => .ok (schedule s next)
  | .use f a => do
    let t ← trap clean s a
    pure { t with regs := f t.regs }
  | .exit next => .ok (taskExit s next)
  | .reap p => .ok { s with table := s.table.filter (· ≠ p) }
  | .reuse p t => .ok (s.setTask p t)

def enabled (s : State α) : Act α → Prop
  | .create p _ | .reuse p _ => p ∉ s.table
  | .fork p a => p ∉ s.table ∧ s.Unused a
  | .switch next => s.Alive next
  | .use _ a => s.Unused a
  | .exit next => s.Alive next ∧ next ≠ s.running
  | .reap p => p ∈ s.table ∧ (s.task p).died = true

instance (s : State α) : (a : Act α) → Decidable (enabled s a)
  | .create p _ | .reuse p _ => inferInstanceAs (Decidable (p ∉ s.table))
  | .fork _ _ | .exit _ | .reap _ => inferInstanceAs (Decidable (_ ∧ _))
  | .switch next => inferInstanceAs (Decidable (s.Alive next))
  | .use _ a => inferInstanceAs (Decidable (s.Unused a))

def fpu : Machine (State α) (Act α) Fault where
  start s := s.ts = true ∧ s.lastFpuTask = none ∧ s.table = [s.running] ∧ ∃ uid, s.task s.running = newTask uid
  enabled := enabled
  step := step clean

/-! ## What a task left -/

/-- What each task left in the registers: `clean` for a new one, what the parent left for a child. -/
def left (own : Nat → α) (s : State α) (a : Act α) (t : State α) : Nat → α :=
  match a with
  | .create p _ => Function.update own p clean
  | .fork p _ => Function.update own p (own s.running)
  | .use _ _ => Function.update own s.running t.regs
  | _ => own

def owned : Machine (State α × (Nat → α)) (Act α) Fault := (fpu clean).record (fun _ own => own = fun _ => clean) (left clean)

def Saved (s : State α) (q : Nat) : Prop :=
  match (s.task q).fpu with
  | none => True
  | some b => s.regs = s.heap b

instance [DecidableEq α] (s : State α) (q : Nat) : Decidable (Saved s q) := by
  unfold Saved
  split <;> infer_instance

/-- The registers of another task that is still alive are saved, or `fpu_enable` will save them. -/
def Kept (s : State α) : Prop :=
  match s.lastFpuTask with
  | none => True
  | some q => q ≠ s.running → s.Alive q → (s.task q).enabled = true ∨ Saved s q

instance [DecidableEq α] (s : State α) : Decidable (Kept s) := by
  unfold Kept
  split <;> infer_instance

/-- The unit changes hands with the registers saved, a task forks with its registers saved, and no page is
given out that `last_fpu_task` points to. -/
def Isolated (s : State α) : Act α → Prop
  | .create p _ | .reuse p _ => s.lastFpuTask ≠ some p
  | .fork p _ => s.lastFpuTask ≠ some p ∧ (s.lastFpuTask = some s.running → Saved s s.running)
  | .use _ _ => s.ts = true → Kept s
  | _ => True

instance [DecidableEq α] (s : State α) : (a : Act α) → Decidable (Isolated s a)
  | .create p _ | .reuse p _ => inferInstanceAs (Decidable (s.lastFpuTask ≠ some p))
  | .fork _ _ => inferInstanceAs (Decidable (_ ∧ _))
  | .use _ _ => inferInstanceAs (Decidable (_ → _))
  | .switch _ | .exit _ | .reap _ => inferInstanceAs (Decidable True)

/-! ## What the registers and the blocks hold -/

def State.image (s : State α) (p : Nat) : α :=
  match (s.task p).fpu with
  | none => clean
  | some b => s.heap b

/-- The task `last_fpu_task` points to left what is in the registers, every other one what is in its block. -/
structure Held (s : State α) (own : Nat → α) : Prop where
  running : s.Alive s.running
  owner : ∀ q, s.lastFpuTask = some q → s.Alive q → own q = s.regs ∧ (s.task q).fpu ≠ none
  gone : ∀ q, s.lastFpuTask = some q → ¬ s.Alive q → (s.task q).enabled = false
  image : ∀ p, s.Alive p → s.lastFpuTask ≠ some p → own p = s.image clean p
  distinct : ∀ p q b, s.Alive p → s.Alive q → (s.task p).fpu = some b → (s.task q).fpu = some b → p = q

/-- Without `CR0.TS` the registers belong to the running task. -/
structure Inv (s : State α) (own : Nat → α) : Prop extends Held clean s own where
  clear : s.ts = false → s.lastFpuTask = some s.running

variable {clean} {s t : State α} {own : Nat → α} {a p : Nat}

@[simp] theorem setTask_table (x : Task) : (s.setTask p x).table = s.table := rfl
@[simp] theorem setTask_running (x : Task) : (s.setTask p x).running = s.running := rfl
@[simp] theorem setTask_same (x : Task) : (s.setTask p x).task p = x := update_self ..
theorem setTask_ne {q : Nat} (x : Task) (h : q ≠ p) : (s.setTask p x).task q = s.task q := update_of_ne h ..

theorem image_congr {q : Nat} (hf : (t.task q).fpu = (s.task q).fpu) (hh : ∀ b, (s.task q).fpu = some b → t.heap b = s.heap b) :
    t.image clean q = s.image clean q := by
  unfold State.image
  rw [hf]
  split
  · rfl
  · rename_i b hb
    exact hh b hb

/-! ## The trap -/

theorem Held.save (h : Held clean s own) (hr : s.lastFpuTask ≠ some s.running) (hk : Kept s) :
    ∃ t, fpuSave s = .ok t ∧ t.running = s.running ∧ t.table = s.table ∧ t.ts = s.ts ∧
      (∀ p, (t.task p).fpu = (s.task p).fpu ∧ (t.task p).died = (s.task p).died) ∧
      ∀ p, s.Alive p → own p = t.image clean p := by
  unfold fpuSave
  cases hl : s.lastFpuTask with
  | none => exact ⟨s, rfl, rfl, rfl, rfl, fun _ => ⟨rfl, rfl⟩, fun p hp => h.image p hp (by rw [hl]; exact nofun)⟩
  | some q =>
    have hq : q ≠ s.running := fun e => hr (e ▸ hl)
    have himage : ∀ p, s.Alive p → p ≠ q → own p = s.image clean p := fun p hp hpq =>
      h.image p hp (by rw [hl]; exact fun e => hpq (Option.some.inj e).symm)
    by_cases ha : s.Alive q
    · obtain ⟨ho, hf⟩ := h.owner q hl ha
      obtain ⟨b, hb⟩ := Option.ne_none_iff_exists'.1 hf
      by_cases he : (s.task q).enabled = true
      · have hfpu : ∀ p, ((s.setTask q { s.task q with enabled := false }).task p).fpu = (s.task p).fpu ∧
            ((s.setTask q { s.task q with enabled := false }).task p).died = (s.task p).died := by
          intro p
          by_cases hpq : p = q
          · subst hpq
            rw [setTask_same]
            exact ⟨rfl, rfl⟩
          · rw [setTask_ne _ hpq]
            exact ⟨rfl, rfl⟩
        refine ⟨{ s.setTask q { s.task q with enabled := false } with heap := update s.heap b s.regs },
          by simp [he, hb], rfl, rfl, rfl, hfpu, ?_⟩
        intro p hp
        by_cases hpq : p = q
        · subst hpq
          simp [State.image, hb, ho]
        · rw [himage p hp hpq]
          symm
          apply image_congr
          · exact (hfpu p).1
          intro c hc
          have hcb : c ≠ b := by
            rintro rfl
            exact hpq (h.distinct p q c hp ha hc hb)
          exact update_of_ne hcb ..
      · rw [Bool.not_eq_true] at he
        simp only [he, Bool.false_eq_true, if_false]
        refine ⟨s, rfl, rfl, rfl, rfl, fun _ => ⟨rfl, rfl⟩, ?_⟩
        intro p hp
        by_cases hpq : p = q
        · subst hpq
          -- the flag is clear, so the block must hold the registers already
          have hsaved : Saved s p := by
            unfold Kept at hk
            rw [hl] at hk
            exact (hk hq ha).resolve_left (by rw [he]; exact nofun)
          simpa [Saved, State.image, hb, ho] using hsaved
        · exact himage p hp hpq
    · simp only [h.gone q hl ha, Bool.false_eq_true, if_false]
      exact ⟨s, rfl, rfl, rfl, rfl, fun _ => ⟨rfl, rfl⟩, fun p hp => himage p hp fun e => ha (e ▸ hp)⟩

theorem Held.load (hr : s.Alive s.running) (himage : ∀ p, s.Alive p → own p = s.image clean p) (ha : s.Unused a)
    (hd : ∀ p q b, s.Alive p → s.Alive q → (s.task p).fpu = some b → (s.task q).fpu = some b → p = q) :
    Held clean (fpuLoad clean s s.running a) own := by
  unfold fpuLoad
  have hown := himage s.running hr
  unfold State.image at hown
  cases hb : (s.task s.running).fpu with
  | some b =>
    rw [hb] at hown
    constructor
    · exact hr
    · rintro q hq -
      cases hq
      exact ⟨hown, by rw [hb]; exact nofun⟩
    · rintro q hq hn
      cases hq
      exact absurd hr hn
    · exact fun p hp _ => himage p hp
    · exact hd
  | none =>
    rw [hb] at hown
    have hsame : ∀ x : Task, x.died = (s.task s.running).died → ∀ p, (s.setTask s.running x).Alive p ↔ s.Alive p := by
      intro x hx p
      unfold State.Alive
      by_cases hp : p = s.running
      · subst hp
        rw [setTask_same, hx, setTask_table]
      · rw [setTask_ne _ hp, setTask_table]
    have hsame := hsame { s.task s.running with fpu := some a, used := true, enabled := true } rfl
    have hother : ∀ p, s.Alive p → (s.task p).fpu ≠ some a := fun p hp => ha p hp.1 hp.2
    constructor
    · exact (hsame _).2 hr
    · rintro q hq -
      cases hq
      exact ⟨hown, by simp⟩
    · rintro q hq hn
      cases hq
      exact absurd ((hsame _).2 hr) hn
    · intro p hp hne
      have hpr : p ≠ s.running := fun e => hne (e ▸ rfl)
      rw [himage p ((hsame p).1 hp)]
      exact (image_congr (congrArg Task.fpu (setTask_ne _ hpr)) fun _ _ => rfl).symm
    · intro p q b hp hq hpb hqb
      have hp := (hsame p).1 hp
      have hq := (hsame q).1 hq
      by_cases h1 : p = s.running <;> by_cases h2 : q = s.running
      · rw [h1, h2]
      · subst h1
        rw [setTask_same] at hpb
        rw [setTask_ne _ h2, ← hpb] at hqb
        exact absurd hqb (hother q hq)
      · subst h2
        rw [setTask_same] at hqb
        rw [setTask_ne _ h1, ← hqb] at hpb
        exact absurd hpb (hother p hp)
      · rw [setTask_ne _ h1] at hpb
        rw [setTask_ne _ h2] at hqb
        exact hd p q b hp hq hpb hqb

theorem Inv.trap (h : Inv clean s own) (ha : s.Unused a) (hk : s.ts = true → Kept s) :
    (trap clean s a = .error .uid ∧ (s.task s.running).uid = 0) ∨
      ∃ t, trap clean s a = .ok t ∧ t.running = s.running ∧ t.lastFpuTask = some t.running ∧ Held clean t own := by
  unfold Fpu.trap
  split
  swap
  · rename_i hts
    exact .inr ⟨s, rfl, rfl, h.clear (Bool.not_eq_true _ ▸ hts), h.toHeld⟩
  rename_i hts
  unfold fpuHandler
  split
  · exact .inl ⟨rfl, ‹_›⟩
  refine .inr ?_
  have hs : Held clean { s with ts := false } own := ⟨h.running, h.owner, h.gone, h.image, h.distinct⟩
  unfold fpuEnable
  dsimp only
  split
  · exact ⟨_, rfl, rfl, ‹_›, hs⟩
  rename_i hl
  obtain ⟨t, ht, hrun, htab, -, hfpu, himage⟩ := hs.save hl (hk hts)
  have hsame : ∀ p, t.Alive p ↔ s.Alive p := fun p => by
    unfold State.Alive
    rw [htab, (hfpu p).2]
  refine ⟨fpuLoad clean t s.running a, by rw [ht]; rfl, ?_⟩
  have hload : Held clean (fpuLoad clean t t.running a) own := by
    apply Held.load
    · rw [hsame, hrun]
      exact h.running
    · exact fun p hp => himage p ((hsame p).1 hp)
    · intro p hp hd
      rw [(hfpu p).1]
      rw [htab] at hp
      rw [(hfpu p).2] at hd
      exact ha p hp hd
    · intro p q b hp hq hpb hqb
      rw [(hfpu _).1] at hpb hqb
      exact h.distinct p q b ((hsame p).1 hp) ((hsame q).1 hq) hpb hqb
  rw [hrun] at hload
  refine ⟨?_, ?_, hload⟩
  · unfold fpuLoad
    split <;> exact hrun
  · unfold fpuLoad
    split <;> exact congrArg some hrun.symm

/-! ## The other steps -/

theorem Held.frame (h : Held clean s own) (hregs : t.regs = s.regs) (hheap : t.heap = s.heap) (hl : t.lastFpuTask = s.lastFpuTask)
    (hsame : ∀ q, t.Alive q → s.Alive q ∧ (t.task q).fpu = (s.task q).fpu) (hrun : t.Alive t.running)
    (hgone : ∀ q, s.lastFpuTask = some q → ¬ t.Alive q → (t.task q).enabled = false) : Held clean t own := by
  constructor
  · exact hrun
  · intro q hq ha
    obtain ⟨h1, h2⟩ := hsame q ha
    rw [hregs, h2]
    exact h.owner q (hl ▸ hq) h1
  · exact fun q hq => hgone q (hl ▸ hq)
  · intro p hp hne
    obtain ⟨h1, h2⟩ := hsame p hp
    rw [h.image p h1 (hl ▸ hne)]
    exact (image_congr h2 fun b _ => congrFun hheap b).symm
  · intro p q b hp hq hpb hqb
    obtain ⟨h1, h2⟩ := hsame p hp
    obtain ⟨h3, h4⟩ := hsame q hq
    exact h.distinct p q b h1 h3 (h2 ▸ hpb) (h4 ▸ hqb)

theorem Held.add {x : Task} {heap : Nat → α} {v : α} (h : Held clean s own) (hp : p ∉ s.table) (hl : s.lastFpuTask ≠ some p)
    (hx : x.died = false) (hheap : ∀ q b, s.Alive q → (s.task q).fpu = some b → heap b = s.heap b ∧ x.fpu ≠ some b)
    (ht : t = { s.setTask p x with table := p :: s.table, heap := heap }) (hv : v = t.image clean p) :
    Held clean t (update own p v) := by
  have hsame : ∀ q, q ≠ p → t.task q = s.task q := fun q hq => by
    rw [ht]; exact setTask_ne x hq
  have htp : t.task p = x := by
    rw [ht]; exact setTask_same x
  have halive : ∀ q, q ≠ p → (t.Alive q ↔ s.Alive q) := fun q hq => by
    unfold State.Alive
    rw [hsame q hq, ht]
    simp [hq]
  have hlast : t.lastFpuTask = s.lastFpuTask := by rw [ht]; rfl
  have hregs : t.regs = s.regs := by rw [ht]; rfl
  have hrun : t.running = s.running := by rw [ht]; rfl
  have hthp : t.heap = heap := by rw [ht]
  have hrp : s.running ≠ p := fun e => hp (e ▸ h.running.1)
  constructor
  · rw [hrun]
    exact (halive _ hrp).2 h.running
  · intro q hq ha
    rw [hlast] at hq
    have hqp : q ≠ p := fun e => hl (e ▸ hq)
    rw [update_of_ne hqp, hregs, hsame q hqp]
    exact h.owner q hq ((halive q hqp).1 ha)
  · intro q hq ha
    rw [hlast] at hq
    have hqp : q ≠ p := fun e => hl (e ▸ hq)
    rw [hsame q hqp]
    exact h.gone q hq fun e => ha ((halive q hqp).2 e)
  · intro q hq hne
    by_cases hqp : q = p
    · subst hqp
      rw [update_self, hv]
    · have hqs := (halive q hqp).1 hq
      rw [update_of_ne hqp, h.image q hqs (hlast ▸ hne)]
      symm
      apply image_congr
      · rw [hsame q hqp]
      · intro b hb
        rw [hthp]
        exact (hheap q b hqs hb).1
  · intro q r b hq hr hqb hrb
    by_cases h1 : q = p <;> by_cases h2 : r = p
    · rw [h1, h2]
    · subst h1
      rw [hsame r h2] at hrb
      rw [htp] at hqb
      exact absurd hqb (hheap r b ((halive r h2).1 hr) hrb).2
    · subst h2
      rw [hsame q h1] at hqb
      rw [htp] at hrb
      exact absurd hrb (hheap q b ((halive q h1).1 hq) hqb).2
    · rw [hsame q h1] at hqb
      rw [hsame r h2] at hrb
      exact h.distinct q r b ((halive q h1).1 hq) ((halive r h2).1 hr) hqb hrb

theorem Inv.create {uid : Nat} (h : Inv clean s own) (hp : p ∉ s.table) (hl : s.lastFpuTask ≠ some p)
    (hs : taskCreate s p uid = .ok t) : Inv clean t (update own p clean) := by
  unfold taskCreate at hs
  split at hs
  · cases hs
  cases hs
  refine ⟨h.add hp hl rfl (fun q b _ _ => ⟨rfl, fun e => by cases e⟩) rfl ?_, h.clear⟩
  unfold State.image
  rw [show _ = newTask uid from setTask_same _]
  rfl

theorem Inv.fork (h : Inv clean s own) (hp : p ∉ s.table) (ha : s.Unused a) (hl : s.lastFpuTask ≠ some p)
    (hsv : s.lastFpuTask = some s.running → Saved s s.running) (hs : taskFork s p a = .ok t) :
    Inv clean t (update own p (own s.running)) := by
  have hparent : own s.running = s.image clean s.running := by
    by_cases hr : s.lastFpuTask = some s.running
    · obtain ⟨ho, hf⟩ := h.owner _ hr h.running
      obtain ⟨b, hb⟩ := Option.ne_none_iff_exists'.1 hf
      simpa [Saved, State.image, hb, ho] using hsv hr
    · exact h.image _ h.running hr
  have hold : ∀ q b, s.Alive q → (s.task q).fpu = some b → b ≠ a := by
    rintro q b hq hb rfl
    exact ha q hq.1 hq.2 hb
  have hd : (s.task s.running).died = false := h.running.2
  unfold State.image at hparent
  unfold taskFork at hs
  split at hs
  · cases hs
  dsimp only at hs
  split at hs
  · rename_i hb
    rw [hb] at hparent
    cases hs
    refine ⟨h.add hp hl hd (fun q b hq hqb => ⟨rfl, by rw [hb]; exact nofun⟩) rfl ?_, h.clear⟩
    unfold State.image
    rw [show _ = s.task s.running from setTask_same _, hb]
    exact hparent
  · rename_i b hb
    rw [hb] at hparent
    cases hs
    refine ⟨h.add (x := { s.task s.running with fpu := some a }) hp hl hd (fun q c hq hqb => ⟨update_of_ne (hold q c hq hqb) .., ?_⟩) rfl ?_, h.clear⟩
    · exact fun e => hold q c hq hqb (Option.some.inj e).symm
    · unfold State.image
      rw [show _ = { s.task s.running with fpu := some a } from setTask_same _]
      exact hparent.trans (update_self a (s.heap b) s.heap).symm

theorem Inv.schedule (h : Inv clean s own) {n : Nat} (hn : s.Alive n) : Inv clean (schedule s n) own := by
  unfold Fpu.schedule
  split
  · exact h
  · exact ⟨⟨hn, h.owner, h.gone, h.image, h.distinct⟩, nofun⟩

theorem exited_died (x : Task) : (exited x).died = true := by
  unfold exited
  split <;> rfl

theorem Inv.exit (h : Inv clean s own) {n : Nat} (hn : s.Alive n) (hne : n ≠ s.running) : Inv clean (taskExit s n) own := by
  have hsame : ∀ q, q ≠ s.running → ((taskExit s n).task q = s.task q ∧ ((taskExit s n).Alive q ↔ s.Alive q)) := by
    intro q hq
    unfold State.Alive taskExit Fpu.schedule
    rw [setTask_running, if_neg hne]
    exact ⟨setTask_ne _ hq, by rw [show _ = s.task q from setTask_ne _ hq]; exact Iff.rfl⟩
  have hdied : (taskExit s n).task s.running = exited (s.task s.running) := by
    unfold taskExit Fpu.schedule
    rw [setTask_running, if_neg hne]
    exact setTask_same _
  have hrun : (taskExit s n).running = n ∧ (taskExit s n).ts = true ∧ (taskExit s n).lastFpuTask = s.lastFpuTask ∧
      (taskExit s n).regs = s.regs ∧ (taskExit s n).heap = s.heap := by
    unfold taskExit Fpu.schedule
    rw [setTask_running, if_neg hne]
    exact ⟨rfl, rfl, rfl, rfl, rfl⟩
  refine ⟨h.frame hrun.2.2.2.1 hrun.2.2.2.2 hrun.2.2.1 ?_ ?_ ?_, ?_⟩
  · intro q hq
    have hqr : q ≠ s.running := by
      rintro rfl
      have hd := hq.2
      rw [hdied, exited_died] at hd
      cases hd
    exact ⟨(hsame q hqr).2.1 hq, by rw [(hsame q hqr).1]⟩
  · rw [hrun.1]
    exact (hsame n hne).2.2 hn
  · intro q hq ha
    by_cases hqr : q = s.running
    · subst hqr
      obtain ⟨b, hb⟩ := Option.ne_none_iff_exists'.1 (h.owner _ hq h.running).2
      rw [hdied]
      unfold exited
      rw [hb]
    · rw [(hsame q hqr).1]
      exact h.gone q hq fun e => ha ((hsame q hqr).2.2 e)
  · intro hts
    rw [hrun.2.1] at hts
    cases hts

theorem Inv.reap (h : Inv clean s own) (hp : (s.task p).died = true) :
    Inv clean { s with table := s.table.filter (· ≠ p) } own := by
  have halive : ∀ q, State.Alive { s with table := s.table.filter (· ≠ p) } q ↔ s.Alive q := by
    intro q
    unfold State.Alive
    simp only [List.mem_filter, decide_eq_true_eq]
    constructor
    · exact fun hq => ⟨hq.1.1, hq.2⟩
    · refine fun hq => ⟨⟨hq.1, ?_⟩, hq.2⟩
      rintro rfl
      rw [hp] at hq
      cases hq.2
  refine ⟨h.frame rfl rfl rfl ?_ ?_ ?_, h.clear⟩
  · exact fun q hq => ⟨(halive q).1 hq, rfl⟩
  · exact (halive _).2 h.running
  · exact fun q hq ha => h.gone q hq fun e => ha ((halive q).2 e)

theorem Inv.reuse {x : Task} (h : Inv clean s own) (hp : p ∉ s.table) (hl : s.lastFpuTask ≠ some p) :
    Inv clean (s.setTask p x) own := by
  have hsame : ∀ q, q ≠ p → ((s.setTask p x).Alive q ↔ s.Alive q) := fun q hq => by
    unfold State.Alive
    rw [setTask_ne _ hq, setTask_table]
  refine ⟨h.frame rfl rfl rfl ?_ ?_ ?_, h.clear⟩
  · intro q hq
    have hqp : q ≠ p := fun e => hp (e ▸ hq.1)
    exact ⟨(hsame q hqp).1 hq, by rw [setTask_ne _ hqp]⟩
  · exact (hsame _ fun e => hp (e ▸ h.running.1)).2 h.running
  · intro q hq ha
    have hqp : q ≠ p := fun e => hl (e ▸ hq)
    rw [setTask_ne _ hqp]
    exact h.gone q hq fun e => ha ((hsame q hqp).2 e)

theorem Inv.use {f : α → α} (h : Inv clean s own) (ha : s.Unused a) (hk : s.ts = true → Kept s)
    (hs : step clean s (.use f a) = .ok t) : Inv clean t (update own s.running t.regs) := by
  obtain ⟨u, hu, hs⟩ := bind_ok hs
  cases hs
  obtain ⟨h1, -⟩ | ⟨v, h1, hrun, hlast, hv⟩ := h.trap ha hk
  · rw [h1] at hu
    cases hu
  rw [h1] at hu
  cases hu
  rw [hrun] at hlast
  refine ⟨⟨hv.running, ?_, hv.gone, ?_, hv.distinct⟩, fun _ => hrun ▸ hlast⟩
  · intro q hq hqa
    cases hlast.symm.trans hq
    exact ⟨update_self .., (hv.owner _ hlast hqa).2⟩
  · intro q hq hne
    have hqr : q ≠ s.running := fun e => hne (e ▸ hlast)
    rw [update_of_ne hqr]
    exact hv.image q hq hne

/-! ## Every run -/

theorem owned_start {x : State α × (Nat → α)} (h : (owned clean).start x) : Inv clean x.1 x.2 := by
  obtain ⟨⟨hts, hl, htab, uid, hx⟩, hown⟩ := h
  have hnone : ∀ p, x.1.Alive p → p = x.1.running := fun p hp => by
    have hm := hp.1
    rw [htab] at hm
    exact List.mem_singleton.1 hm
  refine ⟨⟨⟨by rw [htab]; exact List.mem_singleton.2 rfl, by rw [hx]; rfl⟩, ?_, ?_, ?_, ?_⟩, ?_⟩
  · intro q hq
    rw [hl] at hq
    cases hq
  · intro q hq
    rw [hl] at hq
    cases hq
  · intro p hp _
    rw [hown, hnone p hp]
    unfold State.image
    rw [hx]
    rfl
  · exact fun p q _ hp hq _ _ => (hnone p hp).trans (hnone q hq).symm
  · intro h0
    rw [hts] at h0
    cases h0

theorem owned_step {x y : State α × (Nat → α)} {act : Act α} (h : Inv clean x.1 x.2) (hi : Isolated x.1 act)
    (hs : (owned clean).Steps x act y) : Inv clean y.1 y.2 := by
  obtain ⟨⟨he, hs⟩, hy⟩ := Machine.record_steps.1 hs
  rw [hy]
  cases act with
  | create p uid => exact h.create he hi hs
  | fork p a => exact h.fork he.1 he.2 hi.1 hi.2 hs
  | use f a => exact h.use he hi hs
  | switch n => exact Except.ok.inj hs ▸ h.schedule he
  | exit n => exact Except.ok.inj hs ▸ h.exit he.1 he.2
  | reap p => exact Except.ok.inj hs ▸ h.reap he.2
  | reuse p x => exact Except.ok.inj hs ▸ h.reuse he hi

theorem owned_inv {x : State α × (Nat → α)} (h : (owned clean).Reach (fun x a => Isolated x.1 a) x) : Inv clean x.1 x.2 :=
  Machine.Reach.inv (I := fun y => Inv clean y.1 y.2) (fun _ => owned_start) (fun _ _ _ => owned_step) h

instance (x : State α × (Nat → α)) (act : Act α) : Decidable ((owned clean).enabled x act) :=
  inferInstanceAs (Decidable (enabled x.1 act))

def boot : State Nat × (Nat → Nat) := (⟨true, 7, none, 1, [1], fun _ => newTask 1000, fun _ => 0⟩, fun _ => 0)

theorem boot_start : (owned 0).start boot := ⟨⟨rfl, rfl, rfl, 1000, rfl⟩, rfl⟩

def oneRound : List (Act Nat) := [.use (fun _ => 1) 10, .create 2 1000, .switch 2, .use (fun _ => 2) 20, .switch 1]

end Onix.Fpu
