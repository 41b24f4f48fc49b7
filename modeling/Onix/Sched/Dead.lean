/-
A task that has died stays dead. The state of a task is written in `task_block`, `task_unblock` and
`schedule`; none of them touches a dead task as long as `task_exit` does not block and the interrupt of a
disk wakes only a task that still waits for it.
-/
import Onix.Sched.Calls

namespace Onix.Sched

open Except List Onix.Lib

/-! ## The dead tasks -/

def dead (D : List Nat) (s : State) (a : Act) (t : State) : List Nat :=
  (match a with
  | .exit _ => s.running :: D
  | _ => D).filter fun p => decide (t.Page p)

def mortal : Machine (State × List Nat) Act Fault := tasks.record (fun _ D => D = []) dead

variable {s t : State} {D : List Nat} {p : Nat}

/-! ## Every run -/

theorem Inv.enter {ops : List Op} (h : Inv s D) (ho : s.Outside) : Inv (s.push ops) D := by
  have hk : (s.task s.running).kont = [] := isEmpty_iff.1 ho
  have halive : s.running ∉ D := fun hd => h.leaves hd hk
  have hpush : s.push ops = s.withKont (ops ++ []) := by
    unfold State.push State.withKont
    rw [hk]
  rw [hpush]
  refine ⟨h.toCore.others.resume h.running ⟨fun hd => absurd hd halive, ?_, h.noPipe, ?_⟩, h.running, ?_, fun hd => absurd hd halive⟩
  · intro n hn
    have h1 := (h.socket n _ hn).2
    rw [hk] at h1
    cases h1
  · intro d r hr hp
    have h1 := (h.request d r _ hr hp).2.2
    rw [hk] at h1
    exact h1.elim
  · rw [show (s.withKont (ops ++ [])).running = s.running from rfl, withKont_same]
    exact h.current

theorem Inv.exit {status : Int} (h : Inv s D) (ho : s.Outside) (hu : (s.task s.running).uid ≠ 0)
    (ht : taskExit s status = .ok t) :
    Inv t (s.running :: D) := by
  have hk : (s.task s.running).kont = [] := isEmpty_iff.1 ho
  unfold taskExit at ht
  dsimp only at ht
  split at ht
  · cases ht
  rename_i hn
  split at ht
  · cases ht
  have hn : (s.task s.running).node = none := not_not.1 hn
  rw [← ok.inj ht]
  generalize hx : ({ s.task s.running with
    state := .died
    status := status
    timer := none
    kont := [.iput (s.task s.running).ipwd, .iput (s.task s.running).iroot] ++ (s.task s.running).iexec.toList.map .iput ++
      (s.task s.running).files.map .close ++ [.reparent, .tellParent, .leave] } : Task) = x
  have hrest : Rest x.kont := by
    subst hx
    refine .inr ⟨[.iput (s.task s.running).ipwd, .iput (s.task s.running).iroot] ++ (s.task s.running).iexec.toList.map .iput ++
      (s.task s.running).files.map .close ++ [.reparent, .tellParent], by simp, ?_⟩
    intro o ho
    simp only [mem_append, mem_cons, mem_map, not_mem_nil, or_false] at ho
    rcases ho with (((rfl | rfl) | ⟨_, -, rfl⟩) | ⟨_, -, rfl⟩) | rfl | rfl <;> rfl
  have huid : ∀ q, ((s.setTask s.running x).task q).uid = (s.task q).uid := by
    intro q
    by_cases hq : q = s.running
    · subst hq
      rw [setTask_same, ← hx]
    · rw [setTask_ne _ hq]
  refine ⟨⟨⟨h.idle.1, (huid _).trans h.idle.2⟩, h.slot, ?_, ?_, ?_, ?_, ?_, ?_, ?_⟩, h.running, .inr (.head _), ?_⟩
  · intro q hq
    by_cases hqr : q = s.running
    · subst hqr
      rw [setTask_same]
      exact ⟨h.running, by rw [← hx]; exact hu, by rw [← hx], by rw [← hx]; exact hn, hrest⟩
    · rw [setTask_ne _ hqr]
      exact h.dead q ((mem_cons.1 hq).resolve_left hqr)
  · intro q hq hd
    by_cases hqr : q = s.running
    · exact hqr ▸ .head _
    · rw [setTask_ne _ hqr] at hd
      exact .tail _ (h.died q hq hd)
  · intro q hq hd
    by_cases hqr : q = s.running
    · subst hqr
      rw [setTask_same, ← hx] at hd
      exact absurd rfl hd
    · rw [setTask_ne _ hqr] at hd ⊢
      exact h.timer q hq hd
  · intro l q hq
    obtain ⟨h1, h2⟩ := h.queue l q hq
    have hqr : q ≠ s.running := by
      rintro rfl
      rw [hn] at h2
      cases h2
    rw [setTask_ne _ hqr]
    exact ⟨h1, h2⟩
  · intro n q hq
    obtain ⟨h1, h2⟩ := h.socket n q hq
    have hqr : q ≠ s.running := by
      rintro rfl
      rw [hk] at h2
      cases h2
    rw [setTask_ne _ hqr]
    exact ⟨h1, h2⟩
  · intro n q hq
    obtain ⟨h1, h2⟩ := h.pipe n q hq
    refine ⟨h1, h2.imp (huid q).trans fun ha => ?_⟩
    have hqr : q ≠ s.running := by
      rintro rfl
      have h3 := ha.head
      rw [hk] at h3
      cases h3
    have hq' : (s.setTask s.running x).task q = s.task q := setTask_ne _ hqr
    exact ⟨hq' ▸ ha.head, hq' ▸ ha.node, hq' ▸ ha.state, hq' ▸ ha.timer⟩
  · intro d r q hr hq
    obtain ⟨h1, h2, h3⟩ := h.request d r q hr hq
    have hqr : q ≠ s.running := by
      rintro rfl
      rw [hk] at h3
      exact h3
    rw [setTask_ne _ hqr]
    exact ⟨h1, fun hm => h2 ((mem_cons.1 hm).resolve_left hqr), h3⟩
  · intro _
    rw [show (s.setTask s.running x).running = s.running from rfl, setTask_same, ← hx]
    exact append_ne_nil_of_right_ne_nil _ (by simp)

theorem Inv.timers (h : Inv s D) (ht : timerWakeup s = .ok t) : Inv t D := by
  have hsat : Sat (fun _ => False) (timerWakeup s) fun u => Inv u D := by
    refine forRange_sat (fun _ u => Inv u D) taskNr (fun i u hi hu => ?_) h
    split
    · exact hu
    rename_i p hp
    split
    · exact hu
    rename_i e he
    split
    swap
    · exact hu
    -- a task with a timer is on a list, so it has not died, and it does not wait without a timeout
    have htimer : (u.task p).timer ≠ none := by rw [he]; exact Option.some_ne_none e
    cases hv : taskUnblock u p (-etime) with
    | error e => exact Sat.error id
    | ok v =>
      refine hu.unblock (fun hd => ?_) (fun n hn => ?_) hv
      · exact hu.timer p ⟨i, hi, hp⟩ htimer (hu.dead p hd).2.2.2.1
      · exact (hu.pipe n p hn).2.resolve_right fun ha => htimer ha.timer
  exact hsat.of_ok ht

theorem Inv.clock (h : Inv s D) (ht : clockHandler s = .ok t) : Inv t D := by
  obtain ⟨u, hu, ht⟩ := bind_ok ht
  have hsame : Same s { s with jiffies := s.jiffies + 1 } :=
    ⟨rfl, rfl, rfl, fun _ => rfl, fun _ => rfl, fun _ => rfl, fun _ => rfl, fun _ => rfl, rfl, rfl, fun _ _ h _ => h⟩
  have h1 : Inv u D := (h.same hsame).timers hu
  have h2 : Inv (u.setTask u.running { u.task u.running with jiffies := u.jiffies, ticks := (u.task u.running).ticks - 1 }) D :=
    h1.same (Same.task rfl rfl rfl rfl rfl)
  rw [← ok.inj ht]
  split
  · exact h2.toCore.switch
  · exact h2

theorem mortal_start {x : State × List Nat} (h : mortal.start x) : Inv x.1 x.2 := by
  obtain ⟨⟨hrun, hidle, hslot, huid, hst, hall, hq, hw, hr⟩, hD⟩ := h
  rw [hD]
  refine ⟨⟨⟨hidle, huid⟩, fun i j p _ _ => hslot i j p, nofun, fun p hp hd => absurd hd (hall p hp).1, ?_, ?_, ?_, ?_, ?_⟩,
    hrun ▸ hidle, .inl (hrun ▸ hst), nofun⟩
  · exact fun p hp ht => absurd (hall p hp).2.2.1 ht
  · intro q p hp
    rw [hq] at hp
    cases hp
  · intro n p hp
    rw [hw] at hp
    cases hp
  · intro n p hp
    rw [hw] at hp
    cases hp
  · intro d r p hm
    rw [hr] at hm
    cases hm

theorem mortal_step {x y : State × List Nat} {a : Act} (h : Inv x.1 x.2) (hq : Quiet x.1 a) (hs : mortal.Steps x a y) :
    Inv y.1 y.2 := by
  obtain ⟨⟨he, hs⟩, hy⟩ := Machine.record_steps.1 hs
  rw [hy]
  cases a with
  | enter ops => exact ok.inj hs ▸ (h.enter he.1).filter
  | exit status => exact (h.exit he.1 he.2 hs).filter
  | exec c =>
    unfold tasks step at hs
    dsimp only at hs
    cases hk : (x.1.task x.1.running).kont with
    | nil =>
      rw [hk] at hs
      exact ok.inj hs ▸ h.filter
    | cons op k =>
      rw [hk] at hs
      have hadmits : op.admits x.1 := by
        obtain ⟨o, ho, ha⟩ := he.1
        rw [hk] at ho
        cases ho
        exact ha
      exact h.exec hk (hq op (by rw [hk]; rfl)) hadmits he.2 hs
  | clock => exact (h.clock hs).filter
  | alarm pid => exact (h.kill hs).filter
  | interrupt w => exact (h.wake hq hs).filter

theorem mortal_inv {x : State × List Nat} (h : mortal.Reach (fun x a => Quiet x.1 a) x) : Inv x.1 x.2 :=
  Machine.Reach.inv (I := fun y => Inv y.1 y.2) (fun _ => mortal_start) (fun _ _ _ => mortal_step) h

/-! ## Who runs next -/

def Goes (s t : State) : Prop := t.running = s.running ∨ (t.task t.running).state = .running

theorem goes_schedule (s t : State) : Goes t (schedule s) := by
  obtain ⟨x, -, he⟩ := schedule_next (s := s)
  exact .inr (congrArg Task.state he)

theorem goes_block {u : State} {q : Queue} {st : TaskState} {ms : Nat} (h : taskBlock u q st ms = .ok t) : Goes s t :=
  (taskBlock_ok h).2 ▸ goes_schedule _ _

theorem goes_unblock {e : Int} (h : taskUnblock s p e = .ok t) : t.running = s.running := by
  rw [(taskUnblock_ok h).2]
  rfl

theorem goes_wake {w : Waiter} (h : wake s w = .ok t) : t.running = s.running := by
  unfold wake at h
  split at h
  · cases h
    rfl
  · obtain ⟨u, hu, h⟩ := bind_ok h
    have hrun : u.running = s.running := goes_unblock hu
    exact ok.inj h ▸ hrun

theorem goes_kill {pid : Nat} (h : sysKill s pid = .ok t) : t.running = s.running := by
  unfold sysKill at h
  split at h
  · cases h
    rfl
  dsimp only at h
  split at h
  · cases h
    rfl
  split at h
  · exact goes_unblock h
  · cases h
    rfl

theorem goes_clock (h : clockHandler s = .ok t) : Goes s t := by
  obtain ⟨u, hu, h⟩ := bind_ok h
  have hrun : u.running = s.running := by
    have hsat : Sat (fun _ => False) (timerWakeup { s with jiffies := s.jiffies + 1 }) fun u => u.running = s.running := by
      refine forRange_sat (fun _ (u : State) => u.running = s.running) taskNr (fun i v _ hv => ?_) rfl
      split
      · exact hv
      split
      · exact hv
      split
      · cases hw : taskUnblock v _ (-etime) with
        | error e => exact Sat.error id
        | ok w => exact (goes_unblock hw).trans hv
      · exact hv
    exact hsat.of_ok hu
  rw [← ok.inj h]
  split
  · exact goes_schedule _ _
  · exact .inl hrun

theorem goes_reparent : (reparent s).running = s.running := by
  refine foldlRecOn (motive := fun u : State => u.running = s.running) _ _ rfl fun u hu i _ => ?_
  unfold reparentSlot
  dsimp only
  split
  · exact hu
  split <;> exact hu

theorem goes_exec {c : Choice} {op : Op} (h : exec s c op = .ok t) : Goes s t := by
  cases op with
  | wait w n => exact goes_block h
  | woken w => exact .inl (ok.inj h ▸ by cases w <;> rfl)
  | wake w => exact .inl (goes_wake h)
  | block st n => exact goes_block h
  | wakeThread p g =>
    unfold exec wakeThread at h
    dsimp only at h
    split at h
    · exact .inl (ok.inj h ▸ rfl)
    · exact .inl (goes_unblock h)
  | sleep n => exact goes_block h
  | yield => exact ok.inj h ▸ goes_schedule _ _
  | lock l =>
    unfold exec lockAcquire at h
    dsimp only at h
    split at h
    · exact .inl (ok.inj h ▸ rfl)
    split at h
    · exact .inl (ok.inj h ▸ rfl)
    · exact goes_block h
  | unlock l =>
    unfold exec lockRelease at h
    dsimp only at h
    split at h
    · cases h
    split at h
    · exact .inl (ok.inj h ▸ rfl)
    split at h
    · exact .inl (ok.inj h ▸ rfl)
    · obtain ⟨u, -, h⟩ := bind_ok h
      exact ok.inj h ▸ goes_schedule _ _
  | waitBuffer d => exact goes_block h
  | request d idx n =>
    unfold exec deviceRequest at h
    dsimp only at h
    split at h
    · exact .inl (ok.inj h ▸ rfl)
    · exact goes_block h
  | granted =>
    unfold exec at h
    dsimp only at h
    split at h
    · exact .inl (ok.inj h ▸ rfl)
    · cases h
  | disk d n => exact .inl (ok.inj h ▸ by split <;> rfl)
  | busyWait d n => exact .inl (ok.inj h ▸ by unfold busyWait; split <;> rfl)
  | sectors d n => exact .inl (ok.inj h ▸ by unfold sectors; split <;> rfl)
  | check d n => exact .inl (ok.inj h ▸ by unfold check; split <;> rfl)
  | reset => exact .inl (ok.inj h ▸ by unfold reset; split <;> rfl)
  | result => exact .inl (ok.inj h ▸ rfl)
  | finish d i =>
    unfold exec finish at h
    dsimp only at h
    split at h
    · exact .inl (ok.inj h ▸ rfl)
    split at h
    · cases h
    · exact .inl ((goes_unblock h).trans rfl)
  | bwrite b => exact .inl (ok.inj h ▸ by unfold bwrite; dsimp only; split <;> rfl)
  | cleaned b => exact .inl (ok.inj h ▸ by unfold cleaned; split <;> rfl)
  | brelse b => exact .inl (ok.inj h ▸ rfl)
  | release b =>
    unfold exec release at h
    dsimp only at h
    split at h
    · exact .inl (ok.inj h ▸ rfl)
    split at h
    · exact .inl (ok.inj h ▸ rfl)
    · exact .inl ((goes_unblock h).trans rfl)
  | iput i =>
    unfold exec iput at h
    dsimp only at h
    split at h
    · cases h
    · exact .inl (ok.inj h ▸ rfl)
    · exact .inl (ok.inj h ▸ rfl)
    · exact .inl (ok.inj h ▸ by split <;> rfl)
    · exact .inl (ok.inj h ▸ by split <;> rfl)
  | closeInode i => exact .inl (ok.inj h ▸ rfl)
  | putInode i => exact .inl (ok.inj h ▸ rfl)
  | close f =>
    unfold exec close at h
    dsimp only at h
    split at h
    · cases h
    · exact .inl (ok.inj h ▸ by split <;> rfl)
  | reparent => exact .inl (ok.inj h ▸ goes_reparent)
  | tellParent =>
    unfold exec tellParent at h
    dsimp only at h
    split at h
    · cases h
    split at h
    · exact .inl (goes_unblock h)
    · exact .inl (ok.inj h ▸ rfl)
  | leave => exact ok.inj h ▸ goes_schedule _ _
  | kill pid => exact .inl (goes_kill h)
  | waitpid pid =>
    unfold exec taskWaitpid at h
    dsimp only at h
    split at h
    · exact .inl (ok.inj h ▸ rfl)
    split at h
    · exact .inl (ok.inj h ▸ rfl)
    · exact goes_block h
  | fork p =>
    unfold exec taskFork at h
    dsimp only at h
    split at h
    · cases h
    split at h
    · cases h
    split at h
    · cases h
    · exact .inl (ok.inj h ▸ rfl)
  | create p uid pr =>
    unfold exec taskCreate at h
    dsimp only at h
    split at h
    · cases h
    · exact .inl (ok.inj h ▸ rfl)
  | modify f => exact .inl (ok.inj h ▸ rfl)

theorem goes_step {a : Act} (h : step s a = .ok t) : Goes s t := by
  cases a with
  | enter ops => exact .inl (ok.inj h ▸ rfl)
  | exit status =>
    unfold step taskExit at h
    dsimp only at h
    split at h
    · cases h
    split at h
    · cases h
    · exact .inl (ok.inj h ▸ rfl)
  | exec c =>
    unfold step at h
    dsimp only at h
    split at h
    · exact .inl (ok.inj h ▸ rfl)
    · exact (goes_exec h).imp_left fun h1 => h1.trans rfl
  | clock => exact goes_clock h
  | alarm pid => exact .inl (goes_kill h)
  | interrupt w => exact .inl (goes_wake h)

/-- A task that has died stays so until it is freed, and is not switched to. -/
theorem dead_stays_dead {x y : State × List Nat} {a : Act} (h : mortal.Reach (fun x a => Quiet x.1 a) x) (hq : Quiet x.1 a)
    (hs : mortal.Steps x a y) :
    (∀ p ∈ y.2, (y.1.task p).state = .died) ∧ (y.1.running ∈ y.2 → y.1.running = x.1.running) := by
  have hy := mortal_step (mortal_inv h) hq hs
  refine ⟨fun p hp => (hy.dead p hp).2.2.1, fun hd => ?_⟩
  refine (goes_step (Machine.record_steps.1 hs).1.2).resolve_right fun hr => ?_
  rw [(hy.dead _ hd).2.2.1] at hr
  cases hr

instance (x : State × List Nat) (a : Act) : Decidable (mortal.enabled x a) := inferInstanceAs (Decidable (enabled x.1 a))

/-- The idle task on the page 100, and a task of a user on the page 101 with its parent on the page 102. One
inode, held by all, in a buffer of a disk with DMA. -/
def boot (dirty : Bool) : State where
  running := 100
  idle := 100
  table i := if i < 3 then some (100 + i) else none
  task p :=
    { pid := p - 100, ppid := 2, uid := if p = 100 then 0 else 1000, state := if p = 100 then .running else .ready, node := none,
      timer := none, status := 0, ret := 0, ticks := if p = 101 then 5 else 1, priority := 1, jiffies := 0, waitpid := some 0,
      ipwd := 0, iroot := 0, iexec := none, files := [], kont := [] }
  queue _ := []
  waiter _ := none
  lock _ := ⟨none, 0⟩
  requests _ := []
  nextRequest := 0
  up _ := true
  diskType _ := .dma
  jiffies := 0
  fs := ⟨fun _ => ⟨.minix, 6, 0⟩, fun _ => ⟨dirty, 1, 0, 0, 7, 2⟩, fun _ => ⟨0, 0⟩⟩

theorem boot_start (dirty : Bool) : mortal.start (boot dirty, []) := by
  refine ⟨⟨rfl, ⟨0, by decide, rfl⟩, ?_, rfl, rfl, ?_, fun _ => rfl, fun _ => rfl, fun _ => rfl⟩, rfl⟩
  · intro i j p hi hj
    unfold boot at hi hj
    dsimp only at hi hj
    split at hi <;> split at hj <;> simp_all
    omega
  · intro p _
    refine ⟨?_, rfl, rfl, rfl⟩
    unfold boot
    dsimp only
    split <;> exact nofun

def call : Act := .exec ⟨.ready, []⟩

def exits : List Act := [.enter [.yield], call, .exit 0]

/-- With the inode written back, the exit goes on. -/
theorem dead_stays_dead_clean : ∃ x y : State × List Nat, mortal.Reach
    (fun x a => Quiet x.1 a) x ∧ mortal.Steps x call y ∧ y.2 = [101] ∧
    (∀ p ∈ y.2, (y.1.task p).state = .died) ∧ (y.1.running ∈ y.2 → y.1.running = x.1.running) := by
  have h : (mortal.trace (fun x a => Quiet x.1 a) (boot false, []) exits).map (fun x =>
      (decide (enabled x.1 call), decide (Quiet x.1 call),
        (step x.1 call).toOption.map fun t => dead x.2 x.1 call t)) = some (true, true, some [101]) := by decide +kernel
  obtain ⟨x, hx, he⟩ := Option.map_eq_some_iff.1 h
  obtain ⟨h1, h2⟩ := Prod.mk.inj he
  obtain ⟨h2, h3⟩ := Prod.mk.inj h2
  cases ht : step x.1 call with
  | error e => rw [ht] at h3; cases h3
  | ok t =>
    rw [ht] at h3
    have he : enabled x.1 call := of_decide_eq_true h1
    have hs : mortal.Steps x call (t, dead x.2 x.1 call t) := Machine.record_steps.2 ⟨⟨he, ht⟩, rfl⟩
    have hr := Machine.trace_reach (boot_start false) hx
    exact ⟨x, _, hr, hs, Option.some.inj h3, dead_stays_dead hr (of_decide_eq_true h2) hs⟩

/-- With a write-back pending, `task_block` overwrites `TASK_DIED`: the interrupt of the disk makes the task ready,
and it is switched to. -/
theorem dead_runs : ∃ x : State × List Nat, mortal.Reach Machine.Any x ∧ x.1.running = 101 ∧ 101 ∈ x.2 ∧
    (x.1.task 101).state = .running := by
  have h : (mortal.trace Machine.Any (boot true, []) (exits ++ List.replicate 6 call ++
      [.enter [.sleep 10], call, .interrupt (.disk 0), .enter [.yield], call])).map (fun x =>
      (x.1.running, x.2, (x.1.task 101).state)) = some (101, [101], .running) := by decide +kernel
  obtain ⟨x, hx, he⟩ := Option.map_eq_some_iff.1 h
  obtain ⟨h1, h2⟩ := Prod.mk.inj he
  obtain ⟨h2, h3⟩ := Prod.mk.inj h2
  exact ⟨x, Machine.trace_reach (boot_start true) hx, h1, by rw [h2]; exact List.mem_cons_self .., h3⟩

end Onix.Sched
