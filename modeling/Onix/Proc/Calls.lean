/-
What the functions of the tasks and timers do, one lemma for each: the timer that is freed, the task that is found, woken or switched to.
-/
import Onix.Proc.Model

namespace Onix.Proc

open Except List Function Onix.Lib

variable {s t u : State} {p q a : Nat}
variable {pid : Option Nat}

/-! ## Tasks -/

@[simp] theorem setTask_same (x : Task) : (s.setTask p x).task p = x := update_self ..

theorem setTask_ne (x : Task) (h : q ≠ p) : (s.setTask p x).task q = s.task q := update_of_ne h ..

theorem setTask_idem (x y : Task) : (s.setTask p x).setTask p y = s.setTask p y := by
  unfold State.setTask
  rw [update_idem]

theorem setTask_field {β : Type} {x : Task} (f : Task → β) (hf : f x = f (s.task p)) (q : Nat) : f ((s.setTask p x).task q) = f (s.task q) := by
  by_cases h : q = p
  · subst h
    rw [setTask_same, hf]
  · rw [setTask_ne _ h]

theorem getTask_some {pid : Nat} (h : getTask s pid = some p) : s.Page p ∧ (s.task p).pid = pid := by
  obtain ⟨i, hi, he⟩ := exists_of_findSome?_eq_some h
  split at he
  · cases he
  · rename_i x hx
    split at he
    · cases he
      exact ⟨⟨i, mem_range.1 hi, hx⟩, ‹_›⟩
    · cases he

theorem getTask_isSome {pid : Nat} (hp : s.Page p) (h : (s.task p).pid = pid) : ∃ q, getTask s pid = some q := by
  obtain ⟨i, hi, hs⟩ := hp
  refine Option.isSome_iff_exists.1 (findSome?_isSome_iff.2 ⟨i, mem_range.2 hi, ?_⟩)
  rw [hs]
  dsimp only
  rw [if_pos h]
  rfl

theorem freeSlot_some {i : Nat} (h : freeSlot s = some i) : i < taskNr ∧ s.table i = none := by
  exact ⟨mem_range.1 (mem_of_find?_eq_some h), of_decide_eq_true (find?_some h :)⟩

/-! ## Timers -/

theorem timerPut_ok (h : timerPut s a = .ok t) :
    a ∈ s.timers ∧ t = { s with timers := s.timers.filter (· ≠ a), freed := a :: s.freed } := by
  unfold timerPut at h
  split at h
  · exact ⟨‹_›, (ok.inj h).symm⟩
  · cases h

/-- Timers are freed, and nothing else is changed. -/
structure Frees (s t : State) : Prop where
  eq : t = { s with timers := t.timers, freed := t.freed }
  timers : ∀ a ∈ t.timers, a ∈ s.timers

theorem Frees.refl (s : State) : Frees s s := ⟨rfl, fun _ h => h⟩

theorem Frees.trans (h1 : Frees s t) (h2 : Frees t u) : Frees s u := by
  refine ⟨?_, fun a ha => h1.timers a (h2.timers a ha)⟩
  rw [h2.eq, h1.eq]

theorem Frees.put (h : timerPut s a = .ok t) : Frees s t := by
  obtain ⟨-, rfl⟩ := timerPut_ok h
  exact ⟨rfl, fun b hb => (mem_filter.1 hb).1⟩

theorem Frees.unblockTimer (h : unblockTimer s p = .ok t) : Frees s t := by
  unfold Proc.unblockTimer at h
  split at h
  · cases h
    exact .refl s
  split at h
  · cases h
    exact .refl s
  · exact .put h

theorem removeLoop_ok : ∀ (l : List Nat) (s t : State), l.foldlM (fun s a => if (s.timer a).task = p then timerPut s a else .ok s) s = .ok t →
    Frees s t ∧ ∀ a ∈ l, (s.timer a).task = p → a ∉ t.timers
  | [], s, t, h => by
    cases h
    exact ⟨.refl s, nofun⟩
  | a :: l, s, t, h => by
    rw [foldlM_cons] at h
    obtain ⟨u, hu, h⟩ := bind_ok h
    have h1 : Frees s u ∧ ((s.timer a).task = p → a ∉ u.timers) := by
      split at hu
      · obtain ⟨-, he⟩ := timerPut_ok hu
        refine ⟨.put hu, fun _ hm => ?_⟩
        rw [he] at hm
        exact of_decide_eq_true (mem_filter.1 hm).2 rfl
      · rename_i hn
        cases hu
        exact ⟨.refl s, fun h => absurd h hn⟩
    obtain ⟨h2, h3⟩ := removeLoop_ok l u t h
    refine ⟨h1.1.trans h2, fun b hb hbp hm => ?_⟩
    rcases mem_cons.1 hb with rfl | hb
    · exact h1.2 hbp (h2.timers _ hm)
    · refine h3 b hb ?_ hm
      rw [h1.1.eq]
      exact hbp

theorem timerRemove_ok (h : timerRemove s p = .ok t) : Frees s t ∧ ∀ a ∈ t.timers, (t.timer a).task ≠ p := by
  obtain ⟨h1, h2⟩ := removeLoop_ok _ _ _ h
  refine ⟨h1, fun a ha hp => ?_⟩
  rw [h1.eq] at hp
  exact h2 a (h1.timers a ha) hp ha

/-! ## Waking -/

def Task.woken (x : Task) (reason : Int) : Task := { x with linked := false, timer := none, status := reason, state := .ready }

theorem taskUnblock_ok {e : Int} (h : taskUnblock s p e = .ok t) :
    (s.task p).state ≠ .running ∧ ∃ u, unblockTimer s p = .ok u ∧ t = u.setTask p ((s.task p).woken e) := by
  obtain ⟨u, hu, h⟩ := bind_ok h
  have he : u.task p = s.task p := by rw [(Frees.unblockTimer hu).eq]
  rw [he] at h
  split at h
  · cases h
  · exact ⟨‹_›, u, hu, (ok.inj h).symm⟩

/-! ## Switching -/

theorem taskSearch_some {st : TaskState} (h : taskSearch s st = some p) : s.Page p ∧ (s.task p).state = st := by
  have hall : ∀ q, taskSearch s st = some q → s.Page q ∧ (s.task q).state = st := by
    refine foldlRecOn (motive := fun found => ∀ q, found = some q → s.Page q ∧ (s.task q).state = st)
      _ _ nofun fun found hf i hi q hq => ?_
    unfold searchSlot at hq
    split at hq
    · exact hf q hq
    rename_i x hx
    split at hq
    · exact hf q hq
    rename_i hc
    have hgood : s.Page x ∧ (s.task x).state = st := ⟨⟨i, mem_range.1 hi, hx⟩, not_not.1 (not_or.1 hc).1⟩
    split at hq
    · cases hq
      exact hgood
    · split at hq
      · cases hq
        exact hgood
      · exact hf q hq
  exact hall p h

/-- The processor goes to a ready task or to the idle task; only the two change their state. -/
structure Switched (s t : State) : Prop where
  eq : t = { s with running := t.running, task := t.task }
  task : ∀ p, t.task p = { s.task p with state := (t.task p).state, ticks := (t.task p).ticks }
  next : (s.Page t.running ∧ (s.task t.running).state = .ready) ∨ t.running = s.idle
  running : (t.task t.running).state = .running
  other : ∀ p, p ≠ t.running → (t.task p).state = (s.task p).state ∨ (s.task p).state = .running ∧ (t.task p).state = .ready

theorem leave_eq (x : Task) : x.leave = { x with state := x.leave.state, ticks := x.leave.ticks } := rfl

theorem leave_state (x : Task) : x.leave.state = x.state ∨ x.state = .running ∧ x.leave.state = .ready := by
  unfold Task.leave
  split
  · exact .inr ⟨‹_›, rfl⟩
  · exact .inl rfl

theorem schedule_switched (s : State) : Switched s (schedule s) := by
  have hleft : ∀ p, ∃ st n, ((s.setTask s.running (s.task s.running).leave).task p) = { s.task p with state := st, ticks := n } ∧
      (st = (s.task p).state ∨ (s.task p).state = .running ∧ st = .ready) := by
    intro p
    by_cases h : p = s.running
    · subst h
      rw [setTask_same]
      exact ⟨_, _, leave_eq _, leave_state _⟩
    · rw [setTask_ne _ h]
      exact ⟨_, _, rfl, .inl rfl⟩
  generalize hn : (taskSearch s .ready).getD s.idle = next
  generalize hl : s.setTask s.running (s.task s.running).leave = l at hleft
  have heq : schedule s = { l.setTask next { l.task next with state := .running } with running := next } := by
    unfold schedule
    rw [hn, hl]
  have hnext : ((schedule s).task next) = { l.task next with state := .running } := by
    rw [heq]
    exact setTask_same _
  have hother : ∀ p, p ≠ next → (schedule s).task p = l.task p := by
    intro p hp
    rw [heq]
    exact setTask_ne _ hp
  have hrun : (schedule s).running = next := by rw [heq]
  constructor
  · rw [heq, ← hl]
    rfl
  · intro p
    obtain ⟨st, n, h1, -⟩ := hleft p
    by_cases hp : p = next
    · subst hp
      rw [hnext, h1]
    · rw [hother p hp, h1]
  · rw [hrun, ← hn]
    cases hs : taskSearch s .ready with
    | none => exact .inr rfl
    | some p => exact .inl (taskSearch_some hs)
  · rw [hrun, hnext]
  · intro p hp
    rw [hrun] at hp
    obtain ⟨st, n, h1, h2⟩ := hleft p
    rw [hother p hp, h1]
    exact h2

theorem Switched.field {β : Type} (h : Switched s t) (f : Task → β) (hf : ∀ (x : Task) st n, f { x with state := st, ticks := n } = f x) (p : Nat) :
    f (t.task p) = f (s.task p) := by
  rw [h.task p, hf]

theorem Switched.table (h : Switched s t) : t.table = s.table := by rw [h.eq]

theorem Switched.idle (h : Switched s t) : t.idle = s.idle := by rw [h.eq]

theorem Switched.page (h : Switched s t) : t.Page p ↔ s.Page p := by
  unfold State.Page
  rw [h.table]

/-! ## Blocking -/

theorem blockTimer_ok {ms : Int} (h : blockTimer s ms = .ok t) :
    t = s ∨ (s.task s.running).timer = none ∧
      t = (timerAdd s (BitVec.ofInt 32 ms) false).setTask s.running { s.task s.running with timer := some s.nextTimer } := by
  unfold blockTimer at h
  split at h
  · split at h
    · cases h
    · exact .inr ⟨not_not.1 ‹_›, (ok.inj h).symm⟩
  · exact .inl (ok.inj h).symm

theorem taskBlock_ok {st : TaskState} {ms : Int} (h : taskBlock s st ms = .ok t) :
    ∃ u, blockTimer s ms = .ok u ∧ t = schedule (u.setTask u.running { u.task u.running with linked := true, state := st }) := by
  unfold taskBlock at h
  split at h
  · cases h
  split at h
  · cases h
  obtain ⟨u, hu, h⟩ := bind_ok h
  exact ⟨u, hu, (ok.inj h).symm⟩

/-! ## Calls -/

theorem taskFork_ok (h : taskFork s p = .ok t) : (s.task s.running).linked = false ∧ (s.task s.running).state = .running ∧
    ∃ i, i < taskNr ∧ s.table i = none ∧
      t = s.spawn i p { s.task s.running with
        pid := i, ppid := (s.task s.running).pid, ticks := (s.task s.running).priority, state := .ready } := by
  unfold taskFork at h
  dsimp only at h
  split at h
  · cases h
  rename_i hc
  obtain ⟨h1, h2⟩ := not_or.1 hc
  split at h
  · cases h
  rename_i i hi
  exact ⟨by simpa using h1, not_not.1 h2, i, (freeSlot_some hi).1, (freeSlot_some hi).2, (ok.inj h).symm⟩

theorem sysKill_ok {pid : Nat} {sig : Int} (h : sysKill s pid sig = .ok t) : t = s ∨ ∃ p, getTask s pid = some p ∧
    (t = s.setTask p { s.task p with signal := (s.task p).signal ||| sigmask sig } ∨
      ((s.task p).state = .waiting ∨ (s.task p).state = .sleeping) ∧
        taskUnblock (s.setTask p { s.task p with signal := (s.task p).signal ||| sigmask sig }) p (-eintr) = .ok t) := by
  unfold sysKill at h
  split at h
  · exact .inl (ok.inj h).symm
  split at h
  · exact .inl (ok.inj h).symm
  rename_i p hp
  dsimp only at h
  split at h
  · exact .inl (ok.inj h).symm
  split at h
  · exact .inl (ok.inj h).symm
  refine .inr ⟨p, hp, ?_⟩
  split at h
  · exact .inr ⟨‹_›, h⟩
  · exact .inl (ok.inj h).symm

theorem mem_children {i c : Nat} : (i, c) ∈ children s pid ↔ i < taskNr ∧ s.table i = some c ∧ 2 ≤ i ∧
    (s.task c).ppid = (s.task s.running).pid ∧ (pid = none ∨ pid = some (s.task c).pid) := by
  unfold children
  rw [mem_filterMap]
  constructor
  · rintro ⟨j, hj, he⟩
    split at he
    · cases he
    rename_i x hx
    split at he
    · rename_i hc
      cases he
      exact ⟨mem_range.1 hj, hx, hc⟩
    · cases he
  · rintro ⟨hi, hc, h⟩
    refine ⟨i, mem_range.2 hi, ?_⟩
    rw [hc]
    exact if_pos h

theorem deadChild_some {i c : Nat} (h : deadChild s pid = some (i, c)) :
    (i, c) ∈ children s pid ∧ (s.task c).state = .died := by
  exact ⟨mem_of_find?_eq_some h, of_decide_eq_true (find?_some h :)⟩

theorem deadChild_none {i c : Nat} (h : deadChild s pid = none) (hm : (i, c) ∈ children s pid) :
    (s.task c).state ≠ .died := by
  exact of_decide_eq_false (by simpa using find?_eq_none.1 h (i, c) hm)

theorem taskWaitpid_ok (h : taskWaitpid s pid = .ok t) :
    (∃ i c, deadChild s pid = some (i, c) ∧ t = { s.inCall none with table := update s.table i none }) ∨
    (deadChild s pid = none ∧ children s pid = [] ∧ t = s.inCall none) ∨
    (deadChild s pid = none ∧ children s pid ≠ [] ∧
      taskBlock (s.setTask s.running { s.task s.running with waitpid := pid, call := some pid }) .waiting 0 = .ok t) := by
  unfold taskWaitpid at h
  split at h
  · rename_i i c hd
    exact .inl ⟨i, c, hd, (ok.inj h).symm⟩
  · rename_i hd
    split at h
    · exact .inr (.inl ⟨hd, ‹_›, (ok.inj h).symm⟩)
    · exact .inr (.inr ⟨hd, ‹_›, h⟩)

theorem putAlarm_ok (h : putAlarm s = .ok t) :
    t = s ∧ (s.task s.running).alarm = none ∨ ∃ a, (s.task s.running).alarm = some a ∧ timerPut s a = .ok t := by
  unfold putAlarm at h
  split at h
  · exact .inl ⟨(ok.inj h).symm, ‹_›⟩
  · exact .inr ⟨_, ‹_›, h⟩

theorem sysAlarm_ok {sec : Word} (h : sysAlarm s sec = .ok t) : ∃ u, putAlarm s = .ok u ∧
    t = (timerAdd u (sec * 1000) true).setTask u.running { u.task u.running with alarm := some u.nextTimer } := by
  obtain ⟨u, hu, h⟩ := bind_ok h
  exact ⟨u, hu, (ok.inj h).symm⟩

end Onix.Proc
