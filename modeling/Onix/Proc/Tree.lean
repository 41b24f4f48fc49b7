/-
The process tree: a parent is in the table and has not died, it is older than its children, and a task that waits in `task_waitpid` has
no dead child to wait for. A task that exits leaves both to be repaired: its children get another parent, and its own parent is woken.
-/
import Onix.Proc.Calls

namespace Onix.Proc

open Onix.Lib

variable {s t u : State} {p q a : Nat}

/-! ## The invariant -/

def State.Waits (s : State) (p : Nat) (w : Option Nat) : Prop := (s.task p).state = .waiting ∧ (s.task p).call = some w

def Matches (w : Option Nat) (pid : Nat) : Prop := w = none ∨ w = some pid

def State.Dead (s : State) (p : Nat) : Prop := s.Page p ∧ (s.task p).state = .died

/-- The tree, where `rank` is an age and `ex` a wait that may have a dead child. -/
structure Tree (rank : Nat → Nat) (ex : Nat → Option Nat → Prop) (s : State) : Prop where
  zero : s.table 0 = some s.idle
  one : ∃ p, s.table 1 = some p
  room : ∀ i, taskNr ≤ i → s.table i = none
  pid : ∀ i p, s.table i = some p → (s.task p).pid = i
  root : ∀ i p, i < 2 → s.table i = some p → (s.task p).ppid = 0 ∧ (s.task p).state ≠ .died
  ppid : ∀ i p, s.table i = some p → (s.task p).ppid ≠ 0 →
    ∃ q, s.table (s.task p).ppid = some q ∧ (s.task q).state ≠ .died ∧ rank q < rank p
  call : ∀ i q w, s.table i = some q → s.Waits q w → (s.task q).waitpid = w
  child : ∀ i q z, s.table i = some q → s.Waits q (some z) → ∃ c, s.table z = some c ∧ (s.task c).ppid = i
  told : ∀ i q w, s.table i = some q → s.Waits q w → ¬ ex i w →
    ∀ j c, s.table j = some c → (s.task c).ppid = i → Matches w j → (s.task c).state ≠ .died
  timers : ∀ a ∈ s.timers, s.Page (s.timer a).task ∧ (s.task (s.timer a).task).state ≠ .died

/-- The running task is in its state. -/
structure Runs (s : State) : Prop where
  page : s.Page s.running
  state : (s.task s.running).state = .running

def NoWait : Nat → Option Nat → Prop := fun _ _ => False

def Inv (s : State) : Prop := Runs s ∧ ∃ rank, Tree rank NoWait s

variable {rank : Nat → Nat} {ex : Nat → Option Nat → Prop}

theorem Tree.slot (h : Tree rank ex s) {i : Nat} (hi : s.table i = some p) : i < taskNr := by
  by_contra hn
  rw [h.room i (Nat.le_of_not_lt hn)] at hi
  cases hi

theorem Tree.page (h : Tree rank ex s) {i : Nat} (hi : s.table i = some p) : s.Page p := ⟨i, h.slot hi, hi⟩

theorem Tree.at (h : Tree rank ex s) (hp : s.Page p) : s.table (s.task p).pid = some p := by
  obtain ⟨i, -, hi⟩ := hp
  rw [h.pid i p hi]
  exact hi

theorem Runs.awake (h : Runs s) {w : Option Nat} (hw : s.Waits q w) : q ≠ s.running := by
  rintro rfl
  have h1 := hw.1
  rw [h.state] at h1
  cases h1

/-! ## Changes the tree does not see -/

/-- The states have the same tree, and no more timers or waits. -/
structure Same (s t : State) : Prop where
  idle : t.idle = s.idle
  table : t.table = s.table
  pid : ∀ p, (t.task p).pid = (s.task p).pid
  ppid : ∀ p, (t.task p).ppid = (s.task p).ppid
  waitpid : ∀ p, (t.task p).waitpid = (s.task p).waitpid
  died : ∀ p, s.Page p → ((t.task p).state = .died ↔ (s.task p).state = .died)
  waits : ∀ p w, t.Waits p w → s.Waits p w
  timers : ∀ a ∈ t.timers, a ∈ s.timers ∧ (t.timer a).task = (s.timer a).task ∨
    s.Page (t.timer a).task ∧ (s.task (t.timer a).task).state ≠ .died

theorem Same.page (h : Same s t) : t.Page p ↔ s.Page p := by
  unfold State.Page
  rw [h.table]

theorem Same.dead (h : Same s t) : t.Dead p ↔ s.Dead p := by
  unfold State.Dead
  rw [h.page]
  exact and_congr_right fun hp => h.died p hp

theorem Same.refl (s : State) : Same s s :=
  ⟨rfl, rfl, fun _ => rfl, fun _ => rfl, fun _ => rfl, fun _ _ => .rfl, fun _ _ h => h, fun _ h => .inl ⟨h, rfl⟩⟩

theorem Same.trans (h1 : Same s t) (h2 : Same t u) : Same s u := by
  constructor
  · exact h2.idle.trans h1.idle
  · exact h2.table.trans h1.table
  · exact fun p => (h2.pid p).trans (h1.pid p)
  · exact fun p => (h2.ppid p).trans (h1.ppid p)
  · exact fun p => (h2.waitpid p).trans (h1.waitpid p)
  · exact fun p hp => (h2.died p (h1.page.2 hp)).trans (h1.died p hp)
  · exact fun p w h => h1.waits p w (h2.waits p w h)
  · intro a ha
    rcases h2.timers a ha with ⟨hm, he⟩ | ⟨hp, hd⟩
    · rw [he]
      exact h1.timers a hm
    · have hp := h1.page.1 hp
      exact .inr ⟨hp, fun h => hd ((h1.died _ hp).2 h)⟩

theorem Tree.same (h : Tree rank ex s) (hs : Same s t) : Tree rank ex t := by
  have hdied : ∀ i q, s.table i = some q → ((t.task q).state = .died ↔ (s.task q).state = .died) := fun i q hi => hs.died q (h.page hi)
  constructor
  · rw [hs.table, hs.idle]
    exact h.zero
  · rw [hs.table]
    exact h.one
  · rw [hs.table]
    exact h.room
  · intro i p hi
    rw [hs.table] at hi
    rw [hs.pid]
    exact h.pid i p hi
  · intro i p hlt hi
    rw [hs.table] at hi
    rw [hs.ppid, ne_eq, hdied i p hi]
    exact h.root i p hlt hi
  · intro i p hi
    rw [hs.table] at hi ⊢
    rw [hs.ppid]
    intro h0
    obtain ⟨q, h1, h2, h3⟩ := h.ppid i p hi h0
    exact ⟨q, h1, fun hd => h2 ((hdied _ q h1).1 hd), h3⟩
  · intro i q w hi hw
    rw [hs.table] at hi
    rw [hs.waitpid]
    exact h.call i q w hi (hs.waits q w hw)
  · intro i q z hi hw
    rw [hs.table] at hi ⊢
    obtain ⟨c, h1, h2⟩ := h.child i q z hi (hs.waits q _ hw)
    exact ⟨c, h1, (hs.ppid c).trans h2⟩
  · intro i q w hi hw hx j c hj hc hm
    rw [hs.table] at hi hj
    rw [hs.ppid] at hc
    exact fun hd => h.told i q w hi (hs.waits q w hw) hx j c hj hc hm ((hdied j c hj).1 hd)
  · intro a ha
    have hgood : s.Page (t.timer a).task ∧ (s.task (t.timer a).task).state ≠ .died := by
      rcases hs.timers a ha with ⟨hm, he⟩ | h1
      · rw [he]
        exact h.timers a hm
      · exact h1
    exact ⟨hs.page.2 hgood.1, fun hd => hgood.2 ((hs.died _ hgood.1).1 hd)⟩

/-- The same tree, and the same task runs. -/
structure Stays (s t : State) : Prop extends Same s t where
  running : t.running = s.running
  state : (s.task s.running).state = .running → (t.task s.running).state = .running

theorem Stays.refl (s : State) : Stays s s := ⟨.refl s, rfl, id⟩

theorem Stays.trans (h1 : Stays s t) (h2 : Stays t u) : Stays s u := by
  refine ⟨h1.toSame.trans h2.toSame, h2.running.trans h1.running, fun h => ?_⟩
  have := h2.state
  rw [h1.running] at this
  exact this (h1.state h)

theorem Stays.runs (hs : Stays s t) (h : Runs s) : Runs t := by
  constructor
  · rw [hs.running]
    exact hs.page.2 h.page
  · rw [hs.running]
    exact hs.state h.state

theorem Stays.inv (hs : Stays s t) (h : Inv s) : Inv t := by
  obtain ⟨h1, rank, h2⟩ := h
  exact ⟨hs.runs h1, rank, h2.same hs.toSame⟩

theorem Stays.setTask {x : Task} (hpid : x.pid = (s.task p).pid) (hppid : x.ppid = (s.task p).ppid) (hwaitpid : x.waitpid = (s.task p).waitpid)
    (hdied : s.Page p → (x.state = .died ↔ (s.task p).state = .died)) (hwaits : ∀ w, x.state = .waiting → x.call = some w → s.Waits p w)
    (hrun : (s.task p).state = .running → x.state = .running) : Stays s (s.setTask p x) := by
  constructor
  · constructor
    · rfl
    · rfl
    · exact setTask_field Task.pid hpid
    · exact setTask_field Task.ppid hppid
    · exact setTask_field Task.waitpid hwaitpid
    · intro q hq
      by_cases h : q = p
      · subst h
        rw [setTask_same]
        exact hdied hq
      · rw [setTask_ne _ h]
    · intro q w hw
      unfold State.Waits at hw
      by_cases h : q = p
      · subst h
        rw [setTask_same] at hw
        exact hwaits w hw.1 hw.2
      · rw [setTask_ne _ h] at hw
        exact hw
    · exact fun a ha => .inl ⟨ha, rfl⟩
  · rfl
  · intro hr
    by_cases h : s.running = p
    · rw [h, setTask_same]
      rw [h] at hr
      exact hrun hr
    · rw [setTask_ne _ h]
      exact hr

theorem Stays.fields {x : Task} (hpid : x.pid = (s.task p).pid) (hppid : x.ppid = (s.task p).ppid) (hwaitpid : x.waitpid = (s.task p).waitpid)
    (hstate : x.state = (s.task p).state) (hcall : x.call = (s.task p).call) : Stays s (s.setTask p x) := by
  refine .setTask hpid hppid hwaitpid (fun _ => by rw [hstate]) (fun w h1 h2 => ⟨?_, ?_⟩) fun h => hstate.trans h
  · rw [← hstate]
    exact h1
  · rw [← hcall]
    exact h2

theorem Stays.frees (h : Frees s t) : Stays s t := by
  have hm := h.timers
  rw [h.eq] at hm ⊢
  exact ⟨⟨rfl, rfl, fun _ => rfl, fun _ => rfl, fun _ => rfl, fun _ _ => .rfl, fun _ _ h => h, fun a ha => .inl ⟨hm a ha, rfl⟩⟩, rfl, id⟩

theorem mem_timerAdd {ms : Word} {alarm : Bool} : a ∈ (timerAdd s ms alarm).timers ↔ a = s.nextTimer ∨ a ∈ s.timers := mem_listInsertSort

theorem Stays.timerAdd (h : Runs s) (ms : Word) (alarm : Bool) : Stays s (timerAdd s ms alarm) := by
  refine ⟨⟨rfl, rfl, fun _ => rfl, fun _ => rfl, fun _ => rfl, fun _ _ => .rfl, fun _ _ h => h, fun a ha => ?_⟩, rfl, id⟩
  by_cases hn : a = s.nextTimer
  · have he : ((Proc.timerAdd s ms alarm).timer a).task = s.running := by
      subst hn
      show (Function.update s.timer s.nextTimer _ s.nextTimer).task = _
      rw [Function.update_self]
    rw [he, h.state]
    exact .inr ⟨h.page, nofun⟩
  · have he : (Proc.timerAdd s ms alarm).timer a = s.timer a := Function.update_of_ne hn ..
    rw [he]
    exact .inl ⟨(mem_timerAdd.1 ha).resolve_left hn, rfl⟩

theorem Stays.unblock {e : Int} (hp : (s.task p).state ≠ .died) (h : taskUnblock s p e = .ok t) : Stays s t := by
  obtain ⟨hr, u, hu, rfl⟩ := taskUnblock_ok h
  have hf := Frees.unblockTimer hu
  refine (Stays.frees hf).trans (.setTask ?_ ?_ ?_ (fun _ => ?_) nofun fun h => absurd ?_ hr)
  · rw [hf.eq]
    rfl
  · rw [hf.eq]
    rfl
  · rw [hf.eq]
    rfl
  · rw [hf.eq]
    exact iff_of_false nofun hp
  · rw [hf.eq] at h
    exact h

theorem Switched.same (h : Switched s t) (hi : (s.task s.idle).state ≠ .died) : Same s t := by
  have hfield := fun {β : Type} (f : Task → β) => h.field f
  constructor
  · exact h.idle
  · exact h.table
  · exact hfield Task.pid fun _ _ _ => rfl
  · exact hfield Task.ppid fun _ _ _ => rfl
  · exact hfield Task.waitpid fun _ _ _ => rfl
  · intro q _
    by_cases hq : q = t.running
    · subst hq
      rw [h.running]
      refine iff_of_false nofun ?_
      rcases h.next with h1 | h1
      · rw [h1.2]
        exact nofun
      · rw [h1]
        exact hi
    · rcases h.other q hq with h1 | ⟨h1, h2⟩
      · rw [h1]
      · rw [h1, h2]
        exact iff_of_false nofun nofun
  · intro q w ⟨h1, h2⟩
    have hq : q ≠ t.running := by
      rintro rfl
      rw [h.running] at h1
      cases h1
    refine ⟨?_, (hfield Task.call (fun _ _ _ => rfl) q).symm.trans h2⟩
    rcases h.other q hq with h3 | ⟨-, h3⟩
    · exact h3.symm.trans h1
    · rw [h3] at h1
      cases h1
  · intro a ha
    rw [h.eq] at ha ⊢
    exact .inl ⟨ha, rfl⟩

theorem Tree.switch (h : Tree rank NoWait s) : Inv (schedule s) ∧ ∀ p, (schedule s).Dead p ↔ s.Dead p := by
  have hs := schedule_switched s
  have hsame := hs.same (h.root 0 _ (by decide) h.zero).2
  refine ⟨⟨⟨?_, hs.running⟩, rank, h.same hsame⟩, fun p => hsame.dead⟩
  rcases hs.next with h1 | h1
  · exact h1.1
  · rw [h1]
    exact ⟨0, by decide, h.zero⟩

end Onix.Proc
