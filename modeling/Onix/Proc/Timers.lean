/-
Who owns a timer: the timer of a task that sleeps and its alarm are in the list and name the task, and every timer in the list is one of
the two. While a timer expires its task has already given it up, and it is freed by the loop that found it, not by the wake.
-/
import Onix.Proc.Steps

namespace Onix.Proc

open List Function Onix.Lib

variable {s t u : State} {p q a b : Nat} {E : Option Nat} {A : Prop}
variable {x : Task}

/-! ## The invariant -/

def Sleeps (st : TaskState) : Prop := st = .blocked ∨ st = .sleeping ∨ st = .waiting

def Task.pointer (x : Task) (alarm : Bool) : Option Nat := if alarm then x.alarm else x.timer

/-- Every timer was freed once, or is in the list. -/
structure Ledger (s : State) : Prop where
  timers : s.timers.Nodup
  freed : s.freed.Nodup
  disjoint : ∀ a ∈ s.timers, a ∉ s.freed
  all : ∀ a, a < s.nextTimer ↔ a ∈ s.timers ∨ a ∈ s.freed

/-- The timers and their tasks; `E` is one that may have no owner, and the one that expires if there is any. Of the alarms it says whose
they are only if `A` holds: a pointer to one may otherwise be to one that is freed or another's. -/
structure Timed (A : Prop) (E : Option Nat) (s : State) : Prop extends Ledger s where
  points : ∀ p k a, (k = true → A) → s.Page p → (s.task p).pointer k = some a → a ∈ s.timers ∧ (s.timer a).task = p ∧ (s.timer a).alarm = k
  owner : ∀ a ∈ s.timers, ((s.timer a).alarm = true → A) → some a ≠ E → (s.task (s.timer a).task).pointer (s.timer a).alarm = some a
  alarms : ∀ p a, s.Page p → (s.task p).alarm = some a → a < s.nextTimer ∧ (s.timer a).alarm = true
  active : ∀ a ∈ s.timers, (s.timer a).active = true → E = some a
  sleeps : ∀ p, s.Page p → (s.task p).timer ≠ none → Sleeps (s.task p).state
  idle : (s.task s.idle).timer = none

@[simp] theorem pointer_true (x : Task) : x.pointer true = x.alarm := rfl

@[simp] theorem pointer_false (x : Task) : x.pointer false = x.timer := rfl

theorem Timed.awake (h : Timed A E s) (hp : s.Page p) (hst : ¬ Sleeps (s.task p).state) : (s.task p).timer = none := by
  by_contra hn
  exact hst (h.sleeps p hp hn)

theorem Timed.running (h : Timed A E s) (hr : Runs s) : (s.task s.running).timer = none := by
  refine h.awake hr.page ?_
  rw [hr.state]
  unfold Sleeps
  simp

/-! ## Changes of tasks -/

/-- The same timers, and the same pointers to them. -/
structure Quieter (s t : State) : Prop where
  idle : t.idle = s.idle
  timers : t.timers = s.timers
  timer : t.timer = s.timer
  freed : t.freed = s.freed
  nextTimer : t.nextTimer = s.nextTimer
  page : ∀ p, t.Page p → s.Page p
  pointer : ∀ p k, (t.task p).pointer k = (s.task p).pointer k
  state : ∀ p, t.Page p → (t.task p).timer ≠ none → Sleeps (s.task p).state → Sleeps (t.task p).state

theorem Ledger.same (h : Ledger s) (h1 : t.timers = s.timers) (h2 : t.freed = s.freed) (h3 : t.nextTimer = s.nextTimer) : Ledger t := by
  obtain ⟨h4, h5, h6, h7⟩ := h
  refine ⟨?_, ?_, ?_, ?_⟩
  · rw [h1]
    exact h4
  · rw [h2]
    exact h5
  · rw [h1, h2]
    exact h6
  · rw [h1, h2, h3]
    exact h7

theorem Timed.quieter (h : Timed A E s) (hq : Quieter s t) : Timed A E t := by
  refine ⟨h.toLedger.same hq.timers hq.freed hq.nextTimer, ?_, ?_, ?_, ?_, ?_, ?_⟩
  · intro p k a hA hp hk
    rw [hq.pointer] at hk
    rw [hq.timers, hq.timer]
    exact h.points p k a hA (hq.page p hp) hk
  · intro a ha hA hE
    rw [hq.timers] at ha
    rw [hq.timer] at hA
    rw [hq.pointer, hq.timer]
    exact h.owner a ha hA hE
  · intro p a hp ha
    rw [← pointer_true, hq.pointer] at ha
    rw [hq.nextTimer, hq.timer]
    exact h.alarms p a (hq.page p hp) ha
  · intro a ha
    rw [hq.timers] at ha
    rw [hq.timer]
    exact h.active a ha
  · intro p hp ht
    have h1 : (s.task p).timer ≠ none := by
      have := hq.pointer p false
      rw [pointer_false, pointer_false] at this
      rw [← this]
      exact ht
    exact hq.state p hp ht (h.sleeps p (hq.page p hp) h1)
  · have := hq.pointer s.idle false
    rw [hq.idle, ← pointer_false, this]
    exact h.idle

theorem Quieter.setTask (ha : x.alarm = (s.task p).alarm) (ht : x.timer = (s.task p).timer)
    (hst : x.timer ≠ none → Sleeps (s.task p).state → Sleeps x.state) : Quieter s (s.setTask p x) := by
  refine ⟨rfl, rfl, rfl, rfl, rfl, fun _ h => h, fun q k => ?_, fun q _ hq hs => ?_⟩
  · cases k with
    | true => exact setTask_field Task.alarm ha q
    | false => exact setTask_field Task.timer ht q
  · by_cases hqp : q = p
    · subst hqp
      rw [setTask_same] at hq ⊢
      exact hst hq hs
    · rw [setTask_ne _ hqp]
      exact hs

theorem Quieter.fields (ha : x.alarm = (s.task p).alarm) (ht : x.timer = (s.task p).timer) (hst : x.state = (s.task p).state) :
    Quieter s (s.setTask p x) := .setTask ha ht fun _ h => hst ▸ h

theorem Timed.switch (h : Timed A E s) : Timed A E (schedule s) := by
  have hs := schedule_switched s
  generalize schedule s = t at hs ⊢
  refine h.quieter ⟨hs.idle, by rw [hs.eq], by rw [hs.eq], by rw [hs.eq], by rw [hs.eq], fun p hp => hs.page.1 hp, fun p k => ?_,
    fun p hp ht hst => ?_⟩
  · exact hs.field (fun x => x.pointer k) (fun _ _ _ => rfl) p
  · have htimer : (s.task p).timer ≠ none := by
      rw [← hs.field Task.timer (fun _ _ _ => rfl) p]
      exact ht
    have hp' : p ≠ t.running := by
      rintro rfl
      rcases hs.next with ⟨h1, h2⟩ | h1
      · rw [h2] at hst
        rcases hst with h3 | h3 | h3 <;> cases h3
      · rw [h1] at htimer
        exact htimer h.idle
    rcases hs.other p hp' with h1 | ⟨h1, -⟩
    · rw [h1]
      exact hst
    · rw [h1] at hst
      rcases hst with h3 | h3 | h3 <;> cases h3

/-! ## Adding and freeing -/

theorem Ledger.put (h : Ledger s) (hp : timerPut s a = .ok t) : Ledger t := by
  obtain ⟨ha, rfl⟩ := timerPut_ok hp
  refine ⟨h.timers.filter _, nodup_cons.2 ⟨h.disjoint a ha, h.freed⟩, fun b hb hf => ?_, fun b => ?_⟩
  · obtain ⟨h1, h2⟩ := mem_filter.1 hb
    rcases mem_cons.1 hf with rfl | hf
    · exact of_decide_eq_true h2 rfl
    · exact h.disjoint b h1 hf
  · rw [mem_filter, mem_cons, h.all b]
    by_cases hba : b = a
    · subst hba
      simp [ha]
    · simp [hba]

theorem Ledger.add (h : Ledger s) (ms : Word) (k : Bool) : Ledger (timerAdd s ms k) := by
  have hfresh : s.nextTimer ∉ s.timers ∧ s.nextTimer ∉ s.freed := not_or.1 fun hn => Nat.lt_irrefl _ ((h.all _).2 hn)
  have hperm : (timerAdd s ms k).timers.Perm (s.nextTimer :: s.timers) := listInsertSort_perm ..
  refine ⟨hperm.nodup_iff.2 (nodup_cons.2 ⟨hfresh.1, h.timers⟩), h.freed, fun b hb => ?_, fun b => ?_⟩
  · rcases mem_timerAdd.1 hb with rfl | hb
    · exact hfresh.2
    · exact h.disjoint b hb
  · rw [mem_timerAdd]
    show b < s.nextTimer + 1 ↔ (b = s.nextTimer ∨ b ∈ s.timers) ∨ b ∈ s.freed
    rw [Nat.lt_succ_iff_lt_or_eq, h.all b]
    constructor
    · rintro ((h1 | h1) | h1)
      · exact .inl (.inr h1)
      · exact .inr h1
      · exact .inl (.inl h1)
    · rintro ((h1 | h1) | h1)
      · exact .inr h1
      · exact .inl (.inl h1)
      · exact .inl (.inr h1)

def State.Loose (A : Prop) (s : State) (a : Nat) : Prop := ∀ p k, (k = true → A) → s.Page p → (s.task p).pointer k ≠ some a

theorem Timed.put (h : Timed A E s) (hl : State.Loose A s a) (hp : timerPut s a = .ok t) (hE : E = none ∨ E = some a) : Timed A none t := by
  have hled := h.toLedger.put hp
  obtain ⟨ha, rfl⟩ := timerPut_ok hp
  have hmem : ∀ b, b ∈ s.timers.filter (· ≠ a) → b ∈ s.timers ∧ b ≠ a := by
    intro b hb
    obtain ⟨h1, h2⟩ := mem_filter.1 hb
    exact ⟨h1, of_decide_eq_true h2⟩
  have hne : ∀ b, b ≠ a → some b ≠ E := by
    rintro b hb rfl
    rcases hE with h1 | h1
    · cases h1
    · exact hb (Option.some.inj h1)
  refine ⟨hled, fun p k b hA hq hk => ?_, fun b hb hA _ => ?_, h.alarms, fun b hb => ?_, h.sleeps, h.idle⟩
  · obtain ⟨h1, h2⟩ := h.points p k b hA hq hk
    refine ⟨mem_filter.2 ⟨h1, decide_eq_true ?_⟩, h2⟩
    rintro rfl
    exact hl p k hA hq hk
  · obtain ⟨h1, h2⟩ := hmem b hb
    exact h.owner b h1 hA (hne b h2)
  · obtain ⟨h1, h2⟩ := hmem b hb
    exact fun h3 => absurd (h.active b h1 h3).symm (hne b h2)

theorem Timed.add {ms : Word} {k : Bool} (h : Timed A none s) (hidle : s.running ≠ s.idle)
    (hnone : (k = true → A) → (s.task s.running).pointer k = none) (hx : x.pointer k = some s.nextTimer) (hother : x.pointer (!k) = (s.task s.running).pointer (!k))
    (hst : x.timer ≠ none → Sleeps x.state) : Timed A none ((timerAdd s ms k).setTask s.running x) := by
  have hled := h.toLedger.add ms k
  have hfresh : s.nextTimer ∉ s.timers := fun hn => Nat.lt_irrefl _ ((h.all _).2 (.inl hn))
  have hnew : (timerAdd s ms k).timer s.nextTimer = ⟨s.running, timerExpireJiffies s ms, k, false⟩ := update_self ..
  have hold : ∀ b, b ∈ s.timers → (timerAdd s ms k).timer b = s.timer b := by
    intro b hb
    refine update_of_ne ?_ ..
    rintro rfl
    exact hfresh hb
  refine ⟨hled.same rfl rfl rfl, fun p j b hA hp hj => ?_, fun b hb hA _ => ?_, fun p b hp hj => ?_, fun b hb => ?_, fun p hp ht => ?_, ?_⟩
  · show b ∈ (timerAdd s ms k).timers ∧ ((timerAdd s ms k).timer b).task = p ∧ ((timerAdd s ms k).timer b).alarm = j
    have hrest : ∀ b, (s.task p).pointer j = some b → b ∈ (timerAdd s ms k).timers ∧ ((timerAdd s ms k).timer b).task = p ∧
        ((timerAdd s ms k).timer b).alarm = j := by
      intro b hb
      obtain ⟨h1, h2⟩ := h.points p j b hA hp hb
      rw [hold b h1]
      exact ⟨mem_timerAdd.2 (.inr h1), h2⟩
    by_cases hpr : p = s.running
    · subst hpr
      rw [setTask_same] at hj
      by_cases hjk : j = k
      · subst hjk
        rw [hx] at hj
        cases hj
        rw [hnew]
        exact ⟨mem_timerAdd.2 (.inl rfl), rfl, rfl⟩
      · obtain rfl : j = !k := Bool.eq_not_of_ne hjk
        rw [hother] at hj
        exact hrest b hj
    · rw [setTask_ne _ hpr] at hj
      exact hrest b hj
  · show (((timerAdd s ms k).setTask s.running x).task ((timerAdd s ms k).timer b).task).pointer ((timerAdd s ms k).timer b).alarm = some b
    rcases mem_timerAdd.1 hb with rfl | hb
    · rw [hnew, setTask_same]
      exact hx
    · rw [hold b hb]
      have hA' : (s.timer b).alarm = true → A := fun hb' => hA (by rw [show ((timerAdd s ms k).setTask s.running x).timer b = s.timer b from hold b hb]; exact hb')
      have h1 := h.owner b hb hA' nofun
      by_cases hpr : (s.timer b).task = s.running
      · rw [hpr] at h1 ⊢
        rw [setTask_same]
        by_cases hjk : (s.timer b).alarm = k
        · rw [hjk, hnone (hjk ▸ hA')] at h1
          cases h1
        · rw [Bool.eq_not_of_ne hjk] at h1 ⊢
          rw [hother]
          exact h1
      · rw [setTask_ne _ hpr]
        exact h1
  · show b < s.nextTimer + 1 ∧ ((timerAdd s ms k).timer b).alarm = true
    have hrest : (s.task p).alarm = some b → b < s.nextTimer + 1 ∧ ((timerAdd s ms k).timer b).alarm = true := by
      intro hb
      obtain ⟨h1, h2⟩ := h.alarms p b hp hb
      have h3 : (timerAdd s ms k).timer b = s.timer b := update_of_ne (Nat.ne_of_lt h1) ..
      rw [h3]
      exact ⟨Nat.lt_succ_of_lt h1, h2⟩
    by_cases hpr : p = s.running
    · subst hpr
      rw [setTask_same] at hj
      cases k with
      | true =>
        rw [← pointer_true, hx] at hj
        cases hj
        rw [hnew]
        exact ⟨Nat.lt_succ_self _, rfl⟩
      | false =>
        exact hrest (hother.symm.trans hj)
    · rw [setTask_ne _ hpr] at hj
      exact hrest hj
  · show ((timerAdd s ms k).timer b).active = true → none = some b
    rcases mem_timerAdd.1 hb with rfl | hb
    · rw [hnew]
      exact nofun
    · rw [hold b hb]
      exact h.active b hb
  · by_cases hpr : p = s.running
    · subst hpr
      rw [setTask_same] at ht ⊢
      exact hst ht
    · rw [setTask_ne _ hpr] at ht ⊢
      exact h.sleeps p hp ht
  · show (((timerAdd s ms k).setTask s.running x).task s.idle).timer = none
    rw [setTask_ne _ hidle.symm]
    exact h.idle

/-! ## Waking -/

/-- Tasks are woken and their timers freed, but for those that expire; the alarms are left. -/
structure Wakes (s t : State) : Prop where
  running : t.running = s.running
  idle : t.idle = s.idle
  table : t.table = s.table
  timer : t.timer = s.timer
  jiffies : t.jiffies = s.jiffies
  timers : ∀ a ∈ t.timers, a ∈ s.timers
  active : ∀ a ∈ s.timers, (s.timer a).active = true → a ∈ t.timers
  alarm : ∀ p, (t.task p).alarm = (s.task p).alarm

theorem Wakes.refl (s : State) : Wakes s s := ⟨rfl, rfl, rfl, rfl, rfl, fun _ h => h, fun _ h _ => h, fun _ => rfl⟩

theorem Wakes.trans (h1 : Wakes s t) (h2 : Wakes t u) : Wakes s u := by
  constructor
  · exact h2.running.trans h1.running
  · exact h2.idle.trans h1.idle
  · exact h2.table.trans h1.table
  · exact h2.timer.trans h1.timer
  · exact h2.jiffies.trans h1.jiffies
  · exact fun a ha => h1.timers a (h2.timers a ha)
  · intro a ha hx
    refine h2.active a (h1.active a ha hx) ?_
    rw [h1.timer]
    exact hx
  · exact fun p => (h2.alarm p).trans (h1.alarm p)

theorem Wakes.setTask (hx : x.alarm = (s.task p).alarm) : Wakes s (s.setTask p x) :=
  ⟨rfl, rfl, rfl, rfl, rfl, fun _ h => h, fun _ h _ => h, setTask_field Task.alarm hx⟩

theorem Wakes.page (h : Wakes s t) : t.Page p ↔ s.Page p := by
  unfold State.Page
  rw [h.table]

theorem Timed.wake {e : Int} (h : Timed A E s) (hp : s.Page p) : ∃ u, unblockTimer s p = .ok u ∧ Frees s u ∧
    Timed A E (u.setTask p ((s.task p).woken e)) ∧ (∀ a ∈ s.timers, (s.timer a).active = true → a ∈ u.timers) := by
  -- setting the pointer to nothing leaves the timer that expires without an owner, and no other
  have hset : ∀ u, Frees s u → Ledger u → (∀ a ∈ u.timers, (s.task p).timer = some a → some a = E) →
      (∀ a ∈ s.timers, (s.task p).timer ≠ some a → a ∈ u.timers) → Timed A E (u.setTask p ((s.task p).woken e)) := by
    intro u hf hled hnot hin
    have htask : u.task = s.task := by rw [hf.eq]
    have htimer : u.timer = s.timer := by rw [hf.eq]
    have hpage : ∀ q, u.Page q ↔ s.Page q := fun q => by
      rw [hf.eq]
      rfl
    have hsame : (u.setTask p ((s.task p).woken e)).task p = (s.task p).woken e := setTask_same _
    have hne : ∀ q, q ≠ p → (u.setTask p ((s.task p).woken e)).task q = s.task q := fun q hq => by rw [setTask_ne _ hq, htask]
    have hold : ∀ q k a, ((u.setTask p ((s.task p).woken e)).task q).pointer k = some a → (s.task q).pointer k = some a ∧
        (q = p → k = true) := by
      intro q k a hk
      by_cases hq : q = p
      · subst hq
        rw [hsame] at hk
        cases k with
        | true => exact ⟨hk, fun _ => rfl⟩
        | false => cases hk
      · rw [hne q hq] at hk
        exact ⟨hk, fun h => absurd h hq⟩
    have hnext : (u.setTask p ((s.task p).woken e)).nextTimer = s.nextTimer := by
      rw [hf.eq]
      rfl
    refine ⟨hled.same rfl rfl rfl, fun q k a hA hq hk => ?_, fun a ha hA hE => ?_, fun q a hq ha => ?_, fun a ha => ?_, fun q hq ht => ?_, ?_⟩
    · obtain ⟨h1, h2⟩ := hold q k a hk
      obtain ⟨h3, h4, h5⟩ := h.points q k a hA ((hpage q).1 hq) h1
      refine ⟨hin a h3 fun ht => ?_, by rw [show (u.setTask p ((s.task p).woken e)).timer = s.timer from htimer]; exact ⟨h4, h5⟩⟩
      -- a timer of this task is not the alarm of one
      obtain ⟨h6, h7, h8⟩ := h.points p false a nofun hp ht
      rw [h5] at h8
      obtain rfl : k = true := h2 (h4.symm.trans h7)
      cases h8
    · have ha' := hf.timers a ha
      rw [show (u.setTask p ((s.task p).woken e)).timer = s.timer from htimer] at hA
      have h1 := h.owner a ha' hA hE
      rw [show (u.setTask p ((s.task p).woken e)).timer = s.timer from htimer]
      by_cases hq : (s.timer a).task = p
      · rw [hq] at h1 ⊢
        rw [hsame]
        cases hk : (s.timer a).alarm with
        | true =>
          rw [hk] at h1
          exact h1
        | false =>
          rw [hk] at h1
          exact absurd (hnot a ha h1) hE
      · rw [hne _ hq]
        exact h1
    · rw [hnext, show (u.setTask p ((s.task p).woken e)).timer = s.timer from htimer]
      exact h.alarms q a ((hpage q).1 hq) (hold q true a ha).1
    · rw [show (u.setTask p ((s.task p).woken e)).timer = s.timer from htimer]
      exact h.active a (hf.timers a ha)
    · by_cases hqp : q = p
      · subst hqp
        rw [hsame] at ht
        exact absurd rfl ht
      · rw [hne q hqp] at ht ⊢
        exact h.sleeps q ((hpage q).1 hq) ht
    · have hidle : (u.setTask p ((s.task p).woken e)).idle = s.idle := by
        rw [hf.eq]
        rfl
      rw [hidle]
      by_cases hq : s.idle = p
      · rw [hq, hsame]
        rfl
      · rw [hne _ hq]
        exact h.idle
  unfold unblockTimer
  cases ht : (s.task p).timer with
  | none => exact ⟨s, rfl, .refl s, hset s (.refl s) h.toLedger (fun a _ h1 => by rw [ht] at h1; cases h1) fun _ h _ => h,
      fun _ h _ => h⟩
  | some a =>
    obtain ⟨ha, -⟩ := h.points p false a nofun hp ht
    have hact := h.active a ha
    dsimp only
    by_cases hx : (s.timer a).active = true
    · rw [if_pos hx]
      have hE := hact hx
      refine ⟨s, rfl, .refl s, hset s (.refl s) h.toLedger (fun b _ h1 => ?_) fun _ h _ => h, fun _ h _ => h⟩
      rw [ht] at h1
      exact h1.symm.trans hE.symm
    · rw [if_neg hx]
      have hput : timerPut s a = .ok { s with timers := s.timers.filter (· ≠ a), freed := a :: s.freed } := if_pos ha
      have hin : ∀ b ∈ s.timers, b ≠ a → b ∈ s.timers.filter (· ≠ a) := fun b hb hba => mem_filter.2 ⟨hb, decide_eq_true hba⟩
      refine ⟨_, hput, .put hput, hset _ (.put hput) (h.toLedger.put hput) (fun b hb h1 => ?_) fun b hb h1 => ?_, fun b hb hb' => ?_⟩
      · rw [ht] at h1
        cases h1
        exact absurd rfl (of_decide_eq_true (mem_filter.1 hb).2)
      · refine hin b hb ?_
        rintro rfl
        exact h1 ht
      · refine hin b hb ?_
        rintro rfl
        exact hx hb'

theorem Timed.unblock {e : Int} (h : Timed A E s) (hp : s.Page p) (hst : (s.task p).state ≠ .running) :
    ∃ t, taskUnblock s p e = .ok t ∧ Timed A E t ∧ Wakes s t ∧ (t.task p).timer = none := by
  obtain ⟨u, hu, hf, ht, hin⟩ := h.wake (e := e) hp
  have htask : u.task = s.task := by rw [hf.eq]
  have hw : Wakes s u := by
    refine ⟨?_, ?_, ?_, ?_, ?_, hf.timers, hin, fun q => by rw [htask]⟩
    all_goals rw [hf.eq]
  refine ⟨u.setTask p ((s.task p).woken e), ?_, ht, hw.trans (.setTask ?_), ?_⟩
  · unfold taskUnblock
    rw [hu]
    show (if (u.task p).state = .running then _ else _) = _
    rw [htask, if_neg hst]
    rfl
  · rw [htask]
    rfl
  · rw [setTask_same]
    rfl

theorem Timed.kill (h : Timed A E s) (pid : Nat) (sig : Int) : ∃ t, sysKill s pid sig = .ok t ∧ Timed A E t ∧ Wakes s t := by
  unfold sysKill
  split
  · exact ⟨s, rfl, h, .refl s⟩
  split
  · exact ⟨s, rfl, h, .refl s⟩
  rename_i p hp
  dsimp only
  split
  · exact ⟨s, rfl, h, .refl s⟩
  split
  · exact ⟨s, rfl, h, .refl s⟩
  generalize hx : ({ s.task p with signal := (s.task p).signal ||| sigmask sig } : Task) = x
  have hxs : x.state = (s.task p).state ∧ x.alarm = (s.task p).alarm ∧ x.timer = (s.task p).timer := by
    rw [← hx]
    exact ⟨rfl, rfl, rfl⟩
  have hq : Timed A E (s.setTask p x) := h.quieter (.fields hxs.2.1 hxs.2.2 hxs.1)
  have hw : Wakes s (s.setTask p x) := .setTask hxs.2.1
  split
  · rename_i hst
    have hrun : ((s.setTask p x).task p).state ≠ .running := by
      rw [setTask_same, hxs.1]
      rcases hst with h1 | h1
      · rw [h1]
        decide
      · rw [h1]
        decide
    obtain ⟨t, h1, h2, h3, -⟩ := hq.unblock (e := -eintr) (p := p) (getTask_some hp).1 hrun
    exact ⟨t, h1, h2, hw.trans h3⟩
  · exact ⟨_, rfl, hq, hw⟩

/-! ## The clock -/

theorem Timed.timeout (h : Timed A none s) (hi : Inv s) (ha : a ∈ s.timers) :
    ∃ t, timeout (s.setTimer a { s.timer a with active := true }) (s.timer a) = .ok t ∧ Timed A (some a) t ∧ State.Loose A t a ∧ a ∈ t.timers ∧
      t.jiffies = s.jiffies ∧ (∀ b ∈ t.timers, b ∈ s.timers) := by
  generalize hs : s.setTimer a { s.timer a with active := true } = r
  have hrun : r.running = s.running ∧ r.idle = s.idle ∧ r.table = s.table ∧ r.task = s.task ∧ r.timers = s.timers ∧ r.freed = s.freed ∧
      r.nextTimer = s.nextTimer ∧ r.jiffies = s.jiffies := by
    rw [← hs]
    exact ⟨rfl, rfl, rfl, rfl, rfl, rfl, rfl, rfl⟩
  obtain ⟨-, hridle, hrtable, hrtask, hrtimers, hrfreed, hrnext, hrjiffies⟩ := hrun
  have hself : r.timer a = { s.timer a with active := true } := by
    rw [← hs]
    exact update_self ..
  have hother : ∀ b, b ≠ a → r.timer b = s.timer b := by
    intro b hb
    rw [← hs]
    exact update_of_ne hb ..
  have hsame : ∀ b, (r.timer b).task = (s.timer b).task ∧ (r.timer b).alarm = (s.timer b).alarm := by
    intro b
    by_cases hb : b = a
    · subst hb
      rw [hself]
      exact ⟨rfl, rfl⟩
    · rw [hother b hb]
      exact ⟨rfl, rfl⟩
  have hpage : ∀ p, r.Page p ↔ s.Page p := fun p => by
    unfold State.Page
    rw [hrtable]
  -- the timer that expires is the active one, and may lose its owner
  have hr : Timed A (some a) r := by
    refine ⟨h.toLedger.same hrtimers hrfreed hrnext, fun p k b hA hp hk => ?_, fun b hb hA _ => ?_, fun p b hp hb => ?_, fun b hb => ?_,
      fun p hp ht => ?_, ?_⟩
    · rw [hrtask] at hk
      rw [hrtimers, (hsame b).1, (hsame b).2]
      exact h.points p k b hA ((hpage p).1 hp) hk
    · rw [hrtimers] at hb
      rw [(hsame b).2] at hA
      rw [hrtask, (hsame b).1, (hsame b).2]
      exact h.owner b hb hA nofun
    · rw [hrtask] at hb
      rw [hrnext, (hsame b).2]
      exact h.alarms p b ((hpage p).1 hp) hb
    · rw [hrtimers] at hb
      by_cases hba : b = a
      · exact fun _ => congrArg some hba.symm
      · rw [hother b hba]
        exact fun h1 => nomatch h.active b hb h1
    · rw [hrtask] at ht ⊢
      exact h.sleeps p ((hpage p).1 hp) ht
    · rw [hrtask, hridle]
      exact h.idle
  obtain ⟨hpa, hda⟩ : s.Page (s.timer a).task ∧ (s.task (s.timer a).task).state ≠ .died := by
    obtain ⟨-, rank, htree⟩ := hi
    exact htree.timers a ha
  have hown := fun hA => h.owner a ha hA nofun
  have hactive : (r.timer a).active = true := by rw [hself]
  -- only the task of the timer can have it, as what the timer is to it
  have hloose : ∀ t : State, Timed A (some a) t → (∀ p, t.Page p → s.Page p) → t.timer = r.timer →
      (t.task (s.timer a).task).pointer (s.timer a).alarm = none → State.Loose A t a := by
    intro t ht hp htm hnone p k hA hpp hk
    obtain ⟨-, h2, h3⟩ := ht.points p k a hA hpp hk
    rw [htm, (hsame a).1] at h2
    rw [htm, (hsame a).2] at h3
    rw [h2, h3, hk] at hnone
    cases hnone
  unfold Proc.timeout
  cases hk : (s.timer a).alarm with
  | true =>
    rw [hk, pointer_true] at hown
    have hown := fun hA : A => hown fun _ => hA
    generalize hp : (s.timer a).task = p at hpa hda hown hloose ⊢
    have hv : Timed A (some a) (r.setTask p { r.task p with alarm := none }) := by
      have hne : ∀ q, q ≠ p → (r.setTask p { r.task p with alarm := none }).task q = r.task q := fun q hq => setTask_ne _ hq
      have hpsame : (r.setTask p { r.task p with alarm := none }).task p = { r.task p with alarm := none } := setTask_same _
      refine ⟨hr.toLedger.same rfl rfl rfl, fun q j b hA hq hj => ?_, fun b hb hA hE => ?_, fun q b hq hb => ?_, hr.active, fun q hq ht => ?_, ?_⟩
      · refine hr.points q j b hA hq ?_
        by_cases hqp : q = p
        · subst hqp
          rw [hpsame] at hj
          cases j with
          | true => cases hj
          | false => exact hj
        · rw [hne q hqp] at hj
          exact hj
      · have h1 := hr.owner b hb hA hE
        show ((r.setTask p { r.task p with alarm := none }).task (r.timer b).task).pointer (r.timer b).alarm = some b
        by_cases hqp : (r.timer b).task = p
        · rw [hqp] at h1 ⊢
          rw [hpsame]
          cases hj : (r.timer b).alarm with
          | true =>
            rw [hj, pointer_true, hrtask, hown (hA hj)] at h1
            exact absurd h1.symm hE
          | false =>
            rw [hj] at h1
            exact h1
        · rw [hne _ hqp]
          exact h1
      · refine hr.alarms q b hq ?_
        by_cases hqp : q = p
        · subst hqp
          rw [hpsame] at hb
          cases hb
        · rw [hne q hqp] at hb
          exact hb
      · by_cases hqp : q = p
        · subst hqp
          rw [hpsame] at ht ⊢
          exact hr.sleeps q hq ht
        · rw [hne q hqp] at ht ⊢
          exact hr.sleeps q hq ht
      · show ((r.setTask p { r.task p with alarm := none }).task r.idle).timer = none
        by_cases hqp : r.idle = p
        · rw [hqp, hpsame]
          exact hqp ▸ hr.idle
        · rw [hne _ hqp]
          exact hr.idle
    obtain ⟨t, h1, h2, h3⟩ := hv.kill (r.task p).pid sigAlrm
    refine ⟨t, h1, h2, hloose t h2 (fun q hq => (hpage q).1 (h3.page.1 hq)) h3.timer ?_, ?_, h3.jiffies.trans hrjiffies, fun b hb => ?_⟩
    · rw [hk, pointer_true, h3.alarm, setTask_same]
    · exact h3.active a (hrtimers ▸ ha) hactive
    · exact hrtimers ▸ h3.timers b hb
  | false =>
    rw [hk, pointer_false] at hown
    have hown := hown nofun
    have hst : (r.task (s.timer a).task).state ≠ .running := by
      rw [hrtask]
      intro h1
      have h2 := h.sleeps _ hpa (by rw [hown]; exact nofun)
      rw [h1] at h2
      rcases h2 with h2 | h2 | h2 <;> cases h2
    obtain ⟨t, h1, h2, h3, h4⟩ := hr.unblock (e := -etime) ((hpage _).2 hpa) hst
    refine ⟨t, h1, h2, hloose t h2 (fun q hq => (hpage q).1 (h3.page.1 hq)) h3.timer ?_, ?_, h3.jiffies.trans hrjiffies, fun b hb => ?_⟩
    · rw [hk, pointer_false]
      exact h4
    · exact h3.active a (hrtimers ▸ ha) hactive
    · exact hrtimers ▸ h3.timers b hb

theorem Timed.timerLoop : ∀ (n : Nat) (s : State), Timed A none s → Inv s → s.timers.length < n → s.jiffies < eof →
    ∃ t, timerLoop n s = .ok t ∧ Timed A none t
  | 0, _, _, _, hn, _ => absurd hn (Nat.not_lt_zero _)
  | n + 1, s, h, hi, hn, hj => by
    unfold Proc.timerLoop
    by_cases he : timerExpires s ≤ s.jiffies
    swap
    · rw [if_neg he]
      exact ⟨s, rfl, h⟩
    rw [if_pos he]
    cases hl : s.timers with
    | nil =>
      unfold timerExpires at he
      rw [hl] at he
      exact absurd hj (BitVec.not_lt.2 he)
    | cons a l =>
      have ha : a ∈ s.timers := by
        rw [hl]
        exact .head _
      obtain ⟨u, h1, h2, h3, h4, h5, h6⟩ := h.timeout hi ha
      have hput : timerPut u a = .ok { u with timers := u.timers.filter (· ≠ a), freed := a :: u.freed } := if_pos h4
      have hv := h2.put h3 hput (.inr rfl)
      dsimp only
      rw [h1]
      show ∃ t, (timerPut u a >>= fun t => Proc.timerLoop n t) = .ok t ∧ _
      rw [hput]
      have hda : (s.task (s.timer a).task).state ≠ .died := by
        obtain ⟨-, rank, htree⟩ := hi
        exact (htree.timers a ha).2
      have hstays : Stays s u := (setTimer_stays s a).trans (.timeout hda h1)
      refine Timed.timerLoop n _ hv ((hstays.trans (.frees (.put hput))).inv hi) ?_ ?_
      · -- the timers that are left are among the others
        have hsub : ∀ b ∈ u.timers.filter (· ≠ a), b ∈ l := by
          intro b hb
          obtain ⟨h7, h8⟩ := mem_filter.1 hb
          have := h6 b h7
          rw [hl] at this
          exact (mem_cons.1 this).resolve_left (of_decide_eq_true h8)
        have hlen := (subperm_of_subset hv.timers hsub).length_le
        rw [hl] at hn
        exact Nat.lt_of_le_of_lt hlen (Nat.lt_of_succ_lt_succ hn)
      · show u.jiffies < eof
        rw [h5]
        exact hj

/-! ## Calls -/

/-- A timer is freed that is not in the list, a task gets a second one, or the loop of the clock does not end. -/
def TimerFault (f : Fault) : Prop := f = .freed ∨ f = .timer ∨ f = .empty ∨ f = .hang

/-- The timers are in order after a step, if it does not fail for another reason; where alarms do not count, it may fail for one. -/
abbrev Keeps (A : Prop) (r : Except Fault State) : Prop := Sat (fun f => A ∧ TimerFault f) r (Timed A none)

theorem other_fault {f : Fault} (h : f = .full ∨ f = .parent ∨ f = .linked ∨ f = .state) : ¬ (A ∧ TimerFault f) := by
  unfold TimerFault
  rcases h with rfl | rfl | rfl | rfl <;> simp

theorem Timed.keeps {r : Except Fault State} (h : ∃ t, r = .ok t ∧ Timed A none t) : Keeps A r := by
  obtain ⟨t, rfl, ht⟩ := h
  exact ht

theorem Timed.spawn {i : Nat} (h : Timed A none s) (hi : Inv s) (hp : ¬ s.Page p) (hx : (A → x.alarm = none) ∧ x.timer = none)
    (hxa : ∀ a, x.alarm = some a → a < s.nextTimer ∧ (s.timer a).alarm = true) :
    Timed A none (s.spawn i p x) := by
  obtain ⟨-, rank, ht⟩ := hi
  have hpage : ∀ q, (s.spawn i p x).Page q → q ≠ p → s.Page q := by
    rintro q ⟨j, hj, hq⟩ hne
    exact ⟨j, hj, ((spawn_slot hp ht.room hq).resolve_left fun e => hne e.2).1⟩
  refine ⟨h.toLedger.same rfl rfl rfl, fun q k a hA hq hk => ?_, fun a ha hA _ => ?_, fun q a hq ha => ?_, h.active, fun q hq hq' => ?_, ?_⟩
  · by_cases hqp : q = p
    · subst hqp
      rw [spawn_same] at hk
      cases k with
      | true => rw [pointer_true, hx.1 (hA rfl)] at hk; cases hk
      | false => rw [pointer_false, hx.2] at hk; cases hk
    · rw [spawn_ne x hqp] at hk
      exact h.points q k a hA (hpage q hq hqp) hk
  · show ((s.spawn i p x).task (s.timer a).task).pointer (s.timer a).alarm = some a
    have hne : (s.timer a).task ≠ p := fun e => hp (e ▸ (ht.timers a ha).1)
    rw [spawn_ne x hne]
    exact h.owner a ha hA nofun
  · by_cases hqp : q = p
    · subst hqp
      rw [spawn_same] at ha
      exact hxa a ha
    · rw [spawn_ne x hqp] at ha
      exact h.alarms q a (hpage q hq hqp) ha
  · by_cases hqp : q = p
    · subst hqp
      rw [spawn_same, hx.2] at hq'
      exact absurd rfl hq'
    · rw [spawn_ne x hqp] at hq' ⊢
      exact h.sleeps q (hpage q hq hqp) hq'
  · show ((s.spawn i p x).task s.idle).timer = none
    have hne : s.idle ≠ p := fun e => hp (e ▸ ht.page ht.zero)
    rw [spawn_ne x hne]
    exact h.idle

theorem Timed.fork (h : Timed A none s) (hi : Inv s) (hp : ¬ s.Page p) (hq : A → (s.task s.running).alarm = none) : Keeps A (taskFork s p) := by
  refine sat_ite (fun _ => Sat.error (other_fault (by simp))) fun _ => ?_
  cases freeSlot s with
  | none => exact Sat.error (other_fault (by simp))
  | some i => exact h.spawn hi hp ⟨hq, h.running hi.1⟩ fun a ha => h.alarms _ a hi.1.page ha

theorem tellFather_quieter (A : Prop) (s : State) : Sat (fun f => A ∧ TimerFault f) (taskTellFather s) (Quieter s) := by
  refine sat_ite (fun _ => ?_) fun _ => ?_
  · exact ⟨rfl, rfl, rfl, rfl, rfl, fun _ h => h, fun _ _ => rfl, fun _ _ _ h => h⟩
  · split
    · exact Sat.error (other_fault (by simp))
    · exact Quieter.fields rfl rfl rfl

theorem removeLoop_timed : ∀ (l : List Nat) (s : State), Timed A none s → l.Nodup → (∀ a ∈ l, a ∈ s.timers) →
    (∀ a ∈ l, (s.timer a).task = p → (s.timer a).alarm = true ∧ ¬ A) →
    ∃ t, l.foldlM (fun s a => if (s.timer a).task = p then timerPut s a else .ok s) s = .ok t ∧ Timed A none t
  | [], s, h, _, _, _ => ⟨s, rfl, h⟩
  | a :: l, s, h, hd, hl, hp => by
    obtain ⟨hal, hd⟩ := nodup_cons.1 hd
    rw [foldlM_cons]
    by_cases ht : (s.timer a).task = p
    · obtain ⟨hk, hA⟩ := hp a (.head _) ht
      have hput : timerPut s a = .ok { s with timers := s.timers.filter (· ≠ a), freed := a :: s.freed } := if_pos (hl a (.head _))
      have hloose : State.Loose A s a := by
        intro q k hkA hq hqk
        obtain ⟨-, -, h3⟩ := h.points q k a hkA hq hqk
        exact hA (hkA (h3.symm.trans hk))
      rw [if_pos ht, hput]
      refine removeLoop_timed l _ (h.put hloose hput (.inl rfl)) hd (fun b hb => ?_) fun b hb => hp b (.tail _ hb)
      refine mem_filter.2 ⟨hl b (.tail _ hb), decide_eq_true ?_⟩
      rintro rfl
      exact hal hb
    · rw [if_neg ht]
      exact removeLoop_timed l s h hd (fun b hb => hl b (.tail _ hb)) fun b hb => hp b (.tail _ hb)

theorem Timed.remove (h : Timed A none s) (hp : ∀ k, (k = true → A) → (s.task p).pointer k = none) :
    ∃ t, timerRemove s p = .ok t ∧ Timed A none t := by
  refine removeLoop_timed _ s h h.toLedger.timers (fun _ ha => ha) fun a ha he => ?_
  have hno : ¬ ((s.timer a).alarm = true → A) := by
    intro hA
    have h1 := h.owner a ha hA nofun
    rw [he, hp _ hA] at h1
    cases h1
  exact Classical.not_imp.1 hno

theorem reparent_quieter (s : State) : Quieter s (reparent s) := by
  have hr := reparent_reparented s
  refine ⟨by rw [hr.eq], by rw [hr.eq], by rw [hr.eq], by rw [hr.eq], by rw [hr.eq], fun p hp => ?_, fun p k => ?_, fun p _ _ hst => ?_⟩
  · rw [hr.eq] at hp
    exact hp
  · rw [hr.task p]
    rfl
  · rw [hr.task p]
    exact hst

theorem Timed.wakeParent (h : Timed A none s) (hroom : ∀ i, taskNr ≤ i → s.table i = none) : Keeps A (wakeParent s) := by
  unfold Proc.wakeParent
  dsimp only
  split
  · exact Sat.error (other_fault (by simp))
  rename_i p hp
  refine sat_ite (fun hc => ?_) fun _ => h
  have hpage : s.Page p := by
    refine ⟨_, ?_, hp⟩
    by_contra hn
    rw [hroom _ (Nat.le_of_not_lt hn)] at hp
    cases hp
  obtain ⟨t, h1, h2, -⟩ := h.unblock (e := eok) hpage (by rw [hc.1]; decide)
  exact Timed.keeps ⟨t, h1, h2⟩

theorem Timed.exit {status : Int} (h : Timed A none s) (hi : Inv s) (hq : A → (s.task s.running).alarm = none) : Keeps A (taskExit s status) := by
  have ht := h.running hi.1
  refine sat_ite (fun _ => Sat.error (other_fault (by simp))) fun _ => ?_
  generalize hx : ({ s.task s.running with state := .died, status := status } : Task) = x
  have hxs : x.alarm = (s.task s.running).alarm ∧ x.timer = (s.task s.running).timer := by
    rw [← hx]
    exact ⟨rfl, rfl⟩
  have hd : Quieter s (s.setTask s.running x) := .setTask hxs.1 hxs.2 fun h => absurd (hxs.2.trans ht) h
  refine (tellFather_quieter A _).bind fun u hu hqu => ?_
  have hu' := (h.quieter hd).quieter hqu
  have hrun : u.running = s.running ∧ u.table = s.table := by
    unfold taskTellFather at hu
    dsimp only at hu
    split at hu
    · cases hu
      exact ⟨rfl, rfl⟩
    · split at hu
      · cases hu
      · cases hu
        exact ⟨rfl, rfl⟩
  have hnone : ∀ k, (k = true → A) → (u.task u.running).pointer k = none := by
    intro k hA
    rw [hqu.pointer, hd.pointer, hrun.1]
    cases k with
    | true => exact hq (hA rfl)
    | false => exact ht
  obtain ⟨w, hw, hw'⟩ := hu'.remove hnone
  rw [hw]
  have hroom : ∀ i, taskNr ≤ i → (reparent w).table i = none := by
    intro i hi'
    obtain ⟨-, rank, htree⟩ := hi
    rw [(reparent_reparented w).eq, (timerRemove_ok hw).1.eq]
    rw [hrun.2]
    exact htree.room i hi'
  exact ((hw'.quieter (reparent_quieter w)).wakeParent hroom).bind fun v _ hv => hv.switch

theorem Timed.blockNow (h : Timed A none s) (hr : Runs s) (hx : x.alarm = (s.task s.running).alarm ∧ x.timer = (s.task s.running).timer) :
    Timed A none (schedule (s.setTask s.running x)) :=
  (h.quieter (.setTask hx.1 hx.2 fun hn => absurd (hx.2.trans (h.running hr)) hn)).switch

theorem Timed.waitpid {pid : Option Nat} (h : Timed A none s) (hi : Inv s) : Keeps A (taskWaitpid s pid) := by
  have hcall : Quieter s (s.inCall none) := .fields rfl rfl rfl
  unfold taskWaitpid
  split
  · rename_i i c hc
    refine (h.quieter hcall).quieter ⟨rfl, rfl, rfl, rfl, rfl, fun p hp => ?_, fun _ _ => rfl, fun _ _ _ h => h⟩
    obtain ⟨j, hj, hp⟩ := hp
    have hp : update s.table i none j = some p := hp
    refine ⟨j, hj, ?_⟩
    by_cases hji : j = i
    · rw [hji, update_self] at hp
      cases hp
    · rw [update_of_ne hji] at hp
      exact hp
  · refine sat_ite (fun _ => h.quieter hcall) fun _ => ?_
    refine sat_ite (fun _ => Sat.error (other_fault (by simp))) fun _ => sat_ite (fun _ => Sat.error (other_fault (by simp))) fun _ => ?_
    generalize hx : ({ s.task s.running with waitpid := pid, call := some pid } : Task) = x
    have hxs : x.alarm = (s.task s.running).alarm ∧ x.timer = (s.task s.running).timer := by
      rw [← hx]
      exact ⟨rfl, rfl⟩
    show Timed A none (schedule ((s.setTask s.running x).setTask s.running
      { (s.setTask s.running x).task s.running with linked := true, state := .waiting }))
    rw [setTask_idem, setTask_same]
    exact h.blockNow hi.1 hxs

theorem Timed.block {st : TaskState} {ms : Int} (h : Timed A none s) (hi : Inv s) (hidle : s.running ≠ s.idle) (hst : Sleeps st) :
    Keeps A (taskBlock s st ms) := by
  have ht := h.running hi.1
  refine sat_ite (fun _ => Sat.error (other_fault (by simp))) fun _ => sat_ite (fun _ => Sat.error (other_fault (by simp))) fun _ => ?_
  unfold blockTimer
  rw [ht]
  by_cases hms : 0 < ms
  · rw [if_pos hms, if_neg (not_not.2 rfl)]
    generalize hx : ({ s.task s.running with timer := some s.nextTimer } : Task) = x
    have hxs : x.alarm = (s.task s.running).alarm ∧ x.timer = some s.nextTimer := by
      rw [← hx]
      exact ⟨rfl, rfl⟩
    show Timed A none (schedule (((timerAdd s (BitVec.ofInt 32 ms) false).setTask s.running x).setTask s.running
      { ((timerAdd s (BitVec.ofInt 32 ms) false).setTask s.running x).task s.running with linked := true, state := st }))
    rw [setTask_idem, setTask_same]
    exact (h.add (x := { x with linked := true, state := st }) (k := false) hidle (fun _ => ht) hxs.2 hxs.1 fun _ => hst).switch
  · rw [if_neg hms]
    exact h.blockNow hi.1 ⟨rfl, rfl⟩

theorem Timed.alarm {sec : Word} (h : Timed A none s) (hi : Inv s) (hidle : s.running ≠ s.idle) : Keeps A (sysAlarm s sec) := by
  have ht := h.running hi.1
  have hst : ∀ {x : Task}, x.timer = (s.task s.running).timer → x.timer ≠ none → Sleeps x.state := fun h1 h2 => absurd (h1.trans ht) h2
  unfold sysAlarm putAlarm
  cases ha : (s.task s.running).alarm with
  | none => exact h.add hidle (fun _ => ha) rfl rfl (hst rfl)
  | some a =>
    have h2 := fun hA : A => (h.points _ true a (fun _ => hA) hi.1.page ha).2.1
    have h3 := (h.alarms _ a hi.1.page ha).2
    by_cases h1 : a ∈ s.timers
    swap
    · -- it was freed by another task
      have hput : timerPut s a = .error .freed := if_neg h1
      dsimp only
      rw [hput]
      exact Sat.error fun hA => h1 (h.points _ true a (fun _ => hA.1) hi.1.page ha).1
    -- the pointer is overwritten in the end; without it, nothing has the timer
    generalize hx : ({ s.task s.running with alarm := none } : Task) = x
    have hxs : x.alarm = none ∧ x.timer = (s.task s.running).timer := by
      rw [← hx]
      exact ⟨rfl, rfl⟩
    have hsame : (s.setTask s.running x).task s.running = x := setTask_same _
    have hne : ∀ q, q ≠ s.running → (s.setTask s.running x).task q = s.task q := fun q hq => setTask_ne _ hq
    have hold : ∀ q k b, ((s.setTask s.running x).task q).pointer k = some b → (s.task q).pointer k = some b := by
      intro q k b hk
      by_cases hq : q = s.running
      · subst hq
        rw [hsame] at hk
        cases k with
        | true => rw [pointer_true, hxs.1] at hk; cases hk
        | false => rw [pointer_false, hxs.2] at hk; exact hk
      · rw [hne q hq] at hk
        exact hk
    have hv : Timed A (some a) (s.setTask s.running x) := by
      refine ⟨h.toLedger.same rfl rfl rfl, fun q k b hA hq hk => h.points q k b hA hq (hold q k b hk), fun b hb hA hE => ?_,
        fun q b hq hb => h.alarms q b hq (hold q true b hb), fun b hb hb' => (nomatch h.active b hb hb'), fun q hq hq' => ?_, ?_⟩
      · have h4 := h.owner b hb hA nofun
        show ((s.setTask s.running x).task (s.timer b).task).pointer (s.timer b).alarm = some b
        by_cases hq : (s.timer b).task = s.running
        · rw [hq] at h4 ⊢
          rw [hsame]
          cases hk : (s.timer b).alarm with
          | true =>
            rw [hk, pointer_true, ha] at h4
            exact absurd h4.symm hE
          | false =>
            rw [hk, pointer_false, ← hxs.2] at h4
            exact h4
        · rw [hne _ hq]
          exact h4
      · by_cases hqr : q = s.running
        · subst hqr
          rw [hsame] at hq'
          exact absurd (hxs.2.trans ht) hq'
        · rw [hne q hqr] at hq' ⊢
          exact h.sleeps q hq hq'
      · show ((s.setTask s.running x).task s.idle).timer = none
        rw [hne _ hidle.symm]
        exact h.idle
    have hloose : State.Loose A (s.setTask s.running x) a := by
      intro q k hA hq hk
      obtain ⟨-, h5, h6⟩ := hv.points q k a hA hq hk
      obtain rfl : k = true := h6.symm.trans h3
      have h5 : q = s.running := h5.symm.trans (h2 (hA rfl))
      rw [h5, hsame, pointer_true, hxs.1] at hk
      cases hk
    have hput : timerPut (s.setTask s.running x) a = .ok { s.setTask s.running x with
      timers := s.timers.filter (· ≠ a), freed := a :: s.freed } := if_pos h1
    have hu := hv.put hloose hput (.inr rfl)
    dsimp only
    rw [show timerPut s a = .ok { s with timers := s.timers.filter (· ≠ a), freed := a :: s.freed } from if_pos h1]
    generalize hy : ({ s.task s.running with alarm := some s.nextTimer } : Task) = y
    have hys : y.alarm = some s.nextTimer ∧ y.timer = (s.task s.running).timer := by
      rw [← hy]
      exact ⟨rfl, rfl⟩
    have hadd : Timed A none ((timerAdd { s.setTask s.running x with timers := s.timers.filter (· ≠ a), freed := a :: s.freed } (sec * 1000)
        true).setTask s.running y) := by
      refine hu.add (k := true) hidle ?_ hys.1 ?_ (hst hys.2)
      · intro _
        show ((s.setTask s.running x).task s.running).alarm = none
        rw [hsame, hxs.1]
      · show y.timer = ((s.setTask s.running x).task s.running).timer
        rw [hsame, hxs.2, hys.2]
    have he : (timerAdd { s.setTask s.running x with timers := s.timers.filter (· ≠ a), freed := a :: s.freed } (sec * 1000) true).setTask
        s.running y = (timerAdd { s with timers := s.timers.filter (· ≠ a), freed := a :: s.freed } (sec * 1000) true).setTask s.running y := by
      unfold timerAdd State.setTask State.setTimer timerExpireJiffies
      rw [update_idem]
    rw [he, ← hy] at hadd
    exact hadd

theorem Timed.clock (h : Timed A none s) (hi : Inv s) (hj : s.jiffies + 1 < eof) : Keeps A (clockHandler s) := by
  have h1 : Timed A none { s with jiffies := s.jiffies + 1 } :=
    h.quieter ⟨rfl, rfl, rfl, rfl, rfl, fun _ h => h, fun _ _ => rfl, fun _ _ _ h => h⟩
  obtain ⟨u, h3, h4⟩ := Timed.timerLoop _ _ h1 ((tick_stays s).inv hi) (Nat.lt_succ_self _) hj
  refine Sat.bind (Timed.keeps ⟨u, h3, h4⟩) fun v _ hv => ?_
  have hv' : Timed A none (v.setTask v.running { v.task v.running with jiffies := v.jiffies, ticks := (v.task v.running).ticks - 1 }) :=
    hv.quieter (.fields rfl rfl rfl)
  show Timed A none (if _ then _ else _)
  split
  · exact hv'.switch
  · exact hv'

/-! ## Runs -/

/-- Who forks or exits has no alarm set, and the clock has not reached the tick that stands for no timer. -/
def Quiet (s : State) : Act → Prop
  | .fork _ | .exit _ => (s.task s.running).alarm = none
  | .clock => s.jiffies + 1 < eof
  | _ => True

instance (s : State) : (a : Act) → Decidable (Quiet s a)
  | .fork _ | .exit _ => inferInstanceAs (Decidable (_ = none))
  | .clock => inferInstanceAs (Decidable (_ < _))
  | .waitpid _ | .kill _ _ | .alarm _ | .block _ _ | .unblock _ _ | .yield => inferInstanceAs (Decidable True)

theorem Timed.step {a : Act} (h : Timed A none s) (hi : Inv s) (he : enabled s a) (hq : A → Quiet s a) (hj : a = .clock → s.jiffies + 1 < eof) :
    Keeps A (step s a) := by
  cases a with
  | fork p => exact h.fork hi he.2.2 hq
  | exit status => exact h.exit hi hq
  | waitpid pid => exact h.waitpid hi
  | kill pid sig =>
    obtain ⟨t, h1, h2, -⟩ := h.kill pid sig
    exact Timed.keeps ⟨t, h1, h2⟩
  | alarm sec => exact h.alarm hi he.2
  | block st ms => exact h.block hi he.2.1 he.2.2
  | unblock p reason =>
    show Keeps A (taskUnblock s p reason)
    by_cases hst : (s.task p).state = .running
    · -- the assertion fails, since the running task is not woken
      obtain ⟨u, h1, h2, -⟩ := h.wake (e := reason) he.2.1
      unfold taskUnblock
      rw [h1]
      show Keeps A (if (u.task p).state = .running then _ else _)
      rw [show u.task = s.task by rw [h2.eq], if_pos hst]
      exact Sat.error (other_fault (by simp))
    · obtain ⟨t, h1, h2, -⟩ := h.unblock (e := reason) he.2.1 hst
      exact Timed.keeps ⟨t, h1, h2⟩
  | yield => exact h.switch
  | clock => exact h.clock hi (hj rfl)

theorem Start.timed (h : Start s) : Timed A none s := by
  obtain ⟨h1, h2, h3⟩ := h.timers
  have hnone : ∀ p k, s.Page p → (s.task p).pointer k = none := by
    rintro p k ⟨i, -, hi⟩
    have hc := (h.created i p hi).1
    cases k with
    | true => exact hc.alarm
    | false => exact hc.timer
  refine ⟨⟨?_, ?_, ?_, fun a => ?_⟩, fun p k a _ hp hk => ?_, fun a ha => ?_, fun p a hp ha => ?_, fun a ha => ?_,
    fun p hp ht => absurd (hnone p false hp) ht, ?_⟩
  · rw [h1]
    exact nodup_nil
  · rw [h2]
    exact nodup_nil
  · rw [h1]
    exact nofun
  · rw [h1, h2, h3]
    simp
  · rw [hnone p k hp] at hk
    cases hk
  · rw [h1] at ha
    cases ha
  · rw [← pointer_true, hnone p true hp] at ha
    cases ha
  · rw [h1] at ha
    cases ha
  · exact hnone _ false ⟨0, by decide, h.idle.2⟩

theorem Quiet.tick {a : Act} (h : Quiet s a) (ha : a = .clock) : s.jiffies + 1 < eof := by
  subst ha
  exact h

theorem timed_inv (h : processes.Reach Quiet s) : Inv s ∧ Timed True none s :=
  Machine.Reach.inv (I := fun s => Inv s ∧ Timed True none s) (fun _ (h : Start _) => ⟨h.inv, h.timed⟩)
    (fun _ _ _ hi hq hs => ⟨(hi.1.step hs.1 hs.2).1, (hi.2.step hi.1 hs.1 (fun _ => hq) hq.tick).of_ok hs.2⟩) h

/-- The pointers of a task are empty or point to timers of it in the list, whose tasks are in the table; every timer that was added is in
the list once, or was freed once. -/
structure Owned (s : State) : Prop extends Ledger s where
  alarm : ∀ p a, s.Page p → (s.task p).alarm = some a → a ∈ s.timers ∧ (s.timer a).task = p
  timer : ∀ p a, s.Page p → (s.task p).timer = some a → a ∈ s.timers ∧ (s.timer a).task = p
  page : ∀ a ∈ s.timers, s.Page (s.timer a).task

theorem Timed.owned (h : Timed True none s) (hi : Inv s) : Owned s := by
  refine ⟨h.toLedger, fun p a hp ha => ?_, fun p a hp ha => ?_, fun a ha => ?_⟩
  · obtain ⟨h1, h2, -⟩ := h.points p true a (fun _ => trivial) hp ha
    exact ⟨h1, h2⟩
  · obtain ⟨h1, h2, -⟩ := h.points p false a (fun _ => trivial) hp ha
    exact ⟨h1, h2⟩
  · obtain ⟨-, rank, ht⟩ := hi
    exact (ht.timers a ha).1

theorem Timed.fork_alarm (h : Timed True none s) (hi : Inv s) (hp : ¬ s.Page p) (hq : (s.task s.running).alarm ≠ none) (hf : taskFork s p = .ok t) :
    ¬ Owned t := by
  obtain ⟨a, ha⟩ := Option.ne_none_iff_exists'.1 hq
  obtain ⟨-, -, i, hlt, -, rfl⟩ := taskFork_ok hf
  obtain ⟨-, h1, -⟩ := h.points _ true a (fun _ => trivial) hi.1.page ha
  intro ho
  obtain ⟨-, h2⟩ := ho.alarm p a ⟨i, hlt, update_self ..⟩ ((congrArg Task.alarm (spawn_same _)).trans ha)
  exact hp ((h2.symm.trans h1) ▸ hi.1.page)

theorem taskExit_alarm {status : Int} (h : taskExit s status = .ok t) (q : Nat) : (t.task q).alarm = (s.task q).alarm := by
  unfold taskExit at h
  dsimp only at h
  split at h
  · cases h
  obtain ⟨u, hu, h⟩ := bind_ok h
  obtain ⟨v, hv, h⟩ := bind_ok h
  obtain ⟨w, hw, h⟩ := bind_ok h
  have h1 : (u.task q).alarm = (s.task q).alarm := by
    refine (((tellFather_quieter False _).of_ok hu).pointer q true).trans ?_
    exact setTask_field (x := { s.task s.running with state := .died, status := status }) Task.alarm rfl q
  have h2 : ((reparent v).task q).alarm = (u.task q).alarm := by
    rw [← pointer_true, (reparent_quieter v).pointer q true, (timerRemove_ok hv).1.eq]
    rfl
  have h3 : (w.task q).alarm = ((reparent v).task q).alarm := by
    unfold wakeParent at hw
    dsimp only at hw
    split at hw
    · cases hw
    split at hw
    · obtain ⟨-, x, hx, rfl⟩ := taskUnblock_ok hw
      have he : x.task = (reparent v).task := by rw [(Frees.unblockTimer hx).eq]
      rw [← he]
      exact setTask_field (x := Task.woken _ _) Task.alarm rfl q
    · cases hw
      rfl
  rw [← Except.ok.inj h, (schedule_switched w).field Task.alarm fun _ _ _ => rfl, h3, h2, h1]

theorem Timed.exit_alarm {status : Int} (hi : Inv s) (h0 : s.running ≠ s.idle) (h1 : (s.task s.running).pid ≠ 1)
    (hq : (s.task s.running).alarm ≠ none) (hf : taskExit s status = .ok t) : ¬ Owned t := by
  obtain ⟨a, ha⟩ := Option.ne_none_iff_exists'.1 hq
  obtain ⟨⟨-, rank, ht⟩, hd⟩ := (hi.exit h0 h1 status).of_ok hf
  have hdead : t.Dead s.running := (hd _).2 (.inr rfl)
  intro ho
  obtain ⟨h2, h3⟩ := ho.alarm s.running a hdead.1 ((taskExit_alarm hf _).trans ha)
  have h4 := (ht.timers a h2).2
  rw [h3] at h4
  exact h4 hdead.2

/-- As long as no task forks or exits with an alarm set, every timer is owned by one task and no call fails on one; a fork or an exit with
an alarm set leaves a pointer to a timer that is another's or is freed. -/
theorem timers_owned (h : processes.Reach Quiet s) : Owned s ∧
    (∀ a f, enabled s a → Quiet s a → step s a = .error f → ¬ TimerFault f) ∧
    ∀ a t, a ≠ .clock → enabled s a → step s a = .ok t → (Owned t ↔ Quiet s a) := by
  obtain ⟨hi, ht⟩ := timed_inv h
  refine ⟨ht.owned hi, fun a f he hq hs hf => (ht.step hi he (fun _ => hq) hq.tick).not_bad hs ⟨trivial, hf⟩, fun a t hc he hs => ⟨fun ho => ?_, fun hq => ?_⟩⟩
  · cases a with
    | fork p =>
      by_contra hq
      exact ht.fork_alarm hi he.2.2 hq hs ho
    | exit status =>
      by_contra hq
      exact Timed.exit_alarm hi he.2.1 he.2.2 hq hs ho
    | clock => exact absurd rfl hc
    | waitpid _ => trivial
    | kill _ _ => trivial
    | alarm _ => trivial
    | block _ _ => trivial
    | unblock _ _ => trivial
    | yield => trivial
  · exact ((ht.step hi he (fun _ => hq) hq.tick).of_ok hs).owned (hi.step he hs).1

instance (s : State) (a : Act) : Decidable (processes.enabled s a) := inferInstanceAs (Decidable (enabled s a))

/-- A task with a child sets an alarm and sleeps: it has two timers. -/
theorem timers_owned_sleeping : ∃ s, processes.Reach Quiet s ∧ s.timers.length = 2 ∧ Owned s := by
  have h : (processes.trace Quiet boot [.yield, .fork 102, .alarm 5, .block .sleeping 100]).map (fun s => s.timers.length) = some 2 := by
    decide +kernel
  obtain ⟨s, hs, hl⟩ := Option.map_eq_some_iff.1 h
  have h0 : processes.start boot := boot_start
  have hr := Machine.trace_reach h0 hs
  exact ⟨s, hr, hl, (timers_owned hr).1⟩

/-- A child that sets an alarm frees the one of its parent, which then frees it again. -/
theorem alarm_freed_twice : ∃ s, processes.Reach Machine.Any s ∧ enabled s (.alarm 5) ∧ step s (.alarm 5) = .error .freed ∧ ¬ Owned s := by
  have h : (processes.trace Machine.Any boot [.yield, .alarm 5, .fork 102, .yield, .alarm 5, .yield]).map (fun s =>
      (decide (enabled s (.alarm 5)), (match step s (.alarm 5) with | .error f => some f | .ok _ => none), decide (s.Page s.running),
        (s.task s.running).alarm, decide (0 ∈ s.timers))) = some (true, some .freed, true, some 0, false) := by decide +kernel
  obtain ⟨s, hs, he⟩ := Option.map_eq_some_iff.1 h
  obtain ⟨h1, h2⟩ := Prod.mk.inj he
  obtain ⟨h2, h3⟩ := Prod.mk.inj h2
  obtain ⟨h3, h4⟩ := Prod.mk.inj h3
  obtain ⟨h4, h5⟩ := Prod.mk.inj h4
  have h0 : processes.start boot := boot_start
  refine ⟨s, Machine.trace_reach h0 hs, of_decide_eq_true h1, ?_, fun ho => ?_⟩
  · cases hr : step s (.alarm 5) with
    | ok t =>
      rw [hr] at h2
      cases h2
    | error f =>
      rw [hr] at h2
      rw [Option.some.inj h2]
  · exact of_decide_eq_false h5 (ho.alarm _ 0 (of_decide_eq_true h3) h4).1

end Onix.Proc
