/-
Every call keeps the process tree: a fork adds the youngest task, an exit gives the children to the parent and wakes it, a call of
`task_waitpid` takes one dead child out of the table or waits for a living one.
-/
import Onix.Proc.Tree

namespace Onix.Proc

open Option Function Onix.Lib

variable {s t u : State} {p q a : Nat} {rank : Nat → Nat} {ex : Nat → Option Nat → Prop}

/-! ## Calls that leave the tree -/

theorem Stays.kill {pid : Nat} {sig : Int} (h : sysKill s pid sig = .ok t) : Stays s t := by
  rcases sysKill_ok h with rfl | ⟨p, -, rfl | ⟨hst, h⟩⟩
  · exact .refl _
  · exact .fields rfl rfl rfl rfl rfl
  · have h1 : Stays s (s.setTask p { s.task p with signal := (s.task p).signal ||| sigmask sig }) := .fields rfl rfl rfl rfl rfl
    refine h1.trans (.unblock ?_ h)
    rw [setTask_same]
    rcases hst with h2 | h2
    · rw [h2]
      exact nofun
    · rw [h2]
      exact nofun

theorem Stays.alarm {sec : Word} (hr : Runs s) (h : sysAlarm s sec = .ok t) : Stays s t := by
  obtain ⟨u, hu, rfl⟩ := sysAlarm_ok h
  have h1 : Stays s u := by
    rcases putAlarm_ok hu with ⟨rfl, -⟩ | ⟨a, -, ha⟩
    · exact .refl _
    · exact .frees (.put ha)
  exact h1.trans ((Stays.timerAdd (h1.runs hr) _ _).trans (.fields rfl rfl rfl rfl rfl))

theorem Stays.blockTimer {ms : Int} (hr : Runs s) (h : blockTimer s ms = .ok t) : Stays s t := by
  rcases blockTimer_ok h with rfl | ⟨-, rfl⟩
  · exact .refl _
  · exact (Stays.timerAdd hr _ _).trans (.fields rfl rfl rfl rfl rfl)

theorem Stays.timeout {x : Timer} (hp : (s.task x.task).state ≠ .died) (h : timeout s x = .ok t) : Stays s t := by
  unfold Proc.timeout at h
  split at h
  · exact (Stays.fields (p := x.task) (x := { s.task x.task with alarm := none }) rfl rfl rfl rfl rfl).trans (.kill h)
  · exact .unblock hp h

theorem setTimer_stays (s : State) (a : Nat) : Stays s (s.setTimer a { s.timer a with active := true }) := by
  refine ⟨⟨rfl, rfl, fun _ => rfl, fun _ => rfl, fun _ => rfl, fun _ _ => .rfl, fun _ _ h => h, fun b hb => .inl ⟨hb, ?_⟩⟩, rfl, id⟩
  show (update s.timer a _ b).task = _
  by_cases hba : b = a
  · rw [hba, update_self]
  · rw [update_of_ne hba]

theorem Stays.timerLoop : ∀ (n : Nat) (s t : State), Inv s → timerLoop n s = .ok t → Stays s t
  | 0, _, _, _, h => by cases h
  | n + 1, s, t, hi, h => by
    unfold Proc.timerLoop at h
    split at h
    · split at h
      · cases h
      rename_i a l hl
      obtain ⟨u, hu, h⟩ := bind_ok h
      obtain ⟨v, hv, h⟩ := bind_ok h
      have h2 : (s.task (s.timer a).task).state ≠ .died := by
        obtain ⟨-, rank, htree⟩ := hi
        exact (htree.timers a (by rw [hl]; exact List.mem_cons_self ..)).2
      have h3 : Stays s v := ((setTimer_stays s a).trans (.timeout h2 hu)).trans (.frees (.put hv))
      exact h3.trans (Stays.timerLoop n v t (h3.inv hi) h)
    · cases h
      exact .refl s

/-! ## A new task -/

variable {i : Nat}

theorem spawn_same (x : Task) : (s.spawn i p x).task p = x := setTask_same x

theorem spawn_ne (x : Task) (h : q ≠ p) : (s.spawn i p x).task q = s.task q := setTask_ne x h

variable {c : Nat} {x : Task}

theorem spawn_slot {j : Nat} (hp : ¬ s.Page p) (hroom : ∀ j, taskNr ≤ j → s.table j = none)
    (hj : (s.spawn i p x).table j = some c) : j = i ∧ c = p ∨ s.table j = some c ∧ c ≠ p := by
  by_cases hji : j = i
  · subst hji
    rw [show (s.spawn j p x).table j = some p from update_self ..] at hj
    exact .inl ⟨rfl, (some.inj hj).symm⟩
  · rw [show (s.spawn i p x).table j = s.table j from update_of_ne hji ..] at hj
    refine .inr ⟨hj, ?_⟩
    rintro rfl
    refine hp ⟨j, ?_, hj⟩
    by_contra hn
    rw [hroom j (Nat.le_of_not_lt hn)] at hj
    cases hj

theorem spawn_keep {j : Nat} (hi : s.table i = none) (hj : s.table j = some c) : (s.spawn i p x).table j = some c := by
  refine (update_of_ne ?_ ..).trans hj
  rintro rfl
  rw [hi] at hj
  cases hj

theorem spawn_page (hi : s.table i = none) (hq : s.Page q) : (s.spawn i p x).Page q := by
  obtain ⟨j, hj, hq⟩ := hq
  exact ⟨j, hj, spawn_keep hi hq⟩

theorem spawn_waits {w : Option Nat} (hx : x.state = .ready) (hw : (s.spawn i p x).Waits q w) : q ≠ p ∧ s.Waits q w := by
  obtain ⟨h1, h2⟩ := hw
  have hq : q ≠ p := by
    rintro rfl
    rw [spawn_same, hx] at h1
    cases h1
  rw [spawn_ne x hq] at h1 h2
  exact ⟨hq, h1, h2⟩

theorem Tree.fork (h : Tree rank NoWait s) (hq : s.Page q) (hd : (s.task q).state ≠ .died) (hp : ¬ s.Page p)
    (hi : s.table i = none) (hlt : i < taskNr) (hx : x.pid = i ∧ x.ppid = (s.task q).pid ∧ x.state = .ready) :
    Tree (update rank p (rank q + 1)) NoWait (s.spawn i p x) := by
  obtain ⟨hx1, hx2, hx3⟩ := hx
  have hslot := fun {j c} => spawn_slot (i := i) (j := j) (c := c) (x := x) hp h.room
  have hne : ∀ {c}, s.Page c → c ≠ p := fun hc e => hp (e ▸ hc)
  constructor
  · exact spawn_keep hi h.zero
  · obtain ⟨c, hc⟩ := h.one
    exact ⟨c, spawn_keep hi hc⟩
  · intro j hj
    exact (update_of_ne (by omega) ..).trans (h.room j hj)
  · intro j c hj
    rcases hslot hj with ⟨rfl, rfl⟩ | ⟨hj, hc⟩
    · rw [spawn_same, hx1]
    · rw [spawn_ne x hc]
      exact h.pid j c hj
  · intro j c hlt hj
    rcases hslot hj with ⟨rfl, rfl⟩ | ⟨hj, hc⟩
    · -- the first two slots are taken
      obtain ⟨c, hc⟩ := h.one
      obtain rfl | rfl : j = 0 ∨ j = 1 := by omega
      · exact absurd (h.zero.symm.trans hi) nofun
      · exact absurd (hc.symm.trans hi) nofun
    · rw [spawn_ne x hc]
      exact h.root j c hlt hj
  · intro j c hj
    rcases hslot hj with ⟨rfl, rfl⟩ | ⟨hj, hc⟩
    · rw [spawn_same, hx2]
      intro _
      refine ⟨q, spawn_keep hi (h.at hq), ?_, ?_⟩
      · rw [spawn_ne x (hne hq)]
        exact hd
      · rw [update_self, update_of_ne (hne hq)]
        exact Nat.lt_succ_self _
    · rw [spawn_ne x hc]
      intro h0
      obtain ⟨r, h1, h2, h3⟩ := h.ppid j c hj h0
      have hr : r ≠ p := hne (h.page h1)
      refine ⟨r, spawn_keep hi h1, ?_, ?_⟩
      · rw [spawn_ne x hr]
        exact h2
      · rw [update_of_ne hr, update_of_ne hc]
        exact h3
  · intro j c w hj hw
    obtain ⟨hc, hw⟩ := spawn_waits hx3 hw
    rw [spawn_ne x hc]
    exact h.call j c w ((hslot hj).resolve_left fun e => hc e.2).1 hw
  · intro j c z hj hw
    obtain ⟨hc, hw⟩ := spawn_waits hx3 hw
    obtain ⟨d, h1, h2⟩ := h.child j c z ((hslot hj).resolve_left fun e => hc e.2).1 hw
    refine ⟨d, spawn_keep hi h1, ?_⟩
    rw [spawn_ne x (hne (h.page h1))]
    exact h2
  · intro j c w hj hw _ k d hk hd' hm
    obtain ⟨hc, hw⟩ := spawn_waits hx3 hw
    rcases hslot hk with ⟨rfl, rfl⟩ | ⟨hk, hdp⟩
    · rw [spawn_same, hx3]
      exact nofun
    · rw [spawn_ne x hdp] at hd' ⊢
      exact h.told j c w ((hslot hj).resolve_left fun e => hc e.2).1 hw id k d hk hd' hm
  · intro b hb
    obtain ⟨h1, h2⟩ := h.timers b hb
    refine ⟨spawn_page hi h1, ?_⟩
    show ((s.spawn i p x).task (s.timer b).task).state ≠ .died
    rw [spawn_ne x (hne h1)]
    exact h2

theorem spawn_dead (hp : ¬ s.Page p) (hi : s.table i = none) (hroom : ∀ j, taskNr ≤ j → s.table j = none)
    (hx : x.state = .ready) : (s.spawn i p x).Dead q ↔ s.Dead q := by
  by_cases hq : q = p
  · subst hq
    refine iff_of_false (fun h => ?_) fun h => hp h.1
    have h1 := h.2
    rw [spawn_same, hx] at h1
    cases h1
  · unfold State.Dead
    rw [spawn_ne x hq]
    refine and_congr_left fun _ => ⟨?_, spawn_page hi⟩
    rintro ⟨j, hj, hc⟩
    exact ⟨j, hj, ((spawn_slot hp hroom hc).resolve_left fun e => hq e.2).1⟩

theorem Inv.fork (h : Inv s) (hp : ¬ s.Page p) (hf : taskFork s p = .ok t) : Inv t ∧ ∀ q, t.Dead q ↔ s.Dead q := by
  obtain ⟨hr, rank, ht⟩ := h
  obtain ⟨-, -, i, hlt, hi, rfl⟩ := taskFork_ok hf
  have hd : (s.task s.running).state ≠ .died := by
    rw [hr.state]
    exact nofun
  have hne : s.running ≠ p := fun e => hp (e ▸ hr.page)
  refine ⟨⟨⟨spawn_page hi hr.page, ?_⟩, _, ht.fork hr.page hd hp hi hlt ⟨rfl, rfl, rfl⟩⟩, fun q => spawn_dead hp hi ht.room rfl⟩
  exact (congrArg Task.state (spawn_ne _ hne)).trans hr.state

/-! ## The exit of a task -/

/-- The children of the running task in the slots from 2 on have its parent; nothing else is changed. -/
structure Reparented (s t : State) (n : Nat) : Prop where
  eq : t = { s with task := t.task }
  task : ∀ q, t.task q = { s.task q with ppid := (t.task q).ppid }
  only : ∀ q, (t.task q).ppid = (s.task q).ppid ∨
    (s.task q).ppid = (s.task s.running).pid ∧ (t.task q).ppid = (s.task s.running).ppid
  child : ∀ i q, i < n → 2 ≤ i → s.table i = some q → (s.task q).ppid = (s.task s.running).pid →
    (t.task q).ppid = (s.task s.running).ppid

theorem Reparented.slot {n : Nat} (h : Reparented s t n) : Reparented s (reparentSlot t n) (n + 1) := by
  have hrun : t.running = s.running := by rw [h.eq]
  have htab : t.table = s.table := by rw [h.eq]
  have hpid : (t.task s.running).pid = (s.task s.running).pid := by rw [h.task]
  -- the running task may be among those whose parent is set, to what it has
  have hppid : (t.task s.running).ppid = (s.task s.running).ppid := by
    rcases h.only s.running with h1 | h1
    · exact h1
    · exact h1.2
  unfold reparentSlot
  dsimp only
  rw [hrun, htab, hpid, hppid]
  split
  · rename_i hn
    refine ⟨h.eq, h.task, h.only, fun i q hi h2 hq hc => ?_⟩
    rcases Nat.lt_succ_iff_lt_or_eq.1 hi with hi | rfl
    · exact h.child i q hi h2 hq hc
    · rw [hn] at hq
      cases hq
  rename_i c hc
  split
  · rename_i hcond
    have hsame : ∀ q, q ≠ c → (t.setTask c { t.task c with ppid := (s.task s.running).ppid }).task q = t.task q := fun q hq => setTask_ne _ hq
    have hset : ((t.setTask c { t.task c with ppid := (s.task s.running).ppid }).task c) = { t.task c with ppid := (s.task s.running).ppid } :=
      setTask_same _
    constructor
    · conv_lhs => rw [h.eq]
      rfl
    · intro q
      by_cases hq : q = c
      · subst hq
        rw [hset, h.task]
      · rw [hsame q hq]
        exact h.task q
    · intro q
      by_cases hq : q = c
      · subst hq
        rw [hset]
        refine .inr ⟨?_, rfl⟩
        rcases h.only q with h1 | h1
        · exact h1.symm.trans hcond.2
        · exact h1.1
      · rw [hsame q hq]
        exact h.only q
    · intro i q hi h2 hq hp
      by_cases hqc : q = c
      · subst hqc
        rw [hset]
      · rw [hsame q hqc]
        rcases Nat.lt_succ_iff_lt_or_eq.1 hi with hi | rfl
        · exact h.child i q hi h2 hq hp
        · exact absurd (some.inj (hq.symm.trans hc)) hqc
  · rename_i hcond
    refine ⟨h.eq, h.task, h.only, fun i q hi h2 hq hp => ?_⟩
    rcases Nat.lt_succ_iff_lt_or_eq.1 hi with hi | rfl
    · exact h.child i q hi h2 hq hp
    · obtain rfl : c = q := some.inj (hc.symm.trans hq)
      refine (h.only c).resolve_left (fun h1 => hcond ⟨h2, h1.trans hp⟩) |>.2

theorem reparent_reparented (s : State) : Reparented s (reparent s) taskNr := by
  unfold reparent
  generalize taskNr = n
  induction n with
  | zero => exact ⟨rfl, fun _ => rfl, fun _ => .inl rfl, nofun⟩
  | succ n ih =>
    rw [List.range_succ, List.foldl_append]
    exact ih.slot

/-- The running task has died, its children have its parent, and it has no timers. -/
structure Left (s t : State) : Prop where
  running : t.running = s.running
  idle : t.idle = s.idle
  table : t.table = s.table
  pid : ∀ p, (t.task p).pid = (s.task p).pid
  waitpid : ∀ p, (t.task p).waitpid = (s.task p).waitpid
  ppid : ∀ p, (s.task p).ppid ≠ (s.task s.running).pid → (t.task p).ppid = (s.task p).ppid
  child : ∀ i p, 2 ≤ i → s.table i = some p → (s.task p).ppid = (s.task s.running).pid → (t.task p).ppid = (s.task s.running).ppid
  dead : (t.task s.running).state = .died
  died : ∀ p, s.Page p → p ≠ s.running → ((t.task p).state = .died ↔ (s.task p).state = .died)
  waits : ∀ p w, t.Waits p w → s.Waits p w
  timers : ∀ a ∈ t.timers, (t.timer a).task ≠ s.running ∧ s.Page (t.timer a).task ∧ (s.task (t.timer a).task).state ≠ .died

def State.EndsWait (s : State) (i : Nat) (w : Option Nat) : Prop := i = (s.task s.running).ppid ∧ Matches w (s.task s.running).pid

theorem Tree.two_le (h : Tree rank ex s) (hr : Runs s) (h0 : s.running ≠ s.idle) (h1 : (s.task s.running).pid ≠ 1) :
    2 ≤ (s.task s.running).pid := by
  have h2 : (s.task s.running).pid ≠ 0 := by
    intro he
    have := h.at hr.page
    rw [he, h.zero] at this
    exact h0 (some.inj this).symm
  omega

theorem Tree.ppid_ne (h : Tree rank ex s) (hi : s.table i = some p) (h0 : i ≠ 0) : (s.task p).ppid ≠ i := by
  intro he
  obtain ⟨q, h1, -, h3⟩ := h.ppid i p hi (by omega)
  rw [he, hi] at h1
  cases h1
  exact Nat.lt_irrefl _ h3

theorem Tree.left (h : Tree rank NoWait s) (hr : Runs s) (hk : 2 ≤ (s.task s.running).pid) (hl : Left s t) : Tree rank s.EndsWait t := by
  have hat := h.at hr.page
  -- the parent is another task, since it is older
  have hne : ∀ j c, s.table j = some c → (s.task c).ppid = (s.task s.running).pid → 2 ≤ j := by
    intro j c hj hc
    by_contra hn
    have := (h.root j c (by omega) hj).1
    omega
  have halive : ∀ i q, s.table i = some q → i ≠ (s.task s.running).pid → (s.task q).state ≠ .died → (t.task q).state ≠ .died := by
    intro i q hi hik hd hd'
    refine hd ((hl.died q (h.page hi) ?_).1 hd')
    rintro rfl
    exact hik (h.pid i _ hi).symm
  constructor
  · rw [hl.table, hl.idle]
    exact h.zero
  · rw [hl.table]
    exact h.one
  · rw [hl.table]
    exact h.room
  · intro i p hi
    rw [hl.table] at hi
    rw [hl.pid]
    exact h.pid i p hi
  · intro i p hlt hi
    rw [hl.table] at hi
    obtain ⟨h1, h2⟩ := h.root i p hlt hi
    rw [hl.ppid p (by omega)]
    exact ⟨h1, halive i p hi (by omega) h2⟩
  · intro i p hi h0
    rw [hl.table] at hi ⊢
    by_cases hc : (s.task p).ppid = (s.task s.running).pid
    · -- the new parent is that of the running task
      have hp := hl.child i p (hne i p hi hc) hi hc
      rw [hp] at h0 ⊢
      obtain ⟨q, h1, h2, h3⟩ := h.ppid _ _ hat h0
      obtain ⟨r, h4, -, h5⟩ := h.ppid i p hi (by omega)
      rw [hc, hat] at h4
      cases h4
      refine ⟨q, h1, halive _ q h1 (fun e => ?_) h2, Nat.lt_trans h3 h5⟩
      rw [e, hat] at h1
      cases h1
      exact Nat.lt_irrefl _ h3
    · rw [hl.ppid p hc] at h0 ⊢
      obtain ⟨q, h1, h2, h3⟩ := h.ppid i p hi h0
      exact ⟨q, h1, halive _ q h1 hc h2, h3⟩
  · intro i q w hi hw
    rw [hl.table] at hi
    rw [hl.waitpid]
    exact h.call i q w hi (hl.waits q w hw)
  · intro i q z hi hw
    rw [hl.table] at hi ⊢
    have hw := hl.waits q _ hw
    obtain ⟨c, h1, h2⟩ := h.child i q z hi hw
    refine ⟨c, h1, ?_⟩
    rw [hl.ppid c, h2]
    rw [h2]
    rintro rfl
    exact hr.awake hw (some.inj (hi.symm.trans hat))
  · intro i q w hi hw hx j c hj hc hm
    rw [hl.table] at hi hj
    have hw := hl.waits q _ hw
    have hik : i ≠ (s.task s.running).pid := by
      rintro rfl
      exact hr.awake hw (some.inj (hi.symm.trans hat))
    by_cases hck : (s.task c).ppid = (s.task s.running).pid
    · -- a child that was given away is not the one that is waited for
      rw [hl.child j c (hne j c hj hck) hj hck] at hc
      have hnm : ¬ Matches w (s.task s.running).pid := fun hm' => hx ⟨hc.symm, hm'⟩
      rcases hm with rfl | rfl
      · exact absurd (.inl rfl) hnm
      · obtain ⟨d, h1, h2⟩ := h.child i q j hi hw
        rw [hj] at h1
        cases h1
        exact absurd (h2.symm.trans hck) hik
    · rw [hl.ppid c hck] at hc
      refine halive j c hj ?_ (h.told i q w hi hw id j c hj hc hm)
      rintro rfl
      rw [hat] at hj
      cases hj
      exact hx ⟨hc.symm, hm⟩
  · intro a ha
    obtain ⟨h1, h2, h3⟩ := hl.timers a ha
    refine ⟨?_, fun hd => h3 ((hl.died _ h2 h1).1 hd)⟩
    unfold State.Page
    rw [hl.table]
    exact h2

theorem Tree.awake (h : Tree rank ex t) (hx : ∀ i q w, t.table i = some q → t.Waits q w → ¬ ex i w) : Tree rank NoWait t :=
  ⟨h.zero, h.one, h.room, h.pid, h.root, h.ppid, h.call, h.child, fun i q w hi hw _ => h.told i q w hi hw (hx i q w hi hw), h.timers⟩

abbrev Fathered (r : Except Fault State) (Q : State → Prop) : Prop := Sat (fun f => f = .parent) r Q

theorem Fathered.intro {r : Except Fault State} {Q : State → Prop} (h : r ≠ .error .parent) (hq : ∀ t, r = .ok t → Q t) : Fathered r Q := by
  cases r with
  | error e => exact Sat.error fun he => h (congrArg Except.error he)
  | ok t => exact hq t rfl

theorem timerPut_fathered (s : State) (a : Nat) : Fathered (timerPut s a) fun _ => True := by
  unfold timerPut
  split
  · exact Sat.ok trivial
  · exact Sat.error nofun

theorem timerRemove_fathered (s : State) (p : Nat) : timerRemove s p ≠ .error .parent := by
  have h : Fathered (timerRemove s p) fun _ => True := foldlM_sat _ _ (fun u a _ _ => by
    split
    · exact timerPut_fathered u a
    · exact Sat.ok trivial) trivial
  exact fun he => h.not_bad he rfl

theorem taskUnblock_fathered (s : State) (p : Nat) (e : Int) : taskUnblock s p e ≠ .error .parent := by
  have h : Fathered (taskUnblock s p e) fun _ => True := by
    refine Sat.bind (Q := fun _ => True) ?_ fun u _ _ => sat_ite (fun _ => Sat.error nofun) fun _ => Sat.ok trivial
    unfold unblockTimer
    split
    · exact Sat.ok trivial
    · split
      · exact Sat.ok trivial
      · exact timerPut_fathered _ _
  exact fun he => h.not_bad he rfl

theorem tellFather_spec (h : (s.task s.running).ppid ≠ 0 → ∃ q, s.Page q ∧ (s.task q).pid = (s.task s.running).ppid) :
    Fathered (taskTellFather s) (Stays s) := by
  refine sat_ite (fun _ => Stays.refl s) fun h0 => ?_
  obtain ⟨q, hq, hpid⟩ := h h0
  obtain ⟨p, hp⟩ := getTask_isSome hq hpid
  rw [hp]
  exact Stays.fields rfl rfl rfl rfl rfl

theorem exit_left {d : State} {v : State} (h : Tree rank NoWait s) (hr : Runs s) (hd : ∀ q, q ≠ s.running → d.task q = s.task q)
    (hrun : ∃ e, d.task s.running = { s.task s.running with state := .died, status := e }) (heq : d = { s with task := d.task }) (hs : Stays d v)
    (ht : ∀ a ∈ v.timers, (v.timer a).task ≠ s.running) : Left s (reparent v) := by
  obtain ⟨e, he⟩ := hrun
  have hrep := reparent_reparented v
  have hfield : ∀ {β : Type} (f : Task → β) (_ : ∀ (x : Task) st n, f { x with state := st, status := n } = f x) q, f (d.task q) = f (s.task q) := by
    intro β f hf q
    by_cases hq : q = s.running
    · rw [hq, he, hf]
    · rw [hd q hq]
  have hrepf : ∀ {β : Type} (f : Task → β) (_ : ∀ (x : Task) n, f { x with ppid := n } = f x) q, f ((reparent v).task q) = f (v.task q) := by
    intro β f hf q
    rw [hrep.task q, hf]
  have hvrun : v.running = s.running := hs.running.trans (by rw [heq])
  have hvpid : ∀ q, (v.task q).pid = (s.task q).pid := fun q => (hs.pid q).trans (hfield Task.pid (fun _ _ _ => rfl) q)
  have hvppid : ∀ q, (v.task q).ppid = (s.task q).ppid := fun q => (hs.ppid q).trans (hfield Task.ppid (fun _ _ _ => rfl) q)
  have htable : d.table = s.table := by rw [heq]
  have hpage : ∀ q, s.Page q → d.Page q := fun q hq => by
    unfold State.Page
    rw [htable]
    exact hq
  constructor
  · rw [hrep.eq]
    exact hvrun
  · rw [hrep.eq]
    exact hs.idle.trans (by rw [heq])
  · rw [hrep.eq]
    exact hs.table.trans htable
  · exact fun q => (hrepf Task.pid (fun _ _ => rfl) q).trans (hvpid q)
  · exact fun q => (hrepf Task.waitpid (fun _ _ => rfl) q).trans ((hs.waitpid q).trans (hfield Task.waitpid (fun _ _ _ => rfl) q))
  · intro q hq
    rw [← hvppid q, ← hvpid, ← hvrun] at hq
    exact ((hrep.only q).resolve_right fun h1 => hq h1.1).trans (hvppid q)
  · intro i q h2 hi hq
    rw [← hvppid q, ← hvpid, ← hvrun] at hq
    rw [← hvppid, ← hvrun]
    have hlt := h.slot hi
    have hi : v.table i = some q := by rw [hs.table, htable]; exact hi
    exact hrep.child i q hlt h2 hi hq
  · rw [hrepf Task.state (fun _ _ => rfl)]
    refine (hs.died _ (hpage _ hr.page)).2 ?_
    rw [he]
  · intro q hq hne
    rw [hrepf Task.state (fun _ _ => rfl), hs.died q (hpage q hq), hd q hne]
  · intro q w ⟨h1, h2⟩
    rw [hrepf Task.state (fun _ _ => rfl)] at h1
    rw [hrepf Task.call (fun _ _ => rfl)] at h2
    have hw := hs.waits q w ⟨h1, h2⟩
    by_cases hq : q = s.running
    · have h3 := hw.1
      rw [hq, he] at h3
      cases h3
    · unfold State.Waits at hw
      rw [hd q hq] at hw
      exact hw
  · intro a ha
    rw [hrep.eq] at ha ⊢
    have hne := ht a ha
    have hgood : s.Page (v.timer a).task ∧ (d.task (v.timer a).task).state ≠ .died := by
      rcases hs.timers a ha with ⟨h1, h2⟩ | ⟨h1, h2⟩
      · rw [h2] at hne ⊢
        rw [heq] at h1
        have htimer : d.timer = s.timer := by rw [heq]
        rw [htimer] at hne ⊢
        rw [hd _ hne]
        exact h.timers a h1
      · refine ⟨?_, h2⟩
        unfold State.Page at h1 ⊢
        rw [htable] at h1
        exact h1
    rw [hd _ hne] at hgood
    exact ⟨hne, hgood⟩

theorem Tree.wakeParent (h : Tree rank NoWait s) (hr : Runs s) (hk : 2 ≤ (s.task s.running).pid) (hl : Left s t) :
    Fathered (wakeParent t) fun u => Tree rank NoWait u ∧ ∀ p, u.Dead p ↔ t.Dead p := by
  have htree := h.left hr hk hl
  have hat := h.at hr.page
  have hppid := h.ppid_ne hat (by omega)
  obtain ⟨p, hp, hd⟩ : ∃ p, t.table (s.task s.running).ppid = some p ∧ (t.task p).state ≠ .died := by
    by_cases h0 : (s.task s.running).ppid = 0
    · rw [h0]
      exact ⟨_, htree.zero, (htree.root 0 _ (by decide) htree.zero).2⟩
    · have := htree.ppid _ _ (hl.table ▸ hat) (by rw [hl.ppid _ hppid]; exact h0)
      rw [hl.ppid _ hppid] at this
      obtain ⟨q, h1, h2, -⟩ := this
      exact ⟨q, h1, h2⟩
  -- who still waits afterwards waits for another one
  have hends : ∀ {i q w}, t.table i = some q → t.Waits q w → s.EndsWait i w → q = p ∧ ((t.task p).waitpid = none ∨
      (t.task p).waitpid = some (s.task s.running).pid) := by
    rintro i q w hi hw ⟨rfl, hm⟩
    obtain rfl : p = q := some.inj (hp.symm.trans hi)
    refine ⟨rfl, ?_⟩
    rw [htree.call _ _ w hi hw]
    exact hm
  unfold Proc.wakeParent
  dsimp only
  rw [hl.running, hl.ppid _ hppid, hl.pid, hp]
  refine sat_ite (fun _ => ?_) fun hn => Sat.ok ⟨htree.awake fun i q w hi hw hx => ?_, fun _ => Iff.rfl⟩
  · refine Fathered.intro (taskUnblock_fathered _ _ _) fun u hu => ?_
    have hs := Stays.unblock hd hu
    refine ⟨(htree.same hs.toSame).awake fun i q w hi hw hx => ?_, fun _ => hs.dead⟩
    have hw' := hs.waits q w hw
    rw [hs.table] at hi
    obtain ⟨rfl, -⟩ := hends hi hw' hx
    obtain ⟨-, v, -, rfl⟩ := taskUnblock_ok hu
    have h1 := hw.1
    rw [setTask_same] at h1
    cases h1
  · obtain ⟨rfl, hm⟩ := hends hi hw hx
    exact hn ⟨hw.1, hm⟩

theorem Inv.exit (h : Inv s) (h0 : s.running ≠ s.idle) (h1 : (s.task s.running).pid ≠ 1) (status : Int) :
    Fathered (taskExit s status) fun t => Inv t ∧ ∀ p, t.Dead p ↔ s.Dead p ∨ p = s.running := by
  obtain ⟨hr, rank, ht⟩ := h
  have hk := ht.two_le hr h0 h1
  refine sat_ite (fun _ => Sat.error nofun) fun _ => ?_
  generalize hd : s.setTask s.running { s.task s.running with state := .died, status := status } = d
  have hdrun : d.task s.running = { s.task s.running with state := .died, status := status } := by
    rw [← hd]
    exact setTask_same _
  have hdne : ∀ q, q ≠ s.running → d.task q = s.task q := by
    intro q hq
    rw [← hd]
    exact setTask_ne _ hq
  have hdeq : d = { s with task := d.task } := by
    rw [← hd]
    rfl
  have hrun : d.running = s.running := by rw [hdeq]
  have htable : d.table = s.table := by rw [hdeq]
  refine (tellFather_spec fun hp => ?_).bind fun u _ hu => ?_
  · rw [hrun, hdrun] at hp ⊢
    obtain ⟨q, h2, h3, -⟩ := ht.ppid _ _ (ht.at hr.page) hp
    have hq : q ≠ s.running := fun e => ht.ppid_ne (ht.at hr.page) (by omega) ((ht.pid _ _ h2).symm.trans (by rw [e]))
    refine ⟨q, ⟨_, ht.slot h2, htable ▸ h2⟩, ?_⟩
    rw [hdne q hq]
    exact ht.pid _ _ h2
  refine Sat.bind (Fathered.intro (timerRemove_fathered _ _) fun v hv => timerRemove_ok hv) fun v _ hv => ?_
  have hs : Stays d v := hu.trans (.frees hv.1)
  have hl : Left s (reparent v) := exit_left ht hr hdne ⟨status, hdrun⟩ hdeq hs fun a ha => by
    have := hv.2 a ha
    rw [hu.running, hrun] at this
    exact this
  refine (ht.wakeParent hr hk hl).bind fun w _ hw => ?_
  obtain ⟨h2, h3⟩ := hw.1.switch
  refine ⟨h2, fun p => ?_⟩
  rw [h3, hw.2]
  by_cases hp : p = s.running
  · subst hp
    refine iff_of_true ⟨?_, hl.dead⟩ (.inr rfl)
    unfold State.Page
    rw [hl.table]
    exact hr.page
  · unfold State.Dead State.Page
    rw [hl.table]
    constructor
    · exact fun ⟨h4, h5⟩ => .inl ⟨h4, (hl.died p h4 hp).1 h5⟩
    · rintro (⟨h4, h5⟩ | h4)
      · exact ⟨h4, (hl.died p h4 hp).2 h5⟩
      · exact absurd h4 hp

/-! ## Waiting -/

theorem Inv.reap (h : Inv s) (hi : s.table i = some c) (h2 : 2 ≤ i) (hd : (s.task c).state = .died)
    (hc : (s.task c).ppid = (s.task s.running).pid) : Inv { s with table := update s.table i none } ∧
    ∀ p, State.Dead { s with table := update s.table i none } p ↔ s.Dead p ∧ p ≠ c := by
  obtain ⟨hr, rank, ht⟩ := h
  have hslot : ∀ {j q}, update s.table i none j = some q → j ≠ i ∧ s.table j = some q := by
    intro j q hj
    by_cases hji : j = i
    · subst hji
      rw [update_self] at hj
      cases hj
    · rw [update_of_ne hji] at hj
      exact ⟨hji, hj⟩
  have hkeep : ∀ {j q}, s.table j = some q → q ≠ c → update s.table i none j = some q := by
    intro j q hj hq
    refine (update_of_ne ?_ ..).trans hj
    rintro rfl
    exact hq (some.inj (hj.symm.trans hi))
  have hpage : ∀ {q}, s.Page q → q ≠ c → State.Page { s with table := update s.table i none } q := by
    rintro q ⟨j, hj, hq⟩ hne
    exact ⟨j, hj, hkeep hq hne⟩
  have halive : ∀ {q}, (s.task q).state ≠ .died → q ≠ c := by
    rintro q hq rfl
    exact hq hd
  have hrc : s.running ≠ c := halive (by rw [hr.state]; exact nofun)
  refine ⟨⟨⟨hpage hr.page hrc, hr.state⟩, rank, ?_⟩, fun p => ?_⟩
  · constructor
    · exact (update_of_ne (by omega) ..).trans ht.zero
    · obtain ⟨q, hq⟩ := ht.one
      exact ⟨q, (update_of_ne (by omega) ..).trans hq⟩
    · intro j hj
      by_cases hji : j = i
      · subst hji
        exact update_self ..
      · exact (update_of_ne hji ..).trans (ht.room j hj)
    · exact fun j q hj => ht.pid j q (hslot hj).2
    · exact fun j q hlt hj => ht.root j q hlt (hslot hj).2
    · intro j q hj h0
      obtain ⟨r, h1, h3, h4⟩ := ht.ppid j q (hslot hj).2 h0
      exact ⟨r, hkeep h1 (halive h3), h3, h4⟩
    · exact fun j q w hj hw => ht.call j q w (hslot hj).2 hw
    · intro j q z hj hw
      obtain ⟨d, h1, h3⟩ := ht.child j q z (hslot hj).2 hw
      refine ⟨d, hkeep h1 ?_, h3⟩
      -- it is not the child of a task that waits, since the running one does not
      rintro rfl
      refine hr.awake hw ?_
      have hq := (hslot hj).2
      rw [← h3, hc, ht.at hr.page] at hq
      exact (some.inj hq).symm
    · exact fun j q w hj hw hx k d hk => ht.told j q w (hslot hj).2 hw hx k d (hslot hk).2
    · intro a ha
      obtain ⟨h1, h3⟩ := ht.timers a ha
      exact ⟨hpage h1 (halive h3), h3⟩
  · constructor
    · rintro ⟨⟨j, hj, hp⟩, h1⟩
      obtain ⟨hji, hp⟩ := hslot hp
      refine ⟨⟨⟨j, hj, hp⟩, h1⟩, ?_⟩
      rintro rfl
      exact hji ((ht.pid j _ hp).symm.trans (ht.pid i _ hi))
    · exact fun ⟨⟨h1, h3⟩, hp⟩ => ⟨hpage h1 hp, h3⟩

theorem Tree.wait {w : Option Nat} (h : Tree rank NoWait s) (hr : Runs s) (hk : (s.task s.running).pid ≠ 0)
    (hpid : x.pid = (s.task s.running).pid) (hppid : x.ppid = (s.task s.running).ppid) (hwait : x.waitpid = w) (hst : x.state = .waiting)
    (hcall : x.call = some w) (hnone : deadChild s w = none) (hsome : children s w ≠ []) : Tree rank NoWait (s.setTask s.running x) := by
  have hpids := setTask_field (s := s) (p := s.running) (x := x) Task.pid hpid
  have hppids := setTask_field (s := s) (p := s.running) (x := x) Task.ppid hppid
  have hdied : ∀ q, ((s.setTask s.running x).task q).state = .died ↔ (s.task q).state = .died := by
    intro q
    by_cases hq : q = s.running
    · subst hq
      rw [setTask_same, hst, hr.state]
      exact iff_of_false nofun nofun
    · rw [setTask_ne x hq]
  have hwaits : ∀ q v, (s.setTask s.running x).Waits q v → q = s.running ∧ v = w ∨ q ≠ s.running ∧ s.Waits q v := by
    intro q v ⟨h1, h2⟩
    by_cases hq : q = s.running
    · subst hq
      rw [setTask_same, hcall] at h2
      exact .inl ⟨rfl, (some.inj h2).symm⟩
    · rw [setTask_ne x hq] at h1 h2
      exact .inr ⟨hq, h1, h2⟩
  constructor
  · exact h.zero
  · exact h.one
  · exact h.room
  · exact fun i p hi => (hpids p).trans (h.pid i p hi)
  · intro i p hlt hi
    rw [hppids, ne_eq, hdied]
    exact h.root i p hlt hi
  · intro i p hi
    rw [hppids]
    intro h0
    obtain ⟨q, h1, h2, h3⟩ := h.ppid i p hi h0
    exact ⟨q, h1, fun hd => h2 ((hdied q).1 hd), h3⟩
  · intro i q v hi hv
    rcases hwaits q v hv with ⟨rfl, rfl⟩ | ⟨hq, hv⟩
    · rw [setTask_same]
      exact hwait
    · rw [setTask_ne x hq]
      exact h.call i q v hi hv
  · intro i q z hi hv
    rcases hwaits q _ hv with ⟨rfl, hz⟩ | ⟨hq, hv⟩
    · obtain ⟨⟨j, c⟩, hm⟩ := List.exists_mem_of_ne_nil _ hsome
      obtain ⟨-, h1, -, h2, h3⟩ := mem_children.1 hm
      refine ⟨c, ?_, (hppids c).trans (h2.trans (h.pid i _ hi))⟩
      rw [← hz, h.pid j c h1] at h3
      obtain rfl : z = j := some.inj (h3.resolve_left nofun)
      exact h1
    · obtain ⟨c, h1, h2⟩ := h.child i q z hi hv
      exact ⟨c, h1, (hppids c).trans h2⟩
  · intro i q v hi hv _ j c hj hc hm
    rw [hppids] at hc
    rw [ne_eq, hdied]
    rcases hwaits q v hv with ⟨rfl, rfl⟩ | ⟨hq, hv⟩
    · have hik : i = (s.task s.running).pid := (h.pid i _ hi).symm
      refine deadChild_none hnone (mem_children.2 ⟨h.slot hj, hj, ?_, hc.trans hik, ?_⟩)
      · -- the first two tasks are no children
        by_contra hn
        have := (h.root j c (by omega) hj).1
        omega
      · rw [h.pid j c hj]
        exact hm
    · exact h.told i q v hi hv id j c hj hc hm
  · intro a ha
    obtain ⟨h1, h2⟩ := h.timers a ha
    exact ⟨h1, fun hd => h2 ((hdied _).1 hd)⟩

theorem inCall_stays (hr : Runs s) : Stays s (s.inCall none) := by
  refine .setTask rfl rfl rfl (fun _ => Iff.rfl) (fun w h1 _ => ?_) id
  rw [hr.state] at h1
  cases h1

theorem Inv.waitpid {pid : Option Nat} (h : Inv s) (h0 : s.running ≠ s.idle) (hw : taskWaitpid s pid = .ok t) : Inv t ∧
    ∀ p, t.Dead p ↔ s.Dead p ∧ ∀ i, deadChild s pid ≠ some (i, p) := by
  have hs := inCall_stays h.1
  have hnot : deadChild s pid = none → ∀ p, s.Dead p ↔ s.Dead p ∧ ∀ i, deadChild s pid ≠ some (i, p) := fun hd p =>
    ⟨fun h => ⟨h, fun i => by rw [hd]; exact nofun⟩, And.left⟩
  rcases taskWaitpid_ok hw with ⟨i, c, hd, rfl⟩ | ⟨hd, -, rfl⟩ | ⟨hd, hc, hw⟩
  · obtain ⟨h1, h2⟩ := deadChild_some hd
    obtain ⟨hlt, h3, h4, h5, -⟩ := mem_children.1 h1
    obtain ⟨h6, h7⟩ := (hs.inv h).reap h3 h4 ((hs.died c ⟨i, hlt, h3⟩).2 h2) ((hs.ppid c).trans (h5.trans (hs.pid _).symm))
    refine ⟨h6, fun p => (h7 p).trans (and_congr hs.dead ⟨fun hp j => ?_, fun hp => ?_⟩)⟩
    · rw [hd]
      rintro ⟨⟩
      exact hp rfl
    · rintro rfl
      exact hp i hd
  · exact ⟨hs.inv h, fun p => hs.dead.trans (hnot hd p)⟩
  · obtain ⟨u, hu, rfl⟩ := taskBlock_ok hw
    obtain ⟨hr, rank, ht⟩ := h
    cases hu
    rw [show (s.setTask s.running _).running = s.running from rfl, setTask_idem, setTask_same]
    have hk : (s.task s.running).pid ≠ 0 := by
      intro he
      have := ht.at hr.page
      rw [he, ht.zero] at this
      exact h0 (some.inj this).symm
    have hwait : Tree rank NoWait (s.setTask s.running
        { s.task s.running with waitpid := pid, call := some pid, linked := true, state := .waiting }) :=
      ht.wait hr hk rfl rfl rfl rfl rfl hd hc
    obtain ⟨h1, h2⟩ := hwait.switch
    refine ⟨h1, fun p => (h2 p).trans (Iff.trans ?_ (hnot hd p))⟩
    refine and_congr_right fun _ => ?_
    by_cases hp : p = s.running
    · subst hp
      rw [setTask_same, hr.state]
      exact iff_of_false nofun nofun
    · rw [setTask_ne _ hp]

theorem Inv.block {st : TaskState} {ms : Int} (h : Inv s) (hcall : s.Outside) (hst : st ≠ .died) (hb : taskBlock s st ms = .ok t) :
    Inv t ∧ ∀ p, t.Dead p ↔ s.Dead p := by
  obtain ⟨u, hu, rfl⟩ := taskBlock_ok hb
  have hs := Stays.blockTimer h.1 hu
  have hc : (u.task u.running).call = none := by
    rcases blockTimer_ok hu with rfl | ⟨-, rfl⟩
    · exact hcall
    · rw [show ((timerAdd s (BitVec.ofInt 32 ms) false).setTask s.running _).running = s.running from rfl, setTask_same]
      exact hcall
  obtain ⟨hr, rank, ht⟩ := hs.inv h
  have hsame : Same u (u.setTask u.running { u.task u.running with linked := true, state := st }) := by
    constructor
    · rfl
    · rfl
    · exact setTask_field Task.pid rfl
    · exact setTask_field Task.ppid rfl
    · exact setTask_field Task.waitpid rfl
    · intro p _
      by_cases hp : p = u.running
      · subst hp
        rw [setTask_same, hr.state]
        exact iff_of_false hst nofun
      · rw [setTask_ne _ hp]
    · intro p w ⟨h1, h2⟩
      by_cases hp : p = u.running
      · subst hp
        rw [setTask_same] at h2
        rw [hc] at h2
        cases h2
      · rw [setTask_ne _ hp] at h1 h2
        exact ⟨h1, h2⟩
    · exact fun a ha => .inl ⟨ha, rfl⟩
  obtain ⟨h1, h2⟩ := (ht.same hsame).switch
  exact ⟨h1, fun p => (h2 p).trans (hsame.dead.trans hs.dead)⟩

theorem tick_stays (s : State) : Stays s { s with jiffies := s.jiffies + 1 } :=
  ⟨⟨rfl, rfl, fun _ => rfl, fun _ => rfl, fun _ => rfl, fun _ _ => .rfl, fun _ _ h => h, fun _ h => .inl ⟨h, rfl⟩⟩, rfl, id⟩

theorem Inv.clock (h : Inv s) (hc : clockHandler s = .ok t) : Inv t ∧ ∀ p, t.Dead p ↔ s.Dead p := by
  obtain ⟨u, hu, hc⟩ := bind_ok hc
  have h0 := tick_stays s
  have h1 : Stays s (u.setTask u.running { u.task u.running with jiffies := u.jiffies, ticks := (u.task u.running).ticks - 1 }) :=
    (h0.trans (.timerLoop _ _ _ (h0.inv h) hu)).trans (.fields rfl rfl rfl rfl rfl)
  rw [← Except.ok.inj hc]
  split
  · obtain ⟨-, rank, ht⟩ := h1.inv h
    obtain ⟨h2, h3⟩ := ht.switch
    exact ⟨h2, fun p => (h3 p).trans h1.dead⟩
  · exact ⟨h1.inv h, fun p => h1.dead⟩

def DeadAfter (s : State) (p : Nat) : Act → Prop
  | .exit _ => s.Dead p ∨ p = s.running
  | .waitpid pid => s.Dead p ∧ ∀ i, deadChild s pid ≠ some (i, p)
  | _ => s.Dead p

theorem Inv.step {a : Act} (h : Inv s) (he : enabled s a) (hs : step s a = .ok t) : Inv t ∧ ∀ p, t.Dead p ↔ DeadAfter s p a := by
  have hstays : Stays s t → Inv t ∧ ∀ p, t.Dead p ↔ s.Dead p := fun h1 => ⟨h1.inv h, fun p => h1.dead⟩
  cases a with
  | fork p => exact h.fork he.2.2 hs
  | exit status => exact (h.exit he.2.1 he.2.2 status).of_ok hs
  | waitpid pid => exact h.waitpid he.2 hs
  | kill pid sig => exact hstays (.kill hs)
  | alarm sec => exact hstays (.alarm h.1 hs)
  | block st ms =>
    obtain ⟨h1, -, h2⟩ := he
    refine h.block h1 ?_ hs
    rintro rfl
    rcases h2 with h2 | h2 | h2 <;> cases h2
  | unblock p reason => exact hstays (.unblock he.2.2 hs)
  | yield =>
    obtain ⟨-, rank, ht⟩ := h
    exact Except.ok.inj hs ▸ ht.switch
  | clock => exact h.clock hs

theorem Start.inv (h : Start s) : Inv s := by
  have hcreated := h.created
  have hstate : ∀ i p, s.table i = some p → (s.task p).state ≠ .died ∧ (s.task p).state ≠ .waiting := by
    intro i p hi
    rw [(hcreated i p hi).2]
    split
    · exact ⟨nofun, nofun⟩
    · exact ⟨nofun, nofun⟩
  refine ⟨⟨?_, ?_⟩, fun _ => 0, h.idle.2, h.init, h.room, fun i p hi => (hcreated i p hi).1.pid, ?_, ?_, ?_, ?_, ?_, ?_⟩
  · rw [h.idle.1]
    exact ⟨0, by decide, h.idle.2⟩
  · rw [h.idle.1, (hcreated 0 _ h.idle.2).2]
    rfl
  · exact fun i p _ hi => ⟨(hcreated i p hi).1.ppid, (hstate i p hi).1⟩
  · exact fun i p hi h0 => absurd (hcreated i p hi).1.ppid h0
  · exact fun i q w hi hw => absurd hw.1 (hstate i q hi).2
  · exact fun i q z hi hw => absurd hw.1 (hstate i q hi).2
  · exact fun i q w hi hw => absurd hw.1 (hstate i q hi).2
  · intro a ha
    rw [h.timers.1] at ha
    cases ha

/-! ## Histories -/

/-- How often the task on each page exited, and how often `task_waitpid` returned it. -/
structure Deaths where
  exited : Nat → Nat
  returned : Nat → Nat

def Deaths.after (g : Deaths) (s : State) (a : Act) (_ : State) : Deaths :=
  match a with
  | .exit _ => { g with exited := Function.update g.exited s.running (g.exited s.running + 1) }
  | .waitpid pid =>
    match deadChild s pid with
    | none => g
    | some (_, c) => { g with returned := Function.update g.returned c (g.returned c + 1) }
  | _ => g

def family : Machine (State × Deaths) Act Fault := processes.record (fun _ g => g = ⟨fun _ => 0, fun _ => 0⟩) Deaths.after

def Counted (s : State) (g : Deaths) : Prop :=
  ∀ p, (s.Dead p → g.exited p = g.returned p + 1) ∧ (¬ s.Dead p → g.exited p = g.returned p)

theorem Counted.step {g : Deaths} {a : Act} (hi : Inv s) (h : Counted s g) (hd : ∀ p, t.Dead p ↔ DeadAfter s p a) : Counted t (g.after s a t) := by
  have hkeep : (∀ p, t.Dead p ↔ s.Dead p) → Counted t g := fun hd p => by
    rw [hd p]
    exact h p
  cases a with
  | exit status =>
    intro p
    have hdead : ¬ s.Dead s.running := fun h1 => by
      have := h1.2
      rw [hi.1.state] at this
      cases this
    have hp : t.Dead p ↔ s.Dead p ∨ p = s.running := hd p
    show (t.Dead p → update g.exited s.running _ p = _) ∧ (¬ t.Dead p → update g.exited s.running _ p = _)
    rw [hp]
    by_cases hpr : p = s.running
    · subst hpr
      rw [update_self, (h _).2 hdead]
      exact ⟨fun _ => rfl, fun hn => absurd (.inr rfl) hn⟩
    · rw [update_of_ne hpr, or_iff_left hpr]
      exact h p
  | waitpid pid =>
    have hd : ∀ p, t.Dead p ↔ s.Dead p ∧ ∀ i, deadChild s pid ≠ some (i, p) := hd
    unfold Deaths.after
    dsimp only
    cases hc : deadChild s pid with
    | none => exact hkeep fun p => (hd p).trans ⟨And.left, fun h => ⟨h, fun i => by rw [hc]; exact nofun⟩⟩
    | some x =>
      obtain ⟨i, c⟩ := x
      intro p
      show (t.Dead p → _ = update g.returned c _ p + 1) ∧ (¬ t.Dead p → _ = update g.returned c _ p)
      rw [hd p, hc]
      by_cases hpc : p = c
      · subst hpc
        obtain ⟨h1, h2⟩ := deadChild_some hc
        have hdead : s.Dead p := ⟨⟨i, (mem_children.1 h1).1, (mem_children.1 h1).2.1⟩, h2⟩
        rw [update_self, (h p).1 hdead]
        exact ⟨fun h3 => absurd rfl (h3.2 i), fun _ => rfl⟩
      · rw [update_of_ne hpc, and_iff_left fun j he => hpc (Prod.mk.inj (some.inj he)).2.symm]
        exact h p
  | fork p => exact hkeep hd
  | kill pid sig => exact hkeep hd
  | alarm sec => exact hkeep hd
  | block st ms => exact hkeep hd
  | unblock p reason => exact hkeep hd
  | yield => exact hkeep hd
  | clock => exact hkeep hd

theorem family_inv {x : State × Deaths} (h : family.Reach Machine.Any x) : Inv x.1 ∧ Counted x.1 x.2 := by
  refine Machine.Reach.inv (I := fun x => Inv x.1 ∧ Counted x.1 x.2) (fun x hx => ?_) (fun x a y hi _ hs => ?_) h
  · obtain ⟨h1, h2⟩ := hx
    refine ⟨h1.inv, fun p => ⟨?_, fun _ => by rw [h2]⟩⟩
    rintro ⟨⟨i, -, hi⟩, hd⟩
    rw [(h1.created i p hi).2] at hd
    split at hd <;> cases hd
  · obtain ⟨⟨he, hs⟩, hy⟩ := Machine.record_steps.1 hs
    obtain ⟨h1, h2⟩ := hi.1.step he hs
    rw [hy]
    exact ⟨h1, hi.2.step hi.1 h2⟩

/-- The process tree in every state reached: a pid is the slot of its task; a parent is there and has not died, so that a task that exits
does not miss it; a dead task is returned once, and then gone; no task waits for a child that is dead already. -/
theorem process_tree {x : State × Deaths} (h : family.Reach Machine.Any x) :
    (∀ i p, x.1.table i = some p → (x.1.task p).pid = i) ∧
    (∀ p, x.1.Page p → (x.1.task p).ppid ≠ 0 → ∃ q, x.1.table (x.1.task p).ppid = some q ∧ (x.1.task q).state ≠ .died) ∧
    (∀ status, enabled x.1 (.exit status) → step x.1 (.exit status) ≠ .error .parent) ∧
    Counted x.1 x.2 ∧
    (∀ pid i c t, deadChild x.1 pid = some (i, c) → step x.1 (.waitpid pid) = .ok t → x.1.Dead c ∧ t.table i = none ∧ ¬ t.Page c) ∧
    (∀ p w c, x.1.Page p → x.1.Waits p w → x.1.Dead c → (x.1.task c).ppid = (x.1.task p).pid → ¬ Matches w (x.1.task c).pid) := by
  obtain ⟨hi, hc⟩ := family_inv h
  obtain ⟨hr, rank, ht⟩ := hi
  refine ⟨ht.pid, ?_, ?_, hc, ?_, ?_⟩
  · rintro p ⟨i, -, hp⟩ h0
    obtain ⟨q, h1, h2, -⟩ := ht.ppid i p hp h0
    exact ⟨q, h1, h2⟩
  · exact fun status he hs => (Inv.exit ⟨hr, rank, ht⟩ he.2.1 he.2.2 status).not_bad hs rfl
  · intro pid i c t hd hs
    obtain ⟨h1, h2⟩ := deadChild_some hd
    obtain ⟨h3, h4, -⟩ := mem_children.1 h1
    rcases taskWaitpid_ok hs with ⟨j, d, hd', rfl⟩ | ⟨hd', -⟩ | ⟨hd', -⟩
    · rw [hd] at hd'
      cases hd'
      refine ⟨⟨⟨i, h3, h4⟩, h2⟩, Function.update_self .., ?_⟩
      rintro ⟨j, hj, hjc⟩
      have hjc : Function.update x.1.table i none j = some c := hjc
      by_cases hji : j = i
      · rw [hji, Function.update_self] at hjc
        cases hjc
      · rw [Function.update_of_ne hji] at hjc
        exact hji ((ht.pid j c hjc).symm.trans (ht.pid i c h4))
    · rw [hd] at hd'
      cases hd'
    · rw [hd] at hd'
      cases hd'
  · rintro p w c ⟨i, -, hp⟩ hw ⟨hcp, hd⟩ hppid hm
    rw [ht.pid i p hp] at hppid
    exact ht.told i p w hp hw id _ c (ht.at hcp) hppid hm hd

instance (x : State × Deaths) (a : Act) : Decidable (family.enabled x a) := inferInstanceAs (Decidable (enabled x.1 a))

def boot : State where
  running := 100
  idle := 100
  table i := if i < 2 then some (100 + i) else none
  task p :=
    { pid := p - 100, ppid := 0, uid := if p = 100 then 0 else 1000, state := if p = 100 then .running else .ready, linked := false,
      status := 0, waitpid := none, signal := 0, priority := if p = 100 then 1 else 5, ticks := if p = 100 then 1 else 5, jiffies := 0,
      alarm := none, timer := none, call := none }
  timers := []
  timer _ := ⟨0, 0, false, false⟩
  nextTimer := 0
  freed := []
  jiffies := 0

theorem boot_start : Start boot := by
  refine ⟨⟨rfl, rfl⟩, ⟨101, rfl⟩, fun i hi => if_neg ?_, fun i p hi => ?_, rfl, rfl, rfl⟩
  · unfold taskNr at hi
    omega
  · unfold boot at hi
    dsimp only at hi
    split at hi
    · cases hi
      refine ⟨⟨Nat.add_sub_cancel_left .., rfl, rfl, rfl, rfl, rfl⟩, ?_⟩
      show (if 100 + i = 100 then TaskState.running else .ready) = _
      congr 1
      exact propext (by omega)
    · cases hi

/-- The task 1 forks and waits; its child exits, and it is returned. -/
theorem process_tree_child : ∃ x t, family.Reach Machine.Any x ∧ step x.1 (.waitpid none) = .ok t ∧ x.2.exited 102 = 1 ∧ x.1.Dead 102 ∧
    t.table 2 = none ∧ ¬ t.Page 102 := by
  have h : (family.trace Machine.Any (boot, ⟨fun _ => 0, fun _ => 0⟩) [.yield, .fork 102, .waitpid none, .exit 7]).map (fun x =>
      (x.2.exited 102, deadChild x.1 none, (step x.1 (.waitpid none)).toOption.isSome)) = some (1, some (2, 102), true) := by decide +kernel
  obtain ⟨x, hx, he⟩ := Option.map_eq_some_iff.1 h
  obtain ⟨h1, h2⟩ := Prod.mk.inj he
  obtain ⟨h2, h3⟩ := Prod.mk.inj h2
  cases ht : step x.1 (.waitpid none) with
  | error e =>
    rw [ht] at h3
    cases h3
  | ok t =>
    have h0 : family.start (boot, ⟨fun _ => 0, fun _ => 0⟩) := ⟨boot_start, rfl⟩
    have hr := Machine.trace_reach h0 hx
    exact ⟨x, t, hr, ht, h1, (process_tree hr).2.2.2.2.1 none 2 102 t h2 ht⟩

end Onix.Proc
