/-
Which task `task_search` finds for `schedule`. A later task of the table takes the place of the one found so far if it has more ticks or
an earlier last run, whatever the other of the two is; so the one that is left is the first that no later one displaces, and a task before
it may be better than it in both.
-/
import Onix.Proc.Steps

namespace Onix.Proc

variable {s : State} {i j p q r : Nat}
variable {found : Option Nat}

/-! ## What the search is to find -/

def State.Waiting (s : State) (i p : Nat) : Prop := i < taskNr ∧ s.table i = some p ∧ (s.task p).state = .ready ∧ p ≠ s.running

def State.Displaces (s : State) (p q : Nat) : Prop := (s.task q).ticks < (s.task p).ticks ∨ (s.task p).jiffies < (s.task q).jiffies

instance (s : State) (p q : Nat) : Decidable (s.Displaces p q) := inferInstanceAs (Decidable (_ ∨ _))

/-- `q` has as many ticks as `p` and ran as long ago, and one of the two is better. -/
def State.Dominates (s : State) (q p : Nat) : Prop :=
  (s.task p).ticks ≤ (s.task q).ticks ∧ (s.task q).jiffies ≤ (s.task p).jiffies ∧
    ((s.task p).ticks < (s.task q).ticks ∨ (s.task q).jiffies < (s.task p).jiffies)

def searchReady (s : State) : Nat := (taskSearch s .ready).getD s.idle

/-- What is promised of the task that is found. -/
structure Chosen (s : State) (p : Nat) : Prop where
  ready : (s.task p).state = .ready
  other : p ≠ s.running
  idle : p = s.idle → ∀ i q, s.Waiting i q → q = s.idle
  best : ∀ i q, s.Waiting i q → ¬ s.Dominates q p

def State.Lasts (s : State) (i p : Nat) : Prop := s.Waiting i p ∧ ∀ j q, i < j → s.Waiting j q → ¬ s.Displaces q p

/-- The first task that no later one displaces is not dominated by one before it, and is the idle task only if that waits alone; without a
task that waits, the idle task is ready and does not run. -/
structure Fair (s : State) : Prop where
  best : ∀ i p, s.Lasts i p → (∀ j q, j < i → ¬ s.Lasts j q) → ∀ j q, j < i → s.Waiting j q → ¬ s.Dominates q p
  idle : ∀ i, s.Lasts i s.idle → (∀ j q, j < i → ¬ s.Lasts j q) → ∀ j q, s.Waiting j q → q = s.idle
  alone : (∀ i q, ¬ s.Waiting i q) → (s.task s.idle).state = .ready ∧ s.idle ≠ s.running

/-! ## The loop -/

theorem displaces_of_dominates (h : s.Dominates q p) : s.Displaces q p := h.2.2

theorem not_displaces_trans (h1 : ¬ s.Displaces q p) (h2 : ¬ s.Displaces r q) : ¬ s.Displaces r p := by
  unfold State.Displaces at *
  rw [not_or, Int.not_lt, BitVec.not_lt] at *
  exact ⟨Int.le_trans h2.1 h1.1, BitVec.le_trans h1.2 h2.2⟩

/-- The slots below `n` were looked at: the task found is displaced by none after it, and every task before it by one after that. -/
structure Kept (s : State) (n : Nat) (x : Option Nat) : Prop where
  empty : x = none → ∀ i q, i < n → ¬ s.Waiting i q
  found : ∀ p, x = some p → ∃ i < n, s.Waiting i p ∧ (∀ j q, i < j → j < n → s.Waiting j q → ¬ s.Displaces q p) ∧
    ∀ j q, j < i → s.Waiting j q → ∃ k r, j < k ∧ k < n ∧ s.Waiting k r ∧ s.Displaces r q

theorem Kept.skip {n : Nat} (h : Kept s n found) (hn : ∀ q, ¬ s.Waiting n q) : Kept s (n + 1) found := by
  have hlt : ∀ {i q}, i < n + 1 → s.Waiting i q → i < n := fun {i q} h1 h2 =>
    Nat.lt_of_le_of_ne (Nat.le_of_lt_succ h1) fun e => hn q (e ▸ h2)
  refine ⟨fun hf i q hi hw => h.empty hf i q (hlt hi hw) hw, fun p hf => ?_⟩
  obtain ⟨i, hi, hw, h1, h2⟩ := h.found p hf
  refine ⟨i, Nat.lt_succ_of_lt hi, hw, fun j q hj hjn hq => h1 j q hj (hlt hjn hq) hq, fun j q hj hq => ?_⟩
  obtain ⟨k, r, hk, hkn, hr⟩ := h2 j q hj hq
  exact ⟨k, r, hk, Nat.lt_succ_of_lt hkn, hr⟩

theorem Kept.take {n : Nat} (h : Kept s n found) (hp : s.Waiting n p) (hd : ∀ q, found = some q → s.Displaces p q) :
    Kept s (n + 1) (some p) := by
  refine ⟨nofun, fun q hq => ?_⟩
  cases hq
  refine ⟨n, Nat.lt_succ_self n, hp, fun j q hj hjn => absurd (Nat.lt_of_lt_of_le hj (Nat.le_of_lt_succ hjn)) (Nat.lt_irrefl n), fun j q hj hq => ?_⟩
  cases hf : found with
  | none => exact absurd hq (h.empty hf j q hj)
  | some a =>
    obtain ⟨i, hi, hw, h1, h2⟩ := h.found a hf
    rcases Nat.lt_trichotomy j i with hji | rfl | hij
    · obtain ⟨k, r, hk, hkn, hr⟩ := h2 j q hji hq
      exact ⟨k, r, hk, Nat.lt_succ_of_lt hkn, hr⟩
    · obtain rfl : q = a := Option.some.inj (hq.2.1.symm.trans hw.2.1)
      exact ⟨n, p, hj, Nat.lt_succ_self n, hp, hd q hf⟩
    · -- it came after the one found so far and did not displace it, so the new one displaces it as well
      refine ⟨n, p, hj, Nat.lt_succ_self n, hp, ?_⟩
      by_contra hn
      exact not_displaces_trans (h1 j q hij hj hq) hn (hd a hf)

theorem Kept.slot {n : Nat} (hn : n < taskNr) (h : Kept s n found) : Kept s (n + 1) (searchSlot s .ready found n) := by
  unfold searchSlot
  cases ht : s.table n with
  | none => exact h.skip fun q hq => nomatch ht.symm.trans hq.2.1
  | some p =>
    dsimp only
    by_cases hw : (s.task p).state ≠ .ready ∨ p = s.running
    · rw [if_pos hw]
      refine h.skip fun q hq => ?_
      obtain rfl : p = q := Option.some.inj (ht.symm.trans hq.2.1)
      exact hw.elim (fun e => e hq.2.2.1) hq.2.2.2
    rw [if_neg hw]
    obtain ⟨h1, h2⟩ := not_or.1 hw
    have hp : s.Waiting n p := ⟨hn, ht, not_not.1 h1, h2⟩
    cases found with
    | none => exact h.take hp nofun
    | some q =>
      show Kept s (n + 1) (if s.Displaces p q then some p else some q)
      by_cases hd : s.Displaces p q
      · rw [if_pos hd]
        exact h.take hp fun r hr => Option.some.inj hr ▸ hd
      · rw [if_neg hd]
        obtain ⟨i, hi, hq, h3, h4⟩ := h.found q rfl
        refine ⟨nofun, fun r hr => ?_⟩
        cases hr
        refine ⟨i, Nat.lt_succ_of_lt hi, hq, fun j r hj hjn hr => ?_, fun j r hj hr => ?_⟩
        · rcases Nat.lt_succ_iff_lt_or_eq.1 hjn with hjn | rfl
          · exact h3 j r hj hjn hr
          · obtain rfl : p = r := Option.some.inj (ht.symm.trans hr.2.1)
            exact hd
        · obtain ⟨k, a, hk, hkn, ha⟩ := h4 j r hj hr
          exact ⟨k, a, hk, Nat.lt_succ_of_lt hkn, ha⟩

theorem search_kept (s : State) : ∀ n ≤ taskNr, Kept s n ((List.range n).foldl (searchSlot s .ready) none)
  | 0, _ => ⟨fun _ _ _ h => absurd h (Nat.not_lt_zero _), nofun⟩
  | n + 1, h => by
    rw [List.range_succ, List.foldl_append]
    exact (search_kept s n (Nat.le_of_succ_le h)).slot h

theorem searchReady_lasts (h : s.Waiting j q) : ∃ i, s.Lasts i (searchReady s) ∧ ∀ j q, j < i → ¬ s.Lasts j q := by
  have hk := search_kept s taskNr (Nat.le_refl _)
  have hd : searchReady s = ((List.range taskNr).foldl (searchSlot s .ready) none).getD s.idle := rfl
  rw [hd]
  cases hf : (List.range taskNr).foldl (searchSlot s .ready) none with
  | none => exact absurd h (hk.empty hf j q h.1)
  | some p =>
    obtain ⟨i, -, hp, h1, h2⟩ := hk.found p hf
    refine ⟨i, ⟨hp, fun j q hj hq => h1 j q hj hq.1 hq⟩, fun j q hj hq => ?_⟩
    obtain ⟨k, r, hk, -, hr, hd⟩ := h2 j q hj hq.1
    exact hq.2 k r hk hr hd

theorem searchReady_idle (h : ∀ i q, ¬ s.Waiting i q) : searchReady s = s.idle := by
  have hk := search_kept s taskNr (Nat.le_refl _)
  have hd : searchReady s = ((List.range taskNr).foldl (searchSlot s .ready) none).getD s.idle := rfl
  rw [hd]
  cases hf : (List.range taskNr).foldl (searchSlot s .ready) none with
  | none => rfl
  | some p =>
    obtain ⟨i, -, hp, -⟩ := hk.found p hf
    exact absurd hp (h i p)

/-! ## The choice -/

/-- The task that is found is as promised exactly if the first one that no later one displaces is no worse than one before it, and the
idle task is not found before another. -/
theorem scheduler_choice (s : State) : Chosen s (searchReady s) ↔ Fair s := by
  by_cases hw : ∃ j q, s.Waiting j q
  · obtain ⟨j, q, hq⟩ := hw
    obtain ⟨i, hs, hfirst⟩ := searchReady_lasts hq
    have honly : ∀ k r, s.Lasts k r → (∀ j q, j < k → ¬ s.Lasts j q) → k = i ∧ r = searchReady s := by
      intro k r hr hk
      rcases Nat.lt_trichotomy k i with h1 | rfl | h1
      · exact absurd hr (hfirst k r h1)
      · exact ⟨rfl, Option.some.inj (hr.1.2.1.symm.trans hs.1.2.1)⟩
      · exact absurd hs (hk i _ h1)
    constructor
    · intro h
      refine ⟨fun k r hr hk j q _ hq => ?_, fun k hr hk j q hq => ?_, fun hn => absurd hq (hn j q)⟩
      · rw [(honly k r hr hk).2]
        exact h.best j q hq
      · exact h.idle (honly k _ hr hk).2.symm j q hq
    · intro h
      refine ⟨hs.1.2.2.1, hs.1.2.2.2, fun he j q hq => ?_, fun j q hq => ?_⟩
      · exact h.idle i (he ▸ hs) hfirst j q hq
      · rcases Nat.lt_trichotomy j i with h1 | rfl | h1
        · exact h.best i _ hs hfirst j q h1 hq
        · obtain rfl : q = searchReady s := Option.some.inj (hq.2.1.symm.trans hs.1.2.1)
          exact fun hd => hd.2.2.elim (Int.lt_irrefl _) (BitVec.lt_irrefl _)
        · exact fun hd => hs.2 j q h1 hq (displaces_of_dominates hd)
  · have hn : ∀ i q, ¬ s.Waiting i q := fun i q h => hw ⟨i, q, h⟩
    rw [searchReady_idle hn]
    constructor
    · intro h
      exact ⟨fun i p hp => absurd hp.1 (hn i p), fun i hp => absurd hp.1 (hn i _), fun _ => ⟨h.ready, h.other⟩⟩
    · intro h
      exact ⟨(h.alone hn).1, (h.alone hn).2, fun _ i q hq => absurd hq (hn i q), fun i q hq => absurd hq (hn i q)⟩

/-- The task 1 runs, and three of its children are ready; the idle task waits behind them with one tick. -/
def crowd : State where
  running := 101
  idle := 100
  table i := if i < 5 then some (100 + i) else none
  task p :=
    { pid := p - 100, ppid := if p = 100 ∨ p = 101 then 0 else 1, uid := if p = 100 then 0 else 1000,
      state := if p = 101 then .running else .ready, linked := false, status := 0, waitpid := none, signal := 0,
      priority := if p = 100 then 1 else 5,
      ticks := if p = 102 then 4 else if p = 103 then 5 else 1,
      jiffies := if p = 102 then 21 else if p = 103 then 30 else if p = 104 then 29 else 31,
      alarm := none, timer := none, call := none }
  timers := []
  timer _ := ⟨0, 0, false, false⟩
  nextTimer := 0
  freed := []
  jiffies := 31

/-- The third child is found, though the first has more ticks and ran before it. -/
theorem dominated_task_found : searchReady crowd = 104 ∧ crowd.Waiting 2 102 ∧ crowd.Dominates 102 104 ∧ ¬ Chosen crowd (searchReady crowd) := by
  have h1 : searchReady crowd = 104 := by decide +kernel
  have h2 : crowd.Waiting 2 102 := ⟨by decide, rfl, rfl, by decide⟩
  have h3 : crowd.Dominates 102 104 := ⟨by decide, by decide, .inl (by decide)⟩
  refine ⟨h1, h2, h3, fun h => ?_⟩
  exact h.best 2 102 h2 h3

end Onix.Proc
