/-
The locks of `kernel/mutex.c`, for any number of tasks. A task may be switched away between any two
statements, except with interrupts off: there it goes on until `task_block` or the end of the section. Who
runs next is left open. A task on the list of a mutex may also be woken by code that has nothing to do
with it.
-/
import Onix.Lib.Machine

namespace Onix.Lock

open List Function Onix.Lib

/-! ## Data -/

/-- Where a task is in the code of the lock. -/
inductive Pc
  | idle
  /-- `lock_acquire`, before the test of the holder -/
  | acquire
  /-- before `repeat++` -/
  | again
  /-- before `mutex_lock` -/
  | mutexLock
  /-- in `task_block`, or woken from it -/
  | blocked
  /-- before the holder is set -/
  | setHolder
  /-- before the count is set to 1 -/
  | setRepeat
  /-- `lock_release`, before the assertion on the holder -/
  | release
  /-- before `repeat--` -/
  | less
  /-- before the holder is reset -/
  | clearHolder
  /-- before the count is reset -/
  | clearRepeat
  /-- before `mutex_unlock` -/
  | mutexUnlock
  deriving DecidableEq

/-- The failed assertion: on the count in `lock_acquire`, on the holder and the count in `lock_release`,
on the value in `mutex_unlock`. -/
inductive Fault
  | first
  | holder
  | last
  | value
  deriving DecidableEq

variable {T : Type} [DecidableEq T]

/-- A lock and its tasks. `depth` is how often a task has acquired the lock and not released it; no step reads it. -/
structure State (T : Type) where
  value : Bool
  waiters : List T
  holder : Option T
  rep : Nat
  pc : T → Pc
  depth : T → Nat

def State.goto (s : State T) (t : T) (c : Pc) : State T := { s with pc := Function.update s.pc t c }

def State.setDepth (s : State T) (t : T) (n : Nat) : State T := { s with depth := Function.update s.depth t n }

/-! ## The code -/

/-- A round of the loop of `mutex_lock`: the task blocks, or has the mutex. -/
def mutexLock (s : State T) (t : T) : State T :=
  if s.value then { s with waiters := t :: s.waiters }.goto t .blocked else { s with value := true }.goto t .setHolder

def mutexUnlock (s : State T) (t : T) : Except Fault (State T) :=
  if s.value = false then .error .value
  else .ok ({ s with value := false, waiters := s.waiters.dropLast }.goto t .idle)

def run (s : State T) (t : T) : Except Fault (State T) :=
  match s.pc t with
  | .idle => .ok s
  | .acquire => .ok (s.goto t (if s.holder ≠ some t then .mutexLock else .again))
  | .again => .ok (({ s with rep := (s.rep + 1) % 2 ^ 32 }.setDepth t (s.depth t + 1)).goto t .idle)
  | .mutexLock | .blocked => .ok (mutexLock s t)
  | .setHolder => .ok ({ s with holder := some t }.goto t .setRepeat)
  | .setRepeat => if s.rep ≠ 0 then .error .first else .ok (({ s with rep := 1 }.setDepth t 1).goto t .idle)
  | .release =>
    if s.holder ≠ some t then .error .holder
    else if 1 < s.rep then .ok (s.goto t .less)
    else if s.rep ≠ 1 then .error .last
    else .ok (s.goto t .clearHolder)
  | .less => .ok (({ s with rep := s.rep - 1 }.setDepth t (s.depth t - 1)).goto t .idle)
  | .clearHolder => .ok (({ s with holder := none }.setDepth t 0).goto t .clearRepeat)
  | .clearRepeat => .ok ({ s with rep := 0 }.goto t .mutexUnlock)
  | .mutexUnlock => mutexUnlock s t

/-! ## The machine -/

inductive Act (T : Type)
  | acquire (t : T)
  | release (t : T)
  | run (t : T)
  | stray (t : T)

def step (s : State T) : Act T → Except Fault (State T)
  | .acquire t => .ok (s.goto t .acquire)
  | .release t => .ok (s.goto t .release)
  | .run t => run s t
  | .stray t => .ok { s with waiters := s.waiters.erase t }

def enabled (s : State T) : Act T → Prop
  | .acquire t => s.pc t = .idle
  | .release t => s.pc t = .idle ∧ 0 < s.depth t
  | .run t => s.pc t ≠ .idle ∧ t ∉ s.waiters
  | .stray t => t ∈ s.waiters

def lock (T : Type) [DecidableEq T] : Machine (State T) (Act T) Fault where
  start s := s.value = false ∧ s.waiters = [] ∧ s.holder = none ∧ s.rep = 0 ∧ (∀ t, s.pc t = .idle) ∧ ∀ t, s.depth t = 0
  enabled := enabled
  step := step

/-! ## The invariant -/

def Pc.out : Pc → Bool
  | .idle | .acquire | .mutexLock | .blocked => true
  | _ => false

/-- Between `mutex_lock` and `mutex_unlock`, and within a lock held. -/
def Owns (s : State T) (t : T) : Prop := 0 < s.depth t ∨ (s.pc t).out = false

/-- What the lock says while the task `t` has the mutex and is at that place. -/
def Pc.Says (s : State T) (t : T) : Pc → Prop
  | .setHolder | .mutexUnlock => s.holder = none ∧ s.rep = 0 ∧ s.depth t = 0
  | .setRepeat => s.holder = some t ∧ s.rep = 0 ∧ s.depth t = 0
  | .clearRepeat => s.holder = none ∧ s.depth t = 0
  | .clearHolder => s.holder = some t ∧ s.rep = 1 ∧ s.depth t = 1
  | .less => s.holder = some t ∧ s.rep = s.depth t ∧ 1 < s.depth t
  | .idle | .acquire | .again | .release => s.holder = some t ∧ s.rep = s.depth t ∧ 0 < s.depth t
  | .mutexLock | .blocked => False

def Phase (s : State T) (t : T) : Prop := (s.pc t).Says s t

def Outside (s : State T) (t : T) : Prop := s.depth t = 0 ∧ (s.pc t).out = true

def Held (s : State T) : Option T → Prop
  | none => s.value = false ∧ s.holder = none ∧ s.rep = 0 ∧ ∀ t, Outside s t
  | some t => s.value = true ∧ Phase s t ∧ ∀ u, u ≠ t → Outside s u

structure Inv (s : State T) : Prop where
  held : ∃ o, Held s o
  blocked : ∀ t ∈ s.waiters, s.pc t = .blocked
  nodup : s.waiters.Nodup
  /-- someone has been woken when the mutex is free and tasks wait -/
  woken : s.value = false → s.waiters ≠ [] → ∃ t, s.pc t = .blocked ∧ t ∉ s.waiters

variable {s s' : State T} {t u : T} {c : Pc} {n : Nat}

@[simp] theorem goto_pc : (s.goto t c).pc t = c := update_self ..

theorem goto_other (h : u ≠ t) : (s.goto t c).pc u = s.pc u := update_of_ne h ..

theorem setDepth_other (h : u ≠ t) : (s.setDepth t n).depth u = s.depth u := update_of_ne h ..

structure Like (s s' : State T) (u : T) : Prop where
  pc : s'.pc u = s.pc u
  depth : s'.depth u = s.depth u

omit [DecidableEq T] in
theorem Outside.like (h : Outside s u) (hl : Like s s' u) : Outside s' u := by
  unfold Outside
  rw [hl.pc, hl.depth]
  exact h

omit [DecidableEq T] in
theorem outside_owns : ¬ (Outside s t ∧ Owns s t) := by
  rintro ⟨⟨h1, h2⟩, h3 | h3⟩
  · omega
  · rw [h2] at h3
    cases h3

theorem Inv.owner (h : Inv s) (ht : Owns s t) : s.value = true ∧ Phase s t ∧ ∀ u, u ≠ t → Outside s u := by
  obtain ⟨o, ho⟩ := h.held
  cases o with
  | none => exact absurd ⟨ho.2.2.2 t, ht⟩ outside_owns
  | some v =>
    by_cases hv : t = v
    · rw [hv]
      exact ho
    · exact absurd ⟨ho.2.2 t hv, ht⟩ outside_owns

theorem Inv.owned (h : Inv s) (ht : Owns s t) (hv : s'.value = true) (hw : s'.waiters = s.waiters) (hp : Phase s' t)
    (ho : ∀ u, u ≠ t → Like s s' u) : Inv s' := by
  obtain ⟨-, hph, hout⟩ := h.owner ht
  have hpc : s.pc t ≠ .blocked := fun e => by
    unfold Phase at hph
    rw [e] at hph
    exact hph
  refine ⟨⟨some t, hv, hp, fun u hu => (hout u hu).like (ho u hu)⟩, fun u hu => ?_, by rw [hw]; exact h.nodup, fun e => ?_⟩
  · rw [hw] at hu
    have hut : u ≠ t := fun e => hpc (e ▸ h.blocked u hu)
    rw [(ho u hut).pc]
    exact h.blocked u hu
  · rw [hv] at e
    cases e

omit [DecidableEq T] in
theorem Phase.owns (h : Phase s t) : Owns s t := by
  unfold Phase at h
  cases hpc : s.pc t <;> rw [hpc] at h
  case idle | acquire | again => exact .inl h.2.2
  case mutexLock | blocked => exact h.elim
  all_goals exact .inr (by rw [hpc]; rfl)

omit [DecidableEq T] in
theorem Phase.not_outside (h : Phase s t) : ¬ Outside s t := fun hn => outside_owns ⟨hn, h.owns⟩

theorem Phase.other (h : Phase s t) (hu : t ≠ u) : Phase (s.goto u c) t := by
  unfold Phase at h ⊢
  rw [goto_other hu]
  cases hpc : s.pc t <;> rw [hpc] at h <;> exact h

theorem Inv.at (h : Inv s) (hpc : s.pc t = c) (hc : Owns s t) : s.value = true ∧ c.Says s t := by
  obtain ⟨hv, hph, -⟩ := h.owner hc
  exact ⟨hv, hpc ▸ hph⟩

theorem Inv.outside (h : Inv s) (hn : Outside s t) (hc : c.out = true) (hb : s.pc t ≠ .blocked) : Inv (s.goto t c) := by
  have hout : ∀ u, Outside s u → Outside (s.goto t c) u := fun u hu => by
    by_cases e : u = t
    · rw [e]
      exact ⟨hn.1, by rw [goto_pc]; exact hc⟩
    · exact hu.like ⟨goto_other e, rfl⟩
  refine ⟨?_, fun u hu => ?_, h.nodup, fun hv hw => ?_⟩
  · obtain ⟨o, ho⟩ := h.held
    cases o with
    | none => exact ⟨none, ho.1, ho.2.1, ho.2.2.1, fun u => hout u (ho.2.2.2 u)⟩
    | some v => exact ⟨some v, ho.1, ho.2.1.other fun e => ho.2.1.not_outside (e ▸ hn), fun u hu => hout u (ho.2.2 u hu)⟩
  · have hut : u ≠ t := fun e => hb (e ▸ h.blocked u hu)
    rw [goto_other hut]
    exact h.blocked u hu
  · obtain ⟨u, h1, h2⟩ := h.woken hv hw
    have hut : u ≠ t := fun e => hb (e ▸ h1)
    exact ⟨u, (goto_other hut).trans h1, h2⟩

/-! ## The steps -/

omit [DecidableEq T] in
theorem Inv.tries (h : Inv s) (hpc : s.pc t = .mutexLock ∨ s.pc t = .blocked) : Outside s t := by
  obtain ⟨o, ho⟩ := h.held
  cases o with
  | none => exact ho.2.2.2 t
  | some v =>
    refine ho.2.2 t fun e => ?_
    have h1 := ho.2.1
    unfold Phase at h1
    rw [← e] at h1
    rcases hpc with hpc | hpc <;> rw [hpc] at h1 <;> exact h1

theorem Inv.mutexLock (h : Inv s) (hpc : s.pc t = .mutexLock ∨ s.pc t = .blocked) (hw : t ∉ s.waiters) : Inv (mutexLock s t) := by
  have hn := h.tries hpc
  have hblocked : ∀ u ∈ s.waiters, ∀ c, update s.pc t c u = .blocked := fun u hu c => by
    have hut : u ≠ t := fun e => hw (e ▸ hu)
    rw [update_of_ne hut]
    exact h.blocked u hu
  obtain ⟨o, ho⟩ := h.held
  unfold Lock.mutexLock
  cases o with
  | some v =>
    obtain ⟨hv, hph, hout⟩ := ho
    rw [if_pos hv]
    refine ⟨⟨some v, hv, hph.other fun e => hph.not_outside (e ▸ hn), fun u hu => ?_⟩, fun u hu => ?_,
      nodup_cons.2 ⟨hw, h.nodup⟩, fun e => ?_⟩
    · by_cases hut : u = t
      · rw [hut]
        exact ⟨hn.1, by rw [goto_pc]; rfl⟩
      · exact (hout u hu).like ⟨goto_other hut, rfl⟩
    · rcases mem_cons.1 hu with rfl | hu
      · exact goto_pc
      · exact hblocked u hu _
    · cases hv.symm.trans e
  | none =>
    obtain ⟨hv, hhold, hrep, hout⟩ := ho
    rw [if_neg (by rw [hv]; exact Bool.false_ne_true)]
    refine ⟨⟨some t, rfl, ?_, fun u hu => (hout u).like ⟨goto_other hu, rfl⟩⟩, fun u hu => hblocked u hu _, h.nodup, nofun⟩
    unfold Phase
    rw [goto_pc]
    exact ⟨hhold, hrep, hn.1⟩

theorem Inv.mutexUnlock (h : Inv s) (hpc : s.pc t = .mutexUnlock) : ∃ s', mutexUnlock s t = .ok s' ∧ Inv s' := by
  have hown : Owns s t := .inr (by rw [hpc]; rfl)
  obtain ⟨hv, -, hout⟩ := h.owner hown
  obtain ⟨-, hhold, hrep, hdepth⟩ := h.at hpc hown
  have hut : ∀ u ∈ s.waiters, u ≠ t := fun u hu e => by
    have h1 := h.blocked u hu
    rw [e, hpc] at h1
    cases h1
  unfold Lock.mutexUnlock
  rw [if_neg (by rw [hv]; exact nofun)]
  refine ⟨_, rfl, ⟨none, rfl, hhold, hrep, fun u => ?_⟩, fun u hu => ?_, h.nodup.sublist (dropLast_sublist _), fun _ hw => ?_⟩
  · by_cases hu : u = t
    · rw [hu]
      exact ⟨hdepth, by rw [goto_pc]; rfl⟩
    · exact (hout u hu).like ⟨goto_other hu, rfl⟩
  · have hu := dropLast_subset _ hu
    rw [goto_other (hut u hu)]
    exact h.blocked u hu
  · -- the last of the list is woken
    have hne : s.waiters ≠ [] := fun e => hw (by
      rw [e]
      rfl)
    have hlast := getLast_mem hne
    refine ⟨s.waiters.getLast hne, (goto_other (hut _ hlast)).trans (h.blocked _ hlast), fun hm => ?_⟩
    have hnd := h.nodup
    rw [← dropLast_append_getLast hne, nodup_append] at hnd
    exact hnd.2.2 _ hm _ (mem_singleton_self _) rfl

def Shallow (s : State T) : Act T → Prop
  | .run t => s.pc t = .again → s.depth t + 1 < 2 ^ 32
  | _ => True

theorem Inv.go (h : Inv s) (ht : Owns s t) (hw : s'.waiters = s.waiters) (hv : s'.value = s.value) (hs : c.Says s' t)
    (hpc : s'.pc = update s.pc t c) (hd : ∀ u, u ≠ t → s'.depth u = s.depth u) : Inv s' := by
  have hc : s'.pc t = c := by rw [hpc, update_self]
  refine h.owned ht (hv.trans (h.owner ht).1) hw ?_ fun u hu => ⟨?_, hd u hu⟩
  · unfold Phase
    rw [hc]
    exact hs
  · rw [hpc, update_of_ne hu]

theorem Inv.acquire (h : Inv s) (hpc : s.pc t = .acquire) : Inv (s.goto t (if s.holder ≠ some t then .mutexLock else .again)) := by
  by_cases ht : Owns s t
  · obtain ⟨-, h1, h2, h3⟩ := h.at hpc ht
    rw [if_neg (not_not.2 h1)]
    exact h.go (c := .again) ht rfl rfl ⟨h1, h2, h3⟩ rfl fun _ _ => rfl
  · have hn : Outside s t := ⟨by by_contra h0; exact ht (.inl (by omega)), by rw [hpc]; rfl⟩
    have hhold : s.holder ≠ some t := fun e => by
      obtain ⟨o, ho⟩ := h.held
      cases o with
      | none => rw [ho.2.1] at e; cases e
      | some v =>
        have hvt : v ≠ t := fun e => ho.2.1.not_outside (e ▸ hn)
        have h1 := ho.2.1
        unfold Phase at h1
        cases hpv : s.pc v <;> simp [hpv, Pc.Says, e, hvt.symm] at h1
    rw [if_pos hhold]
    exact h.outside hn rfl (by rw [hpc]; exact nofun)

theorem Inv.run (h : Inv s) (hidle : s.pc t ≠ .idle) (hw : t ∉ s.waiters) (hsh : s.pc t = .again → s.depth t + 1 < 2 ^ 32) :
    ∃ s', run s t = .ok s' ∧ Inv s' := by
  have hown : (s.pc t).out = false → Owns s t := .inr
  unfold Lock.run
  cases hpc : s.pc t with
  | idle => exact absurd hpc hidle
  | acquire => exact ⟨_, rfl, h.acquire hpc⟩
  | mutexLock => exact ⟨_, rfl, h.mutexLock (.inl hpc) hw⟩
  | blocked => exact ⟨_, rfl, h.mutexLock (.inr hpc) hw⟩
  | mutexUnlock => exact h.mutexUnlock hpc
  | again =>
    have ht := hown (by rw [hpc]; rfl)
    obtain ⟨-, h1, h2, h3⟩ := h.at hpc ht
    refine ⟨_, rfl, h.go (c := .idle) ht rfl rfl ⟨h1, ?_, ?_⟩ rfl fun u hu => setDepth_other hu⟩
    · show (s.rep + 1) % 2 ^ 32 = update s.depth t (s.depth t + 1) t
      rw [update_self, h2, Nat.mod_eq_of_lt (hsh hpc)]
    · show 0 < update s.depth t (s.depth t + 1) t
      rw [update_self]
      exact Nat.succ_pos _
  | setHolder =>
    have ht := hown (by rw [hpc]; rfl)
    obtain ⟨-, -, h2, h3⟩ := h.at hpc ht
    exact ⟨_, rfl, h.go (c := .setRepeat) ht rfl rfl ⟨rfl, h2, h3⟩ rfl fun _ _ => rfl⟩
  | setRepeat =>
    have ht := hown (by rw [hpc]; rfl)
    obtain ⟨-, h1, h2, -⟩ := h.at hpc ht
    rw [if_neg (not_not.2 h2)]
    refine ⟨_, rfl, h.go (c := .idle) ht rfl rfl ⟨h1, ?_, ?_⟩ rfl fun u hu => setDepth_other hu⟩
    · exact (update_self t 1 s.depth).symm
    · show 0 < update s.depth t 1 t
      rw [update_self]
      exact Nat.one_pos
  | release =>
    have ht := hown (by rw [hpc]; rfl)
    obtain ⟨-, h1, h2, h3⟩ := h.at hpc ht
    dsimp only
    rw [if_neg (not_not.2 h1)]
    by_cases hlt : 1 < s.rep
    · rw [if_pos hlt]
      exact ⟨_, rfl, h.go (c := .less) ht rfl rfl ⟨h1, h2, h2 ▸ hlt⟩ rfl fun _ _ => rfl⟩
    · have h4 : s.rep = 1 := by omega
      rw [if_neg hlt, if_neg (not_not.2 h4)]
      exact ⟨_, rfl, h.go (c := .clearHolder) ht rfl rfl ⟨h1, h4, h2.symm.trans h4⟩ rfl fun _ _ => rfl⟩
  | less =>
    have ht := hown (by rw [hpc]; rfl)
    obtain ⟨-, h1, h2, h3⟩ := h.at hpc ht
    refine ⟨_, rfl, h.go (c := .idle) ht rfl rfl ⟨h1, ?_, ?_⟩ rfl fun u hu => setDepth_other hu⟩
    · show s.rep - 1 = update s.depth t (s.depth t - 1) t
      rw [update_self, h2]
    · show 0 < update s.depth t (s.depth t - 1) t
      rw [update_self]
      omega
  | clearHolder =>
    have ht := hown (by rw [hpc]; rfl)
    exact ⟨_, rfl, h.go (c := .clearRepeat) ht rfl rfl ⟨rfl, update_self ..⟩ rfl fun u hu => setDepth_other hu⟩
  | clearRepeat =>
    have ht := hown (by rw [hpc]; rfl)
    obtain ⟨-, h1, h3⟩ := h.at hpc ht
    exact ⟨_, rfl, h.go (c := .mutexUnlock) ht rfl rfl ⟨h1, rfl, h3⟩ rfl fun _ _ => rfl⟩

theorem Inv.stray (h : Inv s) (hw : t ∈ s.waiters) : Inv { s with waiters := s.waiters.erase t } := by
  have hsub : ∀ u ∈ s.waiters.erase t, u ∈ s.waiters := fun u hu => mem_of_mem_erase hu
  refine ⟨?_, fun u hu => h.blocked u (hsub u hu), h.nodup.erase t, fun _ _ => ⟨t, h.blocked t hw, h.nodup.not_mem_erase⟩⟩
  obtain ⟨o, ho⟩ := h.held
  cases o with
  | none => exact ⟨none, ho.1, ho.2.1, ho.2.2.1, fun u => (ho.2.2.2 u).like ⟨rfl, rfl⟩⟩
  | some v =>
    refine ⟨some v, ho.1, ?_, fun u hu => (ho.2.2 u hu).like ⟨rfl, rfl⟩⟩
    have h1 := ho.2.1
    unfold Phase at h1 ⊢
    cases hpv : s.pc v <;> rw [hpv] at h1 <;> exact h1

theorem Inv.step {a : Act T} (h : Inv s) (he : (lock T).enabled s a) (hsh : Shallow s a) :
    ∃ s', (lock T).step s a = .ok s' ∧ Inv s' := by
  cases a with
  | acquire t =>
    refine ⟨_, rfl, ?_⟩
    by_cases ht : Owns s t
    · exact h.go (c := .acquire) ht rfl rfl (h.at he ht).2 rfl fun _ _ => rfl
    · have hn : Outside s t := ⟨by by_contra h0; exact ht (.inl (by omega)), by rw [he]; rfl⟩
      exact h.outside hn rfl (by rw [he]; exact nofun)
  | release t =>
    obtain ⟨hpc, hd⟩ := he
    have ht : Owns s t := .inl hd
    exact ⟨_, rfl, h.go (c := .release) ht rfl rfl (h.at hpc ht).2 rfl fun _ _ => rfl⟩
  | run t => exact h.run he.1 he.2 hsh
  | stray t => exact ⟨_, rfl, h.stray he⟩

theorem start_inv (hs : (lock T).start s) : Inv s := by
  obtain ⟨hv, hw, hh, hr, hpc, hd⟩ := hs
  refine ⟨⟨none, hv, hh, hr, fun t => ⟨hd t, by rw [hpc]; rfl⟩⟩, fun t ht => ?_, ?_, fun _ hne => absurd hw hne⟩
  · rw [hw] at ht
    cases ht
  · rw [hw]
    exact .nil

theorem reach_inv (h : (lock T).Reach Shallow s) : Inv s :=
  h.inv (I := Inv) (fun _ => start_inv) fun _ _ _ hi hsh hst => by
    obtain ⟨u, hu, hi'⟩ := hi.step hst.1 hsh
    cases hu.symm.trans hst.2
    exact hi'

/-! ## What the lock guarantees -/

/-- In every run in which no task nests the lock 2^32 deep: one task at a time has the lock; it is the
holder, with the count of its acquires; the mutex is taken as long, and is given back when the outermost release has
returned; no assertion fails; and a task that was woken will look at a free mutex others wait for. -/
theorem lock_safe (h : (lock T).Reach Shallow s) :
    (∀ t u, 0 < s.depth t → 0 < s.depth u → t = u) ∧
    (∀ t, 0 < s.depth t → s.value = true ∧ s.holder = some t ∧ s.rep = s.depth t) ∧
    (s.value = true → ∃ t, Owns s t) ∧
    (∀ a e, (lock T).enabled s a → Shallow s a → (lock T).step s a ≠ .error e) ∧
    (s.value = false → s.waiters ≠ [] → ∃ t, s.pc t = .blocked ∧ t ∉ s.waiters) := by
  have hi := reach_inv h
  refine ⟨fun t u ht hu => ?_, fun t ht => ?_, fun hv => ?_, fun a e he hsh hst => ?_, hi.woken⟩
  · by_contra hne
    exact outside_owns ⟨(hi.owner (.inl ht)).2.2 u fun e => hne e.symm, .inl hu⟩
  · obtain ⟨hv, hph, -⟩ := hi.owner (.inl ht)
    refine ⟨hv, ?_⟩
    unfold Phase at hph
    cases hpc : s.pc t <;> rw [hpc] at hph
    case idle | acquire | again | release => exact ⟨hph.1, hph.2.1⟩
    case less => exact ⟨hph.1, hph.2.1⟩
    case clearHolder => exact ⟨hph.1, hph.2.1.trans hph.2.2.symm⟩
    case mutexLock | blocked => exact hph.elim
    case clearRepeat =>
      have h1 := hph.2
      omega
    all_goals
      have h1 := hph.2.2
      omega
  · obtain ⟨o, ho⟩ := hi.held
    cases o with
    | none => cases hv.symm.trans ho.1
    | some v => exact ⟨v, ho.2.1.owns⟩
  · obtain ⟨s', hs', -⟩ := hi.step he hsh
    cases hs'.symm.trans hst

/-! ## Deep nesting -/

def init : State Nat := ⟨false, [], none, 0, fun _ => .idle, fun _ => 0⟩

theorem init_start : (lock Nat).start init := ⟨rfl, rfl, rfl, rfl, fun _ => rfl, fun _ => rfl⟩

/-- The first task has acquired the lock `n` times. -/
structure Nested (n : Nat) (s : State Nat) : Prop where
  idle : s.pc 0 = .idle
  waiters : s.waiters = []
  holder : s.holder = some 0
  depth : s.depth 0 = n
  rep : s.rep = n % 2 ^ 32

theorem Reach.acquire {P : State T → Act T → Prop} (h : (lock T).Reach P s) (hP : P s (.acquire t)) (hpc : s.pc t = .idle) :
    (lock T).Reach P (s.goto t .acquire) := Machine.Reach.tail h hP ⟨hpc, rfl⟩

theorem Reach.run {P : State T → Act T → Prop} (h : (lock T).Reach P s) (hP : P s (.run t)) (hpc : s.pc t ≠ .idle)
    (hw : t ∉ s.waiters) (hr : Lock.run s t = .ok s') : (lock T).Reach P s' := Machine.Reach.tail h hP ⟨⟨hpc, hw⟩, hr⟩

theorem first : ∃ s, (lock Nat).Reach Shallow s ∧ Nested 1 s := by
  have h0 : (lock Nat).Reach Shallow init := ⟨init, init_start, .refl _⟩
  have h1 := Reach.acquire (t := 0) h0 trivial rfl
  have h2 := Reach.run (t := 0) h1 nofun nofun nofun rfl
  have h3 := Reach.run (t := 0) h2 nofun nofun nofun rfl
  have h4 := Reach.run (t := 0) h3 nofun nofun nofun rfl
  have h5 := Reach.run (t := 0) h4 nofun nofun nofun rfl
  exact ⟨_, h5, rfl, rfl, rfl, rfl, rfl⟩

theorem nested : ∀ n, ∃ s, (lock Nat).Reach Machine.Any s ∧ Nested (n + 1) s
  | 0 => by
    obtain ⟨s, h, hn⟩ := first
    exact ⟨s, h.mono fun _ _ _ => trivial, hn⟩
  | n + 1 => by
    obtain ⟨s, h, hn⟩ := nested n
    have hmem : 0 ∉ s.waiters := by
      rw [hn.waiters]
      exact not_mem_nil
    have h1 := Reach.acquire (t := 0) h trivial hn.idle
    have hs1 : run (s.goto 0 .acquire) 0 = .ok ((s.goto 0 .acquire).goto 0 .again) := by
      unfold run
      rw [goto_pc]
      rw [if_neg (not_not.2 (show (s.goto 0 .acquire).holder = some 0 from hn.holder))]
    have h2 := Reach.run h1 trivial (by rw [goto_pc]; exact nofun) hmem hs1
    have hs2 : run ((s.goto 0 .acquire).goto 0 .again) 0 = .ok (({ (s.goto 0 .acquire).goto 0 .again with
        rep := (s.rep + 1) % 2 ^ 32 }.setDepth 0 (s.depth 0 + 1)).goto 0 .idle) := by
      rfl
    have h3 := Reach.run h2 trivial (by rw [goto_pc]; exact nofun) hmem hs2
    refine ⟨_, h3, goto_pc, hn.waiters, hn.holder, ?_, ?_⟩
    · show update s.depth 0 (s.depth 0 + 1) 0 = n + 2
      rw [update_self, hn.depth]
    · show (s.rep + 1) % 2 ^ 32 = (n + 2) % 2 ^ 32
      rw [hn.rep]
      omega

/-- After 2^32 acquires the count says that the lock is not held. -/
theorem repeat_wraps : ∃ s, (lock Nat).Reach Machine.Any s ∧ 0 < s.depth 0 ∧ s.rep ≠ s.depth 0 := by
  obtain ⟨s, h, hn⟩ := nested (2 ^ 32 - 1)
  refine ⟨s, h, ?_, ?_⟩
  · rw [hn.depth]
    omega
  · rw [hn.depth, hn.rep]
    omega

theorem lock_safe_held : ∃ s : State Nat, 0 < s.depth 0 ∧ s.value = true ∧ s.holder = some 0 ∧ s.rep = s.depth 0 := by
  obtain ⟨s, h, hn⟩ := first
  have hd : 0 < s.depth 0 := by
    rw [hn.depth]
    exact Nat.one_pos
  exact ⟨s, hd, (lock_safe h).2.1 0 hd⟩

end Onix.Lock
