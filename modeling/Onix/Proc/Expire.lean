/-
Which timers fire at a tick, and in which order. The list is in the order of the ticks they expire at and, among equals, in that of their
insertion, as long as no tick is reached or asked for that an `int` does not hold; a handler may take timers out of the list before their
turn comes.
-/
import Onix.Proc.Timers

namespace Onix.Proc

open List Function Onix.Lib

variable {s t u : State} {p q a b : Nat} {A : Prop}
variable {ms : Word} {x : State × Stamps}

/-! ## The machine -/

def timerUpdate (s : State) (a : Nat) (ms : Word) : State :=
  let s := { s with timers := s.timers.filter (· ≠ a) }
  let s := s.setTimer a { s.timer a with expires := s.jiffies + ms / jiffy }
  { s with timers := listInsertSort (fun a => (s.timer a).expires) a s.timers }

inductive Tick
  | call (a : Act)
  | update (a : Nat) (ms : Word)

def clocks : Machine State Tick Fault where
  start := Start
  enabled s
    | .call a => enabled s a
    | .update a _ => a ∈ s.timers
  step s
    | .call a => step s a
    | .update a ms => .ok (timerUpdate s a ms)

/-- When a timer was inserted, by the count of all insertions. -/
structure Stamps where
  stamp : Nat → Nat
  count : Nat

def Stamps.insert (g : Stamps) (a : Nat) : Stamps := ⟨Function.update g.stamp a g.count, g.count + 1⟩

def Stamps.after (g : Stamps) (s : State) (x : Tick) (t : State) : Stamps :=
  match x with
  | .call _ => if s.nextTimer < t.nextTimer then g.insert s.nextTimer else g
  | .update a _ => g.insert a

def stamped : Machine (State × Stamps) Tick Fault := clocks.record (fun _ _ => True) Stamps.after

def delay : Act → Option Word
  | .alarm sec => some (sec * 1000)
  | .block _ ms => if 0 < ms then some (BitVec.ofInt 32 ms) else none
  | _ => none

def State.Soon (s : State) (ms : Word) : Prop := s.jiffies.toNat + (ms / jiffy).toNat < 2 ^ 31

/-- No tick that is asked for or reached is too large for an `int`. -/
def Near (s : State) : Tick → Prop
  | .call .clock => s.jiffies.toNat + 1 < 2 ^ 31
  | .call (.alarm sec) => s.Soon (sec * 1000)
  | .call (.block _ ms) => 0 < ms → s.Soon (BitVec.ofInt 32 ms)
  | .call _ => True
  | .update _ ms => s.Soon ms

/-! ## What handlers and calls do to the list -/

/-- Timers are taken out of the list, and the others stay in their order. -/
structure Thins (s t : State) : Prop where
  timers : t.timers.Sublist s.timers
  expires : ∀ a, (t.timer a).expires = (s.timer a).expires
  jiffies : t.jiffies = s.jiffies
  nextTimer : t.nextTimer = s.nextTimer

theorem Thins.refl (s : State) : Thins s s := ⟨.refl _, fun _ => rfl, rfl, rfl⟩

theorem Thins.trans (h1 : Thins s t) (h2 : Thins t u) : Thins s u :=
  ⟨h2.timers.trans h1.timers, fun a => (h2.expires a).trans (h1.expires a), h2.jiffies.trans h1.jiffies, h2.nextTimer.trans h1.nextTimer⟩

theorem Thins.same (h1 : t.timers = s.timers) (h2 : t.timer = s.timer) (h3 : t.jiffies = s.jiffies) (h4 : t.nextTimer = s.nextTimer) :
    Thins s t := ⟨h1 ▸ .refl _, fun _ => by rw [h2], h3, h4⟩

theorem Thins.setTask (s : State) (p : Nat) (x : Task) : Thins s (s.setTask p x) := .same rfl rfl rfl rfl

theorem Thins.put (h : timerPut s a = .ok t) : Thins s t := by
  obtain ⟨-, rfl⟩ := timerPut_ok h
  exact ⟨filter_sublist, fun _ => rfl, rfl, rfl⟩

theorem Thins.unblock {e : Int} (h : taskUnblock s p e = .ok t) : Thins s t := by
  obtain ⟨-, u, hu, rfl⟩ := taskUnblock_ok h
  refine Thins.trans (t := u) ?_ (.setTask ..)
  unfold unblockTimer at hu
  split at hu
  · cases hu
    exact .refl s
  split at hu
  · cases hu
    exact .refl s
  · exact .put hu

theorem Thins.kill {pid : Nat} {sig : Int} (h : sysKill s pid sig = .ok t) : Thins s t := by
  rcases sysKill_ok h with rfl | ⟨p, -, rfl | ⟨-, h⟩⟩
  · exact .refl _
  · exact .setTask ..
  · exact (Thins.setTask ..).trans (.unblock h)

theorem Thins.timeout {x : Timer} (h : timeout s x = .ok t) : Thins s t := by
  unfold Proc.timeout at h
  split at h
  · exact (Thins.setTask s x.task { s.task x.task with alarm := none }).trans (.kill h)
  · exact .unblock h

theorem Thins.activate (s : State) (a : Nat) : Thins s (s.setTimer a { s.timer a with active := true }) := by
  refine ⟨.refl _, fun b => ?_, rfl, rfl⟩
  show (update s.timer a _ b).expires = _
  by_cases hb : b = a
  · rw [hb, update_self]
  · rw [update_of_ne hb]

theorem Thins.removeLoop : ∀ (l : List Nat) (s t : State),
    l.foldlM (fun s a => if (s.timer a).task = p then timerPut s a else .ok s) s = .ok t → Thins s t
  | [], s, t, h => by
    cases h
    exact .refl s
  | a :: l, s, t, h => by
    rw [foldlM_cons] at h
    obtain ⟨u, hu, h⟩ := bind_ok h
    have h1 : Thins s u := by
      split at hu
      · exact .put hu
      · cases hu
        exact .refl s
    exact h1.trans (Thins.removeLoop l u t h)

theorem Thins.schedule (s : State) : Thins s (schedule s) := by
  have h := (schedule_switched s).eq
  refine .same ?_ ?_ ?_ ?_
  all_goals rw [h]

theorem Thins.tellFather (h : taskTellFather s = .ok t) : Thins s t := by
  unfold taskTellFather at h
  dsimp only at h
  split at h
  · cases h
    exact .refl s
  · split at h
    · cases h
    · cases h
      exact .setTask ..

theorem Thins.reparent (s : State) : Thins s (reparent s) := by
  have h := (reparent_reparented s).eq
  refine .same ?_ ?_ ?_ ?_
  all_goals rw [h]

theorem Thins.wakeParent (h : wakeParent s = .ok t) : Thins s t := by
  unfold Proc.wakeParent at h
  dsimp only at h
  split at h
  · cases h
  split at h
  · exact .unblock h
  · cases h
    exact .refl s

theorem Thins.exit {status : Int} (h : taskExit s status = .ok t) : Thins s t := by
  unfold taskExit at h
  dsimp only at h
  split at h
  · cases h
  obtain ⟨u, hu, h⟩ := bind_ok h
  obtain ⟨v, hv, h⟩ := bind_ok h
  obtain ⟨w, hw, h⟩ := bind_ok h
  rw [← Except.ok.inj h]
  exact ((Thins.setTask ..).trans (.tellFather hu)).trans
    ((Thins.removeLoop _ u v hv).trans ((Thins.reparent v).trans ((Thins.wakeParent hw).trans (.schedule w))))

theorem Thins.blockTimer {ms : Int} (h : blockTimer s ms = .ok t) :
    if 0 < ms then ∃ x, t = (timerAdd s (BitVec.ofInt 32 ms) false).setTask s.running x else t = s := by
  unfold Proc.blockTimer at h
  split at h
  · rename_i hms
    rw [if_pos hms]
    split at h
    · cases h
    · exact ⟨_, (Except.ok.inj h).symm⟩
  · rename_i hms
    rw [if_neg hms]
    exact (Except.ok.inj h).symm

theorem step_thins {x : Act} (hx : x ≠ .clock) (h : step s x = .ok t) :
    match delay x with
    | none => Thins s t
    | some ms => ∃ u k, Thins s u ∧ Thins (timerAdd u ms k) t := by
  cases x with
  | clock => exact absurd rfl hx
  | fork p =>
    obtain ⟨-, -, i, -, -, rfl⟩ := taskFork_ok h
    exact .same rfl rfl rfl rfl
  | exit status => exact .exit h
  | waitpid pid =>
    rcases taskWaitpid_ok h with ⟨i, c, -, rfl⟩ | ⟨-, -, rfl⟩ | ⟨-, -, h⟩
    · exact .same rfl rfl rfl rfl
    · exact .same rfl rfl rfl rfl
    · obtain ⟨u, hu, rfl⟩ := taskBlock_ok h
      have hu := Thins.blockTimer hu
      rw [hu]
      exact ((Thins.setTask ..).trans (.setTask ..)).trans (.schedule _)
  | kill pid sig => exact .kill h
  | alarm sec =>
    obtain ⟨u, hu, rfl⟩ := sysAlarm_ok h
    refine ⟨u, true, ?_, .setTask ..⟩
    rcases putAlarm_ok hu with ⟨rfl, -⟩ | ⟨a, -, ha⟩
    · exact .refl _
    · exact .put ha
  | block st ms =>
    obtain ⟨u, hu, rfl⟩ := taskBlock_ok h
    have hu := Thins.blockTimer hu
    by_cases hms : 0 < ms
    · rw [if_pos hms] at hu
      obtain ⟨y, rfl⟩ := hu
      have hd : delay (.block st ms) = some (BitVec.ofInt 32 ms) := if_pos hms
      rw [hd]
      exact ⟨s, false, .refl s, ((Thins.setTask ..).trans (.setTask ..)).trans (.schedule _)⟩
    · rw [if_neg hms] at hu
      have hd : delay (.block st ms) = none := if_neg hms
      rw [hd, hu]
      exact (Thins.setTask ..).trans (.schedule _)
  | unblock p reason => exact .unblock h
  | yield =>
    cases h
    exact .schedule s

/-! ## The order of the list -/

/-- One timer comes before another: it expires earlier, or at the same tick and was inserted earlier. -/
def Stamps.Before (g : Stamps) (s : State) (a b : Nat) : Prop :=
  (s.timer a).expires.toNat < (s.timer b).expires.toNat ∨ (s.timer a).expires = (s.timer b).expires ∧ g.stamp a < g.stamp b

structure Ranked (s : State) (g : Stamps) : Prop where
  small : ∀ a ∈ s.timers, (s.timer a).expires.toNat < 2 ^ 31
  order : s.timers.Pairwise (g.Before s)
  stamp : ∀ a ∈ s.timers, g.stamp a < g.count

variable {g : Stamps}

theorem Thins.before (h : Thins s t) (a b : Nat) : g.Before t a b ↔ g.Before s a b := by
  unfold Stamps.Before
  rw [h.expires, h.expires]

theorem Ranked.thins (h : Ranked s g) (ht : Thins s t) : Ranked t g := by
  refine ⟨fun a ha => ?_, ?_, fun a ha => h.stamp a (ht.timers.subset ha)⟩
  · rw [ht.expires]
    exact h.small a (ht.timers.subset ha)
  · exact (h.order.sublist ht.timers).imp fun hab => (ht.before _ _).2 hab

theorem toInt_small {x : Word} (h : x.toNat < 2 ^ 31) : x.toInt = x.toNat := by
  rw [BitVec.toInt_eq_toNat_cond, if_pos (by omega)]

theorem Ranked.inserted {x : Timer} (h : Ranked s g) (ha : a ∉ s.timers) (hx : x.expires.toNat < 2 ^ 31)
    (htimer : t.timer = update s.timer a x) (htimers : t.timers = listInsertSort (fun a => (t.timer a).expires) a s.timers) :
    Ranked t (g.insert a) := by
  have hself : t.timer a = x := by
    rw [htimer, update_self]
  have hne : ∀ b ∈ s.timers, b ≠ a := by
    rintro b hb rfl
    exact ha hb
  have hold : ∀ b ∈ s.timers, t.timer b = s.timer b ∧ (g.insert a).stamp b = g.stamp b := fun b hb =>
    ⟨by rw [htimer, update_of_ne (hne b hb)], update_of_ne (hne b hb) ..⟩
  have hnew : (g.insert a).stamp a = g.count := update_self ..
  have hbefore : ∀ b c, b ∈ s.timers → c ∈ s.timers → g.Before s b c → (g.insert a).Before t b c := by
    intro b c hb hc hbc
    unfold Stamps.Before
    rw [(hold b hb).1, (hold c hc).1, (hold b hb).2, (hold c hc).2]
    exact hbc
  have hsmall : ∀ b ∈ s.timers, (t.timer b).expires.toInt = (s.timer b).expires.toNat := by
    intro b hb
    rw [(hold b hb).1]
    exact toInt_small (h.small b hb)
  have hsmalla : (t.timer a).expires.toInt = x.expires.toNat := by
    rw [hself]
    exact toInt_small hx
  have hsorted : IntSorted (fun a => (t.timer a).expires) s.timers := by
    refine h.order.imp_of_mem fun {b c} hb hc hbc => ?_
    rw [hsmall b hb, hsmall c hc]
    rcases hbc with hlt | ⟨heq, -⟩
    · omega
    · exact Int.le_of_eq (congrArg (fun x : Word => (x.toNat : Int)) heq)
  have hpair : s.timers.Pairwise ((g.insert a).Before t) := h.order.imp_of_mem fun {b c} hb hc hbc => hbefore b c hb hc hbc
  refine ⟨fun b hb => ?_, ?_, fun b hb => ?_⟩
  · rw [htimers] at hb
    rcases mem_listInsertSort.1 hb with rfl | hb
    · rw [hself]
      exact hx
    · rw [(hold b hb).1]
      exact h.small b hb
  · rw [htimers, listInsertSort_pairwise hsorted hpair]
    intro b hb
    unfold Stamps.Before
    rw [hsmall b hb, hsmalla, hself, (hold b hb).1, (hold b hb).2, hnew]
    have hstamp := h.stamp b hb
    refine ⟨fun hle => ?_, fun hlt => .inl (by omega)⟩
    rcases Nat.lt_or_eq_of_le (Int.ofNat_le.1 hle) with hlt | heq
    · exact .inl hlt
    · exact .inr ⟨BitVec.eq_of_toNat_eq heq, hstamp⟩
  · rw [htimers] at hb
    rcases mem_listInsertSort.1 hb with rfl | hb
    · rw [hnew]
      exact Nat.lt_succ_self _
    · rw [(hold b hb).2]
      exact Nat.lt_succ_of_lt (h.stamp b hb)

/-! ## What fires -/

/-- The loop of `timer_wakeup` with what happens: each timer that fires, and what its handler took out of the list. -/
def timerRounds : Nat → State → Except Fault (List (Nat × List Nat) × State)
  | 0, _ => .error .hang
  | fuel + 1, s =>
    if timerExpires s ≤ s.jiffies then
      match s.timers with
      | [] => .error .empty
      | a :: _ => do
        let u ← timeout (s.setTimer a { s.timer a with active := true }) (s.timer a)
        let t ← timerPut u a
        let (rounds, t) ← timerRounds fuel t
        .ok ((a, s.timers.filter (· ∉ u.timers)) :: rounds, t)
    else .ok ([], s)

theorem timerRounds_loop : ∀ (n : Nat) (s : State), timerLoop n s = (timerRounds n s).map Prod.snd
  | 0, _ => rfl
  | n + 1, s => by
    unfold timerLoop timerRounds
    by_cases he : timerExpires s ≤ s.jiffies
    swap
    · rw [if_neg he, if_neg he]
      rfl
    rw [if_pos he, if_pos he]
    cases hl : s.timers with
    | nil => rfl
    | cons a l =>
      dsimp only
      cases timeout (s.setTimer a { s.timer a with active := true }) (s.timer a) with
      | error e => rfl
      | ok u =>
        dsimp only [bind, Except.bind]
        cases timerPut u a with
        | error e => rfl
        | ok t =>
          dsimp only
          rw [timerRounds_loop n t]
          cases timerRounds n t <;> rfl

def fired (rounds : List (Nat × List Nat)) : List Nat := rounds.map Prod.fst

def removed (rounds : List (Nat × List Nat)) : List Nat := rounds.flatMap Prod.snd

/-- What is to fire: the timers that have expired, but for those that a handler removed before their turn, each once and in order. -/
structure Fires (g : Stamps) (s : State) (rounds : List (Nat × List Nat)) (t : State) : Prop where
  fired : ∀ a, a ∈ fired rounds ↔ a ∈ s.timers ∧ (s.timer a).expires ≤ s.jiffies ∧ a ∉ removed rounds
  once : (Proc.fired rounds).Nodup
  order : (Proc.fired rounds).Pairwise (g.Before s)
  removed : ∀ r ∈ rounds, ∀ a ∈ r.2, a ∈ s.timers ∧ g.Before s r.1 a
  left : ∀ a, a ∈ t.timers ↔ a ∈ s.timers ∧ a ∉ Proc.fired rounds ∧ a ∉ Proc.removed rounds

theorem fires_none (hr : Ranked s g) (he : ¬ timerExpires s ≤ s.jiffies) : Fires g s [] s := by
  refine ⟨fun a => ⟨fun ha => (nomatch ha), ?_⟩, nodup_nil, .nil, fun r hr => (nomatch hr), fun a => ?_⟩
  · rintro ⟨ha, hle, -⟩
    unfold timerExpires at he
    cases hl : s.timers with
    | nil =>
      rw [hl] at ha
      cases ha
    | cons b l =>
      rw [hl] at he
      have hba : (s.timer b).expires ≤ (s.timer a).expires := by
        have horder := hr.order
        rw [hl] at ha horder
        rcases mem_cons.1 ha with rfl | ha
        · exact BitVec.le_refl _
        · rcases (pairwise_cons.1 horder).1 a ha with hlt | ⟨heq, -⟩
          · exact Nat.le_of_lt hlt
          · rw [heq]
            exact BitVec.le_refl _
      exact absurd (BitVec.le_trans hba hle) he
  · exact ⟨fun ha => ⟨ha, (fun h => nomatch h), (fun h => nomatch h)⟩, fun h => h.1⟩

theorem Fires.cons {l : List Nat} {rounds : List (Nat × List Nat)} {v : State} (hr : Ranked s g) (hl : s.timers = a :: l)
    (he : (s.timer a).expires ≤ s.jiffies) (hu : Thins s u) (ha : a ∈ u.timers) (hput : timerPut u a = .ok v) (h : Fires g v rounds t) :
    Fires g s ((a, s.timers.filter (· ∉ u.timers)) :: rounds) t := by
  have hv := hu.trans (.put hput)
  obtain ⟨-, rfl⟩ := timerPut_ok hput
  have hmem : ∀ b, b ∈ u.timers.filter (· ≠ a) ↔ b ∈ u.timers ∧ b ≠ a := fun b => by
    rw [mem_filter, decide_eq_true_iff]
  have hmem' : ∀ b, b ∈ s.timers.filter (· ∉ u.timers) ↔ b ∈ s.timers ∧ b ∉ u.timers := fun b => by
    rw [mem_filter, decide_eq_true_iff]
  have hsub : ∀ b, b ∈ u.timers → b ∈ s.timers := fun b hb => hu.timers.subset hb
  have horder : ∀ b ∈ l, g.Before s a b := by
    have := hr.order
    rw [hl] at this
    exact (pairwise_cons.1 this).1
  have hafter : ∀ b ∈ s.timers, b ≠ a → g.Before s a b := by
    intro b hb hne
    rw [hl] at hb
    exact horder b ((mem_cons.1 hb).resolve_left hne)
  -- what fires or is removed later was left by the first round
  have hlater : ∀ b, b ∈ Proc.fired rounds ∨ b ∈ Proc.removed rounds → b ∈ u.timers ∧ b ≠ a := by
    rintro b (hb | hb)
    · exact (hmem b).1 ((h.fired b).1 hb).1
    · obtain ⟨r, hr, hbr⟩ := mem_flatMap.1 hb
      exact (hmem b).1 (h.removed r hr b hbr).1
  have hfired : Proc.fired ((a, s.timers.filter (· ∉ u.timers)) :: rounds) = a :: Proc.fired rounds := rfl
  have hremoved : ∀ b, b ∈ Proc.removed ((a, s.timers.filter (· ∉ u.timers)) :: rounds) ↔
      (b ∈ s.timers ∧ b ∉ u.timers) ∨ b ∈ Proc.removed rounds := fun b => by
    rw [← hmem']
    exact mem_append
  refine ⟨fun b => ?_, ?_, ?_, fun r hr' b hb => ?_, fun b => ?_⟩
  · rw [hfired, mem_cons, hremoved, h.fired b, hmem, hv.expires, hv.jiffies]
    constructor
    · rintro (rfl | ⟨⟨h1, h2⟩, h3, h4⟩)
      · refine ⟨hsub b ha, he, ?_⟩
        rintro (⟨-, hn⟩ | hn)
        · exact hn ha
        · exact (hlater b (.inr hn)).2 rfl
      · refine ⟨hsub b h1, h3, ?_⟩
        rintro (⟨-, hn⟩ | hn)
        · exact hn h1
        · exact h4 hn
    · rintro ⟨h1, h2, h3⟩
      by_cases hb : b = a
      · exact .inl hb
      · refine .inr ⟨⟨?_, hb⟩, h2, fun h4 => h3 (.inr h4)⟩
        by_contra hn
        exact h3 (.inl ⟨h1, hn⟩)
  · rw [hfired]
    exact nodup_cons.2 ⟨fun hm => (hlater a (.inl hm)).2 rfl, h.once⟩
  · rw [hfired]
    refine pairwise_cons.2 ⟨fun b hb => ?_, h.order.imp fun hbc => (hv.before _ _).1 hbc⟩
    obtain ⟨h1, h2⟩ := hlater b (.inl hb)
    exact hafter b (hsub b h1) h2
  · rcases mem_cons.1 hr' with rfl | hr'
    · obtain ⟨h1, h2⟩ := (hmem' b).1 hb
      refine ⟨h1, hafter b h1 ?_⟩
      rintro rfl
      exact h2 ha
    · obtain ⟨h1, h2⟩ := h.removed r hr' b hb
      exact ⟨hsub b ((hmem b).1 h1).1, (hv.before _ _).1 h2⟩
  · rw [hfired, mem_cons, hremoved, h.left b, hmem]
    constructor
    · rintro ⟨⟨h1, h2⟩, h3, h4⟩
      refine ⟨hsub b h1, ?_, ?_⟩
      · rintro (h5 | h5)
        · exact h2 h5
        · exact h3 h5
      · rintro (⟨-, h5⟩ | h5)
        · exact h5 h1
        · exact h4 h5
    · rintro ⟨h1, h2, h3⟩
      refine ⟨⟨?_, fun h5 => h2 (.inl h5)⟩, fun h5 => h2 (.inr h5), fun h5 => h3 (.inr h5)⟩
      by_contra hn
      exact h3 (.inl ⟨h1, hn⟩)

theorem timerRounds_fires : ∀ (n : Nat) (s : State), Timed A none s → Inv s → Ranked s g → s.timers.length < n → s.jiffies.toNat < 2 ^ 31 →
    ∃ rounds t, timerRounds n s = .ok (rounds, t) ∧ Fires g s rounds t ∧ Thins s t
  | 0, _, _, _, _, hn, _ => absurd hn (Nat.not_lt_zero _)
  | n + 1, s, h, hi, hr, hn, hj => by
    unfold timerRounds
    by_cases he : timerExpires s ≤ s.jiffies
    swap
    · rw [if_neg he]
      exact ⟨[], s, rfl, fires_none hr he, .refl s⟩
    rw [if_pos he]
    cases hl : s.timers with
    | nil =>
      unfold timerExpires at he
      rw [hl] at he
      unfold eof at he
      bv_omega
    | cons a l =>
      have ha : a ∈ s.timers := by
        rw [hl]
        exact mem_cons_self ..
      have hexp : (s.timer a).expires ≤ s.jiffies := by
        unfold timerExpires at he
        rw [hl] at he
        exact he
      obtain ⟨u, h1, h2, h3, h4, h5, -⟩ := h.timeout hi ha
      have hput : timerPut u a = .ok { u with timers := u.timers.filter (· ≠ a), freed := a :: u.freed } := if_pos h4
      have hu : Thins s u := (Thins.activate s a).trans (.timeout h1)
      have hv := hu.trans (.put hput)
      have hda : (s.task (s.timer a).task).state ≠ .died := by
        obtain ⟨-, rank, htree⟩ := hi
        exact (htree.timers a ha).2
      have hstays : Stays s u := (setTimer_stays s a).trans (.timeout hda h1)
      have hlen : (u.timers.filter (· ≠ a)).length < s.timers.length :=
        Nat.lt_of_lt_of_le (length_filter_lt_length_iff_exists.2 ⟨a, h4, by simp⟩) hu.timers.length_le
      obtain ⟨rounds, t, h6, h7, h8⟩ := timerRounds_fires n _ (h2.put h3 hput (.inr rfl)) ((hstays.trans (.frees (.put hput))).inv hi) (hr.thins hv)
        (Nat.lt_of_lt_of_le hlen (Nat.le_of_lt_succ hn)) (hv.jiffies ▸ hj)
      refine ⟨_, t, ?_, Fires.cons hr hl hexp hu h4 hput h7, hv.trans h8⟩
      dsimp only
      rw [h1]
      dsimp only [bind, Except.bind]
      rw [hput]
      dsimp only
      rw [h6, hl]

/-! ## Runs -/

theorem mem_timerUpdate (b : Nat) (ms : Word) (ha : a ∈ s.timers) : b ∈ (timerUpdate s a ms).timers ↔ b ∈ s.timers := by
  refine mem_listInsertSort.trans ?_
  show b = a ∨ b ∈ s.timers.filter (· ≠ a) ↔ _
  rw [mem_filter, decide_eq_true_iff]
  constructor
  · rintro (rfl | h)
    · exact ha
    · exact h.1
  · intro hb
    by_cases hba : b = a
    · exact .inl hba
    · exact .inr ⟨hb, hba⟩

theorem timerUpdate_timer (s : State) (a : Nat) (ms : Word) (b : Nat) : ∃ x : Word, (timerUpdate s a ms).timer b = { s.timer b with expires := x } := by
  show ∃ x : Word, update s.timer a _ b = _
  by_cases hb : b = a
  · subst hb
    rw [update_self]
    exact ⟨_, rfl⟩
  · rw [update_of_ne hb]
    exact ⟨_, rfl⟩

theorem timerUpdate_stays (ha : a ∈ s.timers) : Stays s (timerUpdate s a ms) := by
  refine ⟨⟨rfl, rfl, fun _ => rfl, fun _ => rfl, fun _ => rfl, fun _ _ => .rfl, fun _ _ h => h, fun b hb => .inl ?_⟩, rfl, id⟩
  obtain ⟨x, hx⟩ := timerUpdate_timer s a ms b
  rw [hx]
  exact ⟨(mem_timerUpdate _ _ ha).1 hb, rfl⟩

theorem Timed.update (h : Timed A none s) (ha : a ∈ s.timers) : Timed A none (timerUpdate s a ms) := by
  have htimer := timerUpdate_timer s a ms
  have hmem := fun b => mem_timerUpdate b ms ha
  refine ⟨⟨?_, h.freed, fun b hb => h.disjoint b ((hmem b).1 hb), fun b => ?_⟩, fun p k b hA hp hk => ?_, fun b hb hA hE => ?_, fun p b hp hb => ?_,
    fun b hb => ?_, h.sleeps, h.idle⟩
  · have hperm : (timerUpdate s a ms).timers.Perm (a :: s.timers.filter (· ≠ a)) := listInsertSort_perm ..
    refine hperm.nodup_iff.2 (nodup_cons.2 ⟨fun hm => ?_, h.toLedger.timers.filter _⟩)
    exact of_decide_eq_true (mem_filter.1 hm).2 rfl
  · rw [hmem]
    exact h.all b
  · obtain ⟨x, hx⟩ := htimer b
    rw [hmem, hx]
    exact h.points p k b hA hp hk
  · obtain ⟨x, hx⟩ := htimer b
    rw [hx] at hA ⊢
    exact h.owner b ((hmem b).1 hb) hA hE
  · obtain ⟨x, hx⟩ := htimer b
    rw [hx]
    exact h.alarms p b hp hb
  · obtain ⟨x, hx⟩ := htimer b
    rw [hx]
    exact h.active b ((hmem b).1 hb)

theorem Ranked.update (h : Ranked s g) (hms : s.Soon ms) :
    Ranked (timerUpdate s a ms) (g.insert a) := by
  have hthin : Thins s { s with timers := s.timers.filter (· ≠ a) } := ⟨filter_sublist, fun _ => rfl, rfl, rfl⟩
  refine (h.thins hthin).inserted (x := { s.timer a with expires := s.jiffies + ms / jiffy }) (fun hm => ?_) ?_ rfl rfl
  · exact of_decide_eq_true (mem_filter.1 hm).2 rfl
  · rw [BitVec.toNat_add]
    unfold State.Soon at hms
    omega

theorem Ranked.add {k : Bool} (h : Ranked s g) (hn : s.nextTimer ∉ s.timers) (hms : s.Soon ms) :
    Ranked (timerAdd s ms k) (g.insert s.nextTimer) := by
  refine h.inserted (x := ⟨s.running, timerExpireJiffies s ms, k, false⟩) hn ?_ rfl rfl
  unfold timerExpireJiffies
  rw [BitVec.toNat_add]
  unfold State.Soon at hms
  omega

def tick (s : State) : State := { s with jiffies := s.jiffies + 1 }

structure Clocked (x : State × Stamps) : Prop where
  inv : Inv x.1
  timed : Timed False none x.1
  ranked : Ranked x.1 x.2

theorem Clocked.tick (h : Clocked x) : Inv (tick x.1) ∧ Timed False none (tick x.1) ∧ Ranked (tick x.1) x.2 :=
  ⟨(tick_stays x.1).inv h.inv, h.timed.quieter ⟨rfl, rfl, rfl, rfl, rfl, fun _ h => h, fun _ _ => rfl, fun _ _ _ h => h⟩,
    h.ranked.small, h.ranked.order, h.ranked.stamp⟩

theorem near_delay {a : Act} (h : Near s (.call a)) (hd : delay a = some ms) : s.Soon ms := by
  cases a with
  | alarm sec =>
    cases hd
    exact h
  | block st n =>
    unfold delay at hd
    dsimp only at hd
    split at hd
    · rename_i hn
      cases hd
      exact h hn
    · cases hd
  | _ => cases hd

theorem small_eof {x : Word} (h : x.toNat + 1 < 2 ^ 31) : x + 1 < eof := by
  unfold eof
  bv_omega

theorem clock_thins (h : clockHandler s = .ok t) : ∃ u, timerWakeup (tick s) = .ok u ∧ Thins u t := by
  obtain ⟨u, hu, h⟩ := bind_ok h
  refine ⟨u, hu, ?_⟩
  have ht := (Except.ok.inj h).symm
  rw [ht]
  split
  · exact (Thins.setTask ..).trans (.schedule _)
  · exact .setTask ..

theorem Clocked.clock (h : Clocked x) (hq : Near x.1 (.call .clock)) : ∃ rounds t,
    timerRounds (x.1.timers.length + 1) (Proc.tick x.1) = .ok (rounds, t) ∧ timerWakeup (Proc.tick x.1) = .ok t ∧
      Fires x.2 (Proc.tick x.1) rounds t ∧ Thins (Proc.tick x.1) t := by
  obtain ⟨h1, h2, h3⟩ := h.tick
  have hj : (Proc.tick x.1).jiffies.toNat < 2 ^ 31 := by
    have hq : x.1.jiffies.toNat + 1 < 2 ^ 31 := hq
    show (x.1.jiffies + 1).toNat < 2 ^ 31
    bv_omega
  obtain ⟨rounds, t, hr, hf, ht⟩ := timerRounds_fires _ _ h2 h1 h3 (Nat.lt_succ_self _) hj
  refine ⟨rounds, t, hr, ?_, hf, ht⟩
  unfold timerWakeup
  rw [timerRounds_loop, hr]
  rfl

theorem Clocked.call {g : Stamps} {a : Act} (h : Clocked (s, g)) (hq : Near s (.call a)) (hs : Proc.step s a = .ok t) :
    Ranked t (g.after s (.call a) t) := by
  have hsame : t.nextTimer = s.nextTimer → g.after s (.call a) t = g := fun hn => if_neg (by rw [hn]; exact Nat.lt_irrefl _)
  by_cases hc : a = .clock
  · subst hc
    obtain ⟨u, hu, ht⟩ := clock_thins hs
    obtain ⟨-, v, -, hv, -, hthin⟩ := h.clock hq
    rw [hu] at hv
    cases hv
    have hall := hthin.trans ht
    rw [hsame hall.nextTimer]
    exact h.tick.2.2.thins hall
  · have hthin := step_thins hc hs
    cases hd : delay a with
    | none =>
      rw [hd] at hthin
      rw [hsame (Thins.nextTimer hthin)]
      exact h.ranked.thins hthin
    | some ms =>
      rw [hd] at hthin
      obtain ⟨u, k, h1, h2⟩ := hthin
      have hnext : t.nextTimer = s.nextTimer + 1 := by
        rw [h2.nextTimer, ← h1.nextTimer]
        rfl
      have hg : g.after s (.call a) t = g.insert s.nextTimer := if_pos (by rw [hnext]; exact Nat.lt_succ_self _)
      rw [hg, ← h1.nextTimer]
      refine ((h.ranked.thins h1).add (fun hm => ?_) ?_).thins h2
      · have := (h.timed.all _).2 (.inl (h1.timers.subset hm))
        rw [h1.nextTimer] at this
        exact Nat.lt_irrefl _ this
      · unfold State.Soon
        rw [h1.jiffies]
        exact near_delay hq hd

theorem Clocked.step {g : Stamps} {a : Tick} (h : Clocked (s, g)) (he : clocks.enabled s a) (hq : Near s a) (hs : clocks.step s a = .ok t) :
    Clocked (t, g.after s a t) := by
  cases a with
  | update a ms =>
    cases hs
    exact ⟨(timerUpdate_stays he).inv h.inv, h.timed.update he, h.ranked.update hq⟩
  | call a =>
    have hclock : a = .clock → s.jiffies + 1 < eof := by
      rintro rfl
      exact small_eof hq
    exact ⟨(h.inv.step he hs).1, (h.timed.step h.inv he False.elim hclock).of_ok hs, h.call hq hs⟩

theorem reach_clocked (h : stamped.Reach (fun x => Near x.1) x) : Clocked x := by
  refine Machine.Reach.inv (I := Clocked) (fun x h0 => ?_) (fun x a y hi hq hs => ?_) h
  swap
  · obtain ⟨⟨he, hs⟩, hy⟩ := Machine.record_steps.1 hs
    have hi' : Clocked (x.1, x.2) := hi
    have := hi'.step he hq hs
    rw [← hy] at this
    exact this
  obtain ⟨h0, -⟩ := h0
  refine ⟨h0.inv, h0.timed, ?_, ?_, ?_⟩
  · rw [h0.timers.1]
    exact nofun
  · rw [h0.timers.1]
    exact .nil
  · rw [h0.timers.1]
    exact nofun

/-- At every tick of every run the loop of `timer_wakeup` ends, and it fires what it is to fire; what fires was never freed before, and is
freed then. -/
theorem timers_fire {x : State × Stamps} (h : stamped.Reach (fun x => Near x.1) x) (hq : Near x.1 (.call .clock)) :
    ∃ rounds t, timerRounds (x.1.timers.length + 1) (tick x.1) = .ok (rounds, t) ∧ timerWakeup (tick x.1) = .ok t ∧
      Fires x.2 (tick x.1) rounds t ∧ ∀ a ∈ fired rounds, a ∉ x.1.freed ∧ a ∈ t.freed := by
  have hc := reach_clocked h
  obtain ⟨rounds, t, hr, hw, hf, ht⟩ := hc.clock hq
  refine ⟨rounds, t, hr, hw, hf, fun a ha => ?_⟩
  have hin : a ∈ x.1.timers := ((hf.fired a).1 ha).1
  refine ⟨hc.timed.disjoint a hin, ?_⟩
  obtain ⟨h1, h2, -⟩ := hc.tick
  obtain ⟨u, hu, hu'⟩ := Timed.timerLoop _ _ h2 h1 (Nat.lt_succ_self _) (small_eof hq)
  unfold timerWakeup at hw
  rw [hu] at hw
  cases hw
  have hlt : a < t.nextTimer := by
    rw [ht.nextTimer]
    exact (hc.timed.all a).2 (.inl hin)
  exact ((hu'.all a).1 hlt).resolve_left fun hm => ((hf.left a).1 hm).2.1 ha

instance (s : State) : (a : Tick) → Decidable (clocks.enabled s a)
  | .call a => inferInstanceAs (Decidable (enabled s a))
  | .update a _ => inferInstanceAs (Decidable (a ∈ s.timers))

instance (s : State) (ms : Word) : Decidable (s.Soon ms) := inferInstanceAs (Decidable (_ < _))

instance (s : State) : (a : Tick) → Decidable (Near s a)
  | .call .clock => inferInstanceAs (Decidable (_ < _))
  | .call (.alarm sec) => inferInstanceAs (Decidable (s.Soon (sec * 1000)))
  | .call (.block _ ms) => inferInstanceAs (Decidable (0 < ms → s.Soon (BitVec.ofInt 32 ms)))
  | .call (.fork _) | .call (.exit _) | .call (.waitpid _) | .call (.kill _ _) | .call (.unblock _ _) | .call .yield =>
    inferInstanceAs (Decidable True)
  | .update _ ms => inferInstanceAs (Decidable (s.Soon ms))

/-- A task sleeps until the tick after that of its alarm: the alarm fires first and wakes the task, whose other timer is removed. -/
theorem timers_fire_alarm : ∃ x rounds t, stamped.Reach (fun x => Near x.1) x ∧ x.1.timers = [0, 1] ∧ timerWakeup (tick x.1) = .ok t ∧
    Fires x.2 (tick x.1) rounds t ∧ rounds = [(0, [1])] := by
  have h : (clocks.trace Near boot [.call .yield, .call (.fork 102), .call (.block .waiting 0), .call (.alarm 0),
      .call (.block .sleeping 20), .update 1 10]).map (fun s => (decide (Near s (.call .clock)), s.timers,
        (match timerRounds (s.timers.length + 1) (tick s) with
        | .ok (rounds, _) => rounds
        | .error _ => []))) = some (true, [0, 1], [(0, [1])]) := by decide +kernel
  obtain ⟨s, hs, he⟩ := Option.map_eq_some_iff.1 h
  obtain ⟨h1, h2⟩ := Prod.mk.inj he
  obtain ⟨h2, h3⟩ := Prod.mk.inj h2
  have h0 : clocks.start boot := boot_start
  obtain ⟨g, hg⟩ : ∃ g, stamped.Reach (fun x => Near x.1) (s, g) :=
    (Machine.trace_reach h0 hs).remember (fun _ _ => ⟨⟨fun _ => 0, 0⟩, trivial⟩) (fun _ _ h => h)
  obtain ⟨rounds, t, hr, hw, hf, -⟩ := timers_fire hg (of_decide_eq_true h1)
  rw [hr] at h3
  exact ⟨(s, g), rounds, t, hg, h2, hw, hf, h3⟩

end Onix.Proc
