/-
Whole directories: `copy_pde` takes the write right of every private page and of the directory
entries above, counts what the new directory refers to and leaves the shared pages writable;
`free_pde` gives all of it back.
-/
import Onix.Memory.Pages

namespace Onix.Memory

open Bool Finset Onix.Lib

variable {s t u : State} {p q : Fin taskNr} {T U : Task} {f g v d i n pd k : Nat} {e w : Entry}
variable {e e' : Entry}

/-! ## `copy_pde` -/

theorem addRef_sat (s : State) (f : Nat) : Sat Lost (addRef s f) fun t =>
    t = { s with memoryMap := t.memoryMap } ∧ ∀ x, t.memoryMap x = s.memoryMap x + if x = f then 1 else 0 := by
  refine sat_ite (fun _ => Sat.error (by rintro (h | h | h) <;> cases h)) fun _ => Sat.ok ⟨rfl, fun x => ?_⟩
  show setCount _ _ _ x = _
  by_cases hx : x = f
  · rw [hx, setCount_same, if_pos rfl]
  · rw [setCount_other _ _ hx, if_neg hx]
    rfl

/-- The private pages among the first `n` entries of the table `g` lose the write right. -/
def protect (m : Mem) (g n : Nat) : Mem := fun x j =>
  if x = g ∧ j < n ∧ (m g j).present = true ∧ (m g j).shared = false then { m x j with write := false } else m x j

theorem protect_succ (m : Mem) (g n : Nat) : protect m g (n + 1) =
    if (m g n).present = true ∧ (m g n).shared = false then (protect m g n).set g n { m g n with write := false }
    else protect m g n := by
  funext x j
  unfold protect
  by_cases hx : x = g ∧ j = n
  · obtain ⟨rfl, rfl⟩ := hx
    by_cases hc : (m x j).present = true ∧ (m x j).shared = false
    · rw [if_pos ⟨rfl, Nat.lt_succ_self j, hc⟩, if_pos hc, Mem.set_same]
    · rw [if_neg fun h => hc h.2.2, if_neg hc, if_neg fun h => hc h.2.2]
  · have hj : (x = g ∧ j < n + 1 ∧ (m g j).present = true ∧ (m g j).shared = false) ↔
        (x = g ∧ j < n ∧ (m g j).present = true ∧ (m g j).shared = false) :=
      ⟨fun h => ⟨h.1, lt_of_le_of_ne (Nat.lt_succ_iff.1 h.2.1) fun e => hx ⟨h.1, e⟩, h.2.2⟩,
        fun h => ⟨h.1, Nat.lt_succ_of_lt h.2.1, h.2.2⟩⟩
    have he : (if (m g n).present = true ∧ (m g n).shared = false then (protect m g n).set g n { m g n with write := false }
        else protect m g n) x j = protect m g n x j := by
      split
      · exact Mem.set_other _ _ hx
      · rfl
    unfold protect at he
    rw [he]
    simp only [hj]

theorem protect_later (m : Mem) (g n : Nat) : protect m g n g n = m g n := by
  unfold protect
  rw [if_neg fun h => Nat.lt_irrefl n h.2.1]

theorem sharePages_sat (s : State) (g n : Nat) : Sat Lost (forRange n (sharePage g) s) fun t =>
    t = { s with mem := protect s.mem g n, memoryMap := t.memoryMap } ∧
      ∀ f, t.memoryMap f = s.memoryMap f + ∑ j ∈ range n, ref f (s.mem g j) := by
  refine forRange_sat (fun n (t : State) => t = { s with mem := protect s.mem g n, memoryMap := t.memoryMap } ∧
    ∀ f, t.memoryMap f = s.memoryMap f + ∑ j ∈ range n, ref f (s.mem g j)) n (fun n t _ ht => ?_) ⟨?_, fun f => ?_⟩
  · obtain ⟨ht, hc⟩ := ht
    have he : t.mem g n = s.mem g n := by
      rw [ht]
      exact protect_later ..
    unfold sharePage
    rw [he]
    refine sat_ite (fun hp => Sat.ok ⟨?_, fun f => ?_⟩) fun hp => ?_
    · rw [protect_succ, if_neg fun h => hp h.1]
      exact ht
    · rw [sum_range_succ, ref_of_absent (eq_false_iff.2 hp)]
      exact hc f
    · refine (addRef_sat _ _).mono fun u hu => ⟨?_, fun f => ?_⟩
      · rw [hu.1, ht, protect_succ]
        by_cases hsh : (s.mem g n).shared = true
        · rw [if_pos hsh, if_neg fun h => by rw [h.2] at hsh; cases hsh]
        · rw [if_neg hsh, if_pos ⟨not_not.1 hp, eq_false_iff.2 hsh⟩]
      · rw [hu.2, sum_range_succ, ref_of_present f (not_not.1 hp)]
        rw [hc f]
        omega
  · have h0 : protect s.mem g 0 = s.mem := by
      funext x j
      unfold protect
      rw [if_neg fun h => Nat.not_lt_zero j h.2.1]
    rw [h0]
  · rw [range_zero, sum_empty]
    rfl

/-- After the first `n` slots of `pd`: their entries and the private pages below are read-only, and
each frame has one more reference for each slot and page that refers to it. -/
structure Lent (s : State) (pd n : Nat) (t : State) : Prop where
  rest : t = { s with mem := t.mem, memoryMap := t.memoryMap }
  lower : ∀ x j, t.mem x j = s.mem x j ∨ t.mem x j = { s.mem x j with write := false }
  shared : ∀ x j, x ≠ pd → (s.mem x j).shared = true → t.mem x j = s.mem x j
  dir : ∀ j, t.mem pd j = if 4 ≤ j ∧ j < 4 + n ∧ (s.mem pd j).present = true then { s.mem pd j with write := false } else s.mem pd j
  other : ∀ x, x ≠ pd → (∀ c < n, (s.mem pd (4 + c)).present = true → (s.mem pd (4 + c)).index ≠ x) → t.mem x = s.mem x
  pages : ∀ c < n, (s.mem pd (4 + c)).present = true → ∀ i < 1024, (s.mem (s.mem pd (4 + c)).index i).present = true →
    (s.mem (s.mem pd (4 + c)).index i).shared = false → (t.mem (s.mem pd (4 + c)).index i).write = false
  count : ∀ f, t.memoryMap f = s.memoryMap f + dirSum s.mem pd n (ref f) + dirSum s.mem pd n (below s.mem f)

def Lowered (e e' : Entry) : Prop := e' = e ∨ e' = { e with write := false }

theorem Lowered.like (h : Lowered e e') : Like e e' := by
  rcases h with rfl | rfl
  · exact ⟨rfl, rfl⟩
  · exact ⟨rfl, rfl⟩

theorem Lowered.shared (h : Lowered e e') : e'.shared = e.shared := by
  rcases h with rfl | rfl <;> rfl

theorem Lowered.trans {a b c : Entry} (h1 : Lowered a b) (h2 : Lowered b c) : Lowered a c := by
  rcases h1 with rfl | rfl
  · exact h2
  · rcases h2 with rfl | rfl
    · exact .inr rfl
    · exact .inr rfl

theorem Lowered.write (h : Lowered e e') (hw : e.write = false) : e'.write = false := by
  rcases h with rfl | rfl
  · exact hw
  · rfl

theorem protect_lowered (m : Mem) (g n x j : Nat) : Lowered (m x j) (protect m g n x j) := by
  unfold protect
  split
  · exact .inr rfl
  · exact .inl rfl

theorem set_lowered (m : Mem) (pd d x j : Nat) : Lowered (m x j) (m.set pd d { m pd d with write := false } x j) := by
  by_cases hx : x = pd ∧ j = d
  · obtain ⟨rfl, rfl⟩ := hx
    rw [Mem.set_same]
    exact .inr rfl
  · rw [Mem.set_other _ _ hx]
    exact .inl rfl

set_option maxRecDepth 8000 in
theorem shareTable_sat (hpd : ∀ c, 4 ≤ c → c < 64 → (s.mem pd c).present = true → (s.mem pd c).index ≠ pd) (hn : n < 60)
    (h : Lent s pd n t) : Sat Lost (shareTable pd (4 + n) t) (Lent s pd (n + 1)) := by
  have he : t.mem pd (4 + n) = s.mem pd (4 + n) := by
    rw [h.dir, if_neg fun e => Nat.lt_irrefl _ e.2.1]
  unfold shareTable
  rw [he]
  refine sat_ite (fun hp => Sat.ok ?_) fun hp => ?_
  · have hp := Bool.eq_false_iff.2 hp
    refine ⟨h.rest, h.lower, h.shared, fun j => ?_, fun x hx hc => h.other x hx fun c hcn => hc c (by omega), fun c hc hpc => ?_,
      fun f => ?_⟩
    · rw [h.dir]
      refine if_congr ⟨fun e => ⟨e.1, by omega, e.2.2⟩, fun e => ⟨e.1, ?_, e.2.2⟩⟩ rfl rfl
      by_contra hj
      have : j = 4 + n := by omega
      rw [this, hp] at e
      exact nomatch e.2.2
    · refine h.pages c ?_ hpc
      by_contra hcn
      rw [show c = n by omega, hp] at hpc
      cases hpc
    · rw [dirSum_succ, dirSum_succ, ref_of_absent hp, below_absent hp]
      exact h.count f
  · have hp := not_not.1 hp
    have hg := hpd (4 + n) (by omega) (by omega) hp
    refine (addRef_sat _ _).bind ?_
    intro s1 _ h1
    refine Sat.mono (sharePages_sat s1 (s.mem pd (4 + n)).index 1024) ?_
    intro u hu
    have hm1 : s1.mem = t.mem.set pd (4 + n) { t.mem pd (4 + n) with write := false } := by rw [h1.1, he]
    have hlow1 : ∀ x j, Lowered (t.mem x j) (s1.mem x j) := fun x j => by
      rw [hm1]
      exact set_lowered ..
    have hum : u.mem = protect s1.mem (s.mem pd (4 + n)).index 1024 := by rw [hu.1]
    have hlow2 : ∀ x j, Lowered (s1.mem x j) (u.mem x j) := fun x j => by
      rw [hum]
      exact protect_lowered ..
    have hlow : ∀ x j, Lowered (s.mem x j) (u.mem x j) := fun x j =>
      (Lowered.trans (h.lower x j) (hlow1 x j)).trans (hlow2 x j)
    have hpd1 : ∀ x, x ≠ pd → s1.mem x = t.mem x := fun x hx => funext fun j => by
      rw [hm1, Mem.set_other _ _ fun e => hx e.1]
    have hpdu : ∀ x, x ≠ (s.mem pd (4 + n)).index → u.mem x = s1.mem x := fun x hx => funext fun j => by
      rw [hum]
      unfold protect
      rw [if_neg fun e => hx e.1]
    have hs1 : ∀ x j, Lowered (s.mem x j) (s1.mem x j) := fun x j => Lowered.trans (h.lower x j) (hlow1 x j)
    refine ⟨?_, hlow, fun x j hx hsh => ?_, fun j => ?_, fun x hx hc => ?_, fun c hc hpc i hi hpi hsi => ?_, fun f => ?_⟩
    · rw [hu.1, h1.1, h.rest]
    · rw [hum]
      unfold protect
      have hs1j : s1.mem x j = s.mem x j := by
        rw [hpd1 x hx]
        exact h.shared x j hx hsh
      rw [if_neg ?_, hs1j]
      rintro ⟨rfl, -, -, e⟩
      rw [hs1j, hsh] at e
      cases e
    · rw [hpdu pd hg.symm, hm1]
      by_cases hj : j = 4 + n
      · subst hj
        rw [Mem.set_same, he, if_pos ⟨by omega, by omega, hp⟩]
      · rw [Mem.set_other _ _ fun e => hj e.2, h.dir]
        exact if_congr ⟨fun e => ⟨e.1, by omega, e.2.2⟩, fun e => ⟨e.1, by omega, e.2.2⟩⟩ rfl rfl
    · rw [hpdu x (hc n (Nat.lt_succ_self n) hp).symm, hpd1 x hx]
      exact h.other x hx fun c hcn => hc c (by omega)
    · by_cases hcn : c = n
      · subst hcn
        rw [hum]
        unfold protect
        have hl := hs1 (s.mem pd (4 + c)).index i
        rw [if_pos ⟨rfl, hi, hl.like.1.trans hpi, hl.shared.trans hsi⟩]
      · exact (Lowered.trans (hlow1 _ i) (hlow2 _ i)).write (h.pages c (by omega) hpc i hi hpi hsi)
    · have hsum : ∑ j ∈ Finset.range 1024, ref f (s1.mem (s.mem pd (4 + n)).index j) = below s.mem f (s.mem pd (4 + n)) := by
        rw [below_present hp]
        exact tableRefs_congr f fun j _ => (hs1 _ j).like
      rw [hu.2, h1.2, hsum, dirSum_succ, dirSum_succ, ref_of_present f hp]
      rw [h.count]
      omega

theorem copyPde_lent (hpd : ∀ c, 4 ≤ c → c < 64 → (s.mem pd c).present = true → (s.mem pd c).index ≠ pd) :
    Sat Lost (forRange 60 (fun i => shareTable pd (4 + i)) s) (Lent s pd 60) := by
  refine forRange_sat (Lent s pd) 60 (fun n t hn ht => shareTable_sat hpd hn ht) ?_
  refine ⟨rfl, fun _ _ => .inl rfl, fun _ _ _ _ => rfl, fun j => ?_, fun _ _ _ => rfl, fun c hc => absurd hc (Nat.not_lt_zero c),
    fun f => ?_⟩
  · rw [if_neg fun e => by omega]
  · rw [dirSum_zero, dirSum_zero]
    rfl

/-! ## A new directory -/

theorem below_like {m m' : Mem} {a b c : Nat} (h : Like (m a c) (m' b c)) (ht : (m a c).present = true → ∀ i < 1024,
    Like (m (m a c).index i) (m' (m a c).index i)) (f : Nat) : below m' f (m' b c) = below m f (m a c) := by
  cases hp : (m a c).present with
  | false => rw [below_absent hp, below_absent (h.1.trans hp)]
  | true =>
    rw [below_present hp, below_present (h.1.trans hp), h.2]
    exact tableRefs_congr f (ht hp)

/-- A directory that may be copied: the one of the kernel or of a live process. -/
structure Source (s : State) (pd : Nat) : Prop where
  struct : pd = 1 ∨ ∃ p T, s.tasks p = some T ∧ T.pde = pd
  slot : ∀ c, 4 ≤ c → c < 64 → (s.mem pd c).present = true → ∃ p T, T.pde = pd ∧ Slot s p T c

theorem Source.kernel (h : Inv s) : Source s 1 :=
  ⟨.inl rfl, fun c h1 h2 hp => by rw [h.kernel c h1 h2] at hp; cases hp⟩

theorem Source.live (hp : s.tasks p = some T) : Source s T.pde :=
  ⟨.inr ⟨p, T, hp, rfl⟩, fun _ h1 h2 _ => ⟨p, T, rfl, hp, h1, h2⟩⟩

theorem Source.table_ne (hi : Inv s) (h : Source s pd) {x : Nat} (hx : 1 ≤ tableUses s x) : x ≠ pd := fun e => by
  have hr := (hi.range x (.inl hx)).1
  unfold kernelFrames at hr
  rcases h.struct with h1 | ⟨p, T, hp, h1⟩
  · omega
  · have := (hi.dir p T hp).2.1
    omega

theorem Source.uses (h : Source s pd) (f : Nat) : (1 ≤ dirSum s.mem pd 60 (ref f) → 1 ≤ tableUses s f) ∧
    (1 ≤ dirSum s.mem pd 60 (below s.mem f) → 1 ≤ pageUses s f) := by
  constructor
  · intro h1
    obtain ⟨c, hc, h2⟩ := exists_ne_zero_of_sum_ne_zero (show dirSum s.mem pd 60 (ref f) ≠ 0 by omega)
    have hp : (s.mem pd (4 + c)).present = true := by
      by_contra hp
      exact h2 (ref_of_absent (eq_false_iff.2 hp))
    have hc := mem_range.1 hc
    obtain ⟨p, T, rfl, hs⟩ := h.slot (4 + c) (by omega) (by omega) hp
    have : ref f (s.mem T.pde (4 + c)) ≤ tableUses s f := slot_le hs
    omega
  · intro h1
    obtain ⟨c, hc, h2⟩ := exists_ne_zero_of_sum_ne_zero (show dirSum s.mem pd 60 (below s.mem f) ≠ 0 by omega)
    have hp : (s.mem pd (4 + c)).present = true := by
      by_contra hp
      exact h2 (below_absent (eq_false_iff.2 hp))
    have hc := mem_range.1 hc
    obtain ⟨p, T, rfl, hs⟩ := h.slot (4 + c) (by omega) (by omega) hp
    have : below s.mem f (s.mem T.pde (4 + c)) ≤ pageUses s f := slot_le hs
    omega

theorem Lent.pool (hi : Inv s) (hsrc : Source s pd) (h : Lent s pd 60 t) : Pool t := by
  have hsame : ∀ f, kernelFrames ≤ f → (t.memoryMap f = 0 ↔ s.memoryMap f = 0) := fun f hf => by
    have h1 := h.count f
    have h2 := hi.count f hf
    have h3 := hsrc.uses f
    omega
  have htot : t.totalPages = s.totalPages ∧ t.startPage = s.startPage ∧ t.freePages = s.freePages := by
    rw [h.rest]
    exact ⟨rfl, rfl, rfl⟩
  have hk : ∀ f < kernelFrames, t.memoryMap f = 1 := fun f hf => by
    have h1 := h.count f
    have h2 := hi.pool.kernel f hf
    have h3 := hsrc.uses f
    have h4 : ¬ (1 ≤ tableUses s f) := fun e => by
      have := (hi.range f (.inl e)).1
      omega
    have h5 : ¬ (1 ≤ pageUses s f) := fun e => by
      have := (hi.range f (.inr e)).1
      omega
    omega
  refine ⟨by rw [htot.2.1]; exact hi.pool.start, by rw [htot.1]; exact hi.pool.total, hk, ?_⟩
  rw [htot.2.2, hi.pool.free]
  unfold zeros
  rw [htot.1, htot.2.1]
  refine sum_congr rfl fun f _ => ?_
  by_cases hf : kernelFrames ≤ f
  · exact if_congr (hsame f hf).symm rfl rfl
  · rw [hk f (by omega), hi.pool.kernel f (by omega)]

/-- A process with a copy of the directory `pd`. -/
structure Forked (s : State) (pd : Nat) (q : Fin taskNr) (N : Task) (u : State) : Prop where
  inv : Inv u
  tasks : ∀ r, u.tasks r = if r = q then some N else s.tasks r
  total : u.totalPages = s.totalPages
  old : ∀ r U c j, Slot s r U c → j < 1024 → cell u.mem U.pde c j = cell s.mem U.pde c j ∨
    ∃ e, cell s.mem U.pde c j = some e ∧ e.shared = false ∧ cell u.mem U.pde c j = some { e with write := false }
  new : ∀ c j, 4 ≤ c → c < 64 → j < 1024 → cell u.mem N.pde c j = cell u.mem pd c j
  priv : ∀ c j e, 4 ≤ c → c < 64 → j < 1024 → cell s.mem pd c j = some e → e.shared = false →
    cell u.mem pd c j = some { e with write := false }
  data : ∀ r U c j e, Slot s r U c → j < 1024 → cell s.mem U.pde c j = some e → u.mem e.index = s.mem e.index
  lock : ∀ c, 4 ≤ c → c < 64 → (u.mem pd c).present = true → (u.mem pd c).write = false ∧ (u.mem N.pde c).write = false

theorem Lowered.user (h : Lowered e e') : e'.user = e.user := by
  rcases h with rfl | rfl <;> rfl

/-- The state with the new directory, in terms of the one before. -/
structure Spawned (s : State) (pd k : Nat) (q : Fin taskNr) (N : Task) (t u : State) : Prop where
  lent : Lent s pd 60 t
  source : Source s pd
  page : kernelPage s k
  pde : N.pde = k
  free : s.tasks q = none
  other : ∀ x, x ≠ k → u.mem x = t.mem x
  copy : ∀ j, j ≠ 1023 → u.mem k j = t.mem pd j
  self : u.mem k 1023 = entryInit k
  tasks : ∀ r, u.tasks r = if r = q then some N else s.tasks r
  count : u.memoryMap = t.memoryMap
  total : u.totalPages = s.totalPages
  pool : Pool u

namespace Spawned

variable {N : Task} {r : Fin taskNr}

theorem live_ne (h : Spawned s pd k q N t u) (hr : s.tasks r = some U) : U.pde ≠ k := h.page.2.2 r U hr

theorem table_ne (hi : Inv s) (h : Spawned s pd k q N t u) {x : Nat} (hx : 1 ≤ tableUses s x) : x ≠ k := by
  have h1 := (hi.range x (.inl hx)).1
  have h2 := h.page.2.1
  unfold kernelFrames at h1
  omega

theorem pd_ne (h : Spawned s pd k q N t u) : pd ≠ k := by
  rcases h.source.struct with h1 | ⟨p, T, hp, h1⟩
  · have := h.page.1
    omega
  · rw [← h1]
    exact h.live_ne hp

theorem lowered (h : Spawned s pd k q N t u) {x : Nat} (hx : x ≠ k) (j : Nat) : Lowered (s.mem x j) (u.mem x j) := by
  rw [h.other x hx]
  exact h.lent.lower x j

theorem lowered_new (h : Spawned s pd k q N t u) (hd : d < 64) : Lowered (s.mem pd d) (u.mem k d) := by
  rw [h.copy d (by omega)]
  exact h.lent.lower pd d

theorem below_old (hi : Inv s) (h : Spawned s pd k q N t u) (hs : Slot s r U c) (f : Nat) :
    below u.mem f (u.mem U.pde c) = below s.mem f (s.mem U.pde c) :=
  below_like (h.lowered (h.live_ne hs.task) c).like
    (fun hp i _ => (h.lowered (h.table_ne hi (hs.table hp)) i).like) f

theorem below_new (hi : Inv s) (h : Spawned s pd k q N t u) (h1 : 4 ≤ d) (h2 : d < 64) (f : Nat) :
    below u.mem f (u.mem k d) = below s.mem f (s.mem pd d) := by
  refine below_like (h.lowered_new h2).like (fun hp i _ => ?_) f
  obtain ⟨p, T, rfl, hs⟩ := h.source.slot d h1 h2 hp
  exact (h.lowered (h.table_ne hi (hs.table hp)) i).like

theorem none_q (h : Spawned s pd k q N t u) (φ : Entry → Nat) : taskSum s.mem φ (s.tasks q) = 0 := by
  rw [h.free]
  rfl

theorem some_q (h : Spawned s pd k q N t u) (φ : Entry → Nat) : taskSum u.mem φ (u.tasks q) = dirSum u.mem k 60 φ := by
  rw [h.tasks, if_pos rfl, ← h.pde]
  rfl

theorem tableUses (h : Spawned s pd k q N t u) (f : Nat) :
    tableUses u f = tableUses s f + dirSum s.mem pd 60 (ref f) := by
  have h1 : slotSum u (ref f) + taskSum s.mem (ref f) (s.tasks q) = slotSum s (ref f) + taskSum u.mem (ref f) (u.tasks q) :=
    slotSum_task (p := q) (fun r hr => by rw [h.tasks, if_neg hr])
    fun r U c hs _ => (h.lowered (h.live_ne hs.task) c).like.ref f
  rw [h.none_q, h.some_q, Nat.add_zero] at h1
  have h2 : dirSum u.mem k 60 (ref f) = dirSum s.mem pd 60 (ref f) :=
    dirSum_congr fun i hi => (h.lowered_new (by omega)).like.ref f
  rw [h2] at h1
  exact h1

theorem pageUses (hi : Inv s) (h : Spawned s pd k q N t u) (f : Nat) :
    pageUses u f = pageUses s f + dirSum s.mem pd 60 (below s.mem f) := by
  have h1 : slotSum u (below u.mem f) + taskSum s.mem (below s.mem f) (s.tasks q) =
      slotSum s (below s.mem f) + taskSum u.mem (below u.mem f) (u.tasks q) :=
    slotSum_task (p := q) (fun r hr => by rw [h.tasks, if_neg hr]) fun r U c hs _ => h.below_old hi hs f
  rw [h.none_q, h.some_q, Nat.add_zero] at h1
  have h2 : dirSum u.mem k 60 (below u.mem f) = dirSum s.mem pd 60 (below s.mem f) :=
    dirSum_congr fun i hi' => h.below_new hi (by omega) (by omega) f
  rw [h2] at h1
  exact h1

theorem slot_cases (h : Spawned s pd k q N t u) (hs : Slot u r U c) :
    r ≠ q ∧ Slot s r U c ∨ r = q ∧ U = N ∧ 4 ≤ c ∧ c < 64 := by
  have ht := hs.task
  rw [h.tasks] at ht
  by_cases hr : r = q
  · rw [if_pos hr] at ht
    exact .inr ⟨hr, (Option.some.inj ht).symm, hs.low, hs.high⟩
  · rw [if_neg hr] at ht
    exact .inl ⟨hr, ht, hs.low, hs.high⟩

theorem layout (hi : Inv s) (h : Spawned s pd k q N t u) (hheap : userExecAddr ≤ N.endAddr ∧ N.brk ≤ userMmapAddr) :
    Layout u := by
  -- the slots of the directory that was copied are read-only
  have hro : ∀ c, 4 ≤ c → c < 64 → (s.mem pd c).present = true → (t.mem pd c).write = false := fun c h1 h2 hp => by
    rw [h.lent.dir, if_pos ⟨h1, by omega, hp⟩]
  have hsrc : ∀ c, 4 ≤ c → c < 64 → (u.mem k c).present = true → (s.mem pd c).present = true ∧
      (u.mem k c).index = (s.mem pd c).index ∧ ∃ p T, T.pde = pd ∧ Slot s p T c := fun c h1 h2 hp => by
    have hl := (h.lowered_new (d := c) h2).like
    have hp := hl.1.symm.trans hp
    exact ⟨hp, hl.2, h.source.slot c h1 h2 hp⟩
  refine ⟨fun r U hr => ?_, fun r v U V hr hv he => ?_, fun r U hr => ?_, fun d h1 h2 => ?_, fun r U c hs hp => ?_,
    fun r U c v V b hs hv hp hp' he => ?_, fun f hf => ?_, fun f => ?_⟩
  · rw [h.tasks] at hr
    split at hr
    · cases hr
      rw [h.pde]
      exact ⟨h.page.1, h.page.2.1, h.self⟩
    · obtain ⟨h1, h2, h3⟩ := hi.dir r U hr
      refine ⟨h1, h2, ?_⟩
      rw [h.other _ (h.live_ne hr), ← h3]
      by_cases hx : U.pde = pd
      · rw [hx, h.lent.dir, if_neg fun e => by omega]
      · rw [h.lent.other _ hx]
        intro c hc hp he
        obtain ⟨p, T, rfl, hs⟩ := h.source.slot (4 + c) (by omega) (by omega) hp
        exact hi.table_ne hs hp hr he
  · rw [h.tasks] at hr hv
    split at hr <;> split at hv
    · rename_i h1 h2
      rw [h1, h2]
    · cases hr
      exact absurd (he.symm.trans h.pde) (h.live_ne hv)
    · cases hv
      exact absurd (he.trans h.pde) (h.live_ne hr)
    · exact hi.apart r v U V hr hv he
  · rw [h.tasks] at hr
    split at hr
    · cases hr
      exact hheap
    · exact hi.heap r U hr
  · have h3 := h.page.1
    exact (h.lowered (x := 1) (by omega) d).like.1.trans (hi.kernel d h1 h2)
  · rcases h.slot_cases hs with ⟨-, hs⟩ | ⟨-, rfl, h1, h2⟩
    · have hl := h.lowered (h.live_ne hs.task) c
      have hp : (s.mem U.pde c).present = true := hl.like.1.symm.trans hp
      obtain ⟨hu, hw⟩ := hi.slot r U c hs hp
      refine ⟨hl.user.trans hu, fun hwt => ?_⟩
      have hx : U.pde ≠ pd := fun e => by
        rw [h.other _ (h.live_ne hs.task), e, hro c hs.low hs.high (e ▸ hp)] at hwt
        cases hwt
      have hws : (s.mem U.pde c).write = true := by
        by_contra hn
        rw [hl.write (eq_false_iff.2 hn)] at hwt
        cases hwt
      rw [hl.like.2, h.tableUses, hw hws]
      -- no slot of the copied directory has this table
      by_contra hne
      obtain ⟨b, hb, h3⟩ := exists_ne_zero_of_sum_ne_zero
        (show dirSum s.mem pd 60 (ref (s.mem U.pde c).index) ≠ 0 by omega)
      have hb := mem_range.1 hb
      have hpb : (s.mem pd (4 + b)).present = true := by
        by_contra hp
        exact h3 (ref_of_absent (eq_false_iff.2 hp))
      obtain ⟨p, T, rfl, hsp⟩ := h.source.slot (4 + b) (by omega) (by omega) hpb
      have h4 : ref (s.mem U.pde c).index (s.mem U.pde c) + ref (s.mem U.pde c).index (s.mem T.pde (4 + b)) ≤
          Memory.tableUses s (s.mem U.pde c).index := two_slots_le hs hsp fun e => hx (by
        have := e.1 ▸ hsp.task
        rw [hs.task] at this
        cases this
        rfl)
      rw [ref_self hp, hw hws] at h4
      omega
    · rw [h.pde] at hp ⊢
      obtain ⟨hp, hidx, p, T, rfl, hsp⟩ := hsrc c h1 h2 hp
      refine ⟨(h.lowered_new h2).user.trans (hi.slot p T c hsp hp).1, fun hwt => ?_⟩
      rw [h.copy c (by omega), hro c h1 h2 hp] at hwt
      cases hwt
  · have hcase : ∀ r U c, Slot u r U c → (u.mem U.pde c).present = true → ∃ p T, Slot s p T c ∧
        (s.mem T.pde c).present = true ∧ (u.mem U.pde c).index = (s.mem T.pde c).index := by
      intro r U c hs hp
      rcases h.slot_cases hs with ⟨-, hs⟩ | ⟨-, rfl, h1, h2⟩
      · have hl := (h.lowered (h.live_ne hs.task) c).like
        exact ⟨r, U, hs, hl.1.symm.trans hp, hl.2⟩
      · rw [h.pde] at hp ⊢
        obtain ⟨hp, hidx, p, T, rfl, hsp⟩ := hsrc c h1 h2 hp
        exact ⟨p, T, hsp, hp, hidx⟩
    obtain ⟨p1, T1, hs1, hp1, he1⟩ := hcase r U c hs hp
    obtain ⟨p2, T2, hs2, hp2, he2⟩ := hcase v V b hv hp'
    exact hi.once p1 T1 c p2 T2 b hs1 hs2 hp1 hp2 (he1.symm.trans (he.trans he2))
  · rw [h.tableUses, h.pageUses hi] at hf
    rw [h.total]
    have h1 := h.source.uses f
    exact hi.range f (hf.imp (by omega) (by omega))
  · rw [h.tableUses, h.pageUses hi]
    have h1 := h.source.uses f
    exact (hi.kinds f).imp (by omega) (by omega)

theorem inv (hi : Inv s) (h : Spawned s pd k q N t u) (hheap : userExecAddr ≤ N.endAddr ∧ N.brk ≤ userMmapAddr) : Inv u := by
  refine ⟨h.layout hi hheap, h.pool, fun f hf => ?_⟩
  rw [h.tableUses, h.pageUses hi, h.count, h.lent.count, hi.count f hf]
  omega

theorem forked (hi : Inv s) (h : Spawned s pd k q N t u) (hheap : userExecAddr ≤ N.endAddr ∧ N.brk ≤ userMmapAddr) :
    Forked s pd q N u := by
  have htab : ∀ r U c, Slot s r U c → (s.mem U.pde c).present = true → (s.mem U.pde c).index ≠ pd := fun r U c hs hp =>
    h.source.table_ne hi (hs.table hp)
  have hold : ∀ r U c j e, Slot s r U c → cell s.mem U.pde c j = some e → cell u.mem U.pde c j = some (u.mem (s.mem U.pde c).index j) ∧
      Lowered e (u.mem (s.mem U.pde c).index j) ∧ (e.shared = true → u.mem (s.mem U.pde c).index j = e) := by
    intro r U c j e hs he
    obtain ⟨hp, hpe, rfl⟩ := cell_some.1 he
    have hl := (h.lowered (h.live_ne hs.task) c).like
    have hk := h.table_ne hi (hs.table hp)
    have hl2 := h.lowered hk j
    refine ⟨cell_some.2 ⟨hl.1.trans hp, ?_, ?_⟩, hl2, fun hsh => ?_⟩
    · rw [hl.2]
      exact hl2.like.1.trans hpe
    · rw [hl.2]
    · rw [h.other _ hk]
      exact h.lent.shared _ _ (htab r U c hs hp) hsh
  refine ⟨h.inv hi hheap, h.tasks, h.total, fun r U c j hs hj => ?_, fun c j h1 h2 hj => ?_, fun c j e h1 h2 hj he hsh => ?_,
    fun r U c j e hs hj he => ?_, fun c h1 h2 hp => ?_⟩
  · cases hc : cell s.mem U.pde c j with
    | some e =>
      obtain ⟨h1, h2, h3⟩ := hold r U c j e hs hc
      cases hsh : e.shared with
      | true =>
        rw [h3 hsh] at h1
        exact .inl h1
      | false =>
        rcases h2 with h2 | h2
        · rw [h2] at h1
          exact .inl h1
        · rw [h2] at h1
          exact .inr ⟨e, rfl, hsh, h1⟩
    | none =>
      refine .inl ?_
      have hl := (h.lowered (h.live_ne hs.task) c).like
      cases hu : cell u.mem U.pde c j with
      | none => rfl
      | some e =>
        obtain ⟨hp, hpe, -⟩ := cell_some.1 hu
        have hp := hl.1.symm.trans hp
        rw [hl.2] at hpe
        have hpe := (h.lowered (h.table_ne hi (hs.table hp)) j).like.1.symm.trans hpe
        rw [cell_some.2 ⟨hp, hpe, rfl⟩] at hc
        cases hc
  · unfold cell
    rw [h.pde, h.copy c (by omega), h.other pd h.pd_ne]
  · obtain ⟨p, T, rfl, hs⟩ := h.source.slot c h1 h2 (cell_some.1 he).1
    obtain ⟨h3, h4, -⟩ := hold p T c j e hs he
    obtain ⟨b, rfl⟩ := Nat.exists_eq_add_of_le h1
    obtain ⟨hp, hpe, rfl⟩ := cell_some.1 he
    have hw : (u.mem (s.mem T.pde (4 + b)).index j).write = false := by
      rw [h.other _ (h.table_ne hi (hs.table hp))]
      exact h.lent.pages b (by omega) hp j hj hpe hsh
    rw [h3]
    rcases h4 with h4 | h4
    · rw [h4] at hw ⊢
      rw [← hw]
    · rw [h4]
  · have hpg := hi.page (cell_uses hs hj he)
    have hr := (hi.range _ (.inr (cell_uses hs hj he))).1
    have hk : e.index ≠ k := by
      have := h.page.2.1
      unfold kernelFrames at hr
      omega
    rw [h.other _ hk]
    refine h.lent.other _ (fun e' => ?_) fun b hb hp e' => ?_
    · rcases h.source.struct with h1 | h1
      · exact hpg (.inl (e'.trans h1))
      · exact hpg (.inr (.inl (e' ▸ h1)))
    · obtain ⟨p, T, rfl, hs'⟩ := h.source.slot (4 + b) (by omega) (by omega) hp
      exact hpg (e' ▸ hs'.structTable hp)
  · have hp : (s.mem pd c).present = true := (h.lowered h.pd_ne c).like.1.symm.trans hp
    have hw : (t.mem pd c).write = false := by
      rw [h.lent.dir, if_pos ⟨h1, by omega, hp⟩]
    rw [h.pde, h.copy c (by omega), h.other pd h.pd_ne]
    exact ⟨hw, hw⟩

end Spawned

theorem copyPde_sat (hi : Inv s) (hsrc : Source s pd) (hk : kernelPage s k) (hq : s.tasks q = none) {N : Task} (hN : N.pde = k)
    (hheap : userExecAddr ≤ N.endAddr ∧ N.brk ≤ userMmapAddr) :
    Sat Lost (copyPde s pd k >>= fun s => pure (setTask s q (some N))) (Forked s pd q N) := by
  have hpd : ∀ c, 4 ≤ c → c < 64 → (s.mem pd c).present = true → (s.mem pd c).index ≠ pd := fun c h1 h2 hp => by
    obtain ⟨p, T, rfl, hs⟩ := hsrc.slot c h1 h2 hp
    exact hsrc.table_ne hi (hs.table hp)
  refine Sat.bind ((copyPde_lent hpd).bind fun t _ ht => Sat.ok (Q := fun u => ∃ t, Lent s pd 60 t ∧
    u = { t with mem := (t.mem.fill k (t.mem pd)).set k 1023 (entryInit k) }) ⟨t, ht, rfl⟩) ?_
  rintro u - ⟨t, ht, rfl⟩
  refine Sat.ok (Spawned.forked (k := k) (t := t) hi ⟨ht, hsrc, hk, hN, hq, fun x hx => funext fun j => ?_, fun j hj => ?_, ?_,
    fun r => ?_, rfl, ?_, ((ht.pool hi hsrc).withMem _).withTask⟩ hheap)
  · show Mem.set _ _ _ _ x j = _
    rw [Mem.set_other _ _ fun e => hx e.1, Mem.fill_other _ _ hx]
  · show Mem.set _ _ _ _ k j = _
    rw [Mem.set_other _ _ fun e => hj e.2, Mem.fill_same]
  · exact Mem.set_same ..
  · show (if r = q then some N else t.tasks r) = _
    rw [ht.rest]
  · show t.totalPages = _
    rw [ht.rest]

/-! ## `free_pde` -/

/-- The first `n` slots of a directory have been given back, and of the next one the first `m` pages. -/
structure Given (s : State) (pd n : Nat) (φ : Nat → Nat) (t : State) : Prop where
  state : t = { s with memoryMap := t.memoryMap, freePages := t.freePages }
  pool : Pool t
  count : ∀ f, t.memoryMap f + dirSum s.mem pd n (ref f) + dirSum s.mem pd n (below s.mem f) + φ f = s.memoryMap f

/-- Before the loops each frame has all the references of the directory. -/
structure Owing (s : State) (pd : Nat) : Prop where
  pool : Pool s
  range : ∀ c < 60, (s.mem pd (4 + c)).present = true → kernelFrames ≤ (s.mem pd (4 + c)).index ∧
    (s.mem pd (4 + c)).index < s.totalPages ∧ ∀ i < 1024, (s.mem (s.mem pd (4 + c)).index i).present = true →
      kernelFrames ≤ (s.mem (s.mem pd (4 + c)).index i).index ∧ (s.mem (s.mem pd (4 + c)).index i).index < s.totalPages
  count : ∀ f, kernelFrames ≤ f → dirSum s.mem pd 60 (ref f) + dirSum s.mem pd 60 (below s.mem f) ≤ s.memoryMap f

theorem dirSum_mono (m : Mem) (pd : Nat) {a b : Nat} (hab : a ≤ b) (φ : Entry → Nat) : dirSum m pd a φ ≤ dirSum m pd b φ :=
  sum_le_sum_of_subset (range_subset_range.2 hab)

theorem Given.put {φ : Nat → Nat} (h : Given s pd n φ t) (hf : kernelFrames ≤ f) (hh : f < s.totalPages) (h1 : 1 ≤ t.memoryMap f) :
    Sat Lost (putPage t f) (Given s pd n fun x => φ x + if x = f then 1 else 0) := by
  have htot : t.totalPages = s.totalPages := by rw [h.state]
  refine (putPage_sat h.pool hf (by omega) h1).mono fun u hu => ⟨?_, hu.pool, fun x => ?_⟩
  · rw [hu.state, h.state]
  · have hc := h.count x
    rw [hu.state]
    show setCount _ _ _ x + _ + _ + _ = _
    by_cases hx : x = f
    · rw [hx] at hc ⊢
      rw [setCount_same, if_pos rfl]
      omega
    · rw [setCount_other _ _ hx, if_neg hx]
      exact hc

theorem freePages_sat (ho : Owing s pd) (hn : n < 60) (h : Given s pd n (fun _ => 0) t)
    (hp : (s.mem pd (4 + n)).present = true) : ∀ m, m ≤ 1024 → Sat Lost (forRange m (freePage (s.mem pd (4 + n)).index) t)
      (Given s pd n fun f => ∑ j ∈ range m, ref f (s.mem (s.mem pd (4 + n)).index j)) := by
  intro m hm
  refine forRange_sat (fun m => Given s pd n fun f => ∑ j ∈ range m, ref f (s.mem (s.mem pd (4 + n)).index j)) m
    (fun i t hi ht => ?_) h
  have hmem : t.mem = s.mem := by rw [ht.state]
  unfold freePage
  rw [hmem]
  refine sat_ite (fun ha => Sat.ok ⟨ht.state, ht.pool, fun f => ?_⟩) fun ha => ?_
  · rw [sum_range_succ, ref_of_absent (eq_false_iff.2 ha)]
    exact ht.count f
  · have ha := not_not.1 ha
    obtain ⟨hr1, hr2⟩ := (ho.range n hn hp).2.2 i (by omega) ha
    have hone : 1 ≤ t.memoryMap (s.mem (s.mem pd (4 + n)).index i).index := by
      have h1 := ht.count (s.mem (s.mem pd (4 + n)).index i).index
      have h2 := ho.count _ hr1
      have h3 := dirSum_mono s.mem pd (show n + 1 ≤ 60 by omega) (below s.mem (s.mem (s.mem pd (4 + n)).index i).index)
      have h4 := dirSum_mono s.mem pd (show n ≤ 60 by omega) (ref (s.mem (s.mem pd (4 + n)).index i).index)
      have h5 : ∑ j ∈ range (i + 1), ref (s.mem (s.mem pd (4 + n)).index i).index (s.mem (s.mem pd (4 + n)).index j) ≤
          tableRefs s.mem (s.mem pd (4 + n)).index (s.mem (s.mem pd (4 + n)).index i).index :=
        sum_le_sum_of_subset (range_subset_range.2 (by omega))
      rw [sum_range_succ, ref_self ha] at h5
      rw [dirSum_succ, below_present hp] at h3
      omega
    rw [if_neg (by omega)]
    refine (ht.put hr1 hr2 hone).mono fun u hu => ⟨hu.state, hu.pool, fun f => ?_⟩
    have := hu.count f
    rw [sum_range_succ, ref_of_present f ha]
    exact this

set_option maxRecDepth 8000 in
theorem freeTable_sat (ho : Owing s pd) (hn : n < 60) (h : Given s pd n (fun _ => 0) t) :
    Sat Lost (freeTable pd (4 + n) t) (Given s pd (n + 1) fun _ => 0) := by
  have hm : t.mem = s.mem := by rw [h.state]
  unfold freeTable
  rw [hm]
  refine sat_ite (fun hp => Sat.ok ⟨h.state, h.pool, fun f => ?_⟩) fun hp => ?_
  · have hp := Bool.eq_false_iff.2 hp
    rw [dirSum_succ, dirSum_succ, ref_of_absent hp, below_absent hp]
    exact h.count f
  · have hp := not_not.1 hp
    obtain ⟨hr1, hr2, -⟩ := ho.range n hn hp
    refine (freePages_sat ho hn h hp 1024 le_rfl).bind ?_
    intro u _ hu
    have hone : 1 ≤ u.memoryMap (s.mem pd (4 + n)).index := by
      have h1 := hu.count (s.mem pd (4 + n)).index
      have h2 := ho.count _ hr1
      have h3 := dirSum_mono s.mem pd (show n + 1 ≤ 60 by omega) (below s.mem (s.mem pd (4 + n)).index)
      have h4 := dirSum_mono s.mem pd (show n + 1 ≤ 60 by omega) (ref (s.mem pd (4 + n)).index)
      rw [dirSum_succ, ref_self hp] at h4
      rw [dirSum_succ, below_present hp, tableRefs] at h3
      omega
    refine Sat.mono (hu.put hr1 hr2 hone) ?_
    intro v hv
    refine ⟨hv.state, hv.pool, fun f => ?_⟩
    have := hv.count f
    rw [dirSum_succ, dirSum_succ, ref_of_present f hp, below_present hp, tableRefs]
    omega

theorem freePde_given (ho : Owing s pd) : Sat Lost (freePde s pd) (Given s pd 60 fun _ => 0) :=
  forRange_sat (fun n => Given s pd n fun _ => 0) 60 (fun _ _ hn ht => freeTable_sat ho hn ht)
    ⟨rfl, ho.pool, fun f => by rw [dirSum_zero, dirSum_zero]; rfl⟩

/-- A process is gone; the pages of the others are as they were. -/
structure Exited (s : State) (p : Fin taskNr) (t : State) : Prop where
  inv : Inv t
  mem : t.mem = s.mem
  tasks : ∀ q, t.tasks q = if q = p then none else s.tasks q
  total : t.totalPages = s.totalPages

theorem exit_sat (hi : Inv s) (hp : s.tasks p = some T) : Sat Lost (freePde (setTask s p none) T.pde) (Exited s p) := by
  have hrest : ∀ φ : Entry → Nat, slotSum (setTask s p none) φ + dirSum s.mem T.pde 60 φ = slotSum s φ := fun φ => by
    have h1 : slotSum (setTask s p none) φ + taskSum s.mem φ (s.tasks p) =
        slotSum s φ + taskSum s.mem φ ((setTask s p none).tasks p) :=
      @slotSum_task φ φ s (setTask s p none) p (fun q hq => if_neg hq) fun _ _ _ _ _ => rfl
    have h2 : (setTask s p none).tasks p = none := if_pos rfl
    have h3 : taskSum s.mem φ none = 0 := rfl
    rw [hp, h2, h3, Nat.add_zero] at h1
    exact h1
  have htu : ∀ f, tableUses (setTask s p none) f + dirSum s.mem T.pde 60 (ref f) = tableUses s f := fun f => hrest _
  have hpu : ∀ f, pageUses (setTask s p none) f + dirSum s.mem T.pde 60 (below s.mem f) = pageUses s f := fun f => hrest _
  have hslot : ∀ q U c, Slot (setTask s p none) q U c → q ≠ p ∧ Slot s q U c := fun q U c hs => by
    have ht : (if q = p then none else s.tasks q) = some U := hs.task
    by_cases hq : q = p
    · rw [if_pos hq] at ht
      cases ht
    · rw [if_neg hq] at ht
      exact ⟨hq, ht, hs.low, hs.high⟩
  have ho : Owing (setTask s p none) T.pde := by
    refine ⟨hi.pool.withTask, fun c hc hpc => ?_, fun f hf => ?_⟩
    · have hs : Slot s p T (4 + c) := ⟨hp, by omega, by omega⟩
      obtain ⟨h1, h2⟩ := hi.range _ (.inl (hs.table hpc))
      exact ⟨h1, h2, fun i hlt hpi => hi.range _ (.inr (hs.page hpc hlt hpi))⟩
    · have h1 := htu f
      have h2 := hpu f
      have h3 := hi.count f hf
      show dirSum s.mem T.pde 60 (ref f) + dirSum s.mem T.pde 60 (below s.mem f) ≤ s.memoryMap f
      omega
  refine Sat.mono (freePde_given ho) ?_
  intro t ht
  have hm : t.mem = s.mem := by rw [ht.state]; rfl
  have htk : t.tasks = (setTask s p none).tasks := by rw [ht.state]
  have htot : t.totalPages = s.totalPages := by rw [ht.state]; rfl
  have htut : ∀ f, tableUses t f = tableUses (setTask s p none) f := fun f =>
    slotSum_congr htk fun _ _ _ _ => by rw [hm]; rfl
  have hput : ∀ f, pageUses t f = pageUses (setTask s p none) f := fun f =>
    slotSum_congr htk fun _ _ _ _ => by rw [hm]; rfl
  have hslot' : ∀ q U c, Slot t q U c → q ≠ p ∧ Slot s q U c := fun q U c hs => hslot q U c (hs.congr htk)
  have htask : ∀ q U, t.tasks q = some U → q ≠ p ∧ s.tasks q = some U := fun q U hq => by
    obtain ⟨h1, h2⟩ := hslot' q U 4 ⟨hq, by omega, by omega⟩
    exact ⟨h1, h2.task⟩
  refine ⟨⟨⟨fun q U hq => ?_, fun q r U V hq hr he => hi.apart q r U V (htask q U hq).2 (htask r V hr).2 he,
    fun q U hq => hi.heap q U (htask q U hq).2, fun d h1 h2 => ?_, fun q U c hs hpq => ?_, fun q U c r V b hs hr h1 h2 he => ?_,
    fun f hf => ?_, fun f => ?_⟩, ht.pool, fun f hf => ?_⟩, hm, fun q => by rw [htk]; rfl, htot⟩
  · rw [hm]
    exact hi.dir q U (htask q U hq).2
  · rw [hm]
    exact hi.kernel d h1 h2
  · have h3 := hs.table hpq
    rw [hm] at hpq h3 ⊢
    obtain ⟨h1, h2⟩ := hi.slot q U c (hslot' q U c hs).2 hpq
    refine ⟨h1, fun hw => ?_⟩
    have h4 := htu (s.mem U.pde c).index
    have h5 := h2 hw
    rw [htut] at h3 ⊢
    omega
  · rw [hm] at h1 h2 he
    exact hi.once q U c r V b (hslot' q U c hs).2 (hslot' r V b hr).2 h1 h2 he
  · rw [htut, hput] at hf
    rw [htot]
    have h1 := htu f
    have h2 := hpu f
    exact hi.range f (hf.imp (by omega) (by omega))
  · rw [htut, hput]
    have h1 := htu f
    have h2 := hpu f
    exact (hi.kinds f).imp (by omega) (by omega)
  · have h1 := htu f
    have h2 := hpu f
    have h3 := ht.count f
    have h4 := hi.count f hf
    rw [htut, hput]
    have h5 : t.memoryMap f + dirSum s.mem T.pde 60 (ref f) + dirSum s.mem T.pde 60 (below s.mem f) + 0 = s.memoryMap f := h3
    omega

end Onix.Memory
