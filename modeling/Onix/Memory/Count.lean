/-
What refers to a frame: the user slots of the live page directories and the entries of their tables.
A change at one slot, or at one entry of a table that one slot alone uses, changes the sums by that
slot or entry.
-/
import Mathlib.Algebra.BigOperators.Intervals
import Mathlib.Algebra.Order.BigOperators.Group.Finset
import Onix.Memory.Model

namespace Onix.Memory

open Finset Onix.Lib

/-! ## References -/

def ref (f : Nat) (e : Entry) : Nat := if e.present = true ∧ e.index = f then 1 else 0

def tableRefs (m : Mem) (g f : Nat) : Nat := ∑ t ∈ Finset.range 1024, ref f (m g t)

def below (m : Mem) (f : Nat) (e : Entry) : Nat := if e.present = true then tableRefs m e.index f else 0

/-- The sum of `φ` over the first `n` user slots of the directory `pd`. -/
def dirSum (m : Mem) (pd n : Nat) (φ : Entry → Nat) : Nat := ∑ i ∈ Finset.range n, φ (m pd (4 + i))

def taskSum (m : Mem) (φ : Entry → Nat) : Option Task → Nat
  | none => 0
  | some t => dirSum m t.pde 60 φ

def slotSum (s : State) (φ : Entry → Nat) : Nat := ∑ p : Fin taskNr, taskSum s.mem φ (s.tasks p)

/-- The pairs of a live process and a user slot that use `f` as a page table. -/
def tableUses (s : State) (f : Nat) : Nat := slotSum s (ref f)

/-- The pairs of a live process and a user page that are translated to `f`. -/
def pageUses (s : State) (f : Nat) : Nat := slotSum s (below s.mem f)

structure Slot (s : State) (p : Fin taskNr) (t : Task) (d : Nat) : Prop where
  task : s.tasks p = some t
  low : 4 ≤ d
  high : d < 64

/-! ## Sums -/

theorem sum_one {ι : Type} [DecidableEq ι] {S : Finset ι} {i : ι} (φ ψ : ι → Nat) (hi : i ∈ S)
    (h : ∀ j ∈ S, j ≠ i → ψ j = φ j) : ∑ j ∈ S, ψ j + φ i = ∑ j ∈ S, φ j + ψ i := by
  have e : ∑ j ∈ S.erase i, ψ j = ∑ j ∈ S.erase i, φ j :=
    sum_congr rfl fun j hj => h j (mem_of_mem_erase hj) (ne_of_mem_erase hj)
  have e1 := add_sum_erase S φ hi
  have e2 := add_sum_erase S ψ hi
  omega

theorem two_le_sum {ι : Type} [DecidableEq ι] {S : Finset ι} {i j : ι} (hi : i ∈ S) (hj : j ∈ S) (h : j ≠ i) (φ : ι → Nat) :
    φ i + φ j ≤ ∑ k ∈ S, φ k := by
  rw [← add_sum_erase S φ hi]
  exact Nat.add_le_add_left (single_le_sum (f := φ) (fun _ _ => Nat.zero_le _) (mem_erase.2 ⟨h, hj⟩)) _

variable {φ φ' : Entry → Nat} {m m' : Mem} {pd n : Nat}

theorem dirSum_congr {pd' : Nat}
    (h : ∀ i < n, φ' (m' pd' (4 + i)) = φ (m pd (4 + i))) : dirSum m' pd' n φ' = dirSum m pd n φ :=
  sum_congr rfl fun i hi => h i (mem_range.1 hi)

theorem dirSum_zero (m : Mem) (pd : Nat) (φ : Entry → Nat) : dirSum m pd 0 φ = 0 := rfl

theorem dirSum_succ (m : Mem) (pd n : Nat) (φ : Entry → Nat) :
    dirSum m pd (n + 1) φ = dirSum m pd n φ + φ (m pd (4 + n)) := sum_range_succ _ n

variable {c : Nat}

theorem dirSum_one (hc : c < n)
    (h : ∀ i < n, i ≠ c → φ' (m' pd (4 + i)) = φ (m pd (4 + i))) :
    dirSum m' pd n φ' + φ (m pd (4 + c)) = dirSum m pd n φ + φ' (m' pd (4 + c)) :=
  sum_one _ _ (mem_range.2 hc) fun i hi => h i (mem_range.1 hi)

variable {s s' : State}

theorem slotSum_congr (ht : s'.tasks = s.tasks)
    (h : ∀ p t d, Slot s p t d → φ' (s'.mem t.pde d) = φ (s.mem t.pde d)) : slotSum s' φ' = slotSum s φ := by
  unfold slotSum
  rw [ht]
  refine Fintype.sum_congr _ _ fun p => ?_
  cases hp : s.tasks p with
  | none => rfl
  | some t => exact dirSum_congr fun i hi => h p t (4 + i) ⟨hp, by omega, by omega⟩

variable {p : Fin taskNr}

theorem slotSum_task
    (h : ∀ q, q ≠ p → s'.tasks q = s.tasks q)
    (hφ : ∀ q t d, Slot s q t d → q ≠ p → φ' (s'.mem t.pde d) = φ (s.mem t.pde d)) :
    slotSum s' φ' + taskSum s.mem φ (s.tasks p) = slotSum s φ + taskSum s'.mem φ' (s'.tasks p) := by
  refine sum_one (fun q => taskSum s.mem φ (s.tasks q)) (fun q => taskSum s'.mem φ' (s'.tasks q))
    (mem_univ p) fun q _ hq => ?_
  rw [h q hq]
  cases hs : s.tasks q with
  | none => rfl
  | some t => exact dirSum_congr fun i hi => hφ q t (4 + i) ⟨hs, by omega, by omega⟩ hq

variable {d : Nat} {t : Task}

theorem slotSum_one (hs : Slot s p t d)
    (ht : s'.tasks = s.tasks)
    (h : ∀ q u c, Slot s q u c → ¬ (q = p ∧ c = d) → φ' (s'.mem u.pde c) = φ (s.mem u.pde c)) :
    slotSum s' φ' + φ (s.mem t.pde d) = slotSum s φ + φ' (s'.mem t.pde d) := by
  obtain ⟨hp, hd1, hd2⟩ := hs
  obtain ⟨c, rfl⟩ := Nat.exists_eq_add_of_le hd1
  have e1 : slotSum s' φ' + dirSum s.mem t.pde 60 φ = slotSum s φ + dirSum s'.mem t.pde 60 φ' := by
    have e := slotSum_task (s := s) (p := p) (fun q _ => by rw [ht]) fun q u c hq hne => h q u c hq fun e => hne e.1
    rw [ht, hp] at e
    exact e
  have e2 : dirSum s'.mem t.pde 60 φ' + φ (s.mem t.pde (4 + c)) = dirSum s.mem t.pde 60 φ + φ' (s'.mem t.pde (4 + c)) :=
    dirSum_one (by omega) fun i hi hne => h p t (4 + i) ⟨hp, by omega, by omega⟩ fun e => hne (by omega)
  omega

theorem dirSum_le (hc : c < n) : φ (m pd (4 + c)) ≤ dirSum m pd n φ :=
  single_le_sum (f := fun i => φ (m pd (4 + i))) (fun _ _ => Nat.zero_le _) (mem_range.2 hc)

theorem taskSum_le (p : Fin taskNr) : taskSum s.mem φ (s.tasks p) ≤ slotSum s φ :=
  single_le_sum (f := fun q => taskSum s.mem φ (s.tasks q)) (fun _ _ => Nat.zero_le _) (mem_univ p)

theorem slot_le (hs : Slot s p t d) :
    φ (s.mem t.pde d) ≤ slotSum s φ := by
  obtain ⟨hp, hd1, hd2⟩ := hs
  obtain ⟨c, rfl⟩ := Nat.exists_eq_add_of_le hd1
  have e1 : taskSum s.mem φ (s.tasks p) ≤ slotSum s φ := taskSum_le p
  rw [hp] at e1
  exact (dirSum_le (by omega)).trans e1

theorem two_slots_le {q : Fin taskNr} {u : Task} (hs : Slot s p t d)
    (hq : Slot s q u c) (hne : ¬ (q = p ∧ c = d)) : φ (s.mem t.pde d) + φ (s.mem u.pde c) ≤ slotSum s φ := by
  obtain ⟨hp, hd1, hd2⟩ := hs
  obtain ⟨hu, hc1, hc2⟩ := hq
  obtain ⟨d, rfl⟩ := Nat.exists_eq_add_of_le hd1
  obtain ⟨c, rfl⟩ := Nat.exists_eq_add_of_le hc1
  by_cases e : q = p
  · subst e
    have := hp.symm.trans hu
    injection this with this
    subst this
    have e1 : taskSum s.mem φ (s.tasks q) ≤ slotSum s φ := taskSum_le q
    rw [hp] at e1
    exact (two_le_sum (mem_range.2 (show d < 60 by omega)) (mem_range.2 (show c < 60 by omega))
      (fun e => hne ⟨rfl, by omega⟩) fun i => φ (s.mem t.pde (4 + i))).trans e1
  · have e1 := two_le_sum (mem_univ p) (mem_univ q) e fun r => taskSum s.mem φ (s.tasks r)
    have e2 : φ (s.mem t.pde (4 + d)) ≤ taskSum s.mem φ (s.tasks p) := by
      rw [hp]
      exact dirSum_le (by omega)
    have e3 : φ (s.mem u.pde (4 + c)) ≤ taskSum s.mem φ (s.tasks q) := by
      rw [hu]
      exact dirSum_le (by omega)
    exact (Nat.add_le_add e2 e3).trans e1

/-! ## Entries and tables -/

variable {e : Entry}

theorem ref_of_present (f : Nat) (h : e.present = true) : ref f e = if f = e.index then 1 else 0 := by
  unfold ref
  by_cases hf : f = e.index
  · rw [if_pos hf, if_pos ⟨h, hf.symm⟩]
  · rw [if_neg hf, if_neg fun he => hf he.2.symm]

theorem ref_self (h : e.present = true) : ref e.index e = 1 := by
  unfold ref
  rw [if_pos ⟨h, rfl⟩]

variable {f : Nat}

theorem ref_of_absent (h : e.present = false) : ref f e = 0 := by
  unfold ref
  rw [if_neg (by rw [h]; rintro ⟨⟨⟩, -⟩)]

theorem ref_congr {e' : Entry} (f : Nat) (h1 : e'.present = e.present) (h2 : e'.index = e.index) : ref f e' = ref f e := by
  unfold ref
  rw [h1, h2]

theorem below_absent (h : e.present = false) : below m f e = 0 := by
  unfold below
  rw [if_neg (by rw [h]; decide)]

theorem below_present (h : e.present = true) : below m f e = tableRefs m e.index f := by
  unfold below
  rw [if_pos h]

variable {g i : Nat}

theorem tableRefs_ge (hi : i < 1024) (h : (m g i).present = true) :
    1 ≤ tableRefs m g (m g i).index := by
  rw [← ref_self h]
  exact single_le_sum (f := fun t => ref (m g i).index (m g t)) (fun _ _ => Nat.zero_le _) (mem_range.2 hi)

theorem tableRefs_congr {g' : Nat} (f : Nat)
    (h : ∀ i < 1024, (m' g' i).present = (m g i).present ∧ (m' g' i).index = (m g i).index) :
    tableRefs m' g' f = tableRefs m g f :=
  sum_congr rfl fun i hi => ref_congr f (h i (mem_range.1 hi)).1 (h i (mem_range.1 hi)).2

theorem tableRefs_one (hi : i < 1024) (f : Nat) (h : ∀ j < 1024, j ≠ i → m' g j = m g j) :
    tableRefs m' g f + ref f (m g i) = tableRefs m g f + ref f (m' g i) := by
  unfold tableRefs
  rw [← add_sum_erase _ _ (mem_range.2 hi), ← add_sum_erase _ _ (mem_range.2 hi)]
  have e : ∑ j ∈ (range 1024).erase i, ref f (m' g j) = ∑ j ∈ (range 1024).erase i, ref f (m g j) := by
    refine sum_congr rfl fun j hj => ?_
    obtain ⟨hne, hj⟩ := mem_erase.1 hj
    rw [h j (mem_range.1 hj) hne]
  omega

theorem Slot.table (hs : Slot s p t d)
    (h : (s.mem t.pde d).present = true) : 1 ≤ tableUses s (s.mem t.pde d).index := by
  rw [← ref_self h]
  exact slot_le hs

theorem Slot.page (hs : Slot s p t d)
    (h : (s.mem t.pde d).present = true) (hi : i < 1024) (hp : (s.mem (s.mem t.pde d).index i).present = true) :
    1 ≤ pageUses s (s.mem (s.mem t.pde d).index i).index := by
  refine (tableRefs_ge hi hp).trans ?_
  rw [← below_present h]
  exact slot_le hs

/-! ## Addresses and entries -/

theorem didx_entryAddr (v : Nat) : didx (entryAddr v) = 1023 := by
  unfold didx entryAddr
  omega

theorem tidx_entryAddr (v : Nat) : tidx (entryAddr v) = didx v := by
  unfold tidx entryAddr didx
  omega

theorem tidx_lt (v : Nat) : tidx v < 1024 := by
  unfold tidx
  omega

theorem didx_user {v : Nat} (h1 : userExecAddr ≤ v) (h2 : v < userStackTop) : 4 ≤ didx v ∧ didx v < 64 := by
  unfold didx
  unfold userExecAddr at h1
  unfold userStackTop at h2
  omega

theorem Mem.set_same (m : Mem) (f i : Nat) (w : Entry) : m.set f i w f i = w := by
  unfold Mem.set
  rw [if_pos ⟨rfl, rfl⟩]

theorem Mem.set_other (m : Mem) {j : Nat} (w : Entry) (h : ¬ (g = f ∧ j = i)) : m.set f i w g j = m g j := by
  unfold Mem.set
  rw [if_neg h]

theorem Mem.fill_same (m : Mem) (f : Nat) (c : Nat → Entry) : m.fill f c f = c := by
  unfold Mem.fill
  rw [if_pos rfl]

theorem Mem.fill_other (m : Mem) (c : Nat → Entry) (h : g ≠ f) : m.fill f c g = m g := by
  unfold Mem.fill
  rw [if_neg h]

theorem setCount_same (c : Nat → Nat) (f n : Nat) : setCount c f n f = n := by
  unfold setCount
  rw [if_pos rfl]

theorem setCount_move {c : Nat → Nat} (hfg : f ≠ g) (hf : c f ≠ 0) (hg : c g = 0) (x : Nat) :
    setCount (setCount c g 1) f (setCount c g 1 f - 1) x + (if x = f then 1 else 0) = c x + if x = g then 1 else 0 := by
  unfold setCount
  by_cases hx : x = f
  · subst hx
    rw [if_pos rfl, if_neg hfg, if_pos rfl, if_neg hfg]
    omega
  · rw [if_neg hx, if_neg hx]
    by_cases hxg : x = g
    · rw [if_pos hxg, if_pos hxg, hxg, hg]
    · rw [if_neg hxg, if_neg hxg]

theorem setCount_other (c : Nat → Nat) (n : Nat) (h : g ≠ f) : setCount c f n g = c g := by
  unfold setCount
  rw [if_neg h]

end Onix.Memory
