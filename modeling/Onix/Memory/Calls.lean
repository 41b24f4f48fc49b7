/-
The system calls page by page: what a change of one page keeps, `sys_brk`, `sys_mmap` and
`sys_munmap` keep. With them every step of a process in user space keeps the books.
-/
import Onix.Memory.Fork

namespace Onix.Memory

open Finset Onix.Lib

variable {s t u : State} {p q : Fin taskNr} {T U N : Task} {f g v d i n lo hi : Nat} {e w : Entry} {J : Nat → State → Prop}

def InUser (v : Nat) : Prop := userExecAddr ≤ v ∧ v < userStackTop

theorem InUser.slot (h : InUser v) (hp : s.tasks p = some T) : Slot s p T (didx v) :=
  ⟨hp, (didx_user h.1 h.2).1, (didx_user h.1 h.2).2⟩

variable {a : Nat}

theorem same_page (ha : a < userStackTop) (hv : v < userStackTop) : didx a = didx v ∧ tidx a = tidx v ↔ a / 0x1000 = v / 0x1000 := by
  unfold didx tidx
  unfold userStackTop at ha hv
  omega

/-! ## The record of a task -/

theorem setTask_same (s : State) (p : Fin taskNr) (t : Option Task) : (setTask s p t).tasks p = t := if_pos rfl

theorem setTask_other (s : State) {p q : Fin taskNr} (t : Option Task) (h : q ≠ p) : (setTask s p t).tasks q = s.tasks q :=
  if_neg h

theorem setTask_slot (hp : s.tasks p = some T) (hN : N.pde = T.pde) (h : Slot (setTask s p (some N)) q U d) :
    ∃ V, Slot s q V d ∧ V.pde = U.pde := by
  have ht := h.task
  by_cases hq : q = p
  · subst hq
    rw [setTask_same] at ht
    cases ht
    exact ⟨T, ⟨hp, h.low, h.high⟩, hN.symm⟩
  · rw [setTask_other _ _ hq] at ht
    exact ⟨U, ⟨ht, h.low, h.high⟩, rfl⟩

theorem Inv.setTask (h : Inv s) (hp : s.tasks p = some T) (hN : N.pde = T.pde)
    (hheap : userExecAddr ≤ N.endAddr ∧ N.brk ≤ userMmapAddr) : Inv (setTask s p (some N)) := by
  have hsum : ∀ φ : Entry → Nat, slotSum (Memory.setTask s p (some N)) φ = slotSum s φ := fun φ => by
    have h1 : slotSum (Memory.setTask s p (some N)) φ + taskSum s.mem φ (s.tasks p) =
        slotSum s φ + taskSum s.mem φ ((Memory.setTask s p (some N)).tasks p) :=
      @slotSum_task φ φ s (Memory.setTask s p (some N)) p (fun q hq => setTask_other _ _ hq) fun _ _ _ _ _ => rfl
    have h2 : taskSum s.mem φ (some N) = taskSum s.mem φ (some T) := by
      show dirSum s.mem N.pde 60 φ = dirSum s.mem T.pde 60 φ
      rw [hN]
    rw [hp, setTask_same, h2] at h1
    exact Nat.add_right_cancel h1
  have htu : ∀ f, tableUses (Memory.setTask s p (some N)) f = tableUses s f := fun f => hsum _
  have hpu : ∀ f, pageUses (Memory.setTask s p (some N)) f = pageUses s f := fun f => hsum _
  have htask : ∀ q U, (Memory.setTask s p (some N)).tasks q = some U → ∃ V, s.tasks q = some V ∧ V.pde = U.pde := fun q U hq => by
    obtain ⟨V, hV, he⟩ := setTask_slot (d := 4) hp hN ⟨hq, by omega, by omega⟩
    exact ⟨V, hV.task, he⟩
  refine ⟨⟨fun q U hq => ?_, fun q r U V hq hr he => ?_, fun q U hq => ?_, h.kernel, fun q U c hs hpq => ?_,
    fun q U c r V b hs hr h1 h2 he => ?_, fun f hf => ?_, fun f => ?_⟩, h.pool.withTask, fun f hf => ?_⟩
  · obtain ⟨V, hV, e⟩ := htask q U hq
    rw [← e]
    exact h.dir q V hV
  · obtain ⟨U', hU, e1⟩ := htask q U hq
    obtain ⟨V', hV, e2⟩ := htask r V hr
    exact h.apart q r U' V' hU hV (e1.trans (he.trans e2.symm))
  · by_cases hqp : q = p
    · subst hqp
      rw [setTask_same] at hq
      cases hq
      exact hheap
    · rw [setTask_other _ _ hqp] at hq
      exact h.heap q U hq
  · obtain ⟨V, hV, e⟩ := setTask_slot hp hN hs
    rw [htu]
    rw [← e] at hpq ⊢
    exact h.slot q V c hV hpq
  · obtain ⟨U', hU, e1⟩ := setTask_slot hp hN hs
    obtain ⟨V', hV, e2⟩ := setTask_slot hp hN hr
    rw [← e1] at h1 he
    rw [← e2] at h2 he
    exact h.once q U' c r V' b hU hV h1 h2 he
  · rw [htu, hpu] at hf
    exact h.range f hf
  · rw [htu, hpu]
    exact h.kinds f
  · rw [htu, hpu]
    exact h.count f hf

/-! ## Page after page -/

/-- What the loops over pages keep. -/
structure Loop (J : Nat → State → Prop) (s : State) (v : Nat) (t : State) : Prop where
  inv : Inv t
  goal : J v t
  tasks : t.tasks = s.tasks

theorem unlinkPages_sat (hlo : userExecAddr ≤ lo) (hhi : hi ≤ userStackTop)
    (hJ : ∀ s t v, Inv s → J v s → s.tasks p = some T → lo ≤ v → v < hi → Removed s p T v t → J (v + 0x1000) t) :
    ∀ n v s, Inv s → J v s → s.tasks p = some T → lo ≤ v → v + n * 0x1000 ≤ hi →
      Sat Lost (unlinkPages T.pde n v s) (Loop J s (v + n * 0x1000))
  | 0, v, s, h, hj, hp, _, _ => by
    exact Sat.ok ⟨h, hj, rfl⟩
  | n + 1, v, s, h, hj, hp, h1, h2 => by
    rw [show v + (n + 1) * 0x1000 = v + 0x1000 + n * 0x1000 by omega]
    refine (unlinkPage_sat h (InUser.slot ⟨by omega, by omega⟩ hp)).bind fun t _ ht => ?_
    have hpt : t.tasks p = some T := by rw [ht.keeps.tasks, hp]
    refine (unlinkPages_sat hlo hhi hJ n (v + 0x1000) t ht.inv (hJ s t v h hj hp h1 (by omega) ht) hpt (by omega)
      (by omega)).mono fun u hu => ⟨hu.inv, hu.goal, hu.tasks.trans ht.keeps.tasks⟩

theorem munmapPages_sat (hlo : userExecAddr ≤ lo) (hhi : hi ≤ userStackTop)
    (hJ : ∀ s t v, Inv s → J v s → s.tasks p = some T → lo ≤ v → v < hi → Removed s p T v t → J (v + 0x1000) t) :
    ∀ n v vmap s, Inv s → J v s → s.tasks p = some T → lo ≤ v → v + n * 0x1000 ≤ hi →
      Sat Lost (munmapPages T.pde n v vmap s) (Loop J s (v + n * 0x1000))
  | 0, v, _, s, h, hj, hp, _, _ => by
    exact Sat.ok ⟨h, hj, rfl⟩
  | n + 1, v, vmap, s, h, hj, hp, h1, h2 => by
    rw [show v + (n + 1) * 0x1000 = v + 0x1000 + n * 0x1000 by omega]
    refine (unlinkPage_sat h (InUser.slot ⟨by omega, by omega⟩ hp)).bind fun t _ ht => ?_
    have hpt : t.tasks p = some T := by rw [ht.keeps.tasks, hp]
    refine sat_ite (fun _ => Sat.error (by rintro (h | h | h) <;> cases h)) fun _ => ?_
    refine (munmapPages_sat hlo hhi hJ n (v + 0x1000) vmap t ht.inv (hJ s t v h hj hp h1 (by omega) ht) hpt (by omega)
      (by omega)).mono fun u hu => ⟨hu.inv, hu.goal, hu.tasks.trans ht.keeps.tasks⟩

variable {write shared privat : Bool}

theorem mmapPages_sat (hlo : userExecAddr ≤ lo) (hhi : hi ≤ userStackTop)
    (hJ : ∀ s t v, Inv s → J v s → s.tasks p = some T → lo ≤ v → v < hi → Mapped s p T v write shared privat t →
      J (v + 0x1000) t) :
    ∀ n v s, Inv s → J v s → s.tasks p = some T → lo ≤ v → v + n * 0x1000 ≤ hi →
      Sat Lost (mmapPages T.pde write shared privat n v s) (Loop J s (v + n * 0x1000))
  | 0, v, s, h, hj, hp, _, _ => by
    exact Sat.ok ⟨h, hj, rfl⟩
  | n + 1, v, s, h, hj, hp, h1, h2 => by
    rw [show v + (n + 1) * 0x1000 = v + 0x1000 + n * 0x1000 by omega]
    refine (mmapPage_sat h (InUser.slot ⟨by omega, by omega⟩ hp) write shared privat).bind fun t _ ht => ?_
    have hr : Inv t ∧ t.tasks = s.tasks := by
      cases ht with
      | new g hi hk => exact ⟨hi, hk.tasks⟩
      | old e hi _ ht =>
        subst ht
        exact ⟨hi, rfl⟩
    have hpt : t.tasks p = some T := by rw [hr.2, hp]
    refine (mmapPages_sat hlo hhi hJ n (v + 0x1000) t hr.1 (hJ s t v h hj hp h1 (by omega) ht) hpt (by omega)
      (by omega)).mono fun u hu => ⟨hu.inv, hu.goal, hu.tasks.trans hr.2⟩

theorem munmapPages_range {pd : Nat} : ∀ n v vmap s t, v % 0x1000 = 0 → munmapPages pd n v vmap s = .ok t →
    n = 0 ∨ v + n * 0x1000 ≤ userStackTop
  | 0, _, _, _, _, _, _ => .inl rfl
  | n + 1, v, vmap, s, t, hv, h => by
    obtain ⟨s1, -, h⟩ := bind_ok h
    split at h
    · cases h
    · rename_i hn
      have hlt : v / 0x1000 < 0x10000 := by
        by_contra hc
        exact hn (.inl (by omega))
      unfold userStackTop
      rcases munmapPages_range n _ _ _ _ (by omega) h with h0 | h0
      · omega
      · unfold userStackTop at h0
        omega

def Fits (T : Task) (addr length : Nat) : Prop :=
  ∀ a, mmapAddr T addr length = some a → a + pageCount length * 0x1000 ≤ userStackTop

/-! ## Steps in user space -/

def UserSpace (s : State) : Act → Prop
  | .link _ v | .unlink _ v | .store _ v _ _ | .kernelStore _ v _ _ _ => InUser v
  | .mmap p v length _ _ _ => ∀ T, s.tasks p = some T → Fits T v length
  | _ => True

theorem withTask_sat {F : Task → Except Fault State} {Q : State → Prop} (h : ∀ T, s.tasks p = some T → Sat Lost (F T) Q) :
    Sat Lost (withTask s p F) Q := by
  unfold withTask
  cases hp : s.tasks p with
  | none => exact Sat.error (by rintro (h | h | h) <;> cases h)
  | some T => exact h T hp

theorem userExec_le : userExecAddr ≤ userMmapAddr := by decide

theorem not_lost : ∀ e, e = Fault.align ∨ e = Fault.range ∨ e = Fault.bitmap → ¬ Lost e := by
  rintro e (rfl | rfl | rfl) (h | h | h) <;> cases h

variable {K : State → Prop}

theorem sysBrk_sat (hi : Inv s) (hk : K s) (hp : s.tasks p = some T)
    (hK : ∀ s t v, Inv s → K s → s.tasks p = some T → userExecAddr ≤ v → v < userMmapAddr → Removed s p T v t → K t)
    (hset : ∀ t N, Inv t → K t → t.tasks p = some T → N.pde = T.pde → K (setTask t p (some N))) :
    Sat Lost (sysBrk s p T v) fun t => Inv t ∧ K t := by
  have hend := hi.heap p T hp
  refine sat_ite (fun _ => Sat.error (not_lost _ (.inl rfl))) fun ha => ?_
  refine sat_ite (fun _ => Sat.error (not_lost _ (.inr (.inl rfl)))) fun hr => ?_
  rw [not_not] at hr
  refine sat_ite (fun hlt => ?_) fun _ => ?_
  · have hcount : v + (T.brk - v + 0xFFF) / 0x1000 * 0x1000 ≤ userMmapAddr := by
      unfold userMmapAddr at hend hr ⊢
      omega
    refine (unlinkPages_sat (J := fun _ => K) (le_refl userExecAddr) (by decide) hK _ v s hi hk hp (by omega)
      hcount).bind fun t _ ht => ?_
    have hpt : t.tasks p = some T := by rw [ht.tasks, hp]
    exact Sat.ok ⟨ht.inv.setTask hpt rfl ⟨hend.1, hr.2⟩, hset t _ ht.inv ht.goal hpt rfl⟩
  · exact sat_ite (fun _ => Sat.ok ⟨hi, hk⟩) fun _ => Sat.ok ⟨hi.setTask hp rfl ⟨hend.1, hr.2⟩, hset s _ hi hk hp rfl⟩

variable {length : Nat}

theorem sysMunmap_sat (hi : Inv s) (hj : J v s) (hp : s.tasks p = some T)
    (hr : v + pageCount length * 0x1000 ≤ userStackTop)
    (hJ : ∀ s t w, Inv s → J w s → s.tasks p = some T → v ≤ w → w < v + pageCount length * 0x1000 → Removed s p T w t →
      J (w + 0x1000) t)
    (hset : ∀ t N, Inv t → J (v + pageCount length * 0x1000) t → t.tasks p = some T → N.pde = T.pde → K (setTask t p (some N))) :
    Sat Lost (sysMunmap s p T v length) fun t => Inv t ∧ K t := by
  have hend := hi.heap p T hp
  refine sat_ite (fun _ => Sat.error (not_lost _ (.inr (.inl rfl)))) fun ha => ?_
  refine sat_ite (fun _ => Sat.error (not_lost _ (.inl rfl))) fun _ => ?_
  have hlo : userExecAddr ≤ v := by
    have := userExec_le
    omega
  refine (munmapPages_sat hlo hr hJ _ v T.vmap s hi hj hp le_rfl le_rfl).bind fun t _ ht => ?_
  have hpt : t.tasks p = some T := by rw [ht.tasks, hp]
  exact Sat.ok ⟨ht.inv.setTask hpt rfl hend, hset t _ ht.inv ht.goal hpt rfl⟩

theorem mmapAddr_aligned (hv : v % 0x1000 = 0) (ha : mmapAddr T v length = some a) : a % 0x1000 = 0 := by
  unfold mmapAddr at ha
  split at ha
  · cases ha
    exact hv
  · split at ha
    · cases ha
    · obtain ⟨b, -, rfl⟩ := Option.map_eq_some_iff.1 ha
      exact Nat.mul_mod_left b 0x1000

theorem sysMmap_sat (hi : Inv s) (hp : s.tasks p = some T)
    (ha : mmapAddr T v length = some a) (hr : a + pageCount length * 0x1000 ≤ userStackTop) (hj : J (a / 0x1000) s)
    (hJ : ∀ s t w, Inv s → J (w / 0x1000) s → s.tasks p = some T → InUser w → a / 0x1000 ≤ w / 0x1000 →
      w / 0x1000 < a / 0x1000 + pageCount length → Mapped s p T w write shared privat t → J (w / 0x1000 + 1) t)
    (hset : ∀ t N, Inv t → J (a / 0x1000 + pageCount length) t → t.tasks p = some T → N.pde = T.pde → K (setTask t p (some N))) :
    Sat Lost (sysMmap s p T v length write shared privat) fun t => Inv t ∧ K t := by
  have hend := hi.heap p T hp
  refine sat_ite (fun _ => Sat.error (not_lost _ (.inl rfl))) fun hv => ?_
  have hal := mmapAddr_aligned (not_not.1 hv) ha
  rw [ha]
  refine sat_ite (fun _ => Sat.error (not_lost _ (.inr (.inl rfl)))) fun hn => ?_
  have hlo : userExecAddr ≤ a := by
    have := userExec_le
    omega
  refine (mmapPages_sat (J := fun w => J (w / 0x1000)) hlo hr (fun s t w hi hj hp h1 h2 ht => ?_) _ a s hi hj hp le_rfl
    le_rfl).bind fun t _ ht => ?_
  · rw [show (w + 0x1000) / 0x1000 = w / 0x1000 + 1 by omega]
    exact hJ s t w hi hj hp ⟨by omega, by omega⟩ (by omega) (by omega) ht
  · have hpt : t.tasks p = some T := by rw [ht.tasks, hp]
    have hj := ht.goal
    rw [show (a + pageCount length * 0x1000) / 0x1000 = a / 0x1000 + pageCount length by omega] at hj
    exact Sat.ok ⟨ht.inv.setTask hpt rfl hend, hset t _ ht.inv hj hpt rfl⟩

theorem sysMmap_none {Q : State → Prop} (ha : mmapAddr T v length = none) :
    Sat Lost (sysMmap s p T v length write shared privat) Q := by
  refine sat_ite (fun _ => Sat.error (not_lost _ (.inl rfl))) fun _ => ?_
  rw [ha]
  exact Sat.error (not_lost _ (.inr (.inr rfl)))

theorem Inv.store (h : Inv s) (hs : Slot s p T (didx v)) (he : cell s.mem T.pde (didx v) (tidx v) = some e) (w : Entry) :
    Inv { s with mem := s.mem.set e.index i w } :=
  h.contents fun _ hx => funext fun _ => Mem.set_other _ _ fun e' => h.page (cell_uses hs (tidx_lt v) he) (e'.1 ▸ hx)

theorem sysMunmap_range (h : sysMunmap s p T v length = .ok t) : v + pageCount length * 0x1000 ≤ userStackTop := by
  unfold sysMunmap at h
  split at h
  · cases h
  rename_i hr
  split at h
  · cases h
  rename_i ha
  obtain ⟨u, hu, -⟩ := bind_ok h
  rcases munmapPages_range _ _ _ _ _ (not_not.1 ha) hu with h0 | h0
  · rw [h0]
    unfold userStackTop
    unfold userStackBottom userStackTop at hr
    omega
  · exact h0

/-- A step ends in user space when the pages of its `sys_munmap` do. -/
def Ends (_ : State) : Act → Prop
  | .munmap _ v length => v + pageCount length * 0x1000 ≤ userStackTop
  | _ => True

theorem memoryAccess_cell {pd : Nat} {user : Bool} (h : memoryAccess s pd v write user = true) :
    ∃ e, cell s.mem pd (didx v) (tidx v) = some e ∧ (write = true → e.readonly = false) := by
  unfold memoryAccess at h
  simp only [Bool.and_eq_true, Bool.not_eq_true', Bool.and_eq_false_imp] at h
  exact ⟨_, cell_some.2 ⟨h.1.1.1, h.1.1.2, rfl⟩, h.1.2⟩

theorem step_sat {x : Act} (hi : Inv s) (he : enabled s x) (hu : UserSpace s x) (hend : Ends s x) : Sat Lost (step s x) Inv := by
  have hnone : ∀ {v : Nat} {e : Entry} (p : Fin taskNr) (T : Task) (i : Nat) (w : Entry), s.tasks p = some T → InUser v →
      cell s.mem T.pde (didx v) (tidx v) = some e → Inv (storeWord s T.pde v i w) := by
    intro v e p T i w hp hv hc
    have hent : pageEntry s T.pde v = e := (cell_some.1 hc).2.2
    unfold storeWord
    rw [hent]
    exact hi.store (hv.slot hp) hc w
  cases x with
  | start p k =>
    exact (copyPde_sat hi (.kernel hi) he.2 he.1 rfl ⟨le_rfl, userExec_le⟩).mono fun t ht => ht.inv
  | fork p q k =>
    exact withTask_sat fun T hp => (copyPde_sat (N := { T with pde := k }) hi (.live hp) he.2.2 he.2.1 rfl
      (hi.heap p T hp)).mono fun t ht => ht.inv
  | exit p => exact withTask_sat fun T hp => (exit_sat hi hp).mono fun t ht => ht.inv
  | link p v =>
    refine withTask_sat fun T hp => (linkPage_sat hi (InUser.slot hu hp)).mono fun t ht => ?_
    rcases ht with ⟨rfl, -⟩ | ht
    · exact hi
    · exact ht.inv
  | unlink p v => exact withTask_sat fun T hp => (unlinkPage_sat hi (InUser.slot hu hp)).mono fun t ht => ht.inv
  | fault p v present write =>
    obtain ⟨T', -, h1, h2, -⟩ := he
    refine withTask_sat fun T hp => (pageFault_sat hi (InUser.slot ⟨h1, h2⟩ hp) present write).mono fun t ht => ?_
    rcases ht with (⟨rfl, -⟩ | ht) | ht
    · exact hi
    · exact ht.inv
    · exact ht.inv
  | segment p v =>
    exact withTask_sat fun T hp => Sat.ok (hi.setTask hp rfl ⟨he.1, (hi.heap p T hp).2⟩)
  | brk p v =>
    exact withTask_sat fun T hp => (sysBrk_sat (K := fun _ => True) hi trivial hp (fun _ _ _ _ _ _ _ _ _ => trivial)
      fun _ _ _ _ _ _ => trivial).mono fun t ht => ht.1
  | mmap p v length write shared privat =>
    refine withTask_sat fun T hp => ?_
    cases ha : mmapAddr T v length with
    | none => exact sysMmap_none ha
    | some a =>
      exact (sysMmap_sat (J := fun _ _ => True) (K := fun _ => True) hi hp ha (hu T hp a ha) trivial
        (fun _ _ _ _ _ _ _ _ _ _ => trivial) fun _ _ _ _ _ _ => trivial).mono fun t ht => ht.1
  | munmap p v length =>
    exact withTask_sat fun T hp => (sysMunmap_sat (J := fun _ _ => True) (K := fun _ => True) hi trivial hp hend
      (fun _ _ _ _ _ _ _ _ _ => trivial) fun _ _ _ _ _ _ => trivial).mono fun t ht => ht.1
  | store p v i w =>
    obtain ⟨-, -, T', hp', h1⟩ := he
    refine withTask_sat fun T hp => Sat.ok ?_
    cases hp.symm.trans hp'
    exact hnone p T' i w hp' hu (cell_some.2 ⟨h1.1, h1.2.2.2.1, rfl⟩)
  | kernelStore p v i w user =>
    obtain ⟨-, -, T', hp', h1⟩ := he
    refine withTask_sat fun T hp => Sat.ok ?_
    cases hp.symm.trans hp'
    obtain ⟨e, hc, -⟩ := memoryAccess_cell h1
    exact hnone p T' i w hp' hu hc

theorem step_ends {x : Act} (h : step s x = .ok t) : Ends s x := by
  cases x with
  | munmap p v length =>
    have h : withTask s p (fun T => sysMunmap s p T v length) = .ok t := h
    unfold withTask at h
    cases hp : s.tasks p with
    | none =>
      rw [hp] at h
      cases h
    | some T =>
      rw [hp] at h
      exact sysMunmap_range h
  | _ => trivial

theorem boot_inv (h : Boot s) : Inv s := by
  have hs : ∀ p T d, ¬ Slot s p T d := fun p T d hs => by
    have := hs.task
    rw [h.tasks] at this
    cases this
  have hzero : ∀ φ, slotSum s φ = 0 := fun φ => sum_eq_zero fun p _ => by
    rw [h.tasks]
    rfl
  have htu : ∀ f, tableUses s f = 0 := fun f => hzero _
  have hpu : ∀ f, pageUses s f = 0 := fun f => hzero _
  refine ⟨⟨fun p T hp => ?_, fun p q T U hp => ?_, fun p T hp => ?_, h.dir, fun p T d hd => absurd hd (hs p T d),
    fun p T d q U c hd => absurd hd (hs p T d), fun f hf => ?_, fun f => .inl (htu f)⟩, ⟨h.start.2, h.total, h.kernel, ?_⟩,
    fun f hf => ?_⟩
  · rw [h.tasks] at hp
    cases hp
  · rw [h.tasks] at hp
    cases hp
  · rw [h.tasks] at hp
    cases hp
  · rw [htu, hpu] at hf
    omega
  · rw [h.free]
    unfold zeros
    have hsplit : ∑ f ∈ Finset.Ico s.startPage s.totalPages, (if s.memoryMap f = 0 then 1 else 0) =
        ∑ f ∈ Finset.Ico kernelFrames s.totalPages, 1 := by
      rw [← sum_Ico_consecutive _ h.start.2 h.total]
      rw [sum_eq_zero fun f hf => ?_, Nat.zero_add]
      · exact sum_congr rfl fun f hf => if_pos (h.user f (mem_Ico.1 hf).1)
      · rw [h.kernel f (mem_Ico.1 hf).2]
        rfl
    rw [hsplit, ← card_eq_sum_ones, Nat.card_Ico]
  · rw [htu, hpu, h.user f hf]

theorem reach_inv {P : State → Act → Prop} (hP : ∀ s x, P s x → UserSpace s x) (h : memory.Reach P s) : Inv s :=
  h.inv (fun _ => boot_inv) fun _ _ _ hi hp hst =>
    (step_sat hi hst.1 (hP _ _ hp) (step_ends hst.2)).of_ok hst.2

def booted : State where
  mem f i :=
    if f = 1 then if i < 4 then entryInit (i + 2) else if i = 1023 then entryInit 1 else .zero
    else if 2 ≤ f ∧ f < 6 ∧ ¬ (f = 2 ∧ i = 0) then entryInit ((f - 2) * 1024 + i) else .zero
  memoryMap f := if f < kernelFrames then 1 else 0
  freePages := 0x1000
  startPage := 0x102
  totalPages := 0x2000
  tasks _ := none

def parent : Fin taskNr := ⟨0, by decide⟩

def child : Fin taskNr := ⟨1, by decide⟩

theorem booted_boot : Boot booted := by
  refine ⟨by decide, by decide, fun f hf => if_pos hf, fun f hf => if_neg (by omega), by decide, fun d h1 h2 => ?_, fun _ => rfl⟩
  have hm : booted.mem 1 d = .zero := by
    unfold booted
    dsimp only
    rw [if_pos rfl, if_neg (by omega), if_neg (by omega)]
  rw [hm]
  rfl

def firstTask : Task := ⟨0x200, userExecAddr, userExecAddr, fun _ => false⟩

theorem started (h : step booted (.start parent 0x200) = .ok s) :
    memory.Steps booted (.start parent 0x200) s ∧ Forked booted 1 parent firstTask s := by
  have hi := boot_inv booted_boot
  have hk : kernelPage booted 0x200 := ⟨by decide, by decide, fun p t hp => nomatch hp⟩
  exact ⟨⟨⟨rfl, hk⟩, h⟩, (copyPde_sat (N := firstTask) hi (.kernel hi) hk rfl rfl ⟨le_rfl, userExec_le⟩).of_ok h⟩

end Onix.Memory
