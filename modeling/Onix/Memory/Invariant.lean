/-
The books of user memory. The pool of frames knows how many are free; a count is the number of user
slots and user pages that refer to the frame; a writable directory entry has its table to itself.
Each change of an entry keeps the books, the other pages of all processes and what those hold.
-/
import Onix.Memory.Count

namespace Onix.Memory

open Finset Onix.Lib

/-! ## The pool -/

/-- The assertions of `get_page` and `put_page` on counts that are wrong. -/
def Lost (e : Fault) : Prop := e = .getFree ∨ e = .putRange ∨ e = .putCount

def zeros (s : State) : Nat := ∑ f ∈ Finset.Ico s.startPage s.totalPages, if s.memoryMap f = 0 then 1 else 0

/-- The frames of the kernel are taken, and `free_pages` is the number of free frames. -/
structure Pool (s : State) : Prop where
  start : s.startPage ≤ kernelFrames
  total : kernelFrames ≤ s.totalPages
  kernel : ∀ f < kernelFrames, s.memoryMap f = 1
  free : s.freePages = zeros s

variable {bad : Fault → Prop} {s t : State} {f g n : Nat}

theorem zeros_set {k : Nat} (h1 : s.startPage ≤ f) (h2 : f < s.totalPages) :
    zeros { s with memoryMap := setCount s.memoryMap f n, freePages := k } + (if s.memoryMap f = 0 then 1 else 0) =
      zeros s + if n = 0 then 1 else 0 := by
  have h : zeros { s with memoryMap := setCount s.memoryMap f n, freePages := k } + (if s.memoryMap f = 0 then 1 else 0) =
      zeros s + if setCount s.memoryMap f n f = 0 then 1 else 0 :=
    sum_one (fun i => if s.memoryMap i = 0 then 1 else 0) (fun i => if setCount s.memoryMap f n i = 0 then 1 else 0)
      (mem_Ico.2 ⟨h1, h2⟩) fun i _ hi => by rw [setCount_other _ _ hi]
  rw [setCount_same] at h
  exact h

theorem Pool.count (h : Pool s) (hf : kernelFrames ≤ f) (ht : f < s.totalPages) (h0 : s.memoryMap f ≠ 0) (hn : n ≠ 0) :
    Pool { s with memoryMap := setCount s.memoryMap f n } := by
  refine ⟨h.start, h.total, fun i hi => ?_, ?_⟩
  · show setCount s.memoryMap f n i = 1
    rw [setCount_other _ _ (by omega), h.kernel i hi]
  · have hz := zeros_set (s := s) (n := n) (k := s.freePages) (h.start.trans hf) ht
    rw [if_neg h0, if_neg hn] at hz
    exact h.free.trans hz.symm

structure Got (s : State) (r : State × Nat) : Prop where
  state : r.1 = { s with memoryMap := setCount s.memoryMap r.2 1, freePages := s.freePages - 1 }
  low : kernelFrames ≤ r.2
  high : r.2 < s.totalPages
  free : s.memoryMap r.2 = 0
  pool : Pool r.1

theorem getPage_sat (h : Pool s) : Sat Lost (getPage s) (Got s) := by
  unfold getPage
  cases hf : (List.range' s.startPage (s.totalPages - s.startPage)).find? fun i => s.memoryMap i = 0 with
  | none => exact Sat.error (by rintro (h | h | h) <;> cases h)
  | some i =>
    have h0 := List.find?_some hf
    simp only [decide_eq_true_eq] at h0
    have hi := List.mem_range'_1.1 (List.mem_of_find?_eq_some hf)
    have hl : kernelFrames ≤ i := by
      by_contra hl
      rw [h.kernel i (by omega)] at h0
      exact absurd h0 (by decide)
    have hz := zeros_set (s := s) (n := 1) (k := s.freePages - 1) hi.1 (show i < s.totalPages by omega)
    rw [if_pos h0, if_neg (by decide)] at hz
    have hfree := h.free
    dsimp only
    rw [if_neg (by omega)]
    refine Sat.ok ⟨rfl, hl, by omega, h0, h.start, h.total, fun f hf => ?_, ?_⟩
    · show setCount s.memoryMap i 1 f = 1
      rw [setCount_other _ _ (by omega), h.kernel f hf]
    · show s.freePages - 1 = zeros { s with memoryMap := setCount s.memoryMap i 1, freePages := s.freePages - 1 }
      omega

structure Put (s : State) (f : Nat) (t : State) : Prop where
  state : t = { s with memoryMap := setCount s.memoryMap f (s.memoryMap f - 1), freePages := t.freePages }
  pool : Pool t

theorem putPage_sat (h : Pool s) (hl : kernelFrames ≤ f) (hh : f < s.totalPages) (hc : 1 ≤ s.memoryMap f) :
    Sat Lost (putPage s f) (Put s f) := by
  have hst := h.start
  have hfree := h.free
  have hz := zeros_set (s := s) (n := s.memoryMap f - 1)
    (k := if s.memoryMap f - 1 = 0 then s.freePages + 1 else s.freePages) (hst.trans hl) hh
  rw [if_neg (show s.memoryMap f ≠ 0 by omega)] at hz
  unfold putPage
  rw [if_neg (by omega), if_neg (by omega)]
  refine sat_ite (fun _ => Sat.ok ⟨rfl, h.start, h.total, fun i hi => ?_, ?_⟩) fun _ => Sat.error ?_
  · show setCount s.memoryMap f _ i = 1
    rw [setCount_other _ _ (by omega), h.kernel i hi]
  · show (if s.memoryMap f - 1 = 0 then s.freePages + 1 else s.freePages) = zeros _
    rw [← Nat.add_zero (zeros _), hz]
    split <;> omega
  · rintro (h | h | h) <;> cases h

/-! ## The invariant -/

def Like (e e' : Entry) : Prop := e'.present = e.present ∧ e'.index = e.index

theorem Like.refl (e : Entry) : Like e e := ⟨rfl, rfl⟩

theorem Like.of_eq {e e' : Entry} (h : e' = e) : Like e e' := ⟨congrArg _ h, congrArg _ h⟩

/-- The entry of page `i` below the directory entry `d`, if the page is there. -/
def cell (m : Mem) (pd d i : Nat) : Option Entry :=
  if (m pd d).present = true ∧ (m (m pd d).index i).present = true then some (m (m pd d).index i) else none

/-- The directories and tables: each process has its own directory, each table its place in it, and no
frame is both a table and a page. A writable directory entry has its table to itself. -/
structure Layout (s : State) : Prop where
  dir : ∀ p t, s.tasks p = some t → 0x100 ≤ t.pde ∧ t.pde < 0xC00 ∧ s.mem t.pde 1023 = entryInit t.pde
  apart : ∀ p q t u, s.tasks p = some t → s.tasks q = some u → t.pde = u.pde → p = q
  heap : ∀ p t, s.tasks p = some t → userExecAddr ≤ t.endAddr ∧ t.brk ≤ userMmapAddr
  kernel : ∀ d, 4 ≤ d → d < 64 → (s.mem 1 d).present = false
  slot : ∀ p t d, Slot s p t d → (s.mem t.pde d).present = true →
    (s.mem t.pde d).user = true ∧ ((s.mem t.pde d).write = true → tableUses s (s.mem t.pde d).index = 1)
  once : ∀ p t d q u c, Slot s p t d → Slot s q u c → (s.mem t.pde d).present = true → (s.mem u.pde c).present = true →
    (s.mem t.pde d).index = (s.mem u.pde c).index → d = c
  range : ∀ f, 1 ≤ tableUses s f ∨ 1 ≤ pageUses s f → kernelFrames ≤ f ∧ f < s.totalPages
  kinds : ∀ f, tableUses s f = 0 ∨ pageUses s f = 0

/-- The counts are those of the references. -/
structure Inv (s : State) : Prop extends Layout s where
  pool : Pool s
  count : ∀ f, kernelFrames ≤ f → s.memoryMap f = tableUses s f + pageUses s f

def Struct (s : State) (x : Nat) : Prop := x = 1 ∨ (∃ p t, s.tasks p = some t ∧ t.pde = x) ∨ 1 ≤ tableUses s x

variable {p q : Fin taskNr} {T U : Task} {d c i j : Nat} {e : Entry}

theorem Slot.struct (h : Slot s p T d) : Struct s T.pde := .inr (.inl ⟨p, T, h.task, rfl⟩)

theorem Slot.structTable (h : Slot s p T d) (hp : (s.mem T.pde d).present = true) : Struct s (s.mem T.pde d).index :=
  .inr (.inr (h.table hp))

theorem Layout.page (h : Layout s) (hf : 1 ≤ pageUses s f) : ¬ Struct s f := by
  have hr := (h.range f (.inr hf)).1
  unfold kernelFrames at hr
  rintro (rfl | ⟨p, t, hp, rfl⟩ | ht)
  · omega
  · have := (h.dir p t hp).2.1
    omega
  · rcases h.kinds f with h0 | h0 <;> omega

theorem Inv.unused (h : Inv s) (hf : kernelFrames ≤ f) (h0 : s.memoryMap f = 0) : tableUses s f = 0 ∧ pageUses s f = 0 := by
  have := h.count f hf
  omega

theorem Inv.fresh (h : Inv s) (hf : kernelFrames ≤ f) (h0 : s.memoryMap f = 0) : ¬ Struct s f := by
  have hu := h.unused hf h0
  unfold kernelFrames at hf
  rintro (rfl | ⟨p, t, hp, rfl⟩ | ht)
  · omega
  · have := (h.dir p t hp).2.1
    omega
  · omega

theorem Layout.table_ne (h : Layout s) (hs : Slot s p T d) (hp : (s.mem T.pde d).present = true) (hq : s.tasks q = some U) :
    (s.mem T.pde d).index ≠ U.pde := by
  have h1 := (h.range _ (.inl (hs.table hp))).1
  have h2 := (h.dir q U hq).2.1
  unfold kernelFrames at h1
  omega

theorem cell_some {m : Mem} {pd : Nat} : cell m pd d i = some e ↔
    (m pd d).present = true ∧ (m (m pd d).index i).present = true ∧ m (m pd d).index i = e := by
  unfold cell
  split
  · rename_i h
    exact ⟨fun he => ⟨h.1, h.2, Option.some.inj he⟩, fun he => congrArg some he.2.2⟩
  · rename_i h
    exact ⟨fun he => (nomatch he), fun he => absurd ⟨he.1, he.2.1⟩ h⟩

theorem cell_uses (hs : Slot s p T d) (hi : i < 1024) (h : cell s.mem T.pde d i = some e) : 1 ≤ pageUses s e.index := by
  obtain ⟨h1, h2, rfl⟩ := cell_some.1 h
  exact hs.page h1 hi h2

theorem cell_congr {m m' : Mem} {pd : Nat} (h1 : Like (m pd d) (m' pd d)) (h2 : (m pd d).present = true →
    m' (m pd d).index i = m (m pd d).index i) : cell m' pd d i = cell m pd d i := by
  unfold cell
  rw [h1.1, h1.2]
  by_cases hp : (m pd d).present = true
  · rw [h2 hp]
  · rw [if_neg fun h => hp h.1, if_neg fun h => hp h.1]

/-! ## Changes that keep the shape -/

theorem Like.ref {e e' : Entry} (h : Like e e') (f : Nat) : ref f e' = ref f e := ref_congr f h.1 h.2

structure Shape (s t : State) : Prop where
  tasks : t.tasks = s.tasks
  mem : ∀ x j, Struct s x → Like (s.mem x j) (t.mem x j)

theorem Slot.congr (ht : t.tasks = s.tasks) (h : Slot t p T d) : Slot s p T d := ⟨ht ▸ h.task, h.low, h.high⟩

namespace Shape

theorem tableUses (h : Shape s t) (f : Nat) : tableUses t f = tableUses s f :=
  slotSum_congr h.tasks fun _ _ d hs => (h.mem _ d hs.struct).ref f

theorem below (h : Shape s t) (hs : Slot s p T d) (f : Nat) :
    below t.mem f (t.mem T.pde d) = below s.mem f (s.mem T.pde d) := by
  obtain ⟨h1, h2⟩ := h.mem _ d hs.struct
  cases hp : (s.mem T.pde d).present with
  | false => rw [below_absent hp, below_absent (h1.trans hp)]
  | true =>
    rw [below_present hp, below_present (h1.trans hp), h2]
    exact tableRefs_congr f fun i _ => h.mem _ i (hs.structTable hp)

theorem pageUses (h : Shape s t) (f : Nat) : pageUses t f = pageUses s f :=
  slotSum_congr h.tasks fun _ _ _ hs => h.below hs f

end Shape

theorem Layout.shape (h : Layout s) (hst : Shape s t) (htot : t.totalPages = s.totalPages)
    (hself : ∀ q U, s.tasks q = some U → t.mem U.pde 1023 = s.mem U.pde 1023)
    (hslot : ∀ q U c, Slot s q U c → (s.mem U.pde c).present = true → (t.mem U.pde c).user = (s.mem U.pde c).user ∧
      ((t.mem U.pde c).write = true → (s.mem U.pde c).write = true ∨ tableUses s (s.mem U.pde c).index = 1)) :
    Layout t := by
  refine ⟨fun p T hp => ?_, fun p q T U hp hq => ?_, fun p T hp => ?_, fun d h1 h2 => ?_, fun p T d hs hp => ?_,
    fun p T d q U c hs hq hp hp' he => ?_, fun f hf => ?_, fun f => ?_⟩
  · rw [hst.tasks] at hp
    rw [hself p T hp]
    exact h.dir p T hp
  · rw [hst.tasks] at hp hq
    exact h.apart p q T U hp hq
  · rw [hst.tasks] at hp
    exact h.heap p T hp
  · exact (hst.mem 1 d (.inl rfl)).1.trans (h.kernel d h1 h2)
  · have hs := hs.congr hst.tasks
    obtain ⟨h1, h2⟩ := hst.mem _ d hs.struct
    have hp : (s.mem T.pde d).present = true := h1.symm.trans hp
    obtain ⟨hu, hw⟩ := hslot p T d hs hp
    obtain ⟨hu', hw'⟩ := h.slot p T d hs hp
    refine ⟨hu.trans hu', fun hwt => ?_⟩
    rw [hst.tableUses, h2]
    exact (hw hwt).elim hw' id
  · have hs := hs.congr hst.tasks
    have hq := hq.congr hst.tasks
    obtain ⟨h1, h2⟩ := hst.mem _ d hs.struct
    obtain ⟨h3, h4⟩ := hst.mem _ c hq.struct
    exact h.once p T d q U c hs hq (h1.symm.trans hp) (h3.symm.trans hp') (h2.symm.trans (he.trans h4))
  · rw [hst.tableUses, hst.pageUses] at hf
    rw [htot]
    exact h.range f hf
  · rw [hst.tableUses, hst.pageUses]
    exact h.kinds f

/-! ## What a change leaves alone -/

/-- The pages outside `P` are translated as before and hold what they held. -/
structure Keeps (s : State) (P : Fin taskNr → Nat → Nat → Prop) (t : State) : Prop where
  tasks : t.tasks = s.tasks
  cell : ∀ q U c j, Slot s q U c → j < 1024 → ¬ P q c j → cell t.mem U.pde c j = cell s.mem U.pde c j
  data : ∀ q U c j e, Slot s q U c → j < 1024 → ¬ P q c j → Memory.cell s.mem U.pde c j = some e → t.mem e.index = s.mem e.index

def nowhere : Fin taskNr → Nat → Nat → Prop := fun _ _ _ => False

def at' (p : Fin taskNr) (d i : Nat) : Fin taskNr → Nat → Nat → Prop := fun q c j => q = p ∧ c = d ∧ j = i

variable {P Q : Fin taskNr → Nat → Nat → Prop} {u : State}

theorem Keeps.refl (s : State) : Keeps s P s := ⟨rfl, fun _ _ _ _ _ _ _ => rfl, fun _ _ _ _ _ _ _ _ _ => rfl⟩

theorem Slot.tasks (ht : t.tasks = s.tasks) (h : Slot s p T d) : Slot t p T d := ⟨ht ▸ h.task, h.low, h.high⟩

theorem Keeps.trans (h1 : Keeps s P t) (h2 : Keeps t P u) : Keeps s P u := by
  refine ⟨h2.tasks.trans h1.tasks, fun q U c j hs hj hP => ?_, fun q U c j e hs hj hP he => ?_⟩
  · exact (h2.cell q U c j (hs.tasks h1.tasks) hj hP).trans (h1.cell q U c j hs hj hP)
  · have e1 := h1.cell q U c j hs hj hP
    exact (h2.data q U c j e (hs.tasks h1.tasks) hj hP (e1.trans he)).trans (h1.data q U c j e hs hj hP he)

theorem Keeps.mono (h : Keeps s P t) (hPQ : ∀ q c j, P q c j → Q q c j) : Keeps s Q t :=
  ⟨h.tasks, fun q U c j hs hj hn => h.cell q U c j hs hj fun hp => hn (hPQ _ _ _ hp),
    fun q U c j e hs hj hn => h.data q U c j e hs hj fun hp => hn (hPQ _ _ _ hp)⟩

/-! ## One entry of a table -/

/-- One entry changes in a table that one slot uses alone. -/
structure Edit (s : State) (p : Fin taskNr) (T : Task) (d i : Nat) (t : State) : Prop where
  slot : Slot s p T d
  present : (s.mem T.pde d).present = true
  alone : tableUses s (s.mem T.pde d).index = 1
  lt : i < 1024
  tasks : t.tasks = s.tasks
  mem : ∀ x j, Struct s x → ¬ (x = (s.mem T.pde d).index ∧ j = i) → t.mem x j = s.mem x j

namespace Edit

theorem dir (hl : Layout s) (h : Edit s p T d i t) (hq : s.tasks q = some U) (j : Nat) : t.mem U.pde j = s.mem U.pde j :=
  h.mem _ j (.inr (.inl ⟨q, U, hq, rfl⟩)) fun e => hl.table_ne h.slot h.present hq e.1.symm

theorem other (h : Edit s p T d i t) (hq : Slot s q U c) (hp : (s.mem U.pde c).present = true) (hne : ¬ (q = p ∧ c = d)) :
    (s.mem U.pde c).index ≠ (s.mem T.pde d).index := fun e => by
  have h2 : ref (s.mem T.pde d).index (s.mem T.pde d) + ref (s.mem T.pde d).index (s.mem U.pde c) ≤ _ :=
    two_slots_le h.slot hq hne
  rw [ref_self h.present, ← e, ref_self hp] at h2
  have h1 := h.alone
  rw [← e] at h1
  have h3 : 1 + 1 ≤ Memory.tableUses s (s.mem U.pde c).index := h2
  omega

theorem tableUses (hl : Layout s) (h : Edit s p T d i t) (f : Nat) : tableUses t f = tableUses s f :=
  slotSum_congr h.tasks fun _ _ c hs => by rw [h.dir hl hs.task]

theorem table (h : Edit s p T d i t) (hq : Slot s q U c) (hp : (s.mem U.pde c).present = true) (hne : ¬ (q = p ∧ c = d ∧ j = i)) :
    t.mem (s.mem U.pde c).index j = s.mem (s.mem U.pde c).index j := by
  refine h.mem _ j (hq.structTable hp) fun e => ?_
  by_cases hc : q = p ∧ c = d
  · exact hne ⟨hc.1, hc.2, e.2⟩
  · exact h.other hq hp hc e.1

theorem pageUses (hl : Layout s) (h : Edit s p T d i t) (f : Nat) :
    pageUses t f + ref f (s.mem (s.mem T.pde d).index i) = pageUses s f + ref f (t.mem (s.mem T.pde d).index i) := by
  have h1 : Memory.pageUses t f + below s.mem f (s.mem T.pde d) = Memory.pageUses s f + below t.mem f (t.mem T.pde d) := by
    refine slotSum_one h.slot h.tasks fun q U c hq hne => ?_
    rw [h.dir hl hq.task]
    cases hp : (s.mem U.pde c).present with
    | false => rw [below_absent hp, below_absent hp]
    | true =>
      rw [below_present hp, below_present hp]
      refine tableRefs_congr f fun j _ => ?_
      rw [h.table hq hp fun e => hne ⟨e.1, e.2.1⟩]
      exact ⟨rfl, rfl⟩
  rw [h.dir hl h.slot.task, below_present h.present, below_present h.present] at h1
  have h2 := @tableRefs_one s.mem t.mem _ i h.lt f fun j _ hj => h.table h.slot h.present fun e => hj e.2.2
  omega

theorem cell (hl : Layout s) (h : Edit s p T d i t) (hq : Slot s q U c) (hne : ¬ (q = p ∧ c = d ∧ j = i)) :
    cell t.mem U.pde c j = cell s.mem U.pde c j :=
  cell_congr (.of_eq (h.dir hl hq.task c)) fun hp => h.table hq hp hne

theorem here (hl : Layout s) (h : Edit s p T d i t) (hp : (t.mem (s.mem T.pde d).index i).present = true) :
    Memory.cell t.mem T.pde d i = some (t.mem (s.mem T.pde d).index i) := by
  have hd := h.dir hl h.slot.task d
  refine cell_some.2 ⟨by rw [hd]; exact h.present, ?_, ?_⟩
  · rw [hd]
    exact hp
  · rw [hd]

theorem gone (hl : Layout s) (h : Edit s p T d i t) (hp : (t.mem (s.mem T.pde d).index i).present = false) :
    Memory.cell t.mem T.pde d i = none := by
  unfold Memory.cell
  rw [h.dir hl h.slot.task d, hp, if_neg (fun e => nomatch e.2)]

theorem keeps (hl : Layout s) (h : Edit s p T d i t) (hd : ∀ f, 1 ≤ Memory.pageUses s f → t.mem f = s.mem f) :
    Keeps s (at' p d i) t :=
  ⟨h.tasks, fun _ _ _ _ hq _ hne => h.cell hl hq hne, fun _ _ _ _ _ hq hj _ he => hd _ (cell_uses hq hj he)⟩

theorem inv (hi : Inv s) (h : Edit s p T d i t) (hpool : Pool t) (htot : t.totalPages = s.totalPages)
    (hcount : ∀ f, kernelFrames ≤ f → t.memoryMap f + ref f (s.mem (s.mem T.pde d).index i) =
      s.memoryMap f + ref f (t.mem (s.mem T.pde d).index i))
    (hnew : (t.mem (s.mem T.pde d).index i).present = true → kernelFrames ≤ (t.mem (s.mem T.pde d).index i).index ∧
      (t.mem (s.mem T.pde d).index i).index < s.totalPages ∧ Memory.tableUses s (t.mem (s.mem T.pde d).index i).index = 0) :
    Inv t := by
  have hl := hi.toLayout
  have htu := h.tableUses hl
  have hpu := h.pageUses hl
  -- a frame that gained a reference is the one of the new entry
  have hin : ∀ f, 1 ≤ Memory.pageUses t f → 1 ≤ Memory.pageUses s f ∨
      (t.mem (s.mem T.pde d).index i).present = true ∧ (t.mem (s.mem T.pde d).index i).index = f := fun f hf => by
    by_cases hc : (t.mem (s.mem T.pde d).index i).present = true ∧ (t.mem (s.mem T.pde d).index i).index = f
    · exact .inr hc
    · have := hpu f
      have h0 : ref f (t.mem (s.mem T.pde d).index i) = 0 := by
        unfold ref
        rw [if_neg hc]
      omega
  refine ⟨⟨fun q U hq => ?_, fun q r U V hq hr => ?_, fun q U hq => ?_, fun c h1 h2 => ?_, fun q U c hq hp => ?_,
    fun q U c r V b hq hr hp hp' he => ?_, fun f hf => ?_, fun f => ?_⟩, hpool, fun f hf => ?_⟩
  · rw [h.tasks] at hq
    rw [h.dir hl hq]
    exact hl.dir q U hq
  · rw [h.tasks] at hq hr
    exact hl.apart q r U V hq hr
  · rw [h.tasks] at hq
    exact hl.heap q U hq
  · have hx := (hl.range _ (.inl (h.slot.table h.present))).1
    unfold kernelFrames at hx
    rw [h.mem 1 c (.inl rfl) fun e => by omega]
    exact hl.kernel c h1 h2
  · have hq := hq.congr h.tasks
    rw [h.dir hl hq.task] at hp ⊢
    rw [htu]
    exact hl.slot q U c hq hp
  · have hq := hq.congr h.tasks
    have hr := hr.congr h.tasks
    rw [h.dir hl hq.task] at hp he
    rw [h.dir hl hr.task] at hp' he
    exact hl.once q U c r V b hq hr hp hp' he
  · rw [htot]
    rw [htu] at hf
    rcases hf with hf | hf
    · exact hl.range f (.inl hf)
    · rcases hin f hf with hf | ⟨hp, rfl⟩
      · exact hl.range f (.inr hf)
      · exact ⟨(hnew hp).1, (hnew hp).2.1⟩
  · rw [htu]
    by_cases hf : 1 ≤ Memory.pageUses t f
    · refine .inl ?_
      rcases hin f hf with hf | ⟨hp, rfl⟩
      · rcases hl.kinds f with h0 | h0
        · exact h0
        · omega
      · exact (hnew hp).2.2
    · exact .inr (by omega)
  · have h1 := hcount f hf
    have h2 := hi.count f hf
    have h3 := hpu f
    rw [htu]
    omega

end Edit

/-! ## A new table -/

def cellRef (f : Nat) : Option Entry → Nat
  | none => 0
  | some e => ref f e

theorem below_cell (m : Mem) (f pd d : Nat) : below m f (m pd d) = ∑ i ∈ range 1024, cellRef f (cell m pd d i) := by
  cases hp : (m pd d).present with
  | false =>
    rw [below_absent hp]
    refine (sum_eq_zero fun i _ => ?_).symm
    unfold cell
    rw [hp, if_neg fun h => by cases h.1]
    rfl
  | true =>
    rw [below_present hp]
    refine sum_congr rfl fun i _ => ?_
    unfold cell
    cases hq : (m (m pd d).index i).present with
    | false =>
      rw [if_neg (fun h => nomatch h.2)]
      exact ref_of_absent hq
    | true =>
      rw [if_pos ⟨hp, rfl⟩]
      rfl

/-- A slot gets a table of its own, the frame `g`, with the pages it had. -/
structure Hook (s : State) (p : Fin taskNr) (T : Task) (d g : Nat) (t : State) : Prop where
  slot : Slot s p T d
  fresh : tableUses s g = 0 ∧ pageUses s g = 0
  tasks : t.tasks = s.tasks
  present : (t.mem T.pde d).present = true
  user : (t.mem T.pde d).user = true
  index : (t.mem T.pde d).index = g
  mem : ∀ x j, Struct s x → ¬ (x = T.pde ∧ j = d) → t.mem x j = s.mem x j
  cells : ∀ j < 1024, cell t.mem T.pde d j = cell s.mem T.pde d j

namespace Hook

theorem same (h : Hook s p T d g t) (hq : Slot s p U d) : U = T := Option.some.inj (hq.task.symm.trans h.slot.task)

theorem dir (hl : Layout s) (h : Hook s p T d g t) (hq : Slot s q U c) (hne : ¬ (q = p ∧ c = d)) :
    t.mem U.pde c = s.mem U.pde c :=
  h.mem _ c hq.struct fun e => hne ⟨hl.apart q p U T hq.task h.slot.task e.1, e.2⟩

theorem cell (hl : Layout s) (h : Hook s p T d g t) (hq : Slot s q U c) (hj : j < 1024) :
    cell t.mem U.pde c j = cell s.mem U.pde c j := by
  by_cases hc : q = p ∧ c = d
  · obtain ⟨rfl, rfl⟩ := hc
    rw [h.same hq]
    exact h.cells j hj
  · refine cell_congr (.of_eq (h.dir hl hq hc)) fun hp => h.mem _ j (hq.structTable hp) fun e => ?_
    exact hl.table_ne hq hp h.slot.task e.1

theorem tableUses (hl : Layout s) (h : Hook s p T d g t) (f : Nat) :
    tableUses t f + ref f (s.mem T.pde d) = tableUses s f + ref f (t.mem T.pde d) :=
  slotSum_one h.slot h.tasks fun q U c hq hne => by rw [h.dir hl hq hne]

theorem pageUses (hl : Layout s) (h : Hook s p T d g t) (f : Nat) : pageUses t f = pageUses s f :=
  slotSum_congr h.tasks fun q U c hq => by
    rw [below_cell, below_cell]
    exact sum_congr rfl fun j hj => by rw [h.cell hl hq (mem_range.1 hj)]

theorem keeps (hl : Layout s) (h : Hook s p T d g t) (hd : ∀ f, 1 ≤ Memory.pageUses s f → t.mem f = s.mem f) :
    Keeps s nowhere t :=
  ⟨h.tasks, fun _ _ _ _ hq hj _ => h.cell hl hq hj, fun _ _ _ _ _ hq hj _ he => hd _ (cell_uses hq hj he)⟩

theorem ref_new (h : Hook s p T d g t) : ref f (t.mem T.pde d) = if f = g then 1 else 0 := by
  rw [ref_of_present f h.present, h.index]

theorem inv (hi : Inv s) (h : Hook s p T d g t) (hg : kernelFrames ≤ g ∧ g < s.totalPages) (hpool : Pool t)
    (htot : t.totalPages = s.totalPages)
    (hcount : ∀ f, kernelFrames ≤ f → t.memoryMap f + ref f (s.mem T.pde d) = s.memoryMap f + if f = g then 1 else 0) :
    Inv t := by
  have hl := hi.toLayout
  have htu := h.tableUses hl
  simp only [h.ref_new] at htu
  have hold : ref g (s.mem T.pde d) = 0 := by
    have : ref g (s.mem T.pde d) ≤ Memory.tableUses s g := slot_le h.slot
    have := h.fresh.1
    omega
  have hg1 : Memory.tableUses t g = 1 := by
    have h1 := htu g
    have h2 := h.fresh.1
    rw [if_pos rfl] at h1
    omega
  -- another slot that uses the table `x` alone still does
  have hother : ∀ q U c, Slot s q U c → (s.mem U.pde c).present = true → ¬ (q = p ∧ c = d) →
      (s.mem U.pde c).index ≠ g ∧ (Memory.tableUses s (s.mem U.pde c).index = 1 → Memory.tableUses t (s.mem U.pde c).index = 1) := by
    intro q U c hq hp hne
    have h1 := hq.table hp
    have hx : (s.mem U.pde c).index ≠ g := fun e => by
      have := h.fresh.1
      rw [e] at h1
      omega
    have h3 := htu (s.mem U.pde c).index
    rw [if_neg hx] at h3
    have h4 : ref (s.mem U.pde c).index (s.mem T.pde d) + ref (s.mem U.pde c).index (s.mem U.pde c) ≤
      Memory.tableUses s (s.mem U.pde c).index := two_slots_le h.slot hq hne
    rw [ref_self hp] at h4
    omega
  have hnew : Memory.tableUses t (t.mem T.pde d).index = 1 := by rw [h.index]; exact hg1
  refine ⟨⟨fun q U hq => ?_, fun q r U V hq hr => ?_, fun q U hq => ?_, fun c h1 h2 => ?_, fun q U c hq hp => ?_,
    fun q U c r V b hq hr hp hp' he => ?_, fun f hf => ?_, fun f => ?_⟩, hpool, fun f hf => ?_⟩
  · rw [h.tasks] at hq
    have hd2 := h.slot.high
    rw [h.mem U.pde 1023 (.inr (.inl ⟨q, U, hq, rfl⟩)) fun e => by omega]
    exact hl.dir q U hq
  · rw [h.tasks] at hq hr
    exact hl.apart q r U V hq hr
  · rw [h.tasks] at hq
    exact hl.heap q U hq
  · have hd1 := (hl.dir p T h.slot.task).1
    rw [h.mem 1 c (.inl rfl) fun e => by omega]
    exact hl.kernel c h1 h2
  · have hq := hq.congr h.tasks
    by_cases hc : q = p ∧ c = d
    · obtain ⟨rfl, rfl⟩ := hc
      cases h.same hq
      exact ⟨h.user, fun _ => hnew⟩
    · rw [h.dir hl hq hc] at hp ⊢
      obtain ⟨h1, h2⟩ := hl.slot q U c hq hp
      exact ⟨h1, fun hw => (hother q U c hq hp hc).2 (h2 hw)⟩
  · have hq := hq.congr h.tasks
    have hr := hr.congr h.tasks
    by_cases hc : q = p ∧ c = d
    · by_cases hb : r = p ∧ b = d
      · exact hc.2.trans hb.2.symm
      · obtain ⟨rfl, rfl⟩ := hc
        cases h.same hq
        rw [h.dir hl hr hb] at hp' he
        exact absurd (he.symm.trans h.index) (hother r V b hr hp' hb).1
    · rw [h.dir hl hq hc] at hp he
      by_cases hb : r = p ∧ b = d
      · obtain ⟨rfl, rfl⟩ := hb
        cases h.same hr
        exact absurd (he.trans h.index) (hother q U c hq hp hc).1
      · rw [h.dir hl hr hb] at hp' he
        exact hl.once q U c r V b hq hr hp hp' he
  · rw [htot]
    by_cases hfg : f = g
    · rw [hfg]
      exact hg
    · have h1 := htu f
      rw [if_neg hfg] at h1
      rw [h.pageUses hl] at hf
      exact hl.range f (hf.imp (by omega) id)
  · rw [h.pageUses hl]
    by_cases hfg : f = g
    · rw [hfg]
      exact .inr h.fresh.2
    · have h1 := htu f
      rw [if_neg hfg] at h1
      exact (hl.kinds f).imp (by omega) id
  · have h1 := hcount f hf
    have h2 := hi.count f hf
    have h3 := htu f
    rw [h.pageUses hl]
    omega

end Hook

end Onix.Memory
