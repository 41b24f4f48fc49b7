/-
What the functions that work on one page do: `get_entry` and `copy_on_write` give a slot a table of
its own and leave every page as it was; `link_page`, `unlink_page`, a page of `sys_mmap` and the fault
on a private page change the one page they are called for.
-/
import Onix.Memory.Invariant

namespace Onix.Memory

open Onix.Lib

variable {s t : State} {p q : Fin taskNr} {T U : Task} {f g v d i : Nat} {e w : Entry}

/-! ## Changes outside the structure -/

theorem Pool.withMem (h : Pool s) (m : Mem) : Pool { s with mem := m } := ⟨h.start, h.total, h.kernel, h.free⟩

theorem Pool.withTask (h : Pool s) {t : Option Task} : Pool (setTask s p t) := ⟨h.start, h.total, h.kernel, h.free⟩

theorem Inv.contents (h : Inv s) {m : Mem} (hm : ∀ x, Struct s x → m x = s.mem x) : Inv { s with mem := m } := by
  have hst : Shape s { s with mem := m } := ⟨rfl, fun x j hx => by
    show Like (s.mem x j) (m x j)
    rw [hm x hx]
    exact Like.refl _⟩
  refine ⟨h.toLayout.shape hst rfl (fun q U hq => ?_) (fun q U c hs _ => ?_), h.pool.withMem m, fun f hf => ?_⟩
  · show m U.pde 1023 = _
    rw [hm _ (.inr (.inl ⟨q, U, hq, rfl⟩))]
  · show (m U.pde c).user = _ ∧ ((m U.pde c).write = true → _)
    rw [hm _ hs.struct]
    exact ⟨rfl, .inl⟩
  · rw [hst.tableUses, hst.pageUses]
    exact h.count f hf

/-! ## The window on the tables -/

theorem dirEntry_window {pd : Nat} (hself : s.mem pd 1023 = entryInit pd) (v : Nat) : dirEntry s pd (entryAddr v) = entryInit pd := by
  unfold dirEntry
  rw [didx_entryAddr, hself]

theorem pageEntry_window {pd : Nat} (hself : s.mem pd 1023 = entryInit pd) (v : Nat) :
    pageEntry s pd (entryAddr v) = s.mem pd (didx v) := by
  unfold pageEntry
  rw [dirEntry_window hself, tidx_entryAddr]
  rfl

theorem setEntry_window {pd : Nat} (hself : s.mem pd 1023 = entryInit pd) (v : Nat) (w : Entry) :
    setEntry s pd (entryAddr v) w = { s with mem := s.mem.set pd (didx v) w } := by
  unfold setEntry
  rw [dirEntry_window hself, tidx_entryAddr]
  rfl

theorem copyOnWrite_window {pd : Nat} (hself : s.mem pd 1023 = entryInit pd) (v : Nat) :
    copyOnWrite pd 2 (entryAddr v) s = copyEntry s pd (entryAddr v) := by
  have h1 : copyOnWrite pd 1 (entryAddr (entryAddr v)) s = .ok s := by
    unfold copyOnWrite
    rw [dirEntry_window hself, if_neg (fun h => h rfl)]
    show copyEntry s pd _ = _
    unfold copyEntry
    rw [pageEntry_window hself, didx_entryAddr, hself]
    rfl
  rw [copyOnWrite, dirEntry_window hself, if_neg (fun h => h rfl), h1]
  rfl

/-! ## A table of one's own -/

/-- The slot of `v` has a table that it uses alone; every page is as it was. -/
structure Owned (s : State) (T : Task) (v : Nat) (t : State) : Prop where
  inv : Inv t
  keeps : Keeps s nowhere t
  total : t.totalPages = s.totalPages
  present : (t.mem T.pde (didx v)).present = true
  write : (t.mem T.pde (didx v)).write = true

theorem Inv.unlock (h : Inv s) (hs : Slot s p T d) (hp : (s.mem T.pde d).present = true)
    (hu : tableUses s (s.mem T.pde d).index = 1) :
    Inv { s with mem := s.mem.set T.pde d { s.mem T.pde d with write := true } } ∧
      Keeps s nowhere { s with mem := s.mem.set T.pde d { s.mem T.pde d with write := true } } := by
  have hm : ∀ x j, (x = T.pde ∧ j = d ∧ s.mem.set T.pde d { s.mem T.pde d with write := true } x j =
      { s.mem T.pde d with write := true }) ∨ (¬ (x = T.pde ∧ j = d) ∧
      s.mem.set T.pde d { s.mem T.pde d with write := true } x j = s.mem x j) := by
    intro x j
    by_cases hx : x = T.pde ∧ j = d
    · obtain ⟨rfl, rfl⟩ := hx
      exact .inl ⟨rfl, rfl, Mem.set_same ..⟩
    · exact .inr ⟨hx, Mem.set_other _ _ hx⟩
  have hlike : ∀ x j, Like (s.mem x j) (s.mem.set T.pde d { s.mem T.pde d with write := true } x j) := by
    intro x j
    rcases hm x j with ⟨rfl, rfl, e⟩ | ⟨-, e⟩
    · rw [e]
      exact ⟨rfl, rfl⟩
    · exact .of_eq e
  have hst : Shape s { s with mem := s.mem.set T.pde d { s.mem T.pde d with write := true } } := ⟨rfl, fun x j _ => hlike x j⟩
  refine ⟨⟨h.shape hst rfl (fun q U hq => ?_) (fun q U c hq hpq => ?_), h.pool.withMem _, fun f hf => ?_⟩, rfl,
    fun q U c j hq _ _ => ?_, fun q U c j e hq hj _ he => ?_⟩
  · have := hs.high
    exact Mem.set_other _ _ fun e => by omega
  · dsimp only
    rcases hm U.pde c with ⟨e1, e2, e⟩ | ⟨-, e⟩
    · rw [e, e1, e2]
      exact ⟨rfl, fun _ => .inr hu⟩
    · rw [e]
      exact ⟨rfl, .inl⟩
  · rw [hst.tableUses, hst.pageUses]
    exact h.count f hf
  · exact cell_congr (hlike _ _) fun hpq => Mem.set_other _ _ fun e => h.table_ne hq hpq hs.task e.1
  · refine funext fun k => Mem.set_other _ _ fun e' => ?_
    exact h.page (cell_uses hq hj he) (e'.1 ▸ hs.struct)

theorem Got.apart {r : State × Nat} (h : Inv s) (hg : Got s r) : ¬ Struct s r.2 ∧ tableUses s r.2 = 0 ∧ pageUses s r.2 = 0 :=
  ⟨h.fresh hg.low hg.free, (h.unused hg.low hg.free).1, (h.unused hg.low hg.free).2⟩

theorem Got.hook {r : State × Nat} {C : Nat → Entry} (h : Inv s) (hg : Got s r) (hs : Slot s p T d) (ht : t.tasks = s.tasks)
    (htot : t.totalPages = s.totalPages) (hpool : Pool t)
    (hw : t.mem T.pde d = w) (hp : w.present = true) (hu : w.user = true) (hi : w.index = r.2) (hC : t.mem r.2 = C)
    (hm : ∀ x j, x ≠ r.2 → ¬ (x = T.pde ∧ j = d) → t.mem x j = s.mem x j)
    (hcells : ∀ j < 1024, (if (C j).present = true then some (C j) else none) = cell s.mem T.pde d j)
    (hcount : ∀ f, kernelFrames ≤ f → t.memoryMap f + ref f (s.mem T.pde d) = s.memoryMap f + if f = r.2 then 1 else 0) :
    Inv t ∧ Keeps s nowhere t := by
  obtain ⟨hn, h0⟩ := hg.apart h
  subst hw
  have hk : Hook s p T d r.2 t := by
    refine ⟨hs, h0, ht, hp, hu, hi, fun x j hx hne => hm x j (fun e => hn (e ▸ hx)) hne, fun j hj => ?_⟩
    rw [← hcells j hj]
    unfold cell
    rw [hi, hC]
    by_cases hc : (C j).present = true
    · rw [if_pos ⟨hp, hc⟩, if_pos hc]
    · rw [if_neg fun e => hc e.2, if_neg hc]
  refine ⟨hk.inv h ⟨hg.low, hg.high⟩ hpool htot hcount, hk.keeps h.toLayout fun f hf => funext fun j => ?_⟩
  refine hm f j (fun e => ?_) fun e => h.page hf (e.1 ▸ hs.struct)
  rw [e] at hf
  omega

theorem copy_table (h : Inv s) (hs : Slot s p T (didx v)) (hp : (s.mem T.pde (didx v)).present = true) :
    Sat Lost (copyOnWrite T.pde 2 (entryAddr v) s) (Owned s T v) := by
  have hself := (h.dir p T hs.task).2.2
  have hr := h.range _ (.inl (hs.table hp))
  have huse := hs.table hp
  have hcnt := h.count _ hr.1
  rw [copyOnWrite_window hself]
  unfold copyEntry
  dsimp only
  rw [pageEntry_window hself]
  refine sat_ite (fun hw => Sat.ok ⟨h, .refl s, rfl, hp, hw⟩) fun hw => ?_
  rw [if_neg (by omega)]
  refine sat_ite (fun h1 => Sat.ok ?_) fun h1 => ?_
  · -- no one else uses the table
    rw [setEntry_window hself]
    obtain ⟨hi, hk⟩ := h.unlock hs hp (by omega)
    refine ⟨hi, hk, rfl, ?_, ?_⟩
    · show (Mem.set _ _ _ _ _ _).present = true
      rw [Mem.set_same]
      exact hp
    · show (Mem.set _ _ _ _ _ _).write = true
      rw [Mem.set_same]
  · refine (getPage_sat h.pool).bind ?_
    rintro ⟨s1, g⟩ - hg
    have hs1 : s1 = { s with memoryMap := setCount s.memoryMap g 1, freePages := s.freePages - 1 } := hg.state
    subst hs1
    obtain ⟨hn, h0, -⟩ := hg.apart h
    dsimp only at hn h0
    have hgp : g ≠ T.pde := fun e => hn (e ▸ hs.struct)
    have hgx : (s.mem T.pde (didx v)).index ≠ g := fun e => by
      rw [e] at huse
      omega
    have hself' : (s.mem.fill g (s.mem (s.mem T.pde (didx v)).index)) T.pde 1023 = entryInit T.pde := by
      rw [Mem.fill_other _ _ hgp.symm, hself]
    rw [setEntry_window hself']
    have hpool : Pool { s with
        memoryMap := setCount (setCount s.memoryMap g 1) (s.mem T.pde (didx v)).index
          (setCount s.memoryMap g 1 (s.mem T.pde (didx v)).index - 1)
        freePages := s.freePages - 1 } := by
      have hcx := setCount_other s.memoryMap 1 hgx
      refine hg.pool.count hr.1 hr.2 ?_ ?_
      · show setCount s.memoryMap g 1 _ ≠ 0
        omega
      · omega
    have hnew := hg.hook (w := { s.mem T.pde (didx v) with index := g, write := true })
      (C := s.mem (s.mem T.pde (didx v)).index) h hs (t := { s with
        mem := (s.mem.fill g (s.mem (s.mem T.pde (didx v)).index)).set T.pde (didx v)
          { s.mem T.pde (didx v) with index := g, write := true }
        memoryMap := setCount (setCount s.memoryMap g 1) (s.mem T.pde (didx v)).index
          (setCount s.memoryMap g 1 (s.mem T.pde (didx v)).index - 1)
        freePages := s.freePages - 1 }) rfl rfl (hpool.withMem _) (Mem.set_same ..) hp (h.slot p T _ hs hp).1 rfl ?_ ?_ ?_ ?_
    · refine Sat.ok ⟨hnew.1, hnew.2, rfl, ?_, ?_⟩
      · show (Mem.set _ _ _ _ _ _).present = true
        rw [Mem.set_same]
        exact hp
      · show (Mem.set _ _ _ _ _ _).write = true
        rw [Mem.set_same]
    · refine funext fun j => ?_
      show Mem.set _ _ _ _ g j = _
      rw [Mem.set_other _ _ fun e => hgp e.1, Mem.fill_same]
    · intro x j hx hne
      show Mem.set _ _ _ _ x j = _
      rw [Mem.set_other _ _ hne, Mem.fill_other _ _ hx]
    · intro j _
      unfold cell
      by_cases hc : (s.mem (s.mem T.pde (didx v)).index j).present = true
      · rw [if_pos hc, if_pos ⟨hp, hc⟩]
      · rw [if_neg hc, if_neg fun e => hc e.2]
    · intro f _
      rw [ref_of_present f hp]
      exact setCount_move hgx (by omega) hg.free f

theorem createTable_sat (h : Inv s) (hs : Slot s p T (didx v)) : Sat Lost (createTable s T.pde v) fun t =>
    Inv t ∧ Keeps s nowhere t ∧ t.totalPages = s.totalPages ∧ (t.mem T.pde (didx v)).present = true ∧
      ((s.mem T.pde (didx v)).present = true → t = s) := by
  refine sat_ite (fun hp => Sat.ok ⟨h, .refl s, rfl, hp, fun _ => rfl⟩) fun hp => ?_
  refine (getPage_sat h.pool).bind ?_
  rintro ⟨s1, g⟩ - hg
  have hs1 : s1 = { s with memoryMap := setCount s.memoryMap g 1, freePages := s.freePages - 1 } := hg.state
  subst hs1
  have hp : (s.mem T.pde (didx v)).present = false := Bool.eq_false_iff.2 hp
  have hgp : T.pde ≠ g := fun e => (hg.apart h).1 (e ▸ hs.struct)
  have hw : (s.mem.set T.pde (didx v) (entryInit g)).fill g (fun _ => .zero) T.pde (didx v) = entryInit g := by
    rw [Mem.fill_other _ _ hgp, Mem.set_same]
  have hnew := hg.hook (w := entryInit g) (C := fun _ => .zero) h hs (t := { s with
      mem := (s.mem.set T.pde (didx v) (entryInit g)).fill g fun _ => .zero
      memoryMap := setCount s.memoryMap g 1
      freePages := s.freePages - 1 }) rfl rfl (hg.pool.withMem _) hw rfl rfl rfl (Mem.fill_same ..) ?_ ?_ ?_
  · refine Sat.ok ⟨hnew.1, hnew.2, rfl, ?_, fun e => by rw [hp] at e; cases e⟩
    show ((s.mem.set _ _ _).fill g _ T.pde (didx v)).present = true
    rw [hw]
    rfl
  · intro x j hx hne
    show (s.mem.set _ _ _).fill g _ x j = _
    rw [Mem.fill_other _ _ hx, Mem.set_other _ _ hne]
  · intro j _
    unfold cell
    rw [hp, if_neg (nomatch ·), if_neg (fun e => nomatch e.1)]
  · intro f _
    show setCount s.memoryMap g 1 f + _ = _
    rw [ref_of_absent hp]
    by_cases hf : f = g
    · rw [hf, setCount_same, if_pos rfl, hg.free]
    · rw [setCount_other _ _ hf, if_neg hf]

/-! ## One page -/

def Unseen (s : State) (g : Nat) : Prop :=
  ∀ q U c j e, Slot s q U c → j < 1024 → cell s.mem U.pde c j = some e → e.index ≠ g

theorem Unseen.of_uses (h : pageUses s g = 0) : Unseen s g := fun q U c j e hs hj he hg => by
  have := cell_uses hs hj he
  rw [hg] at this
  omega

theorem Unseen.before (h : Unseen t g) (hk : Keeps s nowhere t) : Unseen s g := fun q U c j e hs hj he =>
  h q U c j e (hs.tasks hk.tasks) hj ((hk.cell q U c j hs hj id).trans he)

/-- A page that was not there is now in a frame of its own, below a table of its own. -/
structure Added (s : State) (p : Fin taskNr) (T : Task) (v : Nat) (t : State) : Prop where
  inv : Inv t
  keeps : Keeps s (at' p (didx v) (tidx v)) t
  total : t.totalPages = s.totalPages
  before : cell s.mem T.pde (didx v) (tidx v) = none
  table : tableUses t (t.mem T.pde (didx v)).index = 1
  page : ∃ g, cell t.mem T.pde (didx v) (tidx v) = some (entryInit g) ∧ Unseen s g ∧ pageUses t g = 1

theorem Got.added {r : State × Nat} (h : Inv s) (hg : Got s r) (hs : Slot s p T (didx v))
    (hp : (s.mem T.pde (didx v)).present = true) (hw : (s.mem T.pde (didx v)).write = true)
    (ha : (s.mem (s.mem T.pde (didx v)).index (tidx v)).present = false) (ht : t.tasks = s.tasks)
    (htot : t.totalPages = s.totalPages) (hpool : Pool t)
    (hm : t.mem = s.mem.set (s.mem T.pde (didx v)).index (tidx v) (entryInit r.2))
    (hc : t.memoryMap = setCount s.memoryMap r.2 1) : Added s p T v t := by
  obtain ⟨-, h0, hp0⟩ := hg.apart h
  have hl := h.toLayout
  have hset : ∀ x j, ¬ (x = (s.mem T.pde (didx v)).index ∧ j = tidx v) → t.mem x j = s.mem x j := fun x j e => by
    rw [hm, Mem.set_other _ _ e]
  have hnew : t.mem (s.mem T.pde (didx v)).index (tidx v) = entryInit r.2 := by rw [hm, Mem.set_same]
  have hedit : Edit s p T (didx v) (tidx v) t :=
    ⟨hs, hp, (h.slot p T _ hs hp).2 hw, tidx_lt v, ht, fun x j _ hne => hset x j hne⟩
  have href : ∀ f, ref f (t.mem (s.mem T.pde (didx v)).index (tidx v)) = if f = r.2 then 1 else 0 := fun f => by
    rw [hnew, ref_of_present f (e := entryInit r.2) rfl]
    rfl
  have hpu := hedit.pageUses hl r.2
  rw [ref_of_absent ha, href, if_pos rfl] at hpu
  refine ⟨hedit.inv h hpool htot (fun f _ => ?_) (fun _ => ?_), hedit.keeps hl fun f hf => ?_, htot, ?_, ?_, r.2, ?_,
    .of_uses hp0, by omega⟩
  · rw [ref_of_absent ha, href, hc]
    by_cases hf : f = r.2
    · rw [hf, setCount_same, if_pos rfl, hg.free]
    · rw [setCount_other _ _ hf, if_neg hf]
  · rw [hnew]
    exact ⟨hg.low, hg.high, h0⟩
  · exact funext fun j => hset f j fun e => h.page hf (e.1 ▸ hs.structTable hp)
  · unfold cell
    rw [ha, if_neg (fun e => nomatch e.2)]
  · rw [hedit.dir hl hs.task, hedit.tableUses hl]
    exact hedit.alone
  · rw [hedit.here hl (by rw [hnew]; rfl), hnew]

/-- The page of `link_page`: the one that was there, or a new one. -/
def Linked (s : State) (p : Fin taskNr) (T : Task) (v : Nat) (t : State) : Prop :=
  t = s ∧ (∃ e, cell s.mem T.pde (didx v) (tidx v) = some e) ∨ Added s p T v t

theorem linkPage_sat (h : Inv s) (hs : Slot s p T (didx v)) : Sat Lost (linkPage s T.pde v) (Linked s p T v) := by
  refine sat_ite (fun _ => Sat.error (by rintro (h | h | h) <;> cases h)) fun _ => ?_
  refine (createTable_sat h hs).bind ?_
  rintro s1 - ⟨hi1, hk1, ht1, hp1, he1⟩
  have hs1 := hs.tasks hk1.tasks
  refine sat_ite (fun ha => Sat.ok ?_) fun ha => ?_
  · -- a new table is empty, so this one is not new
    have hc : cell s1.mem T.pde (didx v) (tidx v) = some (s1.mem (s1.mem T.pde (didx v)).index (tidx v)) :=
      cell_some.2 ⟨hp1, ha, rfl⟩
    rw [hk1.cell p T _ _ hs (tidx_lt v) id] at hc
    cases he1 (cell_some.1 hc).1
    exact .inl ⟨rfl, _, hc⟩
  · refine (copy_table hi1 hs1 hp1).bind ?_
    rintro s2 - h2
    have hk := hk1.trans h2.keeps
    have hs2 := hs.tasks hk.tasks
    have hb : cell s2.mem T.pde (didx v) (tidx v) = none := by
      rw [h2.keeps.cell p T _ _ hs1 (tidx_lt v) id]
      unfold cell
      rw [if_neg fun e => ha e.2]
    have ha2 : (s2.mem (s2.mem T.pde (didx v)).index (tidx v)).present = false := by
      refine Bool.eq_false_iff.2 fun e => ?_
      rw [cell_some.2 ⟨h2.present, e, rfl⟩] at hb
      cases hb
    refine (getPage_sat h2.inv.pool).bind ?_
    rintro ⟨s3, g⟩ - hg
    have e3 : s3 = { s2 with memoryMap := setCount s2.memoryMap g 1, freePages := s2.freePages - 1 } := hg.state
    subst e3
    have hadd := hg.added (t := setEntry { s2 with memoryMap := setCount s2.memoryMap g 1, freePages := s2.freePages - 1 }
      T.pde v (entryInit g)) h2.inv hs2 h2.present h2.write ha2 rfl rfl (hg.pool.withMem _) rfl rfl
    obtain ⟨f, hf, hun, hu⟩ := hadd.page
    refine Sat.ok (.inr ⟨hadd.inv, (hk.mono fun _ _ _ => False.elim).trans hadd.keeps, hadd.total.trans (h2.total.trans ht1), ?_,
      hadd.table, f, hf, hun.before hk, hu⟩)
    rw [← hk.cell p T _ _ hs (tidx_lt v) id]
    exact hb

/-! ## A page goes -/

theorem physical_cell (s : State) (pd v : Nat) : physical s pd v = (cell s.mem pd (didx v) (tidx v)).map Entry.index := by
  unfold physical cell pageEntry dirEntry
  split <;> rfl

structure Removed (s : State) (p : Fin taskNr) (T : Task) (v : Nat) (t : State) : Prop where
  inv : Inv t
  keeps : Keeps s (at' p (didx v) (tidx v)) t
  total : t.totalPages = s.totalPages
  gone : cell t.mem T.pde (didx v) (tidx v) = none

theorem dropEntry_sat (h : Inv s) (hs : Slot s p T (didx v)) (hp : (s.mem T.pde (didx v)).present = true)
    (hw : (s.mem T.pde (didx v)).write = true) (he : cell s.mem T.pde (didx v) (tidx v) = some e) :
    Sat Lost (dropEntry s T.pde v) (Removed s p T v) := by
  have hl := h.toLayout
  have hu := cell_uses hs (tidx_lt v) he
  have hr := h.range _ (.inr hu)
  have hc := h.count _ hr.1
  obtain ⟨-, hpe, rfl⟩ := cell_some.1 he
  refine (putPage_sat (s := setEntry s T.pde v { pageEntry s T.pde v with present := false }) (h.pool.withMem _) hr.1 hr.2
    ?_).mono fun t ht => ?_
  · show 1 ≤ s.memoryMap _
    omega
  · have hm : t.mem = s.mem.set (s.mem T.pde (didx v)).index (tidx v)
        { s.mem (s.mem T.pde (didx v)).index (tidx v) with present := false } := by rw [ht.state]; rfl
    have hset : ∀ x j, ¬ (x = (s.mem T.pde (didx v)).index ∧ j = tidx v) → t.mem x j = s.mem x j := fun x j e => by
      rw [hm, Mem.set_other _ _ e]
    have hnew : (t.mem (s.mem T.pde (didx v)).index (tidx v)).present = false := by rw [hm, Mem.set_same]
    have hmap : t.memoryMap = setCount s.memoryMap (s.mem (s.mem T.pde (didx v)).index (tidx v)).index
        (s.memoryMap (s.mem (s.mem T.pde (didx v)).index (tidx v)).index - 1) := by rw [ht.state]; rfl
    have htasks : t.tasks = s.tasks := by rw [ht.state]; rfl
    have htot : t.totalPages = s.totalPages := by rw [ht.state]; rfl
    have hedit : Edit s p T (didx v) (tidx v) t :=
      ⟨hs, hp, (h.slot p T _ hs hp).2 hw, tidx_lt v, htasks, fun x j _ hne => hset x j hne⟩
    refine ⟨hedit.inv h ht.pool htot (fun f _ => ?_) (fun e => ?_), hedit.keeps hl fun f hf => ?_, htot, hedit.gone hl hnew⟩
    · rw [ref_of_absent hnew, ref_of_present f hpe, hmap]
      by_cases hf : f = (s.mem (s.mem T.pde (didx v)).index (tidx v)).index
      · rw [if_pos hf, hf, setCount_same]
        omega
      · rw [if_neg hf, setCount_other _ _ hf]
    · rw [hnew] at e
      cases e
    · exact funext fun j => hset f j fun e => h.page hf (e.1 ▸ hs.structTable hp)

theorem unlinkPage_sat (h : Inv s) (hs : Slot s p T (didx v)) : Sat Lost (unlinkPage s T.pde v) (Removed s p T v) := by
  refine sat_ite (fun _ => Sat.error (by rintro (h | h | h) <;> cases h)) fun _ => ?_
  rw [physical_cell]
  cases hc : cell s.mem T.pde (didx v) (tidx v) with
  | none => exact Sat.ok ⟨h, .refl s, rfl, hc⟩
  | some e =>
    refine (copy_table h hs (cell_some.1 hc).1).bind fun s1 _ h1 => ?_
    have hs1 := hs.tasks h1.keeps.tasks
    have hc1 := (h1.keeps.cell p T _ _ hs (tidx_lt v) id).trans hc
    refine (dropEntry_sat h1.inv hs1 h1.present h1.write hc1).mono fun t ht => ?_
    exact ⟨ht.inv, (h1.keeps.mono fun _ _ _ => False.elim).trans ht.keeps, ht.total.trans h1.total, ht.gone⟩

/-! ## A private page -/

theorem Entry.write_self (h : e.write = true) : { e with write := true } = e := by
  cases e
  cases h
  rfl

/-- The page of `v` may be written; it holds what it held, in its frame or in a new one. -/
structure Copied (s : State) (p : Fin taskNr) (T : Task) (v : Nat) (t : State) : Prop where
  inv : Inv t
  keeps : Keeps s (at' p (didx v) (tidx v)) t
  total : t.totalPages = s.totalPages
  page : ∃ e g, cell s.mem T.pde (didx v) (tidx v) = some e ∧ e.shared = false ∧
    cell t.mem T.pde (didx v) (tidx v) = some { e with index := g, write := true } ∧ t.mem g = s.mem e.index ∧
    (g = e.index ∧ (e.write = true ∨ pageUses t g = 1) ∨ Unseen s g ∧ pageUses t g = 1)

theorem Copied.of_edit (h : Inv s) (hedit : Edit s p T (didx v) (tidx v) t) (he : cell s.mem T.pde (didx v) (tidx v) = some e)
    (hsh : e.shared = false) (hnew : t.mem (s.mem T.pde (didx v)).index (tidx v) = { e with index := g, write := true })
    (hpool : Pool t) (htot : t.totalPages = s.totalPages)
    (hg : kernelFrames ≤ g ∧ g < s.totalPages ∧ tableUses s g = 0)
    (hcount : ∀ f, kernelFrames ≤ f → t.memoryMap f + (if f = e.index then 1 else 0) = s.memoryMap f + if f = g then 1 else 0)
    (hdata : ∀ f, 1 ≤ pageUses s f → t.mem f = s.mem f) (hcopy : t.mem g = s.mem e.index)
    (hone : g = e.index ∧ pageUses s g = 1 ∨ pageUses s g = 0) : Copied s p T v t := by
  have hl := h.toLayout
  obtain ⟨hp, hpe, rfl⟩ := cell_some.1 he
  have hold : ∀ f, ref f (s.mem (s.mem T.pde (didx v)).index (tidx v)) =
      if f = (s.mem (s.mem T.pde (didx v)).index (tidx v)).index then 1 else 0 := fun f => ref_of_present f hpe
  have hpn : (t.mem (s.mem T.pde (didx v)).index (tidx v)).present = true := by
    rw [hnew]
    exact hpe
  have hin : (t.mem (s.mem T.pde (didx v)).index (tidx v)).index = g := by rw [hnew]
  have hre : ∀ f, ref f (t.mem (s.mem T.pde (didx v)).index (tidx v)) = if f = g then 1 else 0 := fun f => by
    rw [ref_of_present f hpn, hin]
  have hhere := hedit.here hl hpn
  rw [hnew] at hhere
  refine ⟨hedit.inv h hpool htot (fun f hf => ?_) (fun _ => ?_), hedit.keeps hl hdata, htot, _, g, he, hsh, hhere, hcopy, ?_⟩
  · rw [hold, hre]
    exact hcount f hf
  · rw [hin]
    exact hg
  · have hpu := hedit.pageUses hl g
    rw [hold, hre, if_pos rfl] at hpu
    rcases hone with ⟨rfl, h1⟩ | h0
    · rw [if_pos rfl] at hpu
      exact .inl ⟨rfl, .inr (by omega)⟩
    · have hne : g ≠ (s.mem (s.mem T.pde (didx v)).index (tidx v)).index := fun e => by
        have := hedit.slot.page hp (tidx_lt v) hpe
        rw [← e] at this
        omega
      rw [if_neg hne] at hpu
      exact .inr ⟨.of_uses h0, by omega⟩

theorem copyEntry_sat (h : Inv s) (hs : Slot s p T (didx v)) (hp : (s.mem T.pde (didx v)).present = true)
    (hw : (s.mem T.pde (didx v)).write = true) (he : cell s.mem T.pde (didx v) (tidx v) = some e) (hsh : e.shared = false) :
    Sat Lost (copyEntry s T.pde v) (Copied s p T v) := by
  have hu := cell_uses hs (tidx_lt v) he
  have hr := h.range _ (.inr hu)
  have hc := h.count _ hr.1
  have hk := (h.kinds e.index).resolve_right (by omega)
  have halone := (h.slot p T _ hs hp).2 hw
  have hpage := h.page hu
  have hst := hs.structTable hp
  have hent : pageEntry s T.pde v = e := (cell_some.1 he).2.2
  unfold copyEntry
  rw [hent]
  refine sat_ite (fun hwe => Sat.ok ?_) fun hwe => ?_
  · refine ⟨h, .refl s, rfl, _, _, he, hsh, ?_, rfl, .inl ⟨rfl, .inl hwe⟩⟩
    rw [he]
    exact congrArg some (Entry.write_self hwe).symm
  rw [if_neg (by omega)]
  refine sat_ite (fun h1 => Sat.ok ?_) fun h1 => ?_
  · -- the last reference
    have hset : ∀ x j, ¬ (x = (s.mem T.pde (didx v)).index ∧ j = tidx v) →
        (setEntry s T.pde v { e with write := true }).mem x j = s.mem x j := fun x j e => Mem.set_other _ _ e
    have hedit : Edit s p T (didx v) (tidx v) (setEntry s T.pde v { e with write := true }) :=
      ⟨hs, hp, halone, tidx_lt v, rfl, fun x j _ hne => hset x j hne⟩
    refine Copied.of_edit (g := e.index) h hedit he hsh (Mem.set_same ..) (h.pool.withMem _) rfl ⟨hr.1, hr.2, hk⟩ (fun _ _ => rfl)
      (fun f hf => ?_) ?_ (.inl ⟨rfl, by omega⟩)
    · exact funext fun j => hset f j fun e' => h.page hf (e'.1 ▸ hst)
    · exact funext fun j => hset _ j fun e' => hpage (e'.1 ▸ hst)
  · refine (getPage_sat h.pool).bind ?_
    rintro ⟨s1, g⟩ - hg
    have hs1 : s1 = { s with memoryMap := setCount s.memoryMap g 1, freePages := s.freePages - 1 } := hg.state
    subst hs1
    obtain ⟨hn, h0, hp0⟩ := hg.apart h
    dsimp only at hn h0 hp0
    have hge : e.index ≠ g := fun e' => by
      rw [e'] at hu
      omega
    have hd : (s.mem.fill g (s.mem e.index)) T.pde (didx v) = s.mem T.pde (didx v) := by
      rw [Mem.fill_other _ _ fun e' : T.pde = g => hn (e' ▸ hs.struct)]
    have hset : ∀ x j, x ≠ g → ¬ (x = (s.mem T.pde (didx v)).index ∧ j = tidx v) →
        ((s.mem.fill g (s.mem e.index)).set (s.mem T.pde (didx v)).index (tidx v) { e with index := g, write := true }) x j =
          s.mem x j := fun x j hx hne => by rw [Mem.set_other _ _ hne, Mem.fill_other _ _ hx]
    have hpool := hg.pool.count (n := setCount s.memoryMap g 1 e.index - 1) hr.1 hr.2
      (by rw [hg.state]; show setCount s.memoryMap g 1 e.index ≠ 0; rw [setCount_other _ _ hge]; omega)
      (by rw [setCount_other _ _ hge]; omega)
    have hedit : Edit s p T (didx v) (tidx v) { s with
        mem := (s.mem.fill g (s.mem e.index)).set (s.mem T.pde (didx v)).index (tidx v) { e with index := g, write := true }
        memoryMap := setCount (setCount s.memoryMap g 1) e.index (setCount s.memoryMap g 1 e.index - 1)
        freePages := s.freePages - 1 } :=
      ⟨hs, hp, halone, tidx_lt v, rfl, fun x j hx hne => hset x j (fun e' => hn (e' ▸ hx)) hne⟩
    have hcop := Copied.of_edit h hedit he hsh (Mem.set_same ..) (hpool.withMem _) rfl ⟨hg.low, hg.high, h0⟩
      (fun f _ => setCount_move hge (by omega) hg.free f) (fun f hf => ?_) ?_ (.inr hp0)
    · refine Sat.ok ?_
      unfold setEntry dirEntry
      dsimp only
      rw [hd]
      exact hcop
    · refine funext fun j => hset f j (fun e' => ?_) fun e' => h.page hf (e'.1 ▸ hst)
      rw [e'] at hf
      omega
    · refine funext fun j => ?_
      show Mem.set _ _ _ _ g j = _
      have hne : ¬ (g = (s.mem T.pde (didx v)).index ∧ j = tidx v) := fun e' => hn (e'.1 ▸ hst)
      rw [Mem.set_other _ _ hne, Mem.fill_same]

/-! ## Page faults -/

theorem didx_page (v : Nat) : didx (v / 0x1000 * 0x1000) = didx v := by
  unfold didx
  omega

theorem copy_page (h : Inv s) (hs : Slot s p T (didx v)) (he : cell s.mem T.pde (didx v) (tidx v) = some e)
    (hsh : e.shared = false) : Sat Lost (copyOnWrite T.pde 3 v s) (Copied s p T v) := by
  have hp := (cell_some.1 he).1
  rw [copyOnWrite, if_neg (fun hn => hn hp)]
  refine (copy_table h hs hp).bind fun s1 _ h1 => ?_
  have hs1 := hs.tasks h1.keeps.tasks
  have he1 := (h1.keeps.cell p T _ _ hs (tidx_lt v) id).trans he
  refine (copyEntry_sat h1.inv hs1 h1.present h1.write he1 hsh).mono fun t ht => ?_
  obtain ⟨e', g, hc, hs', ht', hcopy, hone⟩ := ht.page
  cases he1.symm.trans hc
  refine ⟨ht.inv, (h1.keeps.mono fun _ _ _ => False.elim).trans ht.keeps, ht.total.trans h1.total, e, g, he, hs', ht', ?_,
    hone.imp id fun h => ⟨h.1.before h1.keeps, h.2⟩⟩
  exact hcopy.trans (h1.keeps.data p T _ _ e hs (tidx_lt v) id he)

theorem pageFault_sat (h : Inv s) (hs : Slot s p T (didx v)) (present write : Bool) : Sat Lost (pageFault s T v present write)
    fun t => Linked s p T (v / 0x1000 * 0x1000) t ∨ Copied s p T v t := by
  have hfault : ∀ e, e = Fault.access ∨ e = Fault.noEntry → ¬ Lost e := by
    rintro e (rfl | rfl) (h | h | h) <;> cases h
  refine sat_ite (fun _ => ?_) fun _ => ?_
  · refine sat_ite (fun _ => Sat.error (hfault _ (.inl rfl))) fun _ => ?_
    refine sat_ite (fun _ => Sat.error (hfault _ (.inr rfl))) fun hp => ?_
    refine sat_ite (fun _ => Sat.error (hfault _ (.inl rfl))) fun hn => ?_
    rw [not_or, not_or, not_not] at hn
    exact (copy_page h hs (cell_some.2 ⟨not_not.1 hp, hn.1, rfl⟩) (Bool.eq_false_iff.2 hn.2.1)).mono fun t => .inr
  · refine sat_ite (fun _ => ?_) fun _ => Sat.error (hfault _ (.inl rfl))
    rw [← didx_page] at hs
    exact (linkPage_sat h hs).mono fun t => .inl

/-! ## Mapped pages -/

theorem Inv.retag (h : Inv s) (hs : Slot s p T (didx v)) (he : cell s.mem T.pde (didx v) (tidx v) = some e)
    (hlike : Like e w) : Inv (setEntry s T.pde v w) := by
  obtain ⟨hp, hpe, rfl⟩ := cell_some.1 he
  have hst : Shape s (setEntry s T.pde v w) := by
    refine ⟨rfl, fun x j _ => ?_⟩
    show Like _ (Mem.set _ _ _ _ x j)
    by_cases hx : x = (dirEntry s T.pde v).index ∧ j = tidx v
    · obtain ⟨rfl, rfl⟩ := hx
      rw [Mem.set_same]
      exact hlike
    · rw [Mem.set_other _ _ hx]
      exact Like.refl _
  have hdir : ∀ q U, s.tasks q = some U → ∀ j, (setEntry s T.pde v w).mem U.pde j = s.mem U.pde j := fun q U hq j =>
    Mem.set_other _ _ fun e => h.table_ne hs hp hq e.1.symm
  refine ⟨h.toLayout.shape hst rfl (fun q U hq => hdir q U hq 1023) (fun q U c hq _ => ?_), h.pool.withMem _, fun f hf => ?_⟩
  · rw [hdir q U hq.task]
    exact ⟨rfl, .inl⟩
  · rw [hst.tableUses, hst.pageUses]
    exact h.count f hf

theorem mmapEntry_like (e : Entry) (write shared privat : Bool) : Like e (mmapEntry e write shared privat) := ⟨rfl, rfl⟩

/-- A page of a mapping: a new page with the flags of the mapping, or new flags for a page that was there. -/
inductive Mapped (s : State) (p : Fin taskNr) (T : Task) (v : Nat) (write shared privat : Bool) (t : State) : Prop
  | new (g : Nat) (hi : Inv t) (hk : Keeps s (at' p (didx v) (tidx v)) t) (ht : t.totalPages = s.totalPages)
    (hb : cell s.mem T.pde (didx v) (tidx v) = none)
    (hc : cell t.mem T.pde (didx v) (tidx v) = some (mmapEntry (entryInit g) write shared privat))
    (hn : Unseen s g) (hu : pageUses t g = 1)
  | old (e : Entry) (hi : Inv t) (hc : cell s.mem T.pde (didx v) (tidx v) = some e)
    (ht : t = setEntry s T.pde v (mmapEntry e write shared privat))

theorem mmapPage_sat (h : Inv s) (hs : Slot s p T (didx v)) (write shared privat : Bool) :
    Sat Lost (mmapPage s T.pde v write shared privat) (Mapped s p T v write shared privat) := by
  refine (linkPage_sat h hs).bind fun s1 _ h1 => Sat.ok ?_
  rcases h1 with ⟨rfl, e, he⟩ | h1
  · have hent : pageEntry s1 T.pde v = e := (cell_some.1 he).2.2
    rw [hent]
    exact .old e (h.retag hs he (mmapEntry_like ..)) he rfl
  · obtain ⟨g, hg, hun, hu⟩ := h1.page
    have hs1 := hs.tasks h1.keeps.tasks
    have hl1 := h1.inv.toLayout
    obtain ⟨hp1, hpe, hent⟩ := cell_some.1 hg
    have hent' : pageEntry s1 T.pde v = entryInit g := hent
    rw [hent']
    have hset : ∀ x j, ¬ (x = (s1.mem T.pde (didx v)).index ∧ j = tidx v) →
        (setEntry s1 T.pde v (mmapEntry (entryInit g) write shared privat)).mem x j = s1.mem x j :=
      fun x j e => Mem.set_other _ _ e
    have hnew : (setEntry s1 T.pde v (mmapEntry (entryInit g) write shared privat)).mem (s1.mem T.pde (didx v)).index (tidx v) =
        mmapEntry (entryInit g) write shared privat := Mem.set_same ..
    have hedit : Edit s1 p T (didx v) (tidx v) (setEntry s1 T.pde v (mmapEntry (entryInit g) write shared privat)) :=
      ⟨hs1, hp1, h1.table, tidx_lt v, rfl, fun x j _ hne => hset x j hne⟩
    have hhere := hedit.here hl1 (by rw [hnew]; rfl)
    rw [hnew] at hhere
    have hpu := hedit.pageUses hl1 g
    have href : ref g (mmapEntry (entryInit g) write shared privat) = ref g (entryInit g) := ref_congr g rfl rfl
    rw [hnew, hent, href] at hpu
    refine .new g (h1.inv.retag hs1 hg (mmapEntry_like ..)) (h1.keeps.trans (hedit.keeps hl1 fun f hf => ?_)) h1.total h1.before
      hhere hun (by omega)
    exact funext fun j => hset f j fun e => h1.inv.page hf (e.1 ▸ hs1.structTable hp1)

theorem retag_cell (hinv : Inv s) (hs : Slot s p T (didx v)) (he : cell s.mem T.pde (didx v) (tidx v) = some e)
    (hw : w.present = true) {c j : Nat} (hq : Slot s q U c) :
    cell (setEntry s T.pde v w).mem U.pde c j = cell s.mem U.pde c j ∨
      c = didx v ∧ j = tidx v ∧ cell s.mem U.pde c j = some e ∧ cell (setEntry s T.pde v w).mem U.pde c j = some w := by
  obtain ⟨hp, hpe, rfl⟩ := cell_some.1 he
  have hdir : (setEntry s T.pde v w).mem U.pde c = s.mem U.pde c := Mem.set_other _ _ fun e => hinv.table_ne hs hp hq.task e.1.symm
  by_cases hx : (s.mem U.pde c).present = true ∧ (s.mem U.pde c).index = (s.mem T.pde (didx v)).index ∧ j = tidx v
  · obtain ⟨hpu, hidx, rfl⟩ := hx
    have hnew : (setEntry s T.pde v w).mem (s.mem U.pde c).index (tidx v) = w := by
      rw [hidx]
      exact Mem.set_same ..
    refine .inr ⟨hinv.once q U c p T _ hq hs hpu hp hidx, rfl, cell_some.2 ⟨hpu, ?_, ?_⟩, cell_some.2 ⟨?_, ?_, ?_⟩⟩
    · rw [hidx]
      exact hpe
    · rw [hidx]
    · rw [hdir]
      exact hpu
    · rw [hdir, hnew]
      exact hw
    · rw [hdir, hnew]
  · exact .inl (cell_congr (.of_eq hdir) fun hpu => Mem.set_other _ _ fun e => hx ⟨hpu, e.1, e.2⟩)

/-! ## Cells and uses -/

theorem store_cell (hinv : Inv s) (hf : 1 ≤ pageUses s f) {c j k : Nat} (hq : Slot s q U c) :
    cell (s.mem.set f k w) U.pde c j = cell s.mem U.pde c j :=
  cell_congr (.of_eq (Mem.set_other _ _ fun e => hinv.page hf (e.1 ▸ hq.struct)))
    fun hp => Mem.set_other _ _ fun e => hinv.page hf (e.1 ▸ hq.structTable hp)

theorem cell_unique {c j : Nat} {e' : Entry} (hs : Slot s p T d) (hq : Slot s q U c) (hi : i < 1024) (hj : j < 1024)
    (he : cell s.mem T.pde d i = some e) (he' : cell s.mem U.pde c j = some e') (hee : e'.index = e.index)
    (hu : pageUses s e.index = 1) : q = p ∧ c = d ∧ j = i := by
  obtain ⟨h1, h2, rfl⟩ := cell_some.1 he
  obtain ⟨h3, h4, rfl⟩ := cell_some.1 he'
  have hb1 := tableRefs_ge (m := s.mem) hi h2
  have hb2 := tableRefs_ge (m := s.mem) hj h4
  by_contra hne
  by_cases hc : q = p ∧ c = d
  · obtain ⟨rfl, rfl⟩ := hc
    cases hs.task.symm.trans hq.task
    have hji : j ≠ i := fun e => hne ⟨rfl, rfl, e⟩
    have h5 := two_le_sum (Finset.mem_range.2 hi) (Finset.mem_range.2 hj) hji
      fun k => ref (s.mem (s.mem T.pde c).index i).index (s.mem (s.mem T.pde c).index k)
    have h6 : below s.mem (s.mem (s.mem T.pde c).index i).index (s.mem T.pde c) ≤ pageUses s _ := slot_le hs
    rw [below_present h1, tableRefs] at h6
    have h7 : ref (s.mem (s.mem T.pde c).index i).index (s.mem (s.mem T.pde c).index j) = 1 := by
      rw [← hee]
      exact ref_self h4
    rw [ref_self h2, h7] at h5
    omega
  · have h5 : below s.mem (s.mem (s.mem T.pde d).index i).index (s.mem T.pde d) +
        below s.mem (s.mem (s.mem T.pde d).index i).index (s.mem U.pde c) ≤ pageUses s _ := two_slots_le hs hq hc
    rw [below_present h1, below_present h3] at h5
    rw [hee] at hb2
    omega

end Onix.Memory
