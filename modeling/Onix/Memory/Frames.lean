/-
The frames that mapping and unmapping take. A table that a process shares since a fork is copied before an entry of it changes, so a page
that is linked takes one frame or two, and a page that is unlinked may take one before it gives its own back. With the frames there, none of
the two fails.
-/
import Onix.Memory.Calls

namespace Onix.Memory

open Bool Finset Onix.Lib

variable {s t u : State} {p q : Fin taskNr} {T U : Task} {f g v a d i n : Nat} {e w : Entry}
variable {write shared privat : Bool}

/-! ## What is there -/

def there (s : State) (T : Task) (a : Nat) : Bool := (physical s T.pde a).isSome

def own (s : State) (T : Task) (d : Nat) : Bool :=
  (s.mem T.pde d).present && ((s.mem T.pde d).write || s.memoryMap (s.mem T.pde d).index == 1)

def last (s : State) (T : Task) (a : Nat) : Bool := s.memoryMap (pageEntry s T.pde a).index == 1

def linkNeed (there own : Nat → Bool) : Nat → Nat → Nat
  | 0, _ => 0
  | n + 1, v =>
    if there v then linkNeed there own n (v + 0x1000)
    else (if own (didx v) then 1 else 2) + linkNeed there (fun d => d == didx v || own d) n (v + 0x1000)

/-- The frames that are free after a page went: its table is copied if it is not own, and a frame without references comes back. -/
def left (own last : Bool) (free : Nat) : Nat := if own then if last then free + 1 else free else free - 1

/-- `n` pages from `v` on can be unlinked when `free` frames are free: after each page that goes a frame is free, as `put_page` asserts. -/
def unlinkable (there last own : Nat → Bool) : Nat → Nat → Nat → Prop
  | 0, _, _ => True
  | n + 1, v, free =>
    if there v then
      0 < left (own (didx v)) (last v) free ∧
        unlinkable there last (fun d => d == didx v || own d) n (v + 0x1000) (left (own (didx v)) (last v) free)
    else unlinkable there last own n (v + 0x1000) free

theorem there_cell : there s T a = (cell s.mem T.pde (didx a) (tidx a)).isSome := by
  unfold there
  rw [physical_cell, Option.isSome_map]

theorem there_iff : there s T a = true ↔ ∃ e, cell s.mem T.pde (didx a) (tidx a) = some e := by
  rw [there_cell, Option.isSome_iff_exists]

theorem own_iff : own s T d = true ↔
    (s.mem T.pde d).present = true ∧ ((s.mem T.pde d).write = true ∨ s.memoryMap (s.mem T.pde d).index = 1) := by
  unfold own
  rw [and_eq_true, or_eq_true, beq_iff_eq]

theorem page_step (v k : Nat) : v + (k + 1) * 0x1000 = v + 0x1000 + k * 0x1000 := by
  omega

theorem linkNeed_mono {there there' own own' : Nat → Bool} : ∀ {n v : Nat}, (∀ k < n, there' (v + k * 0x1000) = there (v + k * 0x1000)) →
    (∀ k < n, own (didx (v + k * 0x1000)) = true → own' (didx (v + k * 0x1000)) = true) →
    linkNeed there' own' n v ≤ linkNeed there own n v
  | 0, _, _, _ => le_refl _
  | n + 1, v, ht, ho => by
    have ht0 := ht 0 (Nat.succ_pos n)
    have ho0 := ho 0 (Nat.succ_pos n)
    rw [zero_mul, add_zero] at ht0 ho0
    have ht1 : ∀ k < n, there' (v + 0x1000 + k * 0x1000) = there (v + 0x1000 + k * 0x1000) := fun k hk => by
      rw [← page_step]
      exact ht (k + 1) (Nat.succ_lt_succ hk)
    have ho1 : ∀ k < n, own (didx (v + 0x1000 + k * 0x1000)) = true → own' (didx (v + 0x1000 + k * 0x1000)) = true := fun k hk => by
      rw [← page_step]
      exact ho (k + 1) (Nat.succ_lt_succ hk)
    unfold linkNeed
    rw [ht0]
    by_cases hv : there v = true
    · rw [if_pos hv, if_pos hv]
      exact linkNeed_mono ht1 ho1
    · rw [if_neg hv, if_neg hv]
      refine Nat.add_le_add ?_ (linkNeed_mono ht1 fun k hk hor => ?_)
      · by_cases h1 : own (didx v) = true
        · rw [if_pos h1, if_pos (ho0 h1)]
        · rw [if_neg h1]
          split <;> omega
      · rw [or_eq_true] at hor ⊢
        exact hor.imp_right (ho1 k hk)

theorem left_mono {own own' last last' : Bool} {free free' : Nat} (ho : own = true → own' = true) (hl : last = true → last' = true)
    (hf : free ≤ free') : left own last free ≤ left own' last' free' := by
  cases own with
  | true =>
    rw [ho rfl]
    cases last with
    | true =>
      rw [hl rfl]
      exact Nat.succ_le_succ hf
    | false =>
      show free ≤ if last' then free' + 1 else free'
      split <;> omega
  | false =>
    show free - 1 ≤ if own' then if last' then free' + 1 else free' else free' - 1
    split
    · split <;> omega
    · omega

theorem unlinkable_mono {there there' last last' own own' : Nat → Bool} : ∀ {n v free free' : Nat},
    (∀ k < n, there' (v + k * 0x1000) = there (v + k * 0x1000)) →
    (∀ k < n, there (v + k * 0x1000) = true → last (v + k * 0x1000) = true → last' (v + k * 0x1000) = true) →
    (∀ k < n, own (didx (v + k * 0x1000)) = true → own' (didx (v + k * 0x1000)) = true) → free ≤ free' →
    unlinkable there last own n v free → unlinkable there' last' own' n v free'
  | 0, _, _, _, _, _, _, _, _ => trivial
  | n + 1, v, free, free', ht, hl, ho, hf, h => by
    have ht0 := ht 0 (Nat.succ_pos n)
    have hl0 := hl 0 (Nat.succ_pos n)
    have ho0 := ho 0 (Nat.succ_pos n)
    rw [zero_mul, add_zero] at ht0 hl0 ho0
    have ht1 : ∀ k < n, there' (v + 0x1000 + k * 0x1000) = there (v + 0x1000 + k * 0x1000) := fun k hk => by
      rw [← page_step]
      exact ht (k + 1) (Nat.succ_lt_succ hk)
    have hl1 : ∀ k < n, there (v + 0x1000 + k * 0x1000) = true → last (v + 0x1000 + k * 0x1000) = true →
        last' (v + 0x1000 + k * 0x1000) = true := fun k hk => by
      rw [← page_step]
      exact hl (k + 1) (Nat.succ_lt_succ hk)
    have ho1 : ∀ k < n, own (didx (v + 0x1000 + k * 0x1000)) = true → own' (didx (v + 0x1000 + k * 0x1000)) = true := fun k hk => by
      rw [← page_step]
      exact ho (k + 1) (Nat.succ_lt_succ hk)
    unfold unlinkable at h ⊢
    rw [ht0]
    by_cases hv : there v = true
    · rw [if_pos hv] at h ⊢
      have hle := left_mono ho0 (hl0 hv) hf
      refine ⟨lt_of_lt_of_le h.1 hle, unlinkable_mono ht1 hl1 (fun k hk hor => ?_) hle h.2⟩
      rw [or_eq_true] at hor ⊢
      exact hor.imp_right (ho1 k hk)
    · rw [if_neg hv] at h ⊢
      exact unlinkable_mono ht1 hl1 ho1 hf h

/-! ## Frames from the pool -/

theorem getPage_some (h : Pool s) (hf : 0 < s.freePages) : ∃ g, getPage s =
    .ok ({ s with memoryMap := setCount s.memoryMap g 1, freePages := s.freePages - 1 }, g) := by
  have hz := h.free
  unfold zeros at hz
  obtain ⟨f, hm, h0⟩ : ∃ f ∈ Finset.Ico s.startPage s.totalPages, s.memoryMap f = 0 := by
    by_contra hno
    have : ∑ f ∈ Finset.Ico s.startPage s.totalPages, (if s.memoryMap f = 0 then 1 else 0) = 0 :=
      sum_eq_zero fun f hm => if_neg fun h0 => hno ⟨f, hm, h0⟩
    omega
  rw [mem_Ico] at hm
  have hsome : ((List.range' s.startPage (s.totalPages - s.startPage)).find? fun i => s.memoryMap i = 0).isSome := by
    rw [List.find?_isSome]
    exact ⟨f, List.mem_range'_1.2 (by omega), by simpa using h0⟩
  obtain ⟨g, hg⟩ := Option.isSome_iff_exists.1 hsome
  refine ⟨g, ?_⟩
  unfold getPage
  rw [hg]
  exact if_neg (by omega)

theorem getPage_got (h : Pool s) (hf : 0 < s.freePages) : ∃ g, getPage s =
    .ok ({ s with memoryMap := setCount s.memoryMap g 1, freePages := s.freePages - 1 }, g) ∧
    Got s ({ s with memoryMap := setCount s.memoryMap g 1, freePages := s.freePages - 1 }, g) := by
  obtain ⟨g, hg⟩ := getPage_some h hf
  exact ⟨g, hg, (getPage_sat h).of_ok hg⟩

theorem Pool.free_lt (h : Pool s) : s.freePages + 1 < s.totalPages := by
  have hstart := h.start
  have htotal := h.total
  have hz := h.free
  have hle : zeros s ≤ s.totalPages - kernelFrames := by
    unfold zeros
    rw [← sum_Ico_consecutive _ hstart htotal, sum_eq_zero fun f hf => ?_, zero_add]
    · refine le_trans (sum_le_sum (g := fun _ => 1) fun f _ => ?_) ?_
      · split <;> omega
      · rw [← card_eq_sum_ones, Nat.card_Ico]
    · rw [h.kernel f (mem_Ico.1 hf).2]
      rfl
  have hpos : 1 < kernelFrames := by decide
  omega

theorem putPage_some (h : Pool s) (hl : kernelFrames ≤ f) (hh : f < s.totalPages) (hc : 1 ≤ s.memoryMap f)
    (hf : 0 < if s.memoryMap f = 1 then s.freePages + 1 else s.freePages) : putPage s f = .ok { s with
      memoryMap := setCount s.memoryMap f (s.memoryMap f - 1)
      freePages := if s.memoryMap f = 1 then s.freePages + 1 else s.freePages } := by
  have hstart := h.start
  have hlt := h.free_lt
  have hone : (s.memoryMap f - 1 = 0) = (s.memoryMap f = 1) := propext ⟨fun h => by omega, fun h => by omega⟩
  have hnew : (if s.memoryMap f = 1 then s.freePages + 1 else s.freePages) < s.totalPages := by
    split <;> omega
  unfold putPage
  rw [if_neg (by omega), if_neg (by omega)]
  simp only [hone]
  exact if_pos ⟨hf, hnew⟩

/-! ## Tables -/

/-- `n` frames were taken; own tables are still own, and the frames of the pages have the references they had. -/
structure Spent (s : State) (T : Task) (n : Nat) (t : State) : Prop where
  free : t.freePages + n = s.freePages
  own : ∀ d, 4 ≤ d → d < 64 → own s T d = true → own t T d = true
  counts : ∀ c j e, 4 ≤ c → c < 64 → j < 1024 → cell s.mem T.pde c j = some e → t.memoryMap e.index = s.memoryMap e.index

theorem Spent.refl (s : State) (T : Task) : Spent s T 0 s := ⟨rfl, fun _ _ _ h => h, fun _ _ _ _ _ _ _ => rfl⟩

theorem Spent.trans {m : Nat} (h1 : Spent s T n t) (hk : Keeps s nowhere t) (hp : s.tasks p = some T) (h2 : Spent t T m u) :
    Spent s T (n + m) u := by
  have e1 := h1.free
  have e2 := h2.free
  refine ⟨by omega, fun d hd1 hd2 ho => h2.own d hd1 hd2 (h1.own d hd1 hd2 ho), fun c j e hc1 hc2 hj he => ?_⟩
  rw [← h1.counts c j e hc1 hc2 hj he]
  exact h2.counts c j e hc1 hc2 hj ((hk.cell p T c j ⟨hp, hc1, hc2⟩ hj id).trans he)

theorem own_same (ho : own s T d = true) (hm : t.mem T.pde d = s.mem T.pde d)
    (hc : (s.mem T.pde d).present = true → t.memoryMap (s.mem T.pde d).index = s.memoryMap (s.mem T.pde d).index) :
    own t T d = true := by
  rw [own_iff] at ho ⊢
  rw [hm, hc ho.1]
  exact ho

theorem own_write (hp : (t.mem T.pde d).present = true) (hw : (t.mem T.pde d).write = true) : own t T d = true :=
  own_iff.2 ⟨hp, .inl hw⟩

theorem Got.count {r : State × Nat} (hi : Inv s) (hg : Got s r) (hf : 1 ≤ tableUses s f ∨ 1 ≤ pageUses s f) :
    setCount s.memoryMap r.2 1 f = s.memoryMap f := by
  refine setCount_other _ _ fun e => ?_
  obtain ⟨-, h0, h1⟩ := hg.apart hi
  rw [e] at hf
  omega

theorem Got.spent {r : State × Nat} (hi : Inv s) (hg : Got s r) (hs : Slot s p T d) (hfree : 0 < s.freePages)
    (hf : t.freePages = s.freePages - 1) (hc : t.memoryMap = setCount s.memoryMap r.2 1)
    (hm : ∀ c, 4 ≤ c → c < 64 → c ≠ d → t.mem T.pde c = s.mem T.pde c)
    (hd : t.mem T.pde d = s.mem T.pde d ∨ own t T d = true) : Spent s T 1 t := by
  refine ⟨by omega, fun c hc1 hc2 ho => ?_, fun c j e hc1 hc2 hj he => ?_⟩
  · have hcs : Slot s p T c := ⟨hs.task, hc1, hc2⟩
    have hsame : t.mem T.pde c = s.mem T.pde c → own t T c = true := fun h => by
      refine own_same ho h fun hp => ?_
      rw [hc]
      exact hg.count hi (.inl (hcs.table hp))
    by_cases hcd : c = d
    · subst hcd
      exact hd.elim hsame id
    · exact hsame (hm c hc1 hc2 hcd)
  · rw [hc]
    exact hg.count hi (.inr (cell_uses ⟨hs.task, hc1, hc2⟩ hj he))

theorem createTable_some (hi : Inv s) (hs : Slot s p T (didx v)) (hf : (s.mem T.pde (didx v)).present = false → 0 < s.freePages) :
    ∃ t, createTable s T.pde v = .ok t ∧ Spent s T (if (s.mem T.pde (didx v)).present then 0 else 1) t ∧
      ((s.mem T.pde (didx v)).present = true → t = s) ∧ ((s.mem T.pde (didx v)).present = false → own t T (didx v) = true) := by
  cases hp : (s.mem T.pde (didx v)).present with
  | true =>
    exact ⟨s, if_pos hp, .refl s T, fun _ => rfl, (nomatch ·)⟩
  | false =>
    obtain ⟨g, hget, hg⟩ := getPage_got hi.pool (hf hp)
    have hgp : T.pde ≠ g := fun e => (hg.apart hi).1 (e ▸ hs.struct)
    have hw : (s.mem.set T.pde (didx v) (entryInit g)).fill g (fun _ => .zero) T.pde (didx v) = entryInit g := by
      rw [Mem.fill_other _ _ hgp, Mem.set_same]
    have hown : own { s with
        mem := (s.mem.set T.pde (didx v) (entryInit g)).fill g fun _ => .zero
        memoryMap := setCount s.memoryMap g 1
        freePages := s.freePages - 1 } T (didx v) = true := by
      refine own_write ?_ ?_
      · show ((s.mem.set _ _ _).fill g _ T.pde (didx v)).present = true
        rw [hw]
        rfl
      · show ((s.mem.set _ _ _).fill g _ T.pde (didx v)).write = true
        rw [hw]
        rfl
    have hp' : ¬ (dirEntry s T.pde v).present = true := by
      unfold dirEntry
      rw [hp]
      decide
    unfold createTable
    rw [if_neg hp', hget]
    refine ⟨_, rfl, ?_, (nomatch ·), fun _ => hown⟩
    refine hg.spent hi hs (hf hp) rfl rfl (fun c _ _ hc => ?_) (.inr hown)
    show (s.mem.set _ _ _).fill g _ T.pde c = _
    rw [Mem.fill_other _ _ hgp, Mem.set_other _ _ fun e => hc e.2]

theorem copy_table_some (hi : Inv s) (hs : Slot s p T (didx v)) (hp : (s.mem T.pde (didx v)).present = true)
    (hf : own s T (didx v) = false → 0 < s.freePages) :
    ∃ t, copyOnWrite T.pde 2 (entryAddr v) s = .ok t ∧ Spent s T (if own s T (didx v) then 0 else 1) t ∧ own t T (didx v) = true := by
  have hself := (hi.dir p T hs.task).2.2
  have hr := hi.range _ (.inl (hs.table hp))
  have huse := hs.table hp
  have hcnt := hi.count _ hr.1
  have hpg := (hi.kinds _).resolve_left (show tableUses s (s.mem T.pde (didx v)).index ≠ 0 by omega)
  rw [copyOnWrite_window hself]
  unfold copyEntry
  rw [pageEntry_window hself]
  by_cases hw : (s.mem T.pde (didx v)).write = true
  · have hown : own s T (didx v) = true := own_iff.2 ⟨hp, .inl hw⟩
    rw [if_pos hw, if_pos hown]
    exact ⟨s, rfl, .refl s T, hown⟩
  · rw [if_neg hw, if_neg (by omega)]
    by_cases h1 : s.memoryMap (s.mem T.pde (didx v)).index = 1
    · have hown : own s T (didx v) = true := own_iff.2 ⟨hp, .inr h1⟩
      rw [if_pos h1, if_pos hown, setEntry_window hself]
      have hnew : own { s with mem := s.mem.set T.pde (didx v) { s.mem T.pde (didx v) with write := true } } T (didx v) = true := by
        refine own_write ?_ ?_
        · show (Mem.set _ _ _ _ _ _).present = true
          rw [Mem.set_same]
          exact hp
        · show (Mem.set _ _ _ _ _ _).write = true
          rw [Mem.set_same]
      refine ⟨_, rfl, ⟨rfl, fun c hc1 hc2 ho => ?_, fun _ _ _ _ _ _ _ => rfl⟩, hnew⟩
      by_cases hc : c = didx v
      · rw [hc]
        exact hnew
      · exact own_same ho (Mem.set_other _ _ fun e => hc e.2) fun _ => rfl
    · have hown : own s T (didx v) = false := by
        refine eq_false_iff.2 fun h => ?_
        exact (own_iff.1 h).2.elim hw h1
      obtain ⟨g, hget, hg⟩ := getPage_got hi.pool (hf hown)
      obtain ⟨hn, h0, -⟩ := hg.apart hi
      have hgp : g ≠ T.pde := fun e => hn (e ▸ hs.struct)
      have hself' : (s.mem.fill g (s.mem (s.mem T.pde (didx v)).index)) T.pde 1023 = entryInit T.pde := by
        rw [Mem.fill_other _ _ hgp.symm, hself]
      rw [if_neg h1, if_neg (by rw [hown]; decide), hget]
      refine ⟨_, rfl, ?_⟩
      rw [setEntry_window hself']
      -- the new entry is writable
      have hnew : own { s with
          mem := (s.mem.fill g (s.mem (s.mem T.pde (didx v)).index)).set T.pde (didx v)
            { s.mem T.pde (didx v) with index := g, write := true }
          memoryMap := setCount (setCount s.memoryMap g 1) (s.mem T.pde (didx v)).index
            (setCount s.memoryMap g 1 (s.mem T.pde (didx v)).index - 1)
          freePages := s.freePages - 1 } T (didx v) = true := by
        refine own_write ?_ ?_
        · show (Mem.set _ _ _ _ _ _).present = true
          rw [Mem.set_same]
          exact hp
        · show (Mem.set _ _ _ _ _ _).write = true
          rw [Mem.set_same]
      have hfree := hf hown
      refine ⟨⟨?_, fun c hc1 hc2 ho => ?_, fun c j e hc1 hc2 hj he => ?_⟩, hnew⟩
      · show s.freePages - 1 + 1 = s.freePages
        omega
      · by_cases hc : c = didx v
        · rw [hc]
          exact hnew
        · have hcs : Slot s p T c := ⟨hs.task, hc1, hc2⟩
          refine own_same ho ?_ fun hpc => ?_
          · show Mem.set (s.mem.fill g (s.mem (s.mem T.pde (didx v)).index)) _ _ _ T.pde c = _
            rw [Mem.set_other _ _ fun e => hc e.2, Mem.fill_other _ _ hgp.symm]
          · show setCount (setCount s.memoryMap g 1) _ _ _ = _
            rw [setCount_other _ _ fun e => hc (hi.once p T c p T _ hcs hs hpc hp e)]
            exact hg.count hi (.inl (hcs.table hpc))
      · have hu := cell_uses ⟨hs.task, hc1, hc2⟩ hj he
        show setCount (setCount s.memoryMap g 1) _ _ _ = _
        rw [setCount_other _ _ fun e' => by rw [e'] at hu; omega]
        exact hg.count hi (.inr hu)

/-! ## One page -/

theorem linkPage_some (hi : Inv s) (hs : Slot s p T (didx v)) (ha : v % 0x1000 = 0)
    (hf : there s T v = false → (if own s T (didx v) then 1 else 2) ≤ s.freePages) :
    ∃ t, linkPage s T.pde v = .ok t ∧ (there s T v = true → t = s) ∧
      (there s T v = false → Spent s T (if own s T (didx v) then 1 else 2) t ∧ own t T (didx v) = true) := by
  have halign : ¬ v % 0x1000 ≠ 0 := fun h => h ha
  cases hv : there s T v with
  | true =>
    obtain ⟨e, he⟩ := there_iff.1 hv
    obtain ⟨hp, hpe, -⟩ := cell_some.1 he
    refine ⟨s, ?_, fun _ => rfl, (nomatch ·)⟩
    unfold linkPage createTable
    rw [if_neg halign, if_pos (show (dirEntry s T.pde v).present = true from hp)]
    exact if_pos hpe
  | false =>
    have hfree := hf hv
    have hcost : 1 ≤ if own s T (didx v) then 1 else 2 := by
      split <;> omega
    obtain ⟨s1, h1, hsp1, hsame, hnew⟩ := createTable_some (v := v) hi hs fun _ => by omega
    obtain ⟨hi1, hk1, -, hp1, -⟩ := (createTable_sat hi hs).of_ok h1
    have hs1 := hs.tasks hk1.tasks
    have hn1 : ¬ (pageEntry s1 T.pde v).present = true := fun h => by
      have hc : cell s1.mem T.pde (didx v) (tidx v) = some (pageEntry s1 T.pde v) := cell_some.2 ⟨hp1, h, rfl⟩
      rw [hk1.cell p T _ _ hs (tidx_lt v) id] at hc
      rw [there_iff.2 ⟨_, hc⟩] at hv
      cases hv
    -- a new table is not copied, so the two frames are never three
    have htwo : (if (s.mem T.pde (didx v)).present then 0 else 1) + (if own s1 T (didx v) then 0 else 1) + 1 =
        if own s T (didx v) then 1 else 2 := by
      cases hp : (s.mem T.pde (didx v)).present with
      | true =>
        rw [hsame hp]
        cases own s T (didx v) <;> rfl
      | false =>
        have hno : own s T (didx v) = false := by
          unfold own
          rw [hp]
          rfl
        rw [hnew hp, hno]
        rfl
    have hfree1 := hsp1.free
    obtain ⟨s2, h2, hsp2, hown2⟩ := copy_table_some (v := v) hi1 hs1 hp1 fun hno => by
      omega
    have h2' := (copy_table hi1 hs1 hp1).of_ok h2
    have hs2 := hs1.tasks h2'.keeps.tasks
    have hfree2 := hsp2.free
    obtain ⟨g, hget, hg⟩ := getPage_got (s := s2) h2'.inv.pool (by omega)
    have htable : ∀ c, (setEntry { s2 with memoryMap := setCount s2.memoryMap g 1, freePages := s2.freePages - 1 } T.pde v
        (entryInit g)).mem T.pde c = s2.mem T.pde c := fun c =>
      Mem.set_other _ _ fun e => h2'.inv.table_ne hs2 h2'.present hs2.task e.1.symm
    have hsp3 : Spent s2 T 1 (setEntry { s2 with memoryMap := setCount s2.memoryMap g 1, freePages := s2.freePages - 1 } T.pde v
        (entryInit g)) :=
      hg.spent h2'.inv hs2 (by omega) rfl rfl (fun c _ _ _ => htable c) (.inl (htable _))
    refine ⟨_, ?_, (nomatch ·), fun _ => ⟨?_, hsp3.own _ hs.low hs.high hown2⟩⟩
    · unfold linkPage
      rw [if_neg halign, h1]
      show (if (pageEntry s1 T.pde v).present then pure s1 else _) = _
      rw [if_neg hn1, h2]
      show (getPage s2 >>= _) = _
      rw [hget]
      rfl
    · rw [← htwo]
      exact (hsp1.trans hk1 hs.task hsp2).trans (hk1.trans h2'.keeps) hs.task hsp3

theorem retag_own (hi : Inv s) (hs : Slot s p T (didx v)) (hp : (s.mem T.pde (didx v)).present = true) (ho : own s T d = true) :
    own (setEntry s T.pde v w) T d = true :=
  own_same ho (Mem.set_other _ _ fun e => hi.table_ne hs hp hs.task e.1.symm) fun _ => rfl

theorem mmapPage_some (write shared privat : Bool) (hi : Inv s) (hs : Slot s p T (didx v)) (ha : v % 0x1000 = 0)
    (hf : there s T v = false → (if own s T (didx v) then 1 else 2) ≤ s.freePages) :
    ∃ t, mmapPage s T.pde v write shared privat = .ok t ∧
      t.freePages + (if there s T v then 0 else if own s T (didx v) then 1 else 2) = s.freePages ∧
      ∀ d, 4 ≤ d → d < 64 → own s T d = true ∨ d = didx v ∧ there s T v = false → own t T d = true := by
  obtain ⟨t, ht, hsame, hnew⟩ := linkPage_some hi hs ha hf
  refine ⟨setEntry t T.pde v (mmapEntry (pageEntry t T.pde v) write shared privat), ?_, ?_, fun d h1 h2 ho => ?_⟩
  · unfold mmapPage
    rw [ht]
    rfl
  · show t.freePages + _ = _
    cases hv : there s T v with
    | true =>
      rw [hsame hv]
      rfl
    | false => exact (hnew hv).1.free
  · have hlink := (linkPage_sat hi hs).of_ok ht
    cases hv : there s T v with
    | true =>
      obtain ⟨e, he⟩ := there_iff.1 hv
      rw [hsame hv]
      refine retag_own hi hs (cell_some.1 he).1 (ho.resolve_right fun h => ?_)
      rw [hv] at h
      cases h.2
    | false =>
      obtain ⟨hsp, hown⟩ := hnew hv
      have hadd : Added s p T v t := hlink.resolve_left fun h => by
        rw [there_iff.2 h.2] at hv
        cases hv
      obtain ⟨g, hg, -⟩ := hadd.page
      refine retag_own hadd.inv (hs.tasks hadd.keeps.tasks) (cell_some.1 hg).1 ?_
      rcases ho with ho | ⟨rfl, -⟩
      · exact hsp.own d h1 h2 ho
      · exact hown

theorem later_there (hk : Keeps s (at' p (didx v) (tidx v)) t) (hp : s.tasks p = some T) (hv : InUser v) {a : Nat} (ha : InUser a)
    (hne : a / 0x1000 ≠ v / 0x1000) : there t T a = there s T a := by
  rw [there_cell, there_cell, hk.cell p T _ _ (ha.slot hp) (tidx_lt a) fun e => hne ((same_page ha.2 hv.2).1 e.2)]

theorem Mapped.later (ht : Mapped s p T v write shared privat t) (hi : Inv s) (hp : s.tasks p = some T)
    (hv : InUser v) {a : Nat} (ha : InUser a) (hne : a / 0x1000 ≠ v / 0x1000) : there t T a = there s T a := by
  cases ht with
  | new g _ hk => exact later_there hk hp hv ha hne
  | old e _ hc ht =>
    subst ht
    have hw : (mmapEntry e write shared privat).present = true := by
      rw [← (cell_some.1 hc).2.2]
      exact (cell_some.1 hc).2.1
    rw [there_cell, there_cell]
    rcases retag_cell hi (hv.slot hp) hc hw (j := tidx a) (ha.slot hp) with h | ⟨h1, h2, -, -⟩
    · rw [h]
    · exact absurd ((same_page ha.2 hv.2).1 ⟨h1, h2⟩) hne

theorem Mapped.inv (ht : Mapped s p T v write shared privat t) : Inv t := by
  cases ht with
  | new _ hi => exact hi
  | old _ hi => exact hi

theorem Mapped.tasks (ht : Mapped s p T v write shared privat t) : t.tasks = s.tasks := by
  cases ht with
  | new _ _ hk => exact hk.tasks
  | old _ _ _ ht =>
    subst ht
    rfl

theorem mmapPages_some (write shared privat : Bool) : ∀ n v s, Inv s → s.tasks p = some T → v % 0x1000 = 0 → userExecAddr ≤ v →
    v + n * 0x1000 ≤ userStackTop → linkNeed (there s T) (own s T) n v ≤ s.freePages →
    ∃ t, mmapPages T.pde write shared privat n v s = .ok t
  | 0, _, s, _, _, _, _, _, _ => ⟨s, rfl⟩
  | n + 1, v, s, hi, hp, ha, h1, h2, hf => by
    have hv : InUser v := ⟨h1, by omega⟩
    have hlater : ∀ k < n, InUser (v + 0x1000 + k * 0x1000) := fun k hk => ⟨by omega, by omega⟩
    unfold linkNeed at hf
    obtain ⟨t, ht, hfree, hown⟩ := mmapPage_some write shared privat hi (hv.slot hp) ha fun hn => by
      rw [hn] at hf
      exact le_trans (Nat.le_add_right _ _) hf
    have hm := (mmapPage_sat hi (hv.slot hp) write shared privat).of_ok ht
    have hthere : ∀ k < n, there t T (v + 0x1000 + k * 0x1000) = there s T (v + 0x1000 + k * 0x1000) := fun k hk =>
      hm.later hi hp hv (hlater k hk) (by omega)
    have hneed : linkNeed (there t T) (own t T) n (v + 0x1000) ≤ t.freePages := by
      cases hn : there s T v with
      | true =>
        rw [hn] at hf hfree
        have hmono : linkNeed (there t T) (own t T) n (v + 0x1000) ≤ linkNeed (there s T) (own s T) n (v + 0x1000) := by
          refine linkNeed_mono hthere fun k hk ho => ?_
          have hs := (hlater k hk).slot hp
          exact hown _ hs.low hs.high (.inl ho)
        exact hmono.trans (hf.trans (le_of_eq hfree.symm))
      | false =>
        rw [hn] at hf hfree
        simp only [false_eq_true, if_false] at hf hfree
        have hmono : linkNeed (there t T) (own t T) n (v + 0x1000) ≤
            linkNeed (there s T) (fun d => d == didx v || own s T d) n (v + 0x1000) := by
          refine linkNeed_mono hthere fun k hk ho => ?_
          have hs := (hlater k hk).slot hp
          rw [or_eq_true, beq_iff_eq] at ho
          exact hown _ hs.low hs.high (ho.symm.imp_right fun h => ⟨h, hn⟩)
        omega
    obtain ⟨u, hu⟩ := mmapPages_some write shared privat n (v + 0x1000) t hm.inv (by rw [hm.tasks, hp])
      (by omega) (by omega) (by omega) hneed
    refine ⟨u, ?_⟩
    unfold mmapPages
    rw [ht]
    exact hu

/-! ## A page goes -/

/-- The page goes; its table is own then, and a frame that had one reference, to another page, has it still. -/
structure Unlinked (s : State) (T : Task) (v : Nat) (t : State) : Prop where
  free : left (own s T (didx v)) (last s T v) s.freePages ≤ t.freePages
  mine : own t T (didx v) = true
  own : ∀ d, 4 ≤ d → d < 64 → own s T d = true → own t T d = true
  last : ∀ a, InUser a → a / 0x1000 ≠ v / 0x1000 → there s T a = true → last s T a = true → last t T a = true

theorem last_cell (he : cell s.mem T.pde (didx v) (tidx v) = some e) : last s T v = (s.memoryMap e.index == 1) := by
  have hent : pageEntry s T.pde v = e := (cell_some.1 he).2.2
  unfold last
  rw [hent]

theorem dropEntry_some (hi : Inv s) (hs : Slot s p T (didx v)) (he : cell s.mem T.pde (didx v) (tidx v) = some e)
    (hf : 0 < if s.memoryMap e.index = 1 then s.freePages + 1 else s.freePages) : ∃ t, dropEntry s T.pde v = .ok t ∧
      t.mem = s.mem.set (s.mem T.pde (didx v)).index (tidx v) { e with present := false } ∧
      t.memoryMap = setCount s.memoryMap e.index (s.memoryMap e.index - 1) ∧
      t.freePages = if s.memoryMap e.index = 1 then s.freePages + 1 else s.freePages := by
  have hu := cell_uses hs (tidx_lt v) he
  have hr := hi.range _ (.inr hu)
  have hc := hi.count _ hr.1
  have hent : pageEntry s T.pde v = e := (cell_some.1 he).2.2
  have hput := putPage_some (s := setEntry s T.pde v { e with present := false }) (hi.pool.withMem _) hr.1 hr.2
    (show 1 ≤ s.memoryMap _ by omega) hf
  have hdrop : dropEntry s T.pde v = putPage (setEntry s T.pde v { e with present := false }) e.index := by
    unfold dropEntry
    rw [hent]
  exact ⟨_, hdrop.trans hput, rfl, rfl, rfl⟩

theorem last_apart (hi : Inv s) (hp : s.tasks p = some T) (hv : InUser v) {a : Nat} (ha : InUser a) (hne : a / 0x1000 ≠ v / 0x1000)
    (he : cell s.mem T.pde (didx v) (tidx v) = some e) (hw : cell s.mem T.pde (didx a) (tidx a) = some w)
    (h1 : s.memoryMap w.index = 1) : w.index ≠ e.index := by
  intro heq
  have hu := cell_uses (ha.slot hp) (tidx_lt a) hw
  have hr := hi.range _ (.inr hu)
  have hc := hi.count _ hr.1
  obtain ⟨-, h2, h3⟩ := cell_unique (ha.slot hp) (hv.slot hp) (tidx_lt a) (tidx_lt v) hw he heq.symm (by omega)
  exact hne ((same_page ha.2 hv.2).1 ⟨h2.symm, h3.symm⟩)

theorem unlinkPage_some (hi : Inv s) (hp : s.tasks p = some T) (hv : InUser v) (ha : v % 0x1000 = 0)
    (hf : there s T v = true → 0 < left (own s T (didx v)) (last s T v) s.freePages) :
    ∃ t, unlinkPage s T.pde v = .ok t ∧ (there s T v = false → t = s) ∧ (there s T v = true → Unlinked s T v t) := by
  have hs := hv.slot hp
  have halign : ¬ v % 0x1000 ≠ 0 := fun h => h ha
  unfold unlinkPage
  rw [if_neg halign, physical_cell]
  cases hc : cell s.mem T.pde (didx v) (tidx v) with
  | none =>
    refine ⟨s, rfl, fun _ => rfl, fun h => ?_⟩
    rw [there_cell, hc] at h
    cases h
  | some e =>
    have hthere : there s T v = true := there_iff.2 ⟨e, hc⟩
    have hpos := hf hthere
    have hpres := (cell_some.1 hc).1
    have hlast := last_cell hc
    obtain ⟨s1, h1, hsp, hown⟩ := copy_table_some (v := v) hi hs hpres fun hno => by
      rw [hno] at hpos
      have hpos : 0 < s.freePages - 1 := hpos
      omega
    have h1' := (copy_table hi hs hpres).of_ok h1
    have hs1 := hs.tasks h1'.keeps.tasks
    have hc1 := (h1'.keeps.cell p T _ _ hs (tidx_lt v) id).trans hc
    have hcount := hsp.counts _ _ e hs.low hs.high (tidx_lt v) hc
    have hfree := hsp.free
    -- copying the table changed no count of a page
    have hleft : left (own s T (didx v)) (last s T v) s.freePages ≤
        if s1.memoryMap e.index = 1 then s1.freePages + 1 else s1.freePages := by
      rw [hcount, hlast]
      unfold left
      cases ho : own s T (didx v) with
      | true =>
        rw [ho] at hfree
        simp only [if_true, add_zero, beq_iff_eq] at hfree ⊢
        rw [hfree]
      | false =>
        rw [ho] at hfree
        simp only [false_eq_true, if_false] at hfree ⊢
        split <;> omega
    obtain ⟨t, hdrop, hm, hmap, hfr⟩ := dropEntry_some h1'.inv hs1 hc1 (lt_of_lt_of_le hpos hleft)
    -- a frame with one reference is no table and not the page that goes
    have hother : ∀ w a, InUser a → a / 0x1000 ≠ v / 0x1000 → cell s1.mem T.pde (didx a) (tidx a) = some w →
        s1.memoryMap w.index = 1 → t.memoryMap w.index = 1 := fun w a hau hne hw hone => by
      rw [hmap, setCount_other _ _ (last_apart h1'.inv hs1.task hv hau hne hc1 hw hone), hone]
    have htable : ∀ d, 4 ≤ d → d < 64 → own s1 T d = true → own t T d = true := fun d h2 h3 ho => by
      refine own_same ho ?_ fun hpd => ?_
      · rw [hm]
        exact Mem.set_other _ _ fun e' => h1'.inv.table_ne hs1 h1'.present hs1.task e'.1.symm
      · have hds : Slot s1 p T d := ⟨hs1.task, h2, h3⟩
        have hu := hds.table hpd
        have hpu := cell_uses hs1 (tidx_lt v) hc1
        have hk := (h1'.inv.kinds e.index).resolve_right (by omega)
        rw [hmap, setCount_other _ _ fun e' => by rw [e'] at hu; omega]
    refine ⟨t, ?_, fun h => ?_, fun _ => ⟨?_, htable _ hs.low hs.high hown, fun d h2 h3 ho => ?_, fun a hau hne hta hl => ?_⟩⟩
    · rw [if_neg (fun h => nomatch h), h1]
      exact hdrop
    · rw [hthere] at h
      cases h
    · rw [hfr]
      exact hleft
    · exact htable d h2 h3 (hsp.own d h2 h3 ho)
    · obtain ⟨w, hw⟩ := there_iff.1 hta
      have has := hau.slot hp
      have hw1 := (h1'.keeps.cell p T _ _ has (tidx_lt a) id).trans hw
      have hcw := hsp.counts _ _ w has.low has.high (tidx_lt a) hw
      rw [last_cell hw, beq_iff_eq] at hl
      have hwt : cell t.mem T.pde (didx a) (tidx a) = some w := by
        have hrem := (dropEntry_sat h1'.inv hs1 h1'.present h1'.write hc1).of_ok hdrop
        rw [hrem.keeps.cell p T _ _ (has.tasks h1'.keeps.tasks) (tidx_lt a) fun e' => hne ((same_page hau.2 hv.2).1 e'.2)]
        exact hw1
      rw [last_cell hwt, beq_iff_eq]
      exact hother w a hau hne hw1 (hcw.trans hl)

theorem unlinkable_step (hi : Inv s) (hp : s.tasks p = some T) (h1 : userExecAddr ≤ v) (h2 : v + (n + 1) * 0x1000 ≤ userStackTop)
    (ha : v % 0x1000 = 0) (hf : unlinkable (there s T) (last s T) (own s T) (n + 1) v s.freePages) :
    ∃ t, unlinkPage s T.pde v = .ok t ∧ Removed s p T v t ∧
      unlinkable (there t T) (last t T) (own t T) n (v + 0x1000) t.freePages := by
  have hv : InUser v := ⟨h1, by omega⟩
  have hlater : ∀ k < n, InUser (v + 0x1000 + k * 0x1000) := fun k hk => ⟨by omega, by omega⟩
  have hne : ∀ k, (v + 0x1000 + k * 0x1000) / 0x1000 ≠ v / 0x1000 := fun k => by omega
  unfold unlinkable at hf
  obtain ⟨t, ht, hsame, hgone⟩ := unlinkPage_some hi hp hv ha fun hn => by
    rw [hn] at hf
    exact hf.1
  have hrem := (unlinkPage_sat hi (hv.slot hp)).of_ok ht
  have hthere : ∀ k < n, there t T (v + 0x1000 + k * 0x1000) = there s T (v + 0x1000 + k * 0x1000) := fun k hk =>
    later_there hrem.keeps hp hv (hlater k hk) (hne k)
  refine ⟨t, ht, hrem, ?_⟩
  cases hn : there s T v with
  | false =>
    rw [hn] at hf
    rw [hsame hn]
    exact hf
  | true =>
    rw [hn] at hf
    have hu := hgone hn
    refine unlinkable_mono hthere (fun k hk => hu.last _ (hlater k hk) (hne k)) (fun k hk ho => ?_) hu.free hf.2
    have hs := (hlater k hk).slot hp
    rw [or_eq_true, beq_iff_eq] at ho
    rcases ho with hd | ho
    · rw [hd]
      exact hu.mine
    · exact hu.own _ hs.low hs.high ho

theorem unlinkPages_some : ∀ n v s, Inv s → s.tasks p = some T → userExecAddr ≤ v → v + n * 0x1000 ≤ userStackTop → v % 0x1000 = 0 →
    unlinkable (there s T) (last s T) (own s T) n v s.freePages → ∃ t, unlinkPages T.pde n v s = .ok t
  | 0, _, s, _, _, _, _, _, _ => ⟨s, rfl⟩
  | n + 1, v, s, hi, hp, h1, h2, ha, hf => by
    obtain ⟨t, ht, hrem, hnext⟩ := unlinkable_step hi hp h1 h2 ha hf
    obtain ⟨u, hu⟩ := unlinkPages_some n (v + 0x1000) t hrem.inv (by rw [hrem.keeps.tasks, hp]) (by omega) (by omega) (by omega) hnext
    refine ⟨u, ?_⟩
    unfold unlinkPages
    rw [ht]
    exact hu

theorem munmapPages_some {vmap : Nat → Bool} : ∀ n v s, Inv s → s.tasks p = some T → userExecAddr ≤ v →
    v + n * 0x1000 ≤ userStackTop → v % 0x1000 = 0 → (∀ k < n, vmap (v / 0x1000 + k) = true) →
    unlinkable (there s T) (last s T) (own s T) n v s.freePages → ∃ t, munmapPages T.pde n v vmap s = .ok t
  | 0, _, s, _, _, _, _, _, _, _ => ⟨s, rfl⟩
  | n + 1, v, s, hi, hp, h1, h2, ha, hb, hf => by
    obtain ⟨t, ht, hrem, hnext⟩ := unlinkable_step hi hp h1 h2 ha hf
    have hbits : ∀ k < n, vmap ((v + 0x1000) / 0x1000 + k) = true := fun k hk => by
      have hk1 := hb (k + 1) (Nat.succ_lt_succ hk)
      rw [show (v + 0x1000) / 0x1000 + k = v / 0x1000 + (k + 1) by omega]
      exact hk1
    obtain ⟨u, hu⟩ := munmapPages_some n (v + 0x1000) t hrem.inv (by rw [hrem.keeps.tasks, hp]) (by omega) (by omega) (by omega)
      hbits hnext
    have hbit : ¬ (0x10000 ≤ v / 0x1000 ∨ vmap (v / 0x1000) = false) := by
      have hb0 : vmap (v / 0x1000) = true := hb 0 (Nat.succ_pos n)
      unfold userStackTop at h2
      rintro (h | h)
      · omega
      · rw [hb0] at h
        cases h
    refine ⟨u, ?_⟩
    unfold munmapPages
    rw [ht]
    show (if 0x10000 ≤ v / 0x1000 ∨ vmap (v / 0x1000) = false then _ else _) = _
    rw [if_neg hbit]
    exact hu

end Onix.Memory
