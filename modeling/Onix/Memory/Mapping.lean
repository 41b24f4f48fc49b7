/-
The books of the mapping area: a bit of `vmap` is set exactly if its page is mapped. The calls that map and unmap check where a range
starts and not where it ends, and assert on what a process passes; what they need to succeed is stated, and then they change the pages of
their range and no others.
-/
import Onix.Memory.Frames

namespace Onix.Memory

open Option Onix.Lib

variable {s t u : State} {p q : Fin taskNr} {T U N : Task} {v a i n lo hi : Nat} {e w : Entry}

/-! ## The books -/

def InArea (i : Nat) : Prop := userMmapAddr / 0x1000 ≤ i ∧ i < userStackBottom / 0x1000

/-- A bit of `vmap` is set exactly if it is that of a page of the mapping area that is mapped. -/
def Booked (s : State) : Prop := ∀ p T, s.tasks p = some T → ∀ i, T.vmap i = true ↔ InArea i ∧ there s T (i * 0x1000) = true

/-- Only pages of `p` from `lo` to `hi` are translated otherwise than before. -/
def Within (s : State) (p : Fin taskNr) (lo hi : Nat) (t : State) : Prop :=
  ∀ q U v, s.tasks q = some U → InUser v → (q = p → v < lo ∨ hi ≤ v) → physical t U.pde v = physical s U.pde v

theorem InArea.user (h : InArea i) : InUser (i * 0x1000) := by
  obtain ⟨h1, h2⟩ := h
  unfold userMmapAddr at h1
  unfold userStackBottom userStackTop at h2
  unfold InUser userExecAddr userStackTop
  omega

theorem Booked.of (h : Booked s) (hback : ∀ q U, t.tasks q = some U → ∃ r V, s.tasks r = some V ∧ U.vmap = V.vmap ∧
    ∀ i, InArea i → there t U (i * 0x1000) = there s V (i * 0x1000)) : Booked t := by
  intro q U hU i
  obtain ⟨r, V, hV, hv, hthere⟩ := hback q U hU
  rw [hv, h r V hV]
  constructor
  · rintro ⟨h1, h2⟩
    exact ⟨h1, (hthere i h1).trans h2⟩
  · rintro ⟨h1, h2⟩
    exact ⟨h1, (hthere i h1).symm.trans h2⟩

theorem Booked.same (h : Booked s) (ht : t.tasks = s.tasks)
    (hthere : ∀ q U i, s.tasks q = some U → InArea i → there t U (i * 0x1000) = there s U (i * 0x1000)) : Booked t :=
  h.of fun q U hU => by
    rw [ht] at hU
    exact ⟨q, U, hU, rfl, fun i hi => hthere q U i hU hi⟩

/-! ## One page changes -/

theorem Within.refl (s : State) (p : Fin taskNr) (lo hi : Nat) : Within s p lo hi s := fun _ _ _ _ _ _ => rfl

theorem Within.trans (h1 : Within s p lo hi t) (ht : t.tasks = s.tasks) (h2 : Within t p lo hi u) : Within s p lo hi u :=
  fun q U v hU hv hn => (h2 q U v (by rw [ht, hU]) hv hn).trans (h1 q U v hU hv hn)

theorem Within.widen {lo' hi' : Nat} (h : Within s p lo hi t) (h1 : lo' ≤ lo) (h2 : hi ≤ hi') : Within s p lo' hi' t :=
  fun q U v hU hv hn => h q U v hU hv fun hq => (hn hq).imp (fun h => Nat.lt_of_lt_of_le h h1) fun h => h2.trans h

theorem physical_page {pd b : Nat} (h : a / 0x1000 = b / 0x1000) : physical s pd a = physical s pd b := by
  have hd : didx a = didx b := by
    unfold didx
    omega
  have ht : tidx a = tidx b := by
    unfold tidx
    omega
  rw [physical_cell, physical_cell, hd, ht]

theorem Keeps.within (hk : Keeps s (at' p (didx a) (tidx a)) t) (hv : InUser a) (ha : a % 0x1000 = 0) :
    Within s p a (a + 0x1000) t := by
  intro q U v hU hu hn
  rw [physical_cell, physical_cell, hk.cell q U _ _ (hu.slot hU) (tidx_lt v) fun e => ?_]
  have hsame := (same_page hu.2 hv.2).1 e.2
  have hout := hn e.1
  omega

variable {write shared privat : Bool}

theorem Mapped.within (ht : Mapped s p T a write shared privat t) (hinv : Inv s) (hp : s.tasks p = some T)
    (hv : InUser a) (ha : a % 0x1000 = 0) : Within s p a (a + 0x1000) t := by
  cases ht with
  | new g _ hk => exact hk.within hv ha
  | old e _ hc ht =>
    subst ht
    intro q U v hU hu _
    have hl := mmapEntry_like e write shared privat
    have hw : (mmapEntry e write shared privat).present = true := by
      rw [hl.1, ← (cell_some.1 hc).2.2]
      exact (cell_some.1 hc).2.1
    rw [physical_cell, physical_cell]
    rcases retag_cell hinv (hv.slot hp) hc hw (j := tidx v) (hu.slot hU) with h | ⟨-, -, h3, h4⟩
    · rw [h]
    · rw [h3, h4]
      exact congrArg some hl.2

theorem Mapped.there (ht : Mapped s p T a write shared privat t) (hinv : Inv s) (hp : s.tasks p = some T)
    (hv : InUser a) : there t T a = true := by
  cases ht with
  | new g _ _ _ _ hc => exact there_iff.2 ⟨_, hc⟩
  | old e _ hc ht =>
    subst ht
    have hw : (mmapEntry e write shared privat).present = true := by
      rw [← (cell_some.1 hc).2.2]
      exact (cell_some.1 hc).2.1
    rw [there_iff]
    rcases retag_cell hinv (hv.slot hp) hc hw (j := tidx a) (hv.slot hp) with h | ⟨-, -, -, h4⟩
    · exact ⟨e, h.trans hc⟩
    · exact ⟨_, h4⟩

/-! ## A range of pages -/

/-- The pages of `p` from `lo` to `w` were changed, and are now all mapped or all gone. -/
structure Ranged (s : State) (p : Fin taskNr) (T : Task) (lo hi : Nat) (there' : Bool) (w : Nat) (t : State) : Prop where
  page : w % 0x1000 = 0
  tasks : t.tasks = s.tasks
  within : Within s p lo hi t
  done : ∀ a, InUser a → lo ≤ a → a < w → there t T a = there'

variable {b : Bool}

theorem Ranged.start (ha : lo % 0x1000 = 0) : Ranged s p T lo hi b lo s :=
  ⟨ha, rfl, .refl s p lo hi, fun _ _ h1 h2 => absurd h2 (Nat.not_lt.2 h1)⟩

theorem Ranged.next {w : Nat} (h : Ranged s p T lo hi b w t) (hp : s.tasks p = some T) (hhi : hi % 0x1000 = 0)
    (h1 : lo ≤ w) (h2 : w < hi) (ht : u.tasks = t.tasks) (hone : Within t p w (w + 0x1000) u) (hnew : there u T w = b) :
    Ranged s p T lo hi b (w + 0x1000) u := by
  have hpage := h.page
  have hpt : t.tasks p = some T := by rw [h.tasks, hp]
  refine ⟨by omega, ht.trans h.tasks, h.within.trans h.tasks (hone.widen h1 (by omega)), fun a hau ha1 ha2 => ?_⟩
  by_cases haw : a < w
  · rw [← h.done a hau ha1 haw]
    exact congrArg isSome (hone p T a hpt hau fun _ => .inl haw)
  · rw [← hnew]
    exact congrArg isSome (physical_page (by omega))

theorem Ranged.removed {w : Nat} (h : Ranged s p T lo hi false w t) (hp : s.tasks p = some T) (hhi : hi % 0x1000 = 0)
    (hlo : userExecAddr ≤ lo) (htop : hi ≤ userStackTop) (h1 : lo ≤ w) (h2 : w < hi) (hr : Removed t p T w u) :
    Ranged s p T lo hi false (w + 0x1000) u := by
  refine h.next hp hhi h1 h2 hr.keeps.tasks (hr.keeps.within ⟨by omega, by omega⟩ h.page) ?_
  rw [there_cell, hr.gone]
  rfl

theorem Ranged.mapped {w : Nat} (h : Ranged s p T lo hi true w t) (hp : s.tasks p = some T)
    (hi' : Inv t) (hhi : hi % 0x1000 = 0) (hlo : userExecAddr ≤ lo) (htop : hi ≤ userStackTop) (h1 : lo ≤ w) (h2 : w < hi)
    (hm : Mapped t p T w write shared privat u) : Ranged s p T lo hi true (w + 0x1000) u := by
  have hpt : t.tasks p = some T := by rw [h.tasks, hp]
  have hu : InUser w := ⟨by omega, by omega⟩
  exact h.next hp hhi h1 h2 hm.tasks (hm.within hi' hpt hu h.page) (hm.there hi' hpt hu)

theorem Booked.ranged (h : Booked s) (hin : Within s p lo hi t) (hp : s.tasks p = some T) (hN : N.pde = T.pde)
    (ht : t.tasks = (setTask s p (some N)).tasks) (hbits : ∀ i, N.vmap i = true ↔ InArea i ∧ there t T (i * 0x1000) = true) :
    Booked t := by
  intro q U hU i
  rw [ht] at hU
  by_cases hq : q = p
  · subst hq
    rw [setTask_same] at hU
    cases hU
    rw [hbits i]
    unfold there
    rw [hN]
  · rw [setTask_other _ _ hq] at hU
    rw [h q U hU i]
    refine and_congr_right fun harea => ?_
    unfold there
    rw [hin q U _ hU harea.user fun e => absurd e hq]

theorem setBits_booked (h : Booked s) (hp : s.tasks p = some T) (ha : a % 0x1000 = 0) (h1 : userMmapAddr ≤ a)
    (h2 : a + n * 0x1000 ≤ userStackBottom) (hr : Ranged s p T a (a + n * 0x1000) b (a + n * 0x1000) t) (i : Nat) :
    setBits T.vmap a n b i = true ↔ InArea i ∧ there t T (i * 0x1000) = true := by
  unfold setBits
  by_cases hi : a / 0x1000 ≤ i ∧ i < a / 0x1000 + n
  · have harea : InArea i := by
      unfold InArea
      omega
    rw [if_pos hi, hr.done _ harea.user (by omega) (by omega)]
    exact ⟨fun h => ⟨harea, h⟩, fun h => h.2⟩
  · rw [if_neg hi, h p T hp i]
    refine and_congr_right fun harea => ?_
    unfold there
    rw [hr.within p T _ hp harea.user fun _ => by omega]

/-! ## The calls -/

/-- The calls of a process get page addresses and ranges where they belong, and the frames they take; no other step maps a page of the
mapping area, or unmaps one. -/
def Orderly (s : State) : Act → Prop
  | .link _ v | .unlink _ v => InUser v ∧ (v < userMmapAddr ∨ userStackBottom ≤ v)
  | .store _ v _ _ | .kernelStore _ v _ _ _ => InUser v
  | .brk p v => ∀ T, s.tasks p = some T → v % 0x1000 = 0 ∧ T.endAddr ≤ v ∧ v ≤ userMmapAddr ∧
      (v < T.brk → unlinkable (there s T) (last s T) (own s T) ((T.brk - v + 0xFFF) / 0x1000) v s.freePages)
  | .mmap p v length _ _ _ => ∀ T, s.tasks p = some T → v % 0x1000 = 0 ∧ ∃ a, mmapAddr T v length = some a ∧ userMmapAddr ≤ a ∧
      a < userStackBottom ∧ a + pageCount length * 0x1000 ≤ userStackBottom ∧
      linkNeed (there s T) (own s T) (pageCount length) a ≤ s.freePages
  | .munmap p v length => ∀ T, s.tasks p = some T → v % 0x1000 = 0 ∧ userMmapAddr ≤ v ∧ v < userStackBottom ∧
      (∀ k < pageCount length, T.vmap (v / 0x1000 + k) = true) ∧
      unlinkable (there s T) (last s T) (own s T) (pageCount length) v s.freePages
  | _ => True

/-- What the calls do. `sys_brk` changes pages between the new end and the mapping area at most. `sys_mmap` maps every page of a range of
the mapping area, one where no page was if it chose the address, and sets its bits; `sys_munmap` unmaps the range and clears them. -/
def Answered (s : State) : Act → State → Prop
  | .brk p v, t => ∃ T b, s.tasks p = some T ∧ T.endAddr ≤ v ∧ v ≤ userMmapAddr ∧ Within s p v userMmapAddr t ∧
      t.tasks = (setTask s p (some { T with brk := b })).tasks
  | .mmap p v length _ _ _, t => ∃ T a, s.tasks p = some T ∧ mmapAddr T v length = some a ∧ userMmapAddr ≤ a ∧
      a + pageCount length * 0x1000 ≤ userStackBottom ∧ Within s p a (a + pageCount length * 0x1000) t ∧
      (v = 0 → ∀ k < pageCount length, physical s T.pde (a + k * 0x1000) = none) ∧
      (∀ k < pageCount length, (physical t T.pde (a + k * 0x1000)).isSome) ∧
      t.tasks = (setTask s p (some { T with vmap := setBits T.vmap a (pageCount length) true })).tasks
  | .munmap p v length, t => ∃ T, s.tasks p = some T ∧ userMmapAddr ≤ v ∧ v + pageCount length * 0x1000 ≤ userStackBottom ∧
      Within s p v (v + pageCount length * 0x1000) t ∧ (∀ k < pageCount length, physical t T.pde (v + k * 0x1000) = none) ∧
      t.tasks = (setTask s p (some { T with vmap := setBits T.vmap v (pageCount length) false })).tasks
  | _, _ => True

theorem withTask_live {F : Task → Except Fault State} (hp : s.tasks p = some T) : withTask s p F = F T := by
  unfold withTask
  rw [hp]

theorem brk_answered (hi : Inv s) (hb : Booked s) (hp : s.tasks p = some T) (hx : Orderly s (.brk p v)) :
    ∃ t, step s (.brk p v) = .ok t ∧ Answered s (.brk p v) t ∧ Booked t := by
  obtain ⟨ha, h1, h2, hf⟩ := hx T hp
  have hheap := hi.heap p T hp
  have hstep : step s (.brk p v) = sysBrk s p T v := withTask_live hp
  -- the pages of the mapping area stay
  have hbooked : ∀ t N, Within s p v userMmapAddr t → N.pde = T.pde → N.vmap = T.vmap → t.tasks = (setTask s p (some N)).tasks →
      Booked t := fun t N hin hN hv ht => by
    refine hb.ranged hin hp hN ht fun i => ?_
    rw [hv, hb p T hp i]
    refine and_congr_right fun harea => ?_
    have hhi : userMmapAddr ≤ i * 0x1000 := by
      have := harea.1
      unfold userMmapAddr at this ⊢
      omega
    unfold there
    rw [hin p T _ hp harea.user fun _ => .inr hhi]
  rw [hstep]
  unfold sysBrk
  rw [if_neg (fun h => h ha), if_neg (fun h => h ⟨h1, h2⟩)]
  by_cases hlt : v < T.brk
  · rw [if_pos hlt]
    have hlo : userExecAddr ≤ v := by omega
    have hend : v + (T.brk - v + 0xFFF) / 0x1000 * 0x1000 ≤ userMmapAddr := by
      unfold userMmapAddr at hheap h2 ⊢
      omega
    have htop : userMmapAddr ≤ userStackTop := by decide
    obtain ⟨t, ht⟩ := unlinkPages_some _ v s hi hp hlo (hend.trans htop) ha (hf hlt)
    have hloop := (unlinkPages_sat (J := Ranged s p T v userMmapAddr false) hlo htop (fun s1 t1 w _ hj _ hw1 hw2 hr =>
      hj.removed hp (by decide) hlo htop hw1 hw2 hr) _ v s hi (.start ha) hp le_rfl hend).of_ok ht
    have htasks : (setTask t p (some { T with brk := v })).tasks = (setTask s p (some { T with brk := v })).tasks := by
      unfold setTask
      rw [hloop.tasks]
    rw [ht]
    exact ⟨_, rfl, ⟨T, v, hp, h1, h2, hloop.goal.within, htasks⟩, hbooked _ { T with brk := v } hloop.goal.within rfl rfl htasks⟩
  · have hsame : s.tasks = (setTask s p (some T)).tasks := by
      funext q
      by_cases hq : q = p
      · rw [hq, setTask_same, hp]
      · rw [setTask_other _ _ hq]
    rw [if_neg hlt]
    by_cases hmem : s.freePages < (v - T.brk) / 0x1000
    · rw [if_pos hmem]
      exact ⟨s, rfl, ⟨T, T.brk, hp, h1, h2, .refl _ _ _ _, hsame⟩, hb⟩
    · rw [if_neg hmem]
      exact ⟨_, rfl, ⟨T, v, hp, h1, h2, .refl _ _ _ _, rfl⟩, hbooked _ { T with brk := v } (.refl _ _ _ _) rfl rfl rfl⟩

variable {length : Nat}

theorem mmapAddr_clear (h : mmapAddr T 0 length = some a) {k : Nat} (hk : k < pageCount length) :
    T.vmap (a / 0x1000 + k) = false := by
  unfold mmapAddr at h
  rw [if_neg (fun h => h rfl)] at h
  split at h
  · cases h
  · obtain ⟨b, hb, rfl⟩ := map_eq_some_iff.1 h
    obtain ⟨i, hi, rfl⟩ := map_eq_some_iff.1 hb
    have hfound := List.find?_some hi
    simp only [decide_eq_true_eq] at hfound
    rw [Nat.mul_div_cancel _ (by decide)]
    exact hfound.2 k hk

theorem mmap_ranged (length : Nat) (write shared privat : Bool) (hi : Inv s) (hp : s.tasks p = some T) (hv : v % 0x1000 = 0)
    (ha : mmapAddr T v length = some a) (h1 : userMmapAddr ≤ a) (h2 : a < userStackBottom)
    (htop : a + pageCount length * 0x1000 ≤ userStackTop)
    (hf : linkNeed (there s T) (own s T) (pageCount length) a ≤ s.freePages) :
    ∃ t, step s (.mmap p v length write shared privat) =
        .ok (setTask t p (some { T with vmap := setBits T.vmap a (pageCount length) true })) ∧
      Ranged s p T a (a + pageCount length * 0x1000) true (a + pageCount length * 0x1000) t := by
  have hal := mmapAddr_aligned hv ha
  have hstep : step s (.mmap p v length write shared privat) = sysMmap s p T v length write shared privat := withTask_live hp
  have hlo : userExecAddr ≤ a := userExec_le.trans h1
  obtain ⟨t, ht⟩ := mmapPages_some write shared privat _ a s hi hp hal hlo htop hf
  have hloop := (mmapPages_sat (J := Ranged s p T a (a + pageCount length * 0x1000) true) hlo htop (fun s1 t1 w hi1 hj _ hw1 hw2 hm =>
    hj.mapped hp hi1 (by omega) hlo htop hw1 hw2 hm) _ a s hi (.start hal) hp le_rfl le_rfl).of_ok ht
  refine ⟨t, ?_, hloop.goal⟩
  rw [hstep]
  unfold sysMmap
  rw [if_neg (fun h => h hv), ha]
  show (if ¬ (userMmapAddr ≤ a ∧ a < userStackBottom) then _ else _) = _
  rw [if_neg (fun h => h ⟨h1, h2⟩), ht]
  rfl

theorem mmap_answered (hi : Inv s) (hb : Booked s) (hp : s.tasks p = some T)
    (hx : Orderly s (.mmap p v length write shared privat)) :
    ∃ t, step s (.mmap p v length write shared privat) = .ok t ∧ Answered s (.mmap p v length write shared privat) t ∧ Booked t := by
  obtain ⟨hv, a, ha, h1, h2, h3, hf⟩ := hx T hp
  have hal := mmapAddr_aligned hv ha
  have htop : a + pageCount length * 0x1000 ≤ userStackTop := h3.trans (by decide)
  obtain ⟨t, ht, hr⟩ := mmap_ranged length write shared privat hi hp hv ha h1 h2 htop hf
  have hlo : userExecAddr ≤ a := userExec_le.trans h1
  have htasks : (setTask t p (some { T with vmap := setBits T.vmap a (pageCount length) true })).tasks =
      (setTask s p (some { T with vmap := setBits T.vmap a (pageCount length) true })).tasks := by
    unfold setTask
    rw [hr.tasks]
  have hbits := setBits_booked hb hp hal h1 h3 hr
  refine ⟨_, ht, ⟨T, a, hp, ha, h1, h3, hr.within, fun hv0 k hk => ?_, fun k hk => ?_, htasks⟩, ?_⟩
  · -- a clear bit of the area is that of a page that is not there
    subst hv0
    have hclear := mmapAddr_clear ha hk
    have harea : InArea (a / 0x1000 + k) := by
      unfold InArea
      omega
    have hno : there s T ((a / 0x1000 + k) * 0x1000) = false := by
      refine Bool.eq_false_iff.2 fun h => ?_
      rw [(hb p T hp _).2 ⟨harea, h⟩] at hclear
      cases hclear
    rw [show a + k * 0x1000 = (a / 0x1000 + k) * 0x1000 by omega]
    exact not_isSome_iff_eq_none.1 (Bool.eq_false_iff.1 hno)
  · exact hr.done _ ⟨by omega, by omega⟩ (by omega) (by omega)
  · exact hb.ranged (N := { T with vmap := setBits T.vmap a (pageCount length) true }) hr.within hp rfl htasks hbits

theorem munmap_answered (hi : Inv s) (hb : Booked s) (hp : s.tasks p = some T) (hx : Orderly s (.munmap p v length)) :
    ∃ t, step s (.munmap p v length) = .ok t ∧ Answered s (.munmap p v length) t ∧ Booked t := by
  obtain ⟨hv, h1, h2, hbits, hf⟩ := hx T hp
  have hstep : step s (.munmap p v length) = sysMunmap s p T v length := withTask_live hp
  -- the bits end with the mapping area
  have h3 : v + pageCount length * 0x1000 ≤ userStackBottom := by
    cases hn : pageCount length with
    | zero => omega
    | succ k =>
      have harea := ((hb p T hp _).1 (hbits k (by omega))).1.2
      omega
  have hlo : userExecAddr ≤ v := userExec_le.trans h1
  have htop : v + pageCount length * 0x1000 ≤ userStackTop := h3.trans (by decide)
  obtain ⟨t, ht⟩ := munmapPages_some _ v s hi hp hlo htop hv hbits hf
  have hloop := (munmapPages_sat (J := Ranged s p T v (v + pageCount length * 0x1000) false) hlo htop (fun s1 t1 w _ hj _ hw1 hw2 hr =>
    hj.removed hp (by omega) hlo htop hw1 hw2 hr) _ v T.vmap s hi (.start hv) hp le_rfl le_rfl).of_ok ht
  have htasks : (setTask t p (some { T with vmap := setBits T.vmap v (pageCount length) false })).tasks =
      (setTask s p (some { T with vmap := setBits T.vmap v (pageCount length) false })).tasks := by
    unfold setTask
    rw [hloop.tasks]
  have hclear := setBits_booked hb hp hv h1 h3 hloop.goal
  refine ⟨setTask t p (some { T with vmap := setBits T.vmap v (pageCount length) false }), ?_,
    ⟨T, hp, h1, h3, hloop.goal.within, fun k hk => ?_, htasks⟩, ?_⟩
  · rw [hstep]
    unfold sysMunmap
    rw [if_neg (fun h => h ⟨h1, h2⟩), if_neg (fun h => h hv), ht]
    rfl
  · exact not_isSome_iff_eq_none.1 (Bool.eq_false_iff.1 (hloop.goal.done _ ⟨by omega, by omega⟩ (by omega) (by omega)))
  · exact hb.ranged (N := { T with vmap := setBits T.vmap v (pageCount length) false }) hloop.goal.within hp rfl htasks
      hclear

/-! ## Every step -/

variable {x : Act}

theorem Orderly.userSpace (h : Orderly s x) : UserSpace s x := by
  cases x with
  | link p v => exact h.1
  | unlink p v => exact h.1
  | store p v i w => exact h
  | kernelStore p v i w user => exact h
  | mmap p v length write shared privat =>
    intro T hp a ha
    obtain ⟨-, b, hb, -, -, h3, -⟩ := h T hp
    cases ha.symm.trans hb
    exact h3.trans (by decide)
  | _ => trivial

theorem Booked.outside (h : Booked s) (hk : Keeps s (at' p (didx v) (tidx v)) t) (hv : InUser v)
    (hout : v < userMmapAddr ∨ userStackBottom ≤ v) : Booked t := by
  refine h.same hk.tasks fun q U i hU harea => ?_
  have hne : ¬ at' p (didx v) (tidx v) q (didx (i * 0x1000)) (tidx (i * 0x1000)) := fun e => by
    have hsame := (same_page harea.user.2 hv.2).1 e.2
    obtain ⟨h1, h2⟩ := harea
    unfold userMmapAddr at h1 hout
    omega
  rw [there_cell, there_cell, hk.cell q U _ _ (harea.user.slot hU) (tidx_lt _) hne]

theorem Booked.linked (h : Booked s) (ht : Linked s p T v t) (hv : InUser v) (hout : v < userMmapAddr ∨ userStackBottom ≤ v) :
    Booked t := by
  rcases ht with ⟨rfl, -⟩ | ht
  · exact h
  · exact h.outside ht.keeps hv hout

theorem Forked.there_old {pd : Nat} (ht : Forked s pd q N t) {r : Fin taskNr} (hU : s.tasks r = some U) (hi : InUser a) :
    there t U a = there s U a := by
  rw [there_cell, there_cell]
  rcases ht.old r U _ _ (hi.slot hU) (tidx_lt _) with h1 | ⟨e, h1, -, h2⟩
  · rw [h1]
  · rw [h1, h2]
    rfl

theorem Booked.forked (h : Booked s) (hp : s.tasks p = some T) (ht : Forked s T.pde q N t) (hN : N.vmap = T.vmap) : Booked t := by
  refine h.of fun r U hU => ?_
  rw [ht.tasks] at hU
  by_cases hr : r = q
  · rw [if_pos hr] at hU
    cases hU
    refine ⟨p, T, hp, hN, fun i hi => ?_⟩
    have hs := hi.user.slot hp
    rw [← ht.there_old hp hi.user, there_cell, there_cell, ht.new _ _ hs.low hs.high (tidx_lt _)]
  · rw [if_neg hr] at hU
    exact ⟨r, U, hU, rfl, fun i hi => ht.there_old hU hi.user⟩

theorem Forked.there_new (ht : Forked s 1 q N t) (hi : InUser a) : there t N a = false := by
  have hd := didx_user hi.1 hi.2
  rw [there_cell, ht.new _ _ hd.1 hd.2 (tidx_lt _)]
  unfold cell
  rw [ht.inv.kernel _ hd.1 hd.2, if_neg fun e => nomatch e.1]
  rfl

theorem Booked.started (h : Booked s) (ht : Forked s 1 q N t) (hN : N.vmap = fun _ => false) : Booked t := by
  intro r U hU i
  rw [ht.tasks] at hU
  by_cases hr : r = q
  · rw [if_pos hr] at hU
    cases hU
    rw [hN]
    refine ⟨(nomatch ·), fun ⟨hi, hthere⟩ => ?_⟩
    rw [ht.there_new hi.user] at hthere
    cases hthere
  · rw [if_neg hr] at hU
    rw [h r U hU i]
    refine and_congr_right fun hi => ?_
    rw [ht.there_old hU hi.user]

theorem Booked.exited (h : Booked s) (ht : Exited s p t) : Booked t := by
  refine h.of fun q U hU => ?_
  rw [ht.tasks] at hU
  split at hU
  · cases hU
  · refine ⟨q, U, hU, rfl, fun i _ => ?_⟩
    rw [there_cell, there_cell, ht.mem]

theorem Booked.copied (h : Booked s) (hp : s.tasks p = some T) (ht : Copied s p T v t) : Booked t := by
  obtain ⟨e, g, hc, -, hc', -, -⟩ := ht.page
  refine h.same ht.keeps.tasks fun q U i hU hi => ?_
  rw [there_cell, there_cell]
  by_cases hat : at' p (didx v) (tidx v) q (didx (i * 0x1000)) (tidx (i * 0x1000))
  · obtain ⟨rfl, hd, ht⟩ := hat
    cases hp.symm.trans hU
    rw [hd, ht, hc, hc']
    rfl
  · rw [ht.keeps.cell q U _ _ (hi.user.slot hU) (tidx_lt _) hat]

theorem Booked.stored {k : Nat} (hinv : Inv s) (h : Booked s) (hp : s.tasks p = some T) (hv : InUser v)
    (hc : cell s.mem T.pde (didx v) (tidx v) = some e) : Booked (storeWord s T.pde v k w) := by
  have hent : pageEntry s T.pde v = e := (cell_some.1 hc).2.2
  refine h.same rfl fun q U i hU hi => ?_
  unfold storeWord
  rw [hent, there_cell, there_cell]
  exact congrArg isSome (store_cell hinv (cell_uses (hv.slot hp) (tidx_lt v) hc) (hi.user.slot hU))

theorem Booked.record (h : Booked s) (hp : s.tasks p = some T) (hN : N.pde = T.pde) (hv : N.vmap = T.vmap) :
    Booked (setTask s p (some N)) := by
  refine h.of fun q U hU => ?_
  by_cases hq : q = p
  · subst hq
    rw [setTask_same] at hU
    cases hU
    refine ⟨q, T, hp, hv, fun i _ => ?_⟩
    unfold there
    rw [hN]
    rfl
  · rw [setTask_other _ _ hq] at hU
    exact ⟨q, U, hU, rfl, fun _ _ => rfl⟩

theorem Booked.faulted {present : Bool} (hinv : Inv s) (h : Booked s) (hp : s.tasks p = some T) (hv : InUser v)
    (hpres : present = (physical s T.pde v).isSome) (hstep : pageFault s T v present write = .ok t) : Booked t := by
  rcases (pageFault_sat hinv (hv.slot hp) present write).of_ok hstep with (⟨rfl, -⟩ | hadd) | hcop
  · exact h
  · have hnone : physical s T.pde v = none := by
      rw [physical_page (show v / 0x1000 = v / 0x1000 * 0x1000 / 0x1000 by omega), physical_cell, hadd.before]
      rfl
    rw [hpres, hnone] at hstep
    have hheap := (hinv.heap p T hp).2
    obtain ⟨h1, h2⟩ := hv
    have hstep : (if v < T.brk ∨ userStackBottom ≤ v then linkPage s T.pde (v / 0x1000 * 0x1000) else .error .access) = .ok t := hstep
    have hout : v < T.brk ∨ userStackBottom ≤ v := by
      by_contra hn
      rw [if_neg hn] at hstep
      cases hstep
    unfold userMmapAddr at hheap
    unfold userExecAddr at h1
    unfold userStackTop at h2
    unfold userStackBottom userStackTop at hout
    refine h.outside hadd.keeps ?_ ?_
    · unfold InUser userExecAddr userStackTop
      omega
    · unfold userMmapAddr userStackBottom userStackTop
      omega
  · exact h.copied hp hcop

def Call : Act → Prop
  | .brk _ _ | .mmap _ _ _ _ _ _ | .munmap _ _ _ => True
  | _ => False

theorem call_answered (hi : Inv s) (hb : Booked s) (hcall : Call x) (he : enabled s x) (hx : Orderly s x) :
    ∃ t, step s x = .ok t ∧ Answered s x t ∧ Booked t := by
  cases x with
  | brk p v =>
    obtain ⟨-, T, hp⟩ := he
    exact brk_answered hi hb hp hx
  | mmap p v length write shared privat =>
    obtain ⟨-, T, hp⟩ := he
    exact mmap_answered hi hb hp hx
  | munmap p v length =>
    obtain ⟨-, T, hp⟩ := he
    exact munmap_answered hi hb hp hx
  | _ => cases hcall

theorem booked_step (hi : Inv s) (h : Booked s) (hx : Orderly s x) (hst : memory.Steps s x t) : Booked t := by
  have hcall : Call x → Booked t := fun hc => by
    obtain ⟨u, hu, -, hb⟩ := call_answered hi h hc hst.1 hx
    cases hu.symm.trans hst.2
    exact hb
  obtain ⟨he, hstep⟩ := hst
  cases x with
  | start p k =>
    exact h.started ((copyPde_sat hi (.kernel hi) he.2 he.1 rfl ⟨le_rfl, userExec_le⟩).of_ok hstep) rfl
  | fork p q k =>
    suffices Sat Lost (step s (.fork p q k)) Booked from this.of_ok hstep
    refine withTask_sat fun T hp => ?_
    exact (copyPde_sat (N := { T with pde := k }) hi (.live hp) he.2.2 he.2.1 rfl (hi.heap p T hp)).mono fun t ht => h.forked hp ht rfl
  | exit p =>
    suffices Sat Lost (step s (.exit p)) Booked from this.of_ok hstep
    exact withTask_sat fun T hp => (exit_sat hi hp).mono fun t ht => h.exited ht
  | link p v =>
    suffices Sat Lost (step s (.link p v)) Booked from this.of_ok hstep
    exact withTask_sat fun T hp => (linkPage_sat hi (hx.1.slot hp)).mono fun t ht => h.linked ht hx.1 hx.2
  | unlink p v =>
    suffices Sat Lost (step s (.unlink p v)) Booked from this.of_ok hstep
    exact withTask_sat fun T hp => (unlinkPage_sat hi (hx.1.slot hp)).mono fun t ht => h.outside ht.keeps hx.1 hx.2
  | fault p v present write =>
    obtain ⟨T, hp, h1, h2, hpres⟩ := he
    exact h.faulted hi hp ⟨h1, h2⟩ hpres ((withTask_live hp).symm.trans hstep)
  | segment p v =>
    suffices Sat Lost (step s (.segment p v)) Booked from this.of_ok hstep
    exact withTask_sat fun T hp => Sat.ok (h.record hp rfl rfl)
  | brk p v => exact hcall trivial
  | mmap p v length write shared privat => exact hcall trivial
  | munmap p v length => exact hcall trivial
  | store p v k w =>
    obtain ⟨-, -, T, hp, hw⟩ := he
    cases (withTask_live hp).symm.trans hstep
    exact h.stored hi hp hx (cell_some.2 ⟨hw.1, hw.2.2.2.1, rfl⟩)
  | kernelStore p v k w user =>
    obtain ⟨-, -, T, hp, hacc⟩ := he
    obtain ⟨e, hc, -⟩ := memoryAccess_cell hacc
    cases (withTask_live hp).symm.trans hstep
    exact h.stored hi hp hx hc

theorem orderly_reach (h : memory.Reach Orderly s) : Inv s ∧ Booked s :=
  h.inv (I := fun s => Inv s ∧ Booked s) (fun s hb => ⟨boot_inv hb, fun p T hp => by rw [hb.tasks] at hp; cases hp⟩)
    fun _ _ _ hi hx hst => ⟨(step_sat hi.1 hst.1 hx.userSpace (step_ends hst.2)).of_ok hst.2, booked_step hi.1 hi.2 hx hst⟩

/-- In every run in order a bit of `vmap` is set exactly if its page is in the mapping area and mapped, and each of the three calls, in
order, ends without an assertion or a panic and does its work on its range alone. -/
theorem mapping_books (h : memory.Reach Orderly s) :
    Booked s ∧ ∀ x, Call x → enabled s x → Orderly s x → ∃ t, step s x = .ok t ∧ Answered s x t := by
  obtain ⟨hi, hb⟩ := orderly_reach h
  refine ⟨hb, fun x hc he hx => ?_⟩
  obtain ⟨t, ht, ha, -⟩ := call_answered hi hb hc he hx
  exact ⟨t, ht, ha⟩

/-! ## The first process -/

theorem linkNeed_le {there own : Nat → Bool} : ∀ n v, linkNeed there own n v ≤ 2 * n
  | 0, _ => Nat.zero_le _
  | n + 1, v => by
    unfold linkNeed
    split
    · exact (linkNeed_le n _).trans (by omega)
    · have hrest := @linkNeed_le there (fun d => d == didx v || own d) n (v + 0x1000)
      split <;> omega

theorem started_free : ((step booted (.start parent 0x200)).toOption.map fun s => decide (4 ≤ s.freePages)) = some true := by
  decide +kernel

theorem started_orderly : ∃ s, memory.Reach Orderly s ∧ Forked booted 1 parent firstTask s ∧ s.tasks parent = some firstTask ∧
    4 ≤ s.freePages := by
  have hfree := started_free
  cases hs : step booted (.start parent 0x200) with
  | error e =>
    rw [hs] at hfree
    cases hfree
  | ok s =>
    rw [hs] at hfree
    obtain ⟨hst, hf⟩ := started hs
    exact ⟨s, ⟨booted, booted_boot, .single (show Orderly booted (.start parent 0x200) from trivial) hst⟩, hf,
      (hf.tasks parent).trans (if_pos rfl), of_decide_eq_true (some.inj hfree)⟩

/-- It maps a page where the kernel chooses. -/
theorem mapping_books_first : ∃ s t, memory.Reach Orderly s ∧ memory.Steps s (.mmap parent 0 0x1000 true false true) t ∧
    Answered s (.mmap parent 0 0x1000 true false true) t := by
  obtain ⟨s, hreach, -, hp, hfree⟩ := started_orderly
  have hscan : mmapAddr firstTask 0 0x1000 = some userMmapAddr := by
    unfold mmapAddr
    unfold bitmapScan
    rw [List.range_succ_eq_map, List.find?_cons_of_pos (by decide)]
    rfl
  have hx : Orderly s (.mmap parent 0 0x1000 true false true) := fun T hT => by
    cases hp.symm.trans hT
    refine ⟨rfl, userMmapAddr, hscan, le_rfl, by decide, by decide, (linkNeed_le _ _).trans ?_⟩
    show 2 * 1 ≤ s.freePages
    omega
  have he : enabled s (.mmap parent 0 0x1000 true false true) := ⟨by decide, firstTask, hp⟩
  obtain ⟨t, ht, ha⟩ := (mapping_books hreach).2 (.mmap parent 0 0x1000 true false true) trivial he hx
  exact ⟨s, t, hreach, ⟨he, ht⟩, ha⟩

/-- Two pages at the end of the mapping area: the second is a page of the stack. An address that is not that of a page stops the kernel. -/
theorem mmap_outside : ∃ s t T, memory.Reach Orderly s ∧ s.tasks parent = some T ∧
    memory.Steps s (.mmap parent (userStackBottom - 0x1000) 0x2000 true false true) t ∧ physical s T.pde userStackBottom = none ∧
    (physical t T.pde userStackBottom).isSome ∧ ¬ Booked t ∧ enabled s (.mmap parent 1 0x1000 true false true) ∧
    step s (.mmap parent 1 0x1000 true false true) = .error .align := by
  obtain ⟨s, hreach, hf, hp, hfree⟩ := started_orderly
  have hneed : linkNeed (there s firstTask) (own s firstTask) (pageCount 0x2000) (userStackBottom - 0x1000) ≤ s.freePages := by
    refine (linkNeed_le _ _).trans ?_
    show 2 * 2 ≤ s.freePages
    omega
  obtain ⟨t, ht, hr⟩ := mmap_ranged 0x2000 true false true (orderly_reach hreach).1 hp (v := userStackBottom - 0x1000) (by decide)
    (if_pos (by decide)) (by decide) (by decide) (by decide) hneed
  have hstack : InUser userStackBottom := ⟨by decide, by decide⟩
  have hthere := hr.done _ hstack (by decide) (by decide)
  have hbit : ({ firstTask with vmap := setBits firstTask.vmap (userStackBottom - 0x1000) (pageCount 0x2000) true } : Task).vmap
      (userStackBottom / 0x1000) = true := by decide
  refine ⟨s, _, firstTask, hreach, hp, ⟨⟨by decide, firstTask, hp⟩, ht⟩, ?_, hthere, fun hb => ?_, ⟨by decide, firstTask, hp⟩, ?_⟩
  · exact Option.not_isSome_iff_eq_none.1 (Bool.eq_false_iff.1 (hf.there_new hstack))
  · exact Nat.lt_irrefl _ ((hb parent _ (setTask_same ..) (userStackBottom / 0x1000)).1 hbit).1.2
  · exact (withTask_live hp).trans (if_pos (by decide))

end Onix.Memory
