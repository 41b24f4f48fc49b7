/-
A page mapped with `MAP_SHARED` and `PROT_WRITE`, over the later life of all processes that have it
from a fork. They keep one frame that no one else uses, so what one stores is what the others read;
but `fork` makes the directory entry above the page read-only, and a store then ends at the assertion of
`page_fault` on shared pages.
-/
import Onix.Memory.Calls

namespace Onix.Memory

open Onix.Lib

variable {s t u : State} {p q : Fin taskNr} {T U N : Task} {f g v d i n a : Nat} {e w : Entry}

/-! ## One frame for all -/

/-- What `sys_mmap` grants with `MAP_SHARED` and `PROT_WRITE`. -/
structure Granted (e : Entry) : Prop where
  write : e.write = true
  user : e.user = true
  shared : e.shared = true
  readonly : e.readonly = false

/-- The processes in `H`, and no others, have the frame `f`, all of them as the page `i` of slot `d`. -/
structure Common (s : State) (d i : Nat) (H : Fin taskNr → Bool) (f : Nat) : Prop where
  live : ∀ p, H p = true → ∃ T e, Slot s p T d ∧ cell s.mem T.pde d i = some e ∧ e.index = f ∧ Granted e
  alone : ∀ q U c j e, Slot s q U c → j < 1024 → cell s.mem U.pde c j = some e → e.index = f → H q = true ∧ c = d ∧ j = i

def Kept (d i : Nat) (H : Fin taskNr → Bool) (data : Nat → Entry) (s : State) : Prop :=
  ∀ p, H p = true → ∃ f, Common s d i H f ∧ ∀ w < 1024, s.mem f w = data w

variable {H H' : Fin taskNr → Bool} {data : Nat → Entry} {P : Fin taskNr → Nat → Nat → Prop}

theorem Kept.keeps (hi : i < 1024) (h : Kept d i H data s) (hk : Keeps s P t) (hsub : ∀ r, H' r = true → H r = true)
    (hP : ∀ r, H' r = true → ¬ P r d i) (hgone : ∀ r, H r = true → H' r = false → P r d i)
    (hnew : ∀ q U c j e, Slot s q U c → j < 1024 → P q c j → cell t.mem U.pde c j = some e → Unseen s e.index ∨
      ∃ e0, cell s.mem U.pde c j = some e0 ∧ e0.index = e.index ∧ ¬ (H q = true ∧ c = d ∧ j = i)) :
    Kept d i H' data t := by
  intro p hp
  obtain ⟨f, hc, hd⟩ := h p (hsub p hp)
  refine ⟨f, ⟨fun r hr => ?_, fun q U c j e hs hj he hf => ?_⟩, fun w hw => ?_⟩
  · obtain ⟨T, e, hs, he, hf, hg⟩ := hc.live r (hsub r hr)
    exact ⟨T, e, hs.tasks hk.tasks, (hk.cell r T d i hs hi (hP r hr)).trans he, hf, hg⟩
  · have hs := hs.congr hk.tasks
    obtain ⟨T, e1, hs1, he1, hf1, -⟩ := hc.live p (hsub p hp)
    by_cases hq : P q c j
    · rcases hnew q U c j e hs hj hq he with hun | ⟨e0, he0, hf0, hn⟩
      · exact absurd (hf1.trans hf.symm) (hun p T d i e1 hs1 hi he1)
      · exact absurd (hc.alone q U c j e0 hs hj he0 (hf0.trans hf)) hn
    · rw [hk.cell q U c j hs hj hq] at he
      obtain ⟨h1, rfl, rfl⟩ := hc.alone q U c j e hs hj he hf
      refine ⟨?_, rfl, rfl⟩
      cases hH : H' q with
      | true => rfl
      | false => exact absurd (hgone q h1 hH) hq
  · obtain ⟨T, e, hs, he, rfl, -⟩ := hc.live p (hsub p hp)
    rw [hk.data p T d i e hs hi (hP p hp) he]
    exact hd w hw

theorem Kept.there (h : Kept d i H data s) (hp : H p = true) (hs : s.tasks p = some T) :
    ∃ e, cell s.mem T.pde d i = some e ∧ Granted e := by
  obtain ⟨f, hc, -⟩ := h p hp
  obtain ⟨T', e, hs', he, -, hg⟩ := hc.live p hp
  cases hs.symm.trans hs'.task
  exact ⟨e, he, hg⟩

theorem Kept.added (hi : i < 1024) (h : Kept d i H data s) (hk : Keeps s (at' p (didx v) (tidx v)) t) (hs : s.tasks p = some T)
    (hb : cell s.mem T.pde (didx v) (tidx v) = none)
    (hn : ∀ e, cell t.mem T.pde (didx v) (tidx v) = some e → Unseen s e.index) : Kept d i H data t := by
  refine h.keeps hi hk (fun _ hr => hr) (fun r hr hP => ?_) (fun r h1 h2 => by rw [h1] at h2; cases h2)
    fun q U c j e hq _ hP he => ?_
  · obtain ⟨rfl, rfl, rfl⟩ := hP
    obtain ⟨e, he, -⟩ := h.there hr hs
    rw [hb] at he
    cases he
  · obtain ⟨rfl, rfl, rfl⟩ := hP
    cases hs.symm.trans hq.task
    exact .inl (hn e he)

theorem Kept.linked (hi : i < 1024) (h : Kept d i H data s) (hs : s.tasks p = some T) (ht : Linked s p T v t) :
    Kept d i H data t := by
  rcases ht with ⟨rfl, -⟩ | ht
  · exact h
  · obtain ⟨g, hg, hun, -⟩ := ht.page
    refine h.added hi ht.keeps hs ht.before fun e he => ?_
    cases hg.symm.trans he
    exact hun

theorem Kept.removed (hi : i < 1024) (h : Kept d i H data s) (hs : s.tasks p = some T) (ht : Removed s p T v t)
    (hne : ¬ (d = didx v ∧ i = tidx v)) : Kept d i H data t := by
  refine h.keeps hi ht.keeps (fun _ hr => hr) (fun r _ hP => hne ⟨hP.2.1, hP.2.2⟩) (fun r h1 h2 => by rw [h1] at h2; cases h2)
    fun q U c j e hq _ hP he => ?_
  obtain ⟨rfl, rfl, rfl⟩ := hP
  cases hs.symm.trans hq.task
  rw [ht.gone] at he
  cases he

def drop (H : Fin taskNr → Bool) (p : Fin taskNr) (c : Bool) : Fin taskNr → Bool := fun r => H r && !(decide (r = p) && c)

theorem drop_false (H : Fin taskNr → Bool) (p : Fin taskNr) : drop H p false = H := by
  funext r
  unfold drop
  rw [Bool.and_false, Bool.not_false, Bool.and_true]

theorem drop_true {r : Fin taskNr} : drop H p true r = true ↔ H r = true ∧ r ≠ p := by
  unfold drop
  rw [Bool.and_true, Bool.and_eq_true, Bool.not_eq_true', decide_eq_false_iff_not]

theorem drop_drop (H : Fin taskNr → Bool) (p : Fin taskNr) (c : Bool) : drop (drop H p c) p true = drop H p true := by
  funext r
  unfold drop
  by_cases hr : r = p
  · rw [decide_eq_true hr, Bool.and_true, Bool.not_true, Bool.and_false, Bool.and_false]
  · rw [decide_eq_false hr, Bool.false_and, Bool.false_and, Bool.not_false, Bool.and_true]

theorem Kept.unmapped (hi : i < 1024) (h : Kept d i H data s) (hs : s.tasks p = some T) (ht : Removed s p T v t)
    (he : d = didx v ∧ i = tidx v) : Kept d i (drop H p true) data t := by
  obtain ⟨rfl, rfl⟩ := he
  refine h.keeps hi ht.keeps (fun r hr => (drop_true.1 hr).1) (fun r hr hP => (drop_true.1 hr).2 hP.1) (fun r h1 h2 => ?_)
    fun q U c j e hq _ hP he => ?_
  · refine ⟨?_, rfl, rfl⟩
    by_contra hne
    rw [drop_true.2 ⟨h1, hne⟩] at h2
    cases h2
  · obtain ⟨rfl, rfl, rfl⟩ := hP
    cases hs.symm.trans hq.task
    rw [ht.gone] at he
    cases he

theorem Kept.copied (hi : i < 1024) (h : Kept d i H data s) (hs : s.tasks p = some T) (ht : Copied s p T v t) :
    Kept d i H data t := by
  obtain ⟨e, g, hc, hsh, hc', -, hg⟩ := ht.page
  have hne : ∀ r, H r = true → ¬ at' p (didx v) (tidx v) r d i := fun r hr hP => by
    obtain ⟨rfl, rfl, rfl⟩ := hP
    obtain ⟨e', he', hgr⟩ := h.there hr hs
    cases hc.symm.trans he'
    rw [hgr.shared] at hsh
    cases hsh
  refine h.keeps hi ht.keeps (fun _ hr => hr) hne (fun r h1 h2 => by rw [h1] at h2; cases h2) fun q U c j e' hq _ hP he => ?_
  obtain ⟨rfl, rfl, rfl⟩ := hP
  cases hs.symm.trans hq.task
  cases hc'.symm.trans he
  rcases hg with ⟨rfl, -⟩ | ⟨hun, -⟩
  · refine .inr ⟨e, hc, rfl, fun hn => hne q hn.1 ⟨rfl, hn.2.1.symm, hn.2.2.symm⟩⟩
  · exact .inl hun

theorem Kept.retag (hinv : Inv s) (hi : i < 1024) (h : Kept d i H data s) (hs : Slot s p T (didx v))
    (he : cell s.mem T.pde (didx v) (tidx v) = some e) (hl : Like e w) (hne : ¬ (H p = true ∧ d = didx v ∧ i = tidx v)) :
    Kept d i H data (setEntry s T.pde v w) := by
  have hw : w.present = true := hl.1.trans (by rw [← (cell_some.1 he).2.2]; exact (cell_some.1 he).2.1)
  intro r hr
  obtain ⟨f, hc, hd⟩ := h r hr
  refine ⟨f, ⟨fun r hr => ?_, fun q U c j e' hq hj he' hf => ?_⟩, fun k hk => ?_⟩
  · obtain ⟨V, e', hsr, her, hf, hg⟩ := hc.live r hr
    rcases retag_cell hinv hs he hw (j := i) hsr with hsame | ⟨h1, h2, h3, -⟩
    · exact ⟨V, e', ⟨hsr.task, hsr.low, hsr.high⟩, hsame.trans her, hf, hg⟩
    · cases her.symm.trans h3
      exact absurd ⟨(hc.alone p T _ _ e hs (tidx_lt v) he hf).1, h1, h2⟩ hne
  · have hq : Slot s q U c := ⟨hq.task, hq.low, hq.high⟩
    rcases retag_cell hinv hs he hw (j := j) hq with hsame | ⟨-, -, h3, h4⟩
    · exact hc.alone q U c j e' hq hj (hsame.symm.trans he') hf
    · cases he'.symm.trans h4
      exact hc.alone q U c j e hq hj h3 (hl.2.symm.trans hf)
  · obtain ⟨V, e', hsr, her, rfl, -⟩ := hc.live r hr
    rw [← hd k hk]
    exact Mem.set_other _ _ fun e => hinv.page (cell_uses hsr hi her) (e.1 ▸ hs.structTable (cell_some.1 he).1)

theorem Kept.mapped {write shared privat : Bool} (hinv : Inv s) (hi : i < 1024) (h : Kept d i H data s) (hs : Slot s p T (didx v))
    (ht : Mapped s p T v write shared privat t) (hne : ¬ (H p = true ∧ d = didx v ∧ i = tidx v)) : Kept d i H data t := by
  cases ht with
  | new g _ hk _ hb hc hn _ =>
    refine h.added hi hk hs.task hb fun e he => ?_
    cases hc.symm.trans he
    exact hn
  | old e _ hc ht =>
    subst ht
    exact h.retag hinv hi hs hc (mmapEntry_like ..) hne

def stored (data : Nat → Entry) (k : Nat) (w : Entry) (c : Bool) : Nat → Entry := fun x => if c = true ∧ x = k then w else data x

theorem Kept.store (hinv : Inv s) (h : Kept d i H data s) (hs : Slot s p T (didx v))
    (he : cell s.mem T.pde (didx v) (tidx v) = some e) (k : Nat) (w : Entry) :
    Kept d i H (stored data k w (H p && decide (d = didx v ∧ i = tidx v))) { s with mem := s.mem.set e.index k w } := by
  have hu := cell_uses hs (tidx_lt v) he
  intro r hr
  obtain ⟨f, hc, hd⟩ := h r hr
  refine ⟨f, ⟨fun r hr => ?_, fun q U c j e' hq hj he' hf => ?_⟩, fun x hx => ?_⟩
  · obtain ⟨V, e', hsr, her, hf, hg⟩ := hc.live r hr
    exact ⟨V, e', ⟨hsr.task, hsr.low, hsr.high⟩, (store_cell hinv hu hsr).trans her, hf, hg⟩
  · have hq : Slot s q U c := ⟨hq.task, hq.low, hq.high⟩
    exact hc.alone q U c j e' hq hj ((store_cell hinv hu hq).symm.trans he') hf
  · show s.mem.set e.index k w f x = _
    unfold stored
    by_cases hp : H p = true ∧ d = didx v ∧ i = tidx v
    · obtain ⟨hp, rfl, rfl⟩ := hp
      obtain ⟨V, e', hsr, her, rfl, -⟩ := hc.live p hp
      cases hs.task.symm.trans hsr.task
      cases he.symm.trans her
      rw [hp, Bool.true_and, decide_eq_true (⟨rfl, rfl⟩ : didx v = didx v ∧ tidx v = tidx v)]
      by_cases hxk : x = k
      · rw [hxk, Mem.set_same, if_pos ⟨rfl, rfl⟩]
      · rw [Mem.set_other _ _ fun e => hxk e.2, if_neg fun e => hxk e.2]
        exact hd x hx
    · have hne : e.index ≠ f := fun e' => by
        obtain ⟨h1, h2, h3⟩ := hc.alone p T _ _ e hs (tidx_lt v) he e'
        exact hp ⟨h1, h2.symm, h3.symm⟩
      rw [Mem.set_other _ _ fun e => hne e.1.symm, if_neg ?_]
      · exact hd x hx
      · rintro ⟨hb, -⟩
        rw [Bool.and_eq_true, decide_eq_true_eq] at hb
        exact hp hb

def share (H : Fin taskNr → Bool) (q : Fin taskNr) (b : Bool) : Fin taskNr → Bool := fun r => if r = q then b else H r

theorem Kept.forked {pd : Nat} {b : Bool} (hi : i < 1024) (hd4 : 4 ≤ d) (hd64 : d < 64) (h : Kept d i H data s)
    (ht : Forked s pd q N t) (hq : s.tasks q = none) (hb : b = true → ∃ p T, H p = true ∧ s.tasks p = some T ∧ T.pde = pd)
    (hsrc : ∀ c j e, 4 ≤ c → c < 64 → cell t.mem pd c j = some e → ∃ p T, s.tasks p = some T ∧ T.pde = pd ∧ (H p = true → b = true)) :
    Kept d i (share H q b) data t := by
  have hslot : ∀ r U c, Slot t r U c → r = q ∧ U = N ∨ r ≠ q ∧ Slot s r U c := fun r U c hs => by
    have hr := hs.task
    rw [ht.tasks] at hr
    by_cases e : r = q
    · rw [if_pos e] at hr
      exact .inl ⟨e, (Option.some.inj hr).symm⟩
    · rw [if_neg e] at hr
      exact .inr ⟨e, hr, hs.low, hs.high⟩
  have hother : ∀ r T c, Slot s r T c → Slot t r T c ∧ r ≠ q := fun r T c hs => by
    have hr : r ≠ q := fun e => by
      have := hs.task
      rw [e, hq] at this
      cases this
    exact ⟨⟨by rw [ht.tasks, if_neg hr]; exact hs.task, hs.low, hs.high⟩, hr⟩
  -- a page that was granted keeps its entry
  have hold : ∀ r T e, Slot s r T d → cell s.mem T.pde d i = some e → Granted e → cell t.mem T.pde d i = some e :=
    fun r T e hs he hg => by
      rcases ht.old r T d i hs hi with h1 | ⟨e', he', hsh, -⟩
      · exact h1.trans he
      · cases he.symm.trans he'
        rw [hg.shared] at hsh
        cases hsh
  -- an entry comes from one with the same frame
  have hback : ∀ r U c j e, Slot s r U c → j < 1024 → cell t.mem U.pde c j = some e →
      ∃ e0, cell s.mem U.pde c j = some e0 ∧ e0.index = e.index := fun r U c j e hs hj he => by
    rcases ht.old r U c j hs hj with h1 | ⟨e', he', -, h1⟩
    · exact ⟨e, h1.symm.trans he, rfl⟩
    · cases he.symm.trans h1
      exact ⟨e', he', rfl⟩
  have hany : ∀ r, share H q b r = true → ∃ p, H p = true := fun r hr => by
    unfold share at hr
    split at hr
    · obtain ⟨p, -, hp, -⟩ := hb hr
      exact ⟨p, hp⟩
    · exact ⟨r, hr⟩
  intro r hr
  obtain ⟨p0, hp0⟩ := hany r hr
  obtain ⟨f, hc, hdata⟩ := h p0 hp0
  refine ⟨f, ⟨fun v hv => ?_, fun r U c j e hs hj he hf => ?_⟩, fun k hk => ?_⟩
  · unfold share at hv
    by_cases hvq : v = q
    · subst hvq
      rw [if_pos rfl] at hv
      obtain ⟨p, T, hp, hpT, rfl⟩ := hb hv
      obtain ⟨T', e, hs, he, hf, hg⟩ := hc.live p hp
      cases hpT.symm.trans hs.task
      exact ⟨N, e, ⟨by rw [ht.tasks, if_pos rfl], hd4, hd64⟩, (ht.new d i hd4 hd64 hi).trans (hold p T e hs he hg), hf, hg⟩
    · rw [if_neg hvq] at hv
      obtain ⟨T, e, hs, he, hf, hg⟩ := hc.live v hv
      exact ⟨T, e, (hother v T d hs).1, hold v T e hs he hg, hf, hg⟩
  · rcases hslot r U c hs with ⟨rfl, rfl⟩ | ⟨hne, hs'⟩
    · rw [ht.new c j hs.low hs.high hj] at he
      obtain ⟨p, T, hpT, rfl, hpb⟩ := hsrc c j e hs.low hs.high he
      obtain ⟨e0, he0, hf0⟩ := hback p T c j e ⟨hpT, hs.low, hs.high⟩ hj he
      obtain ⟨h1, h2, h3⟩ := hc.alone p T c j e0 ⟨hpT, hs.low, hs.high⟩ hj he0 (hf0.trans hf)
      exact ⟨(if_pos rfl).trans (hpb h1), h2, h3⟩
    · obtain ⟨e0, he0, hf0⟩ := hback r U c j e hs' hj he
      obtain ⟨h1, h2, h3⟩ := hc.alone r U c j e0 hs' hj he0 (hf0.trans hf)
      exact ⟨(if_neg hne).trans h1, h2, h3⟩
  · obtain ⟨T, e, hs, he, rfl, -⟩ := hc.live p0 hp0
    rw [ht.data p0 T d i e hs hi he]
    exact hdata k hk

theorem Kept.exited (h : Kept d i H data s) (ht : Exited s p t) : Kept d i (drop H p true) data t := by
  have hslot : ∀ r U c, Slot t r U c ↔ r ≠ p ∧ Slot s r U c := fun r U c => by
    constructor
    · intro hs
      have hr := hs.task
      rw [ht.tasks] at hr
      by_cases e : r = p
      · rw [if_pos e] at hr
        cases hr
      · rw [if_neg e] at hr
        exact ⟨e, hr, hs.low, hs.high⟩
    · rintro ⟨hne, hs⟩
      exact ⟨by rw [ht.tasks, if_neg hne]; exact hs.task, hs.low, hs.high⟩
  intro r hr
  obtain ⟨f, hc, hd⟩ := h r (drop_true.1 hr).1
  refine ⟨f, ⟨fun r hr => ?_, fun q U c j e hs hj he hf => ?_⟩, fun k hk => ?_⟩
  · obtain ⟨T, e, hs, he, hf, hg⟩ := hc.live r (drop_true.1 hr).1
    refine ⟨T, e, (hslot ..).2 ⟨(drop_true.1 hr).2, hs⟩, ?_, hf, hg⟩
    rw [ht.mem]
    exact he
  · rw [ht.mem] at he
    obtain ⟨hne, hs⟩ := (hslot ..).1 hs
    obtain ⟨h1, h2, h3⟩ := hc.alone q U c j e hs hj he hf
    exact ⟨drop_true.2 ⟨h1, hne⟩, h2, h3⟩
  · rw [ht.mem]
    exact hd k hk

theorem Kept.setTask (h : Kept d i H data s) (hp : s.tasks p = some T) (hN : N.pde = T.pde) :
    Kept d i H data (setTask s p (some N)) := by
  intro r hr
  obtain ⟨f, hc, hd⟩ := h r hr
  refine ⟨f, ⟨fun r hr => ?_, fun q U c j e hs hj he hf => ?_⟩, hd⟩
  · obtain ⟨V, e, hs, he, hf, hg⟩ := hc.live r hr
    by_cases hrp : r = p
    · subst hrp
      cases hp.symm.trans hs.task
      refine ⟨N, e, ⟨setTask_same .., hs.low, hs.high⟩, ?_, hf, hg⟩
      rw [hN]
      exact he
    · exact ⟨V, e, ⟨(setTask_other _ _ hrp).trans hs.task, hs.low, hs.high⟩, he, hf, hg⟩
  · obtain ⟨V, hV, e1⟩ := setTask_slot hp hN hs
    rw [← e1] at he
    exact hc.alone q V c j e hV hj he hf

/-! ## The history of a shared page -/

/-- The processes that still have the page, and what was last stored to it. -/
structure Sharing where
  holders : Fin taskNr → Bool
  data : Nat → Entry

/-- A step hands the page `a` to a child, takes it from a process or stores to it. -/
def after (a : Nat) (x : Sharing) : Act → Sharing
  | .start p _ => { x with holders := share x.holders p false }
  | .fork p q _ => { x with holders := share x.holders q (x.holders p) }
  | .exit p => { x with holders := drop x.holders p true }
  | .unlink p v => { x with holders := drop x.holders p (decide (a / 0x1000 = v / 0x1000)) }
  | .munmap p v length =>
    { x with holders := drop x.holders p (decide (v / 0x1000 ≤ a / 0x1000 ∧ a / 0x1000 < v / 0x1000 + pageCount length)) }
  | .store p v i w | .kernelStore p v i w _ =>
    { x with data := stored x.data i w (x.holders p && decide (a / 0x1000 = v / 0x1000)) }
  | _ => x

/-- Steps in user space that do not map the page `a` again where it is. -/
def Quiet (a : Nat) (x : State × Sharing) (y : Act) : Prop :=
  UserSpace x.1 y ∧ ∀ p v length write shared privat T b, y = .mmap p v length write shared privat → x.2.holders p = true →
    x.1.tasks p = some T → mmapAddr T v length = some b → ¬ (b / 0x1000 ≤ a / 0x1000 ∧ a / 0x1000 < b / 0x1000 + pageCount length)

theorem kept_munmap {length : Nat} (ha : a < userStackTop) (hi : Inv s) (h : Kept (didx a) (tidx a) H data s) (hp : s.tasks p = some T)
    (hr : v + pageCount length * 0x1000 ≤ userStackTop) : Sat Lost (sysMunmap s p T v length)
      (Kept (didx a) (tidx a) (drop H p (decide (v / 0x1000 ≤ a / 0x1000 ∧ a / 0x1000 < v / 0x1000 + pageCount length))) data) := by
  refine Sat.mono (sysMunmap_sat (J := fun w => Kept (didx a) (tidx a)
    (drop H p (decide (v / 0x1000 ≤ a / 0x1000 ∧ a / 0x1000 < w / 0x1000))) data) hi ?_ hp hr ?_ ?_) fun t ht => ht.2
  · rw [decide_eq_false (by omega), drop_false]
    exact h
  · intro s t w hi hj hp h1 h2 ht
    by_cases hw : a / 0x1000 = w / 0x1000
    · have hd := hj.unmapped (tidx_lt a) hp ht ((same_page ha (by omega)).2 hw)
      rw [drop_drop] at hd
      rw [decide_eq_true (by omega)]
      exact hd
    · have hd := hj.removed (tidx_lt a) hp ht fun e => hw ((same_page ha (by omega)).1 e)
      have hiff : (v / 0x1000 ≤ a / 0x1000 ∧ a / 0x1000 < (w + 0x1000) / 0x1000) ↔
          (v / 0x1000 ≤ a / 0x1000 ∧ a / 0x1000 < w / 0x1000) := by omega
      simp only [hiff]
      exact hd
  · intro t N _ hk hp hN
    rw [show (v + pageCount length * 0x1000) / 0x1000 = v / 0x1000 + pageCount length by omega] at hk
    exact hk.setTask hp hN

theorem kept_step {x : Sharing} {y : Act} (ha : userMmapAddr ≤ a ∧ a < userStackTop) (hi : Inv s)
    (h : Kept (didx a) (tidx a) x.holders x.data s) (hq : Quiet a (s, x) y) (hst : memory.Steps s y t) :
    Kept (didx a) (tidx a) (after a x y).holders (after a x y).data t := by
  have hlt := tidx_lt a
  have hslot := didx_user (userExec_le.trans ha.1) ha.2
  obtain ⟨he, hstep⟩ := hst
  obtain ⟨hu, hremap⟩ := hq
  suffices Sat Lost (step s y) (Kept (didx a) (tidx a) (after a x y).holders (after a x y).data) from this.of_ok hstep
  cases y with
  | start p k =>
    refine (copyPde_sat hi (.kernel hi) he.2 he.1 rfl ⟨le_rfl, userExec_le⟩).mono fun t ht => ?_
    refine h.forked hlt hslot.1 hslot.2 ht he.1 (fun hb => nomatch hb) fun c j e h1 h2 hc => ?_
    rw [cell_some, ht.inv.kernel c h1 h2] at hc
    exact nomatch hc.1
  | fork p q k =>
    refine withTask_sat fun T hp => ?_
    refine (copyPde_sat (N := { T with pde := k }) hi (.live hp) he.2.2 he.2.1 rfl (hi.heap p T hp)).mono fun t ht => ?_
    exact h.forked hlt hslot.1 hslot.2 ht he.2.1 (fun hb => ⟨p, T, hb, hp, rfl⟩) fun _ _ _ _ _ _ => ⟨p, T, hp, rfl, id⟩
  | exit p => exact withTask_sat fun T hp => (exit_sat hi hp).mono fun t ht => h.exited ht
  | link p v => exact withTask_sat fun T hp => (linkPage_sat hi (InUser.slot hu hp)).mono fun t ht => h.linked hlt hp ht
  | unlink p v =>
    refine withTask_sat fun T hp => (unlinkPage_sat hi (InUser.slot hu hp)).mono fun t ht => ?_
    show Kept _ _ (drop x.holders p (decide (a / 0x1000 = v / 0x1000))) x.data t
    by_cases hv : a / 0x1000 = v / 0x1000
    · rw [decide_eq_true hv]
      exact h.unmapped hlt hp ht ((same_page ha.2 hu.2).2 hv)
    · rw [decide_eq_false hv, drop_false]
      exact h.removed hlt hp ht fun e => hv ((same_page ha.2 hu.2).1 e)
  | fault p v present write =>
    obtain ⟨T', -, h1, h2, -⟩ := he
    refine withTask_sat fun T hp => (pageFault_sat hi (InUser.slot ⟨h1, h2⟩ hp) present write).mono fun t ht => ?_
    rcases ht with ht | ht
    · exact h.linked hlt hp ht
    · exact h.copied hlt hp ht
  | segment p v => exact withTask_sat fun T hp => Sat.ok (h.setTask hp rfl)
  | brk p v =>
    refine withTask_sat fun T hp => (sysBrk_sat hi h hp (fun s t v _ hk hp _ hv ht => ?_) fun t N _ hk hp hN =>
      hk.setTask hp hN).mono fun t ht => ht.2
    have htop : userMmapAddr ≤ userStackTop := by decide
    exact hk.removed hlt hp ht fun e => by
      have := (same_page ha.2 (hv.trans_le htop)).1 e
      unfold userMmapAddr at ha hv
      omega
  | mmap p v length write shared privat =>
    refine withTask_sat fun T hp => ?_
    cases hb : mmapAddr T v length with
    | none => exact sysMmap_none hb
    | some b =>
      have hfit := hu T hp b hb
      refine (sysMmap_sat (J := fun _ => Kept (didx a) (tidx a) x.holders x.data) hi hp hb hfit h
        (fun s' t w hi' hk hp' hw h1 h2 ht => ?_) fun t N _ hk hp' hN => hk.setTask hp' hN).mono fun t ht => ht.2
      refine hk.mapped hi' hlt (hw.slot hp') ht fun hn => ?_
      have := (same_page ha.2 hw.2).1 hn.2
      exact hremap p v length write shared privat T b rfl hn.1 hp hb (by omega)
  | munmap p v length =>
    have hstep : step s (.munmap p v length) = .ok t := hstep
    have hend : v + pageCount length * 0x1000 ≤ userStackTop := step_ends hstep
    exact withTask_sat fun T hp => kept_munmap ha.2 hi h hp hend
  | store p v k w =>
    obtain ⟨-, -, T', hp', h1⟩ := he
    refine withTask_sat fun T hp => Sat.ok ?_
    cases hp.symm.trans hp'
    have hk := h.store hi (InUser.slot hu hp') (cell_some.2 ⟨h1.1, h1.2.2.2.1, rfl⟩) k w
    rw [decide_eq_decide.2 (same_page ha.2 hu.2)] at hk
    exact hk
  | kernelStore p v k w user =>
    obtain ⟨-, -, T', hp', h1⟩ := he
    refine withTask_sat fun T hp => Sat.ok ?_
    cases hp.symm.trans hp'
    obtain ⟨e, hc, -⟩ := memoryAccess_cell h1
    have hk := h.store hi (InUser.slot hu hp') hc k w
    rw [decide_eq_decide.2 (same_page ha.2 hu.2), ← (cell_some.1 hc).2.2] at hk
    exact hk

/-! ## The mapping -/

theorem mmap_kept {length b : Nat} {privat : Bool} (hi : Inv s) (hp : s.tasks p = some T) (hb : mmapAddr T v length = some b)
    (hfit : Fits T v length) (ha : InUser a) (hlo : b / 0x1000 ≤ a / 0x1000) (hhi : a / 0x1000 < b / 0x1000 + pageCount length)
    (hnone : cell s.mem T.pde (didx a) (tidx a) = none) :
    Sat Lost (sysMmap s p T v length true true privat)
      fun t => ∃ data, Kept (didx a) (tidx a) (fun r => decide (r = p)) data t := by
  have hlt := tidx_lt a
  refine Sat.mono (sysMmap_sat (J := fun w s => if a / 0x1000 < w then ∃ data, Kept (didx a) (tidx a) (fun r => decide (r = p)) data s
    else cell s.mem T.pde (didx a) (tidx a) = none) hi hp hb (hfit b hb) ?_ ?_ ?_) fun t ht => ht.2
  · rw [if_neg (by omega)]
    exact hnone
  · intro s t w hi hj hp hw h1 h2 ht
    have hs := ha.slot (s := s) hp
    have hsw := hw.slot (s := s) hp
    by_cases hlt' : a / 0x1000 < w / 0x1000
    · -- the page is mapped, another one follows
      rw [if_pos hlt'] at hj
      obtain ⟨data, hk⟩ := hj
      rw [if_pos (by omega)]
      refine ⟨data, hk.mapped hi hlt hsw ht fun hn => ?_⟩
      have := (same_page ha.2 hw.2).1 hn.2
      omega
    · rw [if_neg hlt'] at hj
      by_cases heq : a / 0x1000 = w / 0x1000
      · rw [if_pos (by omega)]
        obtain ⟨hd, hti⟩ := (same_page ha.2 hw.2).2 heq
        cases ht with
        | old e _ hc _ =>
          rw [← hd, ← hti, hj] at hc
          cases hc
        | new g hi' hk _ _ hc _ hu =>
          rw [← hd, ← hti] at hc
          have hs' : Slot t p T (didx a) := hs.tasks hk.tasks
          refine ⟨t.mem g, fun r hr => ⟨g, ⟨fun r hr => ?_, fun q U c j e hq hj he hf => ?_⟩, fun _ _ => rfl⟩⟩
          · obtain rfl := of_decide_eq_true hr
            exact ⟨T, _, hs', hc, rfl, rfl, rfl, rfl, rfl⟩
          · obtain ⟨rfl, rfl, rfl⟩ := cell_unique hs' hq hlt hj hc he hf hu
            exact ⟨decide_eq_true rfl, rfl, rfl⟩
      · rw [if_neg (by omega)]
        have hne : ¬ (didx a = didx w ∧ tidx a = tidx w) := fun e => heq ((same_page ha.2 hw.2).1 e)
        cases ht with
        | new g _ hk _ _ _ _ _ =>
          rw [hk.cell p T _ _ hs hlt fun e => hne e.2]
          exact hj
        | old e _ hc ht =>
          have hpe : (mmapEntry e true true privat).present = true := by
            rw [← (cell_some.1 hc).2.2]
            exact (cell_some.1 hc).2.1
          subst ht
          rcases retag_cell hi hsw hc hpe (j := tidx a) hs with h3 | ⟨h3, h4, -⟩
          · exact h3.trans hj
          · exact absurd ⟨h3, h4⟩ hne
  · intro t N _ hk hp hN
    rw [if_pos hhi] at hk
    obtain ⟨data, hk⟩ := hk
    exact ⟨data, hk.setTask hp hN⟩

/-! ## Runs -/

/-- A process that runs in user space has just mapped the page `a`, which it did not have, shared and writable. -/
structure Mapping (a : Nat) (x : State × Sharing) : Prop where
  run : ∃ s p T v length privat b, memory.Reach UserSpace s ∧ s.tasks p = some T ∧ memory.enabled s (.mmap p v length true true privat) ∧
    UserSpace s (.mmap p v length true true privat) ∧ mmapAddr T v length = some b ∧ b ≤ a ∧ a < b + pageCount length * 0x1000 ∧
    physical s T.pde a = none ∧ sysMmap s p T v length true true privat = .ok x.1 ∧ (∀ r, x.2.holders r = decide (r = p))
  data : ∀ p T, x.2.holders p = true → x.1.tasks p = some T → ∀ i < 1024, readWord x.1 T.pde a i = some (x.2.data i)

def sharing (a : Nat) : Machine (State × Sharing) Act Fault :=
  { memory.record (fun _ _ => True) (fun x _ y _ => after a x y) with start := Mapping a }

structure Ready (a : Nat) (x : State × Sharing) : Prop where
  inv : Inv x.1
  low : userMmapAddr ≤ a
  high : a < userStackTop
  kept : Kept (didx a) (tidx a) x.2.holders x.2.data x.1

theorem read_kept (h : Kept (didx a) (tidx a) H data s) (hp : H p = true) (hs : s.tasks p = some T) (hi : i < 1024) :
    readWord s T.pde a i = some (data i) := by
  obtain ⟨f, hc, hd⟩ := h p hp
  obtain ⟨T', e, hs', he, rfl, -⟩ := hc.live p hp
  cases hs.symm.trans hs'.task
  unfold readWord
  rw [physical_cell, he, ← hd i hi]
  rfl

theorem mapping_ready {x : State × Sharing} (h : Mapping a x) : Ready a x := by
  obtain ⟨⟨s, p, T, v, length, privat, b, hreach, hp, hen, hu, hb, h1, h2, hphys, hst, hH⟩, hdata⟩ := h
  have hi := reach_inv (fun _ _ h => h) hreach
  have hfit := hu T hp
  have hrange := hfit b hb
  have hstep : step s (.mmap p v length true true privat) = .ok x.1 := by
    show withTask s p _ = _
    unfold withTask
    rw [hp]
    exact hst
  have hb2 : userMmapAddr ≤ b := by
    unfold sysMmap at hst
    split at hst
    · cases hst
    rw [hb] at hst
    dsimp only at hst
    split at hst
    · cases hst
    · omega
  have hal : b % 0x1000 = 0 := by
    unfold sysMmap at hst
    split at hst
    · cases hst
    · rename_i hv
      exact mmapAddr_aligned (not_not.1 hv) hb
  have ha : InUser a := ⟨userExec_le.trans (hb2.trans h1), by omega⟩
  have hnone : cell s.mem T.pde (didx a) (tidx a) = none := by
    rw [physical_cell] at hphys
    exact Option.map_eq_none_iff.1 hphys
  obtain ⟨data, hk⟩ := (mmap_kept hi hp hb hfit ha (by omega) (by omega) hnone).of_ok hst
  have hH' : x.2.holders = fun r => decide (r = p) := funext hH
  rw [← hH'] at hk
  refine ⟨(step_sat (x := .mmap p v length true true privat) hi hen hu trivial).of_ok hstep, hb2.trans h1, ha.2, fun r hr => ?_⟩
  obtain ⟨f, hc, hd⟩ := hk r hr
  refine ⟨f, hc, fun w hw => ?_⟩
  obtain ⟨T', e, hs, -⟩ := hc.live r hr
  have h3 := hdata r T' hr hs.task w hw
  rw [read_kept hk hr hs.task hw] at h3
  rw [hd w hw]
  exact Option.some.inj h3

theorem sharing_steps {x z : State × Sharing} {y : Act} :
    (sharing a).Steps x y z ↔ memory.Steps x.1 y z.1 ∧ z.2 = after a x.2 y := by
  show (memory.record (fun _ _ => True) fun x _ y _ => after a x y).Steps x y z ↔ _
  exact Machine.record_steps

theorem ready_step {x z : State × Sharing} {y : Act} (h : Ready a x) (hq : Quiet a x y) (hst : (sharing a).Steps x y z) :
    Ready a z := by
  obtain ⟨hst, h2⟩ := sharing_steps.1 hst
  have hk := kept_step ⟨h.low, h.high⟩ h.inv h.kept hq hst
  rw [← h2] at hk
  exact ⟨(step_sat h.inv hst.1 hq.1 (step_ends hst.2)).of_ok hst.2, h.low, h.high, hk⟩

theorem ready {x : State × Sharing} (h : (sharing a).Reach (Quiet a) x) : Ready a x :=
  h.inv (fun _ => mapping_ready) fun _ _ _ => ready_step

/-! ## Stores -/

instance (s : State) (pd v : Nat) : Decidable (userWritable s pd v) := by
  unfold userWritable
  infer_instance

/-- A store of user code. Where the processor refuses it `page_fault` runs first, and the store is made
again if it returns. -/
def userStore (s : State) (task : Task) (v i : Nat) (w : Entry) : Except Fault State :=
  if userWritable s task.pde v then .ok (storeWord s task.pde v i w)
  else do
    let s ← pageFault s task v (physical s task.pde v).isSome true
    pure (storeWord s task.pde v i w)

theorem writable_kept (hi : Inv s) (h : Kept (didx a) (tidx a) H data s) (hp : H p = true) (hs : Slot s p T (didx a)) :
    userWritable s T.pde a ↔ (dirEntry s T.pde a).write = true := by
  obtain ⟨e, he, hg⟩ := h.there hp hs.task
  obtain ⟨h1, h2, rfl⟩ := cell_some.1 he
  exact ⟨fun hw => hw.2.1, fun hw => ⟨h1, hw, (hi.slot p T _ hs h1).1, h2, hg.write, hg.user⟩⟩

theorem store_locked (hi : Inv s) (h : Kept (didx a) (tidx a) H data s) (hp : H p = true) (hs : Slot s p T (didx a))
    (hw : (dirEntry s T.pde a).write ≠ true) : userStore s T a i w = .error .access := by
  obtain ⟨e, he, hg⟩ := h.there hp hs.task
  have hphys : (physical s T.pde a).isSome = true := by
    rw [physical_cell, he]
    rfl
  obtain ⟨h1, h2, rfl⟩ := cell_some.1 he
  unfold userStore
  rw [if_neg fun hn => hw ((writable_kept hi h hp hs).1 hn), hphys]
  unfold pageFault
  rw [if_pos rfl, if_neg (fun hn => hn rfl), if_neg (fun hn => hn h1)]
  rw [if_pos (.inr (.inl hg.shared))]
  rfl

theorem store_read (hi : Inv s) (h : Kept (didx a) (tidx a) H data s) (hp : H p = true) (hs : Slot s p T (didx a)) (hlt : i < 1024)
    (hq : H q = true) (hqs : s.tasks q = some U) : readWord (storeWord s T.pde a i w) U.pde a i = some w := by
  obtain ⟨e, he, -⟩ := h.there hp hs.task
  have hk := h.store hi hs he i w
  have hent : pageEntry s T.pde a = e := (cell_some.1 he).2.2
  unfold storeWord
  rw [hent, read_kept hk hq hqs hlt, stored, hp]
  simp

/-- In every run the processes that still have a shared page have it in one frame and read what one
of them stored last; a store goes through, and is read by all, exactly if the directory entry above the page is
writable. -/
theorem shared_pages {a : Nat} {x : State × Sharing} (h : (sharing a).Reach (Quiet a) x) :
    (∃ f, ∀ p, x.2.holders p = true → ∃ T, x.1.tasks p = some T ∧ physical x.1 T.pde a = some f) ∧
    (∀ p T, x.2.holders p = true → x.1.tasks p = some T → ∀ i < 1024, readWord x.1 T.pde a i = some (x.2.data i)) ∧
    ∀ p T, x.2.holders p = true → x.1.tasks p = some T → ∀ i < 1024, ∀ w,
      ((∃ t, userStore x.1 T a i w = .ok t ∧ ∀ q U, x.2.holders q = true → x.1.tasks q = some U → readWord t U.pde a i = some w) ↔
        (dirEntry x.1 T.pde a).write = true) := by
  obtain ⟨hi, h1, h2, hk⟩ := ready h
  have hslot : ∀ p T, x.1.tasks p = some T → Slot x.1 p T (didx a) := fun p T hp => InUser.slot ⟨userExec_le.trans h1, h2⟩ hp
  refine ⟨?_, fun p T hp hs i hlt => read_kept hk hp hs hlt, fun p T hp hs i hlt w => ⟨fun hst => ?_, fun hw => ?_⟩⟩
  · by_cases hany : ∃ p, x.2.holders p = true
    · obtain ⟨p, hp⟩ := hany
      obtain ⟨f, hc, -⟩ := hk p hp
      refine ⟨f, fun q hq => ?_⟩
      obtain ⟨T, e, hs, he, rfl, -⟩ := hc.live q hq
      exact ⟨T, hs.task, by rw [physical_cell, he]; rfl⟩
    · exact ⟨0, fun p hp => absurd ⟨p, hp⟩ hany⟩
  · by_contra hw
    obtain ⟨t, ht, -⟩ := hst
    rw [store_locked hi hk hp (hslot p T hs) hw] at ht
    cases ht
  · refine ⟨storeWord x.1 T.pde a i w, if_pos ((writable_kept hi hk hp (hslot p T hs)).2 hw), fun q U hq hqs => ?_⟩
    exact store_read hi hk hp (hslot p T hs) hlt hq hqs

/-! ## After a fork -/

theorem booted_fork : (step booted (.start parent 0x200) >>= fun s =>
    step s (.mmap parent userMmapAddr 0x1000 true true false) >>= fun s => step s (.fork parent child 0x201)).isOk = true := by
  decide +kernel

theorem mmap_tasks {length b : Nat} {write shared privat : Bool} (hi : Inv s) (hp : s.tasks p = some T)
    (hb : mmapAddr T v length = some b) (hfit : Fits T v length) (h : sysMmap s p T v length write shared privat = .ok t) :
    ∀ q, ∃ V, V.pde = T.pde ∧ t.tasks q = if q = p then some V else s.tasks q := by
  refine ((sysMmap_sat (J := fun _ u => u.tasks = s.tasks) (K := fun u => ∀ q, ∃ V, V.pde = T.pde ∧
    u.tasks q = if q = p then some V else s.tasks q) hi hp hb (hfit b hb) rfl (fun s' t w _ hj _ _ _ _ ht => ?_)
    fun u N _ hj _ hN q => ⟨N, hN, ?_⟩).of_ok h).2
  · cases ht with
    | new g _ hk => exact hk.tasks.trans hj
    | old e _ _ ht =>
      subst ht
      exact hj
  · show (if q = p then some N else u.tasks q) = _
    rw [hj]

theorem forked_run : ∃ (x : State × Sharing) (T : Task), (sharing userMmapAddr).Reach (Quiet userMmapAddr) x ∧ x.2.holders parent = true ∧
    x.2.holders child = true ∧ x.1.tasks child = some T ∧ (dirEntry x.1 T.pde userMmapAddr).write = false := by
  have hok := booted_fork
  cases hrun : (step booted (.start parent 0x200) >>= fun s =>
    step s (.mmap parent userMmapAddr 0x1000 true true false) >>= fun s => step s (.fork parent child 0x201)) with
  | error e =>
    rw [hrun] at hok
    cases hok
  | ok s3 =>
    obtain ⟨s1, h1, hrun⟩ := bind_ok hrun
    obtain ⟨s2, h2, h3⟩ := bind_ok hrun
    have huser : InUser userMmapAddr := ⟨userExec_le, by decide⟩
    have hd := didx_user huser.1 huser.2
    -- the process starts
    obtain ⟨hst1, hf1⟩ := started h1
    have hp1 : s1.tasks parent = some firstTask := (hf1.tasks parent).trans (if_pos rfl)
    have hother1 : ∀ q, q ≠ parent → s1.tasks q = none := fun q hq => (hf1.tasks q).trans (if_neg hq)
    have hreach : memory.Reach UserSpace s1 :=
      ⟨booted, booted_boot, .single (a := .start parent 0x200) trivial hst1⟩
    have hnone : cell s1.mem firstTask.pde (didx userMmapAddr) (tidx userMmapAddr) = none := by
      rw [hf1.new _ _ hd.1 hd.2 (tidx_lt _)]
      unfold cell
      rw [hf1.inv.kernel _ hd.1 hd.2, if_neg (fun e => nomatch e.1)]
    -- and maps the page
    have hst : sysMmap s1 parent firstTask userMmapAddr 0x1000 true true false = .ok s2 := by
      have h2 : withTask s1 parent (fun T => sysMmap s1 parent T userMmapAddr 0x1000 true true false) = .ok s2 := h2
      unfold withTask at h2
      rw [hp1] at h2
      exact h2
    have haddr : mmapAddr firstTask userMmapAddr 0x1000 = some userMmapAddr := rfl
    have hfit : Fits firstTask userMmapAddr 0x1000 := fun b hb => by
      cases haddr.symm.trans hb
      decide
    have hfits : UserSpace s1 (.mmap parent userMmapAddr 0x1000 true true false) := fun T hT => by
      cases hp1.symm.trans hT
      exact hfit
    have hen : memory.enabled s1 (.mmap parent userMmapAddr 0x1000 true true false) := ⟨by decide, firstTask, hp1⟩
    have htasks := mmap_tasks hf1.inv hp1 haddr hfit hst
    obtain ⟨data, hk2⟩ := (mmap_kept hf1.inv hp1 haddr hfit huser le_rfl (by decide) hnone).of_ok hst
    have hi2 : Inv s2 := (step_sat (x := .mmap parent userMmapAddr 0x1000 true true false) hf1.inv hen hfits trivial).of_ok h2
    obtain ⟨T2, hT2, hp2⟩ := htasks parent
    have hother2 : ∀ q, q ≠ parent → s2.tasks q = none := fun q hq => by
      obtain ⟨V, -, hV⟩ := htasks q
      rw [hV, if_neg hq, hother1 q hq]
    have hmap : Mapping userMmapAddr (s2, ⟨fun r => decide (r = parent), data⟩) :=
      ⟨⟨s1, parent, firstTask, userMmapAddr, 0x1000, false, userMmapAddr, hreach, hp1, hen, hfits, haddr, le_rfl, by decide,
        by rw [physical_cell, hnone]; rfl, hst, fun _ => rfl⟩, fun p T hp hT i hlt => read_kept hk2 hp hT hlt⟩
    -- and forks
    have hne : child ≠ parent := by decide
    have hk1 : kernelPage s2 0x201 := ⟨by decide, by decide, fun p t hp => by
      by_cases hpp : p = parent
      · subst hpp
        cases hp2.symm.trans hp
        rw [hT2]
        decide
      · rw [hother2 p hpp] at hp
        cases hp⟩
    have h3' : withTask s2 parent (fun t => copyPde s2 t.pde 0x201 >>= fun s =>
      pure (setTask s child (some { t with pde := 0x201 }))) = .ok s3 := h3
    unfold withTask at h3'
    rw [hp2] at h3'
    have hf3 := (copyPde_sat (N := { T2 with pde := 0x201 }) hi2 (.live hp2) hk1 (hother2 child hne) rfl
      (hi2.heap parent T2 hp2)).of_ok h3'
    have hsteps : memory.Steps s2 (.fork parent child 0x201) s3 := ⟨⟨⟨T2, hp2⟩, hother2 child hne, hk1⟩, h3⟩
    have hquiet : Quiet userMmapAddr (s2, ⟨fun r => decide (r = parent), data⟩) (.fork parent child 0x201) :=
      ⟨trivial, fun _ _ _ _ _ _ _ _ e => nomatch e⟩
    have hrun : (sharing userMmapAddr).Reach (Quiet userMmapAddr)
        (s3, after userMmapAddr ⟨fun r => decide (r = parent), data⟩ (.fork parent child 0x201)) :=
      ⟨_, hmap, .single hquiet (sharing_steps.2 ⟨hsteps, rfl⟩)⟩
    have hc3 : s3.tasks child = some { T2 with pde := 0x201 } := (hf3.tasks child).trans (if_pos rfl)
    have hready := ready hrun
    obtain ⟨e, he, -⟩ := hready.kept.there (p := child) rfl hc3
    rw [hf3.new _ _ hd.1 hd.2 (tidx_lt _)] at he
    exact ⟨_, _, hrun, rfl, rfl, hc3, (hf3.lock _ hd.1 hd.2 (cell_some.1 he).1).2⟩

/-- A store to a shared page after a fork ends at the assertion of `page_fault`. -/
theorem shared_store_faults : ∃ (x : State × Sharing) (T : Task), (sharing userMmapAddr).Reach (Quiet userMmapAddr) x ∧ x.2.holders child = true ∧
    x.1.tasks child = some T ∧ userStore x.1 T userMmapAddr 0 .zero = .error .access := by
  obtain ⟨x, T, hrun, -, hh, hT, hw⟩ := forked_run
  have hr := ready hrun
  refine ⟨x, T, hrun, hh, hT, store_locked hr.inv hr.kept hh (InUser.slot ⟨userExec_le, by decide⟩ hT) ?_⟩
  rw [hw]
  exact Bool.false_ne_true

theorem shared_pages_forked : ∃ (x : State × Sharing) (f : Nat), x.2.holders parent = true ∧ x.2.holders child = true ∧
    ∀ p, x.2.holders p = true → ∃ T : Task, x.1.tasks p = some T ∧ physical x.1 T.pde userMmapAddr = some f := by
  obtain ⟨x, T, hrun, h1, h2, -, -⟩ := forked_run
  obtain ⟨⟨f, hf⟩, -⟩ := shared_pages hrun
  exact ⟨x, f, h1, h2, hf⟩

end Onix.Memory
