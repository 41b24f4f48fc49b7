/-
Private pages stay private: a page that may be written and is not mapped shared has its frame to
itself, so a store of user code is read by its process alone. The kernel stores without regard to the
write right, and `sys_mmap` grants it on pages that are there; what these leave open is stated exactly.
-/
import Onix.Memory.Calls

namespace Onix.Memory

open Finset Onix.Lib

variable {s t u : State} {p q : Fin taskNr} {T U N : Task} {f g v d i n a : Nat} {e w : Entry}
variable {write shared privat : Bool}

/-! ## Frames of one page -/

/-- No page but `i` of slot `d` of the process `p` is in the frame `f`. -/
def Sole (s : State) (p : Fin taskNr) (d i f : Nat) : Prop :=
  ∀ q U c j e, Slot s q U c → j < 1024 → cell s.mem U.pde c j = some e → e.index = f → q = p ∧ c = d ∧ j = i

/-- A frame is at one place in all processes that have it; a page that may be written and is not
shared is alone in its frame. -/
structure Private (s : State) : Prop where
  aligned : ∀ p T d i e q U c j e', Slot s p T d → Slot s q U c → i < 1024 → j < 1024 → cell s.mem T.pde d i = some e →
    cell s.mem U.pde c j = some e' → e'.index = e.index → c = d ∧ j = i
  sole : ∀ p T d i e, Slot s p T d → i < 1024 → cell s.mem T.pde d i = some e → e.write = true → e.shared = false →
    Sole s p d i e.index

theorem Sole.of_uses (hs : Slot s p T d) (hi : i < 1024) (he : cell s.mem T.pde d i = some e) (hu : pageUses s e.index = 1) :
    Sole s p d i e.index := fun _ _ _ _ _ hq hj he' hf => cell_unique hs hq hi hj he he' hf hu

theorem Private.keeps {P : Fin taskNr → Nat → Nat → Prop} (h : Private s) (hk : Keeps s P t)
    (hnew : ∀ q U c j e, Slot s q U c → j < 1024 → P q c j → cell t.mem U.pde c j = some e → Sole t q c j e.index ∨
      ∃ e0, cell s.mem U.pde c j = some e0 ∧ e0.index = e.index ∧
        (e.write = true → e.shared = false → e0.write = true ∧ e0.shared = false)) : Private t := by
  -- a page of the new state is alone, or in the frame it had
  have hback : ∀ q U c j e, Slot t q U c → j < 1024 → cell t.mem U.pde c j = some e → Sole t q c j e.index ∨
      ∃ e0, cell s.mem U.pde c j = some e0 ∧ e0.index = e.index ∧
        (e.write = true → e.shared = false → e0.write = true ∧ e0.shared = false) := fun q U c j e hq hj he => by
    have hq := hq.congr hk.tasks
    by_cases hP : P q c j
    · exact hnew q U c j e hq hj hP he
    · exact .inr ⟨e, (hk.cell q U c j hq hj hP).symm.trans he, rfl, fun h1 h2 => ⟨h1, h2⟩⟩
  refine ⟨fun p T d i e q U c j e' hp hq hi hj he he' hf => ?_, fun p T d i e hp hi he hw hsh => ?_⟩
  · rcases hback p T d i e hp hi he with hs | ⟨e0, h0, hf0, -⟩
    · exact (hs q U c j e' hq hj he' hf).2
    · rcases hback q U c j e' hq hj he' with hs | ⟨e1, h1, hf1, -⟩
      · obtain ⟨-, h2, h3⟩ := hs p T d i e hp hi he hf.symm
        exact ⟨h2.symm, h3.symm⟩
      · exact h.aligned p T d i e0 q U c j e1 (hp.congr hk.tasks) (hq.congr hk.tasks) hi hj h0 h1
          (hf1.trans (hf.trans hf0.symm))
  · rcases hback p T d i e hp hi he with hs | ⟨e0, h0, hf0, h1⟩
    · exact hs
    · obtain ⟨hw0, hsh0⟩ := h1 hw hsh
      intro q U c j e' hq hj he' hf
      rcases hback q U c j e' hq hj he' with hs | ⟨e1, h2, hf1, -⟩
      · obtain ⟨h3, h4, h5⟩ := hs p T d i e hp hi he hf.symm
        exact ⟨h3.symm, h4.symm, h5.symm⟩
      · exact h.sole p T d i e0 (hp.congr hk.tasks) hi h0 hw0 hsh0 q U c j e1 (hq.congr hk.tasks) hj h2
          (hf1.trans (hf.trans hf0.symm))

theorem Private.added (h : Private s) (hs : Slot s p T (didx v)) (ht : Added s p T v t) : Private t := by
  obtain ⟨g, hg, -, hu⟩ := ht.page
  refine h.keeps ht.keeps fun q U c j e hq hj hP he => .inl ?_
  obtain ⟨rfl, rfl, rfl⟩ := hP
  cases hs.task.symm.trans hq.task
  cases hg.symm.trans he
  exact .of_uses (hq.tasks ht.keeps.tasks) hj hg hu

theorem Private.linked (h : Private s) (hs : Slot s p T (didx v)) (ht : Linked s p T v t) : Private t := by
  rcases ht with ⟨rfl, -⟩ | ht
  · exact h
  · exact h.added hs ht

theorem Private.removed (h : Private s) (hp : s.tasks p = some T) (ht : Removed s p T v t) : Private t := by
  refine h.keeps ht.keeps fun q U c j e hq _ hP he => ?_
  obtain ⟨rfl, rfl, rfl⟩ := hP
  cases hp.symm.trans hq.task
  rw [ht.gone] at he
  cases he

theorem Private.copied (h : Private s) (hs : Slot s p T (didx v)) (ht : Copied s p T v t) : Private t := by
  obtain ⟨e, g, hc, hsh, hc', -, hg⟩ := ht.page
  refine h.keeps ht.keeps fun q U c j e' hq hj hP he => ?_
  obtain ⟨rfl, rfl, rfl⟩ := hP
  cases hs.task.symm.trans hq.task
  cases hc'.symm.trans he
  rcases hg with ⟨rfl, hw | hu⟩ | ⟨-, hu⟩
  · exact .inr ⟨e, hc, rfl, fun _ _ => ⟨hw, hsh⟩⟩
  · exact .inl (.of_uses (hq.tasks ht.keeps.tasks) hj hc' hu)
  · exact .inl (.of_uses (hq.tasks ht.keeps.tasks) hj hc' hu)

/-! ## New flags -/

theorem retag_back (hinv : Inv s) (hs : Slot s p T (didx v)) (he : cell s.mem T.pde (didx v) (tidx v) = some e) (hl : Like e w)
    {c j : Nat} {e' : Entry} (hq : Slot s q U c) (hc : cell (setEntry s T.pde v w).mem U.pde c j = some e') :
    cell s.mem U.pde c j = some e' ∨ c = didx v ∧ j = tidx v ∧ e' = w ∧ cell s.mem U.pde c j = some e := by
  have hw : w.present = true := hl.1.trans (by rw [← (cell_some.1 he).2.2]; exact (cell_some.1 he).2.1)
  rcases retag_cell hinv hs he hw (j := j) hq with h1 | ⟨h1, h2, h3, h4⟩
  · exact .inl (h1.symm.trans hc)
  · exact .inr ⟨h1, h2, Option.some.inj (hc.symm.trans h4), h3⟩

theorem retag_frame (hinv : Inv s) (hs : Slot s p T (didx v)) (he : cell s.mem T.pde (didx v) (tidx v) = some e) (hl : Like e w)
    {c j : Nat} {e' : Entry} (hq : Slot s q U c) (hc : cell (setEntry s T.pde v w).mem U.pde c j = some e') :
    ∃ e0, cell s.mem U.pde c j = some e0 ∧ e0.index = e'.index := by
  rcases retag_back hinv hs he hl hq hc with h1 | ⟨-, -, rfl, h1⟩
  · exact ⟨e', h1, rfl⟩
  · exact ⟨e, h1, hl.2.symm⟩

theorem Sole.retag {r : Fin taskNr} (hinv : Inv s) (h : Sole s r d i f) (hs : Slot s p T (didx v))
    (he : cell s.mem T.pde (didx v) (tidx v) = some e) (hl : Like e w) : Sole (setEntry s T.pde v w) r d i f := by
  intro q U c j e' hq hj he' hf
  have hq : Slot s q U c := ⟨hq.task, hq.low, hq.high⟩
  obtain ⟨e0, h0, hf0⟩ := retag_frame hinv hs he hl hq he'
  exact h q U c j e0 hq hj h0 (hf0.trans hf)

theorem Private.retag (hinv : Inv s) (h : Private s) (hs : Slot s p T (didx v))
    (he : cell s.mem T.pde (didx v) (tidx v) = some e) (hl : Like e w)
    (hw : w.write = true → w.shared = false → Sole s p (didx v) (tidx v) e.index) : Private (setEntry s T.pde v w) := by
  refine ⟨fun r V d i e1 q U c j e2 hr hq hi hj h1 h2 hf => ?_, fun r V d i e1 hr hi h1 hw1 hsh1 => ?_⟩
  · have hr : Slot s r V d := ⟨hr.task, hr.low, hr.high⟩
    have hq : Slot s q U c := ⟨hq.task, hq.low, hq.high⟩
    obtain ⟨e3, h3, hf3⟩ := retag_frame hinv hs he hl hr h1
    obtain ⟨e4, h4, hf4⟩ := retag_frame hinv hs he hl hq h2
    exact h.aligned r V d i e3 q U c j e4 hr hq hi hj h3 h4 (hf4.trans (hf.trans hf3.symm))
  · have hrs : Slot s r V d := ⟨hr.task, hr.low, hr.high⟩
    rcases retag_back hinv hs he hl hrs h1 with h2 | ⟨rfl, rfl, rfl, h2⟩
    · exact (h.sole r V d i e1 hrs hi h2 hw1 hsh1).retag hinv hs he hl
    · have hsole := hw hw1 hsh1
      obtain ⟨rfl, -⟩ := hsole r V _ _ e hrs hi h2 rfl
      rw [hl.2]
      exact hsole.retag hinv hs he hl

/-! ## Whole directories -/

theorem Private.forked {pd : Nat} (h : Private s) (ht : Forked s pd q N t)
    (hsrc : ∀ c, 4 ≤ c → c < 64 → (t.mem pd c).present = true → ∃ p T, s.tasks p = some T ∧ T.pde = pd) : Private t := by
  -- a page of the new state has the frame of a page of the old one
  have hback : ∀ r U c j e, Slot t r U c → j < 1024 → cell t.mem U.pde c j = some e → ∃ r' U' e0, Slot s r' U' c ∧
      cell s.mem U'.pde c j = some e0 ∧ e0.index = e.index := by
    have hold : ∀ r U c j e, Slot s r U c → j < 1024 → cell t.mem U.pde c j = some e → ∃ e0,
        cell s.mem U.pde c j = some e0 ∧ e0.index = e.index := fun r U c j e hs hj he => by
      rcases ht.old r U c j hs hj with h1 | ⟨e0, h0, -, h1⟩
      · exact ⟨e, h1.symm.trans he, rfl⟩
      · cases he.symm.trans h1
        exact ⟨e0, h0, rfl⟩
    intro r U c j e hs hj he
    have hr := hs.task
    rw [ht.tasks] at hr
    by_cases hrq : r = q
    · rw [if_pos hrq] at hr
      cases hr
      rw [ht.new c j hs.low hs.high hj] at he
      obtain ⟨p, T, hp, rfl⟩ := hsrc c hs.low hs.high (cell_some.1 he).1
      obtain ⟨e0, h0, hf⟩ := hold p T c j e ⟨hp, hs.low, hs.high⟩ hj he
      exact ⟨p, T, e0, ⟨hp, hs.low, hs.high⟩, h0, hf⟩
    · rw [if_neg hrq] at hr
      obtain ⟨e0, h0, hf⟩ := hold r U c j e ⟨hr, hs.low, hs.high⟩ hj he
      exact ⟨r, U, e0, ⟨hr, hs.low, hs.high⟩, h0, hf⟩
  -- the pages of the directory that was copied cannot be written
  have hpriv : ∀ p T c j e, s.tasks p = some T → T.pde = pd → 4 ≤ c → c < 64 → j < 1024 → cell t.mem pd c j = some e →
      e.shared = false → e.write = false := by
    rintro p T c j e hp rfl h1 h2 hj he hsh
    rcases ht.old p T c j ⟨hp, h1, h2⟩ hj with h3 | ⟨e0, -, -, h3⟩
    · rw [h3] at he
      have h4 := ht.priv c j e h1 h2 hj he hsh
      rw [h3, he] at h4
      rw [Option.some.inj h4]
    · cases he.symm.trans h3
      rfl
  refine ⟨fun r V d i e1 r' U c j e2 hr hq hi hj h1 h2 hf => ?_, fun r V d i e1 hr hi h1 hw hsh => ?_⟩
  · obtain ⟨r1, U1, e3, hs1, h3, hf3⟩ := hback r V d i e1 hr hi h1
    obtain ⟨r2, U2, e4, hs2, h4, hf4⟩ := hback r' U c j e2 hq hj h2
    exact h.aligned r1 U1 d i e3 r2 U2 c j e4 hs1 hs2 hi hj h3 h4 (hf4.trans (hf.trans hf3.symm))
  · have hV := hr.task
    rw [ht.tasks] at hV
    by_cases hrq : r = q
    · rw [if_pos hrq] at hV
      cases hV
      rw [ht.new d i hr.low hr.high hi] at h1
      obtain ⟨p, T, hp, hT⟩ := hsrc d hr.low hr.high (cell_some.1 h1).1
      rw [hpriv p T d i e1 hp hT hr.low hr.high hi h1 hsh] at hw
      cases hw
    · rw [if_neg hrq] at hV
      have hVpd : V.pde ≠ pd := fun e => by
        rw [e] at h1
        rw [hpriv r V d i e1 hV e hr.low hr.high hi h1 hsh] at hw
        cases hw
      rcases ht.old r V d i ⟨hV, hr.low, hr.high⟩ hi with h3 | ⟨e0, -, -, h3⟩
      · rw [h3] at h1
        have hsole := h.sole r V d i e1 ⟨hV, hr.low, hr.high⟩ hi h1 hw hsh
        intro q' U c j e2 hq hj h2 hf
        -- another page in the frame is one of the old state, or a copy of one
        have hU := hq.task
        rw [ht.tasks] at hU
        have hold : ∀ p T, s.tasks p = some T → cell t.mem T.pde c j = some e2 → p = r ∧ c = d ∧ j = i := fun p T hp h2 => by
          rcases ht.old p T c j ⟨hp, hq.low, hq.high⟩ hj with h4 | ⟨e4, h4, -, h5⟩
          · exact hsole p T c j e2 ⟨hp, hq.low, hq.high⟩ hj (h4.symm.trans h2) hf
          · cases h2.symm.trans h5
            exact hsole p T c j e4 ⟨hp, hq.low, hq.high⟩ hj h4 hf
        by_cases hqq : q' = q
        · rw [if_pos hqq] at hU
          cases hU
          rw [ht.new c j hq.low hq.high hj] at h2
          obtain ⟨p, T, hp, hT⟩ := hsrc c hq.low hq.high (cell_some.1 h2).1
          rw [← hT] at h2
          obtain ⟨rfl, -⟩ := hold p T hp h2
          cases hp.symm.trans hV
          exact absurd hT hVpd
        · rw [if_neg hqq] at hU
          exact hold q' U hU h2
      · cases h1.symm.trans h3
        cases hw

theorem Private.exited (h : Private s) (ht : Exited s p t) : Private t := by
  have hslot : ∀ q U c, Slot t q U c → Slot s q U c := fun q U c hs => by
    have hq := hs.task
    rw [ht.tasks] at hq
    split at hq
    · cases hq
    · exact ⟨hq, hs.low, hs.high⟩
  refine ⟨fun r V d i e q U c j e' hr hq hi hj he he' hf => ?_, fun r V d i e hr hi he hw hsh q U c j e' hq hj he' hf => ?_⟩
  · rw [ht.mem] at he he'
    exact h.aligned r V d i e q U c j e' (hslot _ _ _ hr) (hslot _ _ _ hq) hi hj he he' hf
  · rw [ht.mem] at he he'
    exact h.sole r V d i e (hslot _ _ _ hr) hi he hw hsh q U c j e' (hslot _ _ _ hq) hj he' hf

theorem Private.setTask (h : Private s) (hp : s.tasks p = some T) (hN : N.pde = T.pde) : Private (setTask s p (some N)) := by
  refine ⟨fun r V d i e q U c j e' hr hq hi hj he he' hf => ?_, fun r V d i e hr hi he hw hsh q U c j e' hq hj he' hf => ?_⟩
  · obtain ⟨V', hr', e1⟩ := setTask_slot hp hN hr
    obtain ⟨U', hq', e2⟩ := setTask_slot hp hN hq
    rw [← e1] at he
    rw [← e2] at he'
    exact h.aligned r V' d i e q U' c j e' hr' hq' hi hj he he' hf
  · obtain ⟨V', hr', e1⟩ := setTask_slot hp hN hr
    obtain ⟨U', hq', e2⟩ := setTask_slot hp hN hq
    rw [← e1] at he
    rw [← e2] at he'
    exact h.sole r V' d i e hr' hi he hw hsh q U' c j e' hq' hj he' hf

theorem Private.store (hinv : Inv s) (h : Private s) (hf : 1 ≤ pageUses s f) {k : Nat} : Private { s with mem := s.mem.set f k w } := by
  refine ⟨fun r V d i e q U c j e' hr hq hi hj he he' hfe => ?_, fun r V d i e hr hi he hw hsh q U c j e' hq hj he' hfe => ?_⟩
  · have hr : Slot s r V d := ⟨hr.task, hr.low, hr.high⟩
    have hq : Slot s q U c := ⟨hq.task, hq.low, hq.high⟩
    exact h.aligned r V d i e q U c j e' hr hq hi hj ((store_cell hinv hf hr).symm.trans he)
      ((store_cell hinv hf hq).symm.trans he') hfe
  · have hr : Slot s r V d := ⟨hr.task, hr.low, hr.high⟩
    have hq : Slot s q U c := ⟨hq.task, hq.low, hq.high⟩
    exact h.sole r V d i e hr hi ((store_cell hinv hf hr).symm.trans he) hw hsh q U c j e' hq hj
      ((store_cell hinv hf hq).symm.trans he') hfe

/-! ## Runs -/

/-- A mapping that may be written and is not shared takes pages that are there only if they are mapped
shared or in a frame that no one else has; every step stays in user space. -/
def Tame (s : State) (x : Act) : Prop :=
  UserSpace s x ∧ ∀ p v length privat T b, x = .mmap p v length true false privat → s.tasks p = some T →
    mmapAddr T v length = some b → ∀ a, InUser a → b / 0x1000 ≤ a / 0x1000 → a / 0x1000 < b / 0x1000 + pageCount length →
      (physical s T.pde a).isSome = true → (pageEntry s T.pde a).shared = true ∨ s.memoryMap (pageEntry s T.pde a).index = 1

def Ahead (s : State) (p : Fin taskNr) (T : Task) (w n : Nat) : Prop :=
  ∀ a, InUser a → w ≤ a / 0x1000 → a / 0x1000 < n → ∀ e, cell s.mem T.pde (didx a) (tidx a) = some e →
    e.shared = true ∨ Sole s p (didx a) (tidx a) e.index

theorem same_cell (ha : a < userStackTop) (hv : v < userStackTop) (h : didx a = didx v ∧ tidx a = tidx v) : a / 0x1000 = v / 0x1000 := by
  unfold didx tidx at h
  unfold userStackTop at ha hv
  omega

theorem Ahead.mapped (hinv : Inv s) (h : Ahead s p T (v / 0x1000) n) (hp : s.tasks p = some T)
    (hv : InUser v) (ht : Mapped s p T v write shared privat t) : Ahead t p T (v / 0x1000 + 1) n := by
  intro a ha h1 h2 e he
  have hs := ha.slot hp
  have hne : ¬ (didx a = didx v ∧ tidx a = tidx v) := fun e => by
    have := same_cell ha.2 hv.2 e
    omega
  cases ht with
  | new g _ hk _ _ hc hun hu =>
    have he0 := (hk.cell p T _ _ hs (tidx_lt a) fun e => hne e.2).symm.trans he
    refine (h a ha (by omega) h2 e he0).imp id fun hsole q U c j e' hq hj he' hf => ?_
    have hq := hq.congr hk.tasks
    by_cases hP : at' p (didx v) (tidx v) q c j
    · obtain ⟨rfl, rfl, rfl⟩ := hP
      cases hp.symm.trans hq.task
      cases hc.symm.trans he'
      exact absurd hf.symm (hun q T _ _ e hs (tidx_lt a) he0)
    · exact hsole q U c j e' hq hj ((hk.cell q U c j hq hj hP).symm.trans he') hf
  | old e1 _ hc ht =>
    subst ht
    have hl := mmapEntry_like e1 write shared privat
    rcases retag_back hinv (hv.slot hp) hc hl hs he with he0 | ⟨h3, h4, -⟩
    · exact (h a ha (by omega) h2 e he0).imp id fun hsole => hsole.retag hinv (hv.slot hp) hc hl
    · exact absurd ⟨h3, h4⟩ hne

theorem Private.mapped (hinv : Inv s) (h : Private s) (hs : Slot s p T (didx v))
    (hw : write = true → shared = false → ∀ e, cell s.mem T.pde (didx v) (tidx v) = some e → e.shared = true ∨
      Sole s p (didx v) (tidx v) e.index) (ht : Mapped s p T v write shared privat t) : Private t := by
  cases ht with
  | new g _ hk _ _ hc _ hu =>
    refine h.keeps hk fun q U c j e hq hj hP he => .inl ?_
    obtain ⟨rfl, rfl, rfl⟩ := hP
    cases hs.task.symm.trans hq.task
    cases hc.symm.trans he
    exact .of_uses (hq.tasks hk.tasks) hj hc hu
  | old e _ hc ht =>
    subst ht
    refine h.retag hinv hs hc (mmapEntry_like ..) fun h1 h2 => ?_
    have h2 : (e.shared || shared) = false := h2
    rw [Bool.or_eq_false_iff] at h2
    refine (hw h1 h2.2 e hc).resolve_left fun h3 => ?_
    rw [h2.1] at h3
    cases h3

theorem Sole.of_count (hinv : Inv s) (hs : Slot s p T d) (hi : i < 1024) (he : cell s.mem T.pde d i = some e)
    (h1 : s.memoryMap e.index = 1) : Sole s p d i e.index := by
  have hu := cell_uses hs hi he
  have hc := hinv.count _ (hinv.range _ (.inr hu)).1
  exact .of_uses hs hi he (by omega)

theorem private_mmap {length : Nat} (hi : Inv s) (h : Private s) (hp : s.tasks p = some T)
    (hx : Tame s (.mmap p v length write shared privat)) :
    Sat Lost (sysMmap s p T v length write shared privat) Private := by
  cases hb : mmapAddr T v length with
  | none => exact sysMmap_none hb
  | some b =>
    refine (sysMmap_sat (J := fun w s => Private s ∧ (write = true → shared = false → Ahead s p T w (b / 0x1000 + pageCount length)))
      hi hp hb (hx.1 T hp b hb) ⟨h, ?_⟩ (fun s t w hi hj hp hw h1 h2 ht => ⟨?_, fun e1 e2 => (hj.2 e1 e2).mapped hi hp hw ht⟩)
      fun t N _ hj hp hN => hj.1.setTask hp hN).mono fun t ht => ht.2
    · rintro rfl rfl a ha h1 h2 e he
      have hphys : (physical s T.pde a).isSome = true := by
        rw [physical_cell, he]
        rfl
      have hent : pageEntry s T.pde a = e := (cell_some.1 he).2.2
      have h3 := hx.2 p v length privat T b rfl hp hb a ha h1 h2 hphys
      rw [hent] at h3
      exact h3.imp id fun h4 => .of_count hi (ha.slot hp) (tidx_lt a) he h4
    · exact hj.1.mapped hi (hw.slot hp) (fun e1 e2 e he => hj.2 e1 e2 w hw le_rfl h2 e he) ht

theorem private_step {x : Act} (hi : Inv s) (h : Private s) (hx : Tame s x) (hst : memory.Steps s x t) : Private t := by
  obtain ⟨he, hstep⟩ := hst
  have hu := hx.1
  suffices Sat Lost (step s x) Private from this.of_ok hstep
  cases x with
  | start p k =>
    refine (copyPde_sat hi (.kernel hi) he.2 he.1 rfl ⟨le_rfl, userExec_le⟩).mono fun t ht => ?_
    refine h.forked ht fun c h1 h2 hp => ?_
    rw [ht.inv.kernel c h1 h2] at hp
    cases hp
  | fork p q k =>
    refine withTask_sat fun T hp => ?_
    refine (copyPde_sat (N := { T with pde := k }) hi (.live hp) he.2.2 he.2.1 rfl (hi.heap p T hp)).mono fun t ht => ?_
    exact h.forked ht fun _ _ _ _ => ⟨p, T, hp, rfl⟩
  | exit p => exact withTask_sat fun T hp => (exit_sat hi hp).mono fun t ht => h.exited ht
  | link p v =>
    exact withTask_sat fun T hp => (linkPage_sat hi (InUser.slot hu hp)).mono fun t ht => h.linked (InUser.slot hu hp) ht
  | unlink p v => exact withTask_sat fun T hp => (unlinkPage_sat hi (InUser.slot hu hp)).mono fun t ht => h.removed hp ht
  | fault p v present write =>
    obtain ⟨T', -, h1, h2, -⟩ := he
    refine withTask_sat fun T hp => (pageFault_sat hi (InUser.slot ⟨h1, h2⟩ hp) present write).mono fun t ht => ?_
    rcases ht with ht | ht
    · refine h.linked ?_ ht
      rw [didx_page]
      exact InUser.slot ⟨h1, h2⟩ hp
    · exact h.copied (InUser.slot ⟨h1, h2⟩ hp) ht
  | segment p v => exact withTask_sat fun T hp => Sat.ok (h.setTask hp rfl)
  | brk p v =>
    exact withTask_sat fun T hp => (sysBrk_sat hi h hp (fun _ _ _ _ hk hp _ _ ht => hk.removed hp ht) fun _ _ _ hk hp hN =>
      hk.setTask hp hN).mono fun t ht => ht.2
  | mmap p v length write shared privat => exact withTask_sat fun T hp => private_mmap hi h hp hx
  | munmap p v length =>
    have hstep : step s (.munmap p v length) = .ok t := hstep
    have hend : v + pageCount length * 0x1000 ≤ userStackTop := step_ends hstep
    exact withTask_sat fun T hp => (sysMunmap_sat (J := fun _ => Private) hi h hp hend (fun _ _ _ _ hk hp _ _ ht =>
      hk.removed hp ht) fun _ _ _ hk hp hN => hk.setTask hp hN).mono fun t ht => ht.2
  | store p v k w =>
    obtain ⟨-, -, T', hp', h1⟩ := he
    refine withTask_sat fun T hp => Sat.ok ?_
    cases hp.symm.trans hp'
    exact h.store hi ((InUser.slot hu hp).page h1.1 (tidx_lt v) h1.2.2.2.1)
  | kernelStore p v k w user =>
    obtain ⟨-, -, T', hp', h1⟩ := he
    refine withTask_sat fun T hp => Sat.ok ?_
    cases hp.symm.trans hp'
    obtain ⟨e, hc, -⟩ := memoryAccess_cell h1
    have hent : pageEntry s T'.pde v = e := (cell_some.1 hc).2.2
    unfold storeWord
    rw [hent]
    exact h.store hi (cell_uses (InUser.slot hu hp) (tidx_lt v) hc)

theorem boot_private (h : Boot s) : Private s := by
  have hs : ∀ p T d, ¬ Slot s p T d := fun p T d hs => by
    have := hs.task
    rw [h.tasks] at this
    cases this
  exact ⟨fun p T d _ _ _ _ _ _ _ hp => absurd hp (hs p T d), fun p T d _ _ hp => absurd hp (hs p T d)⟩

theorem tame_reach (h : memory.Reach Tame s) : Inv s ∧ Private s :=
  h.inv (I := fun s => Inv s ∧ Private s) (fun _ hb => ⟨boot_inv hb, boot_private hb⟩) fun _ _ _ hi hp hst =>
    ⟨(step_sat hi.1 hst.1 hp.1 (step_ends hst.2)).of_ok hst.2, private_step hi.1 hi.2 hp hst⟩

/-! ## What others read -/

def Untouched (s : State) (p : Fin taskNr) (t : State) : Prop :=
  ∀ q U v j, q ≠ p → s.tasks q = some U → InUser v → readWord t U.pde v j = readWord s U.pde v j

theorem Keeps.untouched (h : Keeps s (at' p d i) t) : Untouched s p t := by
  intro q U v j hq hU hv
  have hs := hv.slot hU
  have hne : ¬ at' p d i q (didx v) (tidx v) := fun e => hq e.1
  unfold readWord
  rw [physical_cell, physical_cell, h.cell q U _ _ hs (tidx_lt v) hne]
  cases hc : Memory.cell s.mem U.pde (didx v) (tidx v) with
  | none => rfl
  | some e =>
    show some (t.mem e.index j) = some (s.mem e.index j)
    rw [h.data q U _ _ e hs (tidx_lt v) hne hc]

theorem Sole.untouched (hinv : Inv s) (hs : Slot s p T (didx v)) (he : cell s.mem T.pde (didx v) (tidx v) = some e)
    (h : Sole s p (didx v) (tidx v) e.index) (k : Nat) (w : Entry) : Untouched s p (storeWord s T.pde v k w) := by
  have hent : pageEntry s T.pde v = e := (cell_some.1 he).2.2
  unfold storeWord
  rw [hent]
  refine Keeps.untouched (d := didx v) (i := tidx v) ⟨rfl, fun q U c j hq _ _ => ?_, fun q U c j e' hq hj hne he' => ?_⟩
  · exact store_cell hinv (cell_uses hs (tidx_lt v) he) hq
  · refine funext fun x => Mem.set_other _ _ fun e1 => hne ?_
    exact h q U c j e' hq hj he' e1.1

theorem Sole.ref_zero {c j : Nat} (h : Sole s p d i f) (hq : Slot s q U c) (hj : j < 1024) (hne : ¬ (q = p ∧ c = d ∧ j = i)) :
    cellRef f (cell s.mem U.pde c j) = 0 := by
  cases hc : cell s.mem U.pde c j with
  | none => rfl
  | some e' => exact if_neg fun e1 => hne (h q U c j e' hq hj hc e1.2)

theorem Sole.below_zero {c : Nat} (h : Sole s p d i f) (hq : Slot s q U c) (hne : ¬ (q = p ∧ c = d)) :
    below s.mem f (s.mem U.pde c) = 0 := by
  rw [below_cell]
  exact sum_eq_zero fun j hj => h.ref_zero hq (mem_range.1 hj) fun e1 => hne ⟨e1.1, e1.2.1⟩

theorem Sole.below_one (h : Sole s p d i e.index) (hs : Slot s p T d) (hi : i < 1024) (he : cell s.mem T.pde d i = some e) :
    below s.mem e.index (s.mem T.pde d) = 1 := by
  have hp : e.present = true := by
    rw [← (cell_some.1 he).2.2]
    exact (cell_some.1 he).2.1
  rw [below_cell, sum_eq_single i (fun j hj hne => h.ref_zero hs (mem_range.1 hj) fun e1 => hne e1.2.2)
    fun hn => absurd (mem_range.2 hi) hn, he]
  exact ref_self hp

theorem Sole.uses (h : Sole s p d i e.index) (hs : Slot s p T d) (hi : i < 1024) (he : cell s.mem T.pde d i = some e) :
    pageUses s e.index = 1 := by
  have hone := h.below_one hs hi he
  have hslot := hs.task
  obtain ⟨b, rfl⟩ := Nat.exists_eq_add_of_le hs.low
  have hb := hs.high
  have hdir : dirSum s.mem T.pde 60 (below s.mem e.index) = 1 := by
    unfold dirSum
    rw [sum_eq_single b (fun c hc hne => ?_) fun hn => absurd (mem_range.2 (by omega)) hn, hone]
    have hc := mem_range.1 hc
    exact h.below_zero ⟨hslot, by omega, by omega⟩ fun e1 => hne (by omega)
  unfold pageUses slotSum
  rw [sum_eq_single p (fun q _ hq => ?_) fun hn => absurd (mem_univ p) hn, hslot]
  · exact hdir
  · cases hU : s.tasks q with
    | none => rfl
    | some U =>
      unfold taskSum dirSum
      refine sum_eq_zero fun c hc => ?_
      have hc := mem_range.1 hc
      exact h.below_zero ⟨hU, by omega, by omega⟩ fun e1 => hq e1.1

theorem Private.other (hinv : Inv s) (h : Private s) (hs : Slot s p T d) (hi : i < 1024) (he : cell s.mem T.pde d i = some e)
    (h1 : s.memoryMap e.index ≠ 1) : ∃ q U e', q ≠ p ∧ Slot s q U d ∧ cell s.mem U.pde d i = some e' ∧ e'.index = e.index := by
  have hu := cell_uses hs hi he
  have hc := hinv.count _ (hinv.range _ (.inr hu)).1
  have hk := (hinv.kinds e.index).resolve_right (by omega)
  by_contra hno
  have hsole : Sole s p d i e.index := fun q U c j e' hq hj he' hf => by
    obtain ⟨rfl, rfl⟩ := h.aligned p T d i e q U c j e' hs hq hi hj he he' hf
    refine ⟨?_, rfl, rfl⟩
    by_contra hne
    exact hno ⟨q, U, e', hne, hq, he', hf⟩
  have := hsole.uses hs hi he
  omega

/-- In every run that maps nothing writable over a page that others have, the stores of user code to pages that are not mapped
shared, and the faults before them, leave the other processes alone; a store of the kernel does exactly
if no one else has the frame or the word is the one that was there. -/
theorem copy_on_write_isolation (h : memory.Reach Tame s) :
    (∀ p v i w t T, memory.Steps s (.store p v i w) t → InUser v → s.tasks p = some T → (pageEntry s T.pde v).shared = false →
      Untouched s p t) ∧
    (∀ p v present write t, memory.Steps s (.fault p v present write) t → Untouched s p t) ∧
    ∀ p v i w user t T, memory.Steps s (.kernelStore p v i w user) t → InUser v → s.tasks p = some T →
      (pageEntry s T.pde v).shared = false →
      (Untouched s p t ↔ s.memoryMap (pageEntry s T.pde v).index = 1 ∨ s.mem (pageEntry s T.pde v).index i = w) := by
  obtain ⟨hi, hpr⟩ := tame_reach h
  have htask : ∀ {p : Fin taskNr} {T : Task} {F : Task → Except Fault State} {t : State}, s.tasks p = some T →
      withTask s p F = .ok t → F T = .ok t := fun hp hst => by
    unfold withTask at hst
    rw [hp] at hst
    exact hst
  refine ⟨fun p v i w t T hst hv hp hsh => ?_, fun p v present write t hst => ?_, fun p v i w user t T hst hv hp hsh => ?_⟩
  · obtain ⟨⟨-, -, T', hp', hw⟩, hst⟩ := hst
    cases hp.symm.trans hp'
    cases htask hp hst
    have hs := hv.slot hp
    have hc : cell s.mem T.pde (didx v) (tidx v) = some (pageEntry s T.pde v) := cell_some.2 ⟨hw.1, hw.2.2.2.1, rfl⟩
    exact (hpr.sole p T _ _ _ hs (tidx_lt v) hc hw.2.2.2.2.1 hsh).untouched hi hs hc i w
  · obtain ⟨⟨T, hp, h1, h2, -⟩, hst⟩ := hst
    have hs := InUser.slot ⟨h1, h2⟩ hp
    rcases (pageFault_sat hi hs present write).of_ok (htask hp hst) with (⟨rfl, -⟩ | ht) | ht
    · exact (Keeps.refl (P := at' p 0 0) t).untouched
    · exact ht.keeps.untouched
    · exact ht.keeps.untouched
  · obtain ⟨⟨hlt, -, T', hp', hacc⟩, hst⟩ := hst
    cases hp.symm.trans hp'
    cases htask hp hst
    obtain ⟨e, hc, -⟩ := memoryAccess_cell hacc
    have hent : pageEntry s T.pde v = e := (cell_some.1 hc).2.2
    have hs := hv.slot hp
    rw [hent] at hsh ⊢
    constructor
    · intro hun
      by_contra hno
      rw [not_or] at hno
      -- the other process reads the word that was stored
      obtain ⟨q, U, e', hne, hq, hc', hf⟩ := hpr.other hi hs (tidx_lt v) hc hno.1
      have hr := hun q U v i hne hq.task hv
      unfold readWord at hr
      rw [physical_cell, physical_cell] at hr
      unfold storeWord at hr
      rw [hent] at hr
      rw [store_cell hi (cell_uses hs (tidx_lt v) hc) hq, hc'] at hr
      have hr : some (s.mem.set e.index i w e'.index i) = some (s.mem e'.index i) := hr
      rw [hf, Mem.set_same] at hr
      exact hno.2 (Option.some.inj hr).symm
    · rintro (h1 | h1)
      · exact (Sole.of_count hi hs (tidx_lt v) hc h1).untouched hi hs hc i w
      · have hsame : storeWord s T.pde v i w = s := by
          unfold storeWord
          rw [hent]
          have hm : s.mem.set e.index i w = s.mem := by
            funext x j
            by_cases hx : x = e.index ∧ j = i
            · obtain ⟨rfl, rfl⟩ := hx
              rw [Mem.set_same, h1]
            · exact Mem.set_other _ _ hx
          rw [hm]
        rw [hsame]
        exact fun _ _ _ _ _ _ _ => rfl

/-! ## A page after a fork -/

def forkedPage : Except Fault State :=
  step booted (.start parent 0x200) >>= fun s =>
    step s (.link parent userExecAddr) >>= fun s => step s (.fork parent child 0x201)

theorem forkedPage_read : (forkedPage.toOption.map fun s =>
    memoryAccess s 0x201 userExecAddr true true && !(pageEntry s 0x201 userExecAddr).shared &&
      (readWord (storeWord s 0x201 userExecAddr 0 (entryInit 0)) 0x200 userExecAddr 0 != readWord s 0x200 userExecAddr 0)) = some true := by
  decide +kernel

theorem forkedPage_tame : ∃ s T U, memory.Reach Tame s ∧ forkedPage = .ok s ∧ s.tasks child = some T ∧ T.pde = 0x201 ∧
    s.tasks parent = some U ∧ U.pde = 0x200 := by
  have hok := forkedPage_read
  cases hrun : forkedPage with
  | error e =>
    rw [hrun] at hok
    cases hok
  | ok s3 =>
    obtain ⟨s1, h1, hrun⟩ := bind_ok hrun
    obtain ⟨s2, h2, h3⟩ := bind_ok hrun
    have huser : InUser userExecAddr := ⟨le_rfl, by decide⟩
    obtain ⟨hst1, hf1⟩ := started h1
    have hp1 : s1.tasks parent = some firstTask := (hf1.tasks parent).trans (if_pos rfl)
    -- its first page
    have hlink : linkPage s1 firstTask.pde userExecAddr = .ok s2 := by
      have h2 : withTask s1 parent (fun T => linkPage s1 T.pde userExecAddr) = .ok s2 := h2
      unfold withTask at h2
      rw [hp1] at h2
      exact h2
    have htasks : s2.tasks = s1.tasks := by
      rcases (linkPage_sat hf1.inv (huser.slot hp1)).of_ok hlink with ⟨rfl, -⟩ | ht
      · rfl
      · exact ht.keeps.tasks
    have hst2 : memory.Steps s1 (.link parent userExecAddr) s2 := ⟨⟨by decide, firstTask, hp1⟩, h2⟩
    have hi2 : Inv s2 := (step_sat (x := .link parent userExecAddr) hf1.inv hst2.1 huser trivial).of_ok h2
    have hp2 : s2.tasks parent = some firstTask := by rw [htasks, hp1]
    -- the fork
    have hne : child ≠ parent := by decide
    have hother : ∀ q, q ≠ parent → s2.tasks q = none := fun q hq => by
      rw [htasks, hf1.tasks, if_neg hq]
      rfl
    have hk : kernelPage s2 0x201 := ⟨by decide, by decide, fun p t hp => by
      by_cases hpp : p = parent
      · subst hpp
        cases hp2.symm.trans hp
        decide
      · rw [hother p hpp] at hp
        cases hp⟩
    have hst3 : memory.Steps s2 (.fork parent child 0x201) s3 := ⟨⟨⟨firstTask, hp2⟩, hother child hne, hk⟩, h3⟩
    have hf3 : Forked s2 firstTask.pde child { firstTask with pde := 0x201 } s3 := by
      have h3 : withTask s2 parent (fun t => copyPde s2 t.pde 0x201 >>= fun s =>
        pure (Memory.setTask s child (some { t with pde := 0x201 }))) = .ok s3 := h3
      unfold withTask at h3
      rw [hp2] at h3
      exact (copyPde_sat (N := { firstTask with pde := 0x201 }) hi2 (.live hp2) hk (hother child hne) rfl
        (hi2.heap parent firstTask hp2)).of_ok h3
    have ht1 : Tame booted (.start parent 0x200) := ⟨trivial, fun _ _ _ _ _ _ e => nomatch e⟩
    have ht2 : Tame s1 (.link parent userExecAddr) := ⟨huser, fun _ _ _ _ _ _ e => nomatch e⟩
    have ht3 : Tame s2 (.fork parent child 0x201) := ⟨trivial, fun _ _ _ _ _ _ e => nomatch e⟩
    have hreach : memory.Reach Tame s3 := ⟨booted, booted_boot, ((Machine.Run.single ht1 hst1).tail ht2 hst2).tail ht3 hst3⟩
    refine ⟨s3, { firstTask with pde := 0x201 }, firstTask, hreach, rfl, ?_, rfl, ?_, rfl⟩
    · rw [hf3.tasks, if_pos rfl]
    · rw [hf3.tasks, if_neg hne.symm, hp2]

theorem forkedPage_store : ∃ s t T U, memory.Reach Tame s ∧ s.tasks child = some T ∧ s.tasks parent = some U ∧
    (pageEntry s T.pde userExecAddr).shared = false ∧ memory.Steps s (.kernelStore child userExecAddr 0 (entryInit 0) true) t ∧
    readWord t U.pde userExecAddr 0 ≠ readWord s U.pde userExecAddr 0 := by
  obtain ⟨s, T, U, hreach, hrun, hT, hTp, hU, hUp⟩ := forkedPage_tame
  have hread := forkedPage_read
  rw [hrun] at hread
  have hread := Option.some.inj hread
  rw [Bool.and_eq_true, Bool.and_eq_true, bne_iff_ne] at hread
  obtain ⟨⟨hacc, hsh⟩, hne⟩ := hread
  rw [← hTp] at hacc hsh hne
  rw [← hUp] at hne
  refine ⟨s, storeWord s T.pde userExecAddr 0 (entryInit 0), T, U, hreach, hT, hU, by simpa using hsh,
    ⟨⟨by decide, by decide, T, hT, hacc⟩, ?_⟩, hne⟩
  show withTask s child _ = _
  unfold withTask
  rw [hT]

/-- A store of the kernel for one process changes what another one reads. -/
theorem kernel_store_leaks : ∃ s t T U, memory.Reach Tame s ∧ s.tasks child = some T ∧ s.tasks parent = some U ∧
    (pageEntry s T.pde userExecAddr).shared = false ∧ memory.Steps s (.kernelStore child userExecAddr 0 (entryInit 0) true) t ∧
    ¬ Untouched s child t := by
  obtain ⟨s, t, T, U, hreach, hT, hU, hsh, hst, hne⟩ := forkedPage_store
  exact ⟨s, t, T, U, hreach, hT, hU, hsh, hst, fun h => hne (h parent U userExecAddr 0 (by decide) hU ⟨le_rfl, by decide⟩)⟩

theorem copy_on_write_isolation_forked : ∃ s t T, s.tasks child = some T ∧
    memory.Steps s (.kernelStore child userExecAddr 0 (entryInit 0) true) t ∧
    (Untouched s child t ↔ s.memoryMap (pageEntry s T.pde userExecAddr).index = 1 ∨
      s.mem (pageEntry s T.pde userExecAddr).index 0 = entryInit 0) := by
  obtain ⟨s, t, T, U, hreach, hT, -, hsh, hst, -⟩ := forkedPage_store
  exact ⟨s, t, T, hT, hst, (copy_on_write_isolation hreach).2.2 child userExecAddr 0 _ true t T hst ⟨le_rfl, by decide⟩ hT hsh⟩

end Onix.Memory
