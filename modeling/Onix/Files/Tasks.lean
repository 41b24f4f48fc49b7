/-
A new task shares the files and the inodes of its parent, and a task that ends gives its own back: the loops over the descriptors.
-/
import Onix.Files.Calls

namespace Onix.Files

open Function Onix.Lib

variable {s t u : State} {debts : List Nat} {p q fd f i j n : Nat} {x : Task}

/-! ## `task_fork` -/

theorem hold_oneSlot (s : State) (i : Nat) : OneSlot s i (s.hold i) := OneSlot.setInode ..

theorem hold_grows (s : State) (i : Nat) : Grows s (s.hold i) := by
  refine (hold_oneSlot s i).grows fun _ => ?_
  unfold State.hold
  rw [setInode_same]
  exact ⟨rfl, rfl, rfl⟩

theorem hold_count_ne (h : (s.inodes j).count ≠ 0) : ((s.hold i).inodes j).count ≠ 0 := by
  by_cases hji : j = i
  · rw [hji]
    unfold State.hold
    rw [setInode_same]
    exact Nat.succ_ne_zero _
  · rw [(hold_oneSlot s i).other j hji]
    exact h

theorem Books.owed_used (h : Books debts s) (hx : s.tasks p = some x) (hi : i ∈ Files.owed (some x)) : (s.inodes i).count ≠ 0 := by
  obtain ⟨hlt, -⟩ := h.owed hx hi
  have hp := (h.taskRange p x hx).1
  have hc := h.inodeCount i hlt
  have ho : 0 < (Files.owed (some x)).count i := List.count_pos_iff.2 hi
  have hr := refs_setTask (s := s) (j := i) hp none
  rw [hx] at hr
  have hn : (Files.owed none).count i = 0 := rfl
  omega

theorem Books.holdTask (h : Books debts s) (hx : s.tasks p = some x) :
    Books (x.iexec.toList ++ x.iroot :: x.ipwd :: debts) (s.holdTask x) ∧ Grows s (s.holdTask x) ∧ (s.holdTask x).files = s.files ∧
      (s.holdTask x).fds = s.fds ∧ (s.holdTask x).tasks = s.tasks := by
  have h0 : ∀ i ∈ Files.owed (some x), i < INODE_NR ∧ (s.inodes i).count ≠ 0 := fun i hi => ⟨(h.owed hx hi).1, h.owed_used hx hi⟩
  have hpwd := h0 x.ipwd (by simp [Files.owed])
  have hroot := h0 x.iroot (by simp [Files.owed])
  have h1 := h.hold hpwd.1 hpwd.2
  have h2 := h1.hold hroot.1 (hold_count_ne hroot.2)
  have hg := (hold_grows s x.ipwd).trans (hold_grows (s.hold x.ipwd) x.iroot)
  unfold State.holdTask
  cases hexec : x.iexec with
  | none => exact ⟨h2, hg, rfl, rfl, rfl⟩
  | some i =>
    have hi := h0 i (by simp [Files.owed, hexec])
    exact ⟨h2.hold hi.1 (hold_count_ne (hold_count_ne hi.2)), hg.trans (hold_grows _ i), rfl, rfl, rfl⟩

/-- The descriptors of the new task from `n` on are not counted yet. -/
def State.mask (s : State) (q n : Nat) : State := { s with fds := fun k => if k.1 = q ∧ n ≤ k.2 then none else s.fds k }

theorem mask_point (hf : s.fds (q, n) = some f) :
    (s.setFile f { s.files f with count := (s.files f).count + 1 }).mask q (n + 1) = (s.mask q n).point (q, n) f := by
  unfold State.mask State.point State.setFile
  dsimp only
  congr 1
  funext k
  by_cases hk : k = (q, n)
  · rw [hk, update_self, if_neg (by simp), hf]
  · rw [update_of_ne hk]
    by_cases hc : k.1 = q ∧ n ≤ k.2
    · have hne : n ≠ k.2 := fun he => hk (Prod.ext hc.1 he.symm)
      rw [if_pos hc, if_pos ⟨hc.1, by omega⟩]
    · rw [if_neg hc, if_neg (fun h => hc ⟨h.1, by omega⟩)]

theorem mask_skip (hf : s.fds (q, n) = none) : s.mask q (n + 1) = s.mask q n := by
  unfold State.mask
  congr 1
  funext k
  by_cases hk : k = (q, n)
  · rw [hk, hf]
    simp
  · by_cases hc : k.1 = q ∧ n ≤ k.2
    · have hne : n ≠ k.2 := fun he => hk (Prod.ext hc.1 he.symm)
      rw [if_pos hc, if_pos ⟨hc.1, by omega⟩]
    · rw [if_neg hc, if_neg (fun h => hc ⟨h.1, by omega⟩)]

theorem fork_spec (h : Books [] s) (hq : Quiet s) (hp : s.tasks p ≠ none) (hlt : q < TASK_NR) (hnone : s.tasks q = none) :
    Sat Bad (fork s p q) (Kept s) := by
  obtain ⟨x, hx⟩ := Option.ne_none_iff_exists'.1 hp
  have hpq : p ≠ q := by
    rintro rfl
    exact hp hnone
  obtain ⟨hb, hg, hfiles, hfds, htasks⟩ := h.holdTask hx
  unfold fork
  rw [hx]
  dsimp only
  generalize hv : (fun k : Nat × Nat => if k.1 = q then s.fds (p, k.2) else s.fds k) = F
  have hF : ∀ fd, F (q, fd) = s.fds (p, fd) := fun fd => hv ▸ if_pos rfl
  have hF' : ∀ k, k.1 ≠ q → F k = s.fds k := fun k hk => hv ▸ if_neg hk
  -- the order in which the tables are filled makes no difference
  have hstart : ({ s with tasks := update s.tasks q (some x), fds := F } : State).holdTask x =
      { (s.holdTask x).setTask q (some x) with fds := F } := by
    unfold State.holdTask
    cases x.iexec <;> rfl
  rw [hstart]
  have hv : Books [] ((s.holdTask x).setTask q (some x)) := by
    refine hb.setTask hlt (fun i hi => hb.owed (htasks ▸ hx) hi) fun j => ?_
    rw [htasks, hnone]
    simp only [Files.owed, List.count_append, List.count_cons, List.count_nil]
    omega
  have hmask : ({ (s.holdTask x).setTask q (some x) with fds := F } : State).mask q 0 = (s.holdTask x).setTask q (some x) := by
    have hf : (fun k : Nat × Nat => if k.1 = q ∧ 0 ≤ k.2 then none else F k) = (s.holdTask x).fds := by
      rw [hfds]
      funext k
      by_cases hk : k.1 = q
      · rw [if_pos ⟨hk, Nat.zero_le _⟩]
        exact (hk ▸ hq q hnone k.2 : s.fds (k.1, k.2) = none).symm
      · rw [if_neg (fun h => hk h.1), hF' k hk]
    unfold State.mask
    rw [hf]
    rfl
  refine (forRange_sat (fun n u => Books [] (u.mask q n) ∧ u.fds = F ∧ u.tasks = update s.tasks q (some x) ∧
    u.inodes = (s.holdTask x).inodes) TASK_FILE_NR ?_ ⟨hmask ▸ hv, rfl, congrArg (update · q (some x)) htasks, rfl⟩).mono ?_
  · rintro n u hn ⟨hu, huF, hut, hui⟩
    have hfd : u.fds (q, n) = s.fds (p, n) := by rw [huF, hF]
    cases hf : u.fds (q, n) with
    | none =>
      refine ⟨?_, huF, hut, hui⟩
      rw [mask_skip hf]
      exact hu
    | some f =>
      have hk : (u.mask q n).fds (p, n) = some f := by
        have hne : ¬ ((p, n).1 = q ∧ n ≤ (p, n).2) := fun h => hpq h.1
        refine (if_neg hne).trans ?_
        rw [huF, hF' (p, n) hpq, ← hfd, hf]
      obtain ⟨-, hfl, hc⟩ := hu.pointed hk
      refine ⟨?_, huF, hut, hui⟩
      rw [mask_point hf]
      exact hu.point (mem_slots.2 ⟨hlt, hn⟩) (if_pos ⟨rfl, Nat.le_refl n⟩) hfl (by omega)
  · rintro u ⟨hu, huF, hut, hui⟩
    have hall : u.mask q TASK_FILE_NR = u := by
      unfold State.mask
      congr 1
      funext k
      by_cases hk : k.1 = q ∧ TASK_FILE_NR ≤ k.2
      · rw [if_pos hk, huF]
        cases hf : F k with
        | none => rfl
        | some f =>
          have he : s.fds (p, k.2) = some f := by
            rw [← hF, ← hk.1]
            exact hf
          have := (mem_slots.1 (h.fdRange _ _ he).1).2
          omega
      · rw [if_neg hk]
    rw [hall] at hu
    refine ⟨hu, fun r hr fd => ?_, ?_⟩
    · have hrq : r ≠ q := by
        rintro rfl
        rw [hut, update_self] at hr
        cases hr
      rw [hut, update_of_ne hrq] at hr
      rw [huF, hF' (r, fd) hrq]
      exact hq r hr fd
    · have hgu : Grows s u := by
        intro i hi
        rw [hui]
        exact hg i hi
      exact hgu.moves

/-! ## `task_exit` -/

def State.Leaves (s : State) (p : Nat) : Prop :=
  ∀ fd i, s.Leads (p, fd) i → (s.inodes i).type = .pipe → ∃ l : Nat × Nat, l.1 ≠ p ∧ s.Leads l i

theorem iput_other (h : Books (i :: debts) s) (hi : i < INODE_NR) (hp : ¬ Private (s.inodes i).type) :
    ∃ t, iput s (some i) = .ok t ∧ OneSlot s i t ∧ Frees s t ∧ Books debts t :=
  iput_spec h hi fun hty => absurd (.inl hty) hp

theorem Frees.other (h : Frees s t) (hi : ¬ Private (s.inodes i).type) : ¬ Private (t.inodes i).type := by
  rcases h i with ht | ht
  · rw [ht]
    exact fun hp => private_ne hp rfl
  · rw [ht.1]
    exact hi

theorem exit_spec (h : Books [] s) (hq : Quiet s) (hp : s.tasks p ≠ none) (hl : s.Leaves p) : Sat Bad (exit s p) (Kept s) := by
  obtain ⟨x, hx⟩ := Option.ne_none_iff_exists'.1 hp
  have hlt := h.live hp
  unfold exit
  rw [hx]
  dsimp only
  have hnot : ∀ i ∈ Files.owed (some x), i < INODE_NR ∧ ¬ Private (s.inodes i).type := fun i hi => h.owed hx hi
  have hpwd := hnot x.ipwd (by simp [Files.owed])
  have hroot := hnot x.iroot (by simp [Files.owed])
  have hb : Books (x.ipwd :: x.iroot :: x.iexec.toList) (s.setTask p none) := by
    refine h.setTask hlt (fun i hi => absurd hi List.not_mem_nil) fun j => ?_
    rw [hx]
    simp [Files.owed]
  obtain ⟨t1, ht1, ho1, hf1, hb1⟩ := iput_other hb hpwd.1 hpwd.2
  obtain ⟨t2, ht2, ho2, hf2, hb2⟩ := iput_other hb1 hroot.1 (hf1.other hroot.2)
  have hexec : ∃ t3, iput t2 x.iexec = .ok t3 ∧ t3.files = t2.files ∧ t3.fds = t2.fds ∧ t3.tasks = t2.tasks ∧ Frees t2 t3 ∧ Books [] t3 := by
    cases he : x.iexec with
    | none =>
      rw [he] at hb2
      exact ⟨t2, rfl, rfl, rfl, rfl, .refl t2, hb2⟩
    | some i =>
      rw [he] at hb2
      have hi := hnot i (by simp [Files.owed, he])
      obtain ⟨t3, ht3, ho3, hf3, hb3⟩ := iput_other hb2 hi.1 (hf2.other (hf1.other hi.2))
      exact ⟨t3, ht3, ho3.files, ho3.fds, ho3.tasks, hf3, hb3⟩
  obtain ⟨t3, ht3, e1, e2, e3, hf3, hb3⟩ := hexec
  have hs1 : ({ s with tasks := update s.tasks p none } : State) = s.setTask p none := rfl
  rw [hs1, ht1]
  dsimp only [bind, Except.bind]
  rw [ht2]
  dsimp only
  rw [ht3]
  have hfr : Frees s t3 := fun i => (hf1.trans (hf2.trans hf3)) i
  have hfiles : t3.files = s.files := e1.trans (ho2.files.trans ho1.files)
  have hfds : t3.fds = s.fds := e2.trans (ho2.fds.trans ho1.fds)
  have htasks : t3.tasks = update s.tasks p none := e3.trans (ho2.tasks.trans ho1.tasks)
  refine (forRange_sat (fun n u => Books [] u ∧ Frees s u ∧ u.tasks = update s.tasks p none ∧
    (∀ f, (u.files f).inode = (s.files f).inode) ∧ (∀ fd, fd < n → u.fds (p, fd) = none) ∧ ∀ k, k.1 ≠ p ∨ n ≤ k.2 → u.fds k = s.fds k)
    TASK_FILE_NR ?_ ⟨hb3, hfr, htasks, fun f => by rw [hfiles], fun fd hfd => absurd hfd (Nat.not_lt_zero fd), fun k _ => by rw [hfds]⟩).mono ?_
  · rintro n u - ⟨hu, huf, hut, hui, hgone, hrest⟩
    cases hf : u.fds (p, n) with
    | none =>
      refine ⟨hu, huf, hut, hui, fun fd hfd => ?_, fun k hk => hrest k (hk.imp id fun hk => by omega)⟩
      rcases Nat.lt_succ_iff_lt_or_eq.1 hfd with hfd | rfl
      · exact hgone fd hfd
      · exact hf
    | some f =>
      have hshared : u.Shared (p, n) := by
        rintro i ⟨g, hg, hgi⟩ hty
        have hty' : (s.inodes i).type = .pipe := by
          rcases huf i with hn | hn
          · rw [hn] at hty
            cases hty
          · exact hn.1 ▸ hty
        rw [hrest (p, n) (.inr (Nat.le_refl n))] at hg
        obtain ⟨l, hlp, g', hg', hgi'⟩ := hl n i ⟨g, hg, (hui g).symm.trans hgi⟩ hty'
        exact ⟨l, fun he => hlp (he ▸ rfl), g', (hrest l (.inl hlp)).trans hg', (hui g').trans hgi'⟩
      obtain ⟨v, hv, hbv, hcl⟩ := fdPut_spec hu hf hshared
      rw [hv]
      refine ⟨hbv, huf.trans hcl.frees, hcl.tasks.trans hut, fun g => (hcl.inode g).trans (hui g), fun fd hfd => ?_, fun k hk => ?_⟩
      · rw [hcl.fds]
        rcases Nat.lt_succ_iff_lt_or_eq.1 hfd with hfd | rfl
        · rw [update_of_ne (fun he => by have := (Prod.mk.inj he).2; omega)]
          exact hgone fd hfd
        · exact update_self ..
      · have hne : k ≠ (p, n) := by
          rintro rfl
          rcases hk with hk | hk
          · exact hk rfl
          · exact absurd hk (Nat.not_succ_le_self n)
        rw [hcl.fds, update_of_ne hne]
        exact hrest k (hk.imp id fun hk => by omega)
  · rintro u ⟨hu, huf, hut, -, hgone, hrest⟩
    refine ⟨hu, fun r hr fd => ?_, huf.moves⟩
    by_cases hrp : r = p
    · rw [hrp]
      by_cases hfd : fd < TASK_FILE_NR
      · exact hgone fd hfd
      · cases hf : u.fds (p, fd) with
        | none => rfl
        | some f => exact absurd (mem_slots.1 (hu.fdRange _ _ hf).1).2 hfd
    · rw [hrest (r, fd) (.inl hrp)]
      rw [hut, update_of_ne hrp] at hr
      exact hq r hr fd

end Onix.Files
