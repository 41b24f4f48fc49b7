/-
What `sys_umount` does to the table and to the books.
-/
import Onix.Mount.Calls

namespace Onix.Mount

open Option List Onix.Lib

variable {s t u : State} {ds : List Nat} {bs : List Buf} {i j k n r m dev : Nat} {b : Buf} {y : Super} {w : Prop} {ret : Int}

/-! ## Whether it is in use -/

theorem isRoot_spec (ht : Table s) (hi : i < INODE_NR) (hu : (s.inodes i).type ≠ .none) :
    ∃ j < SUPER_NR, (s.inodes i).super = some j ∧ (s.supers j).type ≠ .none ∧ (s.inodes i).dev = (s.supers j).dev ∧
      isRoot s i = .ok ((s.supers j).iroot = some i) := by
  obtain ⟨j, hj, h1, h2, h3⟩ := ht.inode i hi hu
  refine ⟨j, hj, h1, h2, h3, ?_⟩
  unfold isRoot
  rw [h1]

theorem isRoot_own (ht : Table s) (hi : i < INODE_NR) (hu : (s.inodes i).type ≠ .none) (hr : isRoot s i = .ok true)
    (hg : getSuper s (umountDev s i) = some k) : (s.supers k).iroot = some i := by
  obtain ⟨j, hj, h1, h2, h3, h4⟩ := isRoot_spec ht hi hu
  rw [h4] at hr
  have hroot : (s.supers j).iroot = some i := of_decide_eq_true (Except.ok.inj hr)
  obtain ⟨r, h5, -, h6⟩ := (ht.mounted hj h2).root
  rw [hroot] at h5
  cases h5
  obtain ⟨hk, hku, hkd⟩ := getSuper_some hg
  unfold umountDev at hkd
  rw [if_neg h6, h3] at hkd
  rw [ht.distinct k hk j hj hku h2 hkd]
  exact hroot

theorem listSize_one (h : listSize s k ≤ 1) (hi : i < INODE_NR) (hj : j < INODE_NR) (h1 : (s.inodes i).super = some k)
    (h2 : (s.inodes j).super = some k) : i = j := by
  by_contra hij
  have hsub : [i, j] ⊆ (range INODE_NR).filter fun i => (s.inodes i).super = some k := by
    intro l hl
    refine mem_filter.2 ?_
    rcases mem_pair.1 hl with rfl | rfl
    · exact ⟨mem_range.2 hi, decide_eq_true h1⟩
    · exact ⟨mem_range.2 hj, decide_eq_true h2⟩
  have hnd : [i, j].Nodup := nodup_cons.2 ⟨fun h => hij (mem_singleton.1 h), nodup_singleton j⟩
  have hlen := (hnd.subperm hsub).length_le
  unfold listSize at h
  rw [countP_eq_length_filter] at h
  have : [i, j].length = 2 := rfl
  omega

theorem busy_over (hy : y.iroot = (s.supers k).iroot) : busy (s.setSuper k y) j r i = busy s j r i := by
  have hroot : isRoot (s.setSuper k y) i = isRoot s i := by
    unfold isRoot
    rw [setSuper_inodes]
    cases (s.inodes i).super with
    | none => rfl
    | some l =>
      dsimp only
      by_cases hl : l = k
      · subst hl
        rw [setSuper_same, hy]
      · rw [setSuper_other s y hl]
  unfold busy
  rw [hroot]
  rfl

theorem busy_no (hb : Books [i] [] s) (ht : Table s) (hi : i < INODE_NR) (hu : (s.inodes i).type ≠ .none)
    (hg : getSuper s (umountDev s i) = some k) (hr : (s.supers k).iroot = some r) (hbusy : busy s k r i = .ok false) :
    k ≠ 0 ∧ s.held r = 0 ∧ s.refs r = 1 ∧ listSize s k ≤ 1 := by
  obtain ⟨hk, hku, -⟩ := getSuper_some hg
  obtain ⟨hr64, hpos, -⟩ := hb.pointed hk (.inl (roots_of hku hr))
  have hcount := hb.count r hr64
  unfold busy at hbusy
  split at hbusy
  · cases hbusy
  · rename_i h2
    have hcase : ((s.inodes r).count = 2 → isRoot s i = .ok true) ∧ listSize s k ≤ 1 := by
      obtain ⟨j, -, -, -, -, hroot⟩ := isRoot_spec ht hi hu
      by_cases hc : (s.inodes r).count = 2
      · rw [if_pos hc, hroot] at hbusy
        have hfalse := Except.ok.inj hbusy
        rw [Bool.or_eq_false_iff, Bool.not_eq_false', decide_eq_false_iff_not, Nat.not_lt] at hfalse
        refine ⟨fun _ => ?_, hfalse.2⟩
        rw [hroot, hfalse.1]
      · rw [if_neg hc] at hbusy
        have hfalse := Except.ok.inj hbusy
        rw [Bool.or_eq_false_iff, decide_eq_false_iff_not, Nat.not_lt] at hfalse
        exact ⟨fun h => absurd h hc, hfalse.2⟩
    obtain ⟨hroot, hlist⟩ := hcase
    have hone : s.held r = 0 ∧ s.refs r = 1 := by
      by_cases hir : i = r
      · subst hir
        rw [count_singleton_self] at hcount
        omega
      · have hz : [i].count r = 0 := count_eq_zero.2 fun h => hir (mem_singleton.1 h).symm
        have hne : (s.inodes r).count ≠ 2 := fun hc => by
          have := isRoot_own ht hi hu (hroot hc) hg
          rw [hr] at this
          exact hir (some.inj this).symm
        omega
    refine ⟨?_, hone.1, hone.2, hlist⟩
    rintro rfl
    -- the root of the tree is also mounted on itself
    obtain ⟨-, hr0⟩ := roots_used hb.root
    rw [hr] at hr0
    cases hr0
    have h1 : 0 < tally superSlots s.roots 0 := tally_pos.2 ⟨0, mem_superSlots.2 (by decide), hb.root⟩
    have h2 : 0 < tally superSlots s.mounts 0 := tally_pos.2 ⟨0, mem_superSlots.2 (by decide), mounts_of hku ht.zero⟩
    have h3 := hone.2
    unfold State.refs at h3
    omega

/-! ## Taking a filesystem away -/

/-- The filesystem in slot `k` is gone, and nothing is mounted on `m` any more. -/
structure Detached (w : Prop) (s t : State) (dev k m : Nat) : Prop where
  rest : Rest t
  slot : k < SUPER_NR
  found : getSuper s dev = some k
  on : (s.supers k).imount = some m
  idle : Idle (t.supers k)
  others : ∀ j, j ≠ k → t.supers j = s.supers j
  held : t.held = s.held
  heldBufs : w → t.heldBufs = s.heldBufs
  inodes : ∀ i < INODE_NR, (s.inodes i).type ≠ .none → i ≠ m → (t.inodes i).type = .none ∨ Alike (s.inodes i) (t.inodes i)

theorem Books.unroot (h : Books ds bs s) (hk : k < SUPER_NR) (hk0 : k ≠ 0) (hu : (s.supers k).type ≠ .none) (hr : (s.supers k).iroot = some r)
    (hy : y = { s.supers k with iroot := none, count := y.count }) : Books (r :: ds) bs (s.setSuper k y) := by
  have hold : ∀ {α : Type} (p : Option α), (s.supers k).live p = p := fun _ => if_neg hu
  have hnew : ∀ {α : Type} (p : Option α), y.live p = p := fun _ => if_neg (by rw [hy]; exact hu)
  have h1 : y.iroot = none := by rw [hy]
  have h2 : y.imount = (s.supers k).imount := by rw [hy]
  have h3 : y.buf = (s.supers k).buf := by rw [hy]
  refine h.setSuper hk (fun i => ?_) (fun b => ?_) ?_ ?_ (fun h0 => absurd h0 hk0)
  · unfold Super.points
    rw [hold, hold, hnew, hnew, h1, h2, hr, count_cons]
    simp only [some.injEq, beq_iff_eq, reduceCtorEq, if_false]
    omega
  · unfold Super.pointsBuf
    rw [hold, hnew, h3]
  · intro i hi
    rw [hnew, hnew, h1, h2] at hi
    rcases hi with hi | hi
    · cases hi
    · exact h.range k hk i (.inr (mounts_of hu hi))
  · intro i _ _ hm
    rw [hnew, h2]
    exact (mounts_used hm).2

theorem Books.unmount (h : Books ds bs s) (hk : k < SUPER_NR) (hk0 : k ≠ 0) (hu : (s.supers k).type ≠ .none) (hr : (s.supers k).iroot = none)
    (hm : (s.supers k).imount = some m) (hmark : (s.inodes m).mount = 0) (hy : y = { s.supers k with imount := none, count := y.count }) :
    Books (m :: ds) bs (s.setSuper k y) := by
  have hold : ∀ {α : Type} (p : Option α), (s.supers k).live p = p := fun _ => if_neg hu
  have hnew : ∀ {α : Type} (p : Option α), y.live p = p := fun _ => if_neg (by rw [hy]; exact hu)
  have h1 : y.iroot = none := by
    rw [hy]
    exact hr
  have h2 : y.imount = none := by rw [hy]
  have h3 : y.buf = (s.supers k).buf := by rw [hy]
  refine h.setSuper hk (fun i => ?_) (fun b => ?_) ?_ ?_ (fun h0 => absurd h0 hk0)
  · unfold Super.points
    rw [hold, hold, hnew, hnew, h1, h2, hr, hm, count_cons]
    simp only [some.injEq, beq_iff_eq, reduceCtorEq, if_false]
    omega
  · unfold Super.pointsBuf
    rw [hold, hnew, h3]
  · intro i hi
    rw [hnew, hnew, h1, h2] at hi
    rcases hi with hi | hi <;> cases hi
  · intro i _ hne hmi
    have := (mounts_used hmi).2
    rw [hm] at this
    cases this
    exact absurd hmark hne

theorem Books.unbuf (h : Books ds bs s) (hk : k < SUPER_NR) (hk0 : k ≠ 0) (hu : (s.supers k).type ≠ .none) (hr : (s.supers k).iroot = none)
    (hm : (s.supers k).imount = none) : Books ds ((s.supers k).buf.toList ++ bs) (s.setSuper k (s.supers k).idle) := by
  have hold : ∀ {α : Type} (p : Option α), (s.supers k).live p = p := fun _ => if_neg hu
  have hnew : ∀ {α : Type} (p : Option α), (s.supers k).idle.live p = none := fun _ => if_pos rfl
  refine h.setSuper hk (fun i => ?_) (fun b => ?_) ?_ ?_ (fun h0 => absurd h0 hk0)
  · unfold Super.points
    rw [hold, hold, hnew, hnew, hr, hm]
  · unfold Super.pointsBuf
    rw [hold, hnew, if_neg (show ¬ (none : Option Buf) = some b from nofun)]
    cases (s.supers k).buf with
    | none =>
      rw [toList_none, nil_append, if_neg (show ¬ (none : Option Buf) = some b from nofun)]
    | some c =>
      rw [toList_some, singleton_append, count_cons_buf]
      omega
  · intro i hi
    rcases hi with hi | hi <;> cases hi
  · intro i _ _ hmi
    have := (mounts_used hmi).2
    rw [hm] at this
    cases this

theorem setSuper_eq (h : s.supers k = y) : s.setSuper k y = s := by
  rw [← h]
  exact setSuper_self s k

theorem detach_moves (hb : Books [i] [] u) (hi : i < INODE_NR) (hk : k < SUPER_NR) (hk0 : k ≠ 0) (hmt : Mounted u k) (hr : (u.supers k).iroot = some r)
    (hm : (u.supers k).imount = some m) : ∃ t, detach (u.setSuper k { u.supers k with count := (u.supers k).count + 1 }) k r m i = .ok (0, t) ∧
      Books [] [] t ∧ (∀ j, j ≠ k → t.supers j = u.supers j) ∧ Idle (t.supers k) ∧ t.held = u.held ∧ t.heldBufs = u.heldBufs ∧
      Frees (u.setInode m { u.inodes m with mount := 0 }) t := by
  have hr64 := hb.range k hk r (.inl (roots_of hmt.used hr))
  have hm64 := hb.range k hk m (.inr (mounts_of hmt.used hm))
  have hcount := hmt.count
  generalize hy0 : ({ u.supers k with count := (u.supers k).count + 1 } : Super) = y0
  generalize hy1 : ({ y0 with iroot := none } : Super) = y1
  generalize hy2 : ({ y1 with imount := none, count := y1.count - 1 } : Super) = y2
  have ht0 : y0.type ≠ .none := by rw [← hy0]; exact hmt.used
  have ht1 : y1.type ≠ .none := by rw [← hy1]; exact ht0
  have ht2 : y2.type ≠ .none := by rw [← hy2]; exact ht1
  have hc0 : y0.count = 2 := by rw [← hy0]; exact congrArg (· + 1) hcount
  have hc1 : y1.count = 2 := by rw [← hy1]; exact hc0
  have hc2 : y2.count = 1 := by rw [← hy2]; exact congrArg (· - 1) hc1
  -- the root
  have hb1 : Books (r :: [i]) [] (u.setSuper k y1) := hb.unroot hk hk0 hmt.used hr (by rw [← hy1, ← hy0])
  obtain ⟨t1, hput1, ho1, hfr1, hbt1⟩ := iput_apart hb1 hr64
  have hs1 : t1.supers k = y1 := by rw [ho1.supers, setSuper_same]
  have he1 : iput (u.setSuper k y0) (some r) = .ok (t1.setSuper k y0) := by
    have := hput1 k y0
    rwa [setSuper_setSuper] at this
  -- the inode it is mounted on
  have hmk : t1.mounts k = some m := mounts_of (by rw [hs1]; exact ht1) (by rw [hs1, ← hy1, ← hy0]; exact hm)
  obtain ⟨-, -, hmu⟩ := hbt1.pointed hk (.inr hmk)
  generalize hx : ({ t1.inodes m with mount := 0 } : Inode) = x
  have hsound := hbt1.inode m hm64
  have hb2 : Books [i] [] (t1.setInode m x) := by
    refine hbt1.setInode hm64 ?_ (fun _ _ => rfl) (fun _ => by rw [← hx]) ?_ fun hne => absurd (by rw [← hx]) hne
    · rw [← hx]
      exact hbt1.count m hm64
    · rw [← hx]
      exact ⟨hsound.free, fun ht => absurd ht hmu, hsound.used⟩
  have hb3 : Books (m :: [i]) [] ((t1.setInode m x).setSuper k y2) := by
    refine hb2.unmount hk hk0 ?_ ?_ ?_ ?_ ?_
    · rw [setInode_supers, hs1]
      exact ht1
    · rw [setInode_supers, hs1, ← hy1]
    · rw [setInode_supers, hs1, ← hy1, ← hy0]
      exact hm
    · rw [setInode_same, ← hx]
    · rw [setInode_supers, hs1, ← hy2]
  obtain ⟨t3, hput3, ho3, hfr3, hbt3⟩ := iput_apart hb3 hm64
  have hs3 : t3.supers k = y2 := by rw [ho3.supers, setSuper_same]
  have he3 : iput (t1.setInode m x) (some m) = .ok (t3.setSuper k y1) := by
    have := hput3 k y1
    rwa [setSuper_setSuper, setSuper_eq (s := t1.setInode m x) (by rw [setInode_supers]; exact hs1)] at this
  -- the inode of the path, and the slot
  obtain ⟨t4, he4, ho4, hfr4, hbt4⟩ := iput_spec hbt3 hi
  have hs4 : t4.supers k = y2 := by rw [ho4.supers, hs3]
  have hroot2 : y2.iroot = none := by rw [← hy2, ← hy1]
  have hmount2 : y2.imount = none := by rw [← hy2]
  have hb5 := hbt4.unbuf hk hk0 (by rw [hs4]; exact ht2) (by rw [hs4]; exact hroot2) (by rw [hs4]; exact hmount2)
  rw [hs4] at hb5
  have hb5' : Books (y2.iroot.toList ++ []) (y2.buf.toList ++ []) (t4.setSuper k y2.idle) := by
    rw [hroot2]
    exact hb5
  obtain ⟨v, he5, hb6, hf6, hfr6⟩ := putSuper_last hc2 hmount2 hb5' (by rw [hroot2]; exact fun _ h => nomatch h)
  have hs6 : v.supers k = y2.idle := by rw [hf6.supers, setSuper_same]
  rw [setSuper_setSuper, setSuper_eq hs4, setSuper_eq hs6] at he5
  refine ⟨v, ?_, hb6, fun j hj => ?_, ?_, ?_, ?_, ?_⟩
  · unfold detach
    rw [he1]
    dsimp only [bind, Except.bind]
    rw [setSuper_same, setSuper_setSuper, hy1, setSuper_eq hs1, hx, he3]
    simp only [setSuper_same, setSuper_setSuper]
    rw [hy2, setSuper_eq hs3, assert_ok (by rw [hc1])]
    unfold leave
    rw [he4]
    dsimp only [bind, Except.bind]
    rw [he5]
  · rw [hf6.supers, setSuper_other _ _ hj, ho4.supers, ho3.supers, setSuper_other _ _ hj, setInode_supers, ho1.supers, setSuper_other _ _ hj]
  · rw [hs6]
    exact ⟨rfl, rfl, hmount2⟩
  · rw [hf6.held]
    exact ho4.held.trans (ho3.held.trans ho1.held)
  · rw [hf6.heldBufs]
    exact ho4.heldBufs.trans (ho3.heldBufs.trans ho1.heldBufs)
  · have hfirst : Frees (u.setInode m { u.inodes m with mount := 0 }) (t1.setInode m x) := by
      intro j hj
      by_cases hjm : j = m
      · subst hjm
        have ha := (hfr1 j hj).resolve_left hmu
        rw [setInode_same, setInode_same, ← hx]
        exact .inr ⟨ha.type, ha.dev, rfl, ha.buf, ha.super, ha.kind⟩
      · rw [setInode_other _ _ hjm, setInode_other _ _ hjm]
        exact hfr1 j hj
    exact hfirst.trans (Frees.trans hfr3 (hfr4.trans hfr6))

theorem root_released (hb : Books ds bs u) (hbt : Books [] [] t) (hk : k < SUPER_NR) (hu : (u.supers k).type ≠ .none) (hr : (u.supers k).iroot = some r)
    (hheld : u.held r = 0) (hrefs : u.refs r = 1) (ho : ∀ j, j ≠ k → t.supers j = u.supers j) (hi : Idle (t.supers k)) (hh : t.held = u.held) :
    (t.inodes r).type = .none := by
  have hr64 := hb.range k hk r (.inl (roots_of hu hr))
  have hsup : t.supers = (u.setSuper k (t.supers k)).supers := by
    funext j
    by_cases hj : j = k
    · subst hj
      rw [setSuper_same]
    · rw [setSuper_other _ _ hj]
      exact ho j hj
  have heq := refs_congr hsup r
  have hset := refs_setSuper u (t.supers k) hk r
  have h1 : 1 ≤ (u.supers k).points r := by
    unfold Super.points Super.live
    rw [if_neg hu, hr, if_pos rfl]
    omega
  have h2 : (t.supers k).points r = 0 := by
    unfold Super.points Super.live
    rw [if_pos hi.type, if_pos hi.type, if_neg (fun h => nomatch h)]
  refine (hbt.inode r hr64).free.2 ?_
  rw [hbt.count r hr64, hh, hheld, count_nil]
  omega

theorem detached_table (hb : Books ds bs u) (ht : Table u) (hbt : Books [] [] t) (hk : k < SUPER_NR) (hk0 : k ≠ 0) (hu : (u.supers k).type ≠ .none)
    (hr : (u.supers k).iroot = some r) (hm : (u.supers k).imount = some m) (hlist : listSize u k ≤ 1) (hfree : (t.inodes r).type = .none)
    (ho : ∀ j, j ≠ k → t.supers j = u.supers j) (hi : Idle (t.supers k)) (hf : Frees (u.setInode m { u.inodes m with mount := 0 }) t) : Table t := by
  have hkm := ht.mounted hk hu
  -- what is left of an inode that is still in use
  have hkeep : ∀ i < INODE_NR, (t.inodes i).type ≠ .none → (t.inodes i).type = (u.inodes i).type ∧ (t.inodes i).super = (u.inodes i).super ∧
      (t.inodes i).dev = (u.inodes i).dev ∧ ((u.inodes i).kind ≠ .block → (t.inodes i).kind ≠ .block) ∧
      (i ≠ m → (t.inodes i).mount = (u.inodes i).mount) := by
    intro i hi hne
    have ha := (hf i hi).resolve_left hne
    by_cases him : i = m
    · subst him
      rw [setInode_same] at ha
      exact ⟨ha.type, ha.super, ha.dev, ha.kind, fun h => absurd rfl h⟩
    · rw [setInode_other _ _ him] at ha
      exact ⟨ha.type, ha.super, ha.dev, ha.kind, fun _ => ha.mount⟩
  have hused : ∀ j, (t.supers j).type ≠ .none → j ≠ k := fun j hj h => hj (h ▸ hi.type)
  refine ⟨fun j hj => ?_, fun i hi j hj hiu hju hd => ?_, fun i hi64 hne => ?_, ?_⟩
  · by_cases hjk : j = k
    · rw [hjk]
      exact .inl hi
    · have he := ho j hjk
      rcases ht.slot j hj with hidle | hmt
      · left
        rw [he]
        exact hidle
      · have hroots : t.roots j = u.roots j := by
          unfold State.roots
          rw [he]
        have hmounts : t.mounts j = u.mounts j := by
          unfold State.mounts
          rw [he]
        refine .inr (hmt.of he (fun i hi => ?_) fun i hi => ?_)
        · obtain ⟨h1, -, h2⟩ := hbt.pointed hj (.inl (hroots.trans hi))
          obtain ⟨-, h3, -, h4, -⟩ := hkeep i h1 h2
          exact ⟨h3, h4⟩
        · obtain ⟨h1, -, h2⟩ := hbt.pointed hj (.inr (hmounts.trans hi))
          obtain ⟨-, h3, -, -, h5⟩ := hkeep i h1 h2
          refine ⟨h5 ?_, h3⟩
          -- no two are mounted on one inode
          rintro rfl
          obtain ⟨o, h6, h7, -⟩ := hmt.on
          rw [(mounts_used hi).2] at h6
          cases h6
          obtain ⟨o, h8, h9, -⟩ := hkm.on
          rw [hm] at h8
          cases h8
          exact hjk (ht.distinct j hj k hk hmt.used hu (h7.symm.trans h9))
  · have h1 := ho i (hused i hiu)
    have h2 := ho j (hused j hju)
    rw [h1] at hiu hd
    rw [h2] at hju hd
    exact ht.distinct i hi j hj hiu hju hd
  · obtain ⟨h1, h2, h3, -⟩ := hkeep i hi64 hne
    obtain ⟨l, hl, h4, h5, h6⟩ := ht.inode i hi64 (h1 ▸ hne)
    have hlk : l ≠ k := by
      rintro rfl
      obtain ⟨o, h7, h8, -⟩ := hkm.root
      rw [hr] at h7
      cases h7
      have hr64 := hb.range l hk r (.inl (roots_of hu hr))
      have := listSize_one hlist hi64 hr64 h4 h8
      exact hne (this ▸ hfree)
    refine ⟨l, hl, h2.trans h4, ?_, ?_⟩
    · rw [ho l hlk]
      exact h5
    · rw [ho l hlk, h3]
      exact h6
  · rw [ho 0 (Ne.symm hk0)]
    exact ht.zero

/-! ## `sys_umount` -/

theorem leave_spec {o : Option Nat} (ret : Int) (hs : Rest s) (hu : Under w s u) (hb : Books (o.toList ++ []) [] u) (ho : ∀ i, o = some i → i < INODE_NR) :
    ∃ t, leave u o none ret = .ok (ret, t) ∧ Restored w s t ∧ t.supers = s.supers := by
  obtain ⟨v, t, h1, h2, h3⟩ := hu.restored (p := none) hs hb ho fun _ h => nomatch h
  have hvt : v = t := Except.ok.inj h2
  refine ⟨t, ?_, h3⟩
  unfold leave
  rw [h1, hvt]
  rfl

def InUse (s : State) (target : Path) (dev : Nat) : Prop :=
  match getSuper s dev, target.found with
  | some k, some x =>
    match (s.supers k).iroot with
    | some r => busy (target.walk s) k r x.slot = .ok true
    | none => False
  | _, _ => False

theorem New.leave {x : Super} {v : State} (ret : Int) (hs : Rest s) (hu : Under w s u) (hn : New u [i] [] dev k x v y r b) (hi : i < INODE_NR)
    (hk : k < SUPER_NR) (hidle : Idle (u.supers k)) (hx : x.count = 1) (hm : x.imount = none) :
    ∃ t, Mount.leave (v.setSuper k y) (some i) (some k) ret = .ok (ret, t) ∧ Restored w s t := by
  obtain ⟨t1, hput1, ho1, hfr1, hb1⟩ := iput_apart (hn.books.perm (List.Perm.swap i r [])) hi
  have hdue : Books (y.iroot.toList ++ []) (y.buf.toList ++ []) t1 := by
    rw [hn.iroot, hn.buf]
    exact hb1
  obtain ⟨t2, hput2, hb2, hf2, hfr2⟩ := putSuper_last (k := k) (hn.count.trans hx) (hn.imount.trans hm) hdue fun l hl => by
      rw [hn.iroot] at hl
      cases hl
      exact hn.slot
  have hsup : t2.supers = s.supers := by rw [hf2.supers, ho1.supers, hn.frame.supers, hu.supers]
  have hb3 : Books [] [] (t2.setSuper k y.idle) := hb2.idle hk (by rw [hsup, ← hu.supers]; exact hidle.type) rfl
  refine ⟨t2.setSuper k y.idle, ?_, .of hs hb3 ⟨?_, fun j hj => ?_, ?_⟩ fun hti => ?_⟩
  · unfold Mount.leave
    rw [hput1]
    dsimp only [bind, Except.bind]
    rw [hput2]
  · exact hf2.held.trans (ho1.held.trans (hn.frame.held.trans hu.held))
  · by_cases hjk : j = k
    · subst hjk
      rw [setSuper_same]
      exact .inr ⟨hu.supers ▸ hidle, rfl, rfl, hn.imount.trans hm⟩
    · rw [setSuper_other _ _ hjk, hsup]
      exact .inl rfl
  · exact (hu.grows.trans hn.grows).frees (Frees.trans hfr1 hfr2)
  · exact hf2.heldBufs.trans (ho1.heldBufs.trans (hn.frame.heldBufs.trans (hu.heldBufs hti)))

theorem sysUmount_spec {target : Path} (hs : Rest s) (hp : target.Ok s) (hw : w → target.leaks = [])
    (hv : ∀ d ∈ reads s (.umount target), (s.disk d).Valid)
    (hfit : ∀ d ∈ reads s (.umount target), getSuper s d ≠ none ∨ (s.disk d).Known) :
    Sat Bad (sysUmount s target) fun p => (p.1 < 0 ∧ Restored w s p.2 ∧
        (p.2.supers = s.supers ∨ ∃ d, reads s (.umount target) = some d ∧ getSuper s d = none)) ∨
      (p.1 = 0 ∧ ∃ d k m, reads s (.umount target) = some d ∧ ¬ InUse s target d ∧ Detached w s p.2 d k m) := by
  obtain ⟨hb1, -, -, ht⟩ := Path.walk_spec hs.books hs.table hp
  have hu : Under w s (target.walk s) := Path.under hs.books hs.table hp hw
  have hback : ∀ {o : Option Nat} {ret : Int}, ret < 0 → Books (o.toList ++ []) [] (target.walk s) → (∀ i, o = some i → i < INODE_NR) →
      Sat Bad (Mount.leave (target.walk s) o none ret) fun p => (p.1 < 0 ∧ Restored w s p.2 ∧
        (p.2.supers = s.supers ∨ ∃ d, reads s (.umount target) = some d ∧ getSuper s d = none)) ∨
      (p.1 = 0 ∧ ∃ d k m, reads s (.umount target) = some d ∧ ¬ InUse s target d ∧ Detached w s p.2 d k m) := by
    intro o ret hret hb ho
    obtain ⟨t, he, h1, h2⟩ := leave_spec ret hs hu hb ho
    rw [he]
    exact .inl ⟨hret, h1, .inl h2⟩
  unfold sysUmount
  cases hx : target.found with
  | none =>
    rw [Path.slots_none hx] at hb1
    exact hback (by decide) hb1 fun _ h => nomatch h
  | some x =>
    dsimp only
    have hslots : target.slots = [x.slot] := Path.slots_some hx
    have hx64 : x.slot < INODE_NR := Path.slots_lt hp (by rw [hslots]; exact mem_singleton_self _)
    have hxr : ∀ i, some x.slot = some i → i < INODE_NR := fun i h => some.inj h ▸ hx64
    rw [hslots] at hb1
    have hwalk : (target.walk s).supers = s.supers := hu.supers
    generalize hwu : target.walk s = u at hb1 ht hu hback hwalk ⊢
    have hxu := (hb1.due hx64).2
    obtain ⟨j, -, -, -, -, hroot⟩ := isRoot_spec ht hx64 hxu
    have hmay : ∃ f, mayUmount u x.slot = .ok f := by
      unfold mayUmount
      split
      · exact ⟨true, rfl⟩
      · exact ⟨_, hroot⟩
    obtain ⟨f, hf⟩ := hmay
    rw [hf]
    refine sat_ite (fun _ => hback (by decide) hb1 hxr) fun hnf => ?_
    refine sat_ite (fun _ => hback (by decide) hb1 hxr) fun h0 => ?_
    have hreads : reads s (.umount target) = some (umountDev u x.slot) := by
      unfold reads
      dsimp only
      rw [hx]
      dsimp only
      rw [hwu, hf, eq_true_of_ne_false hnf, if_neg (fun h => h rfl), if_neg h0]
    generalize hdev : umountDev u x.slot = dev at hreads ⊢
    have hget : getSuper u dev = getSuper s dev := by
      unfold getSuper
      rw [hwalk]
    have hfitu : getSuper u dev ≠ none ∨ (u.disk dev).Known := by
      rw [hget, hu.disk]
      exact hfit dev hreads
    have hvu : (u.disk dev).Valid := hu.disk ▸ hv dev hreads
    refine (readSuper_spec hb1 ht hvu (hfitu.imp_right .inl)).bind fun p _ hread => ?_
    cases hread with
    | unknown hg hk => exact absurd hfitu (not_or.2 ⟨fun h => h hg, hk⟩)
    | new k v y r b hg hk hf hn =>
      have hidle := ht.idle hk hf
      dsimp only
      rw [setSuper_same, hn.imount, hidle.imount]
      obtain ⟨t, he, hres⟩ := hn.leave (-ENOENT) hs hu hx64 hk hidle (congrArg (· + 1) hidle.count) hidle.imount
      rw [he]
      exact .inl ⟨(by decide : -ENOENT < 0), hres, .inr ⟨dev, hreads, hget ▸ hg⟩⟩
    | known k hg =>
      obtain ⟨hk, hku, -⟩ := getSuper_some hg
      have hmt := ht.mounted hk hku
      obtain ⟨m, hm, -⟩ := hmt.on
      obtain ⟨r, hr, -⟩ := hmt.root
      generalize hy : ({ u.supers k with count := (u.supers k).count + 1 } : Super) = y
      have hym : y.imount = some m := by rw [← hy]; exact hm
      have hyr : y.iroot = some r := by rw [← hy]; exact hr
      have hyc : y.count = 1 + 1 := by rw [← hy]; exact congrArg (· + 1) hmt.count
      dsimp only
      rw [setSuper_same, hym]
      rw [hyr]
      dsimp only
      rw [busy_over (by rw [← hy])]
      have hbusy : ∃ f, busy u k r x.slot = .ok f := by
        unfold busy
        split
        · exact ⟨true, rfl⟩
        · split
          · rw [hroot]
            exact ⟨_, rfl⟩
          · exact ⟨_, rfl⟩
      obtain ⟨g, hg'⟩ := hbusy
      rw [hg']
      have hiuse : InUse s target dev ↔ g = true := by
        unfold InUse
        rw [← hget, hg, hx]
        dsimp only
        rw [← hwalk, hr]
        dsimp only
        rw [hwu, hg', Except.ok.injEq]
      refine sat_ite (fun _ => ?_) fun hgf => ?_
      · obtain ⟨t, hput, ho, hfr, hbt⟩ := iput_apart hb1 hx64
        have hts : t.supers = s.supers := ho.supers.trans hwalk
        unfold Mount.leave
        rw [hput]
        dsimp only [bind, Except.bind]
        have hself : t.supers k = { y with count := 1 } := by
          rw [ho.supers, ← hy]
          exact congrArg (fun c => { u.supers k with count := c }) hmt.count
        rw [putSuper_more hyc (by decide), setSuper_eq hself]
        refine .inl ⟨(by decide : -EBUSY < 0), .of hs hbt ⟨ho.held.trans hu.held, fun j _ => .inl (congrFun hts j), hu.grows.frees hfr⟩ ?_, .inl hts⟩
        exact fun hti => ho.heldBufs.trans (hu.heldBufs hti)
      · obtain rfl : g = false := eq_false_of_ne_true hgf
        obtain ⟨hk0, hheld, hrefs, hlist⟩ := busy_no hb1 ht hx64 hxu (hdev ▸ hg) hr hg'
        obtain ⟨t, he, hbt, hothers, hidle, hth, hthb, hfr⟩ := detach_moves hb1 hx64 hk hk0 hmt hr hm
        have he' : detach (u.setSuper k y) k r m x.slot = .ok (0, t) := by
          rw [← hy]
          exact he
        rw [he']
        have hfree := root_released hb1 hbt hk hku hr hheld hrefs hothers hidle hth
        have htab := detached_table hb1 ht hbt hk hk0 hku hr hm hlist hfree hothers hidle hfr
        refine .inr ⟨rfl, dev, k, m, hreads, fun h => hgf (hiuse.1 h), ⟨hbt, htab⟩, hk, hget ▸ hg, hwalk ▸ hm, hidle, fun j hj => ?_, hth.trans hu.held,
          fun hti => hthb.trans (hu.heldBufs hti), fun i hi hne him => ?_⟩
        · rw [hothers j hj, hwalk]
        · have hui := hu.grows i hi hne
          rcases hfr i hi with h | h
          · exact .inl h
          · rw [setInode_other _ _ him] at h
            exact .inr (hui.trans h)

end Onix.Mount
