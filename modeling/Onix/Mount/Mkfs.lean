/-
What `sys_mkfs` does to the table and to the books, also on a device that is mounted.
-/
import Onix.Mount.Umount

namespace Onix.Mount

open Onix.Lib

variable {s t u : State} {ds : List Nat} {bs : List Buf} {i j k n r m dev : Nat} {b : Buf} {y : Super} {w : Prop} {ret : Int}

theorem Books.untype (h : Books ds bs s) (hi : i < INODE_NR) :
    Books ds bs (s.setInode i { s.inodes i with kind := .other }) ∧ Grows s (s.setInode i { s.inodes i with kind := .other }) := by
  have hs := h.inode i hi
  refine ⟨h.setInode hi (h.count i hi) (fun _ _ => rfl) (fun _ => rfl) ⟨hs.free, hs.clean, hs.used⟩ (h.marked i hi), ?_⟩
  refine (OneSlot.setInode s i _).grows fun _ => ?_
  rw [setInode_same]
  exact ⟨rfl, rfl, rfl, rfl, rfl, fun _ h => nomatch h⟩

theorem minixMkfs_spec (h : Books ds [] u) (ht : Table u) : Sat (fun _ => False) (minixMkfs u dev n) fun p => p.1 = 0 ∧ Books ds [] p.2 ∧
    (∀ j < SUPER_NR, p.2.supers j = u.supers j ∨ Idle (u.supers j) ∧ Idle (p.2.supers j)) ∧ p.2.held = u.held ∧ p.2.heldBufs = u.heldBufs ∧
    Moves u p.2 := by
  unfold minixMkfs
  dsimp only
  by_cases h1 : u.blocks dev ≠ 0
  · rw [assert_ok h1]
    dsimp only [bind, Except.bind]
    by_cases h2 : n < u.blocks dev
    · rw [assert_ok h2]
      rcases getFreeSuper_spec ht with he | ⟨k, hk, -, hf, he⟩
      · rw [he]
        exact Sat.error id
      · rw [he]
        dsimp only
        have hidle := ht.idle hk hf
        generalize Minix.geometry (u.blocks dev) (if n = 0 then u.blocks dev / 3 else n) = desc
        by_cases hu : u.disk dev = .unreadable
        · rw [bread_unreadable (show (u.setSuper k _).disk (minixBlock dev).dev = _ from hu)]
          exact Sat.error id
        · rw [bread_readable (show (u.setSuper k _).disk (minixBlock dev).dev ≠ _ from hu)]
          dsimp only
          generalize hx : ({ u.supers k with type := .minix, dev := dev, count := (u.supers k).count + 1 } : Super) = x
          have hxk : ((u.setSuper k x).getBuf (minixBlock dev)).supers k = x := setSuper_same ..
          rw [hxk]
          generalize hy : ({ x with buf := some (minixBlock dev), desc := desc } : Super) = y
          generalize hbase : ({ u.getBuf (minixBlock dev) with disk := Function.update u.disk dev (.minix desc desc.firstdatazone) } : State) = base
          have hover : ({ ((u.setSuper k x).getBuf (minixBlock dev)).setSuper k y with
              disk := Function.update (((u.setSuper k x).getBuf (minixBlock dev)).setSuper k y).disk dev (.minix desc desc.firstdatazone) } : State) =
              base.setSuper k y := by
            rw [← hbase]
            have hss := setSuper_setSuper (u.getBuf (minixBlock dev)) k x y
            exact congrArg (fun s : State => { s with disk := Function.update u.disk dev (.minix desc desc.firstdatazone) }) hss
          rw [hover]
          have hg := h.getBuf (minixBlock dev)
          have hb : Books ds [minixBlock dev] base := by
            rw [← hbase]
            exact ⟨hg.count, hg.bufs, hg.inode, hg.range, hg.marked, hg.root⟩
          have hsame : base.supers = u.supers ∧ base.inodes = u.inodes := by
            rw [← hbase]
            exact ⟨rfl, rfl⟩
          have htb : Table base := ht.inodes h hsame.1 (fun i _ _ => by rw [hsame.2]; exact .refl _) fun i _ _ => .inl (by rw [hsame.2]; exact .refl _)
          have hyt : y.type ≠ .none := by
            rw [← hy, ← hx]
            exact fun h => nomatch h
          have hyd : y.dev = dev := by rw [← hy, ← hx]
          have hi := iget_over hb htb hk (by rw [hsame.1]; exact hf) hyt
          rw [hyd] at hi
          refine hi.bind fun p _ hp => ?_
          obtain ⟨v, h3, h4, h5, h6, h7⟩ := hp
          rw [h3]
          obtain ⟨h8, h9⟩ := h5.untype h4
          generalize hv : v.setInode p.1 { v.inodes p.1 with kind := .other } = v' at h8 h9
          have hv' : (v.setSuper k y).setInode p.1 { (v.setSuper k y).inodes p.1 with kind := .other } = v'.setSuper k y := by
            rw [← hv]
            rfl
          rw [hv', setSuper_same, setSuper_setSuper]
          have hyc : y.count = 1 := by
            rw [← hy, ← hx]
            exact congrArg (· + 1) hidle.count
          have hym : y.imount = none := by
            rw [← hy, ← hx]
            exact hidle.imount
          have hyb : y.buf = some (minixBlock dev) := by rw [← hy]
          have hdue : Books (({ y with iroot := some p.1 } : Super).iroot.toList ++ ds) (({ y with iroot := some p.1 } : Super).buf.toList ++ []) v' := by
            rw [hyb]
            exact h8
          obtain ⟨w, h10, h11, h12, h13⟩ := putSuper_last (y := { y with iroot := some p.1 }) (k := k) hyc hym hdue fun r hr => by
              cases hr
              exact h4
          rw [h10]
          have hsup : w.supers = u.supers := by rw [h12.supers, ← hv, setInode_supers, h6.supers, hsame.1]
          refine ⟨rfl, h11.idle hk (by rw [hsup]; exact hf) rfl, fun j hj => ?_, ?_, ?_, ?_⟩
          · by_cases hjk : j = k
            · subst hjk
              rw [setSuper_same]
              exact .inr ⟨hidle, rfl, rfl, hym⟩
            · dsimp only
              rw [setSuper_other _ _ hjk, hsup]
              exact .inl rfl
          · have hh : w.held = v'.held := h12.held
            rw [← hv] at hh
            refine hh.trans (h6.held.trans ?_)
            rw [← hbase]
            rfl
          · have hh : w.heldBufs = v'.heldBufs := h12.heldBufs
            rw [← hv] at hh
            refine hh.trans (h6.heldBufs.trans ?_)
            rw [← hbase]
            rfl
          · have hub : Grows u base := fun i _ _ => by
              rw [hsame.2]
              exact .refl _
            exact (hub.trans (h7.trans h9)).frees h13
    · rw [assert_error h2]
      exact Sat.error id
  · rw [assert_error h1]
    exact Sat.error id

def Formats (s : State) (path : Path) : Prop :=
  match path.found with
  | none => False
  | some x => ((path.walk s).inodes x.slot).kind = .block ∧ ((path.walk s).inodes x.slot).op = some .minix

theorem sysMkfs_spec {path : Path} (hs : Rest s) (hp : path.Ok s) (hw : w → path.leaks = []) :
    Sat (fun _ => False) (sysMkfs s path n) fun p => Restored w s p.2 ∧ (¬ Formats s path → p.2.supers = s.supers) := by
  obtain ⟨hb1, -, -, ht⟩ := Path.walk_spec hs.books hs.table hp
  have hu : Under w s (path.walk s) := Path.under hs.books hs.table hp hw
  unfold sysMkfs Formats
  cases hx : path.found with
  | none =>
    rw [Path.slots_none hx] at hb1
    exact ⟨.of hs hb1 ⟨hu.held, fun k _ => .inl (congrFun hu.supers k), hu.grows.frees (.refl _)⟩ hu.heldBufs, fun _ => hu.supers⟩
  | some x =>
    have hslots : path.slots = [x.slot] := Path.slots_some hx
    have hx64 : x.slot < INODE_NR := Path.slots_lt hp (by rw [hslots]; exact List.mem_singleton_self _)
    rw [hslots] at hb1
    generalize path.walk s = u at hb1 ht hu ⊢
    -- the reference of the path is given back at the end
    have hend : ∀ {v : State}, Books [x.slot] [] v → (∀ j < SUPER_NR, v.supers j = s.supers j ∨ Idle (s.supers j) ∧ Idle (v.supers j)) →
        v.held = s.held → (w → v.heldBufs = s.heldBufs) → Moves s v → ∃ t, iput v (some x.slot) = .ok t ∧ Restored w s t ∧ t.supers = v.supers := by
      intro v hb hsup hheld hhb hm
      obtain ⟨t, he, ho, hfr, hbt⟩ := iput_spec hb hx64
      refine ⟨t, he, .of hs hbt ⟨ho.held.trans hheld, fun j hj => ?_, hm.frees hfr⟩ fun hti => ho.heldBufs.trans (hhb hti), ho.supers⟩
      rw [ho.supers]
      exact hsup j hj
    have hplain := hend hb1 (fun j _ => .inl (congrFun hu.supers j)) hu.held hu.heldBufs (hu.grows.frees (.refl _))
    refine sat_ite (fun _ => ?_) fun hblock => ?_
    · obtain ⟨t, he, hr, hsup⟩ := hplain
      rw [he]
      exact ⟨hr, fun _ => hsup.trans hu.supers⟩
    · by_cases hrdev : (u.inodes x.slot).rdev ≠ 0
      · rw [assert_ok hrdev]
        dsimp only [bind, Except.bind]
        obtain ⟨hop, -⟩ := (hb1.inode _ hx64).used (hb1.due hx64).2
        cases hty : (u.inodes x.slot).type with
        | none => exact absurd hty (hb1.due hx64).2
        | iso9660 =>
          rw [hop, hty]
          obtain ⟨t, he, hr, hsup⟩ := hplain
          rw [he]
          exact ⟨hr, fun _ => hsup.trans hu.supers⟩
        | minix =>
          rw [hop, hty]
          refine (minixMkfs_spec hb1 ht).bind fun p _ hq => ?_
          obtain ⟨-, h1, h2, h3, h4, h5⟩ := hq
          obtain ⟨t, he, hr, -⟩ := hend h1 (by rw [← hu.supers]; exact h2) (h3.trans hu.held) (fun hti => h4.trans (hu.heldBufs hti)) fun i hi hne => by
            have hui := hu.grows i hi hne
            refine (h5 i hi (by rw [hui.type]; exact hne)).imp_right fun h => hui.trans h
          rw [he]
          exact ⟨hr, fun hn => absurd ⟨not_not.1 hblock, rfl⟩ hn⟩
      · rw [assert_error hrdev]
        exact Sat.error id

end Onix.Mount
