/-
The operations of a MINIX directory keep the ledger, wherever they end: first what they are made of, from the bitmaps to the search for
an entry, which takes a reference to one buffer; then each operation with the label it ends at.
-/
import Onix.Namei.Inodes

namespace Onix.Namei

open Onix.Lib

variable {B : Base} {refs : List Ino} {held : List Buf} {s : State} {dir inode : Ino} {name : List Char} {dev : Int} {create : Bool}

/-! ## Bitmaps -/

theorem ofBitmap_leads {α β : Type} {r : Except BitmapFault α} {f : α → Prog β} {Q : β → State → Prop} (h : ∀ a, Leads (f a) s Q) :
    Leads (ofBitmap r >>= f) s Q := by
  rcases r with e | a
  · cases e
    · exact Leads.bind (R := fun _ _ => False) Leads.fail fun _ _ => False.elim
    · exact Leads.bind (R := fun _ _ => False) Leads.fail fun _ _ => False.elim
  · exact Leads.bind (R := fun b t => b = a ∧ t = s) (Leads.pure ⟨rfl, rfl⟩) fun _ _ ⟨ha, ht⟩ => ha ▸ ht ▸ h a

theorem allocLoop_leads (a : Minix.Area) (n : Nat) : ∀ (i : Nat) (old : Option Buf) (s : State), Ledger B refs (old.toList ++ held) s →
    Leads (allocLoop dev a n i old) s fun r t => Ledger B refs (r.2.toList ++ held) t := by
  induction n with
  | zero => exact fun _ _ _ h => Leads.pure h
  | succ n ih =>
    intro i old s h
    refine (lose_leads h).bind fun _ t ht => breadSure_leads ht fun b u hu => Leads.get (ofBitmap_leads fun r => ?_)
    split
    · exact ih (i + 1) (some b) u hu
    · refine Leads.ensure fun _ => Leads.bind (R := fun _ => Ledger B refs (b :: held)) (Leads.set (hu.setData _ _)) fun _ v hv => ?_
      exact Leads.pure hv

theorem freeLoop_leads (a : Minix.Area) (idx n : Nat) : ∀ (i : Nat) (s : State), Ledger B refs held s →
    Leads (freeLoop dev a idx n i) s fun b t => Ledger B refs (b :: held) t := by
  induction n with
  | zero => exact fun _ _ _ => Leads.fail
  | succ n ih =>
    intro i s h
    refine Leads.ite (fun _ => ih (i + 1) s h) fun _ => breadSure_leads h fun b t ht => Leads.get (ofBitmap_leads fun taken => ?_)
    refine Leads.ensure fun _ => ofBitmap_leads fun map => ?_
    exact Leads.bind (R := fun _ => Ledger B refs (b :: held)) (Leads.set (ht.setData _ _)) fun _ u hu => Leads.pure hu

theorem alloc_leads (h : Ledger B refs held s) (super : Option SuperId) (area : Minix.Desc → Minix.Area) :
    Leads (alloc super area) s fun _ => Ledger B refs held := by
  refine Leads.get (Leads.demand fun k _ => Leads.demand fun desc _ => ?_)
  exact (allocLoop_leads _ _ 0 none s h).bind fun r t ht => (brelse_leads ht).bind fun _ u hu => Leads.pure hu

theorem free_leads (h : Ledger B refs held s) (super : Option SuperId) (area : Minix.Desc → Minix.Area) (idx : Nat) :
    Leads (free super area idx) s fun _ => Ledger B refs held := by
  refine Leads.get (Leads.demand fun k _ => Leads.demand fun desc _ => Leads.ensure fun _ => ?_)
  exact (freeLoop_leads _ _ _ 0 s h).bind fun b t ht => brelse_leads (b := some b) ht

/-! ## The blocks of a file -/

theorem fillIndex_leads (h : Ledger B refs held s) (array : Ptr) (index : Nat) :
    Leads (fillIndex inode create array index) s fun _ => Ledger B refs held := by
  refine Leads.get (Leads.onlyIf (fun _ => ?_) fun _ => h)
  exact (alloc_leads h _ _).bind fun nr t ht => put16_leads ht _ _ _

theorem reckon_leads (level : Nat) : ∀ (block divider : Nat) (array : Ptr) (index : Nat) (buf : Buf) (s : State),
    Ledger B refs (buf :: held) s → Leads (reckon inode create level block divider array index buf) s fun _ => Ledger B refs held := by
  induction level with
  | zero =>
    intro block divider array index buf s h
    refine (fillIndex_leads h array index).bind fun _ t ht => ?_
    exact (brelse_leads (b := some buf) ht).bind fun _ u hu => Leads.get (Leads.pure hu)
  | succ level ih =>
    intro block divider array index buf s h
    refine (fillIndex_leads h array index).bind fun _ t ht => (brelse_leads (b := some buf) ht).bind fun _ u hu => ?_
    exact Leads.get (Leads.ite (fun _ => Leads.pure hu) fun _ => breadSure_leads hu fun b v hv => ih _ _ _ _ b v hv)

theorem minixBmap_leads (h : Ledger B refs held s) (block : Nat) : Leads (minixBmap inode block create) s fun _ => Ledger B refs held := by
  refine Leads.ensure fun _ => Leads.get (Leads.demand fun minode _ => Leads.demand fun buf _ => (getBuf_leads h buf).bind fun _ t ht => ?_)
  refine Leads.ite (fun _ => reckon_leads 0 _ _ _ _ buf t ht) fun _ => ?_
  refine Leads.ite (fun _ => reckon_leads 1 _ _ _ _ buf t ht) fun _ => ?_
  exact Leads.ensure fun _ => reckon_leads 2 _ _ _ _ buf t ht

theorem inodeBfree_leads (level : Nat) : ∀ (held : List Buf) (p : Ptr) (s : State), Ledger B refs held s →
    Leads (inodeBfree inode level p) s fun _ => Ledger B refs held := by
  induction level with
  | zero => exact fun _ _ _ h => Leads.get (Leads.ite (fun _ => Leads.pure h) fun _ => free_leads h _ _ _)
  | succ level ih =>
    intro held p s h
    refine Leads.get (Leads.ite (fun _ => Leads.pure h) fun _ => breadSure_leads h fun b t ht => ?_)
    refine (Leads.repeatUpto (fun i u hu => ih (b :: held) _ u hu) ht _).bind fun _ u hu => ?_
    exact (brelse_leads (b := some b) hu).bind fun _ v hv => Leads.get (free_leads hv _ _ _)

theorem dropZone_leads (h : Ledger B refs held s) (minode : Ptr) (index level : Nat) :
    Leads (dropZone inode minode index level) s fun _ => Ledger B refs held :=
  (inodeBfree_leads level held _ s h).bind fun _ _ ht => put16_leads ht _ _ _

theorem minixTruncate_leads (h : Ledger B refs held s) : Leads (minixTruncate inode) s fun _ => Ledger B refs held := by
  refine Leads.get (Leads.demand fun minode _ => Leads.ite (fun _ => Leads.pure h) fun _ => ?_)
  refine (Leads.repeatUpto (fun i u hu => dropZone_leads hu minode i 0) h _).bind fun _ t ht => ?_
  refine (dropZone_leads ht _ _ _).bind fun _ u hu => (dropZone_leads hu _ _ _).bind fun _ v hv => ?_
  exact (put32_leads hv _ _ _).bind fun _ w hw => Leads.get (Leads.demand fun _ _ => Leads.pure hw)

/-! ## Permissions -/

theorem minixPermission_leads (h : Ledger B refs held s) (mask : Nat) : Leads (minixPermission inode mask) s fun _ => Ledger B refs held := by
  refine Leads.get (Leads.demand fun minode _ => Leads.ite (fun _ => Leads.pure h) fun _ => ?_)
  exact Leads.ite (fun _ => Leads.pure h) fun _ => Leads.pure h

theorem opPermission_leads (h : Ledger B refs held s) (mask : Nat) : Leads (opPermission dir inode mask) s fun _ => Ledger B refs held := by
  refine Leads.get (Leads.demand fun op _ => ?_)
  cases op with
  | minix => exact minixPermission_leads h mask
  | iso9660 => exact Leads.pure h
  | none => exact Leads.fail
  | pipe => exact Leads.fail
  | socket => exact Leads.fail

/-! ## Directory entries -/

theorem turn_leads (h : Ledger B refs held s) (i : Nat) : Leads (seek.turn dir create i) s fun p t => Ledger B refs (p.buf :: held) t := by
  refine (minixBmap_leads h _).bind fun block t ht => Leads.ensure fun _ => Leads.get ?_
  exact breadSure_leads ht fun b u hu => Leads.pure hu

theorem seek_leads (i : Nat) (entry : Option Ptr) (h : Ledger B refs ((entry.map Ptr.buf).toList ++ held) s) :
    Leads (seek dir create i entry) s fun p t => Ledger B refs (p.buf :: held) t := by
  cases entry with
  | none => exact turn_leads h i
  | some p =>
    refine Leads.ite (fun _ => Leads.pure h) fun _ => ?_
    exact (brelse_leads (b := some p.buf) h).bind fun _ t ht => turn_leads ht i

theorem findLoop_leads (n : Nat) : ∀ (i : Nat) (entry : Option Ptr) (s : State), Ledger B refs ((entry.map Ptr.buf).toList ++ held) s →
    Leads (findLoop dir name n i entry) s fun r t => Ledger B refs ((r.map fun x => x.entry.buf).toList ++ held) t := by
  induction n with
  | zero => exact fun _ _ s h => (brelse_leads h).bind fun _ t ht => Leads.pure ht
  | succ n ih =>
    intro i entry s h
    refine (seek_leads i entry h).bind fun p t ht => Leads.get ?_
    split
    · exact Leads.pure ht
    · exact ih (i + 1) (some p.next) t ht

theorem findEntry_leads (h : Ledger B refs held s) :
    Leads (findEntry dir name) s fun r t => Ledger B refs ((r.map fun x => x.entry.buf).toList ++ held) t :=
  Leads.get (Leads.demand fun _ _ => Leads.ensure fun _ => findLoop_leads _ 0 none s h)

theorem addLoop_leads (minode : Ptr) (n : Nat) : ∀ (i : Nat) (entry : Option Ptr) (s : State),
    Ledger B refs ((entry.map Ptr.buf).toList ++ held) s →
    Leads (addLoop dir minode name n i entry) s fun p t => Ledger B refs (p.buf :: held) t := by
  induction n with
  | zero => exact fun _ _ _ _ => Leads.fail
  | succ n ih =>
    intro i entry s h
    refine (seek_leads i entry h).bind fun p t ht => Leads.get ?_
    refine Leads.bind (R := fun _ => Ledger B refs (p.buf :: held)) (Leads.onlyIf (fun _ => ?_) fun _ => ht) fun _ u hu => ?_
    · refine (put16_leads ht _ _ _).bind fun _ u hu => (put32_leads hu _ _ _).bind fun _ v hv => ?_
      exact Leads.demand fun _ _ => Leads.pure hv
    · refine Leads.get (Leads.ite (fun _ => ih (i + 1) (some p.next) u hu) fun _ => ?_)
      exact (put_leads hu _ _ _).bind fun _ v hv => Leads.demand fun _ _ => Leads.pure hv

theorem addEntry_leads (h : Ledger B refs held s) : Leads (addEntry dir name) s fun p t => Ledger B refs (p.buf :: held) t := by
  refine (findEntry_leads h).bind fun r t ht => ?_
  cases r with
  | some found => exact Leads.pure ht
  | none =>
    exact Leads.ensure fun _ => Leads.get (Leads.demand fun minode _ => addLoop_leads minode _ 0 none t ht)

theorem countLoop_leads (n : Nat) : ∀ (i : Nat) (entry : Option Ptr) (count : Nat) (s : State),
    Ledger B refs ((entry.map Ptr.buf).toList ++ held) s → Leads (countLoop inode n i entry count) s fun _ => Ledger B refs held := by
  induction n with
  | zero => exact fun _ _ _ s h => (brelse_leads h).bind fun _ t ht => Leads.pure ht
  | succ n ih =>
    intro i entry count s h
    exact (seek_leads i entry h).bind fun p t ht => Leads.get (ih (i + 1) (some p.next) _ t ht)

theorem isEmpty_leads (h : Ledger B refs held s) : Leads (isEmpty inode) s fun _ => Ledger B refs held := by
  refine Leads.get (Leads.demand fun minode _ => Leads.ensure fun _ => Leads.ite (fun _ => Leads.pure h) fun _ => ?_)
  exact (countLoop_leads _ 0 none 0 s h).bind fun _ t ht => Leads.pure ht

/-! ## The operations -/

theorem openInode_leads (h : Ledger B refs held s) (flags : Nat) : Leads (openInode dir inode flags) s fun _ => Ledger B refs held := by
  refine (opPermission_leads h _).bind fun ok t ht => Leads.ite (fun _ => Leads.pure ht) fun _ => ?_
  refine Leads.get (Leads.ite (fun _ => Leads.pure ht) fun _ => Leads.ite (fun _ => Leads.demand fun op _ => ?_) fun _ => Leads.pure ht)
  cases op with
  | minix => exact (minixTruncate_leads ht).bind fun _ u hu => Leads.pure hu
  | iso9660 => exact Leads.pure ht
  | none => exact Leads.fail
  | pipe => exact Leads.fail
  | socket => exact Leads.fail

theorem openDone_leads {buf : Buf} (h : Ledger B (inode :: refs) (buf :: held) s) (r : Except Int Unit) :
    Leads (openDone buf inode r) s fun x t => Ledger B (x.2.toList ++ refs) held t ∧ (x.1 < 0 → x.2 = none) := by
  refine (brelse_leads (b := some buf) h).bind fun _ t ht => ?_
  cases r with
  | ok _ => exact Leads.pure ⟨ht, fun hneg => absurd hneg (Int.lt_irrefl 0)⟩
  | error ret => exact (iput_leads (x := some inode) ht).bind fun _ u hu => Leads.pure ⟨hu, fun _ => rfl⟩

theorem minixOpen_leads (hB : B.Rooted) (h : Ledger B refs held s) (flags mode : Nat) :
    Leads (minixOpen dir name flags mode) s fun x t => Ledger B (x.2.toList ++ refs) held t ∧ (x.1 < 0 → x.2 = none) := by
  refine (findEntry_leads h).bind fun r t ht => ?_
  cases r with
  | some found =>
    refine Leads.get ((iget_leads hB ht).bind fun inode u hu => (openInode_leads hu _).bind fun r v hv => ?_)
    exact openDone_leads hv r
  | none =>
    refine Leads.ite (fun _ => Leads.pure ⟨ht, fun _ => rfl⟩) fun _ => (opPermission_leads ht _).bind fun ok u hu => ?_
    refine Leads.ite (fun _ => Leads.pure ⟨hu, fun _ => rfl⟩) fun _ => ?_
    refine (addEntry_leads hu).bind fun entry v hv => Leads.get ((alloc_leads hv _ _).bind fun nr w hw => ?_)
    refine (put16_leads hw _ _ _).bind fun _ x hx => Leads.get ((newInode_leads hB hx).bind fun inode y hy => ?_)
    refine Leads.get (Leads.demand fun minode _ => ?_)
    refine Leads.bind (setInode_leads hy (fun _ => ⟨rfl, rfl, rfl⟩) fun _ => rfl) fun _ z hz => ?_
    refine (put16_leads hz _ _ _).bind fun _ s' h' => (openInode_leads h' _).bind fun r t' ht' => ?_
    exact openDone_leads ht' r

theorem minixNamei_leads (hB : B.Rooted) (h : Ledger B refs held s) :
    Leads (minixNamei dir name) s fun x t => Ledger B ((x.map Prod.fst).toList ++ refs) held t := by
  refine (findEntry_leads h).bind fun r t ht => ?_
  cases r with
  | none => exact Leads.pure ht
  | some found =>
    refine Leads.get ((iget_leads hB ht).bind fun inode u hu => ?_)
    exact (brelse_leads (b := some found.entry.buf) hu).bind fun _ v hv => Leads.pure hv

theorem minixMkdir_leads (hB : B.Rooted) (h : Ledger B refs held s) (mode : Nat) :
    Leads (minixMkdir dir name mode) s fun _ => Ledger B refs held := by
  refine Leads.get (Leads.demand fun dminode _ => Leads.ensure fun _ => (minixPermission_leads h _).bind fun ok t ht => ?_)
  refine Leads.ite (fun _ => Leads.pure ht) fun _ => (findEntry_leads ht).bind fun r u hu => ?_
  cases r with
  | some found => exact (brelse_leads (b := some found.entry.buf) hu).bind fun _ v hv => Leads.pure hv
  | none =>
    refine (addEntry_leads hu).bind fun entry v hv => Leads.get ((alloc_leads hv _ _).bind fun nr w hw => ?_)
    refine (put16_leads hw _ _ _).bind fun _ x hx => Leads.get ((newInode_leads hB hx).bind fun inode y hy => ?_)
    refine Leads.get (Leads.demand fun iminode _ => ?_)
    refine Leads.bind (setInode_leads hy (fun _ => ⟨rfl, rfl, rfl⟩) fun _ => rfl) fun _ z hz => ?_
    refine (put16_leads hz _ _ _).bind fun _ s1 h1 => (put32_leads h1 _ _ _).bind fun _ s2 h2 => (put8_leads h2 _ _ _).bind fun _ s3 h3 => ?_
    refine Leads.get (Leads.demand fun _ _ => (put8_leads h3 _ _ _).bind fun _ s4 h4 => (minixBmap_leads h4 _).bind fun idx s5 h5 => ?_)
    refine Leads.ensure fun _ => Leads.get (breadSure_leads h5 fun zbuf s6 h6 => ?_)
    refine (put_leads h6 _ _ _).bind fun _ s7 h7 => (put16_leads h7 _ _ _).bind fun _ s8 h8 => ?_
    refine (put_leads h8 _ _ _).bind fun _ s9 h9 => (put16_leads h9 _ _ _).bind fun _ s10 h10 => ?_
    refine (iput_leads (x := some inode) h10).bind fun _ s11 h11 => Leads.get (Leads.demand fun _ _ => ?_)
    refine (brelse_leads (b := some entry.buf) h11.swapHeld).bind fun _ s12 h12 => ?_
    exact (brelse_leads (b := some zbuf) h12).bind fun _ s13 h13 => Leads.pure h13

theorem rmdirInode_leads (h : Ledger B (inode :: refs) held s) (dminode entry : Ptr) :
    Leads (rmdirInode dir dminode entry inode) s fun _ => Ledger B (inode :: refs) held := by
  refine Leads.ite (fun _ => Leads.pure h) fun _ => Leads.get (Leads.demand fun iminode _ => ?_)
  refine Leads.ite (fun _ => Leads.pure h) fun _ => Leads.ite (fun _ => Leads.pure h) fun _ => Leads.ite (fun _ => Leads.pure h) fun hone => ?_
  have hB : B.count inode = 0 := by
    have hc := h.counts inode
    rw [List.count_cons_self] at hc
    omega
  refine (isEmpty_leads h).bind fun empty t ht => Leads.ite (fun _ => Leads.pure ht) fun _ => Leads.get (Leads.ensure fun _ => ?_)
  refine (minixTruncate_leads ht).bind fun ret u hu => Leads.ensure fun _ => Leads.get ((free_leads hu _ _ _).bind fun _ v hv => ?_)
  refine (put8_leads hv _ _ _).bind fun _ w hw => Leads.get (Leads.demand fun _ _ => ?_)
  refine Leads.bind (setInode_leads hw (fun _ => ⟨rfl, rfl, rfl⟩) fun hpos => absurd hB (Nat.ne_of_gt hpos)) fun _ x hx => ?_
  refine (put8_leads hx _ _ _).bind fun _ y hy => Leads.get (Leads.demand fun _ _ => Leads.ensure fun _ => ?_)
  exact (put16_leads hy _ _ _).bind fun _ z hz => Leads.pure hz

theorem minixRmdir_leads (hB : B.Rooted) (h : Ledger B refs held s) : Leads (minixRmdir dir name) s fun _ => Ledger B refs held := by
  refine Leads.get (Leads.demand fun dminode _ => Leads.ensure fun _ => (minixPermission_leads h _).bind fun ok t ht => ?_)
  refine Leads.ite (fun _ => Leads.pure ht) fun _ => (findEntry_leads ht).bind fun r u hu => ?_
  cases r with
  | none => exact Leads.pure hu
  | some found =>
    refine Leads.get ((iget_leads hB hu).bind fun inode v hv => (rmdirInode_leads hv _ _).bind fun ret w hw => ?_)
    refine (iput_leads (x := some inode) hw).bind fun _ x hx => ?_
    exact (brelse_leads (b := some found.entry.buf) hx).bind fun _ y hy => Leads.pure hy

theorem linkInode_leads (h : Ledger B refs held s) :
    Leads (linkInode inode dir name) s fun r t => Ledger B refs (r.2.toList ++ held) t := by
  refine Leads.get (Leads.demand fun minode _ => Leads.ite (fun _ => Leads.pure h) fun _ => Leads.demand fun nminode _ => ?_)
  refine Leads.ite (fun _ => Leads.pure h) fun _ => Leads.ite (fun _ => Leads.pure h) fun _ => ?_
  refine (minixPermission_leads h _).bind fun ok t ht => Leads.ite (fun _ => Leads.pure ht) fun _ => (findEntry_leads ht).bind fun r u hu => ?_
  cases r with
  | some found => exact Leads.pure hu
  | none =>
    refine (addEntry_leads hu).bind fun entry v hv => Leads.get ((put16_leads hv _ _ _).bind fun _ w hw => ?_)
    exact Leads.get ((put8_leads hw _ _ _).bind fun _ x hx => Leads.demand fun _ _ => Leads.pure hx)

theorem minixLink_leads (hB : B.Rooted) (h : Ledger B refs held s) (odir : Ino) (oldname : List Char) :
    Leads (minixLink odir oldname dir name) s fun _ => Ledger B refs held := by
  refine (minixNamei_leads hB h).bind fun r t ht => ?_
  cases r with
  | none => exact Leads.pure ht
  | some found =>
    refine (linkInode_leads ht).bind fun r u hu => (brelse_leads hu).bind fun _ v hv => ?_
    exact (iput_leads (x := some found.1) hv).bind fun _ w hw => Leads.pure hw

theorem unlinkInode_leads (h : Ledger B refs held s) (entry : Ptr) : Leads (unlinkInode entry inode) s fun _ => Ledger B refs held := by
  refine Leads.get (Leads.demand fun minode _ => Leads.ite (fun _ => Leads.pure h) fun _ => Leads.ite (fun _ => Leads.pure h) fun _ => ?_)
  refine (put16_leads h _ _ _).bind fun _ t ht => Leads.get ((put8_leads ht _ _ _).bind fun _ u hu => Leads.demand fun _ _ => Leads.get ?_)
  refine Leads.bind (R := fun _ => Ledger B refs held) (Leads.onlyIf (fun _ => ?_) fun _ => hu) fun _ v hv => Leads.pure hv
  exact (minixTruncate_leads hu).bind fun _ v hv => Leads.get (free_leads hv _ _ _)

theorem minixUnlink_leads (hB : B.Rooted) (h : Ledger B refs held s) : Leads (minixUnlink dir name) s fun _ => Ledger B refs held := by
  refine (minixPermission_leads h _).bind fun ok t ht => Leads.ite (fun _ => Leads.pure ht) fun _ => (findEntry_leads ht).bind fun r u hu => ?_
  cases r with
  | none => exact Leads.pure hu
  | some found =>
    refine Leads.get ((iget_leads hB hu).bind fun inode v hv => (unlinkInode_leads hv _).bind fun ret w hw => ?_)
    refine (brelse_leads (b := some found.entry.buf) hw).bind fun _ x hx => ?_
    exact (iput_leads (x := some inode) hx).bind fun _ y hy => Leads.pure hy

theorem minixMknod_leads (hB : B.Rooted) (h : Ledger B refs held s) (mode : Nat) (node : Int) :
    Leads (minixMknod dir name mode node) s fun _ => Ledger B refs held := by
  refine (minixPermission_leads h _).bind fun ok t ht => Leads.ite (fun _ => Leads.pure ht) fun _ => (findEntry_leads ht).bind fun r u hu => ?_
  cases r with
  | some found => exact (brelse_leads (b := some found.entry.buf) hu).bind fun _ v hv => Leads.pure hv
  | none =>
    refine (addEntry_leads hu).bind fun entry v hv => Leads.get ((alloc_leads hv _ _).bind fun nr w hw => ?_)
    refine (put16_leads hw _ _ _).bind fun _ x hx => Leads.get ((newInode_leads hB hx).bind fun inode y hy => ?_)
    refine Leads.get (Leads.demand fun minode _ => (put16_leads hy _ _ _).bind fun _ z hz => ?_)
    refine Leads.bind (R := fun _ => Ledger B (inode :: refs) (entry.buf :: held))
      (Leads.onlyIf (fun _ => put16_leads hz _ _ _) fun _ => hz) fun _ s1 h1 => ?_
    refine (brelse_leads (b := some entry.buf) h1).bind fun _ s2 h2 => ?_
    exact (iput_leads (x := some inode) h2).bind fun _ s3 h3 => Leads.pure h3

end Onix.Namei
