/-
Block special files against the buffer cache: `bread` counts two sectors for a block, `minix_read` and `minix_write`
one. So a transfer of a special file that succeeds and has a length reaches half of its bytes, and those of another
offset. With it the account of what every way to a block device touches.
-/
import Onix.Block.Isolation

namespace Onix.Block

open List

variable {D : Type} {drive : D → Drive}

/-! ## Bytes -/

/-- Where the buffer cache has the byte at offset `o` of a device, in blocks of `BLOCK_SIZE`: the sector, and the place in it. -/
def cacheAt (dev : Dev drive) (o : Nat) : Option (Sector D × Nat) :=
  (bread dev 0 (BitVec.ofNat 32 (o / blockSize)) blockSize).touched[o % blockSize / sectorSize]?.map fun x => (x, o % sectorSize)

/-- A transfer of a special file that touches sectors of its device only, and unless it fails exactly as many as its length,
each byte at the place where the buffer cache has it. -/
structure SpecialFile (dev : Dev drive) (len offset : Nat) (t : Transfer D) : Prop where
  within : ∀ x ∈ t.touched, dev.Has x
  exact : t.ret = .eok → t.touched.length * sectorSize = len
  bytes : t.ret = .eok → ∀ j < len, ∃ x, t.touched[j / sectorSize]? = some x ∧
    cacheAt dev (offset + j) = some (x, j % sectorSize)

/-- The lengths and offsets that meet this: no whole blocks, nothing at all, or a transfer that fails in its device. -/
def Dev.SpecialFits (dev : Dev drive) (len offset : Nat) : Prop :=
  len % blockSize ≠ 0 ∨ len = 0 ∨ (dev.Fits (len / blockSize) (offset / blockSize) ∧ dev.Fails (len / blockSize) (offset / blockSize))

theorem serve_touched (p : Part drive) (lba idx : BitVec 32) (hl : lba.toNat % 2 ^ 28 = p.first idx.toNat) {n : Nat} (hn : 0 < n) :
    (serve p.disk (drive p.disk).totalLba n lba .eio).touched.length ≤ n ∧
      ((serve p.disk (drive p.disk).totalLba n lba .eio).ret ≠ .eok ↔ p.Beyond idx.toNat ∨ p.RunsOver n idx.toNat) := by
  rcases serve_cases p lba idx.toNat hl hn .eio with ⟨hb, e⟩ | ⟨hr, e⟩ | ⟨hb, hr, e⟩
  · rw [e]
    exact ⟨Nat.zero_le _, fun _ => .inl hb, fun _ => by rintro ⟨⟩⟩
  · rw [e]
    refine ⟨?_, fun _ => .inr hr, fun _ => by rintro ⟨⟩⟩
    rw [length_map, length_range]
    have := hr.2.1
    omega
  · rw [e]
    refine ⟨?_, fun h => absurd rfl h, fun h => absurd h (not_or.2 ⟨hb, hr⟩)⟩
    rw [length_map, length_range]

theorem deviceRead_touched (dev : Dev drive) (count idx : BitVec 32) :
    ((deviceRead dev count idx).ret = .eok → (deviceRead dev count idx).touched.length ≤ count.toNat) ∧
      ((deviceRead dev count idx).ret ≠ .eok ↔ dev.Fails count.toNat idx.toNat) := by
  have hc := low_byte count
  have hle : count.toNat % 256 ≤ count.toNat := Nat.mod_le _ _
  cases dev with
  | ramdisk i =>
    have e : deviceRead (Dev.ramdisk i : Dev drive) count idx = ramdiskTransfer i (count.setWidth 8) idx := rfl
    have hfail : RamdiskFails i count.toNat idx.toNat ↔
        ¬ ((Dev.ramdisk i : Dev drive).base + idx.toNat + (count.setWidth 8).toNat) % 2 ^ 23 < ramdiskLimit := by
      rw [hc, not_lt]
      rfl
    change _ ∧ (_ ↔ RamdiskFails i count.toNat idx.toNat)
    rw [e, ramdiskTransfer_eq drive, hfail]
    split
    · rename_i h
      refine ⟨fun _ => ?_, fun he => absurd rfl he, fun hn => absurd h hn⟩
      rw [length_map, length_range, hc]
      exact hle
    · rename_i h
      exact ⟨fun _ => Nat.zero_le _, fun _ => h, fun _ => by rintro ⟨⟩⟩
  | part p =>
    have e : deviceRead (.part p) count idx = idePioTransfer drive p.disk (count.setWidth 8) (BitVec.ofNat 32 p.start + idx) := rfl
    rw [e]
    unfold idePioTransfer
    by_cases h0 : count.setWidth 8 = 0
    · rw [if_pos h0]
      have hz : count.toNat % 256 = 0 := by rw [← hc, h0]; rfl
      exact ⟨fun _ => Nat.zero_le _, fun _ => .inl hz, fun _ => by rintro ⟨⟩⟩
    · rw [if_neg h0]
      have hz : (count.setWidth 8).toNat ≠ 0 := fun e => h0 (BitVec.eq_of_toNat_eq e)
      obtain ⟨h1, h2⟩ := serve_touched p _ idx (part_first p idx) (Nat.pos_of_ne_zero hz)
      exact ⟨fun _ => h1.trans hle, h2.trans ⟨.inr, fun h => h.resolve_left hz⟩⟩
  | floppy =>
    have e : deviceRead (Dev.floppy : Dev drive) count idx = fdRead (count.setWidth 8) idx := rfl
    change _ ∧ (_ ↔ 2880 ≤ (count.toNat % 256 + idx.toNat) % 2 ^ 32 ∨ 2880 ≤ idx.toNat ∨ count.toNat % 256 = 0)
    rw [e, ← hc]
    rcases fdRead_cases (D := D) (count.setWidth 8) idx with ⟨h, e⟩ | ⟨h1, h2, e⟩ | ⟨h1, h2, h3, e⟩
    · rw [e]
      exact ⟨fun _ => Nat.zero_le _, fun _ => h.imp_right .inl, fun _ => by rintro ⟨⟩⟩
    · rw [e]
      exact ⟨by rintro ⟨⟩, fun _ => .inr (.inr h2), fun _ => by rintro ⟨⟩⟩
    · rw [e]
      refine ⟨fun _ => ?_, fun he => absurd rfl he, fun h => ?_⟩
      · rw [length_map, length_range, hc]
        omega
      · omega

theorem special_file (dev : Dev drive) (len offset : Fin (2 ^ 31)) (h0 : len.val % blockSize = 0) :
    SpecialFile dev len offset (specialTransfer
      (deviceRead dev (BitVec.ofNat 32 (len / blockSize)) (BitVec.ofNat 32 (offset / blockSize)))) ↔ dev.SpecialFits len offset := by
  have hb : blockSize = 1024 := rfl
  have e1 : (BitVec.ofNat 32 (len / blockSize)).toNat = len / blockSize := by
    rw [BitVec.toNat_ofNat, hb]
    omega
  have e2 : (BitVec.ofNat 32 (offset / blockSize)).toNat = offset / blockSize := by
    rw [BitVec.toNat_ofNat, hb]
    omega
  have hiso := deviceRead_isolated dev (BitVec.ofNat 32 (len / blockSize)) (BitVec.ofNat 32 (offset / blockSize))
  obtain ⟨hle, hfail⟩ := deviceRead_touched dev (BitVec.ofNat 32 (len / blockSize)) (BitVec.ofNat 32 (offset / blockSize))
  rw [e1, e2] at hiso hfail
  rw [e1] at hle
  generalize deviceRead dev (BitVec.ofNat 32 (len / blockSize)) (BitVec.ofNat 32 (offset / blockSize)) = t at hiso hle hfail
  have hret : (specialTransfer t).ret = .eok ↔ t.ret = .eok := by
    unfold specialTransfer
    split
    · rename_i h
      exact ⟨fun _ => h, fun _ => rfl⟩
    · rename_i h
      exact ⟨by rintro ⟨⟩, fun h' => absurd h' h⟩
  unfold Dev.SpecialFits
  constructor
  · intro h
    by_cases hok : t.ret = .eok
    · -- the sectors reach half of the length at most
      have h1 := h.exact (hret.2 hok)
      have h2 := hle hok
      have h3 : (specialTransfer t).touched = t.touched := rfl
      rw [h3, show sectorSize = 512 from rfl] at h1
      rw [hb] at h0 h2
      omega
    · exact .inr (.inr ⟨hiso.1 ⟨h.within, fun he => absurd he hok⟩, hfail.1 hok⟩)
  · rintro (h | h | ⟨h1, h2⟩)
    · exact absurd h0 h
    · -- nothing is asked for
      have hzero : len.val / blockSize = 0 := by rw [h]; rfl
      have hfits : dev.Fits (len / blockSize) (offset / blockSize) := by
        rw [hzero]
        cases dev with
        | ramdisk i => exact .inr ⟨by decide, .inl rfl⟩
        | part p => exact .inl rfl
        | floppy => exact .inl (.inr (.inr rfl))
      refine ⟨(hiso.2 hfits).within, fun he => ?_, fun he j hj => ?_⟩
      · have := hle (hret.1 he)
        rw [hzero] at this
        show t.touched.length * sectorSize = len
        rw [Nat.le_zero.1 this, h]
        rfl
      · omega
    · have hno : (specialTransfer t).ret ≠ .eok := fun he => hfail.2 h2 (hret.1 he)
      exact ⟨(hiso.2 h1).within, fun he => absurd he hno, fun he => absurd he hno⟩

theorem minixRead_special (dev : Dev drive) (len offset : Fin (2 ^ 31)) :
    SpecialFile dev len offset (minixRead dev len offset) ↔ dev.SpecialFits len offset := by
  unfold minixRead
  split
  · rename_i h
    exact ⟨fun _ => .inl h, fun _ => ⟨by simp, by rintro ⟨⟩, by rintro ⟨⟩⟩⟩
  · rename_i h
    exact special_file dev len offset (not_not.1 h)

theorem minixWrite_eq (dev : Dev drive) (len offset : Fin (2 ^ 31)) : minixWrite dev len offset = minixRead dev len offset := by
  unfold minixWrite minixRead
  rw [deviceWrite_eq]

/-! ## Neighbours -/

def Apart (dev dev' : Dev drive) : Prop := ∀ x, dev.Has x → ¬ dev'.Has x

theorem put_other {S : Type} [DecidableEq D] (x : Sector D) : ∀ (l : List (Sector D)) (data : List S) (st : Store D S),
    x ∉ l → st.put l data x = st x
  | [], _, _, _ => rfl
  | _ :: _, [], _, _ => rfl
  | y :: l, v :: data, st, h => by
    rw [Store.put, put_other x l data _ fun hx => h (mem_cons_of_mem _ hx)]
    exact Function.update_of_ne (fun e => h (by rw [e]; exact mem_cons_self ..)) _ _

theorem neighbour_kept {S : Type} [DecidableEq D] {dev dev' : Dev drive} {t : Transfer D} (h : ∀ x ∈ t.touched, dev.Has x)
    (ha : Apart dev dev') (st : Store D S) (data : List S) {x : Sector D} (hx : dev'.Has x) : st.put t.touched data x = st x :=
  put_other x _ data st fun hm => ha x (h x hm) hx

theorem cacheAt_own (dev : Dev drive) (o : Fin (2 ^ 31)) (hf : dev.RequestFits 0 2 (o / blockSize * 2))
    (hok : (bread dev 0 (BitVec.ofNat 32 (o / blockSize)) blockSize).ret = .eok) :
    cacheAt dev o = some (⟨dev.medium, dev.base + o / sectorSize⟩, o % sectorSize) := by
  have hb : blockSize = 1024 := rfl
  have hs : sectorSize = 512 := rfl
  have hidx : (BitVec.ofNat 32 (o / blockSize) * BitVec.ofNat 32 (blockSize / sectorSize)).toNat = o / blockSize * 2 := by
    rw [BitVec.toNat_mul, BitVec.toNat_ofNat, BitVec.toNat_ofNat, hb, hs]
    omega
  have h := deviceRequest_isolated dev 0 (BitVec.ofNat 8 (blockSize / sectorSize))
    (BitVec.ofNat 32 (o / blockSize) * BitVec.ofNat 32 (blockSize / sectorSize)) .read
  rw [hidx] at h
  have htouched := (h.2 hf).exact hok
  unfold cacheAt bread
  rw [htouched, own, getElem?_map, getElem?_range (by rw [hb, hs]; show _ < 2; omega), Option.map_some, Option.map_some]
  have e : dev.base + o / blockSize * 2 + o % blockSize / sectorSize = dev.base + o / sectorSize := by
    rw [hb, hs]
    omega
  rw [e]

/-- Every request, read and write of a ramdisk, a partition or the floppy, and every read and write of its special file,
is isolated exactly when it fits; and what an isolated one writes leaves the devices apart from it as they are. -/
theorem block_isolation {S : Type} [DecidableEq D] (dev : Dev drive) :
    (∀ buf count idx type, Isolated dev idx.toNat count.toNat (deviceRequest dev buf count idx type) ↔
      dev.RequestFits buf count.toNat idx.toNat) ∧
    (∀ count idx, (Isolated dev idx.toNat count.toNat (deviceRead dev count idx) ↔ dev.Fits count.toNat idx.toNat) ∧
      (Isolated dev idx.toNat count.toNat (deviceWrite dev count idx) ↔ dev.Fits count.toNat idx.toNat)) ∧
    (∀ len offset : Fin (2 ^ 31), (SpecialFile dev len offset (minixRead dev len offset) ↔ dev.SpecialFits len offset) ∧
      (SpecialFile dev len offset (minixWrite dev len offset) ↔ dev.SpecialFits len offset)) ∧
    (∀ o : Fin (2 ^ 31), dev.RequestFits 0 2 (o / blockSize * 2) →
      (bread dev 0 (BitVec.ofNat 32 (o / blockSize)) blockSize).ret = .eok →
      cacheAt dev o = some (⟨dev.medium, dev.base + o / sectorSize⟩, o % sectorSize)) ∧
    ∀ (dev' : Dev drive) (t : Transfer D), Apart dev dev' → (∀ x ∈ t.touched, dev.Has x) →
      ∀ (st : Store D S) (data : List S) (x : Sector D), dev'.Has x → st.put t.touched data x = st x := by
  refine ⟨deviceRequest_isolated dev, fun count idx => ⟨deviceRead_isolated dev count idx, ?_⟩,
    fun len offset => ⟨minixRead_special dev len offset, ?_⟩, cacheAt_own dev, fun dev' t ha ht st data x hx => neighbour_kept ht ha st data hx⟩
  · rw [deviceWrite_eq]
    exact deviceRead_isolated dev count idx
  · rw [minixWrite_eq]
    exact minixRead_special dev len offset

def mda : Dev (fun _ : Empty => (⟨0, false, false, Nat.zero_le _⟩ : Drive)) := .ramdisk ⟨0, by decide⟩

/-- A sector behind the end of the first ramdisk is the first one of the second, and 1024 bytes of its special file
at offset 1024 are one sector, which the cache has at offset 512. -/
theorem ramdisk_overrun : deviceWrite mda 1 2048 = ⟨[⟨.ram, 26624⟩], .eok⟩ ∧ ¬ Isolated mda 2048 1 (deviceWrite mda 1 2048) ∧
    minixRead mda 1024 1024 = ⟨[⟨.ram, 24577⟩], .eok⟩ ∧ ¬ SpecialFile mda 1024 1024 (minixRead mda 1024 1024) := by
  refine ⟨by decide, fun h => ?_, by decide, fun h => ?_⟩
  · have := (h.within ⟨.ram, 26624⟩ (by decide)).2.2
    revert this
    decide
  · have := h.exact (by decide)
    revert this
    decide

end Onix.Block
