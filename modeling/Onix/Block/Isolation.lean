/-
What a request to a block device touches. The ramdisks share one bound, which is that of the whole kernel memory behind
them, partitions have none, the floppy stops at the end of a cylinder, and `minix_read` and `minix_write` hand over
blocks where `device_read` and `device_write` count sectors. A request is isolated exactly when it stays within its
device, or fails before it leaves it.
-/
import Mathlib.Tactic.Ring
import Onix.Block.Model

namespace Onix.Block

open List

variable {D : Type} {drive : D → Drive}
variable {n : Nat}

/-! ## Isolation -/

def own (dev : Dev drive) (idx count : Nat) : List (Sector D) :=
  (List.range count).map fun k => ⟨dev.medium, dev.base + idx + k⟩

def Dev.Has (dev : Dev drive) (x : Sector D) : Prop := x.medium = dev.medium ∧ dev.base ≤ x.nr ∧ x.nr < dev.base + dev.count

/-- A transfer that touches sectors of its device only, and exactly those asked for unless it fails. -/
structure Isolated (dev : Dev drive) (idx count : Nat) (t : Transfer D) : Prop where
  within : ∀ x ∈ t.touched, dev.Has x
  exact : t.ret = .eok → t.touched = own dev idx count

theorem isolated_panic (dev : Dev drive) (idx count : Nat) : Isolated dev idx count (⟨[], .panic⟩ : Transfer D) :=
  ⟨by simp, by rintro ⟨⟩⟩

theorem length_own (dev : Dev drive) (idx count : Nat) : (own dev idx count).length = count := by simp [own]

theorem own_within {dev : Dev drive} {idx count : Nat} (h : idx + count ≤ dev.count) : ∀ x ∈ own dev idx count, dev.Has x := by
  intro x hx
  obtain ⟨k, hk, rfl⟩ := mem_map.1 hx
  have := mem_range.1 hk
  exact ⟨rfl, by dsimp only; omega, by dsimp only; omega⟩

theorem Isolated.ok {dev : Dev drive} {idx count : Nat} {t : Transfer D} (h : Isolated dev idx count t) (he : t.ret = .eok) :
    t.touched.length = count ∧ (0 < count → idx + count ≤ dev.count) := by
  have e := h.exact he
  refine ⟨by rw [e, length_own], fun hc => ?_⟩
  have hlast : (⟨dev.medium, dev.base + idx + (count - 1)⟩ : Sector D) ∈ t.touched := by
    rw [e]
    exact mem_map.2 ⟨count - 1, mem_range.2 (by omega), rfl⟩
  have := (h.within _ hlast).2.2
  dsimp only at this
  omega

/-! ## Ramdisks -/

variable (drive) in
theorem ramdisk_addr (i : Fin ramdiskNr) (lba : BitVec 32) (k : Nat) :
    (ramdiskStart i + lba * BitVec.ofNat 32 sectorSize + BitVec.ofNat 32 (k * sectorSize)).toNat =
      512 * (((Dev.ramdisk i : Dev drive).base + lba.toNat + k) % 2 ^ 23) := by
  unfold ramdiskStart Dev.base kernelRamdiskMem kernelRamdiskSize ramdiskNr sectorSize
  simp only [BitVec.toNat_add, BitVec.toNat_mul, BitVec.toNat_ofNat]
  omega

/-- The bound all ramdisks share: the assertion of `ramdisk_read` and `ramdisk_write` fails from it on. -/
def ramdiskLimit : Nat := (kernelRamdiskMem + kernelMemorySize) / sectorSize

variable (drive) in
theorem ramdiskTransfer_eq (i : Fin ramdiskNr) (count : BitVec 8) (lba : BitVec 32) :
    (ramdiskTransfer i count lba : Transfer D) =
      if ((Dev.ramdisk i : Dev drive).base + lba.toNat + count.toNat) % 2 ^ 23 < ramdiskLimit then
        ⟨(List.range count.toNat).map fun k => ⟨.ram, ((Dev.ramdisk i : Dev drive).base + lba.toNat + k) % 2 ^ 23⟩, .eok⟩
      else ⟨[], .panic⟩ := by
  have hlimit : ∀ n : Nat, 512 * n < kernelRamdiskMem + kernelMemorySize ↔ n < ramdiskLimit := by
    unfold ramdiskLimit kernelRamdiskMem kernelMemorySize sectorSize
    omega
  unfold ramdiskTransfer
  dsimp only
  rw [ramdisk_addr drive i lba count.toNat, if_congr (hlimit _) rfl rfl]
  refine if_congr Iff.rfl (congrArg (Transfer.mk · Answer.eok) (List.map_congr_left fun k _ => ?_)) rfl
  rw [ramdisk_addr drive i lba k]
  show (⟨.ram, 512 * _ / 512⟩ : Sector D) = _
  rw [Nat.mul_div_cancel_left _ (by decide)]

def RamdiskFails (i : Fin ramdiskNr) (count idx : Nat) : Prop :=
  ramdiskLimit ≤ (kernelRamdiskMem / sectorSize + kernelRamdiskSize / ramdiskNr / sectorSize * i + idx + count % 256) % 2 ^ 23

theorem ramdisk_isolated (i : Fin ramdiskNr) (count : BitVec 8) (lba : BitVec 32) (hn : count.toNat = n % 256) :
    Isolated (Dev.ramdisk i : Dev drive) lba.toNat n (ramdiskTransfer i count lba) ↔
      RamdiskFails i n lba.toNat ∨ (n < 256 ∧ (n = 0 ∨ lba.toNat + n ≤ (Dev.ramdisk i : Dev drive).count)) := by
  rw [ramdiskTransfer_eq drive]
  have hfail : RamdiskFails i n lba.toNat ↔
      ¬ ((Dev.ramdisk i : Dev drive).base + lba.toNat + count.toNat) % 2 ^ 23 < ramdiskLimit := by
    rw [hn, not_lt]
    rfl
  rw [hfail]
  split
  · rename_i hlt
    constructor
    · intro h
      obtain ⟨h1, h2⟩ := h.ok rfl
      rw [length_map, length_range] at h1
      exact .inr ⟨by omega, (Nat.eq_zero_or_pos n).imp_right h2⟩
    · rintro (h | ⟨hn', h⟩)
      · exact absurd hlt h
      · have e : count.toNat = n := by omega
        have hown : ∀ x : List (Sector D), x = own (Dev.ramdisk i : Dev drive) lba.toNat n →
            Isolated (Dev.ramdisk i : Dev drive) lba.toNat n ⟨x, .eok⟩ := by
          rintro _ rfl
          refine ⟨fun x hx => ?_, fun _ => rfl⟩
          rcases h with rfl | h
          · cases hx
          · exact own_within h x hx
        refine hown _ ?_
        rw [e]
        refine map_congr_left fun k hk => ?_
        have hk := mem_range.1 hk
        congr 1
        unfold Dev.base Dev.count kernelRamdiskMem kernelRamdiskSize ramdiskNr sectorSize at *
        dsimp only at *
        omega
  · rename_i hlt
    exact ⟨fun _ => .inl hlt, fun _ => isolated_panic _ _ _⟩

/-! ## Drives -/

theorem takeWhile_range {α : Type} {f : Nat → α} {P : α → Bool} {m n : Nat} (hm : ∀ k < m, P (f k) = true)
    (hn : m < n → P (f m) = false) (hle : m ≤ n) :
    ((range n).map f).takeWhile P = (range m).map f ∧ (((range n).map f).all P = true ↔ m = n) := by
  obtain ⟨k, rfl⟩ := Nat.exists_eq_add_of_le hle
  have hpre : ((range m).map f).takeWhile P = (range m).map f := by
    refine takeWhile_eq_self_iff.2 fun x hx => ?_
    obtain ⟨j, hj, rfl⟩ := mem_map.1 hx
    exact hm j (mem_range.1 hj)
  rw [range_add, map_append, takeWhile_append, hpre, if_pos rfl]
  cases k with
  | zero => simpa using hm
  | succ k =>
    have hstop := hn (by omega)
    have hmem : f m ∈ (range m).map f ++ ((range (k + 1)).map (m + ·)).map f := by
      refine mem_append_right _ (mem_map.2 ⟨m, mem_map.2 ⟨0, by simp, rfl⟩, rfl⟩)
    refine ⟨?_, ⟨fun h => ?_, fun h => by omega⟩⟩
    · rw [range_succ_eq_map, map_cons, map_cons, takeWhile_cons_of_neg (by simpa using hstop), append_nil]
    · have := all_eq_true.1 h _ hmem
      rw [hstop] at this
      cases this

def Part.first (p : Part drive) (idx : Nat) : Nat := (p.start + idx) % 2 ^ 28

def Part.Beyond (p : Part drive) (idx : Nat) : Prop := (drive p.disk).totalLba ≤ p.first idx

def Part.RunsOver (p : Part drive) (n idx : Nat) : Prop :=
  p.first idx < (drive p.disk).totalLba ∧ (drive p.disk).totalLba < p.first idx + n ∧ (drive p.disk).totalLba < 2 ^ 28

/-- A transfer that runs over the end of the drive begins in the partition, which ends there too. -/
def Part.AtEnd (p : Part drive) (idx : Nat) : Prop := p.start ≤ p.first idx ∧ p.start + p.count = (drive p.disk).totalLba

theorem serve_cases (p : Part drive) (lba : BitVec 32) (idx : Nat) (hl : lba.toNat % 2 ^ 28 = p.first idx) (hn : 0 < n)
    (bad : Answer) :
    (p.Beyond idx ∧ serve p.disk (drive p.disk).totalLba n lba bad = ⟨[], bad⟩) ∨
    (p.RunsOver n idx ∧ serve p.disk (drive p.disk).totalLba n lba bad =
      ⟨(range ((drive p.disk).totalLba - p.first idx)).map fun k => ⟨.disk p.disk, p.first idx + k⟩, bad⟩) ∨
    (¬ p.Beyond idx ∧ ¬ p.RunsOver n idx ∧ serve p.disk (drive p.disk).totalLba n lba bad =
      ⟨(range n).map fun k => ⟨.disk p.disk, (p.first idx + k) % 2 ^ 28⟩, .eok⟩) := by
  have hlba : askedLbas n lba = (range n).map fun k => (p.first idx + k) % 2 ^ 28 := by
    refine map_congr_left fun k _ => ?_
    rw [← hl, Nat.mod_add_mod]
  have hfirst : p.first idx < 2 ^ 28 := Nat.mod_lt _ (by decide)
  have htot := (drive p.disk).le
  unfold serve
  rw [hlba]
  by_cases hb : p.Beyond idx
  · have hstop : (p.first idx + 0) % 2 ^ 28 = p.first idx := Nat.mod_eq_of_lt hfirst
    obtain ⟨h1, h2⟩ := takeWhile_range (f := fun k => (p.first idx + k) % 2 ^ 28)
      (P := fun l => decide (l < (drive p.disk).totalLba)) (m := 0) (n := n) (by omega)
      (fun _ => decide_eq_false (by rw [hstop]; exact not_lt.2 hb)) (Nat.zero_le _)
    rw [h1, if_neg (by rw [h2]; omega)]
    exact .inl ⟨hb, rfl⟩
  have hb' : p.first idx < (drive p.disk).totalLba := not_le.1 hb
  by_cases hr : p.RunsOver n idx
  · obtain ⟨-, hlt, htot'⟩ := hr
    have hk : ∀ k ≤ (drive p.disk).totalLba - p.first idx, (p.first idx + k) % 2 ^ 28 = p.first idx + k := fun k hk =>
      Nat.mod_eq_of_lt (by omega)
    obtain ⟨h1, h2⟩ := takeWhile_range (f := fun k => (p.first idx + k) % 2 ^ 28)
      (P := fun l => decide (l < (drive p.disk).totalLba)) (m := (drive p.disk).totalLba - p.first idx) (n := n)
      (fun k hk' => decide_eq_true (by rw [hk k hk'.le]; omega))
      (fun _ => decide_eq_false (by rw [hk _ (le_refl _)]; omega)) (by omega)
    rw [h1, if_neg (by rw [h2]; omega)]
    refine .inr (.inl ⟨⟨hb', hlt, htot'⟩, congrArg (Transfer.mk · bad) ?_⟩)
    rw [map_map]
    refine map_congr_left fun k hk' => ?_
    show (⟨.disk p.disk, (p.first idx + k) % 2 ^ 28⟩ : Sector D) = _
    rw [hk k (mem_range.1 hk').le]
  · have hall : ∀ k < n, (p.first idx + k) % 2 ^ 28 < (drive p.disk).totalLba := by
      intro k hk
      by_cases hlt : (drive p.disk).totalLba < p.first idx + n
      · have htot' : (drive p.disk).totalLba = 2 ^ 28 := by
          by_contra hne
          exact hr ⟨hb', hlt, by omega⟩
        rw [htot']
        exact Nat.mod_lt _ (by decide)
      · rw [Nat.mod_eq_of_lt (by omega)]
        omega
    obtain ⟨h1, h2⟩ := takeWhile_range (f := fun k => (p.first idx + k) % 2 ^ 28)
      (P := fun l => decide (l < (drive p.disk).totalLba)) (m := n) (n := n)
      (fun k hk => decide_eq_true (hall k hk)) (fun h => by omega) (le_refl _)
    rw [h1, if_pos (h2.2 rfl), map_map]
    exact .inr (.inr ⟨hb, hr, rfl⟩)

theorem serve_isolated (p : Part drive) (lba : BitVec 32) (idx count : Nat) (hl : lba.toNat % 2 ^ 28 = p.first idx)
    (hn : 0 < n) {bad : Answer} (hbad : bad = .eok → count = n ∨ count = 0) :
    Isolated (.part p) idx count (serve p.disk (drive p.disk).totalLba n lba bad) ↔
      ((bad ≠ .eok ∨ count = 0) ∧ p.Beyond idx) ∨ (bad ≠ .eok ∧ p.RunsOver n idx ∧ p.AtEnd idx) ∨
        (n = count ∧ idx + count ≤ p.count) := by
  have htot := (drive p.disk).le
  have hple := p.le
  -- within the partition the first sector is not cut to 28 bits
  have hin : idx + n ≤ p.count → p.first idx = p.start + idx := fun h => Nat.mod_eq_of_lt (by omega)
  rcases serve_cases p lba idx hl hn bad with ⟨hb, e⟩ | ⟨hr, e⟩ | ⟨hb, hr, e⟩
  · rw [e]
    constructor
    · intro h
      refine .inl ⟨?_, hb⟩
      by_cases hbe : bad = .eok
      · exact .inr (h.ok hbe).1.symm
      · exact .inl hbe
    · rintro (⟨h, -⟩ | ⟨-, hr, -⟩ | ⟨rfl, hle⟩)
      · refine ⟨by simp, fun hbe => ?_⟩
        obtain rfl := h.resolve_left (not_not.2 hbe)
        rfl
      · exact absurd hb (not_le.2 hr.1)
      · have := hin hle
        unfold Part.Beyond at hb
        omega
  · rw [e]
    obtain ⟨h1, h2, h3⟩ := hr
    have hne : bad = .eok → ∀ m, m = (drive p.disk).totalLba - p.first idx → count ≠ m := by
      rintro hbe m rfl hc
      rcases hbad hbe with h | h <;> omega
    have hmem : ∀ k < (drive p.disk).totalLba - p.first idx, (⟨.disk p.disk, p.first idx + k⟩ : Sector D) ∈
        (range ((drive p.disk).totalLba - p.first idx)).map fun k => (⟨.disk p.disk, p.first idx + k⟩ : Sector D) :=
      fun k hk => mem_map.2 ⟨k, mem_range.2 hk, rfl⟩
    constructor
    · intro h
      have hbe : bad ≠ .eok := by
        intro hbe
        refine hne hbe _ rfl ?_
        have := (h.ok hbe).1
        rw [length_map, length_range] at this
        exact this.symm
      refine .inr (.inl ⟨hbe, ⟨h1, h2, h3⟩, ?_, ?_⟩)
      · exact (h.within _ (hmem 0 (by omega))).2.1
      · have := (h.within _ (hmem ((drive p.disk).totalLba - p.first idx - 1) (by omega))).2.2
        unfold Dev.base Dev.count at this
        dsimp only at this
        omega
    · rintro (⟨-, hb⟩ | ⟨hbe, -, ha1, ha2⟩ | ⟨rfl, hle⟩)
      · exact absurd hb (not_le.2 h1)
      · refine ⟨fun x hx => ?_, fun h => absurd h hbe⟩
        obtain ⟨k, hk, rfl⟩ := mem_map.1 hx
        have hk := mem_range.1 hk
        exact ⟨rfl, by unfold Dev.base; dsimp only; omega, by unfold Dev.base Dev.count; dsimp only; omega⟩
      · have := hin hle
        omega
  · rw [e]
    constructor
    · intro h
      obtain ⟨h1, h2⟩ := h.ok rfl
      rw [length_map, length_range] at h1
      exact .inr (.inr ⟨h1, h2 (by omega)⟩)
    · rintro (⟨-, h⟩ | ⟨-, h, -⟩ | ⟨rfl, hle⟩)
      · exact absurd h hb
      · exact absurd h hr
      · have hown : (range n).map (fun k => (⟨.disk p.disk, (p.first idx + k) % 2 ^ 28⟩ : Sector D)) = own (.part p) idx n := by
          refine map_congr_left fun k hk => ?_
          have hk := mem_range.1 hk
          rw [hin hle, Nat.mod_eq_of_lt (by omega)]
          rfl
        rw [hown]
        exact ⟨own_within hle, fun _ => rfl⟩

/-! ## The floppy -/

theorem fdRemaining_eq (lba : Nat) : fdRemaining lba = 36 - lba % 36 := by
  unfold fdRemaining
  omega

theorem fdRead_cases (count : BitVec 8) (lba : BitVec 32) :
    ((2880 ≤ (count.toNat + lba.toNat) % 2 ^ 32 ∨ 2880 ≤ lba.toNat) ∧ (fdRead count lba : Transfer D) = ⟨[], .panic⟩) ∨
    (lba.toNat < 2880 ∧ count.toNat = 0 ∧ (fdRead count lba : Transfer D) =
      ⟨(range (36 - lba.toNat % 36)).map fun k => ⟨.floppy, lba.toNat + k⟩, .eio⟩) ∨
    ((count.toNat + lba.toNat) % 2 ^ 32 < 2880 ∧ lba.toNat < 2880 ∧ 0 < count.toNat ∧ (fdRead count lba : Transfer D) =
      ⟨(range (min count.toNat (36 - lba.toNat % 36))).map fun k => ⟨.floppy, lba.toNat + k⟩, .eok⟩) := by
  have hsum : (BitVec.ofNat 32 count.toNat + lba).toNat = (count.toNat + lba.toNat) % 2 ^ 32 := by
    rw [BitVec.toNat_add, BitVec.toNat_ofNat]
    omega
  unfold fdRead
  rw [hsum]
  split
  case isFalse hge => exact .inl ⟨.inl (not_lt.1 hge), rfl⟩
  rename_i hlow
  unfold fdTransfer
  dsimp only
  rw [fdRemaining_eq]
  by_cases hbig : 2880 ≤ lba.toNat
  · -- the sum has wrapped: the seek goes behind the last track
    rw [if_pos (by omega)]
    exact .inl ⟨.inr hbig, rfl⟩
  · have htrack : lba.toNat / 36 % 256 * 36 + lba.toNat % 36 = lba.toNat := by omega
    rw [if_neg (by omega), htrack]
    by_cases h0 : count.toNat = 0
    · rw [h0, Nat.zero_min, if_pos rfl, if_pos rfl]
      exact .inr (.inl ⟨not_le.1 hbig, rfl, rfl⟩)
    · have hn : min count.toNat (36 - lba.toNat % 36) ≠ 0 := by omega
      rw [if_neg hn, if_neg hn]
      exact .inr (.inr ⟨hlow, not_le.1 hbig, Nat.pos_of_ne_zero h0, rfl⟩)

def FloppyFails (count idx : Nat) : Prop := 2880 ≤ (count % 256 + idx) % 2 ^ 32 ∨ 2880 ≤ idx ∨ count % 256 = 0

theorem fdRead_isolated (count : BitVec 8) (lba : BitVec 32) (hn : count.toNat = n % 256) :
    Isolated (Dev.floppy : Dev drive) lba.toNat n (fdRead count lba) ↔ FloppyFails n lba.toNat ∨ lba.toNat % 36 + n ≤ 36 := by
  unfold FloppyFails
  rw [← hn]
  rcases fdRead_cases (D := D) count lba with ⟨h, e⟩ | ⟨h1, h2, e⟩ | ⟨h1, h2, h3, e⟩
  · rw [e]
    exact ⟨fun _ => .inl (h.imp_right .inl), fun _ => isolated_panic _ _ _⟩
  · rw [e]
    refine ⟨fun _ => .inl (.inr (.inr h2)), fun _ => ⟨fun x hx => ?_, by rintro ⟨⟩⟩⟩
    obtain ⟨k, hk, rfl⟩ := mem_map.1 hx
    have hk := mem_range.1 hk
    refine ⟨rfl, Nat.zero_le _, ?_⟩
    show lba.toNat + k < 0 + 2880
    omega
  · rw [e]
    constructor
    · intro h
      obtain ⟨h4, -⟩ := h.ok rfl
      rw [length_map, length_range] at h4
      exact .inr (by omega)
    · rintro (h | h)
      · omega
      · have hmin : min count.toNat (36 - lba.toNat % 36) = n := by omega
        rw [hmin]
        have hown : (range n).map (fun k => (⟨.floppy, lba.toNat + k⟩ : Sector D)) = own (Dev.floppy : Dev drive) lba.toNat n := by
          unfold own Dev.base Dev.medium
          rw [Nat.zero_add]
        rw [hown]
        refine ⟨own_within ?_, fun _ => rfl⟩
        show lba.toNat + n ≤ 2880
        omega

/-! ## Requests -/

/-- Where a call of `device_read` or `device_write` stops with an error or an assertion. -/
def Dev.Fails : Dev drive → Nat → Nat → Prop
  | .ramdisk i, count, idx => RamdiskFails i count idx
  | .part p, count, idx => count % 256 = 0 ∨ p.Beyond idx ∨ p.RunsOver (count % 256) idx
  | .floppy, count, idx => FloppyFails count idx

/-- The calls of `device_read` and `device_write` that are isolated. -/
def Dev.Fits : Dev drive → Nat → Nat → Prop
  | .ramdisk i, count, idx => RamdiskFails i count idx ∨ (count < 256 ∧ (count = 0 ∨ idx + count ≤ (Dev.ramdisk i : Dev drive).count))
  | .part p, count, idx =>
    count % 256 = 0 ∨ p.Beyond idx ∨ (p.RunsOver (count % 256) idx ∧ p.AtEnd idx) ∨ (count < 256 ∧ idx + count ≤ p.count)
  | .floppy, count, idx => FloppyFails count idx ∨ idx % 36 + count ≤ 36

def Dev.RequestFits : Dev drive → BitVec 32 → Nat → Nat → Prop
  | .ramdisk i, _, count, idx => (Dev.ramdisk i : Dev drive).Fits count idx
  | .part p, buf, count, idx =>
    if (drive p.disk).udma then
      ¬ onePage buf (BitVec.ofNat 8 count) ∨ (((drive p.disk).shows = true ∨ count = 0) ∧ p.Beyond idx) ∨
        ((drive p.disk).shows = true ∧ p.RunsOver (if count = 0 then 256 else count) idx ∧ p.AtEnd idx) ∨
        (0 < count ∧ idx + count ≤ p.count)
    else (Dev.part p).Fits count idx
  | .floppy, _, count, idx => (Dev.floppy : Dev drive).Fits count idx

theorem part_first (p : Part drive) (idx : BitVec 32) :
    (BitVec.ofNat 32 p.start + idx).toNat % 2 ^ 28 = p.first idx.toNat := by
  unfold Part.first
  rw [BitVec.toNat_add, BitVec.toNat_ofNat]
  omega

theorem idePio_isolated (p : Part drive) (count : BitVec 8) (lba idx : BitVec 32) (hn : count.toNat = n % 256)
    (hl : lba.toNat % 2 ^ 28 = p.first idx.toNat) :
    Isolated (.part p) idx.toNat n (idePioTransfer drive p.disk count lba) ↔ (Dev.part p).Fits n idx.toNat := by
  unfold idePioTransfer Dev.Fits
  by_cases h0 : count = 0
  · have hz : n % 256 = 0 := by rw [← hn, h0]; rfl
    rw [if_pos h0]
    exact ⟨fun _ => .inl hz, fun _ => isolated_panic _ _ _⟩
  · have hz : count.toNat ≠ 0 := fun e => h0 (BitVec.eq_of_toNat_eq e)
    rw [if_neg h0, serve_isolated p lba idx.toNat n hl (Nat.pos_of_ne_zero hz) (by rintro ⟨⟩), hn]
    rw [hn] at hz
    constructor
    · rintro (⟨-, h⟩ | ⟨-, h⟩ | ⟨h1, h2⟩)
      · exact .inr (.inl h)
      · exact .inr (.inr (.inl h))
      · exact .inr (.inr (.inr ⟨by omega, h2⟩))
    · rintro (h | h | h | ⟨h1, h2⟩)
      · exact absurd h hz
      · exact .inl ⟨.inl (by decide), h⟩
      · exact .inr (.inl ⟨by decide, h⟩)
      · exact .inr (.inr ⟨Nat.mod_eq_of_lt h1, h2⟩)

theorem ideUdma_isolated (p : Part drive) (hd : (drive p.disk).udma = true) (buf : BitVec 32) (count : BitVec 8) (lba idx : BitVec 32)
    (hl : lba.toNat % 2 ^ 28 = p.first idx.toNat) :
    Isolated (.part p) idx.toNat count.toNat (ideUdmaTransfer drive p.disk buf count lba) ↔
      (Dev.part p).RequestFits buf count.toNat idx.toNat := by
  have hbuf : BitVec.ofNat 8 count.toNat = count := BitVec.ofNat_toNat 8 count |>.trans (BitVec.setWidth_eq count)
  have hzero : count = 0 ↔ count.toNat = 0 := ⟨fun h => by rw [h]; rfl, fun e => BitVec.eq_of_toNat_eq e⟩
  unfold ideUdmaTransfer Dev.RequestFits
  dsimp only
  rw [if_pos hd, hbuf]
  split
  case isFalse hpage => exact ⟨fun _ => .inl hpage, fun _ => isolated_panic _ _ _⟩
  rename_i hpage
  obtain ⟨m, hm⟩ : ∃ m, m = (if count = 0 then 256 else count.toNat) := ⟨_, rfl⟩
  have hm' : m = (if count.toNat = 0 then 256 else count.toNat) := by rw [hm, if_congr hzero rfl rfl]
  have hpos : 0 < m ∧ (count.toNat = m ∨ count.toNat = 0) := by
    rw [hm']
    split <;> omega
  rw [← hm, ← hm', serve_isolated p lba idx.toNat count.toNat hl hpos.1 fun _ => hpos.2]
  have hbad : (if (drive p.disk).shows = true then Answer.panic else .eok) ≠ .eok ↔ (drive p.disk).shows = true := by
    split
    · rename_i h
      exact ⟨fun _ => h, fun _ => by decide⟩
    · rename_i h
      exact ⟨fun he => absurd rfl he, fun h' => absurd h' h⟩
  have hlast : (m = count.toNat ∧ idx.toNat + count.toNat ≤ p.count) ↔ (0 < count.toNat ∧ idx.toNat + count.toNat ≤ p.count) := by
    rw [hm']
    split <;> omega
  rw [hbad, hlast]
  exact ⟨.inr, fun h => h.resolve_left (not_not.2 hpage)⟩

theorem low_byte (count : BitVec 32) : (count.setWidth 8).toNat = count.toNat % 256 := BitVec.toNat_setWidth 8 count

theorem deviceRead_isolated (dev : Dev drive) (count idx : BitVec 32) :
    Isolated dev idx.toNat count.toNat (deviceRead dev count idx) ↔ dev.Fits count.toNat idx.toNat := by
  cases dev with
  | ramdisk i => exact ramdisk_isolated i _ idx (low_byte count)
  | part p => exact idePio_isolated p _ _ idx (low_byte count) (part_first p idx)
  | floppy => exact fdRead_isolated _ idx (low_byte count)

theorem deviceWrite_eq (dev : Dev drive) (count idx : BitVec 32) : deviceWrite dev count idx = deviceRead dev count idx := by
  cases dev <;> rfl

theorem diskTransfer_eq (d : D) (type : ReqType) (buf : BitVec 32) (count : BitVec 8) (lba : BitVec 32) :
    diskTransfer drive d type buf count lba =
      if (drive d).udma = true then ideUdmaTransfer drive d buf count lba else idePioTransfer drive d count lba := by
  unfold diskTransfer
  cases type <;> cases (drive d).udma <;> rfl

theorem deviceRequest_isolated (dev : Dev drive) (buf : BitVec 32) (count : BitVec 8) (idx : BitVec 32) (type : ReqType) :
    Isolated dev idx.toNat count.toNat (deviceRequest dev buf count idx type) ↔ dev.RequestFits buf count.toNat idx.toNat := by
  have hc : count.toNat = count.toNat % 256 := (Nat.mod_eq_of_lt count.isLt).symm
  cases dev with
  | ramdisk i =>
    have e : deviceRequest (Dev.ramdisk i : Dev drive) buf count idx type = ramdiskTransfer i count idx := by cases type <;> rfl
    rw [e]
    exact ramdisk_isolated i _ idx hc
  | floppy =>
    have e : deviceRequest (Dev.floppy : Dev drive) buf count idx type = fdRead count idx := by cases type <;> rfl
    rw [e]
    exact fdRead_isolated _ idx hc
  | part p =>
    have hl : (idx + BitVec.ofNat 32 p.start).toNat % 2 ^ 28 = p.first idx.toNat := by
      rw [BitVec.add_comm]
      exact part_first p idx
    cases hd : (drive p.disk).udma with
    | false =>
      have e : deviceRequest (.part p) buf count idx type = idePioTransfer drive p.disk count (idx + BitVec.ofNat 32 p.start) := by
        refine (diskTransfer_eq p.disk type buf count _).trans ?_
        rw [hd]
        rfl
      rw [e, idePio_isolated p count _ idx hc hl]
      unfold Dev.RequestFits
      dsimp only
      rw [if_neg (by rw [hd]; decide)]
    | true =>
      have e : deviceRequest (.part p) buf count idx type = ideUdmaTransfer drive p.disk buf count (idx + BitVec.ofNat 32 p.start) := by
        refine (diskTransfer_eq p.disk type buf count _).trans ?_
        rw [hd]
        rfl
      rw [e]
      exact ideUdma_isolated p hd buf count _ idx hl

end Onix.Block
