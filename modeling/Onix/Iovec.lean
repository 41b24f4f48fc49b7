/-
`iovec_read` and `iovec_write` of `net/iovec.c`: bytes go between a buffer and the areas of a vector, one after the other in the order
of the areas, and the vector is left with what remains. The vector is the kernel's own (`iovec_dup`, or on its stack), so no copy
reaches it; areas and buffer may overlap.
-/
import Mathlib.Algebra.BigOperators.Group.List.Basic
import Mathlib.Data.BitVec
import Mathlib.Data.List.Zip

namespace Onix.Iovec

open List

abbrev Word := BitVec 32

abbrev Mem := Word → BitVec 8

structure Iov where
  size : Word
  base : Word

def iovecSize (iov : List Iov) : Word := iov.foldl (fun size v => size + v.size) 0

def memcpy : Nat → Word → Word → Mem → Mem
  | 0, _, _, m => m
  | count + 1, dest, src, m => memcpy count (dest + 1) (src + 1) (Function.update m dest (m src))

/-- What a call returns and leaves. -/
structure Out where
  ret : Word
  iov : List Iov
  mem : Mem

/-- The loop of both calls; `copy` copies between the buffer and an area. -/
def loop (copy : Word → Word → Nat → Mem → Mem) : List Iov → Word → Word → Word → Mem → Out
  | [], _, _, done, m => ⟨done, [], m⟩
  | v :: iov, buf, count, done, m =>
    if count = 0 then ⟨done, v :: iov, m⟩
    else if v.size = 0 then
      let r := loop copy iov buf count done m
      { r with iov := v :: r.iov }
    else
      let len := if count < v.size then count else v.size
      let r := loop copy iov (buf + len) (count - len) (done + len) (copy buf v.base len.toNat m)
      { r with iov := ⟨v.size - len, v.base + len⟩ :: r.iov }

def iovecRead (iov : List Iov) (buf count : Word) (m : Mem) : Out := loop (fun buf base len => memcpy len buf base) iov buf count 0 m

def iovecWrite (iov : List Iov) (buf count : Word) (m : Mem) : Out := loop (fun buf base len => memcpy len base buf) iov buf count 0 m

/-! ## Bytes in order -/

def cells (a : Word) (n : Nat) : List Word := (List.range n).map fun i => a + BitVec.ofNat 32 i

def areas (iov : List Iov) : List Word := iov.flatMap fun v => cells v.base v.size.toNat

def copyBytes (l : List (Word × Word)) (m : Mem) : Mem := l.foldl (fun m p => Function.update m p.1 (m p.2)) m

theorem zero_add_word (a : Word) : 0 + a = a := BitVec.zero_add a

@[simp] theorem cells_length (a : Word) (n : Nat) : (cells a n).length = n := by
  rw [cells, length_map, length_range]

theorem cells_add (a : Word) (i j : Nat) : cells a (i + j) = cells a i ++ cells (a + BitVec.ofNat 32 i) j := by
  unfold cells
  rw [range_add, map_append, map_map]
  congr 1
  refine map_congr_left fun k _ => ?_
  rw [Function.comp, BitVec.add_assoc, ← BitVec.ofNat_add]

theorem copyBytes_append (l k : List (Word × Word)) (m : Mem) : copyBytes (l ++ k) m = copyBytes k (copyBytes l m) := foldl_append ..

theorem memcpy_eq : ∀ (n : Nat) (dest src : Word) (m : Mem), memcpy n dest src m = copyBytes ((cells dest n).zip (cells src n)) m
  | 0, _, _, _ => rfl
  | n + 1, dest, src, m => by
    have hone : ∀ a : Word, cells a (n + 1) = a :: cells (a + 1) n := fun a => by
      rw [Nat.add_comm, cells_add]
      simp [cells]
    rw [hone, hone]
    exact memcpy_eq n (dest + 1) (src + 1) _

/-! ## The loop -/

variable {copy : Word → Word → Nat → Mem → Mem} {pair : Word × Word → Word × Word} {iov : List Iov} {buf count : Word} {m : Mem}

theorem areas_cons (v : Iov) (iov : List Iov) : areas (v :: iov) = cells v.base v.size.toNat ++ areas iov := flatMap_cons

/-- The bytes of the first `n` addresses of the areas go between them and the buffer, and the rest of the areas is left. -/
structure Moved (pair : Word × Word → Word × Word) (iov : List Iov) (buf : Word) (n : Nat) (m : Mem) (r : Out) : Prop where
  areas : areas r.iov = (areas iov).drop n
  mem : r.mem = copyBytes (((cells buf n).zip ((Iovec.areas iov).take n)).map pair) m

theorem loop_moved (hcopy : ∀ buf base n m, copy buf base n m = copyBytes (((cells buf n).zip (cells base n)).map pair) m) :
    ∀ (iov : List Iov) (buf count done : Word) (m : Mem),
      (loop copy iov buf count done m).ret = done + BitVec.ofNat 32 (min count.toNat (areas iov).length) ∧
        Moved pair iov buf (min count.toNat (areas iov).length) m (loop copy iov buf count done m)
  | [], buf, count, done, m => by
    have hn : min count.toNat (areas []).length = 0 := Nat.min_zero _
    rw [hn]
    exact ⟨(BitVec.add_zero done).symm, rfl, rfl⟩
  | v :: iov, buf, count, done, m => by
    have hall := areas_cons v iov
    unfold loop
    by_cases hc : count = 0
    · have hn : min count.toNat (areas (v :: iov)).length = 0 := by rw [hc]; exact Nat.zero_min _
      rw [if_pos hc, hn]
      exact ⟨(BitVec.add_zero done).symm, rfl, rfl⟩
    rw [if_neg hc]
    by_cases hs : v.size = 0
    · have harea : areas (v :: iov) = areas iov := by
        rw [hall, hs]
        rfl
      obtain ⟨h1, h2, h3⟩ := loop_moved hcopy iov buf count done m
      rw [if_pos hs, harea]
      refine ⟨h1, ?_, by rw [harea]; exact h3⟩
      rw [areas_cons, hs, harea]
      exact h2
    rw [if_neg hs]
    -- `len` bytes of this area, then the others
    have hlen : (if count < v.size then count else v.size).toNat = min count.toNat v.size.toNat := by
      rw [Nat.min_def]
      split <;> rename_i h <;> rw [BitVec.lt_def] at h
      · rw [if_pos (by omega)]
      · split
        · congr 1
          exact BitVec.eq_of_toNat_eq (by omega)
        · rfl
    generalize (if count < v.size then count else v.size) = len at hlen
    have hrest : (count - len).toNat = count.toNat - len.toNat := BitVec.toNat_sub_of_le (BitVec.le_def.2 (by omega))
    have hleft : (v.size - len).toNat = v.size.toNat - len.toNat := BitVec.toNat_sub_of_le (BitVec.le_def.2 (by omega))
    have hcell : cells v.base v.size.toNat = cells v.base len.toNat ++ cells (v.base + len) (v.size.toNat - len.toNat) := by
      conv_lhs => rw [show v.size.toNat = len.toNat + (v.size.toNat - len.toNat) by omega, cells_add, BitVec.ofNat_toNat, BitVec.setWidth_eq]
    obtain ⟨h1, h2, h3⟩ := loop_moved hcopy iov (buf + len) (count - len) (done + len) (copy buf v.base len.toNat m)
    have hn : min count.toNat (areas (v :: iov)).length = len.toNat + min (count - len).toNat (areas iov).length := by
      rw [hall, length_append, cells_length, hrest]
      omega
    rw [hn]
    generalize hk : min (count - len).toNat (areas iov).length = k at h1 h2 h3
    have hsplit : areas (v :: iov) = cells v.base len.toNat ++ (cells (v.base + len) (v.size.toNat - len.toNat) ++ areas iov) := by
      rw [hall, hcell, append_assoc]
    have hdrop : ∀ l, (cells v.base len.toNat ++ l).drop (len.toNat + k) = l.drop k := fun l => by
      rw [drop_append, drop_eq_nil_of_le (by rw [cells_length]; omega), cells_length, Nat.add_sub_cancel_left, nil_append]
    have htake : ∀ l, (cells v.base len.toNat ++ l).take (len.toNat + k) = cells v.base len.toNat ++ l.take k := fun l => by
      rw [take_append, take_of_length_le (by rw [cells_length]; omega), cells_length, Nat.add_sub_cancel_left]
    -- either the area is used up or nothing is left to copy
    have hend : v.size.toNat - len.toNat = 0 ∨ k = 0 := by omega
    refine ⟨?_, ?_, ?_⟩
    · rw [h1, BitVec.ofNat_add, BitVec.ofNat_toNat, BitVec.setWidth_eq, BitVec.add_assoc]
    · show areas (⟨v.size - len, v.base + len⟩ :: _) = _
      rw [areas_cons, hleft, h2, hsplit, hdrop]
      rcases hend with e | e
      · rw [e]
        rfl
      · rw [e, drop_zero, drop_zero]
    · rw [h3, hcopy, ← copyBytes_append, ← map_append, cells_add, BitVec.ofNat_toNat, BitVec.setWidth_eq, hsplit, htake,
        zip_append (by rw [cells_length, cells_length])]
      rcases hend with e | e
      · rw [e]
        rfl
      · rw [e, take_zero, take_zero]

/-! ## The calls -/

def total (iov : List Iov) : Nat := (iov.map fun v => v.size.toNat).sum

theorem areas_length (iov : List Iov) : (areas iov).length = total iov := by
  unfold areas total
  rw [length_flatMap]
  simp only [cells_length]

theorem iovecSize_toNat (iov : List Iov) : (iovecSize iov).toNat = total iov % 2 ^ 32 := by
  suffices h : ∀ (l : List Iov) (a : Word), (l.foldl (fun size v => size + v.size) a).toNat = (a.toNat + total l) % 2 ^ 32 by
    exact (h iov 0).trans (by rw [show (0 : Word).toNat = 0 from rfl, Nat.zero_add])
  intro l
  induction l with
  | nil => exact fun a => (Nat.mod_eq_of_lt a.isLt).symm
  | cons v l ih =>
    intro a
    rw [foldl_cons, ih, BitVec.toNat_add, Nat.mod_add_mod, Nat.add_assoc]
    rfl

/-- What a call is to do: copy as many bytes as the buffer and the vector have, return how many, and leave the rest to the calls that
follow, so that two calls are one. -/
structure Copies (pair : Word × Word → Word × Word) (call : List Iov → Word → Word → Mem → Out) (iov : List Iov) (buf count : Word)
    (m : Mem) : Prop where
  ret : (call iov buf count m).ret.toInt = min count.toNat (iovecSize iov).toNat
  moved : Moved pair iov buf (min count.toNat (iovecSize iov).toNat) m (call iov buf count m)
  split : ∀ first ≤ count, ∀ r, call iov buf first m = r → ∀ s, call r.iov (buf + r.ret) (count - first) r.mem = s →
    (call iov buf count m).ret = r.ret + s.ret ∧ areas (call iov buf count m).iov = areas s.iov ∧ (call iov buf count m).mem = s.mem

/-- The sizes do not wrap, or the buffer is no larger than what is left of them, and the answer is no negative `int`. -/
def Counts (iov : List Iov) (count : Word) : Prop :=
  (total iov < 2 ^ 32 ∨ count.toNat ≤ total iov % 2 ^ 32) ∧ min count.toNat (total iov) < 2 ^ 31

theorem loop_split (hcopy : ∀ buf base n m, copy buf base n m = copyBytes (((cells buf n).zip (cells base n)).map pair) m)
    {first : Word} (hf : first ≤ count) {r s : Out} (hr : loop copy iov buf first 0 m = r)
    (hs : loop copy r.iov (buf + r.ret) (count - first) 0 r.mem = s) :
    (loop copy iov buf count 0 m).ret = r.ret + s.ret ∧ areas (loop copy iov buf count 0 m).iov = areas s.iov ∧
      (loop copy iov buf count 0 m).mem = s.mem := by
  obtain ⟨h1, h2, h3⟩ := loop_moved hcopy iov buf first 0 m
  rw [hr, zero_add_word] at h1
  rw [hr] at h2 h3
  obtain ⟨k1, k2, k3⟩ := loop_moved hcopy r.iov (buf + r.ret) (count - first) 0 r.mem
  obtain ⟨g1, g2, g3⟩ := loop_moved hcopy iov buf count 0 m
  rw [hs, zero_add_word] at k1
  rw [hs] at k2 k3
  rw [zero_add_word] at g1
  have hsub : (count - first).toNat = count.toNat - first.toNat := BitVec.toNat_sub_of_le hf
  have hle := BitVec.le_def.1 hf
  have hn : min count.toNat (areas iov).length =
      min first.toNat (areas iov).length + min (count - first).toNat (areas r.iov).length := by
    rw [h2, length_drop, hsub]
    omega
  generalize min first.toNat (areas iov).length = i at h1 h2 h3 hn
  rw [hn] at g1 g2 g3
  have hlen : i ≤ (areas iov).length := by omega
  refine ⟨by rw [g1, h1, k1, BitVec.ofNat_add], by rw [g2, k2, h2, drop_drop], ?_⟩
  rw [g3, k3, h3, ← copyBytes_append, ← map_append, h1, h2, cells_add, take_add,
    zip_append (by rw [cells_length, length_take, Nat.min_eq_left hlen])]

theorem loop_copies (hcopy : ∀ buf base n m, copy buf base n m = copyBytes (((cells buf n).zip (cells base n)).map pair) m) :
    Copies pair (fun iov buf count m => loop copy iov buf count 0 m) iov buf count m ↔ Counts iov count := by
  obtain ⟨h1, h2⟩ := loop_moved hcopy iov buf count 0 m
  rw [zero_add_word] at h1
  rw [areas_length] at h1 h2
  have hmin : (BitVec.ofNat 32 (min count.toNat (total iov))).toNat = min count.toNat (total iov) :=
    Nat.mod_eq_of_lt (by omega)
  constructor
  · rintro ⟨hret, ⟨harea, -⟩, -⟩
    rw [h1, iovecSize_toNat, BitVec.toInt_eq_toNat_cond, hmin] at hret
    unfold Counts
    split at hret <;> omega
  · rintro ⟨hsize, hint⟩
    have hn : min count.toNat (iovecSize iov).toNat = min count.toNat (total iov) := by
      rw [iovecSize_toNat]
      omega
    refine ⟨?_, by rw [hn]; exact h2, fun first hf r hr s hs => loop_split hcopy hf hr hs⟩
    rw [h1, hn, BitVec.toInt_eq_toNat_cond, hmin, if_pos (by omega)]

/-- Both calls keep the law of copies exactly where the number of bytes is right; bytes and areas move as they should anyway. -/
theorem iovec_copies (iov : List Iov) (buf count : Word) (m : Mem) :
    (Copies id iovecRead iov buf count m ↔ Counts iov count) ∧ (Copies Prod.swap iovecWrite iov buf count m ↔ Counts iov count) := by
  refine ⟨loop_copies fun buf base n m => ?_, loop_copies fun buf base n m => ?_⟩
  · rw [List.map_id]
    exact memcpy_eq n buf base m
  · rw [List.zip_swap]
    exact memcpy_eq n base buf m

/-- The sizes of 4096 areas of a megabyte add up to zero; a call for one byte copies it. -/
theorem sizes_wrap : ¬ Copies id iovecRead (List.replicate 4096 ⟨0x100000, 0x1000000⟩) 0x2000000 1 (fun _ => 0) := fun h => by
  have hsum : total (List.replicate 4096 ⟨0x100000, 0x1000000⟩) = 2 ^ 32 := by
    unfold total
    rw [List.map_replicate, List.sum_replicate]
    rfl
  have hret := h.ret
  rw [iovecSize_toNat, hsum] at hret
  exact absurd hret (by decide)

end Onix.Iovec
