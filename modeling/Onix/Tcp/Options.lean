/-
`tcp_parse_option` on the bytes of a header. The loop reads a type, for most types a length, and
goes on after the option; `parseLoop` counts its rounds and records the places it reads. `decode`
is the list of options in the bytes, the one `tcpParseOption` works on. The two agree exactly when
no option has length zero and none is cut off by the end of the header.
-/
import Onix.Tcp.Model

namespace Onix.Tcp

open List

/-! ## The loop -/

def optEnd : UInt8 := 0

def optNop : UInt8 := 1

def optMss : UInt8 := 2

def optionsEnd (len : Nat) : Nat := 4 * len - 20

/-- What a round leads to: the result, or the next `ptr`. -/
inductive Next
  | done (ok : Bool)
  | goto (ptr : Nat)
  deriving DecidableEq

def ntohsAt (mem : Nat → UInt8) (ptr : Nat) : Nat := 256 * (mem ptr).toNat + (mem (ptr + 1)).toNat

/-- A round of `tcp_parse_option`, with the places it reads; `mem` is what lies from `tcp->options` on. -/
def parseRound (mem : Nat → UInt8) (ptr : Nat) (s : Pcb) : List Nat × Pcb × Next :=
  if mem ptr = optEnd then ([ptr], s, .done true)
  else if mem ptr = optNop then ([ptr], s, .goto (ptr + 1))
  else if mem ptr = optMss then
    if mem (ptr + 1) ≠ 4 then ([ptr, ptr + 1], s, .done false)
    else ([ptr, ptr + 1, ptr + 2, ptr + 3], { s with sndMss := ntohsAt mem (ptr + 2) }, .goto (ptr + (mem (ptr + 1)).toNat))
  else ([ptr, ptr + 1], s, .goto (ptr + (mem (ptr + 1)).toNat))

/-- What `tcp_parse_option` returns, and the places it read. -/
structure Parse where
  pcb : Pcb
  ok : Bool
  reads : List Nat

/-- At most `fuel` rounds of `tcp_parse_option`; `none` when it has not returned by then. -/
def parseLoop (mem : Nat → UInt8) (stop : Nat) : Nat → Nat → Pcb → Option Parse
  | 0, ptr, s => if stop ≤ ptr then some ⟨s, true, []⟩ else none
  | fuel + 1, ptr, s =>
    if stop ≤ ptr then some ⟨s, true, []⟩
    else
      match parseRound mem ptr s with
      | (reads, s, .done ok) => some ⟨s, ok, reads⟩
      | (reads, s, .goto ptr) => (parseLoop mem stop fuel ptr s).map fun r => { r with reads := reads ++ r.reads }

/-! ## The options in the bytes -/

def bytesFrom (mem : Nat → UInt8) (stop ptr : Nat) : List UInt8 := (List.range (stop - ptr)).map fun i => mem (ptr + i)

/-- The option of type `b` with the bytes `bs` after its type; an `MSS` that the end cuts off has no value. -/
def decodeOption (b : UInt8) : List UInt8 → TcpOpt
  | n :: v1 :: v2 :: _ => if b = optMss then .optMss n.toNat (256 * v1.toNat + v2.toNat) else .other
  | n :: _ => if b = optMss ∧ n ≠ 4 then .optMss n.toNat 0 else .other
  | [] => .other

/-- The options by their lengths up to the end marker, after `skip` bytes; a length of zero leads nowhere. -/
def decode : Nat → List UInt8 → List TcpOpt
  | _, [] => []
  | skip + 1, _ :: bs => decode skip bs
  | 0, b :: bs =>
    if b = optEnd then [.optEnd]
    else if b = optNop then .other :: decode 0 bs
    else
      match bs.head? with
      | none => [decodeOption b bs]
      | some n => decodeOption b bs :: if n = 0 then [] else decode (n.toNat - 1) bs

def TcpOpt.wellFormed : TcpOpt → Option Nat
  | .optMss 4 value => some value
  | _ => none

def TcpOpt.bad : TcpOpt → Bool
  | .optMss size _ => size ≠ 4
  | _ => false

/-- The value of the last well-formed `MSS` option before the end marker. -/
def lastMss (os : List TcpOpt) : Option Nat := ((os.takeWhile fun o => o ≠ .optEnd).filterMap TcpOpt.wellFormed).getLast?

def beforeBad (os : List TcpOpt) : List TcpOpt := os.takeWhile fun o => !o.bad

/-- Every option that is skipped has a length other than zero, and the end of the header cuts off no length and no
`MSS`, up to the end marker or an `MSS` of a wrong length; `skip` bytes come first. -/
def laid : Nat → List UInt8 → Bool
  | _, [] => true
  | skip + 1, _ :: bs => laid skip bs
  | 0, b :: bs =>
    if b = optEnd then true
    else if b = optNop then laid 0 bs
    else
      match bs.head? with
      | none => false
      | some n => if b = optMss then n ≠ 4 || (3 ≤ bs.length && laid 3 bs) else n ≠ 0 && laid (n.toNat - 1) bs

/-! ## Bytes -/

section

variable {mem : Nat → UInt8} {stop : Nat}

variable {ptr : Nat}

theorem bytesFrom_end (h : stop ≤ ptr) : bytesFrom mem stop ptr = [] := by
  simp [bytesFrom, Nat.sub_eq_zero_of_le h]

theorem bytesFrom_cons (h : ptr < stop) : bytesFrom mem stop ptr = mem ptr :: bytesFrom mem stop (ptr + 1) := by
  unfold bytesFrom
  rw [show stop - ptr = (stop - (ptr + 1)) + 1 by omega, range_succ_eq_map, map_cons, map_map]
  congr 1
  refine map_congr_left fun i _ => ?_
  simp only [Function.comp_apply, Nat.succ_eq_add_one]
  congr 1
  omega

theorem length_bytesFrom (ptr : Nat) : (bytesFrom mem stop ptr).length = stop - ptr := by
  simp [bytesFrom]

theorem bytesFrom_head (ptr : Nat) : (bytesFrom mem stop ptr).head? = if ptr < stop then some (mem ptr) else none := by
  split
  · rename_i h
    rw [bytesFrom_cons h]; rfl
  · rename_i h
    rw [bytesFrom_end (Nat.not_lt.1 h)]; rfl

theorem laid_cons (b : UInt8) (bs : List UInt8) :
    laid 0 (b :: bs) =
      if b = optEnd then true
      else if b = optNop then laid 0 bs
      else
        match bs.head? with
        | none => false
        | some n => if b = optMss then n ≠ 4 || (3 ≤ bs.length && laid 3 bs) else n ≠ 0 && laid (n.toNat - 1) bs := rfl

theorem laid_succ (k : Nat) (b : UInt8) (bs : List UInt8) : laid (k + 1) (b :: bs) = laid k bs := rfl

theorem laid_nil : ∀ k, laid k [] = true
  | 0 => rfl
  | _ + 1 => rfl

theorem decode_cons (b : UInt8) (bs : List UInt8) :
    decode 0 (b :: bs) =
      if b = optEnd then [.optEnd]
      else if b = optNop then .other :: decode 0 bs
      else
        match bs.head? with
        | none => [decodeOption b bs]
        | some n => decodeOption b bs :: if n = 0 then [] else decode (n.toNat - 1) bs := rfl

theorem decode_succ (k : Nat) (b : UInt8) (bs : List UInt8) : decode (k + 1) (b :: bs) = decode k bs := rfl

theorem decode_nil : ∀ k, decode k [] = []
  | 0 => rfl
  | _ + 1 => rfl

theorem laid_skip : ∀ (k ptr : Nat), laid k (bytesFrom mem stop ptr) = laid 0 (bytesFrom mem stop (ptr + k))
  | 0, _ => rfl
  | k + 1, ptr => by
    rcases Nat.lt_or_ge ptr stop with h | h
    · rw [bytesFrom_cons h, laid_succ, laid_skip k (ptr + 1), show ptr + 1 + k = ptr + (k + 1) by omega]
    · rw [bytesFrom_end h, bytesFrom_end (by omega), laid_nil, laid_nil]

theorem decode_skip : ∀ (k ptr : Nat), decode k (bytesFrom mem stop ptr) = decode 0 (bytesFrom mem stop (ptr + k))
  | 0, _ => rfl
  | k + 1, ptr => by
    rcases Nat.lt_or_ge ptr stop with h | h
    · rw [bytesFrom_cons h, decode_succ, decode_skip k (ptr + 1), show ptr + 1 + k = ptr + (k + 1) by omega]
    · rw [bytesFrom_end h, bytesFrom_end (by omega), decode_nil, decode_nil]

theorem laid_end (h : ptr < stop) (he : mem ptr = optEnd) : laid 0 (bytesFrom mem stop ptr) = true := by
  rw [bytesFrom_cons h, laid_cons, if_pos he]

theorem laid_nop (h : ptr < stop) (he : mem ptr ≠ optEnd) (hn : mem ptr = optNop) :
    laid 0 (bytesFrom mem stop ptr) = laid 0 (bytesFrom mem stop (ptr + 1)) := by
  rw [bytesFrom_cons h, laid_cons, if_neg he, if_pos hn]

theorem laid_mss (h : ptr < stop) (he : mem ptr ≠ optEnd) (hn : mem ptr ≠ optNop) (hm : mem ptr = optMss) :
    laid 0 (bytesFrom mem stop ptr) = true ↔
      ptr + 1 < stop ∧ (mem (ptr + 1) = 4 → ptr + 3 < stop ∧ laid 0 (bytesFrom mem stop (ptr + 4)) = true) := by
  rw [bytesFrom_cons h, laid_cons, if_neg he, if_neg hn, bytesFrom_head]
  by_cases hlt : ptr + 1 < stop
  · rw [if_pos hlt]
    simp only [hm, length_bytesFrom, ite_true, Bool.or_eq_true, Bool.and_eq_true, decide_eq_true_eq]
    rw [laid_skip 3 (ptr + 1), show ptr + 1 + 3 = ptr + 4 by omega, show 3 ≤ stop - (ptr + 1) ↔ ptr + 3 < stop by omega]
    tauto
  · rw [if_neg hlt]
    simp [hlt]

theorem laid_skipped (h : ptr < stop) (he : mem ptr ≠ optEnd) (hn : mem ptr ≠ optNop) (hm : mem ptr ≠ optMss) :
    laid 0 (bytesFrom mem stop ptr) = true ↔
      ptr + 1 < stop ∧ mem (ptr + 1) ≠ 0 ∧ laid 0 (bytesFrom mem stop (ptr + (mem (ptr + 1)).toNat)) = true := by
  rw [bytesFrom_cons h, laid_cons, if_neg he, if_neg hn, bytesFrom_head]
  by_cases hlt : ptr + 1 < stop
  · rw [if_pos hlt]
    simp only [hm, ite_false, Bool.and_eq_true, decide_eq_true_eq, hlt, true_and]
    refine and_congr_right fun h0 => ?_
    have : (mem (ptr + 1)).toNat ≠ 0 := fun e => h0 (UInt8.toNat_inj.1 e)
    rw [laid_skip _ (ptr + 1), show ptr + 1 + ((mem (ptr + 1)).toNat - 1) = ptr + (mem (ptr + 1)).toNat by omega]
  · rw [if_neg hlt]
    simp [hlt]

theorem decode_end (h : ptr < stop) (he : mem ptr = optEnd) : decode 0 (bytesFrom mem stop ptr) = [.optEnd] := by
  rw [bytesFrom_cons h, decode_cons, if_pos he]

theorem decode_nop (h : ptr < stop) (he : mem ptr ≠ optEnd) (hn : mem ptr = optNop) :
    decode 0 (bytesFrom mem stop ptr) = .other :: decode 0 (bytesFrom mem stop (ptr + 1)) := by
  rw [bytesFrom_cons h, decode_cons, if_neg he, if_pos hn]

theorem decode_sized (h : ptr + 1 < stop) (he : mem ptr ≠ optEnd) (hn : mem ptr ≠ optNop)
    (h0 : mem (ptr + 1) ≠ 0) : decode 0 (bytesFrom mem stop ptr) = decodeOption (mem ptr) (bytesFrom mem stop (ptr + 1)) ::
      decode 0 (bytesFrom mem stop (ptr + (mem (ptr + 1)).toNat)) := by
  have : (mem (ptr + 1)).toNat ≠ 0 := fun e => h0 (UInt8.toNat_inj.1 e)
  rw [bytesFrom_cons (by omega), decode_cons, if_neg he, if_neg hn, bytesFrom_head, if_pos h]
  simp only [if_neg h0]
  rw [decode_skip _ (ptr + 1), show ptr + 1 + ((mem (ptr + 1)).toNat - 1) = ptr + (mem (ptr + 1)).toNat by omega]

theorem decode_head (h : ptr + 1 < stop) (he : mem ptr ≠ optEnd) (hn : mem ptr ≠ optNop) :
    ∃ os, decode 0 (bytesFrom mem stop ptr) = decodeOption (mem ptr) (bytesFrom mem stop (ptr + 1)) :: os := by
  rw [bytesFrom_cons (by omega), decode_cons, if_neg he, if_neg hn, bytesFrom_head, if_pos h]
  exact ⟨_, rfl⟩

theorem decodeOption_mss (h : ptr + 3 < stop) (hm : mem ptr = optMss) :
    decodeOption (mem ptr) (bytesFrom mem stop (ptr + 1)) = .optMss (mem (ptr + 1)).toNat (ntohsAt mem (ptr + 2)) := by
  rw [bytesFrom_cons (by omega), bytesFrom_cons (by omega), bytesFrom_cons (by omega), hm]
  rfl

theorem decodeOption_bad (h : ptr + 1 < stop) (hm : mem ptr = optMss) (hb : mem (ptr + 1) ≠ 4) :
    ∃ v, decodeOption (mem ptr) (bytesFrom mem stop (ptr + 1)) = .optMss (mem (ptr + 1)).toNat v := by
  rw [bytesFrom_cons h, hm]
  unfold decodeOption
  split
  · rename_i e
    obtain ⟨rfl, -⟩ := cons.inj e
    exact ⟨_, rfl⟩
  · rename_i e
    obtain ⟨rfl, -⟩ := cons.inj e
    exact ⟨0, if_pos ⟨rfl, hb⟩⟩
  · rename_i e
    cases e

theorem decodeOption_other {b : UInt8} (bs : List UInt8) (hm : b ≠ optMss) : decodeOption b bs = .other := by
  unfold decodeOption
  split <;> simp [hm]

/-! ## The loop on well laid options -/

theorem parseLoop_laid : ∀ (fuel ptr : Nat) (s : Pcb), stop - ptr ≤ fuel → laid 0 (bytesFrom mem stop ptr) = true →
    ∃ r, parseLoop mem stop fuel ptr s = some r ∧ (∀ i ∈ r.reads, i < stop) ∧
      (r.pcb, r.ok) = tcpParseOption s (decode 0 (bytesFrom mem stop ptr)) := by
  intro fuel
  induction fuel with
  | zero =>
    intro ptr s hf hl
    refine ⟨⟨s, true, []⟩, if_pos (by omega), by simp, ?_⟩
    rw [bytesFrom_end (by omega)]; rfl
  | succ fuel ih =>
    intro ptr s hf hl
    unfold parseLoop
    by_cases hlt : stop ≤ ptr
    · refine ⟨⟨s, true, []⟩, if_pos hlt, by simp, ?_⟩
      rw [bytesFrom_end hlt]; rfl
    rw [if_neg hlt]
    unfold parseRound
    by_cases he : mem ptr = optEnd
    · rw [if_pos he, decode_end (by omega) he]
      exact ⟨_, rfl, by simp; omega, rfl⟩
    rw [if_neg he]
    by_cases hn : mem ptr = optNop
    · rw [laid_nop (by omega) he hn] at hl
      obtain ⟨r, h1, h2, h3⟩ := ih (ptr + 1) s (by omega) hl
      rw [if_pos hn, decode_nop (by omega) he hn]
      refine ⟨{ r with reads := [ptr] ++ r.reads }, by simp only [h1, Option.map_some], ?_, h3⟩
      simp only [mem_append, mem_singleton]
      rintro i (rfl | hi)
      · omega
      · exact h2 i hi
    rw [if_neg hn]
    by_cases hm : mem ptr = optMss
    · rw [if_pos hm]
      obtain ⟨h1, hl⟩ := (laid_mss (by omega) he hn hm).1 hl
      by_cases h4 : mem (ptr + 1) = 4
      · obtain ⟨h5, hl⟩ := hl h4
        have e4 : ptr + (mem (ptr + 1)).toNat = ptr + 4 := by rw [h4]; rfl
        rw [if_neg (not_not.2 h4), decode_sized h1 he hn (by rw [h4]; decide), decodeOption_mss h5 hm, e4]
        obtain ⟨r, h6, h7, h8⟩ := ih (ptr + 4) { s with sndMss := ntohsAt mem (ptr + 2) } (by omega) hl
        refine ⟨{ r with reads := [ptr, ptr + 1, ptr + 2, ptr + 3] ++ r.reads }, by simp only [h6, Option.map_some], ?_, ?_⟩
        · simp only [mem_append, mem_cons, not_mem_nil, or_false]
          rintro i ((rfl | rfl | rfl | rfl) | hi)
          iterate 4 omega
          exact h7 i hi
        · rw [h8, h4]; rfl
      · rw [if_pos h4]
        obtain ⟨os, hos⟩ := decode_head h1 he hn
        obtain ⟨v, hv⟩ := decodeOption_bad h1 hm h4
        have : (mem (ptr + 1)).toNat ≠ 4 := fun e => h4 (UInt8.toNat_inj.1 e)
        rw [hos, hv, tcpParseOption, if_pos this]
        refine ⟨_, rfl, ?_, rfl⟩
        simp only [mem_cons, not_mem_nil, or_false]
        rintro i (rfl | rfl) <;> omega
    · rw [if_neg hm]
      obtain ⟨h1, h0, hl⟩ := (laid_skipped (by omega) he hn hm).1 hl
      have : (mem (ptr + 1)).toNat ≠ 0 := fun e => h0 (UInt8.toNat_inj.1 e)
      obtain ⟨r, h6, h7, h8⟩ := ih (ptr + (mem (ptr + 1)).toNat) s (by omega) hl
      rw [decode_sized h1 he hn h0, decodeOption_other _ hm]
      refine ⟨{ r with reads := [ptr, ptr + 1] ++ r.reads }, by simp only [h6, Option.map_some], ?_, h8⟩
      simp only [mem_append, mem_cons, not_mem_nil, or_false]
      rintro i ((rfl | rfl) | hi)
      iterate 2 omega
      exact h7 i hi

theorem laid_of_parseLoop : ∀ (fuel ptr : Nat) (s : Pcb) (r : Parse), parseLoop mem stop fuel ptr s = some r →
    (∀ i ∈ r.reads, i < stop) → laid 0 (bytesFrom mem stop ptr) = true := by
  intro fuel
  induction fuel with
  | zero =>
    intro ptr s r h _
    unfold parseLoop at h
    split at h
    · rename_i hle
      rw [bytesFrom_end hle]; rfl
    · cases h
  | succ fuel ih =>
    intro ptr s r h hr
    unfold parseLoop at h
    by_cases hlt : stop ≤ ptr
    · rw [bytesFrom_end hlt]; rfl
    rw [if_neg hlt] at h
    unfold parseRound at h
    by_cases he : mem ptr = optEnd
    · exact laid_end (by omega) he
    rw [if_neg he] at h
    by_cases hn : mem ptr = optNop
    · rw [if_pos hn] at h
      obtain ⟨r', h1, rfl⟩ := Option.map_eq_some_iff.1 h
      rw [laid_nop (by omega) he hn]
      exact ih _ _ r' h1 fun i hi => hr i (mem_append_right _ hi)
    rw [if_neg hn] at h
    by_cases hm : mem ptr = optMss
    · rw [if_pos hm] at h
      rw [laid_mss (by omega) he hn hm]
      by_cases h4 : mem (ptr + 1) = 4
      · rw [if_neg (not_not.2 h4)] at h
        obtain ⟨r', h1, rfl⟩ := Option.map_eq_some_iff.1 h
        have h3 : ptr + 3 < stop := hr _ (by simp)
        have hl := ih _ _ r' h1 fun i hi => hr i (mem_append_right _ hi)
        rw [show ptr + (mem (ptr + 1)).toNat = ptr + 4 by rw [h4]; rfl] at hl
        exact ⟨by omega, fun _ => ⟨h3, hl⟩⟩
      · rw [if_pos h4] at h
        obtain rfl := Option.some.inj h
        exact ⟨hr _ (by simp), fun e => absurd e h4⟩
    · rw [if_neg hm] at h
      obtain ⟨r', h1, rfl⟩ := Option.map_eq_some_iff.1 h
      have h3 : ptr + 1 < stop := hr _ (by simp)
      have hl := ih _ _ r' h1 fun i hi => hr i (mem_append_right _ hi)
      refine (laid_skipped (by omega) he hn hm).2 ⟨h3, fun h0 => ?_, hl⟩
      -- a length of zero leads to the same place again, where the loop would have to return as well
      rw [show ptr + (mem (ptr + 1)).toNat = ptr by rw [h0]; rfl] at hl
      exact ((laid_skipped (by omega) he hn hm).1 hl).2.1 h0

end

/-! ## The value of the options -/

theorem lastMss_cons_mss (v : Nat) (os : List TcpOpt) : lastMss (.optMss 4 v :: os) = some ((lastMss os).getD v) := by
  unfold lastMss
  rw [takeWhile_cons_of_pos (by simp), filterMap_cons_some (f := TcpOpt.wellFormed) (b := v) rfl, getLast?_cons]

theorem lastMss_cons_other (os : List TcpOpt) : lastMss (.other :: os) = lastMss os := by
  unfold lastMss
  rw [takeWhile_cons_of_pos (by simp), filterMap_cons_none (f := TcpOpt.wellFormed) rfl]

theorem tcpParseOption_mss : ∀ (os : List TcpOpt) (s : Pcb),
    (tcpParseOption s os).1 = { s with sndMss := (lastMss (beforeBad os)).getD s.sndMss }
  | [], _ => rfl
  | .optEnd :: _, _ => rfl
  | .other :: os, s => by
    have e : beforeBad (.other :: os) = .other :: beforeBad os := takeWhile_cons_of_pos rfl
    rw [tcpParseOption, tcpParseOption_mss os s, e, lastMss_cons_other]
  | .optMss size v :: os, s => by
    by_cases h : size = 4
    · subst h
      have e : beforeBad (.optMss 4 v :: os) = .optMss 4 v :: beforeBad os := takeWhile_cons_of_pos rfl
      rw [tcpParseOption, if_neg (not_not.2 rfl), tcpParseOption_mss os, e, lastMss_cons_mss, Option.getD_some]
    · have e : beforeBad (.optMss size v :: os) = [] := takeWhile_cons_of_neg (by simp [TcpOpt.bad, h])
      rw [tcpParseOption, if_pos h, e]
      rfl

/-! ## Parsing -/

def headerOptions (mem : Nat → UInt8) (len : Nat) : List TcpOpt := decode 0 (bytesFrom mem (optionsEnd len) 0)

/-- `tcp_parse_option` returns after as many rounds as there are option bytes at most, reads nothing at or beyond the
end of the header and sets `snd_mss` to the value of the last well-formed `MSS` option before the end marker. -/
def Parses (mem : Nat → UInt8) (len : Nat) (s : Pcb) : Prop :=
  ∃ r, parseLoop mem (optionsEnd len) (optionsEnd len) 0 s = some r ∧ (∀ i ∈ r.reads, i < optionsEnd len) ∧
    r.pcb = { s with sndMss := (lastMss (headerOptions mem len)).getD s.sndMss }

/-- The options are well laid, and no `MSS` of a wrong length hides a later value. -/
def ParsesWhen (mem : Nat → UInt8) (len : Nat) (s : Pcb) : Prop :=
  laid 0 (bytesFrom mem (optionsEnd len) 0) = true ∧
    (lastMss (beforeBad (headerOptions mem len))).getD s.sndMss = (lastMss (headerOptions mem len)).getD s.sndMss

/-- The parser does what it is for exactly on well laid options. -/
theorem parse_options (mem : Nat → UInt8) (len : Nat) (s : Pcb) : Parses mem len s ↔ ParsesWhen mem len s := by
  constructor
  · rintro ⟨r, h1, h2, h3⟩
    have hl := laid_of_parseLoop _ _ s r h1 h2
    obtain ⟨r', h4, -, h5⟩ := parseLoop_laid (optionsEnd len) 0 s (by omega) hl
    obtain rfl : r' = r := Option.some.inj (h4.symm.trans h1)
    have h6 := (congrArg Prod.fst h5).trans (tcpParseOption_mss _ s)
    exact ⟨hl, congrArg Pcb.sndMss (h6.symm.trans h3)⟩
  · rintro ⟨hl, hm⟩
    obtain ⟨r, h1, h2, h3⟩ := parseLoop_laid (optionsEnd len) 0 s (by omega) hl
    refine ⟨r, h1, h2, ?_⟩
    rw [← hm]
    exact (congrArg Prod.fst h3).trans (tcpParseOption_mss _ s)

/-- Four option bytes that begin with a window scale of length zero: no number of rounds is enough. -/
theorem parse_endless : (∀ fuel, parseLoop (fun i => if i = 0 then 3 else 0) (optionsEnd 6) fuel 0 (tcpPcbGet 5) = none) ∧
    ¬ Parses (fun i => if i = 0 then 3 else 0) 6 (tcpPcbGet 5) := by
  have h : ∀ fuel, parseLoop (fun i => if i = 0 then 3 else 0) (optionsEnd 6) fuel 0 (tcpPcbGet 5) = none := by
    intro fuel
    induction fuel with
    | zero => rfl
    | succ fuel ih => exact congrArg (Option.map _) ih
  refine ⟨h, ?_⟩
  rintro ⟨r, h1, -⟩
  cases h1

end Onix.Tcp
