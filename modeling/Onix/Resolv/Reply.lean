/-
What `resolve` makes of a reply. The format of a reply is given as a grammar: names, questions and answer records, each within the bytes
that were received. The code follows the grammar as far as it is met, and leaves the reply where it is not.
-/
import Onix.Resolv.Model

namespace Onix.Resolv

open Onix.Lib
open Onix.Tcp (IpAddr)

variable {w : Window Byte} {p q n count : Nat} {r : Option IpAddr} {a : IpAddr}

/-! ## The format -/

def be16 (mem : Nat → Byte) (i : Nat) : Nat := 256 * (mem i).toNat + (mem (i + 1)).toNat

def le16 (mem : Nat → Byte) (i : Nat) : Nat := (mem i).toNat + 256 * (mem (i + 1)).toNat

/-- A name from `p` to `q`: labels with their lengths, and a zero or a pointer at the end. -/
inductive Name (w : Window Byte) : Nat → Nat → Prop
  | root {p : Nat} : p < w.len → w.mem p = 0 → Name w p (p + 1)
  | pointer {p : Nat} : p + 1 < w.len → w.mem p &&& 0xC0#8 = 0xC0#8 → Name w p (p + 2)
  | label {p q : Nat} : p < w.len → w.mem p ≠ 0 → w.mem p &&& 0xC0#8 ≠ 0xC0#8 → Name w (p + (w.mem p).toNat + 1) q → Name w p q

/-- The questions from `p` on, as many of `count` as begin before the end, are there in full up to `q`. -/
def Questions (w : Window Byte) : Nat → Nat → Nat → Prop
  | 0, p, q => q = p
  | count + 1, p, q => if p < w.len then ∃ n, Name w p n ∧ n + 4 ≤ w.len ∧ Questions w count (n + 4) q else q = p

/-- What follows the name of a record at `n` is an address of the Internet. -/
def IsAnswer (mem : Nat → Byte) (n : Nat) : Prop := be16 mem n = DNS_TYPE_A ∧ be16 mem (n + 2) = DNS_CLASS_IN ∧ be16 mem (n + 8) = 4

def IsCname (mem : Nat → Byte) (n : Nat) : Prop := be16 mem n = DNS_TYPE_CNAME ∧ be16 mem (n + 2) = DNS_CLASS_IN

instance (mem : Nat → Byte) (n : Nat) : Decidable (IsAnswer mem n) := inferInstanceAs (Decidable (_ ∧ _))
instance (mem : Nat → Byte) (n : Nat) : Decidable (IsCname mem n) := inferInstanceAs (Decidable (_ ∧ _))

def dataAt (mem : Nat → Byte) (n : Nat) : IpAddr := mem (n + 13) ++ mem (n + 12) ++ mem (n + 11) ++ mem (n + 10)

/-- The first address among the answer records from `p` on that are there. -/
inductive First (w : Window Byte) : Nat → Nat → IpAddr → Prop
  | here {count p n : Nat} : p < w.len → Name w p n → n + 14 ≤ w.len → IsAnswer w.mem n → First w (count + 1) p (dataAt w.mem n)
  | later {count p n : Nat} {a : IpAddr} : p < w.len → Name w p n → n + 10 ≤ w.len → ¬ IsAnswer w.mem n →
    First w count (n + 10 + be16 w.mem (n + 8)) a → First w (count + 1) p a

def FirstAnswer (w : Window Byte) (a : IpAddr) : Prop := ∃ q, Questions w (le16 w.mem 4) dnsSize q ∧ First w (le16 w.mem 6) q a

/-! ## Reads -/

theorem u16At_ok {v : Nat} : u16At w p = .ok v ↔ p + 1 < w.len ∧ le16 w.mem p = v := by
  unfold u16At le16
  simp only [Window.bind_read, pure, Except.pure, Except.ok.injEq]
  constructor
  · rintro ⟨-, h⟩
    exact h
  · rintro ⟨h1, h2⟩
    exact ⟨by omega, h1, h2⟩

theorem ntohsAt_ok {v : Nat} : ntohsAt w p = .ok v ↔ p + 1 < w.len ∧ be16 w.mem p = v := by
  unfold ntohsAt be16
  simp only [Window.bind_read, pure, Except.pure, Except.ok.injEq]
  constructor
  · rintro ⟨-, h⟩
    exact h
  · rintro ⟨h1, h2⟩
    exact ⟨by omega, h1, h2⟩

theorem bind_eq_ok {α β : Type} {x : Except Nat α} {f : α → Except Nat β} {b : β} : x >>= f = .ok b ↔ ∃ a, x = .ok a ∧ f a = .ok b :=
  ⟨bind_ok, fun ⟨_, h1, h2⟩ => by rw [h1]; exact h2⟩

theorem bind_ntohsAt {β : Type} {f : Nat → Except Nat β} {b : β} :
    ntohsAt w p >>= f = .ok b ↔ p + 1 < w.len ∧ f (be16 w.mem p) = .ok b := by
  rw [bind_eq_ok]
  simp only [ntohsAt_ok]
  constructor
  · rintro ⟨v, ⟨h1, rfl⟩, h2⟩
    exact ⟨h1, h2⟩
  · rintro ⟨h1, h2⟩
    exact ⟨_, ⟨h1, rfl⟩, h2⟩

theorem bind_u16At {β : Type} {f : Nat → Except Nat β} {b : β} :
    u16At w p >>= f = .ok b ↔ p + 1 < w.len ∧ f (le16 w.mem p) = .ok b := by
  rw [bind_eq_ok]
  simp only [u16At_ok]
  constructor
  · rintro ⟨v, ⟨h1, rfl⟩, h2⟩
    exact ⟨h1, h2⟩
  · rintro ⟨h1, h2⟩
    exact ⟨_, ⟨h1, rfl⟩, h2⟩

theorem bind_ntohlAt {β : Type} {f : Nat → Except Nat β} {b : β} :
    ntohlAt w p >>= f = .ok b ↔ p + 3 < w.len ∧ f (65536 * be16 w.mem p + be16 w.mem (p + 2)) = .ok b := by
  unfold ntohlAt
  rw [bind_assoc, bind_ntohsAt, bind_assoc, bind_ntohsAt]
  constructor
  · rintro ⟨-, h1, h2⟩
    exact ⟨h1, h2⟩
  · rintro ⟨h1, h2⟩
    exact ⟨by omega, h1, h2⟩

theorem bind_addrAt {β : Type} {f : IpAddr → Except Nat β} {b : β} :
    addrAt w (n + 10) >>= f = .ok b ↔ n + 14 ≤ w.len ∧ f (dataAt w.mem n) = .ok b := by
  unfold addrAt
  simp only [bind_assoc, Window.bind_read]
  constructor
  · rintro ⟨-, -, -, h1, h2⟩
    exact ⟨h1, h2⟩
  · rintro ⟨h1, h2⟩
    exact ⟨by omega, by omega, by omega, h1, h2⟩

theorem bind_logString {β : Type} {x : Except Nat β} {b : β} :
    (logString w p >>= fun _ => x) = .ok b ↔ (∃ z, p ≤ z ∧ z < w.len ∧ w.mem z = 0) ∧ x = .ok b := by
  have hfind := Window.exists_find (w := w) (P := fun c => decide (c = 0)) (p := p)
  simp only [decide_eq_true_eq] at hfind
  unfold logString
  rw [bind_eq_ok, exists_and_right, hfind]

theorem pure_eq_ok {α : Type} {x y : α} : (pure x : Except Nat α) = .ok y ↔ x = y := by
  simp [pure, Except.pure]

/-! ## Names -/

theorem skipName_ok : skipName w p = .ok q ↔ Name w p q := by
  induction p using skipName.induct w with
  | case1 p hp size h0 =>
    unfold skipName
    rw [if_pos hp]
    rw [if_pos h0]
    constructor
    · intro h
      cases h
      exact .root hp h0
    · intro h
      cases h with
      | root _ _ => rfl
      | pointer _ h1 =>
        rw [show w.mem p = 0 from h0] at h1
        exact absurd h1 (by decide)
      | label _ h1 _ _ => exact absurd h0 h1
  | case2 p hp size h0 hc =>
    unfold skipName
    rw [if_pos hp]
    rw [if_neg h0, if_pos hc, bind_ntohsAt]
    constructor
    · rintro ⟨h1, h⟩
      cases h
      exact .pointer h1 hc
    · intro h
      cases h with
      | root _ h1 => exact absurd h1 h0
      | pointer h1 _ => exact ⟨h1, rfl⟩
      | label _ _ h1 _ => exact absurd hc h1
  | case3 p hp size h0 hc ih =>
    unfold skipName
    rw [if_pos hp]
    rw [if_neg h0, if_neg hc, ih]
    constructor
    · exact fun h => .label hp h0 hc h
    · intro h
      cases h with
      | root _ h1 => exact absurd h1 h0
      | pointer _ h1 => exact absurd h1 hc
      | label _ _ _ h1 => exact h1
  | case4 p hp =>
    unfold skipName
    rw [if_neg hp]
    refine iff_of_false nofun fun h => hp ?_
    cases h with
    | root h1 _ => exact h1
    | pointer h1 _ => exact Nat.lt_of_succ_lt h1
    | label h1 _ _ _ => exact h1

theorem Name.unique {m : Nat} (h1 : Name w p n) (h2 : Name w p m) : n = m :=
  Except.ok.inj ((skipName_ok.2 h1).symm.trans (skipName_ok.2 h2))

/-! ## Questions and answers -/

theorem questions_ok : ∀ {count p : Nat}, questions w count p = .ok q ↔ Questions w count p q
  | 0, p => by
    unfold questions Questions
    rw [Except.ok.injEq, eq_comm]
  | count + 1, p => by
    unfold questions Questions
    by_cases hp : p < w.len
    · rw [if_pos hp, if_pos hp, bind_eq_ok]
      refine exists_congr fun n => ?_
      rw [skipName_ok, bind_ntohsAt, bind_ntohsAt, questions_ok]
      constructor
      · rintro ⟨h1, -, h2, h3⟩
        exact ⟨h1, h2, h3⟩
      · rintro ⟨h1, h2, h3⟩
        exact ⟨h1, by omega, by omega, h3⟩
    · rw [if_neg hp, if_neg hp, Except.ok.injEq, eq_comm]

theorem answers_ok (hp : p < w.len) : answers w (count + 1) p = .ok r ↔ ∃ n, Name w p n ∧ n + 10 ≤ w.len ∧
    (IsAnswer w.mem n ∧ n + 14 ≤ w.len ∧ r = some (dataAt w.mem n) ∨
      ¬ IsAnswer w.mem n ∧ (IsCname w.mem n → ∃ z, n + 10 ≤ z ∧ z < w.len ∧ w.mem z = 0) ∧
        answers w count (n + 10 + be16 w.mem (n + 8)) = .ok r) := by
  rw [answers, if_pos hp, bind_eq_ok]
  refine exists_congr fun n => ?_
  rw [skipName_ok, bind_ntohsAt, bind_ntohsAt, bind_ntohlAt, bind_ntohsAt]
  -- the last of the fixed fields is the one that matters for the bound
  have hfixed : ∀ {P : Prop}, (n + 1 < w.len ∧ n + 2 + 1 < w.len ∧ n + 4 + 3 < w.len ∧ n + 8 + 1 < w.len ∧ P) ↔ n + 10 ≤ w.len ∧ P := by
    intro P
    constructor
    · rintro ⟨-, -, -, h1, h2⟩
      exact ⟨h1, h2⟩
    · rintro ⟨h1, h2⟩
      exact ⟨by omega, by omega, by omega, h1, h2⟩
  rw [hfixed]
  by_cases ha : IsAnswer w.mem n
  · rw [if_pos (show _ ∧ _ ∧ _ from ha), bind_addrAt, or_iff_left fun h => h.1 ha, and_iff_right ha]
    exact and_congr_right fun _ => by rw [pure_eq_ok, eq_comm]
  · rw [if_neg (show ¬ (_ ∧ _ ∧ _) from ha), or_iff_right fun h => ha h.1, and_iff_right ha]
    by_cases hc : IsCname w.mem n
    · rw [if_pos (show _ ∧ _ from hc), bind_logString, forall_prop_of_true hc]
    · rw [if_neg (show ¬ (_ ∧ _) from hc), and_iff_right fun h => absurd h hc]

theorem answers_first : ∀ {count p : Nat}, answers w count p = .ok r → (r = some a ↔ First w count p a)
  | 0, p, h => by
    cases h
    exact iff_of_false nofun fun h => by cases h
  | count + 1, p, h => by
    by_cases hp : p < w.len
    · obtain ⟨n, hn, hlen, ⟨ha, hdata, rfl⟩ | ⟨ha, -, hrest⟩⟩ := (answers_ok hp).1 h
      · rw [Option.some.injEq]
        constructor
        · rintro rfl
          exact .here hp hn hdata ha
        · intro hf
          cases hf with
          | here _ hn' _ _ => rw [hn.unique hn']
          | later _ hn' _ hna _ => exact absurd (hn.unique hn' ▸ ha) hna
      · rw [answers_first hrest]
        constructor
        · exact .later hp hn hlen ha
        · intro hf
          cases hf with
          | here _ hn' _ ha' => exact absurd (hn.unique hn' ▸ ha') ha
          | later _ hn' _ _ hf => exact hn.unique hn' ▸ hf
    · unfold answers at h
      rw [if_neg hp] at h
      cases h
      refine iff_of_false nofun fun hf => hp ?_
      cases hf with
      | here h1 _ _ _ => exact h1
      | later h1 _ _ _ _ => exact h1

/-! ## Whole replies -/

/-- Every record from `p` on that begins before the end, up to the first address, is there in full, an address with its data and an alias with
a zero somewhere after it. -/
def Records (w : Window Byte) : Nat → Nat → Prop
  | 0, _ => True
  | count + 1, p => p < w.len → ∃ n, Name w p n ∧ n + 10 ≤ w.len ∧
    if IsAnswer w.mem n then n + 14 ≤ w.len
    else (IsCname w.mem n → ∃ z, n + 10 ≤ z ∧ z < w.len ∧ w.mem z = 0) ∧ Records w count (n + 10 + be16 w.mem (n + 8))

theorem exists_answers : ∀ {count p : Nat}, (∃ r, answers w count p = .ok r) ↔ Records w count p
  | 0, p => iff_of_true ⟨none, rfl⟩ trivial
  | count + 1, p => by
    unfold Records
    by_cases hp : p < w.len
    · rw [forall_prop_of_true hp]
      simp only [answers_ok hp]
      rw [exists_comm]
      refine exists_congr fun n => ?_
      rw [exists_and_left]
      refine and_congr_right fun _ => ?_
      rw [exists_and_left]
      refine and_congr_right fun _ => ?_
      by_cases ha : IsAnswer w.mem n
      · rw [if_pos ha]
        constructor
        · rintro ⟨r, ⟨-, h, -⟩ | ⟨h, -⟩⟩
          · exact h
          · exact absurd ha h
        · exact fun h => ⟨_, .inl ⟨ha, h, rfl⟩⟩
      · rw [if_neg ha, ← exists_answers]
        constructor
        · rintro ⟨r, ⟨h, -⟩ | ⟨-, h1, h2⟩⟩
          · exact absurd h ha
          · exact ⟨h1, r, h2⟩
        · rintro ⟨h1, r, h2⟩
          exact ⟨r, .inr ⟨ha, h1, h2⟩⟩
    · refine iff_of_true ⟨none, ?_⟩ fun h => absurd h hp
      unfold answers
      rw [if_neg hp]

/-- `resolve` does not leave the reply and returns the first address, or an error when there is none. -/
def Resolves (w : Window Byte) : Prop := ∃ r, resolve w = .ok r ∧ ∀ a, r = some a ↔ FirstAnswer w a

def WholeReply (w : Window Byte) : Prop := 8 ≤ w.len ∧ ∃ q, Questions w (le16 w.mem 4) dnsSize q ∧ Records w (le16 w.mem 6) q

theorem resolve_ok : resolve w = .ok r ↔
    8 ≤ w.len ∧ ∃ q, Questions w (le16 w.mem 4) dnsSize q ∧ answers w (le16 w.mem 6) q = .ok r := by
  unfold resolve
  rw [bind_u16At, bind_eq_ok]
  simp only [bind_u16At, questions_ok]
  constructor
  · rintro ⟨-, q, hq, h1, h2⟩
    exact ⟨h1, q, hq, h2⟩
  · rintro ⟨h1, q, hq, h2⟩
    exact ⟨by omega, q, hq, h1, h2⟩

theorem resolves_iff : Resolves w ↔ WholeReply w := by
  unfold Resolves WholeReply
  simp only [resolve_ok, ← exists_answers]
  constructor
  · rintro ⟨r, ⟨h1, q, hq, h2⟩, -⟩
    exact ⟨h1, q, hq, r, h2⟩
  · rintro ⟨h1, q, hq, r, h2⟩
    refine ⟨r, ⟨h1, q, hq, h2⟩, fun a => ?_⟩
    rw [answers_first h2]
    constructor
    · exact fun h => ⟨q, hq, h⟩
    · rintro ⟨q', hq', h⟩
      have hqq : q = q' := Except.ok.inj ((questions_ok.2 hq).symm.trans (questions_ok.2 hq'))
      exact hqq ▸ h

/-- The parser of replies does what it is for exactly on whole replies. -/
theorem reply_parsing (reply : Window Byte) : Resolves (received reply) ↔ WholeReply (received reply) := resolves_iff

def cutReply : Window Byte := ⟨fun i => if i = 7 then 1 else if i = 12 then 3 else 0, 13⟩

theorem cut_reply_left : resolve (received cutReply) = .error 16 ∧ ¬ Resolves (received cutReply) := by
  have h : resolve (received cutReply) = .error 16 := by
    have hname : skipName (received cutReply) 12 = .error 16 := by
      rw [skipName, if_pos (by decide)]
      rw [if_neg (by decide), if_neg (by decide), skipName]
      exact if_neg (by decide)
    have hanswers : answers (received cutReply) 1 12 = .error 16 := by
      rw [answers, if_pos (by decide), hname]
      rfl
    exact hanswers
  refine ⟨h, ?_⟩
  rintro ⟨r, hr, -⟩
  cases h.symm.trans hr

end Onix.Resolv
