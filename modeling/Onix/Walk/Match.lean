/-
`match_name` on a name in a field of fixed width. A name that fills its field is not ended there, and the loop compares one character more
than it counts: when that character in memory is the separator that follows the name in the path, the count becomes -1 and the name is
taken for a longer one.
-/
import Mathlib.Data.List.TakeWhile
import Onix.Walk.Resolve

namespace Onix.Walk

open List

variable {field beyond path name tail rest : List Char} {n count : Nat}

/-! ## Fields -/

def upToZero (l : List Char) : List Char := l.takeWhile fun c => c ≠ '\x00'

/-- What `entry_name` points to: the field, and what comes after it in memory. -/
def entryString (field beyond : List Char) : List Char := upToZero (field ++ beyond)

def firstName (path : List Char) : List Char := path.takeWhile fun c => !isSeparator c

def afterName (path : List Char) : List Char := (path.dropWhile fun c => !isSeparator c).tail

/-- The name in the field is taken for the first name of the path exactly if it is that, and what follows is left. -/
def Matched (field beyond path : List Char) : Prop :=
  matchName path (entryString field beyond) field.length = if firstName path = upToZero field then some (afterName path) else none

def Ends (rest : List Char) : Prop := ∀ a l, rest = a :: l → isSeparator a = true

def Reaches (field path : List Char) : Prop := ∃ rest, path = upToZero field ++ rest ∧ Ends rest

/-- The name fills the field, and the path goes on after it with the character that comes after the field in memory. -/
def Clashes (field beyond path : List Char) : Prop :=
  '\x00' ∉ field ∧ ∃ a l m, path = field ++ a :: l ∧ upToZero beyond = a :: m

def Legible (field beyond path : List Char) : Prop :=
  Reaches field path → (Plain (upToZero field) ↔ ¬ Clashes field beyond path)

/-! ## The loop -/

theorem matchName_name (hcount : count = 0 ∨ tail = []) : ∀ (name path : List Char),
    (∃ rest, path = name ++ rest ∧ matchName path (name ++ tail) (name.length + count) = matchName rest tail count) ∨
      (∀ rest, path = name ++ rest → ¬ Ends rest) ∧ matchName path (name ++ tail) (name.length + count) = none
  | [], path => .inl ⟨path, rfl, by rw [nil_append, length_nil, Nat.zero_add]⟩
  | b :: name, [] => by
    refine .inr ⟨fun rest h => (nomatch h), ?_⟩
    rw [length_cons, cons_append, matchName, if_neg (by omega)]
  | b :: name, a :: path => by
    have hlen : (b :: name).length + count = name.length + count + 1 := by rw [length_cons]; omega
    rw [hlen, cons_append, matchName]
    by_cases hab : a = b
    · subst hab
      rw [if_pos rfl]
      rcases matchName_name hcount name path with ⟨rest, h1, h2⟩ | ⟨h1, h2⟩
      · exact .inl ⟨rest, by rw [h1, cons_append], h2⟩
      · exact .inr ⟨fun rest h => h1 rest (cons.inj h).2, h2⟩
    · rw [if_neg hab, if_pos (Nat.succ_ne_zero _)]
      exact .inr ⟨fun rest h => absurd (cons.inj h).1 hab, rfl⟩

theorem matchName_end (hcount : count = 0 ∨ tail = []) (rest : List Char) :
    ((∀ a l m, rest = a :: l → tail ≠ a :: m) ∧ Ends rest ∧ matchName rest tail count = some rest.tail) ∨
      ((∃ a l m, rest = a :: l ∧ tail = a :: m) ∨ ¬ Ends rest) ∧ matchName rest tail count = none := by
  rcases rest with _ | ⟨a, l⟩ <;> rcases tail with _ | ⟨b, m⟩
  · exact .inl ⟨fun _ _ _ he => (by cases he), fun _ _ he => (by cases he), rfl⟩
  · obtain rfl : count = 0 := hcount.resolve_right (cons_ne_nil b m)
    exact .inl ⟨fun _ _ _ he => (by cases he), fun _ _ he => (by cases he), rfl⟩
  · cases ha : isSeparator a with
    | true => exact .inl ⟨fun _ _ _ _ he => (by cases he), fun _ _ h => (cons.inj h).1 ▸ ha, by simp [matchName, ha]⟩
    | false => exact .inr ⟨.inr fun h => Bool.noConfusion (ha.symm.trans (h a l rfl)), by simp [matchName, ha]⟩
  · obtain rfl : count = 0 := hcount.resolve_right (cons_ne_nil b m)
    by_cases hab : a = b
    · subst hab
      exact .inr ⟨.inl ⟨a, l, m, rfl, rfl⟩, by simp [matchName]⟩
    · cases ha : isSeparator a with
      | true =>
        refine .inl ⟨fun c x y h1 h2 => hab ?_, fun _ _ h => (cons.inj h).1 ▸ ha, by simp [matchName, hab, ha]⟩
        rw [(cons.inj h1).1, (cons.inj h2).1]
      | false => exact .inr ⟨.inr fun h => Bool.noConfusion (ha.symm.trans (h a l rfl)), by simp [matchName, hab, ha]⟩

/-! ## Names in fields -/

theorem upToZero_full (h : '\x00' ∉ field) : upToZero field = field := by
  exact takeWhile_eq_self_iff.2 fun c hc => decide_eq_true fun (e : c = '\x00') => h (e ▸ hc)

theorem entryString_cases (field beyond : List Char) :
    (∃ count, '\x00' ∈ field ∧ entryString field beyond = upToZero field ++ [] ∧ field.length = (upToZero field).length + count) ∨
      '\x00' ∉ field ∧ entryString field beyond = upToZero field ++ upToZero beyond ∧ field.length = (upToZero field).length + 0 := by
  by_cases h : '\x00' ∈ field
  · refine .inl ⟨field.length - (upToZero field).length, h, ?_, ?_⟩
    · unfold entryString upToZero
      rw [append_nil, takeWhile_append, if_neg]
      intro hl
      have hall := takeWhile_eq_self_iff.1 ((takeWhile_sublist _).eq_of_length hl) _ h
      simp at hall
    · have : (upToZero field).length ≤ field.length := (takeWhile_sublist _).length_le
      omega
  · have hall : ∀ c ∈ field, decide (c ≠ '\x00') = true := fun c hc => decide_eq_true fun e => h (e ▸ hc)
    refine .inr ⟨h, ?_, ?_⟩
    · unfold entryString
      rw [upToZero_full h]
      exact takeWhile_append_of_pos hall
    · rw [upToZero_full h, Nat.add_zero]

theorem firstName_append (h : Plain name) (hr : Ends rest) : firstName (name ++ rest) = name ∧ afterName (name ++ rest) = rest.tail := by
  have hname : ∀ c ∈ name, (!isSeparator c) = true := fun c hc => by rw [h c hc]; rfl
  have hrest : rest.takeWhile (fun c => !isSeparator c) = [] ∧ rest.dropWhile (fun c => !isSeparator c) = rest := by
    cases rest with
    | nil => exact ⟨rfl, rfl⟩
    | cons a l => simp [hr a l rfl]
  unfold firstName afterName
  rw [takeWhile_append_of_pos hname, dropWhile_append_of_pos hname, hrest.1, hrest.2, append_nil]
  exact ⟨rfl, rfl⟩

theorem plain_firstName (path : List Char) : Plain (firstName path) := fun c hc => by
  have := mem_takeWhile_imp hc
  simpa using this

theorem firstName_reaches (h : firstName path = upToZero field) : Reaches field path := by
  refine ⟨path.dropWhile fun c => !isSeparator c, ?_, fun a l hl => ?_⟩
  · rw [← h]
    exact takeWhile_append_dropWhile.symm
  · have := head_dropWhile_not (fun c => !isSeparator c) (l := path) (by rw [hl]; exact cons_ne_nil a l)
    simpa [hl] using this

theorem reaches_iff : Reaches field path → ∀ rest, path = upToZero field ++ rest → Ends rest := by
  rintro ⟨r, h1, h2⟩ rest h
  rw [append_cancel_left (h.symm.trans h1)]
  exact h2

theorem matchName_field (field beyond path : List Char) :
    (∃ rest, path = upToZero field ++ rest ∧ Ends rest ∧ ¬ Clashes field beyond path ∧
        matchName path (entryString field beyond) field.length = some rest.tail) ∨
      ¬ (Reaches field path ∧ ¬ Clashes field beyond path) ∧ matchName path (entryString field beyond) field.length = none := by
  have key : ∀ tail count, (count = 0 ∨ tail = []) → entryString field beyond = upToZero field ++ tail →
      field.length = (upToZero field).length + count →
      (∀ rest, path = upToZero field ++ rest → ((∃ a l m, rest = a :: l ∧ tail = a :: m) ↔ Clashes field beyond path)) →
      (∃ rest, path = upToZero field ++ rest ∧ Ends rest ∧ ¬ Clashes field beyond path ∧
          matchName path (entryString field beyond) field.length = some rest.tail) ∨
        ¬ (Reaches field path ∧ ¬ Clashes field beyond path) ∧ matchName path (entryString field beyond) field.length = none := by
    intro tail count hcount hentry hlen hclash
    rw [hentry, hlen]
    rcases matchName_name hcount (upToZero field) path with ⟨rest, h1, h2⟩ | ⟨h1, h2⟩
    · rw [h2]
      rcases matchName_end hcount rest with ⟨h3, h4, h5⟩ | ⟨h3, h4⟩
      · refine .inl ⟨rest, h1, h4, fun h => ?_, h5⟩
        obtain ⟨a, l, m, h6, h7⟩ := (hclash rest h1).2 h
        exact h3 a l m h6 h7
      · exact .inr ⟨fun ⟨hr, hn⟩ => h3.elim (fun h => hn ((hclash rest h1).1 h)) fun h => h (reaches_iff hr rest h1), h4⟩
    · rw [h2]
      exact .inr ⟨fun ⟨⟨rest, hr, he⟩, _⟩ => h1 rest hr he, rfl⟩
  rcases entryString_cases field beyond with ⟨count, h0, h1, h2⟩ | ⟨h0, h1, h2⟩
  · refine key [] count (.inr rfl) h1 h2 fun rest _ => ⟨fun ⟨_, _, _, _, h⟩ => (nomatch h), fun h => absurd h0 h.1⟩
  · refine key (upToZero beyond) 0 (.inl rfl) h1 h2 fun rest hr => ?_
    rw [upToZero_full h0] at hr
    constructor
    · rintro ⟨a, l, m, rfl, hm⟩
      exact ⟨h0, a, l, m, hr, hm⟩
    · rintro ⟨-, a, l, m, h3, h4⟩
      exact ⟨a, l, m, append_cancel_left (hr.symm.trans h3), h4⟩

theorem matchName_ended (h0 : '\x00' ∉ name) (hplain : Plain name) (path : List Char) (n : Nat) :
    matchName path name (name.length + (n + 1)) = if firstName path = name then some (afterName path) else none := by
  have hall : ∀ c ∈ name, decide (c ≠ '\x00') = true := fun c hc => decide_eq_true fun e => h0 (e ▸ hc)
  have hname : upToZero (name ++ replicate (n + 1) '\x00') = name := by
    unfold upToZero
    rw [takeWhile_append_of_pos hall, replicate_succ]
    exact append_nil name
  have hentry : entryString (name ++ replicate (n + 1) '\x00') [] = name := by
    unfold entryString
    rw [append_nil, hname]
  have hclash : ¬ Clashes (name ++ replicate (n + 1) '\x00') [] path := fun h => h.1 (by simp)
  have hfield := matchName_field (name ++ replicate (n + 1) '\x00') [] path
  rw [hentry, hname, length_append, length_replicate] at hfield
  rcases hfield with ⟨rest, hp, he, -, hm⟩ | ⟨hn, hm⟩
  · obtain ⟨h1, h2⟩ := firstName_append hplain he
    rw [← hp] at h1 h2
    rw [hm, if_pos h1, h2]
  · rw [hm, if_neg fun hf => hn ⟨firstName_reaches (hf.trans hname.symm), hclash⟩]

/-- The name in a field of any width matches as it is to exactly if, where the path goes over the whole name, either the name has no
separator and what comes after a full field is not the separator that comes next in the path, or both fail. -/
theorem component_matched (field beyond path : List Char) : Matched field beyond path ↔ Legible field beyond path := by
  unfold Matched Legible
  rcases matchName_field field beyond path with ⟨rest, hp, he, hc, hm⟩ | ⟨hn, hm⟩
  · have hreach : Reaches field path := ⟨rest, hp, he⟩
    rw [hm]
    constructor
    · intro h _
      refine ⟨fun _ => hc, fun _ => ?_⟩
      split at h
      · rename_i hf
        exact hf ▸ plain_firstName path
      · cases h
    · intro h
      obtain ⟨h1, h2⟩ := firstName_append ((h hreach).2 hc) he
      rw [← hp] at h1 h2
      rw [if_pos h1, h2]
  · rw [hm]
    constructor
    · intro h hr
      have hc : Clashes field beyond path := by
        by_contra hc
        exact hn ⟨hr, hc⟩
      refine ⟨fun hplain => ?_, fun h => absurd hc h⟩
      obtain ⟨rest, hp, he⟩ := hr
      obtain ⟨h1, -⟩ := firstName_append hplain he
      rw [if_pos (hp ▸ h1)] at h
      cases h
    · intro h
      by_cases hf : firstName path = upToZero field
      · have hr := firstName_reaches hf
        exact absurd ⟨hr, (h hr).1 (hf ▸ plain_firstName path)⟩ hn
      · rw [if_neg hf]

/-- A name of 14 characters before an entry with the inode number 47, which is the code of the separator. -/
theorem full_name_missed : firstName "abcdefghijklmn/x".toList = upToZero "abcdefghijklmn".toList ∧
    matchName "abcdefghijklmn/x".toList (entryString "abcdefghijklmn".toList ['/']) MINIX1_NAME_LEN = none ∧
    matchName "abcdefghijklmn/x".toList (entryString "abcdefghijklmn".toList ['\x00']) MINIX1_NAME_LEN = some ['x'] ∧
    ¬ Matched "abcdefghijklmn".toList ['/'] "abcdefghijklmn/x".toList := by
  have h1 : firstName "abcdefghijklmn/x".toList = upToZero "abcdefghijklmn".toList := by decide
  have h2 : matchName "abcdefghijklmn/x".toList (entryString "abcdefghijklmn".toList ['/']) MINIX1_NAME_LEN = none := by decide
  refine ⟨h1, h2, by decide, fun h => ?_⟩
  cases h

end Onix.Walk
