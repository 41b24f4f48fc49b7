/-
The framing of control sequences: which of them bring the parser back to its normal state, with the command carried out on the arguments
that were written, so that the text after them is shown.
-/
import Mathlib.Data.List.GetD
import Onix.Vga.Bounds

namespace Onix.Vga

open List Onix.Lib

variable {c d e : Console} {st : State} {ch : BitVec 8} {buf : List (BitVec 8)}

/-! ## The state of the parser -/

abbrev Stays (st : State) (r : Except Fault Console) : Prop := Sat (fun _ => False) r fun d => d.state = st

theorem store_stays (a : Word) (v : BitVec 8) (h : c.state = st) : Stays st (c.store a v) := by
  exact sat_ite (fun _ => h) fun _ => id

theorem load_stays {Q : BitVec 8 → Prop} (a : Word) (h : ∀ v, Q v) : Sat (fun _ => False) (c.load a) Q := by
  unfold Console.load
  split
  · exact h _
  · exact id

theorem store16_stays (a : Word) (v : BitVec 16) (h : c.state = st) : Stays st (c.store16 a v) :=
  (store_stays _ _ h).bind fun _ _ hd => store_stays _ _ hd

theorem memcpy_stays : ∀ (n : Nat) (dest src : Word) (c : Console), c.state = st → Stays st (memcpy n dest src c)
  | 0, _, _, _, h => h
  | n + 1, dest, src, _, h =>
    (load_stays (Q := fun _ => True) src fun _ => trivial).bind fun _ _ _ =>
      (store_stays dest _ h).bind fun d _ hd => memcpy_stays n _ _ d hd

theorem eraseScreen_stays : ∀ (n : Nat) (start : Word) (c : Console), c.state = st → Stays st (eraseScreen n start c)
  | 0, _, _, h => h
  | n + 1, start, _, h => (store16_stays start _ h).bind fun d _ hd => eraseScreen_stays n _ d hd

theorem setXy_state (c : Console) (x y : Word) : (setXy c x y).state = c.state := by
  unfold setXy
  split <;> rfl

theorem scrollUp_stays (h : c.state = st) : Stays st (scrollUp c) := by
  refine Sat.bind (Q := fun d => d.state = st) ?_ fun d _ hd => (eraseScreen_stays _ _ d hd).bind fun e _ he => he
  exact sat_ite (fun _ => (memcpy_stays _ _ _ c h).bind fun d _ hd => hd) fun _ => h

theorem lf_stays (h : c.state = st) : Stays st (lf c) := by
  exact sat_ite (fun _ => h) fun _ => scrollUp_stays h

theorem newline_stays (h : c.state = st) : Stays st (newline c) := (lf_stays h).bind fun _ _ hd => hd

theorem wrap_stays (h : c.state = st) : Stays st (wrap c) := by
  exact sat_ite (fun _ => lf_stays h) fun _ => h

theorem bs_stays (h : c.state = st) : Stays st (bs c) := by
  exact sat_ite (fun _ => h) fun _ => store16_stays _ _ h

theorem putc_stays (v : BitVec 8) (h : c.state = st) : Stays st (putc c v) := (store_stays _ _ h).bind fun _ _ hd => hd

theorem chr_stays (v : BitVec 8) (h : c.state = st) : Stays st (chr c v) :=
  (wrap_stays h).bind fun _ _ h => (putc_stays _ h).bind fun _ _ h => (putc_stays _ h).bind fun _ _ h => h

theorem csiJ_stays (h : c.state = st) : Stays st (csiJ c) := by
  exact sat_ite (fun _ => eraseScreen_stays _ _ c h) fun _ => sat_ite (fun _ => eraseScreen_stays _ _ c h) fun _ =>
    sat_ite (fun _ => eraseScreen_stays _ _ c h) fun _ => h

theorem csiK_stays (h : c.state = st) : Stays st (csiK c) := by
  exact sat_ite (fun _ => eraseScreen_stays _ _ c h) fun _ => sat_ite (fun _ => eraseScreen_stays _ _ c h) fun _ =>
    sat_ite (fun _ => eraseScreen_stays _ _ c h) fun _ => h

theorem insertLineLoop_stays (start : Word) : ∀ (fuel : Nat) (i : Word) (c : Console), c.state = st → Stays st (insertLineLoop fuel i start c)
  | 0, _, _, _ => id
  | fuel + 1, i, c, h => by
    exact sat_ite (fun _ => h) fun _ => (memcpy_stays _ _ _ c h).bind fun d _ hd => insertLineLoop_stays start fuel (i + 1) d hd

theorem deleteLineLoop_stays (start : Word) : ∀ (fuel : Nat) (i : Word) (c : Console), c.state = st → Stays st (deleteLineLoop fuel i start c)
  | 0, _, _, _ => id
  | fuel + 1, i, c, h => by
    exact sat_ite (fun _ => h) fun _ => (memcpy_stays _ _ _ c h).bind fun d _ hd => deleteLineLoop_stays start fuel (i + 1) d hd

theorem load16_stays (a : Word) : Sat (fun _ => False) (c.load16 a) fun _ => True :=
  (load_stays (Q := fun _ => True) a fun _ => trivial).bind fun _ _ _ => (load_stays (Q := fun _ => True) _ fun _ => trivial).bind fun _ _ _ => trivial

theorem deleteCharLoop_stays : ∀ (fuel : Nat) (i : BitVec 16) (ptr : Word) (c : Console), c.state = st →
    Sat (fun _ => False) (deleteCharLoop fuel i ptr c) fun r => r.2.state = st
  | 0, _, _, _, _ => id
  | fuel + 1, i, ptr, c, h => by
    exact sat_ite (fun _ => (load16_stays _).bind fun _ _ _ => (store16_stays _ _ h).bind fun d _ hd => deleteCharLoop_stays fuel _ _ d hd)
      fun _ => h

theorem insertCharLoop_stays : ∀ (fuel : Nat) (ptr : Word) (c : Console), c.state = st → Stays st (insertCharLoop fuel ptr c)
  | 0, _, _, _ => id
  | fuel + 1, ptr, c, h => by
    exact sat_ite (fun _ => (load16_stays _).bind fun _ _ _ => (store16_stays _ _ h).bind fun d _ hd => insertCharLoop_stays fuel _ d hd)
      fun _ => h

theorem insertLine_stays (h : c.state = st) : Stays st (insertLine c) :=
  (insertLineLoop_stays _ _ _ c h).bind fun d _ hd => eraseScreen_stays _ _ d hd

theorem deleteLine_stays (h : c.state = st) : Stays st (deleteLine c) :=
  (deleteLineLoop_stays _ _ _ c h).bind fun d _ hd => eraseScreen_stays _ _ d hd

theorem deleteChar_stays (h : c.state = st) : Stays st (deleteChar c) :=
  (deleteCharLoop_stays _ _ _ c h).bind fun _ _ hr => store16_stays _ _ hr

theorem insertChar_stays (h : c.state = st) : Stays st (insertChar c) :=
  (insertCharLoop_stays _ _ c h).bind fun _ _ hd => store_stays _ _ hd

theorem repeated_stays {f : Console → Except Fault Console} (hf : ∀ {c}, c.state = st → Stays st (f c)) : ∀ (n : Nat) (c : Console),
    c.state = st → Stays st (repeated f n c)
  | 0, _, h => h
  | n + 1, _, h => (hf h).bind fun d _ hd => repeated_stays hf n d hd

theorem decArg_state (c : Console) (i : Nat) : (c.decArg i).state = c.state := by
  unfold Console.decArg
  split <;> rfl

theorem orOne_state (c : Console) : c.orOne.state = c.state := by
  unfold Console.orOne
  split <;> rfl

theorem stateCsi_nor (c : Console) (ch : BitVec 8) : Stays .nor (stateCsi c ch) := by
  have hxy : ∀ (c : Console) (x y : Word), c.state = .nor → Stays .nor (.ok (setXy c x y)) := fun c x y h => (setXy_state c x y).trans h
  have h1 := fun c : Console => orOne_state { c with state := .nor }
  have h2 := fun c : Console => decArg_state { c with state := .nor }
  unfold stateCsi
  split
  · exact hxy _ _ _ (h2 c 0)
  · exact hxy _ _ _ (h2 c 0)
  · exact hxy _ _ _ (h1 c)
  · exact hxy _ _ _ (h1 c)
  · exact hxy _ _ _ (h1 c)
  · exact hxy _ _ _ (h1 c)
  · exact hxy _ _ _ (h1 c)
  · exact hxy _ _ _ (h1 c)
  · exact hxy _ _ _ (h1 c)
  · exact hxy _ _ _ (h1 c)
  · exact hxy _ _ _ (h2 c 0)
  · exact hxy _ _ _ ((decArg_state _ 1).trans (h2 c 0))
  · exact hxy _ _ _ ((decArg_state _ 1).trans (h2 c 0))
  · exact csiJ_stays rfl
  · exact csiK_stays rfl
  · exact repeated_stays insertLine_stays _ _ rfl
  · exact repeated_stays deleteLine_stays _ _ rfl
  · exact repeated_stays deleteChar_stays _ _ rfl
  · exact repeated_stays insertChar_stays _ _ rfl
  · exact Sat.ok rfl
  · exact hxy _ _ _ rfl
  · exact hxy _ _ _ rfl
  · exact Sat.ok rfl

theorem toNat_charOfNat {n : Nat} (h : n < 0xd800) : (Char.ofNat n).toNat = n := by
  have hv : n.isValidChar := .inl h
  unfold Char.ofNat
  rw [dif_pos hv]
  rfl

theorem eq_of_char {x : BitVec 8} (h : Char.ofNat ch.toNat = Char.ofNat x.toNat) : ch = x := by
  have h1 := congrArg Char.toNat h
  rw [toNat_charOfNat (by have := ch.isLt; omega), toNat_charOfNat (by have := x.isLt; omega)] at h1
  exact BitVec.eq_of_toNat_eq h1

theorem stateEsc_stays (st : State) (h : c.state = st) (hch : ch ≠ 0x5B) : Stays st (stateEsc c ch) := by
  unfold stateEsc
  split
  · rename_i heq
    exact absurd (eq_of_char (x := 0x5B) heq) hch
  · exact newline_stays h
  · exact lf_stays h
  · exact Sat.ok h
  · exact Sat.ok ((setXy_state ..).trans h)
  · exact Sat.ok h

theorem stateNormal_stays (h : c.state = st) (hch : ch ≠ 0x1B) : Stays st (stateNormal c ch) := by
  unfold stateNormal
  split
  · exact Sat.ok h
  · exact Sat.ok h
  · exact bs_stays h
  · exact wrap_stays h
  · exact newline_stays h
  · exact lf_stays h
  · exact lf_stays h
  · exact Sat.ok h
  · exact store16_stays _ _ h
  · rename_i heq
    exact absurd (BitVec.eq_of_toNat_eq heq) hch
  · exact chr_stays ch h

/-! ## Sequences -/

def Ends (ch : BitVec 8) : Prop := ¬ (0x30 ≤ ch ∧ ch ≤ 0x39) ∧ ch ≠ 0x3B ∧ ch ≠ 0x3F

instance (ch : BitVec 8) : Decidable (Ends ch) := inferInstanceAs (Decidable (_ ∧ _ ∧ _))

abbrev Param := List (Fin 10)

/-- What is written: another byte than ESC, ESC with another byte than `[`, or ESC and `[` with parameters and a last byte. -/
inductive Item
  | byte (ch : { ch : BitVec 8 // ch ≠ 0x1B })
  | esc (ch : { ch : BitVec 8 // ch ≠ 0x5B })
  | csi (first : Param) (rest : List Param) (last : { ch : BitVec 8 // Ends ch })

def Param.bytes (p : Param) : List (BitVec 8) := p.map fun n : Fin 10 => 0x30 + BitVec.ofNat 8 n.1

def Param.value (p : Param) : Nat := p.foldl (fun v (n : Fin 10) => v * 10 + n.1) 0

def body (first : Param) (rest : List Param) (ch : BitVec 8) : List (BitVec 8) :=
  first.bytes ++ (rest.flatMap fun p => 0x3B :: p.bytes) ++ [ch]

def Item.bytes : Item → List (BitVec 8)
  | .byte ch => [ch.1]
  | .esc ch => [0x1B, ch.1]
  | .csi first rest last => 0x1B :: 0x5B :: body first rest last.1

/-- The command of a control sequence; as `state_csi` has it, but that `s` only saves the position. -/
def command (c : Console) (ch : BitVec 8) : Except Fault Console :=
  if ch = 0x73 then .ok (saveCursor { c with state := .nor }) else stateCsi c ch

def Holds (args : Nat → Word) (params : List Param) : Prop := ∀ i, (args i).toNat = (params.getD i []).value

/-- What an item does: a byte is shown or moves the cursor, a sequence carries out its command on its parameters. -/
def Performs (c : Console) : Item → Console → Prop
  | .byte ch, d => stateNormal c ch.1 = .ok d
  | .esc ch, d => stateEsc c ch.1 = .ok d
  | .csi first rest last, d =>
    ∃ args, Holds args (first :: rest) ∧ command { c with args := args, argc := BitVec.ofNat 32 (rest.length + 1), ques := false } last.1 = .ok d

def Printable (ch : BitVec 8) : Prop := 0x20 ≤ ch ∧ ch ≠ 0x7F

/-- The item is carried out, the parser is in the normal state, and text that follows is shown. -/
structure Frames (c : Console) (q : Item) (d : Console) : Prop where
  performs : Performs c q d
  nor : d.state = .nor
  shown : ∀ text, (∀ ch ∈ text, Printable ch) → consoleWrite c (q.bytes ++ text) = text.foldlM chr d

def Framed : Console → List Item → Prop
  | _, [] => True
  | c, q :: items => ∃ d, Frames c q d ∧ Framed d items

/-- No sequence but those with `[`, with as many parameters as there are words for, and none that is too large for its word. -/
def Item.Fits : Item → Prop
  | .byte _ => True
  | .esc _ => False
  | .csi first rest _ => rest.length < 16 ∧ ∀ p ∈ first :: rest, p.value < 2 ^ 32

/-! ## The arguments -/

def words (params : List Param) (i : Nat) : Word := BitVec.ofNat 32 (params.getD i []).value

def Console.parsing (c : Console) (params : List Param) : Console :=
  { c with state := .arg, args := words params, argc := BitVec.ofNat 32 (params.length - 1), ques := false }

variable {params : List Param}

theorem holds_words (h : ∀ p ∈ params, p.value < 2 ^ 32) : Holds (words params) params := by
  intro i
  refine Nat.mod_eq_of_lt ?_
  rw [getD_eq_getElem?_getD]
  cases hp : params[i]? with
  | none => exact Nat.two_pow_pos 32
  | some p => exact h p (mem_of_getElem? hp)

theorem value_snoc (p : Param) (n : Fin 10) : Param.value (p ++ [n]) = p.value * 10 + n := by
  unfold Param.value
  rw [foldl_append]
  rfl

theorem getD_last (params : List Param) (p : Param) : (params ++ [p]).getD params.length [] = p := by
  rw [getD_append_right _ _ _ _ (Nat.le_refl _), Nat.sub_self]
  rfl

theorem getD_other (params : List Param) (p q : Param) {i : Nat} (h : i ≠ params.length) :
    (params ++ [p]).getD i [] = (params ++ [q]).getD i [] := by
  rcases Nat.lt_or_ge i params.length with hlt | hge
  · rw [getD_append _ _ _ _ hlt, getD_append _ _ _ _ hlt]
  · rw [getD_append_right _ _ _ _ hge, getD_append_right _ _ _ _ hge]
    obtain ⟨k, hk⟩ : ∃ k, i - params.length = k + 1 := ⟨i - params.length - 1, by omega⟩
    rw [hk]
    rfl

theorem word_digit (v : Nat) (n : Fin 10) :
    BitVec.ofNat 32 v * 10 + (0x30 + BitVec.ofNat 8 n.1 : BitVec 8).setWidth 32 - 0x30 = BitVec.ofNat 32 (v * 10 + n.1) := by
  apply BitVec.eq_of_toNat_eq
  simp [BitVec.toNat_sub, BitVec.toNat_add, BitVec.toNat_mul]
  omega

theorem argument_parsing (c : Console) (params : List Param) (ch : BitVec 8) :
    consoleByte (c.parsing params) ch = argument (c.parsing params) ch := rfl

theorem parsing_argc (c : Console) (params : List Param) (h : params.length ≤ 17) : (c.parsing params).argc.toNat = params.length - 1 := by
  have : (c.parsing params).argc.toNat = (params.length - 1) % 2 ^ 32 := BitVec.toNat_ofNat ..
  omega

theorem parsing_room (c : Console) (h : params.length ≤ 16) : ¬ argNr ≤ (c.parsing params).argc := by
  have hargc := parsing_argc c params (by omega)
  unfold argNr
  bv_omega

theorem consoleByte_digit (c : Console) (h : params.length < 16) (p : Param) (n : Fin 10) :
    consoleByte (c.parsing (params ++ [p])) (0x30 + BitVec.ofNat 8 n.1) = .ok (c.parsing (params ++ [p ++ [n]])) := by
  have hlen : ∀ q : Param, (params ++ [q]).length = params.length + 1 := fun q => length_append
  have hargc : (c.parsing (params ++ [p])).argc.toNat = params.length := by
    rw [parsing_argc c _ (by rw [hlen]; omega), hlen, Nat.add_sub_cancel]
  have hch : (0x30 + BitVec.ofNat 8 n.1 : BitVec 8).toNat = 0x30 + n.1 := by
    have h48 : (0x30 : BitVec 8).toNat = 0x30 := rfl
    rw [BitVec.toNat_add, BitVec.toNat_ofNat, h48]
    omega
  rw [argument_parsing]
  unfold argument stateArg
  rw [if_neg (parsing_room c (by rw [hlen]; omega)), if_neg (by bv_omega), if_pos (by constructor <;> bv_omega)]
  rw [hargc]
  have hwords : Function.update (words (params ++ [p])) params.length
      (words (params ++ [p]) params.length * 10 + (0x30 + BitVec.ofNat 8 n.1 : BitVec 8).setWidth 32 - 0x30) = words (params ++ [p ++ [n]]) := by
    funext i
    by_cases hi : i = params.length
    · rw [hi, Function.update_self]
      unfold words
      rw [getD_last, getD_last, value_snoc, word_digit]
    · rw [Function.update_of_ne hi]
      unfold words
      rw [getD_other params p (p ++ [n]) hi]
  unfold Console.setArg Console.parsing
  rw [hwords, hlen, hlen]

theorem write_digits (c : Console) (params : List Param) (h : params.length < 16) : ∀ (p q : Param),
    consoleWrite (c.parsing (params ++ [q])) p.bytes = .ok (c.parsing (params ++ [q ++ p]))
  | [], q => by
    rw [append_nil]
    rfl
  | n :: p, q => by
    have hb : Param.bytes (n :: p) = (0x30 + BitVec.ofNat 8 n.1) :: Param.bytes p := rfl
    unfold consoleWrite
    rw [hb, foldlM_cons, consoleByte_digit c h]
    have := write_digits c params h p (q ++ [n])
    rw [append_assoc] at this
    exact this

theorem write_first (c : Console) (first : Param) : consoleWrite (c.parsing [[]]) first.bytes = .ok (c.parsing [first]) :=
  write_digits c [] (by decide) first []

theorem consoleByte_separator (c : Console) (h0 : params ≠ []) (h : params.length ≤ 16) :
    consoleByte (c.parsing params) 0x3B = .ok (c.parsing (params ++ [[]])) := by
  have hpos := length_pos_iff.2 h0
  rw [argument_parsing]
  unfold argument stateArg
  rw [if_neg (parsing_room c h), if_pos rfl]
  have hwords : words (params ++ [[]]) = words params := by
    funext i
    unfold words
    rcases Nat.lt_or_ge i params.length with hlt | hge
    · rw [getD_append _ _ _ _ hlt]
    · rw [getD_append_right _ _ _ _ hge, getD_eq_default _ _ hge]
      cases i - params.length <;> rfl
  have hnext : BitVec.ofNat 32 (params.length - 1) + 1 = BitVec.ofNat 32 ((params ++ [([] : Param)]).length - 1) := by
    rw [length_append]
    have : params.length + [([] : Param)].length - 1 = params.length - 1 + 1 := by
      simp only [length_singleton]
      omega
    rw [this, BitVec.ofNat_add]
    rfl
  unfold Console.parsing
  rw [hwords, hnext]

theorem consoleWrite_append (c : Console) (xs ys : List (BitVec 8)) :
    consoleWrite c (xs ++ ys) = (consoleWrite c xs >>= fun d => consoleWrite d ys) := foldlM_append

theorem consoleWrite_cons (c : Console) (ch : BitVec 8) (buf : List (BitVec 8)) :
    consoleWrite c (ch :: buf) = (consoleByte c ch >>= fun d => consoleWrite d buf) := foldlM_cons ..

theorem write_params (c : Console) : ∀ (rest params : List Param), params ≠ [] → params.length + rest.length ≤ 16 →
    consoleWrite (c.parsing params) (rest.flatMap fun p => 0x3B :: p.bytes) = .ok (c.parsing (params ++ rest))
  | [], params, _, _ => by
    rw [append_nil]
    rfl
  | p :: rest, params, h0, h => by
    rw [length_cons] at h
    rw [flatMap_cons, consoleWrite_append, consoleWrite_cons, consoleByte_separator c h0 (by omega)]
    dsimp only [bind, Except.bind]
    have hd := write_digits c params (by omega) p []
    rw [hd]
    have := write_params c rest (params ++ [p]) (by simp) (by rw [length_append]; simp only [length_singleton]; omega)
    rw [append_assoc] at this
    exact this

def Console.told (c : Console) (params : List Param) : Console :=
  { c with args := words params, argc := BitVec.ofNat 32 params.length, ques := false }

theorem consoleByte_last (c : Console) (h0 : params ≠ []) (h : params.length ≤ 16) (hl : Ends ch) :
    consoleByte (c.parsing params) ch = stateCsi (c.told params) ch := by
  have hpos := length_pos_iff.2 h0
  rw [argument_parsing]
  unfold argument stateArg
  rw [if_neg (parsing_room c h), if_neg hl.2.1, if_neg hl.1]
  have hnext : (c.parsing params).argc + 1 = BitVec.ofNat 32 params.length := by
    have hargc := parsing_argc c params (by omega)
    bv_omega
  rw [hnext]
  rfl

theorem consoleByte_begin (c : Console) (h : ch ≠ 0x3F) : consoleByte { c with state := .que } ch = consoleByte (c.parsing [[]]) ch := by
  have hwords : words [[]] = fun _ => 0 := by
    funext i
    cases i <;> rfl
  unfold consoleByte Console.parsing
  rw [hwords, decide_eq_false h, if_neg Bool.false_ne_true]
  rfl

theorem digit_ne (n : Fin 10) : (0x30 + BitVec.ofNat 8 n.1 : BitVec 8) ≠ 0x3F := by
  revert n
  decide

theorem write_begin (c : Console) (hn : c.state = .nor) (first : Param) (rest : List Param) (hl : Ends ch) :
    consoleWrite c (0x1B :: 0x5B :: body first rest ch) = consoleWrite (c.parsing [[]]) (body first rest ch) := by
  have hesc : consoleByte c 0x1B = .ok { c with state := .esc } := by
    unfold consoleByte
    rw [hn]
    rfl
  rw [consoleWrite_cons, hesc]
  dsimp only [bind, Except.bind]
  rw [consoleWrite_cons]
  have hbr : consoleByte { c with state := .esc } 0x5B = .ok { c with state := .que } := rfl
  rw [hbr]
  dsimp only [bind, Except.bind]
  obtain ⟨b, bs, hb, hne⟩ : ∃ b bs, body first rest ch = b :: bs ∧ b ≠ 0x3F := by
    cases first with
    | cons n p => exact ⟨_, _, rfl, digit_ne n⟩
    | nil =>
      cases rest with
      | cons p rest => exact ⟨0x3B, _, rfl, by decide⟩
      | nil => exact ⟨ch, [], rfl, hl.2.2⟩
  rw [hb, consoleWrite_cons, consoleWrite_cons, consoleByte_begin c hne]

theorem write_csi (c : Console) (hn : c.state = .nor) (first : Param) (rest : List Param) (hl : Ends ch) (h : rest.length < 16) :
    consoleWrite c (0x1B :: 0x5B :: body first rest ch) = stateCsi (c.told (first :: rest)) ch := by
  rw [write_begin c hn first rest hl]
  unfold body
  rw [consoleWrite_append, consoleWrite_append, write_first]
  dsimp only [bind, Except.bind]
  rw [write_params c rest [first] (by simp) (by rw [length_singleton]; omega)]
  dsimp only
  rw [consoleWrite_cons, singleton_append, consoleByte_last c (by simp) (by rw [length_cons]; omega) hl]
  cases stateCsi (c.told (first :: rest)) ch <;> rfl

theorem write_stuck (hs : c.state = .arg) (ha : argNr ≤ c.argc) : ∀ buf, consoleWrite c buf = .ok c
  | [] => rfl
  | ch :: buf => by
    have hb : consoleByte c ch = .ok c := by
      unfold consoleByte
      rw [hs]
      unfold argument stateArg
      rw [if_pos ha]
    rw [consoleWrite_cons, hb]
    exact write_stuck hs ha buf

theorem write_many (c : Console) (hn : c.state = .nor) (first : Param) (rest : List Param) (hl : Ends ch) (h : 16 ≤ rest.length) :
    ∃ d, consoleWrite c (0x1B :: 0x5B :: body first rest ch) = .ok d ∧ d.state = .arg ∧ ∀ buf, consoleWrite d buf = .ok d := by
  rw [write_begin c hn first rest hl]
  unfold body
  rw [consoleWrite_append, consoleWrite_append, write_first]
  dsimp only [bind, Except.bind]
  -- the separator after the sixteenth parameter is the last byte that matters
  obtain ⟨p, late, hdrop⟩ : ∃ p late, rest.drop 15 = p :: late := by
    cases hdrop : rest.drop 15 with
    | nil =>
      have := congrArg length hdrop
      rw [length_drop, length_nil] at this
      omega
    | cons p late => exact ⟨p, late, rfl⟩
  have hlen : (rest.take 15).length = 15 := length_take_of_le (by omega)
  have hrest : rest = rest.take 15 ++ p :: late := by
    rw [← hdrop, take_append_drop]
  have hall : (first :: rest.take 15).length = 16 := by
    rw [length_cons, hlen]
  generalize hd : c.parsing (first :: rest.take 15 ++ [[]]) = d
  have hstuck := write_stuck (c := d) (by rw [← hd]; rfl) (by
    have := parsing_argc c (first :: rest.take 15 ++ [[]]) (by rw [length_append, hall]; simp)
    rw [length_append, hall, hd] at this
    unfold argNr
    simp only [length_singleton] at this
    bv_omega)
  refine ⟨d, ?_, by rw [← hd]; rfl, hstuck⟩
  rw [hrest, flatMap_append, consoleWrite_append,
    write_params c (rest.take 15) [first] (by simp) (by rw [hlen]; simp)]
  dsimp only [bind, Except.bind]
  have hsep : consoleByte (c.parsing ([first] ++ rest.take 15)) 0x3B = .ok d := by
    rw [← hd]
    exact consoleByte_separator c (by simp) (Nat.le_of_eq hall)
  rw [flatMap_cons, consoleWrite_append, consoleWrite_cons, hsep]
  dsimp only [bind, Except.bind]
  rw [hstuck]
  dsimp only
  rw [hstuck]
  exact hstuck _

/-! ## The framing -/

theorem Inv.command (h : Inv c) (ch : BitVec 8) : Vga.command c ch = Vga.stateCsi c ch := by
  unfold Vga.command
  split
  · rename_i hch
    subst hch
    have hb := h.bounded
    have hxy : Vga.setXy { c with savedX := c.x, savedY := c.y, state := .nor } c.x c.y = { c with savedX := c.x, savedY := c.y, state := .nor } := by
      unfold Vga.setXy
      rw [if_neg (by
        have h1 := hb.x
        have h2 := hb.y
        bv_omega)]
      have hpos : c.pos = c.screen + c.y * c.rowSize + (c.x <<< 1) := by
        rw [hb.pos]
        bv_omega
      rw [← hpos]
    exact congrArg Except.ok hxy.symm
  · rfl

theorem Inv.told (h : Inv c) (hl : params.length ≤ 16) : Inv (c.told params) := by
  refine h.other ?_
  rw [BitVec.toNat_ofNat]
  omega

theorem chr_printable (hn : c.state = .nor) (hp : Printable ch) : consoleByte c ch = chr c ch := by
  unfold consoleByte
  rw [hn]
  dsimp only
  unfold stateNormal
  have h1 : 0x20 ≤ ch.toNat := hp.1
  have h2 : ch.toNat ≠ 0x7F := fun h => hp.2 (BitVec.eq_of_toNat_eq h)
  split <;> first | omega | rfl

theorem write_text : ∀ (text : List (BitVec 8)) (c : Console), c.state = .nor → (∀ ch ∈ text, Printable ch) →
    consoleWrite c text = text.foldlM chr c
  | [], _, _, _ => rfl
  | ch :: text, c, hn, hp => by
    rw [consoleWrite_cons, foldlM_cons, chr_printable hn (hp ch (mem_cons_self ..))]
    cases hc : chr c ch with
    | error e => rfl
    | ok d => exact write_text text d ((chr_stays ch hn).of_ok hc) fun x hx => hp x (mem_cons_of_mem _ hx)

theorem frames_of {q : Item} (hw : consoleWrite c q.bytes = .ok d) (hp : Performs c q d) (hn : d.state = .nor) : Frames c q d := by
  refine ⟨hp, hn, fun text ht => ?_⟩
  rw [consoleWrite_append, hw]
  exact write_text text d hn ht

theorem Frames.write {q : Item} (h : Frames c q d) : consoleWrite c q.bytes = .ok d := by
  have := h.shown [] fun _ hm => nomatch hm
  rw [append_nil] at this
  exact this

theorem consoleWrite_single (c : Console) (ch : BitVec 8) : consoleWrite c [ch] = consoleByte c ch := by
  rw [consoleWrite_cons]
  cases consoleByte c ch <;> rfl

theorem write_esc (hn : c.state = .nor) (ch : BitVec 8) : consoleWrite c [0x1B, ch] = stateEsc { c with state := .esc } ch := by
  have hesc : consoleByte c 0x1B = .ok { c with state := .esc } := by
    unfold consoleByte
    rw [hn]
    rfl
  rw [consoleWrite_cons, hesc]
  exact consoleWrite_single ..

theorem item_framed (h : Inv c) (hn : c.state = .nor) (q : Item) : (∃ d, Frames c q d) ↔ q.Fits := by
  cases q with
  | byte ch =>
    refine ⟨fun _ => trivial, fun _ => ?_⟩
    obtain ⟨d, hd, -⟩ := (h.stateNormal ch.1).reached
    refine ⟨d, frames_of ?_ hd ((stateNormal_stays hn ch.2).of_ok hd)⟩
    have hb : Item.bytes (.byte ch) = [ch.1] := rfl
    rw [hb, consoleWrite_single]
    unfold consoleByte
    rw [hn]
    exact hd
  | esc ch =>
    refine ⟨?_, fun hf => hf.elim⟩
    rintro ⟨d, hf⟩
    have hw : consoleWrite c [0x1B, ch.1] = .ok d := hf.write
    rw [write_esc hn] at hw
    have hs := (stateEsc_stays .esc rfl ch.2).of_ok hw
    rw [hf.nor] at hs
    cases hs
  | csi first rest last =>
    have hb : Item.bytes (.csi first rest last) = 0x1B :: 0x5B :: body first rest last.1 := rfl
    constructor
    · rintro ⟨d, hf⟩
      constructor
      · by_contra hmany
        obtain ⟨e, he, hs, -⟩ := write_many c hn first rest last.2 (by omega)
        have hw := hf.write
        rw [hb, he] at hw
        cases hw
        rw [hf.nor] at hs
        cases hs
      · obtain ⟨args, hargs, -⟩ := hf.performs
        intro p hp
        obtain ⟨i, hi, rfl⟩ := mem_iff_getElem.1 hp
        have := hargs i
        rw [getD_eq_getElem _ _ hi] at this
        rw [← this]
        exact (args i).isLt
    · rintro ⟨hlen, hval⟩
      have hi : Inv (c.told (first :: rest)) := h.told (by rw [length_cons]; omega)
      obtain ⟨d, hd, -⟩ := (hi.stateCsi last.1).reached
      refine ⟨d, frames_of ?_ ⟨words (first :: rest), holds_words hval, (hi.command last.1).trans hd⟩ ((stateCsi_nor ..).of_ok hd)⟩
      rw [hb, write_csi c hn first rest last.2 hlen]
      exact hd

theorem items_framed : ∀ (items : List Item) (c : Console), Inv c → c.state = .nor → (Framed c items ↔ ∀ q ∈ items, q.Fits)
  | [], _, _, _ => ⟨fun _ _ hq => (nomatch hq), fun _ => trivial⟩
  | q :: items, c, h, hn => by
    rw [forall_mem_cons, ← item_framed h hn q]
    constructor
    · rintro ⟨d, hf, hr⟩
      have hd := (h.consoleWrite q.bytes).of_ok hf.write
      exact ⟨⟨d, hf⟩, (items_framed items d hd hf.nor).1 hr⟩
    · rintro ⟨⟨d, hf⟩, hr⟩
      have hd := (h.consoleWrite q.bytes).of_ok hf.write
      exact ⟨d, hf, (items_framed items d hd hf.nor).2 hr⟩

/-- Whatever was written before, as long as the parser is in its normal state: what is written next is framed, item by item, exactly when
every sequence has a `[` and parameters that fit the words there are. -/
theorem sequences_framed (mem : Word → BitVec 8) (before : List (BitVec 8)) (items : List Item) : ∃ c d, consoleInit mem = .ok c ∧
    consoleWrite c before = .ok d ∧ (d.state = .nor → (Framed d items ↔ ∀ q ∈ items, q.Fits)) := by
  obtain ⟨c, hc, h⟩ := (consoleInit_inv mem).reached
  obtain ⟨d, hd, h⟩ := (h.consoleWrite before).reached
  exact ⟨c, d, hc, hd, items_framed items d h⟩

theorem consoleInit_spec (mem : Word → BitVec 8) : ∃ c, consoleInit mem = .ok c ∧ Inv c ∧ c.state = .nor := by
  obtain ⟨c, hc, h⟩ := (consoleInit_inv mem).reached
  refine ⟨c, hc, h, ?_⟩
  exact (eraseScreen_stays _ _ (consoleStart mem) rfl).of_ok hc

/-- After a line feed by ESC and `D` the parser waits on: the `A` that follows is not shown. Nor is it after seventeen parameters. -/
theorem escape_not_framed : ∃ c d e, consoleInit (fun _ => 0) = .ok c ∧ consoleWrite c [0x1B, 0x44] = .ok d ∧ d.state = .esc ∧
    consoleWrite d [0x41] = .ok d ∧ ¬ Framed c [.esc ⟨0x44, by decide⟩] ∧
    consoleWrite c (Item.csi [] (List.replicate 16 []) ⟨0x6D, by decide⟩).bytes = .ok e ∧ e.state = .arg ∧ consoleWrite e [0x41] = .ok e ∧
    ¬ Framed c [.csi [] (List.replicate 16 []) ⟨0x6D, by decide⟩] := by
  obtain ⟨c, hc, h, hn⟩ := consoleInit_spec fun _ => 0
  obtain ⟨d, hd, -⟩ := (h.consoleWrite [0x1B, 0x44]).reached
  have hs : d.state = .esc := by
    have hw := hd
    rw [write_esc hn] at hw
    exact (stateEsc_stays .esc rfl (by decide)).of_ok hw
  obtain ⟨e, he, hse, hstuck⟩ := write_many c hn [] (List.replicate 16 []) (show Ends 0x6D by decide) (by decide)
  have hA : consoleWrite d [0x41] = .ok d := by
    rw [consoleWrite_single]
    unfold consoleByte
    rw [hs]
    rfl
  refine ⟨c, d, e, hc, hd, hs, hA, ?_, he, hse, hstuck _, ?_⟩
  · rintro ⟨x, hx, -⟩
    exact (item_framed h hn _).1 ⟨x, hx⟩
  · rintro ⟨x, hx, -⟩
    have := ((item_framed h hn _).1 ⟨x, hx⟩).1
    rw [List.length_replicate] at this
    omega

end Onix.Vga
