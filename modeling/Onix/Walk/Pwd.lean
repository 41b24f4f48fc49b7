/-
The text of the working directory: `abspath`. The text is edited in place: `cur` is where the next name goes, and for `..` the last
separator is overwritten with a zero, so that `strrsep` finds the one in front of the last name.

The text names a directory by the names from the root on, each with a separator behind it, and between two rounds of the loop `cur` is at
its end. A round then does to the names what one name of the path does to a stack of names.
-/
import Onix.Walk.Match

namespace Onix.Walk

open Option List


/-! ## The code -/

/-- Writes characters from a place in a buffer on; what was not named of the buffer so far is zero. -/
def pokes (m : List Char) (i : Nat) (l : List Char) : List Char :=
  m.take i ++ List.replicate (i - m.length) '\x00' ++ l ++ m.drop (i + l.length)

def poke (m : List Char) (i : Nat) (a : Char) : List Char := pokes m i [a]

def strcpy (m : List Char) (dest : Nat) (src : List Char) : List Char := pokes m dest (src ++ ['\x00'])

/-- `strncpy`, to a place in a buffer: if no zero comes among the first characters, the last one of them is replaced by it. -/
def strncpy (m : List Char) (dest : Nat) (src : List Char) (count : Nat) : List Char :=
  let m := pokes m dest ((src ++ ['\x00']).take count)
  if src.length < count then m else poke m (dest + count - 1) '\x00'

def strsep : List Char → Option (List Char)
  | [] => none
  | a :: l => if isSeparator a then some (a :: l) else strsep l

/-- `pwd` and `cur`; `pathname` from where it is read, and what is in front of that. -/
structure Edit where
  pwd : List Char
  cur : Nat
  passed : List Char
  pathname : List Char

/-- `cur = strrsep(pwd) + 1` and `*cur = 0`; without a separator the zero would go to address 1. -/
def Edit.cut (s : Edit) : Option Edit :=
  (strrsep (upToZero s.pwd)).map fun last =>
    let cur := (upToZero s.pwd).length - last.length + 1
    { s with pwd := poke s.pwd cur '\x00', cur := cur }

def Edit.up (s : Edit) : Option Edit :=
  if s.cur - 1 ≠ 0 then Edit.cut { s with pwd := poke s.pwd (s.cur - 1) '\x00' } else some s

/-- A round of the loop: `ptr` is the separator behind the next name, which becomes a slash. -/
def Edit.round (s : Edit) (ptr : List Char) : Option Edit :=
  let len := s.pathname.length - ptr.length + 1
  let pathname := s.pathname.set (len - 1) '/'
  let next :=
    if pathname.take 2 = ['.', '/'] then some s
    else if pathname.take 3 = ['.', '.', '/'] then s.up
    else some { s with pwd := strncpy s.pwd s.cur pathname (len + 1), cur := s.cur + len }
  next.map fun s => { s with passed := s.passed ++ pathname.take len, pathname := pathname.drop len }

def Edit.loop : Nat → Edit → Option Edit
  | 0, _ => none
  | n + 1, s =>
    match strsep s.pathname with
    | none => some s
    | some ptr => (s.round ptr).bind (loop n)

def Edit.finish (s : Edit) : Option Edit :=
  if s.pathname = [] then some s
  else if s.pathname = ['.'] then some s
  else if s.pathname ≠ ['.', '.'] then
    let pwd := strcpy s.pwd s.cur s.pathname
    let cur := s.cur + s.pathname.length
    some { s with pwd := poke (poke pwd cur '/') (cur + 1) '\x00', cur := cur }
  else s.up

def Edit.begin (pwd pathname : List Char) : Option Edit :=
  match pathname with
  | [] => Edit.cut ⟨pwd, 0, [], []⟩
  | a :: l =>
    if isSeparator a then some ⟨poke pwd 1 '\x00', 1, [a], l⟩ else Edit.cut ⟨pwd, 0, [], a :: l⟩

/-- `abspath`: the working directory and the path, as they are left. -/
def abspath (pwd pathname : List Char) : Option (List Char × List Char) :=
  (Edit.begin pwd pathname).bind fun s => (Edit.loop (pathname.length + 1) s).bind fun s =>
    s.finish.map fun s => (s.pwd, s.passed ++ s.pathname)

def abspaths (pwd : List Char) (paths : List (List Char)) : Option (List Char) :=
  paths.foldlM (fun pwd path => (abspath pwd path).map Prod.fst) pwd

/-! ## What it is for -/

/-- A name of a directory: not empty, no separator and no zero in it, and neither `.` nor `..` -/
structure Canonical (name : List Char) : Prop where
  nonempty : name ≠ []
  plain : Plain name
  zero : '\x00' ∉ name
  dot : name ≠ ['.']
  dotdot : name ≠ ['.', '.']

def text (dir : List (List Char)) : List Char := '/' :: dir.flatMap fun name => name ++ ['/']

def Holds (m : List Char) (dir : List (List Char)) : Prop := (∃ beyond, m = text dir ++ '\x00' :: beyond) ∧ ∀ name ∈ dir, Canonical name

def names (path : List Char) : List (List Char) :=
  if (components path).getLast? = some [] then (components path).dropLast else components path

/-- What can be called a path with nonempty components. -/
structure Written (pathname : List Char) : Prop where
  zero : '\x00' ∉ pathname
  nonempty : ∀ name ∈ names (body pathname), name ≠ []

/-- Where a name leads, by its text: `..` to the directory above, which for the root is the root. -/
def enter (dir : List (List Char)) (name : List Char) : List (List Char) :=
  if name = ['.'] then dir else if name = ['.', '.'] then dir.dropLast else dir ++ [name]

def base (dir : List (List Char)) : List Char → List (List Char)
  | [] => dir
  | a :: _ => if isSeparator a then [] else dir

def resolve (dir : List (List Char)) (pathname : List Char) : List (List Char) := (names (body pathname)).foldl enter (base dir pathname)

variable {m pre old beyond rest c d name pathname : List Char} {dir : List (List Char)} {a b : Char} {n : Nat} {s : Edit}

/-! ## Buffers -/

theorem pokes_append (pre old l : List Char) : pokes (pre ++ old) pre.length l = pre ++ l ++ old.drop l.length := by
  unfold pokes
  have hpad : pre.length - (pre ++ old).length = 0 := by
    rw [length_append]
    omega
  rw [hpad, take_left, replicate_zero, append_nil, drop_length_add_append]

theorem poke_append (pre old : List Char) (a b : Char) : poke (pre ++ b :: old) pre.length a = pre ++ a :: old := by
  unfold poke
  rw [pokes_append, append_assoc]
  rfl

theorem upToZero_ended (h : '\x00' ∉ pre) (beyond : List Char) : upToZero (pre ++ '\x00' :: beyond) = pre := by
  unfold upToZero
  rw [takeWhile_append_of_pos]
  · rw [takeWhile_cons_of_neg (by decide), append_nil]
  · intro a ha
    exact decide_eq_true fun h0 => h (h0 ▸ ha)

theorem strsep_plain (h : Plain c) : strsep c = none := by
  induction c with
  | nil => rfl
  | cons b c ih =>
    unfold strsep
    rw [if_neg (by rw [h b (.head _)]; decide)]
    exact ih fun x hx => h x (.tail _ hx)

theorem strsep_here (h : Plain c) (ha : isSeparator a = true) (rest : List Char) : strsep (c ++ a :: rest) = some (a :: rest) := by
  induction c with
  | nil =>
    rw [nil_append, strsep, if_pos ha]
  | cons b c ih =>
    rw [cons_append, strsep, if_neg (by rw [h b (.head _)]; decide)]
    exact ih fun x hx => h x (.tail _ hx)

theorem take_name (rest : List Char) : ∀ {c d : List Char}, Plain c → Plain d →
    ((c ++ '/' :: rest).take (d.length + 1) = d ++ ['/'] ↔ c = d)
  | [], [], _, _ => iff_of_true rfl rfl
  | [], b :: d, _, hd => by
    refine iff_of_false (fun h => ?_) nofun
    have hb := hd b (.head _)
    rw [← (cons.inj h).1] at hb
    exact absurd hb (by decide)
  | b :: c, [], hc, _ => by
    refine iff_of_false (fun h => ?_) nofun
    have hb := hc b (.head _)
    rw [(cons.inj h).1] at hb
    exact absurd hb (by decide)
  | a :: c, b :: d, hc, hd => by
    have ih := take_name rest (fun x hx => hc x (.tail _ hx)) (fun x hx => hd x (.tail _ hx))
    rw [length_cons, cons_append, cons_append, take_succ_cons, cons.injEq, ih, cons.injEq]

/-! ## The text of a directory -/

theorem text_append (dir : List (List Char)) (name : List Char) : text (dir ++ [name]) = text dir ++ name ++ ['/'] := by
  unfold text
  rw [flatMap_append, flatMap_singleton, append_assoc]
  rfl

theorem text_zero (h : ∀ name ∈ dir, Canonical name) : '\x00' ∉ text dir := by
  unfold text
  rw [mem_cons, mem_flatMap]
  rintro (h0 | ⟨name, hname, h0⟩)
  · exact absurd h0 (by decide)
  · rcases mem_append.1 h0 with h0 | h0
    · exact (h name hname).zero h0
    · exact absurd (mem_singleton.1 h0) (by decide)

theorem text_ends (dir : List (List Char)) : ∃ pre, text dir = pre ++ ['/'] := by
  rcases eq_nil_or_concat dir with rfl | ⟨dir, name, rfl⟩
  · exact ⟨[], rfl⟩
  · exact ⟨text dir ++ name, by rw [← text_append, concat_eq_append]⟩

theorem Holds.nil (beyond : List Char) : Holds ('/' :: '\x00' :: beyond) [] := ⟨⟨beyond, rfl⟩, nofun⟩

/-- Between two rounds: the text of a directory, and `cur` at its end. -/
def Edit.At (s : Edit) (dir : List (List Char)) : Prop := Holds s.pwd dir ∧ s.cur = (text dir).length

/-! ## One name -/

theorem Edit.cut_text (hm : s.pwd = text dir ++ name ++ '\x00' :: beyond) (hdir : ∀ name ∈ dir, Canonical name) (hname : Plain name)
    (h0 : '\x00' ∉ name) : ∃ m, s.cut = some { s with pwd := m, cur := (text dir).length } ∧ Holds m dir := by
  obtain ⟨pre, hpre⟩ := text_ends dir
  have hup : upToZero s.pwd = text dir ++ name := by
    rw [hm]
    exact upToZero_ended (fun h => (mem_append.1 h).elim (text_zero hdir) h0) beyond
  have hsep : strrsep (text dir ++ name) = some ('/' :: name) := by
    rw [hpre, append_assoc]
    exact strrsep_here rfl (strrsep_plain hname)
  have hcur : (text dir ++ name).length - ('/' :: name).length + 1 = (text dir).length := by
    rw [hpre]
    simp only [length_append, length_cons, length_nil]
    omega
  have hpoke : ∃ beyond', poke s.pwd (text dir).length '\x00' = text dir ++ '\x00' :: beyond' := by
    rw [hm, append_assoc]
    cases name with
    | nil => exact ⟨beyond, poke_append ..⟩
    | cons b name => exact ⟨_, poke_append ..⟩
  obtain ⟨beyond', hpoke⟩ := hpoke
  refine ⟨text dir ++ '\x00' :: beyond', ?_, ⟨beyond', rfl⟩, hdir⟩
  unfold Edit.cut
  rw [hup, hsep]
  dsimp only [map_some]
  rw [hcur, hpoke]

theorem Edit.At.up (h : s.At dir) : ∃ m, s.up = some { s with pwd := m, cur := (text dir.dropLast).length } ∧ Holds m dir.dropLast := by
  obtain ⟨⟨⟨beyond, hm⟩, hdir⟩, hcur⟩ := h
  unfold Edit.up
  rcases eq_nil_or_concat dir with rfl | ⟨dir, name, rfl⟩
  · rw [if_neg (by rw [hcur]; decide)]
    refine ⟨s.pwd, congrArg some ?_, ⟨beyond, hm⟩, hdir⟩
    rw [dropLast_nil, ← hcur]
  · rw [concat_eq_append] at hm hdir hcur ⊢
    rw [text_append] at hm hcur
    have hpos : s.cur - 1 = (text dir ++ name).length := by
      rw [hcur, length_append, length_singleton, Nat.add_sub_cancel]
    have hname := hdir name (mem_append_right _ (mem_singleton_self _))
    have hne : s.cur - 1 ≠ 0 := by
      rw [hpos, length_append]
      have := length_pos_iff.2 hname.nonempty
      omega
    have hpoke : poke s.pwd (s.cur - 1) '\x00' = text dir ++ name ++ '\x00' :: '\x00' :: beyond := by
      rw [hm, hpos, append_assoc (text dir ++ name)]
      exact poke_append ..
    rw [if_pos hne, dropLast_concat]
    exact Edit.cut_text hpoke (fun x hx => hdir x (mem_append_left _ hx)) hname.plain hname.zero

theorem Holds.push (h : ∃ beyond, m = text dir ++ name ++ '/' :: '\x00' :: beyond) (hdir : ∀ name ∈ dir, Canonical name)
    (hname : Canonical name) : Holds m (dir ++ [name]) := by
  obtain ⟨beyond, hm⟩ := h
  refine ⟨⟨beyond, ?_⟩, fun x hx => ?_⟩
  · rw [hm, text_append, append_assoc (text dir ++ name)]
    rfl
  · rcases mem_append.1 hx with hx | hx
    · exact hdir x hx
    · rw [mem_singleton.1 hx]
      exact hname

theorem strncpy_name (hm : m = text dir ++ '\x00' :: beyond) (name rest : List Char) :
    ∃ beyond', strncpy m (text dir).length (name ++ '/' :: rest) (name.length + 1 + 1) = text dir ++ name ++ '/' :: '\x00' :: beyond' := by
  have hsrc : name ++ '/' :: rest ++ ['\x00'] = (name ++ ['/']) ++ (rest ++ ['\x00']) := by
    simp only [append_assoc, cons_append, nil_append]
  have hlen : (name ++ ['/']).length = name.length + 1 := by rw [length_append, length_singleton]
  have htake : (name ++ '/' :: rest ++ ['\x00']).take (name.length + 1 + 1) = name ++ ['/'] ++ (rest ++ ['\x00']).take 1 := by
    rw [hsrc, ← hlen, take_length_add_append]
  unfold strncpy
  rw [htake, hm, pokes_append]
  generalize drop _ _ = old
  cases rest with
  | nil =>
    rw [if_pos (by rw [length_append, length_singleton]; omega)]
    refine ⟨old, ?_⟩
    simp only [nil_append, take_succ_cons, take_zero, append_assoc, cons_append]
  | cons a rest =>
    rw [if_neg (by simp only [length_append, length_cons]; omega)]
    have hpos : (text dir).length + (name.length + 1 + 1) - 1 = (text dir ++ name ++ ['/']).length := by
      simp only [length_append, length_singleton]
      omega
    have hpokes : text dir ++ (name ++ ['/'] ++ (a :: rest ++ ['\x00']).take 1) ++ old = text dir ++ name ++ ['/'] ++ a :: old := by
      simp only [take_succ_cons, take_zero, append_assoc, cons_append, nil_append]
    refine ⟨old, ?_⟩
    rw [hpos, hpokes, poke_append, append_assoc (text dir ++ name)]
    rfl

theorem finish_name (hm : m = text dir ++ '\x00' :: beyond) (name : List Char) :
    ∃ beyond', poke (poke (strcpy m (text dir).length name) ((text dir).length + name.length) '/') ((text dir).length + name.length + 1) '\x00' =
      text dir ++ name ++ '/' :: '\x00' :: beyond' := by
  unfold strcpy
  rw [hm, pokes_append]
  generalize drop _ _ = old
  have hcopied : text dir ++ (name ++ ['\x00']) ++ old = text dir ++ name ++ '\x00' :: old := by
    simp only [append_assoc, cons_append, nil_append]
  have hend : (text dir).length + name.length = (text dir ++ name).length := length_append.symm
  rw [hcopied, hend, poke_append]
  have hpos : (text dir ++ name).length + 1 = (text dir ++ name ++ ['/']).length := by
    simp only [length_append, length_singleton]
  have hnext : text dir ++ name ++ '/' :: old = text dir ++ name ++ ['/'] ++ old := by
    rw [append_assoc (text dir ++ name)]
    rfl
  refine ⟨old.drop 1, ?_⟩
  unfold poke
  rw [hpos, hnext, pokes_append, append_assoc (text dir ++ name ++ ['/']), append_assoc (text dir ++ name)]
  rfl

theorem enter_dot : enter dir ['.'] = dir := if_pos rfl

theorem enter_dotdot : enter dir ['.', '.'] = dir.dropLast := by
  unfold enter
  rw [if_neg (by decide), if_pos rfl]

theorem enter_name (h : name ≠ ['.']) (h2 : name ≠ ['.', '.']) : enter dir name = dir ++ [name] := by
  unfold enter
  rw [if_neg h, if_neg h2]

/-! ## The loop -/

theorem Edit.At.round (h : s.At dir) (hpath : s.pathname = c ++ a :: rest) (hc : Plain c) (hne : c ≠ []) (h0 : '\x00' ∉ c) :
    ∃ t, s.round (a :: rest) = some t ∧ t.At (enter dir c) ∧ t.pathname = rest := by
  have hlen : s.pathname.length - (a :: rest).length = c.length := by
    rw [hpath, length_append, Nat.add_sub_cancel]
  have hset : s.pathname.set c.length '/' = c ++ '/' :: rest := by
    rw [hpath, set_append_right _ _ (Nat.le_refl _), Nat.sub_self, set_cons_zero]
  have hdrop : (c ++ '/' :: rest).drop (c.length + 1) = rest := by
    rw [drop_length_add_append, drop_succ_cons, drop_zero]
  have hdot : (c ++ '/' :: rest).take 2 = ['.', '/'] ↔ c = ['.'] := by
    refine take_name rest hc (d := ['.']) ?_
    simp [Plain, isSeparator]
  have hdotdot : (c ++ '/' :: rest).take 3 = ['.', '.', '/'] ↔ c = ['.', '.'] := by
    refine take_name rest hc (d := ['.', '.']) ?_
    simp [Plain, isSeparator]
  unfold Edit.round
  dsimp only
  rw [hlen, Nat.add_sub_cancel, hset, hdrop]
  simp only [hdot, hdotdot]
  by_cases h1 : c = ['.']
  · rw [if_pos h1, h1, enter_dot]
    exact ⟨_, rfl, h, rfl⟩
  by_cases h2 : c = ['.', '.']
  · obtain ⟨m, hup, hm⟩ := h.up
    rw [if_neg h1, if_pos h2, hup, h2, enter_dotdot]
    exact ⟨_, rfl, ⟨hm, rfl⟩, rfl⟩
  obtain ⟨⟨⟨beyond, hm⟩, hdir⟩, hcur⟩ := h
  rw [if_neg h1, if_neg h2, enter_name h1 h2]
  refine ⟨_, rfl, ⟨?_, ?_⟩, rfl⟩
  · dsimp only
    rw [hcur]
    exact .push (strncpy_name hm c rest) hdir ⟨hne, hc, h0, h1, h2⟩
  · show s.cur + (c.length + 1) = _
    rw [hcur, text_append, length_append, length_append, length_singleton, Nat.add_assoc]

/-! ## Names of a path -/

theorem names_plain (h : Plain name) (hne : name ≠ []) : names name = [name] := by
  unfold names
  rw [components_plain h hne, if_neg]
  intro hl
  exact hne (some.inj hl)

theorem names_append (hc : Plain c) (ha : isSeparator a = true) (rest : List Char) : names (c ++ a :: rest) = c :: names rest := by
  by_cases hne : rest = []
  · have hcs : components (c ++ a :: rest) = [c, []] := by
      unfold components
      rw [if_neg (by simp), hne, splitOnP_append_cons_of_forall_mem hc a ha, splitOnP_nil]
    unfold names
    rw [hcs, hne]
    rfl
  · have hcs := components_ne_nil hne
    unfold names
    rw [components_append hc ha hne, getLast?_cons_of_ne_nil hcs, dropLast_cons_of_ne_nil hcs]
    split <;> rfl

/-! ## All names -/

theorem Edit.At.finish (h : s.At dir) (hpath : Plain s.pathname) (h0 : '\x00' ∉ s.pathname) :
    ∃ t, s.finish = some t ∧ Holds t.pwd ((names s.pathname).foldl enter dir) := by
  unfold Edit.finish
  by_cases hnil : s.pathname = []
  · rw [if_pos hnil, hnil]
    exact ⟨s, rfl, h.1⟩
  rw [if_neg hnil, names_plain hpath hnil, foldl_cons, foldl_nil]
  by_cases h1 : s.pathname = ['.']
  · rw [if_pos h1, h1, enter_dot]
    exact ⟨s, rfl, h.1⟩
  rw [if_neg h1]
  by_cases h2 : s.pathname = ['.', '.']
  · obtain ⟨m, hup, hm⟩ := h.up
    rw [if_neg (not_not.2 h2), hup, h2, enter_dotdot]
    exact ⟨_, rfl, hm⟩
  obtain ⟨⟨⟨beyond, hm⟩, hdir⟩, hcur⟩ := h
  rw [if_pos h2, enter_name h1 h2, hcur]
  exact ⟨_, rfl, .push (finish_name hm s.pathname) hdir ⟨hnil, hpath, h0, h1, h2⟩⟩

theorem Edit.At.run (path : List Char) : ∀ {s : Edit} {dir : List (List Char)} {n : Nat}, s.At dir → s.pathname = path → '\x00' ∉ path →
    (∀ name ∈ names path, name ≠ []) → path.length < n →
    ∃ r t, Edit.loop n s = some r ∧ r.finish = some t ∧ Holds t.pwd ((names path).foldl enter dir) := by
  induction path using path_induction with
  | one name hplain =>
    intro s dir n h hpath h0 _ hn
    obtain ⟨n, rfl⟩ := Nat.exists_eq_succ_of_ne_zero (Nat.ne_of_gt (Nat.zero_lt_of_lt hn))
    obtain ⟨t, ht, hm⟩ := h.finish (hpath ▸ hplain) (hpath ▸ h0)
    refine ⟨s, t, ?_, ht, hpath ▸ hm⟩
    unfold Edit.loop
    rw [hpath, strsep_plain hplain]
  | more c a rest hc ha ih =>
    intro s dir n h hpath h0 hne hn
    obtain ⟨n, rfl⟩ := Nat.exists_eq_succ_of_ne_zero (Nat.ne_of_gt (Nat.zero_lt_of_lt hn))
    rw [names_append hc ha] at hne ⊢
    have h0c : '\x00' ∉ c := fun hx => h0 (mem_append_left _ hx)
    have h0r : '\x00' ∉ rest := fun hx => h0 (mem_append_right _ (.tail _ hx))
    obtain ⟨t, hround, hat, hrest⟩ := h.round hpath hc (hne c (.head _)) h0c
    have hsep : strsep s.pathname = some (a :: rest) := hpath ▸ strsep_here hc ha rest
    unfold Edit.loop
    rw [hsep, foldl_cons]
    dsimp only
    rw [hround, bind_some]
    refine ih hat hrest h0r (fun x hx => hne x (.tail _ hx)) ?_
    rw [length_append, length_cons] at hn
    omega

theorem body_suffix (pathname : List Char) : body pathname <:+ pathname := by
  cases pathname with
  | nil => exact suffix_refl []
  | cons a l =>
    unfold body
    dsimp only
    split
    · exact suffix_cons a l
    · exact suffix_refl _

theorem begin_at (hm : Holds m dir) (pathname : List Char) :
    ∃ s, Edit.begin m pathname = some s ∧ s.At (base dir pathname) ∧ s.pathname = body pathname := by
  obtain ⟨⟨beyond, hm⟩, hdir⟩ := hm
  have hcut : ∀ pathname, ∃ s, Edit.cut ⟨m, 0, [], pathname⟩ = some s ∧ s.At dir ∧ s.pathname = pathname := by
    intro pathname
    have hname : m = text dir ++ [] ++ '\x00' :: beyond := by rw [hm, append_nil]
    obtain ⟨m', hs, hm'⟩ := Edit.cut_text (s := ⟨m, 0, [], pathname⟩) hname hdir nofun nofun
    exact ⟨_, hs, ⟨hm', rfl⟩, rfl⟩
  cases pathname with
  | nil => exact hcut []
  | cons a l =>
    unfold Edit.begin base body
    dsimp only
    by_cases ha : isSeparator a = true
    · rw [if_pos ha, if_pos ha, if_pos ha]
      refine ⟨_, rfl, ⟨?_, rfl⟩, rfl⟩
      obtain ⟨b, old, hold⟩ : ∃ b old, m = ['/'] ++ b :: old := by
        rw [hm]
        unfold text
        cases hl : dir.flatMap (fun name => name ++ ['/']) with
        | nil => exact ⟨_, _, rfl⟩
        | cons b l => exact ⟨_, _, rfl⟩
      rw [hold]
      show Holds (poke (['/'] ++ b :: old) ['/'].length '\x00') []
      rw [poke_append]
      exact .nil old
    · rw [if_neg ha, if_neg ha, if_neg ha]
      exact hcut (a :: l)

theorem abspath_holds (hm : Holds m dir) (hp : Written pathname) :
    ∃ m' path, abspath m pathname = some (m', path) ∧ Holds m' (resolve dir pathname) := by
  obtain ⟨s, hs, hat, hpath⟩ := begin_at hm pathname
  have hlt : (body pathname).length < pathname.length + 1 := Nat.lt_succ_of_le (body_suffix pathname).length_le
  have h0 : '\x00' ∉ body pathname := fun hx => hp.zero ((body_suffix pathname).subset hx)
  obtain ⟨r, t, hr, ht, hh⟩ := hat.run (body pathname) hpath h0 hp.nonempty hlt
  refine ⟨t.pwd, t.passed ++ t.pathname, ?_, hh⟩
  unfold abspath
  rw [hs, bind_some, hr, bind_some, ht]
  rfl

/-- Whatever paths are given one after the other, the text stays that of the directory they lead to, each from where the one before it
led; and so it does for one path. -/
theorem abspath_resolves (hm : Holds m dir) :
    (∀ path, Written path → ∃ m' left, abspath m path = some (m', left) ∧ Holds m' (resolve dir path)) ∧
      ∀ paths, (∀ path ∈ paths, Written path) → ∃ m', abspaths m paths = some m' ∧ Holds m' (paths.foldl resolve dir) := by
  refine ⟨fun path hp => abspath_holds hm hp, fun paths hp => ?_⟩
  induction paths generalizing m dir with
  | nil => exact ⟨m, rfl, hm⟩
  | cons path paths ih =>
    obtain ⟨m1, left, h1, hm1⟩ := abspath_holds hm (hp path (List.mem_cons_self ..))
    obtain ⟨m2, h2, hm2⟩ := ih hm1 fun x hx => hp x (List.mem_cons_of_mem _ hx)
    refine ⟨m2, ?_, hm2⟩
    unfold abspaths at h2 ⊢
    rw [List.foldlM_cons, h1]
    exact h2

/-- `..\\c/.` and then `../../../d/` from `/a/b/`. -/
theorem abspath_resolves_twice : ∃ m, abspaths "/a/b/\x00".toList ["..\\c/.".toList, "../../../d/".toList] = some m ∧ Holds m [['d']] := by
  have hm : Holds "/a/b/\x00".toList [['a'], ['b']] := by
    refine ⟨⟨[], rfl⟩, fun name hname => ?_⟩
    have hcases : name = ['a'] ∨ name = ['b'] := by simpa using hname
    rcases hcases with rfl | rfl <;> exact ⟨by decide, by simp [Plain, isSeparator], by decide, by decide, by decide⟩
  refine (abspath_resolves hm).2 _ fun path hpath => ?_
  have hcases : path = "..\\c/.".toList ∨ path = "../../../d/".toList := by simpa using hpath
  rcases hcases with rfl | rfl <;> exact ⟨by decide, by decide⟩

end Onix.Walk
