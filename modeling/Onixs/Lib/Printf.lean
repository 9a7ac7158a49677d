import Onixs.Lib.Number

/-!
# Formatted output

`vsprintf` of `lib/vsprintf.c`, as a machine that takes a character of the format, or a conversion, at a time. The
arguments are words, and the text at the address that one of them is comes from a table of texts.

A number is given to `number` as an unsigned one, so that `%d` is right for the numbers that are not negative
only (`Onixs.Printf.vsprintf_d_iff`). The field width is no minimum: `number` cuts longer numbers off and puts
nothing behind shorter ones, and the padding of a string does not depend on its length
(`Onixs.Printf.step_padded_iff`).
-/

namespace Onixs

namespace Printf

open Number

/-- What `vsprintf` has before it: the format and the arguments, and what it has stored, in its buffer and for
`%n`. -/
structure State where
  /-- The rest of the format. -/
  fmt : List Char
  /-- The rest of the arguments. -/
  args : List ℕ
  /-- The text in the buffer. -/
  out : List Char
  /-- The numbers stored for `%n`, with their addresses. -/
  stores : List (ℕ × ℕ)
  deriving DecidableEq

/-- `va_arg`. -/
def vaArg : List ℕ → Option (ℕ × List ℕ)
  | [] => none
  | v :: args => some (v, args)

/-- A word as an `int`. -/
def toInt (v : ℕ) : ℤ := wrapInt v

/-- A word as a `char`. -/
def toChar (v : ℕ) : Char := Char.ofNat (v % 256)

/-- The flags, with the jumps to `repeat`. -/
def parseFlags (flags : Flags) : List Char → Flags × List Char
  | '-' :: fmt => parseFlags { flags with left := true } fmt
  | '+' :: fmt => parseFlags { flags with plus := true } fmt
  | ' ' :: fmt => parseFlags { flags with space := true } fmt
  | '#' :: fmt => parseFlags { flags with special := true } fmt
  | '0' :: fmt => parseFlags { flags with zeropad := true } fmt
  | fmt => (flags, fmt)

/-- The field width, with the flags and what follows. -/
def parseWidth (flags : Flags) (args : List ℕ) : List Char → Option (ℤ × Flags × List Char × List ℕ)
  | [] => some (-1, flags, [], args)
  | c :: fmt =>
    if c.isDigit then some ((skipAtoi 0 (c :: fmt)).1, flags, (skipAtoi 0 (c :: fmt)).2, args)
    else if c = '*' then do
      let (v, args) ← vaArg args
      if toInt v < 0 then some (wrapInt (-toInt v), { flags with left := true }, fmt, args)
      else some (toInt v, flags, fmt, args)
    else some (-1, flags, c :: fmt, args)

/-- The precision behind its point. A `*` takes an argument, but the format does not go on behind it. -/
def parsePoint (args : List ℕ) : List Char → Option (ℤ × List Char × List ℕ)
  | [] => some (-1, [], args)
  | c :: fmt =>
    if c.isDigit then some ((skipAtoi 0 (c :: fmt)).1, (skipAtoi 0 (c :: fmt)).2, args)
    else if c = '*' then (vaArg args).map fun p => (toInt p.1, c :: fmt, p.2)
    else some (-1, c :: fmt, args)

/-- The precision. -/
def parsePrecision (args : List ℕ) : List Char → Option (ℤ × List Char × List ℕ)
  | '.' :: fmt => (parsePoint args fmt).map fun p => (if p.1 < 0 then 0 else p.1, p.2)
  | fmt => some (-1, fmt, args)

/-- The qualifier, which has no effect. -/
def skipQualifier : List Char → List Char
  | 'h' :: fmt => fmt
  | 'l' :: fmt => fmt
  | 'L' :: fmt => fmt
  | fmt => fmt

/-- `while (--field_width > 0) *str++ = ' '`: the blanks it stores, and the width it leaves. -/
def padBlanks (width : ℤ) : List Char × ℤ :=
  (List.replicate (wrapInt (width - 1)).toNat ' ', min (wrapInt (width - 1)) 0)

/-- The two loops around a text: blanks in front of it, unless it goes to the left, and behind it. -/
def emitText (flags : Flags) (width : ℤ) (text : List Char) : List Char :=
  let (before, width) := if flags.left then ([], width) else padBlanks width
  before ++ text ++ (padBlanks width).1

/-- `%c`. -/
def emitChar (flags : Flags) (width : ℤ) (c : Char) : List Char := emitText flags width [c]

/-- `%s`. -/
def emitString (flags : Flags) (width precision : ℤ) (s : List Char) : List Char :=
  let len := wrapInt s.length
  let len := if 0 > precision then len else min len precision
  emitText flags width (s.take len.toNat)

/-- The conversions that store text for an argument. -/
def conversions : List Char := ['c', 's', 'o', 'p', 'x', 'X', 'd', 'i', 'u']

/-- What they store. -/
def emit (cstr : ℕ → List Char) (flags : Flags) (width precision : ℤ) (v : ℕ) : Char → Option (List Char)
  | 'c' => some (emitChar flags width (toChar v))
  | 's' => some (emitString flags width precision (cstr v))
  | 'o' => number v 8 width precision flags
  | 'p' => if width = -1 then number v 16 8 precision { flags with zeropad := true }
      else number v 16 width precision flags
  | 'x' => number v 16 width precision { flags with small := true }
  | 'X' => number v 16 width precision flags
  | 'd' => number v 10 width precision { flags with sign := true }
  | 'i' => number v 10 width precision { flags with sign := true }
  | 'u' => number v 10 width precision flags
  | _ => none

/-- The switch over the conversions. -/
def convert (cstr : ℕ → List Char) (flags : Flags) (width precision : ℤ) (s : State) : Option State :=
  match s.fmt with
  | [] => some { s with out := s.out ++ ['%'] }
  | c :: fmt =>
    if c ∈ conversions then do
      let (v, args) ← vaArg s.args
      let text ← emit cstr flags width precision v c
      return { s with fmt := fmt, args := args, out := s.out ++ text }
    else if c = 'n' then do
      let (v, args) ← vaArg s.args
      return { s with fmt := fmt, args := args, stores := s.stores ++ [(v, s.out.length)] }
    else if c = '%' then some { s with fmt := fmt, out := s.out ++ ['%'] }
    else some { s with fmt := fmt, out := s.out ++ ['%', c] }

/-- A pass of the loop of `vsprintf`. -/
def step (cstr : ℕ → List Char) (s : State) : Option State :=
  match s.fmt with
  | [] => none
  | '%' :: fmt => do
    let (flags, fmt) := parseFlags {} fmt
    let (width, flags, fmt, args) ← parseWidth flags s.args fmt
    let (precision, fmt, args) ← parsePrecision args fmt
    convert cstr flags width precision { s with fmt := skipQualifier fmt, args := args }
  | c :: fmt => some { s with fmt := fmt, out := s.out ++ [c] }

/-- The loop of `vsprintf`. -/
def loop (cstr : ℕ → List Char) : ℕ → State → Option State
  | 0, s => if s.fmt = [] then some s else none
  | passes + 1, s => if s.fmt = [] then some s else (step cstr s).bind (loop cstr passes)

/-- `vsprintf`: the number it returns, and what it has stored. -/
def vsprintf (cstr : ℕ → List Char) (fmt : List Char) (args : List ℕ) : Option (ℕ × State) := do
  let s ← loop cstr fmt.length { fmt := fmt, args := args, out := [], stores := [] }
  assert (s.out.length < 1024)
  return (s.out.length, s)

example : (vsprintf (fun _ => "md".toList) "%s%c: %05u%%".toList [0, 97, 42]).map (fun r => r.2.out) =
    some "mda: 00042%".toList := by decide

/-! ### Conversions -/

section Conversion

variable {cstr : ℕ → List Char} {flags flags' : Flags} {width : ℤ} {v : ℕ} {args args' : List ℕ} {c : Char}
  {fmt fmt' rest out : List Char} {stores : List (ℕ × ℕ)}

/-- Behind the flags and the width is a conversion, without a precision or a qualifier. -/
theorem parse_conversion (args : List ℕ) (rest : List Char) (hc : c ∈ conversions) :
    parsePrecision args (c :: rest) = some (-1, c :: rest, args) ∧ skipQualifier (c :: rest) = c :: rest := by
  simp only [conversions, List.mem_cons, List.not_mem_nil, or_false] at hc
  rcases hc with rfl | rfl | rfl | rfl | rfl | rfl | rfl | rfl | rfl <;> exact ⟨rfl, rfl⟩

/-- **A conversion** stores its text and goes behind its argument. -/
theorem step_conversion (hflags : parseFlags {} fmt = (flags, fmt'))
    (hwidth : parseWidth flags (v :: args) fmt' = some (width, flags', c :: rest, v :: args)) (hc : c ∈ conversions) :
    step cstr ⟨'%' :: fmt, v :: args, out, stores⟩ =
      (emit cstr flags' width (-1) v c).map fun text => ⟨rest, args, out ++ text, stores⟩ := by
  obtain ⟨hprecision, hqualifier⟩ := parse_conversion (v :: args) rest hc
  rw [step]
  simp only [hflags, hwidth, hprecision, hqualifier, Option.bind_eq_bind, Option.bind_some, convert, if_pos hc, vaArg]
  cases emit cstr flags' width (-1) v c <;> rfl

end Conversion

section Decimal

variable {v : ℕ}

/-- **`%d`** stores the digits of its argument as an unsigned number. -/
theorem vsprintf_d (cstr : ℕ → List Char) (hv : v < 4294967296) : vsprintf cstr "%d".toList [v] =
    some ((Nat.toDigits 10 v).length, ⟨[], [], Nat.toDigits 10 v, []⟩) := by
  have hnumber := number_eq { sign := true } (-1) (show 2 ≤ 10 by decide) (by decide) hv (by decide)
    rfl rfl (numberText_of_le_ten v _ (by decide) le_rfl) rfl
  have hfield : fieldSize (-1) (Nat.toDigits 10 v).length = (Nat.toDigits 10 v).length := rfl
  rw [hfield, givenWidth_self, Nat.sub_self, List.replicate_zero, List.nil_append, List.drop_zero] at hnumber
  have hlength : (Nat.toDigits 10 v).length ≤ 10 :=
    (Nat.length_toDigits_le_iff (by decide) (by decide)).mpr (by omega)
  have hstep : step cstr ⟨['%', 'd'], [v], [], []⟩ = some ⟨[], [], Nat.toDigits 10 v, []⟩ := by
    rw [step_conversion (show parseFlags {} ['d'] = ({}, ['d']) from rfl)
      (show parseWidth {} [v] ['d'] = some (-1, {}, ['d'], [v]) from rfl) (by decide), emit, hnumber]
    rfl
  have hloop : loop cstr 2 ⟨['%', 'd'], [v], [], []⟩ = some ⟨[], [], Nat.toDigits 10 v, []⟩ := by
    rw [loop, if_neg (by simp), hstep]
    rfl
  have hassert : (Nat.toDigits 10 v).length < 1024 := by omega
  rw [vsprintf]
  change (loop cstr 2 ⟨['%', 'd'], [v], [], []⟩).bind _ = _
  rw [hloop, Option.bind_some, assert_pos hassert]
  rfl

/-- **The decimal text** of an `int` comes out of `%d`, and `atoi` makes the number of it again, exactly when the number is
not negative. -/
theorem vsprintf_d_iff {v : ℤ} (cstr : ℕ → List Char) (hv : -2147483648 ≤ v) (hv' : v < 2147483648) :
    (∃ s, vsprintf cstr "%d".toList [(v % 4294967296).toNat] = some (s.out.length, s) ∧
      s.out = (toString v).toList ∧ atoi s.out = v) ↔ 0 ≤ v := by
  have htext := vsprintf_d (v := (v % 4294967296).toNat) cstr (by omega)
  rw [htext, Int.toString_eq_repr, Int.repr_eq_if]
  constructor
  · rintro ⟨s, hs, hout, -⟩
    by_contra hneg
    obtain rfl := (Prod.mk.inj (Option.some.inj hs)).2
    rw [if_neg hneg, String.toList_append] at hout
    simp only at hout
    have hmem : '-' ∈ Nat.toDigits 10 (v % 4294967296).toNat := by
      rw [hout]
      exact List.mem_cons_self
    exact absurd (Nat.isDigit_of_mem_toDigits (by decide) (by decide) hmem) (by decide)
  · intro hpos
    have hword : (v % 4294967296).toNat = v.toNat := by omega
    rw [hword, if_pos hpos, Nat.toList_repr]
    refine ⟨⟨[], [], Nat.toDigits 10 v.toNat, []⟩, rfl, rfl, ?_⟩
    rw [atoi_toDigits (by omega)]
    omega

/-- The greatest `int`. -/
theorem vsprintf_d_iff_max :
    ∃ s, vsprintf (fun _ => []) "%d".toList [2147483647] = some (s.out.length, s) ∧
      s.out = (toString (2147483647 : ℤ)).toList ∧ atoi s.out = 2147483647 :=
  (vsprintf_d_iff (v := 2147483647) (fun _ => []) (by decide) (by decide)).mpr (by decide)

/-- **The wrong text**: -1 is the greatest unsigned number. -/
theorem vsprintf_d_wrong :
    ¬∃ s, vsprintf (fun _ => []) "%d".toList [((-1 : ℤ) % 4294967296).toNat] = some (s.out.length, s) ∧
      s.out = (toString (-1 : ℤ)).toList ∧ atoi s.out = -1 := by
  rintro ⟨s, hs, hout, -⟩
  have htext := vsprintf_d (v := 4294967295) (fun _ => []) (by decide)
  obtain rfl := (Prod.mk.inj (Option.some.inj (htext.symm.trans hs))).2
  exact absurd hout (by decide)

end Decimal

/-! ### Fields -/

/-- The conversions of a field. -/
inductive Conv where
  /-- `%u`. -/
  | u
  /-- `%x`. -/
  | x
  /-- `%X`. -/
  | X
  /-- `%o`. -/
  | o
  /-- `%c`. -/
  | c
  /-- `%s`. -/
  | s
  deriving DecidableEq

/-- The flag of a field. -/
inductive FieldFlag where
  /-- No flag. -/
  | none
  /-- `-`. -/
  | left
  /-- `0`. -/
  | zero
  deriving DecidableEq

/-- The character of a conversion. -/
def Conv.char : Conv → Char
  | u => 'u'
  | x => 'x'
  | X => 'X'
  | o => 'o'
  | c => 'c'
  | s => 's'

/-- The text without padding. -/
def Conv.plain (cstr : ℕ → List Char) (v : ℕ) : Conv → List Char
  | u => Nat.toDigits 10 v
  | x => Nat.toDigits 16 v
  | X => (Nat.toDigits 16 v).map Char.toUpper
  | o => Nat.toDigits 8 v
  | c => [toChar v]
  | s => cstr v

/-- The characters of a flag. -/
def FieldFlag.chars : FieldFlag → List Char
  | none => []
  | left => ['-']
  | zero => ['0']

/-- The flags that are set. -/
def FieldFlag.flags : FieldFlag → Flags
  | none => {}
  | left => { left := true }
  | zero => { zeropad := true }

/-- A text padded to a minimum width, on the left or, under `-`, on the right. -/
def Padded (flag : FieldFlag) (width : ℕ) (plain text : List Char) : Prop :=
  text.length = max width plain.length ∧ ∃ padding, (∀ c ∈ padding, c = ' ' ∨ c = '0') ∧
    text = if flag = .left then plain ++ padding else padding ++ plain

/-- **Where the field is right**: a number must not be longer than the field, nor shorter when it goes to its left;
a string must have one character, or the field one column and the string any. -/
def Conv.Fits (cstr : ℕ → List Char) (v : ℕ) (flag : FieldFlag) (width : ℕ) : Conv → Prop
  | c => True
  | s => (cstr v).length = 1 ∨ width = 1 ∧ 1 ≤ (cstr v).length ∧ (cstr v).length < 2147483648
  | conv => (conv.plain cstr v).length = width ∨ (conv.plain cstr v).length < width ∧ flag ≠ .left

section Field

variable {cstr : ℕ → List Char} {flag : FieldFlag} {width v : ℕ} {plain : List Char}

/-- The first digit of a number is not zero. -/
theorem toDigits_head {n : ℕ} (hn : 0 < n) : ∃ c cs, Nat.toDigits 10 n = c :: cs ∧ c.isDigit ∧ c ≠ '0' := by
  induction n using Nat.strong_induction_on with
  | _ n ih =>
    rw [Nat.toDigits_eq_if (by decide)]
    split_ifs with hlt
    · refine ⟨Nat.digitChar n, [], rfl, ?_⟩
      interval_cases n <;> decide
    · obtain ⟨c, cs, hdigits, hc⟩ := ih (n / 10) (Nat.div_lt_self hn (by decide)) (by omega)
      exact ⟨c, cs ++ [Nat.digitChar (n % 10)], by rw [hdigits, List.cons_append], hc⟩

/-- The flags end before the width. -/
theorem parseFlags_digit {c : Char} {fmt : List Char} (flags : Flags) (hc : c.isDigit) (hc' : c ≠ '0') :
    parseFlags flags (c :: fmt) = (flags, c :: fmt) := by
  have hne : ∀ d : Char, ¬d.isDigit → c ≠ d := fun d hd h => hd (h ▸ hc)
  have h₁ := hne '-' (by decide)
  have h₂ := hne '+' (by decide)
  have h₃ := hne ' ' (by decide)
  have h₄ := hne '#' (by decide)
  unfold parseFlags
  split <;> simp_all

theorem parseFlags_field {fmt : List Char} (flag : FieldFlag) (hwidth : 0 < width) :
    parseFlags {} (flag.chars ++ (Nat.toDigits 10 width ++ fmt)) = (flag.flags, Nat.toDigits 10 width ++ fmt) := by
  obtain ⟨c, cs, hdigits, hc, hc'⟩ := toDigits_head hwidth
  rw [hdigits, List.cons_append]
  cases flag with
  | none => exact parseFlags_digit _ hc hc'
  | left => exact parseFlags_digit _ hc hc'
  | zero => exact parseFlags_digit _ hc hc'

theorem parseWidth_field {c : Char} {fmt : List Char} {args : List ℕ} (flags : Flags) (hwidth : 0 < width)
    (hwidth' : width < 2147483648) (hc : ¬c.isDigit) :
    parseWidth flags args (Nat.toDigits 10 width ++ c :: fmt) = some ((width : ℤ), flags, c :: fmt, args) := by
  have hread : skipAtoi (0 : ℕ) (Nat.toDigits 10 width ++ c :: fmt) = _ := skipAtoi_eq
    (fun d hd => Nat.isDigit_of_mem_toDigits (by decide) (by decide) hd) hc (by rwa [Nat.ofDigitChars_ten_toDigits])
  rw [Nat.ofDigitChars_ten_toDigits, Nat.cast_zero] at hread
  obtain ⟨d, ds, hdigits, hd, -⟩ := toDigits_head hwidth
  rw [hdigits, List.cons_append] at hread ⊢
  rw [parseWidth, if_pos hd, hread]

/-- **A conversion of a field** stores what is made for the flag and the width. -/
theorem step_field {conv : Conv} {rest out : List Char} {args : List ℕ} {stores : List (ℕ × ℕ)} (hwidth : 1 ≤ width)
    (hwidth' : width ≤ 34) :
    step cstr ⟨'%' :: (flag.chars ++ (Nat.toDigits 10 width ++ conv.char :: rest)), v :: args, out, stores⟩ =
      (emit cstr flag.flags width (-1) v conv.char).map fun text => ⟨rest, args, out ++ text, stores⟩ := by
  have hchar : ¬conv.char.isDigit ∧ conv.char ∈ conversions := by
    cases conv <;> decide
  exact step_conversion (parseFlags_field flag hwidth)
    (parseWidth_field flag.flags hwidth (by omega) hchar.1) hchar.2

/-- **A number in a field** is right exactly when it fits. -/
theorem padded_given_iff :
    Padded flag width plain
      (List.replicate (givenWidth flag.flags plain.length width - plain.length)
        (if flag.flags.zeropad then '0' else ' ') ++
          plain.drop (plain.length - givenWidth flag.flags plain.length width)) ↔
      plain.length = width ∨ plain.length < width ∧ flag ≠ .left := by
  have hleft : flag.flags.left = true ↔ flag = .left := by cases flag <;> decide
  simp only [givenWidth, hleft]
  rcases lt_trichotomy plain.length width with hlt | heq | hlt
  · by_cases hflag : flag = .left
    · -- nothing is put behind it
      rw [if_pos ⟨hlt, hflag⟩, Nat.sub_self, List.replicate_zero, List.nil_append, List.drop_zero]
      constructor
      · rintro ⟨hlength, -⟩
        omega
      · rintro (heq | ⟨-, hne⟩)
        · omega
        · exact absurd hflag hne
    · rw [if_neg fun h => hflag h.2, Nat.sub_eq_zero_of_le hlt.le, List.drop_zero]
      refine iff_of_true ⟨?_, _, fun c hc => ?_, (if_neg hflag).symm⟩ (.inr ⟨hlt, hflag⟩)
      · rw [List.length_append, List.length_replicate]
        omega
      · rw [List.eq_of_mem_replicate hc]
        split_ifs
        · exact .inr rfl
        · exact .inl rfl
  · rw [if_neg fun h => h.1.ne heq, heq, Nat.sub_self, List.replicate_zero, List.nil_append, List.drop_zero]
    refine iff_of_true ⟨by omega, [], fun c hc => absurd hc List.not_mem_nil, ?_⟩ (.inl rfl)
    rw [List.append_nil, List.nil_append, ite_self]
  · -- the number is cut off
    rw [if_neg fun h => absurd h.1 (by omega)]
    refine iff_of_false (fun h => ?_) (by omega)
    have hlength := h.1
    rw [List.length_append, List.length_replicate, List.length_drop] at hlength
    omega

theorem padBlanks_field (hwidth : 1 ≤ width) (hwidth' : width ≤ 34) :
    padBlanks width = (List.replicate (width - 1) ' ', 0) := by
  have hpred : (width : ℤ) - 1 = (width - 1 : ℕ) := by omega
  rw [padBlanks, hpred, wrapInt_natCast (by omega), Int.toNat_natCast, min_eq_right (Int.natCast_nonneg _)]

theorem padBlanks_zero : (padBlanks 0).1 = [] := by decide

/-- **A text in a field**: as many blanks as the width, but one, whatever its length. -/
theorem emitText_field (text : List Char) (hwidth : 1 ≤ width) (hwidth' : width ≤ 34) :
    emitText flag.flags width text = if flag = .left then text ++ List.replicate (width - 1) ' '
      else List.replicate (width - 1) ' ' ++ text := by
  have hblanks := padBlanks_field hwidth hwidth'
  rw [emitText, hblanks]
  cases flag with
  | left => exact congrArg (text ++ ·.1) hblanks
  | none => exact List.append_nil _
  | zero => exact List.append_nil _

theorem emitString_eq (flags : Flags) (size : ℤ) (s : List Char) :
    emitString flags size (-1) s = emitText flags size (s.take (wrapInt s.length).toNat) := by
  have hprecision : (0 : ℤ) > -1 := by decide
  rw [emitString, if_pos hprecision]

/-- Blanks for all columns but one are right for a text of one character, or in one column. -/
theorem padded_blanks (hwidth : 1 ≤ width) (hplain : plain.length = 1 ∨ width = 1 ∧ 1 ≤ plain.length) :
    Padded flag width plain (if flag = .left then plain ++ List.replicate (width - 1) ' '
      else List.replicate (width - 1) ' ' ++ plain) := by
  refine ⟨?_, List.replicate (width - 1) ' ', fun c hc => .inl (List.eq_of_mem_replicate hc), rfl⟩
  split_ifs <;> rw [List.length_append, List.length_replicate] <;> omega

/-- **A string in a field** is right exactly when it has one character, or the field one column. -/
theorem padded_string_iff (hwidth : 1 ≤ width) (hwidth' : width ≤ 34) :
    Padded flag width plain (emitString flag.flags width (-1) plain) ↔
      plain.length = 1 ∨ width = 1 ∧ 1 ≤ plain.length ∧ plain.length < 2147483648 := by
  rw [emitString_eq, emitText_field _ hwidth hwidth']
  constructor
  · rintro ⟨hlength, -⟩
    have htotal : width - 1 + min (wrapInt plain.length).toNat plain.length = max width plain.length := by
      rw [← hlength]
      split_ifs <;> simp only [List.length_append, List.length_replicate, List.length_take]
      exact Nat.add_comm _ _
    have hwrap : wrapInt plain.length = plain.length ∨ wrapInt plain.length ≤ plain.length - 4294967296 := by
      rw [wrapInt, Int.bmod_def]
      split_ifs <;> omega
    have hlt : wrapInt plain.length < 2147483648 := Int.bmod_lt (by decide)
    omega
  · intro h
    have hwrap : (wrapInt plain.length).toNat = plain.length := by
      rw [wrapInt_natCast (by omega), Int.toNat_natCast]
    rw [hwrap, List.take_length]
    exact padded_blanks hwidth (by omega)

/-- **A number in a field**, by the digits that `number` makes. -/
theorem emit_number_iff {base : ℕ} {flags : Flags} (conv : Conv) (hwidth : 1 ≤ width) (hwidth' : width ≤ 34)
    (hv : v < 4294967296) (hbase : 2 ≤ base) (hbase' : base ≤ 16)
    (hemit : emit cstr flag.flags width (-1) v conv.char = number v base width (-1) flags)
    (hplain : numberText v base flags = conv.plain cstr v) (hleft : flags.left = flag.flags.left)
    (hzeropad : flags.zeropad = flag.flags.zeropad) (hplus : flags.plus = false) (hspecial : flags.special = false) :
    (∃ text, emit cstr flag.flags width (-1) v conv.char = some text ∧ Padded flag width (conv.plain cstr v) text) ↔
      (conv.plain cstr v).length = width ∨ (conv.plain cstr v).length < width ∧ flag ≠ .left := by
  have hnumber := number_eq flags width hbase hbase' hv (by omega) hplus hspecial hplain rfl
  have hfield : ∀ n, fieldSize width n = width := fun n => by
    rw [fieldSize, if_pos (by omega), Int.toNat_natCast]
  have hgiven : ∀ n, givenWidth flags n width = givenWidth flag.flags n width := fun n => by
    rw [givenWidth, givenWidth, hleft]
  rw [hfield, hgiven, hzeropad] at hnumber
  rw [hemit, hnumber, ← padded_given_iff]
  simp only [Option.some.injEq, exists_eq_left']

/-- **What a conversion stores** is right exactly when it fits. -/
theorem emit_padded_iff (conv : Conv) (hwidth : 1 ≤ width) (hwidth' : width ≤ 34) (hv : v < 4294967296) :
    (∃ text, emit cstr flag.flags width (-1) v conv.char = some text ∧ Padded flag width (conv.plain cstr v) text) ↔
      conv.Fits cstr v flag width := by
  cases conv with
  | u =>
    exact emit_number_iff _ hwidth hwidth' hv (by decide) (by decide) rfl
      (numberText_of_le_ten v _ (by decide) le_rfl) rfl rfl (by cases flag <;> rfl) (by cases flag <;> rfl)
  | o =>
    exact emit_number_iff _ hwidth hwidth' hv (by decide) (by decide) rfl
      (numberText_of_le_ten v _ (by decide) (by decide)) rfl rfl (by cases flag <;> rfl) (by cases flag <;> rfl)
  | x =>
    exact emit_number_iff _ hwidth hwidth' hv (by decide) le_rfl rfl
      (List.map_id _) rfl rfl (by cases flag <;> rfl) (by cases flag <;> rfl)
  | X =>
    have hsmall : flag.flags.small = false := by cases flag <;> rfl
    have hcase : digitCase flag.flags = Char.toUpper := funext fun c => if_neg (by rw [hsmall]; decide)
    have htext : numberText v 16 flag.flags = (Nat.toDigits 16 v).map Char.toUpper := by rw [numberText, hcase]
    exact emit_number_iff _ hwidth hwidth' hv (by decide) le_rfl rfl htext rfl rfl
      (by cases flag <;> rfl) (by cases flag <;> rfl)
  | c =>
    refine iff_of_true ⟨_, rfl, ?_⟩ trivial
    rw [emitChar, emitText_field _ hwidth hwidth']
    exact padded_blanks hwidth (.inl rfl)
  | s =>
    have hstring : Padded flag width (cstr v) (emitString flag.flags width (-1) (cstr v)) ↔ _ :=
      padded_string_iff hwidth hwidth'
    constructor
    · rintro ⟨text, htext, hpadded⟩
      obtain rfl := Option.some.inj htext
      exact hstring.mp hpadded
    · exact fun h => ⟨_, rfl, hstring.mpr h⟩

/-- **The field width is a minimum** for a conversion, whatever is in front of it and behind it in the format,
exactly when its text fits the field. -/
theorem step_padded_iff (cstr : ℕ → List Char) (conv : Conv) (flag : FieldFlag) (width v : ℕ) (rest out : List Char)
    (args : List ℕ) (stores : List (ℕ × ℕ)) (hwidth : 1 ≤ width) (hwidth' : width ≤ 34) (hv : v < 4294967296) :
    (∃ text, step cstr ⟨'%' :: (flag.chars ++ (Nat.toDigits 10 width ++ conv.char :: rest)), v :: args, out, stores⟩
        = some ⟨rest, args, out ++ text, stores⟩ ∧ Padded flag width (conv.plain cstr v) text) ↔
      conv.Fits cstr v flag width := by
  rw [step_field hwidth hwidth', ← emit_padded_iff conv hwidth hwidth' hv]
  refine exists_congr fun text => and_congr_left fun _ => ?_
  rw [Option.map_eq_some_iff]
  constructor
  · rintro ⟨text', htext, heq⟩
    have hout := (State.mk.injEq ..).mp heq
    rwa [List.append_cancel_left hout.2.2.1] at htext
  · exact fun htext => ⟨text, htext, rfl⟩

/-- A number in a field that it fills, `%3u` of 123. -/
theorem step_padded_iff_filled :
    ∃ text, step (fun _ => []) ⟨"%3u".toList, [123], [], []⟩ = some ⟨[], [], text, []⟩ ∧
      Padded .none 3 "123".toList text :=
  (step_padded_iff (fun _ => []) .u .none 3 123 [] [] [] [] (by decide) (by decide) (by decide)).mpr (.inl (by decide))

/-- **The wrong widths**: a number is cut off in a field that is too short, and not padded on the right, and a string of two
characters takes one column more than its field. -/
theorem step_padded_wrong :
    (step (fun _ => []) ⟨"%2u".toList, [123], [], []⟩).map State.out = some "23".toList ∧
      (step (fun _ => []) ⟨"%-5u".toList, [12], [], []⟩).map State.out = some "12".toList ∧
      (step (fun _ => "ab".toList) ⟨"%5s".toList, [0], [], []⟩).map State.out = some "    ab".toList ∧
      ¬∃ text, step (fun _ => []) ⟨"%2u".toList, [123], [], []⟩ = some ⟨[], [], text, []⟩ ∧
        Padded .none 2 "123".toList text := by
  have hcut : step (fun _ => []) ⟨"%2u".toList, [123], [], []⟩ = some ⟨[], [], "23".toList, []⟩ := by decide
  refine ⟨by decide, by decide, by decide, ?_⟩
  rintro ⟨text, htext, hlength, -⟩
  obtain rfl := ((State.mk.injEq ..).mp (Option.some.inj (hcut.symm.trans htext))).2.2.1
  exact absurd hlength (by decide)

end Field

end Printf

end Onixs
