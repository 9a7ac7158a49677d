import Mathlib.Logic.Function.Basic
import Mathlib.Tactic.IntervalCases
import Onixs.Lib.Types

/-!
# Numbers as text

`number` and `skip_atoi` of `lib/string.c` and `atoi` of `lib/stdlib.c`. `number` makes the digits at the end of
an array of 35 characters and gives out the end of the array; what it gives out is the field width where one is
given, and the number of digits only otherwise (`Onixs.Number.number_eq`). So a number that is longer than the field
is cut off on the left, and nothing is put behind one that goes to the left of its field.

A `char` is a character below 256.
-/

namespace Onixs

namespace Number

/-- Wrap a number to an `int`. -/
def wrapInt (x : ℤ) : ℤ := x.bmod 4294967296

theorem wrapInt_natCast {n : ℕ} (h : n < 2147483648) : wrapInt n = n :=
  Int.bmod_eq_of_le (by omega) (by omega)

/-- Wrap a number to a `char`. -/
def wrapChar (x : ℤ) : ℤ := x.bmod 256

/-- The flags of a conversion. -/
structure Flags where
  /-- `SMALL`. -/
  small : Bool := false
  /-- `ZEROPAD`. -/
  zeropad : Bool := false
  /-- `LEFT`. -/
  left : Bool := false
  /-- `SIGN`. -/
  sign : Bool := false
  /-- `PLUS`. -/
  plus : Bool := false
  /-- `SPECIAL`. -/
  special : Bool := false
  /-- `SPACE`. -/
  space : Bool := false
  deriving DecidableEq

/-- `EOS`. -/
def nul : Char := Char.ofNat 0

/-- The digits in capitals. -/
def upperDigits : List Char := "0123456789ABCDEFGHIJKLMNOPQRSTUVWXYZ".toList

/-- The digits in small letters. -/
def lowerDigits : List Char := "0123456789abcdefghijklmnopqrstuvwxyz".toList

/-- `tmp[33 - index++] = c`, of an array of 35 characters. -/
def putDigit (tmp : ℕ → Char) (index : ℕ) (c : Char) : Option (ℕ × (ℕ → Char)) := do
  assert (index ≤ 33)
  return (index + 1, Function.update tmp (33 - index) c)

/-- The loop over the digits of `number`. -/
def digitLoop (digits : List Char) (base : ℕ) : ℕ → ℕ → ℕ → (ℕ → Char) → Option (ℕ × (ℕ → Char))
  | 0, _, _, _ => none
  | fuel + 1, num, index, tmp =>
    if num = 0 then some (index, tmp) else do
      let (index, tmp) ← putDigit tmp index (digits.getD (num % base) nul)
      digitLoop digits base fuel (num / base) index tmp

/-- The digits of `number`. -/
def putNumber (digits : List Char) (num base : ℕ) (tmp : ℕ → Char) : Option (ℕ × (ℕ → Char)) :=
  if num = 0 then putDigit tmp 0 (digits.getD 0 nul) else digitLoop digits base 33 num 0 tmp

/-- The prefix of `number`, which is counted in `size`. -/
def putPrefix (flags : Flags) (digits : List Char) (base size : ℕ) (tmp : ℕ → Char) : Option (ℕ × (ℕ → Char)) :=
  if flags.special then
    if base = 2 then do
      let (size, tmp) ← putDigit tmp size (digits.getD 11 nul)
      putDigit tmp size '0'
    else if base = 8 then putDigit tmp size '0'
    else if base = 16 then do
      let (size, tmp) ← putDigit tmp size (digits.getD 33 nul)
      putDigit tmp size '0'
    else some (size, tmp)
  else some (size, tmp)

/-- The end of `number`: how much of the end of the array it stores, of which `index` characters are digits. -/
def giveOut (flags : Flags) (index size : ℕ) (tmp : ℕ → Char) : Option (List Char) := do
  let left := wrapChar (if index < size then if flags.left then index else size else size)
  let tmp := Function.update tmp 34 nul
  assert (left ≤ 34)
  return (List.range left.toNat).map fun i => tmp (34 - left.toNat + i)

/-- `number`: the characters it stores. It has none when it returns a null pointer, which `vsprintf` goes on to
write to, or leaves its array. -/
def number (num base : ℕ) (size precision : ℤ) (flags : Flags) : Option (List Char) := do
  assert (¬(base < 2 ∨ 36 < base))
  let pad := if flags.zeropad then '0' else ' '
  let digits := if flags.small then lowerDigits else upperDigits
  -- `num` is unsigned, and never below 0
  let lead := if flags.sign ∧ num < 0 then ['-'] else if flags.plus then ['+'] else []
  let num := if flags.sign ∧ num < 0 then sub32 0 num else num
  let tmp := fun _ => pad
  let (index, tmp) ← putNumber digits num base tmp
  let size := if size > 0 then size.toNat else index
  let index := if 0 ≤ precision ∧ precision < index then precision.toNat else index
  let tmp := fun i => if i < 34 - index then pad else tmp i
  let (size, tmp) ← putPrefix flags digits base size tmp
  let text ← giveOut flags index size tmp
  return lead ++ text

/-- `skip_atoi`, with the number so far. -/
def skipAtoi : ℤ → List Char → ℤ × List Char
  | i, [] => (i, [])
  | i, c :: s => if c.isDigit then skipAtoi (wrapInt (i * 10 + c.toNat - 48)) s else (i, c :: s)

/-- The loop of `atoi`. -/
def atoiLoop : ℤ → List Char → ℤ
  | result, [] => result
  | result, c :: s => atoiLoop (wrapInt (result * 10 + (wrapChar c.toNat - 48))) s

/-- `atoi`. It skips a sign and keeps it in a `bool` that it does not use. -/
def atoi : List Char → ℤ
  | '-' :: s => atoiLoop 0 s
  | s => atoiLoop 0 s

/-! ### The digits -/

section Digits

variable {base num fuel index : ℕ} {digits : List Char} {f : Char → Char} {tmp : ℕ → Char}

/-- The digits of a number, and none of zero. -/
def numeral (base num : ℕ) : List Char := if num = 0 then [] else Nat.toDigits base num

theorem numeral_of_pos (hbase : 2 ≤ base) (h : num ≠ 0) :
    numeral base num = numeral base (num / base) ++ [Nat.digitChar (num % base)] := by
  rw [numeral, if_neg h, Nat.toDigits_eq_if hbase, numeral]
  by_cases hlt : num < base
  · rw [if_pos hlt, if_pos (Nat.div_eq_of_lt hlt), Nat.mod_eq_of_lt hlt, List.nil_append]
  · have hpos : num / base ≠ 0 := (Nat.div_pos (Nat.not_lt.mp hlt) (by omega)).ne'
    rw [if_neg hlt, if_neg hpos]

/-- **The loop over the digits** puts them in front of the place it begins at, and changes nothing else. -/
theorem digitLoop_eq (fuel index : ℕ) (tmp : ℕ → Char) (hbase : 2 ≤ base) (hdigits : ∀ d < base, digits.getD d nul = f (Nat.digitChar d))
    (hnum : num < 2 ^ fuel) (hindex : index + fuel ≤ 34) :
    ∃ n tmp', digitLoop digits base (fuel + 1) num index tmp = some (index + n, tmp') ∧ n ≤ fuel ∧
      (List.range n).map (fun i => tmp' (34 - (index + n) + i)) = (numeral base num).map f ∧
      ∀ i, i < 34 - (index + n) ∨ 34 - index ≤ i → tmp' i = tmp i := by
  induction fuel generalizing num index tmp with
  | zero =>
    have hzero : num = 0 := by simpa using hnum
    refine ⟨0, tmp, ?_, le_rfl, ?_, fun _ _ => rfl⟩
    · rw [digitLoop, if_pos hzero, Nat.add_zero]
    · simp [numeral, hzero]
  | succ fuel ih =>
    by_cases hzero : num = 0
    · refine ⟨0, tmp, ?_, Nat.zero_le _, ?_, fun _ _ => rfl⟩
      · rw [digitLoop, if_pos hzero, Nat.add_zero]
      · simp [numeral, hzero]
    · have hdiv : num / base < 2 ^ fuel := by
        refine Nat.div_lt_of_lt_mul (hnum.trans_le ?_)
        rw [Nat.pow_succ, Nat.mul_comm]
        exact Nat.mul_le_mul_right _ hbase
      obtain ⟨n, tmp', hloop, hn, hwindow, hrest⟩ := ih (index + 1)
        (Function.update tmp (33 - index) (digits.getD (num % base) nul)) hdiv (by omega)
      refine ⟨n + 1, tmp', ?_, by omega, ?_, fun i hi => ?_⟩
      · rw [digitLoop, if_neg hzero, putDigit, assert_pos (by omega)]
        simp only [Option.bind_eq_bind, Option.bind_some, Option.pure_def]
        rw [hloop, Nat.add_assoc, Nat.add_comm 1 n]
      · -- the last digit is where the loop began
        have hlast : tmp' (34 - (index + (n + 1)) + n) = f (Nat.digitChar (num % base)) := by
          have hplace : 34 - (index + (n + 1)) + n = 33 - index := by omega
          rw [hplace, hrest _ (by omega), Function.update_self, hdigits _ (Nat.mod_lt _ (by omega))]
        rw [Nat.add_assoc, Nat.add_comm 1 n] at hwindow
        rw [List.range_succ, List.map_append, hwindow, List.map_singleton, hlast, numeral_of_pos hbase hzero,
          List.map_append, List.map_singleton]
      · rw [hrest i (by omega), Function.update_of_ne (by omega)]

/-- **The end of the array**: a field of `width` characters of it has the end of the text, and padding in front. -/
theorem window_eq {text : List Char} (pad : Char) {width n : ℕ} (hn : n ≤ 34) (hwidth : width ≤ 34)
    (htext : (List.range n).map (fun i => tmp (34 - n + i)) = text) (hpad : ∀ i, i < 34 - n → tmp i = pad) :
    (List.range width).map (fun i => tmp (34 - width + i)) =
      List.replicate (width - n) pad ++ text.drop (n - width) := by
  have hlength : text.length = n := by rw [← htext, List.length_map, List.length_range]
  refine List.ext_getElem ?_ fun i hi hi' => ?_
  · rw [List.length_map, List.length_range, List.length_append, List.length_replicate, List.length_drop, hlength]
    omega
  · rw [List.length_map, List.length_range] at hi
    rw [List.getElem_map, List.getElem_range]
    by_cases hlt : i < width - n
    · rw [List.getElem_append_left (by rwa [List.length_replicate]), List.getElem_replicate]
      exact hpad _ (by omega)
    · rw [List.getElem_append_right (by rw [List.length_replicate]; omega), List.getElem_drop]
      simp only [← htext, List.getElem_map, List.getElem_range, List.length_replicate]
      congr 1
      omega

/-- The digit `d` in the table. -/
def digitCase (flags : Flags) (c : Char) : Char := if flags.small then c else c.toUpper

/-- A digit is the same in capitals. -/
theorem digitCase_of_isDigit (flags : Flags) {c : Char} (h : c.isDigit) : digitCase flags c = c := by
  unfold digitCase
  split_ifs
  · rfl
  · have hc : c.toNat ≤ 57 := (Char.isDigit_iff_toNat.mp h).2
    refine dif_neg fun hsmall => ?_
    have ha : 97 ≤ c.toNat := UInt32.le_iff_toNat_le.mp hsmall.1
    omega

theorem digits_getD (flags : Flags) {d : ℕ} (h : d < 16) :
    (if flags.small then lowerDigits else upperDigits).getD d nul = digitCase flags (Nat.digitChar d) := by
  unfold digitCase
  split_ifs <;> interval_cases d <;> rfl

/-- The text of a number. -/
def numberText (num base : ℕ) (flags : Flags) : List Char := (Nat.toDigits base num).map (digitCase flags)

theorem length_numberText_pos (num base : ℕ) (flags : Flags) : 0 < (numberText num base flags).length := by
  rw [numberText, List.length_map]
  exact Nat.length_toDigits_pos

/-- The digits to a base up to ten are the same in capitals. -/
theorem numberText_of_le_ten (num : ℕ) {base : ℕ} (flags : Flags) (hbase : 0 < base) (hbase' : base ≤ 10) :
    numberText num base flags = Nat.toDigits base num := by
  have hcase : (Nat.toDigits base num).map (digitCase flags) = (Nat.toDigits base num).map id :=
    List.map_congr_left fun c hc =>
      digitCase_of_isDigit flags (Nat.isDigit_of_mem_toDigits hbase hbase' hc)
  rw [numberText, hcase, List.map_id]

/-- How many characters are given out, of `n` in a field of `size`. -/
def givenWidth (flags : Flags) (n size : ℕ) : ℕ := if n < size ∧ flags.left then n else size

@[simp] theorem givenWidth_self (flags : Flags) (n : ℕ) : givenWidth flags n n = n :=
  if_neg fun h => lt_irrefl n h.1

/-- **The end of `number`** gives out the end of the text, padded in front. -/
theorem giveOut_eq {flags : Flags} {text : List Char} (pad : Char) {n size : ℕ} (hn : n ≤ 34) (hsize : size ≤ 34)
    (htext : (List.range n).map (fun i => tmp (34 - n + i)) = text) (hpad : ∀ i, i < 34 - n → tmp i = pad) :
    giveOut flags n size tmp = some (List.replicate (givenWidth flags n size - n) pad ++
      text.drop (n - givenWidth flags n size)) := by
  have hwidth : givenWidth flags n size ≤ 34 := by
    unfold givenWidth
    split_ifs <;> assumption
  have hchoice : (if n < size then if flags.left then (n : ℤ) else size else size) = givenWidth flags n size := by
    rw [givenWidth]
    by_cases hlt : n < size
    · by_cases hleft : flags.left = true <;> simp [hlt, hleft]
    · rw [if_neg hlt, if_neg fun h => hlt h.1]
  have hleft : wrapChar (givenWidth flags n size) = givenWidth flags n size :=
    Int.bmod_eq_of_le (by omega) (by omega)
  rw [giveOut, hchoice, hleft, assert_pos (by omega), Int.toNat_natCast]
  refine congrArg some ?_
  rw [window_eq pad hn hwidth]
  · rw [← htext]
    refine List.map_congr_left fun i hi => Function.update_of_ne ?_ _ _
    rw [List.mem_range] at hi
    omega
  · intro i hi
    rw [Function.update_of_ne (by omega), hpad i hi]

/-- The field: what is given as its width, or as many characters as there are. -/
def fieldSize (size : ℤ) (n : ℕ) : ℕ := if size > 0 then size.toNat else n

/-- **The digits of `number`**, of a number below 2^32. -/
theorem putNumber_eq (flags : Flags) (hbase : 2 ≤ base) (hbase' : base ≤ 16) (hnum : num < 4294967296) (pad : Char) :
    ∃ tmp', putNumber (if flags.small then lowerDigits else upperDigits) num base (fun _ => pad) =
        some ((numberText num base flags).length, tmp') ∧ (numberText num base flags).length ≤ 32 ∧
      (List.range (numberText num base flags).length).map
        (fun i => tmp' (34 - (numberText num base flags).length + i)) = numberText num base flags := by
  by_cases hzero : num = 0
  · subst hzero
    have htext : numberText 0 base flags = [digitCase flags '0'] := by
      rw [numberText, Nat.toDigits_zero, List.map_singleton]
    rw [putNumber, if_pos rfl, htext, digits_getD flags (by decide), List.length_singleton]
    exact ⟨_, rfl, by decide, rfl⟩
  · obtain ⟨n, tmp', hloop, hn, hwindow, -⟩ := digitLoop_eq 32 0 (fun _ => pad) hbase
      (fun d hd => digits_getD flags (hd.trans_le hbase')) (by simpa using hnum) (by decide)
    have htext : (numeral base num).map (digitCase flags) = numberText num base flags := by
      rw [numeral, if_neg hzero, numberText]
    rw [htext, Nat.zero_add] at hwindow
    have hlength : n = (numberText num base flags).length := by
      rw [← hwindow, List.length_map, List.length_range]
    rw [putNumber, if_neg hzero, ← hlength]
    exact ⟨tmp', hloop.trans (by rw [Nat.zero_add]), hn, hwindow⟩

/-- **`number`** without a precision or a prefix: the end of the text, padded in front to the width that is
given out. -/
theorem number_eq (flags : Flags) (size : ℤ) {text : List Char} {n : ℕ} (hbase : 2 ≤ base) (hbase' : base ≤ 16)
    (hnum : num < 4294967296) (hsize : size ≤ 34) (hplus : flags.plus = false) (hspecial : flags.special = false)
    (htext : numberText num base flags = text) (hn : text.length = n) :
    number num base size (-1) flags = some
      (List.replicate (givenWidth flags n (fieldSize size n) - n) (if flags.zeropad then '0' else ' ') ++
        text.drop (n - givenWidth flags n (fieldSize size n))) := by
  obtain ⟨tmp', hdigits, hle, hwindow⟩ := putNumber_eq flags hbase hbase' hnum
    (if flags.zeropad then '0' else ' ')
  rw [htext, hn] at hdigits hwindow
  rw [htext, hn] at hle
  have hsign : ¬(flags.sign = true ∧ num < 0) := fun h => absurd h.2 (Nat.not_lt_zero _)
  have hprecision : ¬(0 ≤ (-1 : ℤ) ∧ (-1 : ℤ) < (n : ℤ)) := fun h => absurd h.1 (by decide)
  have hfield : fieldSize size n ≤ 34 := by
    unfold fieldSize
    split_ifs <;> omega
  rw [number, assert_pos (by omega)]
  simp only [if_neg hsign, hplus, Bool.false_eq_true, if_false, Option.bind_eq_bind, Option.bind_some, hdigits,
    if_neg hprecision, putPrefix, hspecial, List.nil_append, Option.pure_def]
  rw [← fieldSize, giveOut_eq (if flags.zeropad then '0' else ' ') (by omega) hfield, Option.bind_some]
  · rw [← hwindow]
    refine List.map_congr_left fun i hi => if_neg ?_
    omega
  · exact fun i hi => if_pos hi

end Digits

/-! ### Reading digits -/

section Reading

variable {c : Char} {cs rest : List Char} {i : ℕ}

theorem toNat_of_isDigit (h : c.isDigit) : 48 ≤ c.toNat ∧ c.toNat ≤ 57 := Char.isDigit_iff_toNat.mp h

theorem le_ofDigitChars (cs : List Char) (i : ℕ) : i ≤ Nat.ofDigitChars 10 cs i := by
  rw [Nat.ofDigitChars_eq_ofDigitChars_zero]
  exact (Nat.le_mul_of_pos_left i (Nat.pow_pos (by decide))).trans (Nat.le_add_right _ _)

/-- One more digit of a number that fits an `int`. -/
theorem wrapInt_digit (h : c.isDigit) (hbound : Nat.ofDigitChars 10 (c :: cs) i < 2147483648) :
    wrapInt (i * 10 + c.toNat - 48) = ((10 * i + (c.toNat - 48) : ℕ) : ℤ) := by
  have hc := toNat_of_isDigit h
  have hle := (le_ofDigitChars cs (10 * i + (c.toNat - 48))).trans_lt hbound
  have hcast : (i : ℤ) * 10 + c.toNat - 48 = ((10 * i + (c.toNat - 48) : ℕ) : ℤ) := by omega
  rw [hcast, wrapInt_natCast hle]

/-- **`skip_atoi`** reads the digits in front of another character. -/
theorem skipAtoi_eq (hcs : ∀ d ∈ cs, d.isDigit) (hc : ¬c.isDigit) (hbound : Nat.ofDigitChars 10 cs i < 2147483648) :
    skipAtoi i (cs ++ c :: rest) = (((Nat.ofDigitChars 10 cs i : ℕ) : ℤ), c :: rest) := by
  induction cs generalizing i with
  | nil => rw [List.nil_append, skipAtoi, if_neg hc, Nat.ofDigitChars_nil]
  | cons d cs ih =>
    have hd := hcs d List.mem_cons_self
    rw [List.cons_append, skipAtoi, if_pos hd, wrapInt_digit hd hbound, Nat.ofDigitChars_cons]
    rw [Nat.ofDigitChars_cons] at hbound
    exact ih (fun d hd => hcs d (List.mem_cons_of_mem _ hd)) hbound

/-- **The loop of `atoi`** reads digits. -/
theorem atoiLoop_eq (hcs : ∀ d ∈ cs, d.isDigit) (hbound : Nat.ofDigitChars 10 cs i < 2147483648) :
    atoiLoop i cs = (Nat.ofDigitChars 10 cs i : ℕ) := by
  induction cs generalizing i with
  | nil => rw [atoiLoop, Nat.ofDigitChars_nil]
  | cons d cs ih =>
    have hd := hcs d List.mem_cons_self
    have hchar : wrapChar d.toNat = d.toNat := by
      have hbounds := toNat_of_isDigit hd
      exact Int.bmod_eq_of_le (by omega) (by omega)
    rw [atoiLoop, hchar, ← add_sub_assoc, wrapInt_digit hd hbound, Nat.ofDigitChars_cons]
    rw [Nat.ofDigitChars_cons] at hbound
    exact ih (fun d hd => hcs d (List.mem_cons_of_mem _ hd)) hbound

/-- **`atoi`** of the text of a number. -/
theorem atoi_toDigits {n : ℕ} (hn : n < 2147483648) : atoi (Nat.toDigits 10 n) = n := by
  have hdigits : ∀ d ∈ Nat.toDigits 10 n, d.isDigit := fun d hd =>
    Nat.isDigit_of_mem_toDigits (by decide) (by decide) hd
  have hloop := atoiLoop_eq (i := 0) hdigits (by rwa [Nat.ofDigitChars_ten_toDigits])
  rw [Nat.ofDigitChars_ten_toDigits, Nat.cast_zero] at hloop
  unfold atoi
  split
  · next s heq =>
    exact absurd (hdigits '-' (heq ▸ List.mem_cons_self)) (by decide)
  · exact hloop

end Reading

end Number

end Onixs
