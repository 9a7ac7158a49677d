import Onixs.Lib.Printf

/-!
# Scanning a format

`vsprintf` with its format as what it is in memory: a string that ends with a NUL, a pointer into it, and the
`++fmt` and `--fmt` of the source. A read behind the NUL is none. The arguments are the words on the stack.

The pointer follows the lists of `Onixs.Printf.vsprintf` (`Onixs.Printf.Pointer.vsprintf_eq`), and it stays in the
format: wherever the format ends, the scan stands at its NUL and the step back comes before the step of the loop.
What goes wrong is in `number`, which puts the prefix of a number in front of its field, and out of its array
when the field is wide (`Onixs.Printf.Pointer.vsprintf_inside_iff`).
-/

namespace Onixs

namespace Number

/-! ### In front of the array -/

/-- The end of `number`, where `below k` is the character that lies `k` places in front of the array: a wide
field gives it out. -/
def giveOutFrom (below : ℕ → Char) (flags : Flags) (index size : ℕ) (tmp : ℕ → Char) : List Char :=
  let left := (wrapChar (if index < size then if flags.left then index else size else size)).toNat
  let tmp := Function.update tmp 34 nul
  (List.range left).map fun i => if left ≤ 34 + i then tmp (34 + i - left) else below (left - (34 + i))

/-- `number`, with what lies in front of its array. It has no characters only when it returns a null pointer or
stores something in front of its array. -/
def numberFrom (below : ℕ → Char) (num base : ℕ) (size precision : ℤ) (flags : Flags) : Option (List Char) := do
  assert (¬(base < 2 ∨ 36 < base))
  let pad := if flags.zeropad then '0' else ' '
  let digits := if flags.small then lowerDigits else upperDigits
  let lead := if flags.sign ∧ num < 0 then ['-'] else if flags.plus then ['+'] else []
  let num := if flags.sign ∧ num < 0 then sub32 0 num else num
  let tmp := fun _ => pad
  let (index, tmp) ← putNumber digits num base tmp
  let size := if size > 0 then size.toNat else index
  let index := if 0 ≤ precision ∧ precision < index then precision.toNat else index
  let tmp := fun i => if i < 34 - index then pad else tmp i
  let (size, tmp) ← putPrefix flags digits base size tmp
  return lead ++ giveOutFrom below flags index size tmp

section From

variable {below : ℕ → Char} {flags : Flags} {num base index n : ℕ} {size precision : ℤ} {digits text : List Char}
  {tmp : ℕ → Char}

/-- What is given out from the array is the same. -/
theorem giveOutFrom_eq (h : giveOut flags index n tmp = some text) : giveOutFrom below flags index n tmp = text := by
  obtain ⟨_, hle, htext⟩ := Option.bind_eq_some_iff.mp h
  have hleft := assert_eq_some.mp hle
  rw [← Option.some.inj htext]
  refine List.map_congr_left fun i _ => ?_
  have hle' : (wrapChar (if index < n then if flags.left then index else n else n)).toNat ≤ 34 := by omega
  rw [if_pos (by omega), Nat.sub_add_comm hle']

/-- **`number`** gives out the same when it stays in its array. -/
theorem numberFrom_eq (h : number num base size precision flags = some text) :
    numberFrom below num base size precision flags = some text := by
  obtain ⟨_, hbase, h⟩ := Option.bind_eq_some_iff.mp h
  obtain ⟨p, hdigits, h⟩ := Option.bind_eq_some_iff.mp h
  obtain ⟨q, hprefix, h⟩ := Option.bind_eq_some_iff.mp h
  obtain ⟨t, hgive, h⟩ := Option.bind_eq_some_iff.mp h
  refine Option.bind_eq_some_iff.mpr ⟨(), hbase, Option.bind_eq_some_iff.mpr ⟨p, hdigits,
    Option.bind_eq_some_iff.mpr ⟨q, hprefix, ?_⟩⟩⟩
  exact (congrArg (fun t => some (_ ++ t)) (giveOutFrom_eq hgive)).trans h

/-- A character is stored in the array at one of its places. -/
theorem putDigit_of_le (tmp : ℕ → Char) (c : Char) (h : n ≤ 33) :
    putDigit tmp n c = some (n + 1, Function.update tmp (33 - n) c) := by
  rw [putDigit, assert_pos h]
  rfl

theorem putDigit_isSome (tmp : ℕ → Char) (c : Char) : (putDigit tmp n c).isSome ↔ n ≤ 33 := by
  by_cases h : n ≤ 33
  · rw [putDigit_of_le tmp c h]
    exact iff_of_true rfl h
  · rw [putDigit, assert_neg h]
    exact iff_of_false Bool.false_ne_true h

/-- **The prefix** stays in the array when the field leaves room for it there. -/
theorem putPrefix_isSome : (putPrefix flags digits base n tmp).isSome ↔
    (flags.special = true → (base = 2 ∨ base = 16 → n ≤ 32) ∧ (base = 8 → n ≤ 33)) := by
  have htwo : ∀ c d, ((putDigit tmp n c).bind fun p => putDigit p.2 p.1 d).isSome ↔ n ≤ 32 := by
    intro c d
    by_cases hn : n ≤ 33
    · rw [putDigit_of_le tmp c hn, Option.bind_some, putDigit_isSome, Nat.succ_le_succ_iff]
    · rw [putDigit, assert_neg hn]
      exact iff_of_false Bool.false_ne_true fun h => hn (h.trans (by decide))
  rw [putPrefix]
  by_cases hspecial : flags.special = true
  · rw [if_pos hspecial]
    split_ifs with h₁ h₂ h₃
    · subst h₁
      refine (htwo _ _).trans ⟨fun hn _ => ⟨fun _ => hn, fun h => absurd h (by decide)⟩, fun h => ?_⟩
      exact (h hspecial).1 (Or.inl rfl)
    · subst h₂
      refine (putDigit_isSome _ _).trans ⟨fun hn _ => ⟨fun h => absurd h (by decide), fun _ => hn⟩, fun h => ?_⟩
      exact (h hspecial).2 rfl
    · subst h₃
      refine (htwo _ _).trans ⟨fun hn _ => ⟨fun _ => hn, fun h => absurd h (by decide)⟩, fun h => ?_⟩
      exact (h hspecial).1 (Or.inr rfl)
    · exact iff_of_true rfl fun _ => ⟨fun h => (h.elim h₁ h₃).elim, fun h => absurd h h₂⟩
  · rw [if_neg hspecial]
    exact iff_of_true rfl fun h => absurd h hspecial

/-- **`number` stays in its array**, of a word to one of the bases of `vsprintf`, exactly when the prefix does. -/
theorem numberFrom_isSome (hbase : 2 ≤ base) (hbase' : base ≤ 16) (hnum : num < 4294967296) :
    (numberFrom below num base size precision flags).isSome ↔
      (flags.special = true → (base = 2 ∨ base = 16 → size ≤ 32) ∧ (base = 8 → size ≤ 33)) := by
  obtain ⟨tmp', hdigits, hle, -⟩ := putNumber_eq flags hbase hbase' hnum (if flags.zeropad then '0' else ' ')
  have hsign : ¬(flags.sign = true ∧ num < 0) := fun h => absurd h.2 (Nat.not_lt_zero _)
  have hsize : ∀ k, 32 ≤ k → ((if size > 0 then size.toNat else (numberText num base flags).length) ≤ k ↔
      size ≤ (k : ℤ)) := by
    intro k hk
    split_ifs <;> omega
  rw [numberFrom, assert_pos (by omega)]
  simp only [if_neg hsign, Option.bind_eq_bind, Option.bind_some, hdigits]
  have hsome : ∀ {o : Option (ℕ × (ℕ → Char))} {g : ℕ × (ℕ → Char) → Option (List Char)},
      (∀ q, (g q).isSome) → (o.bind g).isSome = o.isSome := fun {o g} hg => by
    cases o with
    | none => rfl
    | some q => exact hg q
  rw [hsome fun _ => rfl, putPrefix_isSome, hsize 32 le_rfl, hsize 33 (by decide)]
  rfl

end From

end Number

namespace Printf

open Number

/-! ### The format in memory -/

/-- A format: the characters in front of its NUL. -/
structure Format where
  /-- The characters. -/
  chars : List Char
  /-- None of them is the NUL. -/
  nul_notMem : nul ∉ chars

/-- The character at a place of the format. The last one is the NUL, and there is none behind it. -/
def Format.charAt (f : Format) (i : ℕ) : Option Char := (f.chars ++ [nul])[i]?

/-- What stands in front of the character of a conversion. -/
structure Spec where
  /-- The flags. -/
  flags : Flags
  /-- The field width. -/
  width : ℤ
  /-- The precision. -/
  precision : ℤ
  deriving DecidableEq

/-- A conversion of a list up to its character. -/
def parseSpec (args : List ℕ) (fmt : List Char) : Option (Spec × List Char × List ℕ) := do
  let (flags, fmt) := parseFlags {} fmt
  let (width, flags, fmt, args) ← parseWidth flags args fmt
  let (precision, fmt, args) ← parsePrecision args fmt
  return (⟨flags, width, precision⟩, skipQualifier fmt, args)

/-- **The conversions of a format**, with their characters. -/
def specs : ℕ → List Char → List ℕ → List (Spec × Char)
  | 0, _, _ => []
  | _ + 1, [], _ => []
  | passes + 1, c :: fmt, args =>
    if c ≠ '%' then specs passes fmt args
    else match parseSpec args fmt with
      | some (spec, d :: fmt, args) =>
        (spec, d) :: specs passes fmt (if d ∈ conversions ∨ d = 'n' then args.tail else args)
      | _ => []

/-- **The prefix of a number stays in the array of `number`**: its field leaves the places for it. -/
def Spec.PrefixFits (spec : Spec) (c : Char) : Prop :=
  spec.flags.special = true → (c = 'x' ∨ c = 'X' ∨ c = 'p' → spec.width ≤ 32) ∧ (c = 'o' → spec.width ≤ 33)

instance (spec : Spec) (c : Char) : Decidable (spec.PrefixFits c) := inferInstanceAs (Decidable (_ → _))

/-- A conversion of a list is scanned up to its character, and then made. -/
theorem step_parse (cstr : ℕ → List Char) (fmt : List Char) (args : List ℕ) (out : List Char)
    (stores : List (ℕ × ℕ)) : step cstr ⟨'%' :: fmt, args, out, stores⟩ = (parseSpec args fmt).bind fun p =>
      convert cstr p.1.flags p.1.width p.1.precision ⟨p.2.1, p.2.2, out, stores⟩ := by
  rw [step, parseSpec]
  simp only [Option.bind_eq_bind, Option.bind_assoc, Option.bind_some, Option.pure_def]

/-- Other characters have no prefix. -/
theorem Spec.prefixFits_of_notMem (spec : Spec) {c : Char} (hc : c ∉ conversions) : spec.PrefixFits c := by
  have hne : ∀ d ∈ conversions, c ≠ d := fun d hd h => hc (h ▸ hd)
  have hx := hne 'x' (by decide)
  have hX := hne 'X' (by decide)
  have hp := hne 'p' (by decide)
  have ho := hne 'o' (by decide)
  simp [Spec.PrefixFits, hx, hX, hp, ho]

/-- What the conversions store, with what lies in front of the array of `number`. -/
def emitFrom (below : ℕ → Char) (cstr : ℕ → List Char) (spec : Spec) (v : ℕ) : Char → Option (List Char)
  | 'o' => numberFrom below v 8 spec.width spec.precision spec.flags
  | 'p' => if spec.width = -1 then numberFrom below v 16 8 spec.precision { spec.flags with zeropad := true }
      else numberFrom below v 16 spec.width spec.precision spec.flags
  | 'x' => numberFrom below v 16 spec.width spec.precision { spec.flags with small := true }
  | 'X' => numberFrom below v 16 spec.width spec.precision spec.flags
  | 'd' => numberFrom below v 10 spec.width spec.precision { spec.flags with sign := true }
  | 'i' => numberFrom below v 10 spec.width spec.precision { spec.flags with sign := true }
  | 'u' => numberFrom below v 10 spec.width spec.precision spec.flags
  | c => emit cstr spec.flags spec.width spec.precision v c

section Emit

variable {below : ℕ → Char} {cstr : ℕ → List Char} {spec : Spec} {v : ℕ} {c : Char} {text : List Char}

/-- **A conversion** stores the same when `number` stays in its array. -/
theorem emitFrom_eq (h : emit cstr spec.flags spec.width spec.precision v c = some text) :
    emitFrom below cstr spec v c = some text := by
  by_cases hc : c ∈ ['o', 'p', 'x', 'X', 'd', 'i', 'u']
  · simp only [List.mem_cons, List.not_mem_nil, or_false] at hc
    rcases hc with rfl | rfl | rfl | rfl | rfl | rfl | rfl
    · exact numberFrom_eq h
    · rw [emit] at h
      rw [emitFrom]
      split_ifs at h ⊢
      · exact numberFrom_eq h
      · exact numberFrom_eq h
    · exact numberFrom_eq h
    · exact numberFrom_eq h
    · exact numberFrom_eq h
    · exact numberFrom_eq h
    · exact numberFrom_eq h
  · rw [← h]
    simp only [List.mem_cons, List.not_mem_nil, or_false, not_or] at hc
    unfold emitFrom
    split <;> simp_all

/-- **A conversion** stores something exactly when its prefix fits. -/
theorem emitFrom_isSome (below : ℕ → Char) (cstr : ℕ → List Char) (spec : Spec) (hc : c ∈ conversions)
    (hv : v < 4294967296) : (emitFrom below cstr spec v c).isSome ↔ spec.PrefixFits c := by
  have hnumber : ∀ {c : Char} (base : ℕ) (size : ℤ) (flags : Flags),
      emitFrom below cstr spec v c = numberFrom below v base size spec.precision flags → 2 ≤ base → base ≤ 16 →
      flags.special = spec.flags.special → ((emitFrom below cstr spec v c).isSome ↔
        (spec.flags.special = true → (base = 2 ∨ base = 16 → size ≤ 32) ∧ (base = 8 → size ≤ 33))) := by
    intro c base size flags hemit hbase hbase' hspecial
    rw [hemit, numberFrom_isSome hbase hbase' hv, hspecial]
  simp only [conversions, List.mem_cons, List.not_mem_nil, or_false] at hc
  rcases hc with rfl | rfl | rfl | rfl | rfl | rfl | rfl | rfl | rfl
  · simp [emitFrom, emit, Spec.PrefixFits]
  · simp [emitFrom, emit, Spec.PrefixFits]
  · rw [hnumber 8 spec.width spec.flags rfl (by decide) (by decide) rfl]
    simp [Spec.PrefixFits]
  · by_cases hwidth : spec.width = -1
    · have hemit : emitFrom below cstr spec v 'p' =
          numberFrom below v 16 8 spec.precision { spec.flags with zeropad := true } := if_pos hwidth
      rw [hnumber _ _ _ hemit (by decide) (by decide) rfl]
      simp [Spec.PrefixFits, hwidth]
    · have hemit : emitFrom below cstr spec v 'p' =
          numberFrom below v 16 spec.width spec.precision spec.flags := if_neg hwidth
      rw [hnumber _ _ _ hemit (by decide) (by decide) rfl]
      simp [Spec.PrefixFits]
  · rw [hnumber 16 spec.width { spec.flags with small := true } rfl (by decide) (by decide) rfl]
    simp [Spec.PrefixFits]
  · rw [hnumber 16 spec.width spec.flags rfl (by decide) (by decide) rfl]
    simp [Spec.PrefixFits]
  · rw [hnumber 10 spec.width { spec.flags with sign := true } rfl (by decide) (by decide) rfl]
    simp [Spec.PrefixFits]
  · rw [hnumber 10 spec.width { spec.flags with sign := true } rfl (by decide) (by decide) rfl]
    simp [Spec.PrefixFits]
  · rw [hnumber 10 spec.width spec.flags rfl (by decide) (by decide) rfl]
    simp [Spec.PrefixFits]

end Emit

namespace Pointer

/-- What `vsprintf` has before it: where `fmt` and `args` point to, and what it has stored. -/
structure State where
  /-- The place in the format. -/
  fmt : ℕ
  /-- The words that are taken. -/
  args : ℕ
  /-- The text in the buffer. -/
  out : List Char
  /-- The numbers stored for `%n`, with their addresses. -/
  stores : List (ℕ × ℕ)
  deriving DecidableEq

/-- The jumps to `repeat`, from the character in front of the flags. -/
def repeatFlags (f : Format) : ℕ → Flags → ℕ → Option (Flags × ℕ)
  | 0, _, _ => none
  | fuel + 1, flags, fmt => do
    let c ← f.charAt (fmt + 1)
    if c = '-' then repeatFlags f fuel { flags with left := true } (fmt + 1)
    else if c = '+' then repeatFlags f fuel { flags with plus := true } (fmt + 1)
    else if c = ' ' then repeatFlags f fuel { flags with space := true } (fmt + 1)
    else if c = '#' then repeatFlags f fuel { flags with special := true } (fmt + 1)
    else if c = '0' then repeatFlags f fuel { flags with zeropad := true } (fmt + 1)
    else some (flags, fmt + 1)

/-- `skip_atoi`, with the number so far. -/
def skipAtoi (f : Format) : ℕ → ℤ → ℕ → Option (ℤ × ℕ)
  | 0, _, _ => none
  | fuel + 1, i, fmt => do
    let c ← f.charAt fmt
    if c.isDigit then skipAtoi f fuel (wrapInt (i * 10 + c.toNat - 48)) (fmt + 1) else some (i, fmt)

/-- The field width, with the flags. -/
def fieldWidth (f : Format) (args : ℕ → BitVec 32) (flags : Flags) (fmt ap : ℕ) : Option (ℤ × Flags × ℕ × ℕ) := do
  let c ← f.charAt fmt
  if c.isDigit then (skipAtoi f (f.chars.length + 1) 0 fmt).map fun p => (p.1, flags, p.2, ap)
  else if c = '*' then
    if toInt (args ap).toNat < 0 then
      some (wrapInt (-toInt (args ap).toNat), { flags with left := true }, fmt + 1, ap + 1)
    else some (toInt (args ap).toNat, flags, fmt + 1, ap + 1)
  else some (-1, flags, fmt, ap)

/-- The precision behind its point. -/
def pointPrecision (f : Format) (args : ℕ → BitVec 32) (fmt ap : ℕ) : Option (ℤ × ℕ × ℕ) := do
  let c ← f.charAt fmt
  if c.isDigit then (skipAtoi f (f.chars.length + 1) 0 fmt).map fun p => (p.1, p.2, ap)
  else if c = '*' then some (toInt (args ap).toNat, fmt, ap + 1)
  else some (-1, fmt, ap)

/-- The precision. -/
def precision (f : Format) (args : ℕ → BitVec 32) (fmt ap : ℕ) : Option (ℤ × ℕ × ℕ) := do
  let c ← f.charAt fmt
  if c = '.' then (pointPrecision f args (fmt + 1) ap).map fun p => (if p.1 < 0 then 0 else p.1, p.2)
  else some (-1, fmt, ap)

/-- The qualifier. -/
def qualifier (f : Format) (fmt : ℕ) : Option ℕ := do
  let c ← f.charAt fmt
  return if c = 'h' ∨ c = 'l' ∨ c = 'L' then fmt + 1 else fmt

/-- A conversion up to its character, from its `%` on. -/
def scanSpec (f : Format) (args : ℕ → BitVec 32) (fmt ap : ℕ) : Option (Spec × ℕ × ℕ) := do
  let (flags, fmt) ← repeatFlags f (f.chars.length + 1) {} fmt
  let (width, flags, fmt, ap) ← fieldWidth f args flags fmt ap
  let (precision, fmt, ap) ← precision f args fmt ap
  let fmt ← qualifier f fmt
  return (⟨flags, width, precision⟩, fmt, ap)

section Loop

variable (below : ℕ → ℕ → Char) (cstr : ℕ → List Char) (f : Format) (args : ℕ → BitVec 32)

/-- The switch over the conversions. At the NUL it goes a step back. -/
def convert (spec : Spec) (s : State) : Option State := do
  let c ← f.charAt s.fmt
  if c ∈ conversions then do
    let text ← emitFrom (below s.fmt) cstr spec (args s.args).toNat c
    return { s with args := s.args + 1, out := s.out ++ text }
  else if c = 'n' then
    return { s with args := s.args + 1, stores := s.stores ++ [((args s.args).toNat, s.out.length)] }
  else
    let s := if c ≠ '%' then { s with out := s.out ++ ['%'] } else s
    if c ≠ nul then return { s with out := s.out ++ [c] }
    else do
      assert (0 < s.fmt)
      return { s with fmt := s.fmt - 1 }

/-- A pass of the loop of `vsprintf`, with its `++fmt`. -/
def step (s : State) : Option State := do
  let c ← f.charAt s.fmt
  let s ← if c ≠ '%' then some { s with out := s.out ++ [c] } else do
    let (spec, fmt, ap) ← scanSpec f args s.fmt s.args
    convert below cstr f args spec { s with fmt := fmt, args := ap }
  return { s with fmt := s.fmt + 1 }

/-- The loop of `vsprintf`. -/
def loop : ℕ → State → Option State
  | 0, _ => none
  | fuel + 1, s => do
    let c ← f.charAt s.fmt
    if c = nul then some s else (step below cstr f args s).bind (loop fuel)

/-- `vsprintf`: the number it returns, and what it has stored. It makes a pass for each character at most. -/
def vsprintf : Option (ℕ × State) := do
  let s ← loop below cstr f args (f.chars.length + 1) ⟨0, 0, [], []⟩
  assert (s.out.length < 1024)
  return (s.out.length, s)

end Loop

/-- A format that ends in a precision: the `*` is stored. -/
example : (vsprintf (fun _ _ => ' ') (fun _ => []) ⟨"a%-5.*".toList, by decide⟩ fun _ => 3).map
    (fun r => (r.1, r.2.fmt, r.2.out)) = some (3, 6, "a%*".toList) := by decide

/-! ### Places in the format -/

section Place

variable {f : Format} {args : ℕ → BitVec 32} {i ap fuel : ℕ} {rest ws : List Char} {c : Char}

/-- **The format from place `i` on** is `rest`. -/
def AtPlace (f : Format) (i : ℕ) (rest : List Char) : Prop := ∃ front, f.chars = front ++ rest ∧ front.length = i

theorem AtPlace.start : AtPlace f 0 f.chars := ⟨[], rfl, rfl⟩

theorem AtPlace.add_length (h : AtPlace f i rest) : i + rest.length = f.chars.length := by
  obtain ⟨front, heq, rfl⟩ := h
  rw [heq, List.length_append]

theorem AtPlace.charAt_nil (h : AtPlace f i []) : f.charAt i = some nul := by
  obtain ⟨front, heq, rfl⟩ := h
  rw [Format.charAt, heq, List.append_nil, List.getElem?_append_right le_rfl, Nat.sub_self]
  rfl

theorem AtPlace.charAt_cons (h : AtPlace f i (c :: rest)) : f.charAt i = some c := by
  obtain ⟨front, heq, rfl⟩ := h
  rw [Format.charAt, heq, List.append_assoc, List.getElem?_append_right le_rfl, Nat.sub_self]
  rfl

theorem AtPlace.next (h : AtPlace f i (c :: rest)) : AtPlace f (i + 1) rest := by
  obtain ⟨front, heq, rfl⟩ := h
  exact ⟨front ++ [c], by rw [heq, List.append_assoc, List.singleton_append], List.length_append⟩

theorem AtPlace.ne_nul (h : AtPlace f i (c :: rest)) : c ≠ nul := by
  rintro rfl
  obtain ⟨front, heq, -⟩ := h
  exact f.nul_notMem (by rw [heq]; simp)

/-- The NUL is at the end. -/
theorem eq_length_of_charAt (h : f.charAt i = some nul) : i = f.chars.length := by
  rw [Format.charAt] at h
  obtain ⟨hlt, heq⟩ := List.getElem?_eq_some_iff.mp h
  rw [List.length_append, List.length_singleton] at hlt
  by_contra hne
  rw [List.getElem_append_left (by omega)] at heq
  exact f.nul_notMem (heq ▸ List.getElem_mem _)

/-- The words of the stack from `ap` on. -/
def words (args : ℕ → BitVec 32) (ap n : ℕ) : List ℕ := (List.range n).map fun k => (args (ap + k)).toNat

theorem words_succ (args : ℕ → BitVec 32) (ap n : ℕ) :
    words args ap (n + 1) = (args ap).toNat :: words args (ap + 1) n := by
  rw [words, List.range_succ_eq_map, List.map_cons, List.map_map]
  refine congrArg _ (List.map_congr_left fun k _ => ?_)
  change (args (ap + (k + 1))).toNat = (args (ap + 1 + k)).toNat
  rw [Nat.add_right_comm, Nat.add_assoc]

/-- **Where the scan is**: the rest of the format and of the arguments, of which there are as many. -/
structure Place (f : Format) (args : ℕ → BitVec 32) (i ap : ℕ) (rest : List Char) (ws : List ℕ) : Prop where
  /-- The format. -/
  place : AtPlace f i rest
  /-- The arguments. -/
  words : ∃ n, ws = Pointer.words args ap n ∧ rest.length ≤ n

variable {ws : List ℕ}

theorem Place.start (f : Format) (args : ℕ → BitVec 32) :
    Place f args 0 0 f.chars (Pointer.words args 0 f.chars.length) := ⟨.start, _, rfl, le_rfl⟩

/-- A character that takes no argument. -/
theorem Place.next (h : Place f args i ap (c :: rest) ws) : Place f args (i + 1) ap rest ws := by
  obtain ⟨n, hws, hle⟩ := h.words
  exact ⟨h.place.next, n, hws, (Nat.le_succ _).trans hle⟩

/-- A character that takes one. -/
theorem Place.arg (h : Place f args i ap (c :: rest) ws) :
    ∃ ws', ws = (args ap).toNat :: ws' ∧ Place f args (i + 1) (ap + 1) rest ws' := by
  obtain ⟨n, hws, hle⟩ := h.words
  obtain ⟨n, rfl⟩ := Nat.exists_eq_succ_of_ne_zero (n := n) (by rw [List.length_cons] at hle; omega)
  exact ⟨_, hws.trans (words_succ args ap n), h.place.next, n, rfl, Nat.le_of_succ_le_succ hle⟩

end Place

/-! ### The scan of a conversion -/

section Scan

variable {f : Format} {args : ℕ → BitVec 32} {i ap fuel : ℕ} {rest : List Char} {ws : List ℕ} {flags : Flags}

/-- **The jumps to `repeat`** stop where the flags end. -/
theorem repeatFlags_eq (flags : Flags) (h : AtPlace f (i + 1) rest) (hfuel : rest.length < fuel) :
    ∃ j, repeatFlags f fuel flags i = some ((parseFlags flags rest).1, j) ∧ AtPlace f j (parseFlags flags rest).2 ∧
      (parseFlags flags rest).2.length ≤ rest.length := by
  induction fuel generalizing i rest flags with
  | zero => omega
  | succ fuel ih =>
    cases rest with
    | nil =>
      refine ⟨i + 1, ?_, h, le_rfl⟩
      rw [repeatFlags, h.charAt_nil]
      rfl
    | cons c rest =>
      rw [List.length_cons] at hfuel
      have hflag : ∀ flags' : Flags, parseFlags flags (c :: rest) = parseFlags flags' rest →
          repeatFlags f (fuel + 1) flags i = repeatFlags f fuel flags' (i + 1) →
          ∃ j, repeatFlags f (fuel + 1) flags i = some ((parseFlags flags (c :: rest)).1, j) ∧
            AtPlace f j (parseFlags flags (c :: rest)).2 ∧
            (parseFlags flags (c :: rest)).2.length ≤ (c :: rest).length := by
        intro flags' hparse hrepeat
        obtain ⟨j, hj, hplace, hle⟩ := ih flags' h.next (by omega)
        rw [hparse, hrepeat]
        exact ⟨j, hj, hplace, hle.trans (Nat.le_succ _)⟩
      have hchar := h.charAt_cons
      by_cases hc : c ∈ ['-', '+', ' ', '#', '0']
      · simp only [List.mem_cons, List.not_mem_nil, or_false] at hc
        rcases hc with rfl | rfl | rfl | rfl | rfl
        · exact hflag { flags with left := true } rfl (by rw [repeatFlags, hchar]; rfl)
        · exact hflag { flags with plus := true } rfl (by rw [repeatFlags, hchar]; rfl)
        · exact hflag { flags with space := true } rfl (by rw [repeatFlags, hchar]; rfl)
        · exact hflag { flags with special := true } rfl (by rw [repeatFlags, hchar]; rfl)
        · exact hflag { flags with zeropad := true } rfl (by rw [repeatFlags, hchar]; rfl)
      · simp only [List.mem_cons, List.not_mem_nil, or_false, not_or] at hc
        obtain ⟨h₁, h₂, h₃, h₄, h₅⟩ := hc
        have hparse : parseFlags flags (c :: rest) = (flags, c :: rest) := by
          unfold parseFlags
          split <;> simp_all
        rw [hparse]
        refine ⟨i + 1, ?_, h, le_rfl⟩
        rw [repeatFlags, hchar]
        simp only [Option.bind_eq_bind, Option.bind_some, if_neg h₁, if_neg h₂, if_neg h₃, if_neg h₄, if_neg h₅]

/-- **`skip_atoi`** stops where the digits end. -/
theorem skipAtoi_place {k : ℤ} (h : AtPlace f i rest) (hfuel : rest.length < fuel) :
    ∃ j, skipAtoi f fuel k i = some ((Number.skipAtoi k rest).1, j) ∧ AtPlace f j (Number.skipAtoi k rest).2 ∧
      (Number.skipAtoi k rest).2.length ≤ rest.length := by
  induction fuel generalizing i rest k with
  | zero => omega
  | succ fuel ih =>
    cases rest with
    | nil =>
      have hdigit : ¬nul.isDigit = true := by decide
      refine ⟨i, ?_, h, le_rfl⟩
      rw [skipAtoi, h.charAt_nil, Number.skipAtoi]
      simp only [Option.bind_eq_bind, Option.bind_some, if_neg hdigit]
    | cons c rest =>
      rw [List.length_cons] at hfuel
      rw [skipAtoi, h.charAt_cons, Number.skipAtoi]
      simp only [Option.bind_eq_bind, Option.bind_some]
      by_cases hc : c.isDigit = true
      · rw [if_pos hc, if_pos hc]
        obtain ⟨j, hj, hplace, hle⟩ := ih (k := wrapInt (k * 10 + c.toNat - 48)) h.next (by omega)
        exact ⟨j, hj, hplace, hle.trans (Nat.le_succ _)⟩
      · rw [if_neg hc, if_neg hc]
        exact ⟨i, rfl, h, le_rfl⟩

/-- A number in the format takes no argument. -/
theorem Place.skipAtoi {k : ℤ} (h : Place f args i ap rest ws) :
    ∃ j, skipAtoi f (f.chars.length + 1) k i = some ((Number.skipAtoi k rest).1, j) ∧
      Place f args j ap (Number.skipAtoi k rest).2 ws ∧ (Number.skipAtoi k rest).2.length ≤ rest.length := by
  have hlength := h.place.add_length
  have hfuel : rest.length < f.chars.length + 1 := by omega
  obtain ⟨j, hj, hplace, hle⟩ := skipAtoi_place (k := k) h.place hfuel
  obtain ⟨n, hws, hn⟩ := h.words
  exact ⟨j, hj, ⟨hplace, n, hws, hle.trans hn⟩, hle⟩

/-- A `*` takes its width from the arguments. -/
theorem parseWidth_star (flags : Flags) (v : ℕ) (ws : List ℕ) (fmt : List Char) :
    parseWidth flags (v :: ws) ('*' :: fmt) = if toInt v < 0 then
      some (wrapInt (-toInt v), { flags with left := true }, fmt, ws) else some (toInt v, flags, fmt, ws) := by
  have hdigit : ¬('*' : Char).isDigit = true := by decide
  rw [parseWidth, if_neg hdigit, if_pos rfl, vaArg]
  exact Option.bind_some ..

/-- **The field width** is that of the list, and the pointer goes on with it. -/
theorem Place.fieldWidth (h : Place f args i ap rest ws) (flags : Flags) : ∃ w flags' j ap' rest' ws',
    parseWidth flags ws rest = some (w, flags', rest', ws') ∧ fieldWidth f args flags i ap = some (w, flags', j, ap') ∧
      Place f args j ap' rest' ws' ∧ rest'.length ≤ rest.length := by
  cases rest with
  | nil =>
    have hdigit : ¬nul.isDigit = true := by decide
    have hstar : nul ≠ '*' := by decide
    refine ⟨-1, flags, i, ap, [], ws, rfl, ?_, h, le_rfl⟩
    rw [Pointer.fieldWidth, h.place.charAt_nil]
    simp only [Option.bind_eq_bind, Option.bind_some, if_neg hdigit, if_neg hstar]
  | cons c rest =>
    rw [Pointer.fieldWidth, h.place.charAt_cons]
    simp only [Option.bind_eq_bind, Option.bind_some]
    by_cases hdigit : c.isDigit = true
    · rw [parseWidth, if_pos hdigit, if_pos hdigit]
      obtain ⟨j, hj, hplace, hle⟩ := h.skipAtoi (k := 0)
      rw [hj]
      exact ⟨_, flags, j, ap, _, ws, rfl, rfl, hplace, hle⟩
    · rw [if_neg hdigit]
      by_cases hstar : c = '*'
      · subst hstar
        obtain ⟨ws', rfl, hplace⟩ := h.arg
        rw [parseWidth_star, if_pos rfl]
        by_cases hneg : toInt (args ap).toNat < 0
        · rw [if_pos hneg, if_pos hneg]
          exact ⟨_, _, _, _, _, _, rfl, rfl, hplace, Nat.le_succ _⟩
        · rw [if_neg hneg, if_neg hneg]
          exact ⟨_, _, _, _, _, _, rfl, rfl, hplace, Nat.le_succ _⟩
      · rw [parseWidth, if_neg hdigit, if_neg hstar, if_neg hstar]
        exact ⟨-1, flags, i, ap, _, ws, rfl, rfl, h, le_rfl⟩

/-- So is the precision. Its `*` stays where it is, but the point in front of it has made room for the argument. -/
theorem Place.precision (h : Place f args i ap rest ws) : ∃ p j ap' rest' ws',
    parsePrecision ws rest = some (p, rest', ws') ∧ precision f args i ap = some (p, j, ap') ∧
      Place f args j ap' rest' ws' ∧ rest'.length ≤ rest.length := by
  by_cases hpoint : ∃ rest₀, rest = '.' :: rest₀
  · obtain ⟨rest₀, rfl⟩ := hpoint
    have hnext := h.next
    rw [Pointer.precision, h.place.charAt_cons]
    simp only [Option.bind_eq_bind, Option.bind_some, if_true, parsePrecision, Pointer.pointPrecision]
    cases rest₀ with
    | nil =>
      rw [hnext.place.charAt_nil]
      exact ⟨_, _, _, _, _, rfl, rfl, hnext, Nat.le_succ _⟩
    | cons c rest₀ =>
      rw [hnext.place.charAt_cons, parsePoint]
      simp only [Option.bind_some]
      split_ifs with hdigit hstar
      · obtain ⟨j, hj, hplace, hle⟩ := hnext.skipAtoi (k := 0)
        rw [hj]
        exact ⟨_, _, _, _, _, rfl, rfl, hplace, hle.trans (Nat.le_succ _)⟩
      · obtain ⟨ws', rfl, hplace⟩ := h.arg
        simp only [vaArg, Option.map_some]
        exact ⟨_, _, _, _, _, rfl, rfl, hplace, Nat.le_succ _⟩
      · exact ⟨_, _, _, _, _, rfl, rfl, hnext, Nat.le_succ _⟩
  · have hparse : parsePrecision ws rest = some (-1, rest, ws) := by
      unfold parsePrecision
      split
      · next rest₀ => exact absurd ⟨rest₀, rfl⟩ hpoint
      · rfl
    refine ⟨-1, i, ap, rest, ws, hparse, ?_, h, le_rfl⟩
    rw [Pointer.precision]
    cases rest with
    | nil =>
      rw [h.place.charAt_nil]
      rfl
    | cons c rest =>
      rw [h.place.charAt_cons]
      exact if_neg fun hc => hpoint ⟨rest, by rw [hc]⟩

/-- So is the qualifier. -/
theorem Place.qualifier (h : Place f args i ap rest ws) : ∃ j, qualifier f i = some j ∧
    Place f args j ap (skipQualifier rest) ws ∧ (skipQualifier rest).length ≤ rest.length := by
  cases rest with
  | nil =>
    refine ⟨i, ?_, h, le_rfl⟩
    rw [Pointer.qualifier, h.place.charAt_nil]
    rfl
  | cons c rest =>
    rw [Pointer.qualifier, h.place.charAt_cons]
    simp only [Option.bind_eq_bind, Option.bind_some, Option.pure_def]
    by_cases hc : c = 'h' ∨ c = 'l' ∨ c = 'L'
    · rw [if_pos hc]
      have hskip : skipQualifier (c :: rest) = rest := by
        rcases hc with rfl | rfl | rfl <;> rfl
      rw [hskip]
      exact ⟨i + 1, rfl, h.next, Nat.le_succ _⟩
    · rw [if_neg hc]
      have hskip : skipQualifier (c :: rest) = c :: rest := by
        simp only [not_or] at hc
        unfold skipQualifier
        split <;> simp_all
      rw [hskip]
      exact ⟨i, rfl, h, le_rfl⟩

/-- **A conversion up to its character** is that of the list, and the pointer goes on with it. -/
theorem Place.scanSpec (h : Place f args (i + 1) ap rest ws) : ∃ spec j ap' rest' ws',
    parseSpec ws rest = some (spec, rest', ws') ∧ scanSpec f args i ap = some (spec, j, ap') ∧
      Place f args j ap' rest' ws' ∧ rest'.length ≤ rest.length := by
  have hlength := h.place.add_length
  have hfuel : rest.length < f.chars.length + 1 := by omega
  obtain ⟨n, hws, hn⟩ := h.words
  obtain ⟨j₁, hflags, hplace₁, hle₁⟩ := repeatFlags_eq {} h.place hfuel
  have h₁ : Place f args j₁ ap (parseFlags {} rest).2 ws := ⟨hplace₁, n, hws, hle₁.trans hn⟩
  obtain ⟨w, flags, j₂, ap₂, rest₂, ws₂, hparse₂, hscan₂, h₂, hle₂⟩ := h₁.fieldWidth (parseFlags {} rest).1
  obtain ⟨p, j₃, ap₃, rest₃, ws₃, hparse₃, hscan₃, h₃, hle₃⟩ := h₂.precision
  obtain ⟨j₄, hscan₄, h₄, hle₄⟩ := h₃.qualifier
  refine ⟨⟨flags, w, p⟩, j₄, ap₃, skipQualifier rest₃, ws₃, ?_, ?_, h₄, hle₄.trans (hle₃.trans (hle₂.trans hle₁))⟩
  · rw [parseSpec]
    simp only [hparse₂, hparse₃, Option.bind_eq_bind, Option.bind_some, Option.pure_def]
  · rw [Pointer.scanSpec]
    simp only [hflags, hscan₂, hscan₃, hscan₄, Option.bind_eq_bind, Option.bind_some, Option.pure_def]

end Scan

/-! ### The loop -/

section Passes

variable {below : ℕ → ℕ → Char} {cstr : ℕ → List Char} {f : Format} {args : ℕ → BitVec 32} {i j ap : ℕ}
  {rest out : List Char} {ws : List ℕ} {stores : List (ℕ × ℕ)} {spec : Spec} {c : Char}

/-- At the end of the format the switch goes a step back. -/
theorem convert_end (h : AtPlace f j []) (hj : 0 < j) :
    convert below cstr f args spec ⟨j, ap, out, stores⟩ = some ⟨j - 1, ap, out ++ ['%'], stores⟩ := by
  have hconv : nul ∉ conversions := by decide
  have hn : nul ≠ 'n' := by decide
  have hpercent : nul ≠ '%' := by decide
  rw [convert, h.charAt_nil]
  simp only [Option.bind_eq_bind, Option.bind_some, if_neg hconv, if_neg hn, if_pos hpercent, ne_eq,
    not_true_eq_false, if_false, assert_pos hj, Option.pure_def]

theorem convert_conversion (h : AtPlace f j (c :: rest)) (hc : c ∈ conversions) :
    convert below cstr f args spec ⟨j, ap, out, stores⟩ =
      (emitFrom (below j) cstr spec (args ap).toNat c).map fun text => ⟨j, ap + 1, out ++ text, stores⟩ := by
  rw [convert, h.charAt_cons]
  simp only [Option.bind_eq_bind, Option.bind_some, if_pos hc]
  cases emitFrom (below j) cstr spec (args ap).toNat c <;> rfl

theorem convert_n (h : AtPlace f j ('n' :: rest)) : convert below cstr f args spec ⟨j, ap, out, stores⟩ =
    some ⟨j, ap + 1, out, stores ++ [((args ap).toNat, out.length)]⟩ := by
  have hconv : 'n' ∉ conversions := by decide
  rw [convert, h.charAt_cons]
  simp only [Option.bind_eq_bind, Option.bind_some, if_neg hconv, if_true, Option.pure_def]

theorem convert_other (h : AtPlace f j (c :: rest)) (hc : c ∉ conversions) (hn : c ≠ 'n') :
    convert below cstr f args spec ⟨j, ap, out, stores⟩ =
      some ⟨j, ap, out ++ if c = '%' then ['%'] else ['%', c], stores⟩ := by
  rw [convert, h.charAt_cons]
  simp only [Option.bind_eq_bind, Option.bind_some, if_neg hc, if_neg hn, if_pos h.ne_nul, Option.pure_def]
  by_cases hpercent : c = '%'
  · subst hpercent
    rfl
  · rw [if_pos hpercent, if_neg hpercent, List.append_assoc, List.singleton_append]

/-- A character of the format is stored. -/
theorem step_char (h : AtPlace f i (c :: rest)) (hc : c ≠ '%') :
    step below cstr f args ⟨i, ap, out, stores⟩ = some ⟨i + 1, ap, out ++ [c], stores⟩ := by
  rw [step, h.charAt_cons]
  simp only [Option.bind_eq_bind, Option.bind_some, if_pos hc, Option.pure_def]

/-- **A conversion** is scanned up to its character, and then made. -/
theorem step_percent (below : ℕ → ℕ → Char) (cstr : ℕ → List Char) (h : Place f args i ap ('%' :: rest) ws) :
    ∃ spec j ap' rest' ws', parseSpec ws rest = some (spec, rest', ws') ∧ Place f args j ap' rest' ws' ∧
      rest'.length ≤ rest.length ∧ 0 < j ∧ ∀ out stores, step below cstr f args ⟨i, ap, out, stores⟩ =
        (convert below cstr f args spec ⟨j, ap', out, stores⟩).map fun s => { s with fmt := s.fmt + 1 } := by
  obtain ⟨spec, j, ap', rest', ws', hparse, hscan, hplace, hle⟩ := h.next.scanSpec
  have hi := h.next.place.add_length
  have hj := hplace.place.add_length
  refine ⟨spec, j, ap', rest', ws', hparse, hplace, hle, by omega, fun out stores => ?_⟩
  rw [step, h.place.charAt_cons]
  simp only [Option.bind_eq_bind, Option.bind_some, ne_eq, not_true_eq_false, if_false, hscan]
  cases convert below cstr f args spec ⟨j, ap', out, stores⟩ <;> rfl

theorem loop_nil {fuel : ℕ} (h : AtPlace f i []) :
    loop below cstr f args (fuel + 1) ⟨i, ap, out, stores⟩ = some ⟨i, ap, out, stores⟩ := by
  rw [loop, h.charAt_nil]
  simp only [Option.bind_eq_bind, Option.bind_some, if_true]

theorem loop_cons {fuel : ℕ} (h : AtPlace f i (c :: rest)) : loop below cstr f args (fuel + 1) ⟨i, ap, out, stores⟩ =
    (step below cstr f args ⟨i, ap, out, stores⟩).bind (loop below cstr f args fuel) := by
  rw [loop, h.charAt_cons]
  simp only [Option.bind_eq_bind, Option.bind_some, if_neg h.ne_nul]

/-- The loop ends at the NUL. -/
theorem loop_end {fuel : ℕ} {s t : State} (h : loop below cstr f args fuel s = some t) :
    t.fmt = f.chars.length := by
  induction fuel generalizing s with
  | zero => exact absurd h (by simp [loop])
  | succ fuel ih =>
    obtain ⟨c, hc, h⟩ := Option.bind_eq_some_iff.mp h
    split_ifs at h with hnul
    · obtain rfl := Option.some.inj h
      exact eq_length_of_charAt (hnul ▸ hc)
    · obtain ⟨u, -, h⟩ := Option.bind_eq_some_iff.mp h
      exact ih h

/-- **The loop comes to the end of the format** exactly when all prefixes fit: by induction on the rest of the
format, of which each pass takes a character at least. -/
theorem loop_isSome (below : ℕ → ℕ → Char) (cstr : ℕ → List Char) (out : List Char) (stores : List (ℕ × ℕ))
    {fuel passes : ℕ} (h : Place f args i ap rest ws) (hfuel : rest.length < fuel) (hpasses : rest.length ≤ passes) :
    (loop below cstr f args fuel ⟨i, ap, out, stores⟩).isSome ↔
      ∀ p ∈ specs passes rest ws, p.1.PrefixFits p.2 := by
  induction passes generalizing i ap rest ws out stores fuel with
  | zero =>
    obtain rfl := List.length_eq_zero_iff.mp (Nat.le_zero.mp hpasses)
    obtain ⟨fuel, rfl⟩ := Nat.exists_eq_succ_of_ne_zero hfuel.ne_bot
    rw [loop_nil h.place]
    simp [specs]
  | succ passes ih =>
    obtain ⟨fuel, rfl⟩ := Nat.exists_eq_succ_of_ne_zero hfuel.ne_bot
    cases rest with
    | nil =>
      rw [loop_nil h.place]
      simp [specs]
    | cons c rest =>
      rw [List.length_cons] at hfuel hpasses
      rw [loop_cons h.place, specs]
      by_cases hc : c = '%'
      · subst hc
        obtain ⟨spec, j, ap', rest', ws', hparse, hplace, hle, hj, hstep⟩ := step_percent below cstr h
        rw [hstep, if_neg (not_not_intro rfl), hparse]
        cases rest' with
        | nil =>
          -- the format ends in the conversion
          obtain ⟨fuel, rfl⟩ := Nat.exists_eq_succ_of_ne_zero (n := fuel) (by omega)
          rw [convert_end hplace.place hj, Option.map_some, Option.bind_some]
          simp only [Nat.sub_add_cancel hj, loop_nil hplace.place]
          simp
        | cons d rest' =>
          rw [List.length_cons] at hle
          simp only [List.forall_mem_cons]
          by_cases hd : d ∈ conversions
          · obtain ⟨ws', rfl, hnext⟩ := hplace.arg
            have hsome := emitFrom_isSome (below j) cstr spec hd (args ap').isLt
            rw [convert_conversion hplace.place hd, if_pos (Or.inl hd), List.tail_cons, ← hsome]
            cases emitFrom (below j) cstr spec (args ap').toNat d with
            | none => simp
            | some text =>
              simp only [Option.map_some, Option.bind_some, Option.isSome_some, true_and]
              exact ih _ _ hnext (by omega) (by omega)
          · have hfits := spec.prefixFits_of_notMem hd
            by_cases hn : d = 'n'
            · subst hn
              obtain ⟨ws', rfl, hnext⟩ := hplace.arg
              rw [convert_n hplace.place, if_pos (Or.inr rfl), List.tail_cons]
              simp only [Option.map_some, Option.bind_some, hfits, true_and]
              exact ih _ _ hnext (by omega) (by omega)
            · rw [convert_other hplace.place hd hn, if_neg (not_or.mpr ⟨hd, hn⟩)]
              simp only [Option.map_some, Option.bind_some, hfits, true_and]
              exact ih _ _ hplace.next (by omega) (by omega)
      · rw [step_char h.place hc, if_pos hc, Option.bind_some]
        exact ih _ _ h.next (by omega) (by omega)

/-- **The pointer follows the lists.** -/
structure Follows (f : Format) (args : ℕ → BitVec 32) (s : State) (t : Printf.State) : Prop where
  /-- The format and the arguments. -/
  place : Place f args s.fmt s.args t.fmt t.args
  /-- The text. -/
  out : s.out = t.out
  /-- The numbers for `%n`. -/
  stores : s.stores = t.stores

/-- A step of the lists is one of the pointer. -/
theorem Follows.step (below : ℕ → ℕ → Char) {s : State} {t t' : Printf.State} (h : Follows f args s t)
    (hstep : Printf.step cstr t = some t') :
    ∃ s', step below cstr f args s = some s' ∧ Follows f args s' t' ∧ t'.fmt.length < t.fmt.length := by
  obtain ⟨i, ap, out, stores⟩ := s
  obtain ⟨fmt, ws, out', stores'⟩ := t
  obtain ⟨hplace, hout, hstores⟩ := h
  change Place f args i ap fmt ws at hplace
  change out = out' at hout
  change stores = stores' at hstores
  subst hout hstores
  cases fmt with
  | nil => exact absurd hstep (by simp [Printf.step])
  | cons c rest =>
    by_cases hc : c = '%'
    · subst hc
      obtain ⟨spec, j, ap', rest', ws', hparse, hplace', hle, hj, hscan⟩ :=
        step_percent below cstr hplace
      rw [step_parse, hparse, Option.bind_some] at hstep
      rw [hscan]
      cases rest' with
      | nil =>
        obtain rfl := Option.some.inj hstep
        rw [convert_end hplace'.place hj]
        refine ⟨_, rfl, ⟨?_, rfl, rfl⟩, Nat.succ_pos _⟩
        change Place f args (j - 1 + 1) ap' [] ws'
        rwa [Nat.sub_add_cancel hj]
      | cons d rest' =>
        rw [List.length_cons] at hle
        rw [Printf.convert] at hstep
        simp only at hstep
        split_ifs at hstep with hd hn hpercent
        · obtain ⟨ws', rfl, hnext⟩ := hplace'.arg
          obtain ⟨q, hq, hstep⟩ := Option.bind_eq_some_iff.mp hstep
          obtain rfl := Option.some.inj hq
          obtain ⟨text, htext, hstep⟩ := Option.bind_eq_some_iff.mp hstep
          obtain rfl := Option.some.inj hstep
          rw [convert_conversion hplace'.place hd, emitFrom_eq htext]
          exact ⟨_, rfl, ⟨hnext, rfl, rfl⟩, Nat.lt_succ_of_lt (Nat.lt_of_succ_le hle)⟩
        · obtain ⟨ws', rfl, hnext⟩ := hplace'.arg
          obtain rfl := Option.some.inj hstep
          subst hn
          rw [convert_n hplace'.place]
          exact ⟨_, rfl, ⟨hnext, rfl, rfl⟩, Nat.lt_succ_of_lt (Nat.lt_of_succ_le hle)⟩
        · obtain rfl := Option.some.inj hstep
          rw [convert_other hplace'.place hd hn, if_pos hpercent]
          exact ⟨_, rfl, ⟨hplace'.next, rfl, rfl⟩, Nat.lt_succ_of_lt (Nat.lt_of_succ_le hle)⟩
        · obtain rfl := Option.some.inj hstep
          rw [convert_other hplace'.place hd hn, if_neg hpercent]
          exact ⟨_, rfl, ⟨hplace'.next, rfl, rfl⟩, Nat.lt_succ_of_lt (Nat.lt_of_succ_le hle)⟩
    · have hchar : Printf.step cstr ⟨c :: rest, ws, out, stores⟩ = some ⟨rest, ws, out ++ [c], stores⟩ := by
        unfold Printf.step
        split
        · next heq => exact absurd heq (List.cons_ne_nil c rest)
        · next heq => exact absurd (List.cons.inj heq).1 hc
        · next heq =>
          obtain ⟨rfl, rfl⟩ := List.cons.inj heq
          rfl
      obtain rfl := Option.some.inj (hchar.symm.trans hstep)
      exact ⟨_, step_char hplace.place hc, ⟨hplace.next, rfl, rfl⟩, Nat.lt_succ_self _⟩

/-- Where the list ends the pointer is at the NUL. -/
theorem Follows.loop_nil {fuel : ℕ} {s : State} {t : Printf.State} (h : Follows f args s t) (hfuel : 0 < fuel)
    (hnil : t.fmt = []) : Pointer.loop below cstr f args fuel s = some s := by
  obtain ⟨fuel, rfl⟩ := Nat.exists_eq_succ_of_ne_zero hfuel.ne'
  have hplace := h.place.place
  rw [hnil] at hplace
  exact Pointer.loop_nil hplace

/-- The loop of the lists is that of the pointer. -/
theorem Follows.loop (below : ℕ → ℕ → Char) {fuel passes : ℕ} {s : State} {t t' : Printf.State} (h : Follows f args s t)
    (hfuel : t.fmt.length < fuel) (hloop : Printf.loop cstr passes t = some t') :
    ∃ s', loop below cstr f args fuel s = some s' ∧ s'.out = t'.out ∧ s'.stores = t'.stores := by
  induction passes generalizing fuel s t with
  | zero =>
    rw [Printf.loop] at hloop
    split_ifs at hloop with hnil
    obtain rfl := Option.some.inj hloop
    exact ⟨s, h.loop_nil (Nat.zero_lt_of_lt hfuel) hnil, h.out, h.stores⟩
  | succ passes ih =>
    rw [Printf.loop] at hloop
    split_ifs at hloop with hnil
    · obtain rfl := Option.some.inj hloop
      exact ⟨s, h.loop_nil (Nat.zero_lt_of_lt hfuel) hnil, h.out, h.stores⟩
    · obtain ⟨u, hstep, hloop⟩ := Option.bind_eq_some_iff.mp hloop
      obtain ⟨s', hstep', hfollows, hlt⟩ := h.step below hstep
      obtain ⟨fuel, rfl⟩ := Nat.exists_eq_succ_of_ne_zero hfuel.ne_bot
      obtain ⟨c, rest, hrest⟩ := List.exists_cons_of_ne_nil hnil
      have hplace := h.place.place
      rw [hrest] at hplace
      have hcons : Pointer.loop below cstr f args (fuel + 1) s = _ := loop_cons hplace
      rw [hcons, hstep', Option.bind_some]
      exact ih hfollows (by omega) hloop

/-- **`vsprintf` of the lists is that of the pointer**, of an argument for each character of the format. -/
theorem vsprintf_eq {n : ℕ} {t : Printf.State}
    (h : Printf.vsprintf cstr f.chars (words args 0 f.chars.length) = some (n, t)) :
    ∃ s, vsprintf below cstr f args = some (n, s) ∧ s.out = t.out ∧ s.stores = t.stores := by
  obtain ⟨u, hloop, h⟩ := Option.bind_eq_some_iff.mp h
  obtain ⟨_, hlt, h⟩ := Option.bind_eq_some_iff.mp h
  obtain ⟨rfl, rfl⟩ := Prod.mk.inj (Option.some.inj h)
  have hstart : Follows f args ⟨0, 0, [], []⟩ ⟨f.chars, words args 0 f.chars.length, [], []⟩ :=
    ⟨Place.start f args, rfl, rfl⟩
  obtain ⟨s, hs, hout, hstores⟩ := hstart.loop below (Nat.lt_succ_self _) hloop
  refine ⟨s, ?_, hout, hstores⟩
  rw [vsprintf]
  simp only [hs, Option.bind_eq_bind, Option.bind_some, hout, hlt, Option.pure_def]

end Passes

/-- **`vsprintf` scans its format to the end and no further**: the loop ends, it has not read anything behind the NUL
and stands at it, and what is returned is the number of characters that are stored, when they are below 1024. -/
def Inside (below : ℕ → ℕ → Char) (cstr : ℕ → List Char) (f : Format) (args : ℕ → BitVec 32) : Prop :=
  ∃ s, loop below cstr f args (f.chars.length + 1) ⟨0, 0, [], []⟩ = some s ∧ s.fmt = f.chars.length ∧
    (s.out.length < 1024 → vsprintf below cstr f args = some (s.out.length, s))

/-- **The scan stays inside the format** exactly when no prefix of a number leaves the array of `number`. -/
theorem vsprintf_inside_iff (below : ℕ → ℕ → Char) (cstr : ℕ → List Char) (f : Format) (args : ℕ → BitVec 32) :
    Inside below cstr f args ↔
      ∀ p ∈ specs f.chars.length f.chars (words args 0 f.chars.length), p.1.PrefixFits p.2 := by
  have hloop := loop_isSome below cstr [] [] (Place.start f args)
    (Nat.lt_succ_self _) le_rfl
  rw [← hloop]
  constructor
  · rintro ⟨s, hs, -⟩
    exact Option.isSome_iff_exists.mpr ⟨s, hs⟩
  · intro hsome
    obtain ⟨s, hs⟩ := Option.isSome_iff_exists.mp hsome
    refine ⟨s, hs, loop_end hs, fun hlt => ?_⟩
    rw [vsprintf]
    simp only [hs, Option.bind_eq_bind, Option.bind_some, assert_pos hlt, Option.pure_def]

/-- A prefix in a wide field. -/
def wideFormat : Format := ⟨"%#2000000000x".toList, by decide⟩

/-- **The prefix of a number in a wide field** is stored far in front of the array. -/
theorem vsprintf_wide : ¬Inside (fun _ _ => ' ') (fun _ => []) wideFormat (fun _ => 1) := by
  rintro ⟨s, hs, -⟩
  have hnone : (loop (fun _ _ => ' ') (fun _ => []) wideFormat (fun _ => 1) (wideFormat.chars.length + 1)
      ⟨0, 0, [], []⟩).isNone = true := by decide +kernel
  rw [hs] at hnone
  exact absurd hnone (by simp)


end Pointer

end Printf

end Onixs
