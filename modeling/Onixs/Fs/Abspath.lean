import Onixs.Fs.Super
import Onixs.Fs.WalkPath

/-!
# The working directory as a string

`abspath` edits the string of the working directory in place: it moves a cursor over it, and where a name is
`..` it looks for the last separator in front of the cursor again. What it leaves is the string of
the directories that the path leads through (`Onixs.abspath_eq`).
-/

namespace Onixs

open Bytes

/-! ### Strings in memory -/

theorem slash_ne_eos : (47#8 : Byte) ≠ 0#8 := by decide

theorem backslash_ne_eos : (92#8 : Byte) ≠ 0#8 := by decide

/-- `/`. -/
def slash : CChar := ⟨47#8, slash_ne_eos⟩

/-- `IS_SEPARATOR` of a byte. -/
def isSeparatorByte (b : Byte) : Bool := b == 47#8 || b == 92#8

/-- `strsep`: the string from its first separator on. -/
def strsep : CStr → Option CStr
  | [] => none
  | c :: cs => if isSeparator c then some (c :: cs) else strsep cs

/-- `strrsep` of the string at `o`, of less than `left` characters: where its last separator is. -/
def strrsepAt (d : Bytes) : ℕ → ℕ → Option ℕ → Option (Option ℕ)
  | 0, _, _ => none
  | left + 1, o, last =>
      let last := if isSeparatorByte (d o) then some o else last
      if d o = 0#8 then some last else strrsepAt d left (o + 1) last

/-! ### The function -/

/-- In `abspath`, the name `..`: the cursor goes behind the separator in front of the last name. -/
def abspathUp (fuel : ℕ) (pwd : Bytes) (cur : ℕ) : Option (Bytes × ℕ) :=
  if cur - 1 ≠ 0 then do
    let pwd := pwd.putU8 (cur - 1) 0
    let sep ← strrsepAt pwd fuel 0 none
    let cur := (← sep) + 1
    return (pwd.putU8 cur 0, cur)
  else
    some (pwd, cur)

/-- In the loop of `abspath`, the name in front of the first slash, of `len` characters with the slash. -/
def abspathName (fuel : ℕ) (pwd : Bytes) (cur : ℕ) (pathname : CStr) (len : ℕ) : Option (Bytes × ℕ) :=
  if (dotName ++ [slash]).isPrefixOf pathname then some (pwd, cur)
  else if (dotDotName ++ [slash]).isPrefixOf pathname then abspathUp fuel pwd cur
  else some (strncpy pwd cur pathname (len + 1), cur + len)

/-- The loop of `abspath`, in no more than `passes` passes. What is in front of `pathname` in its buffer is
`before`; the separators there have become slashes. -/
def abspathLoop (fuel : ℕ) : ℕ → Bytes → ℕ → CStr → CStr → Option (Bytes × ℕ × CStr × CStr)
  | 0, _, _, _, _ => none
  | passes + 1, pwd, cur, before, pathname =>
      match strsep pathname with
      | none => some (pwd, cur, before, pathname)
      | some ptr => do
          let len := pathname.length - ptr.length + 1
          let pathname := pathname.set (len - 1) slash
          let (pwd, cur) ← abspathName fuel pwd cur pathname len
          abspathLoop fuel passes pwd cur (before ++ pathname.take len) (pathname.drop len)

/-- `abspath` in front of its loop: behind the root for a path with a separator in front, and behind the last
separator for others. -/
def abspathStart (fuel : ℕ) (pwd : Bytes) (pathname : CStr) : Option (Bytes × ℕ × CStr × CStr) :=
  if pathname.head?.any isSeparator then
    some (pwd.putU8 1 0, 1, pathname.take 1, pathname.tail)
  else do
    let sep ← strrsepAt pwd fuel 0 none
    let cur := (← sep) + 1
    return (pwd.putU8 cur 0, cur, [], pathname)

/-- `abspath` behind its loop, with the name behind the last separator. -/
def abspathLast (fuel : ℕ) (pwd : Bytes) (cur : ℕ) (pathname : CStr) : Option Bytes :=
  if pathname = [] then some pwd
  else if pathname = dotName then some pwd
  else if pathname ≠ dotDotName then
    let pwd := strcpy pwd cur (pathname.map fun c => c.1.toNat)
    let cur := cur + pathname.length
    some ((pwd.putU8 cur 47).putU8 (cur + 1) 0)
  else (abspathUp fuel pwd cur).map Prod.fst

/-- `abspath`, with `pwd` at offset 0: the bytes there, and the string in the buffer of `pathname`. -/
def abspath (fuel : ℕ) (pwd : Bytes) (pathname : CStr) : Option (Bytes × CStr) := do
  let (pwd, cur, before, pathname) ← abspathStart fuel pwd pathname
  let (pwd, cur, before, pathname) ← abspathLoop fuel (pathname.length + 1) pwd cur before pathname
  let pwd ← abspathLast fuel pwd cur pathname
  return (pwd, before ++ pathname)

/-! ### What it is for -/

/-- What a name of a path makes of the directories it is looked up in. -/
def enter (dirs : List CStr) (name : CStr) : List CStr :=
  if name = dotName then dirs else if name = dotDotName then dirs.dropLast else dirs ++ [name]

/-- The string of a directory: a slash, and one behind each name. -/
def dirString (dirs : List CStr) : CStr := slash :: dirs.flatMap fun name => name ++ [slash]

/-- **A normalised list of directories**: the names are names, and none of them is `.` or `..`. -/
def Normal (dirs : List CStr) : Prop :=
  ∀ name ∈ dirs, name ≠ [] ∧ (∀ c ∈ name, isSeparator c = false) ∧ name ≠ dotName ∧ name ≠ dotDotName

/-- The directories a path leads through. -/
def Path.resolve (p : Path) (dirs : List CStr) : List CStr :=
  (p.names ++ p.final.toList).foldl enter (if p.lead.isSome then [] else dirs)

/-! ### Stores and strings -/

section Strings

variable {d d' : Bytes} {o i fuel : ℕ} {a b name pre : CStr} {c sep : CChar}

/-- The characters of a string at offset `o`. -/
def Stored (d : Bytes) : ℕ → CStr → Prop
  | _, [] => True
  | o, c :: a => d o = c.1 ∧ Stored d (o + 1) a

theorem hasName_append : ∀ {a : CStr} {o : ℕ}, HasName d o (a ++ b) ↔ Stored d o a ∧ HasName d (o + a.length) b
  | [], o => ⟨fun h => ⟨trivial, h⟩, And.right⟩
  | c :: a, o => by
    rw [List.cons_append, HasName, Stored, hasName_append, and_assoc, List.length_cons, Nat.add_right_comm, Nat.add_assoc]

theorem stored_congr : ∀ {a : CStr} {o : ℕ}, (∀ i, o ≤ i → i < o + a.length → d' i = d i) → Stored d o a →
    Stored d' o a
  | [], _, _, _ => trivial
  | c :: a, o, heq, h => by
    rw [List.length_cons] at heq
    exact ⟨(heq o (Nat.le_refl o) (by omega)).trans h.1, stored_congr (fun i hi hlt => heq i (by omega) (by omega)) h.2⟩

/-- Cutting a string off. -/
theorem HasName.cut (h : HasName d o (a ++ b)) : HasName (d.putU8 (o + a.length) 0) o a := by
  have hstored := (hasName_append.mp h).1
  have hcut : HasName (d.putU8 (o + a.length) 0) o (a ++ []) :=
    hasName_append.mpr ⟨stored_congr (fun i _ hlt => putU8_of_ne _ _ (by omega)) hstored, putU8_self _ _ _⟩
  rwa [List.append_nil] at hcut

theorem ofNat_toNat (b : Byte) : BitVec.ofNat 8 b.toNat = b := by
  rw [BitVec.ofNat_toNat, BitVec.setWidth_eq]

/-- **`strncpy`** of the first characters and one more stores these, and `EOS`. -/
theorem hasName_strncpy : ∀ {a : CStr} {d : Bytes} {o : ℕ}, HasName (strncpy d o (a ++ b) (a.length + 1)) o a
  | [], d, o => by
    rw [List.nil_append, List.length_nil, HasName]
    cases b with
    | nil => exact putU8_self _ _ _
    | cons c b =>
      rw [strncpy, strncpy, Nat.add_sub_cancel]
      exact putU8_self _ _ _
  | c :: a, d, o => by
    rw [List.cons_append, List.length_cons, strncpy]
    refine ⟨?_, hasName_strncpy⟩
    rw [strncpy_outside (Or.inl (Nat.lt_succ_self o)), putU8_self, ofNat_toNat]

theorem strcpy_below : ∀ {src : List ℕ} {d : Bytes} {o : ℕ}, i < o → strcpy d o src i = d i
  | [], _, _, h => putU8_of_ne _ _ (Nat.ne_of_lt h)
  | c :: src, d, o, h => by
    rw [strcpy, strcpy_below (Nat.lt_succ_of_lt h), putU8_of_ne _ _ (Nat.ne_of_lt h)]

theorem hasName_strcpy : ∀ {a : CStr} {d : Bytes} {o : ℕ}, HasName (strcpy d o (a.map fun c => c.1.toNat)) o a
  | [], d, o => putU8_self _ _ _
  | c :: a, d, o => by
    rw [List.map_cons, strcpy]
    refine ⟨?_, hasName_strcpy⟩
    rw [strcpy_below (Nat.lt_succ_self o), putU8_self, ofNat_toNat]

/-- A string behind another. -/
theorem HasName.extend (h : HasName d 0 a) (hbelow : ∀ i < a.length, d' i = d i) (hname : HasName d' a.length name) :
    HasName d' 0 (a ++ name) := by
  rw [← List.append_nil a, hasName_append] at h
  rw [hasName_append, Nat.zero_add]
  exact ⟨stored_congr (fun i _ hlt => hbelow i (by omega)) h.1, hname⟩

/-- **`strrsep`** finds nothing in a name. -/
theorem strrsepAt_name : ∀ {name : CStr} {o fuel : ℕ} {last : Option ℕ}, HasName d o name →
    (∀ c ∈ name, isSeparator c = false) → name.length < fuel → strrsepAt d fuel o last = some last
  | _, _, 0, _, _, _, hfuel => absurd hfuel (Nat.not_lt_zero _)
  | [], o, fuel + 1, last, h, _, _ => by
    have hend : d o = 0#8 := h
    rw [strrsepAt, hend]
    rfl
  | c :: name, o, fuel + 1, last, h, hsep, hfuel => by
    have hc : isSeparatorByte (d o) = false := by
      rw [h.1]
      exact hsep c List.mem_cons_self
    rw [strrsepAt, hc, if_neg (h.1 ▸ c.2)]
    exact strrsepAt_name h.2 (fun c' hc' => hsep c' (List.mem_cons_of_mem c hc')) (Nat.lt_of_succ_lt_succ hfuel)

/-- **`strrsep`** finds the last separator. -/
theorem strrsepAt_sep (hname : ∀ c ∈ name, isSeparator c = false) (hsep : isSeparator sep = true) :
    ∀ {pre : CStr} {o fuel : ℕ} {last : Option ℕ}, HasName d o (pre ++ sep :: name) →
      (pre ++ sep :: name).length < fuel → strrsepAt d fuel o last = some (some (o + pre.length))
  | _, _, 0, _, _, hfuel => absurd hfuel (Nat.not_lt_zero _)
  | [], o, fuel + 1, last, h, hfuel => by
    have hbyte : isSeparatorByte (d o) = true := by
      rw [h.1]
      exact hsep
    rw [strrsepAt, hbyte, if_neg (h.1 ▸ sep.2)]
    exact strrsepAt_name h.2 hname (Nat.lt_of_succ_lt_succ hfuel)
  | c :: pre, o, fuel + 1, last, h, hfuel => by
    rw [strrsepAt, if_neg (h.1 ▸ c.2)]
    have hrest : ∀ last, strrsepAt d fuel (o + 1) last = some (some (o + 1 + pre.length)) := fun last =>
      strrsepAt_sep hname hsep h.2 (Nat.lt_of_succ_lt_succ hfuel)
    rw [hrest, List.length_cons, Nat.add_right_comm, Nat.add_assoc]

end Strings

/-! ### The steps -/

section Steps

variable {d : Bytes} {fuel cur : ℕ} {dirs : List CStr} {name w rest before : CStr} {sep : CChar}

theorem dirString_concat (dirs : List CStr) (name : CStr) :
    dirString (dirs ++ [name]) = dirString dirs ++ (name ++ [slash]) := by
  rw [dirString, dirString, List.flatMap_append, List.flatMap_singleton, List.cons_append]

/-- The string of a directory ends in a slash. -/
theorem dirString_last (dirs : List CStr) : ∃ pre, dirString dirs = pre ++ [slash] := by
  rcases dirs.eq_nil_or_concat with rfl | ⟨dirs, name, rfl⟩
  · exact ⟨[], rfl⟩
  · rw [List.concat_eq_append, dirString_concat]
    exact ⟨dirString dirs ++ name, (List.append_assoc _ _ _).symm⟩

/-- **The string of `dirs` is at the start, and the cursor behind it.** -/
structure Cursor (d : Bytes) (cur : ℕ) (dirs : List CStr) : Prop where
  /-- The string. -/
  string : HasName d 0 (dirString dirs)
  /-- The cursor. -/
  cur_eq : cur = (dirString dirs).length

/-- The cursor behind the last separator. -/
theorem Cursor.find (h : HasName d 0 (dirString dirs ++ name)) (hname : ∀ c ∈ name, isSeparator c = false)
    (hfuel : (dirString dirs ++ name).length < fuel) :
    ∃ o, strrsepAt d fuel 0 none = some (some o) ∧ Cursor (d.putU8 (o + 1) 0) (o + 1) dirs := by
  obtain ⟨pre, hpre⟩ := dirString_last dirs
  have hcut := h.cut
  rw [hpre, List.append_assoc, List.singleton_append] at h hfuel
  rw [Nat.zero_add] at hcut
  have hlen : (dirString dirs).length = pre.length + 1 := by
    rw [hpre, List.length_append, List.length_singleton]
  refine ⟨pre.length, ?_, ?_, hlen.symm⟩
  · rw [strrsepAt_sep hname rfl h hfuel, Nat.zero_add]
  · rw [← hlen]
    exact hcut

/-- **The name `..`** goes to the directory in front, and stays at the root. -/
theorem Cursor.up (h : Cursor d cur dirs) (hdirs : ∀ name ∈ dirs, ∀ c ∈ name, isSeparator c = false)
    (hfuel : (dirString dirs).length < fuel) :
    ∃ d' cur', abspathUp fuel d cur = some (d', cur') ∧ Cursor d' cur' dirs.dropLast := by
  obtain ⟨hstring, rfl⟩ := h
  rcases dirs.eq_nil_or_concat with rfl | ⟨dirs, name, rfl⟩
  · exact ⟨d, 1, rfl, hstring, rfl⟩
  · rw [List.concat_eq_append] at hstring hdirs hfuel ⊢
    rw [List.dropLast_concat]
    rw [dirString_concat, ← List.append_assoc] at hstring hfuel ⊢
    rw [List.length_append, List.length_singleton] at hfuel ⊢
    have hcut := hstring.cut
    rw [Nat.zero_add] at hcut
    obtain ⟨o, hsep, hcursor⟩ := Cursor.find hcut (hdirs name (by simp)) (Nat.lt_of_succ_lt hfuel)
    have hpos : (dirString dirs ++ name).length ≠ 0 := by
      rw [List.length_append, dirString, List.length_cons]
      omega
    refine ⟨_, _, ?_, hcursor⟩
    rw [abspathUp, Nat.add_sub_cancel, if_pos hpos]
    simp only [Option.bind_eq_bind, hsep, Option.bind_some]
    rfl

/-- A name and its separator are a prefix of what begins with the name only. -/
theorem prefix_iff : ∀ {w name : CStr}, (∀ c ∈ w, isSeparator c = false) → (∀ c ∈ name, isSeparator c = false) →
    ((w ++ [slash]).isPrefixOf (name ++ slash :: rest) = true ↔ name = w)
  | [], [], _, _ => by simp
  | [], c :: name, _, hname => by
    have hc : slash ≠ c := fun heq => absurd (hname c List.mem_cons_self) (by rw [← heq]; decide)
    simp [hc]
  | a :: w, [], hw, _ => by
    have ha : a ≠ slash := fun heq => absurd (hw a List.mem_cons_self) (by rw [heq]; decide)
    simp [ha]
  | a :: w, c :: name, hw, hname => by
    have ih := prefix_iff (fun c hc => hw c (List.mem_cons_of_mem a hc)) fun c' hc' =>
      hname c' (List.mem_cons_of_mem c hc')
    rw [List.cons_append, List.cons_append, List.isPrefixOf_cons_cons, Bool.and_eq_true, ih, beq_iff_eq, List.cons.injEq,
      eq_comm]

/-- **Another name** goes behind the string, with a slash. -/
theorem Cursor.append (h : Cursor d cur dirs) (name rest : CStr) :
    Cursor (strncpy d cur (name ++ slash :: rest) (name.length + 1 + 1)) (cur + (name.length + 1))
      (dirs ++ [name]) := by
  obtain ⟨hstring, rfl⟩ := h
  constructor
  · rw [dirString_concat]
    refine hstring.extend (fun i hi => strncpy_outside (Or.inl hi)) ?_
    have hcopy : HasName (strncpy d (dirString dirs).length ((name ++ [slash]) ++ rest) ((name ++ [slash]).length + 1))
        (dirString dirs).length (name ++ [slash]) := hasName_strncpy
    rw [List.append_assoc, List.length_append, List.length_singleton] at hcopy
    exact hcopy
  · rw [dirString_concat, List.length_append, List.length_append, List.length_singleton]

theorem strsep_name : ∀ {name : CStr}, (∀ c ∈ name, isSeparator c = false) → strsep name = none
  | [], _ => rfl
  | c :: name, h => by
    rw [strsep, h c List.mem_cons_self]
    exact strsep_name fun c' hc' => h c' (List.mem_cons_of_mem c hc')

theorem strsep_append (hsep : isSeparator sep = true) : ∀ {name : CStr}, (∀ c ∈ name, isSeparator c = false) →
    strsep (name ++ sep :: rest) = some (sep :: rest)
  | [], _ => if_pos hsep
  | c :: name, h => by
    rw [List.cons_append, strsep, h c List.mem_cons_self]
    exact strsep_append hsep fun c' hc' => h c' (List.mem_cons_of_mem c hc')

theorem dotName_free : ∀ c ∈ dotName, isSeparator c = false := sepFree_of_all rfl

theorem dotDotName_free : ∀ c ∈ dotDotName, isSeparator c = false := sepFree_of_all rfl

theorem length_dirString_dropLast (dirs : List CStr) : (dirString dirs.dropLast).length ≤ (dirString dirs).length := by
  rcases dirs.eq_nil_or_concat with rfl | ⟨dirs, name, rfl⟩
  · exact Nat.le_refl _
  · rw [List.concat_eq_append, List.dropLast_concat, dirString_concat, List.length_append]
    exact Nat.le_add_right _ _

/-- **Entering a directory** keeps the list normalised, and makes the string no longer than the name. -/
theorem Normal.enter (h : Normal dirs) (hne : name ≠ []) (hname : ∀ c ∈ name, isSeparator c = false) :
    Normal (enter dirs name) ∧ (dirString (enter dirs name)).length ≤ (dirString dirs).length + (name.length + 1) := by
  rw [Onixs.enter]
  split
  · exact ⟨h, Nat.le_add_right _ _⟩
  · rename_i hdot
    split
    · exact ⟨fun w hw => h w (List.mem_of_mem_dropLast hw),
        Nat.le_add_right_of_le (length_dirString_dropLast dirs)⟩
    · rename_i hdots
      refine ⟨fun w hw => ?_, ?_⟩
      · rcases List.mem_append.mp hw with hw | hw
        · exact h w hw
        · rw [List.mem_singleton.mp hw]
          exact ⟨hne, hname, hdot, hdots⟩
      · rw [dirString_concat, List.length_append, List.length_append, List.length_singleton]

/-- **A name in front of a slash** is entered. -/
theorem Cursor.enter (h : Cursor d cur dirs) (hdirs : Normal dirs) (hname : ∀ c ∈ name, isSeparator c = false)
    (hfuel : (dirString dirs).length < fuel) :
    ∃ d' cur', Cursor d' cur' (enter dirs name) ∧
      abspathName fuel d cur (name ++ slash :: rest) (name.length + 1) = some (d', cur') := by
  rw [abspathName, Onixs.enter]
  simp only [prefix_iff dotName_free hname, prefix_iff dotDotName_free hname]
  by_cases hdot : name = dotName
  · rw [if_pos hdot, if_pos hdot]
    exact ⟨d, cur, h, rfl⟩
  · rw [if_neg hdot, if_neg hdot]
    by_cases hdots : name = dotDotName
    · rw [if_pos hdots, if_pos hdots]
      obtain ⟨d', cur', hup, hcursor⟩ := h.up (fun w hw => (hdirs w hw).2.1) hfuel
      exact ⟨d', cur', hcursor, hup⟩
    · rw [if_neg hdots, if_neg hdots]
      exact ⟨_, _, h.append name rest, rfl⟩

/-- A pass of the loop. -/
theorem abspathLoop_succ {d' : Bytes} {cur' : ℕ} (hname : ∀ c ∈ name, isSeparator c = false)
    (hsep : isSeparator sep = true)
    (hrun : abspathName fuel d cur (name ++ slash :: rest) (name.length + 1) = some (d', cur')) (passes : ℕ)
    (before : CStr) :
    abspathLoop fuel (passes + 1) d cur before (name ++ sep :: rest)
      = abspathLoop fuel passes d' cur' (before ++ (name ++ [slash])) rest := by
  have hset : (name ++ sep :: rest).set name.length slash = (name ++ [slash]) ++ rest := by
    rw [List.set_append_right _ _ (Nat.le_refl _), Nat.sub_self, List.set_cons_zero, List.append_assoc,
      List.singleton_append]
  have hlen : (name ++ sep :: rest).length - (sep :: rest).length + 1 = name.length + 1 := by
    rw [List.length_append, Nat.add_sub_cancel]
  have hfront : (name ++ [slash]).length = name.length + 1 := by
    rw [List.length_append, List.length_singleton]
  rw [abspathLoop, strsep_append hsep hname]
  simp only [hlen, Nat.add_sub_cancel, hset]
  rw [← hfront, List.take_left, List.drop_left, hfront, List.append_assoc name, List.singleton_append, hrun]
  rfl

/-- **The loop** enters the directories in front of the last name. -/
theorem abspathLoop_eq {last : CStr} (hlast : ∀ c ∈ last, isSeparator c = false) :
    ∀ (names : List (CStr × CChar)) (d : Bytes) (cur : ℕ) (dirs : List CStr) (before : CStr) (passes : ℕ),
      (∀ p ∈ names, p.1 ≠ [] ∧ (∀ c ∈ p.1, isSeparator c = false) ∧ isSeparator p.2 = true) →
      Cursor d cur dirs → Normal dirs → names.length < passes →
      (dirString dirs).length + (Path.tail names last).length < fuel →
      ∃ d' cur' before', abspathLoop fuel passes d cur before (Path.tail names last) = some (d', cur', before', last) ∧
        Cursor d' cur' ((names.map Prod.fst).foldl enter dirs) ∧ Normal ((names.map Prod.fst).foldl enter dirs) ∧
        (dirString ((names.map Prod.fst).foldl enter dirs)).length + last.length < fuel := by
  intro names
  induction names with
  | nil =>
    intro d cur dirs before passes _ h hdirs hpasses hfuel
    obtain ⟨passes, rfl⟩ := Nat.exists_eq_succ_of_ne_zero (Nat.ne_zero_of_lt hpasses)
    refine ⟨d, cur, before, ?_, h, hdirs, hfuel⟩
    rw [Path.tail, abspathLoop, strsep_name hlast]
  | cons p names ih =>
    obtain ⟨name, sep⟩ := p
    intro d cur dirs before passes hnames h hdirs hpasses hfuel
    obtain ⟨passes, rfl⟩ := Nat.exists_eq_succ_of_ne_zero (Nat.ne_zero_of_lt hpasses)
    obtain ⟨hne, hname, hsep⟩ : name ≠ [] ∧ (∀ c ∈ name, isSeparator c = false) ∧ isSeparator sep = true :=
      hnames _ List.mem_cons_self
    rw [Path.tail, List.length_append, List.length_cons] at hfuel
    obtain ⟨d', cur', hcursor, hrun⟩ : ∃ d' cur', Cursor d' cur' (Onixs.enter dirs name) ∧
        abspathName fuel d cur (name ++ slash :: Path.tail names last) (name.length + 1) = some (d', cur') :=
      h.enter hdirs hname (Nat.lt_of_add_right_lt hfuel)
    obtain ⟨hnormal, hlen⟩ := hdirs.enter hne hname
    rw [Path.tail, abspathLoop_succ hname hsep hrun, List.map_cons, List.foldl_cons]
    exact ih d' cur' (Onixs.enter dirs name) _ passes (fun p hp => hnames p (List.mem_cons_of_mem _ hp)) hcursor hnormal
      (Nat.lt_of_succ_lt_succ hpasses) (by omega)

/-- The last name of `abspath` goes behind the string, with a slash. -/
theorem Cursor.append_last (h : Cursor d cur dirs) (name : CStr) :
    HasName (((strcpy d cur (name.map fun c => c.1.toNat)).putU8 (cur + name.length) 47).putU8
      (cur + name.length + 1) 0) 0 (dirString (dirs ++ [name])) := by
  obtain ⟨hstring, rfl⟩ := h
  have hcopy : HasName (strcpy d (dirString dirs).length (name.map fun c => c.1.toNat)) 0 (dirString dirs ++ name) :=
    hstring.extend (fun i hi => strcpy_below hi) hasName_strcpy
  have hslash : HasName (((strcpy d (dirString dirs).length (name.map fun c => c.1.toNat)).putU8
      ((dirString dirs).length + name.length) 47).putU8 ((dirString dirs).length + name.length + 1) 0)
      (dirString dirs ++ name).length [slash] := by
    rw [List.length_append]
    refine ⟨?_, putU8_self _ _ _⟩
    rw [putU8_of_ne _ _ (by omega), putU8_self]
    rfl
  rw [dirString_concat, ← List.append_assoc]
  refine hcopy.extend (fun i hi => ?_) hslash
  rw [List.length_append] at hi
  rw [putU8_of_ne _ _ (by omega), putU8_of_ne _ _ (by omega)]

end Steps

/-! ### The whole path -/

section Whole

variable {d : Bytes} {dirs : List CStr} {fuel cur : ℕ} {last : CStr}

/-- A path without a separator in front begins with a name. -/
theorem Path.head_tail (p : Path) : (Path.tail p.dirs p.last).head?.any isSeparator = false := by
  have hfirst : ∀ c ∈ (Path.tail p.dirs p.last).head?, isSeparator c = false := by
    cases hdirs : p.dirs with
    | nil => exact fun c hc => p.last_name c (List.mem_of_mem_head? hc)
    | cons q names =>
      obtain ⟨hne, hname, -⟩ := p.dirs_name q (hdirs ▸ List.mem_cons_self)
      obtain ⟨a, name, hq⟩ := List.exists_cons_of_ne_nil hne
      intro c hc
      rw [Path.tail, hq, List.cons_append, List.head?_cons, Option.mem_some_iff] at hc
      exact hc ▸ hname a (hq ▸ List.mem_cons_self)
  cases hhead : (Path.tail p.dirs p.last).head? with
  | none => rfl
  | some c => exact hfirst c hhead

/-- **The start**: at the root, or behind the working directory. -/
theorem abspathStart_eq (p : Path) (hpwd : HasName d 0 (dirString dirs)) (hfuel : (dirString dirs).length < fuel) :
    ∃ d' cur before, abspathStart fuel d p.chars = some (d', cur, before, Path.tail p.dirs p.last) ∧
      Cursor d' cur (if p.lead.isSome then [] else dirs) := by
  rw [Path.chars]
  cases hlead : p.lead with
  | some c =>
    refine ⟨_, _, _, if_pos ?_, ?_, rfl⟩
    · exact p.lead_sep c hlead
    · have hroot : HasName d 0 ([slash] ++ dirs.flatMap fun name => name ++ [slash]) := hpwd
      exact hroot.cut
  | none =>
    rw [← List.append_nil (dirString dirs)] at hpwd hfuel
    obtain ⟨o, hsep, hcursor⟩ := Cursor.find hpwd (by simp) hfuel
    refine ⟨_, _, [], ?_, hcursor⟩
    rw [Option.toList_none, List.nil_append, abspathStart, p.head_tail, if_neg Bool.false_ne_true, hsep]
    rfl

/-- **The last name** is entered, if there is one. -/
theorem abspathLast_eq (h : Cursor d cur dirs) (hdirs : Normal dirs) (hfuel : (dirString dirs).length < fuel) : ∃ d', abspathLast fuel d cur last = some d' ∧
      HasName d' 0 (dirString ((if last = [] then none else some last).toList.foldl enter dirs)) := by
  rw [abspathLast]
  by_cases hnil : last = []
  · rw [if_pos hnil, if_pos hnil]
    exact ⟨d, rfl, h.string⟩
  · rw [if_neg hnil, if_neg hnil, Option.toList_some, List.foldl_cons, List.foldl_nil, enter]
    by_cases hdot : last = dotName
    · rw [if_pos hdot, if_pos hdot]
      exact ⟨d, rfl, h.string⟩
    · rw [if_neg hdot, if_neg hdot]
      by_cases hdots : last = dotDotName
      · rw [if_neg (not_not_intro hdots), if_pos hdots]
        obtain ⟨d', cur', hup, hcursor⟩ := h.up (fun w hw => (hdirs w hw).2.1) hfuel
        rw [hup]
        exact ⟨d', rfl, hcursor.string⟩
      · rw [if_pos hdots, if_neg hdots]
        exact ⟨_, rfl, h.append_last last⟩

/-- **`abspath` leaves the string of the directories that the path leads through**, which is normalised again. -/
theorem abspath_eq (p : Path) (hdirs : Normal dirs) (hpwd : HasName d 0 (dirString dirs))
    (hfuel : (dirString dirs).length + p.chars.length < fuel) :
    ∃ d' buffer, abspath fuel d p.chars = some (d', buffer) ∧ HasName d' 0 (dirString (p.resolve dirs)) ∧
      Normal (p.resolve dirs) := by
  obtain ⟨d₁, cur₁, before₁, hstart, h₁⟩ := abspathStart_eq p hpwd (Nat.lt_of_add_right_lt hfuel)
  have hbase : Normal (if p.lead.isSome then [] else dirs) ∧
      (dirString (if p.lead.isSome then [] else dirs)).length ≤ (dirString dirs).length := by
    split
    · exact ⟨fun name hname => absurd hname List.not_mem_nil, Nat.succ_le_succ (Nat.zero_le _)⟩
    · exact ⟨hdirs, Nat.le_refl _⟩
  have htail : (Path.tail p.dirs p.last).length ≤ p.chars.length := by
    rw [Path.chars, List.length_append]
    exact Nat.le_add_left _ _
  have hroom : (dirString (if p.lead.isSome then [] else dirs)).length + (Path.tail p.dirs p.last).length < fuel := by
    omega
  obtain ⟨d₂, cur₂, before₂, hloop, h₂, hnormal, hlen⟩ := abspathLoop_eq p.last_name p.dirs d₁ cur₁ _ before₁
    ((Path.tail p.dirs p.last).length + 1) p.dirs_name h₁ hbase.1
    (Nat.lt_succ_of_le (length_le_tail p.last p.dirs)) hroom
  obtain ⟨d₃, hlast, h₃⟩ : ∃ d', abspathLast fuel d₂ cur₂ p.last = some d' ∧ _ :=
    abspathLast_eq h₂ hnormal (Nat.lt_of_add_right_lt hlen)
  have hresolve : p.resolve dirs = p.final.toList.foldl enter ((p.dirs.map Prod.fst).foldl enter
      (if p.lead.isSome then [] else dirs)) := by
    rw [Path.resolve, Path.names, List.foldl_append]
  refine ⟨d₃, before₂ ++ p.last, ?_, hresolve ▸ h₃, ?_⟩
  · rw [abspath, hstart, Option.bind_eq_bind, Option.bind_some]
    simp only [hloop, hlast, Option.bind_eq_bind, Option.bind_some]
    rfl
  · rw [hresolve, Path.final]
    by_cases hnil : p.last = []
    · rw [if_pos hnil]
      exact hnormal
    · rw [if_neg hnil]
      exact (hnormal.enter hnil p.last_name).1

theorem noLead_sep : ∀ c ∈ (none : Option CChar), isSeparator c = true := fun _ hc => absurd hc (by simp)

theorem noLast_name : ∀ c ∈ ([] : CStr), isSeparator c = false := fun _ hc => absurd hc List.not_mem_nil

theorem upPath_dirs : ∀ p ∈ [(dotDotName, ⟨92#8, backslash_ne_eos⟩), (cstr ['b'], slash)],
    p.1 ≠ [] ∧ (∀ c ∈ p.1, isSeparator c = false) ∧ isSeparator p.2 = true := by
  intro p hp
  rcases List.mem_cons.mp hp with rfl | hp
  · exact ⟨List.cons_ne_nil _ _, dotDotName_free, rfl⟩
  · rw [List.mem_singleton.mp hp]
    exact ⟨List.cons_ne_nil _ _, sepFree_of_all rfl, rfl⟩

/-- The path `..\b/`. -/
def upPath : Path where
  lead := none
  dirs := [(dotDotName, ⟨92#8, backslash_ne_eos⟩), (cstr ['b'], slash)]
  last := []
  lead_sep := noLead_sep
  dirs_name := upPath_dirs
  last_name := noLast_name
  nonempty _ := Or.inl (List.cons_ne_nil _ _)

/-- From `/a/`, the path `..\b/` leads to `/b/`. -/
theorem abspath_eq_up : ∃ d' buffer, abspath 16 (strcpy (fun _ => 255#8) 0 [47, 97, 47]) upPath.chars = some (d', buffer) ∧
    HasName d' 0 (cstr ['/', 'b', '/']) := by
  have hdirs : Normal [cstr ['a']] := by
    intro name hname
    rw [List.mem_singleton.mp hname]
    exact ⟨List.cons_ne_nil _ _, sepFree_of_all rfl, by decide, by decide⟩
  obtain ⟨d', buffer, hrun, hstring, -⟩ : ∃ d' buffer, abspath 16 (strcpy (fun _ => 255#8) 0 [47, 97, 47]) upPath.chars
      = some (d', buffer) ∧ HasName d' 0 (dirString (upPath.resolve [cstr ['a']])) ∧ _ :=
    abspath_eq upPath hdirs (by decide) (by decide)
  exact ⟨d', buffer, hrun, hstring⟩

end Whole

end Onixs
