import Onixs.Fs.WalkPath

/-!
# The name field of an entry

A name of 14 characters fills its field, and no `EOS` stands behind it: there the next entry begins.
`match_name` reads on. What `find_entry` makes of the entries of a directory is therefore not what their
fields say; `Onixs.findEntry_iff` is when it is.
-/

namespace Onixs

open Bytes

/-- The name in a field of `left` bytes at `o`: its characters in front of the first `EOS`. -/
def fieldName (d : Bytes) : ℕ → ℕ → CStr
  | 0, _ => []
  | left + 1, o => if h : d o = 0#8 then [] else ⟨d o, h⟩ :: fieldName d left (o + 1)

section Names

variable {d : Bytes} {path name comp rest next : CStr} {o : ℕ}

/-- The name in the field is what the string at its start begins with. -/
theorem HasName.fieldName_eq : ∀ {name : CStr} {o : ℕ} (left : ℕ), HasName d o name →
    fieldName d left o = name.take left
  | _, _, 0, _ => rfl
  | [], o, left + 1, h => dif_pos h
  | c :: name, o, left + 1, h => by
    obtain ⟨hc, hname⟩ := h
    have hne : d o ≠ 0#8 := hc ▸ c.2
    rw [fieldName, dif_neg hne, hname.fieldName_eq left, List.take_succ_cons]
    exact congrArg (fun c => c :: name.take left) (Subtype.ext hc)

/-- A name that does not fill the field ends with `EOS`. -/
theorem hasName_fieldName : ∀ (left o : ℕ), (fieldName d left o).length < left → HasName d o (fieldName d left o)
  | 0, _, h => absurd h (Nat.not_lt_zero _)
  | left + 1, o, h => by
    rw [fieldName] at h ⊢
    split at h
    · rename_i hend
      rw [dif_pos hend]
      exact hend
    · rename_i hend
      rw [dif_neg hend]
      exact ⟨rfl, hasName_fieldName left (o + 1) (Nat.lt_of_succ_lt_succ h)⟩

/-- **`match_name`** succeeds if the whole string at `o`, up to its `EOS`, is what the path begins with, and a
separator or nothing follows in the path. -/
theorem matchName_eq_some : ∀ {path next : CStr} {o : ℕ}, matchName d path o = some next ↔
    ∃ name left, path = name ++ left ∧ HasName d o name ∧ (∀ c ∈ left.head?, isSeparator c = true) ∧
      next = left.tail
  | [], next, o => by
    rw [matchName]
    constructor
    · intro h
      split at h
      · rename_i hend
        exact ⟨[], [], rfl, hend, by simp, (Option.some.inj h).symm⟩
      · exact absurd h (by simp)
    · rintro ⟨name, left, hpath, hname, -, rfl⟩
      obtain ⟨rfl, rfl⟩ := List.append_eq_nil_iff.mp hpath.symm
      exact if_pos hname
  | c :: path, next, o => by
    rw [matchName]
    constructor
    · intro h
      split at h
      · rename_i hend
        split at h
        · rename_i hsep
          obtain rfl := Option.some.inj h
          exact ⟨[], c :: path, rfl, hend, by simpa using hsep, rfl⟩
        · exact absurd h (by simp)
      · split at h
        · rename_i heq
          obtain ⟨name, left, rfl, hname, hleft, rfl⟩ := matchName_eq_some.mp h
          exact ⟨c :: name, left, rfl, ⟨heq.symm, hname⟩, hleft, rfl⟩
        · exact absurd h (by simp)
    · rintro ⟨name, left, hpath, hname, hleft, rfl⟩
      cases name with
      | nil =>
        obtain rfl : left = c :: path := hpath.symm
        have hend : d o = 0#8 := hname
        rw [if_pos hend, if_pos (hleft c rfl)]
        rfl
      | cons a name =>
        obtain ⟨rfl, rfl⟩ := List.cons.inj hpath
        obtain ⟨ha, hname⟩ := hname
        rw [if_neg (ha ▸ c.2), if_pos ha.symm]
        exact matchName_eq_some.mpr ⟨name, left, rfl, hname, hleft, rfl⟩

/-- **`match_name` agrees with a field that holds the component** if the name ends there, or if the path ends in
a separator and the name in the same one. -/
theorem matchName_field_iff (hfield : fieldName d nameLen o = comp)
    (hrest : ∀ c ∈ rest.head?, isSeparator c = true) :
    matchName d (comp ++ rest) o = some rest.tail ↔
      HasName d o comp ∨ ∃ sep, rest = [sep] ∧ HasName d o (comp ++ [sep]) := by
  rw [matchName_eq_some]
  constructor
  · rintro ⟨name, left, hpath, hname, -, htail⟩
    have htake : name = comp ++ name.drop nameLen := by
      rw [← hfield, hname.fieldName_eq nameLen, List.take_append_drop]
    have hrest' : rest = name.drop nameLen ++ left := by
      rw [htake, List.append_assoc, List.append_cancel_left_eq] at hpath
      exact hpath
    cases hdrop : name.drop nameLen with
    | nil =>
      rw [hdrop, List.append_nil] at htake
      exact Or.inl (htake ▸ hname)
    | cons sep more =>
      -- what is left behind the name is shorter than what is left behind the component
      rw [hdrop, List.cons_append] at hrest'
      have hlen := congrArg List.length htail
      rw [hrest', List.tail_cons, List.length_append, List.length_tail] at hlen
      obtain rfl : left = [] := List.eq_nil_of_length_eq_zero (by omega)
      obtain rfl : more = [] := List.eq_nil_of_length_eq_zero (by simpa using hlen)
      rw [hdrop] at htake
      exact Or.inr ⟨sep, hrest', htake ▸ hname⟩
  · rintro (hname | ⟨sep, rfl, hname⟩)
    · exact ⟨comp, rest, rfl, hname, hrest, rfl⟩
    · exact ⟨comp ++ [sep], [], (List.append_nil _).symm, hname, by simp, rfl⟩

end Names

/-! ### The entries of a directory -/

/-- **Two searches of a list agree** when they do at the first element that one of them stops at, if what a search
returns says where it has stopped. -/
theorem findSome_eq_iff {α β : Type} {F G : α → Option β} (hF : ∀ a a' b, F a = none → G a = some b → F a' ≠ some b)
    (hG : ∀ a a' b, G a = none → F a = some b → G a' ≠ some b) : ∀ {l : List α},
    l.findSome? F = l.findSome? G ↔ ∀ a, l.find? (fun a => (F a).isSome || (G a).isSome) = some a → F a = G a
  | [] => iff_of_true rfl fun a h => absurd h (by simp)
  | a :: l => by
    rw [List.findSome?_cons, List.findSome?_cons]
    cases ha : F a with
    | none =>
      cases ha' : G a with
      | none =>
        rw [List.find?_cons_of_neg (by simp [ha, ha'])]
        exact findSome_eq_iff hF hG
      | some b =>
        rw [List.find?_cons_of_pos (by simp [ha'])]
        refine iff_of_false (fun h => ?_) fun h => ?_
        · obtain ⟨a', -, hb⟩ := List.exists_of_findSome?_eq_some h
          exact hF a a' b ha ha' hb
        · exact Option.some_ne_none b ((ha'.symm.trans (h a rfl).symm).trans ha)
    | some b =>
      rw [List.find?_cons_of_pos (by simp [ha])]
      cases ha' : G a with
      | none =>
        refine iff_of_false (fun h => ?_) fun h => ?_
        · obtain ⟨a', -, hb⟩ := List.exists_of_findSome?_eq_some h.symm
          exact hG a a' b ha' ha hb
        · exact Option.some_ne_none b ((ha.symm.trans (h a rfl)).trans ha')
      | some b' =>
        refine ⟨fun h a' h' => ?_, fun h => ?_⟩
        · obtain rfl := Option.some.inj h'
          rw [ha, ha']
          exact h
        · exact (ha.symm.trans (h a rfl)).trans ha'

/-- **The string at `o`, read on to its `EOS`**, is what the path begins with, and a separator or nothing follows
in the path. -/
def ReadsOn (d : Bytes) (o : ℕ) (path : CStr) : Prop :=
  ∃ n ≤ path.length, HasName d o (path.take n) ∧ ∀ c ∈ (path.drop n).head?, isSeparator c = true

theorem readsOn_iff {d : Bytes} {o : ℕ} {path : CStr} : ReadsOn d o path ↔ (matchName d path o).isSome = true := by
  rw [Option.isSome_iff_exists]
  constructor
  · rintro ⟨n, -, hname, hleft⟩
    exact ⟨_, matchName_eq_some.mpr ⟨path.take n, path.drop n, (List.take_append_drop n path).symm, hname, hleft, rfl⟩⟩
  · rintro ⟨next, h⟩
    obtain ⟨name, left, rfl, hname, hleft, -⟩ := matchName_eq_some.mp h
    exact ⟨name.length, by simp, by simpa using hname, by simpa using hleft⟩

instance (d : Bytes) (o : ℕ) (path : CStr) : Decidable (ReadsOn d o path) := decidable_of_iff _ readsOn_iff.symm

namespace Fs

variable (s : Fs) (dev nr : ℕ) (comp rest : CStr)

/-- Entry `k` is in use, and its field holds the name. -/
def FieldAt (name : CStr) (k : ℕ) : Prop :=
  s.dentryNr (s.entryOf dev nr k) ≠ 0 ∧
    fieldName (s.blk dev (s.entryOf dev nr k).blk) nameLen (k % 64 * 16 + 2) = name

instance (name : CStr) (k : ℕ) : Decidable (s.FieldAt dev nr name k) := inferInstanceAs (Decidable (_ ∧ _))

/-- The first entry in use whose field holds the name. -/
def fieldSlot (name : CStr) : Option ℕ := (List.range (s.entries dev nr)).find? fun k => s.FieldAt dev nr name k

/-- The path may stop at entry `k`: it is in use, and its field holds the first component, or the string at its start
is what the path begins with. -/
def MayStop (k : ℕ) : Prop :=
  s.dentryNr (s.entryOf dev nr k) ≠ 0 ∧ (s.FieldAt dev nr comp k ∨
    ReadsOn (s.blk dev (s.entryOf dev nr k).blk) (k % 64 * 16 + 2) (comp ++ rest))

instance (k : ℕ) : Decidable (s.MayStop dev nr comp rest k) := inferInstanceAs (Decidable (_ ∧ _))

/-- **The first entry at which the path may stop** has the component as its name, with an `EOS` behind it; or the path
ends in a separator, and the same one and an `EOS` are behind the name. -/
def FirstEnds : Prop :=
  ∀ k, (List.range (s.entries dev nr)).find? (fun k => s.MayStop dev nr comp rest k) = some k →
    s.FieldAt dev nr comp k ∧ (HasName (s.blk dev (s.entryOf dev nr k).blk) (k % 64 * 16 + 2) comp ∨
      ∃ sep, rest = [sep] ∧
        HasName (s.blk dev (s.entryOf dev nr k).blk) (k % 64 * 16 + 2) (comp ++ [sep]))

end Fs

section Entries

variable {s : Fs} {dev nr i : ℕ} {comp rest : CStr}

/-- What an entry matches, it is that matches. -/
theorem entryMatch_fst {path : CStr} {k : ℕ} {e : Dentry × CStr} (h : s.entryMatch dev nr path k = some e) :
    e.1 = s.entryOf dev nr k := by
  rw [Fs.entryMatch] at h
  split at h
  · exact absurd h (by simp)
  · obtain ⟨next, -, rfl⟩ := Option.map_eq_some_iff.mp h
    rfl

/-- What an entry does is in the entry. -/
theorem entryMatch_congr {path : CStr} {k k' : ℕ} (h : s.entryOf dev nr k = s.entryOf dev nr k') :
    s.entryMatch dev nr path k = s.entryMatch dev nr path k' := by
  have hoff : k % 64 * 16 = k' % 64 * 16 := congrArg Dentry.off h
  rw [Fs.entryMatch, Fs.entryMatch, h, hoff]

theorem fieldAt_congr {name : CStr} {k k' : ℕ} (h : s.entryOf dev nr k = s.entryOf dev nr k') :
    s.FieldAt dev nr name k ↔ s.FieldAt dev nr name k' := by
  have hoff : k % 64 * 16 = k' % 64 * 16 := congrArg Dentry.off h
  rw [Fs.FieldAt, Fs.FieldAt, h, hoff]

/-- An entry that is in use matches as `match_name` says. -/
theorem entryMatch_used {path : CStr} {k : ℕ} (hnr : s.dentryNr (s.entryOf dev nr k) ≠ 0) :
    s.entryMatch dev nr path k
      = (matchName (s.blk dev (s.entryOf dev nr k).blk) path (k % 64 * 16 + 2)).map fun next =>
        (s.entryOf dev nr k, next) := if_neg hnr

variable (s dev nr comp rest) in
/-- What the field of entry `k` says `find_entry` should return there. -/
def Fs.fieldMatch (k : ℕ) : Option (Dentry × CStr) :=
  if s.FieldAt dev nr comp k then some (s.entryOf dev nr k, rest.tail) else none

/-- One of the two searches stops at an entry if the path may. -/
theorem mayStop_iff (k : ℕ) : ((s.entryMatch dev nr (comp ++ rest) k).isSome ||
    (s.fieldMatch dev nr comp rest k).isSome) = decide (s.MayStop dev nr comp rest k) := by
  by_cases hnr : s.dentryNr (s.entryOf dev nr k) = 0
  · have hfield : ¬s.FieldAt dev nr comp k := fun h => h.1 hnr
    have hstop : ¬s.MayStop dev nr comp rest k := fun h => h.1 hnr
    rw [Fs.entryMatch, if_pos hnr, Fs.fieldMatch, if_neg hfield, decide_eq_false hstop]
    rfl
  · rw [entryMatch_used hnr, Option.isSome_map, Fs.fieldMatch, Bool.eq_iff_iff, Bool.or_eq_true, decide_eq_true_eq,
      ← readsOn_iff, Fs.MayStop, or_comm]
    by_cases hfield : s.FieldAt dev nr comp k
    · simp [hnr, hfield]
    · simp [hnr, hfield]

/-- Where the path may stop, both agree if the name ends as it should. -/
theorem entryMatch_eq_iff {k : ℕ} (hrest : ∀ c ∈ rest.head?, isSeparator c = true)
    (hstop : s.MayStop dev nr comp rest k) :
    s.entryMatch dev nr (comp ++ rest) k = s.fieldMatch dev nr comp rest k ↔
      s.FieldAt dev nr comp k ∧ (HasName (s.blk dev (s.entryOf dev nr k).blk) (k % 64 * 16 + 2) comp ∨
        ∃ sep, rest = [sep] ∧
          HasName (s.blk dev (s.entryOf dev nr k).blk) (k % 64 * 16 + 2) (comp ++ [sep])) := by
  rw [entryMatch_used hstop.1, Fs.fieldMatch]
  by_cases hfield : s.FieldAt dev nr comp k
  · rw [if_pos hfield, ← matchName_field_iff hfield.2 hrest, and_iff_right hfield, Option.map_eq_some_iff]
    constructor
    · rintro ⟨next, hmatch, heq⟩
      rw [hmatch, (Prod.mk.inj heq).2]
    · exact fun hmatch => ⟨_, hmatch, rfl⟩
  · obtain ⟨next, hnext⟩ := Option.isSome_iff_exists.mp (readsOn_iff.mp (hstop.2.resolve_left hfield))
    rw [if_neg hfield, hnext]
    exact iff_of_false (by simp) fun h => hfield h.1

/-- **`find_entry` goes by the name fields** exactly when the first entry at which the path may stop ends as it
should. -/
theorem findEntry_iff (hh : s.Holds dev nr i) (hdir : isDir (s.inodeDesc i).mode = true)
    (hblocks : ∀ k < s.entries dev nr, k / 64 < totalBlock ∧ s.zoneAt dev nr (bmapSlot (k / 64)) ≠ 0)
    (hcomp : ∀ c ∈ comp, isSeparator c = false) (hrest : ∀ c ∈ rest.head?, isSeparator c = true)
    (hdots : ¬(comp = dotDotName ∧ nr = 1)) :
    findEntry s i (comp ++ rest) = some (i, (s.fieldSlot dev nr comp).map fun k =>
      (s.entryOf dev nr k, rest.tail), s) ↔ s.FirstEnds dev nr comp rest := by
  have hsize : (s.inodeDesc i).size / 16 = s.entries dev nr := by
    rw [Fs.inodeDesc, hh.dev_eq, hh.buf, hh.desc]
    rfl
  have hcross : crossMount s i (comp ++ rest) = some (i, s) := by
    refine if_neg fun h => hdots ?_
    rw [matchName_dotDot hcomp hrest, hh.nr_eq] at h
    exact h
  have hrun : findEntry s i (comp ++ rest)
      = some (i, (List.range (s.entries dev nr)).findSome? (s.entryMatch dev nr (comp ++ rest)), s) := by
    rw [findEntry, hdir, assert_pos rfl, hcross]
    simp only [Option.bind_eq_bind, Option.bind_some, hsize]
    rw [findEntryLoop_findSome rfl hh hblocks _ _ 0 0 (Nat.zero_add _) (by simp), List.range_eq_range']
    rfl
  -- what the fields say, as a search of the same kind
  have hfields : (s.fieldSlot dev nr comp).map (fun k => (s.entryOf dev nr k, rest.tail))
      = (List.range (s.entries dev nr)).findSome? (s.fieldMatch dev nr comp rest) := by
    rw [Fs.fieldSlot, findSome_eq_map_find]
    intro k _
    simp only [Fs.fieldMatch, decide_eq_true_eq]
  have hfst : ∀ {k b}, s.fieldMatch dev nr comp rest k = some b → b.1 = s.entryOf dev nr k := by
    intro k b h
    rw [Fs.fieldMatch] at h
    split at h
    · rw [← Option.some.inj h]
    · exact absurd h (by simp)
  rw [hrun, hfields, Option.some_inj, Prod.mk.injEq, Prod.mk.injEq]
  simp only [true_and, and_true]
  rw [findSome_eq_iff, Fs.FirstEnds]
  · simp only [mayStop_iff]
    refine forall_congr' fun k => imp_congr_right fun hk => ?_
    have hstop := List.find?_some hk
    rw [decide_eq_true_eq] at hstop
    exact entryMatch_eq_iff hrest hstop
  · intro k k' b hnone hfield hmatch
    rw [entryMatch_congr ((hfst hfield).symm.trans (entryMatch_fst hmatch)), hmatch] at hnone
    exact Option.some_ne_none b hnone
  · intro k k' b hnone hmatch hfield
    rw [Fs.fieldMatch, ← if_congr (fieldAt_congr ((hfst hfield).symm.trans (entryMatch_fst hmatch))) rfl rfl] at hnone
    rw [Fs.fieldMatch] at hfield
    split at hfield
    · rename_i hat
      rw [if_pos hat] at hnone
      exact Option.some_ne_none _ hnone
    · exact absurd hfield (by simp)

/-- Names that do not fill their fields, and have no separators, end as they should. -/
theorem firstEnds_of_short (hcomp : ∀ c ∈ comp, isSeparator c = false)
    (hrest : ∀ c ∈ rest.head?, isSeparator c = true)
    (hshort : ∀ k < s.entries dev nr, ∀ name, s.FieldAt dev nr name k →
      name.length < nameLen ∧ (name.all fun c => !isSeparator c) = true) : s.FirstEnds dev nr comp rest := by
  intro k hk
  have hlt := List.mem_range.mp (List.mem_of_find?_eq_some hk)
  have hstop := List.find?_some hk
  rw [decide_eq_true_eq] at hstop
  obtain ⟨hlen, hsep⟩ := hshort k hlt _ ⟨hstop.1, rfl⟩
  have hname := hasName_fieldName nameLen (k % 64 * 16 + 2) hlen
  have hfield : s.FieldAt dev nr comp k := by
    refine hstop.2.elim id fun hreads => ?_
    rw [readsOn_iff, matchName_eq hname (sepFree_of_all hsep) hcomp hrest] at hreads
    split at hreads
    · rename_i heq
      exact ⟨hstop.1, heq.symm⟩
    · exact absurd hreads (by simp)
  rw [hfield.2] at hname
  exact ⟨hfield, Or.inl hname⟩

end Entries

/-- The program in its directory. -/
theorem findEntry_iff_program : findEntry (rootFs programBlocks 8) 0 (cstr ['a'] ++ [])
    = some (0, ((rootFs programBlocks 8).fieldSlot 1 1 (cstr ['a'])).map (fun k =>
      ((rootFs programBlocks 8).entryOf 1 1 k, [])), rootFs programBlocks 8) := by
  have hsep : ∀ c ∈ cstr ['a'], isSeparator c = false := sepFree_of_all rfl
  have hend : ∀ c ∈ ([] : CStr).head?, isSeparator c = true := by simp
  refine (findEntry_iff ⟨by decide, by decide +kernel, rfl, rfl, by decide +kernel, by decide +kernel⟩
    (by decide +kernel) (by decide +kernel) hsep hend (by decide)).mpr (firstEnds_of_short hsep hend ?_)
  have hshort : ∀ k < (rootFs programBlocks 8).entries 1 1,
      (fieldName ((rootFs programBlocks 8).blk 1 ((rootFs programBlocks 8).entryOf 1 1 k).blk) nameLen
        (k % 64 * 16 + 2)).length < nameLen ∧
      ((fieldName ((rootFs programBlocks 8).blk 1 ((rootFs programBlocks 8).entryOf 1 1 k).blk) nameLen
        (k % 64 * 16 + 2)).all fun c => !isSeparator c) = true := by
    decide +kernel
  intro k hk name hname
  rw [← hname.2]
  exact hshort k hk

/-- A name that fills its field. -/
def fullName : CStr := cstr ['a', 'b', 'c', 'd', 'e', 'f', 'g', 'h', 'i', 'j', 'k', 'l', 'm', 'n']

/-- A directory with such a name, and an entry behind it. -/
def fullBlocks (b : ℕ) : Bytes :=
  if b = 4 then inodeBytes 0 [(0o040755, 64, 2, 5), (0o100644, 0, 1, 0), (0o100644, 0, 1, 0)]
  else if b = 5 then
    (dirBytes 0 [(1, cstr ['.']), (1, cstr ['.', '.']), (2, fullName), (3, cstr ['b'])]).putU8 47 110
  else fun _ => 0#8

/-- **A name of 14 characters is not found**: the number of the next entry is read as its 15th. -/
theorem findEntry_full : (rootFs fullBlocks 8).fieldSlot 1 1 fullName = some 2 ∧
    (findEntry (rootFs fullBlocks 8) 0 (fullName ++ [])).map (fun r => (r.1, r.2.1)) = some (0, none) ∧
    findEntry (rootFs fullBlocks 8) 0 (fullName ++ []) ≠
      some (0, ((rootFs fullBlocks 8).fieldSlot 1 1 fullName).map (fun k =>
        ((rootFs fullBlocks 8).entryOf 1 1 k, [])), rootFs fullBlocks 8) := by
  have hslot : (rootFs fullBlocks 8).fieldSlot 1 1 fullName = some 2 := by decide +kernel
  have hrun : (findEntry (rootFs fullBlocks 8) 0 (fullName ++ [])).map (fun r => (r.1, r.2.1)) = some (0, none) := by
    decide +kernel
  refine ⟨hslot, hrun, fun h => ?_⟩
  rw [h, hslot] at hrun
  exact absurd (congrArg (Option.map Prod.snd) hrun) (by simp)

end Onixs
