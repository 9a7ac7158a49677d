import Mathlib.Data.List.DropRight
import Mathlib.Data.List.MinMax
import Onixs.Common.Rows
import Onixs.Lib.Types

/-!
# The memory the kernel uses

`memory_init` of `kernel/memory.c` goes through the memory map of the boot loader, in either of its two forms, and keeps
the largest usable zone. It compares the 64-bit size of a zone with the low 32 bits of the largest one so far, and keeps
the low 32 bits of what it takes. A zone of 4 GiB or more is therefore always taken, and only what comes after it counts:
`Onixs.MemoryMap.memoryInit_iff` says which maps lead to the zone that is meant.
-/

namespace Onixs

open Bytes

/-- A `uint64`. -/
def getU64 (mem : Bytes) (a : ℕ) : ℕ := getU32 mem a + 4294967296 * getU32 mem (a + 4)

/-- `ards_t`, and the part of `multi_mmap_entry_t` that is read. -/
structure Zone where
  /-- `base`, or `addr`. -/
  base : ℕ
  /-- `size`, or `len`. -/
  size : ℕ
  /-- `type`. -/
  type : ℕ
deriving DecidableEq

/-- `memory_base` and `memory_size`. -/
structure MemoryMap where
  /-- `memory_base`. -/
  base : ℕ
  /-- `memory_size`. -/
  size : ℕ
deriving DecidableEq

namespace MemoryMap

/-- `ZONE_VALID`. -/
def zoneValid : ℕ := 1

/-- `ONIXS_MAGIC`. -/
def onixsMagic : ℕ := 0xAA5555AA

/-- `MULTIBOOT2_MAGIC`. -/
def multiboot2Magic : ℕ := 0x36d76289

/-- `MULTIBOOT_TAG_TYPE_END`. -/
def tagTypeEnd : ℕ := 0

/-- `MULTIBOOT_TAG_TYPE_MMAP`. -/
def tagTypeMmap : ℕ := 6

/-- `MEMORY_BASE`. -/
def memoryBase : ℕ := 0x100000

/-- `KERNEL_MEMORY_SIZE`. -/
def kernelMemorySize : ℕ := 0x1000000

/-- The zone that is described at an address. -/
def zoneAt (mem : Bytes) (a : ℕ) : Zone := ⟨getU64 mem a, getU64 mem (a + 8), getU32 mem (a + 16)⟩

/-- A zone is taken when it is usable and larger than `memory_size`. -/
def select (m : MemoryMap) (z : Zone) : MemoryMap :=
  if z.type = zoneValid ∧ m.size < z.size then ⟨u32 z.base, u32 z.size⟩ else m

/-- The loop over the ARDS list. -/
def ardsLoop (mem : Bytes) : ℕ → ℕ → MemoryMap → MemoryMap
  | 0, _, m => m
  | count + 1, ptr, m => ardsLoop mem count (u32 (ptr + 20)) (select m (zoneAt mem ptr))

/-- The loop over the tags, in at most so many rounds. -/
def tagLoop (mem : Bytes) : ℕ → ℕ → Option ℕ
  | 0, _ => none
  | fuel + 1, tag =>
      if getU32 mem tag = tagTypeEnd ∨ getU32 mem tag = tagTypeMmap then
        some tag
      else
        tagLoop mem fuel (u32 (tag + (u32 (getU32 mem (tag + 4) + 7) &&& 0xFFFFFFF8)))

/-- The loop over the entries of a tag that ends at `bound`, in at most so many rounds. -/
def mmapLoop (mem : Bytes) (entrySize bound : ℕ) : ℕ → ℕ → MemoryMap → Option MemoryMap
  | 0, _, _ => none
  | fuel + 1, entry, m =>
      if entry < bound then
        mmapLoop mem entrySize bound fuel (u32 (entry + entrySize)) (select m (zoneAt mem entry))
      else
        some m

/-- What `memory_init` keeps of the map. -/
def readMap (mem : Bytes) (magic addr fuel : ℕ) : Option MemoryMap :=
  if magic = onixsMagic then
    some (ardsLoop mem (getU32 mem addr) (u32 (addr + 4)) ⟨0, 0⟩)
  else if magic = multiboot2Magic then do
    let tag ← tagLoop mem fuel (u32 (addr + 8))
    mmapLoop mem (getU32 mem (tag + 8)) (u32 (tag + getU32 mem (tag + 4))) fuel (u32 (tag + 16)) ⟨0, 0⟩
  else
    none

/-- `memory_init`. No value means that an assertion fails, or the kernel panics. The numbers of pages, which follow from
the two that are kept, are left out. -/
def memoryInit (mem : Bytes) (magic addr fuel : ℕ) : Option MemoryMap := do
  let m ← readMap mem magic addr fuel
  assert (m.base = memoryBase)
  assert (m.size &&& 0xFFF = 0)
  assert (kernelMemorySize ≤ m.size)
  return m

/-! ### Maps in memory -/

/-- The zones are described from `a` on, one every `stride` bytes. -/
def ZonesAt (mem : Bytes) (stride : ℕ) : ℕ → List Zone → Prop
  | _, [] => True
  | a, z :: zones => zoneAt mem a = z ∧ ZonesAt mem stride (a + stride) zones

/-- **The ARDS list of a boot loader**: the number of zones, and the zones behind it. -/
structure ArdsAt (mem : Bytes) (addr : ℕ) (zones : List Zone) : Prop where
  /-- The number. -/
  count : getU32 mem addr = zones.length
  /-- The zones. -/
  listed : ZonesAt mem 20 (addr + 4) zones
  /-- The list lies in memory. -/
  fits : addr + 4 + 20 * zones.length < 4294967296

/-- The tags from `tag` on, given by their sizes, are others than the one at `last`. -/
def TagsAt (mem : Bytes) (last : ℕ) : ℕ → List ℕ → Prop
  | tag, [] => tag = last
  | tag, size :: sizes => getU32 mem tag ≠ tagTypeEnd ∧ getU32 mem tag ≠ tagTypeMmap ∧ getU32 mem (tag + 4) = size ∧
      TagsAt mem last (u32 (tag + (u32 (size + 7) &&& 0xFFFFFFF8))) sizes

/-- **The multiboot2 information** with the zones in its `mmap` tag, behind tags of these sizes. -/
structure MmapAt (mem : Bytes) (addr : ℕ) (sizes : List ℕ) (entrySize : ℕ) (zones : List Zone) : Prop where
  /-- The tag. -/
  tag : ∃ tag, TagsAt mem tag (u32 (addr + 8)) sizes ∧ getU32 mem tag = tagTypeMmap ∧
    getU32 mem (tag + 4) = 16 + entrySize * zones.length ∧ getU32 mem (tag + 8) = entrySize ∧
      ZonesAt mem entrySize (tag + 16) zones ∧ tag + 16 + entrySize * zones.length < 4294967296
  /-- An entry has room for a zone. -/
  entrySize : 24 ≤ entrySize

/-- The map of a boot loader, with as many rounds for the loops as they need. -/
inductive MapAt (mem : Bytes) (addr fuel : ℕ) : ℕ → List Zone → Prop where
  /-- An ARDS list. -/
  | ards {zones : List Zone} (h : ArdsAt mem addr zones) : MapAt mem addr fuel onixsMagic zones
  /-- A multiboot2 `mmap` tag. -/
  | mmap {zones : List Zone} {sizes : List ℕ} {entrySize : ℕ} (h : MmapAt mem addr sizes entrySize zones)
      (hsizes : sizes.length < fuel) (hzones : zones.length < fuel) : MapAt mem addr fuel multiboot2Magic zones

section Loops

variable {mem : Bytes} {addr fuel magic : ℕ} {zones : List Zone} {m : MemoryMap}

theorem ardsLoop_eq : ∀ (zones : List Zone) (ptr : ℕ) (m : MemoryMap), ZonesAt mem 20 ptr zones →
    ptr + 20 * zones.length < 4294967296 → ardsLoop mem zones.length ptr m = zones.foldl select m := by
  intro zones
  induction zones with
  | nil => exact fun _ _ _ _ => rfl
  | cons z zones ih =>
    intro ptr m h hfits
    rw [List.length_cons] at hfits ⊢
    rw [ardsLoop, h.1, u32_of_lt (by omega)]
    exact ih _ _ h.2 (by omega)

theorem mmapLoop_eq {entrySize bound : ℕ} (hsize : 0 < entrySize) : ∀ (zones : List Zone) (entry fuel : ℕ)
    (m : MemoryMap), ZonesAt mem entrySize entry zones → entry + entrySize * zones.length = bound →
      bound < 4294967296 → zones.length < fuel →
        mmapLoop mem entrySize bound fuel entry m = some (zones.foldl select m) := by
  intro zones
  induction zones with
  | nil =>
    intro entry fuel m _ hbound _ hfuel
    obtain ⟨fuel, rfl⟩ : ∃ k, fuel = k + 1 := Nat.exists_eq_succ_of_ne_zero (Nat.ne_zero_of_lt hfuel)
    rw [mmapLoop, if_neg (by rw [← hbound]; exact Nat.lt_irrefl _)]
    rfl
  | cons z zones ih =>
    intro entry fuel m h hbound hlt hfuel
    obtain ⟨fuel, rfl⟩ : ∃ k, fuel = k + 1 := Nat.exists_eq_succ_of_ne_zero (Nat.ne_zero_of_lt hfuel)
    rw [List.length_cons, Nat.mul_succ] at hbound
    have hpos := Nat.zero_le (entrySize * zones.length)
    rw [mmapLoop, if_pos (by omega), h.1, u32_of_lt (by omega)]
    exact ih _ _ _ h.2 (by omega) hlt (Nat.lt_of_succ_lt_succ hfuel)

theorem tagLoop_eq {last : ℕ} (hlast : getU32 mem last = tagTypeMmap) : ∀ (sizes : List ℕ) (tag fuel : ℕ),
    TagsAt mem last tag sizes → sizes.length < fuel → tagLoop mem fuel tag = some last := by
  intro sizes
  induction sizes with
  | nil =>
    rintro tag fuel rfl hfuel
    obtain ⟨fuel, rfl⟩ : ∃ k, fuel = k + 1 := Nat.exists_eq_succ_of_ne_zero (Nat.ne_zero_of_lt hfuel)
    rw [tagLoop, if_pos (Or.inr hlast)]
  | cons size sizes ih =>
    rintro tag fuel ⟨hend, hmmap, rfl, hrest⟩ hfuel
    obtain ⟨fuel, rfl⟩ : ∃ k, fuel = k + 1 := Nat.exists_eq_succ_of_ne_zero (Nat.ne_zero_of_lt hfuel)
    rw [tagLoop, if_neg (fun h => h.elim hend hmmap)]
    exact ih _ _ hrest (Nat.lt_of_succ_lt_succ hfuel)

/-- **Both forms of the map** are read as the list of their zones. -/
theorem MapAt.readMap (h : MapAt mem addr fuel magic zones) :
    readMap mem magic addr fuel = some (zones.foldl select ⟨0, 0⟩) := by
  cases h with
  | ards h =>
    have hfits := h.fits
    rw [MemoryMap.readMap, if_pos rfl, h.count, u32_of_lt (by omega), ardsLoop_eq _ _ _ h.listed hfits]
  | mmap h hsizes hzones =>
    obtain ⟨tag, htags, htype, hsize, hentry, hat, hfits⟩ := h.tag
    have hroom := h.entrySize
    rw [MemoryMap.readMap, if_neg (by decide), if_pos rfl, tagLoop_eq htype _ _ _ htags hsizes]
    simp only [Option.bind_eq_bind, Option.bind_some, hsize, hentry]
    rw [u32_of_lt (by omega), u32_of_lt (by omega)]
    exact mmapLoop_eq (by omega) _ _ _ _ hat (by omega) (by omega) hzones

end Loops

/-! ### The zone that is kept -/

/-- The low 32 bits of a zone. -/
def low (z : Zone) : MemoryMap := ⟨u32 z.base, u32 z.size⟩

/-- A zone of less than 4 GiB. -/
def Short (z : Zone) : Prop := z.size < 4294967296

instance (z : Zone) : Decidable (Short z) := inferInstanceAs (Decidable (_ < _))

/-- The usable zones. -/
def usable (zones : List Zone) : List Zone := zones.filter (·.type = zoneValid)

/-- **What counts**: the usable zones behind the last one of 4 GiB or more, with that one's low 32 bits before them; where
there is no such zone, all of the usable ones. -/
def candidates (zones : List Zone) : List MemoryMap :=
  ((usable zones).rdropWhile Short).getLast?.elim ⟨0, 0⟩ low :: ((usable zones).rtakeWhile Short).map low

/-- The first of the largest. -/
def FirstLargest (cs : List MemoryMap) (m : MemoryMap) : Prop :=
  ∃ pre post, cs = pre ++ m :: post ∧ (∀ c ∈ pre, c.size < m.size) ∧ ∀ c ∈ post, c.size ≤ m.size

section Kept

variable {cs : List MemoryMap} {c m m' : MemoryMap} {zones : List Zone} {z : Zone}

theorem FirstLargest.mem (h : FirstLargest cs m) : m ∈ cs ∧ ∀ c ∈ cs, c.size ≤ m.size := by
  obtain ⟨pre, post, rfl, hpre, hpost⟩ := h
  refine ⟨List.mem_append_right _ (List.mem_cons_self ..), fun c hc => ?_⟩
  rcases List.mem_append.mp hc with hc | hc
  · exact (hpre c hc).le
  · rcases List.mem_cons.mp hc with rfl | hc
    · exact le_rfl
    · exact hpost c hc

theorem FirstLargest.unique (h : FirstLargest cs m) (h' : FirstLargest cs m') : m = m' := by
  have hsize : m.size = m'.size := le_antisymm (h'.mem.2 m h.mem.1) (h.mem.2 m' h'.mem.1)
  obtain ⟨pre, post, hcs, hpre, -⟩ := h
  obtain ⟨pre', post', hcs', hpre', -⟩ := h'
  rcases List.append_eq_append_iff.mp (hcs.symm.trans hcs') with ⟨as, rfl, has⟩ | ⟨bs, rfl, hbs⟩
  · cases as with
    | nil => exact (List.cons.inj has).1
    | cons a as =>
      obtain rfl := (List.cons.inj has).1
      exact absurd (hpre' m (by simp)) (by omega)
  · cases bs with
    | nil => exact (List.cons.inj hbs).1.symm
    | cons b bs =>
      obtain rfl := (List.cons.inj hbs).1
      exact absurd (hpre m' (by simp)) (by omega)

/-- One more candidate. -/
theorem FirstLargest.concat (h : FirstLargest cs m) (c : MemoryMap) :
    FirstLargest (cs ++ [c]) (if m.size < c.size then c else m) := by
  split
  next hlt => exact ⟨cs, [], rfl, fun d hd => Nat.lt_of_le_of_lt (h.mem.2 d hd) hlt, fun d hd => absurd hd List.not_mem_nil⟩
  next hge =>
    obtain ⟨pre, post, rfl, hpre, hpost⟩ := h
    refine ⟨pre, post ++ [c], by rw [List.append_assoc, List.cons_append], hpre, fun d hd => ?_⟩
    rcases List.mem_append.mp hd with hd | hd
    · exact hpost d hd
    · rw [List.mem_singleton.mp hd]
      exact Nat.le_of_not_lt hge

/-- Only 32 bits are kept. -/
theorem size_select_lt (zones : List Zone) : (zones.foldl select ⟨0, 0⟩).size < 4294967296 := by
  induction zones using List.reverseRecOn with
  | nil => decide
  | append_singleton zones z ih =>
    rw [List.foldl_append, List.foldl_cons, List.foldl_nil, select]
    split
    · exact Nat.mod_lt _ (by decide)
    · exact ih

/-- **The loop keeps the first of the largest candidates.** The induction is on the zones read so far. -/
theorem firstLargest_foldl (zones : List Zone) : FirstLargest (candidates zones) (zones.foldl select ⟨0, 0⟩) := by
  induction zones using List.reverseRecOn with
  | nil => exact ⟨[], [], rfl, fun d hd => absurd hd List.not_mem_nil, fun d hd => absurd hd List.not_mem_nil⟩
  | append_singleton zones z ih =>
    rw [List.foldl_append, List.foldl_cons, List.foldl_nil]
    by_cases htype : z.type = zoneValid
    · have husable : usable (zones ++ [z]) = usable zones ++ [z] := by
        rw [usable, List.filter_append, List.filter_cons_of_pos (by simpa using htype)]
        rfl
      by_cases hshort : Short z
      · -- one more candidate, of which no bit is lost
        have hsize : (low z).size = z.size := u32_of_lt hshort
        have hcandidates : candidates (zones ++ [z]) = candidates zones ++ [low z] := by
          rw [candidates, husable, List.rdropWhile_concat_pos _ _ _ (by simpa using hshort),
            List.rtakeWhile_concat_pos _ _ _ (by simpa using hshort), List.map_append]
          rfl
        have hselect : select (zones.foldl select ⟨0, 0⟩) z =
            if (zones.foldl select ⟨0, 0⟩).size < (low z).size then low z else zones.foldl select ⟨0, 0⟩ := by
          rw [select, hsize]
          exact if_congr (and_iff_right htype) rfl rfl
        rw [hcandidates, hselect]
        exact ih.concat (low z)
      · -- a long zone is taken, and what was before it is forgotten
        have hcandidates : candidates (zones ++ [z]) = [low z] := by
          rw [candidates, husable, List.rdropWhile_concat_neg _ _ _ (by simpa using hshort),
            List.rtakeWhile_concat_neg _ _ _ (by simpa using hshort), List.getLast?_concat]
          rfl
        have hlt : (zones.foldl select ⟨0, 0⟩).size < z.size :=
          Nat.lt_of_lt_of_le (size_select_lt zones) (Nat.le_of_not_lt hshort)
        rw [hcandidates, select, if_pos ⟨htype, hlt⟩]
        exact ⟨[], [], rfl, fun d hd => absurd hd List.not_mem_nil, fun d hd => absurd hd List.not_mem_nil⟩
    · have husable : usable (zones ++ [z]) = usable zones := by
        rw [usable, List.filter_append, List.filter_cons_of_neg (by simpa using htype)]
        exact List.append_nil _
      rw [candidates, husable, select, if_neg fun h => htype h.1]
      exact ih

end Kept

/-- **The map has the zone that is meant**: of the usable zones that lie below 4 GiB the largest one begins at 1 MiB, and it
has a whole number of pages, of 16 MiB or more. -/
structure Meant (zones : List Zone) (size : ℕ) : Prop where
  /-- The zone is in the map. -/
  mem : ⟨memoryBase, size, zoneValid⟩ ∈ zones
  /-- It lies below 4 GiB. -/
  below : memoryBase + size ≤ 4294967296
  /-- It is the largest one there. -/
  largest : ∀ z ∈ zones, z.type = zoneValid → z.base + z.size ≤ 4294967296 →
    z = ⟨memoryBase, size, zoneValid⟩ ∨ z.size < size
  /-- It has whole pages. -/
  pages : size % 4096 = 0
  /-- It is not too small. -/
  enough : kernelMemorySize ≤ size

/-- **When `memory_init` takes the zone that is meant**: exactly when that is the first of the largest among what counts,
the usable zones behind the last one of 4 GiB or more and that one's low 32 bits. -/
theorem memoryInit_iff {mem : Bytes} {addr fuel magic size : ℕ} {zones : List Zone}
    (hmap : MapAt mem addr fuel magic zones) (hmeant : Meant zones size) :
    memoryInit mem magic addr fuel = some ⟨memoryBase, size⟩ ↔ FirstLargest (candidates zones) ⟨memoryBase, size⟩ := by
  have hkept := firstLargest_foldl zones
  rw [memoryInit, hmap.readMap]
  simp only [Option.bind_eq_bind, Option.bind_some]
  constructor
  · intro h
    obtain ⟨_, -, h⟩ := Option.bind_eq_some_iff.mp h
    obtain ⟨_, -, h⟩ := Option.bind_eq_some_iff.mp h
    obtain ⟨_, -, h⟩ := Option.bind_eq_some_iff.mp h
    exact Option.some.inj h ▸ hkept
  · intro h
    have hpages : size &&& 0xFFF = 0 := (Nat.and_two_pow_sub_one_eq_mod size 12).trans hmeant.pages
    simp only [hkept.unique h, assert_pos hpages, assert_pos hmeant.enough, Option.bind_some, Option.pure_def]
    rfl

/-- The list of one zone, of 64 MiB. -/
def oneZone : Bytes := fun i => (words [1, 0x100000, 0, 0x4000000, 0, 1]).getD i 0#8

theorem memoryInit_iff_one : memoryInit oneZone onixsMagic 0 0 = some ⟨memoryBase, 0x4000000⟩ ↔
    FirstLargest (candidates [⟨memoryBase, 0x4000000, zoneValid⟩]) ⟨memoryBase, 0x4000000⟩ := by
  refine memoryInit_iff (.ards ⟨by decide, ⟨by decide, trivial⟩, by decide⟩) ⟨by decide, by decide, fun z hz _ _ => ?_, by decide, by decide⟩
  exact Or.inl (List.mem_singleton.mp hz)

/-- The list with another zone of 4 GiB, at 4 GiB. -/
def twoZones : Bytes :=
  fun i => (words [2, 0x100000, 0, 0x4000000, 0, 1, 0, 1, 0, 1, 1]).getD i 0#8

/-- **A zone of 4 GiB is taken for an empty one**, and `memory_init` does not return. -/
theorem memoryInit_long : MapAt twoZones 0 0 onixsMagic [⟨memoryBase, 0x4000000, zoneValid⟩, ⟨4294967296, 4294967296, zoneValid⟩] ∧
    Meant [⟨memoryBase, 0x4000000, zoneValid⟩, ⟨4294967296, 4294967296, zoneValid⟩] 0x4000000 ∧
    memoryInit twoZones onixsMagic 0 0 = none := by
  refine ⟨.ards ⟨by decide, ⟨by decide, by decide, trivial⟩, by decide⟩,
    ⟨by decide, by decide, fun z hz _ hbelow => ?_, by decide, by decide⟩, by decide⟩
  rcases List.mem_cons.mp hz with rfl | hz
  · exact Or.inl rfl
  · rw [List.mem_singleton.mp hz] at hbelow
    exact absurd hbelow (by decide)

end MemoryMap

end Onixs
