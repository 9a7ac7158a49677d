import Onixs.Common.Contents
import Onixs.Fs.Holes

/-!
# What is in a file

The bytes of a file as one sequence (`Onixs.Fs.contents`), without its blocks and zones. `inode_write` splices its buffer
into the sequence of its file, and leaves those of the other files alone (`Onixs.FilesZeroed.inodeWrite_contents`), if it
has the zones it needs and leaves no gap but zeros; `inode_read` returns a part of the sequence and stores nothing else
into its buffer (`Onixs.FilesZeroed.inodeRead_contents`).
-/

namespace Onixs

open Bytes Contents

/-- **The bytes of a file**, from the first to the last. -/
def Fs.contents (s : Fs) (dev nr i : ℕ) : List Byte := (List.range (s.inodeDesc i).size).map (s.fileByte dev nr)

/-- The first `n` bytes of a buffer. -/
def Bytes.first (buf : Bytes) (n : ℕ) : List Byte := (List.range n).map buf

/-- All the files are there, whatever is in them. -/
def FilesWhole (s : Fs) (place : ℕ → ℕ × ℕ) (I : ℕ → Prop) : Prop := FilesZeroed s place I fun _ _ => True

section Bytes

variable {s t : Fs} {dev nr i k n : ℕ} {buf : Bytes} {C : ℕ → Prop}

@[simp] theorem length_first : (buf.first n).length = n := by
  rw [first, List.length_map, List.length_range]

theorem getD_first (hk : k < n) : (buf.first n).getD k 0#8 = buf k := by
  rw [first, List.getD_eq_getElem?_getD, List.getElem?_map, List.getElem?_range hk]
  rfl

@[simp] theorem length_contents : (s.contents dev nr i).length = (s.inodeDesc i).size := by
  rw [Fs.contents, List.length_map, List.length_range]

theorem getD_contents (hk : k < (s.inodeDesc i).size) : (s.contents dev nr i).getD k 0#8 = s.fileByte dev nr k := by
  rw [Fs.contents, List.getD_eq_getElem?_getD, List.getElem?_map, List.getElem?_range hk]
  rfl

theorem getD_contents_of_le (hk : (s.inodeDesc i).size ≤ k) : (s.contents dev nr i).getD k 0#8 = 0#8 :=
  List.getD_eq_default _ _ (by rwa [length_contents])

/-- A file that is the same has the same in it. -/
theorem contents_of_same (hs : Zeroed s dev nr i C) (h : Regular s dev nr i) (h' : Regular t dev nr i)
    (hsame : SameFile s t dev nr) : t.contents dev nr i = s.contents dev nr i := by
  have hsize := (inodeDesc_congr h.holds h'.holds hsame.super fun o ho => hsame.desc o (by omega)).2
  have hfit := hs.fit
  rw [totalBlock_eq, blockSize_eq] at hfit
  rw [Fs.contents, Fs.contents, hsize]
  refine List.map_congr_left fun o ho => ?_
  have ho := List.mem_range.mp ho
  have hslot := isSlot_bmapSlot (b := o / 1024) (by omega)
  rw [Fs.fileByte, Fs.fileByte, hsame.tree _ hslot, hsame.data _ hslot (hs.block o ho)]

end Bytes

section Calls

variable {s : Fs} {dev nr i len offset : ℕ} {F C : ℕ → Prop}

/-- **The bytes behind a write**: those that are written, those that were there, and zeros between them. -/
theorem FillsGap.contents_eq (hs : Zeroed s dev nr i C) (h : Regular s dev nr i)
    (hapart : ∀ nr', F nr' → nr' ≠ nr → Apart s dev nr nr')
    (hfill : FillsGap s dev nr (s.inodeDesc i).size offset len) (buf : Bytes) {t : Fs}
    (hrun : inodeWrite s i buf len offset = some (len, t)) :
    t.contents dev nr i = splice 0#8 (s.contents dev nr i) offset (buf.first len) := by
  have hfit := hfill.fit
  have hfit' := hs.fit
  rw [totalBlock_eq, blockSize_eq] at hfit hfit'
  obtain ⟨t', hrun', -, -, -, hwrote, hfirst⟩ := (supply_supplied _ dev nr).inodeWrite (h.owned hapart) buf
    (hfill.supplied h) h.isFile (by omega)
  obtain ⟨-, rfl⟩ := Prod.mk.inj (Option.some.inj (hrun.symm.trans hrun'))
  have hsize := hwrote.size
  refine eq_of_getD 0#8 ?_ fun o ho => ?_
  · rw [length_contents, length_splice, length_contents, length_first, hsize]
  · rw [length_splice, length_first, length_contents, ← hsize] at ho
    rw [getD_contents ho, getD_splice, length_first]
    by_cases hin : offset ≤ o ∧ o < offset + len
    · rw [if_pos hin, getD_first (by omega), hwrote.byte o (by omega) (Or.inr hin), if_pos hin]
    rw [if_neg hin]
    rw [hsize] at ho
    by_cases hold : o < (s.inodeDesc i).size
    · rw [getD_contents hold, hwrote.byte o (by omega) (Or.inl (hs.block o hold)), if_neg hin]
    · -- in the gap
      have hlen : len ≠ 0 := by
        rintro rfl
        exact hold ho
      have hlt : o < offset := by
        rw [if_neg hlen] at ho
        omega
      rw [getD_contents_of_le (by omega)]
      by_cases hblock : s.HasBlock dev nr (o / 1024)
      · rw [hwrote.byte o (by omega) (Or.inl hblock), if_neg hin]
        exact hfill.mapped hlen o (by omega) hlt hblock
      · have hsame := hfill.hole hlen o (by omega) hlt hblock
        rcases hfirst hlen with hhas | ⟨z, hz, hkeep⟩
        · exact absurd (hsame ▸ hhas) hblock
        · rw [hkeep o hsame hin]
          exact hz.2 rfl o (by omega) hlt hsame

/-- **What a read returns**, and what it stores into its buffer. -/
theorem Zeroed.inodeRead_contents (hs : Zeroed s dev nr i C) (h : Regular s dev nr i) (buf : Bytes) (len offset : ℕ) :
    Onixs.inodeRead s i buf len offset =
      if (s.contents dev nr i).length ≤ offset then some (EOF, buf, s)
      else some ((slice (s.contents dev nr i) offset len).length,
        buf.copy 0 (slice (s.contents dev nr i) offset len).length
          ((slice (s.contents dev nr i) offset len).getD · 0#8), s.setAtime i s.time) := by
  have hfit := hs.fit
  rw [totalBlock_eq, blockSize_eq] at hfit
  rw [Onixs.inodeRead, assert_pos (by rw [h.isFile, Bool.true_or])]
  simp only [Option.bind_eq_bind, Option.bind_some, Option.pure_def, length_contents, length_slice]
  by_cases hend : (s.inodeDesc i).size ≤ offset
  · rw [if_pos hend, if_pos hend]
  · obtain ⟨out, hrun, hout⟩ := inodeReadLoop_spec h.holds (min len ((s.inodeDesc i).size - offset)) buf 0 offset
      (by omega) fun o _ ho => hs.block o (by omega)
    rw [if_neg hend, if_neg hend, hrun]
    simp only [Option.bind_some]
    rw [sub32_of_le (by omega) (Nat.le_add_right _ _), Nat.add_sub_cancel_left]
    refine congrArg some (Prod.ext rfl (Prod.ext (funext fun k => ?_) rfl))
    simp only [hout k, copy, Nat.sub_zero, Nat.zero_add]
    split
    · rw [getD_slice _ _ _ (by omega), getD_contents (by omega)]
    · rfl

end Calls

/-! ### Several files -/

section Files

variable {s t : Fs} {place : ℕ → ℕ × ℕ} {I : ℕ → Prop} {i len offset : ℕ}

theorem FilesZeroed.whole {C : ℕ → ℕ → Prop} (h : FilesZeroed s place I C) : FilesWhole s place I :=
  ⟨h.files, fun i hi => ⟨(h.stored i hi).fit, (h.stored i hi).block, fun _ _ hC => absurd trivial hC⟩⟩

/-- **A step that leaves the files as they are.** -/
theorem FilesWhole.of_same (h : FilesWhole s place I) (hfiles : RegularFiles t place I)
    (hsame : ∀ i, I i → SameFile s t (place i).1 (place i).2) : FilesWhole t place I ∧
      ∀ i, I i → t.contents (place i).1 (place i).2 i = s.contents (place i).1 (place i).2 i := by
  constructor
  · exact ⟨hfiles, fun i hi => (h.stored i hi).of_same (h.files.regular i hi) (hfiles.regular i hi) (hsame i hi)⟩
  · exact fun i hi => contents_of_same (h.stored i hi) (h.files.regular i hi) (hfiles.regular i hi) (hsame i hi)

/-- **A write splices the buffer into its file.** -/
theorem FilesWhole.inodeWrite (h : FilesWhole s place I) (hi : I i)
    (hfill : FillsGap s (place i).1 (place i).2 (s.inodeDesc i).size offset len) (buf : Bytes) :
    ∃ t, Onixs.inodeWrite s i buf len offset = some (len, t) ∧ FilesWhole t place I ∧
      ∀ j, I j → t.contents (place j).1 (place j).2 j
        = if j = i then splice 0#8 (s.contents (place i).1 (place i).2 i) offset (buf.first len)
          else s.contents (place j).1 (place j).2 j := by
  obtain ⟨t, hrun, hreg, hother, hdev, hs⟩ := (h.stored i hi).inodeWrite (h.files.regular i hi)
    (h.files.beside hi) hfill buf
  obtain ⟨hfiles, hrest⟩ := h.files.step hi hreg hdev hother
  obtain ⟨t', hrun', hwhole⟩ := FilesZeroed.inodeWrite h hi hfill buf
  obtain ⟨-, rfl⟩ := Prod.mk.inj (Option.some.inj (hrun.symm.trans hrun'))
  refine ⟨t, hrun, hwhole.whole, fun j hj => ?_⟩
  by_cases hji : j = i
  · subst hji
    rw [if_pos rfl]
    exact hfill.contents_eq (h.stored j hj) (h.files.regular j hj) (h.files.beside hj) buf hrun
  · rw [if_neg hji]
    exact contents_of_same (h.stored j hj) (h.files.regular j hj) (hfiles.regular j hj) (hrest j hj hji)

/-- **The time of an access** is no part of a file. -/
theorem FilesWhole.setAtime (h : FilesWhole s place I) (hi : I i) (v : ℕ) : FilesWhole (s.setAtime i v) place I ∧
    ∀ j, I j → (s.setAtime i v).contents (place j).1 (place j).2 j = s.contents (place j).1 (place j).2 j := by
  have hreg := h.files.regular i hi
  obtain ⟨howned, -, hdev, hinode, -, hother⟩ := setAtime_owned (hreg.owned (h.files.beside hi)) v
  have hreg' : Regular (s.setAtime i v) (place i).1 (place i).2 i :=
    ⟨howned.layout, howned.tree, hdev.zbit 0 hreg.zero, howned.holds, by rw [hinode]; exact hreg.isFile⟩
  obtain ⟨hfiles, -⟩ := h.files.step hi hreg' hdev fun nr' hF hne => ⟨howned.apart nr' hF hne, hother nr' hF hne⟩
  exact h.of_same hfiles fun j _ => ⟨fun _ _ => rfl, fun _ _ => rfl, fun _ _ _ => rfl, rfl⟩

end Files

end Onixs
