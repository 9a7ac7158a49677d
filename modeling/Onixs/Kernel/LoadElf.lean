import Onixs.Common.Rows
import Onixs.Fs.ReadWrite
import Onixs.Kernel.Memory

/-!
# Loading a program

`load_elf` of `kernel/execve.c` reads the header of the file and its program headers into the first page of the program, and
then goes over the program headers: the counter moves at each of them, the pointer only behind a segment that has been
loaded. So the loop stays at the first header of another type, and the segments behind it are not loaded
(`Onixs.Execve.loadElf_iff`).

Memory is that of the task, by virtual addresses; of a page it has the two bits that `load_segment` stores. A page that is
linked has what its frame had before: the bytes at addresses without a page stand for that. A store outside the pages that
are linked has no value here. `get_page` always finds a frame.
-/

namespace Onixs

open Bytes Memory

namespace Execve

/-! ### The file -/

/-- `sizeof(Elf32_Ehdr)`. -/
def ehdrSize : ℕ := 52

/-- `sizeof(Elf32_Phdr)`. -/
def phdrSize : ℕ := 32

/-- `PT_LOAD`. -/
def ptLoad : ℕ := 1

/-- `PF_X`. -/
def pfX : ℕ := 1

/-- `PF_W`. -/
def pfW : ℕ := 2

/-- `PF_R`. -/
def pfR : ℕ := 4

/-- `elf_validate`, of a header that begins at the first byte. -/
def elfValidate (d : Bytes) : Bool :=
  (List.range 7).map d = [0x7f#8, 0x45#8, 0x4c#8, 0x46#8, 1#8, 1#8, 1#8] ∧ d.getU16 16 = 2 ∧ d.getU16 18 = 3 ∧
    d.getU32 20 = 1 ∧ d.getU16 42 = phdrSize

/-- `e_entry`. -/
def entry (d : Bytes) : ℕ := d.getU32 24

/-- `e_phoff`. -/
def phoff (d : Bytes) : ℕ := d.getU32 28

/-- `e_phentsize`. -/
def phentsize (d : Bytes) : ℕ := d.getU16 42

/-- `e_phnum`. -/
def phnum (d : Bytes) : ℕ := d.getU16 44

/-- `Elf32_Phdr`. -/
structure Phdr where
  /-- `p_type`. -/
  type : ℕ
  /-- `p_offset`. -/
  offset : ℕ
  /-- `p_vaddr`. -/
  vaddr : ℕ
  /-- `p_filesz`. -/
  filesz : ℕ
  /-- `p_memsz`. -/
  memsz : ℕ
  /-- `p_flags`. -/
  flags : ℕ
  /-- `p_align`. -/
  align : ℕ

/-- The program header that begins at the first byte. -/
def readPhdr (d : Bytes) : Phdr where
  type := d.getU32 0
  offset := d.getU32 4
  vaddr := d.getU32 8
  filesz := d.getU32 16
  memsz := d.getU32 20
  flags := d.getU32 24
  align := d.getU32 28

/-- The number of pages of a segment. -/
def Phdr.pages (ph : Phdr) : ℕ := u32 (max ph.memsz ph.filesz + (pageSize - 1)) / pageSize

/-! ### The code -/

/-- What `load_segment` stores in a page entry. -/
structure PageBits where
  /-- `write`. -/
  write : Bool
  /-- `readonly`. -/
  readonly : Bool
deriving DecidableEq

/-- The task that is given a program. -/
structure UserSpace where
  /-- Memory. -/
  mem : Bytes
  /-- The pages that are linked. -/
  page : ℕ → Option PageBits
  /-- `text`. -/
  text : ℕ
  /-- `data`. -/
  data : ℕ
  /-- `end`. -/
  endAddr : ℕ
  /-- The file system. -/
  fs : Fs
  /-- The headers `load_segment` has been called with. -/
  loaded : List ℕ

namespace UserSpace

/-- Memory from an address on. -/
def view (s : UserSpace) (base : ℕ) : Bytes := fun k => s.mem (base + k)

/-- The bytes from an address on have pages. -/
def Linked (s : UserSpace) (base n : ℕ) : Prop := ∀ k < n, (s.page ((base + k) / pageSize)).isSome = true

instance (s : UserSpace) (base n : ℕ) : Decidable (s.Linked base n) :=
  inferInstanceAs (Decidable (∀ k < n, (s.page ((base + k) / pageSize)).isSome = true))

/-- `link_page`. -/
def linkPage (vaddr : ℕ) (s : UserSpace) : Option UserSpace := do
  assert (vaddr % pageSize = 0)
  match s.page (vaddr / pageSize) with
  | some _ => return s
  | none => return { s with page := Function.update s.page (vaddr / pageSize) (some ⟨true, false⟩) }

/-- `inode_read` to memory. -/
def readTo (i vaddr len offset : ℕ) (s : UserSpace) : Option (ℕ × UserSpace) := do
  let (n, buf, fs) ← inodeRead s.fs i (s.view vaddr) len offset
  assert (s.Linked vaddr (if n = EOF then 0 else n))
  return (n, { s with mem := fun a => if vaddr ≤ a then buf (a - vaddr) else s.mem a, fs := fs })

/-- `memset` with 0. -/
def clear (vaddr n : ℕ) (s : UserSpace) : Option UserSpace := do
  assert (s.Linked vaddr n)
  return { s with mem := s.mem.fill vaddr n 0#8 }

/-- The loop of `load_segment` that links the pages. -/
def linkPages : ℕ → ℕ → UserSpace → Option UserSpace
  | _, 0, s => some s
  | addr, n + 1, s => do
      assert (userExecAddr ≤ addr ∧ addr < userMmapAddr)
      let s ← s.linkPage addr
      linkPages (u32 (addr + pageSize)) n s

/-- The loop of `load_segment` that takes the right to write. -/
def protectPages : ℕ → ℕ → UserSpace → Option UserSpace
  | _, 0, s => some s
  | addr, n + 1, s => do
      let _ ← s.page (addr / pageSize)
      protectPages (u32 (addr + pageSize)) n
        { s with page := Function.update s.page (addr / pageSize) (some ⟨false, true⟩) }

/-- What `load_segment` does behind the part from the file. -/
def clearRest (ph : Phdr) (vaddr : ℕ) (s : UserSpace) : Option UserSpace :=
  if ph.filesz < ph.memsz then s.clear (vaddr + ph.filesz) (ph.memsz - ph.filesz) else some s

/-- What `load_segment` does to the pages. -/
def protect (ph : Phdr) (vaddr count : ℕ) (s : UserSpace) : Option UserSpace :=
  if ph.flags &&& pfW = 0 then s.protectPages vaddr count else some s

/-- Where `load_segment` writes the segment down. -/
def note (ph : Phdr) (vaddr : ℕ) (s : UserSpace) : UserSpace :=
  if ph.flags = pfR ||| pfX then { s with text := vaddr }
  else if ph.flags = pfR ||| pfW then { s with data := vaddr }
  else s

/-- `load_segment`. It reads the header anew behind `inode_read`. -/
def loadSegment (i phdr : ℕ) (s : UserSpace) : Option UserSpace := do
  let ph := readPhdr (s.view phdr)
  assert (ph.align = 0x1000)
  assert (ph.vaddr &&& 0xfff = 0)
  let vaddr := ph.vaddr
  let count := ph.pages
  let s ← s.linkPages vaddr count
  let (_, s) ← s.readTo i vaddr ph.filesz ph.offset
  let s ← s.clearRest (readPhdr (s.view phdr)) vaddr
  let ph := readPhdr (s.view phdr)
  let s ← s.protect ph vaddr count
  let s := s.note ph vaddr
  return { s with endAddr := max s.endAddr (u32 (vaddr + count * pageSize)), loaded := s.loaded ++ [phdr] }

/-- The loop of `load_elf`, in at most so many rounds. -/
def loadLoop (inode : ℕ) : ℕ → ℕ → ℕ → UserSpace → Option UserSpace
  | 0, _, _, _ => none
  | fuel + 1, i, ptr, s =>
      if i < phnum (s.view userExecAddr) then
        if (readPhdr (s.view ptr)).type ≠ ptLoad then
          loadLoop inode fuel (i + 1) ptr s
        else do
          let s ← s.loadSegment inode ptr
          loadLoop inode fuel (i + 1) (ptr + phdrSize) s
      else some s

/-- `load_elf`. `e_phnum` is a `uint16`, which bounds the rounds. -/
def loadElf (inode : ℕ) (s : UserSpace) : Option (ℕ × UserSpace) := do
  let s ← s.linkPage userExecAddr
  let (n, s) ← s.readTo inode userExecAddr ehdrSize 0
  assert (n = ehdrSize)
  if elfValidate (s.view userExecAddr) = false then
    return (EOF, s)
  let ehdr := s.view userExecAddr
  let (_, s) ← s.readTo inode (userExecAddr + ehdrSize) (phnum ehdr * phentsize ehdr) (phoff ehdr)
  let s ← s.loadLoop inode 65536 0 (userExecAddr + ehdrSize)
  return (entry (s.view userExecAddr), s)

end UserSpace

/-! ### What loading a file should do -/

/-- Program header `j` of a file. -/
def phdrAt (F : Bytes) (j : ℕ) : Phdr := readPhdr fun k => F (phoff F + phdrSize * j + k)

/-- Where `load_elf` has program header `j`. -/
def phdrAddr (j : ℕ) : ℕ := userExecAddr + ehdrSize + phdrSize * j

/-- Page `q` is one of the `n` from an address on. -/
def OnPages (addr n q : ℕ) : Prop := addr / pageSize ≤ q ∧ q < addr / pageSize + n

/-- Page `q` is one of those of a segment. -/
def Phdr.InPages (ph : Phdr) (q : ℕ) : Prop := OnPages ph.vaddr ph.pages q

/-- A segment that can be loaded. -/
structure Phdr.Loadable (ph : Phdr) (size : ℕ) : Prop where
  /-- Its alignment. -/
  align : ph.align = pageSize
  /-- It begins with a page. -/
  vaddr : ph.vaddr % pageSize = 0
  /-- Its part in the file. -/
  filesz : ph.filesz ≤ ph.memsz
  /-- The file has it. -/
  inFile : ph.offset + ph.filesz ≤ size
  /-- It lies behind the page of the headers. -/
  low : userExecAddr + pageSize ≤ ph.vaddr
  /-- It lies below the mappings. -/
  high : ph.vaddr + ph.memsz ≤ userMmapAddr

/-- **A program**: the file has a valid header, its headers fit into a page, and its segments can be loaded beside each
other. -/
structure Program (F : Bytes) (size : ℕ) : Prop where
  /-- There is a header. -/
  header : ehdrSize ≤ size
  /-- It is valid. -/
  valid : elfValidate F = true
  /-- The headers fit into a page. -/
  table : ehdrSize + phdrSize * phnum F ≤ pageSize
  /-- The file has them. -/
  inFile : phoff F + phdrSize * phnum F ≤ size
  /-- The segments. -/
  segment : ∀ j < phnum F, (phdrAt F j).type = ptLoad → (phdrAt F j).Loadable size
  /-- No two of them share a page. -/
  disjoint : ∀ j < phnum F, ∀ k < phnum F, j ≠ k → (phdrAt F j).type = ptLoad → (phdrAt F k).type = ptLoad →
    ∀ q, (phdrAt F j).InPages q → ¬(phdrAt F k).InPages q

/-- **Inode `i` has been loaded from a regular file** with the bytes `F`, all of whose blocks are mapped. -/
structure Serves (s : Fs) (dev nr i : ℕ) (F : Bytes) (size : ℕ) : Prop where
  /-- The inode. -/
  holds : s.Holds dev nr i
  /-- It is a regular file. -/
  isFile : isFile (s.inodeDesc i).mode = true
  /-- Its size. -/
  size_eq : (s.inodeDesc i).size = size
  /-- A file is not larger than that. -/
  fit : size ≤ totalBlock * blockSize
  /-- Its blocks are mapped. -/
  block : ∀ o < size, s.HasBlock dev nr (o / 1024)
  /-- Its bytes. -/
  byte : ∀ o < size, s.fileByte dev nr o = F o

/-- **A segment is in memory**: its bytes from the file, zeros behind them, and no right to write unless it has it. -/
structure InMemory (F : Bytes) (t : UserSpace) (ph : Phdr) : Prop where
  /-- The part from the file. -/
  file : ∀ k < ph.filesz, t.mem (ph.vaddr + k) = F (ph.offset + k)
  /-- The part behind it. -/
  zero : ∀ k, ph.filesz ≤ k → k < ph.memsz → t.mem (ph.vaddr + k) = 0#8
  /-- The pages. -/
  readonly : ph.flags &&& pfW = 0 → ∀ q, ph.InPages q → t.page q = some ⟨false, true⟩

/-- **The program has been loaded**: `load_segment` has been called once for each `PT_LOAD` and for nothing else, in order;
each segment is in memory; nothing else has changed there; and `end` is where the highest segment ends. -/
structure Loaded (F : Bytes) (s t : UserSpace) : Prop where
  /-- The calls. -/
  calls : t.loaded = s.loaded ++ ((List.range (phnum F)).filter fun j => (phdrAt F j).type = ptLoad).map phdrAddr
  /-- The segments. -/
  segment : ∀ j < phnum F, (phdrAt F j).type = ptLoad → InMemory F t (phdrAt F j)
  /-- The rest of memory. -/
  other : ∀ q, q ≠ userExecAddr / pageSize →
    (∀ j < phnum F, (phdrAt F j).type = ptLoad → ¬(phdrAt F j).InPages q) →
      t.page q = s.page q ∧ ∀ a, a / pageSize = q → t.mem a = s.mem a
  /-- No segment ends behind `end`. -/
  le_end : ∀ j < phnum F, (phdrAt F j).type = ptLoad → (phdrAt F j).vaddr + (phdrAt F j).pages * pageSize ≤ t.endAddr
  /-- A segment ends there, if there is one. -/
  end_eq : (∃ j < phnum F, (phdrAt F j).type = ptLoad) → ∃ j < phnum F, (phdrAt F j).type = ptLoad ∧
    t.endAddr = (phdrAt F j).vaddr + (phdrAt F j).pages * pageSize

/-! ### The file is read -/

section File

variable {s : Fs} {dev nr i len offset size : ℕ} {F : Bytes}

/-- The time of the last access is no part of a file. -/
theorem Serves.setAtime (h : Serves s dev nr i F size) (v : ℕ) : Serves (s.setAtime i v) dev nr i F size := by
  have hsame : ∀ j, ((s.setAtime i v).inodeTable j).dev = (s.inodeTable j).dev ∧
      ((s.setAtime i v).inodeTable j).nr = (s.inodeTable j).nr ∧
      ((s.setAtime i v).inodeTable j).buf = (s.inodeTable j).buf ∧
      ((s.setAtime i v).inodeTable j).desc = (s.inodeTable j).desc := by
    intro j
    rcases eq_or_ne j i with rfl | hne
    · rw [Fs.setAtime, Fs.setInode_self]
      exact ⟨rfl, rfl, rfl, rfl⟩
    · rw [Fs.setAtime, Fs.setInode_of_ne _ _ hne]
      exact ⟨rfl, rfl, rfl, rfl⟩
  obtain ⟨hdev, hnr, hbuf, hdesc⟩ := hsame i
  have hinode : (s.setAtime i v).inodeDesc i = s.inodeDesc i := by
    rw [Fs.inodeDesc, Fs.inodeDesc, hdev, hbuf, hdesc]
    rfl
  exact ⟨⟨h.holds.pos, h.holds.le, hdev.trans h.holds.dev_eq, hnr.trans h.holds.nr_eq, hbuf.trans h.holds.buf,
    hdesc.trans h.holds.desc⟩, hinode ▸ h.isFile, hinode ▸ h.size_eq, h.fit, h.block, h.byte⟩

/-- **`inode_read` inside the file** returns its bytes, and leaves the rest of the buffer. -/
theorem Serves.inodeRead (h : Serves s dev nr i F size) (hend : offset + len ≤ size) (out : Bytes) :
    ∃ n out' t, inodeRead s i out len offset = some (n, out', t) ∧ Serves t dev nr i F size ∧
      (n = len ∨ n = EOF ∧ len = 0) ∧ ∀ k, out' k = if k < len then F (offset + k) else out k := by
  have hfit := h.fit
  rw [totalBlock, blockSize_eq] at hfit
  rcases Nat.eq_zero_or_pos len with rfl | hpos
  · by_cases hout : size ≤ offset
    · refine ⟨EOF, out, s, ?_, h, Or.inr ⟨rfl, rfl⟩, fun k => rfl⟩
      rw [Onixs.inodeRead, assert_pos (by rw [h.isFile, Bool.true_or])]
      simp only [Option.bind_eq_bind, Option.bind_some, if_pos (h.size_eq ▸ hout), Option.pure_def]
    · refine ⟨0, out, s.setAtime i s.time, ?_, h.setAtime _, Or.inl rfl, fun k => rfl⟩
      rw [Onixs.inodeRead, assert_pos (by rw [h.isFile, Bool.true_or]), Nat.zero_min, inodeReadLoop]
      simp only [Option.bind_eq_bind, Option.bind_some, if_neg (h.size_eq ▸ hout), Option.pure_def, dif_pos,
        sub32_of_le (show offset < 4294967296 by omega) le_rfl, Nat.sub_self]
  · obtain ⟨out', hrun, hout'⟩ := inodeReadLoop_spec h.holds len out 0 offset (by omega)
      fun o _ ho => h.block o (by omega)
    refine ⟨len, out', s.setAtime i s.time, ?_, h.setAtime _, Or.inl rfl, fun k => ?_⟩
    · rw [Onixs.inodeRead, assert_pos (by rw [h.isFile, Bool.true_or])]
      simp only [Option.bind_eq_bind, Option.bind_some, h.size_eq, if_neg (show ¬size ≤ offset by omega),
        show min len (size - offset) = len by omega, hrun, Option.pure_def,
        sub32_of_le (show offset + len < 4294967296 by omega) (Nat.le_add_right offset len), Nat.add_sub_cancel_left]
    · rw [hout', Nat.zero_add, Nat.sub_zero]
      by_cases hk : k < len
      · rw [if_pos ⟨Nat.zero_le k, hk⟩, if_pos hk, h.byte _ (by omega)]
      · rw [if_neg fun hand => hk hand.2, if_neg hk]

end File

namespace UserSpace

section Pages

variable {s t : UserSpace} {dev nr i size addr vaddr len offset n : ℕ} {F : Bytes}

/-- **Reading to memory**: the bytes of the file, from its offset on. -/
theorem readTo_spec (h : Serves s.fs dev nr i F size) (hend : offset + len ≤ size) (hlinked : s.Linked vaddr len) :
    ∃ n fs, s.readTo i vaddr len offset =
        some (n, { s with mem := s.mem.copy vaddr len fun k => F (offset + k), fs := fs }) ∧
      Serves fs dev nr i F size ∧ (0 < len → n = len) := by
  obtain ⟨n, out, fs, hrun, hfs, hn, hout⟩ := h.inodeRead hend (s.view vaddr)
  have hcount : s.Linked vaddr (if n = EOF then 0 else n) := by
    rcases hn with rfl | ⟨rfl, rfl⟩
    · split
      · exact fun k hk => absurd hk (Nat.not_lt_zero k)
      · exact hlinked
    · exact fun k hk => absurd hk (Nat.not_lt_zero k)
  have hmem : (fun a => if vaddr ≤ a then out (a - vaddr) else s.mem a) =
      s.mem.copy vaddr len fun k => F (offset + k) := by
    funext a
    rw [Bytes.copy]
    by_cases hle : vaddr ≤ a
    · rw [if_pos hle, hout]
      refine if_congr (by omega) rfl ?_
      rw [view, Nat.add_sub_cancel' hle]
    · rw [if_neg hle, if_neg fun hand => hle hand.1]
  refine ⟨n, fs, ?_, hfs, fun hpos => hn.resolve_right fun hzero => absurd hzero.2 hpos.ne'⟩
  rw [readTo, hrun]
  simp only [Option.bind_eq_bind, Option.bind_some, assert_pos hcount, hmem, Option.pure_def]

theorem onPages_succ {q : ℕ} (haddr : addr % pageSize = 0) :
    OnPages addr (n + 1) q ↔ q = addr / pageSize ∨ OnPages (addr + pageSize) n q := by
  rw [OnPages, OnPages, pageSize_eq] at *
  omega

/-- **A page is linked**, and nothing else changes. -/
theorem linkPage_spec (haddr : addr % pageSize = 0) : ∃ page, s.linkPage addr = some { s with page := page } ∧
    (page (addr / pageSize)).isSome = true ∧ ∀ q, q ≠ addr / pageSize → page q = s.page q := by
  rw [linkPage, assert_pos haddr, Option.bind_eq_bind, Option.bind_some]
  cases hpage : s.page (addr / pageSize) with
  | some bits => exact ⟨s.page, rfl, by rw [hpage]; rfl, fun q _ => rfl⟩
  | none => exact ⟨_, rfl, by rw [Function.update_self]; rfl, fun q hq => Function.update_of_ne hq _ _⟩

/-- **The pages are linked**, and nothing else changes. -/
theorem linkPages_spec : ∀ (n addr : ℕ) {s : UserSpace}, addr % pageSize = 0 → userExecAddr ≤ addr →
    addr + n * pageSize ≤ userMmapAddr → ∃ page, s.linkPages addr n = some { s with page := page } ∧
      (∀ q, OnPages addr n q → (page q).isSome = true) ∧ ∀ q, ¬OnPages addr n q → page q = s.page q := by
  intro n
  induction n with
  | zero =>
    intro addr s _ _ _
    exact ⟨s.page, rfl, fun q hq => absurd hq.2 (by have := hq.1; omega), fun q _ => rfl⟩
  | succ n ih =>
    intro addr s haddr hlow hhigh
    rw [userMmapAddr_eq, pageSize_eq] at hhigh
    obtain ⟨page₁, hfirst, hsome, hsame⟩ := linkPage_spec (s := s) haddr
    have hnext : u32 (addr + pageSize) = addr + pageSize := u32_of_lt (by rw [pageSize_eq]; omega)
    obtain ⟨page₂, hrest, hsome₂, hsame₂⟩ := ih (addr + pageSize) (s := { s with page := page₁ })
      (by rw [Nat.add_mod_right, haddr]) (by omega) (by rw [userMmapAddr_eq, pageSize_eq]; omega)
    refine ⟨page₂, ?_, fun q hq => ?_, fun q hq => ?_⟩
    · rw [linkPages, assert_pos ⟨hlow, by rw [userMmapAddr_eq]; omega⟩, Option.bind_eq_bind, Option.bind_some, hfirst,
        Option.bind_eq_bind, Option.bind_some, hnext, hrest]
    · by_cases hlater : OnPages (addr + pageSize) n q
      · exact hsome₂ q hlater
      · obtain rfl := ((onPages_succ haddr).mp hq).resolve_right hlater
        rw [hsame₂ _ hlater]
        exact hsome
    · rw [onPages_succ haddr, not_or] at hq
      rw [hsame₂ q hq.2]
      exact hsame q hq.1

/-- **The pages lose the right to write**, and nothing else changes. -/
theorem protectPages_spec : ∀ (n addr : ℕ) {s : UserSpace}, addr % pageSize = 0 →
    addr + n * pageSize ≤ userMmapAddr → (∀ q, OnPages addr n q → (s.page q).isSome = true) →
      ∃ page, s.protectPages addr n = some { s with page := page } ∧
        (∀ q, OnPages addr n q → page q = some ⟨false, true⟩) ∧ ∀ q, ¬OnPages addr n q → page q = s.page q := by
  intro n
  induction n with
  | zero =>
    intro addr s _ _ _
    exact ⟨s.page, rfl, fun q hq => absurd hq.2 (by have := hq.1; omega), fun q _ => rfl⟩
  | succ n ih =>
    intro addr s haddr hhigh hlinked
    rw [userMmapAddr_eq, pageSize_eq] at hhigh
    have hnext : u32 (addr + pageSize) = addr + pageSize := u32_of_lt (by rw [pageSize_eq]; omega)
    obtain ⟨bits, hbits⟩ := Option.isSome_iff_exists.mp (hlinked _ ((onPages_succ haddr).mpr (Or.inl rfl)))
    obtain ⟨page₂, hrest, hset, hsame⟩ := ih (addr + pageSize)
      (s := { s with page := Function.update s.page (addr / pageSize) (some ⟨false, true⟩) })
      (by rw [Nat.add_mod_right, haddr]) (by rw [userMmapAddr_eq, pageSize_eq]; omega) fun q hq => by
        change (Function.update s.page (addr / pageSize) (some ⟨false, true⟩) q).isSome = true
        rcases eq_or_ne q (addr / pageSize) with rfl | hne
        · rw [Function.update_self]
          rfl
        · rw [Function.update_of_ne hne]
          exact hlinked q ((onPages_succ haddr).mpr (Or.inr hq))
    refine ⟨page₂, ?_, fun q hq => ?_, fun q hq => ?_⟩
    · rw [protectPages, hbits, Option.bind_eq_bind, Option.bind_some, hnext, hrest]
    · by_cases hlater : OnPages (addr + pageSize) n q
      · exact hset q hlater
      · obtain rfl := ((onPages_succ haddr).mp hq).resolve_right hlater
        rw [hsame _ hlater]
        exact Function.update_self _ _ _
    · rw [onPages_succ haddr, not_or] at hq
      rw [hsame q hq.2]
      exact Function.update_of_ne hq.1 _ _

end Pages

end UserSpace

/-! ### A segment is loaded -/

theorem readPhdr_congr {d d' : Bytes} (h : ∀ k < phdrSize, d k = d' k) : readPhdr d = readPhdr d' := by
  have hword : ∀ o, o + 4 ≤ phdrSize → d.getU32 o = d'.getU32 o := fun o ho =>
    getU32_congr fun k _ hk => h k (by omega)
  rw [readPhdr, readPhdr, hword 0 (by decide), hword 4 (by decide), hword 8 (by decide), hword 16 (by decide),
    hword 20 (by decide), hword 24 (by decide), hword 28 (by decide)]

section Segment

variable {s t : UserSpace} {dev nr i size p : ℕ} {F : Bytes} {ph : Phdr}

/-- Where the pages of a segment lie. -/
theorem Phdr.Loadable.pages (h : ph.Loadable size) : ph.pages = (ph.memsz + 4095) / 4096 ∧
    ph.vaddr + ph.pages * pageSize ≤ userMmapAddr ∧ (∀ k < ph.memsz, ph.InPages ((ph.vaddr + k) / pageSize)) ∧
      ∀ a < userExecAddr + pageSize, ¬ph.InPages (a / pageSize) := by
  have hvaddr := h.vaddr
  have hfilesz := h.filesz
  have hlow := h.low
  have hhigh := h.high
  rw [userExecAddr_eq, pageSize_eq] at hlow
  rw [userMmapAddr_eq] at hhigh
  rw [pageSize_eq] at hvaddr
  have hpages : ph.pages = (ph.memsz + 4095) / 4096 := by
    rw [Phdr.pages, max_eq_left hfilesz, pageSize_eq, u32_of_lt (by omega)]
  simp only [InPages, OnPages, hpages, userMmapAddr_eq, userExecAddr_eq, pageSize_eq]
  exact ⟨trivial, by omega, fun k hk => by omega, fun a ha => by omega⟩

/-- A segment stays in memory as long as nothing is stored to its pages. -/
theorem InMemory.of_same (h : InMemory F s ph) (hok : ph.Loadable size) (hpage : ∀ q, ph.InPages q → t.page q = s.page q)
    (hmem : ∀ a, ph.InPages (a / pageSize) → t.mem a = s.mem a) : InMemory F t ph where
  file k hk := (hmem _ (hok.pages.2.2.1 k (hk.trans_le hok.filesz))).trans (h.file k hk)
  zero k hk hk' := (hmem _ (hok.pages.2.2.1 k hk')).trans (h.zero k hk hk')
  readonly hflags q hq := (hpage q hq).trans (h.readonly hflags q hq)

/-- **`load_segment`** puts a segment into memory, and stores nothing outside its pages. -/
theorem loadSegment_spec (h : Serves s.fs dev nr i F size) (hph : readPhdr (s.view p) = ph) (hok : ph.Loadable size)
    (hp : p + phdrSize ≤ userExecAddr + pageSize) :
    ∃ t, s.loadSegment i p = some t ∧ Serves t.fs dev nr i F size ∧ InMemory F t ph ∧ t.loaded = s.loaded ++ [p] ∧
      t.endAddr = max s.endAddr (ph.vaddr + ph.pages * pageSize) ∧ (∀ q, ¬ph.InPages q → t.page q = s.page q) ∧
        ∀ a, ¬ph.InPages (a / pageSize) → t.mem a = s.mem a := by
  obtain ⟨hpages, hend, hin, hout⟩ := hok.pages
  have hfilesz := hok.filesz
  -- the pages
  obtain ⟨page₁, hlink, hlinked, hsame₁⟩ := UserSpace.linkPages_spec ph.pages ph.vaddr (s := s) hok.vaddr
    ((Nat.le_add_right _ _).trans hok.low) hend
  have hrange : ∀ {u : UserSpace} {a n : ℕ}, u.page = page₁ → a + n ≤ ph.memsz → u.Linked (ph.vaddr + a) n := by
    intro u a n hu hn k hk
    rw [hu]
    refine hlinked _ ?_
    rw [Nat.add_assoc]
    exact hin (a + k) (by omega)
  -- the part from the file
  have hlinked₁ : UserSpace.Linked { s with page := page₁ } ph.vaddr ph.filesz := hrange (a := 0) rfl (by omega)
  obtain ⟨n, fs, hread, hfs, -⟩ := UserSpace.readTo_spec (s := { s with page := page₁ }) h hok.inFile hlinked₁
  simp only at hread
  generalize hmem₂ : (s.mem.copy ph.vaddr ph.filesz fun k => F (ph.offset + k)) = mem₂ at hread
  have hkeep₂ : ∀ a, ¬ph.InPages (a / pageSize) → mem₂ a = s.mem a := by
    intro a ha
    rw [← hmem₂]
    refine copy_of_notMem _ _ ?_
    by_contra hc
    exact ha (by rw [show a = ph.vaddr + (a - ph.vaddr) by omega]; exact hin _ (by omega))
  have hheader : ∀ {u : UserSpace}, (∀ a, ¬ph.InPages (a / pageSize) → u.mem a = s.mem a) → readPhdr (u.view p) = ph := by
    intro u hu
    rw [← hph]
    exact readPhdr_congr fun k hk => hu _ (hout _ (by omega))
  -- the part behind it
  obtain ⟨mem₃, hclear, hfile, hzero, hkeep₃⟩ : ∃ mem,
      UserSpace.clearRest ph ph.vaddr { s with page := page₁, mem := mem₂, fs := fs } =
        some { s with page := page₁, mem := mem, fs := fs } ∧
      (∀ k < ph.filesz, mem (ph.vaddr + k) = F (ph.offset + k)) ∧
      (∀ k, ph.filesz ≤ k → k < ph.memsz → mem (ph.vaddr + k) = 0#8) ∧
        ∀ a, ¬ph.InPages (a / pageSize) → mem a = s.mem a := by
    have hfile₂ : ∀ k < ph.filesz, mem₂ (ph.vaddr + k) = F (ph.offset + k) := by
      intro k hk
      rw [← hmem₂, copy_of_mem _ _ (by omega) (by omega), Nat.add_sub_cancel_left]
    by_cases hlt : ph.filesz < ph.memsz
    · refine ⟨mem₂.fill (ph.vaddr + ph.filesz) (ph.memsz - ph.filesz) 0#8, ?_, fun k hk => ?_, fun k hk hk' => ?_,
        fun a ha => ?_⟩
      · rw [UserSpace.clearRest, if_pos hlt, UserSpace.clear, assert_pos (hrange rfl (by omega))]
        rfl
      · rw [fill_of_notMem _ _ (by omega)]
        exact hfile₂ k hk
      · exact fill_of_mem _ _ (by omega) (by omega)
      · rw [fill_of_notMem _ _ ?_]
        · exact hkeep₂ a ha
        · by_contra hc
          exact ha (by rw [show a = ph.vaddr + (a - ph.vaddr) by omega]; exact hin _ (by omega))
    · exact ⟨mem₂, if_neg hlt, hfile₂, fun k hk hk' => absurd (hk.trans_lt hk') hlt, hkeep₂⟩
  -- the right to write
  obtain ⟨page₄, hprotect, hreadonly, hsame₄⟩ : ∃ page,
      UserSpace.protect ph ph.vaddr ph.pages { s with page := page₁, mem := mem₃, fs := fs } =
        some { s with page := page, mem := mem₃, fs := fs } ∧
      (ph.flags &&& pfW = 0 → ∀ q, ph.InPages q → page q = some ⟨false, true⟩) ∧
        ∀ q, ¬ph.InPages q → page q = s.page q := by
    by_cases hflags : ph.flags &&& pfW = 0
    · obtain ⟨page, hrun, hset, hsame⟩ := UserSpace.protectPages_spec ph.pages ph.vaddr
        (s := { s with page := page₁, mem := mem₃, fs := fs }) hok.vaddr hend hlinked
      exact ⟨page, by rw [UserSpace.protect, if_pos hflags, hrun], fun _ => hset, fun q hq => (hsame q hq).trans (hsame₁ q hq)⟩
    · exact ⟨page₁, if_neg hflags, fun hc => absurd hc hflags, hsame₁⟩
  have hu32 : u32 (ph.vaddr + ph.pages * pageSize) = ph.vaddr + ph.pages * pageSize :=
    u32_of_lt (by rw [userMmapAddr_eq] at hend; omega)
  -- `text` and `data`
  obtain ⟨t, ht, hmem, hpage, htfs, htend, htloaded⟩ : ∃ t : UserSpace,
      UserSpace.note ph ph.vaddr { s with page := page₄, mem := mem₃, fs := fs } = t ∧ t.mem = mem₃ ∧ t.page = page₄ ∧
        t.fs = fs ∧ t.endAddr = s.endAddr ∧ t.loaded = s.loaded := by
    refine ⟨_, rfl, ?_⟩
    rw [UserSpace.note]
    split
    · exact ⟨rfl, rfl, rfl, rfl, rfl⟩
    · split
      · exact ⟨rfl, rfl, rfl, rfl, rfl⟩
      · exact ⟨rfl, rfl, rfl, rfl, rfl⟩
  have halign : ph.align = 0x1000 := hok.align.trans pageSize_eq
  have hmask : ph.vaddr &&& 0xfff = 0 := (Nat.and_two_pow_sub_one_eq_mod ph.vaddr 12).trans hok.vaddr
  refine ⟨{ t with endAddr := max t.endAddr (ph.vaddr + ph.pages * pageSize), loaded := t.loaded ++ [p] }, ?_,
    htfs ▸ hfs, ⟨hmem ▸ hfile, hmem ▸ hzero, hpage ▸ hreadonly⟩, by rw [htloaded], by rw [htend], hpage ▸ hsame₄,
    hmem ▸ hkeep₃⟩
  rw [UserSpace.loadSegment, hph]
  simp only [assert_pos halign, assert_pos hmask, Option.bind_eq_bind, Option.bind_some, hlink, hread,
    hheader (u := { s with page := page₁, mem := mem₂, fs := fs }) hkeep₂, hclear,
    hheader (u := { s with page := page₁, mem := mem₃, fs := fs }) hkeep₃, hprotect, ht, hu32, Option.pure_def]

end Segment

/-! ### The loop -/

/-- The headers are in memory. -/
structure Headers (F : Bytes) (t : UserSpace) : Prop where
  /-- The header of the file. -/
  ehdr : ∀ k < ehdrSize, t.mem (userExecAddr + k) = F k
  /-- The program headers. -/
  phdr : ∀ k < phdrSize * phnum F, t.mem (userExecAddr + ehdrSize + k) = F (phoff F + k)

/-- **The first `m` program headers have been gone over**, all of them of segments to be loaded. -/
structure Upto (F : Bytes) (size dev nr i : ℕ) (s : UserSpace) (m : ℕ) (t : UserSpace) : Prop where
  /-- The file. -/
  serves : Serves t.fs dev nr i F size
  /-- The headers. -/
  headers : Headers F t
  /-- There are so many. -/
  le : m ≤ phnum F
  /-- Their type. -/
  load : ∀ j < m, (phdrAt F j).type = ptLoad
  /-- The calls of `load_segment`. -/
  calls : t.loaded = s.loaded ++ (List.range m).map phdrAddr
  /-- The segments. -/
  segment : ∀ j < m, InMemory F t (phdrAt F j)
  /-- The rest of memory. -/
  other : ∀ q, q ≠ userExecAddr / pageSize → (∀ j < m, ¬(phdrAt F j).InPages q) →
    t.page q = s.page q ∧ ∀ a, a / pageSize = q → t.mem a = s.mem a
  /-- The end of the segments. -/
  le_end : ∀ j < m, (phdrAt F j).vaddr + (phdrAt F j).pages * pageSize ≤ t.endAddr
  /-- It is one of theirs. -/
  end_eq : t.endAddr = s.endAddr ∨ ∃ j < m, t.endAddr = (phdrAt F j).vaddr + (phdrAt F j).pages * pageSize

section Loop

variable {s t : UserSpace} {dev nr i size m : ℕ} {F : Bytes}

theorem phnum_congr {d d' : Bytes} (h : ∀ k < ehdrSize, d k = d' k) : phnum d = phnum d' :=
  getU16_congr (h 44 (by decide)) (h 45 (by decide))

/-- Where a program header lies. -/
theorem Program.phdrAddr_le (h : Program F size) {j : ℕ} (hj : j < phnum F) :
    phdrAddr j + phdrSize ≤ userExecAddr + pageSize := by
  have htable := h.table
  rw [ehdrSize, phdrSize] at htable
  rw [phdrAddr, ehdrSize, phdrSize]
  omega

theorem Headers.phnum_eq (h : Headers F t) : phnum (t.view userExecAddr) = phnum F := phnum_congr h.ehdr

theorem Headers.readPhdr_eq (h : Headers F t) {j : ℕ} (hj : j < phnum F) :
    readPhdr (t.view (phdrAddr j)) = phdrAt F j := by
  refine readPhdr_congr fun k hk => ?_
  rw [phdrSize] at hk
  have hin := h.phdr (phdrSize * j + k) (by rw [phdrSize]; omega)
  rw [UserSpace.view, phdrAddr, Nat.add_assoc _ (phdrSize * j), hin, Nat.add_assoc]

/-- **A segment more.** -/
theorem Upto.step (h : Upto F size dev nr i s m t) (hprogram : Program F size) (hm : m < phnum F)
    (hload : (phdrAt F m).type = ptLoad) :
    ∃ u, t.loadSegment i (phdrAddr m) = some u ∧ Upto F size dev nr i s (m + 1) u := by
  have hok := hprogram.segment m hm hload
  obtain ⟨-, -, -, hheaders⟩ := hok.pages
  obtain ⟨u, hrun, hserves, hsegment, hcalls, hend, hpage, hmem⟩ :=
    loadSegment_spec h.serves (h.headers.readPhdr_eq hm) hok (hprogram.phdrAddr_le hm)
  have htable := hprogram.table
  refine ⟨u, hrun, hserves, ⟨fun k hk => ?_, fun k hk => ?_⟩, hm, fun j hj => ?_, ?_, fun j hj => ?_, fun q hfirst hq => ?_,
    fun j hj => ?_, ?_⟩
  · rw [hmem _ (hheaders _ (by omega))]
    exact h.headers.ehdr k hk
  · rw [hmem _ (hheaders _ (by omega))]
    exact h.headers.phdr k hk
  · rcases Nat.lt_succ_iff_lt_or_eq.mp hj with hj | rfl
    · exact h.load j hj
    · exact hload
  · rw [hcalls, h.calls, List.range_succ, List.map_append, List.map_singleton, List.append_assoc]
  · rcases Nat.lt_succ_iff_lt_or_eq.mp hj with hj | rfl
    · -- an earlier segment shares no page with this one
      have hapart := hprogram.disjoint j (hj.trans hm) m hm hj.ne (h.load j hj) hload
      exact (h.segment j hj).of_same (hprogram.segment j (hj.trans hm) (h.load j hj))
        (fun q hq => hpage q (hapart q hq)) fun a ha => hmem a (hapart _ ha)
    · exact hsegment
  · have hlast := hq m (Nat.lt_succ_self m)
    obtain ⟨hpage', hmem'⟩ := h.other q hfirst fun j hj => hq j (hj.trans (Nat.lt_succ_self m))
    refine ⟨(hpage q hlast).trans hpage', fun a ha => (hmem a (ha ▸ hlast)).trans (hmem' a ha)⟩
  · rw [hend]
    rcases Nat.lt_succ_iff_lt_or_eq.mp hj with hj | rfl
    · exact (h.le_end j hj).trans (le_max_left _ _)
    · exact le_max_right _ _
  · rw [hend]
    rcases le_total t.endAddr ((phdrAt F m).vaddr + (phdrAt F m).pages * pageSize) with hle | hle
    · exact Or.inr ⟨m, Nat.lt_succ_self m, max_eq_right hle⟩
    · rw [max_eq_left hle]
      exact h.end_eq.imp id fun ⟨j, hj, heq⟩ => ⟨j, hj.trans (Nat.lt_succ_self m), heq⟩

/-- **The loop stays at a header of another type**, as often as it still goes around. -/
theorem loadLoop_stays {ptr : ℕ} (hother : (readPhdr (t.view ptr)).type ≠ ptLoad) :
    ∀ (fuel n : ℕ), phnum (t.view userExecAddr) ≤ fuel + n → t.loadLoop i (fuel + 1) n ptr = some t := by
  intro fuel
  induction fuel with
  | zero =>
    intro n hn
    rw [UserSpace.loadLoop, if_neg (by omega)]
  | succ fuel ih =>
    intro n hn
    rw [UserSpace.loadLoop, if_pos hother]
    split
    · exact ih (n + 1) (by omega)
    · rfl

/-- **The loop** loads segments as far as the first header of another type. -/
theorem loadLoop_spec (hprogram : Program F size) : ∀ (left m fuel : ℕ) {t : UserSpace}, m + left = phnum F →
    left ≤ fuel → Upto F size dev nr i s m t →
      ∃ u n, t.loadLoop i (fuel + 1) m (phdrAddr m) = some u ∧ Upto F size dev nr i s n u ∧
        (n < phnum F → (phdrAt F n).type ≠ ptLoad) := by
  intro left
  induction left with
  | zero =>
    intro m fuel t hm _ h
    refine ⟨t, m, ?_, h, fun hlt => absurd hlt (by omega)⟩
    rw [UserSpace.loadLoop, if_neg (by rw [h.headers.phnum_eq]; omega)]
  | succ left ih =>
    intro m fuel t hm hfuel h
    have hlt : m < phnum F := by omega
    by_cases hload : (phdrAt F m).type = ptLoad
    · obtain ⟨fuel, rfl⟩ : ∃ k, fuel = k + 1 := Nat.exists_eq_succ_of_ne_zero (by omega)
      obtain ⟨u, hsegment, hu⟩ := h.step hprogram hlt hload
      obtain ⟨v, n, hrest, hv, hstop⟩ := ih (m + 1) fuel (by omega) (by omega) hu
      refine ⟨v, n, ?_, hv, hstop⟩
      have hnext : phdrAddr m + phdrSize = phdrAddr (m + 1) := by rw [phdrAddr, phdrAddr, Nat.mul_succ, Nat.add_assoc]
      rw [UserSpace.loadLoop, if_pos (by rw [h.headers.phnum_eq]; exact hlt), h.headers.readPhdr_eq hlt,
        if_neg (not_not.mpr hload), hsegment, Option.bind_eq_bind, Option.bind_some, hnext, hrest]
    · refine ⟨t, m, ?_, h, fun _ => hload⟩
      exact loadLoop_stays (by rw [h.headers.readPhdr_eq hlt]; exact hload) fuel m
        (by rw [h.headers.phnum_eq]; omega)

end Loop

/-! ### The program is loaded -/

section Program

variable {s : UserSpace} {dev nr i size : ℕ} {F : Bytes}

theorem elfValidate_congr {d d' : Bytes} (h : ∀ k < ehdrSize, d k = d' k) : elfValidate d = elfValidate d' := by
  have hmagic : (List.range 7).map d = (List.range 7).map d' :=
    List.map_congr_left fun k hk => h k ((List.mem_range.mp hk).trans (by decide))
  rw [elfValidate, elfValidate, hmagic, getU16_congr (h 16 (by decide)) (h 17 (by decide)),
    getU16_congr (h 18 (by decide)) (h 19 (by decide)), getU16_congr (h 42 (by decide)) (h 43 (by decide)),
    getU32_congr fun k _ hk => h k (hk.trans (by decide))]

/-- **`load_elf`** goes over the headers as far as the first one of another type. -/
theorem loadElf_spec (hprogram : Program F size) (h : Serves s.fs dev nr i F size) :
    ∃ t m, s.loadElf i = some (entry F, t) ∧ Upto F size dev nr i s m t ∧
      (m < phnum F → (phdrAt F m).type ≠ ptLoad) := by
  have htable := hprogram.table
  rw [ehdrSize, phdrSize, pageSize_eq] at htable
  -- the page of the headers
  have hfirst : userExecAddr % pageSize = 0 := by rw [userExecAddr_eq, pageSize_eq]
  obtain ⟨page, hlink, hpage, hsame⟩ := UserSpace.linkPage_spec (s := s) hfirst
  have hlinked : ∀ {u : UserSpace} {a n : ℕ}, u.page = page → a + n ≤ 4096 → u.Linked (userExecAddr + a) n := by
    intro u a n hu hn k hk
    rw [hu, show (userExecAddr + a + k) / pageSize = userExecAddr / pageSize by rw [userExecAddr_eq, pageSize_eq]; omega]
    exact hpage
  -- the header
  have hlinked₁ : UserSpace.Linked { s with page := page } userExecAddr ehdrSize := hlinked (a := 0) rfl (by decide)
  have hheader : 0 + ehdrSize ≤ size := by
    rw [Nat.zero_add]
    exact hprogram.header
  obtain ⟨n₁, fs₁, hread₁, hfs₁, hn₁⟩ := UserSpace.readTo_spec (s := { s with page := page }) h hheader hlinked₁
  obtain rfl := hn₁ (by decide)
  simp only [Nat.zero_add] at hread₁
  generalize hmem₁ : (s.mem.copy userExecAddr ehdrSize fun k => F k) = mem₁ at hread₁
  have hehdr₁ : ∀ k < ehdrSize, mem₁ (userExecAddr + k) = F k := by
    intro k hk
    rw [← hmem₁, copy_of_mem _ _ (by omega) (by omega), Nat.add_sub_cancel_left]
  -- the program headers
  have hvalid : elfValidate (fun k => mem₁ (userExecAddr + k)) = true :=
    (elfValidate_congr hehdr₁).trans hprogram.valid
  have hphnum : phnum (fun k => mem₁ (userExecAddr + k)) = phnum F := phnum_congr hehdr₁
  have hphoff : phoff (fun k => mem₁ (userExecAddr + k)) = phoff F :=
    getU32_congr fun k _ hk => hehdr₁ k (hk.trans (by decide))
  have hphentsize : phentsize (fun k => mem₁ (userExecAddr + k)) = phdrSize := by
    rw [elfValidate, decide_eq_true_eq] at hvalid
    exact hvalid.2.2.2.2
  have hlinked₂ : UserSpace.Linked { s with page := page, mem := mem₁, fs := fs₁ } (userExecAddr + ehdrSize)
      (phnum F * phdrSize) := hlinked rfl (by rw [ehdrSize, phdrSize]; omega)
  have hinFile : phoff F + phnum F * phdrSize ≤ size := by
    rw [Nat.mul_comm]
    exact hprogram.inFile
  obtain ⟨n₂, fs₂, hread₂, hfs₂, -⟩ :=
    UserSpace.readTo_spec (s := { s with page := page, mem := mem₁, fs := fs₁ }) hfs₁ hinFile hlinked₂
  simp only at hread₂
  generalize hmem₂ :
    (mem₁.copy (userExecAddr + ehdrSize) (phnum F * phdrSize) fun k => F (phoff F + k)) = mem₂ at hread₂
  have hheaders : Headers F { s with page := page, mem := mem₂, fs := fs₂ } := by
    refine ⟨fun k hk => ?_, fun k hk => ?_⟩
    · change mem₂ (userExecAddr + k) = F k
      rw [← hmem₂, copy_of_notMem _ _ (Or.inl (by omega))]
      exact hehdr₁ k hk
    · change mem₂ (userExecAddr + ehdrSize + k) = _
      rw [← hmem₂, copy_of_mem _ _ (by omega) (by rw [Nat.mul_comm (phnum F)]; omega), Nat.add_sub_cancel_left]
  have hkeep : ∀ a, a / pageSize ≠ userExecAddr / pageSize → mem₂ a = s.mem a := by
    intro a ha
    rw [userExecAddr_eq, pageSize_eq] at ha
    rw [← hmem₂, copy_of_notMem _ _ ?_, ← hmem₁, copy_of_notMem _ _ ?_]
    · rw [ehdrSize, userExecAddr_eq]
      omega
    · rw [ehdrSize, phdrSize, userExecAddr_eq]
      omega
  have hstart : Upto F size dev nr i s 0 { s with page := page, mem := mem₂, fs := fs₂ } := by
    refine ⟨hfs₂, hheaders, Nat.zero_le _, fun j hj => absurd hj (Nat.not_lt_zero j), ?_,
      fun j hj => absurd hj (Nat.not_lt_zero j), fun q hq _ => ⟨hsame q hq, fun a ha => hkeep a (ha ▸ hq)⟩,
      fun j hj => absurd hj (Nat.not_lt_zero j), Or.inl rfl⟩
    rw [List.range_zero, List.map_nil, List.append_nil]
  -- the loop
  have hrounds : phnum F ≤ 65535 := Nat.le_of_lt_succ (getU16_lt F 44)
  obtain ⟨t, m, hloop, ht, hstop⟩ := loadLoop_spec hprogram (phnum F) 0 65535 (Nat.zero_add _) hrounds hstart
  refine ⟨t, m, ?_, ht, hstop⟩
  have hentry : entry (t.view userExecAddr) = entry F :=
    getU32_congr fun k _ hk => ht.headers.ehdr k (hk.trans (by decide))
  have hview₁ : UserSpace.view { s with page := page, mem := mem₁, fs := fs₁ } userExecAddr =
      fun k => mem₁ (userExecAddr + k) := rfl
  rw [UserSpace.loadElf, hlink]
  simp only [Option.bind_eq_bind, Option.bind_some, hread₁, assert_pos, hview₁, hvalid, Bool.true_eq_false, reduceIte,
    hphnum, hphoff, hphentsize, hread₂, Option.pure_def]
  rw [show userExecAddr + ehdrSize = phdrAddr 0 from rfl, hloop, Option.bind_some, hentry]

/-- The numbers below `n` that are below `m`. -/
theorem filter_range {n m : ℕ} (hm : m ≤ n) {p : ℕ → Bool} (hp : ∀ j < n, p j = true ↔ j < m) :
    (List.range n).filter p = List.range m := by
  obtain ⟨d, rfl⟩ := Nat.exists_eq_add_of_le hm
  rw [List.range_add, List.filter_append, List.filter_eq_self.mpr, List.filter_eq_nil_iff.mpr, List.append_nil]
  · intro j hj
    obtain ⟨k, hk, rfl⟩ := List.mem_map.mp hj
    have hlt := List.mem_range.mp hk
    rw [hp _ (by omega)]
    omega
  · intro j hj
    have hlt := List.mem_range.mp hj
    exact (hp j (by omega)).mpr hlt

/-- Where all headers behind the first ones are of other types, the segments have been loaded. -/
theorem Upto.loaded {m : ℕ} {t : UserSpace} (h : Upto F size dev nr i s m t) (hprogram : Program F size)
    (hend : s.endAddr = userExecAddr) (hall : ∀ j < phnum F, (phdrAt F j).type = ptLoad → j < m) : Loaded F s t := by
  have hiff : ∀ j < phnum F, (phdrAt F j).type = ptLoad ↔ j < m := fun j hj => ⟨hall j hj, h.load j⟩
  refine ⟨?_, fun j hj hload => h.segment j (hall j hj hload), fun q hq hout => ?_,
    fun j hj hload => h.le_end j (hall j hj hload), fun hsome => ?_⟩
  · rw [h.calls, filter_range h.le fun j hj => by rw [decide_eq_true_eq]; exact hiff j hj]
  · exact h.other q hq fun j hj => hout j (hj.trans_le h.le) (h.load j hj)
  · obtain ⟨j, hj, hload⟩ := hsome
    rcases h.end_eq with heq | ⟨k, hk, heq⟩
    · -- the segments lie behind the first page
      have hle := h.le_end j (hall j hj hload)
      have hlow := (hprogram.segment j hj hload).low
      rw [heq, hend] at hle
      rw [pageSize_eq] at hle hlow
      omega
    · exact ⟨k, hk.trans_le h.le, h.load k hk, heq⟩

/-- **A program is loaded** exactly when no header of a segment to be loaded stands behind one of another type. -/
theorem loadElf_iff (hprogram : Program F size) (h : Serves s.fs dev nr i F size) (hend : s.endAddr = userExecAddr) :
    (∃ t, s.loadElf i = some (entry F, t) ∧ Loaded F s t) ↔
      ∀ j k, j < k → k < phnum F → (phdrAt F k).type = ptLoad → (phdrAt F j).type = ptLoad := by
  obtain ⟨t, m, hrun, ht, hstop⟩ := loadElf_spec hprogram h
  constructor
  · rintro ⟨u, hrun', hloaded⟩ j k hjk hk hload
    obtain rfl := (Prod.mk.inj (Option.some.inj (hrun.symm.trans hrun'))).2
    have hcalls := List.append_cancel_left (ht.calls.symm.trans hloaded.calls)
    have hmem : phdrAddr k ∈ (List.range m).map phdrAddr := by
      rw [hcalls]
      exact List.mem_map_of_mem (List.mem_filter.mpr ⟨List.mem_range.mpr hk, decide_eq_true hload⟩)
    obtain ⟨l, hl, heq⟩ := List.mem_map.mp hmem
    have hkm : k < m := by
      have hlt := List.mem_range.mp hl
      rw [phdrAddr, phdrAddr, phdrSize] at heq
      omega
    exact ht.load j (hjk.trans hkm)
  · intro hfront
    refine ⟨t, hrun, ht.loaded hprogram hend fun j hj hload => ?_⟩
    by_contra hle
    rcases (Nat.le_of_not_lt hle).eq_or_lt with rfl | hlt
    · exact hstop hj hload
    · exact hstop (hlt.trans hj) (hfront m j hlt hj hload)

end Program

/-! ### Two programs -/

/-- A file with two program headers, for two pages of the same four bytes; `first` is the type of the first one. -/
def elfImage (first : ℕ) : Bytes := fun o =>
  (Bytes.words [0x464c457f, 0x10101, 0, 0, 0x30002, 1, 0x1001000, 52, 0, 0, 0x200034, 2, 0,
    first, 116, 0x1001000, 0, 4, 8, 5, 0x1000,
    1, 116, 0x1002000, 0, 4, 8, 5, 0x1000,
    0x90909090]).getD o 0#8

/-- A device with that file. -/
def elfFs (first : ℕ) : Fs := ((fileFs (elfImage first)).setSize 0 120).setZone 0 0 12

/-- A task without pages. -/
def elfSpace (first : ℕ) : UserSpace := ⟨fun _ => 0#8, fun _ => none, 0, 0, userExecAddr, elfFs first, []⟩

theorem elfImage_program : ∀ first ∈ [1, 4], Program (elfImage first) 120 := by
  have hfacts : ∀ first ∈ [1, 4], elfValidate (elfImage first) = true ∧ phnum (elfImage first) = 2 ∧
      phoff (elfImage first) = 52 ∧ ∀ j < 2, (phdrAt (elfImage first) j).align = pageSize ∧
        (phdrAt (elfImage first) j).vaddr = 0x1001000 + 0x1000 * j ∧ (phdrAt (elfImage first) j).filesz = 4 ∧
        (phdrAt (elfImage first) j).memsz = 8 ∧ (phdrAt (elfImage first) j).offset = 116 ∧
        (phdrAt (elfImage first) j).pages = 1 := by
    decide +kernel
  intro first hfirst
  obtain ⟨hvalid, hphnum, hphoff, hphdr⟩ := hfacts first hfirst
  refine ⟨by decide, hvalid, by rw [hphnum]; decide, by rw [hphnum, hphoff]; decide, fun j hj _ => ?_,
    fun j hj k hk hne _ _ q hq hq' => ?_⟩
  · rw [hphnum] at hj
    obtain ⟨halign, hvaddr, hfilesz, hmemsz, hoffset, -⟩ := hphdr j hj
    refine ⟨halign, ?_, ?_, ?_, ?_, ?_⟩
    · rw [hvaddr, pageSize_eq]
      omega
    · rw [hfilesz, hmemsz]
      decide
    · rw [hfilesz, hoffset]
    · rw [hvaddr, userExecAddr_eq, pageSize_eq]
      omega
    · rw [hvaddr, hmemsz, userMmapAddr_eq]
      omega
  · rw [hphnum] at hj hk
    obtain ⟨-, hvaddr, -, -, -, hpages⟩ := hphdr j hj
    obtain ⟨-, hvaddr', -, -, -, hpages'⟩ := hphdr k hk
    rw [Phdr.InPages, OnPages, hvaddr, hpages, pageSize_eq] at hq
    rw [Phdr.InPages, OnPages, hvaddr', hpages', pageSize_eq] at hq'
    omega

theorem elfFs_serves : ∀ first ∈ [1, 4], Serves (elfFs first) 1 2 0 (elfImage first) 120 := by
  have hfacts : ∀ first ∈ [1, 4], (2 ≤ ((elfFs first).superDesc 1).inodes ∧
      ((elfFs first).inodeTable 0).buf = inodeBlock ((elfFs first).superDesc 1) 2 ∧
      isFile ((elfFs first).inodeDesc 0).mode = true ∧ ((elfFs first).inodeDesc 0).size = 120 ∧
      (elfFs first).zoneAt 1 2 (bmapSlot 0) ≠ 0) ∧ ∀ o < 120, (elfFs first).fileByte 1 2 o = elfImage first o := by
    decide +kernel
  intro first hfirst
  obtain ⟨⟨hinodes, hbuf, hisFile, hsize, hzone⟩, hbyte⟩ := hfacts first hfirst
  refine ⟨⟨by decide, hinodes, rfl, rfl, hbuf, rfl⟩, hisFile, hsize, ?_, fun o ho => ?_, hbyte⟩
  · rw [totalBlock_eq, blockSize_eq]
    decide
  · rw [Fs.HasBlock, show o / 1024 = 0 by omega]
    exact hzone

/-- Two segments. -/
theorem loadElf_iff_two : (∃ t, (elfSpace 1).loadElf 0 = some (entry (elfImage 1), t) ∧
      Loaded (elfImage 1) (elfSpace 1) t) ↔
    ∀ j k, j < k → k < phnum (elfImage 1) → (phdrAt (elfImage 1) k).type = ptLoad →
      (phdrAt (elfImage 1) j).type = ptLoad :=
  loadElf_iff (elfImage_program 1 (by decide)) (elfFs_serves 1 (by decide)) rfl

/-- **A note in front of the segment**: `load_elf` loads nothing and returns the entry. -/
theorem loadElf_note : Program (elfImage 4) 120 ∧ Serves (elfSpace 4).fs 1 2 0 (elfImage 4) 120 ∧
    (∃ t, (elfSpace 4).loadElf 0 = some (entry (elfImage 4), t) ∧ t.loaded = []) ∧
      ¬∃ t, (elfSpace 4).loadElf 0 = some (entry (elfImage 4), t) ∧ Loaded (elfImage 4) (elfSpace 4) t := by
  have hprogram := elfImage_program 4 (by decide)
  have hserves := elfFs_serves 4 (by decide)
  obtain ⟨t, m, hrun, ht, -⟩ := loadElf_spec hprogram (s := elfSpace 4) hserves
  have htypes : (phdrAt (elfImage 4) 0).type ≠ ptLoad ∧
      ((List.range (phnum (elfImage 4))).filter fun j => (phdrAt (elfImage 4) j).type = ptLoad) = [1] := by
    decide +kernel
  obtain rfl : m = 0 := by
    by_contra hm
    exact htypes.1 (ht.load 0 (Nat.pos_of_ne_zero hm))
  refine ⟨hprogram, hserves, ⟨t, hrun, ht.calls⟩, ?_⟩
  rintro ⟨u, hrun', hloaded⟩
  obtain rfl := (Prod.mk.inj (Option.some.inj (hrun.symm.trans hrun'))).2
  have hcalls := ht.calls.symm.trans hloaded.calls
  rw [htypes.2] at hcalls
  exact absurd hcalls (by simp)

end Execve

end Onixs
