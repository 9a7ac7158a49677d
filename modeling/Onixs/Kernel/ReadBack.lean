import Onixs.Common.Amortized
import Onixs.Kernel.ByteFiles

/-!
# Reading back what has been written

A part of a file that a task has written is what every task reads there later, by any descriptor, until somebody writes
over it (`Onixs.filesRun_readBack`). Since files are sequences of bytes (`Onixs.filesRun_trace`) this is seen on the
sequences, where a write leaves every part apart from it alone.
-/

namespace Onixs

open Bytes Contents

/-- The bytes `new` stand in file `i` from position `o` on. -/
def ByteFiles.Stands (a : ByteFiles) (i o : ℕ) (new : List Byte) : Prop :=
  o + new.length ≤ (a.contents i).length ∧ slice (a.contents i) o new.length = new

/-- **A write over** the `n` bytes of file `i` from position `o` on. -/
def SeekOp.Overwrites {D : Type} (s : FileState D) (i o n : ℕ) : SeekOp D → Prop
  | write pid fd _ len => ∃ q ∈ s.opened pid fd, q.2 = i ∧ (s.procs.fileTable q.1).flags &&& 3 ≠ 0 ∧
      (s.procs.fileTable q.1).offset < o + n ∧ o < (s.procs.fileTable q.1).offset + len
  | _ => False

/-- The bytes that stand in file `i` from position `o` on, as the machine is seen. -/
structure FileState.Keeps {D : Type} (dr : Drivers D) (place : ℕ → ℕ × ℕ) (I : ℕ → Prop) (s : FileState D) (i o : ℕ)
    (new : List Byte) : Prop where
  /-- The files. -/
  whole : s.WholeFiles dr place I
  /-- What is seen of them. -/
  stands : ∃ a, ByteFiles.Shows place I s a ∧ a.Stands i o new

section Steps

variable {D : Type} {dr : Drivers D} {place : ℕ → ℕ × ℕ} {I : ℕ → Prop} {s t : FileState D} {a b : ByteFiles}
  {pid f i o n : ℕ} {fd : ℤ} {new : List Byte} {op : SeekOp D} {r : FileReply}

/-- Bytes that are written stand. -/
theorem stands_splice (hnew : new ≠ []) (hcontents : b.contents i = splice 0#8 (a.contents i) o new) :
    b.Stands i o new := by
  have hlength : new.length ≠ 0 := fun hc => hnew (List.eq_nil_of_length_eq_zero hc)
  refine ⟨?_, hcontents ▸ slice_splice 0#8 _ _ _⟩
  rw [hcontents, length_splice, if_neg hlength]
  omega

theorem ByteFiles.Stands.of_eq (h : a.Stands i o new) (hcontents : b.contents i = a.contents i) : b.Stands i o new := by
  rwa [ByteFiles.Stands, hcontents]

/-- Bytes apart from those that are written. -/
theorem ByteFiles.Stands.of_splice (h : a.Stands i o new) {new' : List Byte}
    (hcontents : b.contents i = splice 0#8 (a.contents i) n new') (hapart : o + new.length ≤ n ∨ n + new'.length ≤ o) :
    b.Stands i o new := by
  refine ⟨?_, ?_⟩ <;> rw [hcontents]
  · have hle := h.1
    rw [length_splice]
    split <;> omega
  · rw [slice_splice_of_disjoint 0#8 hapart h.1]
    exact h.2

/-- **A call that does not write over them** leaves them where they are. -/
theorem ByteFiles.Stands.step (h : a.Stands i o new) (ha : a.Shows place I s)
    (hover : ¬op.Overwrites s i o new.length) (hstep : ByteFiles.step a op = some (r, b)) : b.Stands i o new := by
  cases op with
  | lseek pid fd offset whence =>
    obtain ⟨q, -, hstep⟩ := Option.bind_eq_some_iff.mp hstep
    obtain ⟨_, -, hstep⟩ := Option.bind_eq_some_iff.mp hstep
    obtain ⟨-, rfl⟩ := Prod.mk.inj (Option.some.inj hstep)
    exact h
  | read pid fd buf len =>
    obtain ⟨q, -, hstep⟩ := Option.bind_eq_some_iff.mp hstep
    simp only at hstep
    split at hstep
    · obtain ⟨-, rfl⟩ := Prod.mk.inj (Option.some.inj hstep)
      exact h
    · split at hstep <;>
      · obtain ⟨-, rfl⟩ := Prod.mk.inj (Option.some.inj hstep)
        exact h
  | write pid fd buf len =>
    obtain ⟨⟨g, j⟩, hopen, hstep⟩ := Option.bind_eq_some_iff.mp hstep
    simp only at hstep
    split at hstep
    · obtain ⟨-, rfl⟩ := Prod.mk.inj (Option.some.inj hstep)
      exact h
    · next hflags =>
      obtain ⟨-, rfl⟩ := Prod.mk.inj (Option.some.inj hstep)
      by_cases hj : j = i
      · subst hj
        refine h.of_splice (Function.update_self ..) ?_
        rw [ha.opened] at hopen
        by_contra hc
        refine hover ⟨(g, j), hopen, rfl, ha.flags g ▸ hflags, ?_, ?_⟩ <;>
        · rw [← ha.offset g]
          rw [length_first] at hc
          omega
      · exact h.of_eq (Function.update_of_ne (Ne.symm hj) ..)
  | other next =>
    obtain ⟨-, rfl⟩ := Prod.mk.inj (Option.some.inj hstep)
    exact h

/-- A step that does not write over them. -/
theorem FileState.Keeps.step (h : s.Keeps dr place I i o new) (hkeeps : op.KeepsFiles place I s)
    (hgap : op.LeavesNoGap place s) (hover : ¬op.Overwrites s i o new.length) :
    ∃ r t, op.reply dr s = some (r, t) ∧ t.Keeps dr place I i o new := by
  obtain ⟨a, ha, hstands⟩ := h.stands
  obtain ⟨r, t, b, hreply, hstep, ht, hb⟩ := answered_step h.whole ha hkeeps hgap
  exact ⟨r, t, hreply, ht, b, hb, hstands.step ha hover hstep⟩

/-- **A write** makes them stand. -/
theorem keeps_of_write (h : s.WholeFiles dr place I) (hopen : s.opened pid fd = some (f, i))
    (hi : I i) (hflags : (s.procs.fileTable f).flags &&& 3 ≠ 0) {buf : Bytes} {len : ℕ} (hlen : len ≠ 0)
    (hgap : SeekOp.LeavesNoGap place s (.write pid fd buf len)) :
    ∃ t, SeekOp.reply dr s (.write pid fd buf len) = some (.number len, t) ∧
      t.Keeps dr place I i (s.procs.fileTable f).offset (buf.first len) := by
  have ha := FileState.shows_byteFiles place I s
  obtain ⟨r, t, b, hreply, hstep, ht, hb⟩ := answered_write h ha hopen hi buf (hgap (f, i) hopen)
  rw [ByteFiles.step_write (a := s.byteFiles place) hopen buf len hflags] at hstep
  obtain ⟨rfl, rfl⟩ := Prod.mk.inj (Option.some.inj hstep)
  refine ⟨t, hreply, ht, _, hb, stands_splice (a := s.byteFiles place) (fun hc => hlen ?_) (Function.update_self ..)⟩
  have hlength : (buf.first len).length = len := length_first
  rw [← hlength, hc, List.length_nil]

/-- **A read** of a part of them. -/
theorem FileState.Keeps.sysRead (h : s.Keeps dr place I i o new) (hi : I i) (hopen : s.opened pid fd = some (f, i))
    (hflags : (s.procs.fileTable f).flags &&& 3 ≠ 1) (hn : 0 < n) (hlo : o ≤ (s.procs.fileTable f).offset)
    (hhi : (s.procs.fileTable f).offset + n ≤ o + new.length) (buf : Bytes) :
    ∃ out t, s.sysRead dr pid fd buf n = some (n, out, t) ∧
      ∀ k < n, out k = new.getD ((s.procs.fileTable f).offset - o + k) 0#8 := by
  obtain ⟨a, ha, hle, hslice⟩ := h.stands
  obtain ⟨r, t, b, hreply, hstep, -⟩ := answered_read h.whole ha hopen hi buf n
  have hoffset := ha.offset f
  have hlength : (slice (a.contents i) (a.offset f) n).length = n := by
    rw [length_slice]
    omega
  rw [ByteFiles.step_read (ha.opened ▸ hopen) (ha.flags f ▸ hflags) (by omega) buf hlength] at hstep
  obtain ⟨rfl, -⟩ := Prod.mk.inj (Option.some.inj hstep)
  obtain ⟨⟨m, out, u⟩, hread, heq⟩ := Option.map_eq_some_iff.mp hreply
  obtain ⟨hm, hout⟩ := FileReply.bytes.inj (Prod.mk.inj heq).1
  refine ⟨out, u, by rw [hread, show m = n from hm], fun k hk => ?_⟩
  rw [show out = _ from hout, copy_of_mem _ _ (Nat.zero_le k) (by omega), Nat.sub_zero, getD_slice _ _ _ hk]
  have hget := getD_slice 0#8 (a.contents i) o
    (show (s.procs.fileTable f).offset - o + k < new.length by omega)
  rw [hslice] at hget
  rw [hget]
  congr 1
  omega

end Steps

/-- **Reading back**: what a task has written to a file stands there through every run of `sys_lseek`, `sys_read` and
`sys_write` of any tasks on any files in which nobody writes over it, among steps that leave the files as they are;
and behind the run every `sys_read` of a part of it, by any task and any descriptor, returns these bytes. -/
theorem filesRun_readBack {D : Type} (dr : Drivers D) (place : ℕ → ℕ × ℕ) (I : ℕ → Prop) (pid : ℕ) (fd : ℤ)
    (buf : Bytes) (len f i : ℕ) (ops : List (SeekOp D)) (s : FileState D)
    (hfiles : s.WholeFiles dr place I) (hopen : s.opened pid fd = some (f, i)) (hi : I i)
    (hflags : (s.procs.fileTable f).flags &&& 3 ≠ 0) (hlen : len ≠ 0)
    (hgap : SeekOp.LeavesNoGap place s (.write pid fd buf len))
    (hlegal : ∀ r u, SeekOp.reply dr s (.write pid fd buf len) = some (r, u) →
      Run.Along (fun s op => SeekOp.reply dr s op) (fun s' op => SeekOp.KeepsFiles place I s' op ∧
        SeekOp.LeavesNoGap place s' op ∧ ¬SeekOp.Overwrites s' i (s.procs.fileTable f).offset len op) u ops) :
    ∃ t, Run.exec (fun s op => SeekOp.reply dr s op) s (.write pid fd buf len :: ops) = some t ∧
      ∀ pid' fd' f' out n, t.opened pid' fd' = some (f', i) → (t.procs.fileTable f').flags &&& 3 ≠ 1 → 0 < n →
        (s.procs.fileTable f).offset ≤ (t.procs.fileTable f').offset →
        (t.procs.fileTable f').offset + n ≤ (s.procs.fileTable f).offset + len →
        ∃ out' u, t.sysRead dr pid' fd' out n = some (n, out', u) ∧
          ∀ k < n, out' k = buf ((t.procs.fileTable f').offset - (s.procs.fileTable f).offset + k) := by
  obtain ⟨u, hwrite, hu⟩ := keeps_of_write hfiles hopen hi hflags hlen hgap
  have hstep : ∀ s' op, s'.Keeps dr place I i (s.procs.fileTable f).offset (buf.first len) →
      (SeekOp.KeepsFiles place I s' op ∧ SeekOp.LeavesNoGap place s' op ∧
        ¬SeekOp.Overwrites s' i (s.procs.fileTable f).offset len op) → ∃ r t, SeekOp.reply dr s' op = some (r, t) ∧
          t.Keeps dr place I i (s.procs.fileTable f).offset (buf.first len) := by
    rintro s' op h ⟨hkeeps, hgap, hover⟩
    exact h.step hkeeps hgap (by rwa [length_first])
  obtain ⟨t, hexec⟩ := Run.exists_exec hstep ops u hu (hlegal _ u hwrite)
  have ht : t.Keeps dr place I i (s.procs.fileTable f).offset (buf.first len) := by
    refine Run.inv_of_exec (fun s' => s'.Keeps dr place I i (s.procs.fileTable f).offset (buf.first len))
      (fun s' op r t h hl hrun => ?_) ops u t hu (hlegal _ u hwrite) hexec
    obtain ⟨r', t', hrun', ht'⟩ := hstep s' op h hl
    obtain ⟨-, rfl⟩ := Prod.mk.inj (Option.some.inj (hrun.symm.trans hrun'))
    exact ht'
  refine ⟨t, Run.exec_cons.mpr ⟨_, u, hwrite, hexec⟩, fun pid' fd' f' out n hopen' hflags' hn hlo hhi => ?_⟩
  obtain ⟨out', v, hread, hout⟩ := ht.sysRead hi hopen' hflags' hn hlo (by rwa [length_first]) out
  refine ⟨out', v, hread, fun k hk => ?_⟩
  rw [hout k hk, getD_first (by omega)]

/-- The byte that is written to the empty file. -/
theorem filesRun_readBack_writeByte : ∃ t,
    Run.exec (fun s op => SeekOp.reply noDrivers s op) emptyFile [writeByte, .lseek 1 0 0 seekSet] = some t ∧
      ∀ pid' fd' f' out n, t.opened pid' fd' = some (f', 0) → (t.procs.fileTable f').flags &&& 3 ≠ 1 → 0 < n →
        0 ≤ (t.procs.fileTable f').offset → (t.procs.fileTable f').offset + n ≤ 0 + 1 →
        ∃ out' u, t.sysRead noDrivers pid' fd' out n = some (n, out', u) ∧
          ∀ k < n, out' k = (fun _ => 66#8) ((t.procs.fileTable f').offset - 0 + k) := by
  refine filesRun_readBack noDrivers (fun _ => (1, 2)) (· = 0) 1 0 (fun _ => 66#8) 1 0 0 [.lseek 1 0 0 seekSet]
    emptyFile wholeFiles_emptyFile opened_emptyFile rfl (by decide) Nat.one_ne_zero leavesNoGap_writeByte fun r u hwrite => ?_
  exact ⟨⟨(keepsFiles_seek hwrite).1, trivial, id⟩, fun _ _ _ => trivial⟩

end Onixs
