import Onixs.Fs.Super
import Onixs.Fs.WalkCounts

/-!
# Mounting

`put_super`, `sys_mount`, `sys_umount` and `sys_mkfs` of `fs/super.c`. Each of the calls has
one label `rollback` for all its failures, which gives back whatever the pointers hold there;
here it is a function of its own with the pointers as arguments. The use of a null pointer
has no value.

What a path is looked up in, the super blocks and the mounts, no look-up changes
(`Onixs.SameMounts`): it only moves counts of inodes and entries of the inode lists.
-/

namespace Onixs

/-- `ISBLK`. -/
def isBlk (mode : ℕ) : Bool := mode &&& 0o170000 == 0o060000

/-- `root`: `mount_root` takes the first entry of the empty table. -/
def root : ℕ := 0

/-! ### The functions -/

/-- Store `inode->mount`. -/
def Fs.setMount (s : Fs) (i dev : ℕ) : Fs := s.setInode i { s.inodeTable i with mount := dev }

/-- Store `sb->iroot`. -/
def Fs.setIroot (s : Fs) (k : ℕ) (i : Option ℕ) : Fs := s.setSuper k { s.superTable k with iroot := i }

/-- Store `sb->imount`. -/
def Fs.setImount (s : Fs) (k : ℕ) (i : Option ℕ) : Fs := s.setSuper k { s.superTable k with imount := i }

/-- `put_super`. -/
def putSuper (s : Fs) (k : ℕ) : Option Fs := do
  let sb := s.superTable k
  assert (0 < sb.count)
  let s := s.setSuper k { sb with count := sb.count - 1 }
  if sb.count - 1 ≠ 0 then
    return s
  let s := s.setSuper k { s.superTable k with dev := EOF }
  let s ← iputOpt s sb.imount
  iputOpt s sb.iroot

/-- `put_super`, which does nothing with a null pointer. -/
def putSuperOpt (s : Fs) : Option ℕ → Option Fs
  | none => some s
  | some k => putSuper s k

/-- The label `rollback` of `sys_mount`. -/
def mountRollback (s : Fs) (sb devinode dirinode : Option ℕ) : Option (ℤ × Fs) := do
  let s ← putSuperOpt s sb
  let s ← iputOpt s devinode
  let s ← iputOpt s dirinode
  return (-1, s)

/-- `sys_mount` behind the tests of the directory. -/
def mountDevice (s : Fs) (devinode dirinode dev : ℕ) : Option (ℤ × Fs) := do
  let (sb, s) ← readSuper s dev
  if (s.superTable sb).imount.isSome then
    mountRollback s (some sb) (some devinode) (some dirinode)
  else
    let (iroot, s) ← iget s dev 1
    let s := (s.setIroot sb (some iroot)).setImount sb (some dirinode)
    let s := s.setMount dirinode dev
    let s ← iput s devinode
    return (0, s)

/-- `sys_mount`. The test after the second look-up is one of the path, `if(!dirname)`, so that a
directory that is not there goes on to `dirinode->desc`. -/
def sysMount (s : Fs) (devname dirname : CStr) : Option (ℤ × Fs) := do
  let (devinode, s) ← namei s devname
  match devinode with
  | none => mountRollback s none none none
  | some devinode =>
      if isBlk (s.inodeDesc devinode).mode = false then
        mountRollback s none (some devinode) none
      else
        let dev := (s.inodeDesc devinode).zone 0
        let (dirinode, s) ← namei s dirname
        let dirinode ← dirinode
        if isDir (s.inodeDesc dirinode).mode = false then
          mountRollback s none (some devinode) (some dirinode)
        else if (s.inodeTable dirinode).count ≠ 1 ∨ (s.inodeTable dirinode).mount ≠ 0 then
          mountRollback s none (some devinode) (some dirinode)
        else
          mountDevice s devinode dirinode dev

/-- The label `rollback` of `sys_umount`, with the value of `ret`. -/
def umountRollback (s : Fs) (sb inode : Option ℕ) (ret : ℤ) : Option (ℤ × Fs) := do
  let s ← putSuperOpt s sb
  let s ← iputOpt s inode
  return (ret, s)

/-- The device `sys_umount` is about: the one a device file stands for, or the one the root directory
is on. -/
def umountDev (s : Fs) (inode : ℕ) : ℕ :=
  if isBlk (s.inodeDesc inode).mode then (s.inodeDesc inode).zone 0 else (s.inodeTable inode).dev

/-- The tests of `sys_umount` in front of `get_super`. -/
def umountTarget (s : Fs) (inode : ℕ) : Bool :=
  (isBlk (s.inodeDesc inode).mode || (s.inodeTable inode).nr == 1) &&
    (s.superTable root).imount != some inode

/-- `sys_umount` from `get_super` on. -/
def umountSuper (s : Fs) (inode : ℕ) : Option (ℤ × Fs) := do
  let sb ← s.getSuper (umountDev s inode)
  match (s.superTable sb).imount with
  | none => umountRollback s (some sb) (some inode) (-1)
  | some imount =>
      if 1 < (s.superTable sb).inodeList.length then
        umountRollback s (some sb) (some inode) (-1)
      else
        let s ← iputOpt s (s.superTable sb).iroot
        let s := s.setIroot sb none
        let s := s.setMount imount 0
        let s ← iput s imount
        let s := s.setImount sb none
        umountRollback s (some sb) (some inode) 0

/-- `sys_umount`. -/
def sysUmount (s : Fs) (target : CStr) : Option (ℤ × Fs) := do
  let (inode, s) ← namei s target
  match inode with
  | none => umountRollback s none none (-1)
  | some inode =>
      if umountTarget s inode then umountSuper s inode
      else umountRollback s none (some inode) (-1)

/-- `sys_mkfs`, where `sectors` says which size a device has. What it returns is what `devmkfs` leaves
in a register. -/
def sysMkfs (sectors : ℕ → Option ℕ) (s : Fs) (devname : CStr) (icount : ℕ) : Option Fs := do
  let (inode, s) ← namei s devname
  match inode with
  | none => return s
  | some inode =>
      if isBlk (s.inodeDesc inode).mode = false then
        iput s inode
      else
        let dev := (s.inodeDesc inode).zone 0
        assert (dev ≠ 0)
        let sectors ← sectors dev
        let s ← devmkfs s dev sectors icount
        iput s inode

/-! ### What a look-up leaves alone -/

/-- What `get_super`, `read_super` and `put_super` work on. -/
def SuperBlock.state (sb : SuperBlock) : ℕ × ℕ × Option ℕ × Option ℕ :=
  (sb.dev, sb.count, sb.iroot, sb.imount)

/-- **The super blocks and the mounts are the same**, and the running task. -/
structure SameMounts (s t : Fs) : Prop where
  /-- The super blocks. -/
  supers : ∀ k, (t.superTable k).state = (s.superTable k).state
  /-- The mounts. -/
  mount : ∀ j, (t.inodeTable j).mount = (s.inodeTable j).mount
  /-- The running task. -/
  task : t.task = s.task

namespace SameMounts

variable {s t u : Fs} {i dir : ℕ} {name : CStr}

theorem refl (s : Fs) : SameMounts s s := ⟨fun _ => rfl, fun _ => rfl, rfl⟩

theorem trans (h : SameMounts s t) (h' : SameMounts t u) : SameMounts s u :=
  ⟨fun k => (h'.supers k).trans (h.supers k), fun j => (h'.mount j).trans (h.mount j),
    h'.task.trans h.task⟩

theorem of_blocks (h : OnlyBlocks s t) : SameMounts s t :=
  ⟨fun k => by rw [h.superTable], fun j => by rw [h.inodeTable], h.task⟩

/-- Another entry for an inode, with the same mount. -/
theorem setInode {node : Inode} (h : node.mount = (s.inodeTable i).mount) : SameMounts s (s.setInode i node) := by
  refine ⟨fun _ => rfl, fun j => ?_, rfl⟩
  rcases eq_or_ne j i with rfl | hne
  · rw [Fs.setInode_self, h]
  · rw [Fs.setInode_of_ne _ _ hne]

theorem dev (h : SameMounts s t) (k : ℕ) : (t.superTable k).dev = (s.superTable k).dev :=
  congrArg Prod.fst (h.supers k)

theorem count (h : SameMounts s t) (k : ℕ) : (t.superTable k).count = (s.superTable k).count :=
  congrArg (fun p => p.2.1) (h.supers k)

theorem iroot (h : SameMounts s t) (k : ℕ) : (t.superTable k).iroot = (s.superTable k).iroot :=
  congrArg (fun p => p.2.2.1) (h.supers k)

theorem imount (h : SameMounts s t) (k : ℕ) : (t.superTable k).imount = (s.superTable k).imount :=
  congrArg (fun p => p.2.2.2) (h.supers k)

theorem getSuper (h : SameMounts s t) (d : ℕ) : t.getSuper d = s.getSuper d := by
  rw [Fs.getSuper, Fs.getSuper]
  exact congrArg (fun p => List.find? p _) (funext fun k => by rw [h.dev k])

theorem iput (hrun : iput s i = some t) : SameMounts s t := by
  have hcount : SameMounts s (s.setInode i { s.inodeTable i with count := sub32 (s.inodeTable i).count 1 }) :=
    setInode rfl
  rw [Onixs.iput] at hrun
  simp only at hrun
  split at hrun
  · exact Option.some.inj hrun ▸ hcount
  · obtain ⟨_, -, hrun⟩ := Option.bind_eq_some_iff.mp hrun
    obtain ⟨_, -, hrun⟩ := Option.bind_eq_some_iff.mp hrun
    obtain rfl := Option.some.inj hrun
    have hremove : ∀ u : Fs, SameMounts u (removeInode u i) := fun u => ⟨fun _ => rfl, fun _ => rfl, rfl⟩
    exact (hcount.trans (hremove _)).trans (setInode rfl)

theorem iputOpt {o : Option ℕ} (hrun : iputOpt s o = some t) : SameMounts s t := by
  cases o with
  | none => exact Option.some.inj hrun ▸ refl s
  | some i => exact iput hrun

theorem addCount (s : Fs) (i : ℕ) : SameMounts s (s.addCount i) := setInode rfl

theorem fitInode {r : ℕ} (hrun : fitInode s i = some (r, t)) : SameMounts s t := by
  rw [Onixs.fitInode] at hrun
  split at hrun
  · obtain ⟨-, rfl⟩ := Prod.mk.inj (Option.some.inj hrun)
    exact refl s
  · obtain ⟨k, -, hrun⟩ := Option.bind_eq_some_iff.mp hrun
    obtain ⟨u, hput, hrun⟩ := Option.bind_eq_some_iff.mp hrun
    obtain ⟨r', -, hrun⟩ := Option.bind_eq_some_iff.mp hrun
    obtain ⟨rfl, rfl⟩ := Prod.mk.inj (Option.some.inj hrun)
    exact (iput hput).trans (addCount u r')

theorem iget {d nr r : ℕ} (hrun : iget s d nr = some (r, t)) : SameMounts s t := by
  obtain ⟨found, -, hrun⟩ := Option.bind_eq_some_iff.mp hrun
  cases found with
  | some i =>
    have hcount : SameMounts s (s.setInode i { s.inodeTable i with
        count := u32 ((s.inodeTable i).count + 1), atime := s.time }) := setInode rfl
    exact hcount.trans (fitInode hrun)
  | none =>
    obtain ⟨k, -, hrun⟩ := Option.bind_eq_some_iff.mp hrun
    obtain ⟨_, -, hrun⟩ := Option.bind_eq_some_iff.mp hrun
    obtain ⟨i, -, hrun⟩ := Option.bind_eq_some_iff.mp hrun
    obtain ⟨rfl, rfl⟩ := Prod.mk.inj (Option.some.inj hrun)
    refine ⟨fun k' => ?_, fun j => ?_, rfl⟩
    · rw [Fs.setInode_superTable]
      rcases eq_or_ne k' k with rfl | hne
      · rw [Fs.setSuper_self]
        rfl
      · rw [Fs.setSuper_of_ne _ _ hne]
    · rcases eq_or_ne j i with rfl | hne
      · rw [Fs.setInode_self]
        rfl
      · rw [Fs.setInode_of_ne _ _ hne]
        rfl

theorem crossMount {d : ℕ} (hrun : crossMount s dir name = some (d, t)) : SameMounts s t := by
  rw [Onixs.crossMount] at hrun
  split at hrun
  · obtain ⟨k, -, hrun⟩ := Option.bind_eq_some_iff.mp hrun
    obtain ⟨m, -, hrun⟩ := Option.bind_eq_some_iff.mp hrun
    obtain ⟨u, hput, hrun⟩ := Option.bind_eq_some_iff.mp hrun
    obtain ⟨-, rfl⟩ := Prod.mk.inj (Option.some.inj hrun)
    exact (addCount s m).trans (iput hput)
  · obtain ⟨-, rfl⟩ := Prod.mk.inj (Option.some.inj hrun)
    exact refl s

theorem findEntry {d : ℕ} {r : Option (Dentry × CStr)} (hrun : findEntry s dir name = some (d, r, t)) :
    SameMounts s t := by
  obtain ⟨-, u, hcross, hloop⟩ := findEntry_some hrun
  exact (crossMount hcross).trans (of_blocks (findEntryLoop_onlyBlocks _ _ _ _ hloop))

theorem namedLoop {right : CStr} {r : Option (ℕ × CStr)} : ∀ passes (s : Fs) inode left,
    namedLoop right passes inode left s = some (r, t) → SameMounts s t := by
  intro passes
  induction passes with
  | zero =>
    intro s inode left hrun
    exact absurd hrun (by simp [Onixs.namedLoop])
  | succ passes ih =>
    intro s inode left hrun
    obtain ⟨⟨d, found, s₁⟩, hfind, hrun⟩ := Option.bind_eq_some_iff.mp hrun
    have h₁ := findEntry hfind
    cases found with
    | none =>
      obtain ⟨s₂, hput, hrun⟩ := Option.bind_eq_some_iff.mp hrun
      obtain ⟨-, rfl⟩ := Prod.mk.inj (Option.some.inj hrun)
      exact h₁.trans (iput hput)
    | some e =>
      obtain ⟨s₂, hput, hrun⟩ := Option.bind_eq_some_iff.mp hrun
      obtain ⟨⟨i, s₃⟩, hget, hrun⟩ := Option.bind_eq_some_iff.mp hrun
      have h₃ := (h₁.trans (iput hput)).trans (iget hget)
      simp only at hrun
      split at hrun
      · obtain ⟨s₄, hput', hrun⟩ := Option.bind_eq_some_iff.mp hrun
        obtain ⟨-, rfl⟩ := Prod.mk.inj (Option.some.inj hrun)
        exact h₃.trans (iput hput')
      · split at hrun
        · obtain ⟨-, rfl⟩ := Prod.mk.inj (Option.some.inj hrun)
          exact h₃
        · exact h₃.trans (ih s₃ i e.2 hrun)

theorem named {path : CStr} {r : Option (ℕ × CStr)} (hrun : named s path = some (r, t)) : SameMounts s t := by
  cases path with
  | nil =>
    obtain ⟨-, rfl⟩ := Prod.mk.inj (Option.some.inj hrun)
    exact refl s
  | cons ch path =>
    have hwalk : ∀ {i : ℕ} {left : CStr}, namedFrom s i left = some (r, t) → SameMounts s t := by
      intro i left hrun
      cases hsep : strrsep left with
      | none =>
        rw [namedFrom_of_none hsep] at hrun
        obtain ⟨-, rfl⟩ := Prod.mk.inj (Option.some.inj hrun)
        exact addCount s i
      | some right =>
        rw [namedFrom_of_some hsep] at hrun
        exact (addCount s i).trans (namedLoop _ _ _ _ hrun)
    rw [named_cons] at hrun
    split at hrun <;> exact hwalk hrun

theorem namei {path : CStr} {r : Option ℕ} (hrun : namei s path = some (r, t)) : SameMounts s t := by
  obtain ⟨⟨dir, s₁⟩, hnamed, hrun⟩ := Option.bind_eq_some_iff.mp hrun
  have h₁ := named hnamed
  cases dir with
  | none =>
    obtain ⟨-, rfl⟩ := Prod.mk.inj (Option.some.inj hrun)
    exact h₁
  | some p =>
    simp only at hrun
    split at hrun
    · obtain ⟨-, rfl⟩ := Prod.mk.inj (Option.some.inj hrun)
      exact h₁
    · obtain ⟨⟨d, found, s₂⟩, hfind, hrun⟩ := Option.bind_eq_some_iff.mp hrun
      have h₂ := h₁.trans (findEntry hfind)
      cases found with
      | none =>
        obtain ⟨s₃, hput, hrun⟩ := Option.bind_eq_some_iff.mp hrun
        obtain ⟨-, rfl⟩ := Prod.mk.inj (Option.some.inj hrun)
        exact h₂.trans (iput hput)
      | some e =>
        obtain ⟨⟨i, s₃⟩, hget, hrun⟩ := Option.bind_eq_some_iff.mp hrun
        obtain ⟨s₄, hput, hrun⟩ := Option.bind_eq_some_iff.mp hrun
        obtain ⟨-, rfl⟩ := Prod.mk.inj (Option.some.inj hrun)
        exact (h₂.trans (iget hget)).trans (iput hput)

theorem of_times (h : OnlyTimes s t) : SameMounts s t :=
  ⟨fun k => by rw [h.superTable], fun j => congrArg (fun p => p.2.2.2.2) (h.node j).1, h.task⟩

end SameMounts

/-- Every walk keeps the mounts. -/
theorem carried_sameMounts {c : ℕ → ℕ} {s : Fs} (hpin : Pinned c s) (t₀ : Fs) :
    Carried c s fun t L => Holding c s t L ∧ SameMounts t₀ t := by
  have hinv := carried_holding hpin
  exact ⟨fun h => h.1, fun h hperm => ⟨hinv.perm h.1 hperm, h.2⟩,
    fun h hsame => ⟨hinv.congr h.1 hsame, h.2.trans (.of_times hsame)⟩,
    fun h hroom hrun => ⟨hinv.iput h.1 hroom hrun, h.2.trans (.iput hrun)⟩,
    fun h hroom hdev hrun => ⟨hinv.iget h.1 hroom hdev hrun, h.2.trans (.iget hrun)⟩,
    fun h hroom hlt hc => ⟨hinv.addCount h.1 hroom hlt hc, h.2.trans (.addCount _ _)⟩⟩

end Onixs
