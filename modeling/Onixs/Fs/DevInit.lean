import Onixs.Fs.Disk
import Onixs.Fs.Make

/-!
# Starting the file system

`super_init` of `fs/super.c`, which mounts the root device, and `dev_init` of `fs/dev.c`,
which formats the first memory disk, mounts it on `/dev` and makes a file there for each
device. The devices are those of the table `devices` of `kernel/device.c`, in its order.
-/

namespace Onixs

/-! ### The table of devices -/

/-- `DEVICE_NR`. -/
def deviceNr : ℕ := 64

/-- `enum device_subtype_t`. -/
inductive DeviceSubtype where
  /-- `DEV_CONSOLE`. -/
  | console
  /-- `DEV_KEYBOARD`. -/
  | keyboard
  /-- `DEV_SERIAL`. -/
  | serial
  /-- `DEV_IDE_DISK`. -/
  | ideDisk
  /-- `DEV_IDE_PART`. -/
  | idePart
  /-- `DEV_RAMDISK`. -/
  | ramdisk
deriving DecidableEq

/-- What `dev_init` and `devmkfs` read of a `device_t`. -/
structure DeviceEntry where
  /-- Its kind. -/
  subtype : DeviceSubtype
  /-- Its number, the index in the table. -/
  dev : ℕ
  /-- Its name. -/
  name : CStr
  /-- What `device_ioctl` returns for `DEV_CMD_SECTOR_COUNT`. -/
  sectors : Option ℕ
  /-- The number is an index. -/
  lt : dev < deviceNr

/-- The devices of a kind. -/
def devicesOf (devices : List DeviceEntry) (subtype : DeviceSubtype) : List DeviceEntry :=
  devices.filter fun d => d.subtype = subtype

/-- `device_find`. -/
def deviceFind (devices : List DeviceEntry) (subtype : DeviceSubtype) (idx : ℕ) : Option DeviceEntry :=
  (devicesOf devices subtype)[idx]?

/-- `device_ioctl` for `DEV_CMD_SECTOR_COUNT`. -/
def sectorCount (devices : List DeviceEntry) (dev : ℕ) : Option ℕ :=
  (devices.find? fun d => d.dev = dev).bind DeviceEntry.sectors

/-! ### The functions -/

/-- `mount_root` for the device it finds. -/
def mountRoot (s : Fs) (dev : ℕ) : Option Fs := do
  let (sb, s) ← readSuper s dev
  let (iroot, s) ← iget s dev 1
  let s := s.setIroot sb (some iroot)
  let (imount, s) ← iget s dev 1
  return s.setImount sb (some imount)

/-- `super_init`. The counts are not set: the table is static and thus clear. -/
def superInit (s : Fs) (dev : ℕ) : Option Fs :=
  mountRoot { s with superTable := fun k =>
    { s.superTable k with dev := EOF, inodeList := [], iroot := none, imount := none } } dev

/-- `task_create`, as far as it is about inodes: a task begins in the root directory. -/
def taskCreate (s : Fs) : Fs := (s.addCount 0).addCount 0

/-- `"/dev"`. -/
def devDir : CStr := cstr ['/', 'd', 'e', 'v']

/-- `"/dev/%s"`. -/
def devPath (name : CStr) : CStr := devDir ++ cstr ['/'] ++ name

/-- A loop of `dev_init` over the devices of a kind. -/
def makeDevices (mode : ℕ) (list : List DeviceEntry) (s : Fs) : Option Fs :=
  list.foldlM (fun s d => (sysMknod s (devPath d.name) mode d.dev).map Prod.snd) s

/-- An entry of `file_table` that `dev_init` fills in: `inode`, `mode` and `flags`. -/
def stdFile (s : Fs) (name : CStr) (flags : ℕ) : Option ((ℕ × ℕ × ℕ) × Fs) := do
  let (inode, s) ← namei s (devPath name)
  let inode ← inode
  return ((inode, (s.inodeDesc inode).mode, flags), s)

/-- `dev_init` up to the mount of the memory disk. -/
def mountDev (ramdisk : DeviceEntry) (s : Fs) : Option Fs := do
  let (_, s) ← sysMkdir s devDir 0o755
  let sectors ← ramdisk.sectors
  let s ← devmkfs s ramdisk.dev sectors 0
  let (sb, s) ← readSuper s ramdisk.dev
  let (iroot, s) ← iget s ramdisk.dev 1
  let s := s.setIroot sb (some iroot)
  let (imount, s) ← namei s devDir
  let s := s.setImount sb imount
  let imount ← imount
  return s.setMount imount ramdisk.dev

/-- The files in `/dev`. -/
def makeFiles (devices : List DeviceEntry) (console keyboard : DeviceEntry) (s : Fs) : Option Fs := do
  let (_, s) ← sysMknod s (devPath (cstr ['c', 'o', 'n', 's', 'o', 'l', 'e'])) 0o020200 console.dev
  let (_, s) ← sysMknod s (devPath (cstr ['k', 'e', 'y', 'b', 'o', 'a', 'r', 'd'])) 0o020400 keyboard.dev
  let s ← makeDevices 0o060600 (devicesOf devices .ideDisk) s
  let s ← makeDevices 0o060600 (devicesOf devices .idePart) s
  let s ← makeDevices 0o060600 ((devicesOf devices .ramdisk).drop 1) s
  let (_, s) ← sysLink s (devPath (cstr ['c', 'o', 'n', 's', 'o', 'l', 'e']))
    (devPath (cstr ['s', 't', 'd', 'o', 'u', 't']))
  let (_, s) ← sysLink s (devPath (cstr ['c', 'o', 'n', 's', 'o', 'l', 'e']))
    (devPath (cstr ['s', 't', 'd', 'e', 'r', 'r']))
  let (_, s) ← sysLink s (devPath (cstr ['k', 'e', 'y', 'b', 'o', 'a', 'r', 'd']))
    (devPath (cstr ['s', 't', 'd', 'i', 'n']))
  makeDevices 0o020600 (devicesOf devices .serial) s

/-- `dev_init`, and what it stores in the first three entries of `file_table`. -/
def devInit (devices : List DeviceEntry) (s : Fs) : Option (List (ℕ × ℕ × ℕ) × Fs) := do
  let ramdisk ← deviceFind devices .ramdisk 0
  let s ← mountDev ramdisk s
  let console ← deviceFind devices .console 0
  let keyboard ← deviceFind devices .keyboard 0
  let s ← makeFiles devices console keyboard s
  let (stdin, s) ← stdFile s (cstr ['s', 't', 'd', 'i', 'n']) 0
  let (stdout, s) ← stdFile s (cstr ['s', 't', 'd', 'o', 'u', 't']) 1
  let (stderr, s) ← stdFile s (cstr ['s', 't', 'd', 'e', 'r', 'r']) 1
  return ([stdin, stdout, stderr], s)

/-! ### The super blocks and the mounts -/

namespace SameMounts

variable {s t : Fs}

theorem makeDevices {mode : ℕ} : ∀ (list : List DeviceEntry) (s : Fs), makeDevices mode list s = some t →
    SameMounts s t
  | [], s, hrun => Option.some.inj hrun ▸ refl s
  | d :: list, s, hrun => by
    rw [Onixs.makeDevices, List.foldlM_cons] at hrun
    obtain ⟨u, hmap, hrun⟩ := Option.bind_eq_some_iff.mp hrun
    obtain ⟨⟨r, v⟩, hnod, rfl⟩ := Option.map_eq_some_iff.mp hmap
    exact (sysMknod hnod).trans (makeDevices list v hrun)

theorem makeFiles {devices : List DeviceEntry} {console keyboard : DeviceEntry}
    (hrun : makeFiles devices console keyboard s = some t) : SameMounts s t := by
  obtain ⟨⟨_, s₁⟩, h₁, hrun⟩ := Option.bind_eq_some_iff.mp hrun
  obtain ⟨⟨_, s₂⟩, h₂, hrun⟩ := Option.bind_eq_some_iff.mp hrun
  obtain ⟨s₃, h₃, hrun⟩ := Option.bind_eq_some_iff.mp hrun
  obtain ⟨s₄, h₄, hrun⟩ := Option.bind_eq_some_iff.mp hrun
  obtain ⟨s₅, h₅, hrun⟩ := Option.bind_eq_some_iff.mp hrun
  obtain ⟨⟨_, s₆⟩, h₆, hrun⟩ := Option.bind_eq_some_iff.mp hrun
  obtain ⟨⟨_, s₇⟩, h₇, hrun⟩ := Option.bind_eq_some_iff.mp hrun
  obtain ⟨⟨_, s₈⟩, h₈, hrun⟩ := Option.bind_eq_some_iff.mp hrun
  have hnodes := (sysMknod h₁).trans (sysMknod h₂)
  have hdisks := ((makeDevices _ _ h₃).trans (makeDevices _ _ h₄)).trans (makeDevices _ _ h₅)
  have hlinks := ((sysLink h₆).trans (sysLink h₇)).trans (sysLink h₈)
  exact ((hnodes.trans hdisks).trans hlinks).trans (makeDevices _ _ hrun)

theorem stdFile {name : CStr} {flags : ℕ} {p : ℕ × ℕ × ℕ} (hrun : stdFile s name flags = some (p, t)) :
    SameMounts s t := by
  obtain ⟨⟨i, u⟩, hname, hrun⟩ := Option.bind_eq_some_iff.mp hrun
  obtain ⟨j, -, hrun⟩ := Option.bind_eq_some_iff.mp hrun
  obtain ⟨-, rfl⟩ := Prod.mk.inj (Option.some.inj hrun)
  exact namei hname

/-- Behind the mount of the memory disk, `dev_init` only makes and opens files. -/
theorem devInit {devices : List DeviceEntry} {files : List (ℕ × ℕ × ℕ)} (hrun : devInit devices s = some (files, t)) :
    ∃ d u, deviceFind devices .ramdisk 0 = some d ∧ mountDev d s = some u ∧ SameMounts u t := by
  obtain ⟨d, hfind, hrun⟩ := Option.bind_eq_some_iff.mp hrun
  obtain ⟨u, hmount, hrun⟩ := Option.bind_eq_some_iff.mp hrun
  obtain ⟨console, -, hrun⟩ := Option.bind_eq_some_iff.mp hrun
  obtain ⟨keyboard, -, hrun⟩ := Option.bind_eq_some_iff.mp hrun
  obtain ⟨s₁, h₁, hrun⟩ := Option.bind_eq_some_iff.mp hrun
  obtain ⟨⟨_, s₂⟩, h₂, hrun⟩ := Option.bind_eq_some_iff.mp hrun
  obtain ⟨⟨_, s₃⟩, h₃, hrun⟩ := Option.bind_eq_some_iff.mp hrun
  obtain ⟨⟨_, s₄⟩, h₄, hrun⟩ := Option.bind_eq_some_iff.mp hrun
  obtain ⟨-, rfl⟩ := Prod.mk.inj (Option.some.inj hrun)
  exact ⟨d, u, hfind, hmount, (((makeFiles h₁).trans (stdFile h₂)).trans (stdFile h₃)).trans (stdFile h₄)⟩

end SameMounts

end Onixs
