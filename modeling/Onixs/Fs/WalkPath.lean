import Onixs.Fs.Disk
import Onixs.Fs.WalkTree

/-!
# Looking up names and paths in the tree

The walk of `named` and `namei` itself, over the states of `Onixs.Walking`. The names are
still characters here: `find_entry` gets what is left of the path, a name `comp` and the
`rest` behind it, and hands back what is left behind the separator. With the last separator
of the path as the place to stop, the loop of `named` goes through the names of the path
in order, which is the induction of `Onixs.Walking.namedLoop`.
-/

namespace Onixs

open Bytes

/-! ### Names -/

section Names

variable {d : Bytes} {name comp rest : CStr} {o : ℕ}

/-- Two names at one place are the same. -/
theorem HasName.unique : ∀ {a b : CStr} {o : ℕ}, HasName d o a → HasName d o b → a = b
  | [], [], _, _, _ => rfl
  | [], c :: _, _, ha, hb => absurd (hb.1.symm.trans ha) c.2
  | c :: _, [], _, ha, hb => absurd (ha.1.symm.trans hb) c.2
  | c :: a, c' :: b, _, ha, hb => by
    rw [Subtype.ext (ha.1.symm.trans hb.1), ha.2.unique hb.2]

/-- **`match_name`** compares the name with what stands in front of the next separator. -/
theorem matchName_eq (hname : HasName d o name) (hsep : ∀ c ∈ name, isSeparator c = false)
    (hcomp : ∀ c ∈ comp, isSeparator c = false) (hrest : ∀ c ∈ rest.head?, isSeparator c = true) :
    matchName d (comp ++ rest) o = if comp = name then some rest.tail else none := by
  induction name generalizing o comp with
  | nil =>
    have hend : d o = 0#8 := hname
    cases comp with
    | nil =>
      rw [if_pos rfl, List.nil_append]
      cases rest with
      | nil => exact if_pos hend
      | cons c rest =>
        rw [matchName, if_pos hend, if_pos (hrest c rfl)]
        rfl
    | cons c comp =>
      rw [List.cons_append, matchName, if_pos hend, hcomp c List.mem_cons_self]
      rfl
  | cons a name ih =>
    obtain ⟨ha, hname⟩ := hname
    have hend : d o ≠ 0#8 := ha ▸ a.2
    cases comp with
    | nil =>
      rw [if_neg (by simp), List.nil_append]
      cases rest with
      | nil => exact if_neg hend
      | cons c rest =>
        -- a separator is not in the name
        have hne : c.1 ≠ d o := fun heq => by
          have hca : c = a := Subtype.ext (heq.trans ha)
          exact absurd (hrest c rfl) (by simp [hca, hsep a List.mem_cons_self])
        rw [matchName, if_neg hend, if_neg hne]
    | cons c comp =>
      have hc : matchName d (comp ++ rest) (o + 1) = if comp = name then some rest.tail else none :=
        ih hname (fun c hc => hsep c (List.mem_cons_of_mem a hc)) fun c' hc' =>
          hcomp c' (List.mem_cons_of_mem c hc')
      rw [List.cons_append, matchName, if_neg hend, hc]
      by_cases hca : c = a
      · subst hca
        rw [if_pos ha.symm]
        simp
      · rw [if_neg fun heq => hca (Subtype.ext (heq.trans ha)), if_neg]
        exact fun heq => hca (List.cons.inj heq).1

/-- A name without separators, as a test. -/
theorem sepFree_of_all {name : CStr} (h : (name.all fun c => !isSeparator c) = true) :
    ∀ c ∈ name, isSeparator c = false := fun c hc => by
  simpa using List.all_eq_true.mp h c hc

theorem hasName_dotDot : HasName dotDot 0 dotDotName := ⟨rfl, rfl, rfl⟩

/-- The test for `..` in `find_entry`. -/
theorem matchName_dotDot (hcomp : ∀ c ∈ comp, isSeparator c = false)
    (hrest : ∀ c ∈ rest.head?, isSeparator c = true) :
    (matchName dotDot (comp ++ rest) 0).isSome = true ↔ comp = dotDotName := by
  rw [matchName_eq hasName_dotDot (sepFree_of_all rfl) hcomp hrest]
  split <;> simp [*]

end Names

section Entries

variable {s t : Fs} {L : List ℕ} {i d dev nr : ℕ} {comp rest : CStr} {n : ℕ × ℕ}

/-! ### What a node is, in the blocks of the walk -/

theorem zoneAt_of_blk (hblk : t.blk = s.blk) (p : List ℕ) : t.zoneAt dev nr p = s.zoneAt dev nr p := by
  have hroot : t.rootZone dev nr = s.rootZone dev nr := by
    funext r
    simp only [Fs.rootZone, Fs.superDesc, hblk]
  have hentry : t.zoneEntry dev = s.zoneEntry dev := by
    funext z j
    simp only [Fs.zoneEntry, hblk]
  rw [Fs.zoneAt, Fs.zoneAt, hroot, hentry]

theorem dentryNr_of_blk (hblk : t.blk = s.blk) (e : Dentry) : t.dentryNr e = s.dentryNr e := by
  rw [Fs.dentryNr, Fs.dentryNr, hblk]

/-- The directory in which a name is looked up. -/
theorem Fs.WellFormed.up (hwf : s.WellFormed) (hdev : n.1 ≠ EOF) (hdir : s.TreeDir n) :
    s.TreeDir (s.forest.up n comp) := by
  rw [Fs.forest_up]
  split
  · cases hpoint : s.mountPoint n.1 with
    | none => exact hdir
    | some m =>
      obtain ⟨k, hk, hm⟩ := Option.bind_eq_some_iff.mp hpoint
      obtain ⟨m', hm', hdir'⟩ := hwf.mounted k (getSuper_lt hk) (Fs.dev_of_getSuper hk ▸ hdev)
      obtain rfl := Option.some.inj (hm'.symm.trans hm)
      exact hdir'
  · exact hdir

/-- **The first statement of `find_entry`.** -/
theorem Walking.crossMount (hwf : s.WellFormed) (hroom : Room s.counts (L.length + 2))
    (h : Walking s t (i :: L)) (hcomp : ∀ c ∈ comp, isSeparator c = false)
    (hrest : ∀ c ∈ rest.head?, isSeparator c = true) :
    ∃ d u, crossMount t i (comp ++ rest) = some (d, u) ∧ Walking s u (d :: L) ∧
      u.nodeOf d = s.forest.up (t.nodeOf i) comp := by
  obtain ⟨hlt, hused⟩ := h.held
  have htest : (matchName dotDot (comp ++ rest) 0).isSome = true ∧ (t.inodeTable i).nr = 1 ↔
      comp = dotDotName ∧ (t.inodeTable i).nr = 1 := by
    rw [matchName_dotDot hcomp hrest]
  rw [Onixs.crossMount, Fs.forest_up]
  by_cases hc : comp = dotDotName ∧ (t.inodeTable i).nr = 1
  · obtain ⟨hdev, ⟨k, hk⟩, -⟩ := h.isNode hlt hused
    have hkt : t.getSuper (t.inodeTable i).dev = some k := (h.holding.getSuper _).trans hk
    obtain ⟨m, hm, -⟩ := hwf.mounted k (getSuper_lt hk) (Fs.dev_of_getSuper hk ▸ hdev)
    obtain ⟨hmlt, hms⟩ := hwf.pinned.imount k (getSuper_lt hk) m hm
    have hadd := h.addCount hroom hmlt (h.holding.used_of_pinned hms)
    obtain ⟨u, hput, hu⟩ :=
      Walking.iput (L := m :: L) hwf hroom (hadd.perm (List.Perm.swap i m L))
    have hpoint : s.mountPoint (t.nodeOf i).1 = some m := by
      rw [Fs.mountPoint, hk]
      exact hm
    refine ⟨m, u, ?_, hu, ?_⟩
    · rw [if_pos (htest.mpr hc)]
      simp only [Option.bind_eq_bind, hkt, Option.bind_some, h.holding.imount, hm, hput]
      rfl
    · have hc' : comp = dotDotName ∧ (t.nodeOf i).2 = 1 := hc
      rw [if_pos hc', hpoint]
      exact hu.nodeOf hms
  · have hc' : ¬(comp = dotDotName ∧ (t.nodeOf i).2 = 1) := hc
    exact ⟨i, t, if_neg (mt htest.mp hc), h, (if_neg hc').symm⟩

/-! ### Searching a directory -/

/-- An entry whose block has been looked up. -/
theorem entryBlock_eq (hblk : t.blk = s.blk) (hh : t.Holds dev nr d) {k block : ℕ}
    (hblock : k / 64 < totalBlock ∧ s.zoneAt dev nr (bmapSlot (k / 64)) ≠ 0)
    (hprev : k % 64 ≠ 0 → block = s.zoneAt dev nr (bmapSlot (k / 64))) :
    entryBlock t d k block false = some (s.zoneAt dev nr (bmapSlot (k / 64)), t) := by
  obtain ⟨hlt, hzone⟩ := hblock
  rw [entryBlock]
  by_cases hk0 : k % blockDentries = 0
  · rw [if_pos hk0, show k / blockDentries = k / 64 from rfl, bmap_false hh hlt, zoneAt_of_blk hblk]
    simp only [Option.bind_eq_bind, Option.bind_some]
    rw [assert_pos hzone]
    rfl
  · rw [if_neg hk0, hprev hk0]
    rfl

/-- What `find_entry` returns at entry `k`: the entry and `*next`, if the entry is in use and its name
matches. -/
def Fs.entryMatch (s : Fs) (dev nr : ℕ) (path : CStr) (k : ℕ) : Option (Dentry × CStr) :=
  if s.dentryNr (s.entryOf dev nr k) = 0 then none
  else (matchName (s.blk dev (s.entryOf dev nr k).blk) path (k % 64 * 16 + 2)).map fun next =>
    (s.entryOf dev nr k, next)

/-- **The loop of `find_entry`** stops at the first entry in use that matches. -/
theorem findEntryLoop_findSome (hblk : t.blk = s.blk) (hh : t.Holds dev nr d)
    (hblocks : ∀ k < s.entries dev nr, k / 64 < totalBlock ∧ s.zoneAt dev nr (bmapSlot (k / 64)) ≠ 0)
    (path : CStr) : ∀ left k block,
    k + left = s.entries dev nr → (k % 64 ≠ 0 → block = s.zoneAt dev nr (bmapSlot (k / 64))) →
    findEntryLoop d path left k block t = some ((List.range' k left).findSome? (s.entryMatch dev nr path), t) := by
  intro left
  induction left with
  | zero => exact fun _ _ _ _ => rfl
  | succ left ih =>
    intro k block hsum hprev
    have hk : k < s.entries dev nr := by omega
    have hnext : findEntryLoop d path left (k + 1) (s.zoneAt dev nr (bmapSlot (k / 64))) t = _ :=
      ih (k + 1) _ (by omega) fun hk' => by rw [show (k + 1) / 64 = k / 64 by omega]
    rw [findEntryLoop, entryBlock_eq hblk hh (hblocks k hk) hprev]
    simp only [Option.bind_eq_bind, Option.bind_some, hh.dev_eq, hblk, blockDentries]
    rw [show (⟨dev, s.zoneAt dev nr (bmapSlot (k / 64)), k % 64 * 16⟩ : Dentry) = s.entryOf dev nr k
      from rfl, dentryNr_of_blk hblk, hnext, List.range'_succ, List.findSome?_cons, Fs.entryMatch]
    by_cases hnr : s.dentryNr (s.entryOf dev nr k) = 0
    · rw [if_pos hnr]
      split
      · rw [if_neg (not_not_intro hnr)]
      · rfl
    · rw [if_neg hnr]
      split
      · rename_i next hmatch
        rw [if_pos hnr, show (s.entryOf dev nr k).blk = s.zoneAt dev nr (bmapSlot (k / 64)) from rfl, hmatch]
        rfl
      · rename_i hmatch
        rw [show (s.entryOf dev nr k).blk = s.zoneAt dev nr (bmapSlot (k / 64)) from rfl, hmatch]
        rfl

/-- The first element that passes a test, with what is made of it. -/
theorem findSome_eq_map_find {α β : Type} {f : α → Option β} {g : α → β} {p : α → Bool} : ∀ {l : List α},
    (∀ a ∈ l, f a = if p a then some (g a) else none) → l.findSome? f = (l.find? p).map g
  | [], _ => rfl
  | a :: l, h => by
    have ha := h a List.mem_cons_self
    cases hp : p a with
    | true =>
      rw [hp, if_pos rfl] at ha
      rw [List.findSome?_cons, ha, List.find?_cons_of_pos hp]
      rfl
    | false =>
      rw [hp, if_neg Bool.false_ne_true] at ha
      rw [List.findSome?_cons, ha, List.find?_cons_of_neg (by simp [hp])]
      exact findSome_eq_map_find fun b hb => h b (List.mem_cons_of_mem a hb)

/-- In a directory that can be searched, that is the first entry with the name. -/
theorem findEntryLoop_eq (hblk : t.blk = s.blk) (hh : t.Holds dev nr d)
    (hdir : s.IsDirectory (dev, nr)) (hcomp : ∀ c ∈ comp, isSeparator c = false)
    (hrest : ∀ c ∈ rest.head?, isSeparator c = true) :
    findEntryLoop d (comp ++ rest) (s.entries dev nr) 0 0 t =
      some ((s.slotOf dev nr comp).map fun k => (s.entryOf dev nr k, rest.tail), t) := by
  rw [findEntryLoop_findSome hblk hh hdir.blocks _ _ 0 0 (Nat.zero_add _) (by simp), Fs.slotOf,
    List.range_eq_range', findSome_eq_map_find fun k hk => ?_]
  have hk := (List.mem_range'_1.mp hk).2
  rw [Nat.zero_add] at hk
  rw [Fs.entryMatch]
  by_cases hnr : s.dentryNr (s.entryOf dev nr k) = 0
  · rw [if_pos hnr, if_neg (by simp [Fs.NameAt, hnr])]
  · obtain ⟨name, -, -, hsep, hname⟩ := hdir.named k hk hnr
    rw [if_neg hnr, matchName_eq hname.2 hsep hcomp hrest]
    by_cases heq : comp = name
    · rw [if_pos heq, if_pos (by simpa [heq] using hname)]
      rfl
    · have hno : ¬s.NameAt dev nr k comp := fun hc => heq (hc.2.unique hname.2)
      rw [if_neg heq, if_neg (by simpa using hno)]
      rfl

/-- **`find_entry`** looks the name up in the directory the forest says. -/
theorem Walking.findEntry (hwf : s.WellFormed) (hroom : Room s.counts (L.length + 2))
    (h : Walking s t (i :: L)) (hdir : s.TreeDir (t.nodeOf i))
    (hcomp : ∀ c ∈ comp, isSeparator c = false) (hrest : ∀ c ∈ rest.head?, isSeparator c = true)
    (hn : s.forest.up (t.nodeOf i) comp = n) :
    ∃ d u, findEntry t i (comp ++ rest) = some (d,
        (s.slotOf n.1 n.2 comp).map fun k => (s.entryOf n.1 n.2 k, rest.tail), u) ∧
      Walking s u (d :: L) ∧ u.nodeOf d = n := by
  obtain ⟨hlt, hused⟩ := h.held
  obtain ⟨d, u, hcross, hu, hnode⟩ := h.crossMount hwf hroom hcomp hrest
  rw [hn] at hnode
  obtain ⟨hdlt, hdused⟩ := hu.held
  have hh : u.Holds n.1 n.2 d := hnode ▸ hu.loaded.holds d hdlt hdused
  have hup : s.TreeDir n := hn ▸ hwf.up (h.isNode hlt hused).1 hdir
  have hmode : isDir (t.inodeDesc i).mode = true := by
    rw [h.inodeDesc hlt hused]
    exact hdir.2
  have hsize : (u.inodeDesc d).size / 16 = s.entries n.1 n.2 := by
    rw [hu.inodeDesc hdlt hdused, hnode]
    rfl
  refine ⟨d, u, ?_, hu, hnode⟩
  rw [Onixs.findEntry, hmode, assert_pos rfl, hcross]
  simp only [Option.bind_eq_bind, Option.bind_some, hsize]
  rw [findEntryLoop_eq hu.blk hh (hwf.dirs n hup) hcomp hrest]
  rfl

/-- `find_entry` for the last name of a path. -/
theorem Walking.findEntry_last (hwf : s.WellFormed) (hroom : Room s.counts 2)
    (h : Walking s t [i]) (hdir : s.TreeDir (t.nodeOf i)) (hcomp : ∀ c ∈ comp, isSeparator c = false)
    (hn : s.forest.up (t.nodeOf i) comp = n) :
    ∃ d u, Onixs.findEntry t i comp = some (d,
        (s.slotOf n.1 n.2 comp).map fun k => (s.entryOf n.1 n.2 k, []), u) ∧
      Walking s u [d] ∧ u.nodeOf d = n := by
  have hnil : ∀ c ∈ ([] : CStr).head?, isSeparator c = true := fun c hc => absurd hc (by simp)
  have hfind := Walking.findEntry (L := []) hwf hroom h hdir hcomp hnil hn
  rwa [List.append_nil] at hfind

/-- **An entry leads to what the forest says.** -/
theorem Walking.iget_slot (hwf : s.WellFormed) (hroom : Room s.counts (L.length + 1))
    (h : Walking s t L) (hlen : L.length ≤ 1) (hdev : n.1 ≠ EOF) (hdir : s.TreeDir n) {k r : ℕ}
    (hr : s.getSuper n.1 = some r) (hk : s.slotOf n.1 n.2 comp = some k) :
    Ends (¬s.TwoFree) (Onixs.iget t n.1 (t.dentryNr (s.entryOf n.1 n.2 k))) fun p =>
      Walking s p.2 (p.1 :: L) ∧ s.InTree (p.2.nodeOf p.1) ∧
        p.2.nodeOf p.1 = s.forest.down (n.1, s.dentryNr (s.entryOf n.1 n.2 k)) := by
  have hlt : k < s.entries n.1 n.2 := List.mem_range.mp (List.mem_of_find?_eq_some hk)
  have hat : s.NameAt n.1 n.2 k comp := by simpa using List.find?_some hk
  have hnode : s.IsNode (n.1, s.dentryNr (s.entryOf n.1 n.2 k)) :=
    ⟨hdev, ⟨r, hr⟩, Nat.one_le_iff_ne_zero.mpr hat.1, (hwf.dirs n hdir).nodes k hlt hat.1⟩
  rw [dentryNr_of_blk h.blk]
  refine (h.iget hwf hroom hlen hnode).imp fun p hp => ⟨hp.1, ?_, hp.2⟩
  rw [hp.2, Fs.forest_down]
  cases hm : s.mountEntry (n.1, s.dentryNr (s.entryOf n.1 n.2 k)) with
  | none => exact .child hdir.1 hdir.2 hlt hat.1
  | some m =>
    have hfound := List.find?_some hm
    rw [decide_eq_true_eq] at hfound
    obtain ⟨k', q, hk', -, hroot, hq⟩ :=
      hwf.mounts m (List.mem_range.mp (List.mem_of_find?_eq_some hm)) hfound.1
    obtain ⟨hqlt, hqused⟩ := hwf.pinned.iroot k' (getSuper_lt hk') q hroot
    -- the root of the device is in use, so the device is one
    have hqdev : (s.inodeTable q).dev ≠ EOF := mt (hwf.table.free_iff q hqlt).mp hqused
    have hqmount : (s.inodeTable q).dev = (s.inodeTable m).mount := congrArg Prod.fst hq
    exact .root (hqmount ▸ hqdev) hk'

end Entries

/-! ### Walking through directories -/

section Strings

variable {name last : CStr} {sep : CChar} {dirs : List (CStr × CChar)}

theorem strrsep_of_name : ∀ {name : CStr}, (∀ c ∈ name, isSeparator c = false) → strrsep name = none
  | [], _ => rfl
  | c :: name, h => by
    rw [strrsep, strrsep_of_name fun c' hc' => h c' (List.mem_cons_of_mem c hc'),
      h c List.mem_cons_self]
    rfl

theorem strrsep_append (h : ∀ c ∈ name, isSeparator c = false) (path : CStr) :
    strrsep (name ++ path) = strrsep path := by
  induction name with
  | nil => rfl
  | cons c name ih =>
    rw [List.cons_append, strrsep, ih fun c' hc' => h c' (List.mem_cons_of_mem c hc'),
      h c List.mem_cons_self]
    cases strrsep path <;> rfl

/-- **The last separator** is the one in front of the last name. -/
theorem strrsep_tail (hlast : ∀ c ∈ last, isSeparator c = false) :
    ∀ {dirs : List (CStr × CChar)} {name sep},
    (∀ p ∈ (name, sep) :: dirs, (∀ c ∈ p.1, isSeparator c = false) ∧ isSeparator p.2 = true) →
    ∃ sep', strrsep (Path.tail ((name, sep) :: dirs) last) = some (sep' :: last) := by
  intro dirs
  induction dirs with
  | nil =>
    intro name sep hdirs
    obtain ⟨hname, hsep⟩ := hdirs _ List.mem_cons_self
    refine ⟨sep, ?_⟩
    rw [Path.tail, strrsep_append hname, Path.tail, strrsep, strrsep_of_name hlast, if_pos hsep]
  | cons p dirs ih =>
    intro name sep hdirs
    obtain ⟨hname, hsep⟩ := hdirs _ List.mem_cons_self
    obtain ⟨sep', hrest⟩ := ih fun q hq => hdirs q (List.mem_cons_of_mem _ hq)
    refine ⟨sep', ?_⟩
    rw [Path.tail, strrsep_append hname, strrsep, hrest]

/-- What is left of a path is longer than its last name. -/
theorem length_lt_tail : ∀ (dirs : List (CStr × CChar)) (name : CStr) (sep : CChar),
    last.length < (Path.tail ((name, sep) :: dirs) last).length
  | [], name, sep => by
    rw [Path.tail, List.length_append, List.length_cons, Path.tail]
    omega
  | (name', sep') :: dirs, name, sep => by
    have h := length_lt_tail dirs name' sep'
    rw [Path.tail, List.length_append, List.length_cons]
    omega

theorem length_le_tail (last : CStr) : ∀ dirs : List (CStr × CChar),
    dirs.length ≤ (Path.tail dirs last).length
  | [] => Nat.zero_le _
  | (name, sep) :: dirs => by
    have h := length_le_tail last dirs
    rw [Path.tail, List.length_append, List.length_cons, List.length_cons]
    omega

end Strings

section Path

variable {s t u : Fs} {i r : ℕ} {L : List ℕ} {name path last : CStr} {sep : CChar}

/-- The test of `named` for the directory it has found. -/
theorem Walking.pass_iff (h : Walking s u (r :: L)) :
    (isDir (u.inodeDesc r).mode = false ∨ permission u r pExec = false) ↔
      s.forest.pass (u.nodeOf r) = false := by
  obtain ⟨hlt, hused⟩ := h.held
  rw [permission, h.inodeDesc hlt hused, h.task, Fs.forest_pass, Bool.and_eq_false_iff]

/-- A directory that may be walked through is one. -/
theorem isDir_of_pass {n : ℕ × ℕ} (h : s.forest.pass n = true) :
    isDir (s.descOf n.1 n.2).mode = true := by
  rw [Fs.forest_pass, Bool.and_eq_true] at h
  exact h.1

theorem lookup_of_none {n m : ℕ × ℕ} (hn : s.forest.up m name = n) (hslot : s.slotOf n.1 n.2 name = none) :
    s.forest.lookup m name = none := by
  rw [Forest.lookup, hn, Fs.forest_child, hslot]
  rfl

theorem lookup_of_some {n m : ℕ × ℕ} {k : ℕ} (hn : s.forest.up m name = n)
    (hslot : s.slotOf n.1 n.2 name = some k) :
    s.forest.lookup m name = some (s.forest.down (n.1, s.dentryNr (s.entryOf n.1 n.2 k))) := by
  rw [Forest.lookup, hn, Fs.forest_child, hslot]
  rfl

/-- **One pass of the loop of `named`.** The walk ends if the name does not lead to a directory one
may walk through, and goes on there if it does. -/
theorem Walking.namedLoop_pass (hwf : s.WellFormed) (hroom : Room s.counts 2) (h : Walking s t [i])
    (hdir : s.TreeDir (t.nodeOf i)) (hname : ∀ c ∈ name, isSeparator c = false)
    (hsep : isSeparator sep = true) {right : CStr} {passes : ℕ} {post : Option (ℕ × CStr) × Fs → Prop}
    (hfail : s.forest.enter (t.nodeOf i) name = none → ∀ u, Walking s u [] → post (none, u))
    (hgo : ∀ r u, s.forest.enter (t.nodeOf i) name = some (u.nodeOf r) → Walking s u [r] →
      s.TreeDir (u.nodeOf r) → Ends (¬s.TwoFree)
        (if right = path then some (some (r, path), u) else Onixs.namedLoop right passes r path u) post) :
    Ends (¬s.TwoFree) (Onixs.namedLoop right (passes + 1) i (name ++ sep :: path) t) post := by
  have hrest : ∀ c ∈ (sep :: path).head?, isSeparator c = true := fun c hc =>
    Option.some.inj hc ▸ hsep
  obtain ⟨d, u, hfind, hu, hnode⟩ := Walking.findEntry (L := []) hwf hroom h hdir hname hrest rfl
  generalize hn : s.forest.up (t.nodeOf i) name = n at hfind hnode
  obtain ⟨hdlt, hdused⟩ := hu.held
  obtain ⟨hdev, ⟨k', hk'⟩, -⟩ := hnode ▸ hu.isNode hdlt hdused
  have hup : s.TreeDir n := hn ▸ hwf.up (h.isNode h.held.1 h.held.2).1 hdir
  have hone : Room s.counts 1 := fun j hj => Nat.lt_of_succ_lt (hroom j hj)
  obtain ⟨v, hput, hv⟩ := Walking.iput (L := []) hwf hone hu
  rw [Onixs.namedLoop, hfind]
  simp only [Option.bind_eq_bind, Option.bind_some]
  cases hslot : s.slotOf n.1 n.2 name with
  | none =>
    simp only [Option.map_none, hput, Option.bind_some]
    refine Ends.some (hfail ?_ v hv)
    rw [Forest.enter, lookup_of_none hn hslot]
    rfl
  | some k =>
    have hdevu : (u.inodeTable d).dev = n.1 := congrArg Prod.fst hnode
    simp only [Option.map_some, hput, Option.bind_some, hdevu, List.tail_cons]
    refine (hv.iget_slot (L := []) hwf hone (Nat.zero_le _) hdev hup hk' hslot).bind ?_
    rintro ⟨r, w⟩ ⟨hw, htree, hdown⟩
    have henter : s.forest.enter (t.nodeOf i) name = (some (w.nodeOf r)).filter s.forest.pass := by
      rw [Forest.enter, lookup_of_some hn hslot, ← hdown]
    cases hpass : s.forest.pass (w.nodeOf r) with
    | true =>
      have htest := mt hw.pass_iff.mp (by simp [hpass])
      simp only [if_neg htest]
      rw [Option.filter_some_pos hpass] at henter
      exact hgo r w henter hw ⟨htree, isDir_of_pass hpass⟩
    | false =>
      obtain ⟨x, hput', hx⟩ := Walking.iput (L := []) hwf hone hw
      simp only [if_pos (hw.pass_iff.mpr hpass), hput', Option.bind_some]
      rw [Option.filter_some_neg hpass] at henter
      exact Ends.some (hfail henter x hx)

/-- **Where `named` has got to**: an inode that is held, for the directory the walk has reached, or
none. -/
def Arrived (s : Fs) (next : CStr) (goal : Option (ℕ × ℕ)) (p : Option (ℕ × CStr) × Fs) : Prop :=
  match goal with
  | none => p.1 = none ∧ Walking s p.2 []
  | some n => ∃ j, p.1 = some (j, next) ∧ Walking s p.2 [j] ∧ p.2.nodeOf j = n ∧ s.TreeDir n

/-- **The loop of `named`** walks through the names in front of the last separator. -/
theorem Walking.namedLoop (last : CStr) (hwf : s.WellFormed) (hroom : Room s.counts 2) :
    ∀ (dirs : List (CStr × CChar)) (name : CStr) (sep : CChar) (passes i : ℕ) (t : Fs),
    (∀ p ∈ (name, sep) :: dirs, (∀ c ∈ p.1, isSeparator c = false) ∧ isSeparator p.2 = true) →
    dirs.length < passes → Walking s t [i] → s.TreeDir (t.nodeOf i) →
    Ends (¬s.TwoFree) (Onixs.namedLoop last passes i (Path.tail ((name, sep) :: dirs) last) t)
      (Arrived s last ((name :: dirs.map Prod.fst).foldlM s.forest.enter (t.nodeOf i))) := by
  intro dirs
  induction dirs with
  | nil =>
    intro name sep passes i t hdirs hpasses h hdir
    obtain ⟨passes, rfl⟩ := Nat.exists_eq_succ_of_ne_zero (Nat.ne_of_gt hpasses)
    obtain ⟨hname, hsep⟩ := hdirs _ List.mem_cons_self
    rw [Path.tail, List.map_nil, List.foldlM_cons]
    refine h.namedLoop_pass hwf hroom hdir hname hsep (fun henter u hu => ?_)
      fun r u henter hu hdir' => ?_
    · rw [henter]
      exact ⟨rfl, hu⟩
    · rw [henter, Path.tail, if_pos rfl]
      exact Ends.some ⟨r, rfl, hu, rfl, hdir'⟩
  | cons p dirs ih =>
    intro name sep passes i t hdirs hpasses h hdir
    obtain ⟨passes, rfl⟩ := Nat.exists_eq_succ_of_ne_zero (Nat.ne_of_gt (Nat.zero_lt_of_lt hpasses))
    obtain ⟨hname, hsep⟩ := hdirs _ List.mem_cons_self
    rw [Path.tail, List.map_cons, List.foldlM_cons]
    refine h.namedLoop_pass hwf hroom hdir hname hsep (fun henter u hu => ?_)
      fun r u henter hu hdir' => ?_
    · rw [henter]
      exact ⟨rfl, hu⟩
    · -- there is more than the last name
      have hne : last ≠ Path.tail (p :: dirs) last := fun heq =>
        Nat.ne_of_lt (length_lt_tail dirs p.1 p.2) (congrArg List.length heq)
      rw [henter, if_neg hne]
      exact ih p.1 p.2 passes r u (fun q hq => hdirs q (List.mem_cons_of_mem _ hq))
        (Nat.lt_of_succ_lt_succ hpasses) hu hdir'

/-- A path begins with its separator, or with a name. -/
theorem Path.chars_cases (p : Path) :
    (∃ c, p.lead = some c ∧ isSeparator c = true ∧ p.chars = c :: Path.tail p.dirs p.last) ∨
      (p.lead = none ∧ ∃ c path, isSeparator c = false ∧ p.chars = c :: path ∧
        Path.tail p.dirs p.last = c :: path) := by
  cases hlead : p.lead with
  | some c => exact Or.inl ⟨c, rfl, p.lead_sep c hlead, by rw [Path.chars, hlead]; rfl⟩
  | none =>
    refine Or.inr ⟨rfl, ?_⟩
    have hchars : p.chars = Path.tail p.dirs p.last := by rw [Path.chars, hlead]; rfl
    rw [hchars]
    cases hdirs : p.dirs with
    | nil =>
      rw [Path.tail]
      obtain ⟨c, path, hlast⟩ :=
        List.exists_cons_of_ne_nil ((p.nonempty hlead).resolve_left (not_not_intro hdirs))
      refine ⟨c, path, p.last_name c ?_, hlast, hlast⟩
      rw [hlast]
      exact List.mem_cons_self
    | cons q dirs =>
      obtain ⟨hne, hname, -⟩ := p.dirs_name q (hdirs ▸ List.mem_cons_self)
      obtain ⟨c, name, hq⟩ := List.exists_cons_of_ne_nil hne
      have htail : Path.tail (q :: dirs) p.last = c :: (name ++ q.2 :: Path.tail dirs p.last) := by
        rw [Path.tail, hq]
        rfl
      refine ⟨c, _, hname c ?_, htail, htail⟩
      rw [hq]
      exact List.mem_cons_self

/-- **`named`** leads to the directory in front of the last name. -/
theorem Walking.named (hwf : s.WellFormed) (hroom : Room s.counts 2) (p : Path) :
    Ends (¬s.TwoFree) (Onixs.named s p.chars)
      (Arrived s p.last (p.names.foldlM s.forest.enter (s.nodeOf (p.start s.task)))) := by
  have hone : Room s.counts 1 := fun j hj => Nat.lt_of_succ_lt (hroom j hj)
  have hstart : Onixs.named s p.chars = namedFrom s (p.start s.task) (Path.tail p.dirs p.last) := by
    rcases p.chars_cases with ⟨c, hlead, hsep, hchars⟩ | ⟨hlead, c, path, hsep, hchars, htail⟩
    · rw [hchars, named_cons, if_pos hsep, Path.start, hlead]
      rfl
    · rw [hchars, htail, named_cons, hsep, Path.start, hlead]
      rfl
  have hdir : s.TreeDir (s.nodeOf (p.start s.task)) := by
    rw [Path.start]
    split
    · exact hwf.iroot
    · exact hwf.ipwd
  have hpos : p.start s.task < inodeNr ∧ s.counts (p.start s.task) ≠ 0 := by
    rw [Path.start]
    split
    · exact hwf.starts.iroot
    · exact hwf.starts.ipwd
  have h : Walking s (s.addCount (p.start s.task)) [p.start s.task] :=
    (Walking.start hwf).addCount (L := []) hone hpos.1 hpos.2
  have hnode : (s.addCount (p.start s.task)).nodeOf (p.start s.task) = s.nodeOf (p.start s.task) :=
    nodeOf_setInode (by rfl) _
  rw [hstart, Path.names]
  cases hdirs : p.dirs with
  | nil =>
    have hgo : Arrived s p.last (some (s.nodeOf (p.start s.task)))
        (some (p.start s.task, p.last), s.addCount (p.start s.task)) := ⟨_, rfl, h, hnode, hdir⟩
    rw [Path.tail, namedFrom_of_none (strrsep_of_name p.last_name)]
    exact Ends.some hgo
  | cons q dirs =>
    have hnames : ∀ q' ∈ (q.1, q.2) :: dirs, (∀ c ∈ q'.1, isSeparator c = false) ∧
        isSeparator q'.2 = true := fun q' hq' => (p.dirs_name q' (hdirs ▸ hq')).2
    obtain ⟨sep', hright⟩ := strrsep_tail p.last_name hnames
    have hlen := length_le_tail p.last (q :: dirs)
    rw [List.length_cons] at hlen
    rw [namedFrom_of_some hright]
    have hloop := Walking.namedLoop p.last hwf hroom dirs q.1 q.2
      ((Path.tail (q :: dirs) p.last).length + 1) _ _ hnames (by omega) h (hnode ▸ hdir)
    rw [hnode] at hloop
    exact hloop

/-- What is given back is another inode, or the inode stays. -/
theorem nodeOf_iput {j : ℕ} (hput : iput t i = some u) (hj : (u.inodeTable j).count ≠ 0) :
    u.nodeOf j = t.nodeOf j := by
  rw [Onixs.iput] at hput
  simp only at hput
  split at hput
  · obtain rfl := Option.some.inj hput
    exact nodeOf_setInode (by simp only [Inode.ident]) j
  · obtain ⟨_, -, hput⟩ := Option.bind_eq_some_iff.mp hput
    obtain ⟨_, h0, hput⟩ := Option.bind_eq_some_iff.mp hput
    obtain rfl := Option.some.inj hput
    have hne : j ≠ i := by
      rintro rfl
      have hzero := assert_eq_some.mp h0
      refine hj ?_
      rw [Fs.setInode_self]
      exact hzero
    rw [Fs.nodeOf, Fs.setInode_of_ne _ _ hne]
    simp only [removeInode, Fs.setInode_of_ne _ _ hne]
    rfl

/-- **`namei`**: the inode the path leads to is held, or nothing is. -/
theorem Walking.namei (hwf : s.WellFormed) (hroom : Room s.counts 2) (p : Path) :
    Ends (¬s.TwoFree) (Onixs.namei s p.chars) fun q =>
      Walking s q.2 q.1.toList ∧ q.1.map q.2.nodeOf = p.target s := by
  have hone : Room s.counts 1 := fun j hj => Nat.lt_of_succ_lt (hroom j hj)
  rw [Onixs.namei, Path.target, Forest.walk]
  refine (Walking.named hwf hroom p).bind ?_
  rintro ⟨dir, t⟩ harr
  generalize p.names.foldlM s.forest.enter (s.nodeOf (p.start s.task)) = goal at harr ⊢
  cases goal with
  | none =>
    obtain ⟨rfl, h⟩ := harr
    exact Ends.some ⟨h, rfl⟩
  | some m =>
    obtain ⟨i, rfl, h, rfl, hdir⟩ := harr
    simp only [Option.bind_some]
    by_cases hlast : p.last = []
    · rw [if_pos hlast, Path.final, if_pos hlast]
      exact Ends.some ⟨h, rfl⟩
    rw [if_neg hlast, Path.final, if_neg hlast]
    obtain ⟨d, u, hfind, hu, hnode⟩ :=
      h.findEntry_last hwf hroom hdir p.last_name rfl
    generalize hn : s.forest.up (t.nodeOf i) p.last = n at hfind hnode
    obtain ⟨hdlt, hdused⟩ := hu.held
    obtain ⟨hdev, ⟨k', hk'⟩, -⟩ := hnode ▸ hu.isNode hdlt hdused
    have hup : s.TreeDir n := hn ▸ hwf.up (h.isNode h.held.1 h.held.2).1 hdir
    simp only [hfind, Option.bind_eq_bind, Option.bind_some, Option.elim_some]
    cases hslot : s.slotOf n.1 n.2 p.last with
    | none =>
      obtain ⟨v, hput, hv⟩ := Walking.iput (L := []) hwf hone hu
      simp only [Option.map_none, hput, Option.bind_some]
      exact Ends.some ⟨hv, (lookup_of_none hn hslot).symm⟩
    | some k =>
      have hdevu : (u.inodeTable d).dev = n.1 := congrArg Prod.fst hnode
      simp only [Option.map_some, hdevu]
      refine (hu.iget_slot (L := [d]) hwf hroom (Nat.le_refl 1) hdev hup hk' hslot).bind ?_
      rintro ⟨r, w⟩ ⟨hw, -, hdown⟩
      obtain ⟨x, hput, hx⟩ :=
        Walking.iput (L := [r]) hwf hroom (hw.perm (List.Perm.swap d r []))
      simp only [hput, Option.bind_some]
      refine Ends.some ⟨hx, ?_⟩
      have hrx : (x.inodeTable r).count ≠ 0 := hx.held.2
      rw [Option.map_some, nodeOf_iput hput hrx, hdown, lookup_of_some hn hslot]

end Path

/-! ### Paths -/

/-- **`namei` follows the path.** In a forest of well-formed trees, with two free entries in the inode
table and room in the counters, it returns the inode the walk leads to with one reference
more, or nothing if the walk leads nowhere. -/
theorem namei_target (s : Fs) (hwf : s.WellFormed) (hfree : s.TwoFree) (hroom : Room s.counts 2)
    (p : Path) : ∃ r t, namei s p.chars = some (r, t) ∧ r.map t.nodeOf = p.target s ∧
      ∀ j, t.counts j = s.counts j + r.toList.count j := by
  obtain ⟨⟨r, t⟩, hrun, hw, htarget⟩ :=
    (Walking.namei hwf hroom p).exists_eq_some (not_not_intro hfree)
  exact ⟨r, t, hrun, htarget, hw.holding.count⟩

/-! ### A device with one file -/

/-- The device of `programBlocks`, mounted at the top. -/
def treeFs : Fs := rootFs programBlocks 8

/-- A device with blocks `d`, mounted at the top, and any task running. -/
def userFs (d : ℕ → Bytes) (task : Task) : Fs := { rootFs d 8 with task := task }

/-- **The root directory has one file**, `a`. -/
structure OneFile (s : Fs) : Prop where
  /-- There are three entries, -/
  entries : s.entries 1 1 = 3
  /-- the first two for the directory itself, -/
  entry : ∀ k < 3, s.dentryNr (s.entryOf 1 1 k) = [1, 1, 2].getD k 0
  /-- and these are their names. -/
  names : ∀ k < 3, s.NameAt 1 1 k ([cstr ['.'], cstr ['.', '.'], cstr ['a']].getD k [])
  /-- They are in a block that is there. -/
  blocks : ∀ k < 3, s.zoneAt 1 1 (bmapSlot (k / 64)) ≠ 0
  /-- The root is a directory, -/
  root : isDir (s.descOf 1 1).mode = true
  /-- and the file is none. -/
  file : isDir (s.descOf 1 2).mode = false
  /-- The root is in memory. -/
  holds : s.Holds 1 1 0
  /-- There is room for the number of the file. -/
  inodes : 2 ≤ (s.superDesc 1).inodes

section OneFile

variable {d : ℕ → Bytes} {task : Task}

theorem userFs_dev {dev k : ℕ} (hdev : dev ≠ EOF) (hk : (userFs d task).getSuper dev = some k) : dev = 1 := by
  have hsame : ((userFs d task).superTable k).dev = if k = 0 then 1 else EOF := rootFs_superDev k
  rw [← Fs.dev_of_getSuper hk, hsame] at hdev ⊢
  split at hdev
  · rw [if_pos ‹_›]
  · exact absurd rfl hdev

theorem OneFile.inTree (h : OneFile (userFs d task)) {n : ℕ × ℕ} (hn : (userFs d task).InTree n) :
    n = (1, 1) ∨ n = (1, 2) := by
  induction hn with
  | root hdev hk => exact Or.inl (by rw [userFs_dev hdev hk])
  | @child n k _ hdir hk hnr ih =>
    rcases ih with rfl | rfl
    · rw [h.entries] at hk
      rw [h.entry k hk]
      obtain rfl | rfl | rfl : k = 0 ∨ k = 1 ∨ k = 2 := by omega
      · exact Or.inl rfl
      · exact Or.inl rfl
      · exact Or.inr rfl
    · exact absurd (h.file.symm.trans hdir) Bool.false_ne_true

theorem OneFile.treeDir (h : OneFile (userFs d task)) {n : ℕ × ℕ} (hn : (userFs d task).TreeDir n) : n = (1, 1) := by
  rcases h.inTree hn.1 with rfl | rfl
  · rfl
  · exact absurd (h.file.symm.trans hn.2) Bool.false_ne_true

theorem OneFile.rootDir (h : OneFile (userFs d task)) : (userFs d task).TreeDir (1, 1) :=
  ⟨.root (by decide) rootFs_getSuper, h.root⟩

theorem OneFile.isDirectory (h : OneFile (userFs d task)) : (userFs d task).IsDirectory (1, 1) := by
  have hok : ∀ k < 3, let name := [cstr ['.'], cstr ['.', '.'], cstr ['a']].getD k []
      name ≠ [] ∧ name.length < nameLen ∧ (name.all fun c => !isSeparator c) = true := by decide
  have hnr : ∀ k < 3, [1, 1, 2].getD k 0 ≤ 2 := by decide
  refine ⟨fun k hk => ?_, fun k hk _ => ?_, fun k hk _ => ?_⟩
  all_goals
    have hk3 : k < 3 := Nat.lt_of_lt_of_eq hk h.entries
  · rw [totalBlock_eq]
    exact ⟨by omega, h.blocks k hk3⟩
  · exact ⟨_, (hok k hk3).1, (hok k hk3).2.1, sepFree_of_all (hok k hk3).2.2, h.names k hk3⟩
  · rw [h.entry k hk3]
    exact Nat.le_trans (hnr k hk3) h.inodes

/-- **The tree of such a directory is well formed**, for a task that begins there. -/
theorem OneFile.wellFormed (h : OneFile (userFs d task)) (hiroot : task.iroot = 0) (hipwd : task.ipwd = 0) :
    (userFs d task).WellFormed where
  table := ⟨(rootFs_tableOk (by decide)).free_iff, (rootFs_tableOk (by decide)).used, (rootFs_tableOk (by decide)).nodup⟩
  loaded := by
    refine ⟨fun j hj hused => ?_, fun k j hj => ?_, fun j hj hused => ?_,
      fun j hj j' hj' hused hused' _ => (rootFs_used hused).trans (rootFs_used hused').symm⟩
    · obtain rfl := rootFs_used hused
      exact ⟨0, rootFs_getSuper, List.mem_singleton_self 0⟩
    · obtain ⟨rfl, rfl⟩ := mem_rootFs_list hj
      rfl
    · obtain rfl := rootFs_used hused
      exact h.holds
  pinned := ⟨(rootFs_pinned (by decide)).iroot, (rootFs_pinned (by decide)).imount, (rootFs_pinned (by decide)).top⟩
  bottom := show 8 ≠ 0 by decide
  mounts j _ hm := absurd (rootFs_mount j) hm
  mounted k _ hdev := by
    have hsame : ((userFs d task).superTable k).dev = if k = 0 then 1 else EOF := rootFs_superDev k
    rw [hsame] at hdev
    split at hdev
    · subst k
      exact ⟨0, rfl, h.rootDir⟩
    · exact absurd rfl hdev
  dirs n hn := h.treeDir hn ▸ h.isDirectory
  starts := by
    have hused : ((userFs d task).inodeTable 0).count ≠ 0 := show 8 ≠ 0 by decide
    refine ⟨⟨?_, ?_⟩, ?_, ?_⟩
    · exact hiroot ▸ (by decide : 0 < inodeNr)
    · rwa [show (userFs d task).task.iroot = 0 from hiroot]
    · exact hipwd ▸ (by decide : 0 < inodeNr)
    · rwa [show (userFs d task).task.ipwd = 0 from hipwd]
  iroot := by
    rw [show (userFs d task).task.iroot = 0 from hiroot]
    exact h.rootDir
  ipwd := by
    rw [show (userFs d task).task.ipwd = 0 from hipwd]
    exact h.rootDir

end OneFile

theorem treeFs_oneFile : OneFile treeFs := by
  refine ⟨by decide, by decide, by decide, by decide, by decide, by decide, ?_, by decide⟩
  exact ⟨by decide, by decide, rfl, rfl, by decide, by decide⟩

theorem treeFs_wellFormed : treeFs.WellFormed := OneFile.wellFormed (d := programBlocks) treeFs_oneFile rfl rfl

/-- A path with one name behind a separator. -/
def rootedPath (name : CStr) (hname : ∀ c ∈ name, isSeparator c = false) : Path where
  lead := some ⟨47#8, by decide⟩
  dirs := []
  last := name
  lead_sep c hc := Option.some.inj hc ▸ by decide
  dirs_name _ hp := absurd hp (by simp)
  last_name := hname
  nonempty h := absurd h (by simp)

/-- A path with one name between separators. -/
def rootedPathSep (name : CStr) (hne : name ≠ []) (hname : ∀ c ∈ name, isSeparator c = false) :
    Path where
  lead := some ⟨47#8, by decide⟩
  dirs := [(name, ⟨47#8, by decide⟩)]
  last := []
  lead_sep c hc := Option.some.inj hc ▸ by decide
  dirs_name p hp := by
    obtain rfl := List.mem_singleton.mp hp
    exact ⟨hne, hname, rfl⟩
  last_name _ hc := absurd hc (by simp)
  nonempty h := absurd h (by simp)

theorem treeFs_twoFree : treeFs.TwoFree := ⟨1, by decide, 2, by decide, by decide, by decide, by decide⟩

theorem treeFs_room : Room treeFs.counts 2 := by
  intro j _
  rw [Fs.counts, treeFs, rootFs_inode]
  split <;> decide

/-- The walk to a file behind a separator. -/
theorem namei_target_file : ∃ r t, namei treeFs (rootedPath (cstr ['a']) (sepFree_of_all rfl)).chars = some (r, t) ∧
    r.map t.nodeOf = some (1, 2) ∧ ∀ j, t.counts j = treeFs.counts j + r.toList.count j := by
  have h := namei_target treeFs treeFs_wellFormed treeFs_twoFree treeFs_room
    (rootedPath (cstr ['a']) (sepFree_of_all rfl))
  rwa [show (rootedPath (cstr ['a']) (sepFree_of_all rfl)).target treeFs = some (1, 2) by decide] at h

/-- A regular file followed by a separator is not found, although the path leads to it. -/
theorem namei_fileSep : treeFs.WellFormed ∧ treeFs.TwoFree ∧ Room treeFs.counts 2 ∧
    treeFs.forest.walk (treeFs.nodeOf treeFs.task.iroot) [] (some (cstr ['a'])) = some (1, 2) ∧
    ∃ t, namei treeFs (rootedPathSep (cstr ['a']) (by decide) (sepFree_of_all rfl)).chars = some (none, t) := by
  refine ⟨treeFs_wellFormed, treeFs_twoFree, treeFs_room, by decide, ?_⟩
  obtain ⟨⟨r, t⟩, hrun, -, htarget⟩ := (Walking.namei treeFs_wellFormed treeFs_room
    (rootedPathSep (cstr ['a']) (by decide) (sepFree_of_all rfl))).exists_eq_some (not_not_intro treeFs_twoFree)
  have hnone : (rootedPathSep (cstr ['a']) (by decide) (sepFree_of_all rfl)).target treeFs = none := by decide
  rw [hnone, Option.map_eq_none_iff] at htarget
  exact ⟨t, hrun.trans (congrArg (fun r => some (r, t)) htarget)⟩
end Onixs
