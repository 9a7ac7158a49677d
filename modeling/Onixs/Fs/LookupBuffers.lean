import Onixs.Fs.BufferRefs
import Onixs.Fs.WalkPath

/-!
# The buffers of a look-up

`namei` in a forest of well-formed trees, with the references to the buffers. A pass of the loop of `named` that
finds its name holds the buffer of the entry until the next pass begins (`Onixs.Buffers.Refs.pass`). Where the loop is
left behind such a pass, the buffer is not given back: the loop ends so unless a name is not found
(`Onixs.lookup_refs_iff`).
-/

namespace Onixs

open Bytes

/-! ### The names of a path -/

/-- The names in front of a separator, with these, and what is behind the last. -/
def components : CStr → List (CStr × CChar) × CStr
  | [] => ([], [])
  | c :: path =>
      if isSeparator c then (([], c) :: (components path).1, (components path).2)
      else
        match (components path).1 with
        | [] => ([], c :: (components path).2)
        | (name, sep) :: dirs => ((c :: name, sep) :: dirs, (components path).2)

/-- The inode a walk begins in. -/
def pathStart (task : Task) (path : CStr) : ℕ := if path.head?.any isSeparator then task.iroot else task.ipwd

/-- What is walked from there. -/
def pathRest (path : CStr) : CStr := if path.head?.any isSeparator then path.tail else path

/-- The names a path is walked through. -/
def walkedNames (path : CStr) : List CStr := (components (pathRest path)).1.map Prod.fst

/-- **The names make up the path**, and are free of separators. -/
theorem components_spec (path : CStr) : Path.tail (components path).1 (components path).2 = path ∧
    (∀ p ∈ (components path).1, (∀ c ∈ p.1, isSeparator c = false) ∧ isSeparator p.2 = true) ∧
      ∀ c ∈ (components path).2, isSeparator c = false := by
  induction path with
  | nil => exact ⟨rfl, fun p hp => absurd hp List.not_mem_nil, fun c hc => absurd hc List.not_mem_nil⟩
  | cons c path ih =>
    obtain ⟨htail, hdirs, hlast⟩ := ih
    rw [components]
    cases hsep : isSeparator c with
    | true =>
      rw [if_pos rfl]
      refine ⟨?_, fun p hp => ?_, hlast⟩
      · rw [Path.tail, htail]
        rfl
      · rcases List.mem_cons.mp hp with rfl | hp
        · exact ⟨fun c' hc' => absurd hc' List.not_mem_nil, hsep⟩
        · exact hdirs p hp
    | false =>
      rw [if_neg Bool.false_ne_true]
      generalize (components path).1 = dirs at htail hdirs ⊢
      cases dirs with
      | nil =>
        refine ⟨congrArg (List.cons c) htail, fun p hp => absurd hp List.not_mem_nil, fun c' hc' => ?_⟩
        rcases List.mem_cons.mp hc' with rfl | hc'
        · exact hsep
        · exact hlast c' hc'
      | cons q dirs =>
        obtain ⟨hname, hq⟩ := hdirs q List.mem_cons_self
        refine ⟨congrArg (List.cons c) htail, fun p hp => ?_, hlast⟩
        rcases List.mem_cons.mp hp with rfl | hp
        · refine ⟨fun c' hc' => ?_, hq⟩
          rcases List.mem_cons.mp hc' with rfl | hc'
          · exact hsep
          · exact hname c' hc'
        · exact hdirs p (List.mem_cons_of_mem q hp)

/-! ### Walking -/

namespace Buffers

section Lookup

variable {base : ℕ × ℕ → ℕ} {B : List (ℕ × ℕ)} {o : Option (ℕ × ℕ)} {s : Buffers} {s₀ : Fs} {L : List ℕ} {i : ℕ}
  {name path : CStr} {sep : CChar}

theorem Refs.walkIput (hwf : s₀.WellFormed) (hroom : Room s₀.counts (L.length + 1)) (h : Refs base B s)
    (hw : Walking s₀ s.fs (i :: L)) : ∃ t, s.iput i = some t ∧ Walking s₀ t.fs L ∧ Refs base B t := by
  obtain ⟨u, hput, hu⟩ := hw.iput hwf hroom
  obtain ⟨t, hput', rfl, ht⟩ := h.iput hw.held.1 hw.held.2 (hw.holding.count_lt hroom) hput
  exact ⟨t, hput', hu, ht⟩

/-- What a pass of the loop of `named` does: the name is not there; it does not lead to a directory one may walk
through; or the loop goes on. -/
theorem Refs.pass (hwf : s₀.WellFormed) (hfree : s₀.TwoFree) (hroom : Room s₀.counts 2) (h : Refs base (o.toList ++ B) s)
    (hw : Walking s₀ s.fs [i]) (hdir : s₀.TreeDir (s.fs.nodeOf i)) (hname : ∀ c ∈ name, isSeparator c = false)
    (hsep : isSeparator sep = true) (right path : CStr) (passes : ℕ) :
    (s₀.forest.lookup (s.fs.nodeOf i) name = none ∧ ∃ t,
        s.namedLoop right (passes + 1) i (name ++ sep :: path) o = some (none, t) ∧ Walking s₀ t.fs [] ∧ Refs base B t) ∨
      ∃ n p t, s₀.forest.lookup (s.fs.nodeOf i) name = some n ∧ Refs base (p :: B) t ∧
        ((s₀.forest.pass n = false ∧ Walking s₀ t.fs [] ∧
            s.namedLoop right (passes + 1) i (name ++ sep :: path) o = some (none, t)) ∨
          (s₀.forest.pass n = true ∧ ∃ r, Walking s₀ t.fs [r] ∧ t.fs.nodeOf r = n ∧ s₀.TreeDir n ∧
            s.namedLoop right (passes + 1) i (name ++ sep :: path) o
              = if right = path then some (some (r, path), t) else t.namedLoop right passes r path (some p))) := by
  have hrest : ∀ c ∈ (sep :: path).head?, isSeparator c = true := fun c hc => Option.some.inj hc ▸ hsep
  have hone : Room s₀.counts 1 := hroom.mono (Nat.le_succ 1)
  obtain ⟨s₁, hrel, hfs, h₁⟩ := h.brelseOpt
  rw [← hfs] at hw hdir ⊢
  obtain ⟨d, u, hfind, hu, hnode⟩ := Walking.findEntry (L := []) hwf hroom hw hdir hname hrest rfl
  obtain ⟨s₂, hfind', rfl, h₂⟩ := h₁.findEntry hwf.pinned hw.holding hroom hfind
  generalize hn : s₀.forest.up (s₁.fs.nodeOf i) name = n at hfind hfind' hnode h₂
  obtain ⟨hdev, ⟨k', hk'⟩, -⟩ := hnode ▸ hu.isNode hu.held.1 hu.held.2
  have hup : s₀.TreeDir n := hn ▸ hwf.up (hw.isNode hw.held.1 hw.held.2).1 hdir
  obtain ⟨s₃, hput, h₃, h₃'⟩ := h₂.walkIput (L := []) hwf hone hu
  rw [Buffers.namedLoop, hrel]
  simp only [Option.bind_eq_bind, Option.bind_some, hfind']
  cases hslot : s₀.slotOf n.1 n.2 name with
  | none =>
    rw [hslot] at h₃'
    refine Or.inl ⟨lookup_of_none hn hslot, s₃, ?_, h₃, h₃'⟩
    simp only [Option.map_none, hput, Option.bind_some]
    rfl
  | some k =>
    rw [hslot] at h₃'
    have hdevu : (s₂.fs.inodeTable d).dev = n.1 := congrArg Prod.fst hnode
    obtain ⟨⟨r, v⟩, hget, hv, htree, hdown⟩ :=
      (h₃.iget_slot (L := []) hwf hone (Nat.zero_le _) hdev hup hk' hslot).exists_eq_some (not_not_intro hfree)
    obtain ⟨s₄, hget', rfl, h₄⟩ := h₃'.iget hwf.pinned h₃.holding hone hget
    have hlookup := lookup_of_some hn hslot
    rw [← hdown] at hlookup
    simp only [Option.map_some, hput, Option.bind_some, hdevu, List.tail_cons, hget']
    refine Or.inr ⟨s₄.fs.nodeOf r, bufferOf (s₀.entryOf n.1 n.2 k), ?_⟩
    cases hpass : s₀.forest.pass (s₄.fs.nodeOf r) with
    | true =>
      refine ⟨s₄, hlookup, h₄, Or.inr ⟨rfl, r, hv, rfl, ⟨htree, isDir_of_pass hpass⟩, ?_⟩⟩
      rw [if_neg (mt hv.pass_iff.mp (by simp [hpass]))]
      rfl
    | false =>
      obtain ⟨s₅, hput', h₅, h₅'⟩ := h₄.walkIput (L := []) hwf hone hv
      refine ⟨s₅, hlookup, h₅', Or.inl ⟨rfl, h₅, ?_⟩⟩
      rw [if_pos (hv.pass_iff.mpr hpass)]
      simp only [hput', Option.bind_some]
      rfl

/-- **The loop of `named`** ends with the buffer of the last entry it has found, unless a name is not there. -/
theorem Refs.namedLoop (hwf : s₀.WellFormed) (hfree : s₀.TwoFree) (hroom : Room s₀.counts 2) (last : CStr) :
    ∀ (dirs : List (CStr × CChar)) (name : CStr) (sep : CChar) (passes i : ℕ) (o : Option (ℕ × ℕ)) (s : Buffers),
    (∀ p ∈ (name, sep) :: dirs, (∀ c ∈ p.1, isSeparator c = false) ∧ isSeparator p.2 = true) →
    dirs.length < passes → Walking s₀ s.fs [i] → s₀.TreeDir (s.fs.nodeOf i) → Refs base (o.toList ++ B) s →
    ∃ r t leak, s.namedLoop last passes i (Path.tail ((name, sep) :: dirs) last) o = some (r, t) ∧
      Arrived s₀ last ((name :: dirs.map Prod.fst).foldlM s₀.forest.enter (s.fs.nodeOf i)) (r, t.fs) ∧
      Refs base (Option.toList leak ++ B) t ∧
      (leak = none ↔ s₀.forest.misses (s.fs.nodeOf i) (name :: dirs.map Prod.fst) = true) := by
  intro dirs
  induction dirs with
  | nil =>
    intro name sep passes i o s hdirs hpasses hw hdir h
    obtain ⟨passes, rfl⟩ := Nat.exists_eq_succ_of_ne_zero (Nat.ne_of_gt hpasses)
    obtain ⟨hname, hsep⟩ := hdirs _ List.mem_cons_self
    rw [Path.tail, List.map_nil, List.foldlM_cons, Forest.enter, Forest.misses]
    obtain ⟨hlookup, t, hrun, ht, h'⟩ | ⟨n, p, t, hlookup, h', hcases⟩ :=
      h.pass hwf hfree hroom hw hdir hname hsep last last passes
    · rw [hlookup]
      exact ⟨none, t, none, hrun, ⟨rfl, ht⟩, h', by simp⟩
    · rw [hlookup]
      obtain ⟨hpass, ht, hrun⟩ | ⟨hpass, r, ht, rfl, hdir', hrun⟩ := hcases
      · rw [Option.filter_some_neg hpass]
        exact ⟨none, t, some p, hrun, ⟨rfl, ht⟩, h', by simp [hpass]⟩
      · rw [Option.filter_some_pos hpass]
        rw [if_pos rfl] at hrun
        exact ⟨_, t, some p, hrun, ⟨r, rfl, ht, rfl, hdir'⟩, h', by simp [Forest.misses]⟩
  | cons q dirs ih =>
    intro name sep passes i o s hdirs hpasses hw hdir h
    obtain ⟨passes, rfl⟩ := Nat.exists_eq_succ_of_ne_zero (Nat.ne_of_gt (Nat.zero_lt_of_lt hpasses))
    obtain ⟨hname, hsep⟩ := hdirs _ List.mem_cons_self
    rw [Path.tail, List.map_cons, List.foldlM_cons, Forest.enter, Forest.misses]
    obtain ⟨hlookup, t, hrun, ht, h'⟩ | ⟨n, p, t, hlookup, h', hcases⟩ :=
      h.pass hwf hfree hroom hw hdir hname hsep last (Path.tail (q :: dirs) last) passes
    · rw [hlookup]
      exact ⟨none, t, none, hrun, ⟨rfl, ht⟩, h', by simp⟩
    · rw [hlookup]
      obtain ⟨hpass, ht, hrun⟩ | ⟨hpass, r, ht, rfl, hdir', hrun⟩ := hcases
      · rw [Option.filter_some_neg hpass]
        exact ⟨none, t, some p, hrun, ⟨rfl, ht⟩, h', by simp [hpass]⟩
      · -- there is more than the last name, and the next pass begins with the buffer
        have hne : last ≠ Path.tail (q :: dirs) last := fun heq =>
          Nat.ne_of_lt (length_lt_tail dirs q.1 q.2) (congrArg List.length heq)
        rw [if_neg hne] at hrun
        rw [Option.filter_some_pos hpass, Option.elim_some, hpass, Bool.true_and, hrun]
        exact ih q.1 q.2 passes r (some p) t (fun q' hq' => hdirs q' (List.mem_cons_of_mem _ hq'))
          (Nat.lt_of_succ_lt_succ hpasses) ht hdir' h'

/-- `named` walks from the directory the path begins in. -/
theorem named_of_ne (hpath : path ≠ []) (s : Buffers) : s.named path
    = if pathRest path = [] then
        some (some (pathStart s.fs.task path, pathRest path), s.setFs (s.fs.addCount (pathStart s.fs.task path)))
      else
        match strrsep (pathRest path) with
        | none => some (some (pathStart s.fs.task path, pathRest path), s.setFs (s.fs.addCount (pathStart s.fs.task path)))
        | some right => (s.setFs (s.fs.addCount (pathStart s.fs.task path))).namedLoop right.tail
            ((pathRest path).length + 1) (pathStart s.fs.task path) (pathRest path) none := by
  obtain ⟨c, path, rfl⟩ := List.exists_cons_of_ne_nil hpath
  rw [Buffers.named, pathStart, pathRest, List.head?_cons, Option.any_some]
  cases isSeparator c <;> rfl

/-- **`named`** leaves a buffer behind when it has walked through a name, and all of them have been found. -/
theorem Refs.named (hwf : s.fs.WellFormed) (hfree : s.fs.TwoFree) (hroom : Room s.fs.counts 2) (h : Refs base B s)
    (hpath : path ≠ []) : ∃ r t leak, s.named path = some (r, t) ∧
      Arrived s.fs (components (pathRest path)).2
        ((walkedNames path).foldlM s.fs.forest.enter (s.fs.nodeOf (pathStart s.fs.task path))) (r, t.fs) ∧
      Refs base (Option.toList leak ++ B) t ∧ (leak = none ↔ walkedNames path = [] ∨
        s.fs.forest.misses (s.fs.nodeOf (pathStart s.fs.task path)) (walkedNames path) = true) := by
  have hone : Room s.fs.counts 1 := hroom.mono (Nat.le_succ 1)
  have hdir : s.fs.TreeDir (s.fs.nodeOf (pathStart s.fs.task path)) := by
    rw [pathStart]
    split
    · exact hwf.iroot
    · exact hwf.ipwd
  have hpos : pathStart s.fs.task path < inodeNr ∧ s.fs.counts (pathStart s.fs.task path) ≠ 0 := by
    rw [pathStart]
    split
    · exact hwf.starts.iroot
    · exact hwf.starts.ipwd
  rw [named_of_ne hpath, walkedNames]
  generalize pathStart s.fs.task path = i at hdir hpos ⊢
  have hw : Walking s.fs (s.fs.addCount i) [i] := (Walking.start hwf).addCount (L := []) hone hpos.1 hpos.2
  have h' : Refs base B (s.setFs (s.fs.addCount i)) := h.addCount (Walking.start hwf).holding hone hpos.1 hpos.2
  have hnode : (s.fs.addCount i).nodeOf i = s.fs.nodeOf i := nodeOf_setInode (by rfl) _
  obtain ⟨htail, hdirs, hlast⟩ := components_spec (pathRest path)
  generalize (components (pathRest path)).2 = last at htail hlast ⊢
  generalize (components (pathRest path)).1 = dirs at htail hdirs ⊢
  rw [← htail]
  cases dirs with
  | nil =>
    have hstay : (if last = [] then some (some (i, last), s.setFs (s.fs.addCount i))
        else some (some (i, last), s.setFs (s.fs.addCount i))) = some (some (i, last), s.setFs (s.fs.addCount i)) :=
      ite_self _
    rw [Path.tail, strrsep_of_name hlast]
    exact ⟨_, _, none, hstay, ⟨i, rfl, hw, hnode, hdir⟩, h', by simp⟩
  | cons q dirs =>
    obtain ⟨sep', hright⟩ := strrsep_tail hlast hdirs
    have hne : Path.tail (q :: dirs) last ≠ [] := fun hc => by
      have hlen : last.length < (Path.tail (q :: dirs) last).length := length_lt_tail dirs q.1 q.2
      rw [hc] at hlen
      exact absurd hlen (Nat.not_lt_zero _)
    have hlen := length_le_tail last (q :: dirs)
    rw [List.length_cons] at hlen
    obtain ⟨r, t, leak, hrun, harr, ht, hleak⟩ := Refs.namedLoop hwf hfree hroom last dirs q.1 q.2
      ((Path.tail (q :: dirs) last).length + 1) i none (s.setFs (s.fs.addCount i)) hdirs (by omega) hw (hnode ▸ hdir) h'
    change Arrived s.fs last ((q.1 :: dirs.map Prod.fst).foldlM s.fs.forest.enter ((s.fs.addCount i).nodeOf i)) _ at harr
    change leak = none ↔ s.fs.forest.misses ((s.fs.addCount i).nodeOf i) _ = true at hleak
    rw [hnode] at harr hleak
    rw [if_neg hne, hright]
    exact ⟨r, t, leak, hrun, harr, ht, by rw [hleak]; simp⟩

/-- **`namei`** gives the buffer of its own entry back. -/
theorem Refs.namei (hwf : s.fs.WellFormed) (hfree : s.fs.TwoFree) (hroom : Room s.fs.counts 2) (h : Refs base B s)
    (path : CStr) : ∃ r t leak, s.namei path = some (r, t) ∧ Walking s.fs t.fs (Option.toList r) ∧
      Refs base (Option.toList leak ++ B) t ∧ (leak = none ↔ walkedNames path = [] ∨
        s.fs.forest.misses (s.fs.nodeOf (pathStart s.fs.task path)) (walkedNames path) = true) := by
  rcases eq_or_ne path [] with rfl | hpath
  · exact ⟨none, s, none, rfl, Walking.start hwf, h, by simp [walkedNames, pathRest, components]⟩
  have hone : Room s.fs.counts 1 := hroom.mono (Nat.le_succ 1)
  obtain ⟨r, t, leak, hnamed, harr, ht, hleak⟩ := h.named hwf hfree hroom hpath
  generalize (walkedNames path).foldlM s.fs.forest.enter _ = goal at harr
  rw [Buffers.namei, hnamed]
  simp only [Option.bind_eq_bind, Option.bind_some]
  cases goal with
  | none =>
    obtain ⟨rfl, hw⟩ := harr
    exact ⟨none, t, leak, rfl, hw, ht, hleak⟩
  | some n =>
    obtain ⟨i, rfl, hw, rfl, hdir⟩ := harr
    have hsep := (components_spec (pathRest path)).2.2
    generalize (components (pathRest path)).2 = last at hsep ⊢
    by_cases hlast : last = []
    · exact ⟨some i, t, leak, by simp [hlast], hw, ht, hleak⟩
    obtain ⟨d, u, hfind, hu, hnode⟩ := hw.findEntry_last hwf hroom hdir hsep rfl
    obtain ⟨t₁, hfind', rfl, h₁⟩ := ht.findEntry hwf.pinned hw.holding hroom hfind
    generalize hn : s.fs.forest.up (t.fs.nodeOf i) last = n at hfind hfind' hnode h₁
    obtain ⟨hdev, ⟨k', hk'⟩, -⟩ := hnode ▸ hu.isNode hu.held.1 hu.held.2
    have hup : s.fs.TreeDir n := hn ▸ hwf.up (hw.isNode hw.held.1 hw.held.2).1 hdir
    simp only [if_neg hlast, hfind']
    cases hslot : s.fs.slotOf n.1 n.2 last with
    | none =>
      rw [hslot] at h₁
      obtain ⟨t₂, hput, hw₂, h₂⟩ := h₁.walkIput (L := []) hwf hone hu
      exact ⟨none, t₂, leak, by simp [hput], hw₂, h₂, hleak⟩
    | some k =>
      rw [hslot] at h₁
      have hdevu : (t₁.fs.inodeTable d).dev = n.1 := congrArg Prod.fst hnode
      obtain ⟨⟨r, v⟩, hget, hv, -, -⟩ :=
        (hu.iget_slot (L := [d]) hwf hroom (Nat.le_refl 1) hdev hup hk' hslot).exists_eq_some (not_not_intro hfree)
      obtain ⟨t₂, hget', rfl, h₂⟩ := h₁.iget hwf.pinned hu.holding hroom hget
      obtain ⟨t₃, hput, hw₃, h₃⟩ := h₂.walkIput (L := [r]) hwf hroom (hv.perm (List.Perm.swap d r []))
      obtain ⟨t₄, hrel, hfs, h₄⟩ := h₃.brelse
      refine ⟨some r, t₄, leak, ?_, ?_, h₄, hleak⟩
      · simp only [Option.map_some, Option.bind_some, hdevu, hget', hput]
        rw [hrel]
        rfl
      · rw [hfs]
        exact hw₃

/-- When nothing is held any more, the inodes in memory have the buffers they had. -/
theorem pins_of_walking {t u : Fs} (hw : Walking t u []) (p : ℕ × ℕ) : u.pins p = t.pins p := by
  refine Finset.sum_congr rfl fun j _ => ?_
  have hcount : (u.inodeTable j).count = (t.inodeTable j).count := hw.holding.count j
  rw [Inode.pins, Inode.pins, hcount]
  by_cases hused : (t.inodeTable j).count = 0
  · rw [if_neg fun hc => hc.1 hused, if_neg fun hc => hc.1 hused]
  · have hident := hw.holding.kept j hused
    rw [show (u.inodeTable j).dev = (t.inodeTable j).dev from congrArg Prod.fst hident,
      show (u.inodeTable j).buf = (t.inodeTable j).buf from congrArg (fun p => p.2.2.1) hident]

end Lookup

end Buffers

/-! ### Looking up a path -/

/-- **A look-up gives its buffers back** exactly when it walks through nothing, or comes to a name that is not
there: in a forest of well-formed trees, `namei` and then `iput` of its result leave every count of a buffer what
it was if and only if that is so. -/
theorem lookup_refs_iff (s : Buffers) (hwf : s.fs.WellFormed) (hfree : s.fs.TwoFree) (hroom : Room s.fs.counts 2)
    (hpins : ∀ p, s.fs.pins p ≤ s.refs p) (path : CStr) :
    ∃ r t u, s.namei path = some (r, t) ∧ t.iputOpt r = some u ∧
      ((∀ p, u.refs p = s.refs p) ↔ walkedNames path = [] ∨
        s.fs.forest.misses (s.fs.nodeOf (pathStart s.fs.task path)) (walkedNames path) = true) := by
  have h : Buffers.Refs (fun p => s.refs p - s.fs.pins p) [] s := fun p => by
    have hp := hpins p
    change s.refs p = s.refs p - s.fs.pins p + 0 + s.fs.pins p
    omega
  obtain ⟨r, t, leak, hrun, hw, ht, hleak⟩ := h.namei hwf hfree hroom path
  obtain ⟨u, hput, hu, hrefs⟩ : ∃ u, t.iputOpt r = some u ∧ Walking s.fs u.fs [] ∧
      Buffers.Refs (fun p => s.refs p - s.fs.pins p) (leak.toList ++ []) u := by
    cases r with
    | none => exact ⟨t, rfl, hw, ht⟩
    | some i => exact ht.walkIput (L := []) hwf (hroom.mono (Nat.le_succ 1)) hw
  refine ⟨r, t, u, hrun, hput, ?_⟩
  have hcount : ∀ p, u.refs p = s.refs p + (leak.toList ++ []).count p := fun p => by
    have hp : u.refs p = s.refs p - s.fs.pins p + (leak.toList ++ []).count p + u.fs.pins p := hrefs p
    have hle := hpins p
    rw [Buffers.pins_of_walking hu] at hp
    omega
  rw [← hleak]
  cases leak with
  | none => exact ⟨fun _ => rfl, fun _ p => hcount p⟩
  | some p =>
    refine ⟨fun hall => ?_, fun hc => absurd hc (by simp)⟩
    have hp := hcount p
    rw [hall p, Option.toList_some, List.append_nil, List.count_cons_self] at hp
    omega

/-- The buffers that the inodes in memory have, and no others. -/
def treeBuffers : Buffers := ⟨treeFs, treeFs.pins⟩

/-- A file at the top is looked up, and nothing stays behind. -/
theorem lookup_refs_iff_file : ∃ r t u, treeBuffers.namei (cstr ['/', 'a']) = some (r, t) ∧ t.iputOpt r = some u ∧
    ∀ p, u.refs p = treeBuffers.refs p := by
  obtain ⟨r, t, u, hrun, hput, hiff⟩ := lookup_refs_iff treeBuffers treeFs_wellFormed treeFs_twoFree treeFs_room
    (fun _ => le_refl _) (cstr ['/', 'a'])
  exact ⟨r, t, u, hrun, hput, hiff.mpr (Or.inl (by decide))⟩

/-- The walk through `.` keeps the buffer of its entry. -/
theorem lookup_refs_walked : treeFs.WellFormed ∧ treeFs.TwoFree ∧ Room treeFs.counts 2 ∧
    ((treeBuffers.namei (cstr ['/', '.', '/', 'a'])).bind fun q => q.2.iputOpt q.1).map
      (fun u => (u.refs (1, 5), treeBuffers.refs (1, 5))) = some (1, 0) :=
  ⟨treeFs_wellFormed, treeFs_twoFree, treeFs_room, by decide +kernel⟩

end Onixs
