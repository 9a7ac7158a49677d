import Onixs.Kernel.SchedLife

/-!
# Parents and children

What holds between a task and its parent, as long as `task_exit` is one step: the parent of a task
exists and has not died (`Sched.Family`), no task waits for a child that has died (`Sched.Waits`),
and what `task_waitpid` has returned is what has been passed to `task_exit`, once for each task
(`Sched.Recorded`).

A parent has been made before its children, and a grandparent before them, so that `task_exit`
never makes a task its own parent.
-/

namespace Onixs

namespace Sched

/-- **Every task has a parent**, idle and init among them. -/
structure Family (s : Sched) : Prop where
  /-- Idle is its own parent. -/
  root : ∃ task, s.table idleTask = some task ∧ task.ppid = idleTask
  /-- Init, which `task_waitpid` does not look at, is a child of idle. -/
  init : ∃ task, s.table 1 = some task ∧ task.ppid = idleTask
  /-- The parent of the others has not died, and is older. -/
  parent : ∀ {i task}, s.table i = some task → i ≠ idleTask →
    ∃ parent, s.table task.ppid = some parent ∧ parent.state ≠ .died ∧ parent.serial < task.serial

/-- **Who waits has a reason to.** -/
structure Waits (s : Sched) : Prop where
  /-- The children that a task waits for are alive. -/
  alive : ∀ {i j task child}, s.table i = some task → task.state = .waitting → s.table j = some child →
    child.ppid = i → task.waitpid = -1 ∨ task.waitpid = j → child.state ≠ .died
  /-- The child it waits for is one of its own. -/
  asked : ∀ {i j task}, s.table i = some task → task.state = .waitting → task.waitpid = (j : ℕ) →
    ∃ child, s.table j = some child ∧ child.ppid = i

/-- **What has been passed to `task_exit`, and returned.** -/
structure Recorded (s : Sched) : Prop where
  /-- The tasks have been made. -/
  made : ∀ {i task}, s.table i = some task → task.serial < s.made
  /-- They are different. -/
  distinct : ∀ {i j a b}, s.table i = some a → s.table j = some b → a.serial = b.serial → i = j
  /-- A task that has died has passed its status. -/
  died : ∀ {i task}, s.table i = some task → task.state = .died → (task.serial, task.status) ∈ s.exited
  /-- The others have not. -/
  live : ∀ {i task}, s.table i = some task → task.state ≠ .died → ∀ status, (task.serial, status) ∉ s.exited
  /-- Only tasks that have been made. -/
  exited : ∀ e ∈ s.exited, e.1 < s.made
  /-- Each once. -/
  once : (s.exited.map Prod.fst).Nodup
  /-- Tasks that are in the table have not been returned. -/
  kept : ∀ {i task}, s.table i = some task → ∀ status, (task.serial, status) ∉ s.returned
  /-- What has been returned has been passed. -/
  returned : ∀ e ∈ s.returned, e ∈ s.exited
  /-- Each task has been returned once. -/
  single : (s.returned.map Prod.fst).Nodup

/-- The same tasks, some of which may wait. -/
structure Alike (s t : Sched) : Prop where
  /-- The tasks of `t`. -/
  back : ∀ {i b}, t.table i = some b → ∃ a, s.table i = some a ∧ b.ppid = a.ppid ∧ b.status = a.status ∧
    b.serial = a.serial ∧ (b.state = .died ↔ a.state = .died)
  /-- The tasks of `s`. -/
  forth : ∀ {i a}, s.table i = some a → ∃ b, t.table i = some b ∧ b.ppid = a.ppid ∧ b.status = a.status ∧
    b.serial = a.serial ∧ (b.state = .died ↔ a.state = .died)
  /-- The tasks that have been made. -/
  made : t.made = s.made
  /-- The tasks that have died. -/
  exited : t.exited = s.exited
  /-- The tasks that have been returned. -/
  returned : t.returned = s.returned

variable {s t u : Sched} {i j pid ppid : ℕ} {task a b : SchedTask} {status query : ℤ}

theorem Stirs.back (h : Stirs s t) (hb : t.table i = some b) : ∃ a, s.table i = some a ∧ Stirred a b := by
  cases ha : s.table i with
  | none => exact absurd (h.empty.mpr ha) (by simp [hb])
  | some a => exact ⟨a, rfl, h.task ha hb⟩

theorem Stirs.forth (h : Stirs s t) (ha : s.table i = some a) : ∃ b, t.table i = some b ∧ Stirred a b := by
  cases hb : t.table i with
  | none => exact absurd (h.empty.mp hb) (by simp [ha])
  | some b => exact ⟨b, rfl, h.task ha hb⟩

theorem Stirs.alike (h : Stirs s t) : Alike s t := by
  refine ⟨fun hb => ?_, fun ha => ?_, h.made, h.exited, h.returned⟩
  · obtain ⟨a, ha, hab⟩ := h.back hb
    exact ⟨a, ha, hab.ppid, hab.status, hab.serial, hab.died⟩
  · obtain ⟨b, hb, hab⟩ := h.forth ha
    exact ⟨b, hb, hab.ppid, hab.status, hab.serial, hab.died⟩

theorem Family.alike (h : s.Family) (hst : Alike s t) : t.Family := by
  refine ⟨?_, ?_, fun {i b} hb hi => ?_⟩
  · obtain ⟨a, ha, hppid⟩ := h.root
    obtain ⟨b, hb, hbppid, -⟩ := hst.forth ha
    exact ⟨b, hb, hbppid.trans hppid⟩
  · obtain ⟨a, ha, hppid⟩ := h.init
    obtain ⟨b, hb, hbppid, -⟩ := hst.forth ha
    exact ⟨b, hb, hbppid.trans hppid⟩
  · obtain ⟨a, ha, hppid, -, hserial, -⟩ := hst.back hb
    obtain ⟨p, hp, hlive, hlt⟩ := h.parent ha hi
    obtain ⟨q, hq, -, -, hqserial, hqdied⟩ := hst.forth hp
    exact ⟨q, hppid ▸ hq, fun hc => hlive (hqdied.mp hc), by rw [hqserial, hserial]; exact hlt⟩

/-- Nothing that has been recorded has changed. -/
theorem Recorded.congr (h : s.Recorded)
    (hback : ∀ {i b}, t.table i = some b → ∃ a, s.table i = some a ∧ b.status = a.status ∧ b.serial = a.serial ∧
      (b.state = .died ↔ a.state = .died))
    (hmade : t.made = s.made) (hexited : t.exited = s.exited) (hreturned : t.returned = s.returned) : t.Recorded := by
  refine ⟨fun {i b} hb => ?_, fun {i j b b'} hb hb' heq => ?_, fun {i b} hb hd => ?_, fun {i b} hb hd status => ?_,
    ?_, hexited ▸ h.once, fun {i b} hb status => ?_, ?_, hreturned ▸ h.single⟩
  · obtain ⟨a, ha, -, hserial, -⟩ := hback hb
    rw [hserial, hmade]
    exact h.made ha
  · obtain ⟨a, ha, -, hserial, -⟩ := hback hb
    obtain ⟨a', ha', -, hserial', -⟩ := hback hb'
    exact h.distinct ha ha' (hserial.symm.trans (heq.trans hserial'))
  · obtain ⟨a, ha, hstatus, hserial, hdied⟩ := hback hb
    rw [hserial, hstatus, hexited]
    exact h.died ha (hdied.mp hd)
  · obtain ⟨a, ha, -, hserial, hdied⟩ := hback hb
    rw [hserial, hexited]
    exact h.live ha (fun hc => hd (hdied.mpr hc)) status
  · rw [hexited, hmade]
    exact h.exited
  · obtain ⟨a, ha, -, hserial, -⟩ := hback hb
    rw [hserial, hreturned]
    exact h.kept ha status
  · rw [hexited, hreturned]
    exact h.returned

theorem Recorded.alike (h : s.Recorded) (hst : Alike s t) : t.Recorded := by
  refine h.congr (fun hb => ?_) hst.made hst.exited hst.returned
  obtain ⟨a, ha, -, hsame⟩ := hst.back hb
  exact ⟨a, ha, hsame⟩

theorem Waits.stirs (h : s.Waits) (hst : Stirs s t) : t.Waits := by
  refine ⟨fun {i j b d} hb hwait hd hppid hquery => ?_, fun {i j b} hb hwait hquery => ?_⟩
  · obtain ⟨a, ha, hab⟩ := hst.back hb
    obtain ⟨c, hc, hcd⟩ := hst.back hd
    obtain ⟨hawait, hawaitpid⟩ := hab.waitting hwait
    rw [hawaitpid] at hquery
    exact fun hdied => h.alive ha hawait hc (hcd.ppid.symm.trans hppid) hquery (hcd.died.mp hdied)
  · obtain ⟨a, ha, hab⟩ := hst.back hb
    obtain ⟨hawait, hawaitpid⟩ := hab.waitting hwait
    obtain ⟨c, hc, hppid⟩ := h.asked ha hawait (hawaitpid.symm.trans hquery)
    obtain ⟨d, hd, hcd⟩ := hst.forth hc
    exact ⟨d, hd, hcd.ppid.trans hppid⟩

/-! ### `task_fork` -/

section Born

variable (hborn : Born s t pid)
include hborn

/-- The tasks of `s` are still there. -/
theorem Born.keep (ha : s.table i = some a) : t.table i = some a := by
  refine (hborn.other ?_).trans ha
  rintro rfl
  exact absurd (ha.symm.trans hborn.free) (by simp)

/-- A task of `t` is the child, or was there before. -/
theorem Born.cases (hb : t.table i = some b) :
    (i = pid ∧ b.ppid = s.current ∧ b.serial = s.made ∧ b.state = .ready) ∨ (i ≠ pid ∧ s.table i = some b) := by
  rcases eq_or_ne i pid with rfl | hi
  · obtain ⟨child, hchild, hppid, hserial, hstate⟩ := hborn.child
    obtain rfl := Option.some.inj (hb.symm.trans hchild)
    exact Or.inl ⟨rfl, hppid, hserial, hstate⟩
  · exact Or.inr ⟨hi, (hborn.other hi).symm.trans hb⟩

theorem Family.born (h : s.Family) (hrec : s.Recorded) (hactive : s.Active) : t.Family := by
  refine ⟨?_, ?_, fun {i b} hb hi => ?_⟩
  · obtain ⟨a, ha, hppid⟩ := h.root
    exact ⟨a, hborn.keep ha, hppid⟩
  · obtain ⟨a, ha, hppid⟩ := h.init
    exact ⟨a, hborn.keep ha, hppid⟩
  · rcases hborn.cases hb with ⟨-, hppid, hserial, -⟩ | ⟨-, ha⟩
    · obtain ⟨task, ht, hrun⟩ := hactive
      exact ⟨task, hppid ▸ hborn.keep ht, by rw [hrun]; simp, hserial ▸ hrec.made ht⟩
    · obtain ⟨p, hp, hlive⟩ := h.parent ha hi
      exact ⟨p, hborn.keep hp, hlive⟩

theorem Waits.born (h : s.Waits) : t.Waits := by
  refine ⟨fun {i j b d} hb hwait hd hppid hquery => ?_, fun {i j b} hb hwait hquery => ?_⟩
  · rcases hborn.cases hb with ⟨-, -, -, hready⟩ | ⟨-, ha⟩
    · exact absurd (hwait.symm.trans hready) (by simp)
    · rcases hborn.cases hd with ⟨-, -, -, hready⟩ | ⟨-, hc⟩
      · rw [hready]
        simp
      · exact h.alive ha hwait hc hppid hquery
  · rcases hborn.cases hb with ⟨-, -, -, hready⟩ | ⟨-, ha⟩
    · exact absurd (hwait.symm.trans hready) (by simp)
    · obtain ⟨c, hc, hppid⟩ := h.asked ha hwait hquery
      exact ⟨c, hborn.keep hc, hppid⟩

theorem Recorded.born (h : s.Recorded) : t.Recorded := by
  refine ⟨fun {i b} hb => ?_, fun {i j b b'} hb hb' heq => ?_, fun {i b} hb hd => ?_, fun {i b} hb hd status hin => ?_,
    fun e he => ?_, hborn.exited ▸ h.once, fun {i b} hb status hin => ?_, ?_, hborn.returned ▸ h.single⟩
  · rw [hborn.made]
    rcases hborn.cases hb with ⟨-, -, hserial, -⟩ | ⟨-, ha⟩
    · omega
    · exact Nat.lt_succ_of_lt (h.made ha)
  · rcases hborn.cases hb with ⟨hi, -, hserial, -⟩ | ⟨-, ha⟩ <;>
      rcases hborn.cases hb' with ⟨hj, -, hserial', -⟩ | ⟨-, ha'⟩
    · rw [hi, hj]
    · exact absurd (h.made ha') (by omega)
    · exact absurd (h.made ha) (by omega)
    · exact h.distinct ha ha' heq
  · rcases hborn.cases hb with ⟨-, -, -, hready⟩ | ⟨-, ha⟩
    · exact absurd (hd.symm.trans hready) (by simp)
    · rw [hborn.exited]
      exact h.died ha hd
  · rw [hborn.exited] at hin
    rcases hborn.cases hb with ⟨-, -, hserial, -⟩ | ⟨-, ha⟩
    · exact absurd (h.exited _ hin) (by simp [hserial])
    · exact h.live ha hd status hin
  · rw [hborn.exited] at he
    rw [hborn.made]
    exact Nat.lt_succ_of_lt (h.exited e he)
  · rw [hborn.returned] at hin
    rcases hborn.cases hb with ⟨-, -, hserial, -⟩ | ⟨-, ha⟩
    · exact absurd (h.exited _ (h.returned _ hin)) (by simp [hserial])
    · exact h.kept ha status hin
  · rw [hborn.returned, hborn.exited]
    exact h.returned

end Born

/-! ### `task_waitpid` -/

section Reaps

variable (hreaps : Reaps s t query pid status)
include hreaps

/-- The tasks of `t` were there before. -/
theorem Reaps.back (hb : t.table i = some b) : i ≠ pid ∧ s.table i = some b := by
  have hi : i ≠ pid := by
    rintro rfl
    exact absurd (hb.symm.trans hreaps.free) (by simp)
  exact ⟨hi, (hreaps.other hi).symm.trans hb⟩

theorem Family.reaps (h : s.Family) (hlinked : s.Linked) (hidle : s.current ≠ idleTask) : t.Family := by
  obtain ⟨child, hchild, hdied, hppid, -⟩ := hreaps.child
  have hkeep : ∀ {i a}, s.table i = some a → a ≠ child → t.table i = some a := by
    intro i a ha hne
    refine (hreaps.other ?_).trans ha
    rintro rfl
    exact hne (Option.some.inj (ha.symm.trans hchild))
  refine ⟨?_, ?_, fun {i b} hb hi => ?_⟩
  · obtain ⟨a, ha, hroot⟩ := h.root
    refine ⟨a, hkeep ha ?_, hroot⟩
    rintro rfl
    exact hlinked.ne_idle ha (Or.inr hdied) rfl
  · obtain ⟨a, ha, hroot⟩ := h.init
    refine ⟨a, hkeep ha ?_, hroot⟩
    rintro rfl
    exact hidle (hppid.symm.trans hroot)
  · obtain ⟨-, ha⟩ := hreaps.back hb
    obtain ⟨p, hp, hlive, hlt⟩ := h.parent ha hi
    refine ⟨p, hkeep hp ?_, hlive, hlt⟩
    rintro rfl
    exact hlive hdied

theorem Waits.reaps (h : s.Waits) (hactive : s.Active) : t.Waits := by
  refine ⟨fun {i j b d} hb hwait hd hppid hquery => ?_, fun {i j b} hb hwait hquery => ?_⟩
  · exact h.alive (hreaps.back hb).2 hwait (hreaps.back hd).2 hppid hquery
  · obtain ⟨-, ha⟩ := hreaps.back hb
    obtain ⟨c, hc, hppid⟩ := h.asked ha hwait hquery
    refine ⟨c, (hreaps.other ?_).trans hc, hppid⟩
    -- the child that is returned is one of the caller, who does not wait
    rintro rfl
    obtain ⟨child, hchild, -, hparent, -⟩ := hreaps.child
    obtain rfl := Option.some.inj (hc.symm.trans hchild)
    obtain ⟨task, ht, hrun⟩ := hactive
    obtain rfl := Option.some.inj (ht.symm.trans ((hppid.symm.trans hparent) ▸ ha))
    exact absurd (hwait.symm.trans hrun) (by simp)

theorem Recorded.reaps (h : s.Recorded) : t.Recorded := by
  obtain ⟨child, hchild, hdied, -, -, rfl, hreturned⟩ := hreaps.child
  refine ⟨fun {i b} hb => ?_, fun {i j b b'} hb hb' heq => ?_, fun {i b} hb hd => ?_, fun {i b} hb hd => ?_,
    ?_, hreaps.exited ▸ h.once, fun {i b} hb k hin => ?_, fun e he => ?_, ?_⟩
  · rw [hreaps.made]
    exact h.made (hreaps.back hb).2
  · exact h.distinct (hreaps.back hb).2 (hreaps.back hb').2 heq
  · rw [hreaps.exited]
    exact h.died (hreaps.back hb).2 hd
  · rw [hreaps.exited]
    exact h.live (hreaps.back hb).2 hd
  · rw [hreaps.exited, hreaps.made]
    exact h.exited
  · obtain ⟨hi, ha⟩ := hreaps.back hb
    rw [hreturned] at hin
    rcases List.mem_append.mp hin with hin | hin
    · exact h.kept ha k hin
    · exact hi (h.distinct ha hchild (Prod.mk.inj (List.mem_singleton.mp hin)).1)
  · rw [hreturned] at he
    rw [hreaps.exited]
    rcases List.mem_append.mp he with he | he
    · exact h.returned e he
    · rw [List.mem_singleton.mp he]
      exact h.died hchild hdied
  · rw [hreturned, List.map_append]
    refine List.nodup_append'.mpr ⟨h.single, List.nodup_singleton _, ?_⟩
    rw [List.map_singleton, List.disjoint_singleton]
    intro hin
    obtain ⟨⟨k, x⟩, he, rfl⟩ := List.mem_map.mp hin
    exact h.kept hchild x he

end Reaps

/-- The task that waits. -/
theorem table_waitsFor (s : Sched) (query : ℤ) (i : ℕ) : (s.waitsFor query).table i = (s.table i).map fun task =>
    if i = s.current then { task with waitpid := query, node := some blockList, state := .waitting } else task := by
  rw [waitsFor, linkedIn]
  refine (table_modify s.current _ i).trans ?_
  rw [show (((s.modify s.current _).setList blockList _).table i) = _ from table_modify s.current _ i, Option.map_map]
  refine congrArg (fun f => (s.table i).map f) (funext fun task => ?_)
  by_cases hi : i = s.current
  · simp [hi]
  · simp [hi]

/-- A task that waits for a child is the same task. -/
theorem Alike.waitsFor (hactive : s.Active) (query : ℤ) : Alike s (s.waitsFor query) := by
  obtain ⟨task, ht, hrun⟩ := hactive
  have hsame : ∀ {i a}, s.table i = some a → ∀ b,
      b = (if i = s.current then { a with waitpid := query, node := some blockList, state := .waitting } else a) →
      b.ppid = a.ppid ∧ b.status = a.status ∧ b.serial = a.serial ∧ (b.state = .died ↔ a.state = .died) := by
    rintro i a ha b rfl
    split
    next hi =>
      obtain rfl := Option.some.inj (ht.symm.trans (hi ▸ ha))
      exact ⟨rfl, rfl, rfl, iff_of_false (by simp) (by rw [hrun]; simp)⟩
    next => exact ⟨rfl, rfl, rfl, Iff.rfl⟩
  refine ⟨fun {i b} hb => ?_, fun {i a} ha => ?_, rfl, rfl, rfl⟩
  · rw [table_waitsFor] at hb
    obtain ⟨a, ha, hab⟩ := Option.map_eq_some_iff.mp hb
    exact ⟨a, ha, hsame ha b hab.symm⟩
  · refine ⟨_, ?_, hsame ha _ rfl⟩
    rw [table_waitsFor, ha]
    rfl

/-- **A task begins to wait**, for children that are alive. -/
theorem Waits.waitsFor (h : s.Waits) (hlinked : s.Linked) (hfamily : s.Family) (hactive : s.Active)
    (hidle : s.current ≠ idleTask) (hsome : ∃ i, s.Matches s.current query i)
    (halive : ∀ i, 2 ≤ i → s.Matches s.current query i → ¬s.Died i) : (s.waitsFor query).Waits := by
  have hback : ∀ {i b}, (s.waitsFor query).table i = some b → ∃ a, s.table i = some a ∧ b.ppid = a.ppid ∧
      ((i = s.current ∧ b.waitpid = query) ∨ (i ≠ s.current ∧ b = a)) := by
    intro i b hb
    rw [table_waitsFor] at hb
    obtain ⟨a, ha, rfl⟩ := Option.map_eq_some_iff.mp hb
    refine ⟨a, ha, ?_⟩
    split
    next hi => exact ⟨rfl, Or.inl ⟨hi, rfl⟩⟩
    next hi => exact ⟨rfl, Or.inr ⟨hi, rfl⟩⟩
  have halike := Alike.waitsFor hactive query
  refine ⟨fun {i j b d} hb hwait hd hppid hquery hdied => ?_, fun {i j b} hb hwait hquery => ?_⟩
  · obtain ⟨c, hc, hdc, -, -, hdied'⟩ := halike.back hd
    obtain ⟨a, ha, -, ⟨rfl, hwaitpid⟩ | ⟨-, rfl⟩⟩ := hback hb
    · have hj : 2 ≤ j := by
        -- idle and init are children of idle
        by_contra hlt
        obtain rfl | rfl : j = 0 ∨ j = 1 := by omega
        · obtain ⟨e, he, hroot⟩ := hfamily.root
          obtain rfl := Option.some.inj (hc.symm.trans he)
          exact hidle (hppid.symm.trans (hdc.trans hroot))
        · obtain ⟨e, he, hroot⟩ := hfamily.init
          obtain rfl := Option.some.inj (hc.symm.trans he)
          exact hidle (hppid.symm.trans (hdc.trans hroot))
      rw [hwaitpid] at hquery
      exact halive j hj ((hlinked.matches_iff hc).mpr ⟨hdc.symm.trans hppid, hquery⟩) ⟨c, hc, hdied'.mp hdied⟩
    · exact h.alive ha hwait hc (hdc.symm.trans hppid) hquery (hdied'.mp hdied)
  · obtain ⟨a, ha, -, ⟨rfl, hwaitpid⟩ | ⟨-, rfl⟩⟩ := hback hb
    · obtain ⟨k, hk⟩ := hsome
      obtain ⟨c, hc, -⟩ := id hk
      obtain ⟨hppid, hkquery⟩ := (hlinked.matches_iff hc).mp hk
      obtain rfl : k = j := by omega
      obtain ⟨d, hd, hdc, -⟩ := halike.forth hc
      exact ⟨d, hd, hdc.trans hppid⟩
    · obtain ⟨c, hc, hppid⟩ := h.asked ha hwait hquery
      obtain ⟨d, hd, hdc, -⟩ := halike.forth hc
      exact ⟨d, hd, hdc.trans hppid⟩

/-! ### `task_exit` -/

/-- The running task has died, and its children have its parent. -/
def orphaned (s : Sched) (task : SchedTask) (status : ℤ) : Sched :=
  (s.killed task.serial status).reparent s.current task.ppid

/-- `b` is `a` when task `pid` has died and its children have the parent `ppid`. -/
structure Orphan (pid ppid : ℕ) (status : ℤ) (i : ℕ) (a b : SchedTask) : Prop where
  /-- The task. -/
  serial : b.serial = a.serial
  /-- The child it waits for. -/
  waitpid : b.waitpid = a.waitpid
  /-- A child of the task has another parent. -/
  ppid : (a.ppid = pid ∧ b.ppid = ppid) ∨ (a.ppid ≠ pid ∧ b.ppid = a.ppid)
  /-- Only the one task has died. -/
  state : (i = pid ∧ b.state = .died ∧ b.status = status) ∨ (i ≠ pid ∧ b.state = a.state ∧ b.status = a.status)

section Exit

variable (h : s.Linked) (hfamily : s.Family) (ht : s.table s.current = some task)

include h in
theorem table_orphaned (i : ℕ) : ∃ f : SchedTask → SchedTask,
    (s.orphaned task status).table i = (s.table i).map f ∧ ∀ a, Orphan s.current task.ppid status i a (f a) := by
  have hslot : ∀ {i a}, (s.killed task.serial status).table i = some a → i < taskNumber := by
    intro i a ha
    rcases table_modify_eq_some.mp ha with ⟨-, ha⟩ | ⟨rfl, a, ha, -⟩
    · exact (h.slot ha).1
    · exact (h.slot ha).1
  refine ⟨fun a => reparented s.current task.ppid
    (if i = s.current then { a with state := .died, status := status } else a), ?_, fun a => ?_⟩
  · have htable : (s.orphaned task status).table i = ((s.killed task.serial status).table i).map
        (reparented s.current task.ppid) := by
      by_cases hi : i < taskNumber
      · exact if_pos hi
      · refine (if_neg hi).trans ?_
        cases hti : (s.killed task.serial status).table i with
        | none => rfl
        | some a => exact absurd (hslot hti) hi
    rw [htable, show (s.killed task.serial status).table i = _ from table_modify s.current _ i, Option.map_map]
    rfl
  · beta_reduce
    rw [reparented_eq]
    refine ⟨?_, ?_, ?_, ?_⟩
    · split <;> rfl
    · split <;> rfl
    · have hppid : (if i = s.current then { a with state := .died, status := status } else a).ppid = a.ppid := by
        split <;> rfl
      rw [hppid]
      by_cases hchild : a.ppid = s.current
      · exact Or.inl ⟨hchild, if_pos hchild⟩
      · exact Or.inr ⟨hchild, if_neg hchild⟩
    · split
      next hi => exact Or.inl ⟨hi, rfl, rfl⟩
      next hi => exact Or.inr ⟨hi, rfl, rfl⟩

include h in
theorem orphaned_back (hb : (s.orphaned task status).table i = some b) :
    ∃ a, s.table i = some a ∧ Orphan s.current task.ppid status i a b := by
  obtain ⟨f, hf, horphan⟩ := table_orphaned h i
  rw [hf] at hb
  obtain ⟨a, ha, rfl⟩ := Option.map_eq_some_iff.mp hb
  exact ⟨a, ha, horphan a⟩

include h in
theorem orphaned_forth (ha : s.table i = some a) :
    ∃ b, (s.orphaned task status).table i = some b ∧ Orphan s.current task.ppid status i a b := by
  obtain ⟨f, hf, horphan⟩ := table_orphaned h i
  exact ⟨f a, by rw [hf, ha]; rfl, horphan a⟩

include hfamily ht in
/-- The parent is another task, which is alive. -/
theorem Family.grandparent (hidle : s.current ≠ idleTask) :
    ∃ parent, s.table task.ppid = some parent ∧ task.ppid ≠ s.current ∧ parent.state ≠ .died ∧
      parent.serial < task.serial := by
  obtain ⟨p, hp, hlive, hlt⟩ := hfamily.parent ht hidle
  refine ⟨p, hp, fun heq => ?_, hlive, hlt⟩
  obtain rfl := Option.some.inj (ht.symm.trans (heq ▸ hp))
  exact absurd hlt (Nat.lt_irrefl _)

include h hfamily ht in
theorem Family.orphaned (hidle : s.current ≠ idleTask) (status : ℤ) : (s.orphaned task status).Family := by
  have hroot : ∀ {i a}, s.table i = some a → a.ppid = idleTask →
      ∃ b, (s.orphaned task status).table i = some b ∧ b.ppid = idleTask := by
    intro i a ha hppid
    obtain ⟨b, hb, hab⟩ := orphaned_forth h ha
    rcases hab.ppid with ⟨hc, -⟩ | ⟨-, hb'⟩
    · exact absurd (hc.symm.trans hppid) hidle
    · exact ⟨b, hb, hb'.trans hppid⟩
  obtain ⟨p, hp, hne, hlive, hlt⟩ := hfamily.grandparent ht hidle
  refine ⟨?_, ?_, fun {i b} hb hi => ?_⟩
  · obtain ⟨a, ha, hppid⟩ := hfamily.root
    exact hroot ha hppid
  · obtain ⟨a, ha, hppid⟩ := hfamily.init
    exact hroot ha hppid
  · obtain ⟨a, ha, hab⟩ := orphaned_back h hb
    obtain ⟨c, hc, hclive, hclt⟩ := hfamily.parent ha hi
    rcases hab.ppid with ⟨hchild, hppid⟩ | ⟨hchild, hppid⟩
    · -- a child of the task that dies: its parent is the grandparent
      obtain rfl := Option.some.inj (ht.symm.trans (hchild ▸ hc))
      obtain ⟨q, hq, hpq⟩ := orphaned_forth h hp
      obtain ⟨-, hstate, -⟩ := hpq.state.resolve_left fun hx => hne hx.1
      exact ⟨q, hppid ▸ hq, by rw [hstate]; exact hlive, by rw [hpq.serial, hab.serial]; omega⟩
    · obtain ⟨q, hq, hcq⟩ := orphaned_forth h hc
      obtain ⟨-, hstate, -⟩ := hcq.state.resolve_left fun hx => hchild hx.1
      exact ⟨q, hppid ▸ hq, by rw [hstate]; exact hclive, by rw [hcq.serial, hab.serial]; exact hclt⟩

include ht in
/-- A task of `s` when the task that runs has died. -/
theorem killed_back (hb : (s.killed task.serial status).table i = some b) :
    (i ≠ s.current ∧ s.table i = some b) ∨
      (i = s.current ∧ b.serial = task.serial ∧ b.state = .died ∧ b.status = status) := by
  rcases table_modify_eq_some.mp hb with ⟨hi, ha⟩ | ⟨hi, a, ha, rfl⟩
  · exact Or.inl ⟨hi, ha⟩
  · obtain rfl := Option.some.inj (ht.symm.trans ha)
    exact Or.inr ⟨hi, rfl, rfl, rfl⟩

include ht in
theorem Recorded.killed (hrec : s.Recorded) (hrun : task.state = .running) (status : ℤ) :
    (s.killed task.serial status).Recorded := by
  have hexited : (s.killed task.serial status).exited = s.exited ++ [(task.serial, status)] := rfl
  have hlive : ∀ x, (task.serial, x) ∉ s.exited := hrec.live ht (by rw [hrun]; simp)
  -- a task of the new state has the serial of a task in the same slot
  have hback : ∀ {i b}, (s.killed task.serial status).table i = some b →
      ∃ a, s.table i = some a ∧ b.serial = a.serial := by
    intro i b hb
    rcases killed_back ht hb with ⟨-, ha⟩ | ⟨rfl, hserial, -⟩
    · exact ⟨b, ha, rfl⟩
    · exact ⟨task, ht, hserial⟩
  refine ⟨fun {i b} hb => ?_, fun {i j b b'} hb hb' heq => ?_, fun {i b} hb hd => ?_, fun {i b} hb hd x hin => ?_,
    fun e he => ?_, ?_, fun {i b} hb x => ?_, fun e he => ?_, hrec.single⟩
  · obtain ⟨a, ha, hserial⟩ := hback hb
    rw [hserial]
    exact hrec.made ha
  · obtain ⟨a, ha, hserial⟩ := hback hb
    obtain ⟨a', ha', hserial'⟩ := hback hb'
    exact hrec.distinct ha ha' (hserial.symm.trans (heq.trans hserial'))
  · rw [hexited]
    rcases killed_back ht hb with ⟨-, ha⟩ | ⟨-, hserial, -, hstatus⟩
    · exact List.mem_append_left _ (hrec.died ha hd)
    · rw [hserial, hstatus]
      exact List.mem_append_right _ List.mem_cons_self
  · rcases killed_back ht hb with ⟨hi, ha⟩ | ⟨-, -, hdied, -⟩
    · rw [hexited] at hin
      rcases List.mem_append.mp hin with hin | hin
      · exact hrec.live ha hd x hin
      · exact hi (hrec.distinct ha ht (Prod.mk.inj (List.mem_singleton.mp hin)).1)
    · exact hd hdied
  · rw [hexited] at he
    rcases List.mem_append.mp he with he | he
    · exact hrec.exited e he
    · rw [List.mem_singleton.mp he]
      exact hrec.made ht
  · rw [hexited, List.map_append]
    refine List.nodup_append'.mpr ⟨hrec.once, List.nodup_singleton _, ?_⟩
    rw [List.map_singleton, List.disjoint_singleton]
    intro hin
    obtain ⟨⟨k, x⟩, he, hk⟩ := List.mem_map.mp hin
    obtain rfl : k = task.serial := hk
    exact hlive x he
  · obtain ⟨a, ha, hserial⟩ := hback hb
    rw [hserial]
    exact hrec.kept ha x
  · rw [hexited]
    exact List.mem_append_left _ (hrec.returned e he)

/-- The parents are not recorded. -/
theorem Recorded.reparent (hrec : s.Recorded) (hlinked : s.Linked) (pid ppid : ℕ) : (s.reparent pid ppid).Recorded := by
  refine hrec.congr (fun {i b} hb => ?_) rfl rfl rfl
  rw [hlinked.table_reparent] at hb
  obtain ⟨a, ha, rfl⟩ := Option.map_eq_some_iff.mp hb
  rw [reparented_eq]
  exact ⟨a, ha, rfl, rfl, Iff.rfl⟩

include h ht in
/-- **A task that exits wakes the parent that waits for it**, and nobody else has to be. -/
theorem Waits.exit (hwaits : s.Waits)
    (hwakes : WakesParent (s.orphaned task status) u s.current task.ppid) : u.Waits := by
  -- a task that waits in `u` waited in `s`
  have hback : ∀ {i d}, u.table i = some d → d.state = .waitting → ∃ a, s.table i = some a ∧
      a.state = .waitting ∧ i ≠ s.current ∧ a.waitpid = d.waitpid ∧
      (i = task.ppid → d.waitpid ≠ -1 ∧ d.waitpid ≠ s.current) := by
    intro i d hd hwait
    obtain ⟨b, hb, hbd⟩ := hwakes.stirs.back hd
    obtain ⟨a, ha, hab⟩ := orphaned_back h hb
    obtain ⟨hbwait, hwaitpid⟩ := hbd.waitting hwait
    obtain ⟨hi, hstate, -⟩ := hab.state.resolve_left fun hx => absurd (hbwait.symm.trans hx.2.1) (by simp)
    refine ⟨a, ha, hstate.symm.trans hbwait, hi, (hwaitpid.trans hab.waitpid).symm, ?_⟩
    rintro rfl
    rw [← not_or]
    intro hquery
    obtain ⟨d', hd', hready⟩ := hwakes.ready hb hbwait (hwaitpid ▸ hquery)
    obtain rfl := Option.some.inj (hd.symm.trans hd')
    exact absurd (hwait.symm.trans hready) (by simp)
  refine ⟨fun {i j d e} hd hwait he hppid hquery hdied => ?_, fun {i j d} hd hwait hquery => ?_⟩
  · obtain ⟨a, ha, hawait, hi, hwaitpid, hparent⟩ := hback hd hwait
    obtain ⟨b, hb, hbe⟩ := hwakes.stirs.back he
    obtain ⟨c, hc, hcb⟩ := orphaned_back h hb
    have hbppid : b.ppid = i := hbe.ppid.symm.trans hppid
    have hbdied : b.state = .died := hbe.died.mp hdied
    rcases eq_or_ne i task.ppid with heq | hgrand
    · -- the parent: it asks for another child, which has been its own
      obtain ⟨hany, hself⟩ := hparent heq
      have hj : d.waitpid = (j : ℕ) := hquery.resolve_left hany
      obtain ⟨-, hstate, -⟩ := hcb.state.resolve_left fun hx => hself (hj.trans (congrArg _ hx.1))
      obtain ⟨c', hc', hcppid⟩ := hwaits.asked ha hawait (hwaitpid.trans hj)
      obtain rfl := Option.some.inj (hc.symm.trans hc')
      exact hwaits.alive ha hawait hc hcppid (Or.inr (hwaitpid.trans hj)) (hstate.symm.trans hbdied)
    · -- another task: its children are the same
      obtain ⟨-, hcppid⟩ := hcb.ppid.resolve_left fun hx => hgrand (hbppid.symm.trans hx.2)
      obtain ⟨-, hstate, -⟩ := hcb.state.resolve_left fun hx => by
        obtain rfl := Option.some.inj (ht.symm.trans (hx.1 ▸ hc))
        exact hgrand (hbppid.symm.trans hcppid)
      exact hwaits.alive ha hawait hc (hcppid.symm.trans hbppid) (hwaitpid ▸ hquery) (hstate.symm.trans hbdied)
  · obtain ⟨a, ha, hawait, hi, hwaitpid, -⟩ := hback hd hwait
    obtain ⟨c, hc, hcppid⟩ := hwaits.asked ha hawait (hwaitpid.trans hquery)
    obtain ⟨b, hb, hcb⟩ := orphaned_forth h hc
    obtain ⟨e, he, hbe⟩ := hwakes.stirs.forth hb
    obtain ⟨-, hbppid⟩ := hcb.ppid.resolve_left fun hx => hi (hcppid.symm.trans hx.1)
    exact ⟨e, he, hbe.ppid.trans (hbppid.trans hcppid)⟩

end Exit

end Sched

end Onixs
