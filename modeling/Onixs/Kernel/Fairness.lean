import Onixs.Common.Amortized
import Onixs.Kernel.Preemption
import Onixs.Kernel.SchedOrder

/-!
# Fairness

A task that is ready and has as many ticks as any priority waits for at most the ticks of the running
task and of the ready tasks that come before it (`Onixs.Sched.wait`). This is a potential: a tick of the
clock lowers it by one, other calls do not raise it unless they make a task ready that has not slept
(`Onixs.SchedOp.admits`), and these raise it by one slice at most. So the task runs once the clock has
ticked that often (`Onixs.schedRun_served`), and when nothing else happens it runs at that very tick and
not before (`Onixs.clockRun_served`).

The ticks are needed. `task_searchTask` prefers who has more of them, and a task that has fewer than the
priorities of two others does not run while these two go on (`Onixs.schedRun_starved`): the one that is
given a new slice waits for the other one only. That is what becomes of the tasks that `task_wakeup` has
woken, which leaves them no tick.
-/

namespace Onixs

/-- What the task may run before it is the turn of `w`. -/
def SchedTask.owed (task : SchedTask) (w : Turn) (j : ℕ) : ℕ :=
  if task.state = .ready ∧ (task.turn j).Before w then task.ticks.toNat else 0

namespace Sched

variable {s t m : Sched} {w : Turn} {i j k next x y : ℕ} {a b c task : SchedTask} {op : SchedOp} {r : SchedRet}

/-- What the task in a slot runs before it is the turn of `w`. -/
def cost (s : Sched) (w : Turn) (j : ℕ) : ℕ :=
  match s.table j with
  | none => 0
  | some task => if j = s.current then task.ticks.toNat else task.owed w j

/-- **How many ticks go by** before it is the turn of `w`. -/
def wait (s : Sched) (w : Turn) : ℕ := ∑ j ∈ Finset.range taskNumber, s.cost w j

/-- **The task `w` waits for its turn**, with as many ticks as any priority. -/
structure Queued (w : Turn) (s : Sched) : Prop where
  /-- The invariant of the clock. -/
  timely : s.Timely
  /-- Nobody has run later than now. -/
  dated : s.Dated
  /-- The running task has a slice. -/
  slice : s.InSlice
  /-- The task is ready. -/
  ready : ∃ a, s.table w.slot = some a ∧ a.state = .ready ∧ a.turn w.slot = w
  /-- The priorities. -/
  priority : ∀ i a, s.table i = some a → (a.priority : ℤ) ≤ w.ticks

/-! ### What tasks cost -/

theorem cost_current (ht : s.table s.current = some task) : s.cost w s.current = task.ticks.toNat := by
  rw [cost, ht]
  exact if_pos rfl

theorem cost_of_ne (hj : j ≠ s.current) : s.cost w j = (s.table j).elim 0 fun a => a.owed w j := by
  rw [cost]
  cases s.table j with
  | none => rfl
  | some a => exact if_neg hj

theorem owed_le : a.owed w j ≤ a.ticks.toNat := by
  rw [SchedTask.owed]
  split
  · exact le_refl _
  · exact Nat.zero_le _

theorem owed_of_not_ready (h : a.state ≠ .ready) : a.owed w j = 0 := if_neg fun hc => h hc.1

theorem owed_of_not_before (h : ¬(a.turn j).Before w) : a.owed w j = 0 := if_neg fun hc => h hc.2

theorem SameTurn.owed (h : SameTurn a b) : b.owed w j = a.owed w j := by
  rw [SchedTask.owed, SchedTask.owed, SchedTask.turn, SchedTask.turn, h.state, h.ticks, h.jiffies]

/-- **The other tasks cost what they did**, and one that comes to be ready a slice at most. -/
theorem Others.cost_eq (hothers : Others s task op m) (hq : Queued w s) (ht : s.table s.current = some task) :
    ∃ k, ∀ j, j ≠ s.current → m.cost w j = s.cost w j ∨
      (op.admits = true ∧ j = k ∧ m.cost w j ≤ w.ticks.toNat) := by
  obtain ⟨k, hslots⟩ := hothers.slots
  refine ⟨k, fun j hj => ?_⟩
  have hslot := hslots j hj
  have hle : ∀ a, s.table j = some a → a.state ≠ .sleeping → a.ticks ≤ w.ticks := fun a ha hstate =>
    ((hq.timely.paced j a ha).2.2 hstate).trans (hq.priority j a ha)
  rw [cost_of_ne hj, cost_of_ne (hothers.current.symm ▸ hj)]
  generalize s.table j = y at hslot hle ⊢
  generalize m.table j = z at hslot ⊢
  cases hslot with
  | absent => exact Or.inl rfl
  | same hsame => exact Or.inl hsame.owed
  | @woken a b hsleep _ hticks =>
    have hzero : b.owed w j = 0 := by
      have hle := owed_le (a := b) (w := w) (j := j)
      rw [hticks] at hle
      exact Nat.le_zero.mp hle
    refine Or.inl (hzero.trans (owed_of_not_ready ?_).symm)
    rw [hsleep]
    simp
  | @unblocked a b hnew hwait _ hticks =>
    refine Or.inr ⟨hnew.1, hnew.2, owed_le.trans ?_⟩
    rw [hticks]
    refine Int.toNat_le_toNat (hle a rfl ?_)
    rcases hwait with hwait | hwait <;> simp [hwait]
  | @born b hnew _ hticks =>
    refine Or.inr ⟨hnew.1, hnew.2, owed_le.trans ?_⟩
    rw [hticks, int32_of_lt (hq.timely.paced _ _ ht).2.1]
    exact Int.toNat_le_toNat (hq.priority _ _ ht)
  | @gone a hdied =>
    refine Or.inl (owed_of_not_ready ?_).symm
    rw [hdied]
    simp

/-- The task that waits is where it was. -/
theorem Others.ready (hothers : Others s task op m) (hne : w.slot ≠ s.current)
    (hready : ∃ a, s.table w.slot = some a ∧ a.state = .ready ∧ a.turn w.slot = w) :
    ∃ a, m.table w.slot = some a ∧ a.state = .ready ∧ a.turn w.slot = w := by
  obtain ⟨a, ha, hstate, hturn⟩ := hready
  obtain ⟨k, hslots⟩ := hothers.slots
  have hslot := hslots w.slot hne
  rw [ha] at hslot
  generalize m.table w.slot = z at hslot
  cases hslot with
  | @same _ b hsame =>
    refine ⟨b, rfl, hsame.state.trans hstate, ?_⟩
    rw [← hturn, SchedTask.turn, SchedTask.turn, hsame.ticks, hsame.jiffies]
  | woken hsleep => exact absurd (hsleep.symm.trans hstate) (by simp)
  | unblocked _ hwait => rcases hwait with hwait | hwait <;> exact absurd (hwait.symm.trans hstate) (by simp)
  | gone hdied => exact absurd (hdied.symm.trans hstate) (by simp)

theorem Others.priority (hothers : Others s task op m) (ht : s.table s.current = some task)
    (hself : m.table s.current = some b) (hb : b.priority = task.priority) {n : ℤ}
    (h : ∀ i a, s.table i = some a → (a.priority : ℤ) ≤ n) : ∀ i a, m.table i = some a → (a.priority : ℤ) ≤ n := by
  refine hothers.all h hself (by rw [hb]; exact h _ _ ht) fun new x c hshift hx => ?_
  cases hshift with
  | same hsame => exact hsame.priority ▸ hx _ rfl
  | woken _ _ _ hpriority => exact hpriority ▸ hx _ rfl
  | unblocked _ _ _ _ hpriority => exact hpriority ▸ hx _ rfl
  | born _ _ _ hpriority => exact hpriority ▸ h _ _ ht

/-! ### The task that is chosen -/

/-- **The turn of `w` has come**, and then nobody costs anything, or who is chosen comes before it. -/
theorem Picks.turn (hpicks : Picks m t next c) (hslot : w.slot < taskNumber) (hne : w.slot ≠ m.current)
    (hready : ∃ a, m.table w.slot = some a ∧ a.state = .ready ∧ a.turn w.slot = w) :
    m.Candidate .ready next c ∧
      ((next = w.slot ∧ ∀ j < taskNumber, j ≠ m.current → m.cost w j = 0) ∨
        (next ≠ w.slot ∧ (c.turn next).Before w)) := by
  obtain ⟨a, ha, hstate, hturn⟩ := hready
  have hw : m.Candidate .ready w.slot a := ⟨ha, hstate, hne⟩
  obtain ⟨hcand, hfirst⟩ := hpicks.first.resolve_right fun h => h.2 w.slot a hslot hw
  refine ⟨hcand, ?_⟩
  rcases eq_or_ne next w.slot with rfl | hnext
  · refine Or.inl ⟨rfl, fun j hj hjm => ?_⟩
    obtain rfl := Option.some.inj (ha.symm.trans hcand.1)
    rw [cost_of_ne hjm]
    cases hx : m.table j with
    | none => rfl
    | some b =>
      by_cases hb : b.state = .ready
      · exact owed_of_not_before (hturn ▸ hfirst j b hj ⟨hx, hb, hjm⟩)
      · exact owed_of_not_ready hb
  · exact Or.inr ⟨hnext, Turn.before_of_not hnext (hturn ▸ hfirst w.slot a hslot hw)⟩

/-- Nothing changes in what the others cost. -/
theorem Picks.cost_eq (hpicks : Picks m t next c) (hcand : m.Candidate .ready next c) (hbefore : (c.turn next).Before w) :
    ∀ j, j ≠ m.current → t.cost w j = m.cost w j := by
  intro j hj
  rw [cost_of_ne hj]
  rcases eq_or_ne j next with rfl | hjn
  · obtain ⟨hticks, -, -⟩ := scheduled_keeps m.current j j c
    have ht : t.table t.current = some (scheduled m.current j j c) := by
      rw [hpicks.current, hpicks.table, hcand.1]
      rfl
    have hcost := cost_current (w := w) ht
    rw [hpicks.current, hticks] at hcost
    rw [hcost, hcand.1]
    exact (if_pos ⟨hcand.2.1, hbefore⟩).symm
  · rw [cost_of_ne (hpicks.current.symm ▸ hjn), hpicks.table]
    cases m.table j with
    | none => rfl
    | some a => simp [scheduled_of_ne hjn, hj]

/-- Who has had the processor may still come before `w`. -/
theorem Picks.cost_self (hpicks : Picks m t next c) (hnext : next ≠ m.current) (hself : m.table m.current = some b) :
    t.cost w m.current = (yielded b).owed w m.current := by
  rw [cost_of_ne (hpicks.current.symm ▸ hnext.symm), hpicks.table, hself]
  simp [scheduled_of_ne hnext.symm]

/-- **The task waits on.** -/
theorem Queued.schedule (h : Queued w s) (hothers : Others s task op m) (ht : s.table s.current = some task)
    (hself : m.table s.current = some b) (hb : b.priority = task.priority) (hsched : m.schedule = some t)
    (htimely : t.Timely) (hdated : t.Dated) :
    (t.current = w.slot ∧ ∀ j < taskNumber, j ≠ s.current → m.cost w j = 0) ∨
      (Queued w t ∧ (∀ j, j ≠ s.current → t.cost w j = m.cost w j) ∧
        t.cost w s.current = (yielded b).owed w s.current) := by
  obtain ⟨next, c, hpicks⟩ := picks_schedule hsched
  obtain ⟨a, ha, hstate, -⟩ := h.ready
  have hne : w.slot ≠ s.current := by
    intro hc
    obtain ⟨task', ht', hrun⟩ := h.timely.sound.active
    rw [hc, ht'] at ha
    obtain rfl := Option.some.inj ha
    exact absurd (hstate.symm.trans hrun) (by simp)
  have hready := hothers.ready hne h.ready
  rw [← hothers.current] at hself hne ⊢
  obtain ⟨hcand, hturn⟩ := hpicks.turn (h.timely.sound.linked.slot ha).1 hne hready
  rcases hturn with ⟨rfl, hzero⟩ | ⟨hnext, hbefore⟩
  · exact Or.inl ⟨hpicks.current, hzero⟩
  · refine Or.inr ⟨⟨htimely, hdated, ?_, ?_, fun i d hd => ?_⟩, hpicks.cost_eq hcand hbefore,
      hpicks.cost_self hcand.2.2 hself⟩
    · -- who comes before `w` has its ticks
      obtain ⟨hticks, -, -⟩ := scheduled_keeps m.current next next c
      have hd : t.table next = some (scheduled m.current next next c) := by
        rw [hpicks.table, hpicks.here]
        rfl
      refine ⟨_, hpicks.current ▸ hd, ?_, (htimely.paced _ _ hd).2.2 (by rw [scheduled_state]; simp)⟩
      have hone := (h.timely.paced _ _ ht).1
      have hle := h.priority _ _ ht
      rw [hticks]
      unfold Turn.Before SchedTask.turn at hbefore
      dsimp only at hbefore
      omega
    · obtain ⟨d, hd, hdstate, hdturn⟩ := hready
      refine ⟨d, ?_, hdstate, hdturn⟩
      rw [hpicks.table, hd, Option.map_some, scheduled_of_ne hnext.symm, if_neg hne]
    · rw [hpicks.table] at hd
      obtain ⟨e, he, rfl⟩ := Option.map_eq_some_iff.mp hd
      obtain ⟨-, hpriority, -⟩ := scheduled_keeps m.current next i e
      rw [hpriority]
      exact hothers.priority ht (hothers.current ▸ hself) hb h.priority i e he

/-! ### A step -/

/-- What one slice is worth. -/
def gained (w : Turn) (op : SchedOp) : ℕ := if op.admits then w.ticks.toNat else 0

/-- What the others cost, and the running task. -/
theorem wait_le (hcur : s.current < taskNumber)
    (hother : ∃ k, ∀ j, j ≠ s.current → t.cost w j = s.cost w j ∨
      (op.admits = true ∧ j = k ∧ t.cost w j ≤ w.ticks.toNat))
    (hself : t.cost w s.current + op.ticks ≤ s.cost w s.current) :
    t.wait w + op.ticks ≤ s.wait w + gained w op := by
  obtain ⟨k, hother⟩ := hother
  refine Run.sum_add_le (k := k) (Finset.mem_range.mpr hcur) hself fun j _ hj => ?_
  rcases hother j hj with heq | ⟨hadmits, rfl, hle⟩
  · rw [heq]
    exact Nat.le_add_right _ _
  · rw [if_pos rfl, gained, if_pos hadmits]
    exact hle.trans (Nat.le_add_left _ _)

/-- Nobody else gains at a tick. -/
theorem wait_eq (hcur : s.current < taskNumber)
    (hother : ∃ k, ∀ j, j ≠ s.current → t.cost w j = s.cost w j ∨
      (SchedOp.clock.admits = true ∧ j = k ∧ t.cost w j ≤ w.ticks.toNat))
    (hself : t.cost w s.current + 1 = s.cost w s.current) : t.wait w + 1 = s.wait w := by
  obtain ⟨k, hother⟩ := hother
  exact Run.sum_add_eq (Finset.mem_range.mpr hcur) hself fun j _ hj =>
    (hother j hj).resolve_right fun h => absurd h.1 (by simp [SchedOp.admits])

theorem ticks_eq_zero (h : op ≠ .clock) : op.ticks = 0 := by
  cases op <;> first | rfl | exact absurd rfl h

/-- **A step of the run.** -/
theorem Queued.step (h : Queued w s) (hlegal : s.OnTime op) (hstep : s.step op = some (r, t)) :
    (t.current = w.slot ∧ (op = .clock → s.wait w = 1)) ∨
      (Queued w t ∧ t.wait w + op.ticks ≤ s.wait w + gained w op ∧ (op = .clock → t.wait w + 1 = s.wait w)) := by
  obtain ⟨r', t', task, hstep', htimely, ht, hrun, hadv⟩ := h.timely.step hlegal.1
  obtain ⟨-, rfl⟩ := Prod.mk.inj (Option.some.inj (hstep.symm.trans hstep'))
  obtain ⟨hdated, -⟩ := hadv.dated ht hlegal.2 h.dated
  have hcur := (h.timely.sound.linked.slot ht).1
  have hself := cost_current (w := w) ht
  have hslot : w.slot ≠ s.current := by
    obtain ⟨a, ha, hstate, -⟩ := h.ready
    intro hc
    rw [hc, ht] at ha
    obtain rfl := Option.some.inj ha
    exact absurd (hstate.symm.trans hrun) (by simp)
  obtain ⟨hone, hle⟩ : 1 ≤ task.ticks ∧ task.ticks ≤ task.priority := by
    obtain ⟨task', ht', hslice⟩ := h.slice
    obtain rfl := Option.some.inj (ht.symm.trans ht')
    exact hslice
  obtain ⟨-, hint, -⟩ := h.timely.paced _ _ ht
  cases hadv with
  | @stays _ _ b hclock hothers hb hsame hjiffies =>
    rw [← hothers.current] at hb
    have hbself := cost_current (w := w) hb
    rw [hothers.current] at hb hbself
    refine Or.inr ⟨⟨htimely, hdated, ⟨b, hothers.current.symm ▸ hb, ?_, ?_⟩, hothers.ready hslot h.ready,
      hothers.priority ht hb hsame.priority h.priority⟩, wait_le hcur (hothers.cost_eq h ht) ?_,
      fun hc => absurd hc hclock⟩
    · exact hsame.ticks ▸ hone
    · rw [hsame.ticks, hsame.priority]
      exact hle
    · rw [hbself, hself, hsame.ticks, ticks_eq_zero hclock]
      exact le_refl _
  | @ticks _ b hothers hne hb hsame hjiffies =>
    rw [← hothers.current] at hb
    have hbself := cost_current (w := w) hb
    rw [hothers.current] at hb hbself
    have hticks : b.ticks = task.ticks - 1 := hsame.ticks
    have hpriority : b.priority = task.priority := hsame.priority
    have hwait := wait_eq hcur (hothers.cost_eq h ht) (by rw [hbself, hself]; omega)
    refine Or.inr ⟨⟨htimely, hdated, ⟨b, hothers.current.symm ▸ hb, by omega, by omega⟩, hothers.ready hslot h.ready,
      hothers.priority ht hb hpriority h.priority⟩, ?_, fun _ => hwait⟩
    exact hwait.le.trans (Nat.le_add_right _ _)
  | @yields _ m _ b hgoes hothers hb hsame hjiffies hsched =>
    rcases h.schedule hothers ht hb hsame.priority hsched htimely hdated with ⟨hdone, -⟩ | ⟨hq, hother, hthis⟩
    · exact Or.inl ⟨hdone, fun hc => absurd hc (SchedOp.ne_clock hgoes)⟩
    · obtain ⟨k, hcost⟩ := hothers.cost_eq h ht
      refine Or.inr ⟨hq, wait_le hcur ⟨k, fun j hj => hother j hj ▸ hcost j hj⟩ ?_, fun hc => absurd hc (SchedOp.ne_clock hgoes)⟩
      rw [hthis, hself, ticks_eq_zero (SchedOp.ne_clock hgoes), ← hsame.ticks]
      exact owed_le.trans (by rw [yielded]; split <;> exact le_refl _)
  | @leaves _ m _ b hgoes _ hothers hb hleft _ hpriority _ _ hsched =>
    rcases h.schedule hothers ht hb hpriority hsched htimely hdated with ⟨hdone, -⟩ | ⟨hq, hother, hthis⟩
    · exact Or.inl ⟨hdone, fun hc => absurd hc (SchedOp.ne_clock hgoes)⟩
    · obtain ⟨k, hcost⟩ := hothers.cost_eq h ht
      refine Or.inr ⟨hq, wait_le hcur ⟨k, fun j hj => hother j hj ▸ hcost j hj⟩ ?_, fun hc => absurd hc (SchedOp.ne_clock hgoes)⟩
      rw [hthis, yielded_of_ne hleft.1, owed_of_not_ready hleft.2, ticks_eq_zero (SchedOp.ne_clock hgoes)]
      exact Nat.zero_le _
  | @spends m _ b hothers hlast hb hsame hjiffies hsched =>
    obtain ⟨k, hcost⟩ := hothers.cost_eq h ht
    rcases h.schedule hothers ht hb hsame.priority hsched htimely hdated with ⟨hdone, hzero⟩ | ⟨hq, hother, hthis⟩
    · refine Or.inl ⟨hdone, fun _ => ?_⟩
      rw [wait, Finset.sum_eq_single_of_mem s.current (Finset.mem_range.mpr hcur), hself, hlast]
      · rfl
      · intro j hj hne
        rw [← hzero j (Finset.mem_range.mp hj) hne]
        exact ((hcost j hne).resolve_right fun hc => absurd hc.1 (by simp [SchedOp.admits])).symm
    · -- who has spent a slice comes behind the task that waits
      have hbehind : (yielded b).owed w s.current = 0 := by
        refine owed_of_not_before fun hc => ?_
        obtain ⟨a, ha, -, hturn⟩ := h.ready
        have hpast := h.dated _ _ ha
        have hprio := h.priority _ _ ht
        have hnow : b.jiffies = u32 (s.jiffies + 1) := hsame.jiffies
        have hticks : b.ticks = int32 task.priority := hsame.ticks
        rw [u32_of_lt (n := s.jiffies + 1) hlegal.2] at hnow
        rw [int32_of_lt hint] at hticks
        have hsameturn : (yielded b).turn s.current = b.turn s.current := by
          rw [yielded]
          split <;> rfl
        rw [hsameturn, ← hturn] at hc
        have hwticks : a.ticks = w.ticks := congrArg Turn.ticks hturn
        unfold Turn.Before SchedTask.turn at hc
        dsimp only at hc
        omega
      have hwait := wait_eq hcur ⟨k, fun j hj => hother j hj ▸ hcost j hj⟩ (by rw [hthis, hbehind, hself, hlast]; rfl)
      exact Or.inr ⟨hq, hwait.le.trans (Nat.le_add_right _ _), fun _ => hwait⟩

/-- The clock has a tick for it: somebody runs. -/
theorem Queued.wait_pos (h : Queued w s) : 1 ≤ s.wait w := by
  obtain ⟨task, ht, hone, -⟩ := h.slice
  have hcur := (h.timely.sound.linked.slot ht).1
  have hcost := cost_current (w := w) ht
  have hle : s.cost w s.current ≤ s.wait w :=
    Finset.single_le_sum (fun _ _ => Nat.zero_le _) (Finset.mem_range.mpr hcur)
  omega

theorem Queued.ne_current (h : Queued w s) : s.current ≠ w.slot := by
  obtain ⟨a, ha, hstate, -⟩ := h.ready
  obtain ⟨task, ht, hrun⟩ := h.timely.sound.active
  rintro hc
  rw [hc, ha] at ht
  obtain rfl := Option.some.inj ht
  exact absurd (hstate.symm.trans hrun) (by simp)

theorem sum_gained (w : Turn) (ops : List SchedOp) :
    (ops.map (gained w)).sum = w.ticks.toNat * ops.countP SchedOp.admits := by
  induction ops with
  | nil => rfl
  | cons op ops ih =>
    rw [List.map_cons, List.sum_cons, ih, List.countP_cons, gained, Nat.mul_add, Nat.add_comm]
    split <;> simp

/-! ### Being overtaken -/

/-- The task in slot `x` comes before one with `n` ticks, and does so again behind its slice. -/
def Eager (s : Sched) (n : ℤ) (x : ℕ) : Prop :=
  ∃ a, s.table x = some a ∧ n < a.priority ∧ (x = s.current ∨ (a.state = .ready ∧ n < a.ticks))

instance Eager.decidable (s : Sched) (n : ℤ) (x : ℕ) : Decidable (s.Eager n x) :=
  match h : s.table x with
  | none => isFalse (by simp [Eager, h])
  | some a =>
    decidable_of_iff (n < a.priority ∧ (x = s.current ∨ (a.state = .ready ∧ n < a.ticks))) (by simp [Eager, h])

/-- **A ready task with `n` ticks, and two that come before it.** -/
structure Overtaken (n : ℤ) (i x y : ℕ) (s : Sched) : Prop where
  /-- The invariant of the clock. -/
  timely : s.Timely
  /-- The task is ready. -/
  ready : ∃ a, s.table i = some a ∧ a.state = .ready ∧ a.ticks = n
  /-- One of the two. -/
  left : s.Eager n x
  /-- The other one. -/
  right : s.Eager n y

theorem Others.eager {n : ℤ} (hothers : Others s task op m) (ht : s.table s.current = some task)
    (hself : m.table s.current = some b) (hb : b.priority = task.priority) (hx : s.Eager n x) : m.Eager n x := by
  obtain ⟨a, ha, hpriority, hturn⟩ := hx
  rcases eq_or_ne x s.current with rfl | hne
  · obtain rfl := Option.some.inj (ht.symm.trans ha)
    exact ⟨b, hself, hb ▸ hpriority, Or.inl hothers.current.symm⟩
  · obtain ⟨hstate, hticks⟩ := hturn.resolve_left hne
    obtain ⟨k, hslots⟩ := hothers.slots
    have hslot := hslots x hne
    rw [ha] at hslot
    rw [Eager]
    generalize m.table x = z at hslot
    cases hslot with
    | @same _ d hsame =>
      exact ⟨d, rfl, hsame.priority ▸ hpriority, Or.inr ⟨hsame.state.trans hstate, hsame.ticks ▸ hticks⟩⟩
    | woken hsleep => exact absurd (hsleep.symm.trans hstate) (by simp)
    | unblocked _ hwait => rcases hwait with hwait | hwait <;> exact absurd (hwait.symm.trans hstate) (by simp)
    | gone hdied => exact absurd (hdied.symm.trans hstate) (by simp)

theorem Picks.eager {n : ℤ} (hpicks : Picks m t next c) (hx : m.Eager n x)
    (hself : x = m.current → ∃ b, m.table x = some b ∧ b.state = .running ∧ n < b.ticks) : t.Eager n x := by
  obtain ⟨a, ha, hpriority, hturn⟩ := hx
  obtain ⟨hticks, hprio, -⟩ := scheduled_keeps m.current next x a
  refine ⟨scheduled m.current next x a, by rw [hpicks.table, ha]; rfl, hprio ▸ hpriority, ?_⟩
  rcases eq_or_ne x next with rfl | hnext
  · exact Or.inl hpicks.current.symm
  · rw [hticks, scheduled_of_ne hnext]
    refine Or.inr ?_
    by_cases hcur : x = m.current
    · obtain ⟨b, hb, hrun, hslice⟩ := hself hcur
      obtain rfl := Option.some.inj (ha.symm.trans hb)
      rw [if_pos hcur, yielded_of_running hrun]
      exact ⟨rfl, hslice⟩
    · rw [if_neg hcur]
      exact hturn.resolve_left hcur

/-- **Who has fewer ticks is not chosen.** -/
theorem Picks.ne_of_eager {n : ℤ} (hpicks : Picks m t next c) (hslot : x < taskNumber) (hne : x ≠ m.current)
    (hx : m.Eager n x) (hi : ∃ a, m.table i = some a ∧ a.ticks = n) : next ≠ i := by
  rintro rfl
  obtain ⟨a, ha, -, hturn⟩ := hx
  obtain ⟨hstate, hticks⟩ := hturn.resolve_left hne
  have hcand : m.Candidate .ready x a := ⟨ha, hstate, hne⟩
  obtain ⟨-, hfirst⟩ := hpicks.first.resolve_right fun h => h.2 x a hslot hcand
  obtain ⟨b, hb, hn⟩ := hi
  obtain rfl := Option.some.inj (hb.symm.trans hpicks.here)
  refine hfirst x a hslot hcand (Or.inl ?_)
  exact hn.trans_lt hticks

/-- **A step of a run in which neither of the two gives up the processor.** -/
theorem Overtaken.step {n : ℤ} (h : Overtaken n i x y s) (hxy : x ≠ y) (hlegal : s.InTime op)
    (hgoes : s.current = x ∨ s.current = y → op.goesOn = true) :
    ∃ r t, s.step op = some (r, t) ∧ t.current ≠ i ∧ Overtaken n i x y t := by
  obtain ⟨r, t, task, hstep, htimely, ht, hrun, hadv⟩ := h.timely.step hlegal
  obtain ⟨a, ha, hready, hn⟩ := h.ready
  have hi : i ≠ s.current := by
    rintro rfl
    obtain rfl := Option.some.inj (ht.symm.trans ha)
    exact absurd (hready.symm.trans hrun) (by simp)
  have hwhole : ∃ b, s.table (a.turn i).slot = some b ∧ b.state = .ready ∧ b.turn (a.turn i).slot = a.turn i :=
    ⟨a, ha, hready, rfl⟩
  refine ⟨r, t, hstep, ?_⟩
  -- the task waits on in the slots the scheduler sees
  have hmiddle : ∀ m, Others s task op m → ∃ b, m.table i = some b ∧ b.state = .ready ∧ b.ticks = n := by
    intro m hothers
    obtain ⟨b, hb, hstate, hturn⟩ := hothers.ready hi hwhole
    exact ⟨b, hb, hstate, (congrArg Turn.ticks hturn).trans hn⟩
  have hgo : ∀ b, Others s task op t → t.table s.current = some b → b.priority = task.priority →
      t.current ≠ i ∧ Overtaken n i x y t := by
    intro b hothers hself hb
    exact ⟨hothers.current.trans_ne hi.symm, htimely, hmiddle t hothers, hothers.eager ht hself hb h.left,
      hothers.eager ht hself hb h.right⟩
  have hslots : ∀ z, s.Eager n z → z < taskNumber := by
    rintro z ⟨b, hb, -⟩
    exact (h.timely.sound.linked.slot hb).1
  -- one of the two is there when the other one has had its slice
  have hchoose : ∀ m b, Others s task op m → m.table s.current = some b → b.priority = task.priority →
      m.schedule = some t → ((s.current = x ∨ s.current = y) → b.state = .running ∧ n < b.ticks) →
      t.current ≠ i ∧ Overtaken n i x y t := by
    intro m b hothers hself hb hsched hslice
    obtain ⟨next, c, hpicks⟩ := picks_schedule hsched
    have hleft := hothers.eager ht hself hb h.left
    have hright := hothers.eager ht hself hb h.right
    obtain ⟨d, hd, hdready, hdticks⟩ := hmiddle m hothers
    have hnext : next ≠ i := by
      by_cases hx : x = s.current
      · exact hpicks.ne_of_eager (hslots y h.right) (fun hc => hxy (hx.trans (hothers.current ▸ hc.symm))) hright
          ⟨d, hd, hdticks⟩
      · exact hpicks.ne_of_eager (hslots x h.left) (fun hc => hx (hc.trans hothers.current)) hleft ⟨d, hd, hdticks⟩
    rw [← hothers.current] at hself hslice hi
    refine ⟨hpicks.current.trans_ne hnext, htimely, ⟨d, ?_, hdready, hdticks⟩, ?_, ?_⟩
    · rw [hpicks.table, hd, Option.map_some, scheduled_of_ne hnext.symm, if_neg hi]
    · exact hpicks.eager hleft fun hc => ⟨b, hc ▸ hself, hslice (Or.inl hc.symm)⟩
    · exact hpicks.eager hright fun hc => ⟨b, hc ▸ hself, hslice (Or.inr hc.symm)⟩
  cases hadv with
  | stays _ hothers hself hsame => exact hgo _ hothers hself hsame.priority
  | ticks hothers _ hself hsame => exact hgo _ hothers hself hsame.priority
  | yields hstays hothers hself hsame _ hsched =>
    exact hchoose _ _ hothers hself hsame.priority hsched fun hc => absurd (hgoes hc) (by rw [hstays]; simp)
  | leaves hstays _ hothers hself _ _ hpriority _ _ hsched =>
    exact hchoose _ _ hothers hself hpriority hsched fun hc => absurd (hgoes hc) (by rw [hstays]; simp)
  | spends hothers _ hself hsame _ hsched =>
    refine hchoose _ _ hothers hself hsame.priority hsched fun hc => ⟨hsame.state.trans hrun, ?_⟩
    have hticks : _ = int32 task.priority := hsame.ticks
    rw [hticks, int32_of_lt (h.timely.paced _ _ ht).2.1]
    rcases hc with hc | hc
    · obtain ⟨b, hb, hpriority, -⟩ := h.left
      obtain rfl := Option.some.inj (ht.symm.trans (hc ▸ hb))
      exact hpriority
    · obtain ⟨b, hb, hpriority, -⟩ := h.right
      obtain rfl := Option.some.inj (ht.symm.trans (hc ▸ hb))
      exact hpriority

end Sched

open Sched

section Runs

variable {s₀ s t : Sched} {i : ℕ} {task : SchedTask}

theorem timely_step (s : Sched) (op : SchedOp) (hs : s.Timely) (hl : s.OnTime op) :
    ∃ r t, s.step op = some (r, t) ∧ t.Timely := by
  obtain ⟨r, t, -, hrun, ht, -⟩ := hs.step hl.1
  exact ⟨r, t, hrun, ht⟩

/-- The invariants at the end of a run. -/
theorem timely_of_run {pre : List SchedOp} (hstart : s₀.Start) (hpre : Run.Along Sched.step InTime s₀ pre)
    (hs : Run.exec Sched.step s₀ pre = some s) : s.Timely := by
  refine Run.inv_of_exec Timely (fun s op r t hs hl hrun => ?_) pre s₀ s hstart.timely.1 hpre hs
  obtain ⟨r', t', task, hrun', ht, -⟩ := hs.step hl
  obtain ⟨-, rfl⟩ := Prod.mk.inj (Option.some.inj (hrun.symm.trans hrun'))
  exact ht

theorem dated_of_run {pre : List SchedOp} (hstart : s₀.Start) (hpre : Run.Along Sched.step OnTime s₀ pre)
    (hs : Run.exec Sched.step s₀ pre = some s) : s.Timely ∧ s.Dated := by
  refine Run.inv_of_exec (fun s => s.Timely ∧ s.Dated) (fun s op r t hs hl hrun => ?_) pre s₀ s hstart.timely hpre hs
  obtain ⟨r', t', task, hrun', ht, htask, -, hadv⟩ := hs.1.step hl.1
  obtain ⟨-, rfl⟩ := Prod.mk.inj (Option.some.inj (hrun.symm.trans hrun'))
  exact ⟨ht, (hadv.dated htask hl.2 hs.2).1⟩

/-- **A task with a whole slice is served.** From any state that the kernel reaches, a ready task that
has as many ticks as any task has priority runs once the clock has ticked for the running task, for the
ready tasks that come before it, and once more its own slice for each call that makes a task ready that
has not slept: whatever else the tasks do. -/
theorem schedRun_served (pre ops : List SchedOp) (s₀ s : Sched) (i : ℕ) (task : SchedTask) (hstart : s₀.Start)
    (hpre : Run.Along Sched.step OnTime s₀ pre) (hs : Run.exec Sched.step s₀ pre = some s)
    (hi : s.table i = some task) (hready : task.state = .ready)
    (hpriority : ∀ j a, s.table j = some a → (a.priority : ℤ) ≤ task.ticks) (hslice : s.InSlice)
    (hlegal : Run.Along Sched.step OnTime s ops)
    (henough : s.wait (task.turn i) + task.ticks.toNat * ops.countP SchedOp.admits ≤ (ops.map SchedOp.ticks).sum) :
    Run.Reached Sched.step (fun t => t.current = i) s ops := by
  obtain ⟨htimely, hdated⟩ := dated_of_run hstart hpre hs
  have hqueued : Queued (task.turn i) s := ⟨htimely, hdated, hslice, ⟨task, hi, hready, rfl⟩, hpriority⟩
  obtain ⟨t, hexec⟩ := Run.exists_exec timely_step ops s htimely hlegal
  have hstep : ∀ s op r t, Queued (task.turn i) s → s.OnTime op → s.step op = some (r, t) → t.current = i ∨
      (Queued (task.turn i) t ∧ t.wait (task.turn i) + op.ticks ≤ s.wait (task.turn i) + gained (task.turn i) op) := by
    intro s op r t hq hl hrun
    rcases hq.step hl hrun with ⟨hdone, -⟩ | ⟨ht, hle, -⟩
    · exact Or.inl hdone
    · exact Or.inr ⟨ht, hle⟩
  rcases Run.reached_or_paid hstep ops s t hqueued hlegal hexec with hreached | ⟨ht, hle⟩
  · exact hreached
  · have hpos := ht.wait_pos
    rw [sum_gained] at hle
    change t.wait _ + _ ≤ s.wait _ + task.ticks.toNat * _ at hle
    omega

/-- The test task waits for init, and for the child of init. -/
theorem schedRun_served_test : Run.Reached Sched.step (fun t => t.current = 2) (started 0)
    (.fork :: List.replicate 10 .clock) := by
  refine schedRun_served [] _ (started 0) (started 0) 2 (Sched.taskCreate 5 2) ⟨0, schedule_taskInit 0⟩ trivial rfl rfl rfl
    (fun j a ha => ?_) ⟨_, rfl, by decide, by decide⟩ (by decide +kernel) (by decide +kernel)
  rcases table_started ha with ⟨-, rfl⟩ | ⟨-, rfl⟩ | ⟨-, rfl⟩ <;> simp [Sched.taskCreate]

/-- The clock runs for so many ticks. -/
theorem onTime_clock (n : ℕ) : ∀ {s : Sched}, s.Timely → s.jiffies + n < 4294967296 →
    Run.Along Sched.step OnTime s (List.replicate n .clock) := by
  induction n with
  | zero => exact fun _ _ => trivial
  | succ n ih =>
    intro s hs hn
    refine ⟨⟨⟨trivial, trivial⟩, by simp only [SchedOp.ticks]; omega⟩, fun r t hrun => ?_⟩
    have hlegal : s.InTime .clock := ⟨trivial, trivial⟩
    obtain ⟨r', t', task, hrun', ht, htask, -, hadv⟩ := hs.step hlegal
    obtain ⟨-, rfl⟩ := Prod.mk.inj (Option.some.inj (hrun.symm.trans hrun'))
    have hle := hadv.jiffies_le
    simp only [SchedOp.ticks] at hle
    exact ih ht (by omega)

/-- **It is served at that very tick**, when nothing else happens: after so many ticks of the clock, and not before. -/
theorem clockRun_served (pre : List SchedOp) (s₀ s : Sched) (i n : ℕ) (task : SchedTask) (hstart : s₀.Start)
    (hpre : Run.Along Sched.step OnTime s₀ pre) (hs : Run.exec Sched.step s₀ pre = some s)
    (hi : s.table i = some task) (hready : task.state = .ready)
    (hpriority : ∀ j a, s.table j = some a → (a.priority : ℤ) ≤ task.ticks) (hslice : s.InSlice)
    (hclock : s.jiffies + n < 4294967296) (hn : n ≤ s.wait (task.turn i)) :
    ∃ t, Run.exec Sched.step s (List.replicate n .clock) = some t ∧ (t.current = i ↔ n = s.wait (task.turn i)) := by
  obtain ⟨htimely, hdated⟩ := dated_of_run hstart hpre hs
  have hqueued : Queued (task.turn i) s := ⟨htimely, hdated, hslice, ⟨task, hi, hready, rfl⟩, hpriority⟩
  have hlegal := onTime_clock n htimely hclock
  obtain ⟨t, hexec⟩ := Run.exists_exec timely_step _ s htimely hlegal
  have hpos : ∀ s, Queued (task.turn i) s → 1 ≤ s.wait (task.turn i) := fun s hq => hq.wait_pos
  have hnot : ∀ s, Queued (task.turn i) s → ¬s.current = i := fun s hq => hq.ne_current
  have hstep : ∀ s r t, Queued (task.turn i) s → s.OnTime .clock → s.step .clock = some (r, t) →
      (t.current = i ∧ s.wait (task.turn i) = 1) ∨
        (Queued (task.turn i) t ∧ t.wait (task.turn i) + 1 = s.wait (task.turn i)) := by
    intro s r t hq hl hrun
    rcases hq.step hl hrun with ⟨hdone, hone⟩ | ⟨ht, -, hfall⟩
    · exact Or.inl ⟨hdone, hone rfl⟩
    · exact Or.inr ⟨ht, hfall rfl⟩
  exact ⟨t, hexec, Run.reached_exactly hpos hnot hstep n s t hqueued hn hlegal hexec⟩

/-- The test task runs when init has had its slice. -/
theorem clockRun_served_test : ∃ t, Run.exec Sched.step (started 0) (List.replicate 5 .clock) = some t ∧
    (t.current = 2 ↔ 5 = (started 0).wait ((Sched.taskCreate 5 2).turn 2)) := by
  refine clockRun_served [] (started 0) (started 0) 2 5 (Sched.taskCreate 5 2) ⟨0, schedule_taskInit 0⟩ trivial rfl rfl rfl
    (fun j a ha => ?_) ⟨_, rfl, by decide, by decide⟩ (by decide) (by decide +kernel)
  rcases table_started ha with ⟨-, rfl⟩ | ⟨-, rfl⟩ | ⟨-, rfl⟩ <;> simp [Sched.taskCreate]

/-- **A task with fewer ticks starves.** In any state that the kernel reaches, a ready task does not run as
long as two tasks go on that come before it and whose priority is more than its ticks, whatever the other
tasks do. -/
theorem schedRun_starved (pre ops : List SchedOp) (s₀ s : Sched) (i x y : ℕ) (task : SchedTask)
    (hstart : s₀.Start) (hpre : Run.Along Sched.step InTime s₀ pre) (hs : Run.exec Sched.step s₀ pre = some s)
    (hi : s.table i = some task) (hready : task.state = .ready) (hxy : x ≠ y) (hx : s.Eager task.ticks x)
    (hy : s.Eager task.ticks y)
    (hlegal : Run.Along Sched.step
      (fun s op => s.InTime op ∧ (s.current = x ∨ s.current = y → op.goesOn = true)) s ops) :
    Run.Meets Sched.step (fun _ _ _ t => t.current ≠ i ∧
      ∃ a, t.table i = some a ∧ a.state = .ready ∧ a.ticks = task.ticks) s ops := by
  refine Run.meets_of_inv (Overtaken task.ticks i x y) (fun s op hover hl => ?_) ops s
    ⟨timely_of_run hstart hpre hs, ⟨task, hi, hready, rfl⟩, hx, hy⟩ hlegal
  obtain ⟨r, t, hrun, hne, ht⟩ := hover.step hxy hl.1 hl.2
  exact ⟨r, t, hrun, ⟨hne, ht.ready⟩, ht⟩

theorem isSome_forked : (Run.exec Sched.step (started 0) [.fork, .sleep 10, .clock]).isSome = true := by
  decide +kernel

theorem isSome_init :
    (((Run.exec Sched.step (started 0) [.fork, .sleep 10, .clock]).get isSome_forked).table 1).isSome = true := by
  decide +kernel

/-- Init has slept, and waits for its child and the test task, which run on. -/
theorem schedRun_starved_init : ∃ s task, Run.exec Sched.step (started 0) [.fork, .sleep 10, .clock] = some s ∧
    s.table 1 = some task ∧ Run.Meets Sched.step (fun _ _ _ t => t.current ≠ 1 ∧
      ∃ a, t.table 1 = some a ∧ a.state = .ready ∧ a.ticks = task.ticks) s
        (List.replicate 12 .clock ++ [.fork, .clock]) :=
  ⟨_, _, (Option.some_get isSome_forked).symm, (Option.some_get isSome_init).symm,
    schedRun_starved [.fork, .sleep 10, .clock] _ (started 0) _ 1 2 3 _ ⟨0, schedule_taskInit 0⟩ (by decide +kernel)
      (Option.some_get isSome_forked).symm (Option.some_get isSome_init).symm (by decide +kernel) (by decide)
      (by decide +kernel) (by decide +kernel) (by decide +kernel)⟩

end Runs

end Onixs
