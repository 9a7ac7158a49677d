import Onixs.Kernel.SchedSlots

/-!
# Whose turn it is

`task_searchTask` goes through the table once and keeps the best task it has seen. What it returns is
the first in a total order (`Onixs.Turn.Before`): more ticks come first, then an earlier last run, then a
lower slot. `schedule` gives the processor to that task (`Onixs.Sched.Picks`), and never to the one that
has it while another one is ready.

`Onixs.Sched.Paced` and `Onixs.Sched.Dated` are what the fields of this order are between calls: nobody
that is awake has more ticks than its priority, and nobody has run in the future.
-/

namespace Onixs

/-- How often the clock ticks. -/
def SchedOp.ticks : SchedOp → ℕ
  | clock => 1
  | _ => 0

/-- What `task_searchTask` compares. -/
structure Turn where
  /-- The ticks. -/
  ticks : ℤ
  /-- When the task last ran. -/
  jiffies : ℕ
  /-- The slot. -/
  slot : ℕ
deriving DecidableEq

namespace Turn

variable {a b c : Turn}

/-- `a` comes before `b`. -/
def Before (a b : Turn) : Prop :=
  b.ticks < a.ticks ∨ (a.ticks = b.ticks ∧ (a.jiffies < b.jiffies ∨ (a.jiffies = b.jiffies ∧ a.slot < b.slot)))

instance Before.decidable (a b : Turn) : Decidable (a.Before b) := inferInstanceAs (Decidable (_ ∨ _))

theorem not_before_self : ¬a.Before a := by
  unfold Before
  omega

theorem Before.trans (h : a.Before b) (h' : b.Before c) : a.Before c := by
  unfold Before at *
  omega

/-- What comes before `b` comes before what does not. -/
theorem Before.of_not (h : a.Before b) (hc : ¬c.Before b) : a.Before c := by
  unfold Before at *
  omega

/-- Two tasks in two slots. -/
theorem before_of_not (hslot : a.slot ≠ b.slot) (h : ¬b.Before a) : a.Before b := by
  unfold Before at *
  omega

end Turn

/-- The turn of the task in this slot. -/
def SchedTask.turn (task : SchedTask) (i : ℕ) : Turn := ⟨task.ticks, task.jiffies, i⟩

namespace Sched

variable {s t m : Sched} {i j k next : ℕ} {a b c task : SchedTask} {op : SchedOp} {r : SchedRet}

/-! ### The search -/

/-- The comparison in the loop, with a task of a lower slot. -/
theorem before_turn_iff (hij : j < i) : (a.turn i).Before (b.turn j) ↔ Before a b := by
  simp only [Turn.Before, SchedTask.turn, Before]
  omega

/-- **The loop of `task_searchTask` finds the first task**: none it has seen comes before it. -/
theorem searchLoop_first {state : TaskState} : ∀ {slots : List ℕ} {best : Option (ℕ × SchedTask)},
    slots.Pairwise (· < ·) → (∀ j b, best = some (j, b) → ∀ i ∈ slots, j < i) →
    s.searchLoop state slots best = some (k, c) →
      (∀ j b, best = some (j, b) → ¬(b.turn j).Before (c.turn k)) ∧
        ∀ i ∈ slots, ∀ a, s.Candidate state i a → ¬(a.turn i).Before (c.turn k) := by
  intro slots
  induction slots with
  | nil =>
    intro best _ _ h
    refine ⟨fun j b hb => ?_, fun i hi => absurd hi List.not_mem_nil⟩
    obtain ⟨rfl, rfl⟩ := Prod.mk.inj (Option.some.inj (hb.symm.trans h))
    exact Turn.not_before_self
  | cons i slots ih =>
    intro best hsorted hbelow h
    obtain ⟨hi, hslots⟩ := List.pairwise_cons.mp hsorted
    have hrest : ∀ j b, best = some (j, b) → ∀ i ∈ slots, j < i := fun j b hb i' hi' =>
      hbelow j b hb i' (List.mem_cons_of_mem i hi')
    rw [searchLoop] at h
    cases hslot : s.table i with
    | none =>
      rw [hslot] at h
      obtain ⟨hbest, hall⟩ := ih hslots hrest h
      refine ⟨hbest, fun i' hi' a ha => ?_⟩
      rcases List.mem_cons.mp hi' with rfl | hi'
      · exact absurd (hslot.symm.trans ha.1) (by simp)
      · exact hall i' hi' a ha
    | some ptr =>
      simp only [hslot] at h
      -- the task of this slot is the one the loop goes on with, or does not come before that
      have hone : ∀ i' ∈ i :: slots, ∀ a, s.Candidate state i' a → (i' = i ∧ a = ptr) ∨ i' ∈ slots := by
        intro i' hi' a ha
        rcases List.mem_cons.mp hi' with rfl | hi'
        · exact Or.inl ⟨rfl, (Option.some.inj (hslot.symm.trans ha.1)).symm⟩
        · exact Or.inr hi'
      split at h
      next hcand =>
        cases hbest' : best with
        | none =>
          rw [hbest'] at h
          obtain ⟨hself, hall⟩ := ih hslots (by rintro j b ⟨⟩; exact hi) h
          refine ⟨by simp, fun i' hi' a ha => ?_⟩
          rcases hone i' hi' a ha with ⟨rfl, rfl⟩ | hi'
          · exact hself i' a rfl
          · exact hall i' hi' a ha
        | some p =>
          obtain ⟨j, b⟩ := p
          rw [hbest'] at h
          have hji : j < i := hbelow j b hbest' i List.mem_cons_self
          dsimp only at h
          by_cases hbefore : Before ptr b
          · rw [if_pos hbefore] at h
            obtain ⟨hself, hall⟩ := ih hslots (by rintro j' b' ⟨⟩; exact hi) h
            have hptr := hself i ptr rfl
            refine ⟨?_, fun i' hi' a ha => ?_⟩
            · rintro j' b' ⟨⟩ hc
              exact hptr (((before_turn_iff hji).mpr hbefore).trans hc)
            · rcases hone i' hi' a ha with ⟨rfl, rfl⟩ | hi'
              · exact hptr
              · exact hall i' hi' a ha
          · rw [if_neg hbefore] at h
            obtain ⟨hself, hall⟩ := ih hslots (by rintro j' b' ⟨⟩; exact hrest j b hbest') h
            have hb := hself j b rfl
            refine ⟨?_, fun i' hi' a ha => ?_⟩
            · rintro j' b' ⟨⟩
              exact hb
            · rcases hone i' hi' a ha with ⟨rfl, rfl⟩ | hi'
              · intro hc
                exact hbefore ((before_turn_iff hji).mp (hc.of_not hb))
              · exact hall i' hi' a ha
      next hcand =>
        obtain ⟨hbest, hall⟩ := ih hslots hrest h
        refine ⟨hbest, fun i' hi' a ha => ?_⟩
        rcases hone i' hi' a ha with ⟨rfl, rfl⟩ | hi'
        · exact absurd ⟨ha.2.1, ha.2.2⟩ hcand
        · exact hall i' hi' a ha

/-- **`schedule`**: the task `c` of the slot `next` is the one that runs. -/
structure Picks (s t : Sched) (next : ℕ) (c : SchedTask) : Prop where
  /-- It was there. -/
  here : s.table next = some c
  /-- It runs. -/
  current : t.current = next
  /-- The tasks. -/
  table : ∀ j, t.table j = (s.table j).map (scheduled s.current next j)
  /-- The ticks. -/
  jiffies : t.jiffies = s.jiffies
  /-- It is the first of those that are ready, or there is none. -/
  first : (s.Candidate .ready next c ∧
      ∀ i a, i < taskNumber → s.Candidate .ready i a → ¬(a.turn i).Before (c.turn next)) ∨
    (next = idleTask ∧ ∀ i a, i < taskNumber → ¬s.Candidate .ready i a)

theorem picks_schedule (h : s.schedule = some t) : ∃ next c, Picks s t next c := by
  rw [Sched.schedule, Option.bind_eq_bind, Option.bind_eq_some_iff] at h
  obtain ⟨next, hnext, h⟩ := h
  rw [Option.bind_eq_bind, Option.bind_eq_some_iff] at h
  obtain ⟨c, hc, h⟩ := h
  have ht := Option.some.inj h
  refine ⟨next, c, hc, by rw [← ht], fun j => ?_, by rw [← ht]; rfl, ?_⟩
  · rw [← ht]
    refine (table_modify next _ j).trans ?_
    rw [table_modify, Option.map_map]
    rfl
  · rw [searchTask] at hnext
    split at hnext
    next i a hloop =>
      obtain rfl := Option.some.inj hnext
      have hcand := (searchLoop_eq_some hloop).resolve_left (by simp)
      obtain rfl := Option.some.inj (hc.symm.trans hcand.1)
      refine Or.inl ⟨hcand, fun j b hj hb => ?_⟩
      exact (searchLoop_first List.pairwise_lt_range (by simp) hloop).2 j (List.mem_range.mpr hj) b hb
    next hloop =>
      rw [if_pos rfl] at hnext
      exact Or.inr ⟨(Option.some.inj hnext).symm, fun j b hj hb =>
        (searchLoop_eq_none hloop).2 j (List.mem_range.mpr hj) b hb⟩

/-- `schedule` does not touch what the search compares. -/
theorem scheduled_keeps (current next i : ℕ) (task : SchedTask) :
    (scheduled current next i task).ticks = task.ticks ∧ (scheduled current next i task).priority = task.priority ∧
      (scheduled current next i task).jiffies = task.jiffies := by
  rw [scheduled, yielded]
  split <;> split <;> try split
  all_goals exact ⟨rfl, rfl, rfl⟩

/-- Idle is ready when another task runs. -/
theorem Others.idle (hothers : Others s task op m) (h : s.Linked) (hne : s.current ≠ idleTask) :
    ∃ a, m.table idleTask = some a ∧ a.state = .ready := by
  obtain ⟨a, ha, hstate⟩ := h.idle
  have hready : a.state = .ready := hstate.resolve_right fun hrun => hne (h.running ha hrun).symm
  obtain ⟨k, hslots⟩ := hothers.slots
  have hslot := hslots idleTask hne.symm
  rw [ha] at hslot
  generalize m.table idleTask = x at hslot
  cases hslot with
  | same hsame => exact ⟨_, rfl, hsame.state.trans hready⟩
  | woken hsleep => exact absurd (hsleep.symm.trans hready) (by simp)
  | unblocked _ hwait =>
    rcases hwait with hwait | hwait <;> exact absurd (hwait.symm.trans hready) (by simp)
  | gone hdied => exact absurd (hdied.symm.trans hready) (by simp)

/-- **The task that is chosen was ready**, or it is idle, which goes on. -/
theorem Others.picks (hothers : Others s task op m) (h : s.Linked) (hself : m.table s.current = some b)
    (hidle : s.current = idleTask → b.state = .running) (hsched : m.schedule = some t) :
    ∃ next c, Picks m t next c ∧ (c.state = .ready ∨ c.state = .running) := by
  obtain ⟨next, c, hpicks⟩ := picks_schedule hsched
  refine ⟨next, c, hpicks, ?_⟩
  rcases hpicks.first with ⟨hcand, -⟩ | ⟨rfl, hnone⟩
  · exact Or.inl hcand.2.1
  · rcases eq_or_ne s.current idleTask with hcur | hcur
    · obtain rfl := Option.some.inj ((hcur ▸ hself).symm.trans hpicks.here)
      exact Or.inr (hidle hcur)
    · obtain ⟨a, ha, hready⟩ := hothers.idle h hcur
      exact absurd ⟨ha, hready, by rw [hothers.current]; exact hcur.symm⟩ (hnone idleTask a (by decide))

/-! ### Ticks, priorities and times between calls -/

/-- What holds of all tasks holds of them in the middle of a step, if it does of those that change. -/
theorem Others.all {P : SchedTask → Prop} (hothers : Others s task op m) (h : ∀ i a, s.table i = some a → P a)
    (hself : m.table s.current = some b) (hb : P b)
    (hshift : ∀ new x c, Shift task new x (some c) → (∀ a, x = some a → P a) → P c) :
    ∀ i a, m.table i = some a → P a := by
  intro i a ha
  rcases eq_or_ne i s.current with rfl | hi
  · exact Option.some.inj (hself.symm.trans ha) ▸ hb
  · obtain ⟨k, hslots⟩ := hothers.slots
    exact hshift _ _ _ (ha ▸ hslots i hi) fun a' ha' => h i a' ha'

/-- **The priorities are `int`s, and who is awake has no more ticks than its priority.** -/
def Paced (s : Sched) : Prop :=
  ∀ i a, s.table i = some a → 1 ≤ a.priority ∧ a.priority < 2147483648 ∧ (a.state ≠ .sleeping → a.ticks ≤ a.priority)

/-- **Nobody has run later than now.** -/
def Dated (s : Sched) : Prop := ∀ i a, s.table i = some a → a.jiffies ≤ s.jiffies

theorem Others.paced (hothers : Others s task op m) (h : s.Paced) (ht : s.table s.current = some task)
    (hself : m.table s.current = some b) (hpriority : b.priority = task.priority)
    (hticks : b.state ≠ .sleeping → b.ticks ≤ task.priority) : m.Paced := by
  obtain ⟨hone, hint, -⟩ := h _ _ ht
  refine hothers.all h hself ⟨by omega, by omega, fun hb => by rw [hpriority]; exact hticks hb⟩
    fun new x c hshift hx => ?_
  cases hshift with
  | same hsame =>
    obtain ⟨hone, hint, hle⟩ := hx _ rfl
    rw [hsame.priority, hsame.ticks, hsame.state]
    exact ⟨hone, hint, hle⟩
  | woken _ _ hticks hpriority =>
    obtain ⟨hone, hint, -⟩ := hx _ rfl
    rw [hpriority, hticks]
    exact ⟨hone, hint, fun _ => by omega⟩
  | unblocked _ hwait _ hticks hpriority =>
    obtain ⟨hone, hint, hle⟩ := hx _ rfl
    rw [hpriority, hticks]
    refine ⟨hone, hint, fun _ => hle ?_⟩
    rcases hwait with hwait | hwait <;> simp [hwait]
  | born _ _ hticks hpriority =>
    rw [hpriority, hticks, int32_of_lt hint]
    exact ⟨hone, hint, fun _ => Int.le_refl _⟩

theorem Others.dated (hothers : Others s task op m) (h : s.Dated) (ht : s.table s.current = some task)
    (hself : m.table s.current = some b) (hjiffies : s.jiffies ≤ m.jiffies) (hb : b.jiffies ≤ m.jiffies) : m.Dated := by
  refine hothers.all (P := fun a => a.jiffies ≤ m.jiffies) (fun i a ha => (h i a ha).trans hjiffies) hself hb
    fun new x c hshift hx => ?_
  cases hshift with
  | same hsame => exact hsame.jiffies.trans_le (hx _ rfl)
  | woken _ _ _ _ htime => exact htime.trans_le (hx _ rfl)
  | unblocked _ _ _ _ _ htime => exact htime.trans_le (hx _ rfl)
  | born _ _ _ _ htime => exact htime.trans_le ((h _ _ ht).trans hjiffies)

theorem Picks.paced (hpicks : Picks m t next c) (hc : c.state = .ready ∨ c.state = .running) (h : m.Paced) : t.Paced := by
  intro j b hb
  rw [hpicks.table] at hb
  obtain ⟨a, ha, rfl⟩ := Option.map_eq_some_iff.mp hb
  obtain ⟨hone, hint, hle⟩ := h j a ha
  obtain ⟨hticks, hpriority, -⟩ := scheduled_keeps m.current next j a
  rw [hticks, hpriority]
  refine ⟨hone, hint, fun hstate => hle fun hsleep => ?_⟩
  rcases eq_or_ne j next with rfl | hj
  · obtain rfl := Option.some.inj (ha.symm.trans hpicks.here)
    rcases hc with hc | hc <;> exact absurd (hsleep.symm.trans hc) (by simp)
  · rw [scheduled_of_ne hj, yielded_of_ne (by rw [hsleep]; simp), ite_self] at hstate
    exact hstate hsleep

theorem Picks.dated (hpicks : Picks m t next c) (h : m.Dated) : t.Dated := by
  intro j b hb
  rw [hpicks.table] at hb
  obtain ⟨a, ha, rfl⟩ := Option.map_eq_some_iff.mp hb
  obtain ⟨-, -, htime⟩ := scheduled_keeps m.current next j a
  rw [htime, hpicks.jiffies]
  exact h j a ha

/-- **A step keeps the ticks below the priorities.** -/
theorem Advances.paced (h : Advances s task op t) (hsound : s.Sound) (ht : s.table s.current = some task)
    (hpaced : s.Paced) : t.Paced := by
  obtain ⟨task', ht', hrun⟩ := hsound.active
  obtain rfl := Option.some.inj (ht.symm.trans ht')
  obtain ⟨hone, hint, hle⟩ := hpaced _ _ ht
  have hle := hle (by rw [hrun]; simp)
  cases h with
  | stays _ hothers hself hsame =>
    exact hothers.paced hpaced ht hself hsame.priority fun _ => hsame.ticks ▸ hle
  | ticks hothers _ hself hsame =>
    exact hothers.paced hpaced ht hself hsame.priority fun _ => by rw [hsame.ticks]; dsimp only; omega
  | yields _ hothers hself hsame _ hsched =>
    obtain ⟨next, c, hpicks, hc⟩ := hothers.picks hsound.linked hself (fun _ => hsame.state.trans hrun) hsched
    exact hpicks.paced hc (hothers.paced hpaced ht hself hsame.priority fun _ => hsame.ticks ▸ hle)
  | leaves _ hidle hothers hself _ hticks hpriority _ _ hsched =>
    obtain ⟨next, c, hpicks, hc⟩ := hothers.picks hsound.linked hself (fun hc => absurd hc hidle) hsched
    exact hpicks.paced hc (hothers.paced hpaced ht hself hpriority fun hb => (hticks hb).trans_le hle)
  | spends hothers _ hself hsame _ hsched =>
    obtain ⟨next, c, hpicks, hc⟩ := hothers.picks hsound.linked hself (fun _ => hsame.state.trans hrun) hsched
    refine hpicks.paced hc (hothers.paced hpaced ht hself hsame.priority fun _ => ?_)
    rw [hsame.ticks]
    exact Int.le_of_eq (int32_of_lt hint)

/-- **What may be called** until `jiffies` wraps. -/
def OnTime (s : Sched) (op : SchedOp) : Prop := s.InTime op ∧ s.jiffies + op.ticks < 4294967296

instance OnTime.decidable (s : Sched) (op : SchedOp) : Decidable (s.OnTime op) :=
  inferInstanceAs (Decidable (s.InTime op ∧ _))

/-- **A step keeps the times below now**, until the clock wraps. -/
theorem Advances.dated (h : Advances s task op t) (ht : s.table s.current = some task)
    (hclock : s.jiffies + op.ticks < 4294967296) (hdated : s.Dated) : t.Dated ∧ s.jiffies ≤ t.jiffies := by
  have hnow := hdated _ _ ht
  cases h with
  | stays _ hothers hself hsame hjiffies =>
    exact ⟨hothers.dated hdated ht hself hjiffies.ge (hsame.jiffies.trans_le (hnow.trans hjiffies.ge)), hjiffies.ge⟩
  | ticks hothers _ hself hsame hjiffies =>
    have hlater : s.jiffies ≤ t.jiffies := by
      rw [hjiffies, u32_of_lt (n := s.jiffies + 1) hclock]
      exact Nat.le_succ _
    exact ⟨hothers.dated hdated ht hself hlater (hsame.jiffies.trans hjiffies.symm).le, hlater⟩
  | yields _ hothers hself hsame hjiffies hsched =>
    obtain ⟨next, c, hpicks⟩ := picks_schedule hsched
    refine ⟨hpicks.dated (hothers.dated hdated ht hself hjiffies.ge
      (hsame.jiffies.trans_le (hnow.trans hjiffies.ge))), ?_⟩
    rw [hpicks.jiffies, hjiffies]
  | leaves _ _ hothers hself _ _ _ htime hjiffies hsched =>
    obtain ⟨next, c, hpicks⟩ := picks_schedule hsched
    refine ⟨hpicks.dated (hothers.dated hdated ht hself hjiffies.ge (htime.trans_le (hnow.trans hjiffies.ge))), ?_⟩
    rw [hpicks.jiffies, hjiffies]
  | @spends m _ _ hothers _ hself hsame hjiffies hsched =>
    obtain ⟨next, c, hpicks⟩ := picks_schedule hsched
    have hlater : s.jiffies ≤ m.jiffies := by
      rw [hjiffies, u32_of_lt (n := s.jiffies + 1) hclock]
      exact Nat.le_succ _
    refine ⟨hpicks.dated (hothers.dated hdated ht hself hlater (hsame.jiffies.trans hjiffies.symm).le), ?_⟩
    rw [hpicks.jiffies]
    exact hlater

/-- The time. -/
theorem Advances.jiffies_le (h : Advances s task op t) : t.jiffies ≤ s.jiffies + op.ticks := by
  cases h with
  | stays _ _ _ _ hjiffies => exact hjiffies.trans_le (Nat.le_add_right _ _)
  | ticks _ _ _ _ hjiffies => exact hjiffies.trans_le (Nat.mod_le _ _)
  | yields _ _ _ _ hjiffies hsched =>
    obtain ⟨next, c, hpicks⟩ := picks_schedule hsched
    exact (hpicks.jiffies.trans hjiffies).trans_le (Nat.le_add_right _ _)
  | leaves _ _ _ _ _ _ _ _ hjiffies hsched =>
    obtain ⟨next, c, hpicks⟩ := picks_schedule hsched
    exact (hpicks.jiffies.trans hjiffies).trans_le (Nat.le_add_right _ _)
  | spends _ _ _ _ hjiffies hsched =>
    obtain ⟨next, c, hpicks⟩ := picks_schedule hsched
    exact (hpicks.jiffies.trans hjiffies).trans_le (Nat.mod_le _ _)

/-- **The invariant of the clock.** -/
structure Timely (s : Sched) : Prop where
  /-- The invariant of the tasks. -/
  sound : s.Sound
  /-- The tasks that sleep. -/
  asleep : s.Asleep
  /-- The ticks and the priorities. -/
  paced : s.Paced

/-- **A step keeps it**, and is one of the cases. -/
theorem Timely.step (h : s.Timely) (hlegal : s.InTime op) : ∃ r t task, s.step op = some (r, t) ∧ t.Timely ∧
    s.table s.current = some task ∧ task.state = .running ∧ Advances s task op t := by
  obtain ⟨task, ht, hrun⟩ := h.sound.active
  obtain ⟨r, t, hstep, hsound, hasleep, -⟩ := h.sound.timeStep h.asleep hlegal
  have hadv := h.sound.advances h.asleep ht hlegal hstep
  exact ⟨r, t, task, hstep, ⟨hsound, hasleep, hadv.paced h.sound ht h.paced⟩, ht, hrun, hadv⟩

theorem Start.timely (h : s.Start) : s.Timely ∧ s.Dated := by
  have hsound := h.sound
  have hasleep := h.asleep
  obtain ⟨jiffies, hs⟩ := h
  obtain rfl := Option.some.inj (hs.symm.trans (schedule_taskInit jiffies))
  constructor
  · refine ⟨hsound, hasleep, fun i a ha => ?_⟩
    rcases table_started ha with ⟨-, rfl⟩ | ⟨-, rfl⟩ | ⟨-, rfl⟩ <;> simp [taskCreate]
  · intro i a ha
    rcases table_started ha with ⟨-, rfl⟩ | ⟨-, rfl⟩ | ⟨-, rfl⟩ <;> simp [taskCreate]

end Sched

end Onixs
