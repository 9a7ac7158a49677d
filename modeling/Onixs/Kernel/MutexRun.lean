import Onixs.Kernel.Mutex

/-!
# Runs with a lock

Each statement of `lock_acquire` and `lock_release` keeps the invariant, as long as the
counter does not wrap. So in every run of any tasks one of them at most has the lock, the
holder and the counter are its own, and no task waits in vain (`Onixs.lockRun_safe`). The
counter has 32 bits: after 2³² nested calls it is zero again (`Onixs.lockRun_deep`).
-/

namespace Onixs

namespace LockTasks

variable {s t : LockTasks} {task : ℕ} {p : LockPhase} {op : LockOp}

/-! ### One step -/

/-- The holder is deep, unless it has just become the holder. -/
theorem Sound.depth_pos (h : s.Sound) (hholder : s.holder = some task) (hcheck : s.phase task ≠ .check)
    (hfirst : s.phase task ≠ .first) : 0 < s.depth task := by
  have hsome : ∃ i, s.Has i := by
    by_contra hnone
    have hfree := (h.free fun i hi => hnone ⟨i, hi⟩).1
    exact absurd (hfree.symm.trans hholder) (by simp)
  obtain ⟨i, hi⟩ := hsome
  have hhere := h.here i
  rcases hi with hpos | hphase | hphase | hphase | hphase | hphase
  · obtain rfl : i = task := by simpa using (h.deep hpos).1.symm.trans hholder
    exact hpos
  · rw [hphase] at hhere
    exact absurd (hhere.2.1.symm.trans hholder) (by simp)
  · rw [hphase] at hhere
    obtain rfl : i = task := by simpa using hhere.2.1.symm.trans hholder
    exact absurd hphase hcheck
  · rw [hphase] at hhere
    obtain rfl : i = task := by simpa using hhere.2.1.symm.trans hholder
    exact absurd hphase hfirst
  · rw [hphase] at hhere
    exact absurd (hhere.2.symm.trans hholder) (by simp)
  · rw [hphase] at hhere
    exact absurd (hhere.2.1.symm.trans hholder) (by simp)

/-- **A task goes to another place**, and nothing else happens. -/
theorem Sound.goto (h : s.Sound) (hblocked : s.phase task ≠ .blocked) (hready : s.phase task ≠ .ready)
    (hp : p ≠ .blocked) (hhas : (s.goto task p).Has task ↔ s.Has task)
    (hlocal : Local s.holder s.repeats (s.depth task) task p) : (s.goto task p).Sound :=
  h.move (Moves.stay (fun _ => rfl) rfl rfl rfl) hblocked hready hp (fun _ => ⟨rfl, rfl⟩) hhas h.deep hlocal

theorem goto_phase_self : (s.goto task p).phase task = p := if_pos rfl

/-- A place where a task has the lock for its depth only. -/
def Plain : LockPhase → Prop
  | .hold | .check | .first | .reset | .unlock => False
  | _ => True

/-- From one such place to another. -/
theorem has_goto (hplain : Plain (s.phase task)) (hp : Plain p) : (s.goto task p).Has task ↔ s.Has task := by
  rw [Has, Has, goto_phase_self, show (s.goto task p).depth task = s.depth task from rfl]
  cases hphase : s.phase task <;> rw [hphase] at hplain <;> cases p <;>
    first | exact absurd hplain id | exact absurd hp id | simp

/-- **A statement.** -/
theorem Sound.go (h : s.Sound) (hout : s.phase task ≠ .out) (hblocked : s.phase task ≠ .blocked) :
    ∃ t, s.go task = some t ∧ t.Sound := by
  have hhere := h.here task
  cases hphase : s.phase task with
  | out => exact absurd hphase hout
  | blocked => exact absurd hphase hblocked
  | acquire =>
    rw [hphase] at hhere
    refine ⟨_, by rw [LockTasks.go, hphase], ?_⟩
    by_cases hholder : s.holder = some task
    · rw [if_pos hholder]
      have hpos := h.depth_pos hholder (by simp [hphase]) (by simp [hphase])
      exact h.goto hblocked (by simp [hphase]) (by simp) (has_goto (hphase ▸ trivial) trivial) ⟨hpos, hhere⟩
    · rw [if_neg hholder]
      have hzero : s.depth task = 0 := Nat.eq_zero_of_not_pos fun hpos => hholder (h.deep hpos).1
      exact h.goto hblocked (by simp [hphase]) (by simp) (has_goto (hphase ▸ trivial) trivial) hzero
  | again =>
    rw [hphase] at hhere
    obtain ⟨hpos, hroom⟩ := hhere
    obtain ⟨hholder, hrepeats, -⟩ := h.deep hpos
    have hnext : u32 (s.repeats + 1) = s.depth task + 1 := by rw [hrepeats, u32_of_lt hroom]
    have hhas : s.Has task := Or.inl hpos
    refine ⟨_, by rw [LockTasks.go, hphase], ?_⟩
    refine h.move ⟨fun _ => rfl, fun _ => rfl, rfl, rfl⟩ hblocked (by simp [hphase]) (by simp)
      (fun hnot => absurd hhas hnot) (iff_of_true (Or.inl ?_) hhas) (fun _ => ⟨hholder, hnext, hroom⟩) trivial
    exact lt_of_lt_of_eq (Nat.succ_pos _) (if_pos rfl).symm
  | lock => exact ⟨_, by rw [LockTasks.go, hphase], h.mutexLock (Or.inl hphase)⟩
  | ready => exact ⟨_, by rw [LockTasks.go, hphase], h.mutexLock (Or.inr hphase)⟩
  | hold =>
    rw [hphase] at hhere
    obtain ⟨hzero, -, hrepeats⟩ := hhere
    have hhas : s.Has task := by simp [Has, hphase]
    refine ⟨{ s with holder := some task }.goto task .check, by rw [LockTasks.go, hphase], ?_⟩
    refine h.move (Moves.stay (fun _ => rfl) rfl rfl rfl) hblocked (by simp [hphase]) (by simp)
      (fun hnot => absurd hhas hnot) (iff_of_true ?_ hhas) (fun hpos => by omega) ⟨hzero, rfl, hrepeats⟩
    exact Or.inr (Or.inr (Or.inl goto_phase_self))
  | check =>
    rw [hphase] at hhere
    have hhas : s.Has task := by simp [Has, hphase]
    refine ⟨s.goto task .first, ?_, h.goto hblocked (by simp [hphase]) (by simp) (iff_of_true ?_ hhas) hhere⟩
    · simp only [LockTasks.go, hphase, assert_pos hhere.2.2]
      rfl
    · exact Or.inr (Or.inr (Or.inr (Or.inl goto_phase_self)))
  | first =>
    rw [hphase] at hhere
    obtain ⟨hzero, hholder, -⟩ := hhere
    have hhas : s.Has task := by simp [Has, hphase]
    refine ⟨_, by rw [LockTasks.go, hphase], ?_⟩
    refine h.move ⟨fun _ => rfl, fun _ => rfl, rfl, rfl⟩ hblocked (by simp [hphase]) (by simp)
      (fun hnot => absurd hhas hnot) (iff_of_true (Or.inl ?_) hhas) (fun _ => ⟨hholder, ?_, ?_⟩) trivial
    · exact lt_of_lt_of_eq (Nat.succ_pos _) (if_pos rfl).symm
    · rw [hzero]
      rfl
    · rw [hzero]
      decide
  | release =>
    rw [hphase] at hhere
    have hpos : 0 < s.depth task := hhere
    refine ⟨s.goto task .test, ?_, h.goto hblocked (by simp [hphase]) (by simp)
      (has_goto (hphase ▸ trivial) trivial) hpos⟩
    simp only [LockTasks.go, hphase, assert_pos (h.deep hpos).1]
    rfl
  | test =>
    rw [hphase] at hhere
    have hpos : 0 < s.depth task := hhere
    obtain ⟨-, hrepeats, -⟩ := h.deep hpos
    refine ⟨_, by rw [LockTasks.go, hphase], ?_⟩
    by_cases hmany : 1 < s.repeats
    · rw [if_pos hmany]
      exact h.goto hblocked (by simp [hphase]) (by simp) (has_goto (hphase ▸ trivial) trivial) (hrepeats ▸ hmany)
    · rw [if_neg hmany]
      have hone : s.depth task = 1 := by omega
      exact h.goto hblocked (by simp [hphase]) (by simp) (has_goto (hphase ▸ trivial) trivial) hone
  | less =>
    rw [hphase] at hhere
    have hmany : 1 < s.depth task := hhere
    obtain ⟨hholder, hrepeats, hlt⟩ := h.deep (Nat.lt_of_succ_lt hmany)
    have hhas : s.Has task := Or.inl (Nat.lt_of_succ_lt hmany)
    refine ⟨_, by rw [LockTasks.go, hphase], ?_⟩
    refine h.move ⟨fun _ => rfl, fun _ => rfl, rfl, rfl⟩ hblocked (by simp [hphase]) (by simp)
      (fun hnot => absurd hhas hnot) (iff_of_true (Or.inl ?_) hhas)
      (fun _ => ⟨hholder, congrArg (· - 1) hrepeats, by omega⟩) trivial
    exact lt_of_lt_of_eq (Nat.sub_pos_of_lt hmany) (if_pos rfl).symm
  | last =>
    rw [hphase] at hhere
    have hone : s.depth task = 1 := hhere
    have hpos : 0 < s.depth task := hone ▸ Nat.one_pos
    have hrepeats : s.repeats = 1 := (h.deep hpos).2.1.trans hone
    refine ⟨s.goto task .drop, ?_, h.goto hblocked (by simp [hphase]) (by simp)
      (has_goto (hphase ▸ trivial) trivial) hone⟩
    simp only [LockTasks.go, hphase, assert_pos hrepeats]
    rfl
  | drop =>
    rw [hphase] at hhere
    have hone : s.depth task = 1 := hhere
    have hhas : s.Has task := Or.inl (hone ▸ Nat.one_pos)
    have hzero : s.depth task - 1 = 0 := by omega
    refine ⟨_, by rw [LockTasks.go, hphase], ?_⟩
    refine h.move ⟨fun _ => rfl, fun _ => rfl, rfl, rfl⟩ hblocked (by simp [hphase]) (by simp)
      (fun hnot => absurd hhas hnot) (iff_of_true ?_ hhas) (fun hpos => by omega) ⟨hzero, rfl⟩
    exact Or.inr (Or.inr (Or.inr (Or.inr (Or.inl goto_phase_self))))
  | reset =>
    rw [hphase] at hhere
    obtain ⟨hzero, hholder⟩ := hhere
    have hhas : s.Has task := by simp [Has, hphase]
    refine ⟨{ s with repeats := 0 }.goto task .unlock, by rw [LockTasks.go, hphase], ?_⟩
    refine h.move (Moves.stay (fun _ => rfl) rfl rfl rfl) hblocked (by simp [hphase]) (by simp)
      (fun hnot => absurd hhas hnot) (iff_of_true ?_ hhas) (fun hpos => by omega) ⟨hzero, hholder, rfl⟩
    exact Or.inr (Or.inr (Or.inr (Or.inr (Or.inr goto_phase_self))))
  | unlock =>
    obtain ⟨t, hrun, ht⟩ := h.mutexUnlock hphase
    exact ⟨t, by simp only [LockTasks.go, hphase, hrun], ht⟩
  | yielded =>
    refine ⟨s.goto task .out, by rw [LockTasks.go, hphase], ?_⟩
    exact h.goto hblocked (by simp [hphase]) (by simp) (has_goto (hphase ▸ trivial) trivial) trivial

/-- **A step** succeeds and keeps the invariant. -/
theorem Sound.step (h : s.Sound) (hlegal : s.Legal op) (hshallow : s.Shallow op) :
    ∃ t, s.step op = some ((), t) ∧ t.Sound := by
  cases op with
  | acquire task =>
    have hphase : s.phase task = .out := hlegal
    exact ⟨_, rfl, h.goto (by simp [hphase]) (by simp [hphase]) (by simp) (has_goto (hphase ▸ trivial) trivial)
      hshallow⟩
  | release task =>
    obtain ⟨hphase, hpos⟩ := hlegal
    exact ⟨_, rfl, h.goto (by simp [hphase]) (by simp [hphase]) (by simp) (has_goto (hphase ▸ trivial) trivial)
      hpos⟩
  | go task =>
    obtain ⟨t, hrun, ht⟩ := h.go hlegal.1 hlegal.2
    exact ⟨t, by rw [LockTasks.step, hrun]; rfl, ht⟩

end LockTasks

/-- **Locks.** In a run of any tasks that nest their calls, to a depth below 2³², no assertion fails,
and the lock is safe all along. -/
theorem lockRun_safe {s : LockTasks} (h : s.Start) {ops : List LockOp}
    (hlegal : Run.Along LockTasks.step (fun s op => s.Legal op ∧ s.Shallow op) s ops) :
    Run.Meets LockTasks.step (fun _ _ _ t => t.Safe) s ops := by
  refine Run.meets_of_inv LockTasks.Sound (fun s op hs hop => ?_) ops s h.sound hlegal
  obtain ⟨t, hstep, ht⟩ := hs.step hop.1 hop.2
  exact ⟨(), t, hstep, ht.safe, ht⟩

instance LockTasks.decidableLegal (s : LockTasks) (op : LockOp) : Decidable (s.Legal op) :=
  match op with
  | .acquire task => inferInstanceAs (Decidable (s.phase task = .out))
  | .release task => inferInstanceAs (Decidable (s.phase task = .out ∧ 0 < s.depth task))
  | .go task => inferInstanceAs (Decidable (s.phase task ≠ .out ∧ s.phase task ≠ .blocked))

instance LockTasks.decidableShallow (s : LockTasks) (op : LockOp) : Decidable (s.Shallow op) :=
  match op with
  | .acquire task => inferInstanceAs (Decidable (s.depth task + 1 < 4294967296))
  | .release _ => isTrue trivial
  | .go _ => isTrue trivial

/-- A lock that has just been made. -/
def freshLock : LockTasks where
  holder := none
  repeats := 0
  value := false
  waiters := []
  phase := fun _ => .out
  depth := fun _ => 0

theorem freshLock_start : freshLock.Start := ⟨rfl, rfl, rfl, rfl, fun _ => rfl, fun _ => rfl⟩

/-- Task 2 waits for task 1, and gets the lock when that one has released it. -/
theorem lockRun_safe_two : Run.Meets LockTasks.step (fun _ _ _ t => t.Safe) freshLock
    [.acquire 1, .go 1, .go 1, .go 1, .go 1, .go 1, .acquire 2, .go 2, .go 2, .release 1, .go 1, .go 1, .go 1,
      .go 1, .go 1, .go 1, .go 2, .go 2] :=
  lockRun_safe freshLock_start (by decide)

/-! ### Nesting without end -/

/-- A task acquires the lock once, and so often again. -/
def nestedOps (n : ℕ) : List LockOp :=
  [.acquire 1, .go 1, .go 1, .go 1, .go 1, .go 1] ++ (List.replicate n [.acquire 1, .go 1, .go 1]).flatten

/-- Task 1 is so deep. -/
structure Nested (d : ℕ) (s : LockTasks) : Prop where
  /-- It is the holder. -/
  holder : s.holder = some 1
  /-- The counter has wrapped. -/
  repeats : s.repeats = u32 d
  /-- It is outside the functions. -/
  phase : s.phase 1 = .out
  /-- Its depth. -/
  depth : s.depth 1 = d

theorem u32_succ (d : ℕ) : u32 (u32 d + 1) = u32 (d + 1) := Nat.mod_add_mod d 4294967296 1

/-- Once more. -/
theorem Nested.again (n : ℕ) : ∀ {d : ℕ} {s : LockTasks}, Nested d s →
    ∃ t, Run.exec LockTasks.step s (List.replicate n [.acquire 1, .go 1, .go 1]).flatten = some t ∧
      Nested (d + n) t ∧
      Run.Along LockTasks.step LockTasks.Legal s (List.replicate n [.acquire 1, .go 1, .go 1]).flatten := by
  induction n with
  | zero => exact fun h => ⟨_, rfl, h, trivial⟩
  | succ n ih =>
    intro d s h
    obtain ⟨u, hu⟩ : ∃ u, u = s.goto 1 .acquire := ⟨_, rfl⟩
    obtain ⟨v, hv⟩ : ∃ v, v = u.goto 1 .again := ⟨_, rfl⟩
    obtain ⟨w, hw⟩ : ∃ w, w = ({ v with repeats := u32 (v.repeats + 1) }.setDepth 1 (v.depth 1 + 1)).goto 1 .out :=
      ⟨_, rfl⟩
    have huphase : u.phase 1 = .acquire := by rw [hu]; rfl
    have hvphase : v.phase 1 = .again := by rw [hv]; rfl
    have hsu : s.step (.acquire 1) = some ((), u) := by rw [hu]; rfl
    have huv : u.step (.go 1) = some ((), v) := by
      have hholder : u.holder = some 1 := by rw [hu]; exact h.holder
      simp only [LockTasks.step, LockTasks.go, huphase, hholder, hv]
      rfl
    have hvw : v.step (.go 1) = some ((), w) := by
      simp only [LockTasks.step, LockTasks.go, hvphase, hw]
      rfl
    have hnested : Nested (d + 1) w := by
      have hrepeats : v.repeats = u32 d := by rw [hv, hu]; exact h.repeats
      have hdepth : v.depth 1 = d := by rw [hv, hu]; exact h.depth
      refine ⟨by rw [hw, hv, hu]; exact h.holder, ?_, by rw [hw]; rfl, ?_⟩
      · have hnext : w.repeats = u32 (v.repeats + 1) := by rw [hw]; rfl
        rw [hnext, hrepeats, u32_succ]
      · rw [hw, ← hdepth]
        rfl
    obtain ⟨t, hexec, ht, hlegal⟩ := ih hnested
    refine ⟨t, ?_, (Nat.add_right_comm d 1 n) ▸ ht, ⟨h.phase, fun _ u' hu' => ?_⟩⟩
    · rw [List.replicate_succ, List.flatten_cons]
      exact Run.exec_cons.mpr ⟨(), u, hsu, Run.exec_cons.mpr ⟨(), v, huv, Run.exec_cons.mpr ⟨(), w, hvw, hexec⟩⟩⟩
    · obtain rfl := (Prod.mk.inj (Option.some.inj (hsu.symm.trans hu'))).2
      refine ⟨by simp [LockTasks.Legal, huphase], fun _ v' hv' => ?_⟩
      obtain rfl := (Prod.mk.inj (Option.some.inj (huv.symm.trans hv'))).2
      refine ⟨by simp [LockTasks.Legal, hvphase], fun _ w' hw' => ?_⟩
      obtain rfl := (Prod.mk.inj (Option.some.inj (hvw.symm.trans hw'))).2
      exact hlegal

/-- So often as one likes. -/
theorem nestedOps_exec (n : ℕ) : ∃ t, Run.exec LockTasks.step freshLock (nestedOps n) = some t ∧
    Nested (1 + n) t ∧ Run.Along LockTasks.step LockTasks.Legal freshLock (nestedOps n) := by
  obtain ⟨u, hu⟩ : ∃ u, Run.exec LockTasks.step freshLock
      [.acquire 1, .go 1, .go 1, .go 1, .go 1, .go 1] = some u := ⟨_, rfl⟩
  have hfirst : Nested 1 u := by
    obtain rfl := Option.some.inj hu
    exact ⟨rfl, rfl, rfl, rfl⟩
  obtain ⟨t, hexec, ht, hlegal⟩ := hfirst.again n
  refine ⟨t, ?_, ht, ?_⟩
  · rw [nestedOps, Run.exec_append, hu]
    exact hexec
  · rw [nestedOps, Run.along_append]
    refine ⟨by decide, fun v hv => ?_⟩
    obtain rfl := Option.some.inj (hu.symm.trans hv)
    exact hlegal

/-- **After 2³² nested calls of `lock_acquire` the counter is zero.** -/
theorem lockRun_deep : Run.Along LockTasks.step LockTasks.Legal freshLock (nestedOps 4294967295) ∧
    ¬Run.Meets LockTasks.step (fun _ _ _ t => t.Safe) freshLock (nestedOps 4294967295) := by
  obtain ⟨t, hexec, ht, hlegal⟩ := nestedOps_exec 4294967295
  refine ⟨hlegal, fun hmeets => ?_⟩
  have hsafe := hmeets.at_end freshLock_start.sound.safe hexec
  have hpos : 0 < t.depth 1 := by
    rw [ht.depth]
    exact Nat.succ_pos _
  have hwrong := (hsafe.owner hpos).2
  rw [ht.repeats, ht.depth] at hwrong
  exact absurd hwrong (by decide)

end Onixs
