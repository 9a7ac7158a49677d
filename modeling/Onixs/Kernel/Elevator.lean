import Mathlib.Data.List.Nodup
import Mathlib.Tactic.Push
import Onixs.Kernel.Device

/-!
# The elevator

Every request in the list of a disk belongs to one task, and one of these tasks has the turn: it
executes its request, or has been made ready to; all others are blocked. The task
that is done gives the turn to the neighbour of its request in the sorted list, in the
direction of the disk. Requests that come in between are put into the list and wait. So the
disk executes one request at a time, each once, and as long as a request is in the list
some task can go on (`Onixs.diskRun_elevator`).
-/

namespace Onixs

namespace Disk

/-- What a task does for itself, as against a new request. -/
def Own : DiskOp → Prop
  | .issue .. => False
  | .resume _ => True
  | .finish _ => True

section Specification

variable (s : Disk)

/-- Requests are for the disk or one of its partitions, and their sectors are below 2³¹. A task
makes one when it has none, goes on when it is ready, and is done when it executes. -/
def Legal : DiskOp → Prop
  | .issue task dev _ _ idx _ _ => s.phase task = .idle ∧
      (dev < 64 ∧ (s.devices dev).type ≠ .null) ∧ (s.dev < 64 ∧ (s.devices s.dev).type ≠ .null) ∧
      (((s.devices dev).parent = 0 ∧ dev = s.dev) ∨ ((s.devices dev).parent = s.dev ∧ s.dev ≠ 0)) ∧
      u32 (idx + (s.devices dev).sectorStart) < 2147483648
  | .resume task => ∃ req, s.phase task = .call req .ready
  | .finish task => ∃ req, s.phase task = .call req .executing

/-- No request has been made. -/
structure Start : Prop where
  /-- The list is empty. -/
  requestList : s.requestList = []
  /-- No task has a request. -/
  phase : ∀ task, s.phase task = .idle
  /-- No request has been made. -/
  made : s.made = 0
  /-- None has been executed. -/
  served : s.served = []

/-- **What holds at any time.** -/
structure Elevator : Prop where
  /-- One task at most executes a request. -/
  alone : ∀ {task task' req req'}, s.phase task = .call req .executing →
    s.phase task' = .call req' .executing → task = task'
  /-- No request is executed twice, -/
  once : (s.served.map Request.node).Nodup
  /-- and those that have not been executed are the ones whose tasks are not that far. -/
  executed : ∀ n < s.made, n ∈ s.served.map Request.node ↔
    ∀ task req stage, s.phase task = .call req stage → req.node = n → stage = .executing
  /-- One request in the list has its task executing it, or ready to. -/
  turn : s.requestList ≠ [] → ∃! task, ∃ req ∈ s.requestList,
    s.phase task = .call req .executing ∨ s.phase task = .call req .ready
  /-- The list is sorted by the sectors. -/
  sorted : s.requestList.Pairwise fun a b => a.idx ≤ b.idx

/-- With no new requests, the list is worked off: a task can go on as long as the list is not empty,
and two steps of each request are all there is. -/
def Drains : Prop := ∀ ops t, (∀ op ∈ ops, Own op) → Run.Along Disk.step Legal s ops →
  Run.exec Disk.step s ops = some t →
    ops.length ≤ 2 * s.requestList.length ∧ (t.requestList = [] ∨ ∃ op, Own op ∧ t.Legal op)

/-- **Whose turn it is.** A task that is done makes ready the neighbour of its request, in the
direction of the disk, which is reversed when no request is left in it. The request that
was made ready is the next to be executed; a new one is executed at once when the list is
empty. -/
def Turn (s t : Disk) : DiskOp → Prop
  | .issue .. => t.direct = s.direct ∧
      (∀ task req, t.phase task = .call req .ready ↔ s.phase task = .call req .ready) ∧
      (s.requestList ≠ [] → t.served = s.served)
  | .resume task => t.direct = s.direct ∧
      ∃ req, s.phase task = .call req .ready ∧ t.served = s.served ++ [req]
  | .finish task => t.served = s.served ∧
      ∃ req before after, s.phase task = .call req .executing ∧
        s.requestList = before ++ req :: after ∧ t.requestList = before ++ after ∧
        (t.direct = .up ↔ (s.direct = .up ∧ after ≠ []) ∨ (s.direct = .down ∧ before = [])) ∧
        ∀ task' req', t.phase task' = .call req' .ready ↔ req'.task = some task' ∧
          ((t.direct = .up ∧ after.head? = some req') ∨ (t.direct = .down ∧ before.getLast? = some req'))

end Specification

/-! ### What every step keeps -/

/-- **The invariant.** -/
structure Sound (s : Disk) : Prop where
  /-- The list is sorted. -/
  sorted : s.requestList.Pairwise fun a b => int32 a.idx ≤ int32 b.idx
  /-- Sectors are below 2³¹. -/
  small : ∀ {req}, req ∈ s.requestList → req.idx < 2147483648
  /-- A request is in the list once. -/
  nodup : (s.requestList.map Request.node).Nodup
  /-- The requests in the list are the ones tasks have. -/
  mem_iff : ∀ {req}, req ∈ s.requestList ↔ ∃ task stage, s.phase task = .call req stage
  /-- A request belongs to one task. -/
  owner : ∀ {task task' req req' stage stage'}, s.phase task = .call req stage →
    s.phase task' = .call req' stage' → req.node = req'.node → task = task'
  /-- The task of a request that waits, or waited, is known. -/
  task : ∀ {task req stage}, s.phase task = .call req stage → stage ≠ .executing → req.task = some task
  /-- One task has the turn, -/
  turn : s.requestList ≠ [] → ∃ task req stage, s.phase task = .call req stage ∧ stage ≠ .waiting
  /-- and no other. -/
  turn_unique : ∀ {task task' req req' stage stage'}, s.phase task = .call req stage → stage ≠ .waiting →
    s.phase task' = .call req' stage' → stage' ≠ .waiting → task = task'
  /-- Requests are new. -/
  fresh : ∀ {req}, req ∈ s.requestList → req.node < s.made
  /-- So are the ones that have been executed, -/
  served_lt : ∀ {n}, n ∈ s.served.map Request.node → n < s.made
  /-- which have been executed once. -/
  once : (s.served.map Request.node).Nodup
  /-- The request of a task has been executed when the task is that far, -/
  served_iff : ∀ {task req stage}, s.phase task = .call req stage →
    (req.node ∈ s.served.map Request.node ↔ stage = .executing)
  /-- and it has been when no task has it any more. -/
  gone : ∀ n < s.made, (∀ req ∈ s.requestList, req.node ≠ n) → n ∈ s.served.map Request.node

variable {s t : Disk} {task : ℕ} {req : Request} {op : DiskOp}

@[simp] theorem goto_phase_self {phase : DiskPhase} : (s.goto task phase).phase task = phase := if_pos rfl

theorem goto_phase_of_ne {i : ℕ} {phase : DiskPhase} (h : i ≠ task) :
    (s.goto task phase).phase i = s.phase i := if_neg h

theorem Start.sound (h : s.Start) : s.Sound := by
  have hnone : ∀ {req}, req ∉ s.requestList := fun {req} hreq => by
    rw [h.requestList] at hreq
    exact List.not_mem_nil hreq
  have hidle : ∀ {task req stage}, s.phase task ≠ .call req stage := fun {task req stage} hcall => by
    rw [h.phase task] at hcall
    exact absurd hcall (by simp)
  refine ⟨by rw [h.requestList]; exact List.Pairwise.nil, fun hreq => absurd hreq hnone,
    by rw [h.requestList]; exact List.nodup_nil, fun {req} => iff_of_false hnone ?_,
    fun hcall => absurd hcall hidle, fun hcall => absurd hcall hidle, fun hne => absurd h.requestList hne,
    fun hcall => absurd hcall hidle, fun hreq => absurd hreq hnone, fun {n} hn => ?_, ?_,
    fun hcall => absurd hcall hidle, fun n hn => ?_⟩
  · rintro ⟨task, stage, hcall⟩
    exact hidle hcall
  · rw [h.served] at hn
    exact absurd hn List.not_mem_nil
  · rw [h.served]
    exact List.nodup_nil
  · rw [h.made] at hn
    exact absurd hn (Nat.not_lt_zero n)

namespace Sound

/-- Two requests of the list at one place are one. -/
theorem eq_of_node (h : s.Sound) {a b : Request} (ha : a ∈ s.requestList) (hb : b ∈ s.requestList)
    (hnode : a.node = b.node) : a = b :=
  List.inj_on_of_nodup_map h.nodup ha hb hnode

theorem mem (h : s.Sound) {stage : Stage} (hcall : s.phase task = .call req stage) :
    req ∈ s.requestList :=
  h.mem_iff.mpr ⟨task, stage, hcall⟩

theorem elevator (h : s.Sound) : s.Elevator := by
  refine ⟨fun hcall hcall' => h.turn_unique hcall (by simp) hcall' (by simp), h.once, fun n hn => ?_,
    fun hne => ?_, ?_⟩
  · constructor
    · rintro hserved task req stage hcall rfl
      exact (h.served_iff hcall).mp hserved
    · intro hall
      by_cases hgone : ∀ req ∈ s.requestList, req.node ≠ n
      · exact h.gone n hn hgone
      · push Not at hgone
        obtain ⟨req, hmem, rfl⟩ := hgone
        obtain ⟨task, stage, hcall⟩ := h.mem_iff.mp hmem
        exact (h.served_iff hcall).mpr (hall task req stage hcall rfl)
  · obtain ⟨task, req, stage, hcall, hstage⟩ := h.turn hne
    refine ⟨task, ⟨req, h.mem hcall, ?_⟩, ?_⟩
    · cases stage with
      | waiting => exact absurd rfl hstage
      | ready => exact Or.inr hcall
      | executing => exact Or.inl hcall
    · rintro task' ⟨req', -, hcall' | hcall'⟩
      · exact h.turn_unique hcall' (by simp) hcall hstage
      · exact h.turn_unique hcall' (by simp) hcall hstage
  · refine h.sorted.imp_of_mem fun {a b} ha hb hle => ?_
    rw [int32_of_lt (h.small ha), int32_of_lt (h.small hb)] at hle
    exact Int.ofNat_le.mp hle

/-! ### A new request -/

/-- **A request is put into the list.** It waits where there are others, and is executed at once where
there are none. -/
theorem insert (h : s.Sound) {stage : Stage} (hidle : s.phase task = .idle)
    (hnode : req.node = s.made) (hsmall : req.idx < 2147483648)
    (hlist : t.requestList = listInsertSort (fun r => int32 r.idx) req s.requestList)
    (hphase : ∀ i, t.phase i = if i = task then .call req stage else s.phase i) (hmade : t.made = s.made + 1)
    (hstage : (stage = .executing ∧ s.requestList = [] ∧ t.served = s.served ++ [req]) ∨
      (stage = .waiting ∧ s.requestList ≠ [] ∧ t.served = s.served ∧ req.task = some task)) : t.Sound := by
  have hperm : t.requestList.Perm (req :: s.requestList) := hlist ▸ listInsertSort_perm
  have hmem : ∀ {r}, r ∈ t.requestList ↔ r = req ∨ r ∈ s.requestList := by
    intro r
    rw [hperm.mem_iff, List.mem_cons]
  have hcall : ∀ {i r g}, t.phase i = .call r g →
      (i = task ∧ r = req ∧ g = stage) ∨ (i ≠ task ∧ s.phase i = .call r g) := by
    intro i r g hi
    rw [hphase] at hi
    split at hi
    next heq =>
      obtain ⟨rfl, rfl⟩ := DiskPhase.call.inj hi
      exact Or.inl ⟨heq, rfl, rfl⟩
    next hne => exact Or.inr ⟨hne, hi⟩
  have hself : t.phase task = .call req stage := (hphase task).trans (if_pos rfl)
  have hother : ∀ {i r g}, s.phase i = .call r g → t.phase i = .call r g := by
    intro i r g hi
    have hne : i ≠ task := by
      rintro rfl
      exact absurd (hidle.symm.trans hi) (by simp)
    exact (hphase i).trans ((if_neg hne).trans hi)
  -- the place of the request is new
  have hnew : ∀ {r}, r ∈ s.requestList → r.node ≠ req.node := fun {r} hr heq =>
    absurd (h.fresh hr) (by omega)
  have hunserved : req.node ∉ s.served.map Request.node := fun hserved =>
    absurd (h.served_lt hserved) (by omega)
  have hserved : ∀ {n}, n ∈ t.served.map Request.node ↔
      n ∈ s.served.map Request.node ∨ (stage = .executing ∧ n = req.node) := by
    intro n
    rcases hstage with ⟨rfl, -, hs⟩ | ⟨rfl, -, hs, -⟩
    · rw [hs, List.map_append, List.mem_append, List.map_singleton, List.mem_singleton,
        and_iff_right rfl]
    · rw [hs, or_iff_left (by simp)]
  refine ⟨hlist ▸ pairwise_listInsertSort h.sorted, fun {r} hr => ?_, ?_, fun {r} => ?_,
    fun {i j r r' g g'} hi hj hr => ?_, fun {i r g} hi hg => ?_, fun _ => ?_,
    fun {i j r r' g g'} hi hg hj hg' => ?_, fun {r} hr => ?_, fun {n} hn => ?_, ?_,
    fun {i r g} hi => ?_, fun n hn hgone => ?_⟩
  · rcases hmem.mp hr with rfl | hr
    · exact hsmall
    · exact h.small hr
  · refine (hperm.map Request.node).nodup_iff.mpr (List.nodup_cons.mpr ⟨fun hin => ?_, h.nodup⟩)
    obtain ⟨r, hr, heq⟩ := List.mem_map.mp hin
    exact hnew hr heq
  · rw [hmem]
    constructor
    · rintro (rfl | hr)
      · exact ⟨task, stage, hself⟩
      · obtain ⟨i, g, hi⟩ := h.mem_iff.mp hr
        exact ⟨i, g, hother hi⟩
    · rintro ⟨i, g, hi⟩
      rcases hcall hi with ⟨-, rfl, -⟩ | ⟨-, hi⟩
      · exact Or.inl rfl
      · exact Or.inr (h.mem hi)
  · rcases hcall hi with ⟨rfl, rfl, -⟩ | ⟨-, hi⟩ <;> rcases hcall hj with ⟨rfl, rfl, -⟩ | ⟨-, hj⟩
    · rfl
    · exact absurd hr.symm (hnew (h.mem hj))
    · exact absurd hr (hnew (h.mem hi))
    · exact h.owner hi hj hr
  · rcases hcall hi with ⟨rfl, rfl, rfl⟩ | ⟨-, hi⟩
    · rcases hstage with ⟨rfl, -⟩ | ⟨-, -, -, htask⟩
      · exact absurd rfl hg
      · exact htask
    · exact h.task hi hg
  · rcases hstage with ⟨rfl, -⟩ | ⟨-, hne, -⟩
    · exact ⟨task, req, _, hself, by simp⟩
    · obtain ⟨i, r, g, hi, hg⟩ := h.turn hne
      exact ⟨i, r, g, hother hi, hg⟩
  · rcases hstage with ⟨rfl, hnil, -⟩ | ⟨rfl, -⟩
    · -- there is no other request
      have hall : ∀ {i r g}, t.phase i = .call r g → i = task := by
        intro i r g hi
        rcases hcall hi with ⟨rfl, -⟩ | ⟨-, hi⟩
        · rfl
        · exact absurd (h.mem hi) (hnil ▸ List.not_mem_nil)
      rw [hall hi, hall hj]
    · rcases hcall hi with ⟨-, -, rfl⟩ | ⟨-, hi⟩
      · exact absurd rfl hg
      · rcases hcall hj with ⟨-, -, rfl⟩ | ⟨-, hj⟩
        · exact absurd rfl hg'
        · exact h.turn_unique hi hg hj hg'
  · rw [hmade]
    rcases hmem.mp hr with rfl | hr
    · omega
    · exact Nat.lt_succ_of_lt (h.fresh hr)
  · rw [hmade]
    rcases hserved.mp hn with hn | ⟨-, rfl⟩
    · exact Nat.lt_succ_of_lt (h.served_lt hn)
    · omega
  · rcases hstage with ⟨-, -, hs⟩ | ⟨-, -, hs, -⟩
    · rw [hs, List.map_append, List.map_singleton, List.nodup_append]
      refine ⟨h.once, List.nodup_singleton _, fun a ha b hb => ?_⟩
      rw [List.mem_singleton] at hb
      rintro rfl
      exact hunserved (hb ▸ ha)
    · rw [hs]
      exact h.once
  · rw [hserved]
    rcases hcall hi with ⟨rfl, rfl, rfl⟩ | ⟨-, hi⟩
    · exact (or_iff_right hunserved).trans (and_iff_left rfl)
    · rw [or_iff_left fun hc => hnew (h.mem hi) hc.2]
      exact h.served_iff hi
  · rw [hserved]
    have hne : n ≠ s.made := fun heq => hgone req (hmem.mpr (Or.inl rfl)) (hnode.trans heq.symm)
    exact Or.inl (h.gone n (by omega) fun r hr => hgone r (hmem.mpr (Or.inr hr)))

/-! ### The turn is taken -/

/-- **A task that is ready** executes its request. -/
theorem resume (h : s.Sound) (hready : s.phase task = .call req .ready) : (s.doRequest task req).Sound := by
  obtain ⟨t, ht⟩ : ∃ t, t = s.doRequest task req := ⟨_, rfl⟩
  rw [← ht]
  have hlist : t.requestList = s.requestList := by rw [ht]; rfl
  have hmade : t.made = s.made := by rw [ht]; rfl
  have hserved : t.served = s.served ++ [req] := by rw [ht]; rfl
  have hself : t.phase task = .call req .executing := by rw [ht]; exact if_pos rfl
  have hother : ∀ {i}, i ≠ task → t.phase i = s.phase i := fun hi => by rw [ht]; exact if_neg hi
  have hcall : ∀ {i r g}, t.phase i = .call r g →
      (i = task ∧ r = req ∧ g = .executing) ∨ (i ≠ task ∧ s.phase i = .call r g) := by
    intro i r g hi
    rcases eq_or_ne i task with rfl | hne
    · obtain ⟨rfl, rfl⟩ := DiskPhase.call.inj (hself.symm.trans hi)
      exact Or.inl ⟨rfl, rfl, rfl⟩
    · exact Or.inr ⟨hne, (hother hne).symm.trans hi⟩
  have hold : ∀ {i r g}, t.phase i = .call r g → ∃ g', s.phase i = .call r g' ∧ (g ≠ .waiting → g' ≠ .waiting) := by
    intro i r g hi
    rcases hcall hi with ⟨rfl, rfl, -⟩ | ⟨-, hi⟩
    · exact ⟨.ready, hready, fun _ => by simp⟩
    · exact ⟨g, hi, id⟩
  have hunserved : req.node ∉ s.served.map Request.node := fun hc =>
    absurd ((h.served_iff hready).mp hc) (by simp)
  have hmem : ∀ {n}, n ∈ t.served.map Request.node ↔ n ∈ s.served.map Request.node ∨ n = req.node := by
    intro n
    rw [hserved, List.map_append, List.mem_append, List.map_singleton, List.mem_singleton]
  refine ⟨by rw [hlist]; exact h.sorted, fun hr => h.small (hlist ▸ hr), by rw [hlist]; exact h.nodup,
    fun {r} => ?_, fun {i j r r' g g'} hi hj hr => ?_, fun {i r g} hi hg => ?_, fun _ => ?_,
    fun {i j r r' g g'} hi hg hj hg' => ?_, fun {r} hr => ?_, fun {n} hn => ?_, ?_,
    fun {i r g} hi => ?_, fun n hn hgone => ?_⟩
  · rw [hlist, h.mem_iff]
    constructor
    · rintro ⟨i, g, hi⟩
      rcases eq_or_ne i task with rfl | hne
      · obtain ⟨rfl, rfl⟩ := DiskPhase.call.inj (hready.symm.trans hi)
        exact ⟨i, .executing, hself⟩
      · exact ⟨i, g, (hother hne).trans hi⟩
    · rintro ⟨i, g, hi⟩
      obtain ⟨g', hi', -⟩ := hold hi
      exact ⟨i, g', hi'⟩
  · obtain ⟨_, hi, -⟩ := hold hi
    obtain ⟨_, hj, -⟩ := hold hj
    exact h.owner hi hj hr
  · rcases hcall hi with ⟨-, -, rfl⟩ | ⟨-, hi⟩
    · exact absurd rfl hg
    · exact h.task hi hg
  · exact ⟨task, req, .executing, hself, by simp⟩
  · obtain ⟨_, hi, hgi⟩ := hold hi
    obtain ⟨_, hj, hgj⟩ := hold hj
    exact h.turn_unique hi (hgi hg) hj (hgj hg')
  · rw [hmade]
    exact h.fresh (hlist ▸ hr)
  · rw [hmade]
    rcases hmem.mp hn with hn | rfl
    · exact h.served_lt hn
    · exact h.fresh (h.mem hready)
  · rw [hserved, List.map_append, List.map_singleton, List.nodup_append]
    refine ⟨h.once, List.nodup_singleton _, fun a ha b hb => ?_⟩
    rw [List.mem_singleton] at hb
    rintro rfl
    exact hunserved (hb ▸ ha)
  · rw [hmem]
    rcases hcall hi with ⟨-, rfl, rfl⟩ | ⟨hne, hi⟩
    · exact iff_of_true (Or.inr rfl) rfl
    · rw [or_iff_left fun heq => hne (h.owner hi hready heq)]
      exact h.served_iff hi
  · rw [hmem]
    exact Or.inl (h.gone n (hmade ▸ hn) (hlist ▸ hgone))

/-! ### The turn is given away -/

/-- **A request is done.** All other tasks wait, and the one whose request is next is made ready. -/
theorem leave (h : s.Sound) {before after : List Request} {next : Option Request}
    (hexec : s.phase task = .call req .executing) (hbefore : s.requestList = before ++ req :: after)
    (hlist : t.requestList = before ++ after) (hmade : t.made = s.made) (hserved : t.served = s.served)
    (hcall : ∀ {i r g}, t.phase i = .call r g → i ≠ task ∧ s.phase i = .call r .waiting ∧
      (g = .waiting ∨ (g = .ready ∧ next = some r)))
    (hback : ∀ {i r g}, s.phase i = .call r g → i ≠ task → ∃ g', t.phase i = .call r g')
    (hnext : t.requestList ≠ [] → ∃ i r, t.phase i = .call r .ready) : t.Sound := by
  have hsub : t.requestList.Sublist s.requestList := by
    rw [hlist, hbefore]
    exact (List.Sublist.refl before).append (List.sublist_cons_self req after)
  have hmem : ∀ {r}, r ∈ s.requestList ↔ r = req ∨ r ∈ t.requestList := by
    intro r
    rw [hlist, hbefore, List.mem_append, List.mem_cons, List.mem_append]
    exact or_left_comm
  have hgone : req ∉ t.requestList := by
    have hnodup := List.Nodup.of_map _ h.nodup
    rw [hbefore] at hnodup
    rw [hlist]
    exact (List.nodup_cons.mp (List.nodup_middle.mp hnodup)).1
  refine ⟨h.sorted.sublist hsub, fun hr => h.small (hsub.subset hr), h.nodup.sublist (hsub.map _),
    fun {r} => ?_, fun {i j r r' g g'} hi hj hr => ?_, fun {i r g} hi hg => ?_, fun hne => ?_,
    fun {i j r r' g g'} hi hg hj hg' => ?_, fun hr => hmade ▸ h.fresh (hsub.subset hr), fun hn => ?_, ?_,
    fun {i r g} hi => ?_, fun n hn hall => ?_⟩
  · constructor
    · intro hr
      obtain ⟨i, g, hi⟩ := h.mem_iff.mp (hsub.subset hr)
      have hne : i ≠ task := by
        rintro rfl
        obtain ⟨rfl, -⟩ := DiskPhase.call.inj (hexec.symm.trans hi)
        exact hgone hr
      exact ⟨i, hback hi hne⟩
    · rintro ⟨i, g, hi⟩
      obtain ⟨hne, hs, -⟩ := hcall hi
      refine (hmem.mp (h.mem hs)).resolve_left ?_
      rintro rfl
      exact hne (h.owner hs hexec rfl)
  · exact h.owner (hcall hi).2.1 (hcall hj).2.1 hr
  · exact h.task (hcall hi).2.1 (by simp)
  · obtain ⟨i, r, hi⟩ := hnext hne
    exact ⟨i, r, .ready, hi, by simp⟩
  · obtain ⟨-, hsi, hready⟩ := hcall hi
    obtain ⟨-, hsj, hready'⟩ := hcall hj
    obtain ⟨-, hr⟩ := hready.resolve_left hg
    obtain ⟨-, hr'⟩ := hready'.resolve_left hg'
    obtain rfl : r = r' := Option.some.inj (hr.symm.trans hr')
    exact h.owner hsi hsj rfl
  · rw [hserved] at hn
    rw [hmade]
    exact h.served_lt hn
  · rw [hserved]
    exact h.once
  · obtain ⟨-, hs, hg⟩ := hcall hi
    rw [hserved, h.served_iff hs]
    refine iff_of_false (by simp) ?_
    rcases hg with rfl | ⟨rfl, -⟩ <;> simp
  · rw [hserved]
    by_cases hn' : req.node = n
    · exact hn' ▸ (h.served_iff hexec).mpr rfl
    · refine h.gone n (hmade ▸ hn) fun r hr => ?_
      rcases hmem.mp hr with rfl | hr
      · exact hn'
      · exact hall r hr

end Sound

/-! ### The next request -/

/-- The direction, reversed when no request is left in it. -/
def turned (direct : Direct) (before after : List Request) : Direct :=
  if direct = .up ∧ after = [] then .down else if direct = .down ∧ before = [] then .up else direct

/-- The neighbour in a direction. -/
def neighbour (before after : List Request) : Direct → Option Request
  | .up => after.head?
  | .down => before.getLast?

section Next

variable {before after : List Request} {direct : Direct}

theorem requestNextreq_eq (hlist : s.requestList = before ++ req :: after) (hnot : req ∉ before) :
    s.requestNextreq req = (neighbour before after (turned s.direct before after),
      { s with direct := turned s.direct before after }) := by
  rw [requestNextreq, hlist, listBefore_append hnot, listAfter_append hnot]
  simp only [List.head?_eq_none_iff, List.getLast?_eq_none_iff, ← turned.eq_def]
  cases turned s.direct before after <;> rfl

theorem turned_eq_up : turned direct before after = .up ↔
    (direct = .up ∧ after ≠ []) ∨ (direct = .down ∧ before = []) := by
  rw [turned]
  cases direct <;> by_cases hafter : after = [] <;> by_cases hbefore : before = [] <;>
    simp [hafter, hbefore]

theorem neighbour_eq_some {r : Request} : neighbour before after direct = some r ↔
    (direct = .up ∧ after.head? = some r) ∨ (direct = .down ∧ before.getLast? = some r) := by
  cases direct <;> simp [neighbour]

theorem mem_of_neighbour {r : Request} (h : neighbour before after direct = some r) : r ∈ before ++ after := by
  rcases neighbour_eq_some.mp h with ⟨-, h⟩ | ⟨-, h⟩
  · exact List.mem_append_right _ (List.mem_of_head? h)
  · exact List.mem_append_left _ (List.mem_of_getLast? h)

/-- There is no next request only when no other is left. -/
theorem neighbour_turned_eq_none (h : neighbour before after (turned direct before after) = none) :
    before ++ after = [] := by
  cases hturned : turned direct before after with
  | up =>
    rw [hturned] at h
    have hafter := List.head?_eq_none_iff.mp h
    rcases turned_eq_up.mp hturned with ⟨-, hne⟩ | ⟨-, hbefore⟩
    · exact absurd hafter hne
    · rw [hbefore, hafter, List.nil_append]
  | down =>
    rw [hturned] at h
    have hbefore := List.getLast?_eq_none_iff.mp h
    have hnot : ¬((direct = .up ∧ after ≠ []) ∨ (direct = .down ∧ before = [])) := fun hup => by
      rw [turned_eq_up.mpr hup] at hturned
      exact absurd hturned (by simp)
    obtain ⟨hup, hdown⟩ := not_or.mp hnot
    cases direct with
    | up => rw [hbefore, not_not.mp fun hne => hup ⟨rfl, hne⟩, List.nil_append]
    | down => exact absurd ⟨rfl, hbefore⟩ hdown

end Next

/-! ### The steps -/

/-- **`device_request` behind `do_request`.** -/
theorem Sound.requestDone (h : s.Sound) (hexec : s.phase task = .call req .executing) :
    ∃ t, s.requestDone task req = some t ∧ t.Sound ∧ Turn s t (.finish task) ∧
      t.requestList.length + 1 = s.requestList.length ∧ t.phase task = .idle := by
  obtain ⟨before, after, hbefore⟩ := List.append_of_mem (h.mem hexec)
  have hnodup := List.Nodup.of_map _ h.nodup
  rw [hbefore] at hnodup
  have hnot : req ∉ before ++ after := (List.nodup_cons.mp (List.nodup_middle.mp hnodup)).1
  have hnot' : req ∉ before := fun hin => hnot (List.mem_append_left _ hin)
  have herase : s.requestList.erase req = before ++ after := by
    rw [hbefore, List.erase_append_right _ hnot', List.erase_cons_head]
  have hlength : (before ++ after).length + 1 = s.requestList.length := by
    rw [hbefore, List.length_append, List.length_append, List.length_cons, Nat.add_assoc]
  -- all other tasks wait
  have hwaiting : ∀ {i r g}, s.phase i = .call r g → i ≠ task → g = .waiting := by
    intro i r g hi hne
    by_contra hg
    exact hne (h.turn_unique hi hg hexec (by simp))
  obtain ⟨u, hu⟩ : ∃ u : Disk, u = { s with
    direct := turned s.direct before after, requestList := before ++ after } := ⟨_, rfl⟩
  have huphase : u.phase = s.phase := by rw [hu]
  have hulist : u.requestList = before ++ after := by rw [hu]
  have hudirect : u.direct = turned s.direct before after := by rw [hu]
  have huserved : u.served = s.served := by rw [hu]
  have humade : u.made = s.made := by rw [hu]
  cases hnext : neighbour before after (turned s.direct before after) with
  | none =>
    have hnil := neighbour_turned_eq_none hnext
    have hrun : s.requestDone task req = some (u.goto task .idle) := by
      simp only [Disk.requestDone, requestNextreq_eq hbefore hnot', hnext, herase, hu]
      rfl
    have hcall : ∀ {i r g}, (u.goto task .idle).phase i = .call r g → i ≠ task ∧ s.phase i = .call r .waiting ∧
        (g = .waiting ∨ (g = .ready ∧ (none : Option Request) = some r)) := by
      intro i r g hi
      rcases eq_or_ne i task with rfl | hne
      · rw [goto_phase_self] at hi
        exact absurd hi (by simp)
      · rw [goto_phase_of_ne hne, huphase] at hi
        obtain rfl := hwaiting hi hne
        exact ⟨hne, hi, Or.inl rfl⟩
    refine ⟨_, hrun, h.leave hexec hbefore hulist humade huserved hcall (fun hi hne => ?_)
      fun hne => absurd (hulist.trans hnil) hne, ⟨huserved, req, before, after, hexec, hbefore, hulist, ?_,
      fun task' req' => ?_⟩, ?_, goto_phase_self⟩
    · exact ⟨_, (goto_phase_of_ne hne).trans (huphase ▸ hi)⟩
    · exact (congrArg (· = Direct.up) hudirect).to_iff.trans turned_eq_up
    · refine iff_of_false (fun hi => ?_) fun hready => ?_
      · rcases (hcall hi).2.2 with hg | ⟨-, hg⟩
        · exact absurd hg (by simp)
        · exact absurd hg (by simp)
      · have hsome := neighbour_eq_some.mpr (hudirect ▸ hready.2)
        exact absurd (hnext.symm.trans hsome) (by simp)
    · rw [← hlength, ← hulist]
      rfl
  | some next =>
    have hin : next ∈ before ++ after := mem_of_neighbour hnext
    have hmem : next ∈ s.requestList := herase ▸ hin |> List.mem_of_mem_erase
    obtain ⟨owner, g, howner⟩ := h.mem_iff.mp hmem
    have hne : owner ≠ task := by
      rintro rfl
      obtain ⟨rfl, -⟩ := DiskPhase.call.inj (hexec.symm.trans howner)
      exact hnot hin
    obtain rfl := hwaiting howner hne
    have htask : next.task = some owner := h.task howner (by simp)
    have hunblock : u.unblock owner = some (u.goto owner (.call next .ready)) := by
      rw [unblock.eq_def, huphase, howner]
    have hrun : s.requestDone task req = some ((u.goto owner (.call next .ready)).goto task .idle) := by
      simp only [Disk.requestDone, requestNextreq_eq hbefore hnot', hnext, herase, htask, ← hu,
        Option.bind_eq_bind, Option.bind_some, hunblock]
      rfl
    obtain ⟨t, ht⟩ : ∃ t, t = (u.goto owner (.call next .ready)).goto task .idle := ⟨_, rfl⟩
    have htask' : t.phase task = .idle := by rw [ht]; exact goto_phase_self
    have htowner : t.phase owner = .call next .ready := by
      rw [ht, goto_phase_of_ne hne]
      exact goto_phase_self
    have htother : ∀ {i}, i ≠ task → i ≠ owner → t.phase i = s.phase i := by
      intro i hi hi'
      rw [ht, goto_phase_of_ne hi, goto_phase_of_ne hi', huphase]
    have htlist : t.requestList = before ++ after := by rw [ht, ← hulist]; rfl
    have htdirect : t.direct = turned s.direct before after := by rw [ht, ← hudirect]; rfl
    have htserved : t.served = s.served := by rw [ht, ← huserved]; rfl
    have htmade : t.made = s.made := by rw [ht, ← humade]; rfl
    have hcall : ∀ {i r g}, t.phase i = .call r g → i ≠ task ∧ s.phase i = .call r .waiting ∧
        (g = .waiting ∨ (g = .ready ∧ some next = some r)) := by
      intro i r g hi
      rcases eq_or_ne i task with rfl | hitask
      · exact absurd (htask'.symm.trans hi) (by simp)
      · rcases eq_or_ne i owner with rfl | hiowner
        · obtain ⟨rfl, rfl⟩ := DiskPhase.call.inj (htowner.symm.trans hi)
          exact ⟨hitask, howner, Or.inr ⟨rfl, rfl⟩⟩
        · rw [htother hitask hiowner] at hi
          obtain rfl := hwaiting hi hitask
          exact ⟨hitask, hi, Or.inl rfl⟩
    refine ⟨t, ht ▸ hrun, h.leave hexec hbefore htlist htmade htserved hcall (fun {i r g} hi hitask => ?_)
      fun _ => ⟨owner, next, htowner⟩, ⟨htserved, req, before, after, hexec, hbefore, htlist, ?_,
      fun task' req' => ?_⟩, ?_, htask'⟩
    · rcases eq_or_ne i owner with rfl | hiowner
      · obtain ⟨rfl, -⟩ := DiskPhase.call.inj (howner.symm.trans hi)
        exact ⟨.ready, htowner⟩
      · exact ⟨g, (htother hitask hiowner).trans hi⟩
    · exact (congrArg (· = Direct.up) htdirect).to_iff.trans turned_eq_up
    · rw [htdirect, ← neighbour_eq_some, hnext]
      constructor
      · intro hi
        obtain ⟨-, hs, hg⟩ := hcall hi
        exact ⟨h.task hs (by simp), (hg.resolve_left (by simp)).2⟩
      · rintro ⟨htask'', hsome⟩
        obtain rfl := Option.some.inj hsome
        obtain rfl := Option.some.inj (htask.symm.trans htask'')
        exact htowner
    · rw [htlist, hlength]

/-- **`device_request`** up to `task_block`, or into `do_request`. -/
theorem Sound.deviceRequest (h : s.Sound) {dev buf count idx : ℕ} {flags : ℤ} {type : RequestType}
    (hlegal : s.Legal (.issue task dev buf count idx flags type)) :
    ∃ t, s.deviceRequest task dev buf count idx flags type = some t ∧ t.Sound ∧
      Turn s t (.issue task dev buf count idx flags type) := by
  obtain ⟨hidle, ⟨hdev, htype⟩, ⟨hdisk, htype'⟩, hroute, hsmall⟩ := hlegal
  obtain ⟨u, hu⟩ : ∃ u : Disk, u = { s with
    devices := fun d => if d = dev then { s.devices dev with type := .block } else s.devices d } := ⟨_, rfl⟩
  have hget : s.deviceGet dev = some (s.devices dev) := by
    rw [deviceGet, assert_pos hdev, assert_pos htype]
    rfl
  have hugettype : ∀ {d}, d < 64 → (s.devices d).type ≠ .null → u.deviceGet d = some (u.devices d) := by
    intro d hd hd'
    have hne : (u.devices d).type ≠ .null := by
      rw [hu]
      simp only
      split
      · simp
      · exact hd'
    rw [deviceGet, assert_pos hd, assert_pos hne]
    rfl
  have hstart : (u.devices dev).sectorStart = (s.devices dev).sectorStart := by
    rw [hu]
    simp
  obtain ⟨req, hreq⟩ : ∃ req : Request, req =
    { node := s.made, dev := s.dev, type := type, idx := u32 (idx + (s.devices dev).sectorStart),
      count := count % 256, flags := flags, buf := buf,
      task := if s.requestList.isEmpty then none else some task } := ⟨_, rfl⟩
  obtain ⟨v, hv⟩ : ∃ v : Disk, v = { u with
    requestList := listInsertSort (fun r => int32 r.idx) req s.requestList
    made := s.made + 1 } := ⟨_, rfl⟩
  have hrun : s.deviceRequest task dev buf count idx flags type =
      if s.requestList.isEmpty then some (v.doRequest task req)
      else some (v.goto task (.call req .waiting)) := by
    simp only [Disk.deviceRequest, hget, Option.bind_eq_bind, Option.bind_some, ← hu, hugettype hdev htype,
      hstart]
    rcases hroute with ⟨hzero, rfl⟩ | ⟨hparent, hne⟩
    · rw [if_neg (not_not.mpr hzero), hv, hreq, hu]
      rfl
    · have hto : (u.deviceGet (s.devices dev).parent).map (fun _ => (s.devices dev).parent) = some s.dev := by
        rw [hparent, hugettype hdisk htype']
        rfl
      rw [if_pos (by rw [hparent]; exact hne), hto, hv, hreq, hu]
      rfl
  have hvphase : v.phase = s.phase := by rw [hv, hu]
  have hvserved : v.served = s.served := by rw [hv, hu]
  have hvdirect : v.direct = s.direct := by rw [hv, hu]
  have hvlist : v.requestList = listInsertSort (fun r => int32 r.idx) req s.requestList := by rw [hv]
  have hvmade : v.made = s.made + 1 := by rw [hv]
  have hsmall' : req.idx < 2147483648 := by rw [hreq]; exact hsmall
  -- the request has no task that is ready
  have hready : ∀ {t : Disk} {stage}, t.phase = (v.goto task (.call req stage)).phase → stage ≠ .ready →
      ∀ i r, t.phase i = .call r .ready ↔ s.phase i = .call r .ready := by
    intro t stage ht hstage i r
    rw [ht]
    rcases eq_or_ne i task with rfl | hi
    · rw [goto_phase_self, hidle]
      refine iff_of_false (fun hc => hstage ?_) (by simp)
      exact (DiskPhase.call.inj hc).2
    · rw [goto_phase_of_ne hi, hvphase]
  by_cases hempty : s.requestList = []
  · refine ⟨v.doRequest task req, ?_, h.insert hidle (by rw [hreq]) hsmall' hvlist
      (fun i => hvphase ▸ rfl) hvmade (Or.inl ⟨rfl, hempty, ?_⟩), hvdirect, hready rfl (by simp),
      fun hne => absurd hempty hne⟩
    · rw [hrun, if_pos (by rw [hempty]; rfl)]
    · rw [← hvserved]
      rfl
  · have hnot : ¬s.requestList.isEmpty = true := fun hc => hempty (List.isEmpty_iff.mp hc)
    refine ⟨v.goto task (.call req .waiting), ?_, h.insert hidle (by rw [hreq]) hsmall' hvlist
      (fun i => hvphase ▸ rfl) hvmade (Or.inr ⟨rfl, hempty, hvserved, ?_⟩), hvdirect, hready rfl (by simp),
      fun _ => hvserved⟩
    · rw [hrun, if_neg hnot]
    · rw [hreq]
      exact if_neg hnot

/-- **A step.** -/
theorem Sound.step (h : s.Sound) (hlegal : s.Legal op) :
    ∃ t, s.step op = some ((), t) ∧ t.Sound ∧ Turn s t op := by
  cases op with
  | issue task dev buf count idx flags type =>
    obtain ⟨t, hrun, ht, hturn⟩ := h.deviceRequest hlegal
    exact ⟨t, by rw [Disk.step, hrun]; rfl, ht, hturn⟩
  | resume task =>
    obtain ⟨req, hready⟩ := hlegal
    exact ⟨_, by rw [Disk.step, hready], h.resume hready, rfl, req, hready, rfl⟩
  | finish task =>
    obtain ⟨req, hexec⟩ := hlegal
    obtain ⟨t, hrun, ht, hturn, -⟩ := h.requestDone hexec
    exact ⟨t, by rw [Disk.step, hexec]; simp only [hrun]; rfl, ht, hturn⟩

/-! ### The list is worked off -/

/-- A task executes a request. -/
def Busy (s : Disk) : Prop := ∃ task req, s.phase task = .call req .executing

/-- As long as the list is not empty, some task can go on. -/
theorem Sound.exists_own (h : s.Sound) (hne : s.requestList ≠ []) : ∃ op, Own op ∧ s.Legal op := by
  obtain ⟨task, req, stage, hcall, hstage⟩ := h.turn hne
  cases stage with
  | waiting => exact absurd rfl hstage
  | ready => exact ⟨.resume task, trivial, req, hcall⟩
  | executing => exact ⟨.finish task, trivial, req, hcall⟩

/-- Two steps of each request, one of which is behind the task that executes. -/
theorem Sound.length_le (ops : List DiskOp) : ∀ {s : Disk}, s.Sound → (∀ op ∈ ops, Own op) →
    Run.Along Disk.step Legal s ops →
    ops.length ≤ 2 * s.requestList.length ∧ (s.Busy → ops.length + 1 ≤ 2 * s.requestList.length) := by
  induction ops with
  | nil =>
    rintro s h - -
    refine ⟨Nat.zero_le _, ?_⟩
    rintro ⟨task, req, hexec⟩
    have hpos := List.length_pos_of_mem (h.mem hexec)
    rw [List.length_nil]
    omega
  | cons op ops ih =>
    rintro s h hown ⟨hlegal, hrest⟩
    obtain ⟨hop, hops⟩ := List.forall_mem_cons.mp hown
    rw [List.length_cons]
    cases op with
    | issue => exact absurd hop id
    | resume task =>
      obtain ⟨req, hready⟩ := hlegal
      have hstep : s.step (.resume task) = some ((), s.doRequest task req) := by rw [Disk.step, hready]
      obtain ⟨-, hle⟩ := ih (h.resume hready) hops (hrest _ _ hstep)
      have hle' : ops.length + 1 ≤ 2 * s.requestList.length := hle ⟨task, req, goto_phase_self⟩
      refine ⟨hle', ?_⟩
      rintro ⟨task', req', hexec⟩
      obtain rfl := h.turn_unique hexec (by simp) hready (by simp)
      exact absurd (hexec.symm.trans hready) (by simp)
    | finish task =>
      obtain ⟨req, hexec⟩ := hlegal
      obtain ⟨t, hrun, ht, -, hlength, -⟩ := h.requestDone hexec
      have hstep : s.step (.finish task) = some ((), t) := by
        rw [Disk.step, hexec]
        simp only [hrun]
        rfl
      obtain ⟨hle, -⟩ := ih ht hops (hrest _ _ hstep)
      constructor
      · omega
      · intro _
        omega

theorem Sound.drains (h : s.Sound) : s.Drains := by
  intro ops t hown hlegal hexec
  refine ⟨(h.length_le ops hown hlegal).1, ?_⟩
  have ht : t.Sound := by
    refine Run.inv_of_exec Sound (fun s op r u hs hop hstep => ?_) ops s t h hlegal hexec
    obtain ⟨v, hstep', hv, -⟩ := hs.step hop
    obtain ⟨-, rfl⟩ := Prod.mk.inj (Option.some.inj (hstep'.symm.trans hstep))
    exact hv
  by_cases hnil : t.requestList = []
  · exact Or.inl hnil
  · exact Or.inr (ht.exists_own hnil)

end Disk

/-- **The elevator.** In a run of any tasks no step fails; at any time one request at most is executed,
each is executed once, one task has the turn when the list is not empty, and the list is
worked off as soon as no new requests come; and the turn goes from a request to its neighbour
in the direction of the disk. -/
theorem diskRun_elevator {s : Disk} (h : s.Start) {ops : List DiskOp}
    (hlegal : Run.Along Disk.step Disk.Legal s ops) :
    Run.Meets Disk.step (fun s op _ t => t.Elevator ∧ t.Drains ∧ Disk.Turn s t op) s ops := by
  refine Run.meets_of_inv Disk.Sound (fun s op hs hop => ?_) ops s h.sound hlegal
  obtain ⟨t, hstep, ht, hturn⟩ := hs.step hop
  exact ⟨(), t, hstep, ⟨ht.elevator, ht.drains, hturn⟩, ht⟩

instance Disk.decidableLegal (s : Disk) (op : DiskOp) : Decidable (s.Legal op) :=
  match op with
  | .issue task dev _ _ idx _ _ => inferInstanceAs (Decidable (s.phase task = .idle ∧
      (dev < 64 ∧ (s.devices dev).type ≠ .null) ∧ (s.dev < 64 ∧ (s.devices s.dev).type ≠ .null) ∧
      (((s.devices dev).parent = 0 ∧ dev = s.dev) ∨ ((s.devices dev).parent = s.dev ∧ s.dev ≠ 0)) ∧
      u32 (idx + (s.devices dev).sectorStart) < 2147483648))
  | .resume task =>
      match h : s.phase task with
      | .call req .ready => isTrue ⟨req, h⟩
      | .call _ .waiting => isFalse (by simp [Disk.Legal, h])
      | .call _ .executing => isFalse (by simp [Disk.Legal, h])
      | .idle => isFalse (by simp [Disk.Legal, h])
  | .finish task =>
      match h : s.phase task with
      | .call req .executing => isTrue ⟨req, h⟩
      | .call _ .waiting => isFalse (by simp [Disk.Legal, h])
      | .call _ .ready => isFalse (by simp [Disk.Legal, h])
      | .idle => isFalse (by simp [Disk.Legal, h])

/-- Disk 1, with partition 2 at sector 2048. -/
def quietDisk : Disk where
  devices := fun d => if d = 2 then { type := .block, parent := 1, sectorStart := 2048 }
    else { type := .block, parent := 0, sectorStart := 0 }
  dev := 1
  requestList := []
  direct := .up
  phase := fun _ => .idle
  made := 0
  served := []

/-- Three requests, one of them to the partition. -/
theorem diskRun_elevator_three :
    Run.Meets Disk.step (fun s op _ t => t.Elevator ∧ t.Drains ∧ Disk.Turn s t op) quietDisk
      [.issue 1 1 0 2 100 0 .read, .issue 2 2 0 2 8 0 .write, .issue 3 1 0 2 4 0 .read, .finish 1,
        .resume 2, .finish 2, .resume 3, .finish 3] :=
  diskRun_elevator ⟨rfl, fun _ => rfl, rfl, rfl⟩ (by decide)

end Onixs
