import Onixs.Kernel.BufferWakeup

/-!
# Block updates

When a buffer is not in use, its data is on the device: then nothing is lost when the
buffer is given to another block. `bwrite` clears `dirty` after the device has the data, and
a task that holds the same buffer can store into it while the device is busy; what it stores
behind the transfer is lost (`Onixs.cacheTasks_lost`). Without such stores nothing is
(`Onixs.cacheTasks_clean`). `Onixs.CacheTasks.Fresh` is the invariant: it says of each
`bwrite` and `bread` in progress which sectors are equal already.
-/

namespace Onixs

namespace CacheTasks

variable {D : Type} {s t : CacheTasks D} {task bf dev block : ℕ}

/-- A sector of a buffer is equal to the device's. -/
def Synced (s : CacheTasks D) (bf i : ℕ) : Prop := (s.cache.buffers bf).data i =
  s.cache.disk (s.cache.buffers bf).dev (Cache.sectorOf (s.cache.buffers bf).block i)

/-- **Clean buffers are equal to their blocks**, and so are the sectors that are done. -/
structure Fresh (s : CacheTasks D) : Prop where
  /-- Blocks have sectors of their own. -/
  low : ∀ {bf}, bf < s.cache.made → (s.cache.buffers bf).block < 2147483648
  /-- A clean buffer is equal to its block. -/
  clean : ∀ {bf}, bf < s.cache.made → (s.cache.buffers bf).valid = true →
    (s.cache.buffers bf).dirty = false → ∀ i < 2, s.Synced bf i
  /-- The sectors a `bwrite` has written. -/
  writing : ∀ {task bf k release}, s.phase task = .write bf k release → ∀ i < 2, i < k → s.Synced bf i
  /-- The sectors a `bread` has read. -/
  reading : ∀ {task bf k}, s.phase task = .read bf k → ∀ i < 2, i < k → s.Synced bf i

theorem Start.fresh (h : s.Start) : s.Fresh := by
  have hnone : ∀ {bf}, ¬bf < s.cache.made := fun {bf} hlt => by
    rw [h.made] at hlt
    exact Nat.not_lt_zero _ hlt
  refine ⟨fun {bf} hlt => absurd hlt hnone, fun {bf} hlt => absurd hlt hnone,
    fun {task bf k release} hphase => ?_, fun {task bf k} hphase => ?_⟩
  · exact absurd ((h.idle task).symm.trans hphase) (by simp)
  · exact absurd ((h.idle task).symm.trans hphase) (by simp)

/-- A buffer that is not in use is equal to its block. -/
theorem Fresh.synced (hf : s.Fresh) (ho : s.Ordered) (hlt : bf < s.cache.made)
    (hcount : (s.cache.buffers bf).count = 0) : ∀ i < 2, s.Synced bf i := by
  have hrefs : s.refs bf = 0 := by
    have hle := ho.bound bf
    rw [ho.pool.count hlt, u32_of_lt (by omega)] at hcount
    exact hcount
  obtain ⟨hdirty, hvalid, -⟩ := ho.pool.clean hlt hrefs
  exact hf.clean hlt hvalid hdirty

/-! ### Steps that move no data -/

section Steps

variable (hf : s.Fresh)

include hf

/-- A step that changes counters and locks only. -/
theorem Fresh.quiet (hmade : t.cache.made = s.cache.made) (hdisk : t.cache.disk = s.cache.disk)
    (hbuf : ∀ b, ∃ c l, t.cache.buffers b = { s.cache.buffers b with count := c, lock := l })
    (hphases : t.phase = s.phase) : t.Fresh := by
  have hsync : ∀ {b i}, s.Synced b i → t.Synced b i := fun {b i} hb => by
    obtain ⟨c, l, hc⟩ := hbuf b
    rw [Synced, hc, hdisk]
    exact hb
  refine ⟨fun {b} hb => ?_, fun {b} hb hvalid hdirty i hi => ?_, fun {u b k release} hphase i hi hik => ?_,
    fun {u b k} hphase i hi hik => ?_⟩
  · obtain ⟨c, l, hc⟩ := hbuf b
    rw [hc]
    exact hf.low (hmade ▸ hb)
  · obtain ⟨c, l, hc⟩ := hbuf b
    rw [hc] at hvalid hdirty
    exact hsync (hf.clean (hmade ▸ hb) hvalid hdirty i hi)
  · rw [hphases] at hphase
    exact hsync (hf.writing hphase i hi hik)
  · rw [hphases] at hphase
    exact hsync (hf.reading hphase i hi hik)

/-- A task gets to another place, whose sectors are done. -/
theorem Fresh.goto {phase : Phase}
    (hwrite : ∀ b k release, phase = .write b k release → ∀ i < 2, i < k → s.Synced b i)
    (hread : ∀ b k, phase = .read b k → ∀ i < 2, i < k → s.Synced b i) : (s.goto task phase).Fresh := by
  refine ⟨hf.low, hf.clean, fun {u b k release} hphase => ?_, fun {u b k} hphase => ?_⟩
  · rcases eq_or_ne u task with rfl | hne
    · rw [goto_phase_self] at hphase
      exact hwrite b k release hphase
    · rw [goto_phase_of_ne _ hne] at hphase
      exact hf.writing hphase
  · rcases eq_or_ne u task with rfl | hne
    · rw [goto_phase_self] at hphase
      exact hread b k hphase
    · rw [goto_phase_of_ne _ hne] at hphase
      exact hf.reading hphase

/-- A task returns. -/
theorem Fresh.gotoIdle : (s.goto task .idle).Fresh :=
  hf.goto (fun _ _ _ hc => by cases hc) fun _ _ hc => by cases hc

/-- A `bwrite` begins. -/
theorem Fresh.startWrite (release : Bool) : (s.goto task (.write bf 0 release)).Fresh := by
  refine hf.goto (fun b k r hc i _ hik => ?_) fun _ _ hc => by cases hc
  obtain ⟨-, rfl, -⟩ := Phase.write.inj hc
  exact absurd hik (Nat.not_lt_zero _)

/-- A lock is taken or given back. -/
theorem Fresh.setLock (holder : Option ℕ) :
    ({ s with cache := s.cache.setLock bf holder } : CacheTasks D).Fresh := by
  refine hf.quiet rfl rfl (fun b => ?_) rfl
  rcases eq_or_ne b bf with rfl | hne
  · exact ⟨_, _, Cache.setBuffer_self _ _ _⟩
  · exact ⟨_, _, Cache.setBuffer_of_ne _ _ _ hne⟩

/-- `bread` behind `getblk`. -/
theorem Fresh.acquire : (s.acquire task bf).Fresh := by
  rw [CacheTasks.acquire]
  split
  · exact hf.gotoIdle
  split
  · refine (hf.setLock (some task)).goto (fun _ _ _ hc => by cases hc) fun b k hc i _ hik => ?_
    obtain ⟨-, rfl⟩ := Phase.read.inj hc
    exact absurd hik (Nat.not_lt_zero _)
  · exact hf.goto (fun _ _ _ hc => by cases hc) fun _ _ hc => by cases hc

/-- A task waits. -/
theorem Fresh.wait : (s.enter task dev block none).Fresh := by
  have hlist : ({ s with cache := { s.cache with waitList := task :: s.cache.waitList } } :
      CacheTasks D).Fresh := hf.quiet rfl rfl (fun b => ⟨_, _, rfl⟩) rfl
  exact hlist.goto (fun _ _ _ hc => by cases hc) fun _ _ hc => by cases hc

/-- `getblk` has found a buffer. -/
theorem Fresh.got (ho : s.Ordered) {u : Cache D} (hblock : block < 2147483648)
    (hgot : s.cache.Got s.refs dev block bf u) :
    ({ s with cache := u, held := (task, bf) :: s.held } : CacheTasks D).Fresh := by
  rcases hgot.origin with ⟨hlt, hself⟩ | ⟨hzero, hvalid, -, -, -⟩
  · -- a hit changes the counter only
    have hmade : ∀ {b}, b < u.made ↔ b < s.cache.made := by
      intro b
      rcases eq_or_ne b bf with rfl | hne
      · exact iff_of_true hgot.lt hlt
      · exact hgot.same.made b hne
    have hsame : u.made = s.cache.made := by
      refine le_antisymm (Nat.le_of_not_lt fun hc => ?_) (Nat.le_of_not_lt fun hc => ?_)
      · exact lt_irrefl _ (hmade.mp hc)
      · exact lt_irrefl _ (hmade.mpr hc)
    refine hf.quiet hsame hgot.same.disk (fun b => ?_) rfl
    rcases eq_or_ne b bf with rfl | hne
    · exact ⟨_, _, hself⟩
    · exact ⟨_, _, hgot.same.buffers b hne⟩
  · -- nobody holds the buffer, and it has not been read
    have hsync : ∀ {b i}, b ≠ bf → s.Synced b i →
        ({ s with cache := u, held := (task, bf) :: s.held } : CacheTasks D).Synced b i :=
      fun {b i} hne hb => by
        rw [Synced]
        simp only [hgot.same.buffers b hne, hgot.same.disk]
        exact hb
    have hne : ∀ {v b}, (v, b) ∈ s.held → b ≠ bf := by
      rintro v b hmem rfl
      exact (refs_pos hmem).ne' hzero
    refine ⟨fun {b} hb => ?_, fun {b} hb hvalid' hdirty i hi => ?_, fun {v b k release} hphase i hi hik => ?_,
      fun {v b k} hphase i hi hik => ?_⟩
    · rcases eq_or_ne b bf with rfl | hb'
      · simp only [hgot.key.2]
        exact hblock
      · simp only [hgot.same.buffers b hb']
        exact hf.low ((hgot.same.made b hb').mp hb)
    · rcases eq_or_ne b bf with rfl | hb'
      · exact absurd (hvalid.symm.trans hvalid') (by simp)
      · simp only [hgot.same.buffers b hb'] at hvalid' hdirty
        exact hsync hb' (hf.clean ((hgot.same.made b hb').mp hb) hvalid' hdirty i hi)
    · exact hsync (hne (ho.writing hphase).1) (hf.writing hphase i hi hik)
    · exact hsync (hne (ho.reading hphase).1) (hf.reading hphase i hi hik)

/-! ### Stores and transfers -/

/-- A store into a sector that no `bwrite` in progress has written. -/
theorem Fresh.store (ho : s.Ordered) {i : ℕ} {d : D} (hidle : s.phase task = .idle)
    (hmem : (task, bf) ∈ s.held) (hquiet : ∀ p ∈ s.held, written bf (s.phase p.1) ≤ i) :
    ({ s with cache := s.cache.store bf i d } : CacheTasks D).Fresh := by
  have hself : (s.cache.store bf i d).buffers bf = { s.cache.buffers bf with
    data := Function.update (s.cache.buffers bf).data i d, dirty := true } := Cache.setBuffer_self _ _ _
  have hother : ∀ b, b ≠ bf → (s.cache.store bf i d).buffers b = s.cache.buffers b :=
    fun b hb => Cache.setBuffer_of_ne _ _ _ hb
  have hsync : ∀ {b j}, b ≠ bf ∨ j ≠ i → s.Synced b j →
      ({ s with cache := s.cache.store bf i d } : CacheTasks D).Synced b j := by
    intro b j hne hb
    rw [Synced]
    rcases eq_or_ne b bf with rfl | hbne
    · simp only [hself, Function.update_of_ne (hne.resolve_left (not_not.mpr rfl))]
      exact hb
    · simp only [hother b hbne]
      exact hb
  refine ⟨fun {b} hb => ?_, fun {b} hb hvalid hdirty j hj => ?_, fun {u b k release} hphase j hj hjk => ?_,
    fun {u b k} hphase j hj hjk => ?_⟩
  · rcases eq_or_ne b bf with rfl | hne
    · simp only [hself]
      exact hf.low hb
    · simp only [hother b hne]
      exact hf.low hb
  · rcases eq_or_ne b bf with rfl | hne
    · simp only [hself] at hdirty
      exact absurd hdirty (by simp)
    · simp only [hother b hne] at hvalid hdirty
      exact hsync (Or.inl hne) (hf.clean hb hvalid hdirty j hj)
  · refine hsync ?_ (hf.writing hphase j hj hjk)
    rcases eq_or_ne b bf with rfl | hne
    · have hle := hquiet _ (ho.writing hphase).1
      rw [hphase, written, if_pos rfl] at hle
      exact Or.inr (by omega)
    · exact Or.inl hne
  · -- who reads a buffer is the only one to use it
    refine hsync (Or.inl ?_) (hf.reading hphase j hj hjk)
    rintro rfl
    have hvalid := ho.valid_of_idle hidle hmem
    exact absurd (hvalid.symm.trans (ho.reading hphase).2.2.1) (by simp)

/-- A sector is written. -/
theorem Fresh.writeSector (ho : s.Ordered) {k : ℕ} {release : Bool}
    (hphase : s.phase task = .write bf k release) (hk : k < 2) :
    ({ s with cache := s.cache.writeSector bf k }.goto task (.write bf (k + 1) release)).Fresh := by
  obtain ⟨hmem, -, -⟩ := ho.writing hphase
  have hlt := ho.lt_of_held hmem
  obtain ⟨t, ht⟩ : ∃ t : CacheTasks D,
      t = { s with cache := s.cache.writeSector bf k }.goto task (.write bf (k + 1) release) := ⟨_, rfl⟩
  have hbuf : t.cache.buffers = s.cache.buffers := by rw [ht]; rfl
  have hmade : t.cache.made = s.cache.made := by rw [ht]; rfl
  have hdisk : ∀ dev x, t.cache.disk dev x = if dev = (s.cache.buffers bf).dev ∧
      x = Cache.sectorOf (s.cache.buffers bf).block k then (s.cache.buffers bf).data k
      else s.cache.disk dev x := fun dev x => by
    rw [ht]
    exact Cache.writeSector_disk _ _ _ _ _
  have hdone : t.Synced bf k := by
    rw [Synced, hbuf, hdisk, if_pos ⟨rfl, rfl⟩]
  have hsync : ∀ {b i}, b < s.cache.made → i < 2 → s.Synced b i → t.Synced b i := by
    intro b i hb hi hold
    by_cases hsame : b = bf ∧ i = k
    · obtain ⟨rfl, rfl⟩ := hsame
      exact hdone
    rw [Synced, hbuf, hdisk, if_neg]
    · exact hold
    · rintro ⟨hdev, hsec⟩
      obtain ⟨hblock, rfl⟩ := Cache.sectorOf_inj (hf.low hb) (hf.low hlt) hi hk hsec
      exact hsame ⟨ho.pool.uniq hb hlt hdev hblock, rfl⟩
  have hself : t.phase task = .write bf (k + 1) release := by
    rw [ht]
    exact goto_phase_self _
  have hother : ∀ {u}, u ≠ task → t.phase u = s.phase u := fun {u} hu => by
    rw [ht]
    exact goto_phase_of_ne _ hu
  rw [← ht]
  refine ⟨fun {b} hb => ?_, fun {b} hb hvalid hdirty i hi => ?_, fun {u b n release'} hu i hi hin => ?_,
    fun {u b n} hu i hi hin => ?_⟩
  · rw [hbuf]
    exact hf.low (hmade ▸ hb)
  · rw [hbuf] at hvalid hdirty
    rw [hmade] at hb
    exact hsync hb hi (hf.clean hb hvalid hdirty i hi)
  · rcases eq_or_ne u task with rfl | hne
    · obtain ⟨rfl, rfl, -⟩ := Phase.write.inj (hself.symm.trans hu)
      rcases Nat.lt_succ_iff_lt_or_eq.mp hin with hlt' | rfl
      · exact hsync hlt hi (hf.writing hphase i hi hlt')
      · exact hdone
    · rw [hother hne] at hu
      exact hsync (ho.lt_of_held (ho.writing hu).1) hi (hf.writing hu i hi hin)
  · rcases eq_or_ne u task with rfl | hne
    · exact absurd (hself.symm.trans hu) (by simp)
    · rw [hother hne] at hu
      exact hsync (ho.lt_of_held (ho.reading hu).1) hi (hf.reading hu i hi hin)

/-- A sector is read. -/
theorem Fresh.readSector {k : ℕ} (hphase : s.phase task = .read bf k) :
    ({ s with cache := s.cache.readSector bf k } : CacheTasks D).Fresh ∧
      ∀ i < 2, i < k + 1 → ({ s with cache := s.cache.readSector bf k } : CacheTasks D).Synced bf i := by
  have hself : (s.cache.readSector bf k).buffers bf = { s.cache.buffers bf with
      data := Function.update (s.cache.buffers bf).data k
        (s.cache.disk (s.cache.buffers bf).dev (Cache.sectorOf (s.cache.buffers bf).block k)) } :=
    Cache.setBuffer_self _ _ _
  have hother : ∀ b, b ≠ bf → (s.cache.readSector bf k).buffers b = s.cache.buffers b :=
    fun b hb => Cache.setBuffer_of_ne _ _ _ hb
  have hdone : ({ s with cache := s.cache.readSector bf k } : CacheTasks D).Synced bf k := by
    rw [Synced]
    simp only [hself, Function.update_self, Cache.readSector_disk]
  have hsync : ∀ {b i}, s.Synced b i →
      ({ s with cache := s.cache.readSector bf k } : CacheTasks D).Synced b i := by
    intro b i hb
    by_cases hsame : b = bf ∧ i = k
    · obtain ⟨rfl, rfl⟩ := hsame
      exact hdone
    rw [Synced]
    rcases eq_or_ne b bf with rfl | hne
    · have hik : i ≠ k := fun heq => hsame ⟨rfl, heq⟩
      simp only [hself, Function.update_of_ne hik, Cache.readSector_disk]
      exact hb
    · simp only [hother b hne, Cache.readSector_disk]
      exact hb
  refine ⟨⟨fun {b} hb => ?_, fun {b} hb hvalid hdirty i hi => ?_,
    fun {u b n release} hu i hi hin => hsync (hf.writing hu i hi hin),
    fun {u b n} hu i hi hin => hsync (hf.reading hu i hi hin)⟩, fun i hi hik => ?_⟩
  · rcases eq_or_ne b bf with rfl | hne
    · simp only [hself]
      exact hf.low hb
    · simp only [hother b hne]
      exact hf.low hb
  · rcases eq_or_ne b bf with rfl | hne
    · simp only [hself] at hvalid hdirty
      exact hsync (hf.clean hb hvalid hdirty i hi)
    · simp only [hother b hne] at hvalid hdirty
      exact hsync (hf.clean hb hvalid hdirty i hi)
  · rcases Nat.lt_succ_iff_lt_or_eq.mp hik with hlt | rfl
    · exact hsync (hf.reading hphase i hi hlt)
    · exact hdone

/-- A request is done, when all sectors are. -/
theorem Fresh.requestDone (hall : ∀ i < 2, s.Synced bf i) :
    ({ s with cache := s.cache.requestDone bf } : CacheTasks D).Fresh := by
  have hself : (s.cache.requestDone bf).buffers bf =
    { s.cache.buffers bf with dirty := false, valid := true } := Cache.setBuffer_self _ _ _
  have hother : ∀ b, b ≠ bf → (s.cache.requestDone bf).buffers b = s.cache.buffers b :=
    fun b hb => Cache.setBuffer_of_ne _ _ _ hb
  have hsync : ∀ {b i}, s.Synced b i →
      ({ s with cache := s.cache.requestDone bf } : CacheTasks D).Synced b i := by
    intro b i hb
    rw [Synced]
    rcases eq_or_ne b bf with rfl | hne
    · simp only [hself, Cache.requestDone_disk]
      exact hb
    · simp only [hother b hne, Cache.requestDone_disk]
      exact hb
  refine ⟨fun {b} hb => ?_, fun {b} hb hvalid hdirty i hi => ?_,
    fun {u b n release} hu i hi hin => hsync (hf.writing hu i hi hin),
    fun {u b n} hu i hi hin => hsync (hf.reading hu i hi hin)⟩
  · rcases eq_or_ne b bf with rfl | hne
    · simp only [hself]
      exact hf.low hb
    · simp only [hother b hne]
      exact hf.low hb
  · rcases eq_or_ne b bf with rfl | hne
    · exact hsync (hall i hi)
    · simp only [hother b hne] at hvalid hdirty
      exact hsync (hf.clean hb hvalid hdirty i hi)

/-- `brelse` behind `bwrite`. -/
theorem Fresh.put (ho : s.Ordered) (hidle : s.phase task = .idle) (hmem : (task, bf) ∈ s.held)
    (hdirty : (s.cache.buffers bf).dirty = false) (hput : s.put task bf = some t) : t.Fresh := by
  by_cases hwait : s.refs bf = 1 → s.cache.waitList = []
  · obtain ⟨t', hput', -, hphases, -, hsame, hmade, c, hc⟩ := ho.put hidle hmem hdirty hwait
    obtain rfl : t = t' := Option.some.inj (hput.symm.trans hput')
    refine hf.quiet hmade hsame.disk (fun b => ?_) hphases
    rcases eq_or_ne b bf with rfl | hne
    · exact ⟨_, _, hc⟩
    · exact ⟨_, _, hsame.buffers b hne⟩
  · obtain ⟨hone, hlist⟩ := Classical.not_imp.mp hwait
    have hnone := ho.pool.putBuffer_waiting (ho.lt_of_held hmem) hone hlist ho.wait_nodup
    rw [CacheTasks.put, hnone] at hput
    exact absurd hput (by simp)

end Steps

/-- **Each step that disturbs no `bwrite` keeps clean buffers equal to their blocks.** -/
theorem Fresh.step {op : TaskOp D} {r : Unit} (hf : s.Fresh) (ho : s.Ordered) (hlegal : s.Legal op)
    (hquiet : s.Undisturbed op) (hstep : s.step op = some (r, t)) : t.Fresh := by
  cases op with
  | bread task dev block =>
    obtain ⟨o, hget, heq⟩ := Option.map_eq_some_iff.mp hstep
    obtain ⟨-, rfl⟩ := Prod.mk.inj heq
    rcases ho.pool.getblk dev block with ⟨hnone, -⟩ | ⟨bf, u, hsome, hgot⟩
    · obtain rfl := Option.some.inj (hget.symm.trans hnone)
      exact hf.wait
    · obtain rfl := Option.some.inj (hget.symm.trans hsome)
      exact (hf.got ho hquiet hgot).acquire
  | store task bf i d =>
    obtain ⟨-, rfl⟩ := Prod.mk.inj (Option.some.inj hstep)
    exact hf.store ho hlegal.1 hlegal.2.1 hquiet
  | bwrite task bf =>
    obtain ⟨-, rfl⟩ := Prod.mk.inj (Option.some.inj hstep)
    split
    · exact hf.startWrite false
    · exact hf
  | brelse task bf =>
    rw [CacheTasks.step] at hstep
    cases hdirty : (s.cache.buffers bf).dirty with
    | true =>
      rw [hdirty, if_pos rfl] at hstep
      obtain ⟨-, rfl⟩ := Prod.mk.inj (Option.some.inj hstep)
      exact hf.startWrite true
    | false =>
      rw [hdirty, if_neg (by simp)] at hstep
      obtain ⟨t', hput, heq⟩ := Option.map_eq_some_iff.mp hstep
      obtain ⟨-, rfl⟩ := Prod.mk.inj heq
      exact hf.put ho hlegal.1 hlegal.2 hdirty hput
  | resume task =>
    obtain ⟨t', hresume, heq⟩ := Option.map_eq_some_iff.mp hstep
    obtain ⟨-, rfl⟩ := Prod.mk.inj heq
    have hready : s.Ready task (s.phase task) := hlegal
    rw [CacheTasks.resume] at hresume
    cases hphase : s.phase task with
    | idle =>
      rw [hphase] at hready
      exact hready.elim
    | wait dev block => exact absurd hready (ho.not_waiting hphase)
    | lock bf =>
      rw [hphase] at hresume
      obtain rfl := Option.some.inj hresume
      exact hf.acquire
    | read bf k =>
      obtain ⟨hread, hsync⟩ := hf.readSector hphase
      rw [hphase] at hresume
      simp only at hresume
      split at hresume
      · obtain rfl := Option.some.inj hresume
        refine hread.goto (fun _ _ _ hc => by cases hc) fun b n hc i hi hin => ?_
        obtain ⟨rfl, rfl⟩ := Phase.read.inj hc
        exact hsync i hi hin
      · next hk =>
        obtain rfl := Option.some.inj hresume
        have hdone := hread.requestDone fun i hi => hsync i hi (by omega)
        exact (hdone.setLock none).gotoIdle
    | write bf k release =>
      rw [hphase] at hresume
      simp only at hresume
      split at hresume
      · next hk =>
        obtain rfl := Option.some.inj hresume
        exact hf.writeSector ho hphase hk
      · next hk =>
        have hall : ∀ i < 2, s.Synced bf i := fun i hi => hf.writing hphase i hi (by omega)
        have hdone : ({ s with cache := s.cache.requestDone bf }.goto task .idle).Fresh :=
          (hf.requestDone hall).gotoIdle
        cases release with
        | false =>
          obtain rfl := Option.some.inj hresume
          exact hdone
        | true =>
          rw [if_pos rfl, ← put_goto .idle] at hresume
          exact hdone.put (ho.endWrite hphase) (goto_phase_self _) (ho.writing hphase).1
            (congrArg Buffer.dirty (Cache.setBuffer_self _ _ _)) hresume

end CacheTasks

/-- **No update is lost** when no task stores into a sector that a `bwrite` in progress has written
already: then, in every state a run of any number of tasks reaches, a buffer with counter zero is
equal to its block. -/
theorem cacheTasks_clean {D : Type} {s t : CacheTasks D} (h : s.Start) {ops : List (TaskOp D)}
    (hlegal : Run.Along CacheTasks.step CacheTasks.Legal s ops)
    (hcounted : Run.Along CacheTasks.step CacheTasks.Counted s ops)
    (hquiet : Run.Along CacheTasks.step CacheTasks.Undisturbed s ops)
    (hrun : Run.exec CacheTasks.step s ops = some t) {bf : ℕ} (hlt : bf < t.cache.made)
    (hcount : (t.cache.buffers bf).count = 0) {i : ℕ} (hi : i < 2) :
    (t.cache.buffers bf).data i =
      t.cache.disk (t.cache.buffers bf).dev (Cache.sectorOf (t.cache.buffers bf).block i) := by
  have hinv := Run.inv_of_exec (fun s => s.Ordered ∧ s.Fresh)
    (fun s op r u hs hc hstep => ⟨hs.1.of_step hc.1.1 hc.1.2 hstep, hs.2.step hs.1 hc.1.1 hc.2 hstep⟩)
    ops s t ⟨h.ordered, h.fresh⟩ ((hlegal.and hcounted).and hquiet) hrun
  exact hinv.2.synced hinv.1 hlt hcount i hi

/-- Tasks 0 and 1 hold block 0. -/
def shareRun : List (TaskOp ℕ) := readRun ++ [.bread 1 0 0]

/-- Task 0 stores and gives the buffer up, then task 1 does. -/
def inTurnRun : List (TaskOp ℕ) :=
  shareRun ++ [.store 0 0 0 7, .brelse 0 0, .resume 0, .resume 0, .resume 0, .store 1 0 0 8, .brelse 1 0,
    .resume 1, .resume 1, .resume 1]

theorem cacheTasks_clean_inTurn : ∃ t, Run.exec CacheTasks.step bootTasks inTurnRun = some t ∧
    (t.cache.buffers 0).data 0 =
      t.cache.disk (t.cache.buffers 0).dev (Cache.sectorOf (t.cache.buffers 0).block 0) := by
  have hval : (Run.exec CacheTasks.step bootTasks inTurnRun).map (fun t =>
      (t.cache.made, (t.cache.buffers 0).count)) = some (1, 0) := by decide +kernel
  obtain ⟨t, ht, hobs⟩ := Option.map_eq_some_iff.mp hval
  obtain ⟨hmade, hcount⟩ := Prod.mk.inj hobs
  exact ⟨t, ht, cacheTasks_clean bootTasks_start (by decide +kernel) (by decide +kernel)
    (by decide +kernel) ht (hmade ▸ Nat.one_pos) hcount Nat.two_pos⟩

/-- Task 1 stores into the first sector when task 0 has written it. -/
def lostRun : List (TaskOp ℕ) :=
  shareRun ++ [.store 0 0 0 7, .brelse 0 0, .resume 0, .store 1 0 0 8, .resume 0, .resume 0, .brelse 1 0]

/-- **A lost update**: nobody uses the buffer, whose data is newer than its block. -/
theorem cacheTasks_lost : bootTasks.Start ∧ Run.Along CacheTasks.step CacheTasks.Legal bootTasks lostRun ∧
    ∃ t, Run.exec CacheTasks.step bootTasks lostRun = some t ∧ 0 < t.cache.made ∧
      (t.cache.buffers 0).count = 0 ∧ (t.cache.buffers 0).data 0 ≠
        t.cache.disk (t.cache.buffers 0).dev (Cache.sectorOf (t.cache.buffers 0).block 0) := by
  have hval : (Run.exec CacheTasks.step bootTasks lostRun).map (fun t =>
      (t.cache.made, (t.cache.buffers 0).count, (t.cache.buffers 0).data 0,
        t.cache.disk (t.cache.buffers 0).dev (Cache.sectorOf (t.cache.buffers 0).block 0)))
      = some (1, 0, 8, 7) := by decide +kernel
  obtain ⟨t, ht, hobs⟩ := Option.map_eq_some_iff.mp hval
  simp only [Prod.mk.injEq] at hobs
  obtain ⟨hmade, hcount, hdata, hdisk⟩ := hobs
  refine ⟨bootTasks_start, by decide +kernel, t, ht, hmade ▸ Nat.one_pos, hcount, ?_⟩
  rw [hdata, hdisk]
  decide

end Onixs
