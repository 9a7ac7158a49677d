import Onixs.Fs.InodeTasks

/-!
# Steps of the inode table

What each step of `iget` and `iput` does to the invariant `Onixs.InodeTasks.Sound`: a
reference more, an entry that is taken, the end of a `bread`, a reference less, and an
entry that is freed. The steps move the counters, the list of the super block and the
references to the buffers together.
-/

namespace Onixs

namespace InodeTasks

variable {D : Type} {s t : InodeTasks D} {pins base : ℕ → ℕ} {task i dev nr : ℕ}

section Steps

@[simp] theorem setSlot_self (slot : InodeSlot) : (s.setSlot i slot).slots i = slot :=
  Function.update_self _ _ _

theorem setSlot_of_ne {j : ℕ} (slot : InodeSlot) (hne : j ≠ i) : (s.setSlot i slot).slots j = s.slots j :=
  Function.update_of_ne hne _ _

theorem goto_self (phase : InodePhase) : (s.goto task phase).phase task = phase :=
  Function.update_self _ _ _

theorem goto_of_ne {u : ℕ} (phase : InodePhase) (hne : u ≠ task) :
    (s.goto task phase).phase u = s.phase u :=
  Function.update_of_ne hne _ _

/-- Which entries are being read depends on the references and the places of the tasks. -/
theorem Loading.congr (hheld : t.held = s.held) (hphase : ∀ r ∈ s.held, ∀ j, t.phase r.task = .loading j ↔
    s.phase r.task = .loading j) (j : ℕ) : t.Loading j ↔ s.Loading j := by
  constructor
  · rintro ⟨r, hr, hslot, hload⟩
    rw [hheld] at hr
    exact ⟨r, hr, hslot, (hphase r hr j).mp hload⟩
  · rintro ⟨r, hr, hslot, hload⟩
    exact ⟨r, hheld ▸ hr, hslot, (hphase r hr j).mpr hload⟩

variable (h : s.Sound pins base)

include h

/-- A task that is not loading gets to a place where it is not loading. -/
theorem Sound.goto {phase : InodePhase} (hfrom : ∀ j, s.phase task ≠ .loading j)
    (hto : ∀ j, phase ≠ .loading j) (hwait : ∀ j, phase = .releasing j ∨ phase = .crossing j →
      (∃ r ∈ s.held, r.task = task ∧ r.slot = j) ∧ ¬s.Loading j) : (s.goto task phase).Sound pins base := by
  have hphase : ∀ u j, (s.goto task phase).phase u = .loading j ↔ s.phase u = .loading j := by
    intro u j
    rcases eq_or_ne u task with rfl | hne
    · rw [goto_self]
      exact iff_of_false (hto j) (hfrom j)
    · rw [goto_of_ne _ hne]
  have hload : ∀ j, (s.goto task phase).Loading j ↔ s.Loading j :=
    Loading.congr rfl fun r _ j => hphase r.task j
  have hbuf : (s.goto task phase).bufOf = s.bufOf := funext fun j => bufOf_congr rfl rfl (hload j)
  refine ⟨h.cache, h.room, fun bf => ?_, h.count, h.free, fun j hj hdev hnot => ?_, h.listed, h.nodup, h.eof,
    h.sized, h.root, h.ref, fun u j hu => h.loading u j ((hphase u j).mp hu), fun u j hu => ?_⟩
  · rw [hbuf]
    exact h.bufs bf
  · rw [hload] at hnot
    exact h.placed j hj hdev hnot
  · rw [hload]
    rcases eq_or_ne u task with rfl | hne
    · rw [goto_self] at hu
      exact hwait j hu
    · rw [goto_of_ne _ hne] at hu
      exact h.waiting u j hu

/-- One reference more to an entry that has been read. -/
theorem Sound.addRef (hi : i < inodeNr) (hdev : (s.slots i).dev ≠ EOF) (hnot : ¬s.Loading i)
    (hcount : (s.slots i).count < 4294967295) (htask : ∀ j, s.phase task ≠ .loading j) :
    (s.addRef task i).Sound pins base := by
  obtain ⟨t, ht⟩ : ∃ t, t = s.addRef task i := ⟨_, rfl⟩
  have hslot : ∀ j, ∃ c, t.slots j = { s.slots j with count := c } := by
    intro j
    rw [ht]
    rcases eq_or_ne j i with rfl | hne
    · exact ⟨_, setSlot_self _⟩
    · exact ⟨_, setSlot_of_ne _ hne⟩
  have hheld : t.held = ⟨task, i, (s.slots i).dev, (s.slots i).nr⟩ :: s.held := by rw [ht]; rfl
  have hrefs : ∀ j, t.refs j = s.refs j + if j = i then 1 else 0 := by
    intro j
    rw [refs, hheld, List.map_cons]
    rcases eq_or_ne j i with rfl | hne
    · rw [List.count_cons_self, if_pos rfl, refs]
    · rw [List.count_cons_of_ne hne.symm, if_neg hne, refs, Nat.add_zero]
  have hload : ∀ j, t.Loading j ↔ s.Loading j := by
    intro j
    constructor
    · rintro ⟨r, hr, hj, hphase⟩
      rw [ht] at hphase
      rw [hheld, List.mem_cons] at hr
      rcases hr with rfl | hr
      · exact absurd hphase (htask j)
      · exact ⟨r, hr, hj, hphase⟩
    · rintro ⟨r, hr, hj, hphase⟩
      exact ⟨r, hheld ▸ List.mem_cons_of_mem _ hr, hj, by rw [ht]; exact hphase⟩
  have hbuf : t.bufOf = s.bufOf := by
    funext j
    obtain ⟨c, hc⟩ := hslot j
    exact bufOf_congr (by rw [hc]) (by rw [hc]) (hload j)
  have huser : t.user = s.user := by rw [ht]; rfl
  have hsupers : t.supers = s.supers := by rw [ht]; rfl
  have hphase : t.phase = s.phase := by rw [ht]; rfl
  rw [← ht]
  refine ⟨huser ▸ h.cache, h.room, fun bf => ?_, fun j hj => ?_, fun j hj hfree => ?_,
    fun j hj hused hj' => ?_, fun dev sb hsb j hj => ?_, hsupers ▸ h.nodup, hsupers ▸ h.eof,
    hsupers ▸ h.sized, hsupers ▸ h.root, fun r hr => ?_, fun u j hu => ?_, fun u j hu => ?_⟩
  · rw [huser, hbuf]
    exact h.bufs bf
  · have hold := h.count j hj
    rw [hrefs]
    rcases eq_or_ne j i with rfl | hne
    · have hself : t.slots j = { s.slots j with count := u32 ((s.slots j).count + 1) } := by
        rw [ht]
        exact setSlot_self _
      rw [hself, if_pos rfl]
      simp only
      rw [u32_of_lt (by omega)]
      omega
    · have hself : t.slots j = s.slots j := by
        rw [ht]
        exact setSlot_of_ne _ hne
      rw [hself, if_neg hne, Nat.add_zero]
      exact hold
  · obtain ⟨c, hc⟩ := hslot j
    rw [hc] at hfree
    have hne : j ≠ i := by
      rintro rfl
      exact hdev hfree
    rw [hrefs, if_neg hne]
    exact h.free j hj hfree
  · obtain ⟨c, hc⟩ := hslot j
    rw [hc] at hused ⊢
    rw [hload] at hj'
    rw [huser, hsupers]
    exact h.placed j hj hused hj'
  · rw [hsupers] at hsb
    obtain ⟨c, hc⟩ := hslot j
    rw [hc]
    exact h.listed dev sb hsb j hj
  · obtain ⟨c, hc⟩ := hslot r.slot
    rw [hc]
    rw [hheld, List.mem_cons] at hr
    rcases hr with rfl | hr
    · exact ⟨hi, rfl, rfl, hdev⟩
    · exact h.ref r hr
  · rw [hphase] at hu
    obtain ⟨⟨r, hr, hrtask, hrslot⟩, hpins, honly⟩ := h.loading u j hu
    refine ⟨⟨r, hheld ▸ List.mem_cons_of_mem _ hr, hrtask, hrslot⟩, hpins, fun r' hr' hslot' => ?_⟩
    rw [hheld, List.mem_cons] at hr'
    rcases hr' with rfl | hr'
    · refine absurd ?_ hnot
      obtain rfl : i = j := hslot'
      exact ⟨r, hr, hrslot, by rw [hrtask]; exact hu⟩
    · exact honly r' hr' hslot'
  · rw [hphase] at hu
    obtain ⟨⟨r, hr, hrtask, hrslot⟩, hj⟩ := h.waiting u j hu
    exact ⟨⟨r, hheld ▸ List.mem_cons_of_mem _ hr, hrtask, hrslot⟩, fun hc => hj ((hload j).mp hc)⟩

/-- A step of the cache that leaves the references and the blocks of the buffers alone. -/
theorem Sound.ofUser {user : CacheUser D} (htrans : user.Transparent) (hheld : user.held = s.user.held)
    (hkey : ∀ b, user.key b = s.user.key b) : ({ s with user := user } : InodeTasks D).Sound pins base := by
  have hload : ∀ j, ({ s with user := user } : InodeTasks D).Loading j ↔ s.Loading j :=
    Loading.congr rfl fun _ _ _ => Iff.rfl
  have hbuf : ({ s with user := user } : InodeTasks D).bufOf = s.bufOf :=
    funext fun j => bufOf_congr rfl rfl (hload j)
  refine ⟨htrans, h.room, fun bf => ?_, h.count, h.free, fun j hj hdev hnot => ?_, h.listed, h.nodup, h.eof,
    h.sized, h.root, h.ref, h.loading, fun u j hu => ?_⟩
  · rw [hbuf]
    simp only [hheld]
    exact h.bufs bf
  · rw [hload] at hnot
    simp only [hkey]
    exact h.placed j hj hdev hnot
  · rw [hload]
    exact h.waiting u j hu

/-- `iget` takes a free entry, which is in the list from here on. -/
theorem Sound.take {sb : SuperSlot} (hsb : s.supers dev = some sb) (hi : i < inodeNr)
    (hfree : (s.slots i).dev = EOF) (hfrom : ∀ j, s.phase task ≠ .loading j)
    (ht : t = { (s.setSlot i { s.slots i with dev := dev, nr := nr }).addRef task i with
      supers := Function.update s.supers dev (some { sb with inodeList := i :: sb.inodeList }) }.goto task
      (.loading i)) : t.Sound pins base := by
  obtain ⟨hrefs0, hpins0⟩ := h.free i hi hfree
  have hdev : dev ≠ EOF := by
    rintro rfl
    exact absurd (h.eof.symm.trans hsb) (by simp)
  have hself : t.slots i = { s.slots i with dev := dev, nr := nr, count := u32 ((s.slots i).count + 1) } := by
    rw [ht]
    simp [InodeTasks.goto, InodeTasks.addRef]
  have hother : ∀ j, j ≠ i → t.slots j = s.slots j := fun j hj => by
    rw [ht]
    simp [InodeTasks.goto, InodeTasks.addRef, setSlot_of_ne _ hj]
  have hheld : t.held = ⟨task, i, dev, nr⟩ :: s.held := by
    rw [ht]
    simp [InodeTasks.goto, InodeTasks.addRef, setSlot]
  have huser : t.user = s.user := by rw [ht]; rfl
  have hphase : t.phase task = .loading i := by
    rw [ht]
    exact goto_self _
  have hphases : ∀ {u}, u ≠ task → t.phase u = s.phase u := fun {u} hu => by
    rw [ht]
    exact goto_of_ne _ hu
  have hsuper : t.supers dev = some { sb with inodeList := i :: sb.inodeList } := by
    rw [ht]
    exact Function.update_self _ _ _
  have hsupers : ∀ {d}, d ≠ dev → t.supers d = s.supers d := fun {d} hd => by
    rw [ht]
    exact Function.update_of_ne hd _ _
  -- nobody had anything to do with the entry
  have hnew : ∀ r ∈ s.held, r.slot ≠ i := by
    rintro r hr rfl
    obtain ⟨-, hd, -, hne⟩ := h.ref r hr
    exact hne (hd.symm.trans hfree)
  have hrefs : ∀ j, t.refs j = s.refs j + if j = i then 1 else 0 := by
    intro j
    rw [refs, hheld, List.map_cons]
    rcases eq_or_ne j i with rfl | hne
    · rw [List.count_cons_self, if_pos rfl, refs]
    · rw [List.count_cons_of_ne hne.symm, if_neg hne, refs, Nat.add_zero]
  have hload : ∀ j, t.Loading j ↔ s.Loading j ∨ j = i := by
    intro j
    constructor
    · rintro ⟨r, hr, hj, hp⟩
      rw [hheld, List.mem_cons] at hr
      rcases hr with rfl | hr
      · exact Or.inr hj.symm
      · rcases eq_or_ne r.task task with heq | hne
        · rw [heq, hphase] at hp
          exact Or.inr (InodePhase.loading.inj hp).symm
        · rw [hphases hne] at hp
          exact Or.inl ⟨r, hr, hj, hp⟩
    · rintro (⟨r, hr, hj, hp⟩ | rfl)
      · have hne : r.task ≠ task := fun heq => hfrom j (heq ▸ hp)
        exact ⟨r, hheld ▸ List.mem_cons_of_mem _ hr, hj, by rwa [hphases hne]⟩
      · exact ⟨_, hheld ▸ List.mem_cons_self, rfl, hphase⟩
  have hbuf : t.bufOf = s.bufOf := by
    funext j
    rcases eq_or_ne j i with rfl | hne
    · rw [bufOf_free hfree, bufOf_loading ((hload j).mpr (Or.inr rfl))]
    · refine bufOf_congr (by rw [hother j hne]) (by rw [hother j hne]) ?_
      rw [hload]
      exact or_iff_left hne
  refine ⟨huser ▸ h.cache, h.room, fun bf => ?_, fun j hj => ?_, fun j hj hfree' => ?_,
    fun j hj hused hnot => ?_, fun d sb' hsb' j hj => ?_, fun d sb' hsb' => ?_, ?_, fun d sb' hsb' => ?_,
    fun d sb' hsb' j hj => ?_, fun r hr => ?_, fun u j hu => ?_, fun u j hu => ?_⟩
  · rw [huser, hbuf]
    exact h.bufs bf
  · rw [hrefs]
    have hold := h.count j hj
    rcases eq_or_ne j i with rfl | hne
    · rw [hself, if_pos rfl]
      simp only
      rw [hold.1, hrefs0, hpins0]
      decide
    · rw [hother j hne, if_neg hne, Nat.add_zero]
      exact hold
  · rcases eq_or_ne j i with rfl | hne
    · rw [hself] at hfree'
      exact absurd hfree' hdev
    · rw [hother j hne] at hfree'
      rw [hrefs, if_neg hne]
      exact h.free j hj hfree'
  · rw [hload, not_or] at hnot
    rw [hother j hnot.2] at hused ⊢
    obtain ⟨hdesc, sb', hsb', hkey⟩ := h.placed j hj hused hnot.1
    refine ⟨hdesc, ?_⟩
    rw [huser]
    rcases eq_or_ne (s.slots j).dev dev with heq | hne
    · rw [heq] at hsb' hkey ⊢
      obtain rfl : sb = sb' := Option.some.inj (hsb.symm.trans hsb')
      exact ⟨_, hsuper, hkey⟩
    · exact ⟨sb', (hsupers hne).trans hsb', hkey⟩
  · rcases eq_or_ne d dev with rfl | hne
    · obtain rfl := Option.some.inj (hsuper.symm.trans hsb')
      rcases List.mem_cons.mp hj with rfl | hj
      · exact ⟨hi, by rw [hself]⟩
      · obtain ⟨hlt, hd⟩ := h.listed d sb hsb j hj
        have hji : j ≠ i := by
          rintro rfl
          exact hdev (hd.symm.trans hfree)
        rw [hother j hji]
        exact ⟨hlt, hd⟩
    · rw [hsupers hne] at hsb'
      obtain ⟨hlt, hd⟩ := h.listed d sb' hsb' j hj
      rcases eq_or_ne j i with rfl | hji
      · rw [hfree] at hd
        exact absurd (h.eof.symm.trans (hd ▸ hsb')) (by simp)
      · rw [hother j hji]
        exact ⟨hlt, hd⟩
  · rcases eq_or_ne d dev with rfl | hne
    · obtain rfl := Option.some.inj (hsuper.symm.trans hsb')
      refine List.nodup_cons.mpr ⟨fun hmem => ?_, h.nodup d sb hsb⟩
      exact hdev ((h.listed d sb hsb i hmem).2.symm.trans hfree)
    · rw [hsupers hne] at hsb'
      exact h.nodup d sb' hsb'
  · rw [hsupers hdev.symm]
    exact h.eof
  · rcases eq_or_ne d dev with rfl | hne
    · obtain rfl := Option.some.inj (hsuper.symm.trans hsb')
      exact h.sized d sb hsb
    · rw [hsupers hne] at hsb'
      exact h.sized d sb' hsb'
  · rcases eq_or_ne d dev with rfl | hne
    · obtain rfl := Option.some.inj (hsuper.symm.trans hsb')
      exact h.root d sb hsb j hj
    · rw [hsupers hne] at hsb'
      exact h.root d sb' hsb' j hj
  · rw [hheld, List.mem_cons] at hr
    rcases hr with rfl | hr
    · refine ⟨hi, ?_⟩
      rw [hself]
      exact ⟨rfl, rfl, hdev⟩
    · rw [hother _ (hnew r hr)]
      exact h.ref r hr
  · rcases eq_or_ne u task with rfl | hne
    · rw [hphase] at hu
      obtain rfl := InodePhase.loading.inj hu
      refine ⟨⟨_, hheld ▸ List.mem_cons_self, rfl, rfl⟩, hpins0, fun r hr hslot => ?_⟩
      rw [hheld, List.mem_cons] at hr
      rcases hr with rfl | hr
      · rfl
      · exact absurd hslot (hnew r hr)
    · rw [hphases hne] at hu
      obtain ⟨⟨r, hr, hrtask, hrslot⟩, hpins, honly⟩ := h.loading u j hu
      refine ⟨⟨r, hheld ▸ List.mem_cons_of_mem _ hr, hrtask, hrslot⟩, hpins, fun r' hr' hslot => ?_⟩
      rw [hheld, List.mem_cons] at hr'
      rcases hr' with rfl | hr'
      · exact absurd (hrslot.trans hslot.symm) (hnew r hr)
      · exact honly r' hr' hslot
  · rcases eq_or_ne u task with rfl | hne
    · rw [hphase] at hu
      simp at hu
    · rw [hphases hne] at hu
      obtain ⟨⟨r, hr, hrtask, hrslot⟩, hj⟩ := h.waiting u j hu
      refine ⟨⟨r, hheld ▸ List.mem_cons_of_mem _ hr, hrtask, hrslot⟩, fun hc => ?_⟩
      rcases (hload j).mp hc with hc | rfl
      · exact hj hc
      · exact hnew r hr hrslot

/-- **`iget` behind the `bread`**: the entry is complete. -/
theorem Sound.load (hphase : s.phase task = .loading i) (hstep : s.load task i = some t) :
    t.Sound pins base := by
  obtain ⟨⟨r₀, hr₀, htask, hslot⟩, hpins, honly⟩ := h.loading task i hphase
  obtain ⟨hi, hdev, hnr, hne⟩ := h.ref r₀ hr₀
  rw [hslot] at hi hdev hnr
  have hdev' : (s.slots i).dev ≠ EOF := hdev.symm ▸ hne
  have hloading : s.Loading i := ⟨r₀, hr₀, hslot, htask.symm ▸ hphase⟩
  obtain ⟨sb, hsb, hstep⟩ := Option.bind_eq_some_iff.mp hstep
  obtain ⟨⟨r, user⟩, huser, hstep⟩ := Option.bind_eq_some_iff.mp hstep
  obtain ⟨bf, rfl, hstep⟩ := Option.bind_eq_some_iff.mp hstep
  have hsize := h.sized _ sb hsb
  have hblock : inodeBlock sb.desc (s.slots i).nr < 2147483648 := by
    have hsub : sub32 (s.slots i).nr 1 < 4294967296 := Nat.mod_lt _ (by decide)
    rw [inodeBlock, blockInodes_eq]
    omega
  obtain ⟨bf', hbf', hheld, htrans, hkey, hkeys⟩ := h.cache.of_bread hblock huser
  obtain rfl := Option.some.inj hbf'
  have hself : t.slots i = { s.slots i with buf := bf, desc := (bf, sub32 (s.slots i).nr 1 % blockInodes) } := by
    rw [← Option.some.inj hstep]
    exact setSlot_self _
  have hother : ∀ j, j ≠ i → t.slots j = s.slots j := fun j hj => by
    rw [← Option.some.inj hstep]
    exact setSlot_of_ne _ hj
  have hrefs : t.held = s.held := by rw [← Option.some.inj hstep]; rfl
  have hsupers : t.supers = s.supers := by rw [← Option.some.inj hstep]; rfl
  have htuser : t.user = user := by rw [← Option.some.inj hstep]; rfl
  have hidle : t.phase task = .idle := by
    rw [← Option.some.inj hstep]
    exact goto_self _
  have hphases : ∀ {u}, u ≠ task → t.phase u = s.phase u := fun {u} hu => by
    rw [← Option.some.inj hstep]
    exact goto_of_ne _ hu
  have hload : ∀ j, t.Loading j ↔ s.Loading j ∧ j ≠ i := by
    intro j
    constructor
    · rintro ⟨r, hr, hj, hp⟩
      rw [hrefs] at hr
      have hrne : r.task ≠ task := by
        intro heq
        rw [heq, hidle] at hp
        simp at hp
      rw [hphases hrne] at hp
      refine ⟨⟨r, hr, hj, hp⟩, ?_⟩
      rintro rfl
      exact hrne (honly r hr hj)
    · rintro ⟨⟨r, hr, hj, hp⟩, hji⟩
      have hrne : r.task ≠ task := by
        intro heq
        rw [heq, hphase] at hp
        exact hji (InodePhase.loading.inj hp).symm
      exact ⟨r, hrefs ▸ hr, hj, by rwa [hphases hrne]⟩
  have hfields : ∀ j, (t.slots j).dev = (s.slots j).dev ∧ (t.slots j).nr = (s.slots j).nr ∧
      (t.slots j).count = (s.slots j).count := by
    intro j
    rcases eq_or_ne j i with rfl | hji
    · rw [hself]
      exact ⟨rfl, rfl, rfl⟩
    · rw [hother j hji]
      exact ⟨rfl, rfl, rfl⟩
  have hnot : ¬t.Loading i := fun hc => ((hload i).mp hc).2 rfl
  have hbuf : t.bufOf = Function.update s.bufOf i (some bf) := by
    funext j
    rcases eq_or_ne j i with rfl | hji
    · rw [Function.update_self, bufOf_eq (by rw [(hfields j).1]; exact hdev') hnot, hself]
    · rw [Function.update_of_ne hji]
      refine bufOf_congr (by rw [hother j hji]) (by rw [hother j hji]) ?_
      rw [hload]
      exact and_iff_left hji
  refine ⟨htuser ▸ htrans, h.room, fun b => ?_, fun j hj => ?_, fun j hj hfree => ?_,
    fun j hj hused hnot' => ?_, fun d sb' hsb' j hj => ?_, hsupers ▸ h.nodup, hsupers ▸ h.eof,
    hsupers ▸ h.sized, hsupers ▸ h.root, fun r hr => ?_, fun u j hu => ?_, fun u j hu => ?_⟩
  · have hcount := h.bufs b
    rw [htuser, hheld, hbuf, refCount_update_some (Finset.mem_range.mpr hi) (bufOf_loading hloading)]
    rcases eq_or_ne b bf with rfl | hb
    · rw [List.count_cons_self, if_pos rfl]
      omega
    · rw [List.count_cons_of_ne hb.symm, if_neg hb]
      omega
  · rw [refs, hrefs, (hfields j).2.2]
    exact h.count j hj
  · rw [(hfields j).1] at hfree
    rw [refs, hrefs]
    exact h.free j hj hfree
  · rw [hsupers, htuser]
    rcases eq_or_ne j i with rfl | hji
    · rw [hself]
      exact ⟨rfl, sb, hsb, hkey⟩
    · rw [hother j hji] at hused ⊢
      have hj' : ¬s.Loading j := fun hc => hnot' ((hload j).mpr ⟨hc, hji⟩)
      obtain ⟨hdesc, sb', hsb', hkey'⟩ := h.placed j hj hused hj'
      exact ⟨hdesc, sb', hsb', (hkeys _ (h.mem_bufs hj hused hj')).trans hkey'⟩
  · rw [hsupers] at hsb'
    rw [(hfields j).1]
    exact h.listed d sb' hsb' j hj
  · rw [hrefs] at hr
    rw [(hfields r.slot).1, (hfields r.slot).2.1]
    exact h.ref r hr
  · have hu' : u ≠ task := by
      rintro rfl
      rw [hidle] at hu
      simp at hu
    rw [hphases hu'] at hu
    rw [hrefs]
    exact h.loading u j hu
  · have hu' : u ≠ task := by
      rintro rfl
      rw [hidle] at hu
      simp at hu
    rw [hphases hu'] at hu
    rw [hrefs]
    obtain ⟨hex, hj⟩ := h.waiting u j hu
    exact ⟨hex, fun hc => hj ((hload j).mp hc).1⟩

/-- A reference is given back. -/
theorem Sound.dropRef {r₀ : InodeRef} (hr₀ : r₀ ∈ s.held) (hnot : ¬s.Loading r₀.slot)
    (hidle : s.phase r₀.task = .idle)
    (ht : t = { s with held := s.held.erase r₀ }.setSlot r₀.slot
      { s.slots r₀.slot with count := sub32 (s.slots r₀.slot).count 1 }) :
    t.Sound pins base ∧ ∀ j, t.refs j + (if j = r₀.slot then 1 else 0) = s.refs j := by
  obtain ⟨hi, -⟩ := h.ref r₀ hr₀
  have hslot : ∀ j, ∃ c, t.slots j = { s.slots j with count := c } := by
    intro j
    rw [ht]
    rcases eq_or_ne j r₀.slot with rfl | hne
    · exact ⟨_, setSlot_self _⟩
    · exact ⟨_, setSlot_of_ne _ hne⟩
  have hheld : t.held = s.held.erase r₀ := by rw [ht]; rfl
  have huser : t.user = s.user := by rw [ht]; rfl
  have hsupers : t.supers = s.supers := by rw [ht]; rfl
  have hphase : t.phase = s.phase := by rw [ht]; rfl
  have hsub : ∀ r ∈ t.held, r ∈ s.held := fun r hr => List.mem_of_mem_erase (hheld ▸ hr)
  have hsup : ∀ r ∈ s.held, r.task ≠ r₀.task → r ∈ t.held := fun r hr hne => by
    rw [hheld]
    refine (List.mem_erase_of_ne ?_).mpr hr
    rintro rfl
    exact hne rfl
  have hrefs : ∀ j, t.refs j + (if j = r₀.slot then 1 else 0) = s.refs j := by
    intro j
    have hcount := ((List.perm_cons_erase hr₀).map InodeRef.slot).count_eq j
    rw [List.map_cons] at hcount
    rw [refs, hheld, refs, hcount]
    rcases eq_or_ne j r₀.slot with rfl | hne
    · rw [List.count_cons_self, if_pos rfl]
    · rw [List.count_cons_of_ne hne.symm, if_neg hne, Nat.add_zero]
  have hload : ∀ j, t.Loading j ↔ s.Loading j := by
    intro j
    constructor
    · rintro ⟨r, hr, hj, hp⟩
      exact ⟨r, hsub r hr, hj, hphase ▸ hp⟩
    · rintro ⟨r, hr, hj, hp⟩
      have hne : r.task ≠ r₀.task := by
        intro heq
        rw [heq, hidle] at hp
        simp at hp
      exact ⟨r, hsup r hr hne, hj, hphase.symm ▸ hp⟩
  have hbuf : t.bufOf = s.bufOf := by
    funext j
    obtain ⟨c, hc⟩ := hslot j
    exact bufOf_congr (by rw [hc]) (by rw [hc]) (hload j)
  refine ⟨⟨huser ▸ h.cache, h.room, fun bf => ?_, fun j hj => ?_, fun j hj hfree => ?_,
    fun j hj hused hj' => ?_, fun dev sb hsb j hj => ?_, hsupers ▸ h.nodup, hsupers ▸ h.eof,
    hsupers ▸ h.sized, hsupers ▸ h.root, fun r hr => ?_, fun u j hu => ?_, fun u j hu => ?_⟩, hrefs⟩
  · rw [huser, hbuf]
    exact h.bufs bf
  · have hold := h.count j hj
    have hj' := hrefs j
    rcases eq_or_ne j r₀.slot with rfl | hne
    · have hself : t.slots r₀.slot =
          { s.slots r₀.slot with count := sub32 (s.slots r₀.slot).count 1 } := by
        rw [ht]
        exact setSlot_self _
      rw [hself]
      rw [if_pos rfl] at hj'
      simp only
      rw [sub32_of_le (by omega) (by omega)]
      omega
    · have hself : t.slots j = s.slots j := by
        rw [ht]
        exact setSlot_of_ne _ hne
      rw [hself]
      rw [if_neg hne] at hj'
      omega
  · obtain ⟨c, hc⟩ := hslot j
    rw [hc] at hfree
    have hold := h.free j hj hfree
    have hj' := hrefs j
    exact ⟨by omega, hold.2⟩
  · obtain ⟨c, hc⟩ := hslot j
    rw [hc] at hused ⊢
    rw [hload] at hj'
    rw [huser, hsupers]
    exact h.placed j hj hused hj'
  · rw [hsupers] at hsb
    obtain ⟨c, hc⟩ := hslot j
    rw [hc]
    exact h.listed dev sb hsb j hj
  · obtain ⟨c, hc⟩ := hslot r.slot
    rw [hc]
    exact h.ref r (hsub r hr)
  · rw [hphase] at hu
    obtain ⟨⟨r, hr, hrtask, hrslot⟩, hpins, honly⟩ := h.loading u j hu
    refine ⟨⟨r, hsup r hr ?_, hrtask, hrslot⟩, hpins, fun r' hr' => honly r' (hsub r' hr')⟩
    intro heq
    rw [← hrtask, heq, hidle] at hu
    simp at hu
  · rw [hphase] at hu
    obtain ⟨⟨r, hr, hrtask, hrslot⟩, hj⟩ := h.waiting u j hu
    refine ⟨⟨r, hsup r hr ?_, hrtask, hrslot⟩, fun hc => hj ((hload j).mp hc)⟩
    intro heq
    rw [← hrtask, heq, hidle] at hu
    simp at hu

/-- An entry nobody refers to is freed. -/
theorem Sound.evict {user : CacheUser D} {sb : SuperSlot} {r : Option ℕ} (hi : i < inodeNr)
    (hdev : (s.slots i).dev ≠ EOF) (hnot : ¬s.Loading i) (hrefs : s.refs i = 0) (hpins : pins i = 0)
    (huser : s.user.step (.brelse (s.slots i).buf) = some (r, user))
    (hsb : s.supers (s.slots i).dev = some sb)
    (ht : t = ({ s with
      user := user
      supers := Function.update s.supers (s.slots i).dev
        (some { sb with inodeList := sb.inodeList.erase i }) } : InodeTasks D).setSlot i
      { s.slots i with dev := EOF }) : t.Sound pins base := by
  have hmem := h.mem_bufs hi hdev hnot
  obtain ⟨hheld, htrans, hkey⟩ := h.cache.of_release hmem (h.bufs_le _) huser
  have hself : t.slots i = { s.slots i with dev := EOF } := by
    rw [ht]
    exact setSlot_self _
  have hother : ∀ j, j ≠ i → t.slots j = s.slots j := fun j hj => by
    rw [ht]
    exact setSlot_of_ne _ hj
  have htheld : t.held = s.held := by rw [ht]; rfl
  have htuser : t.user = user := by rw [ht]; rfl
  have hphase : t.phase = s.phase := by rw [ht]; rfl
  have hsuper : t.supers (s.slots i).dev = some { sb with inodeList := sb.inodeList.erase i } := by
    rw [ht]
    exact Function.update_self _ _ _
  have hsupers : ∀ {d}, d ≠ (s.slots i).dev → t.supers d = s.supers d := fun {d} hd => by
    rw [ht]
    exact Function.update_of_ne hd _ _
  have hnone : ∀ r ∈ s.held, r.slot ≠ i := by
    rintro r hr rfl
    exact (refs_pos hr).ne' hrefs
  have hload : ∀ j, t.Loading j ↔ s.Loading j := Loading.congr htheld fun r _ j => by rw [hphase]
  have hbuf : t.bufOf = Function.update s.bufOf i none := by
    funext j
    rcases eq_or_ne j i with rfl | hji
    · rw [Function.update_self, bufOf_free (by rw [hself])]
    · rw [Function.update_of_ne hji]
      exact bufOf_congr (by rw [hother j hji]) (by rw [hother j hji]) (hload j)
  refine ⟨htuser ▸ htrans, h.room, fun b => ?_, fun j hj => ?_, fun j hj hfree => ?_,
    fun j hj hused hnot' => ?_, fun d sb' hsb' j hj => ?_, fun d sb' hsb' => ?_, ?_, fun d sb' hsb' => ?_,
    fun d sb' hsb' j hj => ?_, fun r hr => ?_, fun u j hu => ?_, fun u j hu => ?_⟩
  · have hcount := h.bufs b
    rw [refCount_update_none (Finset.mem_range.mpr hi) (bufOf_eq hdev hnot)] at hcount
    rw [htuser, hheld, hbuf]
    rcases eq_or_ne b (s.slots i).buf with rfl | hb
    · rw [if_pos rfl] at hcount
      rw [List.count_erase_self]
      omega
    · rw [if_neg hb] at hcount
      rw [List.count_erase_of_ne hb]
      omega
  · have hold := h.count j hj
    rw [refs, htheld]
    rcases eq_or_ne j i with rfl | hji
    · rw [hself]
      exact hold
    · rw [hother j hji]
      exact hold
  · rw [refs, htheld]
    rcases eq_or_ne j i with rfl | hji
    · exact ⟨hrefs, hpins⟩
    · rw [hother j hji] at hfree
      exact h.free j hj hfree
  · have hji : j ≠ i := by
      rintro rfl
      rw [hself] at hused
      exact hused rfl
    rw [hother j hji] at hused ⊢
    rw [hload] at hnot'
    obtain ⟨hdesc, sb', hsb', hkey'⟩ := h.placed j hj hused hnot'
    refine ⟨hdesc, ?_⟩
    rw [htuser, hkey]
    rcases eq_or_ne (s.slots j).dev (s.slots i).dev with heq | hne
    · rw [heq] at hsb' hkey' ⊢
      obtain rfl : sb = sb' := Option.some.inj (hsb.symm.trans hsb')
      exact ⟨_, hsuper, hkey'⟩
    · exact ⟨sb', (hsupers hne).trans hsb', hkey'⟩
  · rcases eq_or_ne d (s.slots i).dev with rfl | hne
    · obtain rfl := Option.some.inj (hsuper.symm.trans hsb')
      obtain ⟨hji, hj⟩ := (h.nodup _ sb hsb).mem_erase_iff.mp hj
      rw [hother j hji]
      exact h.listed _ sb hsb j hj
    · rw [hsupers hne] at hsb'
      obtain ⟨hlt, hd⟩ := h.listed d sb' hsb' j hj
      have hji : j ≠ i := by
        rintro rfl
        exact hne hd.symm
      rw [hother j hji]
      exact ⟨hlt, hd⟩
  · rcases eq_or_ne d (s.slots i).dev with rfl | hne
    · obtain rfl := Option.some.inj (hsuper.symm.trans hsb')
      exact (h.nodup _ sb hsb).erase i
    · rw [hsupers hne] at hsb'
      exact h.nodup d sb' hsb'
  · rw [hsupers hdev.symm]
    exact h.eof
  · rcases eq_or_ne d (s.slots i).dev with rfl | hne
    · obtain rfl := Option.some.inj (hsuper.symm.trans hsb')
      exact h.sized _ sb hsb
    · rw [hsupers hne] at hsb'
      exact h.sized d sb' hsb'
  · rcases eq_or_ne d (s.slots i).dev with rfl | hne
    · obtain rfl := Option.some.inj (hsuper.symm.trans hsb')
      exact h.root _ sb hsb j hj
    · rw [hsupers hne] at hsb'
      exact h.root d sb' hsb' j hj
  · rw [htheld] at hr
    rw [hother _ (hnone r hr)]
    exact h.ref r hr
  · rw [hphase] at hu
    rw [htheld]
    exact h.loading u j hu
  · rw [hphase] at hu
    rw [htheld, hload]
    exact h.waiting u j hu

/-- **`iput` behind the `bwrite`.** -/
theorem Sound.release {r₀ : InodeRef} (hr₀ : r₀ ∈ s.held) (hnot : ¬s.Loading r₀.slot)
    (hidle : s.phase r₀.task = .idle) (hstep : s.release r₀.task r₀.slot = some t) :
    t.Sound pins base ∧ t.phase = s.phase ∧ ∀ j < inodeNr, (t.slots j).count ≤ (s.slots j).count := by
  obtain ⟨hi, hdev, hnr, hne⟩ := h.ref r₀ hr₀
  obtain ⟨task, i, dev, nr⟩ := r₀
  simp only at hi hdev hnr hne hstep hnot hidle
  subst hdev hnr
  simp only [InodeTasks.release] at hstep
  obtain ⟨⟨r, user⟩, huser, hstep⟩ := Option.bind_eq_some_iff.mp hstep
  simp only at hstep
  have hmem := h.mem_bufs hi hne hnot
  -- the block is written
  obtain ⟨-, rfl⟩ := Prod.mk.inj (Option.some.inj huser)
  have hw := h.ofUser (h.cache.bwrite hmem).1 rfl fun b =>
    Prod.ext (Cache.bwrite_key _ _ b).1 (Cache.bwrite_key _ _ b).2
  -- the counter drops
  obtain ⟨u, hu⟩ : ∃ u : InodeTasks D, u = ({ s with
      user := { s.user with cache := s.user.cache.bwrite (s.slots i).buf }
      held := s.held.erase ⟨task, i, (s.slots i).dev, (s.slots i).nr⟩ } : InodeTasks D).setSlot i
      { s.slots i with count := sub32 (s.slots i).count 1 } := ⟨_, rfl⟩
  obtain ⟨hd, hrefs⟩ := hw.dropRef hr₀ hnot hidle hu
  rw [← hu] at hstep
  have hself : u.slots i = { s.slots i with count := sub32 (s.slots i).count 1 } := by
    rw [hu]
    exact setSlot_self _
  have hcounts : ∀ j < inodeNr, (u.slots j).count ≤ (s.slots j).count := by
    intro j hj
    rw [(hd.count j hj).1, (h.count j hj).1]
    have hle : u.refs j ≤ s.refs j := (Nat.le_add_right _ _).trans (hrefs j).le
    omega
  have hphase : u.phase = s.phase := by rw [hu]; rfl
  split at hstep
  · obtain rfl := Option.some.inj hstep
    exact ⟨hd, hphase, hcounts⟩
  · next hzero =>
    obtain ⟨⟨r', user'⟩, hrel, hstep⟩ := Option.bind_eq_some_iff.mp hstep
    obtain ⟨sb, hsb, hstep⟩ := Option.bind_eq_some_iff.mp hstep
    obtain ⟨_, -, hstep⟩ := Option.bind_eq_some_iff.mp hstep
    obtain ⟨_, -, hstep⟩ := Option.bind_eq_some_iff.mp hstep
    have hcount := (hd.count i hi).1
    rw [not_not.mp hzero] at hcount
    have hnot' : ¬u.Loading i := by
      rintro ⟨r, hr, hslot, hload⟩
      rw [hu] at hr
      have hr' : r ∈ s.held := List.mem_of_mem_erase hr
      exact hnot ⟨r, hr', hslot, hphase ▸ hload⟩
    have hdev' : (u.slots i).dev = (s.slots i).dev := by rw [hself]
    have hbuf' : (u.slots i).buf = (s.slots i).buf := by rw [hself]
    rw [← hbuf'] at hrel
    rw [← hdev'] at hsb hstep
    have ht := (Option.some.inj hstep).symm
    refine ⟨hd.evict hi (hdev'.symm ▸ hne) hnot' (by omega) (by omega) hrel hsb ht, ?_, fun j hj => ?_⟩
    · rw [ht]
      exact hphase
    · rw [ht]
      rcases eq_or_ne j i with rfl | hji
      · rw [setSlot_self]
        exact hcounts j hj
      · rw [setSlot_of_ne _ hji]
        exact hcounts j hj

end Steps

end InodeTasks

end Onixs
