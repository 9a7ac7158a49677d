import Mathlib.Data.BitVec
import Mathlib.Tactic.IntervalCases
import Onixs.Kernel.FileCalls
import Onixs.Kernel.PageHoldings

/-!
# Stores of the kernel in user memory

`sys_read` copies what it reads to the buffer of the process byte by byte, in kernel mode.
Neither the boot code nor `enable_page` sets the bit WP of CR0, so that the processor does
not look at the write bit of an entry then: only a page that is missing faults. A page that
`copy_pde` shares is written in place, and the other process that maps it sees the bytes
(`Onixs.sysRead_unseen_iff`).
-/

namespace Onixs

/-! ### The bytes of a word -/

/-- Byte `k` of a word. -/
def wordByte (w : BitVec 32) (k : ℕ) : BitVec 8 := w.extractLsb' (8 * k) 8

/-- A word with another byte `k`. -/
def setWordByte (w : BitVec 32) (k : ℕ) (b : BitVec 8) : BitVec 32 :=
  (w &&& ~~~(255#32 <<< (8 * k))) ||| (b.setWidth 32 <<< (8 * k))

theorem wordByte_setWordByte (w : BitVec 32) (b : BitVec 8) {j k : ℕ} (hj : j < 4) (hk : k < 4) :
    wordByte (setWordByte w k b) j = if j = k then b else wordByte w j := by
  refine BitVec.eq_of_getLsbD_eq fun i hi => ?_
  have h255 : ∀ n, (255#32).getLsbD n = decide (n < 8) := by
    intro n
    rw [show (255#32) = (BitVec.allOnes 8).setWidth 32 by decide]
    simp only [BitVec.getLsbD_setWidth, BitVec.getLsbD_allOnes]
    by_cases h : n < 8
    · simp [h]
      omega
    · simp [h]
  have h1 : 8 * j + i < 32 := by omega
  rw [wordByte, setWordByte]
  rcases eq_or_ne j k with rfl | hjk
  · have h2 : ¬8 * j + i < 8 * j := by omega
    have h3 : i < 32 := by omega
    rw [if_pos rfl]
    simp only [BitVec.getLsbD_extractLsb', BitVec.getLsbD_or, BitVec.getLsbD_and, BitVec.getLsbD_not,
      BitVec.getLsbD_shiftLeft, BitVec.getLsbD_setWidth, h255]
    simp [h1, h2, h3, hi]
  · rw [if_neg hjk, wordByte]
    simp only [BitVec.getLsbD_extractLsb', BitVec.getLsbD_or, BitVec.getLsbD_and, BitVec.getLsbD_not,
      BitVec.getLsbD_shiftLeft, BitVec.getLsbD_setWidth, h255]
    by_cases hlt : 8 * j + i < 8 * k
    · simp [hlt, h1, hi]
    · have h2 : ¬8 * j + i - 8 * k < 8 := by omega
      have h3 : b.getLsbD (8 * j + i - 8 * k) = false := BitVec.getLsbD_of_ge _ _ (by omega)
      simp [hlt, h1, hi, h2, h3]

namespace PageEntry

/-- The word that an entry is, from the frame number down to `present`. -/
def bits (e : PageEntry) : BitVec 32 :=
  BitVec.ofNat 20 e.index ++ BitVec.ofBool e.readonly ++ BitVec.ofBool e.privat ++ BitVec.ofBool e.shared ++
    BitVec.ofBool e.global ++ BitVec.ofBool e.pat ++ BitVec.ofBool e.dirty ++ BitVec.ofBool e.accessed ++
    BitVec.ofBool e.pcd ++ BitVec.ofBool e.pwt ++ BitVec.ofBool e.user ++ BitVec.ofBool e.write ++
    BitVec.ofBool e.present

/-- The entry that a word is. -/
def ofBits (w : BitVec 32) : PageEntry where
  present := w.getLsbD 0
  write := w.getLsbD 1
  user := w.getLsbD 2
  pwt := w.getLsbD 3
  pcd := w.getLsbD 4
  accessed := w.getLsbD 5
  dirty := w.getLsbD 6
  pat := w.getLsbD 7
  global := w.getLsbD 8
  shared := w.getLsbD 9
  privat := w.getLsbD 10
  readonly := w.getLsbD 11
  index := (w.extractLsb' 12 20).toNat

theorem bits_ofBits (w : BitVec 32) : (ofBits w).bits = w := by
  refine BitVec.eq_of_getLsbD_eq fun i hi => ?_
  rw [bits]
  simp only [BitVec.getLsbD_append, ofBits, BitVec.ofNat_toNat, BitVec.getLsbD_ofBool]
  interval_cases i <;> simp

end PageEntry

namespace Memory

section Defs

variable (s : Memory)

/-- Byte `x.2` of frame `x.1`. -/
def byteAt (x : ℕ × ℕ) : BitVec 8 := wordByte (s.mem x.1 (x.2 / 4)).bits (x.2 % 4)

/-- Store byte `x.2` of frame `x.1`. -/
def setByte (x : ℕ × ℕ) (b : BitVec 8) : Memory :=
  s.setWord x.1 (x.2 / 4) (.ofBits (setWordByte (s.mem x.1 (x.2 / 4)).bits (x.2 % 4) b))

/-- Where a virtual address of a task is in physical memory: the frame, and the byte of it. -/
def slot (pid vaddr : ℕ) : Option (ℕ × ℕ) := do
  let task ← s.running pid
  let frame ← s.walk task.pde vaddr
  return (frame, vaddr % 4096)

/-- The byte a task reads at a virtual address. -/
def loadByte (pid vaddr : ℕ) : Option (BitVec 8) := (s.slot pid vaddr).map s.byteAt

/-- What a store of the kernel, at work for task `pid`, needs: with the bit WP of CR0 clear the write bits count for nothing,
and it faults when the page is missing only. -/
def pageIn (pid vaddr : ℕ) : Option Memory :=
  if (s.slot pid vaddr).isSome then some s else s.pageFault pid vaddr false true

/-- A store of one byte by the kernel. -/
def kernelStore (pid vaddr : ℕ) (b : BitVec 8) : Option Memory := do
  let s ← s.pageIn pid vaddr
  let x ← s.slot pid vaddr
  return s.setByte x b

/-- `memcpy` to the buffer at `dest`. -/
def kernelCopy (pid : ℕ) : ℕ → List (BitVec 8) → Memory → Option Memory
  | _, [], s => some s
  | dest, b :: data, s => do
      let s ← s.kernelStore pid dest b
      kernelCopy pid (dest + 1) data s

end Defs

/-! ### Bytes of memory -/

section Bytes

variable {s t : Memory} {x y : ℕ × ℕ}

theorem byteAt_congr (h : t.mem x.1 = s.mem x.1) : t.byteAt x = s.byteAt x := by
  rw [byteAt, byteAt, h]

theorem byteAt_setByte (s : Memory) (x y : ℕ × ℕ) (b : BitVec 8) :
    (s.setByte x b).byteAt y = if y = x then b else s.byteAt y := by
  obtain ⟨f, o⟩ := x
  obtain ⟨g, q⟩ := y
  have hmem : (s.setByte (f, o) b).mem g (q / 4) = if g = f ∧ q / 4 = o / 4 then
      .ofBits (setWordByte (s.mem f (o / 4)).bits (o % 4) b) else s.mem g (q / 4) := rfl
  rw [byteAt, byteAt]
  simp only
  rw [hmem]
  by_cases hword : g = f ∧ q / 4 = o / 4
  · obtain ⟨rfl, hq⟩ := hword
    rw [if_pos ⟨rfl, hq⟩, PageEntry.bits_ofBits,
      wordByte_setWordByte _ _ (Nat.mod_lt _ (by decide)) (Nat.mod_lt _ (by decide)), hq]
    refine if_congr ?_ rfl rfl
    rw [Prod.mk.injEq]
    constructor
    · intro hmod
      exact ⟨rfl, by omega⟩
    · rintro ⟨-, rfl⟩
      rfl
  · rw [if_neg hword, if_neg]
    rintro heq
    obtain ⟨rfl, rfl⟩ := Prod.mk.inj heq
    exact hword ⟨rfl, rfl⟩

end Bytes

/-! ### Places and pages -/

section Slots

variable {s t : Memory} {pid vaddr f o : ℕ} {x : ℕ × ℕ}

/-- An address is found where the entry of its page says. -/
theorem slot_eq_some (h : s.Sound) (hd : 4 ≤ didx vaddr ∧ didx vaddr < 1023) :
    s.slot pid vaddr = some x ↔ s.target (placeOf pid vaddr) = some x.1 ∧ x.2 = vaddr % 4096 := by
  obtain ⟨f, o⟩ := x
  rw [slot, target_eq_some]
  constructor
  · intro hslot
    obtain ⟨task, hrun, hslot⟩ := Option.bind_eq_some_iff.mp hslot
    obtain ⟨frame, hwalk, hslot⟩ := Option.bind_eq_some_iff.mp hslot
    obtain ⟨rfl, rfl⟩ := Prod.mk.inj (Option.some.inj hslot)
    obtain ⟨e, he, hidx, -⟩ := entryAt_of_walk h.exact.tables hrun hd hwalk
    exact ⟨⟨e, he, hidx⟩, rfl⟩
  · rintro ⟨⟨e, he, hidx⟩, ho⟩
    obtain ⟨-, pde, hp, hpresd, hword, hpres⟩ := entryAt_page.mp he
    obtain ⟨task, hrun, rfl⟩ := pdeOf_eq_some.mp hp
    have hwalk : s.walk task.pde vaddr = some f :=
      walk_eq_some.mpr ⟨hpresd, by rw [hword]; exact hpres, by rw [hword]; exact hidx⟩
    rw [hrun, Option.bind_eq_bind, Option.bind_some, hwalk, Option.bind_eq_bind, Option.bind_some, ← ho]
    rfl

/-- Where addresses were found, they are found again. -/
theorem Grown.slot (h : Grown s t) (hs : s.Sound) (ht : t.Sound) (hd : 4 ≤ didx vaddr ∧ didx vaddr < 1023)
    (hslot : s.slot pid vaddr = some x) : t.slot pid vaddr = some x := by
  obtain ⟨htarget, ho⟩ := (slot_eq_some hs hd).mp hslot
  obtain ⟨e, he, hidx⟩ := target_eq_some.mp htarget
  exact (slot_eq_some ht hd).mpr ⟨target_eq_some.mpr ⟨e, h.keep he, hidx⟩, ho⟩

/-- A frame that a process has is where another finds an address only if it found it there before. -/
theorem Grown.slot_iff (h : Grown s t) (hs : s.Sound) (ht : t.Sound) (hd : 4 ≤ didx vaddr ∧ didx vaddr < 1023)
    {r : Place} (hr : s.target r = some x.1) (hne : r.1 ≠ pid) :
    t.slot pid vaddr = some x ↔ s.slot pid vaddr = some x := by
  refine ⟨fun hslot => ?_, fun hslot => h.slot hs ht hd hslot⟩
  obtain ⟨htarget, ho⟩ := (slot_eq_some ht hd).mp hslot
  obtain ⟨e, he, hidx⟩ := target_eq_some.mp htarget
  refine (slot_eq_some hs hd).mpr ⟨target_eq_some.mpr ⟨e, ?_, hidx⟩, ho⟩
  refine (h.fresh he).resolve_right fun honly => hne ?_
  obtain ⟨e', he', hidx'⟩ := target_eq_some.mp hr
  have hr' := honly r (target_eq_some.mpr ⟨e', h.keep he', hidx'.trans hidx.symm⟩)
  rw [hr']
  rfl

end Slots

/-! ### Data that a fault leaves alone -/

section Data

variable {s t : Memory} {pid pde vaddr f pid' d i : ℕ}

/-- `get_pte` writes in page directories and page tables only. -/
theorem Exact.getPte_data (h : s.Exact) (hp : s.pdeOf pid = some pde) (hd : 4 ≤ didx vaddr ∧ didx vaddr < 1023)
    {create : Bool} {table : ℕ} (hget : s.getPte pde vaddr create = some (table, t))
    (hf : s.target (pid', d, some i) = some f) : t.mem f = s.mem f ∧ table ≠ f := by
  obtain ⟨ht, hsame, hgrown, -, hpres, htable⟩ := h.getPte hp hd hget
  have hpt : t.pdeOf pid = some pde := by rw [hsame.pdeOf]; exact hp
  obtain ⟨e, he, hidx⟩ := target_eq_some.mp hf
  have hloose := ht.tables.loose_of_page (target_eq_some.mpr ⟨e, hgrown.keep he, hidx⟩)
  obtain ⟨-, hT, -⟩ := ht.tables.table_high hpt hd hpres
  have hne : table ≠ f := fun heq => hloose.2 pid _ (heq ▸ htable ▸ hT)
  have hpde : f ≠ pde := fun heq => hloose.1 pid (heq ▸ hpt)
  refine ⟨?_, hne⟩
  rw [Memory.getPte] at hget
  obtain ⟨pde', hwalk, hget⟩ := Option.bind_eq_some_iff.mp hget
  obtain rfl := Option.some.inj ((h.tables.walk_pdeAddr hp).symm.trans hwalk)
  obtain ⟨_, -, hget⟩ := Option.bind_eq_some_iff.mp hget
  split at hget
  · obtain ⟨_, -, hget⟩ := Option.bind_eq_some_iff.mp hget
    obtain ⟨-, rfl⟩ := Prod.mk.inj (Option.some.inj hget)
    rfl
  · obtain ⟨⟨page, u⟩, hpage, hget⟩ := Option.bind_eq_some_iff.mp hget
    obtain ⟨table', -, hget⟩ := Option.bind_eq_some_iff.mp hget
    obtain ⟨rfl, rfl⟩ := Prod.mk.inj (Option.some.inj hget)
    obtain ⟨-, -, -, -, honly, -⟩ := h.counts.getPage hpage
    rw [← honly.mem]
    exact (if_neg hne.symm).trans (funext fun j => if_neg fun hc => hpde hc.1)

/-- **`link_page`** leaves the data of the pages alone. -/
theorem Exact.linkPage_data (h : s.Exact) (hp : s.pdeOf pid = some pde) (hd : 4 ≤ didx vaddr ∧ didx vaddr < 1023)
    (hlink : s.linkPage pde vaddr = some t) (hf : s.target (pid', d, some i) = some f) : t.mem f = s.mem f := by
  rw [Memory.linkPage] at hlink
  obtain ⟨_, -, hlink⟩ := Option.bind_eq_some_iff.mp hlink
  obtain ⟨⟨table, u⟩, hget, hlink⟩ := Option.bind_eq_some_iff.mp hlink
  obtain ⟨hdata, hne⟩ := h.getPte_data hp hd hget hf
  obtain ⟨hu, -⟩ := h.getPte hp hd hget
  simp only at hlink
  split at hlink
  · exact Option.some.inj hlink ▸ hdata
  · obtain ⟨⟨page, v⟩, hpage, hlink⟩ := Option.bind_eq_some_iff.mp hlink
    obtain rfl := Option.some.inj hlink
    obtain ⟨-, -, -, -, honly, -⟩ := hu.counts.getPage hpage
    rw [← hdata, ← honly.mem]
    exact funext fun j => if_neg fun hc => hne hc.1.symm

/-- A page that is missing is linked, and the data of the others stays. -/
theorem Sound.missingPage (h : s.Sound) (hlo : userExecAddr ≤ vaddr) (hhi : vaddr < userStackTop)
    (hfault : s.pageFault pid vaddr false true = some t) :
    t.Sound ∧ Grown s t ∧ ∀ pid' d i f, s.target (pid', d, some i) = some f → t.mem f = s.mem f := by
  rw [userStackTop_eq] at hhi
  have hd := didx_user hlo (by omega)
  have hpage : placeOf pid (page (idx vaddr)) = placeOf pid vaddr := placeOf_page (by omega)
  simp only [placeOf, Prod.mk.injEq, Option.some.injEq, true_and] at hpage
  rw [Memory.pageFault] at hfault
  obtain ⟨task, hrun, hfault⟩ := Option.bind_eq_some_iff.mp hfault
  simp only [Bool.false_eq_true, reduceIte] at hfault
  obtain ⟨_, -, hlink⟩ := Option.bind_eq_some_iff.mp hfault
  have hd' : 4 ≤ didx (page (idx vaddr)) ∧ didx (page (idx vaddr)) < 1023 := by rw [hpage.1]; exact hd
  obtain ⟨hsound, -, hgrown, -⟩ := h.linkPage hrun hd' hlink
  exact ⟨hsound, hgrown, fun pid' d i f hf => h.exact.linkPage_data (pdeOf_of_running hrun) hd' hlink hf⟩

end Data

/-! ### Copying to a buffer -/

/-- Byte `k` of those stored from `buf` on is the last that lands at place `x`. -/
def Lands (s : Memory) (pid buf len : ℕ) (x : ℕ × ℕ) (k : ℕ) : Prop :=
  k < len ∧ s.slot pid (buf + k) = some x ∧ ∀ j, k < j → j < len → s.slot pid (buf + j) ≠ some x

/-- No byte that a process reads has changed. -/
def Unseen (pid : ℕ) (s t : Memory) : Prop := ∀ vaddr b, userExecAddr ≤ vaddr → vaddr < 0xFFC00000 →
  s.loadByte pid vaddr = some b → t.loadByte pid vaddr = some b

/-- What lands last at a place that the process `other` reads is what is there. -/
def Matches (s : Memory) (pid other buf : ℕ) (data : List (BitVec 8)) : Prop := ∀ vaddr x, userExecAddr ≤ vaddr →
  vaddr < 0xFFC00000 → s.slot other vaddr = some x → ∀ k b, s.Lands pid buf data.length x k → data[k]? = some b →
    b = s.byteAt x

section Copy

variable {s t : Memory} {pid other vaddr buf : ℕ} {b : BitVec 8} {data : List (BitVec 8)}

/-- Where a byte lands, one lands last. -/
theorem exists_lands {len : ℕ} {x : ℕ × ℕ} (h : ∃ k < len, s.slot pid (buf + k) = some x) :
    ∃ k, s.Lands pid buf len x k := by
  induction len with
  | zero =>
    obtain ⟨k, hk, -⟩ := h
    exact absurd hk (Nat.not_lt_zero k)
  | succ len ih =>
    by_cases hlast : s.slot pid (buf + len) = some x
    · exact ⟨len, Nat.lt_succ_self len, hlast, fun j hj hj' => by omega⟩
    · obtain ⟨k, hk, hslot⟩ := h
      have hk' : k < len := by
        rcases Nat.lt_succ_iff_lt_or_eq.mp hk with hlt | rfl
        · exact hlt
        · exact absurd hslot hlast
      obtain ⟨k, hk, hslot, hlater⟩ := ih ⟨k, hk', hslot⟩
      refine ⟨k, by omega, hslot, fun j hj hj' => ?_⟩
      rcases Nat.lt_succ_iff_lt_or_eq.mp hj' with hlt | rfl
      · exact hlater j hj hlt
      · exact hlast

/-- **A store of the kernel** writes one byte where the address is, after a fault if the page was missing. -/
theorem Sound.kernelStore (h : s.Sound) (hlo : userExecAddr ≤ vaddr) (hhi : vaddr < userStackTop)
    (hstore : s.kernelStore pid vaddr b = some t) :
    ∃ u x, Grown s u ∧ (∀ pid' d i f, s.target (pid', d, some i) = some f → u.mem f = s.mem f) ∧
      u.Sound ∧ u.slot pid vaddr = some x ∧ t = u.setByte x b ∧ t.Sound ∧ Grown s t := by
  have hd : 4 ≤ didx vaddr ∧ didx vaddr < 1023 := by
    rw [userStackTop_eq] at hhi
    exact didx_user hlo (by omega)
  rw [Memory.kernelStore] at hstore
  obtain ⟨u, hu, hstore⟩ := Option.bind_eq_some_iff.mp hstore
  obtain ⟨x, hx, hstore⟩ := Option.bind_eq_some_iff.mp hstore
  obtain rfl := Option.some.inj hstore
  obtain ⟨hsound, hgrown, hdata⟩ : u.Sound ∧ Grown s u ∧
      ∀ pid' d i f, s.target (pid', d, some i) = some f → u.mem f = s.mem f := by
    rw [pageIn] at hu
    split at hu
    · obtain rfl := Option.some.inj hu
      exact ⟨h, .of_eq rfl, fun _ _ _ _ _ => rfl⟩
    · exact h.missingPage hlo hhi hu
  obtain ⟨htarget, -⟩ := (slot_eq_some hsound hd).mp hx
  obtain ⟨ht, hent⟩ := hsound.of_data (t := u.setByte x b) rfl rfl rfl rfl
    (hsound.exact.tables.loose_of_page htarget) fun g hg => funext fun j => if_neg fun hc => hg hc.1
  exact ⟨u, x, hgrown, hdata, hsound, hx, rfl, ht, hgrown.trans (.of_eq hent)⟩

/-- **What `memcpy` to a buffer does to the pages of other processes**: a byte there is the last one that landed, and the
old one where none did. -/
theorem Sound.kernelCopy : ∀ (data : List (BitVec 8)) (buf : ℕ) (s t : Memory), s.Sound → userExecAddr ≤ buf →
    buf + data.length ≤ userStackTop → kernelCopy pid buf data s = some t → t.Sound ∧ Grown s t ∧
      ∀ pid' d i x, pid' ≠ pid → s.target (pid', d, some i) = some x.1 →
        (∀ k b, s.Lands pid buf data.length x k → data[k]? = some b → t.byteAt x = b) ∧
          ((∀ k < data.length, s.slot pid (buf + k) ≠ some x) → t.byteAt x = s.byteAt x) := by
  intro data
  induction data with
  | nil =>
    intro buf s t h _ _ hcopy
    obtain rfl := Option.some.inj hcopy
    exact ⟨h, .of_eq rfl, fun _ _ _ x _ _ => ⟨fun k b hk => absurd hk.1 (Nat.not_lt_zero k), fun _ => rfl⟩⟩
  | cons b data ih =>
    intro buf s t h hlo hhi hcopy
    rw [List.length_cons] at hhi
    rw [Memory.kernelCopy] at hcopy
    obtain ⟨v, hstore, hcopy⟩ := Option.bind_eq_some_iff.mp hcopy
    obtain ⟨u, y, hgrown, hdata, hu, hy, rfl, hv, hgrown'⟩ := h.kernelStore hlo (by omega) hstore
    obtain ⟨ht, hrest, hbytes⟩ := ih (buf + 1) _ t hv (by omega) (by omega) hcopy
    have hd : ∀ k ≤ data.length, 4 ≤ didx (buf + k) ∧ didx (buf + k) < 1023 := fun k hk => by
      rw [userStackTop_eq] at hhi
      exact didx_user (by omega) (by omega)
    refine ⟨ht, hgrown'.trans hrest, fun pid' d i x hne hx => ?_⟩
    obtain ⟨e, he, hidx⟩ := target_eq_some.mp hx
    obtain ⟨hlast, hnone⟩ := hbytes pid' d i x hne (target_eq_some.mpr ⟨e, hgrown'.keep he, hidx⟩)
    -- the other process has the frame, so that what lands there is decided before the first store
    have hsame : ∀ k < data.length,
        (u.setByte y b).slot pid (buf + 1 + k) = some x ↔ s.slot pid (buf + (k + 1)) = some x := by
      intro k hk
      rw [show buf + 1 + k = buf + (k + 1) by omega]
      exact hgrown'.slot_iff h hv (hd _ hk) hx hne
    have hfirst : y = x ↔ s.slot pid buf = some x := by
      have hd₀ : 4 ≤ didx buf ∧ didx buf < 1023 := hd 0 (Nat.zero_le _)
      rw [← hgrown.slot_iff h hu hd₀ hx hne, hy, Option.some_inj]
    rw [List.length_cons]
    constructor
    · rintro k b' ⟨hk, hslot, hlater⟩ hb'
      cases k with
      | zero =>
        rw [hnone fun j hj hc => hlater (j + 1) (Nat.succ_pos j) (by omega) ((hsame j hj).mp hc), byteAt_setByte,
          if_pos (hfirst.mpr hslot).symm]
        exact Option.some.inj hb'
      | succ k =>
        refine hlast k b' ⟨by omega, (hsame k (by omega)).mpr hslot, fun j hj hj' hc => ?_⟩ hb'
        exact hlater (j + 1) (by omega) (by omega) ((hsame j hj').mp hc)
    · intro hout
      rw [hnone fun j hj hc => hout (j + 1) (by omega) ((hsame j hj).mp hc), byteAt_setByte,
        if_neg fun heq => hout 0 (Nat.succ_pos _) (hfirst.mp heq.symm)]
      exact byteAt_congr (hdata pid' d i x.1 hx)

/-- **The other process sees nothing of the copy** exactly when what lands in its pages is what is there. -/
theorem kernelCopy_unseen_iff (h : s.Sound) (hne : other ≠ pid) (hlo : userExecAddr ≤ buf)
    (hhi : buf + data.length ≤ userStackTop) (hcopy : kernelCopy pid buf data s = some t) :
    Unseen other s t ↔ s.Matches pid other buf data := by
  obtain ⟨ht, hgrown, hbytes⟩ := Sound.kernelCopy data buf s t h hlo hhi hcopy
  have hplace : ∀ {vaddr x}, userExecAddr ≤ vaddr → vaddr < 0xFFC00000 → s.slot other vaddr = some x →
      t.slot other vaddr = some x ∧ s.target (placeOf other vaddr) = some x.1 := fun hlo' hhi' hslot =>
    ⟨hgrown.slot h ht (didx_user hlo' hhi') hslot, ((slot_eq_some h (didx_user hlo' hhi')).mp hslot).1⟩
  constructor
  · intro hunseen vaddr x hlo' hhi' hslot k b hlands hb
    obtain ⟨hslot', htarget⟩ := hplace hlo' hhi' hslot
    have hload := hunseen vaddr (s.byteAt x) hlo' hhi' (by rw [loadByte, hslot]; rfl)
    rw [loadByte, hslot', Option.map_some, (hbytes _ _ _ x hne htarget).1 k b hlands hb] at hload
    exact Option.some.inj hload
  · intro hmatches vaddr b hlo' hhi' hload
    obtain ⟨x, hslot, rfl⟩ := Option.map_eq_some_iff.mp hload
    obtain ⟨hslot', htarget⟩ := hplace hlo' hhi' hslot
    obtain ⟨hlast, hnone⟩ := hbytes _ _ _ x hne htarget
    rw [loadByte, hslot', Option.map_some, Option.some_inj]
    by_cases hland : ∃ k < data.length, s.slot pid (buf + k) = some x
    · obtain ⟨k, hlands⟩ := exists_lands hland
      have hb := List.getElem?_eq_getElem hlands.1
      rw [hlast k _ hlands hb]
      exact hmatches vaddr x hlo' hhi' hslot k _ hlands hb
    · exact hnone fun k hk hc => hland ⟨k, hk, hc⟩

end Copy

end Memory

/-! ### `sys_read` -/

/-- What `sys_read` gets from pipes and devices: the result, and the bytes that are stored at the buffer, one behind the
other. -/
structure Sources (D : Type) where
  /-- `inode->pipi`. -/
  pipi : ℕ → Bool
  /-- `pipe_read`, of an inode. -/
  pipeRead : D → ℕ → ℕ → Option (ℕ × List (BitVec 8) × D)
  /-- `device_read`, of a device, with `count` and `idx`. -/
  deviceRead : D → ℕ → ℕ → ℕ → Option (ℕ × List (BitVec 8) × D)

/-- The bytes that `sys_read` stores, and its result. -/
def FileState.fetch {D : Type} (src : Sources D) (s : FileState D) (pid : ℕ) (fd : ℤ) (len : ℕ) :
    Option (ℕ × List (BitVec 8) × FileState D) := do
  let f ← s.procs.fileAt pid fd
  let file := s.procs.fileTable f
  if file.flags &&& 3 = 1 then
    return (EOF, [], s)
  let i ← file.inode
  let desc := s.procs.fs.inodeDesc i
  if src.pipi i then
    let (count, data, devs) ← src.pipeRead s.devs i len
    return (count, data, { s with devs := devs })
  else if isChr desc.mode then
    assert (desc.zone 0 ≠ 0)
    let (count, data, devs) ← src.deviceRead s.devs (desc.zone 0) len 0
    return (count, data, { s with devs := devs })
  else if isBlk desc.mode then
    assert (desc.zone 0 ≠ 0)
    assert (file.offset % blockSize = 0)
    assert (len % blockBits = 0)
    let (count, data, devs) ← src.deviceRead s.devs (desc.zone 0) (len / blockSize) (file.offset / blockSize)
    return (count, data, { s with devs := devs })
  else
    let (count, out, fs) ← inodeRead s.procs.fs i (fun _ => 0#8) len file.offset
    return (count, (List.range (if count = EOF then 0 else count)).map out,
      { s with procs := (s.procs.setFs fs).advance f count })

/-- The files and the memory of the processes. -/
structure ReadState (D : Type) where
  /-- The tasks, their files and the drivers. -/
  files : FileState D
  /-- Memory. -/
  memory : Memory

/-- `sys_read` to the buffer at `buf`. -/
def ReadState.sysRead {D : Type} (src : Sources D) (s : ReadState D) (pid : ℕ) (fd : ℤ) (buf len : ℕ) :
    Option (ℕ × ReadState D) := do
  let (count, data, files) ← s.files.fetch src pid fd len
  let memory ← Memory.kernelCopy pid buf data s.memory
  return (count, { files := files, memory := memory })

theorem ReadState.sysRead_cases {D : Type} {src : Sources D} {s t : ReadState D} {pid buf len n : ℕ} {fd : ℤ}
    (h : s.sysRead src pid fd buf len = some (n, t)) :
    ∃ data, s.files.fetch src pid fd len = some (n, data, t.files) ∧
      Memory.kernelCopy pid buf data s.memory = some t.memory := by
  rw [ReadState.sysRead] at h
  obtain ⟨⟨count, data, files⟩, hfetch, h⟩ := Option.bind_eq_some_iff.mp h
  obtain ⟨memory, hcopy, h⟩ := Option.bind_eq_some_iff.mp h
  obtain ⟨rfl, rfl⟩ := Prod.mk.inj (Option.some.inj h)
  exact ⟨data, hfetch, hcopy⟩

/-- **A read is unseen by another process** exactly when each of its bytes that lands in a page of that process is what is
there already; whether the page may be written does not matter. -/
theorem sysRead_unseen_iff {D : Type} {src : Sources D} {b : Memory} (hboot : b.Boot) {ops : List MemoryOp}
    {s t : ReadState D} (hlegal : Run.Along MemoryOp.step MemoryOp.Legal b ops)
    (hrun : Run.exec MemoryOp.step b ops = some s.memory) {pid other buf len n count : ℕ} {fd : ℤ}
    {data : List (BitVec 8)} {files : FileState D} (hne : other ≠ pid)
    (hfetch : s.files.fetch src pid fd len = some (count, data, files)) (hlo : Memory.userExecAddr ≤ buf)
    (hhi : buf + data.length ≤ Memory.userStackTop) (hcall : s.sysRead src pid fd buf len = some (n, t)) :
    Memory.Unseen other s.memory t.memory ↔ s.memory.Matches pid other buf data := by
  obtain ⟨data', hfetch', hcopy⟩ := ReadState.sysRead_cases hcall
  obtain rfl : data' = data := congrArg (fun r => r.2.1) (Option.some.inj (hfetch'.symm.trans hfetch))
  exact Memory.kernelCopy_unseen_iff (hboot.run hlegal hrun) hne hlo hhi hcopy

/-- A machine without pipes and devices. -/
def noSources : Sources Unit where
  pipi _ := false
  pipeRead _ _ _ := none
  deviceRead _ _ _ _ := none

/-- A file with the letter `A`, open as the first file of every task. -/
def letterFile : FileState Unit where
  procs := { bootProcesses (fileBlocks fun _ => 0x41#8) with
    fs := ((fileFs fun _ => 0x41#8).setSize 0 1).setZone 0 0 12
    fileTable := fun _ => { inode := some 0, count := 1, offset := 0, flags := 0, mode := 0 } }
  devs := ()

/-- A run of the memory manager, and a read of one byte to the heap of the first task behind it. -/
def readHeap (ops : List MemoryOp) : Option (Memory × ℕ × ReadState Unit) := do
  let m ← Run.exec MemoryOp.step bootMemory ops
  let (n, t) ← ({ files := letterFile, memory := m } : ReadState Unit).sysRead noSources 1 0 0x1002000 1
  return (m, n, t)

theorem readHeap_cases {ops : List MemoryOp} {m : Memory} {n : ℕ} {t : ReadState Unit}
    (h : readHeap ops = some (m, n, t)) : Run.exec MemoryOp.step bootMemory ops = some m ∧
      ({ files := letterFile, memory := m } : ReadState Unit).sysRead noSources 1 0 0x1002000 1 = some (n, t) := by
  obtain ⟨m', hrun, h⟩ := Option.bind_eq_some_iff.mp h
  obtain ⟨⟨n', t'⟩, hcall, h⟩ := Option.bind_eq_some_iff.mp h
  obtain ⟨rfl, rfl, rfl⟩ : m' = m ∧ n' = n ∧ t' = t := by simpa using h
  exact ⟨hrun, hcall⟩

/-- The page of the buffer is missing when the task forks: it is the parent's alone. -/
theorem sysRead_unseen_iff_missing : ∃ m t, readHeap [.fork 1] = some (m, 1, t) ∧
    (Memory.Unseen 0 m t.memory ↔ m.Matches 1 0 0x1002000 [0x41#8]) := by
  have hrun : (readHeap [.fork 1]).map (fun r => r.2.1) = some 1 := by decide +kernel
  obtain ⟨⟨m, n, t⟩, hread, rfl⟩ := Option.map_eq_some_iff.mp hrun
  have hdata : (letterFile.fetch noSources 1 0 1).map (fun r => r.2.1) = some [0x41#8] := by decide +kernel
  obtain ⟨⟨count, data, files⟩, hfetch, rfl⟩ := Option.map_eq_some_iff.mp hdata
  obtain ⟨hexec, hcall⟩ := readHeap_cases hread
  have hlegal : Run.Along MemoryOp.step MemoryOp.Legal bootMemory [.fork 1] := ⟨trivial, fun _ _ _ => trivial⟩
  exact ⟨m, t, hread, sysRead_unseen_iff (s := { files := letterFile, memory := m }) bootMemory_boot hlegal hexec
    (by decide) hfetch (by decide) (by decide) hcall⟩

/-- **The page was there**: the parent reads one byte of a file to its heap, and the child reads it in its own. -/
theorem sysRead_seen : ∃ m t,
    Run.Along MemoryOp.step MemoryOp.Legal bootMemory [.fault 1 0x1002000 false true, .fork 1] ∧
    readHeap [.fault 1 0x1002000 false true, .fork 1] = some (m, 1, t) ∧ ¬Memory.Unseen 0 m t.memory := by
  have hrun : (readHeap [.fault 1 0x1002000 false true, .fork 1]).map
      (fun r => (r.2.1, r.1.loadByte 0 0x1002000, r.2.2.memory.loadByte 0 0x1002000)) =
        some (1, some 0x00#8, some 0x41#8) := by decide +kernel
  obtain ⟨⟨m, n, t⟩, hread, hbytes⟩ := Option.map_eq_some_iff.mp hrun
  obtain ⟨rfl, hbefore, hafter⟩ : n = 1 ∧ m.loadByte 0 0x1002000 = some 0x00#8 ∧
      t.memory.loadByte 0 0x1002000 = some 0x41#8 := by simpa using hbytes
  refine ⟨m, t, ⟨⟨by decide, by decide⟩, fun _ _ _ => ⟨trivial, fun _ _ _ => trivial⟩⟩, hread, fun hunseen => ?_⟩
  have hsame := hunseen 0x1002000 _ (by decide) (by decide) hbefore
  exact absurd (hafter.symm.trans hsame) (by decide)

end Onixs
