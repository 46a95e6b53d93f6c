/-
The allocator over whole runs.  The search hint never runs past a free frame,
so the two-pass search always finds the lowest one, and the counter always
agrees with the bitmap.
-/
import Orion.Machine
import Orion.PmmFrames

namespace Orion

open MachineInt

/-- The allocator together with the frames its clients currently hold. -/
structure PmmSystem where
  pmm : Pmm
  outstanding : List Nat

inductive PmmCall where
  | allocFrame
  | freeFrame (physAddr : UInt32)

/-- One call into the allocator.  A frame becomes outstanding when its address
is returned and stops being so when any address inside it is freed. -/
def PmmSystem.step (sys : PmmSystem) : PmmCall → Option PmmSystem
  | .allocFrame =>
      let result := pmmAllocFrame sys.pmm
      some ⟨result.2, if result.1 = 0 then sys.outstanding
        else addrToFrame result.1 :: sys.outstanding⟩
  | .freeFrame physAddr =>
      some ⟨pmmFreeFrame sys.pmm physAddr,
        sys.outstanding.filter fun frame =>
          frame ≠ addrToFrame physAddr.toNat⟩

/-- The representation invariant of the statics. -/
structure PmmInv (pmm : Pmm) : Prop where
  counted : pmm.usedFrames = WordBitmap.population pmm.bitmap pmmMaxFrames
  zero_used : bitmapTest pmm 0 = true
  search_pos : 1 ≤ pmm.allocSearch
  search_lt : pmm.allocSearch < pmmMaxFrames
  below_search : ∀ frame, 1 ≤ frame → frame < pmm.allocSearch →
    bitmapTest pmm frame = true

theorem pmmScan_some {pmm : Pmm} {start stop frame : Nat} (hstart : 1 ≤ start)
    (hfound : pmmScan pmm start stop = some frame) :
    WordBitmap.FirstClear pmm.bitmap start stop frame := by
  apply WordBitmap.search_some_firstClear _ hfound
  intro n
  simp
  omega

theorem pmmScan_none {pmm : Pmm} {start stop : Nat} (hstart : 1 ≤ start)
    (hnone : pmmScan pmm start stop = none) :
    ∀ frame, start ≤ frame → frame < stop → bitmapTest pmm frame = true := by
  apply WordBitmap.search_none_full _ hnone
  intro n
  simp
  omega

theorem frameToAddr_eq {frame : Nat} (hframe : frame < pmmMaxFrames) :
    frameToAddr frame = frame * pageSize := by
  apply u32_of_lt
  simp only [pmmMaxFrames, pageSize] at *
  omega

@[simp] theorem addrToFrame_mul (frame : Nat) :
    addrToFrame (frame * pageSize) = frame :=
  Nat.mul_div_cancel frame (by decide)

theorem addrToFrame_lt (physAddr : UInt32) :
    addrToFrame physAddr.toNat < pmmMaxFrames := by
  have hlt := physAddr.toNat_lt
  simp only [addrToFrame, pmmMaxFrames, pageSize]
  omega

/-- Whatever the search hint is, an allocation takes a free frame or leaves
the allocator as it was. -/
theorem pmmAllocFrame_inversion {pmm : Pmm} (hpos : 1 ≤ pmm.allocSearch)
    (hle : pmm.allocSearch ≤ pmmMaxFrames) :
    pmmAllocFrame pmm = (0, pmm) ∨
      ∃ frame, 1 ≤ frame ∧ frame < pmmMaxFrames ∧
        bitmapTest pmm frame = false ∧
        pmmAllocFrame pmm = (frame * pageSize, pmmTakeFrame pmm frame) := by
  unfold pmmAllocFrame
  by_cases htotal : pmm.totalFrames = 0
  · exact Or.inl (if_pos htotal)
  rw [if_neg htotal]
  cases hfirst : pmmScan pmm pmm.allocSearch pmmMaxFrames with
  | some frame =>
      have hclear := pmmScan_some hpos hfirst
      refine Or.inr ⟨frame, hpos.trans hclear.start_le, hclear.lt_stop,
        hclear.clear, ?_⟩
      simp only [frameToAddr_eq hclear.lt_stop]
  | none =>
      cases hsecond : pmmScan pmm 1 pmm.allocSearch with
      | some frame =>
          have hclear := pmmScan_some (Nat.le_refl 1) hsecond
          have hlt := Nat.lt_of_lt_of_le hclear.lt_stop hle
          refine Or.inr ⟨frame, hclear.start_le, hlt, hclear.clear, ?_⟩
          simp only [frameToAddr_eq hlt]
      | none => exact Or.inl rfl

/-- Everything an allocation can do in a state with a sound search hint: it
takes the lowest free frame, or there is none. -/
theorem pmmAllocFrame_cases {pmm : Pmm} (htotal : pmm.totalFrames ≠ 0)
    (hinv : PmmInv pmm) :
    (∃ frame, WordBitmap.FirstClear pmm.bitmap 0 pmmMaxFrames frame ∧
        pmmAllocFrame pmm = (frame * pageSize, pmmTakeFrame pmm frame)) ∨
      ((∀ frame < pmmMaxFrames, bitmapTest pmm frame = true) ∧
        pmmAllocFrame pmm = (0, pmm)) := by
  unfold pmmAllocFrame
  rw [if_neg htotal]
  cases hfirst : pmmScan pmm pmm.allocSearch pmmMaxFrames with
  | some frame =>
      have hclear := pmmScan_some hinv.search_pos hfirst
      refine Or.inl ⟨frame, ⟨Nat.zero_le _, hclear.lt_stop, hclear.clear, ?_⟩, ?_⟩
      · intro m _ hm
        rcases Nat.eq_zero_or_pos m with rfl | hpos
        · exact hinv.zero_used
        · rcases Nat.lt_or_ge m pmm.allocSearch with hlow | hhigh
          · exact hinv.below_search m hpos hlow
          · exact hclear.below m hhigh hm
      · simp only [frameToAddr_eq hclear.lt_stop]
  | none =>
      have habove := pmmScan_none hinv.search_pos hfirst
      cases hsecond : pmmScan pmm 1 pmm.allocSearch with
      | some frame =>
          have hclear := pmmScan_some (Nat.le_refl 1) hsecond
          have hused := hinv.below_search frame hclear.start_le hclear.lt_stop
          rw [bitmapTest, hclear.clear] at hused
          contradiction
      | none =>
          refine Or.inr ⟨?_, rfl⟩
          intro frame hframe
          rcases Nat.eq_zero_or_pos frame with rfl | hpos
          · exact hinv.zero_used
          · rcases Nat.lt_or_ge frame pmm.allocSearch with hlow | hhigh
            · exact hinv.below_search frame hpos hlow
            · exact habove frame hhigh hframe

theorem FirstClear_pos {pmm : Pmm} (hinv : PmmInv pmm) {frame : Nat}
    (hclear : WordBitmap.FirstClear pmm.bitmap 0 pmmMaxFrames frame) :
    1 ≤ frame := by
  rcases Nat.eq_zero_or_pos frame with rfl | hpos
  · have hzero := hinv.zero_used
    rw [bitmapTest, hclear.clear] at hzero
    contradiction
  · exact hpos

theorem pmmTakeFrame_search (pmm : Pmm) (frame : Nat) :
    1 ≤ (pmmTakeFrame pmm frame).allocSearch ∧
      (pmmTakeFrame pmm frame).allocSearch < pmmMaxFrames := by
  have hmax : 1 < pmmMaxFrames := by decide
  change 1 ≤ (if frame + 1 ≥ pmmMaxFrames then 1 else frame + 1) ∧
    (if frame + 1 ≥ pmmMaxFrames then 1 else frame + 1) < pmmMaxFrames
  split <;> omega

theorem pmmFreeFrame_search (pmm : Pmm) (physAddr : UInt32)
    (hpos : 1 ≤ pmm.allocSearch) (hlt : pmm.allocSearch < pmmMaxFrames) :
    1 ≤ (pmmFreeFrame pmm physAddr).allocSearch ∧
      (pmmFreeFrame pmm physAddr).allocSearch < pmmMaxFrames := by
  have hframe := addrToFrame_lt physAddr
  simp only [pmmFreeFrame]
  by_cases hzero : addrToFrame physAddr.toNat = 0
  · rw [if_pos hzero]
    exact ⟨hpos, hlt⟩
  · rw [if_neg hzero]
    by_cases hused : bitmapTest pmm (addrToFrame physAddr.toNat) = true
    · rw [if_pos hused]
      simp only
      split <;> omega
    · rw [if_neg hused]
      exact ⟨hpos, hlt⟩

theorem pmmTakeFrame_inv {pmm : Pmm} (hinv : PmmInv pmm) {frame : Nat}
    (hclear : WordBitmap.FirstClear pmm.bitmap 0 pmmMaxFrames frame) :
    PmmInv (pmmTakeFrame pmm frame) := by
  have hset : ∀ other, bitmapTest (pmmTakeFrame pmm frame) other =
      (decide (other = frame) || bitmapTest pmm other) :=
    fun other => WordBitmap.test_set pmm.bitmap frame other
  have hpop := WordBitmap.population_set hclear.lt_stop hclear.clear
  have hle := WordBitmap.population_le (WordBitmap.set pmm.bitmap frame)
    pmmMaxFrames
  refine ⟨?_, ?_, ?_, ?_, ?_⟩
  · change u32 (pmm.usedFrames + 1) = _
    rw [hinv.counted, ← hpop]
    apply u32_of_lt
    exact Nat.lt_of_le_of_lt hle (by decide)
  · simp [hset, hinv.zero_used]
  · exact (pmmTakeFrame_search pmm frame).1
  · exact (pmmTakeFrame_search pmm frame).2
  · intro other hpos hother
    change other < (if frame + 1 ≥ pmmMaxFrames then 1 else frame + 1) at hother
    rw [hset]
    rcases Nat.lt_or_ge other frame with hlow | hhigh
    · have hused := hclear.below other (Nat.zero_le _) hlow
      simp [bitmapTest, hused]
    · have heq : other = frame := by split at hother <;> omega
      simp [heq]

theorem pmmFreeFrame_inv {pmm : Pmm} (hinv : PmmInv pmm) (physAddr : UInt32) :
    PmmInv (pmmFreeFrame pmm physAddr) := by
  have hframe := addrToFrame_lt physAddr
  simp only [pmmFreeFrame]
  by_cases hzero : addrToFrame physAddr.toNat = 0
  · rw [if_pos hzero]
    exact hinv
  by_cases hused : bitmapTest pmm (addrToFrame physAddr.toNat) = true
  · rw [if_neg hzero, if_pos hused]
    have hclear : ∀ other, WordBitmap.test
        (WordBitmap.clear pmm.bitmap (addrToFrame physAddr.toNat)) other =
          (!decide (other = addrToFrame physAddr.toNat) && bitmapTest pmm other) :=
      fun other => WordBitmap.test_clear pmm.bitmap _ other
    have hpop := WordBitmap.population_clear hframe hused
    have hle := WordBitmap.population_le pmm.bitmap pmmMaxFrames
    have hmax : pmmMaxFrames < 2 ^ 32 := by decide
    refine ⟨?_, ?_, ?_, ?_, ?_⟩
    · change sub32 pmm.usedFrames 1 = _
      rw [hinv.counted, sub32_of_le (by omega) (by omega)]
      exact Nat.sub_eq_of_eq_add hpop.symm
    · change WordBitmap.test _ 0 = true
      rw [hclear, hinv.zero_used]
      simp [Ne.symm hzero]
    · have hpos := hinv.search_pos
      simp only
      split <;> omega
    · have hlt := hinv.search_lt
      simp only
      split <;> omega
    · intro other hpos hother
      change WordBitmap.test _ other = true
      simp only at hother
      have hne : other ≠ addrToFrame physAddr.toNat := by
        split at hother <;> omega
      have hbelow : other < pmm.allocSearch := by
        split at hother <;> omega
      rw [hclear, hinv.below_search other hpos hbelow]
      simp [hne]
  · rw [if_neg hzero, if_neg hused]
    exact hinv

/-- Marking frames inside the bitmap keeps the counter exact. -/
def Counted (pmm : Pmm) : Prop :=
  pmm.usedFrames = WordBitmap.population pmm.bitmap pmmMaxFrames

theorem reserveFrame_counted {pmm : Pmm} (hcounted : Counted pmm) {frame : Nat}
    (hframe : frame < pmmMaxFrames) : Counted (reserveFrame pmm frame) := by
  unfold reserveFrame
  split
  · exact hcounted
  · rename_i hfree
    have hpop := WordBitmap.population_set hframe (Bool.eq_false_iff.mpr hfree)
    have hle := WordBitmap.population_le (WordBitmap.set pmm.bitmap frame)
      pmmMaxFrames
    change u32 (pmm.usedFrames + 1) = _
    rw [hcounted, ← hpop]
    exact u32_of_lt (Nat.lt_of_le_of_lt hle (by decide))

theorem releaseFrame_counted {pmm : Pmm} (hcounted : Counted pmm) {frame : Nat}
    (hframe : frame < pmmMaxFrames) : Counted (releaseFrame pmm frame) := by
  unfold releaseFrame
  split
  · exact hcounted
  · split
    · rename_i hused
      have hpop := WordBitmap.population_clear hframe hused
      have hle := WordBitmap.population_le pmm.bitmap pmmMaxFrames
      have hmax : pmmMaxFrames < 2 ^ 32 := by decide
      change sub32 pmm.usedFrames 1 = _
      rw [hcounted, sub32_of_le (by omega) (by omega)]
      exact Nat.sub_eq_of_eq_add hpop.symm
    · exact hcounted

theorem foldl_counted {step : Pmm → Nat → Pmm}
    (hstep : ∀ {pmm : Pmm}, Counted pmm → ∀ {frame : Nat},
      frame < pmmMaxFrames → Counted (step pmm frame))
    {frames : List Nat} (hframes : ∀ frame ∈ frames, frame < pmmMaxFrames)
    {pmm : Pmm} (hcounted : Counted pmm) :
    Counted (frames.foldl step pmm) := by
  induction frames generalizing pmm with
  | nil => exact hcounted
  | cons frame rest ih =>
      rw [List.foldl_cons]
      apply ih
      · intro other hother
        exact hframes other (List.mem_cons_of_mem frame hother)
      · exact hstep hcounted (hframes frame List.mem_cons_self)

/-- A region below 4 GB only has frames that the bitmap holds. -/
theorem regionFrames_lt {base len : Nat} (htop : base + len ≤ 2 ^ 32) :
    ∀ frame ∈ regionFrames base len, frame < pmmMaxFrames := by
  intro frame hframe
  rw [mem_regionFrames] at hframe
  have hhigh := hframe.2
  simp only [pmmMaxFrames, pageSize] at *
  omega

/-- An entry that does not wrap is imported up to 4 GB at most. -/
theorem MmapEntry.clipped_top {entry : MmapEntry}
    (hlow : entry.addr.toNat < 0x100000000)
    (hwrap : entry.addr.toNat + entry.len.toNat < 2 ^ 64) :
    entry.addr.toNat + entry.clippedLen ≤ 2 ^ 32 := by
  have htop : entry.addr.toNat ≤ entry.top ∧ entry.top ≤ 2 ^ 32 := by
    simp only [MmapEntry.top, u64_of_lt hwrap]
    split <;> omega
  have hle : entry.clippedLen ≤ entry.top - entry.addr.toNat := by
    rw [MmapEntry.clippedLen, sub64_of_le htop.1 (by omega)]
    exact Nat.mod_le _ _
  omega

theorem foldl_pmmImportEntry_counted {entries : List MmapEntry}
    (hentries : ∀ entry ∈ entries,
      entry.addr.toNat + entry.len.toNat < 2 ^ 64)
    {pmm : Pmm} (hcounted : Counted pmm) :
    Counted (entries.foldl pmmImportEntry pmm) := by
  induction entries generalizing pmm with
  | nil => exact hcounted
  | cons entry rest ih =>
      rw [List.foldl_cons]
      apply ih
      · intro other hother
        exact hentries other (List.mem_cons_of_mem entry hother)
      · unfold pmmImportEntry
        split_ifs with htype haddr
        · have htop := MmapEntry.clipped_top haddr
            (hentries entry List.mem_cons_self)
          rw [u32_of_lt haddr, pmmMarkRegionAvailable_eq_foldl (by omega)
            entry.clippedLen_lt]
          exact foldl_counted releaseFrame_counted (regionFrames_lt htop)
            hcounted
        · exact hcounted
        · exact hcounted

theorem foldl_allocSearch {α : Type} {step : Pmm → α → Pmm}
    (hstep : ∀ pmm a, (step pmm a).allocSearch = pmm.allocSearch)
    (items : List α) (pmm : Pmm) :
    (items.foldl step pmm).allocSearch = pmm.allocSearch := by
  induction items generalizing pmm with
  | nil => rfl
  | cons item rest ih => rw [List.foldl_cons, ih, hstep]

theorem reserveFrame_allocSearch (pmm : Pmm) (frame : Nat) :
    (reserveFrame pmm frame).allocSearch = pmm.allocSearch := by
  unfold reserveFrame
  split <;> rfl

theorem releaseFrame_allocSearch (pmm : Pmm) (frame : Nat) :
    (releaseFrame pmm frame).allocSearch = pmm.allocSearch := by
  unfold releaseFrame
  split
  · rfl
  · split <;> rfl

theorem pmmMarkRegionAvailable_allocSearch (pmm : Pmm) (base len : Nat) :
    (pmmMarkRegionAvailable pmm base len).allocSearch = pmm.allocSearch := by
  simp only [pmmMarkRegionAvailable]
  split
  · rfl
  · exact foldl_allocSearch (fun pmm i => releaseFrame_allocSearch pmm _) _ pmm

theorem pmmMarkRegionReserved_allocSearch (pmm : Pmm) (base len : Nat) :
    (pmmMarkRegionReserved pmm base len).allocSearch = pmm.allocSearch := by
  simp only [pmmMarkRegionReserved]
  split
  · rfl
  · exact foldl_allocSearch (fun pmm i => reserveFrame_allocSearch pmm _) _ pmm

theorem pmmImportEntry_allocSearch (pmm : Pmm) (entry : MmapEntry) :
    (pmmImportEntry pmm entry).allocSearch = pmm.allocSearch := by
  unfold pmmImportEntry
  split_ifs
  · exact pmmMarkRegionAvailable_allocSearch pmm _ _
  · rfl
  · rfl

theorem pmmInit_allocSearch (pmm : Pmm) (mbi : MultibootInfo)
    (kernelPhysStart kernelPhysEnd : UInt32) :
    (pmmInit pmm mbi kernelPhysStart kernelPhysEnd).allocSearch =
      pmm.allocSearch := by
  rw [pmmInit, reserveFrame_allocSearch, pmmMarkRegionReserved_allocSearch,
    pmmImport]
  split_ifs
  · rfl
  · exact pmmMarkRegionAvailable_allocSearch _ _ _
  · exact foldl_allocSearch pmmImportEntry_allocSearch mbi.mmap _

/-- Boot establishes the invariant for every memory map that does not wrap. -/
theorem pmmInit_inv {mbi : MultibootInfo} {kernelPhysStart kernelPhysEnd : UInt32}
    (hmmap : mbi.flags &&& multibootFlagMmap ≠ 0)
    (hentries : ∀ entry ∈ mbi.mmap,
      entry.addr.toNat + entry.len.toNat < 2 ^ 64)
    (himage : kernelPhysStart ≤ kernelPhysEnd) :
    PmmInv (pmmInit Pmm.boot mbi kernelPhysStart kernelPhysEnd) := by
  have hsearch : (pmmInit Pmm.boot mbi kernelPhysStart
      kernelPhysEnd).allocSearch = 1 := pmmInit_allocSearch _ _ _ _
  refine ⟨?_, ?_, ?_, ?_, ?_⟩
  · have hstart := kernelPhysStart.toNat_lt
    have hend := kernelPhysEnd.toNat_lt
    have himage : kernelPhysStart.toNat ≤ kernelPhysEnd.toNat := himage
    have hdeny : Counted (pmmDenyAll Pmm.boot) :=
      (WordBitmap.population_full fun _ => bitmapTest_pmmDenyAll _).symm
    apply reserveFrame_counted _ (by decide)
    rw [sub32_of_le himage hend, pmmMarkRegionReserved_eq_foldl (by omega)
      (by omega), pmmImport, if_neg hmmap]
    apply foldl_counted reserveFrame_counted (regionFrames_lt (by omega))
    exact foldl_pmmImportEntry_counted hentries hdeny
  · rw [bitmapTest_pmmInit _ _ _ _ (by decide)]
    exact Or.inl rfl
  · rw [hsearch]
  · rw [hsearch]
    decide
  · intro frame hpos hlt
    omega

/-- What every call preserves: the invariant of the statics, and that the
frames the clients hold are marked used. -/
structure PmmSystem.Inv (sys : PmmSystem) : Prop where
  statics : PmmInv sys.pmm
  total : sys.pmm.totalFrames ≠ 0
  held : ∀ frame ∈ sys.outstanding, bitmapTest sys.pmm frame = true

theorem pmmFreeFrame_totalFrames (pmm : Pmm) (physAddr : UInt32) :
    (pmmFreeFrame pmm physAddr).totalFrames = pmm.totalFrames := by
  simp only [pmmFreeFrame]
  split
  · rfl
  · split <;> rfl

/-- Freeing an address leaves the bits of all other frames alone. -/
theorem bitmapTest_pmmFreeFrame {pmm : Pmm} {physAddr : UInt32} {frame : Nat}
    (hne : frame ≠ addrToFrame physAddr.toNat) :
    bitmapTest (pmmFreeFrame pmm physAddr) frame = bitmapTest pmm frame := by
  simp only [pmmFreeFrame]
  split
  · rfl
  · split
    · change WordBitmap.test (WordBitmap.clear pmm.bitmap _) frame = _
      rw [WordBitmap.test_clear]
      simp [hne, bitmapTest]
    · rfl

/-- A frame that was given back is clear, unless it is the first one. -/
theorem bitmapTest_pmmFreeFrame_self {pmm : Pmm} {physAddr : UInt32}
    (hne : addrToFrame physAddr.toNat ≠ 0) :
    bitmapTest (pmmFreeFrame pmm physAddr) (addrToFrame physAddr.toNat) =
      false := by
  simp only [pmmFreeFrame, if_neg hne]
  split
  · change WordBitmap.test (WordBitmap.clear pmm.bitmap _) _ = false
    rw [WordBitmap.test_clear]
    simp
  · rename_i hclear
    exact Bool.not_eq_true _ ▸ hclear

theorem bitmapTest_pmmTakeFrame (pmm : Pmm) (frame other : Nat) :
    bitmapTest (pmmTakeFrame pmm frame) other =
      (decide (other = frame) || bitmapTest pmm other) :=
  WordBitmap.test_set pmm.bitmap frame other

theorem PmmSystem.step_inv (sys : PmmSystem) (call : PmmCall)
    (next : PmmSystem) (hinv : sys.Inv) (hstep : sys.step call = some next) :
    next.Inv := by
  cases call with
  | allocFrame =>
      simp only [PmmSystem.step, Option.some.injEq] at hstep
      subst next
      rcases pmmAllocFrame_cases hinv.total hinv.statics with
        ⟨frame, hclear, hresult⟩ | ⟨_, hresult⟩
      · have hpos := FirstClear_pos hinv.statics hclear
        have hne : frame * pageSize ≠ 0 :=
          Nat.mul_ne_zero (by omega) (by decide)
        rw [hresult]
        refine ⟨pmmTakeFrame_inv hinv.statics hclear, hinv.total, ?_⟩
        intro other hother
        simp only [hne, ↓reduceIte, addrToFrame_mul, List.mem_cons] at hother
        simp only [bitmapTest_pmmTakeFrame, Bool.or_eq_true,
          decide_eq_true_eq]
        rcases hother with heq | hold
        · exact Or.inl heq
        · exact Or.inr (hinv.held other hold)
      · rw [hresult]
        exact hinv
  | freeFrame physAddr =>
      simp only [PmmSystem.step, Option.some.injEq] at hstep
      subst next
      refine ⟨pmmFreeFrame_inv hinv.statics physAddr, ?_, ?_⟩
      · rw [pmmFreeFrame_totalFrames]
        exact hinv.total
      · intro frame hframe
        simp only [List.mem_filter, decide_eq_true_eq] at hframe
        rw [bitmapTest_pmmFreeFrame hframe.2]
        exact hinv.held frame hframe.1

/-- On every run the invariant holds, and the next allocation returns the
lowest free frame, fails only when there is none, and never returns a frame
that a client still holds. -/
theorem pmm_run_allocates_lowest_free (mbi : MultibootInfo)
    (kernelPhysStart kernelPhysEnd : UInt32)
    (hmmap : mbi.flags &&& multibootFlagMmap ≠ 0)
    (hentries : ∀ entry ∈ mbi.mmap,
      entry.addr.toNat + entry.len.toNat < 2 ^ 64)
    (himage : kernelPhysStart ≤ kernelPhysEnd)
    (htotal : (pmmInit Pmm.boot mbi kernelPhysStart
      kernelPhysEnd).totalFrames ≠ 0)
    (calls : List PmmCall) (sys : PmmSystem)
    (hrun : Machine.exec PmmSystem.step
      ⟨pmmInit Pmm.boot mbi kernelPhysStart kernelPhysEnd, []⟩ calls =
        some sys) :
    PmmInv sys.pmm ∧
      (∀ frame, WordBitmap.FirstClear sys.pmm.bitmap 0 pmmMaxFrames frame →
        (pmmAllocFrame sys.pmm).1 = frame * pageSize) ∧
      ((pmmAllocFrame sys.pmm).1 = 0 ↔
        ∀ frame < pmmMaxFrames, bitmapTest sys.pmm frame = true) ∧
      ((pmmAllocFrame sys.pmm).1 ≠ 0 →
        addrToFrame (pmmAllocFrame sys.pmm).1 ∉ sys.outstanding) := by
  have hinit : PmmSystem.Inv
      ⟨pmmInit Pmm.boot mbi kernelPhysStart kernelPhysEnd, []⟩ :=
    ⟨pmmInit_inv hmmap hentries himage, htotal, by simp⟩
  have hinv := Machine.exec_invariant PmmSystem.step_inv hinit hrun
  refine ⟨hinv.statics, ?_⟩
  rcases pmmAllocFrame_cases hinv.total hinv.statics with
    ⟨lowest, hlowest, hresult⟩ | ⟨hfull, hresult⟩
  · have hpos := FirstClear_pos hinv.statics hlowest
    have hne : lowest * pageSize ≠ 0 := Nat.mul_ne_zero (by omega) (by decide)
    rw [hresult]
    refine ⟨?_, ?_, ?_⟩
    · intro frame hframe
      rw [hframe.unique hlowest]
    · constructor
      · intro hzero
        exact absurd hzero hne
      · intro hall
        have hused := hall lowest hlowest.lt_stop
        rw [bitmapTest, hlowest.clear] at hused
        contradiction
    · intro _ hmem
      have hused := hinv.held lowest (by simpa using hmem)
      rw [bitmapTest, hlowest.clear] at hused
      contradiction
  · rw [hresult]
    refine ⟨?_, ?_, ?_⟩
    · intro frame hframe
      have hused := hfull frame hframe.lt_stop
      rw [bitmapTest, hframe.clear] at hused
      contradiction
    · exact ⟨fun _ => hfull, fun _ => rfl⟩
    · intro hne
      exact absurd rfl hne

namespace PmmInvariantWitness

/-- Two free frames at 1 MB. -/
def mbi : MultibootInfo := ⟨0x40, 0, [⟨0x100000, 0x2000, 1⟩]⟩

def booted : Pmm := pmmInit Pmm.boot mbi 0x200000 0x201800

theorem booted_run :
    PmmInv (pmmAllocFrame booted).2 ∧
      ((pmmAllocFrame (pmmAllocFrame booted).2).1 ≠ 0 →
        addrToFrame (pmmAllocFrame (pmmAllocFrame booted).2).1 ∉ [256]) := by
  have hfirst : (pmmAllocFrame booted).1 = 0x100000 := by decide
  have hrun := pmm_run_allocates_lowest_free mbi 0x200000 0x201800
    (by decide) (by decide) (by decide) (by decide) [.allocFrame]
    ⟨(pmmAllocFrame booted).2, [256]⟩ (by
      simp only [Machine.exec, PmmSystem.step, Option.bind_some]
      change some (⟨(pmmAllocFrame booted).2, if (pmmAllocFrame booted).1 = 0 then []
        else [addrToFrame (pmmAllocFrame booted).1]⟩ : PmmSystem) = _
      rw [hfirst]
      rfl)
  exact ⟨hrun.1, hrun.2.2.2⟩

end PmmInvariantWitness

end Orion
