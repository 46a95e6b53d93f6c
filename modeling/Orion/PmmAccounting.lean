/-
Counting frames.  `pmm_get_free_frames` subtracts a counter that starts from
all frames of the address space from one that starts from none, so it is off
in every state by the frames that boot never made available.
-/
import Orion.PmmBoot

namespace Orion

open MachineInt

def pmmGetFreeFrames (pmm : Pmm) : Nat := sub32 pmm.totalFrames pmm.usedFrames

/-- The number of clear bits of the bitmap. -/
def clearFrames (pmm : Pmm) : Nat :=
  ((Finset.range pmmMaxFrames).filter fun frame =>
    bitmapTest pmm frame = false).card

/-- How many of the next `n` allocations succeed. -/
def pmmSuccesses (pmm : Pmm) : Nat → Nat
  | 0 => 0
  | n + 1 =>
      let result := pmmAllocFrame pmm
      (if result.1 = 0 then 0 else 1) + pmmSuccesses result.2 n

theorem population_add_clearFrames (pmm : Pmm) :
    WordBitmap.population pmm.bitmap pmmMaxFrames + clearFrames pmm =
      pmmMaxFrames := by
  have hsplit := Finset.card_filter_add_card_filter_not
    (s := Finset.range pmmMaxFrames) fun frame => bitmapTest pmm frame = true
  simp only [Bool.not_eq_true, Finset.card_range] at hsplit
  exact hsplit

theorem clearFrames_eq_zero_iff (pmm : Pmm) :
    clearFrames pmm = 0 ↔
      ∀ frame < pmmMaxFrames, bitmapTest pmm frame = true := by
  simp [clearFrames, Finset.filter_eq_empty_iff]

theorem clearFrames_pmmTakeFrame {pmm : Pmm} {frame : Nat}
    (hframe : frame < pmmMaxFrames) (hclear : bitmapTest pmm frame = false) :
    clearFrames (pmmTakeFrame pmm frame) + 1 = clearFrames pmm := by
  have hpop : WordBitmap.population (pmmTakeFrame pmm frame).bitmap
      pmmMaxFrames = WordBitmap.population pmm.bitmap pmmMaxFrames + 1 :=
    WordBitmap.population_set hframe hclear
  have hbefore := population_add_clearFrames pmm
  have hafter := population_add_clearFrames (pmmTakeFrame pmm frame)
  omega

/-- What the search of an allocation relies on. -/
structure Searchable (pmm : Pmm) : Prop where
  zero_used : bitmapTest pmm 0 = true
  search_pos : 1 ≤ pmm.allocSearch
  search_lt : pmm.allocSearch < pmmMaxFrames
  idle : pmm.totalFrames = 0 →
    ∀ frame < pmmMaxFrames, bitmapTest pmm frame = true

theorem frameToAddr_ne_zero {frame : Nat} (hpos : 1 ≤ frame)
    (hframe : frame < pmmMaxFrames) : frameToAddr frame ≠ 0 := by
  rw [frameToAddr_eq hframe]
  exact Nat.mul_ne_zero (by omega) (by decide)

/-- The two passes together see every frame. -/
theorem pmmAllocFrame_full {pmm : Pmm} (hready : Searchable pmm)
    (hfail : (pmmAllocFrame pmm).1 = 0) :
    ∀ frame < pmmMaxFrames, bitmapTest pmm frame = true := by
  by_cases htotal : pmm.totalFrames = 0
  · exact hready.idle htotal
  rw [pmmAllocFrame, if_neg htotal] at hfail
  cases hfirst : pmmScan pmm pmm.allocSearch pmmMaxFrames with
  | some frame =>
      have hclear := pmmScan_some hready.search_pos hfirst
      simp only [hfirst] at hfail
      exact absurd hfail (frameToAddr_ne_zero
        (hready.search_pos.trans hclear.start_le) hclear.lt_stop)
  | none =>
      cases hsecond : pmmScan pmm 1 pmm.allocSearch with
      | some frame =>
          have hclear := pmmScan_some (Nat.le_refl 1) hsecond
          simp only [hfirst, hsecond] at hfail
          exact absurd hfail (frameToAddr_ne_zero hclear.start_le
            (hclear.lt_stop.trans hready.search_lt))
      | none =>
          intro frame hframe
          rcases Nat.eq_zero_or_pos frame with rfl | hpos
          · exact hready.zero_used
          · rcases Nat.lt_or_ge frame pmm.allocSearch with hlow | hhigh
            · exact pmmScan_none (Nat.le_refl 1) hsecond frame hpos hlow
            · exact pmmScan_none hready.search_pos hfirst frame hhigh hframe

theorem pmmTakeFrame_searchable {pmm : Pmm} (hready : Searchable pmm)
    (frame : Nat) : Searchable (pmmTakeFrame pmm frame) := by
  obtain ⟨hpos, hlt⟩ := pmmTakeFrame_search pmm frame
  refine ⟨?_, hpos, hlt, fun htotal other hother => ?_⟩
  · rw [bitmapTest_pmmTakeFrame, hready.zero_used, Bool.or_true]
  · rw [bitmapTest_pmmTakeFrame, hready.idle htotal other hother, Bool.or_true]

/-- An allocation takes one of the clear frames, or there is none. -/
theorem pmmAllocFrame_counts {pmm : Pmm} (hready : Searchable pmm) :
    (clearFrames pmm = 0 ∧ pmmAllocFrame pmm = (0, pmm)) ∨
      ∃ frame pmm', pmmAllocFrame pmm = (frame, pmm') ∧ frame ≠ 0 ∧
        Searchable pmm' ∧ clearFrames pmm' + 1 = clearFrames pmm := by
  rcases pmmAllocFrame_inversion hready.search_pos
      (Nat.le_of_lt hready.search_lt) with
    hfail | ⟨frame, hpos, hframe, hclear, hresult⟩
  · have hfull := pmmAllocFrame_full hready (by rw [hfail])
    exact .inl ⟨(clearFrames_eq_zero_iff pmm).mpr hfull, hfail⟩
  · exact .inr ⟨_, _, hresult, Nat.mul_ne_zero (by omega) (by decide),
      pmmTakeFrame_searchable hready frame,
      clearFrames_pmmTakeFrame hframe hclear⟩

theorem pmmAllocFrame_searchable {pmm : Pmm} (hready : Searchable pmm) :
    Searchable (pmmAllocFrame pmm).2 := by
  rcases pmmAllocFrame_counts hready with
    ⟨-, hfail⟩ | ⟨_, _, hresult, -, hready', -⟩
  · rw [hfail]
    exact hready
  · rw [hresult]
    exact hready'

/-- Allocations succeed as long as there are clear bits. -/
theorem pmmSuccesses_eq {pmm : Pmm} (hready : Searchable pmm) (n : Nat) :
    pmmSuccesses pmm n = min n (clearFrames pmm) := by
  induction n generalizing pmm with
  | zero => rw [pmmSuccesses, Nat.zero_min]
  | succ n ih =>
      simp only [pmmSuccesses]
      rcases pmmAllocFrame_counts hready with
        ⟨hnone, hfail⟩ | ⟨frame, pmm', hresult, hne, hready', hcount⟩
      · rw [hfail, if_pos rfl, ih hready, hnone]
        omega
      · rw [hresult, if_neg hne, ih hready']
        omega

/-- The counters while boot imports the memory map.  Bits past the bitmap are
clear, so that releasing them counts nothing. -/
structure Importing (pmm : Pmm) : Prop where
  counted : Counted pmm
  total : pmm.totalFrames + WordBitmap.population pmm.bitmap pmmMaxFrames =
    pmmMaxFrames
  zero_used : bitmapTest pmm 0 = true
  past : ∀ frame, pmmMaxFrames ≤ frame → bitmapTest pmm frame = false

theorem releaseFrame_importing {pmm : Pmm} (himport : Importing pmm)
    (frame : Nat) : Importing (releaseFrame pmm frame) := by
  have hzero : bitmapTest (releaseFrame pmm frame) 0 = true := by
    rw [bitmapTest_releaseFrame, himport.zero_used]
    simp [eq_comm]
  have hpast : ∀ other, pmmMaxFrames ≤ other →
      bitmapTest (releaseFrame pmm frame) other = false := by
    intro other hother
    rw [bitmapTest_releaseFrame, himport.past other hother, Bool.false_and]
  by_cases hmarked : frame ≠ 0 ∧ bitmapTest pmm frame = true
  · obtain ⟨hne, hused⟩ := hmarked
    have hframe : frame < pmmMaxFrames := by
      by_contra hover
      rw [himport.past frame (by omega)] at hused
      contradiction
    refine ⟨releaseFrame_counted himport.counted hframe, ?_, hzero, hpast⟩
    have hpop := WordBitmap.population_clear hframe hused
    have htotal := himport.total
    have hmax : pmmMaxFrames < 2 ^ 32 := by decide
    rw [releaseFrame, if_neg hne, if_pos hused]
    change u32 (pmm.totalFrames + 1) +
      WordBitmap.population (WordBitmap.clear pmm.bitmap frame) _ = _
    rw [u32_of_lt (by omega)]
    omega
  · have hsame : releaseFrame pmm frame = pmm := by
      unfold releaseFrame
      split
      · rfl
      · rename_i hne
        exact if_neg fun hused => hmarked ⟨hne, hused⟩
    exact hsame.symm ▸ himport

theorem pmmDenyAll_importing : Importing (pmmDenyAll Pmm.boot) := by
  have hlow : ∀ frame < pmmMaxFrames,
      bitmapTest (pmmDenyAll Pmm.boot) frame = true :=
    fun _ => bitmapTest_pmmDenyAll _
  refine ⟨(WordBitmap.population_full hlow).symm, ?_, hlow 0 (by decide), ?_⟩
  · rw [WordBitmap.population_full hlow]
    rfl
  · intro frame hframe
    have hword : ¬ frame / 32 < pmmBitmapSize := by
      simp only [pmmBitmapSize, pmmMaxFrames, pageSize] at *
      omega
    rw [bitmapTest, WordBitmap.test_eq_getLsbD, pmmDenyAll]
    simp [hword, Pmm.boot]

theorem foldl_releaseFrame_importing {pmm : Pmm} (himport : Importing pmm)
    (frames : List Nat) : Importing (frames.foldl releaseFrame pmm) := by
  induction frames generalizing pmm with
  | nil => exact himport
  | cons frame frames ih => exact ih (releaseFrame_importing himport frame)

/-- The counters after the import: the used counter agrees with the bits, and
the total one never reaches the number of frames. -/
structure Accounted (pmm : Pmm) : Prop where
  used : pmm.usedFrames = WordBitmap.population pmm.bitmap (2 * pmmMaxFrames)
  total_lt : pmm.totalFrames < pmmMaxFrames

theorem Importing.accounted {pmm : Pmm} (himport : Importing pmm) :
    Accounted pmm := by
  have hpos : 0 < WordBitmap.population pmm.bitmap pmmMaxFrames :=
    WordBitmap.population_pos (by decide) himport.zero_used
  have htotal := himport.total
  refine ⟨himport.counted.trans ?_, by omega⟩
  exact (WordBitmap.population_of_clear_above (by omega) himport.past).symm

theorem Importing.idle {pmm : Pmm} (himport : Importing pmm)
    (hnone : pmm.totalFrames = 0) :
    ∀ frame < pmmMaxFrames, bitmapTest pmm frame = true := by
  have htotal := himport.total
  have hsplit := population_add_clearFrames pmm
  exact (clearFrames_eq_zero_iff pmm).mp (by omega)

/-- Setting a clear bit and counting it. -/
theorem Accounted.set {pmm next : Pmm} (haccounted : Accounted pmm)
    {frame : Nat} (hframe : frame < 2 * pmmMaxFrames)
    (hclear : bitmapTest pmm frame = false)
    (hbitmap : next.bitmap = WordBitmap.set pmm.bitmap frame)
    (hused : next.usedFrames = u32 (pmm.usedFrames + 1))
    (htotal : next.totalFrames = pmm.totalFrames) : Accounted next := by
  have hpop := WordBitmap.population_set hframe hclear
  have hle := WordBitmap.population_le (WordBitmap.set pmm.bitmap frame)
    (2 * pmmMaxFrames)
  refine ⟨?_, htotal ▸ haccounted.total_lt⟩
  rw [hused, hbitmap, haccounted.used, ← hpop]
  exact u32_of_lt (Nat.lt_of_le_of_lt hle (by decide))

theorem reserveFrame_accounted {pmm : Pmm} (haccounted : Accounted pmm)
    {frame : Nat} (hframe : frame < 2 * pmmMaxFrames) :
    Accounted (reserveFrame pmm frame) := by
  unfold reserveFrame
  split
  · exact haccounted
  · rename_i hfree
    exact haccounted.set hframe (Bool.eq_false_iff.mpr hfree) rfl rfl rfl

theorem pmmFreeFrame_accounted {pmm : Pmm} (haccounted : Accounted pmm)
    (physAddr : UInt32) : Accounted (pmmFreeFrame pmm physAddr) := by
  refine ⟨?_, (pmmFreeFrame_totalFrames pmm physAddr).symm ▸
    haccounted.total_lt⟩
  have hframe := addrToFrame_lt physAddr
  simp only [pmmFreeFrame]
  split
  · exact haccounted.used
  · split
    · rename_i hused
      have hpop := WordBitmap.population_clear
        (show addrToFrame physAddr.toNat < 2 * pmmMaxFrames by omega) hused
      have hle := WordBitmap.population_le pmm.bitmap (2 * pmmMaxFrames)
      have hmax : 2 * pmmMaxFrames < 2 ^ 32 := by decide
      change sub32 pmm.usedFrames 1 = _
      rw [haccounted.used, sub32_of_le (by omega) (by omega)]
      exact Nat.sub_eq_of_eq_add hpop.symm
    · exact haccounted.used

theorem foldl_reserveFrame_accounted {pmm : Pmm} (haccounted : Accounted pmm)
    {frames : List Nat} (hframes : ∀ frame ∈ frames, frame < 2 * pmmMaxFrames) :
    Accounted (frames.foldl reserveFrame pmm) := by
  induction frames generalizing pmm with
  | nil => exact haccounted
  | cons frame frames ih =>
      exact ih (reserveFrame_accounted haccounted (hframes frame
        List.mem_cons_self)) fun other hother =>
          hframes other (List.mem_cons_of_mem frame hother)

/-- Even an image whose bounds are swapped ends below 8 GB. -/
theorem imageIndices_lt (kernelPhysStart kernelPhysEnd : UInt32) :
    ∀ frame ∈ reservedIndices kernelPhysStart.toNat
        (sub32 kernelPhysEnd.toNat kernelPhysStart.toNat),
      frame < 2 * pmmMaxFrames := by
  intro frame hframe
  have hstart := kernelPhysStart.toNat_lt
  have hlen : sub32 kernelPhysEnd.toNat kernelPhysStart.toNat < 2 ^ 32 :=
    u32_lt _
  rw [reservedIndices_eq (by omega) (by omega), mem_regionFrames] at hframe
  have hhigh := hframe.2
  simp only [pmmMaxFrames, pageSize] at *
  omega

theorem pmmInit_accounted (mbi : MultibootInfo)
    (kernelPhysStart kernelPhysEnd : UInt32) :
    Accounted (pmmInit Pmm.boot mbi kernelPhysStart kernelPhysEnd) := by
  rw [pmmInit_eq_indices]
  apply foldl_reserveFrame_accounted
    (foldl_releaseFrame_importing pmmDenyAll_importing _).accounted
  intro frame hframe
  rcases List.mem_append.mp hframe with himage | hzero
  · exact imageIndices_lt kernelPhysStart kernelPhysEnd frame himage
  · rw [List.mem_singleton.mp hzero]
    decide

/-- The two counters start too far apart to meet at the number of clear
bits. -/
theorem Accounted.getFreeFrames_ne {pmm : Pmm} (haccounted : Accounted pmm) :
    pmmGetFreeFrames pmm ≠ clearFrames pmm := by
  have hsplit := population_add_clearFrames pmm
  have hmono := WordBitmap.population_mono pmm.bitmap
    (show pmmMaxFrames ≤ 2 * pmmMaxFrames by omega)
  have hle := WordBitmap.population_le pmm.bitmap (2 * pmmMaxFrames)
  have hmax : pmmMaxFrames = 2 ^ 20 := by decide
  have htotal := haccounted.total_lt
  rw [pmmGetFreeFrames, haccounted.used, sub32, u32]
  omega

theorem foldl_reserveFrame_totalFrames (frames : List Nat) (pmm : Pmm) :
    (frames.foldl reserveFrame pmm).totalFrames = pmm.totalFrames := by
  induction frames generalizing pmm with
  | nil => rfl
  | cons frame frames ih =>
      rw [List.foldl_cons, ih, reserveFrame]
      split <;> rfl

theorem pmmInit_searchable (mbi : MultibootInfo)
    (kernelPhysStart kernelPhysEnd : UInt32) :
    Searchable (pmmInit Pmm.boot mbi kernelPhysStart kernelPhysEnd) := by
  have hsearch := pmmInit_allocSearch Pmm.boot mbi kernelPhysStart kernelPhysEnd
  refine ⟨?_, ?_, ?_, fun htotal => ?_⟩
  · rw [bitmapTest_pmmInit _ _ _ _ (by decide)]
    exact Or.inl rfl
  · rw [hsearch]
    decide
  · rw [hsearch]
    decide
  · rw [pmmInit_eq_indices, foldl_reserveFrame_totalFrames] at htotal
    have himport := foldl_releaseFrame_importing pmmDenyAll_importing
      (importIndices mbi)
    intro frame hframe
    rw [pmmInit_eq_indices, bitmapTest_foldl_reserveFrame,
      himport.idle htotal frame hframe, Bool.or_true]

/-- What every call preserves; no frame is held if boot found none. -/
structure PmmSystem.Tallied (sys : PmmSystem) : Prop where
  accounted : Accounted sys.pmm
  searchable : Searchable sys.pmm
  idle : sys.pmm.totalFrames = 0 → sys.outstanding = []

theorem pmmFreeFrame_searchable {pmm : Pmm} (hready : Searchable pmm)
    (physAddr : UInt32) (htotal : pmm.totalFrames ≠ 0) :
    Searchable (pmmFreeFrame pmm physAddr) := by
  obtain ⟨hpos, hlt⟩ := pmmFreeFrame_search pmm physAddr hready.search_pos
    hready.search_lt
  refine ⟨?_, hpos, hlt, fun hzero => ?_⟩
  · by_cases hframe : addrToFrame physAddr.toNat = 0
    · simp only [pmmFreeFrame, if_pos hframe]
      exact hready.zero_used
    · rw [bitmapTest_pmmFreeFrame (Ne.symm hframe)]
      exact hready.zero_used
  · rw [pmmFreeFrame_totalFrames] at hzero
    exact absurd hzero htotal

theorem PmmSystem.Tallied.step {sys next : PmmSystem} {call : PmmCall}
    (htallied : sys.Tallied)
    (hstep : Machine.guarded freesHeld PmmSystem.step sys call = some next) :
    next.Tallied := by
  obtain ⟨hguard, hstep⟩ := Machine.guarded_eq_some.mp hstep
  obtain ⟨haccounted, hready, hidle⟩ := htallied
  cases call with
  | allocFrame =>
      simp only [PmmSystem.step, Option.some.injEq] at hstep
      subst next
      rcases pmmAllocFrame_inversion hready.search_pos
          (Nat.le_of_lt hready.search_lt) with
        hfail | ⟨frame, hpos, hframe, hclear, hresult⟩
      · rw [hfail]
        exact ⟨haccounted, hready, hidle⟩
      · rw [hresult]
        refine ⟨haccounted.set (by omega) hclear rfl rfl rfl,
          pmmTakeFrame_searchable hready frame, fun htotal => ?_⟩
        -- with nothing available there is no clear bit to take
        have hused := hready.idle htotal frame hframe
        rw [hclear] at hused
        contradiction
  | freeFrame physAddr =>
      simp only [PmmSystem.step, Option.some.injEq] at hstep
      subst next
      have htotal : sys.pmm.totalFrames ≠ 0 := by
        intro hzero
        have hheld := of_decide_eq_true hguard
        rw [hidle hzero] at hheld
        contradiction
      refine ⟨pmmFreeFrame_accounted haccounted physAddr,
        pmmFreeFrame_searchable hready physAddr htotal, fun hzero => ?_⟩
      rw [pmmFreeFrame_totalFrames] at hzero
      exact absurd hzero htotal

/-- In no reachable state does the free counter tell how many allocations
would still succeed; the clear bits do. -/
theorem pmmGetFreeFrames_never_free (mbi : MultibootInfo)
    (kernelPhysStart kernelPhysEnd : UInt32) (calls : List PmmCall)
    (sys : PmmSystem)
    (hrun : Machine.exec (Machine.guarded freesHeld PmmSystem.step)
      ⟨pmmInit Pmm.boot mbi kernelPhysStart kernelPhysEnd, []⟩ calls =
        some sys) :
    (∀ n, pmmSuccesses sys.pmm n = min n (clearFrames sys.pmm)) ∧
      pmmGetFreeFrames sys.pmm ≠ clearFrames sys.pmm := by
  have hinit : PmmSystem.Tallied
      ⟨pmmInit Pmm.boot mbi kernelPhysStart kernelPhysEnd, []⟩ :=
    ⟨pmmInit_accounted mbi kernelPhysStart kernelPhysEnd,
      pmmInit_searchable mbi kernelPhysStart kernelPhysEnd, fun _ => rfl⟩
  have htallied := Machine.exec_invariant
    (fun _ _ _ hinv hstep => PmmSystem.Tallied.step hinv hstep) hinit hrun
  exact ⟨pmmSuccesses_eq htallied.searchable,
    htallied.accounted.getFreeFrames_ne⟩

namespace PmmAccountingWitness

open PmmInvariantWitness (mbi booted)

theorem booted_never_free :
    Machine.exec (Machine.guarded freesHeld PmmSystem.step) ⟨booted, []⟩ [] =
        some ⟨booted, []⟩ ∧
      pmmGetFreeFrames booted ≠ clearFrames booted := by
  have hrun : Machine.exec (Machine.guarded freesHeld PmmSystem.step)
      ⟨booted, []⟩ [] = some ⟨booted, []⟩ := Machine.exec_nil _ _
  have hnever := pmmGetFreeFrames_never_free mbi 0x200000 0x201800 []
    ⟨booted, []⟩ hrun
  dsimp only at hnever
  exact ⟨hrun, hnever.2⟩

/-- Two frames can be allocated; the counter reports almost `2 ^ 32`. -/
theorem booted_free_counter :
    clearFrames booted = 2 ∧ pmmGetFreeFrames booted = 0xFFF00004 := by
  have hcounted : PmmInv booted := pmmInit_inv (by decide) (by decide) (by decide)
  have hused : booted.usedFrames = pmmMaxFrames - 2 := by decide
  have hsplit := population_add_clearFrames booted
  have hmax : pmmMaxFrames = 2 ^ 20 := by decide
  rw [← hcounted.counted, hused] at hsplit
  exact ⟨by omega, by decide⟩

end PmmAccountingWitness

end Orion
