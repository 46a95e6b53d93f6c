/-
What region marking does to single frames.  Both directions of rounding are
inwards, so a region reaches exactly the frames that lie inside it; the boot
sequence is then a composition of such regions.
-/
import Orion.Pmm

namespace Orion

open MachineInt

/-- All bytes of the frame lie in `[base, base + len)`. -/
def RegionCovers (base len frame : Nat) : Prop :=
  base ≤ frame * pageSize ∧ (frame + 1) * pageSize ≤ base + len

instance (base len frame : Nat) : Decidable (RegionCovers base len frame) :=
  inferInstanceAs (Decidable (_ ∧ _))

@[simp] theorem bitmapTest_reserveFrame (pmm : Pmm) (frame other : Nat) :
    bitmapTest (reserveFrame pmm frame) other =
      (decide (other = frame) || bitmapTest pmm other) := by
  by_cases hused : bitmapTest pmm frame = true
  · by_cases heq : other = frame
    · subst other
      simp [reserveFrame, hused]
    · simp [reserveFrame, hused, heq]
  · rw [reserveFrame, if_neg hused]
    exact WordBitmap.test_set pmm.bitmap frame other

@[simp] theorem bitmapTest_releaseFrame (pmm : Pmm) (frame other : Nat) :
    bitmapTest (releaseFrame pmm frame) other =
      (bitmapTest pmm other && !(decide (other = frame) && decide (frame ≠ 0))) := by
  by_cases hzero : frame = 0
  · simp [releaseFrame, hzero]
  · by_cases hused : bitmapTest pmm frame = true
    · rw [releaseFrame, if_neg hzero, if_pos hused, bitmapTest,
        WordBitmap.test_clear, bitmapTest, Bool.and_comm]
      simp [hzero]
    · by_cases heq : other = frame
      · subst other
        simp [releaseFrame, hused]
      · simp [releaseFrame, hzero, hused, heq]

theorem bitmapTest_foldl_reserveFrame (pmm : Pmm) (frames : List Nat)
    (other : Nat) :
    bitmapTest (frames.foldl reserveFrame pmm) other =
      (decide (other ∈ frames) || bitmapTest pmm other) := by
  induction frames generalizing pmm with
  | nil => simp
  | cons frame rest ih =>
      rw [List.foldl_cons, ih, bitmapTest_reserveFrame]
      by_cases heq : other = frame <;> simp [heq]

theorem bitmapTest_foldl_releaseFrame (pmm : Pmm) (frames : List Nat)
    (other : Nat) :
    bitmapTest (frames.foldl releaseFrame pmm) other =
      (bitmapTest pmm other && !(decide (other ∈ frames) && decide (other ≠ 0))) := by
  induction frames generalizing pmm with
  | nil => simp
  | cons frame rest ih =>
      rw [List.foldl_cons, ih, bitmapTest_releaseFrame]
      by_cases heq : other = frame
      · subst other
        by_cases hzero : frame = 0 <;> simp [hzero]
      · simp [heq]

/-- The frames a region's loop visits. -/
def regionFrames (base len : Nat) : List Nat :=
  let first := (base + pageSize - 1) / pageSize
  List.range' first ((base + len) / pageSize - first)

theorem mem_regionFrames (base len frame : Nat) :
    frame ∈ regionFrames base len ↔ RegionCovers base len frame := by
  simp only [regionFrames, List.mem_range'_1, RegionCovers, pageSize]
  omega

section Regions

variable {base len : Nat}

theorem alignedBase_eq (hbase : base ≤ 2 ^ 32) :
    pageFloor (u64 (base + pageSize - 1)) =
      (base + pageSize - 1) / pageSize * pageSize := by
  have hlt : base + pageSize - 1 < 2 ^ 64 := by
    simp only [pageSize]
    omega
  rw [u64_of_lt hlt, pageFloor]

/-- The loop index runs over the frames of the region, without wrapping. -/
theorem map_loopIndex (hbase : base ≤ 2 ^ 32) (hlen : len < 2 ^ 43)
    (hinside : (base + pageSize - 1) / pageSize * pageSize ≤ base + len) :
    (List.range (u32 (pageFloor (sub64 len
        (sub64 ((base + pageSize - 1) / pageSize * pageSize) base)) /
          pageSize))).map
      (fun i =>
        u32 (u32 ((base + pageSize - 1) / pageSize * pageSize / pageSize) + i)) =
      regionFrames base len := by
  have hslack : sub64 ((base + pageSize - 1) / pageSize * pageSize) base =
      (base + pageSize - 1) / pageSize * pageSize - base := by
    apply sub64_of_le <;> simp only [pageSize] <;> omega
  have hrest : sub64 len ((base + pageSize - 1) / pageSize * pageSize - base) =
      base + len - (base + pageSize - 1) / pageSize * pageSize := by
    rw [sub64_of_le] <;> simp only [pageSize] at * <;> omega
  rw [hslack, hrest, pageFloor, regionFrames]
  have hfirst : u32 ((base + pageSize - 1) / pageSize * pageSize / pageSize) =
      (base + pageSize - 1) / pageSize := by
    rw [Nat.mul_div_cancel _ (by decide)]
    apply u32_of_lt
    simp only [pageSize]
    omega
  have hcount : u32 ((base + len - (base + pageSize - 1) / pageSize * pageSize) /
      pageSize * pageSize / pageSize) =
        (base + len) / pageSize - (base + pageSize - 1) / pageSize := by
    rw [Nat.mul_div_cancel _ (by decide), Nat.mul_comm, Nat.sub_mul_div]
    apply u32_of_lt
    simp only [pageSize]
    omega
  rw [hfirst, hcount, List.range'_eq_map_range]
  apply List.map_congr_left
  intro i hi
  rw [List.mem_range] at hi
  apply u32_of_lt
  simp only [pageSize] at *
  omega

theorem regionFrames_eq_nil
    (houtside : base + len ≤ (base + pageSize - 1) / pageSize * pageSize) :
    regionFrames base len = [] := by
  simp only [regionFrames, pageSize, List.range'_eq_nil_iff] at *
  omega

theorem pmmMarkRegionReserved_eq_foldl (hbase : base ≤ 2 ^ 32)
    (hlen : len < 2 ^ 43) (pmm : Pmm) :
    pmmMarkRegionReserved pmm base len =
      (regionFrames base len).foldl reserveFrame pmm := by
  have hsum : u64 (base + len) = base + len := u64_of_lt (by omega)
  simp only [pmmMarkRegionReserved, alignedBase_eq hbase, hsum]
  split_ifs with houtside
  · rw [regionFrames_eq_nil (by omega)]
    rfl
  · rw [← map_loopIndex hbase hlen (by omega), List.foldl_map]

theorem pmmMarkRegionAvailable_eq_foldl (hbase : base ≤ 2 ^ 32)
    (hlen : len < 2 ^ 43) (pmm : Pmm) :
    pmmMarkRegionAvailable pmm base len =
      (regionFrames base len).foldl releaseFrame pmm := by
  have hsum : u64 (base + len) = base + len := u64_of_lt (by omega)
  simp only [pmmMarkRegionAvailable, alignedBase_eq hbase, hsum]
  split_ifs with houtside
  · rw [regionFrames_eq_nil (by omega)]
    rfl
  · rw [← map_loopIndex hbase hlen (by omega), List.foldl_map]

theorem bitmapTest_pmmMarkRegionReserved (hbase : base ≤ 2 ^ 32)
    (hlen : len < 2 ^ 43) (pmm : Pmm) (frame : Nat) :
    bitmapTest (pmmMarkRegionReserved pmm base len) frame = true ↔
      RegionCovers base len frame ∨ bitmapTest pmm frame = true := by
  rw [pmmMarkRegionReserved_eq_foldl hbase hlen,
    bitmapTest_foldl_reserveFrame]
  simp [mem_regionFrames]

theorem bitmapTest_pmmMarkRegionAvailable (hbase : base ≤ 2 ^ 32)
    (hlen : len < 2 ^ 43) (pmm : Pmm) (frame : Nat) :
    bitmapTest (pmmMarkRegionAvailable pmm base len) frame = true ↔
      bitmapTest pmm frame = true ∧
        ¬ (frame ≠ 0 ∧ RegionCovers base len frame) := by
  rw [pmmMarkRegionAvailable_eq_foldl hbase hlen,
    bitmapTest_foldl_releaseFrame]
  simp [mem_regionFrames]
  tauto

end Regions

/-- The frame lies inside an available entry, as far as the entry is
imported. -/
def EntryFrees (entry : MmapEntry) (frame : Nat) : Prop :=
  entry.type = multibootMemoryAvailable ∧ entry.addr.toNat < 0x100000000 ∧
    RegionCovers entry.addr.toNat entry.clippedLen frame

/-- The boot information declares the frame to be free memory. -/
def MapFrees (mbi : MultibootInfo) (frame : Nat) : Prop :=
  frame ≠ 0 ∧
    if mbi.flags &&& multibootFlagMmap = 0 then
      mbi.flags &&& multibootFlagMem ≠ 0 ∧
        RegionCovers 0x100000 (mbi.memUpper.toNat * 1024) frame
    else ∃ entry ∈ mbi.mmap, EntryFrees entry frame

theorem MmapEntry.clippedLen_lt (entry : MmapEntry) :
    entry.clippedLen < 2 ^ 43 :=
  (u32_lt _).trans (by decide)

theorem bitmapTest_pmmImportEntry (pmm : Pmm) (entry : MmapEntry)
    (frame : Nat) :
    bitmapTest (pmmImportEntry pmm entry) frame = true ↔
      bitmapTest pmm frame = true ∧ ¬ (frame ≠ 0 ∧ EntryFrees entry frame) := by
  unfold pmmImportEntry EntryFrees
  by_cases htype : entry.type = multibootMemoryAvailable
  · by_cases haddr : entry.addr.toNat < 0x100000000
    · rw [if_pos htype, if_pos haddr, u32_of_lt haddr,
        bitmapTest_pmmMarkRegionAvailable (by omega) entry.clippedLen_lt]
      simp [htype, haddr]
    · simp [htype, haddr]
  · simp [htype]

theorem bitmapTest_foldl_pmmImportEntry (pmm : Pmm)
    (entries : List MmapEntry) (frame : Nat) :
    bitmapTest (entries.foldl pmmImportEntry pmm) frame = true ↔
      bitmapTest pmm frame = true ∧
        ¬ (frame ≠ 0 ∧ ∃ entry ∈ entries, EntryFrees entry frame) := by
  induction entries generalizing pmm with
  | nil => simp
  | cons entry rest ih =>
      rw [List.foldl_cons, ih, bitmapTest_pmmImportEntry]
      simp only [List.mem_cons, exists_eq_or_imp]
      rw [and_assoc, ← not_or, ← and_or_left]

theorem bitmapTest_pmmImport (pmm : Pmm) (mbi : MultibootInfo) (frame : Nat) :
    bitmapTest (pmmImport pmm mbi) frame = true ↔
      bitmapTest pmm frame = true ∧ ¬ MapFrees mbi frame := by
  have hlen : mbi.memUpper.toNat * 1024 < 2 ^ 43 := by
    have hupper := mbi.memUpper.toNat_lt
    omega
  unfold pmmImport MapFrees
  by_cases hmmap : mbi.flags &&& multibootFlagMmap = 0
  · by_cases hmem : mbi.flags &&& multibootFlagMem = 0
    · simp [hmmap, hmem]
    · rw [if_pos hmmap, if_neg hmem, u64_of_lt (by omega),
        bitmapTest_pmmMarkRegionAvailable (by decide) hlen]
      simp [hmmap, hmem]
  · rw [if_neg hmmap, bitmapTest_foldl_pmmImportEntry]
    simp [hmmap]

theorem bitmapTest_pmmDenyAll (pmm : Pmm) {frame : Nat}
    (hframe : frame < pmmMaxFrames) :
    bitmapTest (pmmDenyAll pmm) frame = true := by
  apply WordBitmap.test_of_word_full
  have hword : frame / 32 < pmmBitmapSize := by
    simp only [pmmBitmapSize, pmmMaxFrames, pageSize] at *
    omega
  simp [pmmDenyAll, hword]

/-- After boot a frame is used exactly when it is frame zero, lies inside the
kernel image, or was never declared free. -/
theorem bitmapTest_pmmInit (pmm : Pmm) (mbi : MultibootInfo)
    (kernelPhysStart kernelPhysEnd : UInt32) {frame : Nat}
    (hframe : frame < pmmMaxFrames) :
    bitmapTest (pmmInit pmm mbi kernelPhysStart kernelPhysEnd) frame = true ↔
      frame = 0 ∨
        RegionCovers kernelPhysStart.toNat
          (sub32 kernelPhysEnd.toNat kernelPhysStart.toNat) frame ∨
        ¬ MapFrees mbi frame := by
  have hstart := kernelPhysStart.toNat_lt
  have hlen : sub32 kernelPhysEnd.toNat kernelPhysStart.toNat < 2 ^ 43 :=
    (u32_lt _).trans (by decide)
  rw [pmmInit, bitmapTest_reserveFrame, Bool.or_eq_true, decide_eq_true_eq,
    bitmapTest_pmmMarkRegionReserved (by omega) hlen, bitmapTest_pmmImport]
  simp [bitmapTest_pmmDenyAll pmm hframe]

end Orion
