/-
Booting the physical memory manager, frame by frame.  `pmm_init` is a script
of single-frame marks; the script shows which bits it reads and writes, and
the bitmap it leaves behind shows which entries of the memory map arrive.
-/
import Orion.PmmKernelImage

namespace Orion

open MachineInt

/-- One iteration of one of the two marking loops. -/
inductive FrameMark where
  | reserve (frame : Nat)
  | release (frame : Nat)

/-- The frame numbers the iteration passes to `bitmap_test`, `bitmap_set` and
`bitmap_clear`. -/
def FrameMark.accesses : FrameMark → List Nat
  | .reserve frame => [frame]
  | .release frame => if frame = 0 then [] else [frame]

/-- The values `frame + i` of the loop in `pmm_mark_region_reserved`. -/
def reservedIndices (base len : Nat) : List Nat :=
  let alignedBase := pageFloor (u64 (base + pageSize - 1))
  if alignedBase > u64 (base + len) then []
  else
    let alignedLen := pageFloor (sub64 len (sub64 alignedBase base))
    let frame := u32 (alignedBase / pageSize)
    let count := u32 (alignedLen / pageSize)
    (List.range count).map fun i => u32 (frame + i)

/-- The values `frame + i` of the loop in `pmm_mark_region_available`. -/
def availableIndices (base len : Nat) : List Nat :=
  let alignedBase := pageFloor (u64 (base + pageSize - 1))
  if alignedBase ≥ u64 (base + len) then []
  else
    let alignedLen := pageFloor (sub64 len (sub64 alignedBase base))
    let frame := u32 (alignedBase / pageSize)
    let count := u32 (alignedLen / pageSize)
    (List.range count).map fun i => u32 (frame + i)

/-- What `pmm_init` makes available because of one entry. -/
def entryIndices (entry : MmapEntry) : List Nat :=
  if entry.type = multibootMemoryAvailable then
    if entry.addr.toNat < 0x100000000 then
      availableIndices (u32 entry.addr.toNat) entry.clippedLen
    else []
  else []

def importIndices (mbi : MultibootInfo) : List Nat :=
  if mbi.flags &&& multibootFlagMmap = 0 then
    if mbi.flags &&& multibootFlagMem = 0 then []
    else availableIndices 0x100000 (u64 (mbi.memUpper.toNat * 1024))
  else mbi.mmap.flatMap entryIndices

/-- Every mark of `pmm_init`, in the order in which it is made. -/
def pmmInitMarks (mbi : MultibootInfo)
    (kernelPhysStart kernelPhysEnd : UInt32) : List FrameMark :=
  (importIndices mbi).map .release ++
    (reservedIndices kernelPhysStart.toNat
      (sub32 kernelPhysEnd.toNat kernelPhysStart.toNat)).map .reserve ++
    [.reserve 0]

/-- The frame numbers passed to the bitmap functions during `pmm_init`. -/
def pmmInitAccesses (mbi : MultibootInfo)
    (kernelPhysStart kernelPhysEnd : UInt32) : List Nat :=
  (pmmInitMarks mbi kernelPhysStart kernelPhysEnd).flatMap FrameMark.accesses

theorem pmmMarkRegionReserved_eq_indices (pmm : Pmm) (base len : Nat) :
    pmmMarkRegionReserved pmm base len =
      (reservedIndices base len).foldl reserveFrame pmm := by
  simp only [pmmMarkRegionReserved, reservedIndices]
  split
  · rfl
  · rw [List.foldl_map]

theorem pmmMarkRegionAvailable_eq_indices (pmm : Pmm) (base len : Nat) :
    pmmMarkRegionAvailable pmm base len =
      (availableIndices base len).foldl releaseFrame pmm := by
  simp only [pmmMarkRegionAvailable, availableIndices]
  split
  · rfl
  · rw [List.foldl_map]

theorem pmmImportEntry_eq_indices (pmm : Pmm) (entry : MmapEntry) :
    pmmImportEntry pmm entry =
      (entryIndices entry).foldl releaseFrame pmm := by
  unfold pmmImportEntry entryIndices
  split_ifs
  · exact pmmMarkRegionAvailable_eq_indices pmm _ _
  · rfl
  · rfl

theorem pmmImport_eq_indices (pmm : Pmm) (mbi : MultibootInfo) :
    pmmImport pmm mbi = (importIndices mbi).foldl releaseFrame pmm := by
  unfold pmmImport importIndices
  split_ifs
  · rfl
  · exact pmmMarkRegionAvailable_eq_indices pmm _ _
  · rw [List.foldl_flatMap]
    congr
    funext pmm entry
    exact pmmImportEntry_eq_indices pmm entry

/-- Boot releases what the map declares, then reserves the image and frame
zero. -/
theorem pmmInit_eq_indices (pmm : Pmm) (mbi : MultibootInfo)
    (kernelPhysStart kernelPhysEnd : UInt32) :
    pmmInit pmm mbi kernelPhysStart kernelPhysEnd =
      (reservedIndices kernelPhysStart.toNat
          (sub32 kernelPhysEnd.toNat kernelPhysStart.toNat) ++ [0]).foldl
        reserveFrame
        ((importIndices mbi).foldl releaseFrame (pmmDenyAll pmm)) := by
  rw [List.foldl_append, ← pmmImport_eq_indices,
    ← pmmMarkRegionReserved_eq_indices]
  rfl

section Indices

variable {base len : Nat}

theorem reservedIndices_eq (hbase : base ≤ 2 ^ 32) (hlen : len < 2 ^ 43) :
    reservedIndices base len = regionFrames base len := by
  have hsum : u64 (base + len) = base + len := u64_of_lt (by omega)
  simp only [reservedIndices, alignedBase_eq hbase, hsum]
  split_ifs with houtside
  · exact (regionFrames_eq_nil (by omega)).symm
  · exact map_loopIndex hbase hlen (by omega)

theorem availableIndices_eq (hbase : base ≤ 2 ^ 32) (hlen : len < 2 ^ 43) :
    availableIndices base len = regionFrames base len := by
  have hsum : u64 (base + len) = base + len := u64_of_lt (by omega)
  simp only [availableIndices, alignedBase_eq hbase, hsum]
  split_ifs with houtside
  · exact (regionFrames_eq_nil (by omega)).symm
  · exact map_loopIndex hbase hlen (by omega)

/-- A region reaches past the bitmap exactly when it holds frame `2 ^ 20`. -/
theorem regionFrames_bounded_iff (hbase : base ≤ 2 ^ 32) :
    (∀ frame ∈ regionFrames base len, frame < pmmMaxFrames) ↔
      base + len < 2 ^ 32 + pageSize := by
  constructor
  · intro hall
    by_contra hover
    have hlast := hall pmmMaxFrames ((mem_regionFrames _ _ _).mpr (by
      simp only [RegionCovers, pmmMaxFrames, pageSize] at *
      omega))
    omega
  · intro htop frame hframe
    have hcovers := ((mem_regionFrames _ _ _).mp hframe).2
    simp only [pmmMaxFrames, pageSize] at *
    omega

end Indices

/-- The end of an available entry below 4 GB, computed without wrapping,
stays below the second page of the next 64-bit round. -/
def MmapEntry.Fits (entry : MmapEntry) : Prop :=
  entry.type = multibootMemoryAvailable → entry.addr.toNat < 0x100000000 →
    entry.addr.toNat + entry.len.toNat < 2 ^ 64 + pageSize

/-- The boot information and the image bounds name no frame past the bitmap. -/
def BootFits (mbi : MultibootInfo) (kernelPhysStart kernelPhysEnd : UInt32) :
    Prop :=
  (if mbi.flags &&& multibootFlagMmap = 0 then
    mbi.flags &&& multibootFlagMem ≠ 0 →
      0x100000 + mbi.memUpper.toNat * 1024 < 2 ^ 32 + pageSize
  else ∀ entry ∈ mbi.mmap, entry.Fits) ∧
    (kernelPhysStart ≤ kernelPhysEnd ∨ kernelPhysEnd.toNat < pageSize)

/-- A wrapping entry is imported as if it ended after 4 GB. -/
theorem MmapEntry.clipped_wrapped {entry : MmapEntry}
    (hlow : entry.addr.toNat < 0x100000000)
    (hwrap : 2 ^ 64 ≤ entry.addr.toNat + entry.len.toNat) :
    entry.addr.toNat + entry.clippedLen + 2 ^ 64 =
      2 ^ 32 + (entry.addr.toNat + entry.len.toNat) := by
  have hlen := entry.len.toNat_lt
  have hsum : u64 (entry.addr.toNat + entry.len.toNat) =
      entry.addr.toNat + entry.len.toNat - 2 ^ 64 := by
    rw [u64]
    omega
  have htop : entry.top = entry.addr.toNat + entry.len.toNat - 2 ^ 64 := by
    simp only [MmapEntry.top, hsum]
    exact if_neg (by omega)
  simp only [MmapEntry.clippedLen, htop, sub64, u32, u64]
  omega

theorem MmapEntry.clipped_bounded_iff {entry : MmapEntry}
    (hlow : entry.addr.toNat < 0x100000000) :
    entry.addr.toNat + entry.clippedLen < 2 ^ 32 + pageSize ↔
      entry.addr.toNat + entry.len.toNat < 2 ^ 64 + pageSize := by
  by_cases hwrap : entry.addr.toNat + entry.len.toNat < 2 ^ 64
  · have htop := MmapEntry.clipped_top hlow hwrap
    simp only [pageSize]
    omega
  · have htop := MmapEntry.clipped_wrapped hlow (by omega)
    omega

theorem entryIndices_bounded_iff (entry : MmapEntry) :
    (∀ frame ∈ entryIndices entry, frame < pmmMaxFrames) ↔ entry.Fits := by
  unfold entryIndices MmapEntry.Fits
  by_cases htype : entry.type = multibootMemoryAvailable
  · by_cases haddr : entry.addr.toNat < 0x100000000
    · rw [if_pos htype, if_pos haddr, u32_of_lt haddr,
        availableIndices_eq (by omega) entry.clippedLen_lt,
        regionFrames_bounded_iff (by omega),
        MmapEntry.clipped_bounded_iff haddr]
      simp [htype, haddr]
    · simp [htype, haddr]
  · simp [htype]

theorem importIndices_bounded_iff (mbi : MultibootInfo) :
    (∀ frame ∈ importIndices mbi, frame < pmmMaxFrames) ↔
      if mbi.flags &&& multibootFlagMmap = 0 then
        mbi.flags &&& multibootFlagMem ≠ 0 →
          0x100000 + mbi.memUpper.toNat * 1024 < 2 ^ 32 + pageSize
      else ∀ entry ∈ mbi.mmap, entry.Fits := by
  have hupper := mbi.memUpper.toNat_lt
  unfold importIndices
  by_cases hmmap : mbi.flags &&& multibootFlagMmap = 0
  · by_cases hmem : mbi.flags &&& multibootFlagMem = 0
    · simp [hmmap, hmem]
    · rw [if_pos hmmap, if_neg hmem, u64_of_lt (by omega),
        availableIndices_eq (by decide) (by omega),
        regionFrames_bounded_iff (by decide), if_pos hmmap]
      exact ⟨fun htop _ => htop, fun htop => htop hmem⟩
  · rw [if_neg hmmap, if_neg hmmap]
    simp only [List.mem_flatMap]
    constructor
    · intro hall entry hentry
      rw [← entryIndices_bounded_iff]
      intro frame hframe
      exact hall frame ⟨entry, hentry, hframe⟩
    · rintro hfits frame ⟨entry, hentry, hframe⟩
      exact (entryIndices_bounded_iff entry).mpr (hfits entry hentry) frame
        hframe

theorem imageIndices_bounded_iff (kernelPhysStart kernelPhysEnd : UInt32) :
    (∀ frame ∈ reservedIndices kernelPhysStart.toNat
        (sub32 kernelPhysEnd.toNat kernelPhysStart.toNat),
      frame < pmmMaxFrames) ↔
      kernelPhysStart ≤ kernelPhysEnd ∨ kernelPhysEnd.toNat < pageSize := by
  have hstart := kernelPhysStart.toNat_lt
  have hend := kernelPhysEnd.toNat_lt
  have hlen : sub32 kernelPhysEnd.toNat kernelPhysStart.toNat < 2 ^ 43 :=
    (u32_lt _).trans (by decide)
  rw [reservedIndices_eq (by omega) hlen, regionFrames_bounded_iff (by omega),
    UInt32.le_iff_toNat_le]
  simp only [sub32, u32, pageSize]
  omega

/-- The accesses of the script are its indices, frame zero apart. -/
theorem pmmInitAccesses_bounded_iff (mbi : MultibootInfo)
    (kernelPhysStart kernelPhysEnd : UInt32) :
    (∀ frame ∈ pmmInitAccesses mbi kernelPhysStart kernelPhysEnd,
        frame < pmmMaxFrames) ↔
      (∀ frame ∈ importIndices mbi, frame < pmmMaxFrames) ∧
        ∀ frame ∈ reservedIndices kernelPhysStart.toNat
            (sub32 kernelPhysEnd.toNat kernelPhysStart.toNat),
          frame < pmmMaxFrames := by
  have hzero : 0 < pmmMaxFrames := by decide
  simp only [pmmInitAccesses, pmmInitMarks, List.flatMap_append,
    List.flatMap_map, List.mem_append, List.mem_flatMap, or_imp,
    forall_and, FrameMark.accesses, List.flatMap_singleton]
  constructor
  · rintro ⟨⟨himport, himage⟩, -⟩
    refine ⟨fun frame hframe => ?_, fun frame hframe =>
      himage frame ⟨frame, hframe, List.mem_singleton_self frame⟩⟩
    rcases Nat.eq_zero_or_pos frame with rfl | hpos
    · exact hzero
    · exact himport frame ⟨frame, hframe, by simp [Nat.ne_of_gt hpos]⟩
  · rintro ⟨himport, himage⟩
    refine ⟨⟨?_, ?_⟩, ?_⟩
    · rintro frame ⟨index, hindex, hframe⟩
      split at hframe
      · contradiction
      · exact List.mem_singleton.mp hframe ▸ himport index hindex
    · rintro frame ⟨index, hindex, hframe⟩
      exact List.mem_singleton.mp hframe ▸ himage index hindex
    · intro frame hframe
      exact List.mem_singleton.mp hframe ▸ hzero

/-- Boot stays inside the bitmap exactly when no declared region reaches past
it: the memory map is clipped unless an entry wraps, the fallback region is
never clipped. -/
theorem pmmInit_stays_inside_iff (mbi : MultibootInfo)
    (kernelPhysStart kernelPhysEnd : UInt32) :
    (∀ frame ∈ pmmInitAccesses mbi kernelPhysStart kernelPhysEnd,
        frame < pmmMaxFrames) ↔
      BootFits mbi kernelPhysStart kernelPhysEnd := by
  rw [pmmInitAccesses_bounded_iff, importIndices_bounded_iff,
    imageIndices_bounded_iff, BootFits]

/-- The frame lies entirely inside the entry, which is available and clipped
to 4 GB. -/
def MmapEntry.Declares (entry : MmapEntry) (frame : Nat) : Prop :=
  entry.type = multibootMemoryAvailable ∧
    ∀ byte, addrToFrame byte = frame →
      entry.addr.toNat ≤ byte ∧
        byte < entry.addr.toNat + entry.len.toNat ∧ byte < 2 ^ 32

/-- The entry starts at address zero and reaches 4 GB: its clipped length is
`2 ^ 32`, which does not fit into 32 bits. -/
def MmapEntry.Whole (entry : MmapEntry) : Prop :=
  entry.addr.toNat = 0 ∧ 2 ^ 32 ≤ entry.len.toNat

instance (entry : MmapEntry) : Decidable entry.Whole :=
  inferInstanceAs (Decidable (_ ∧ _))

/-- Outside the image exactly the declared frames are free, and frame zero is
not. -/
def ImportsMap (mbi : MultibootInfo)
    (kernelPhysStart kernelPhysEnd : UInt32) : Prop :=
  (∀ frame, 1 ≤ frame → frame < pmmMaxFrames →
    ¬ OverlapsImage kernelPhysStart kernelPhysEnd frame →
    (bitmapTest (pmmInit Pmm.boot mbi kernelPhysStart kernelPhysEnd) frame =
        false ↔
      ∃ entry ∈ mbi.mmap, entry.Declares frame)) ∧
  bitmapTest (pmmInit Pmm.boot mbi kernelPhysStart kernelPhysEnd) 0 = true

theorem MmapEntry.declares_iff (entry : MmapEntry) (frame : Nat) :
    entry.Declares frame ↔
      entry.type = multibootMemoryAvailable ∧
        entry.addr.toNat ≤ frame * pageSize ∧
        (frame + 1) * pageSize ≤ entry.addr.toNat + entry.len.toNat ∧
        (frame + 1) * pageSize ≤ 2 ^ 32 := by
  refine and_congr_right fun _ => ⟨fun hbytes => ?_, fun hbounds byte hbyte => ?_⟩
  · have hfirst := hbytes (frame * pageSize) (addrToFrame_mul frame)
    have hlast := hbytes ((frame + 1) * pageSize - 1) (by
      simp only [addrToFrame, pageSize]
      omega)
    simp only [pageSize] at hfirst hlast ⊢
    omega
  · simp only [addrToFrame, pageSize] at *
    omega

section Import

variable {entry : MmapEntry}

theorem MmapEntry.top_eq
    (hwrap : entry.addr.toNat + entry.len.toNat < 2 ^ 64) :
    entry.top = min (entry.addr.toNat + entry.len.toNat) (2 ^ 32) := by
  simp only [MmapEntry.top, u64_of_lt hwrap]
  split <;> omega

theorem MmapEntry.clippedLen_eq (hlow : entry.addr.toNat < 0x100000000)
    (hwrap : entry.addr.toNat + entry.len.toNat < 2 ^ 64)
    (hwhole : ¬ entry.Whole) :
    entry.clippedLen =
      min (entry.addr.toNat + entry.len.toNat) (2 ^ 32) - entry.addr.toNat := by
  rw [MmapEntry.clippedLen, MmapEntry.top_eq hwrap,
    sub64_of_le (by omega) (by omega)]
  apply u32_of_lt
  simp only [MmapEntry.Whole] at hwhole
  omega

/-- The narrowing of the length loses nothing, except for the entry that
holds everything. -/
theorem entryFrees_iff_declares
    (hwrap : entry.addr.toNat + entry.len.toNat < 2 ^ 64)
    (hwhole : ¬ entry.Whole) (frame : Nat) :
    EntryFrees entry frame ↔ entry.Declares frame := by
  rw [MmapEntry.declares_iff, EntryFrees]
  refine and_congr_right fun _ => ?_
  by_cases hlow : entry.addr.toNat < 0x100000000
  · rw [RegionCovers, MmapEntry.clippedLen_eq hlow hwrap hwhole]
    simp only [pageSize]
    omega
  · simp only [pageSize]
    omega

theorem not_entryFrees_of_whole
    (hwrap : entry.addr.toNat + entry.len.toNat < 2 ^ 64)
    (hwhole : entry.Whole) (frame : Nat) : ¬ EntryFrees entry frame := by
  obtain ⟨haddr, hlen⟩ := hwhole
  have hclipped : entry.clippedLen = 0 := by
    rw [MmapEntry.clippedLen, MmapEntry.top_eq hwrap, haddr,
      Nat.min_eq_right (by omega)]
    rfl
  rintro ⟨_, _, hcovers⟩
  rw [RegionCovers, hclipped] at hcovers
  simp only [pageSize] at hcovers
  omega

end Import

/-- An entry that holds everything declares every frame. -/
theorem MmapEntry.Whole.declares {entry : MmapEntry} (hwhole : entry.Whole)
    (htype : entry.type = multibootMemoryAvailable) {frame : Nat}
    (hframe : frame < pmmMaxFrames) : entry.Declares frame := by
  obtain ⟨haddr, hlen⟩ := hwhole
  rw [MmapEntry.declares_iff]
  refine ⟨htype, ?_⟩
  simp only [pmmMaxFrames, pageSize] at *
  omega

/-- What boot frees: the frames of the entries that are not the whole address
space. -/
theorem bitmapTest_pmmInit_eq_false_iff {mbi : MultibootInfo}
    {kernelPhysStart kernelPhysEnd : UInt32}
    (hmmap : mbi.flags &&& multibootFlagMmap ≠ 0)
    (hentries : ∀ entry ∈ mbi.mmap,
      entry.addr.toNat + entry.len.toNat < 2 ^ 64)
    (himage : kernelPhysStart ≤ kernelPhysEnd) {frame : Nat}
    (hpos : 1 ≤ frame) (hframe : frame < pmmMaxFrames)
    (houtside : ¬ OverlapsImage kernelPhysStart kernelPhysEnd frame) :
    bitmapTest (pmmInit Pmm.boot mbi kernelPhysStart kernelPhysEnd) frame =
        false ↔
      ∃ entry ∈ mbi.mmap, ¬ entry.Whole ∧ entry.Declares frame := by
  have hcovers : ¬ RegionCovers kernelPhysStart.toNat
      (sub32 kernelPhysEnd.toNat kernelPhysStart.toNat) frame := by
    have hle : kernelPhysStart.toNat ≤ kernelPhysEnd.toNat := himage
    rw [sub32_of_le hle kernelPhysEnd.toNat_lt]
    intro hcovers
    apply houtside
    refine ⟨frame * pageSize, hcovers.1, ?_, addrToFrame_mul frame⟩
    have hhigh := hcovers.2
    simp only [pageSize] at *
    omega
  rw [← Bool.not_eq_true, bitmapTest_pmmInit _ _ _ _ hframe]
  simp only [Nat.ne_of_gt hpos, hcovers, false_or, not_not, MapFrees, hmmap,
    if_false, ne_eq, not_false_eq_true, true_and]
  refine exists_congr fun entry => and_congr_right fun hentry => ?_
  by_cases hwhole : entry.Whole
  · simp [hwhole, not_entryFrees_of_whole (hentries entry hentry) hwhole frame]
  · simp [hwhole, entryFrees_iff_declares (hentries entry hentry) hwhole frame]

/-- The memory map arrives as declared exactly when no available entry is the
whole address space, or the other entries declare all of memory again. -/
theorem pmmInit_imports_map_iff (mbi : MultibootInfo)
    (kernelPhysStart kernelPhysEnd : UInt32)
    (hmmap : mbi.flags &&& multibootFlagMmap ≠ 0)
    (hentries : ∀ entry ∈ mbi.mmap,
      entry.addr.toNat + entry.len.toNat < 2 ^ 64)
    (himage : kernelPhysStart ≤ kernelPhysEnd) :
    ImportsMap mbi kernelPhysStart kernelPhysEnd ↔
      ((∃ entry ∈ mbi.mmap,
          entry.type = multibootMemoryAvailable ∧ entry.Whole) →
        ∀ frame, 1 ≤ frame → frame < pmmMaxFrames →
          ¬ OverlapsImage kernelPhysStart kernelPhysEnd frame →
          ∃ entry ∈ mbi.mmap, ¬ entry.Whole ∧ entry.Declares frame) := by
  constructor
  · rintro ⟨hframes, _⟩ ⟨whole, hwhole, htype, hspan⟩ frame hpos hframe houtside
    rw [← bitmapTest_pmmInit_eq_false_iff hmmap hentries himage hpos hframe
      houtside, hframes frame hpos hframe houtside]
    exact ⟨whole, hwhole, hspan.declares htype hframe⟩
  · intro hcovered
    refine ⟨fun frame hpos hframe houtside => ?_, ?_⟩
    · rw [bitmapTest_pmmInit_eq_false_iff hmmap hentries himage hpos hframe
        houtside]
      constructor
      · rintro ⟨entry, hentry, _, hdeclares⟩
        exact ⟨entry, hentry, hdeclares⟩
      · rintro ⟨entry, hentry, hdeclares⟩
        by_cases hspan : entry.Whole
        · exact hcovered ⟨entry, hentry, hdeclares.1, hspan⟩ frame hpos hframe
            houtside
        · exact ⟨entry, hentry, hspan, hdeclares⟩
    · rw [bitmapTest_pmmInit _ _ _ _ (by decide)]
      exact Or.inl rfl

namespace PmmBootWitness

/-- All of the 32-bit address space in one entry. -/
def wholeMap : MultibootInfo := ⟨0x40, 0, [⟨0, 0x100000000, 1⟩]⟩

/-- No memory map, and four terabytes above the first megabyte. -/
def upperOnly : MultibootInfo := ⟨1, 0xFFFFFFFF, []⟩

/-- The first frame past the bitmap is tested. -/
theorem fallback_leaves_bitmap :
    pmmMaxFrames ∈ pmmInitAccesses upperOnly 0x200000 0x201800 ∧
      ¬ ∀ frame ∈ pmmInitAccesses upperOnly 0x200000 0x201800,
        frame < pmmMaxFrames := by
  have haccess : pmmMaxFrames ∈ pmmInitAccesses upperOnly 0x200000 0x201800 := by
    have hindex : pmmMaxFrames ∈ importIndices upperOnly := by
      rw [importIndices, if_pos (by decide), if_neg (by decide),
        availableIndices_eq (by decide) (by decide), mem_regionFrames]
      decide
    refine List.mem_flatMap.mpr ⟨.release pmmMaxFrames, ?_, by decide⟩
    exact List.mem_append_left _
      (List.mem_append_left _ (List.mem_map_of_mem hindex))
  exact ⟨haccess, fun hall => Nat.lt_irrefl _ (hall _ haccess)⟩

/-- Frame `0x100` is declared and stays used. -/
theorem wholeMap_not_imported :
    bitmapTest (pmmInit Pmm.boot wholeMap 0x200000 0x201800) 0x100 = true ∧
      ¬ ImportsMap wholeMap 0x200000 0x201800 := by
  have hused : bitmapTest (pmmInit Pmm.boot wholeMap 0x200000 0x201800) 0x100 =
      true := by decide
  refine ⟨hused, ?_⟩
  rintro ⟨hframes, _⟩
  have houtside : ¬ OverlapsImage 0x200000 0x201800 0x100 := by
    rintro ⟨byte, hlow, _, hbyte⟩
    have hstart : (0x200000 : UInt32).toNat = 0x200000 := by decide
    simp only [addrToFrame, pageSize] at hbyte
    omega
  have hfree := (hframes 0x100 (by decide) (by decide) houtside).mpr
    ⟨⟨0, 0x100000000, 1⟩, List.mem_singleton_self _,
      MmapEntry.Whole.declares (by decide) rfl (by decide)⟩
  rw [hused] at hfree
  contradiction

/-- The usual map of a small machine arrives. -/
theorem split_map_imported :
    let mbi : MultibootInfo :=
      ⟨0x40, 0, [⟨0, 0x9FC00, 1⟩, ⟨0x9FC00, 0x400, 2⟩, ⟨0x100000, 0x7F00000, 1⟩]⟩
    mbi.flags &&& multibootFlagMmap ≠ 0 ∧
      (∀ entry ∈ mbi.mmap, entry.addr.toNat + entry.len.toNat < 2 ^ 64) ∧
      ImportsMap mbi 0x200000 0x201800 := by
  intro mbi
  refine ⟨by decide, by decide, (pmmInit_imports_map_iff mbi 0x200000 0x201800
    (by decide) (by decide) (by decide)).mpr ?_⟩
  rintro ⟨entry, hentry, _, hwhole⟩
  have hparts : ∀ entry ∈ mbi.mmap, ¬ entry.Whole := by decide
  exact absurd hwhole (hparts entry hentry)

end PmmBootWitness

end Orion
