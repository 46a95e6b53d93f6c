/-
What mapping more of the heap will do.  The loop of `ensure_mapped` takes one
frame for each page and one for each page table that is missing; how it ends
can be told beforehand from the frames that are free, the tables that are
there and the room below the ceiling.
-/
import Orion.KheapOps
import Orion.PmmAccounting
import Orion.VmmSystem

namespace Orion

open MachineInt

/-- The page tables that mapping `count` pages from `virt` on has to create. -/
def tablesMissing (paging : Paging) (virt count : Nat) : Nat :=
  ((Finset.range 1024).filter fun i =>
    ¬ IsPresent (paging.mem (slotAddr paging.pageDirectory i)) ∧
      ∃ j < count, pdIndex (virt + j * pageSize) = i).card

/-- The pages between what is mapped and `stop`. -/
def pagesNeeded (heap : Kheap) (stop : Nat) : Nat :=
  (stop - heap.heapVirtMapped + pageSize - 1) / pageSize

/-- The pages between what is mapped and the ceiling. -/
def pagesLeft (heap : Kheap) : Nat :=
  (heapMax - heap.heapVirtMapped) / pageSize

/-- There is room and there are frames for all pages and their tables. -/
def MapsAll (heap : Kheap) (stop : Nat) : Prop :=
  pagesNeeded heap stop ≤ pagesLeft heap ∧
    pagesNeeded heap stop +
      tablesMissing heap.paging heap.heapVirtMapped (pagesNeeded heap stop) ≤
        clearFrames heap.paging.pmm

/-- After some pages one frame is left, and the next page needs a new table. -/
def MapPanics (heap : Kheap) (stop : Nat) : Prop :=
  ∃ k < pagesNeeded heap stop, k < pagesLeft heap ∧
    clearFrames heap.paging.pmm =
      k + tablesMissing heap.paging heap.heapVirtMapped k + 1 ∧
    tablesMissing heap.paging heap.heapVirtMapped (k + 1) =
      tablesMissing heap.paging heap.heapVirtMapped k + 1

section Tables

variable {paging next : Paging} {virt : Nat}

@[simp] theorem tablesMissing_zero (paging : Paging) (virt : Nat) :
    tablesMissing paging virt 0 = 0 := by
  simp [tablesMissing]

theorem tablesMissing_mono (paging : Paging) (virt : Nat) {count count' : Nat}
    (hle : count ≤ count') :
    tablesMissing paging virt count ≤ tablesMissing paging virt count' := by
  apply Finset.card_le_card
  intro i hi
  simp only [Finset.mem_filter] at hi ⊢
  obtain ⟨hrange, habsent, j, hj, hslot⟩ := hi
  exact ⟨hrange, habsent, j, Nat.lt_of_lt_of_le hj hle, hslot⟩

theorem tablesMissing_one (hvirt : virt < 2 ^ 32) :
    tablesMissing paging virt 1 =
      if IsPresent (paging.mem (slotAddr paging.pageDirectory (pdIndex virt)))
      then 0 else 1 := by
  have hindex := pdIndex_lt hvirt
  unfold tablesMissing
  split
  · rename_i hpresent
    rw [Finset.card_eq_zero, Finset.filter_eq_empty_iff]
    rintro i - ⟨habsent, j, hj, hslot⟩
    obtain rfl : j = 0 := by omega
    rw [Nat.zero_mul, Nat.add_zero] at hslot
    exact habsent (hslot ▸ hpresent)
  · rename_i habsent
    rw [Finset.card_eq_one]
    refine ⟨pdIndex virt, Finset.ext fun i => ?_⟩
    simp only [Finset.mem_filter, Finset.mem_range, Finset.mem_singleton]
    constructor
    · rintro ⟨-, -, j, hj, hslot⟩
      obtain rfl : j = 0 := by omega
      rw [Nat.zero_mul, Nat.add_zero] at hslot
      exact hslot.symm
    · rintro rfl
      exact ⟨hindex, habsent, 0, by decide, by simp⟩

/-- Mapping a page provides its table and no other. -/
structure Provides (paging next : Paging) (virt : Nat) : Prop where
  pageDirectory : next.pageDirectory = paging.pageDirectory
  slots : ∀ i < 1024,
    IsPresent (next.mem (slotAddr paging.pageDirectory i)) ↔
      IsPresent (paging.mem (slotAddr paging.pageDirectory i)) ∨
        i = pdIndex virt

/-- The tables for the pages behind the first one. -/
theorem Provides.tablesMissing_succ (hprovides : Provides paging next virt)
    (count : Nat) :
    tablesMissing paging virt (count + 1) =
      tablesMissing paging virt 1 +
        tablesMissing next (virt + pageSize) count := by
  have hshift : ∀ j, virt + pageSize + j * pageSize = virt + (j + 1) * pageSize := by
    intro j
    rw [Nat.add_mul, Nat.one_mul]
    omega
  unfold tablesMissing
  rw [hprovides.pageDirectory, ← Finset.card_union_of_disjoint]
  · refine congrArg Finset.card (Finset.ext fun i => ?_)
    simp only [Finset.mem_union, Finset.mem_filter, Finset.mem_range]
    constructor
    · rintro ⟨hi, habsent, j, hj, hslot⟩
      by_cases hfirst : i = pdIndex virt
      · exact .inl ⟨hi, habsent, 0, by decide, by simp [hfirst]⟩
      · obtain ⟨j, rfl⟩ : ∃ j', j = j' + 1 := by
          refine ⟨j - 1, ?_⟩
          rcases Nat.eq_zero_or_pos j with rfl | hpos
          · rw [Nat.zero_mul, Nat.add_zero] at hslot
            exact absurd hslot.symm hfirst
          · omega
        refine .inr ⟨hi, ?_, j, by omega, by rw [hshift, hslot]⟩
        rw [hprovides.slots i hi]
        rintro (hpresent | heq)
        · exact habsent hpresent
        · exact hfirst heq
    · rintro (⟨hi, habsent, j, hj, hslot⟩ | ⟨hi, habsent, j, hj, hslot⟩)
      · exact ⟨hi, habsent, j, by omega, hslot⟩
      · rw [hprovides.slots i hi, not_or] at habsent
        exact ⟨hi, habsent.1, j + 1, by omega, by rw [← hshift, hslot]⟩
  · rw [Finset.disjoint_left]
    intro i hold hnew
    simp only [Finset.mem_filter, Finset.mem_range] at hold hnew
    obtain ⟨hi, -, j, hj, hslot⟩ := hold
    obtain rfl : j = 0 := by omega
    rw [Nat.zero_mul, Nat.add_zero] at hslot
    exact hnew.2.1 ((hprovides.slots i hi).mpr (.inr hslot.symm))

variable {spaces : List Nat}

/-- `create_table` writes one slot of the directory. -/
theorem createTable_provides
    (hinv : paging.Inv spaces)
    {table : Nat} (hvirt : virt < 2 ^ 32) {flags : BitVec 32}
    (hcreate : createTable paging virt flags = (some table, next)) :
    Provides paging next virt := by
  obtain ⟨-, hserves, -⟩ := createTable_spec hinv hvirt hcreate
  refine ⟨hserves.pageDirectory, fun i hi => ?_⟩
  by_cases heq : i = pdIndex virt
  · simp [heq, hserves.present]
  · simp only [heq, or_false]
    rcases createTable_eq_some hcreate with
      ⟨-, -, rfl⟩ | ⟨-, pmm, halloc, hzero, rfl⟩
    · rfl
    · have hunused := ((hinv.alloc halloc).2 hzero).unused
      dsimp only
      rw [hunused.slot_newTable hinv.directory.frame (pdIndex_lt hvirt) hi,
        if_neg heq]

theorem vmmMapPage_provides
    (hinv : paging.Inv spaces)
    {phys : Nat} (hvirt : virt < 2 ^ 32) {flags : BitVec 32}
    (hmap : vmmMapPage paging virt phys flags = some next) :
    Provides paging next virt := by
  obtain ⟨table, mid, hcreate, rfl⟩ := vmmMapPage_eq_some hmap
  obtain ⟨hinv', hserves, htable⟩ := createTable_spec hinv hvirt hcreate
  have hprovides := createTable_provides hinv hvirt hcreate
  refine ⟨hprovides.pageDirectory, fun i hi => ?_⟩
  have histable : IsTable mid.mem paging.pageDirectory table :=
    ⟨_, pdIndex_lt hvirt, hserves.present, htable⟩
  dsimp only
  rw [hinv'.directory.slot_update histable hi (ptIndex_lt virt)]
  exact hprovides.slots i hi

/-- Mapping a page takes a frame exactly when its table is missing, and panics
when there is none to take. -/
theorem vmmMapPage_counts (hready : Searchable paging.pmm)
    (hvirt : virt < 2 ^ 32) (phys : Nat) (flags : BitVec 32) :
    (vmmMapPage paging virt phys flags = none ∧
      clearFrames paging.pmm = 0 ∧ tablesMissing paging virt 1 = 1) ∨
    ∃ next, vmmMapPage paging virt phys flags = some next ∧
      Searchable next.pmm ∧
      clearFrames next.pmm + tablesMissing paging virt 1 =
        clearFrames paging.pmm := by
  rw [tablesMissing_one hvirt]
  by_cases hpresent : IsPresent
      (paging.mem (slotAddr paging.pageDirectory (pdIndex virt)))
  · have hcreate : createTable paging virt flags = (some (entryTable
        (paging.mem (slotAddr paging.pageDirectory (pdIndex virt)))), paging) :=
      if_pos hpresent
    rw [if_pos hpresent, vmmMapPage, hcreate]
    exact .inr ⟨_, rfl, hready, Nat.add_zero _⟩
  · rw [if_neg hpresent]
    have habsent : ¬ (paging.mem (slotAddr paging.pageDirectory (pdIndex virt)) &&&
        vmmPresent ≠ 0) := hpresent
    rcases pmmAllocFrame_counts hready with
      ⟨hnone, hfail⟩ | ⟨frame, pmm, halloc, hne, hready', hcount⟩
    · refine .inl ⟨?_, hnone, rfl⟩
      simp only [vmmMapPage, createTable, if_neg habsent, hfail, ↓reduceIte]
    · simp only [vmmMapPage, createTable, if_neg habsent, halloc, if_neg hne]
      exact .inr ⟨_, rfl, hready', hcount⟩

end Tables

/-- What the forecast relies on: the frames of the tables are marked used, and
the search of the frame allocator sees every free frame. -/
structure Mappable (heap : Kheap) : Prop where
  tables : PagingInv heap.paging.pmm heap.paging.mem heap.paging.pageDirectory []
  searchable : Searchable heap.paging.pmm
  ceiling : heap.heapVirtMapped ≤ heapMax

section Forecast

variable {heap : Kheap} {stop : Nat}

theorem Mappable.lt (hheap : Mappable heap) : heap.heapVirtMapped < 2 ^ 32 := by
  have hceiling := hheap.ceiling
  simp only [heapMax] at hceiling
  omega

/-- The heap with one page more. -/
abbrev Kheap.mapped (heap : Kheap) (paging : Paging) : Kheap :=
  heap.remap (heap.heapVirtMapped + pageSize) paging

/-- The next page is mapped to a free frame. -/
structure MapsNext (heap : Kheap) (phys : Nat) (pmm : Pmm) (paging : Paging) :
    Prop where
  alloc : pmmAllocFrame heap.paging.pmm = (phys, pmm)
  ne : phys ≠ 0
  map : vmmMapPage { heap.paging with pmm := pmm } heap.heapVirtMapped phys
    vmmKernelRw = some paging
  ready : Mappable (heap.mapped paging)
  count : clearFrames paging.pmm + 1 +
    tablesMissing heap.paging heap.heapVirtMapped 1 =
      clearFrames heap.paging.pmm
  rest : ∀ count, tablesMissing heap.paging heap.heapVirtMapped (count + 1) =
    tablesMissing heap.paging heap.heapVirtMapped 1 +
      tablesMissing paging (heap.heapVirtMapped + pageSize) count

/-- Everything the mapping of the next page can do. -/
inductive PageOutcome (heap : Kheap) : Prop
  | noFrame (hnone : clearFrames heap.paging.pmm = 0)
      (halloc : pmmAllocFrame heap.paging.pmm = (0, heap.paging.pmm))
  | noTable (phys : Nat) (pmm : Pmm)
      (halloc : pmmAllocFrame heap.paging.pmm = (phys, pmm)) (hne : phys ≠ 0)
      (hmap : vmmMapPage { heap.paging with pmm := pmm } heap.heapVirtMapped phys
        vmmKernelRw = none)
      (hlast : clearFrames heap.paging.pmm = 1)
      (hmissing : tablesMissing heap.paging heap.heapVirtMapped 1 = 1)
  | mapped (phys : Nat) (pmm : Pmm) (paging : Paging)
      (halloc : pmmAllocFrame heap.paging.pmm = (phys, pmm)) (hne : phys ≠ 0)
      (hmap : vmmMapPage { heap.paging with pmm := pmm } heap.heapVirtMapped phys
        vmmKernelRw = some paging)
      (hheap : Mappable (heap.remap (heap.heapVirtMapped + pageSize) paging))
      (hcount : clearFrames paging.pmm + 1 +
        tablesMissing heap.paging heap.heapVirtMapped 1 =
          clearFrames heap.paging.pmm)
      (hrest : ∀ count,
        tablesMissing heap.paging heap.heapVirtMapped (count + 1) =
          tablesMissing heap.paging heap.heapVirtMapped 1 +
            tablesMissing paging (heap.heapVirtMapped + pageSize) count)

theorem Mappable.page (hheap : Mappable heap)
    (hroom : heap.heapVirtMapped + pageSize ≤ heapMax) : PageOutcome heap := by
  have hvirt := hheap.lt
  rcases pmmAllocFrame_counts hheap.searchable with
    ⟨hnone, halloc⟩ | ⟨phys, pmm, halloc, hne, hready, hcount⟩
  · exact .noFrame hnone halloc
  · have hinv := (hheap.tables.alloc halloc).1
    have hmissing : tablesMissing { heap.paging with pmm := pmm }
        heap.heapVirtMapped 1 = tablesMissing heap.paging heap.heapVirtMapped 1 :=
      rfl
    rcases @vmmMapPage_counts { heap.paging with pmm := pmm } _ hready hvirt phys
        vmmKernelRw with
      ⟨hmap, hlast, hone⟩ | ⟨paging, hmap, hready', hcount'⟩
    · exact .noTable phys pmm halloc hne hmap (by rw [← hcount, hlast]) hone
    · have hprovides := vmmMapPage_provides hinv hvirt hmap
      refine .mapped phys pmm paging halloc hne hmap
        ⟨(vmmMapPage_spec hinv hvirt hmap).1, hready', hroom⟩ ?_
        hprovides.tablesMissing_succ
      rw [hmissing] at hcount'
      simp only at hcount'
      omega

section Loop

variable {budget phys : Nat} {pmm : Pmm} {paging : Paging}

theorem ensureMappedLoop_done (hdone : ¬ heap.heapVirtMapped < stop) :
    ensureMappedLoop stop (budget + 1) heap = .ok (true, heap) := by
  simp only [ensureMappedLoop, if_neg hdone]

theorem ensureMappedLoop_full (hmore : heap.heapVirtMapped < stop)
    (hceiling : heap.heapVirtMapped ≤ heapMax)
    (hfull : heapMax < heap.heapVirtMapped + pageSize) :
    ensureMappedLoop stop (budget + 1) heap = .ok (false, heap) := by
  have hnext : u32 (heap.heapVirtMapped + pageSize) =
      heap.heapVirtMapped + pageSize := by
    apply u32_of_lt
    simp only [pageSize, heapMax] at hceiling ⊢
    omega
  simp only [ensureMappedLoop, if_pos hmore, hnext, if_pos hfull]

variable (hmore : heap.heapVirtMapped < stop)
  (hroom : heap.heapVirtMapped + pageSize ≤ heapMax)

include hmore hroom

/-- A round of the loop below the ceiling. -/
theorem ensureMappedLoop_round :
    ensureMappedLoop stop (budget + 1) heap =
      let (phys, pmm) := pmmAllocFrame heap.paging.pmm
      if phys = 0 then
        .ok (false, { heap with paging := { heap.paging with pmm := pmm } })
      else
        match vmmMapPage { heap.paging with pmm := pmm } heap.heapVirtMapped phys
            vmmKernelRw with
        | none => .error .panic
        | some paging => ensureMappedLoop stop budget (heap.mapped paging) := by
  have hnext : u32 (heap.heapVirtMapped + pageSize) =
      heap.heapVirtMapped + pageSize :=
    u32_of_lt (Nat.lt_of_le_of_lt hroom (by decide))
  simp only [ensureMappedLoop, if_pos hmore, hnext,
    if_neg (Nat.not_lt.mpr hroom)]
  rfl

theorem ensureMappedLoop_noFrame
    (halloc : pmmAllocFrame heap.paging.pmm = (0, heap.paging.pmm)) :
    ensureMappedLoop stop (budget + 1) heap = .ok (false, heap) := by
  rw [ensureMappedLoop_round hmore hroom, halloc]
  rfl

theorem ensureMappedLoop_noTable
    (halloc : pmmAllocFrame heap.paging.pmm = (phys, pmm)) (hne : phys ≠ 0)
    (hmap : vmmMapPage { heap.paging with pmm := pmm } heap.heapVirtMapped phys
      vmmKernelRw = none) :
    ensureMappedLoop stop (budget + 1) heap = .error .panic := by
  simp only [ensureMappedLoop_round hmore hroom, halloc, if_neg hne, hmap]

theorem ensureMappedLoop_mapped (hnext : MapsNext heap phys pmm paging) :
    ensureMappedLoop stop (budget + 1) heap =
      ensureMappedLoop stop budget (heap.mapped paging) := by
  simp only [ensureMappedLoop_round hmore hroom, hnext.alloc, if_neg hnext.ne,
    hnext.map]

end Loop

theorem pagesNeeded_pos : 0 < pagesNeeded heap stop ↔ heap.heapVirtMapped < stop := by
  simp only [pagesNeeded, pageSize]
  omega

theorem pagesNeeded_remap (hmore : heap.heapVirtMapped < stop)
    (paging : Paging) :
    pagesNeeded heap stop = pagesNeeded (heap.mapped paging) stop + 1 := by
  simp only [pagesNeeded, Kheap.remap, pageSize]
  omega

theorem pagesLeft_pos (hroom : heap.heapVirtMapped + pageSize ≤ heapMax) :
    0 < pagesLeft heap := by
  simp only [pagesLeft, pageSize] at *
  omega

theorem pagesLeft_eq_zero (hfull : heapMax < heap.heapVirtMapped + pageSize) :
    pagesLeft heap = 0 := by
  simp only [pagesLeft, pageSize] at *
  omega

theorem pagesLeft_remap (hroom : heap.heapVirtMapped + pageSize ≤ heapMax)
    (paging : Paging) :
    pagesLeft heap = pagesLeft (heap.mapped paging) + 1 := by
  simp only [pagesLeft, Kheap.remap, pageSize] at *
  omega

section Shift

variable {phys : Nat} {pmm : Pmm} {paging : Paging}
  (hmore : heap.heapVirtMapped < stop)
  (hroom : heap.heapVirtMapped + pageSize ≤ heapMax)
  (hnext : MapsNext heap phys pmm paging)

include hmore hroom hnext

theorem mapPanics_remap :
    MapPanics heap stop ↔ MapPanics (heap.mapped paging) stop := by
  have hcount := hnext.count
  have hrest := hnext.rest
  unfold MapPanics
  rw [pagesNeeded_remap hmore paging, pagesLeft_remap hroom paging]
  simp only [Kheap.remap]
  constructor
  · rintro ⟨k, hneeded, hleft, hframes, htable⟩
    cases k with
    | zero =>
        rw [tablesMissing_zero] at hframes htable
        rw [Nat.zero_add] at htable
        omega
    | succ k =>
        have hhere := hrest k
        have hafter := hrest (k + 1)
        exact ⟨k, by omega, by omega, by omega, by omega⟩
  · rintro ⟨k, hneeded, hleft, hframes, htable⟩
    have hhere := hrest k
    have hafter := hrest (k + 1)
    exact ⟨k + 1, by omega, by omega, by omega, by omega⟩

theorem mapsAll_remap :
    MapsAll heap stop ↔ MapsAll (heap.mapped paging) stop := by
  have hcount := hnext.count
  unfold MapsAll
  rw [pagesNeeded_remap hmore paging, pagesLeft_remap hroom paging, hnext.rest]
  simp only [Kheap.remap]
  omega

end Shift

/-- How the loop ends, told from the state before it. -/
theorem ensureMappedLoop_forecast {budget : Nat} (hheap : Mappable heap)
    (hbudget : heapMax < budget * pageSize + heap.heapVirtMapped) :
    (ensureMappedLoop stop budget heap = .error .panic ↔ MapPanics heap stop) ∧
      ((∃ heap', ensureMappedLoop stop budget heap = .ok (true, heap')) ↔
        MapsAll heap stop) := by
  induction budget generalizing heap with
  | zero =>
      have hceiling := hheap.ceiling
      omega
  | succ budget ih =>
      by_cases hmore : heap.heapVirtMapped < stop
      · have hneeded := pagesNeeded_pos.mpr hmore
        by_cases hroom : heap.heapVirtMapped + pageSize ≤ heapMax
        · have hleft := pagesLeft_pos hroom
          cases hheap.page hroom with
          | noFrame hnone halloc =>
              rw [ensureMappedLoop_noFrame hmore hroom halloc]
              refine ⟨iff_of_false (by simp) ?_, iff_of_false (by simp) ?_⟩
              · rintro ⟨k, -, -, hframes, -⟩
                omega
              · rintro ⟨-, hframes⟩
                omega
          | noTable phys pmm halloc hne hmap hlast hmissing =>
              rw [ensureMappedLoop_noTable hmore hroom halloc hne hmap]
              refine ⟨iff_of_true rfl ?_, iff_of_false (by simp) ?_⟩
              · exact ⟨0, hneeded, hleft, by simpa using hlast,
                  by simpa using hmissing⟩
              · rintro ⟨-, hframes⟩
                have hmono := tablesMissing_mono heap.paging heap.heapVirtMapped
                  (show 1 ≤ pagesNeeded heap stop from hneeded)
                omega
          | mapped phys pmm paging halloc hne hmap hready hcount hrest =>
              have hnext : MapsNext heap phys pmm paging :=
                ⟨halloc, hne, hmap, hready, hcount, hrest⟩
              rw [ensureMappedLoop_mapped hmore hroom hnext,
                mapPanics_remap hmore hroom hnext,
                mapsAll_remap hmore hroom hnext]
              apply ih hnext.ready
              rw [Nat.add_mul, Nat.one_mul] at hbudget
              simp only [Kheap.remap]
              omega
        · have hfull : heapMax < heap.heapVirtMapped + pageSize := by omega
          have hleft := pagesLeft_eq_zero hfull
          rw [ensureMappedLoop_full hmore hheap.ceiling hfull]
          refine ⟨iff_of_false (by simp) ?_, iff_of_false (by simp) ?_⟩
          · rintro ⟨k, -, hk, -⟩
            omega
          · rintro ⟨hk, -⟩
            omega
      · have hnone : pagesNeeded heap stop = 0 := by
          have hpos := @pagesNeeded_pos heap stop
          omega
        rw [ensureMappedLoop_done hmore]
        refine ⟨iff_of_false (by simp) ?_, iff_of_true ⟨heap, rfl⟩ ?_⟩
        · rintro ⟨k, hk, -⟩
          omega
        · rw [MapsAll, hnone, tablesMissing_zero]
          omega

theorem ensureMapped_panics_iff (hheap : Mappable heap) :
    ensureMapped heap stop = .error .panic ↔ MapPanics heap stop :=
  (ensureMappedLoop_forecast hheap (by
    simp only [heapMax, pageSize]
    omega)).1

theorem ensureMapped_succeeds_iff (hheap : Mappable heap) :
    (∃ heap', ensureMapped heap stop = .ok (true, heap')) ↔ MapsAll heap stop :=
  (ensureMappedLoop_forecast hheap (by
    simp only [heapMax, pageSize]
    omega)).2

/-- The next `k` pages of the heap have been mapped to frames that were free,
in new tables where there were none; nothing else has changed. -/
structure MapsPages (heap : Kheap) (k : Nat) (paging : Paging) : Prop where
  pageDirectory : paging.pageDirectory = heap.paging.pageDirectory
  backed : ∀ j < k, ∃ pde phys,
    walk paging.mem paging.pageDirectory (heap.heapVirtMapped + j * pageSize) =
      some (pde, pageEntry phys vmmKernelRw) ∧
    bitmapTest heap.paging.pmm (addrToFrame phys) = false ∧
    bitmapTest paging.pmm (addrToFrame phys) = true
  others : ∀ virt < 2 ^ 32,
    (∀ j < k, pageFloor virt ≠ pageFloor (heap.heapVirtMapped + j * pageSize)) →
      walk paging.mem paging.pageDirectory virt =
        walk heap.paging.mem heap.paging.pageDirectory virt
  used : ∀ frame, bitmapTest heap.paging.pmm frame = true →
    bitmapTest paging.pmm frame = true
  taken : clearFrames paging.pmm + k +
    tablesMissing heap.paging heap.heapVirtMapped k = clearFrames heap.paging.pmm

theorem mapsPages_zero (heap : Kheap) : MapsPages heap 0 heap.paging :=
  ⟨rfl, by simp, fun _ _ _ => rfl, fun _ h => h, by simp⟩

theorem pageFloor_add_pages (addr j : Nat) :
    pageFloor (addr + j * pageSize) = pageFloor addr + j * pageSize := by
  simp only [pageFloor, pageSize]
  omega

/-- One page, and then the others. -/
theorem MapsPages.cons (hheap : Mappable heap) {phys : Nat} {pmm : Pmm}
    {paging paging' : Paging} {k : Nat}
    (hnext : MapsNext heap phys pmm paging)
    (hpages : MapsPages (heap.mapped paging) k paging') :
    MapsPages heap (k + 1) paging' := by
  obtain ⟨halloc, hne, hmap, -, hcount, hrest⟩ := hnext
  have hvirt := hheap.lt
  have hinv := (hheap.tables.alloc halloc).1
  have hallocates := pmmAllocFrame_allocates hheap.tables.searchPos
    hheap.tables.searchLe halloc
  obtain ⟨-, hclear, htaken⟩ := hallocates.takes hne
  obtain ⟨-, hrewrites⟩ := vmmMapPage_spec hinv hvirt hmap
  have hkeeps : ∀ frame, bitmapTest pmm frame = true →
      bitmapTest paging.pmm frame = true :=
    fun frame hused => vmmMapPage_used hinv hmap hused
  have hpd := hrewrites.pageDirectory
  have hnext : ∀ j, heap.heapVirtMapped + pageSize + j * pageSize =
      heap.heapVirtMapped + (j + 1) * pageSize := by
    intro j
    rw [Nat.add_mul, Nat.one_mul]
    omega
  refine ⟨hpages.pageDirectory.trans hpd, ?_, ?_, ?_, ?_⟩
  · intro j hj
    cases j with
    | zero =>
        -- the later rounds leave the first page alone
        refine ⟨paging.mem (slotAddr heap.paging.pageDirectory
            (pdIndex heap.heapVirtMapped)), phys, ?_, hclear,
          hpages.used _ (hkeeps _ htaken)⟩
        rw [Nat.zero_mul, Nat.add_zero, hpages.others _ hvirt ?_]
        · have hwalk := hrewrites.walk heap.heapVirtMapped hvirt
          rw [if_pos rfl, if_pos (isPresent_pageEntry phys vmmKernelRw)] at hwalk
          simp only [Kheap.remap]
          rw [hpd]
          exact hwalk
        · intro j _
          simp only [Kheap.remap]
          rw [hnext, pageFloor_add_pages]
          simp only [pageSize]
          omega
    | succ j =>
        obtain ⟨pde, phys', hwalk, hclear', htaken'⟩ :=
          hpages.backed j (by omega)
        simp only [Kheap.remap, hnext] at hwalk
        refine ⟨pde, phys', hwalk, ?_, htaken'⟩
        -- a frame that is clear now was clear before
        rw [← Bool.not_eq_true] at hclear' ⊢
        exact fun hused => hclear' (hkeeps _ (hallocates.keeps _ hused))
  · intro virt hlt hother
    rw [hpages.others virt hlt ?_]
    · have hwalk := hrewrites.walk virt hlt
      have hfirst := hother 0 (by omega)
      rw [Nat.zero_mul, Nat.add_zero] at hfirst
      rw [if_neg hfirst] at hwalk
      simp only [Kheap.remap]
      rw [hpd]
      exact hwalk
    · intro j hj
      simp only [Kheap.remap, hnext]
      exact hother (j + 1) (by omega)
  · exact fun frame hused =>
      hpages.used frame (hkeeps frame (hallocates.keeps frame hused))
  · have htaken := hpages.taken
    simp only [Kheap.remap] at htaken
    have hmissing := hrest k
    omega

/-- A failure keeps the pages that were mapped before it, and comes only when
there is no room or no frame for one more. -/
theorem ensureMappedLoop_fails {budget : Nat} {heap' : Kheap}
    (hheap : Mappable heap)
    (hrun : ensureMappedLoop stop budget heap = .ok (false, heap')) :
    ∃ k paging, heap' = heap.remap (heap.heapVirtMapped + k * pageSize) paging ∧
      MapsPages heap k paging ∧ (k = 0 → paging = heap.paging) ∧
      k < pagesNeeded heap stop ∧
      (k = pagesLeft heap ∨ clearFrames paging.pmm = 0) := by
  induction budget generalizing heap with
  | zero => cases hrun
  | succ budget ih =>
      by_cases hmore : heap.heapVirtMapped < stop
      · have hneeded := pagesNeeded_pos.mpr hmore
        by_cases hroom : heap.heapVirtMapped + pageSize ≤ heapMax
        · cases hheap.page hroom with
          | noFrame hnone halloc =>
              rw [ensureMappedLoop_noFrame hmore hroom halloc] at hrun
              obtain ⟨-, rfl⟩ := Prod.mk.inj (Except.ok.inj hrun)
              exact ⟨0, heap.paging, by simp [Kheap.remap], mapsPages_zero heap,
                fun _ => rfl, hneeded, .inr hnone⟩
          | noTable phys pmm halloc hne hmap _ _ =>
              rw [ensureMappedLoop_noTable hmore hroom halloc hne hmap] at hrun
              cases hrun
          | mapped phys pmm paging halloc hne hmap hready hcount hrest =>
              have hnext : MapsNext heap phys pmm paging :=
                ⟨halloc, hne, hmap, hready, hcount, hrest⟩
              rw [ensureMappedLoop_mapped hmore hroom hnext] at hrun
              obtain ⟨k, paging', hheap', hpages, -, hk, hwhy⟩ := ih hnext.ready hrun
              have hleft := pagesLeft_remap hroom paging
              have hshort := pagesNeeded_remap hmore paging
              refine ⟨k + 1, paging', ?_, ?_, by simp, by omega, ?_⟩
              · rw [hheap']
                simp only [Kheap.remap, Nat.add_mul, Nat.one_mul, Nat.add_assoc,
                  Nat.add_comm pageSize]
              · exact hpages.cons hheap hnext
              · omega
        · have hfull : heapMax < heap.heapVirtMapped + pageSize := by omega
          rw [ensureMappedLoop_full hmore hheap.ceiling hfull] at hrun
          obtain ⟨-, rfl⟩ := Prod.mk.inj (Except.ok.inj hrun)
          exact ⟨0, heap.paging, by simp [Kheap.remap], mapsPages_zero heap,
            fun _ => rfl, hneeded, .inl (pagesLeft_eq_zero hfull).symm⟩
      · rw [ensureMappedLoop_done hmore] at hrun
        cases hrun

end Forecast

end Orion
