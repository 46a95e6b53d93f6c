/-
The mappings that a load adds.  The page loop of a segment maps what is not
mapped yet, each page to a frame that was free, and takes frames for the tables
it needs; it never unmaps anything.  The end of the loop is computed in 32
bits, so a segment that reaches the last page of the address space is not
mapped at all.
-/
import Orion.ElfImage

namespace Orion

open MachineInt

/-- The frame of a page mapped since `start`, or of a table made since. -/
def NewFrame (start mem : MappedMem) (i : Nat) : Prop :=
  (∃ addr p, addr < 2 ^ 32 ∧ start.phys addr = none ∧ mem.phys addr = some p ∧
    addrToFrame p = i) ∨
  ∃ table, IsTable mem.paging.mem mem.paging.pageDirectory table ∧
    ¬ IsTable start.paging.mem start.paging.pageDirectory table ∧
    addrToFrame table = i

/-- Since `start` nothing has been unmapped or mapped elsewhere, the addresses
mapped lie in `region` and have bytes of their own, and the frames taken are
those of the new pages and tables. -/
structure MapsMore (region : Nat → Prop) (spaces : List Nat)
    (start mem : MappedMem) : Prop where
  inv : PagingInv mem.paging.pmm mem.paging.mem mem.paging.pageDirectory spaces
  kept : ∀ addr, addr < 2 ^ 32 → ∀ p, start.phys addr = some p →
    mem.phys addr = some p
  added : ∀ addr, addr < 2 ^ 32 → start.phys addr = none →
    (mem.phys addr).isSome → region addr
  apart : ∀ addr addr' p, addr < 2 ^ 32 → addr' < 2 ^ 32 →
    start.phys addr = none → start.phys addr' = none →
    mem.phys addr = some p → mem.phys addr' = some p → addr = addr'
  tables : ∀ table, IsTable start.paging.mem start.paging.pageDirectory table →
    IsTable mem.paging.mem mem.paging.pageDirectory table
  fresh : ∀ i, NewFrame start mem i →
    bitmapTest start.paging.pmm i = false
  frames : ∀ i, bitmapTest mem.paging.pmm i = true ↔
    bitmapTest start.paging.pmm i = true ∨ NewFrame start mem i

section Steps

variable {region : Nat → Prop} {spaces : List Nat} {start mem mid next : MappedMem}
  {page frame : Nat}

theorem MapsMore.refl
    (hinv : mem.paging.Inv spaces) : MapsMore region spaces mem mem := by
  have hnone : ∀ i, ¬ NewFrame mem mem i := by
    rintro i (⟨addr, p, -, hunmapped, hp, -⟩ | ⟨table, htable, hnot, -⟩)
    · rw [hunmapped] at hp
      cases hp
    · exact hnot htable
  refine ⟨hinv, fun _ _ _ h => h, fun addr _ hunmapped hsome => ?_,
    fun addr addr' p _ _ hunmapped _ hp _ => ?_, fun _ h => h,
    fun i hi => absurd hi (hnone i), fun i => ?_⟩
  · rw [hunmapped] at hsome
    cases hsome
  · rw [hunmapped] at hp
    cases hp
  · rw [or_iff_left (hnone i)]

theorem MapsMore.of_paging (hmore : MapsMore region spaces start mem)
    (hpaging : next.paging = mem.paging) : MapsMore region spaces start next := by
  have hphys : next.phys = mem.phys := by
    unfold MappedMem.phys
    rw [hpaging]
  have hnew : NewFrame start next = NewFrame start mem := by
    unfold NewFrame
    rw [hphys, hpaging]
  obtain ⟨hinv, hkept, hadded, hapart, htables, hfresh, hframes⟩ := hmore
  refine ⟨?_, ?_, ?_, ?_, ?_, ?_, ?_⟩
  · rw [hpaging]
    exact hinv
  · rw [hphys]
    exact hkept
  · rw [hphys]
    exact hadded
  · rw [hphys]
    exact hapart
  · rw [hpaging]
    exact htables
  · rw [hnew]
    exact hfresh
  · rw [hnew, hpaging]
    exact hframes

theorem MapsMore.start_eq_none (hmore : MapsMore region spaces start mem) {addr : Nat}
    (haddr : addr < 2 ^ 32) (hnone : mem.phys addr = none) :
    start.phys addr = none := by
  cases hp : start.phys addr with
  | none => rfl
  | some p =>
      rw [hmore.kept addr haddr p hp] at hnone
      cases hnone

/-- The frames and tables that come with a new page. -/
structure TakesFrames (mem mid : MappedMem) (frame : Nat) (fresh : Option Nat) :
    Prop where
  tables : ∀ table, IsTable mid.paging.mem mid.paging.pageDirectory table ↔
    IsTable mem.paging.mem mem.paging.pageDirectory table ∨ fresh = some table
  newTable : ∀ table, fresh = some table →
    ¬ IsTable mem.paging.mem mem.paging.pageDirectory table ∧
      bitmapTest mem.paging.pmm (addrToFrame table) = false
  frames : ∀ i, bitmapTest mid.paging.pmm i = true ↔
    bitmapTest mem.paging.pmm i = true ∨ i = addrToFrame frame ∨
      ∃ table, fresh = some table ∧ i = addrToFrame table

theorem pmmAllocFrame_used {pmm pmm' : Pmm} (hpos : 1 ≤ pmm.allocSearch)
    (hle : pmm.allocSearch ≤ pmmMaxFrames)
    (halloc : pmmAllocFrame pmm = (frame, pmm')) (hzero : frame ≠ 0) (i : Nat) :
    bitmapTest pmm' i = true ↔
      bitmapTest pmm i = true ∨ i = addrToFrame frame := by
  rcases pmmAllocFrame_inversion hpos hle with
    hnone | ⟨found, -, -, -, hsome⟩
  · exact absurd (Prod.mk.inj (halloc.symm.trans hnone)).1 hzero
  · obtain ⟨rfl, rfl⟩ := Prod.mk.inj (halloc.symm.trans hsome)
    rw [bitmapTest_pmmTakeFrame, addrToFrame_mul, Bool.or_eq_true,
      decide_eq_true_eq, or_comm]

theorem PagingInv.takesFrames
    (hinv : mem.paging.Inv spaces)
    (hpage : IsFrame page) {pmm : Pmm}
    (halloc : pmmAllocFrame mem.paging.pmm = (frame, pmm)) (hzero : frame ≠ 0)
    {paging : Paging}
    (hmap : vmmMapPage { mem.paging with pmm := pmm } page frame vmmKernelRw =
      some paging) :
    ∃ fresh, TakesFrames mem { mem with paging := paging } frame fresh := by
  have hused := pmmAllocFrame_used hinv.searchPos hinv.searchLe halloc hzero
  have hkeeps := (pmmAllocFrame_allocates hinv.searchPos hinv.searchLe
    halloc).keeps
  obtain ⟨hinv', -⟩ := hinv.alloc halloc
  obtain ⟨-, hrewrites⟩ := @vmmMapPage_spec _ _ _ hinv' _ _ hpage.2 _ hmap
  obtain ⟨table, made, hcreate, rfl⟩ := vmmMapPage_eq_some hmap
  have htables := hrewrites.tables
  rw [← hrewrites.pageDirectory] at htables
  rcases createTable_eq_some hcreate with
    ⟨hpresent, -, rfl⟩ | ⟨habsent, pmm', halloc', hzero', rfl⟩
  · refine ⟨none, fun other => ?_, nofun, fun i => ?_⟩
    · have hother := htables other
      rw [freshTable, if_pos hpresent] at hother
      exact hother
    · refine (hused i).trans (or_congr_right ?_)
      simp
  · have hallocates' := pmmAllocFrame_allocates hinv'.searchPos hinv'.searchLe
      halloc'
    obtain ⟨hframe, hfree, -⟩ := hallocates'.takes hzero'
    have hfree' : bitmapTest mem.paging.pmm (addrToFrame table) = false := by
      by_contra htaken
      rw [hkeeps _ (eq_true_of_ne_false htaken)] at hfree
      cases hfree
    refine ⟨some table, fun other => ?_, ?_, fun i => ?_⟩
    · have hother := htables other
      rw [freshTable, if_neg habsent, halloc'] at hother
      exact hother
    · rintro other ⟨⟩
      refine ⟨fun hold => ?_, hfree'⟩
      rw [hinv.used table (.inr (.inl hold))] at hfree'
      cases hfree'
    · have hused' := pmmAllocFrame_used hinv'.searchPos hinv'.searchLe halloc'
        hzero' i
      refine hused'.trans ?_
      rw [hused i, or_assoc]
      simp only [Option.some.injEq, exists_eq_left']

theorem AddsPage.phys_eq_none (hadds : AddsPage mem mid page frame) {addr : Nat}
    (haddr : pageFloor addr = page) : mem.phys addr = none := by
  have hbyte := hadds.byte_eq_none haddr
  rwa [MappedMem.byte, Option.map_eq_none_iff] at hbyte

theorem AddsPage.phys_of_some (hadds : AddsPage mem mid page frame)
    {addr p : Nat} (haddr : addr < 2 ^ 32) (hp : mem.phys addr = some p) :
    mid.phys addr = some p := by
  rw [hadds.phys addr haddr, if_neg, hp]
  intro hin
  rw [hadds.phys_eq_none hin] at hp
  cases hp

theorem MapsMore.newFrame_iff (hmore : MapsMore region spaces start mem)
    (hadds : AddsPage mem mid page frame) {fresh : Option Nat}
    (htakes : TakesFrames mem mid frame fresh) (i : Nat) :
    NewFrame start mid i ↔ NewFrame start mem i ∨ i = addrToFrame frame ∨
      ∃ table, fresh = some table ∧ i = addrToFrame table := by
  constructor
  · rintro (⟨addr, p, haddr, hunmapped, hp, hi⟩ | ⟨table, htable, hnot, hi⟩)
    · rw [hadds.phys addr haddr] at hp
      split_ifs at hp with hin
      · obtain rfl := Option.some.inj hp
        rw [addrToFrame_add hadds.alignedFrame] at hi
        exact .inr (.inl hi.symm)
      · exact .inl (.inl ⟨addr, p, haddr, hunmapped, hp, hi⟩)
    · rcases (htakes.tables table).mp htable with hold | hnew
      · exact .inl (.inr ⟨table, hold, hnot, hi⟩)
      · exact .inr (.inr ⟨table, hnew, hi.symm⟩)
  · rintro ((⟨addr, p, haddr, hunmapped, hp, hi⟩ | ⟨table, htable, hnot, hi⟩) |
      rfl | ⟨table, hnew, rfl⟩)
    · exact .inl ⟨addr, p, haddr, hunmapped, hadds.phys_of_some haddr hp, hi⟩
    · exact .inr ⟨table, (htakes.tables table).mpr (.inl htable), hnot, hi⟩
    · have hpage := hadds.alignedPage
      have hnone := hadds.phys_eq_none hpage.pageFloor_eq
      refine .inl ⟨page, _, hpage.2, hmore.start_eq_none hpage.2 hnone, ?_,
        addrToFrame_add hadds.alignedFrame page⟩
      rw [hadds.phys page hpage.2, if_pos hpage.pageFloor_eq]
    · exact .inr ⟨table, (htakes.tables table).mpr (.inr hnew),
        fun hold => (htakes.newTable table hnew).1 (hmore.tables table hold), rfl⟩

/-- One more page of the region. -/
theorem MapsMore.addPage (hmore : MapsMore region spaces start mem)
    (hadds : AddsPage mem mid page frame) {fresh : Option Nat}
    (htakes : TakesFrames mem mid frame fresh)
    (hinv : mid.paging.Inv spaces)
    (hregion : ∀ addr, pageFloor addr = page → region addr) :
    MapsMore region spaces start mid := by
  have hnew := hmore.newFrame_iff hadds htakes
  -- a frame that is free now was free at the start
  have hfree : ∀ i, bitmapTest mem.paging.pmm i = false →
      bitmapTest start.paging.pmm i = false := by
    intro i hi
    by_contra hused
    rw [(hmore.frames i).mpr (.inl (eq_true_of_ne_false hused))] at hi
    cases hi
  have hold : ∀ addr p, addr < 2 ^ 32 → start.phys addr = none →
      mem.phys addr = some p → ∀ offset, p ≠ frame + offset % 2 ^ 12 := by
    rintro addr p haddr hunmapped hp offset rfl
    have hused := (hmore.frames _).mpr
      (.inr (.inl ⟨addr, _, haddr, hunmapped, hp, rfl⟩))
    rw [addrToFrame_add hadds.alignedFrame, hadds.free] at hused
    cases hused
  refine ⟨hinv, ?_, ?_, ?_, ?_, ?_, ?_⟩
  · intro addr haddr p hp
    exact hadds.phys_of_some haddr (hmore.kept addr haddr p hp)
  · intro addr haddr hunmapped hsome
    rw [hadds.phys addr haddr] at hsome
    split_ifs at hsome with hin
    · exact hregion addr hin
    · exact hmore.added addr haddr hunmapped hsome
  · intro addr addr' p haddr haddr' hunmapped hunmapped' hp hp'
    rw [hadds.phys addr haddr] at hp
    rw [hadds.phys addr' haddr'] at hp'
    split_ifs at hp with hin <;> split_ifs at hp' with hin'
    · have heq := Option.some.inj (hp.trans hp'.symm)
      rw [← hin] at hin'
      simp only [pageFloor, pageSize] at hin'
      omega
    · obtain rfl := Option.some.inj hp
      exact absurd rfl (hold addr' _ haddr' hunmapped' hp' addr)
    · obtain rfl := Option.some.inj hp'
      exact absurd rfl (hold addr _ haddr hunmapped hp addr')
    · exact hmore.apart addr addr' p haddr haddr' hunmapped hunmapped' hp hp'
  · intro table htable
    exact (htakes.tables table).mpr (.inl (hmore.tables table htable))
  · intro i hi
    rcases (hnew i).mp hi with hi | rfl | ⟨table, htable, rfl⟩
    · exact hmore.fresh i hi
    · exact hfree _ hadds.free
    · exact hfree _ (htakes.newTable table htable).2
  · intro i
    rw [htakes.frames, hmore.frames, hnew, or_assoc]

/-- One round of the page loop, whether it finds a frame or not. -/
theorem mapSegmentPage_mapsMore (hmore : MapsMore region spaces start mem)
    (hpage : IsFrame page)
    (hregion : ∀ addr, pageFloor addr = page → region addr) {ok : Bool}
    (hmap : mapSegmentPage mem page = some (ok, next)) :
    MapsMore region spaces start next ∧
      (ok = true → vmmIsMapped next.paging page = true) := by
  rcases mapSegmentPage_cases hmap with ⟨hmapped, -, rfl⟩ |
    ⟨hmapped, frame, pmm, halloc, ⟨hzero, rfl, rfl⟩ |
      ⟨hzero, -, paging, hpaging, hset⟩⟩
  · exact ⟨hmore, fun _ => hmapped⟩
  · refine ⟨?_, nofun⟩
    rcases pmmAllocFrame_inversion hmore.inv.searchPos hmore.inv.searchLe with
      hnone | ⟨found, hpos, -, -, hsome⟩
    · obtain ⟨-, rfl⟩ := Prod.mk.inj (halloc.symm.trans hnone)
      exact hmore.of_paging rfl
    · have hframe := (Prod.mk.inj (halloc.symm.trans hsome)).1
      simp only [pageSize] at hframe
      omega
  · obtain ⟨hadds, hinv⟩ :=
      hmore.inv.addsPage hpage hmapped halloc hzero hpaging
    obtain ⟨fresh, htakes⟩ := hmore.inv.takesFrames hpage halloc hzero hpaging
    have hsame := storeBytes_paging hset
    exact ⟨(hmore.addPage hadds htakes hinv hregion).of_paging hsame,
      fun _ => hadds.isMapped hsame⟩

end Steps

/-- `elf_load_segment` gets as far as the copy of the file image, with the
memory `mem`. -/
def ReachesCopy (state : LoadState) (ph : Elf32Phdr) (mem : MappedMem) : Prop :=
  ph.pFilesz ≤ ph.pMemsz ∧ ph.pMemsz ≠ 0 ∧ ph.pFilesz ≠ 0 ∧
    mapSegmentPages state.mem (pageFloor ph.pVaddr) ph.pageEnd = some (true, mem)

/-- What is copied goes to mapped pages, and a segment that does not fit into
the address space is refused before the copy. -/
structure CopiesMapped (state : LoadState) (f : Ref) (ph : Elf32Phdr) : Prop where
  mapped : ∀ mem, ReachesCopy state ph mem → ∀ addr, ph.InRange addr →
    vmmIsMapped mem.paging addr = true
  refused : 2 ^ 32 < ph.pVaddr + ph.pMemsz →
    (∃ final, elfLoadSegment state f ph = some (false, final)) ∧
      ∀ mem, ¬ ReachesCopy state ph mem

/-- The segment is refused or empty, or the last page is not needed or not
reached, or it is needed and everything is mapped already.  A segment of almost
4 GB is refused if its first page finds no frame. -/
def Elf32Phdr.Mappable (ph : Elf32Phdr) (paging : Paging) : Prop :=
  ph.pMemsz < ph.pFilesz ∨ ph.pMemsz = 0 ∨
  ph.pVaddr + ph.pMemsz + (pageSize - 1) < 2 ^ 32 ∨
  ph.pVaddr + ph.pMemsz ≤ 2 ^ 32 ∧ (ph.pFilesz = 0 ∨
    ∀ addr, ph.InRange addr → vmmIsMapped paging addr = true) ∨
  2 ^ 32 < ph.pVaddr % pageSize + ph.pMemsz ∧
    ph.pVaddr + ph.pMemsz + (pageSize - 1) < 2 ^ 33 ∧
    vmmIsMapped paging (pageFloor ph.pVaddr) = false ∧
    (pmmAllocFrame paging.pmm).1 = 0

section Segments

variable {state : LoadState} {f : Ref} {ph : Elf32Phdr} {spaces : List Nat}
  {mem next : MappedMem} {page pageEnd : Nat}

/-- The page loop unmaps nothing and maps its range. -/
theorem mapSegmentPages_maps
    (hinv : mem.paging.Inv spaces)
    (haligned : page % pageSize = 0) (hend : pageEnd ≤ 2 ^ 32)
    (hpages : mapSegmentPages mem page pageEnd = some (true, next)) :
    (∀ addr, addr < 2 ^ 32 → ∀ p, mem.phys addr = some p →
      next.phys addr = some p) ∧
    ∀ addr, page ≤ addr → addr < pageEnd → (next.phys addr).isSome := by
  fun_induction mapSegmentPages mem page pageEnd with
  | case1 => cases hpages
  | case2 => cases hpages
  | case3 mem page hlt mid hmap ih =>
      obtain ⟨hmore, hmapped⟩ := mapSegmentPage_mapsMore
        (MapsMore.refl hinv : MapsMore (fun _ => True) _ _ _)
        ⟨haligned, Nat.lt_of_lt_of_le hlt hend⟩ (fun _ _ => trivial) hmap
      obtain ⟨hkept, hrest⟩ := ih hmore.inv
        (by simp only [pageSize] at haligned ⊢; omega) hpages
      refine ⟨fun addr haddr p hp => hkept addr haddr p
        (hmore.kept addr haddr p hp), fun addr hlow hhigh => ?_⟩
      by_cases hin : addr < page + pageSize
      · have hfloor : pageFloor addr = pageFloor page := by
          simp only [pageFloor, pageSize] at haligned hin ⊢
          omega
        have hbyte := (vmmIsMapped_byte hfloor).mp (hmapped rfl)
        rw [MappedMem.byte, Option.isSome_map] at hbyte
        obtain ⟨p, hp⟩ := Option.isSome_iff_exists.mp hbyte
        rw [hkept addr (Nat.lt_of_lt_of_le hhigh hend) p hp]
        rfl
      · exact hrest addr (Nat.le_of_not_lt hin) hhigh
  | case4 mem page hge =>
      obtain ⟨-, rfl⟩ := Prod.mk.inj (Option.some.inj hpages)
      exact ⟨fun _ _ _ h => h,
        fun addr hlow hhigh => absurd (Nat.lt_of_le_of_lt hlow hhigh) hge⟩

theorem vmmIsMapped_of_phys {addr : Nat} (hsome : (mem.phys addr).isSome) :
    vmmIsMapped mem.paging addr = true := by
  rw [@vmmIsMapped_byte mem addr addr rfl, MappedMem.byte, Option.isSome_map]
  exact hsome

theorem mapSegmentPages_of_le (hle : pageEnd ≤ page) :
    mapSegmentPages mem page pageEnd = some (true, mem) := by
  rw [mapSegmentPages, if_neg (Nat.not_lt.mpr hle)]

/-- A range of one page. -/
theorem mapSegmentPages_of_one (hlt : page < pageEnd)
    (hone : pageEnd ≤ page + pageSize) :
    mapSegmentPages mem page pageEnd = mapSegmentPage mem page := by
  rw [mapSegmentPages, if_pos hlt]
  rcases mapSegmentPage mem page with _ | ⟨_ | _, next⟩
  · rfl
  · rfl
  · exact mapSegmentPages_of_le hone

/-- The loop gives up at a page exactly if it has no frame for it. -/
theorem mapSegmentPage_eq_false :
    (∃ next, mapSegmentPage mem page = some (false, next)) ↔
      vmmIsMapped mem.paging page = false ∧
        (pmmAllocFrame mem.paging.pmm).1 = 0 := by
  unfold mapSegmentPage
  rcases pmmAllocFrame mem.paging.pmm with ⟨frame, pmm⟩
  dsimp only
  split_ifs with hmapped hzero
  · simp [hmapped]
  · simp [hmapped, hzero]
  · refine iff_of_false ?_ fun h => hzero h.2
    rintro ⟨next, hnext⟩
    split at hnext
    · cases hnext
    · obtain ⟨set, -, heq⟩ := Option.map_eq_some_iff.mp hnext
      cases heq

end Segments

section Ends

variable {ph : Elf32Phdr}

theorem Elf32Phdr.pageEnd_of_fits
    (hfits : ph.pVaddr + ph.pMemsz + (pageSize - 1) < 2 ^ 32) :
    ph.pVaddr + ph.pMemsz ≤ ph.pageEnd ∧ ph.pageEnd ≤ 2 ^ 32 := by
  simp only [pageEnd, pageFloor, u32, pageSize] at hfits ⊢
  omega

theorem Elf32Phdr.pageEnd_of_last (hle : ph.pVaddr + ph.pMemsz ≤ 2 ^ 32)
    (hlast : 2 ^ 32 ≤ ph.pVaddr + ph.pMemsz + (pageSize - 1)) :
    ph.pageEnd ≤ pageFloor ph.pVaddr := by
  simp only [pageEnd, pageFloor, u32, pageSize] at hlast ⊢
  omega

/-- Beyond the address space the loop has one page or none. -/
theorem Elf32Phdr.pageEnd_of_over (hvaddr : ph.pVaddr < 2 ^ 32)
    (hmemsz : ph.pMemsz < 2 ^ 32) (hover : 2 ^ 32 < ph.pVaddr + ph.pMemsz) :
    ph.pageEnd ≤ pageFloor ph.pVaddr + pageSize ∧
      (pageFloor ph.pVaddr < ph.pageEnd ↔
        2 ^ 32 < ph.pVaddr % pageSize + ph.pMemsz ∧
          ph.pVaddr + ph.pMemsz + (pageSize - 1) < 2 ^ 33) := by
  simp only [pageEnd, pageFloor, u32, pageSize]
  omega

end Ends

section Cases

variable {state : LoadState} {f : Ref} {ph : Elf32Phdr} {spaces : List Nat}

theorem copiesMapped_of_corrupt (hcorrupt : ph.pMemsz < ph.pFilesz) :
    CopiesMapped state f ph where
  mapped := fun _ hreaches => absurd hreaches.1 (Nat.not_le.mpr hcorrupt)
  refused := fun _ => ⟨⟨state, if_pos hcorrupt⟩,
    fun _ hreaches => absurd hreaches.1 (Nat.not_le.mpr hcorrupt)⟩

theorem copiesMapped_of_empty (hvaddr : ph.pVaddr < 2 ^ 32)
    (hempty : ph.pMemsz = 0) : CopiesMapped state f ph where
  mapped := fun _ hreaches => absurd hempty hreaches.2.1
  refused := fun hover => by omega

/-- Below the last page the loop does its work. -/
theorem copiesMapped_of_fits
    (hinv : state.mem.paging.Inv spaces)
    (hfits : ph.pVaddr + ph.pMemsz + (pageSize - 1) < 2 ^ 32) :
    CopiesMapped state f ph where
  mapped := by
    rintro mem ⟨-, -, -, hpages⟩ addr ⟨hlow, hhigh⟩
    obtain ⟨hlast, hend⟩ := ph.pageEnd_of_fits hfits
    have hmaps := (mapSegmentPages_maps hinv (Nat.mul_mod_left _ _) hend
      hpages).2
    refine vmmIsMapped_of_phys (hmaps addr ?_ (hhigh.trans_le hlast))
    exact (Nat.div_mul_le_self _ _).trans hlow
  refused := fun hover => by omega

/-- A segment that ends in the last page is copied without any mapping. -/
theorem copiesMapped_of_last (hle : ph.pFilesz ≤ ph.pMemsz)
    (hmemsz : ph.pMemsz ≠ 0) (hend : ph.pVaddr + ph.pMemsz ≤ 2 ^ 32)
    (hlast : 2 ^ 32 ≤ ph.pVaddr + ph.pMemsz + (pageSize - 1)) :
    CopiesMapped state f ph ↔ (ph.pFilesz = 0 ∨ ∀ addr, ph.InRange addr →
      vmmIsMapped state.mem.paging addr = true) := by
  have hpages := @mapSegmentPages_of_le state.mem (pageFloor ph.pVaddr)
    ph.pageEnd (ph.pageEnd_of_last hend hlast)
  constructor
  · intro hcopies
    refine or_iff_not_imp_left.mpr fun hfilesz => ?_
    exact hcopies.mapped state.mem ⟨hle, hmemsz, hfilesz, hpages⟩
  · intro hmapped
    refine ⟨?_, fun hover => by omega⟩
    rintro mem ⟨-, -, hfilesz, hreached⟩
    obtain ⟨-, rfl⟩ := Prod.mk.inj (Option.some.inj (hreached.symm.trans hpages))
    exact hmapped.resolve_left hfilesz

/-- A segment that does not fit is refused only for want of a frame. -/
theorem copiesMapped_of_over (hvaddr : ph.pVaddr < 2 ^ 32)
    (hmemsz : ph.pMemsz < 2 ^ 32) (hle : ph.pFilesz ≤ ph.pMemsz)
    (hover : 2 ^ 32 < ph.pVaddr + ph.pMemsz) :
    CopiesMapped state f ph ↔ 2 ^ 32 < ph.pVaddr % pageSize + ph.pMemsz ∧
      ph.pVaddr + ph.pMemsz + (pageSize - 1) < 2 ^ 33 ∧
      vmmIsMapped state.mem.paging (pageFloor ph.pVaddr) = false ∧
      (pmmAllocFrame state.mem.paging.pmm).1 = 0 := by
  obtain ⟨hone, hlt⟩ := ph.pageEnd_of_over hvaddr hmemsz hover
  have hne : ph.pMemsz ≠ 0 := by omega
  rw [← and_assoc, ← hlt, ← mapSegmentPage_eq_false]
  constructor
  · intro hcopies
    obtain ⟨⟨final, hfinal⟩, hnot⟩ := hcopies.refused hover
    rw [elfLoadSegment, if_neg (Nat.not_lt.mpr hle), if_neg hne] at hfinal
    rcases hpages : mapSegmentPages state.mem (pageFloor ph.pVaddr)
        ph.pageEnd with _ | ⟨_ | _, mem⟩
    · rw [hpages] at hfinal
      cases hfinal
    · have hloop : pageFloor ph.pVaddr < ph.pageEnd := by
        by_contra hge
        rw [mapSegmentPages_of_le (Nat.le_of_not_lt hge)] at hpages
        cases hpages
      rw [mapSegmentPages_of_one hloop hone] at hpages
      exact ⟨hloop, mem, hpages⟩
    · rw [hpages] at hfinal
      dsimp only at hfinal
      split_ifs at hfinal with hfilesz
      · cases hfinal
      · exact absurd ⟨hle, hne, hfilesz, hpages⟩ (hnot mem)
  · rintro ⟨hloop, mem, hpage⟩
    rw [← mapSegmentPages_of_one hloop hone] at hpage
    have hnot : ∀ mem, ¬ ReachesCopy state ph mem := by
      rintro mem' ⟨-, -, -, hreached⟩
      rw [hpage] at hreached
      cases hreached
    refine ⟨fun mem hreaches => absurd hreaches (hnot mem), fun _ => ⟨?_, hnot⟩⟩
    rw [elfLoadSegment, if_neg (Nat.not_lt.mpr hle), if_neg hne, hpage]
    exact ⟨_, rfl⟩

end Cases

/-- Every segment is copied to mapped pages, and refused beforehand if it does
not fit, exactly if its end is not in or beyond the last page of the address
space, apart from the segments with nothing to map or to copy. -/
theorem elfLoadSegment_mapped_iff (state : LoadState) (f : Ref) (ph : Elf32Phdr)
    (spaces : List Nat) (hvaddr : ph.pVaddr < 2 ^ 32)
    (hmemsz : ph.pMemsz < 2 ^ 32)
    (hinv : PagingInv state.mem.paging.pmm state.mem.paging.mem
      state.mem.paging.pageDirectory spaces) :
    CopiesMapped state f ph ↔ ph.Mappable state.mem.paging := by
  by_cases hcorrupt : ph.pMemsz < ph.pFilesz
  · exact iff_of_true (copiesMapped_of_corrupt hcorrupt) (.inl hcorrupt)
  by_cases hempty : ph.pMemsz = 0
  · exact iff_of_true (copiesMapped_of_empty hvaddr hempty) (.inr (.inl hempty))
  by_cases hfits : ph.pVaddr + ph.pMemsz + (pageSize - 1) < 2 ^ 32
  · exact iff_of_true (copiesMapped_of_fits hinv hfits)
      (.inr (.inr (.inl hfits)))
  have hle := Nat.le_of_not_lt hcorrupt
  unfold Elf32Phdr.Mappable
  rw [or_iff_right hcorrupt, or_iff_right hempty, or_iff_right hfits]
  by_cases hend : ph.pVaddr + ph.pMemsz ≤ 2 ^ 32
  · have hmod := Nat.mod_le ph.pVaddr pageSize
    have hsmall : ¬ 2 ^ 32 < ph.pVaddr % pageSize + ph.pMemsz := by omega
    refine (copiesMapped_of_last hle hempty hend (Nat.le_of_not_lt hfits)).trans
      ?_
    rw [and_iff_right hend]
    exact (or_iff_left fun h => hsmall h.1).symm
  · rw [copiesMapped_of_over hvaddr hmemsz hle (Nat.lt_of_not_le hend),
      or_iff_right fun h => hend h.1]

namespace ElfMappingsWitness

open ElfIsolationWitness ElfImageWitness

def state : LoadState := ⟨Store.empty fun _ => false, mem 0⟩

/-- Four bytes at the start of the last page. -/
def lastPage : Elf32Phdr := ⟨ptLoad, 84, 0xFFFFF000, 4, 4⟩

theorem segment_mapped : CopiesMapped state 0 segment :=
  (elfLoadSegment_mapped_iff state 0 segment [] (by decide) (by decide)
    unshared.separate.paging).mpr (.inr (.inr (.inl (by decide))))

/-- The loop of the last page is empty, and the copy goes ahead. -/
theorem last_page_unmapped : ReachesCopy state lastPage state.mem ∧
    lastPage.InRange 0xFFFFF000 ∧
    vmmIsMapped state.mem.paging 0xFFFFF000 = false := by
  refine ⟨⟨by decide, by decide, by decide, ?_⟩, ⟨by decide, by decide⟩,
    by decide +kernel⟩
  exact mapSegmentPages_of_le (by decide)

end ElfMappingsWitness

end Orion
