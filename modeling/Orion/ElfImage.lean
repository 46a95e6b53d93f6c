/-
What a load leaves in memory.  Under an injective translation the stores of
the loader act on virtual memory like stores on a flat memory; the bytes of the
image are then the bytes of the file, and zeros wherever the page was mapped by
the load itself.
-/
import Mathlib.Data.List.Pairwise
import Orion.ElfIsolation
import Orion.VmmIdentity

namespace Orion

open MachineInt ByteMem BlockStore

/-- The byte at a virtual address, if it is mapped. -/
def MappedMem.byte (mem : MappedMem) (virt : Nat) : Option UInt8 :=
  (mem.phys virt).map mem.ram

section Addressing

variable {mem next : MappedMem} {addr page dst n : Nat} {value : Nat → UInt8}

theorem addrToFrame_add {frame : Nat} (hframe : IsFrame frame) (addr : Nat) :
    addrToFrame (frame + addr % 2 ^ 12) = addrToFrame frame := by
  have haligned := hframe.1
  simp only [addrToFrame, pageSize] at haligned ⊢
  omega

theorem walk_pageFloor (mem : PhysMem) (pd : Nat)
    (hpage : pageFloor addr = pageFloor page) :
    walk mem pd addr = walk mem pd page := by
  obtain ⟨hpd, hpt⟩ := pageFloor_eq_iff.mp hpage
  rw [walk, walk, hpd, hpt]

theorem vmmIsMapped_iff (paging : Paging) (virt : Nat) :
    vmmIsMapped paging virt = true ↔
      (walk paging.mem paging.pageDirectory virt).isSome := by
  unfold vmmIsMapped walk
  dsimp only
  by_cases hpde : IsPresent
      (paging.mem (slotAddr paging.pageDirectory (pdIndex virt)))
  · rw [if_neg hpde, if_pos hpde]
    by_cases hpte : IsPresent (paging.mem (slotAddr (entryTable (paging.mem
        (slotAddr paging.pageDirectory (pdIndex virt)))) (ptIndex virt)))
    · rw [if_pos hpte]
      exact iff_of_true (decide_eq_true hpte) rfl
    · rw [if_neg hpte]
      exact iff_of_false (fun h => hpte (of_decide_eq_true h)) Bool.false_ne_true
  · rw [if_neg hpde, if_pos (not_not.mp hpde)]
    exact iff_of_false Bool.false_ne_true Bool.false_ne_true

/-- Whether a page is mapped decides it for all of its addresses. -/
theorem vmmIsMapped_byte (hpage : pageFloor addr = pageFloor page) :
    vmmIsMapped mem.paging page = true ↔ (mem.byte addr).isSome := by
  rw [vmmIsMapped_iff, ← walk_pageFloor _ _ hpage, MappedMem.byte,
    MappedMem.phys, translate, Option.isSome_map, Option.isSome_map]

theorem storeBytes_paging (hstore : mem.storeBytes dst n value = some next) :
    next.paging = mem.paging := by
  obtain ⟨ram, -, rfl⟩ := Option.map_eq_some_iff.mp hstore
  rfl

/-- A block store as seen from an address whose byte is behind no other address
of the block. -/
theorem storeBytes_byte (hstore : mem.storeBytes dst n value = some next)
    (hlt : dst + n ≤ 2 ^ 32)
    (hapart : ∀ i < n, ∀ p, mem.phys addr = some p →
      mem.phys (dst + i) = some p → dst + i = addr) :
    next.byte addr = if dst ≤ addr ∧ addr < dst + n
      then some (value (addr - dst)) else mem.byte addr := by
  obtain ⟨ram, hrun, rfl⟩ := Option.map_eq_some_iff.mp hstore
  have htarget : ∀ i < n, (mem.transfer dst n value).target i =
      mem.phys (dst + i) := by
    intro i hi
    change mem.phys (u32 (dst + i)) = _
    rw [u32_of_lt (by omega)]
  change (mem.phys addr).map ram = _
  by_cases hin : dst ≤ addr ∧ addr < dst + n
  · have hi : addr - dst < n := by omega
    obtain ⟨p, hp⟩ := storeFirst_target hrun hi
    have hlast : lastValue (mem.transfer dst n value) p =
        some (value (addr - dst)) := by
      apply lastAmong_eq_some hi hp
      intro j hj hjp
      rw [htarget _ hi, Nat.add_sub_cancel' hin.1] at hp
      rw [htarget j hj] at hjp
      have heq := hapart j hj p hp hjp
      omega
    rw [htarget _ hi, Nat.add_sub_cancel' hin.1] at hp
    rw [if_pos hin, hp, Option.map_some, run_apply hrun p, hlast,
      Option.getD_some]
  · rw [if_neg hin, MappedMem.byte]
    cases hp : mem.phys addr with
    | none => rfl
    | some p =>
        have hlast : lastValue (mem.transfer dst n value) p = none := by
          apply lastAmong_eq_none
          intro i hi hip
          rw [htarget i hi] at hip
          obtain rfl := hapart i hi p hp hip
          exact hin ⟨Nat.le_add_right dst i, Nat.add_lt_add_left hi dst⟩
        rw [Option.map_some, Option.map_some, run_apply hrun p, hlast,
          Option.getD_none]

end Addressing

theorem vmmMapPage_translate {paging next : Paging} {spaces : List Nat}
    (hinv : paging.Inv spaces)
    {virt frame : Nat} (hvirt : virt < 2 ^ 32) (hframe : IsFrame frame)
    (hmap : vmmMapPage paging virt frame vmmKernelRw = some next) {addr : Nat}
    (haddr : addr < 2 ^ 32) :
    translate next.mem next.pageDirectory addr =
      if pageFloor addr = pageFloor virt then some (frame + addr % 2 ^ 12)
      else translate paging.mem paging.pageDirectory addr := by
  obtain ⟨-, hrewrites⟩ := vmmMapPage_spec hinv hvirt hmap
  rw [hrewrites.pageDirectory, translate, hrewrites.walk addr haddr]
  by_cases hpage : pageFloor addr = pageFloor virt
  · rw [if_pos hpage, if_pos hpage, if_pos (isPresent_pageEntry _ _),
      Option.map_some, entryTable_pageEntry hframe (by decide)]
  · rw [if_neg hpage, if_neg hpage]
    rfl

/-- The addresses in `region` that are mapped have bytes of their own, in frames
that are in use. -/
structure Separate (region : Nat → Prop) (spaces : List Nat) (mem : MappedMem) :
    Prop where
  paging : PagingInv mem.paging.pmm mem.paging.mem mem.paging.pageDirectory
    spaces
  used : ∀ addr p, region addr → mem.phys addr = some p →
    bitmapTest mem.paging.pmm (addrToFrame p) = true
  apart : ∀ addr addr' p, region addr → region addr' →
    mem.phys addr = some p → mem.phys addr' = some p → addr = addr'

/-- The bytes of `region` are kept, and those mapped since are zero. -/
structure Extends (region : Nat → Prop) (mem next : MappedMem) : Prop where
  keeps : ∀ addr b, region addr → mem.byte addr = some b →
    next.byte addr = some b
  zero : ∀ addr b, region addr → mem.byte addr = none →
    next.byte addr = some b → b = 0

section Pages

variable {region : Nat → Prop} {spaces : List Nat} {mem mid next : MappedMem}

theorem Extends.refl (region : Nat → Prop) (mem : MappedMem) :
    Extends region mem mem := by
  refine ⟨fun _ _ _ h => h, fun addr b _ hnone hb => ?_⟩
  rw [hnone] at hb
  contradiction

theorem Extends.trans (hfirst : Extends region mem mid)
    (hsecond : Extends region mid next) : Extends region mem next := by
  refine ⟨fun addr b haddr hb => ?_, fun addr b haddr hnone hb => ?_⟩
  · exact hsecond.keeps addr b haddr (hfirst.keeps addr b haddr hb)
  · cases hmid : mid.byte addr with
    | none => exact hsecond.zero addr b haddr hmid hb
    | some b' =>
        have hkept := hsecond.keeps addr b' haddr hmid
        rw [hb] at hkept
        rw [Option.some.inj hkept]
        exact hfirst.zero addr b' haddr hnone hmid

theorem Extends.isSome (hextends : Extends region mem next) {addr : Nat}
    (haddr : region addr) (hsome : (mem.byte addr).isSome) :
    (next.byte addr).isSome := by
  obtain ⟨b, hb⟩ := Option.isSome_iff_exists.mp hsome
  rw [hextends.keeps addr b haddr hb]
  rfl

theorem Separate.of_paging (hseparate : Separate region spaces mem)
    (hpaging : next.paging = mem.paging) : Separate region spaces next := by
  have hphys : next.phys = mem.phys := by
    unfold MappedMem.phys
    rw [hpaging]
  refine ⟨?_, ?_, ?_⟩
  · rw [hpaging]
    exact hseparate.paging
  · rw [hpaging, hphys]
    exact hseparate.used
  · rw [hphys]
    exact hseparate.apart

variable (hbound : ∀ addr, region addr → addr < 2 ^ 32) {page frame : Nat}

/-- `mid` has one page more than `mem`, and it lies in a frame that was free. -/
structure AddsPage (mem mid : MappedMem) (page frame : Nat) : Prop where
  alignedPage : IsFrame page
  alignedFrame : IsFrame frame
  unmapped : ¬ vmmIsMapped mem.paging page = true
  free : bitmapTest mem.paging.pmm (addrToFrame frame) = false
  taken : bitmapTest mid.paging.pmm (addrToFrame frame) = true
  used : ∀ other, bitmapTest mem.paging.pmm other = true →
    bitmapTest mid.paging.pmm other = true
  phys : ∀ addr < 2 ^ 32, mid.phys addr =
    if pageFloor addr = page then some (frame + addr % 2 ^ 12) else mem.phys addr

theorem AddsPage.byte_eq_none (hadds : AddsPage mem mid page frame) {addr : Nat}
    (haddr : pageFloor addr = page) : mem.byte addr = none := by
  rw [← hadds.alignedPage.pageFloor_eq] at haddr
  rw [← Option.not_isSome_iff_eq_none, ← vmmIsMapped_byte haddr]
  exact hadds.unmapped

/-- An old byte of the region is not in the new frame. -/
theorem AddsPage.frame_apart (hadds : AddsPage mem mid page frame)
    (hseparate : Separate region spaces mem) {addr p : Nat} (haddr : region addr)
    (hp : mem.phys addr = some p) (offset : Nat) :
    p ≠ frame + offset % 2 ^ 12 := by
  rintro rfl
  have hused := hseparate.used addr _ haddr hp
  rw [addrToFrame_add hadds.alignedFrame, hadds.free] at hused
  contradiction

include hbound

theorem AddsPage.separate (hadds : AddsPage mem mid page frame)
    (hseparate : Separate region spaces mem)
    (hpaging : mid.paging.Inv spaces) : Separate region spaces mid := by
  refine ⟨hpaging, fun addr p haddr hp => ?_, ?_⟩
  · rw [hadds.phys addr (hbound addr haddr)] at hp
    split_ifs at hp with hin
    · obtain rfl := Option.some.inj hp
      rw [addrToFrame_add hadds.alignedFrame]
      exact hadds.taken
    · exact hadds.used _ (hseparate.used addr p haddr hp)
  · intro addr addr' p haddr haddr' hp hp'
    rw [hadds.phys addr (hbound addr haddr)] at hp
    rw [hadds.phys addr' (hbound addr' haddr')] at hp'
    split_ifs at hp with hin <;> split_ifs at hp' with hin'
    · have heq := Option.some.inj (hp.trans hp'.symm)
      rw [← hin] at hin'
      simp only [pageFloor, pageSize] at hin'
      omega
    · obtain rfl := Option.some.inj hp
      exact absurd rfl (hadds.frame_apart hseparate haddr' hp' addr)
    · obtain rfl := Option.some.inj hp'
      exact absurd rfl (hadds.frame_apart hseparate haddr hp addr')
    · exact hseparate.apart addr addr' p haddr haddr' hp hp'

/-- Zeroing the new page touches no old byte of the region. -/
theorem AddsPage.byte_memset (hadds : AddsPage mem mid page frame)
    (hseparate : Separate region spaces mem) (hram : mid.ram = mem.ram)
    (hset : memset mid page 0 pageSize = some next) {addr : Nat}
    (haddr : region addr) : next.byte addr =
      if pageFloor addr = page then some 0 else mem.byte addr := by
  have haligned := hadds.alignedPage.1
  have hlt := hadds.alignedPage.2
  have hpage : pageFloor addr = page ↔
      page ≤ addr ∧ addr < page + pageSize := by
    simp only [pageFloor, pageSize] at haligned ⊢
    omega
  have hbyte := @storeBytes_byte mid next addr page pageSize (fun _ => 0) hset
    (by simp only [pageSize] at haligned ⊢; omega) ?_
  · rw [hbyte]
    by_cases hin : pageFloor addr = page
    · rw [if_pos hin, if_pos (hpage.mp hin)]
    · rw [if_neg hin, if_neg (mt hpage.mpr hin), MappedMem.byte, MappedMem.byte,
        hram, hadds.phys addr (hbound addr haddr), if_neg hin]
  · intro i hi p hp hip
    simp only [pageSize] at haligned hi
    rw [hadds.phys _ (by omega), if_pos (by
      simp only [pageFloor, pageSize]; omega)] at hip
    rw [hadds.phys addr (hbound addr haddr)] at hp
    obtain rfl := Option.some.inj hip
    split_ifs at hp with hin
    · have heq := Option.some.inj hp
      simp only [pageFloor, pageSize] at hin
      omega
    · exact absurd rfl (hadds.frame_apart hseparate haddr hp _)

theorem AddsPage.extends (hadds : AddsPage mem mid page frame)
    (hseparate : Separate region spaces mem) (hram : mid.ram = mem.ram)
    (hset : memset mid page 0 pageSize = some next) :
    Extends region mem next := by
  have hbyte := fun addr => @AddsPage.byte_memset _ _ _ _ _ hbound _ _ hadds
    hseparate hram hset addr
  refine ⟨fun addr b haddr hb => ?_, fun addr b haddr hnone hb => ?_⟩
  · rw [hbyte addr haddr, if_neg, hb]
    intro hin
    rw [hadds.byte_eq_none hin] at hb
    cases hb
  · rw [hbyte addr haddr] at hb
    split_ifs at hb with hin
    · exact (Option.some.inj hb).symm
    · rw [hnone] at hb
      cases hb

omit hbound in
theorem AddsPage.isMapped (hadds : AddsPage mem mid page frame)
    (hpaging : next.paging = mid.paging) :
    vmmIsMapped next.paging page = true := by
  have hphys := hadds.phys page hadds.alignedPage.2
  rw [if_pos hadds.alignedPage.pageFloor_eq] at hphys
  rw [@vmmIsMapped_byte next page page rfl, MappedMem.byte, Option.isSome_map,
    MappedMem.phys, hpaging]
  exact Option.isSome_of_eq_some hphys

omit hbound in
/-- What the loop does to a page that is not mapped. -/
theorem PagingInv.addsPage
    (hinv : mem.paging.Inv spaces)
    (hpage : IsFrame page) (hunmapped : ¬ vmmIsMapped mem.paging page = true)
    {pmm : Pmm} (halloc : pmmAllocFrame mem.paging.pmm = (frame, pmm))
    (hzero : frame ≠ 0) {paging : Paging}
    (hmap : vmmMapPage { mem.paging with pmm := pmm } page frame vmmKernelRw =
      some paging) :
    AddsPage mem { mem with paging := paging } page frame ∧
      paging.Inv spaces := by
  have hallocates := pmmAllocFrame_allocates hinv.searchPos hinv.searchLe halloc
  obtain ⟨hframe, hfree, htaken⟩ := hallocates.takes hzero
  obtain ⟨hinv', -⟩ := hinv.alloc halloc
  have hused := fun other => @vmmMapPage_used _ _ _ hinv' _ _ _ hmap other
  refine ⟨⟨hpage, hframe, hunmapped, hfree, hused _ htaken,
    fun other hother => hused _ (hallocates.keeps other hother),
    fun addr haddr => ?_⟩, ?_⟩
  · have htranslate := @vmmMapPage_translate _ _ _ hinv' _ _ hpage.2 hframe
      hmap addr haddr
    rw [hpage.pageFloor_eq] at htranslate
    exact htranslate
  · exact (@vmmMapPage_spec _ _ _ hinv' _ _ hpage.2 _ hmap).1

end Pages

/-- The address is in the memory image of the segment. -/
def Elf32Phdr.InRange (ph : Elf32Phdr) (addr : Nat) : Prop :=
  ph.pVaddr ≤ addr ∧ addr < ph.pVaddr + ph.pMemsz

/-- The address is in the file image of the segment. -/
def Elf32Phdr.InFile (ph : Elf32Phdr) (addr : Nat) : Prop :=
  ph.pVaddr ≤ addr ∧ addr < ph.pVaddr + ph.pFilesz

instance (ph : Elf32Phdr) (addr : Nat) : Decidable (ph.InFile addr) :=
  inferInstanceAs (Decidable (_ ∧ _))

section Copies

variable {content : FileContent} {region : Nat → Prop} {spaces : List Nat}
  {mem next : MappedMem} {ph : Elf32Phdr}

end Copies

/-- The address is in the memory image of one of the segments. -/
def InImage (phs : List Elf32Phdr) (addr : Nat) : Prop :=
  ∃ ph ∈ phs, ph.InRange addr

/-- The byte at `addr` once the segments in `done`, latest first, are there: a
byte of a file image, or what was there before, or zero. -/
def FileContent.expected (content : FileContent) (start : MappedMem)
    (done : List Elf32Phdr) (addr : Nat) : UInt8 :=
  match done.find? fun ph => ph.InFile addr with
  | some ph => content.byte (ph.pOffset + (addr - ph.pVaddr))
  | none => (start.byte addr).getD 0

/-- The load so far: the segments in `done` are mapped, and every byte of the
region is the expected one. -/
structure Loaded (content : FileContent) (region : Nat → Prop)
    (spaces : List Nat) (start : MappedMem) (done : List Elf32Phdr)
    (mem : MappedMem) : Prop where
  separate : Separate region spaces mem
  kept : ∀ addr, region addr → (start.byte addr).isSome →
    (mem.byte addr).isSome
  sizes : ∀ ph ∈ done, ph.pFilesz ≤ ph.pMemsz
  mapped : ∀ ph ∈ done, ∀ addr, ph.InRange addr → (mem.byte addr).isSome
  filled : ∀ addr b, region addr → mem.byte addr = some b →
    b = content.expected start done addr

/-- The page loop of a segment does not run past the end of the address
space. -/
def Elf32Phdr.PagesFit (ph : Elf32Phdr) : Prop :=
  ph.pMemsz ≠ 0 → ph.pVaddr + ph.pMemsz + pageSize ≤ 2 ^ 32

section Loads

variable {content : FileContent} {region : Nat → Prop} {spaces : List Nat}
  {start mem mid next : MappedMem} {done : List Elf32Phdr} {ph : Elf32Phdr}

theorem Elf32Phdr.InFile.inRange {addr : Nat} (hin : ph.InFile addr)
    (hsizes : ph.pFilesz ≤ ph.pMemsz) : ph.InRange addr :=
  ⟨hin.1, Nat.lt_of_lt_of_le hin.2 (Nat.add_le_add_left hsizes _)⟩

theorem Loaded.nil (hseparate : Separate region spaces start) :
    Loaded content region spaces start [] start := by
  refine ⟨hseparate, fun _ _ h => h, fun _ h => by contradiction,
    fun _ h => by contradiction, fun addr b _ hb => ?_⟩
  change b = (start.byte addr).getD 0
  rw [hb, Option.getD_some]

/-- Mapping more pages. -/
theorem Loaded.extends (hloaded : Loaded content region spaces start done mem)
    (hregion : ∀ ph ∈ done, ∀ addr, ph.InRange addr → region addr)
    (hseparate : Separate region spaces next)
    (hextends : Extends region mem next) :
    Loaded content region spaces start done next := by
  refine ⟨hseparate, fun addr haddr hstart => ?_, hloaded.sizes,
    fun ph hph addr haddr => ?_, fun addr b haddr hb => ?_⟩
  · exact hextends.isSome haddr (hloaded.kept addr haddr hstart)
  · exact hextends.isSome (hregion ph hph addr haddr)
      (hloaded.mapped ph hph addr haddr)
  · cases hmem : mem.byte addr with
    | some b' =>
        rw [hextends.keeps addr b' haddr hmem] at hb
        rw [← Option.some.inj hb]
        exact hloaded.filled addr b' haddr hmem
    | none =>
        -- a byte that is mapped only now belongs to no finished segment
        rw [hextends.zero addr b haddr hmem hb, FileContent.expected]
        cases hfind : done.find? fun ph => ph.InFile addr with
        | none =>
            cases hstart : start.byte addr with
            | none => rfl
            | some b' =>
                have hkept := hloaded.kept addr haddr (by rw [hstart]; rfl)
                rw [hmem] at hkept
                contradiction
        | some ph =>
            have hph := List.mem_of_find?_eq_some hfind
            have hin := List.find?_some hfind
            rw [decide_eq_true_eq] at hin
            have hmapped := hloaded.mapped ph hph addr
              (hin.inRange (hloaded.sizes ph hph))
            rw [hmem] at hmapped
            contradiction

/-- The copy of a segment whose pages are mapped. -/
theorem Loaded.copyImage
    (hloaded : Loaded content region spaces start done mem)
    (hsizes : ph.pFilesz ≤ ph.pMemsz)
    (hregion : ∀ addr, ph.InRange addr → region addr)
    (hmapped : ∀ addr, ph.InRange addr → (mem.byte addr).isSome)
    (hdone : ∀ ph ∈ done, ∀ addr, ph.InRange addr → region addr)
    (hpaging : next.paging = mem.paging)
    (hbyte : ∀ addr, region addr → next.byte addr = if ph.InFile addr then
      some (content.byte (ph.pOffset + (addr - ph.pVaddr))) else mem.byte addr) :
    Loaded content region spaces start (ph :: done) next := by
  have hsome : ∀ addr, region addr → (mem.byte addr).isSome →
      (next.byte addr).isSome := by
    intro addr haddr hsome
    rw [hbyte addr haddr]
    split_ifs
    · rfl
    · exact hsome
  refine ⟨hloaded.separate.of_paging hpaging,
    fun addr haddr hstart => hsome addr haddr (hloaded.kept addr haddr hstart),
    List.forall_mem_cons.mpr ⟨hsizes, hloaded.sizes⟩,
    List.forall_mem_cons.mpr ⟨fun addr haddr => ?_, fun ph hph addr haddr => ?_⟩,
    fun addr b haddr hb => ?_⟩
  · exact hsome addr (hregion addr haddr) (hmapped addr haddr)
  · exact hsome addr (hdone ph hph addr haddr)
      (hloaded.mapped ph hph addr haddr)
  · rw [hbyte addr haddr] at hb
    unfold FileContent.expected
    rw [List.find?_cons]
    split_ifs at hb with hin
    · rw [decide_eq_true hin]
      exact (Option.some.inj hb).symm
    · rw [decide_eq_false hin]
      exact hloaded.filled addr b haddr hb

variable (hbound : ∀ addr, region addr → addr < 2 ^ 32)

include hbound

end Loads

/-- The two memory images have no address in common. -/
def Elf32Phdr.Apart (ph ph' : Elf32Phdr) : Prop :=
  ∀ addr, ¬ (ph.InRange addr ∧ ph'.InRange addr)

instance : Std.Symm Elf32Phdr.Apart :=
  ⟨fun _ _ h addr hboth => h addr hboth.symm⟩

/-- No two segments share an address, and none wraps. -/
structure DisjointRanges (phs : List Elf32Phdr) : Prop where
  nowrap : ∀ ph ∈ phs, ph.pVaddr + ph.pMemsz ≤ 2 ^ 32
  disjoint : phs.Pairwise Elf32Phdr.Apart

/-- The mapped bytes of the image are in use and behind no second address of
it, and no page loop is cut short. -/
structure Unshared (phs : List Elf32Phdr) (spaces : List Nat)
    (mem : MappedMem) : Prop where
  separate : Separate (InImage phs) spaces mem
  pagesFit : ∀ ph ∈ phs, ph.PagesFit

section Image

variable {content : FileContent} {phs : List Elf32Phdr} {spaces : List Nat}
  {start mem : MappedMem} {ph : Elf32Phdr} {i : Nat}

theorem DisjointRanges.bound (hdisjoint : DisjointRanges phs) (addr : Nat)
    (haddr : InImage phs addr) : addr < 2 ^ 32 := by
  obtain ⟨ph, hph, -, hhigh⟩ := haddr
  exact Nat.lt_of_lt_of_le hhigh (hdisjoint.nowrap ph hph)

theorem DisjointRanges.unique (hdisjoint : DisjointRanges phs)
    {ph' : Elf32Phdr} (hph : ph ∈ phs) (hph' : ph' ∈ phs) {addr : Nat}
    (hin : ph.InRange addr) (hin' : ph'.InRange addr) : ph = ph' := by
  by_contra hne
  exact hdisjoint.disjoint.forall hph hph' hne addr ⟨hin, hin'⟩

end Image

namespace ElfImageWitness

open ElfIsolationWitness

/-- The one segment of the file: four bytes of file image and four more, on a
page that is mapped. -/
def segment : Elf32Phdr := ⟨ptLoad, 84, 0x08000000, 4, 8⟩

theorem phys_segment {addr p : Nat} (hin : segment.InRange addr)
    (hp : (mem 0).phys addr = some p) : p + 0x07C00000 = addr := by
  have hphys : ∀ i < 8, (mem 0).phys (0x08000000 + i) = some (0x400000 + i) := by
    decide +kernel
  obtain ⟨i, rfl⟩ := Nat.exists_eq_add_of_le hin.1
  have hi : i < 8 := Nat.lt_of_add_lt_add_left hin.2
  have heq := Option.some.inj ((hphys i hi).symm.trans hp)
  change p + 0x07C00000 = 0x08000000 + i
  omega

theorem directory : Directory tables 0x1000 := by
  have hslots : ∀ i < 1024, IsPresent (tables (slotAddr 0x1000 i)) →
      i = 0 ∧ entryTable (tables (slotAddr 0x1000 i)) = 0x2000 ∨
      i = 32 ∧ entryTable (tables (slotAddr 0x1000 i)) = 0x3000 := by
    decide +kernel
  refine ⟨⟨by decide, by decide⟩, ?_, ?_⟩
  · rintro ⟨i, hi, hpresent, heq⟩
    rcases hslots i hi hpresent with ⟨-, hentry⟩ | ⟨-, hentry⟩ <;>
    · rw [hentry] at heq
      exact absurd heq (by decide)
  · intro i hi j hj hpresent hpresent' heq
    rcases hslots i hi hpresent with ⟨rfl, hentry⟩ | ⟨rfl, hentry⟩ <;>
    rcases hslots j hj hpresent' with ⟨rfl, hentry'⟩ | ⟨rfl, hentry'⟩
    · rfl
    · exact absurd heq (by decide +kernel)
    · exact absurd heq (by decide +kernel)
    · rfl

theorem bitmapTest_mem (frame : Nat) :
    bitmapTest (mem 0).paging.pmm frame = true := by
  rw [bitmapTest, WordBitmap.test_eq_getLsbD]
  change (BitVec.allOnes 32).getLsbD (frame % 32) = true
  rw [BitVec.getLsbD_allOnes, decide_eq_true (Nat.mod_lt _ (by decide))]

theorem unshared : Unshared [segment] [] (mem 0) := by
  have hregion : ∀ addr, InImage [segment] addr → segment.InRange addr := by
    rintro addr ⟨ph, hph, hin⟩
    rw [List.mem_singleton.mp hph] at hin
    exact hin
  refine ⟨⟨⟨Nat.le_refl 1, by decide, directory, by decide +kernel,
    fun frame _ => bitmapTest_mem _, ?_, ?_, ?_⟩,
    fun _ p _ _ => bitmapTest_mem _, ?_⟩, ?_⟩
  · exact fun _ h => by contradiction
  · exact fun _ h => by contradiction
  · exact fun _ h => by contradiction
  · intro addr addr' p haddr haddr' hp hp'
    rw [← phys_segment (hregion addr haddr) hp,
      phys_segment (hregion addr' haddr') hp']
  · intro ph hph
    rw [List.mem_singleton.mp hph]
    exact fun _ => by decide

end ElfImageWitness

end Orion
