/-
The page tables as a finite map.  Whatever is mapped and unmapped after
`vmm_init`, the two levels of tables hold for each page what an abstract map
from page numbers to frames and flags holds for it.
-/
import Orion.VmmSystem

namespace Orion

open MachineInt

/-- The loop of `vmm_map_range`, for at most `budget` rounds; close to the end
of the address space the offset wraps and the loop has no end. -/
def vmmMapRangeLoop (virt phys length : Nat) (flags : BitVec 32) :
    Nat → Nat → Paging → Except Halt Paging
  | 0, _, _ => .error .endless
  | budget + 1, offset, paging =>
      if offset < length then
        match vmmMapPage paging (u32 (virt + offset)) (u32 (phys + offset))
            flags with
        | none => .error .panic
        | some paging =>
            vmmMapRangeLoop virt phys length flags budget
              (u32 (offset + pageSize)) paging
      else .ok paging

/-- Map consecutive pages. -/
def vmmMapRange (paging : Paging) (virt phys length : Nat)
    (flags : BitVec 32) : Except Halt Paging :=
  vmmMapRangeLoop virt phys length flags (2 ^ 32 / pageSize) 0 paging

inductive PageCall where
  | mapPage (virt phys : UInt32) (flags : BitVec 32)
  | unmapPage (virt : UInt32)
  | mapRange (virt phys length : UInt32) (flags : BitVec 32)

/-- One call; a panic is the lack of a frame for a table. -/
def Paging.call (paging : Paging) : PageCall → Except Halt Paging
  | .mapPage virt phys flags =>
      match vmmMapPage paging virt.toNat phys.toNat flags with
      | none => .error .panic
      | some paging => .ok paging
  | .unmapPage virt => .ok (vmmUnmapPage paging virt.toNat)
  | .mapRange virt phys length flags =>
      vmmMapRange paging virt.toNat phys.toNat length.toNat flags

/-- Frames are page-aligned, flags stay below the address bits, and ranges end
before the last page. -/
def PageCall.InRange : PageCall → Prop
  | .mapPage _ phys flags => phys.toNat % pageSize = 0 ∧ flags.toNat < 4096
  | .unmapPage _ => True
  | .mapRange virt phys length flags =>
      phys.toNat % pageSize = 0 ∧ flags.toNat < 4096 ∧
        virt.toNat + length.toNat ≤ 2 ^ 32 - pageSize ∧
        phys.toNat + length.toNat ≤ 2 ^ 32 - pageSize

/-- The abstract map: for each page number the number of its frame, and the
flags. -/
abbrev PageMap := Nat → Option (Nat × BitVec 32)

namespace PageMap

/-- What `vmm_init` maps. -/
def identity : PageMap := fun page =>
  if page < 1024 then some (page, vmmKernelRw) else none

/-- Map `count` pages from `page` on to the frames from `frame` on. -/
def setRange (map : PageMap) (page frame count : Nat) (flags : BitVec 32) :
    PageMap := fun other =>
  if page ≤ other ∧ other < page + count then
    some (frame + (other - page), flags)
  else map other

/-- What a call changes: the pages it names. -/
def apply (map : PageMap) : PageCall → PageMap
  | .mapPage virt phys flags =>
      Function.update map (virt.toNat / pageSize)
        (some (phys.toNat / pageSize, flags))
  | .unmapPage virt => Function.update map (virt.toNat / pageSize) none
  | .mapRange virt phys length flags =>
      map.setRange (virt.toNat / pageSize) (phys.toNat / pageSize)
        ((length.toNat + pageSize - 1) / pageSize) flags

def getPhys (map : PageMap) (virt : Nat) : Nat :=
  match map (virt / pageSize) with
  | some (frame, _) => frame * pageSize ||| virt % pageSize
  | none => 0

def isMapped (map : PageMap) (virt : Nat) : Bool :=
  (map (virt / pageSize)).isSome

theorem setRange_zero (map : PageMap) (page frame : Nat) (flags : BitVec 32) :
    map.setRange page frame 0 flags = map := by
  funext other
  exact if_neg (by omega)

theorem setRange_succ (map : PageMap) (page frame count : Nat)
    (flags : BitVec 32) :
    map.setRange page frame (count + 1) flags =
      Function.update (map.setRange page frame count flags) (page + count)
        (some (frame + count, flags)) := by
  funext other
  by_cases heq : other = page + count
  · subst heq
    rw [Function.update_self, setRange, if_pos (by omega)]
    simp
  · rw [Function.update_of_ne heq, setRange, setRange]
    by_cases hin : page ≤ other ∧ other < page + count
    · rw [if_pos hin, if_pos (by omega)]
    · rw [if_neg hin, if_neg (by omega)]

end PageMap

theorem and_vmmAddrMask_of_lt {flags : BitVec 32} (hflags : flags.toNat < 4096) :
    flags &&& vmmAddrMask = 0#32 := by
  apply BitVec.eq_of_getLsbD_eq
  intro i hi
  rw [BitVec.getLsbD_and, BitVec.getLsbD_zero, Bool.and_eq_false_iff]
  rcases Nat.lt_or_ge i 12 with hlow | hhigh
  · right
    revert i
    decide
  · left
    have hpow : 2 ^ 12 ≤ 2 ^ i := Nat.pow_le_pow_right (by decide) hhigh
    exact Nat.testBit_lt_two_pow (Nat.lt_of_lt_of_le hflags hpow)

/-- The table entry for a frame and its flags. -/
def PageMap.entry (mapping : Nat × BitVec 32) : BitVec 32 :=
  pageEntry (mapping.1 * pageSize) mapping.2

/-- The tables hold exactly the entries of the map. -/
structure Implements (paging : Paging) (map : PageMap) : Prop where
  tables : PagingInv paging.pmm paging.mem paging.pageDirectory []
  entries : ∀ addr < 2 ^ 32,
    (walk paging.mem paging.pageDirectory addr).map Prod.snd =
      (map (addr / pageSize)).map PageMap.entry
  bounded : ∀ page mapping, map page = some mapping →
    IsFrame (mapping.1 * pageSize) ∧ mapping.2.toNat < 4096

section Observations

variable {paging : Paging} {map : PageMap} {virt : Nat}

theorem vmmGetPhys_eq_walk (paging : Paging) (virt : Nat) :
    vmmGetPhys paging virt =
      ((walk paging.mem paging.pageDirectory virt).map Prod.snd).elim 0
        fun pte => entryTable pte ||| virt % 2 ^ 12 := by
  unfold vmmGetPhys walk
  dsimp only
  generalize paging.mem (slotAddr paging.pageDirectory (pdIndex virt)) = pde
  by_cases hpde : IsPresent pde
  · rw [if_neg hpde, if_pos hpde]
    generalize paging.mem (slotAddr (entryTable pde) (ptIndex virt)) = pte
    by_cases hpte : IsPresent pte
    · rw [if_neg hpte, if_pos hpte]
      rfl
    · rw [if_pos (not_not.mp hpte), if_neg hpte]
      rfl
  · rw [if_pos (not_not.mp hpde), if_neg hpde]
    rfl

theorem vmmIsMapped_eq_walk (paging : Paging) (virt : Nat) :
    vmmIsMapped paging virt =
      ((walk paging.mem paging.pageDirectory virt).map Prod.snd).isSome := by
  unfold vmmIsMapped walk
  dsimp only
  generalize paging.mem (slotAddr paging.pageDirectory (pdIndex virt)) = pde
  by_cases hpde : IsPresent pde
  · rw [if_neg hpde, if_pos hpde]
    generalize paging.mem (slotAddr (entryTable pde) (ptIndex virt)) = pte
    by_cases hpte : IsPresent pte
    · rw [if_pos hpte]
      exact decide_eq_true hpte
    · rw [if_neg hpte]
      exact decide_eq_false hpte
  · rw [if_pos (not_not.mp hpde), if_neg hpde]
    rfl

theorem Implements.getPhys (himpl : Implements paging map) (hvirt : virt < 2 ^ 32) :
    vmmGetPhys paging virt = map.getPhys virt := by
  rw [vmmGetPhys_eq_walk, himpl.entries virt hvirt, PageMap.getPhys]
  cases hmap : map (virt / pageSize) with
  | none => rfl
  | some mapping =>
      obtain ⟨hframe, hflags⟩ := himpl.bounded _ _ hmap
      simp only [Option.map_some, Option.elim_some, PageMap.entry,
        entryTable_pageEntry hframe (and_vmmAddrMask_of_lt hflags)]
      rfl

theorem Implements.isMapped (himpl : Implements paging map)
    (hvirt : virt < 2 ^ 32) :
    vmmIsMapped paging virt = map.isMapped virt := by
  rw [vmmIsMapped_eq_walk, himpl.entries virt hvirt, PageMap.isMapped,
    Option.isSome_map]

end Observations

section Calls

variable {paging next : Paging} {map : PageMap} {virt phys : Nat}
  {flags : BitVec 32}

/-- A call that rewrites the entry of one page. -/
theorem Implements.rewrites (himpl : Implements paging map)
    {entry : BitVec 32} {fresh : Option Nat} {new : Option (Nat × BitVec 32)}
    (htables : next.Inv [])
    (hrewrites : Rewrites paging next virt entry fresh)
    (hentry : (if IsPresent entry then some entry else none) =
      new.map PageMap.entry)
    (hbounded : ∀ mapping ∈ new,
      IsFrame (mapping.1 * pageSize) ∧ mapping.2.toNat < 4096) :
    Implements next (Function.update map (virt / pageSize) new) := by
  have hpd := hrewrites.pageDirectory
  refine ⟨htables, ?_, ?_⟩
  · intro addr haddr
    rw [hpd, hrewrites.walk addr haddr]
    by_cases hpage : addr / pageSize = virt / pageSize
    · rw [if_pos (by rw [pageFloor, pageFloor, hpage]), hpage,
        Function.update_self, ← hentry]
      split <;> rfl
    · rw [if_neg, Function.update_of_ne hpage, himpl.entries addr haddr]
      simp only [pageFloor, pageSize] at hpage ⊢
      omega
  · intro page mapping hmap
    by_cases hpage : page = virt / pageSize
    · rw [hpage, Function.update_self] at hmap
      exact hbounded mapping hmap
    · rw [Function.update_of_ne hpage] at hmap
      exact himpl.bounded page mapping hmap

theorem Implements.mapPage (himpl : Implements paging map)
    (hvirt : virt < 2 ^ 32) (hframe : IsFrame phys) (hflags : flags.toNat < 4096)
    (hmap : vmmMapPage paging virt phys flags = some next) :
    Implements next (Function.update map (virt / pageSize)
      (some (phys / pageSize, flags))) := by
  obtain ⟨htables, hrewrites⟩ := vmmMapPage_spec himpl.tables hvirt hmap
  have haddr : phys / pageSize * pageSize = phys :=
    Nat.div_mul_cancel (Nat.dvd_of_mod_eq_zero hframe.1)
  apply himpl.rewrites htables hrewrites
  · rw [if_pos (isPresent_pageEntry phys flags), Option.map_some, PageMap.entry,
      haddr]
  · rintro _ ⟨⟩
    rw [haddr]
    exact ⟨hframe, hflags⟩

theorem Implements.unmapPage (himpl : Implements paging map)
    (hvirt : virt < 2 ^ 32) :
    Implements (vmmUnmapPage paging virt)
      (Function.update map (virt / pageSize) none) := by
  obtain ⟨htables, hrewrites⟩ := vmmUnmapPage_spec himpl.tables hvirt
  apply himpl.rewrites htables hrewrites
  · rw [if_neg not_isPresent_zero]
    rfl
  · simp

/-- The loop of `vmm_map_range` after `i` pages. -/
theorem Implements.mapRangeLoop {length budget i : Nat}
    (himpl : Implements paging
      (map.setRange (virt / pageSize) (phys / pageSize) i flags))
    (halign : phys % pageSize = 0) (hflags : flags.toNat < 4096)
    (hvirt : virt + length ≤ 2 ^ 32 - pageSize)
    (hphys : phys + length ≤ 2 ^ 32 - pageSize)
    (hdone : i ≤ (length + pageSize - 1) / pageSize)
    (hbudget : (length + pageSize - 1) / pageSize < budget + i) :
    vmmMapRangeLoop virt phys length flags budget (i * pageSize) paging =
        .error .panic ∨
      ∃ next, vmmMapRangeLoop virt phys length flags budget (i * pageSize)
          paging = .ok next ∧
        Implements next (map.setRange (virt / pageSize) (phys / pageSize)
          ((length + pageSize - 1) / pageSize) flags) := by
  induction budget generalizing i paging with
  | zero => omega
  | succ budget ih =>
      rw [vmmMapRangeLoop]
      by_cases hmore : i * pageSize < length
      · have hpage : pageSize ≤ 2 ^ 32 := by decide
        have hlt : i * pageSize + pageSize < 2 ^ 32 := by omega
        rw [if_pos hmore]
        simp only [pageSize] at halign hvirt hphys hdone hbudget hmore
        have hvirtAddr : u32 (virt + i * pageSize) = virt + i * pageSize :=
          u32_of_lt (by simp only [pageSize]; omega)
        have hphysAddr : u32 (phys + i * pageSize) = phys + i * pageSize :=
          u32_of_lt (by simp only [pageSize]; omega)
        have hoffset : u32 (i * pageSize + pageSize) = (i + 1) * pageSize := by
          rw [u32_of_lt hlt, Nat.add_mul, Nat.one_mul]
        rw [hvirtAddr, hphysAddr, hoffset]
        cases hmap : vmmMapPage paging (virt + i * pageSize)
            (phys + i * pageSize) flags with
        | none => exact .inl rfl
        | some next =>
            have hframe : IsFrame (phys + i * pageSize) := by
              simp only [IsFrame, pageSize]
              omega
            have hnext := himpl.mapPage (by simp only [pageSize]; omega) hframe
              hflags hmap
            rw [Nat.add_mul_div_right _ _ (by decide),
              Nat.add_mul_div_right _ _ (by decide),
              ← PageMap.setRange_succ] at hnext
            exact ih hnext (by simp only [pageSize]; omega)
              (by simp only [pageSize]; omega)
      · rw [if_neg hmore]
        have hlast : i = (length + pageSize - 1) / pageSize := by
          simp only [pageSize] at *
          omega
        exact .inr ⟨paging, rfl, hlast ▸ himpl⟩

/-- One call on the tables and on the map. -/
theorem Implements.call (himpl : Implements paging map) (call : PageCall)
    (hcall : call.InRange) :
    paging.call call = .error .panic ∨
      ∃ next, paging.call call = .ok next ∧ Implements next (map.apply call) := by
  cases call with
  | mapPage virt phys flags =>
      simp only [Paging.call]
      cases hmap : vmmMapPage paging virt.toNat phys.toNat flags with
      | none => exact .inl rfl
      | some next =>
          exact .inr ⟨next, rfl, himpl.mapPage virt.toNat_lt
            ⟨hcall.1, phys.toNat_lt⟩ hcall.2 hmap⟩
  | unmapPage virt =>
      exact .inr ⟨_, rfl, himpl.unmapPage virt.toNat_lt⟩
  | mapRange virt phys length flags =>
      obtain ⟨halign, hflags, hvirt, hphys⟩ := hcall
      have hstart : Implements paging (map.setRange (virt.toNat / pageSize)
          (phys.toNat / pageSize) 0 flags) := by
        rw [PageMap.setRange_zero]
        exact himpl
      have hrun := hstart.mapRangeLoop halign hflags hvirt hphys
        (Nat.zero_le _) (show _ < 2 ^ 32 / pageSize + 0 by
          simp only [pageSize] at *
          omega)
      rw [Nat.zero_mul] at hrun
      exact hrun

theorem Implements.calls (himpl : Implements paging map) (calls : List PageCall)
    (hcalls : ∀ call ∈ calls, call.InRange) :
    calls.foldlM Paging.call paging = .error .panic ∨
      ∃ next, calls.foldlM Paging.call paging = .ok next ∧
        Implements next (calls.foldl PageMap.apply map) := by
  induction calls generalizing paging map with
  | nil => exact .inr ⟨paging, rfl, himpl⟩
  | cons call rest ih =>
      rw [List.foldlM_cons]
      rcases himpl.call call (hcalls call List.mem_cons_self) with
        hpanic | ⟨next, hnext, himpl'⟩
      · rw [hpanic]
        exact .inl rfl
      · rw [hnext]
        exact ih himpl' fun other hother =>
          hcalls other (List.mem_cons_of_mem call hother)

end Calls

theorem FirstTable.implements {paging : Paging} {pt0 : Nat}
    (hmem : FirstTable paging.mem paging.pageDirectory pt0)
    (hpt0 : IsFrame pt0)
    (htables : paging.Inv []) :
    Implements paging PageMap.identity := by
  refine ⟨htables, ?_, ?_⟩
  · intro addr haddr
    rw [hmem.walk hpt0 haddr, PageMap.identity]
    have hlow : addr < 2 ^ 22 ↔ addr / pageSize < 1024 := by
      simp only [pageSize]
      omega
    by_cases h : addr < 2 ^ 22
    · have hframe : IsFrame (addr / pageSize * pageSize) := by
        simp only [IsFrame, pageSize]
        omega
      have hflags : vmmKernelRw ||| vmmPresent = vmmKernelRw := by decide
      rw [if_pos h, if_pos (hlow.mp h), Option.map_some, Option.map_some,
        PageMap.entry, pageEntry_of_frame hframe, hflags]
      rfl
    · rw [if_neg h, if_neg (mt hlow.mpr h)]
      rfl
  · intro page mapping hmap
    unfold PageMap.identity at hmap
    split at hmap
    · obtain rfl := Option.some.inj hmap
      have hflags : vmmKernelRw.toNat < 4096 := by decide
      refine ⟨?_, hflags⟩
      simp only [IsFrame, pageSize]
      omega
    · contradiction

/-- After `vmm_init`, whatever is mapped and unmapped, as long as there are
frames for the tables: `vmm_get_phys` and `vmm_is_mapped` see at every address
what an abstract map from pages to frames and flags holds there, in which each
call changes exactly the pages it names. -/
theorem vmm_run_refines_pageMap (boot start : Paging)
    (hpos : 1 ≤ boot.pmm.allocSearch)
    (hle : boot.pmm.allocSearch ≤ pmmMaxFrames)
    (hinit : vmmInit boot = some start) (calls : List PageCall)
    (hcalls : ∀ call ∈ calls, call.InRange) :
    calls.foldlM Paging.call start = .error .panic ∨
      ∃ last, calls.foldlM Paging.call start = .ok last ∧
        ∀ virt < 2 ^ 32,
          vmmGetPhys last virt =
            (calls.foldl PageMap.apply PageMap.identity).getPhys virt ∧
          vmmIsMapped last virt =
            (calls.foldl PageMap.apply PageMap.identity).isMapped virt := by
  obtain ⟨pt0, hmem, hpt0, htables, -⟩ := vmmInit_firstTable hpos hle hinit
  rcases (hmem.implements hpt0 htables).calls calls hcalls with
    hpanic | ⟨last, hrun, himpl⟩
  · exact .inl hpanic
  · exact .inr ⟨last, hrun, fun virt hvirt =>
      ⟨himpl.getPhys hvirt, himpl.isMapped hvirt⟩⟩

namespace VmmPageMapWitness

/-- 128 KB of memory at 1 MB, with the kernel image in its first 32 KB. -/
def boot : Paging :=
  ⟨pmmInit Pmm.boot ⟨0x40, 0, [⟨0x100000, 0x20000, 1⟩]⟩ 0x100000 0x108000,
    fun _ => 0#32, 0, 0⟩

/-- A range over two tables, with a hole and a page mapped again. -/
def calls : List PageCall :=
  [.mapRange 0x7FF000 0x200000 0x1800 6#32, .unmapPage 0x7FF000,
    .mapPage 0x800000 0x300000 2#32]

theorem calls_return :
    ((vmmInit boot).bind fun start =>
      (calls.foldlM Paging.call start).toOption.map fun last =>
        vmmGetPhys last 0x800123) = some 0x300123 := by
  decide +kernel

theorem calls_refine :
    ∃ start last, vmmInit boot = some start ∧
      calls.foldlM Paging.call start = .ok last ∧
      vmmGetPhys last 0x800123 = 0x300123 ∧ ∀ virt < 2 ^ 32,
        vmmGetPhys last virt =
          (calls.foldl PageMap.apply PageMap.identity).getPhys virt := by
  obtain ⟨start, hinit, hrest⟩ := Option.bind_eq_some_iff.mp calls_return
  obtain ⟨last, hrun, hphys⟩ := Option.map_eq_some_iff.mp hrest
  have hrun := toOption_eq_some hrun
  have hcalls : ∀ call ∈ calls, call.InRange := by
    simp only [calls, List.forall_mem_cons, PageCall.InRange]
    exact ⟨by decide, trivial, by decide, by simp⟩
  have hsearch : boot.pmm.allocSearch = 1 := by
    rw [boot, pmmInit_allocSearch]
    rfl
  refine ⟨start, last, hinit, hrun, hphys, fun virt hvirt => ?_⟩
  rcases vmm_run_refines_pageMap boot start hsearch.ge
      (by rw [hsearch]; decide) hinit calls hcalls with
    hpanic | ⟨last', hrun', hall⟩
  · cases hrun.symm.trans hpanic
  · obtain rfl := Except.ok.inj (hrun.symm.trans hrun')
    exact (hall virt hvirt).1

end VmmPageMapWitness

end Orion
