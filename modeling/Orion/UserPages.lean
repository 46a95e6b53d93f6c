/-
Which pages the user-pointer check accepts.  `vmm_range_mapped` asks for the
user bit at both levels; `vmm_map_page` writes it into the table entry every
time, into the directory entry only with the first page of its 4 MB.
-/
import Orion.VmmRange
import Orion.VmmSystem

namespace Orion

open MachineInt

inductive MapCall where
  | mapPage (virt phys : UInt32) (flags : BitVec 32)
  | unmapPage (virt : UInt32)

/-- One call; `none` is the panic without a frame for a table. -/
def Paging.mapCall (paging : Paging) : MapCall → Option Paging
  | .mapPage virt phys flags => vmmMapPage paging virt.toNat phys.toNat flags
  | .unmapPage virt => some (vmmUnmapPage paging virt.toNat)

/-- The entry or the flags have the user bit. -/
def hasUser (entry : BitVec 32) : Bool := entry &&& vmmUser ≠ 0

namespace MapCall

def virt : MapCall → Nat
  | .mapPage virt _ _ => virt.toNat
  | .unmapPage virt => virt.toNat

/-- The call maps its page for user mode. -/
def mapsUser : MapCall → Bool
  | .mapPage _ _ flags => hasUser flags
  | .unmapPage _ => false

/-- The call works on the page. -/
def onPage (page : Nat) (call : MapCall) : Bool := call.virt / pageSize == page

/-- The call maps a page of the directory slot. -/
def mapsIn (slot : Nat) : MapCall → Bool
  | .mapPage virt _ _ => pdIndex virt.toNat == slot
  | .unmapPage _ => false

end MapCall

/-- The latest call on the page maps it for user mode. -/
def lastMapsUser (calls : List MapCall) (page : Nat) : Bool :=
  ((calls.reverse.find? (·.onPage page)).map MapCall.mapsUser).getD false

/-- Whether the first call that maps a page of the slot maps it for user mode;
the table of slot 0 is made by `vmm_init`, without the user bit. -/
def firstMapsUser (calls : List MapCall) (slot : Nat) : Option Bool :=
  if slot = 0 then some false
  else (calls.find? (·.mapsIn slot)).map MapCall.mapsUser

section Bits

theorem hasUser_eq (entry : BitVec 32) : hasUser entry = entry.getLsbD 2 := by
  have hbit : ∀ i < 32, vmmUser.getLsbD i = decide (i = 2) := by decide
  unfold hasUser
  cases huser : entry.getLsbD 2 with
  | true =>
      refine decide_eq_true fun hzero => ?_
      have hsecond : (entry &&& vmmUser).getLsbD 2 = false := by
        rw [hzero]
        rfl
      rw [BitVec.getLsbD_and, huser, hbit 2 (by decide)] at hsecond
      cases hsecond
  | false =>
      refine decide_eq_false (not_not_intro ?_)
      apply BitVec.eq_of_getLsbD_eq
      intro i hi
      rw [BitVec.getLsbD_and, hbit i hi]
      by_cases heq : i = 2
      · rw [heq, huser]
        rfl
      · simp [heq]

theorem hasUser_or (a b : BitVec 32) :
    hasUser (a ||| b) = (hasUser a || hasUser b) := by
  rw [hasUser_eq, hasUser_eq, hasUser_eq, BitVec.getLsbD_or]

theorem hasUser_frame {table : Nat} (htable : IsFrame table) :
    hasUser (BitVec.ofNat 32 table) = false := by
  rw [hasUser_eq, BitVec.getLsbD_ofNat, testBit_of_isFrame htable (by decide)]
  rfl

theorem hasUser_pageEntry (phys : Nat) (flags : BitVec 32) :
    hasUser (pageEntry phys flags) = hasUser flags := by
  have hmask : hasUser (BitVec.ofNat 32 phys &&& vmmAddrMask) = false := by
    rw [hasUser_eq, BitVec.getLsbD_and, vmmAddrMask_bit 2 (by decide)]
    simp
  rw [pageEntry, hasUser_or, hasUser_or, hmask,
    show hasUser vmmPresent = false by decide, Bool.false_or, Bool.or_false]

/-- The directory entry of a new table. -/
theorem hasUser_newTable {table : Nat} (htable : IsFrame table)
    (flags : BitVec 32) :
    hasUser (BitVec.ofNat 32 table ||| vmmPresent ||| vmmWritable |||
      (flags &&& vmmUser)) = hasUser flags := by
  have huser : hasUser (flags &&& vmmUser) = hasUser flags := by
    rw [hasUser_eq, hasUser_eq, BitVec.getLsbD_and,
      show vmmUser.getLsbD 2 = true by decide, Bool.and_true]
  rw [hasUser_or, hasUser_or, hasUser_or, hasUser_frame htable, huser,
    show hasUser vmmPresent = false by decide,
    show hasUser vmmWritable = false by decide]
  simp

end Bits

section Histories

variable {calls : List MapCall} {call : MapCall} {page slot : Nat}

theorem lastMapsUser_concat (calls : List MapCall) (call : MapCall) (page : Nat) :
    lastMapsUser (calls ++ [call]) page =
      if call.virt / pageSize = page then call.mapsUser
      else lastMapsUser calls page := by
  unfold lastMapsUser
  rw [List.reverse_concat]
  by_cases hpage : call.virt / pageSize = page
  · rw [if_pos hpage, List.find?_cons_of_pos (by simp [MapCall.onPage, hpage])]
    rfl
  · rw [if_neg hpage, List.find?_cons_of_neg (by simp [MapCall.onPage, hpage])]

/-- A call decides about a slot if it is the first one to map a page there. -/
theorem firstMapsUser_concat (calls : List MapCall) (call : MapCall)
    (slot : Nat) :
    firstMapsUser (calls ++ [call]) slot =
      if firstMapsUser calls slot = none ∧ call.mapsIn slot = true
      then some call.mapsUser else firstMapsUser calls slot := by
  unfold firstMapsUser
  by_cases hzero : slot = 0
  · simp [hzero]
  rw [if_neg hzero, if_neg hzero, List.find?_append]
  cases hfind : calls.find? (·.mapsIn slot) with
  | some first => simp
  | none =>
      by_cases hin : call.mapsIn slot = true
      · simp [hin]
      · simp [hin]

end Histories

/-- The user bit of a present entry. -/
def userBit (entry : BitVec 32) : Option Bool :=
  if IsPresent entry then some (hasUser entry) else none

/-- The tables show the calls: each directory entry the first call that mapped a
page there, each table entry the latest one on its page. -/
structure Shows (paging : Paging) (calls : List MapCall) : Prop where
  tables : PagingInv paging.pmm paging.mem paging.pageDirectory []
  slots : ∀ i < 1024, userBit (paging.mem (slotAddr paging.pageDirectory i)) =
    firstMapsUser calls i
  pages : ∀ addr < 2 ^ 32,
    ((walk paging.mem paging.pageDirectory addr).map fun entries =>
      hasUser entries.2).getD false = lastMapsUser calls (addr / pageSize)

section Steps

variable {paging next : Paging} {calls : List MapCall} {virt phys : Nat}
  {flags : BitVec 32}

/-- Mapping a page writes at most the directory entry of its own slot, and only
if there is none. -/
theorem vmmMapPage_slot
    (hinv : paging.Inv [])
    (hvirt : virt < 2 ^ 32) (hmap : vmmMapPage paging virt phys flags = some next)
    {i : Nat} (hi : i < 1024) :
    userBit (next.mem (slotAddr paging.pageDirectory i)) =
      if userBit (paging.mem (slotAddr paging.pageDirectory i)) = none ∧
          pdIndex virt = i
      then some (hasUser flags)
      else userBit (paging.mem (slotAddr paging.pageDirectory i)) := by
  obtain ⟨table, mid, hcreate, rfl⟩ := vmmMapPage_eq_some hmap
  obtain ⟨hinv', hserves, htable⟩ := createTable_spec hinv hvirt hcreate
  have hslot : Function.update mid.mem (slotAddr table (ptIndex virt))
      (pageEntry phys flags) (slotAddr paging.pageDirectory i) =
        mid.mem (slotAddr paging.pageDirectory i) :=
    hinv'.directory.slot_update ⟨_, pdIndex_lt hvirt, hserves.present, htable⟩ hi
      (ptIndex_lt virt) _
  dsimp only
  rw [hslot]
  rcases createTable_eq_some hcreate with
    ⟨hpresent, -, rfl⟩ | ⟨habsent, pmm, halloc, hzero, rfl⟩
  · rw [if_neg]
    rintro ⟨hnone, rfl⟩
    rw [userBit, if_pos hpresent] at hnone
    cases hnone
  · have hunused := ((hinv.alloc halloc).2 hzero).unused
    dsimp only
    rw [hunused.slot_newTable hinv.directory.frame (pdIndex_lt hvirt) hi]
    by_cases hindex : i = pdIndex virt
    · subst hindex
      rw [if_pos rfl, userBit, if_pos (isPresent_new table flags),
        hasUser_newTable hunused.frame, userBit, if_neg habsent,
        if_pos ⟨rfl, rfl⟩]
    · rw [if_neg hindex, if_neg]
      rintro ⟨-, rfl⟩
      exact hindex rfl

theorem vmmUnmapPage_slot
    (hinv : paging.Inv [])
    (hvirt : virt < 2 ^ 32) {i : Nat} (hi : i < 1024) :
    (vmmUnmapPage paging virt).mem (slotAddr paging.pageDirectory i) =
      paging.mem (slotAddr paging.pageDirectory i) := by
  unfold vmmUnmapPage
  dsimp only
  split_ifs with habsent
  · rfl
  · exact hinv.directory.slot_update
      ⟨_, pdIndex_lt hvirt, habsent, rfl⟩ hi (ptIndex_lt virt) _

/-- A rewritten entry shows in the walk of its page only. -/
theorem Rewrites.userPages {entry : BitVec 32} {fresh : Option Nat}
    (hrewrites : Rewrites paging next virt entry fresh) {addr : Nat}
    (haddr : addr < 2 ^ 32) :
    ((Orion.walk next.mem paging.pageDirectory addr).map fun entries =>
      hasUser entries.2).getD false =
    if virt / pageSize = addr / pageSize
    then (userBit entry).getD false
    else ((Orion.walk paging.mem paging.pageDirectory addr).map fun entries =>
      hasUser entries.2).getD false := by
  have hpage : pageFloor addr = pageFloor virt ↔
      virt / pageSize = addr / pageSize := by
    simp only [pageFloor, pageSize]
    omega
  rw [hrewrites.walk addr haddr]
  simp only [hpage]
  unfold userBit
  split_ifs <;> rfl

theorem mapCall_shows (hshows : Shows paging calls) {call : MapCall}
    (hcall : paging.mapCall call = some next) :
    Shows next (calls ++ [call]) ∧
      next.pageDirectory = paging.pageDirectory := by
  cases call with
  | mapPage virt phys flags =>
      obtain ⟨htables, hrewrites⟩ :=
        vmmMapPage_spec hshows.tables virt.toNat_lt hcall
      have hpd := hrewrites.pageDirectory
      refine ⟨⟨htables, ?_, ?_⟩, hpd⟩
      · intro i hi
        rw [hpd, vmmMapPage_slot hshows.tables virt.toNat_lt hcall hi,
          hshows.slots i hi, firstMapsUser_concat]
        simp only [MapCall.mapsIn, beq_iff_eq]
        rfl
      · intro addr haddr
        rw [hpd, hrewrites.userPages haddr, hshows.pages addr haddr,
          lastMapsUser_concat, userBit, if_pos (isPresent_pageEntry _ _),
          hasUser_pageEntry]
        rfl
  | unmapPage virt =>
      obtain rfl := Option.some.inj hcall
      obtain ⟨htables, hrewrites⟩ :=
        vmmUnmapPage_spec hshows.tables virt.toNat_lt
      have hpd := hrewrites.pageDirectory
      refine ⟨⟨htables, ?_, ?_⟩, hpd⟩
      · intro i hi
        rw [hpd, vmmUnmapPage_slot hshows.tables virt.toNat_lt hi,
          hshows.slots i hi, firstMapsUser_concat, if_neg]
        simp [MapCall.mapsIn]
      · intro addr haddr
        rw [hpd, hrewrites.userPages haddr, hshows.pages addr haddr,
          lastMapsUser_concat, userBit, if_neg not_isPresent_zero]
        rfl

theorem run_shows {start : Paging} {past : List MapCall}
    (hstart : Shows start past)
    (hrun : Machine.exec Paging.mapCall start calls = some next) :
    Shows next (past ++ calls) ∧ next.pageDirectory = start.pageDirectory := by
  induction calls generalizing start past with
  | nil =>
      obtain rfl := Option.some.inj hrun
      rw [List.append_nil]
      exact ⟨hstart, rfl⟩
  | cons call calls ih =>
      obtain ⟨mid, hcall, hrest⟩ := (Machine.exec_cons_eq_some _).mp hrun
      obtain ⟨hmid, hpd⟩ := mapCall_shows hstart hcall
      obtain ⟨hnext, hpd'⟩ := ih hmid hrest
      rw [List.append_assoc] at hnext
      exact ⟨hnext, hpd'.trans hpd⟩

theorem FirstTable.shows {pt0 : Nat}
    (hmem : FirstTable paging.mem paging.pageDirectory pt0)
    (hpt0 : IsFrame pt0)
    (htables : paging.Inv []) :
    Shows paging [] := by
  refine ⟨htables, ?_, ?_⟩
  · intro i hi
    rw [hmem.slot i hi, firstMapsUser]
    split_ifs
    · rw [userBit, if_pos (isPresent_vmmKernelRw pt0), hasUser_or,
        hasUser_frame hpt0]
      rfl
    · rfl
  · intro addr haddr
    rw [hmem.walk hpt0 haddr]
    split_ifs
    · have hframe : IsFrame (pageFloor addr) := by
        simp only [IsFrame, pageFloor, pageSize]
        omega
      rw [Option.map_some, hasUser_or, hasUser_frame hframe]
      rfl
    · rfl

/-- A page passes the check if it is mapped with the user bit at both levels. -/
theorem pageMapped_user_iff {mem : PhysMem} {pd v : Nat} :
    PageMapped mem pd true (v / pageSize) ↔
      userBit (mem (slotAddr pd (pdIndex v))) = some true ∧
        ((walk mem pd v).map fun entries => hasUser entries.2).getD false =
          true := by
  have hpd : pdIndex (v / pageSize * pageSize) = pdIndex v := by
    simp only [pdIndex, pageSize]
    omega
  have hpt : ptIndex (v / pageSize * pageSize) = ptIndex v := by
    simp only [ptIndex, pageSize]
    omega
  unfold PageMapped walk userBit
  simp only [hpd, hpt]
  generalize mem (slotAddr pd (pdIndex v)) = pde
  by_cases hpde : IsPresent pde
  · rw [if_pos hpde, if_pos hpde]
    generalize mem (slotAddr (entryTable pde) (ptIndex v)) = pte
    by_cases hpte : IsPresent pte
    · rw [if_pos hpte]
      simp only [Option.some.injEq, Option.map_some, Option.getD_some, hasUser,
        decide_eq_true_eq]
      exact ⟨fun h => h.2.2 trivial, fun h => ⟨hpde, hpte, fun _ => h⟩⟩
    · rw [if_neg hpte]
      exact iff_of_false (fun h => hpte h.2.1) (by simp)
  · rw [if_neg hpde, if_neg hpde]
    exact iff_of_false (fun h => hpde h.1) (by simp)

/-- The check of one page, in terms of the calls. -/
theorem Shows.rangeMapped (hshows : Shows paging calls)
    (hpd : paging.pageDirectory ≠ 0) {v : UInt32}
    (hv : v.toNat < 2 ^ 32 - pageSize) :
    vmmRangeMapped paging.mem paging.pageDirectory v 1 true = true ↔
      firstMapsUser calls (pdIndex v.toNat) = some true ∧
        lastMapsUser calls (v.toNat / pageSize) = true := by
  have hone : (1 : UInt32).toNat = 1 := rfl
  rw [vmmRangeMapped_iff_of_low hpd (by decide) (by rw [hone]; omega),
    ← hshows.slots _ (pdIndex_lt v.toNat_lt), ← hshows.pages _ v.toNat_lt,
    ← pageMapped_user_iff]
  constructor
  · rintro ⟨-, hall⟩
    exact hall v.toNat (Nat.le_refl _) (by rw [hone]; omega)
  · intro hpage
    refine ⟨by rw [hone]; omega, fun byte hlow hhigh => ?_⟩
    rw [hone] at hhigh
    obtain rfl : byte = v.toNat := by omega
    exact hpage

end Steps

theorem vmmInit_directory_ne {boot start : Paging}
    (hinit : vmmInit boot = some start) : start.pageDirectory ≠ 0 := by
  unfold vmmInit at hinit
  dsimp only at hinit
  split_ifs at hinit with hzero
  rw [← Option.some.inj hinit]
  exact hzero

/-- After `vmm_init`, whatever is mapped and unmapped: the user-pointer check
accepts exactly the pages that were last mapped for user mode, except those
in a part of 4 MB whose first page was not, or which `vmm_init` mapped. -/
theorem userMapped_run_iff (boot start last : Paging)
    (hpos : 1 ≤ boot.pmm.allocSearch)
    (hle : boot.pmm.allocSearch ≤ pmmMaxFrames)
    (hinit : vmmInit boot = some start) (calls : List MapCall)
    (hrun : Machine.exec Paging.mapCall start calls = some last) (v : UInt32)
    (hv : v.toNat < 0xFFFFF000) :
    (vmmRangeMapped last.mem last.pageDirectory v 1 true = true ↔
      lastMapsUser calls (v.toNat / pageSize) = true) ↔
    (lastMapsUser calls (v.toNat / pageSize) = true →
      firstMapsUser calls (pdIndex v.toNat) = some true) := by
  obtain ⟨pt0, hmem, hpt0, htables, -⟩ := vmmInit_firstTable hpos hle hinit
  obtain ⟨hshows, hpd⟩ := run_shows (hmem.shows hpt0 htables) hrun
  have hne : last.pageDirectory ≠ 0 := hpd ▸ vmmInit_directory_ne hinit
  rw [hshows.rangeMapped hne hv, List.nil_append]
  tauto

namespace UserPagesWitness

/-- 128 KB of memory at 1 MB, with the kernel image in its first 32 KB. -/
def boot : Paging :=
  ⟨pmmInit Pmm.boot ⟨0x40, 0, [⟨0x100000, 0x20000, 1⟩]⟩ 0x100000 0x108000,
    fun _ => 0#32, 0, 0⟩

def run (calls : List MapCall) : Option Paging :=
  (vmmInit boot).bind fun start => Machine.exec Paging.mapCall start calls

/-- Two user pages at 4 MB. -/
def userFirst : List MapCall :=
  [.mapPage 0x400000 0x200000 7#32, .mapPage 0x401000 0x201000 7#32]

/-- A kernel page at 4 MB, then a user page behind it. -/
def kernelFirst : List MapCall :=
  [.mapPage 0x400000 0x200000 3#32, .mapPage 0x401000 0x201000 7#32]

theorem user_page_accepted : ∃ last, run userFirst = some last ∧
    vmmRangeMapped last.mem last.pageDirectory 0x401000 1 true = true := by
  have hview : (run userFirst).isSome = true := by decide +kernel
  obtain ⟨last, hlast⟩ := Option.isSome_iff_exists.mp hview
  obtain ⟨start, hinit, hrun⟩ := Option.bind_eq_some_iff.mp hlast
  have hsearch : boot.pmm.allocSearch = 1 := by
    rw [boot, pmmInit_allocSearch]
    rfl
  refine ⟨last, hlast, ?_⟩
  refine ((userMapped_run_iff boot start last hsearch.ge
    (by rw [hsearch]; decide) hinit userFirst hrun 0x401000 (by decide)).mpr
    fun _ => ?_).mpr ?_
  all_goals decide

/-- The table of the 4 MB was made for the kernel page, so the user page is
refused. -/
theorem user_page_refused :
    lastMapsUser kernelFirst (0x401000 / pageSize) = true ∧
      (run kernelFirst).map (fun last =>
        vmmRangeMapped last.mem last.pageDirectory 0x401000 1 true) =
          some false := by
  decide +kernel

end UserPagesWitness

end Orion
