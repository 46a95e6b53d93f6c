/-
The kernel image and the allocator.  Reserving rounds the end of the image
down, so the frame of a partial last page is protected only if the memory map
never offered it.
-/
import Orion.PmmInvariant

namespace Orion

open MachineInt

/-- The frame holds at least one byte of the kernel image. -/
def OverlapsImage (kernelPhysStart kernelPhysEnd : UInt32) (frame : Nat) :
    Prop :=
  ∃ byte, kernelPhysStart.toNat ≤ byte ∧ byte < kernelPhysEnd.toNat ∧
    addrToFrame byte = frame

/-- Clients only free frames that they hold. -/
def freesHeld (sys : PmmSystem) : PmmCall → Bool
  | .allocFrame => true
  | .freeFrame physAddr => addrToFrame physAddr.toNat ∈ sys.outstanding

/-- After boot every frame of the image is used, and no run hands one out. -/
def ImageProtected (mbi : MultibootInfo)
    (kernelPhysStart kernelPhysEnd : UInt32) : Prop :=
  (∀ frame, OverlapsImage kernelPhysStart kernelPhysEnd frame →
    bitmapTest (pmmInit Pmm.boot mbi kernelPhysStart kernelPhysEnd) frame =
      true) ∧
  ∀ (calls : List PmmCall) (sys : PmmSystem),
    Machine.exec (Machine.guarded freesHeld PmmSystem.step)
      ⟨pmmInit Pmm.boot mbi kernelPhysStart kernelPhysEnd, []⟩ calls =
        some sys →
    (pmmAllocFrame sys.pmm).1 ≠ 0 →
    ¬ OverlapsImage kernelPhysStart kernelPhysEnd
      (addrToFrame (pmmAllocFrame sys.pmm).1)

/-- The last page of the image is partial and the memory map declares its
frame free. -/
def TailFrameFree (mbi : MultibootInfo)
    (kernelPhysStart kernelPhysEnd : UInt32) : Prop :=
  kernelPhysStart < kernelPhysEnd ∧ kernelPhysEnd.toNat % pageSize ≠ 0 ∧
    MapFrees mbi (addrToFrame kernelPhysEnd.toNat)

section Image

variable {mbi : MultibootInfo} {kernelPhysStart kernelPhysEnd : UInt32}

theorem OverlapsImage.lt_maxFrames {frame : Nat}
    (hoverlap : OverlapsImage kernelPhysStart kernelPhysEnd frame) :
    frame < pmmMaxFrames := by
  obtain ⟨byte, _, hbyte, rfl⟩ := hoverlap
  have hend := kernelPhysEnd.toNat_lt
  simp only [addrToFrame, pmmMaxFrames, pageSize]
  omega

/-- A frame of the image is a full one, which boot reserves, or the partial
last one. -/
theorem OverlapsImage.covered_or_tail
    (haligned : kernelPhysStart.toNat % pageSize = 0) {frame : Nat}
    (hoverlap : OverlapsImage kernelPhysStart kernelPhysEnd frame) :
    RegionCovers kernelPhysStart.toNat
        (sub32 kernelPhysEnd.toNat kernelPhysStart.toNat) frame ∨
      (kernelPhysStart < kernelPhysEnd ∧
        kernelPhysEnd.toNat % pageSize ≠ 0 ∧
        frame = addrToFrame kernelPhysEnd.toNat) := by
  obtain ⟨byte, hlow, hhigh, rfl⟩ := hoverlap
  have hend := kernelPhysEnd.toNat_lt
  have hle : kernelPhysStart.toNat ≤ kernelPhysEnd.toNat := by omega
  have hlt : kernelPhysStart < kernelPhysEnd := by
    change kernelPhysStart.toNat < kernelPhysEnd.toNat
    omega
  rw [sub32_of_le hle hend]
  simp only [RegionCovers, addrToFrame, pageSize] at *
  rcases Nat.lt_or_ge kernelPhysEnd.toNat ((byte / 4096 + 1) * 4096) with
    htail | hfull
  · refine Or.inr ⟨hlt, ?_, ?_⟩ <;> omega
  · refine Or.inl ⟨?_, ?_⟩ <;> omega

theorem pmmInit_reserves_image
    (haligned : kernelPhysStart.toNat % pageSize = 0)
    (htail : ¬ TailFrameFree mbi kernelPhysStart kernelPhysEnd) {frame : Nat}
    (hoverlap : OverlapsImage kernelPhysStart kernelPhysEnd frame) :
    bitmapTest (pmmInit Pmm.boot mbi kernelPhysStart kernelPhysEnd) frame =
      true := by
  rw [bitmapTest_pmmInit _ _ _ _ hoverlap.lt_maxFrames]
  rcases hoverlap.covered_or_tail haligned with hcovered | ⟨hlt, hragged, heq⟩
  · exact Or.inr (Or.inl hcovered)
  · refine Or.inr (Or.inr ?_)
    intro hfrees
    exact htail ⟨hlt, hragged, heq ▸ hfrees⟩

theorem tail_overlapsImage (hlt : kernelPhysStart < kernelPhysEnd)
    (hragged : kernelPhysEnd.toNat % pageSize ≠ 0) :
    OverlapsImage kernelPhysStart kernelPhysEnd
      (addrToFrame kernelPhysEnd.toNat) := by
  have hlt : kernelPhysStart.toNat < kernelPhysEnd.toNat := hlt
  refine ⟨kernelPhysEnd.toNat - 1, by omega, by omega, ?_⟩
  simp only [addrToFrame, pageSize] at *
  omega

/-- A partial last page is not reserved. -/
theorem pmmInit_tail_free
    (htail : TailFrameFree mbi kernelPhysStart kernelPhysEnd) :
    bitmapTest (pmmInit Pmm.boot mbi kernelPhysStart kernelPhysEnd)
      (addrToFrame kernelPhysEnd.toNat) = false := by
  obtain ⟨hlt, hragged, hfrees⟩ := htail
  have hbound := addrToFrame_lt kernelPhysEnd
  have hend := kernelPhysEnd.toNat_lt
  have hlt : kernelPhysStart.toNat < kernelPhysEnd.toNat := hlt
  rw [← Bool.not_eq_true, bitmapTest_pmmInit _ _ _ _ hbound]
  rintro (hzero | hcovers | hkept)
  · exact hfrees.1 hzero
  · rw [sub32_of_le (by omega) hend] at hcovers
    have hhigh := hcovers.2
    simp only [addrToFrame, pageSize] at *
    omega
  · exact hkept hfrees

/-- The part of the run invariant that keeps the image out of reach. -/
structure ImageInv (kernelPhysStart kernelPhysEnd : UInt32)
    (sys : PmmSystem) : Prop where
  search_pos : 1 ≤ sys.pmm.allocSearch
  search_lt : sys.pmm.allocSearch < pmmMaxFrames
  reserved : ∀ frame, OverlapsImage kernelPhysStart kernelPhysEnd frame →
    bitmapTest sys.pmm frame = true
  held : ∀ frame ∈ sys.outstanding,
    ¬ OverlapsImage kernelPhysStart kernelPhysEnd frame

theorem ImageInv.alloc_not_overlaps {sys : PmmSystem}
    (hinv : ImageInv kernelPhysStart kernelPhysEnd sys)
    (hne : (pmmAllocFrame sys.pmm).1 ≠ 0) :
    ¬ OverlapsImage kernelPhysStart kernelPhysEnd
      (addrToFrame (pmmAllocFrame sys.pmm).1) := by
  intro hoverlap
  rcases pmmAllocFrame_inversion hinv.search_pos (Nat.le_of_lt hinv.search_lt) with
    hfail | ⟨frame, _, _, hfree, hresult⟩
  · rw [hfail] at hne
    exact hne rfl
  · rw [hresult, addrToFrame_mul] at hoverlap
    rw [hinv.reserved frame hoverlap] at hfree
    contradiction

theorem ImageInv.step {sys next : PmmSystem} {call : PmmCall}
    (hinv : ImageInv kernelPhysStart kernelPhysEnd sys)
    (hstep : Machine.guarded freesHeld PmmSystem.step sys call = some next) :
    ImageInv kernelPhysStart kernelPhysEnd next := by
  obtain ⟨hguard, hstep⟩ := Machine.guarded_eq_some.mp hstep
  cases call with
  | allocFrame =>
      simp only [PmmSystem.step, Option.some.injEq] at hstep
      subst next
      rcases pmmAllocFrame_inversion hinv.search_pos
          (Nat.le_of_lt hinv.search_lt) with
        hfail | ⟨frame, hpos, hlt, hfree, hresult⟩
      · rw [hfail]
        exact hinv
      · have hnot := hinv.alloc_not_overlaps
        have hne : frame * pageSize ≠ 0 :=
          Nat.mul_ne_zero (by omega) (by decide)
        rw [hresult] at hnot ⊢
        refine ⟨(pmmTakeFrame_search sys.pmm frame).1,
          (pmmTakeFrame_search sys.pmm frame).2, ?_, ?_⟩
        · intro other hother
          rw [bitmapTest_pmmTakeFrame, hinv.reserved other hother,
            Bool.or_true]
        · intro other hother
          simp only [hne, ↓reduceIte, List.mem_cons] at hother
          rcases hother with rfl | hold
          · exact hnot hne
          · exact hinv.held other hold
  | freeFrame physAddr =>
      simp only [PmmSystem.step, Option.some.injEq] at hstep
      subst next
      have hheld := hinv.held _ (of_decide_eq_true hguard)
      have hsearch := pmmFreeFrame_search sys.pmm physAddr hinv.search_pos
        hinv.search_lt
      refine ⟨hsearch.1, hsearch.2, ?_, ?_⟩
      · intro frame hframe
        have hne : frame ≠ addrToFrame physAddr.toNat := by
          rintro rfl
          exact hheld hframe
        rw [bitmapTest_pmmFreeFrame hne]
        exact hinv.reserved frame hframe
      · intro frame hframe
        exact hinv.held frame (List.mem_of_mem_filter hframe)

end Image

/-- The image is protected exactly when its last page is full or its frame
was never declared free. -/
theorem imageProtected_iff (mbi : MultibootInfo)
    (kernelPhysStart kernelPhysEnd : UInt32)
    (haligned : kernelPhysStart.toNat % pageSize = 0) :
    ImageProtected mbi kernelPhysStart kernelPhysEnd ↔
      ¬ TailFrameFree mbi kernelPhysStart kernelPhysEnd := by
  constructor
  · rintro ⟨hreserved, _⟩ htail
    have hused := hreserved _ (tail_overlapsImage htail.1 htail.2.1)
    rw [pmmInit_tail_free htail] at hused
    contradiction
  · intro htail
    have hreserved : ∀ frame,
        OverlapsImage kernelPhysStart kernelPhysEnd frame →
          bitmapTest (pmmInit Pmm.boot mbi kernelPhysStart kernelPhysEnd)
            frame = true := by
      intro frame hoverlap
      exact pmmInit_reserves_image haligned htail hoverlap
    refine ⟨hreserved, ?_⟩
    intro calls sys hrun hne
    have hsearch := pmmInit_allocSearch Pmm.boot mbi kernelPhysStart
      kernelPhysEnd
    have hinit : ImageInv kernelPhysStart kernelPhysEnd
        ⟨pmmInit Pmm.boot mbi kernelPhysStart kernelPhysEnd, []⟩ := by
      refine ⟨?_, ?_, hreserved, by simp⟩
      · rw [hsearch]
        decide
      · rw [hsearch]
        decide
    have hinv := Machine.exec_invariant
      (fun _ _ _ hinv hstep => ImageInv.step hinv hstep) hinit hrun
    exact hinv.alloc_not_overlaps hne

namespace PmmKernelImageWitness

/-- 16 KB of memory at 2 MB, where the image is linked. -/
def mbi : MultibootInfo := ⟨0x40, 0, [⟨0x200000, 0x4000, 1⟩]⟩

theorem imageProtected_full_pages :
    (0x200000 : UInt32).toNat % pageSize = 0 ∧
      ImageProtected mbi 0x200000 0x202000 := by
  refine ⟨by decide, (imageProtected_iff mbi 0x200000 0x202000 (by decide)).mpr ?_⟩
  rintro ⟨_, hragged, _⟩
  exact hragged (by decide)

/-- The image ends in the middle of the page at `0x201000`, and the first
allocation returns exactly that page. -/
theorem imageProtected_fails_on_partial_page :
    (0x200000 : UInt32).toNat % pageSize = 0 ∧
      (pmmAllocFrame (pmmInit Pmm.boot mbi 0x200000 0x201800)).1 = 0x201000 ∧
      ¬ ImageProtected mbi 0x200000 0x201800 := by
  have hoverlap : OverlapsImage 0x200000 0x201800 0x201 :=
    ⟨0x201000, by decide, by decide, by decide⟩
  refine ⟨by decide, by decide, ?_⟩
  rintro ⟨hreserved, _⟩
  have hused := hreserved 0x201 hoverlap
  revert hused
  decide

end PmmKernelImageWitness

end Orion
