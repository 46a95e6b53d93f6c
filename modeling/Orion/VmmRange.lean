/-
When the user-pointer check is exact.  The end of the range is rounded up in
32-bit arithmetic; a range that reaches into the last page of the address
space wraps, and the walk then looks at no page, or at one page only.
-/
import Orion.Vmm

namespace Orion

open MachineInt

/-- The page has a present directory entry and a present table entry, both
open to user mode when `userOnly` is set. -/
def PageMapped (mem : PhysMem) (pd : Nat) (userOnly : Bool) (page : Nat) :
    Prop :=
  let pde := mem (slotAddr pd (pdIndex (page * pageSize)))
  let pte := mem (slotAddr (entryTable pde) (ptIndex (page * pageSize)))
  pde &&& vmmPresent ≠ 0 ∧ pte &&& vmmPresent ≠ 0 ∧
    (userOnly = true → pde &&& vmmUser ≠ 0 ∧ pte &&& vmmUser ≠ 0)

/-- What the check is for: the range ends inside the address space and every
page with a byte in it is mapped. -/
def RangeMapped (mem : PhysMem) (pd : Nat) (virt len : UInt32)
    (userOnly : Bool) : Prop :=
  virt.toNat + len.toNat ≤ 2 ^ 32 ∧
    ∀ byte, virt.toNat ≤ byte → byte < virt.toNat + len.toNat →
      PageMapped mem pd userOnly (byte / pageSize)

/-- The inputs on which the check is exact.  A range that ends in the last
page must be mapped, because nothing of it is looked at; a range that wraps
must be caught by the one page the walk may still visit. -/
def RangeCheckExact (mem : PhysMem) (pd : Nat) (virt len : UInt32)
    (userOnly : Bool) : Prop :=
  let stop := virt.toNat + len.toNat
  stop ≤ 2 ^ 32 - pageSize ∨
    (2 ^ 32 - pageSize < stop ∧ stop ≤ 2 ^ 32 ∧
      ∀ byte, virt.toNat ≤ byte → byte < stop →
        PageMapped mem pd userOnly (byte / pageSize)) ∨
    (2 ^ 32 < stop ∧ pageFloor virt.toNat < stop - 2 ^ 32 ∧
      virt.toNat < 2 ^ 32 - pageSize ∧
      ¬ PageMapped mem pd userOnly (virt.toNat / pageSize))

variable {mem : PhysMem} {pd : Nat} {userOnly : Bool}

theorem vmmPageMapped_iff (page : Nat) :
    vmmPageMapped mem pd userOnly (page * pageSize) = true ↔
      PageMapped mem pd userOnly page := by
  simp only [vmmPageMapped, PageMapped]
  cases userOnly with
  | false => simp
  | true =>
      simp
      tauto

theorem vmmRangeWalk_of_le {addr stop : Nat} (hle : stop ≤ addr) :
    vmmRangeWalk mem pd userOnly addr stop = true := by
  rw [vmmRangeWalk, if_neg (Nat.not_lt.mpr hle)]

/-- The walk visits exactly the pages between its bounds. -/
theorem vmmRangeWalk_iff (first count : Nat) :
    vmmRangeWalk mem pd userOnly (first * pageSize)
        ((first + count) * pageSize) = true ↔
      ∀ page, first ≤ page → page < first + count →
        PageMapped mem pd userOnly page := by
  induction count generalizing first with
  | zero =>
      constructor
      · intro _ page hlow hhigh
        omega
      · intro _
        exact vmmRangeWalk_of_le (Nat.le_refl _)
  | succ count ih =>
      have hlt : first * pageSize < (first + (count + 1)) * pageSize :=
        Nat.mul_lt_mul_of_pos_right (by omega) (by decide)
      have hnext : first * pageSize + pageSize = (first + 1) * pageSize := by
        rw [Nat.add_mul, Nat.one_mul]
      have hstop : first + (count + 1) = first + 1 + count := by omega
      rw [vmmRangeWalk, if_pos hlt, hnext, hstop]
      by_cases hpage : vmmPageMapped mem pd userOnly (first * pageSize) = true
      · rw [if_pos hpage, ih (first + 1)]
        constructor
        · intro hrest page hlow hhigh
          rcases Nat.eq_or_lt_of_le hlow with rfl | hlater
          · exact (vmmPageMapped_iff first).mp hpage
          · exact hrest page hlater hhigh
        · intro hall page hlow hhigh
          exact hall page (by omega) hhigh
      · rw [if_neg hpage]
        constructor
        · intro hfalse
          exact absurd hfalse Bool.false_ne_true
        · intro hall
          have hmapped := hall first (Nat.le_refl _) (by omega)
          exact absurd ((vmmPageMapped_iff first).mpr hmapped) hpage

section Range

variable {virt len : UInt32}

theorem vmmRangeMapped_eq_walk (hpd : pd ≠ 0) (hlen : len ≠ 0) :
    vmmRangeMapped mem pd virt len userOnly =
      vmmRangeWalk mem pd userOnly (pageFloor virt.toNat)
        (pageFloor (u32 (virt.toNat + len.toNat + pageSize - 1))) := by
  rw [vmmRangeMapped, if_neg]
  simp [hpd, hlen]

theorem len_pos (hlen : len ≠ 0) : 0 < len.toNat := by
  rcases Nat.eq_zero_or_pos len.toNat with hzero | hpos
  · exact absurd (UInt32.toNat_inj.mp hzero) hlen
  · exact hpos

/-- Below the last page nothing wraps and the walk covers the range. -/
theorem vmmRangeMapped_iff_of_low (hpd : pd ≠ 0) (hlen : len ≠ 0)
    (hlow : virt.toNat + len.toNat ≤ 2 ^ 32 - pageSize) :
    vmmRangeMapped mem pd virt len userOnly = true ↔
      RangeMapped mem pd virt len userOnly := by
  have hpos := len_pos hlen
  have hwrap : u32 (virt.toNat + len.toNat + pageSize - 1) =
      virt.toNat + len.toNat + pageSize - 1 := by
    apply u32_of_lt
    simp only [pageSize] at *
    omega
  have hstop : pageFloor (virt.toNat + len.toNat + pageSize - 1) =
      (virt.toNat / pageSize + ((virt.toNat + len.toNat - 1) / pageSize + 1 -
        virt.toNat / pageSize)) * pageSize := by
    simp only [pageFloor, pageSize]
    omega
  rw [vmmRangeMapped_eq_walk hpd hlen, hwrap, hstop, pageFloor,
    vmmRangeWalk_iff]
  constructor
  · intro hwalk
    refine ⟨by omega, ?_⟩
    intro byte hbyte hlast
    apply hwalk <;> simp only [pageSize] <;> omega
  · rintro ⟨_, hall⟩ page hfirst hlast
    have hbyte := hall (max virt.toNat (page * pageSize))
      (Nat.le_max_left _ _)
    simp only [pageSize] at *
    have hpage : max virt.toNat (page * 4096) / 4096 = page := by omega
    rw [hpage] at hbyte
    exact hbyte (by omega)

/-- A range that ends in the last page is accepted unseen. -/
theorem vmmRangeMapped_of_last_page (hpd : pd ≠ 0) (hlen : len ≠ 0)
    (hhigh : 2 ^ 32 - pageSize < virt.toNat + len.toNat)
    (hend : virt.toNat + len.toNat ≤ 2 ^ 32) :
    vmmRangeMapped mem pd virt len userOnly = true := by
  have hstop : pageFloor (u32 (virt.toNat + len.toNat + pageSize - 1)) = 0 := by
    simp only [pageFloor, u32, pageSize] at *
    omega
  rw [vmmRangeMapped_eq_walk hpd hlen, hstop]
  exact vmmRangeWalk_of_le (Nat.zero_le _)

/-- A range that wraps is refused only by the page of its first byte. -/
theorem vmmRangeMapped_of_wrap (hpd : pd ≠ 0) (hlen : len ≠ 0)
    (hwrap : 2 ^ 32 < virt.toNat + len.toNat) :
    vmmRangeMapped mem pd virt len userOnly = false ↔
      pageFloor virt.toNat < virt.toNat + len.toNat - 2 ^ 32 ∧
        virt.toNat < 2 ^ 32 - pageSize ∧
        ¬ PageMapped mem pd userOnly (virt.toNat / pageSize) := by
  have hvirt := virt.toNat_lt
  have hlenlt := len.toNat_lt
  rw [vmmRangeMapped_eq_walk hpd hlen]
  by_cases hvisit : pageFloor virt.toNat < virt.toNat + len.toNat - 2 ^ 32 ∧
      virt.toNat < 2 ^ 32 - pageSize
  · have hstop : pageFloor (u32 (virt.toNat + len.toNat + pageSize - 1)) =
        (virt.toNat / pageSize + 1) * pageSize := by
      simp only [pageFloor, u32, pageSize] at *
      omega
    rw [hstop, pageFloor, ← Bool.not_eq_true, vmmRangeWalk_iff]
    have hone : (∀ page, virt.toNat / pageSize ≤ page →
        page < virt.toNat / pageSize + 1 → PageMapped mem pd userOnly page) ↔
          PageMapped mem pd userOnly (virt.toNat / pageSize) := by
      constructor
      · intro hall
        exact hall _ (Nat.le_refl _) (Nat.lt_succ_self _)
      · intro hpage page hlow hhigh
        have heq : page = virt.toNat / pageSize := by omega
        exact heq ▸ hpage
    rw [hone]
    constructor
    · intro hnot
      exact ⟨hvisit.1, hvisit.2, hnot⟩
    · intro hall
      exact hall.2.2
  · have hstop : pageFloor (u32 (virt.toNat + len.toNat + pageSize - 1)) ≤
        pageFloor virt.toNat := by
      simp only [pageFloor, u32, pageSize] at *
      omega
    rw [vmmRangeWalk_of_le hstop]
    constructor
    · intro hfalse
      exact absurd hfalse.symm Bool.false_ne_true
    · intro hall
      exact absurd ⟨hall.1, hall.2.1⟩ hvisit

end Range

/-- The check decides `RangeMapped` on exactly the inputs that
`RangeCheckExact` names. -/
theorem vmmRangeMapped_exact_iff (mem : PhysMem) (pd : Nat)
    (virt len : UInt32) (userOnly : Bool) (hpd : pd ≠ 0) (hlen : len ≠ 0) :
    (vmmRangeMapped mem pd virt len userOnly = true ↔
        RangeMapped mem pd virt len userOnly) ↔
      RangeCheckExact mem pd virt len userOnly := by
  rcases Nat.lt_or_ge (2 ^ 32 - pageSize) (virt.toNat + len.toNat) with
    hhigh | hlow
  · rcases Nat.lt_or_ge (2 ^ 32) (virt.toNat + len.toNat) with hwrap | hend
    · have hnot : ¬ RangeMapped mem pd virt len userOnly := by
        intro hmapped
        exact absurd hmapped.1 (Nat.not_le.mpr hwrap)
      simp only [hnot, iff_false, Bool.not_eq_true,
        vmmRangeMapped_of_wrap hpd hlen hwrap, RangeCheckExact, hwrap, hhigh,
        Nat.not_le.mpr hhigh,
        Nat.not_le.mpr hwrap, false_or, true_and, and_false, false_and]
    · have haccepted : vmmRangeMapped mem pd virt len userOnly = true :=
        vmmRangeMapped_of_last_page hpd hlen hhigh hend
      simp only [haccepted, true_iff, RangeMapped, RangeCheckExact, hend,
        hhigh, Nat.not_le.mpr hhigh, Nat.not_lt.mpr hend, false_or, true_and,
        false_and, or_false]
  · constructor
    · intro _
      exact Or.inl hlow
    · intro _
      exact vmmRangeMapped_iff_of_low hpd hlen hlow

namespace VmmRangeWitness

/-- A directory at `0x1000` whose entries are all zero. -/
def emptyMem : PhysMem := fun _ => 0#32

theorem exact_below_last_page :
    (vmmRangeMapped emptyMem 0x1000 0x2000 1 false = true ↔
      RangeMapped emptyMem 0x1000 0x2000 1 false) :=
  (vmmRangeMapped_exact_iff emptyMem 0x1000 0x2000 1 false (by decide)
    (by decide)).mpr (Or.inl (by decide))

/-- The last page of an empty directory is reported as mapped. -/
theorem last_page_reported_mapped :
    vmmRangeMapped emptyMem 0x1000 0xFFFFF000 1 true = true ∧
      ¬ RangeMapped emptyMem 0x1000 0xFFFFF000 1 true := by
  constructor
  · exact vmmRangeMapped_of_last_page (by decide) (by decide) (by decide)
      (by decide)
  · rintro ⟨_, hall⟩
    have hpage := hall 0xFFFFF000 (by decide) (by decide)
    exact hpage.1 (by decide)

end VmmRangeWitness

end Orion
