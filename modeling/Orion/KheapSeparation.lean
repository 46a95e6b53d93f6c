/-
Separation of live allocations.  A pointer that `kmalloc` returns overlaps no
other live range and no tag word, and neither `kmalloc` nor `kfree` changes a
payload byte of another live allocation.
-/
import Orion.KheapInvariant

namespace Orion

open MachineInt ByteMem BoundaryTag

/-- The bytes between the tags of the block behind a live pointer. -/
def InPayload (mem : Mem) (entry : Live) (x : Nat) : Prop :=
  entry.raw mem ≤ x ∧
    x + 8 < entry.raw mem + getSize mem (entry.raw mem - 4)

/-- A header or footer of the prologue, of a block, or of the epilogue. -/
inductive TagWord (heap : Kheap) (blocks : List Block) : Nat → Prop
  | prologueHeader : TagWord heap blocks (heapStart + 4)
  | prologueFooter : TagWord heap blocks (heapStart + 8)
  | header (a : Nat) (block : Block) (hat : At firstBlock blocks a block) :
      TagWord heap blocks a
  | footer (a : Nat) (block : Block) (hat : At firstBlock blocks a block) :
      TagWord heap blocks (a + block.size - 4)
  | epilogue : TagWord heap blocks heap.heapBrk

section Entries

variable {sys : HeapSystem} {blocks : List Block} {entry other : Live}

/-- Live ranges do not overlap. -/
theorem HeapInv.disjoint (hinv : HeapInv sys blocks) (hentry : entry ∈ sys.live)
    (hother : other ∈ sys.live) (hne : entry ≠ other) :
    entry.ptr + entry.size ≤ other.ptr ∨
      other.ptr + other.size ≤ entry.ptr := by
  obtain ⟨header, block, hserves⟩ := hinv.serves entry hentry
  obtain ⟨header', block', hserves'⟩ := hinv.serves other hother
  have hlow := Nat.le_trans hserves.low entry.low_le
  have hlow' := Nat.le_trans hserves'.low other.low_le
  have hhigh := hserves.high
  have hhigh' := hserves'.high
  rcases hserves.here.disjoint hserves'.here with ⟨rfl, _⟩ | hbefore | hbehind
  · exact absurd (hinv.entry_unique hentry hother hserves hserves') hne
  · omega
  · omega

/-- A live range lies in mapped heap memory, between the tag words. -/
theorem HeapInv.clear_of_tags (hinv : HeapInv sys blocks)
    (hentry : entry ∈ sys.live) {word : Nat} (htag : TagWord sys.heap blocks word) :
    word + 4 ≤ entry.ptr ∨ entry.ptr + entry.size ≤ word := by
  obtain ⟨header, block, hserves⟩ := hinv.serves entry hentry
  have hlow := Nat.le_trans hserves.low entry.low_le
  have hhigh := hserves.high
  have hbounds := hserves.here.bounds
  have hfirst : firstBlock = heapStart + 12 := rfl
  cases htag with
  | prologueHeader => omega
  | prologueFooter => omega
  | header _ neighbour hat =>
      have hlarge := neighbour.large
      rcases hserves.here.disjoint hat with ⟨rfl, _⟩ | hbefore | hbehind
      · omega
      · omega
      · omega
  | footer a neighbour hat =>
      have hlarge := neighbour.large
      rcases hserves.here.disjoint hat with ⟨rfl, rfl⟩ | hbefore | hbehind
      · omega
      · omega
      · omega
  | epilogue =>
      have hbrk := hinv.shape.brk
      omega

theorem HeapInv.in_mapped (hinv : HeapInv sys blocks)
    (hentry : entry ∈ sys.live) :
    heapStart ≤ entry.ptr ∧
      entry.ptr + entry.size ≤ sys.heap.heapVirtMapped := by
  obtain ⟨header, block, hserves⟩ := hinv.serves entry hentry
  have hlow := Nat.le_trans hserves.low entry.low_le
  have hhigh := hserves.high
  have hbounds := hserves.here.bounds
  have hfirst : firstBlock = heapStart + 12 := rfl
  have hbrk := hinv.shape.brk
  have hmapped := hinv.shape.mapped
  omega

/-- The payload of a live pointer lies in the block that serves it. -/
theorem Serves.payload {mem : Mem} {header x : Nat} {block : Block}
    (hlaid : Laid mem blocks) (hserves : Serves mem blocks entry header block)
    (hpayload : InPayload mem entry x) :
    header ≤ x ∧ x < header + block.size := by
  have hsize := getSize_of_tag (hserves.here.tags hlaid.tiles).1
  obtain ⟨hlow, hhigh⟩ := hpayload
  rw [hserves.raw, Nat.add_sub_cancel, hsize] at hhigh
  rw [hserves.raw] at hlow
  omega

/-- `kmalloc` changes no byte of a block in use. -/
theorem kmalloc_frame {size p : Nat} {heap' : Kheap} (hinv : HeapInv sys blocks)
    (hpos : 1 ≤ size) (hsmall : size ≤ 2 ^ 31)
    (hrun : kmalloc sys.heap size = .ok (p, heap'))
    (hentry : entry ∈ sys.live) {x : Nat}
    (hpayload : InPayload sys.heap.mem entry x) :
    heap'.mem x = sys.heap.mem x := by
  obtain ⟨header, block, hserves⟩ := hinv.serves entry hentry
  obtain ⟨hlow, hhigh⟩ := hserves.payload hinv.shape.laid hpayload
  have houtcome := kmalloc_outcome hinv.shape hpos
    (hinv.shape.requestFits (by omega))
  rw [hrun] at houtcome
  cases houtcome with
  | outOfMemory _ _ _ => rfl
  | served _ _ _ _ _ _ hallocated _ =>
      exact hallocated.keeps.byte trivial hserves.here hserves.used x hlow hhigh

theorem kmalloc_aligned {size p : Nat} {heap' : Kheap}
    (hinv : HeapInv sys blocks) (hpos : 1 ≤ size) (hsmall : size ≤ 2 ^ 31)
    (hrun : kmalloc sys.heap size = .ok (p, heap')) : p % 8 = 0 := by
  have houtcome := kmalloc_outcome hinv.shape hpos
    (hinv.shape.requestFits (by omega))
  rw [hrun] at houtcome
  cases houtcome with
  | outOfMemory _ _ _ => rfl
  | served _ _ pre _ _ _ hallocated _ =>
      have haligned := span_aligned pre
      rw [hallocated.payload, firstBlock, heapStart]
      omega

/-- `kfree` changes no byte of another block in use. -/
theorem kfree_frame (hinv : HeapInv sys blocks) (hentry : entry ∈ sys.live)
    (hother : other ∈ sys.live) (hne : other ≠ entry) {x : Nat}
    (hpayload : InPayload sys.heap.mem other x) :
    (kfree sys.heap (entry.raw sys.heap.mem)).mem x = sys.heap.mem x := by
  obtain ⟨header, block, hserves⟩ := hinv.serves entry hentry
  obtain ⟨header', block', hserves'⟩ := hinv.serves other hother
  obtain ⟨hlow, hhigh⟩ := hserves'.payload hinv.shape.laid hpayload
  have hheaders : header' ≠ header := by
    rintro rfl
    exact hne (hinv.entry_unique hother hentry hserves' hserves)
  obtain ⟨pre, post, rfl, rfl⟩ := hserves.here.split
  obtain ⟨_, _, _, _, hkeeps⟩ := kfree_shape hinv.shape hserves.used
  rw [hserves.raw]
  exact hkeeps.byte hheaders hserves'.here hserves'.used x hlow hhigh

end Entries

/-- What `kmalloc` returns is aligned, mapped, and apart from every live range
and every tag word; the payloads of the live allocations do not change. -/
theorem kheap_run_separates (boot heap : Kheap)
    (hinit : kheapInit boot = .ok heap) (calls : List HeapCall)
    (sys : HeapSystem)
    (hrun : Machine.exec HeapSystem.step ⟨heap, []⟩ calls = some sys) :
    (∀ size p heap', 1 ≤ size → size ≤ 2 ^ 31 →
      kmalloc sys.heap size = .ok (p, heap') →
      (∀ entry ∈ sys.live, ∀ x, InPayload sys.heap.mem entry x →
        heap'.mem x = sys.heap.mem x) ∧
      (p ≠ 0 → p % 8 = 0 ∧ heapStart ≤ p ∧ p + size ≤ heap'.heapVirtMapped ∧
        (∀ entry ∈ sys.live,
          p + size ≤ entry.ptr ∨ entry.ptr + entry.size ≤ p) ∧
        ∃ blocks, HeapShape heap' blocks ∧
          ∀ word, TagWord heap' blocks word →
            word + 4 ≤ p ∨ p + size ≤ word)) ∧
    ∀ entry ∈ sys.live, entry.kind = .plain →
      ∀ other ∈ sys.live, other ≠ entry →
        ∀ x, InPayload sys.heap.mem other x →
          (kfree sys.heap entry.ptr).mem x = sys.heap.mem x := by
  obtain ⟨blocks, hinv⟩ := kheap_run_inv hinit hrun
  constructor
  · intro size p heap' hpos hsmall hmalloc
    refine ⟨fun entry hentry x hpayload =>
      kmalloc_frame hinv hpos hsmall hmalloc hentry hpayload, ?_⟩
    intro hserved
    -- the new pointer is a live one of the next state
    obtain ⟨blocks', hinv', _⟩ := kmalloc_inv hinv hpos
      (hinv.shape.requestFits (by omega)) hmalloc
    have hrecord : sys.record size .plain (p, heap') =
        ⟨heap', ⟨p, size, .plain⟩ :: sys.live⟩ := by
      simp [HeapSystem.record, hserved]
    rw [hrecord] at hinv'
    have hfresh := (List.nodup_cons.mp hinv'.live_nodup).1
    have hnew := List.mem_cons_self (a := (⟨p, size, .plain⟩ : Live))
      (l := sys.live)
    obtain ⟨hlow, hhigh⟩ := hinv'.in_mapped hnew
    refine ⟨kmalloc_aligned hinv hpos hsmall hmalloc, hlow, hhigh, ?_,
      blocks', hinv'.shape, fun word htag => hinv'.clear_of_tags hnew htag⟩
    intro entry hentry
    apply hinv'.disjoint hnew (List.mem_cons_of_mem _ hentry)
    rintro rfl
    exact hfresh hentry
  · intro entry hentry hkind other hother hne x hpayload
    have hraw : entry.raw sys.heap.mem = entry.ptr := by
      rw [Live.raw, hkind]
    rw [← hraw]
    exact kfree_frame hinv hentry hother hne hpayload

namespace KheapSeparationWitness

/-- One allocation, so that the heap has a live range beside the next one. -/
def calls : List HeapCall := [.kmalloc 10]

def run : Option HeapSystem :=
  (kheapInit KheapInvariantWitness.boot).toOption.bind fun heap =>
    Machine.exec HeapSystem.step ⟨heap, []⟩ calls

theorem run_then_kmalloc :
    (run.map fun sys =>
      (sys.live, (kmalloc sys.heap 100).toOption.map Prod.fst)) =
      some ([⟨0x01000010, 10, .plain⟩], some 0x01000028) := by
  decide +kernel

theorem second_allocation_apart :
    ∃ sys heap', run = some sys ∧
      kmalloc sys.heap 100 = .ok (0x01000028, heap') ∧
      ∀ entry ∈ sys.live, 0x01000028 + 100 ≤ entry.ptr ∨
        entry.ptr + entry.size ≤ 0x01000028 := by
  obtain ⟨sys, hrun, hfacts⟩ := Option.map_eq_some_iff.mp run_then_kmalloc
  obtain ⟨heap, hinit, hexec⟩ := Option.bind_eq_some_iff.mp hrun
  obtain ⟨⟨p, heap'⟩, hmalloc, rfl⟩ :=
    Option.map_eq_some_iff.mp (Prod.mk.inj hfacts).2
  have hmalloc' := toOption_eq_some hmalloc
  have hseparate := (kheap_run_separates KheapInvariantWitness.boot heap
    (toOption_eq_some hinit) calls sys hexec).1 100 _ heap' (by decide)
    (by decide) hmalloc'
  exact ⟨sys, heap', hrun, hmalloc', (hseparate.2 (by decide)).2.2.2.1⟩

end KheapSeparationWitness

end Orion
