/-
The heap over whole runs.  Clients allocate, free what they hold and write
inside what they asked for; the heap stays a coalesced list of blocks whose
used blocks are exactly those that serve a live pointer.
-/
import Orion.KheapOps
import Orion.Machine

namespace Orion

open MachineInt ByteMem BoundaryTag

/-- Which of the two allocation functions returned a pointer. -/
inductive PointerKind where
  | plain
  | aligned
  deriving DecidableEq, Repr

/-- A pointer that a client holds and the size it asked for. -/
structure Live where
  ptr : Nat
  size : Nat
  kind : PointerKind
  deriving DecidableEq, Repr

/-- The payload pointer of the block behind a live pointer; for an aligned one
it stands in the word before. -/
def Live.raw (mem : Mem) (entry : Live) : Nat :=
  match entry.kind with
  | .plain => entry.ptr
  | .aligned => getWord mem (entry.ptr - 4)

/-- The first byte of the block that the allocation relies on. -/
def Live.low (entry : Live) : Nat :=
  match entry.kind with
  | .plain => entry.ptr
  | .aligned => entry.ptr - 4

/-- The heap and the pointers its clients hold. -/
structure HeapSystem where
  heap : Kheap
  live : List Live

inductive HeapCall where
  | kmalloc (size : Nat)
  | kmallocAligned (size : Nat)
  | kfree (ptr : Nat)
  | kfreeAligned (ptr : Nat)
  /-- a client writes a byte -/
  | store (addr : Nat) (value : UInt8)
  /-- the rest of the kernel maps pages and takes or returns frames -/
  | repage (paging : Paging)

/-- The clients hold a pointer unless the call returned null. -/
def HeapSystem.record (sys : HeapSystem) (size : Nat) (kind : PointerKind)
    (result : Nat × Kheap) : HeapSystem where
  heap := result.2
  live := if result.1 = 0 then sys.live
    else ⟨result.1, size, kind⟩ :: sys.live

def HeapSystem.holder (sys : HeapSystem) (ptr : Nat) (kind : PointerKind) :
    Option Live :=
  sys.live.find? fun entry => entry.ptr = ptr ∧ entry.kind = kind

def HeapSystem.owns (sys : HeapSystem) (addr : Nat) : Bool :=
  sys.live.any fun entry => entry.ptr ≤ addr ∧ addr < entry.ptr + entry.size

/-- One call or client write.  Requests are between one byte and `2 ^ 31`
bytes, only live pointers are freed, by the function that goes with them, and
a client writes only where it owns the byte.  A panic ends the run. -/
def HeapSystem.step (sys : HeapSystem) : HeapCall → Option HeapSystem
  | .kmalloc size =>
      if 1 ≤ size ∧ size ≤ 2 ^ 31 then
        (kmalloc sys.heap size).toOption.map (sys.record size .plain)
      else none
  | .kmallocAligned size =>
      if 1 ≤ size ∧ size ≤ 2 ^ 31 then
        (kmallocAligned sys.heap size).toOption.map (sys.record size .aligned)
      else none
  | .kfree ptr =>
      (sys.holder ptr .plain).map fun entry =>
        ⟨kfree sys.heap ptr, sys.live.erase entry⟩
  | .kfreeAligned ptr =>
      (sys.holder ptr .aligned).map fun entry =>
        ⟨kfreeAligned sys.heap ptr, sys.live.erase entry⟩
  | .store addr value =>
      if sys.owns addr then
        some { sys with heap :=
          { sys.heap with mem := putByte sys.heap.mem addr value } }
      else none
  | .repage paging => some { sys with heap := { sys.heap with paging := paging } }

/-- The block that serves a live pointer. -/
structure Serves (mem : Mem) (blocks : List Block) (entry : Live)
    (header : Nat) (block : Block) : Prop where
  here : At firstBlock blocks header block
  used : block.used = true
  raw : entry.raw mem = header + 4
  low : header + 4 ≤ entry.low
  high : entry.ptr + entry.size + 4 ≤ header + block.size

/-- The heap is well formed and its used blocks serve the live pointers, one
block each. -/
structure HeapInv (sys : HeapSystem) (blocks : List Block) : Prop where
  shape : HeapShape sys.heap blocks
  nonempty : blocks ≠ []
  headers : (sys.live.map fun entry => entry.raw sys.heap.mem - 4).Perm
    (usedHeaders firstBlock blocks)
  serves : ∀ entry ∈ sys.live,
    ∃ header block, Serves sys.heap.mem blocks entry header block

theorem Live.low_le (entry : Live) : entry.low ≤ entry.ptr := by
  rcases entry with ⟨ptr, size, _ | _⟩
  · exact Nat.le_refl ptr
  · exact Nat.sub_le ptr 4

/-- A block that stays keeps serving its pointer. -/
theorem Serves.keep {kept : Nat → Prop} {mem mem' : Mem}
    {blocks blocks' : List Block} {entry : Live} {header : Nat} {block : Block}
    (hserves : Serves mem blocks entry header block)
    (hkeeps : Keeps kept firstBlock mem mem' blocks blocks')
    (hkept : kept header) : Serves mem' blocks' entry header block := by
  have hlow := hserves.low
  have hhigh := hserves.high
  have hbytes := hkeeps.byte hkept hserves.here hserves.used
  have hraw : entry.raw mem' = entry.raw mem := by
    rcases entry with ⟨ptr, size, _ | _⟩
    · rfl
    · simp only [Live.low] at hlow hhigh
      apply getWord_congr
      intro x hx hx'
      simp only at hx hx'
      exact hbytes x (by omega) (by omega)
  exact ⟨hkeeps.block hkept hserves.here hserves.used, hserves.used,
    hraw.trans hserves.raw, hlow, hhigh⟩

theorem Serves.header_mem {mem : Mem} {blocks : List Block} {entry : Live}
    {header : Nat} {block : Block}
    (hserves : Serves mem blocks entry header block) :
    header ∈ usedHeaders firstBlock blocks :=
  mem_usedHeaders.mpr ⟨block, hserves.here, hserves.used⟩

section Entries

variable {sys : HeapSystem} {blocks : List Block} {entry other : Live}
  {header : Nat} {block : Block}

/-- Different live pointers are served by different blocks. -/
theorem HeapInv.entry_unique (hinv : HeapInv sys blocks)
    (hentry : entry ∈ sys.live) (hother : other ∈ sys.live)
    {block' : Block} (hserves : Serves sys.heap.mem blocks entry header block)
    (hserves' : Serves sys.heap.mem blocks other header block') :
    entry = other := by
  have hnodup := (hinv.headers.nodup_iff).mpr (usedHeaders_nodup _ _)
  apply List.inj_on_of_nodup_map hnodup hentry hother
  rw [hserves.raw, hserves'.raw]

theorem HeapInv.live_nodup (hinv : HeapInv sys blocks) : sys.live.Nodup :=
  List.Nodup.of_map _ ((hinv.headers.nodup_iff).mpr (usedHeaders_nodup _ _))

/-- Entries that are served as before have the same headers as before. -/
theorem HeapInv.keep {mem' : Mem} {blocks' : List Block} (live : List Live)
    (hinv : HeapInv sys blocks) (hsub : ∀ entry ∈ live, entry ∈ sys.live)
    (hkeep : ∀ entry ∈ live, ∀ header block,
      Serves sys.heap.mem blocks entry header block →
        Serves mem' blocks' entry header block) :
    (∀ entry ∈ live, ∃ header block,
        Serves mem' blocks' entry header block) ∧
      (live.map fun entry => entry.raw mem' - 4) =
        live.map fun entry => entry.raw sys.heap.mem - 4 := by
  constructor
  · intro entry hentry
    obtain ⟨header, block, hserves⟩ := hinv.serves entry (hsub entry hentry)
    exact ⟨header, block, hkeep entry hentry header block hserves⟩
  · apply List.map_congr_left
    intro entry hentry
    obtain ⟨header, block, hserves⟩ := hinv.serves entry (hsub entry hentry)
    rw [(hkeep entry hentry header block hserves).raw, hserves.raw]

/-- The pointers that stay live are served by the same blocks. -/
def Retains (sys next : HeapSystem) (blocks blocks' : List Block) : Prop :=
  ∀ entry ∈ sys.live, entry ∈ next.live → ∀ header block,
    Serves sys.heap.mem blocks entry header block →
      Serves next.heap.mem blocks' entry header block

/-- One more block in use, and a pointer it serves. -/
theorem HeapInv.allocate {heap' : Kheap} {blocks' : List Block}
    (hinv : HeapInv sys blocks) (hshape : HeapShape heap' blocks')
    (hheaders : (usedHeaders firstBlock blocks').Perm
      (header :: usedHeaders firstBlock blocks))
    (hkeeps : Keeps (fun other => other ≠ header) firstBlock sys.heap.mem
      heap'.mem blocks blocks')
    (hserves : Serves heap'.mem blocks' entry header block) :
    HeapInv ⟨heap', entry :: sys.live⟩ blocks' ∧
      Retains sys ⟨heap', entry :: sys.live⟩ blocks blocks' := by
  have hfresh : header ∉ usedHeaders firstBlock blocks :=
    (List.nodup_cons.mp ((hheaders.nodup_iff).mp (usedHeaders_nodup _ _))).1
  have hkept : ∀ other ∈ sys.live, ∀ header' block',
      Serves sys.heap.mem blocks other header' block' →
        Serves heap'.mem blocks' other header' block' := by
    intro other _ header' block' hserves'
    apply hserves'.keep hkeeps
    rintro rfl
    exact hfresh hserves'.header_mem
  obtain ⟨hall, hmap⟩ := hinv.keep sys.live (fun _ hentry => hentry) hkept
  refine ⟨⟨hshape, ?_, ?_, ?_⟩, fun other hother _ => hkept other hother⟩
  · rintro rfl
    simpa using hserves.here.mem
  · rw [List.map_cons, hmap, hserves.raw, Nat.add_sub_cancel]
    exact (hinv.headers.cons header).trans hheaders.symm
  · intro other hother
    rcases List.mem_cons.mp hother with rfl | hother
    · exact ⟨header, block, hserves⟩
    · exact hall other hother

/-- An operation that changes no block, only pages. -/
theorem HeapInv.remap {mapped : Nat} {paging : Paging}
    (hinv : HeapInv sys blocks)
    (hshape : HeapShape (sys.heap.remap mapped paging) blocks) :
    HeapInv ⟨sys.heap.remap mapped paging, sys.live⟩ blocks ∧
      Retains sys ⟨sys.heap.remap mapped paging, sys.live⟩ blocks blocks :=
  ⟨⟨hshape, hinv.nonempty, hinv.headers, hinv.serves⟩,
    fun _ _ _ _ _ hserves => hserves⟩

theorem kmalloc_inv {size : Nat} {result : Nat × Kheap}
    (hinv : HeapInv sys blocks) (hpos : 1 ≤ size)
    (hfits : RequestFits sys.heap size)
    (hrun : kmalloc sys.heap size = .ok result) :
    ∃ blocks', HeapInv (sys.record size .plain result) blocks' ∧
      Retains sys (sys.record size .plain result) blocks blocks' := by
  have houtcome := kmalloc_outcome hinv.shape hpos hfits
  rw [hrun] at houtcome
  cases houtcome with
  | outOfMemory mapped paging hshape => exact ⟨blocks, hinv.remap hshape⟩
  | served bp heap' pre block post hshape hallocated hsize =>
      refine ⟨pre ++ block :: post, ?_⟩
      have hbp := hallocated.payload
      have hrecord : sys.record size .plain (bp, heap') =
          ⟨heap', ⟨bp, size, .plain⟩ :: sys.live⟩ := by
        simp [HeapSystem.record, hbp]
      rw [hrecord]
      have hheader : bp - 4 = firstBlock + span pre := by
        rw [hbp, Nat.add_sub_cancel]
      have hheaders := hallocated.headers
      rw [hheader] at hheaders
      apply hinv.allocate hshape hheaders
      · exact hallocated.keeps.mono fun _ _ => trivial
      · exact ⟨⟨pre, post, rfl, rfl⟩, hallocated.used, hbp, Nat.le_of_eq hbp.symm,
          by simp only [hbp]; omega⟩

theorem alignedPayload_bounds {raw : Nat} (hraw : raw + 8192 < 2 ^ 32) :
    raw + 4 ≤ alignedPayload raw ∧ alignedPayload raw ≤ raw + 4099 ∧
      alignedPayload raw % pageSize = 0 := by
  simp only [alignedPayload, pageFloor, pageSize]
  rw [u32_of_lt (by omega)]
  omega

theorem kmallocAligned_inv {size : Nat} {result : Nat × Kheap}
    (hinv : HeapInv sys blocks) (hfits : RequestFits sys.heap (size + 4100))
    (hrun : kmallocAligned sys.heap size = .ok result) :
    ∃ blocks', HeapInv (sys.record size .aligned result) blocks' ∧
      Retains sys (sys.record size .aligned result) blocks blocks' := by
  have hlt := hfits.size_lt hinv.shape
  have htotal : u32 (size + pageSize + 4) = size + 4100 :=
    u32_of_lt (by simp only [pageSize]; omega)
  have houtcome := kmalloc_outcome hinv.shape (by omega : 0 < size + 4100)
    hfits
  rw [kmallocAligned, htotal] at hrun
  generalize kmalloc sys.heap (size + 4100) = outcome at *
  cases houtcome with
  | panic => cases hrun
  | outOfMemory mapped paging hshape =>
      cases hrun
      exact ⟨blocks, hinv.remap hshape⟩
  | served bp heap' pre block post hshape hallocated hsize =>
      have hbp := hallocated.payload
      have hbound := hallocated.laid.bound
      simp only [heapMax] at hbound
      obtain ⟨hlow, hhigh, _⟩ :=
        alignedPayload_bounds (by omega : bp + 8192 < 2 ^ 32)
      have hslot : sub32 (alignedPayload bp) 4 = alignedPayload bp - 4 :=
        sub32_of_le (by omega) (by omega)
      simp only [Except.map, storeBackPointer, if_neg (by omega : ¬ bp = 0), hslot]
        at hrun
      cases hrun
      let mem' := putWord heap'.mem (alignedPayload bp - 4) bp
      have hheader : bp - 4 = firstBlock + span pre := by
        rw [hbp, Nat.add_sub_cancel]
      have hat : At firstBlock (pre ++ block :: post) (firstBlock + span pre)
          block := ⟨pre, post, rfl, rfl⟩
      -- the back-pointer is written between the tags of the new block
      obtain ⟨hshape', hkeeps⟩ := hshape.payload_write mem' hat (by
        intro x houtside
        exact putWord_of_outside _ _ (by omega))
      refine ⟨pre ++ block :: post, ?_⟩
      have hrecord : sys.record size .aligned
            (alignedPayload bp, { heap' with mem := mem' }) =
          ⟨{ heap' with mem := mem' },
            ⟨alignedPayload bp, size, .aligned⟩ :: sys.live⟩ := by
        rw [HeapSystem.record, if_neg (by simp only; omega)]
      rw [hrecord]
      have hheaders := hallocated.headers
      rw [hheader] at hheaders
      apply hinv.allocate hshape' hheaders
      · exact (hallocated.keeps.mono fun _ _ => trivial).trans hkeeps
      · refine ⟨hat, hallocated.used, ?_, ?_, ?_⟩
        · rw [← hbp]
          exact getWord_putWord _ (by omega)
        · simp only [Live.low]
          omega
        · simp only
          omega

/-- Freeing the block behind a live pointer. -/
theorem HeapInv.release (hinv : HeapInv sys blocks) (hentry : entry ∈ sys.live) :
    ∃ blocks', HeapInv ⟨kfree sys.heap (entry.raw sys.heap.mem),
        sys.live.erase entry⟩ blocks' ∧
      Retains sys ⟨kfree sys.heap (entry.raw sys.heap.mem),
        sys.live.erase entry⟩ blocks blocks' := by
  obtain ⟨header, block, hserves⟩ := hinv.serves entry hentry
  obtain ⟨pre, post, rfl, rfl⟩ := hserves.here.split
  obtain ⟨blocks', hshape, hnonempty, hheaders, hkeeps⟩ :=
    kfree_shape hinv.shape hserves.used
  rw [← hserves.raw] at hshape hkeeps
  have hsub : ∀ other ∈ sys.live.erase entry, other ∈ sys.live :=
    fun _ hother => List.mem_of_mem_erase hother
  have hkept : ∀ other ∈ sys.live.erase entry, ∀ header' block',
      Serves sys.heap.mem (pre ++ block :: post) other header' block' →
        Serves (kfree sys.heap (entry.raw sys.heap.mem)).mem blocks' other
          header' block' := by
    intro other hother header' block' hserves'
    apply hserves'.keep hkeeps
    rintro rfl
    rw [hinv.entry_unique (hsub other hother) hentry hserves' hserves] at hother
    exact hinv.live_nodup.not_mem_erase hother
  obtain ⟨hall, hmap⟩ := hinv.keep (sys.live.erase entry) hsub hkept
  refine ⟨blocks', ⟨hshape, hnonempty, ?_, hall⟩,
    fun other _ hother => hkept other hother⟩
  rw [hmap]
  -- the freed header leaves both sides of the correspondence
  have hlive := (List.perm_cons_erase hentry).map
    fun entry => entry.raw sys.heap.mem - 4
  rw [List.map_cons, hserves.raw, Nat.add_sub_cancel] at hlive
  exact (hlive.symm.trans (hinv.headers.trans hheaders)).cons_inv

theorem HeapInv.store {addr : Nat} (hinv : HeapInv sys blocks) (value : UInt8)
    (howns : sys.owns addr = true) :
    HeapInv { sys with heap :=
        { sys.heap with mem := putByte sys.heap.mem addr value } } blocks ∧
      Retains sys { sys with heap :=
        { sys.heap with mem := putByte sys.heap.mem addr value } } blocks
        blocks := by
  simp only [HeapSystem.owns, List.any_eq_true, decide_eq_true_eq] at howns
  obtain ⟨entry, hentry, hlow, hhigh⟩ := howns
  obtain ⟨header, block, hserves⟩ := hinv.serves entry hentry
  have hfirst := hserves.low
  have hlast := hserves.high
  have hbelow := entry.low_le
  have hframe : ∀ x, x ≠ addr → putByte sys.heap.mem addr value x =
      sys.heap.mem x := fun _ => putByte_of_ne _ value
  obtain ⟨hshape, hkeeps⟩ := hinv.shape.payload_write
    (putByte sys.heap.mem addr value) hserves.here
    (fun x houtside => hframe x (by omega))
  have hkept : ∀ other ∈ sys.live, ∀ header' block',
      Serves sys.heap.mem blocks other header' block' →
        Serves (putByte sys.heap.mem addr value) blocks other header' block' := by
    intro other hother header' block' hserves'
    by_cases hsame : header' = header
    · subst hsame
      obtain rfl := hinv.entry_unique hother hentry hserves' hserves
      refine ⟨hserves'.here, hserves'.used, ?_, hserves'.low, hserves'.high⟩
      rw [← hserves'.raw]
      -- an aligned pointer's back-pointer lies before what its client writes
      rcases other with ⟨ptr, size, _ | _⟩
      · rfl
      · apply getWord_congr
        intro x _ hx
        simp only [Live.low] at hx hlow hfirst
        exact hframe x (by omega)
    · exact hserves'.keep hkeeps hsame
  obtain ⟨hall, hmap⟩ := hinv.keep sys.live (fun _ hother => hother) hkept
  exact ⟨⟨hshape, hinv.nonempty, by rw [hmap]; exact hinv.headers, hall⟩,
    fun other hother _ => hkept other hother⟩

end Entries

section Steps

variable {sys next : HeapSystem} {blocks : List Block}

theorem HeapSystem.holder_eq_some {ptr : Nat} {kind : PointerKind}
    {entry : Live} (hholder : sys.holder ptr kind = some entry) :
    entry ∈ sys.live ∧ entry.ptr = ptr ∧ entry.kind = kind := by
  refine ⟨List.mem_of_find?_eq_some hholder, ?_⟩
  have hfound := List.find?_some hholder
  simpa using hfound

theorem Serves.ptr_lt {mem : Mem} {entry : Live} {header : Nat} {block : Block}
    (hlaid : Laid mem blocks) (hserves : Serves mem blocks entry header block) :
    8 ≤ entry.ptr ∧ entry.ptr < 2 ^ 32 := by
  have hbounds := hserves.here.bounds
  have hceiling := hlaid.ceiling
  have hlow := hserves.low
  have hhigh := hserves.high
  have hbelow := entry.low_le
  have hfirst := firstBlock_le 0
  simp only [heapMax] at hceiling
  omega

/-- `kfree_aligned` finds the block through the word before its pointer. -/
theorem HeapInv.kfreeAligned_eq {entry : Live} (hinv : HeapInv sys blocks)
    (hentry : entry ∈ sys.live) (hkind : entry.kind = .aligned) :
    kfreeAligned sys.heap entry.ptr =
      kfree sys.heap (entry.raw sys.heap.mem) := by
  obtain ⟨header, block, hserves⟩ := hinv.serves entry hentry
  obtain ⟨hlow, hhigh⟩ := hserves.ptr_lt hinv.shape.laid
  rw [kfreeAligned, if_neg (by omega), sub32_of_le (by omega) hhigh, Live.raw,
    hkind]

/-- One call or client write, whatever the size of a request. -/
def HeapSystem.serve (sys : HeapSystem) : HeapCall → Option HeapSystem
  | .kmalloc size =>
      (kmalloc sys.heap size).toOption.map (sys.record size .plain)
  | .kmallocAligned size =>
      (kmallocAligned sys.heap size).toOption.map (sys.record size .aligned)
  | call => sys.step call

/-- No sum that the call computes from its size wraps. -/
def HeapSystem.fits (sys : HeapSystem) : HeapCall → Bool
  | .kmalloc size => RequestFits sys.heap size
  | .kmallocAligned size => RequestFits sys.heap (size + 4100)
  | _ => true

theorem heap_serve_inv {call : HeapCall} (hinv : HeapInv sys blocks)
    (hfits : sys.fits call = true) (hstep : sys.serve call = some next) :
    ∃ blocks', HeapInv next blocks' ∧ Retains sys next blocks blocks' := by
  cases call with
  | kmalloc size =>
      obtain ⟨result, hresult, rfl⟩ := Option.map_eq_some_iff.mp hstep
      rcases Nat.eq_zero_or_pos size with rfl | hpos
      · cases hresult
        exact ⟨blocks, hinv, fun _ _ _ _ _ hserves => hserves⟩
      · exact kmalloc_inv hinv hpos (of_decide_eq_true hfits)
          (toOption_eq_some hresult)
  | kmallocAligned size =>
      simp only [HeapSystem.serve] at hstep
      obtain ⟨result, hresult, rfl⟩ := Option.map_eq_some_iff.mp hstep
      exact kmallocAligned_inv hinv (of_decide_eq_true hfits)
        (toOption_eq_some hresult)
  | kfree ptr =>
      obtain ⟨entry, hholder, rfl⟩ := Option.map_eq_some_iff.mp hstep
      obtain ⟨hentry, rfl, hkind⟩ := HeapSystem.holder_eq_some hholder
      have hraw : entry.raw sys.heap.mem = entry.ptr := by
        rw [Live.raw, hkind]
      exact hraw ▸ hinv.release hentry
  | kfreeAligned ptr =>
      obtain ⟨entry, hholder, rfl⟩ := Option.map_eq_some_iff.mp hstep
      obtain ⟨hentry, rfl, hkind⟩ := HeapSystem.holder_eq_some hholder
      rw [hinv.kfreeAligned_eq hentry hkind]
      exact hinv.release hentry
  | store addr value =>
      simp only [HeapSystem.serve, HeapSystem.step] at hstep
      split_ifs at hstep with howns
      cases hstep
      exact ⟨blocks, hinv.store value howns⟩
  | repage paging =>
      cases hstep
      exact ⟨blocks, hinv.remap (hinv.shape.remap paging (Nat.le_refl _)
        hinv.shape.ceiling)⟩

/-- Requests up to `2 ^ 31` bytes fit in every state. -/
theorem HeapInv.step_serves {call : HeapCall} (hinv : HeapInv sys blocks)
    (hstep : sys.step call = some next) :
    sys.fits call = true ∧ sys.serve call = some next := by
  cases call with
  | kmalloc size =>
      simp only [HeapSystem.step] at hstep
      split_ifs at hstep with hsize
      have hrequest : RequestFits sys.heap size :=
        hinv.shape.requestFits (by omega)
      exact ⟨decide_eq_true hrequest, hstep⟩
  | kmallocAligned size =>
      simp only [HeapSystem.step] at hstep
      split_ifs at hstep with hsize
      have hrequest : RequestFits sys.heap (size + 4100) :=
        hinv.shape.requestFits (by omega)
      exact ⟨decide_eq_true hrequest, hstep⟩
  | kfree ptr => exact ⟨rfl, hstep⟩
  | kfreeAligned ptr => exact ⟨rfl, hstep⟩
  | store addr value => exact ⟨rfl, hstep⟩
  | repage paging => exact ⟨rfl, hstep⟩

theorem heap_step_inv {call : HeapCall} (hinv : ∃ blocks, HeapInv sys blocks)
    (hstep : sys.step call = some next) : ∃ blocks, HeapInv next blocks := by
  obtain ⟨blocks, hinv⟩ := hinv
  obtain ⟨hfits, hserve⟩ := hinv.step_serves hstep
  obtain ⟨blocks', hinv', _⟩ := heap_serve_inv hinv hfits hserve
  exact ⟨blocks', hinv'⟩

end Steps

/-- A heap that has just booted serves nobody. -/
theorem kheapInit_inv {boot heap : Kheap} (hinit : kheapInit boot = .ok heap) :
    ∃ blocks, HeapInv ⟨heap, []⟩ blocks := by
  obtain ⟨blocks, hshape, hnonempty, hheaders⟩ := kheapInit_shape hinit
  exact ⟨blocks, hshape, hnonempty, by simp [hheaders], by simp⟩

theorem kheap_run_inv {boot heap : Kheap} {calls : List HeapCall}
    {sys : HeapSystem} (hinit : kheapInit boot = .ok heap)
    (hrun : Machine.exec HeapSystem.step ⟨heap, []⟩ calls = some sys) :
    ∃ blocks, HeapInv sys blocks :=
  Machine.exec_invariant (fun _ _ _ hinv hstep => heap_step_inv hinv hstep)
    (kheapInit_inv hinit) hrun

/-- The walk along `NEXT_BLKP` from `heap_listp` passes over blocks of positive
size only and ends on the epilogue word at `heap_brk`. -/
def WalkEnds (heap : Kheap) : Prop :=
  getWord heap.mem heap.heapBrk = pack 0 1 ∧
    ∃ n, (nextBlkp heap.mem)^[n] heap.heapListp = heap.heapBrk + wsize ∧
      ∀ k < n, 0 < getSize heap.mem (hdrp ((nextBlkp heap.mem)^[k] heap.heapListp))

theorem walk_tiles {mem : Mem} {a : Nat} {blocks : List Block}
    (htiles : Tiles mem a blocks) (hbound : a + span blocks + 4 < 2 ^ 32) :
    (nextBlkp mem)^[blocks.length] (a + 4) = a + span blocks + 4 ∧
      ∀ k < blocks.length, 0 < getSize mem (hdrp ((nextBlkp mem)^[k] (a + 4))) := by
  induction blocks generalizing a with
  | nil => simp
  | cons block rest ih =>
      obtain ⟨hheader, _, hrest⟩ := htiles
      have hlarge := block.large
      have hsize := getSize_of_tag hheader
      rw [span_cons] at hbound ⊢
      obtain ⟨hend, hpositive⟩ := ih hrest (by omega)
      have hnext := nextBlkp_payload hsize (by omega)
      constructor
      · rw [List.length_cons, Function.iterate_succ_apply, hnext, hend]
        omega
      · intro k hk
        cases k with
        | zero =>
            rw [Function.iterate_zero_apply, hdrp_payload (by omega), hsize]
            omega
        | succ k =>
            rw [Function.iterate_succ_apply, hnext]
            exact hpositive k (by simpa using hk)

theorem HeapShape.walkEnds {heap : Kheap} {blocks : List Block}
    (hshape : HeapShape heap blocks) : WalkEnds heap := by
  have hceiling := hshape.laid.ceiling
  simp only [heapMax] at hceiling
  obtain ⟨hend, hpositive⟩ := walk_tiles hshape.laid.tiles (by omega)
  refine ⟨hshape.brk ▸ hshape.laid.epilogue, blocks.length + 1, ?_, ?_⟩
  · rw [Function.iterate_succ_apply, hshape.nextBlkp_listp, hend, hshape.brk]
    rfl
  · intro k hk
    cases k with
    | zero =>
        rw [Function.iterate_zero_apply, hshape.listp,
          show heapStart + 8 = heapStart + 4 + 4 from rfl,
          hdrp_payload (by decide), getSize, hshape.laid.prologueHeader]
        decide
    | succ k =>
        rw [Function.iterate_succ_apply, hshape.nextBlkp_listp]
        exact hpositive k (by omega)

theorem HeapInv.single_free {sys : HeapSystem} {blocks : List Block}
    (hinv : HeapInv sys blocks) (hempty : sys.live = []) :
    ∃ block, blocks = [block] ∧ block.used = false := by
  have hfree : ∀ block ∈ blocks, block.used = false := by
    intro block hblock
    obtain ⟨pre, post, rfl⟩ := List.append_of_mem hblock
    by_contra hused
    have hheader : firstBlock + span pre ∈
        usedHeaders firstBlock (pre ++ block :: post) :=
      mem_usedHeaders.mpr ⟨block, ⟨pre, post, rfl, rfl⟩, by simpa using hused⟩
    have hlive := hinv.headers.mem_iff.mpr hheader
    simp [hempty] at hlive
  have hlength := hinv.shape.coalesced.length_le_one hfree
  rcases blocks with _ | ⟨block, _ | ⟨second, rest⟩⟩
  · exact absurd rfl hinv.nonempty
  · exact ⟨block, rfl, hfree block (by simp)⟩
  · simp at hlength

theorem HeapInv.returns {sys : HeapSystem} {blocks : List Block} {size : Nat}
    (hinv : HeapInv sys blocks) (hpos : 1 ≤ size) (hsmall : size ≤ 2 ^ 31) :
    kmalloc sys.heap size ≠ .error .endless ∧
      kmallocAligned sys.heap size ≠ .error .endless := by
  constructor
  · have houtcome := kmalloc_outcome hinv.shape hpos
      (hinv.shape.requestFits (by omega))
    intro hendless
    rw [hendless] at houtcome
    cases houtcome
  · have htotal : u32 (size + pageSize + 4) = size + 4100 :=
      u32_of_lt (by simp only [pageSize]; omega)
    have houtcome := kmalloc_outcome hinv.shape (by omega : 0 < size + 4100)
      (hinv.shape.requestFits (by omega))
    rw [kmallocAligned, htotal]
    generalize kmalloc sys.heap (size + 4100) = outcome at *
    cases houtcome <;> simp [Except.map]

/-- In every state that clients can reach, the words from `HEAP_START + 12` to
`heap_brk` parse as blocks with equal tags and no two free neighbours, the walk
over them ends on the epilogue at `heap_brk`, everything is mapped below the
ceiling, and an unused heap is one free block.  The walk of a further
allocation ends as well. -/
theorem kheap_run_wellFormed (boot heap : Kheap)
    (hinit : kheapInit boot = .ok heap) (calls : List HeapCall)
    (sys : HeapSystem)
    (hrun : Machine.exec HeapSystem.step ⟨heap, []⟩ calls = some sys) :
    ∃ blocks,
      Tiles sys.heap.mem (heapStart + 12) blocks ∧
      sys.heap.heapBrk = heapStart + 12 + span blocks ∧
      Coalesced blocks ∧ WalkEnds sys.heap ∧
      sys.heap.heapBrk + 4 ≤ sys.heap.heapVirtMapped ∧
      sys.heap.heapVirtMapped ≤ heapMax ∧
      (sys.live = [] → ∃ block, blocks = [block] ∧ block.used = false) ∧
      ∀ size, 1 ≤ size → size ≤ 2 ^ 31 →
        kmalloc sys.heap size ≠ .error .endless ∧
          kmallocAligned sys.heap size ≠ .error .endless := by
  obtain ⟨blocks, hinv⟩ := kheap_run_inv hinit hrun
  have hshape := hinv.shape
  exact ⟨blocks, hshape.laid.tiles, hshape.brk, hshape.coalesced,
    hshape.walkEnds, hshape.mapped, hshape.ceiling, hinv.single_free,
    fun _ hpos hsmall => hinv.returns hpos hsmall⟩

namespace KheapInvariantWitness

/-- A frame allocator with 24 free frames, and a page directory whose heap slot
already has a table. -/
def paging : Paging where
  pmm := pmmInit Pmm.boot ⟨0x40, 0, [⟨0x100000, 0x18000, 1⟩]⟩ 0x200000 0x201000
  mem := Function.update (fun _ => 0#32) (slotAddr 0x1000 4) 0x2003#32
  pageDirectory := 0x1000
  kernelPdPhys := 0x1000

def boot : Kheap := ⟨fun _ => 0, 0, 0, 0, paging⟩

/-- Two allocations, one of them written to, freed in the order they were
made. -/
def calls : List HeapCall :=
  [.kmalloc 10, .kmallocAligned 20, .store 0x01000010 7, .kfree 0x01000010,
    .kfreeAligned 0x01001000]

def run : Option HeapSystem :=
  (kheapInit boot).toOption.bind fun heap =>
    Machine.exec HeapSystem.step ⟨heap, []⟩ calls

theorem run_frees_all : run.map HeapSystem.live = some [] := by
  decide +kernel

theorem run_ends_in_one_block :
    ∃ sys block, run = some sys ∧
      Tiles sys.heap.mem (heapStart + 12) [block] ∧ block.used = false := by
  obtain ⟨sys, hrun, hlive⟩ := Option.map_eq_some_iff.mp run_frees_all
  obtain ⟨heap, hinit, hexec⟩ := Option.bind_eq_some_iff.mp hrun
  obtain ⟨blocks, htiles, _, _, _, _, _, hsingle, _⟩ :=
    kheap_run_wellFormed boot heap (toOption_eq_some hinit) calls sys hexec
  obtain ⟨block, rfl, hfree⟩ := hsingle hlive
  exact ⟨sys, block, hrun, htiles, hfree⟩

end KheapInvariantWitness

end Orion
