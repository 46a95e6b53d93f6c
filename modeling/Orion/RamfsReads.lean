/-
Runs of the file calls over the in-memory file system.  A write that starts
beyond the end of the file makes the bytes in between readable without
storing them; the guard says when that is harmless.
-/
import Orion.RamfsContents
import Orion.Segments

namespace Orion

open MachineInt

inductive VfsCall where
  | open (path : List UInt8) (flags : UInt32)
  | mkdir (path : List UInt8)
  | read (self f len : Nat)
  | write (self f : Nat) (src : Nat → UInt8) (len : Nat)
  | close (f : Nat)

/-- The kernel, and for each file the bytes stored since it was created or
last truncated. -/
structure VfsSystem where
  kernel : Kernel
  contents : Contents

/-- The vnode that `vfs_open` opens, found or created. -/
def openTarget (store : Store) (path : List UInt8) (flags : UInt32) :
    Option Ref × Store :=
  match vfsResolve store path with
  | some v => (some v, store)
  | none =>
      if flags &&& oCreat = 0 then (none, store)
      else
        match parentDir store path with
        | none => (none, store)
        | some (dir, filename) => ramfsCreate store dir filename .file

/-- The contents after `vfs_open`. -/
def opened (store : Store) (contents : Contents) (path : List UInt8)
    (flags : UInt32) : Contents :=
  match (openTarget store path flags).1 with
  | none => contents
  | some v => truncated contents v flags

/-- Where a `vfs_write` through the file starts. -/
def writeOffset (store : Store) (f : Nat) : Nat :=
  ((seekAppend store f).files f).offset

/-- The buffer that `ramfs_write` copies into, for a write to a regular file. -/
def writeBuffer (store : Store) (f len : Nat) : Option (Ref × Store) :=
  let v := (store.files f).vnode
  if (store.vnodes v).ops = .ramfs ∧ (store.vnodes v).type = .file then
    match ramfsGrow (seekAppend store f) v (u32 (writeOffset store f + len)) with
    | some (some buf, store) => some (buf, store)
    | _ => none
  else none

/-- The contents after `vfs_write`. -/
def written (store : Store) (contents : Contents) (f : Nat) (src : Nat → UInt8)
    (len : Nat) : Contents :=
  match writeBuffer store f len with
  | none => contents
  | some _ =>
      let v := (store.files f).vnode
      Function.update contents v
        (stored (contents v) src len (writeOffset store f))

/-- One call.  Files are passed as `vfs_open` has returned them, as long as
they are open; without bytes to move a call does nothing. -/
def VfsSystem.step (sys : VfsSystem) : VfsCall → Option VfsSystem
  | .open path flags =>
      let store := sys.kernel.store
      some ⟨sys.kernel.setStore (vfsOpen store path flags).2,
        opened store sys.contents path flags⟩
  | .mkdir path =>
      some ⟨sys.kernel.setStore (vfsMkdir sys.kernel.store path).2,
        sys.contents⟩
  | .read self f len =>
      if sys.kernel.store.isLive .file f = false then none
      else if len = 0 then some sys
      else (vfsRead sys.kernel self f len).map fun result =>
        ⟨result.2, sys.contents⟩
  | .write self f src len =>
      if sys.kernel.store.isLive .file f = false then none
      else if len = 0 then some sys
      else (vfsWrite sys.kernel self f src len).map fun result =>
        ⟨result.2, written sys.kernel.store sys.contents f src len⟩
  | .close f =>
      if sys.kernel.store.isLive .file f = false then none
      else
        let closed := vfsClose sys.kernel.store f
        some ⟨wakeAll (sys.kernel.setStore closed.2) closed.1, sys.contents⟩

/-- The end of the write can be told in 32 bits. -/
def copyFits (sys : VfsSystem) : VfsCall → Bool
  | .write _ f _ len => writeOffset sys.kernel.store f + len < 2 ^ 32
  | _ => true

/-- The bytes between the end of the file and the start of the write are 0 in
the buffer. -/
def holesZero (sys : VfsSystem) : VfsCall → Bool
  | .write _ f _ len =>
      let store := sys.kernel.store
      match if len = 0 then none else writeBuffer store f len with
      | none => true
      | some (buf, grown) => (List.range (writeOffset store f)).all fun i =>
          i < (store.vnodes (store.files f).vnode).size || grown.bytes buf i == 0
  | _ => true

/-- Whatever is read from a regular file has been stored there. -/
def ReadsStored (sys : VfsSystem) : Prop :=
  ∀ v ino, Regular sys.kernel.store v ino → ∀ len offset bytes,
    ramfsRead sys.kernel.store v len offset = some bytes →
    ∀ i < bytes.length, bytes[i]? = some (sys.contents v (offset + i))

section Calls

variable {s : Store} {contents : Contents}

theorem vfsOpen_eq (s : Store) (path : List UInt8) (flags : UInt32) :
    vfsOpen s path flags = vfsOpenVnode (openTarget s path flags).2
      (openTarget s path flags).1 flags := by
  unfold vfsOpen openTarget
  cases vfsResolve s path with
  | some v => rfl
  | none =>
      dsimp only
      split_ifs
      · rfl
      · cases parentDir s path with
        | none => rfl
        | some parent =>
            dsimp only
            generalize ramfsCreate s parent.1 parent.2 .file = made
            rcases made with ⟨_ | v, s₁⟩
            · rfl
            · rfl

theorem openTarget_yields (hinv : FsInv s contents) (path : List UInt8)
    (flags : UInt32) : Yields contents (openTarget s path flags) := by
  unfold openTarget
  cases hresolve : vfsResolve s path with
  | some v =>
      refine ⟨hinv, ?_⟩
      rintro w ⟨⟩
      exact hinv.linked v (vfsResolve_linked hresolve)
  | none =>
      dsimp only
      split_ifs
      · exact .none hinv
      · split
        · exact .none hinv
        · exact ramfsCreate_yields hinv _ _ .file

theorem vfsOpen_fsInv (hinv : FsInv s contents) (path : List UInt8)
    (flags : UInt32) :
    FsInv (vfsOpen s path flags).2 (opened s contents path flags) := by
  have hyields := openTarget_yields hinv path flags
  rw [vfsOpen_eq, opened]
  generalize openTarget s path flags = target at hyields ⊢
  rcases target with ⟨_ | v, s₁⟩
  · exact hyields.inv
  · exact vfsOpenVnode_fsInv hyields.inv (hyields.sane v rfl) flags

/-- `ramfs_read` returns what has been stored, from the offset up to the end. -/
theorem FsInv.ramfsRead_eq (hinv : FsInv s contents) {v ino : Nat}
    (hregular : Regular s v ino) (len offset : Nat) :
    ramfsRead s v len offset =
      some ((List.range (min len ((s.vnodes v).size - offset))).map fun i =>
        contents v (offset + i)) := by
  have hino : inodeOf s v = ino := by rw [inodeOf, hregular.data]; rfl
  unfold ramfsRead
  dsimp only
  rw [if_neg (not_not.mpr hregular.type), hino]
  by_cases hend : (s.vnodes v).size ≤ offset
  · rw [if_pos hend, Nat.sub_eq_zero_of_le hend, Nat.min_zero]
    rfl
  have hcount : (if len < (s.vnodes v).size - offset then len
      else (s.vnodes v).size - offset) =
      min len ((s.vnodes v).size - offset) := by
    split_ifs <;> omega
  rw [if_neg hend, hcount]
  refine congrArg some (List.map_congr_left fun i hi => ?_)
  have hlt : offset + i < (s.vnodes v).size := by
    have hi' := List.mem_range.mp hi
    omega
  cases hbuf : (s.inodes ino).buf with
  | none =>
      rw [(hinv.empty v ino hregular hbuf).1] at hlt
      exact absurd hlt (Nat.not_lt_zero _)
  | some b => exact hinv.data v ino b hregular hbuf _ hlt

theorem FsInv.readsStored {sys : VfsSystem}
    (hinv : FsInv sys.kernel.store sys.contents) : ReadsStored sys := by
  intro v ino hregular len offset bytes hread i hi
  rw [hinv.ramfsRead_eq hregular] at hread
  rw [← Option.some.inj hread] at hi ⊢
  rw [List.length_map, List.length_range] at hi
  rw [List.getElem?_map, List.getElem?_range hi]
  rfl

end Calls

section Transfers

variable {k : Kernel} {contents : Contents} {self f len : Nat}

theorem PipeMoves.transfers {cause : Cause} {k₀ : Kernel} {p : Ref}
    {isWrite : Bool} {segment : PipeExit × PipeCall}
    (hmoves : PipeMoves k cause k₀ f p isWrite len segment) :
    Transfers True k.store (k₀.store.setPipe p segment.2.pipe) := by
  cases hmoves with
  | read => exact (TransferStep.pipe trivial _ (pipeReadLoop_sameEnds ..)).single
  | readOn => exact (TransferStep.pipe trivial _ (pipeReadLoop_sameEnds ..)).single
  | write =>
      exact (seekAppend_transfers k.store f).tail
        (.pipe trivial p (pipeWriteLoop_sameEnds ..))
  | writeOn =>
      exact (TransferStep.pipe trivial p (pipeWriteResume_sameEnds ..)).single

def Syscall.isTransfer : Syscall → Bool
  | .read _ _ _ => true
  | .write _ _ _ => true
  | _ => false

/-- Reads and writes, whatever the file is, are transfers. -/
theorem Served.transfers {call : Syscall} {outcome : Outcome} {k' : Kernel}
    (hserved : Served self k (.call call) outcome k')
    (hcall : call.isTransfer = true) :
    Transfers True k.store k'.store := by
  have hdone : ∀ (isWrite : Bool) (k : Kernel) f n,
      Transfers True k.store (pipeDone isWrite k f n).store := by
    intro isWrite k f n
    cases isWrite with
    | false =>
        obtain ⟨t, heq, htransfers⟩ := readDone_transfers k f n
        rwa [pipeDone, cond_false, heq]
    | true =>
        obtain ⟨t, heq, htransfers⟩ := writeDone_transfers k f n
        rwa [pipeDone, cond_true, heq]
  cases hserved with
  | returns => exact .refl
  | reads _ f n => exact hdone false k f n
  | takes _ f len n =>
      exact hdone false { k with keyboard := (k.keyboard.take len).2 } f n
  | awaitsKey => exact .refl
  | @stores _ f _ _ written hwrite =>
      exact (seekAppend_transfers k.store f).trans
        ((ramfsWrite_transfers hwrite).trans
          (hdone true (k.setStore written.2) f _))
  | prints _ f n =>
      exact (seekAppend_transfers k.store f).trans 
        (hdone true (k.setStore (seekAppend k.store f)) f n)
  | @moves _ k₀ f p isWrite _ segment n _ hmoves =>
      have hmoved := hdone isWrite (pipeMoved k₀ p segment.2) f n
      rw [pipeMoved, wakeAll_store] at hmoved
      exact hmoves.transfers.trans hmoved
  | @awaitsPipe _ k₀ _ p isWrite _ segment hmoves =>
      change Transfers True k.store ((pipeMoved k₀ p segment.2).store.setPipe ..)
      rw [pipeMoved, wakeAll_store]
      refine hmoves.transfers.tail (.pipe trivial p ?_)
      simp only [Store.setPipe, Function.update_self]
      exact pipeBlock_sameEnds ..
  | reaps _ hcause => cases call <;> simp_all [Cause.waitsFor, Syscall.isTransfer]
  | waits hcause => cases call <;> simp_all [Cause.waitsFor, Syscall.isTransfer]
  | _ => cases hcall

theorem vfsRead_transfers {result : Outcome × Kernel}
    (hread : vfsRead k self f len = some result) :
    Transfers True k.store result.2.store :=
  (@vfsRead_served k self 0 true f len result hread).transfers rfl

theorem vfsWrite_transfers {src : Nat → UInt8} {result : Outcome × Kernel}
    (hwrite : vfsWrite k self f src len = some result) :
    Transfers True k.store result.2.store :=
  (@vfsWrite_served k self 0 none f src len result hwrite).transfers rfl

theorem readDone_still (k : Kernel) (f : Nat) (n : Int) :
    FsStill k.store (readDone k f n).store := by
  unfold readDone
  dsimp only
  split_ifs
  · exact setFile_still rfl
  · exact FsStill.refl _

theorem seekAppend_still (s : Store) (f : Nat) : FsStill s (seekAppend s f) := by
  unfold seekAppend
  dsimp only
  split_ifs
  · exact setFile_still rfl
  · exact FsStill.refl _

theorem seekAppend_vnode (s : Store) (f : Nat) :
    ((seekAppend s f).files f).vnode = (s.files f).vnode := by
  unfold seekAppend
  dsimp only
  split_ifs
  · simp only [Store.setFile, Function.update_self]
  · rfl

/-- `vfs_write` extends a regular file only up to the new offset. -/
theorem writeDone_still {n : Int}
    (hsize : ∀ ino, Regular k.store (k.store.files f).vnode ino → 0 < n →
      u32 ((k.store.files f).offset + n.toNat) ≤
        (k.store.vnodes (k.store.files f).vnode).size) :
    FsStill k.store (writeDone k f n).store := by
  unfold writeDone
  dsimp only
  split_ifs with hpos hgrows
  · have hset := @setFile_still k.store f { k.store.files f with
      offset := u32 ((k.store.files f).offset + n.toNat) } rfl
    refine hset.trans (setVnode_still ?_ ?_ ?_ fun ino hregular => ?_)
    · rfl
    · rfl
    · rfl
    · have hle := hsize ino (hset.regular_iff.mp hregular) hpos
      exact absurd hgrows (Nat.not_lt.mpr hle)
  · exact setFile_still rfl
  · exact FsStill.refl _

theorem kbdRead_still (k : Kernel) (self f len : Nat) :
    FsStill k.store (kbdRead k self f len).2.store := by
  unfold kbdRead
  dsimp only
  split_ifs
  · exact readDone_still { k with keyboard := (k.keyboard.take len).2 } f _
  · exact FsStill.refl _

theorem vfsRead_still (hsane : Sane k.store (k.store.files f).vnode)
    {result : Outcome × Kernel} (hread : vfsRead k self f len = some result) :
    FsStill k.store result.2.store := by
  unfold vfsRead at hread
  dsimp only at hread
  split at hread
  · split at hread
    · rw [← Option.some.inj hread]
      exact FsStill.refl _
    · rw [← Option.some.inj hread]
      exact readDone_still k f _
  · rw [← Option.some.inj hread]
    exact kbdRead_still k self f len
  · rename_i hops
    exact absurd (.inl hops) hsane.notPipe
  · rw [← Option.some.inj hread]
    exact FsStill.refl _

theorem toNat_i32 (hlen : len < 2 ^ 32) (hpos : 0 < i32 len) :
    (i32 len).toNat = len := by
  unfold i32 at hpos ⊢
  rw [u32_of_lt hlen] at hpos ⊢
  split_ifs at hpos ⊢ <;> omega

/-- The growth of the buffer decides how a write to a regular file ends. -/
theorem vfsWrite_eq_some {src : Nat → UInt8} {ino : Nat}
    (hregular : Regular k.store (k.store.files f).vnode ino)
    {answer : Outcome × Kernel}
    (hwrite : vfsWrite k self f src len = some answer) :
    ∃ buf grown, ramfsGrow (seekAppend k.store f) (k.store.files f).vnode
        (u32 (writeOffset k.store f + len)) = some (buf, grown) ∧
      (buf = none ∧ answer = (.ret (-1) .none, k.setStore grown) ∨
      ∃ b, buf = some b ∧ answer = (.ret (i32 len) .none, writeDone
        (k.setStore (ramfsFill grown (k.store.files f).vnode b src len
          (writeOffset k.store f) (u32 (writeOffset k.store f + len)))) f
        (i32 len))) := by
  have htype : ((seekAppend k.store f).vnodes (k.store.files f).vnode).type =
      .file := ((seekAppend_still k.store f).type _).trans hregular.type
  unfold vfsWrite at hwrite
  simp only [hregular.ops] at hwrite
  obtain ⟨⟨n, s₁⟩, hramfs, rfl⟩ := Option.map_eq_some_iff.mp hwrite
  change ramfsWrite (seekAppend k.store f) (k.store.files f).vnode src len
    (writeOffset k.store f) = some (n, s₁) at hramfs
  unfold ramfsWrite at hramfs
  rw [if_neg (not_not.mpr htype)] at hramfs
  obtain ⟨⟨buf, grown⟩, hgrow, hfill⟩ := Option.map_eq_some_iff.mp hramfs
  refine ⟨buf, grown, hgrow, ?_⟩
  cases buf with
  | none =>
      obtain ⟨rfl, rfl⟩ := Prod.mk.inj hfill
      exact .inl ⟨rfl, rfl⟩
  | some b =>
      obtain ⟨rfl, rfl⟩ := Prod.mk.inj hfill
      exact .inr ⟨b, rfl, rfl⟩

/-- A write to a regular file: it fails before the copy, or it fills the
buffer it has found or made. -/
theorem vfsWrite_regular {src : Nat → UInt8} {ino : Nat}
    (hinv : FsInv k.store contents)
    (hregular : Regular k.store (k.store.files f).vnode ino) (hlen : 0 < len)
    (hfits : writeOffset k.store f + len < 2 ^ 32)
    {result : Outcome × Kernel}
    (hwrite : vfsWrite k self f src len = some result) :
    (writeBuffer k.store f len = none ∧ FsStill k.store result.2.store) ∨
    ∃ b grown t, writeBuffer k.store f len = some (b, grown) ∧
      Grows (seekAppend k.store f) contents (k.store.files f).vnode ino (some b)
        grown ∧
      Fills grown (k.store.files f).vnode b src len (writeOffset k.store f)
        (writeOffset k.store f + len) t ∧
      FsStill t result.2.store := by
  have hstill := seekAppend_still k.store f
  have hvnode := seekAppend_vnode k.store f
  have hsought := hstill.regular_iff.mpr hregular
  have hstop := u32_of_lt hfits
  obtain ⟨buf, grown, hgrow, hend⟩ := vfsWrite_eq_some hregular hwrite
  have hbuffer : writeBuffer k.store f len = buf.map fun b => (b, grown) := by
    unfold writeBuffer
    dsimp only
    rw [if_pos ⟨hregular.ops, hregular.type⟩, hgrow]
    cases buf <;> rfl
  rw [hstop] at hgrow hend
  have hgrows := ramfsGrow_grows (hinv.still hstill) hsought (by omega) hgrow
  rcases hend with ⟨rfl, rfl⟩ | ⟨b, rfl, rfl⟩
  · refine .inl ⟨hbuffer, ?_⟩
    rw [ramfsGrow_none hgrow]
    exact hstill.trans (refuse_still _)
  · have hfills := ramfsFill_fills grown (k.store.files f).vnode b src len
      (writeOffset k.store f) (writeOffset k.store f + len)
    refine .inr ⟨b, grown, _, hbuffer, hgrows, hfills, ?_⟩
    generalize ramfsFill grown (k.store.files f).vnode b src len
      (writeOffset k.store f) (writeOffset k.store f + len) = t at hfills ⊢
    have hfile : t.files f = (seekAppend k.store f).files f := by
      rw [hfills.files, hgrows.files]
    apply @writeDone_still (k.setStore t) f
    intro _ _ hpos
    change u32 ((t.files f).offset + (i32 len).toNat) ≤
      (t.vnodes (t.files f).vnode).size
    rw [hfile, toNat_i32 (by omega) hpos, hvnode, hfills.vnode]
    exact hstop.le.trans (Nat.le_max_right _ _)

/-- A write to anything else. -/
theorem vfsWrite_other {src : Nat → UInt8}
    (hsane : Sane k.store (k.store.files f).vnode)
    (hnot : ∀ ino, ¬ Regular k.store (k.store.files f).vnode ino)
    {result : Outcome × Kernel}
    (hwrite : vfsWrite k self f src len = some result) :
    writeBuffer k.store f len = none ∧ FsStill k.store result.2.store := by
  have hstill := seekAppend_still k.store f
  have hvnode := seekAppend_vnode k.store f
  have hnot' : ¬ ((k.store.vnodes (k.store.files f).vnode).ops = .ramfs ∧
      (k.store.vnodes (k.store.files f).vnode).type = .file) := by
    rintro ⟨hops, htype⟩
    obtain ⟨ino, hregular⟩ := hsane.file htype hops
    exact hnot ino hregular
  have hdone : ∀ n : Int, FsStill k.store
      (writeDone (k.setStore (seekAppend k.store f)) f n).store := by
    intro n
    apply hstill.trans
    apply @writeDone_still (k.setStore (seekAppend k.store f)) f
    intro ino hregular
    change Regular (seekAppend k.store f)
      ((seekAppend k.store f).files f).vnode ino at hregular
    rw [hvnode] at hregular
    exact absurd (hstill.regular_iff.mp hregular) (hnot ino)
  refine ⟨if_neg hnot', ?_⟩
  unfold vfsWrite at hwrite
  dsimp only at hwrite
  split at hwrite
  · rename_i hops
    obtain ⟨⟨n, s₁⟩, hramfs, rfl⟩ := Option.map_eq_some_iff.mp hwrite
    unfold ramfsWrite at hramfs
    rw [if_pos] at hramfs
    · obtain ⟨rfl, rfl⟩ := Prod.mk.inj (Option.some.inj hramfs)
      exact hdone (-1)
    · intro htype
      exact hnot' ⟨hops, (hstill.type _).symm.trans htype⟩
  · rw [← Option.some.inj hwrite]
    exact hdone _
  · rw [← Option.some.inj hwrite]
    exact hdone _
  · rename_i hops
    exact absurd (.inr hops) hsane.notPipe
  · rw [← Option.some.inj hwrite]
    exact FsStill.refl _

end Transfers

section Runs

variable {sys sys' : VfsSystem} {call : VfsCall}

theorem cells_of_isLive {s : Store} {kind : ObjKind} {ref : Nat}
    (hlive : ¬ s.isLive kind ref = false) : s.cells ref = some kind := by
  simpa [Store.isLive] using hlive

theorem holesZero_write {self f len : Nat} {src : Nat → UInt8} {b : Nat}
    {grown : Store} (hlen : len ≠ 0)
    (hbuffer : writeBuffer sys.kernel.store f len = some (b, grown)) :
    holesZero sys (.write self f src len) = true ↔
      ∀ i, (sys.kernel.store.vnodes (sys.kernel.store.files f).vnode).size ≤ i →
        i < writeOffset sys.kernel.store f → grown.bytes b i = 0 := by
  unfold holesZero
  dsimp only
  rw [if_neg hlen, hbuffer]
  simp only [List.all_eq_true, List.mem_range, Bool.or_eq_true,
    decide_eq_true_eq, beq_iff_eq]
  constructor
  · exact fun hall i hge hlt =>
      (hall i hlt).resolve_left (Nat.not_lt.mpr hge)
  · exact fun hall i hlt => (Nat.lt_or_ge i _).imp_right fun hge => hall i hge hlt

/-- A write that does not start beyond the end leaves no hole. -/
theorem holesZero_of_le {self f len : Nat} {src : Nat → UInt8}
    (hle : writeOffset sys.kernel.store f ≤
      (sys.kernel.store.vnodes (sys.kernel.store.files f).vnode).size) :
    holesZero sys (.write self f src len) = true := by
  by_cases hlen : len = 0
  · unfold holesZero
    dsimp only
    rw [if_pos hlen]
  · cases hbuffer : writeBuffer sys.kernel.store f len with
    | none =>
        unfold holesZero
        dsimp only
        rw [if_neg hlen, hbuffer]
    | some target =>
        rw [holesZero_write hlen hbuffer]
        exact fun i hge hlt => absurd (hle.trans hge) (Nat.not_le.mpr hlt)

theorem VfsSystem.step_fsInv (hinv : FsInv sys.kernel.store sys.contents)
    (hholes : holesZero sys call = true) (hfits : copyFits sys call = true)
    (hstep : sys.step call = some sys') :
    FsInv sys'.kernel.store sys'.contents := by
  cases call with
  | «open» path flags =>
      rw [← Option.some.inj hstep]
      exact vfsOpen_fsInv hinv path flags
  | mkdir path =>
      rw [← Option.some.inj hstep]
      exact vfsMkdir_fsInv hinv path
  | read self f len =>
      simp only [VfsSystem.step] at hstep
      split_ifs at hstep with hlive hlen
      · rw [← Option.some.inj hstep]
        exact hinv
      · obtain ⟨result, hread, rfl⟩ := Option.map_eq_some_iff.mp hstep
        have hfile := cells_of_isLive hlive
        exact hinv.still (vfsRead_still (hinv.files f hfile) hread)
  | write self f src len =>
      simp only [VfsSystem.step] at hstep
      split_ifs at hstep with hlive hlen
      · rw [← Option.some.inj hstep]
        exact hinv
      · obtain ⟨result, hwrite, rfl⟩ := Option.map_eq_some_iff.mp hstep
        have hfile := cells_of_isLive hlive
        dsimp only
        by_cases hregular :
            ∃ ino, Regular sys.kernel.store (sys.kernel.store.files f).vnode ino
        · obtain ⟨ino, hregular⟩ := hregular
          simp only [copyFits, decide_eq_true_eq] at hfits
          rcases vfsWrite_regular hinv hregular (Nat.pos_of_ne_zero hlen) hfits
            hwrite with ⟨hnone, hafter⟩ |
              ⟨b, grown, t, hbuffer, hgrows, hfills, hstill⟩
          · rw [written, hnone]
            exact hinv.still hafter
          · rw [written, hbuffer]
            have hseek := seekAppend_still sys.kernel.store f
            have hgrown := hgrows.regular_iff.mpr
              (hseek.regular_iff.mpr hregular)
            have hhole := (holesZero_write hlen hbuffer).mp hholes
            rw [← hseek.size _ ino hregular, ← hgrows.vnodes] at hhole
            exact (hfills.fsInv hgrows.inv hgrown (hgrows.buf b rfl)
              hhole).still hstill
        · push Not at hregular
          obtain ⟨hnone, hstill⟩ :=
            vfsWrite_other (hinv.files f hfile) hregular hwrite
          rw [written, hnone]
          exact hinv.still hstill
  | close f =>
      simp only [VfsSystem.step] at hstep
      split_ifs at hstep with hlive
      rw [← Option.some.inj hstep]
      have hfile := cells_of_isLive hlive
      dsimp only
      rw [wakeAll_store]
      exact hinv.still (vfsClose_still (hinv.files f hfile))

/-- A byte that is read alone. -/
theorem ramfsRead_one {s : Store} {v ino b i : Nat} (hregular : Regular s v ino)
    (hbuf : (s.inodes ino).buf = some b) (hi : i < (s.vnodes v).size) :
    ramfsRead s v 1 i = some [s.bytes b i] := by
  have hino : inodeOf s v = ino := by rw [inodeOf, hregular.data]; rfl
  have hone : (if 1 < (s.vnodes v).size - i then 1
      else (s.vnodes v).size - i) = 1 := by
    split_ifs <;> omega
  unfold ramfsRead
  dsimp only
  rw [if_neg (not_not.mpr hregular.type), if_neg (Nat.not_le.mpr hi), hino, hbuf,
    hone]
  rfl

/-- Otherwise such a byte can be read at once. -/
theorem VfsSystem.step_exposes (hinv : FsInv sys.kernel.store sys.contents)
    (hholes : holesZero sys call = false) (hfits : copyFits sys call = true)
    (hstep : sys.step call = some sys') : ¬ ReadsStored sys' := by
  cases call with
  | write self f src len =>
      simp only [VfsSystem.step] at hstep
      split_ifs at hstep with hlive hlen
      · simp only [holesZero, if_pos hlen] at hholes
        cases hholes
      obtain ⟨result, hwrite, rfl⟩ := Option.map_eq_some_iff.mp hstep
      have hfile := cells_of_isLive hlive
      have hbuffered : writeBuffer sys.kernel.store f len ≠ none := by
        intro hnone
        simp only [holesZero, if_neg hlen, hnone] at hholes
        cases hholes
      have hregular : ∃ ino,
          Regular sys.kernel.store (sys.kernel.store.files f).vnode ino := by
        by_contra hnot
        push Not at hnot
        exact hbuffered (vfsWrite_other (hinv.files f hfile) hnot hwrite).1
      obtain ⟨ino, hregular⟩ := hregular
      simp only [copyFits, decide_eq_true_eq] at hfits
      rcases vfsWrite_regular hinv hregular (Nat.pos_of_ne_zero hlen) hfits
        hwrite with ⟨hnone, -⟩ |
          ⟨b, grown, t, hbuffer, hgrows, hfills, hstill⟩
      · exact absurd hnone hbuffered
      have hhole := mt (holesZero_write hlen hbuffer).mpr
        (ne_true_of_eq_false hholes)
      push Not at hhole
      obtain ⟨i, hge, hlt, hbyte⟩ := hhole
      have hseek := seekAppend_still sys.kernel.store f
      have hfilled := hfills.regular_iff.mpr
        (hgrows.regular_iff.mpr (hseek.regular_iff.mpr hregular))
      have hafter := hstill.regular_iff.mpr hfilled
      have hbuf : (result.2.store.inodes ino).buf = some b := by
        rw [hstill.buf, hfills.inodes]
        exact hgrows.buf b rfl
      have hsize : i < (result.2.store.vnodes
          (sys.kernel.store.files f).vnode).size := by
        rw [hstill.size _ ino hfilled, hfills.vnode]
        exact Nat.lt_of_lt_of_le (by omega) (Nat.le_max_right _ _)
      have hout : ¬ (writeOffset sys.kernel.store f ≤ i ∧
          i < writeOffset sys.kernel.store f + len) := by omega
      intro hreads
      have hread := hreads _ ino hafter 1 i _ (ramfsRead_one hafter hbuf hsize) 0
        Nat.one_pos
      dsimp only at hread
      rw [hstill.bytes, hfills.bytes, Function.update_self, written, hbuffer,
        Nat.add_zero] at hread
      simp only [List.getElem?_cons_zero, Function.update_self, stored,
        if_neg hout, Option.some.injEq] at hread
      rw [hinv.rest _ ino hregular i hge] at hread
      exact hbyte hread
  | _ => cases hholes

end Runs

/-- The kernel after the file systems are set up, on a heap with any bytes in
it. -/
def freshFs (refuses : Nat → Bool) (garbage : Nat → Nat → UInt8) : Store :=
  devfsInit (ramfsInit { Store.empty refuses with bytes := garbage })

/-- In a run whose writes end below 4 GB, everything that can be read has been
stored exactly when no write leaves a hole in the file with other bytes than
0 in it; and then `vfs_read` returns what has been stored. -/
theorem vfsRead_run_stored (refuses : Nat → Bool) (garbage : Nat → Nat → UInt8)
    (k : Kernel) (hk : k.store = freshFs refuses garbage)
    (calls : List VfsCall) (sys : VfsSystem)
    (hrun : Machine.exec (Machine.guarded copyFits VfsSystem.step)
      ⟨k, fun _ _ => 0⟩ calls = some sys) :
    (Machine.exec (Machine.guarded holesZero
        (Machine.guarded copyFits VfsSystem.step)) ⟨k, fun _ _ => 0⟩ calls =
        some sys ↔
      ∀ past rest mid, calls = past ++ rest →
        Machine.exec (Machine.guarded copyFits VfsSystem.step)
          ⟨k, fun _ _ => 0⟩ past = some mid → ReadsStored mid) ∧
    (Machine.exec (Machine.guarded holesZero
        (Machine.guarded copyFits VfsSystem.step)) ⟨k, fun _ _ => 0⟩ calls =
        some sys →
      ∀ self f len n bytes k', sys.kernel.store.isLive .file f = true →
        (sys.kernel.store.vnodes (sys.kernel.store.files f).vnode).ops =
          .ramfs →
        vfsRead sys.kernel self f len = some (.ret n (.bytes bytes), k') →
        ∀ i < bytes.length, bytes[i]? = some
          (sys.contents (sys.kernel.store.files f).vnode
            ((sys.kernel.store.files f).offset + i))) := by
  have hinit : FsInv k.store fun _ _ => 0 := by
    rw [hk]
    exact fsInit_fsInv (fsInv_of_empty rfl rfl rfl rfl)
  have hkeep : ∀ (mid : VfsSystem) (call : VfsCall) (next : VfsSystem),
      FsInv mid.kernel.store mid.contents → holesZero mid call = true →
      Machine.guarded copyFits VfsSystem.step mid call = some next →
      FsInv next.kernel.store next.contents := by
    intro mid call next hinv hholes hstep
    obtain ⟨hfits, hstep⟩ := Machine.guarded_eq_some.mp hstep
    exact VfsSystem.step_fsInv hinv hholes hfits hstep
  have hbreak : ∀ (mid : VfsSystem) (call : VfsCall) (next : VfsSystem),
      FsInv mid.kernel.store mid.contents → holesZero mid call = false →
      Machine.guarded copyFits VfsSystem.step mid call = some next →
      ¬ ReadsStored next := by
    intro mid call next hinv hholes hstep
    obtain ⟨hfits, hstep⟩ := Machine.guarded_eq_some.mp hstep
    exact VfsSystem.step_exposes hinv hholes hfits hstep
  refine ⟨Machine.exec_guarded_iff (fun _ => FsInv.readsStored) hkeep hbreak
    hinit hrun, ?_⟩
  intro hguarded self f len n bytes k' hlive hops hread
  have hinv : FsInv sys.kernel.store sys.contents := by
    apply @Machine.exec_invariant _ _ _
      (fun mid : VfsSystem => FsInv mid.kernel.store mid.contents) _ _ _ _ hinit
      hguarded
    intro mid call next hinv hstep
    obtain ⟨hholes, hstep⟩ := Machine.guarded_eq_some.mp hstep
    exact hkeep mid call next hinv hholes hstep
  have hsane := hinv.files f (beq_iff_eq.mp hlive)
  unfold vfsRead at hread
  simp only [hops] at hread
  cases hramfs : ramfsRead sys.kernel.store (sys.kernel.store.files f).vnode len
      (sys.kernel.store.files f).offset with
  | none =>
      rw [hramfs] at hread
      simp at hread
  | some found =>
      rw [hramfs] at hread
      simp only [Option.some.injEq, Prod.mk.injEq, Outcome.ret.injEq,
        Reply.bytes.injEq] at hread
      obtain ⟨⟨-, rfl⟩, -⟩ := hread
      have htype : (sys.kernel.store.vnodes
          (sys.kernel.store.files f).vnode).type = .file := by
        by_contra hnot
        rw [ramfsRead, if_pos hnot] at hramfs
        cases hramfs
      obtain ⟨ino, hregular⟩ := hsane.file htype hops
      exact hinv.readsStored _ ino hregular _ _ _ hramfs

namespace RamfsReadsWitness

/-- A kernel on a heap full of old bytes. -/
def kernel : Kernel := Kernel.reset (freshFs (fun _ => false) fun _ _ => 0xAA)

/-- The path `/f`. -/
def path : List UInt8 := [slash, 0x66]

/-- Create the file and write two bytes. -/
def create : List VfsCall :=
  [.open path oCreat, .write 1 15 (fun _ => 0x55) 2]

/-- Open it again with `O_TRUNC`, and write one byte through the first file,
whose offset is still 2. -/
def truncateAndWrite : List VfsCall :=
  [.open path oTrunc, .write 1 15 (fun _ => 0x55) 1]

theorem created_run :
    ((Machine.exec (Machine.guarded holesZero
      (Machine.guarded copyFits VfsSystem.step)) ⟨kernel, fun _ _ => 0⟩
      (create ++ [.open path oRdonly])).bind fun sys =>
        (vfsRead sys.kernel 1 17 2).map fun result =>
          (sys.kernel.store.isLive .file 17,
            (sys.kernel.store.vnodes (sys.kernel.store.files 17).vnode).ops,
            result.1)) =
      some (true, .ramfs, .ret 2 (.bytes [0x55, 0x55])) := by
  decide +kernel

/-- Both bytes read back are the ones stored. -/
theorem created_file_read : ∃ sys k',
    Machine.exec (Machine.guarded copyFits VfsSystem.step)
      ⟨kernel, fun _ _ => 0⟩ (create ++ [.open path oRdonly]) = some sys ∧
    vfsRead sys.kernel 1 17 2 = some (.ret 2 (.bytes [0x55, 0x55]), k') ∧
    ReadsStored sys ∧
    some (0x55 : UInt8) = some (sys.contents (sys.kernel.store.files 17).vnode
      ((sys.kernel.store.files 17).offset + 1)) := by
  obtain ⟨sys, hguarded, hrest⟩ := Option.bind_eq_some_iff.mp created_run
  obtain ⟨⟨outcome, k'⟩, hread, hview⟩ := Option.map_eq_some_iff.mp hrest
  simp only [Prod.mk.injEq] at hview
  obtain ⟨hlive, hops, rfl⟩ := hview
  have hrun := Machine.exec_of_guarded hguarded
  have hkernel : kernel.store = freshFs (fun _ => false) fun _ _ => 0xAA := rfl
  obtain ⟨hiff, hreads⟩ := vfsRead_run_stored _ _ kernel hkernel _ sys hrun
  exact ⟨sys, k', hrun, hread,
    hiff.mp hguarded _ [] sys (List.append_nil _).symm hrun,
    hreads hguarded 1 17 2 2 _ k' hlive hops hread 1 (by decide)⟩

/-- Two bytes that nobody has stored since the truncation are read: they are
what was in the heap. -/
theorem heap_bytes_read :
    ((Machine.exec (Machine.guarded copyFits VfsSystem.step)
      ⟨kernel, fun _ _ => 0⟩ (create ++ truncateAndWrite)).bind fun sys =>
        (vfsRead sys.kernel 1 17 3).map fun result =>
          (result.1, sys.contents 13 0, sys.contents 13 1)) =
      some (.ret 3 (.bytes [0xAA, 0xAA, 0x55]), 0, 0) := by
  decide +kernel

end RamfsReadsWitness

end Orion
