/-
The files of the ramfs as byte sequences.  Every call through an open file
answers as a store of byte sequences does; the inodes, the buffers and their
growth stay inside.
-/
import Orion.ByteFiles
import Orion.OpenFiles
import Orion.RamfsReads

namespace Orion

open MachineInt

/-- The calls and answers as a store of byte sequences sees them. -/
abbrev FileEvent := ByteFiles.Call UInt8 × ByteFiles.Result UInt8

/-- The kernel, and what has been called and answered. -/
structure FileRun where
  kernel : Kernel
  log : List FileEvent

/-- A write for which the buffer would have to grow and cannot. -/
def outOfMemory (store : Store) (f len : Nat) : Bool :=
  let sought := seekAppend store f
  let ino := inodeOf sought (store.files f).vnode
  (sought.inodes ino).capacity < u32 (writeOffset store f + len) &&
    (sought.kmalloc .buffer).1.isNone

def resultOf : Outcome → Option (ByteFiles.Result UInt8)
  | .ret n (.bytes data) => some ⟨n, data⟩
  | .ret n _ => some ⟨n, []⟩
  | .yield _ => none

/-- A call and its answer.  `vfs_read` and `vfs_write` turn down a length of
zero; a null result of `vfs_open` ends the run. -/
def fileCall (k : Kernel) : VfsCall → Option (FileEvent × Kernel)
  | .open path flags =>
      match vfsOpen k.store path flags with
      | (none, _) => none
      | (some f, store) =>
          some ((.open f (store.files f).vnode (flags &&& oTrunc != 0)
            (flags &&& oAppend != 0), ⟨0, []⟩), k.setStore store)
  | .mkdir _ => none
  | .read self f len =>
      if k.store.isLive .file f = false then none
      else if len = 0 then some ((.read f len, ⟨-1, []⟩), k)
      else (vfsRead k self f len).bind fun answer =>
        (resultOf answer.1).map fun result => ((.read f len, result), answer.2)
  | .write self f src len =>
      if k.store.isLive .file f = false then none
      else
        let call := .write f ((List.range len).map src)
          (outOfMemory k.store f len)
        if len = 0 then some ((call, ⟨-1, []⟩), k)
        else (vfsWrite k self f src len).bind fun answer =>
          (resultOf answer.1).map fun result => ((call, result), answer.2)
  | .close f =>
      if k.store.isLive .file f = false then none
      else
        let closed := vfsClose k.store f
        some ((.close f, ⟨0, []⟩),
          wakeAll (k.setStore closed.2) closed.1)

def FileRun.step (run : FileRun) (call : VfsCall) : Option FileRun :=
  (fileCall run.kernel call).map fun done => ⟨done.2, run.log ++ [done.1]⟩

def isRegular (store : Store) (v : Ref) : Bool :=
  (store.vnodes v).type == .file && (store.vnodes v).ops == .ramfs

/-- Every file opened is a regular file of the ramfs, no write starts beyond
the end of the file, and a write for which there is memory ends below 2 GB. -/
def inContract (run : FileRun) : VfsCall → Bool
  | .open path flags =>
      let opened := vfsOpen run.kernel.store path flags
      opened.1.any fun f => isRegular opened.2 (opened.2.files f).vnode
  | .write _ f _ len =>
      let store := run.kernel.store
      let offset := writeOffset store f
      len == 0 || (offset ≤ (store.vnodes (store.files f).vnode).size &&
        (outOfMemory store f len || offset + len < 2 ^ 31))
  | _ => true

/-- The bytes of each file, 0 beyond its end. -/
def held (ref : ByteFiles.State UInt8) : Contents :=
  fun v i => (ref.files v).getD i 0

/-- The byte sequences are as long as the files, which are below 2 GB. -/
structure Sized (s : Store) (files : Nat → List UInt8) : Prop where
  size : ∀ v ino, Regular s v ino → (files v).length = (s.vnodes v).size
  small : ∀ v ino, Regular s v ino → (s.vnodes v).size < 2 ^ 31
  absent : ∀ v, (∀ ino, ¬ Regular s v ino) → files v = []

/-- The byte sequences are what the files hold. -/
structure HoldsBytes (s : Store) (ref : ByteFiles.State UInt8) : Prop
    extends Sized s ref.files where
  inv : FsInv s (held ref)

/-- A file of the run. -/
structure OpenFile (s : Store) (f : Nat) : Prop where
  offset : (s.files f).offset < 2 ^ 31
  once : (s.files f).refcount = 1
  notFile : NotFile s (s.files f).vnode
  regular : ∃ ino, Regular s (s.files f).vnode ino

def descriptorOf (s : Store) (f : Nat) : Option ByteFiles.Descriptor :=
  if s.cells f = some .file then
    some ⟨(s.files f).vnode, (s.files f).offset,
      (s.files f).flags &&& oAppend != 0⟩
  else none

/-- The descriptors are the open files. -/
structure HoldsFiles (s : Store) (ref : ByteFiles.State UInt8) : Prop where
  descriptors : ∀ f, ref.descriptors f = descriptorOf s f
  files : ∀ f, s.cells f = some .file → OpenFile s f

structure Refines (s : Store) (ref : ByteFiles.State UInt8) : Prop where
  typed : Typed s
  bytes : HoldsBytes s ref
  files : HoldsFiles s ref

section Frames

variable {s s' : Store} {ref : ByteFiles.State UInt8} {f : Nat}

/-- The files are the same, and some have been written or truncated. -/
theorem Sized.change {files files' : Nat → List UInt8} (hsized : Sized s files)
    (hiff : ∀ v ino, Regular s' v ino ↔ Regular s v ino)
    (hsize : ∀ v ino, Regular s v ino →
      (files' v).length = (s'.vnodes v).size ∧ (s'.vnodes v).size < 2 ^ 31)
    (hsame : ∀ v, (∀ ino, ¬ Regular s v ino) → files' v = files v) :
    Sized s' files' where
  size := fun v ino hregular => (hsize v ino ((hiff v ino).mp hregular)).1
  small := fun v ino hregular => (hsize v ino ((hiff v ino).mp hregular)).2
  absent := by
    intro v hnot
    have hnot' : ∀ ino, ¬ Regular s v ino := fun ino =>
      mt (hiff v ino).mpr (hnot ino)
    exact (hsame v hnot').trans (hsized.absent v hnot')

theorem HoldsBytes.still (hbytes : HoldsBytes s ref) (hstill : FsStill s s')
    {descriptors : Nat → Option ByteFiles.Descriptor} :
    HoldsBytes s' { ref with descriptors := descriptors } where
  inv := hbytes.inv.still hstill
  toSized := by
    refine hbytes.toSized.change (fun _ _ => hstill.regular_iff) ?_ fun _ _ => rfl
    intro v ino hregular
    rw [hstill.size v ino hregular]
    exact ⟨hbytes.size v ino hregular, hbytes.small v ino hregular⟩

/-- One file is opened, moved or closed. -/
theorem HoldsFiles.update (hfiles : HoldsFiles s ref)
    (hcells : ∀ g, g ≠ f →
      (s'.cells g = some .file ↔ s.cells g = some .file))
    (hothers : ∀ g, g ≠ f → s.cells g = some .file → s'.files g = s.files g)
    (hnotFile : ∀ v, NotFile s v → NotFile s' v)
    (hregular : ∀ v ino, Regular s v ino → Regular s' v ino)
    (hopen : s'.cells f = some .file → OpenFile s' f)
    {files : Nat → List UInt8} :
    HoldsFiles s' ⟨files,
      Function.update ref.descriptors f (descriptorOf s' f)⟩ where
  descriptors := by
    intro g
    by_cases hg : g = f
    · subst hg
      exact Function.update_self ..
    · refine (Function.update_of_ne hg ..).trans ?_
      rw [hfiles.descriptors, descriptorOf, descriptorOf]
      by_cases hlive : s.cells g = some .file
      · rw [if_pos hlive, if_pos ((hcells g hg).mpr hlive), hothers g hg hlive]
      · rw [if_neg hlive, if_neg (mt (hcells g hg).mp hlive)]
  files := by
    intro g hlive
    by_cases hg : g = f
    · subst hg
      exact hopen hlive
    · have hold := (hcells g hg).mp hlive
      obtain ⟨hoffset, honce, hvnode, ino, hino⟩ := hfiles.files g hold
      rw [← hothers g hg hold] at hoffset honce hvnode hino
      exact ⟨hoffset, honce, hnotFile _ hvnode, ino, hregular _ _ hino⟩

theorem Refines.descriptor (href : Refines s ref)
    (hlive : s.cells f = some .file) : ref.descriptors f =
      some ⟨(s.files f).vnode, (s.files f).offset,
        (s.files f).flags &&& oAppend != 0⟩ := by
  rw [href.files.descriptors, descriptorOf, if_pos hlive]

/-- The offset of an open file moves. -/
theorem HoldsFiles.seek (hfiles : HoldsFiles s ref)
    (hlive : s.cells f = some .file)
    (hcells : ∀ g, s'.cells g = some .file ↔ s.cells g = some .file)
    (hnotFile : ∀ v, NotFile s v → NotFile s' v)
    (hregular : ∀ v ino, Regular s v ino → Regular s' v ino)
    (hothers : ∀ g, g ≠ f → s'.files g = s.files g) {offset : Nat}
    (hoffset : offset < 2 ^ 31)
    (hfile : s'.files f = { s.files f with offset := offset })
    (files : Nat → List UInt8) :
    HoldsFiles s' (ByteFiles.State.seek { ref with files := files } f offset
      ⟨(s.files f).vnode, (s.files f).offset,
        (s.files f).flags &&& oAppend != 0⟩) := by
  obtain ⟨-, honce, hvnode, ino, hino⟩ := hfiles.files f hlive
  have hopen : OpenFile s' f := by
    refine ⟨?_, ?_, ?_, ino, ?_⟩
    · rw [hfile]
      exact hoffset
    · rw [hfile]
      exact honce
    · rw [hfile]
      exact hnotFile _ hvnode
    · rw [hfile]
      exact hregular _ _ hino
  have hdescriptor : descriptorOf s' f = some ⟨(s.files f).vnode, offset,
      (s.files f).flags &&& oAppend != 0⟩ := by
    rw [descriptorOf, if_pos ((hcells f).mpr hlive), hfile]
  have hupdate := @HoldsFiles.update s s' ref f hfiles (fun g _ => hcells g)
    (fun g hg _ => hothers g hg) hnotFile hregular (fun _ => hopen) files
  rw [hdescriptor] at hupdate
  exact hupdate

/-- Nothing but the offset of an open file has changed. -/
theorem Refines.seek (href : Refines s ref) (hlive : s.cells f = some .file)
    (htyped : Typed s') (hstill : FsStill s s') (hcells : s'.cells = s.cells)
    (hothers : ∀ g, g ≠ f → s'.files g = s.files g) {offset : Nat}
    (hoffset : offset < 2 ^ 31)
    (hfile : s'.files f = { s.files f with offset := offset }) :
    Refines s' (ref.seek f offset ⟨(s.files f).vnode, (s.files f).offset,
      (s.files f).flags &&& oAppend != 0⟩) := by
  refine ⟨htyped, href.bytes.still hstill, ?_⟩
  exact href.files.seek hlive (fun g => by rw [hcells])
    (fun v hv => ⟨hv.1.trans_le hstill.next, hcells ▸ hv.2⟩)
    (fun v ino => hstill.regular_iff.mpr) hothers hoffset hfile ref.files

end Frames

section Reading

variable {s : Store} {ref : ByteFiles.State UInt8} {k k' : Kernel}
  {event : FileEvent}

/-- `ramfs_read` copies out the bytes from the offset on. -/
theorem HoldsBytes.ramfsRead_eq (hbytes : HoldsBytes s ref) {v ino : Nat}
    (hregular : Regular s v ino) (len offset : Nat) :
    ramfsRead s v len offset =
      some (((ref.files v).drop offset).take len) := by
  have hsize := hbytes.size v ino hregular
  rw [hbytes.inv.ramfsRead_eq hregular]
  congr 1
  apply List.ext_getElem
  · rw [List.length_map, List.length_range, List.length_take, List.length_drop,
      hsize]
  intro i hi hi'
  rw [List.length_map, List.length_range] at hi
  rw [List.getElem_map, List.getElem_range, List.getElem_take,
    List.getElem_drop, held, List.getD_eq_getElem?_getD,
    List.getElem?_eq_getElem (by omega), Option.getD_some]

theorem i32_of_small {n : Nat} (hn : n < 2 ^ 31) : i32 n = n := by
  unfold i32
  rw [u32_of_lt (by omega), if_pos hn]

theorem strictStep_of_ne {call : ByteFiles.Call UInt8}
    (hempty : call.isEmpty = false) : ref.strictStep call = ref.step call := by
  rw [ByteFiles.State.strictStep, hempty]
  rfl

theorem fileCall_read {self f len : Nat} (href : Refines k.store ref)
    (hcall : fileCall k (.read self f len) = some (event, k')) :
    ∃ ref', ref.strictStep event.1 = some (event.2, ref') ∧
      Refines k'.store ref' := by
  rw [fileCall] at hcall
  split_ifs at hcall with hlive hlen
  · obtain ⟨rfl, rfl⟩ := Prod.mk.inj (Option.some.inj hcall)
    subst hlen
    exact ⟨ref, rfl, href⟩
  have hfile := cells_of_isLive hlive
  obtain ⟨hoffset, -, -, ino, hregular⟩ := href.files.files f hfile
  have hsize := href.bytes.size _ ino hregular
  have hsmall := href.bytes.small _ ino hregular
  obtain ⟨answer, hread, hanswer⟩ := Option.bind_eq_some_iff.mp hcall
  obtain ⟨result, hresult, hevent⟩ := Option.map_eq_some_iff.mp hanswer
  obtain ⟨rfl, rfl⟩ := Prod.mk.inj hevent
  have hstill := vfsRead_still (href.bytes.inv.files f hfile) hread
  unfold vfsRead at hread
  simp only [hregular.ops, href.bytes.ramfsRead_eq hregular] at hread
  generalize hgot : ((ref.files (k.store.files f).vnode).drop
    (k.store.files f).offset).take len = bytes at hread
  have hlength : bytes.length ≤ (ref.files (k.store.files f).vnode).length -
      (k.store.files f).offset := by
    rw [← hgot, List.length_take, List.length_drop]
    exact Nat.min_le_right _ _
  obtain rfl := Option.some.inj hread
  rw [i32_of_small (by omega)] at hresult hstill ⊢
  obtain rfl := Option.some.inj hresult
  refine ⟨ref.seek f ((k.store.files f).offset + bytes.length)
    ⟨(k.store.files f).vnode, (k.store.files f).offset,
      (k.store.files f).flags &&& oAppend != 0⟩, ?_, ?_⟩
  · have hempty : (ByteFiles.Call.read f len : ByteFiles.Call UInt8).isEmpty =
        false := beq_false_of_ne hlen
    rw [strictStep_of_ne hempty, ByteFiles.State.step,
      href.descriptor hfile, Option.map_some]
    dsimp only
    rw [hgot]
  · unfold readDone at hstill ⊢
    dsimp only at hstill ⊢
    split_ifs at hstill ⊢ with hpos
    · have hnext : u32 ((k.store.files f).offset +
          (bytes.length : Int).toNat) =
          (k.store.files f).offset + bytes.length := by
        rw [Int.toNat_natCast]
        exact u32_of_lt (by omega)
      rw [hnext] at hstill ⊢
      refine href.seek hfile ?_ hstill rfl
        (fun g hg => Function.update_of_ne hg ..) ?_ (Function.update_self ..)
      · exact (@setFile_quiet k.store href.typed f { k.store.files f with
          offset := (k.store.files f).offset + bytes.length } rfl rfl).typed
      · omega
    · have hzero : bytes.length = 0 := by omega
      rw [hzero]
      exact href.seek hfile href.typed hstill rfl (fun _ _ => rfl) hoffset rfl

end Reading

section Writing

variable {s : Store} {ref : ByteFiles.State UInt8} {k k' : Kernel}
  {event : FileEvent} {self f len : Nat} {src : Nat → UInt8}

theorem seekAppend_files (s : Store) (f : Nat) : (seekAppend s f).files f =
    { s.files f with offset := writeOffset s f } ∧
      ∀ g, g ≠ f → (seekAppend s f).files g = s.files g := by
  unfold writeOffset seekAppend
  dsimp only
  split_ifs
  · refine ⟨?_, fun g hg => Function.update_of_ne hg ..⟩
    simp only [Store.setFile, Function.update_self]
  · exact ⟨rfl, fun _ _ => rfl⟩

/-- A descriptor stands where the write starts. -/
theorem writeOffset_eq (s : Store) (f : Nat) : writeOffset s f =
    if (s.files f).flags &&& oAppend != 0 then
      (s.vnodes (s.files f).vnode).size else (s.files f).offset := by
  unfold writeOffset seekAppend
  dsimp only
  simp only [bne_iff_ne]
  split_ifs
  · simp only [Store.setFile, Function.update_self]
  · rfl

/-- The buffer fails to grow exactly if there is no memory for it. -/
theorem ramfsGrow_refused_iff {buf : Option Ref} {grown : Store}
    (hgrow : ramfsGrow (seekAppend k.store f) (k.store.files f).vnode
      (u32 (writeOffset k.store f + len)) = some (buf, grown)) :
    outOfMemory k.store f len = true ↔ buf = none := by
  unfold outOfMemory
  cases ramfsGrow_rebuffers hgrow with
  | fits hroom => simp [hroom]
  | refused hroom hmalloc => simp [hroom, hmalloc]
  | moved _ _ _ _ _ hmalloc => simp [hmalloc]

theorem writeDone_files {n : Int} (hn : 0 < n) (k : Kernel) (f : Nat) :
    (writeDone k f n).store.files f = { k.store.files f with
        offset := u32 ((k.store.files f).offset + n.toNat) } ∧
      ∀ g, g ≠ f → (writeDone k f n).store.files g = k.store.files g := by
  unfold writeDone
  dsimp only
  rw [if_pos hn]
  split_ifs
  · exact ⟨Function.update_self .., fun g hg => Function.update_of_ne hg ..⟩
  · exact ⟨Function.update_self .., fun g hg => Function.update_of_ne hg ..⟩

theorem seekAppend_vnodes (s : Store) (f : Nat) :
    (seekAppend s f).vnodes = s.vnodes := by
  unfold seekAppend
  dsimp only
  split_ifs
  · rfl
  · rfl

theorem seekAppend_cells (s : Store) (f : Nat) :
    (seekAppend s f).cells = s.cells := by
  unfold seekAppend
  dsimp only
  split_ifs
  · rfl
  · rfl

/-- A splice holds the stored bytes. -/
theorem held_splice {v offset : Nat} (hoffset : offset ≤ (ref.files v).length)
    (src : Nat → UInt8) (len : Nat)
    {descriptors : Nat → Option ByteFiles.Descriptor} :
    held ⟨Function.update ref.files v (ByteFiles.splice (ref.files v)
      ((List.range len).map src) offset), descriptors⟩ =
      Function.update (held ref) v (stored (held ref v) src len offset) := by
  funext w i
  by_cases hw : w = v
  · subst hw
    simp only [held, Function.update_self, stored]
    rw [ByteFiles.getD_splice 0 hoffset, List.length_map, List.length_range]
    split_ifs with hinside
    · rw [List.getD_eq_getElem?_getD, List.getElem?_map,
        List.getElem?_range (by omega)]
      rfl
    · rfl
  · simp only [held, Function.update_of_ne hw]

/-- The files after a write that has gone through. -/
theorem HoldsBytes.write {ino : Nat} (hbytes : HoldsBytes k.store ref)
    (hlive : k.store.cells f = some .file)
    (hregular : Regular k.store (k.store.files f).vnode ino) (hlen : len ≠ 0)
    (hoffset : writeOffset k.store f ≤
      (k.store.vnodes (k.store.files f).vnode).size)
    (hsmall : writeOffset k.store f + len < 2 ^ 31)
    {answer : Outcome × Kernel}
    (hwrite : vfsWrite k self f src len = some answer)
    (hmemory : outOfMemory k.store f len = false)
    (descriptors : Nat → Option ByteFiles.Descriptor) :
    HoldsBytes answer.2.store ⟨Function.update ref.files
      (k.store.files f).vnode (ByteFiles.splice
        (ref.files (k.store.files f).vnode) ((List.range len).map src)
        (writeOffset k.store f)), descriptors⟩ ∧
      ∀ w ino, Regular k.store w ino → Regular answer.2.store w ino := by
  have hsize := hbytes.size _ ino hregular
  rcases vfsWrite_regular hbytes.inv hregular (Nat.pos_of_ne_zero hlen)
    (by omega) hwrite with ⟨hnone, -⟩ |
      ⟨b, grown, t, hbuffer, hgrows, hfills, hstill⟩
  · obtain ⟨buf, grown, hgrow, -⟩ := vfsWrite_eq_some hregular hwrite
    have hbuf : buf ≠ none := fun hbuf => absurd
      ((ramfsGrow_refused_iff hgrow).mpr hbuf) (by rw [hmemory]; decide)
    obtain ⟨b, rfl⟩ := Option.ne_none_iff_exists'.mp hbuf
    rw [writeBuffer] at hnone
    simp [hregular.ops, hregular.type, hgrow] at hnone
  have hvnode : t.vnodes (k.store.files f).vnode =
      { k.store.vnodes (k.store.files f).vnode with
        size := max (k.store.vnodes (k.store.files f).vnode).size
          (writeOffset k.store f + len) } := by
    rw [hfills.vnode, hgrows.vnodes, seekAppend_vnodes]
  have hothers : ∀ w, w ≠ (k.store.files f).vnode →
      t.vnodes w = k.store.vnodes w := by
    intro w hw
    rw [hfills.others w hw, hgrows.vnodes, seekAppend_vnodes]
  have hiff : ∀ w i, Regular answer.2.store w i ↔ Regular k.store w i :=
    fun w i => hstill.regular_iff.trans (hfills.regular_iff.trans
      (hgrows.regular_iff.trans (seekAppend_still k.store f).regular_iff))
  have hsizes : ∀ w i, Regular answer.2.store w i →
      (answer.2.store.vnodes w).size = (t.vnodes w).size := fun w i h =>
    hstill.size w i (hstill.regular_iff.mp h)
  have hinv : FsInv answer.2.store (written k.store (held ref) f src len) := by
    refine @VfsSystem.step_fsInv ⟨k, held ref⟩ ⟨answer.2, _⟩
      (.write self f src len) hbytes.inv (holesZero_of_le hoffset) ?_ ?_
    · exact decide_eq_true (by dsimp only; omega)
    · have hdead : k.store.isLive .file f ≠ false := by
        simp [Store.isLive, hlive]
      simp only [VfsSystem.step, if_neg hdead, if_neg hlen, hwrite,
        Option.map_some]
      rfl
  rw [written, hbuffer] at hinv
  refine ⟨⟨hbytes.toSized.change hiff ?_ ?_, ?_⟩, fun w i => (hiff w i).mpr⟩
  · intro w i hw
    dsimp only
    rw [hsizes w i ((hiff w i).mpr hw)]
    have hold := hbytes.small w i hw
    by_cases hwv : w = (k.store.files f).vnode
    · subst hwv
      rw [hvnode, Function.update_self,
        ByteFiles.length_splice (hoffset.trans hsize.ge), List.length_map,
        List.length_range, hsize]
      exact ⟨rfl, Nat.max_lt.mpr ⟨hold, hsmall⟩⟩
    · rw [hothers w hwv, Function.update_of_ne hwv]
      exact ⟨hbytes.size w i hw, hold⟩
  · intro w hnot
    refine Function.update_of_ne ?_ ..
    rintro rfl
    exact hnot ino hregular
  · rw [held_splice (hoffset.trans hsize.ge)]
    exact hinv

theorem Refines.writeOffset_lt (href : Refines k.store ref)
    (hlive : k.store.cells f = some .file) : writeOffset k.store f < 2 ^ 31 ∧
      writeOffset k.store f = if (k.store.files f).flags &&& oAppend != 0
        then (ref.files (k.store.files f).vnode).length
        else (k.store.files f).offset := by
  obtain ⟨hoffset, -, -, ino, hregular⟩ := href.files.files f hlive
  have hsmall := href.bytes.small _ ino hregular
  rw [writeOffset_eq, href.bytes.size _ ino hregular]
  refine ⟨?_, rfl⟩
  split_ifs
  · exact hsmall
  · exact hoffset

/-- A write for which there is no memory moves the offset of an `O_APPEND`
file, and nothing else. -/
theorem Refines.refused (href : Refines k.store ref)
    (hlive : k.store.cells f = some .file) :
    Refines (seekAppend k.store f).refuse (ref.seek f (writeOffset k.store f)
      ⟨(k.store.files f).vnode, (k.store.files f).offset,
        (k.store.files f).flags &&& oAppend != 0⟩) := by
  have hquiet := (@seekAppend_transfers False k.store f).quiet href.typed
  obtain ⟨hfile, hothers⟩ := seekAppend_files k.store f
  exact href.seek hlive (refuse_quiet hquiet.typed).typed
    ((seekAppend_still k.store f).trans (refuse_still _))
    (seekAppend_cells k.store f) hothers (href.writeOffset_lt hlive).1 hfile

theorem Refines.write (href : Refines k.store ref)
    (hlive : k.store.cells f = some .file) (hlen : len ≠ 0)
    (hoffset : writeOffset k.store f ≤
      (k.store.vnodes (k.store.files f).vnode).size)
    (hsmall : writeOffset k.store f + len < 2 ^ 31)
    {answer : Outcome × Kernel}
    (hwrite : vfsWrite k self f src len = some answer)
    (hmemory : outOfMemory k.store f len = false) :
    answer.1 = .ret len .none ∧
      Refines answer.2.store (ByteFiles.State.seek { ref with
        files := Function.update ref.files (k.store.files f).vnode
          (ByteFiles.splice (ref.files (k.store.files f).vnode)
            ((List.range len).map src) (writeOffset k.store f)) } f
        (writeOffset k.store f + len) ⟨(k.store.files f).vnode,
          (k.store.files f).offset,
          (k.store.files f).flags &&& oAppend != 0⟩) := by
  obtain ⟨-, honce, hnotFile, ino, hregular⟩ := href.files.files f hlive
  have hbytes := href.bytes.write hlive hregular hlen hoffset hsmall hwrite
    hmemory (Function.update ref.descriptors f (some
      ⟨(k.store.files f).vnode, writeOffset k.store f + len,
        (k.store.files f).flags &&& oAppend != 0⟩))
  have hdone := (vfsWrite_transfers hwrite).quiet href.typed
  obtain ⟨buf, grown, hgrow, hend⟩ := vfsWrite_eq_some hregular hwrite
  rcases hend with ⟨hnone, -⟩ | ⟨b, -, rfl⟩
  · rw [(ramfsGrow_refused_iff hgrow).mpr hnone] at hmemory
    cases hmemory
  rw [i32_of_small (by omega)] at hbytes hdone ⊢
  refine ⟨rfl, ?_⟩
  -- what happens to the table of files on the way
  have hstill := seekAppend_still k.store f
  have hfits : u32 (writeOffset k.store f + len) = writeOffset k.store f + len :=
    u32_of_lt (by omega)
  have hsought := (ramfsGrow_grows (href.bytes.inv.still hstill)
    (hstill.regular_iff.mpr hregular) (by omega) hgrow).files
  have hfilled := ramfsFill_fills grown (k.store.files f).vnode b src len
    (writeOffset k.store f) (u32 (writeOffset k.store f + len))
  generalize ramfsFill grown (k.store.files f).vnode b src len
    (writeOffset k.store f) (u32 (writeOffset k.store f + len)) = filled
    at hfilled hdone hbytes ⊢
  obtain ⟨hseekFile, hseekOthers⟩ := seekAppend_files k.store f
  obtain ⟨hlast, hothers⟩ := writeDone_files (Int.natCast_pos.mpr
    (Nat.pos_of_ne_zero hlen)) (k.setStore filled) f
  have hbefore : (k.setStore filled).store.files f =
      { k.store.files f with offset := writeOffset k.store f } := by
    change filled.files f = _
    rw [hfilled.files, hsought, hseekFile]
  rw [hbefore, Int.toNat_natCast] at hlast
  dsimp only at hlast
  rw [hfits] at hlast
  refine ⟨hdone.typed, hbytes.1, href.files.seek hlive hdone.harmless.cells
    (fun v => hdone.harmless.notFile) hbytes.2 ?_ hsmall hlast _⟩
  intro g hg
  rw [hothers g hg]
  change filled.files g = _
  rw [hfilled.files, hsought, hseekOthers g hg]

/-- A write is answered as a write to a byte sequence. -/
theorem fileCall_write {log : List FileEvent} (href : Refines k.store ref)
    (hcontract : inContract ⟨k, log⟩ (.write self f src len) = true)
    (hcall : fileCall k (.write self f src len) = some (event, k')) :
    ∃ ref', ref.strictStep event.1 = some (event.2, ref') ∧
      Refines k'.store ref' := by
  rw [fileCall] at hcall
  split_ifs at hcall with hlive hlen
  · obtain ⟨rfl, rfl⟩ := Prod.mk.inj (Option.some.inj hcall)
    subst hlen
    exact ⟨ref, rfl, href⟩
  have hfile := cells_of_isLive hlive
  have hempty : (ByteFiles.Call.write f ((List.range len).map src)
      (outOfMemory k.store f len)).isEmpty = false := by
    cases len with
    | zero => exact absurd rfl hlen
    | succ n => simp [ByteFiles.Call.isEmpty, List.range_succ]
  obtain ⟨hstart, hwhere⟩ := href.writeOffset_lt hfile
  obtain ⟨answer, hwrite, hanswer⟩ := Option.bind_eq_some_iff.mp hcall
  obtain ⟨result, hresult, hevent⟩ := Option.map_eq_some_iff.mp hanswer
  obtain ⟨rfl, rfl⟩ := Prod.mk.inj hevent
  obtain ⟨-, -, -, ino, hregular⟩ := href.files.files f hfile
  dsimp only
  rw [strictStep_of_ne hempty, ByteFiles.State.step, href.descriptor hfile,
    Option.map_some]
  dsimp only
  rw [← hwhere]
  cases hmemory : outOfMemory k.store f len with
  | true =>
      obtain ⟨buf, grown, hgrow, hend⟩ := vfsWrite_eq_some hregular hwrite
      obtain rfl := (ramfsGrow_refused_iff hgrow).mp hmemory
      obtain rfl := ramfsGrow_none hgrow
      rcases hend with ⟨-, rfl⟩ | ⟨b, hb, -⟩
      · obtain rfl := Option.some.inj hresult
        exact ⟨_, rfl, href.refused hfile⟩
      · cases hb
  | false =>
      simp only [inContract, hmemory, Bool.or_eq_true, Bool.and_eq_true,
        decide_eq_true_eq, beq_iff_eq, Bool.false_or, hlen, false_or]
        at hcontract
      obtain ⟨hreturn, hafter⟩ := href.write hfile hlen hcontract.1 hcontract.2
        hwrite hmemory
      rw [hreturn] at hresult
      obtain rfl := Option.some.inj hresult
      rw [if_neg (by decide), List.length_map, List.length_range]
      exact ⟨_, rfl, hafter⟩

end Writing

section Closing

variable {s : Store} {ref : ByteFiles.State UInt8} {k k' : Kernel}
  {event : FileEvent} {f : Nat}

/-- The last reference to a file of the ramfs is dropped. -/
theorem vfsClose_frees (htyped : Typed s) (hsane : Sane s (s.files f).vnode)
    (hnotFile : NotFile s (s.files f).vnode)
    (honce : (s.files f).refcount = 1) : ∃ s', vfsClose s f = ([], s') ∧
      Typed s' ∧ FsStill s s' ∧ s'.cells = Function.update s.cells f none ∧
      ∀ g, g ≠ f → s'.files g = s.files g := by
  have hset := @setFile_still s f { s.files f with refcount := 0 } rfl
  have htyped' : Typed (s.setFile f { s.files f with refcount := 0 }) :=
    ⟨htyped.unborn, htyped.ends, htyped.bufs, htyped.children, htyped.mounts,
      htyped.stdin, htyped.stdout, htyped.stderr⟩
  have hvnode : ((s.setFile f { s.files f with refcount := 0 }).files f).vnode =
      (s.files f).vnode := by
    simp only [Store.setFile, Function.update_self]
  have hreleases := vfsRelease_releases htyped' hvnode hnotFile
  have hrelease : vfsRelease (s.setFile f { s.files f with refcount := 0 }) f =
      ([], (vnodeUnref (s.setFile f { s.files f with refcount := 0 })
        (s.files f).vnode).kfree f) := by
    unfold vfsRelease
    dsimp only
    rw [hvnode, closeHandler_of_notPipe (hset.toFsSame.sane hsane).notPipe]
  have hunref : FsStill (s.setFile f { s.files f with refcount := 0 })
      (vnodeUnref (s.setFile f { s.files f with refcount := 0 })
        (s.files f).vnode) :=
    setVnode_still rfl rfl rfl fun _ _ => rfl
  rw [hrelease] at hreleases
  refine ⟨_, ?_, hreleases.typed, hset.trans (hunref.trans (kfree_still _ f)),
    rfl, fun g hg => Function.update_of_ne hg ..⟩
  unfold vfsClose
  dsimp only
  rw [honce]
  exact hrelease

theorem fileCall_close (href : Refines k.store ref)
    (hcall : fileCall k (.close f) = some (event, k')) :
    ∃ ref', ref.strictStep event.1 = some (event.2, ref') ∧
      Refines k'.store ref' := by
  rw [fileCall] at hcall
  split_ifs at hcall with hlive
  have hfile := cells_of_isLive hlive
  obtain ⟨-, honce, hvnode, -⟩ := href.files.files f hfile
  obtain ⟨s', hclose, htyped, hstill, hcells, hothers⟩ := vfsClose_frees
    href.typed (href.bytes.inv.files f hfile) hvnode honce
  rw [hclose] at hcall
  obtain ⟨rfl, rfl⟩ := Prod.mk.inj (Option.some.inj hcall)
  have hgone : s'.cells f ≠ some .file := by
    rw [hcells, Function.update_self]
    exact Option.some_ne_none _ ∘ Eq.symm
  have hkept : ∀ g, g ≠ f → s'.cells g = k.store.cells g := by
    intro g hg
    rw [hcells, Function.update_of_ne hg]
  have hnotFile : ∀ v, NotFile k.store v → NotFile s' v := by
    intro v hv
    refine ⟨hv.1.trans_le hstill.next, ?_⟩
    by_cases hvf : v = f
    · rw [hvf]
      exact hgone
    · rw [hkept v hvf]
      exact hv.2
  have hdescriptor : descriptorOf s' f = none := if_neg hgone
  have hfiles := @HoldsFiles.update k.store s' ref f href.files
    (fun g hg => by rw [hkept g hg]) (fun g hg _ => hothers g hg) hnotFile
    (fun v ino => hstill.regular_iff.mpr) (fun h => absurd h hgone) ref.files
  rw [hdescriptor] at hfiles
  refine ⟨_, ?_, htyped, href.bytes.still hstill, hfiles⟩
  rw [strictStep_of_ne rfl, ByteFiles.State.step, href.descriptor hfile]
  rfl

end Closing

end Orion
