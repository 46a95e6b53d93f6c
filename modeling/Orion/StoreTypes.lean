/-
Pointers of the store that code follows or frees never lead to an open file.
Functions that open and close nothing keep it so, leave the reference counts
of files and vnodes alone, and do not touch the ends of the pipes.
-/
import Orion.PipeCreate

namespace Orion

open MachineInt

theorem kmalloc_cases (s : Store) (kind : ObjKind) :
    s.kmalloc kind = (none, s.refuse) ∨
      s.kmalloc kind = (some s.next, s.grant kind) := by
  unfold Store.kmalloc
  split_ifs
  · exact .inl rfl
  · exact .inr rfl

theorem kfree_cells_some {s : Store} {ref q : Ref} {kind : ObjKind}
    (hcell : (s.kfree ref).cells q = some kind) : s.cells q = some kind := by
  by_cases hq : q = ref
  · subst hq
    simp [Store.kfree] at hcell
  · exact (Function.update_of_ne hq _ _).symm.trans hcell

theorem grant_cells_some {s : Store} {q : Ref} {kind kind' : ObjKind}
    (hne : kind ≠ kind') (hcell : (s.grant kind).cells q = some kind') :
    s.cells q = some kind' := by
  by_cases hq : q = s.next
  · subst hq
    simp only [Store.grant, Function.update_self, Option.some.injEq] at hcell
    exact absurd hcell hne
  · exact (Function.update_of_ne hq _ _).symm.trans hcell

/-- An old reference that is not, or no longer, an open file. -/
def NotFile (s : Store) (ref : Nat) : Prop :=
  ref < s.next ∧ s.cells ref ≠ some .file

def VfsOps.IsPipe (ops : VfsOps) : Prop := ops = .pipeRead ∨ ops = .pipeWrite

/-- The pointers that are followed or freed. -/
structure Typed (s : Store) : Prop where
  unborn : s.Unborn
  ends : ∀ v e, (s.vnodes v).ops.IsPipe → (s.vnodes v).data = some e →
    NotFile s e ∧ NotFile s (s.ends e).pipe
  bufs : ∀ ino b, (s.inodes ino).buf = some b → NotFile s b
  children : ∀ ino, ∀ entry ∈ (s.inodes ino).children, NotFile s entry.vnode
  mounts : ∀ mount ∈ s.mounts, NotFile s mount.root
  stdin : ∀ v ∈ s.stdinVnode, NotFile s v
  stdout : ∀ v ∈ s.stdoutVnode, NotFile s v
  stderr : ∀ v ∈ s.stderrVnode, NotFile s v

/-- No file is opened or closed and no count changes; new vnodes start at
zero. -/
structure Harmless (s s' : Store) : Prop where
  next : s.next ≤ s'.next
  cells : ∀ ref, s'.cells ref = some .file ↔ s.cells ref = some .file
  files : ∀ f, s.cells f = some .file →
    (s'.files f).vnode = (s.files f).vnode ∧
      (s'.files f).refcount = (s.files f).refcount
  vnodes : ∀ v : Nat, s'.cells v = some .vnode →
    (s.cells v = some .vnode ∧
      (s'.vnodes v).refcount = (s.vnodes v).refcount) ∨
    (s.next ≤ v ∧ (s'.vnodes v).refcount = 0)

theorem Harmless.of_eq {s s' : Store} (hnext : s'.next = s.next)
    (hcells : s'.cells = s.cells) (hfiles : s'.files = s.files)
    (hvnodes : s'.vnodes = s.vnodes) : Harmless s s' := by
  refine ⟨hnext.ge, ?_, ?_, ?_⟩
  · intro ref
    rw [hcells]
  · intro f _
    rw [hfiles]
    exact ⟨rfl, rfl⟩
  · intro v halive
    rw [hcells] at halive
    rw [hvnodes]
    exact .inl ⟨halive, rfl⟩

theorem Harmless.refl (s : Store) : Harmless s s :=
  Harmless.of_eq rfl rfl rfl rfl

theorem Harmless.trans {s s' s'' : Store} (hfirst : Harmless s s')
    (hsecond : Harmless s' s'') : Harmless s s'' := by
  constructor
  · exact hfirst.next.trans hsecond.next
  · intro ref
    rw [hsecond.cells, hfirst.cells]
  · intro f hlive
    obtain ⟨hvnode, hcount⟩ := hfirst.files f hlive
    obtain ⟨hvnode', hcount'⟩ := hsecond.files f ((hfirst.cells f).mpr hlive)
    exact ⟨hvnode'.trans hvnode, hcount'.trans hcount⟩
  · intro v halive
    rcases hsecond.vnodes v halive with ⟨hmid, hcount⟩ | ⟨hfresh, hzero⟩
    · rcases hfirst.vnodes v hmid with ⟨hold, hcount'⟩ | ⟨hfresh, hzero⟩
      · exact .inl ⟨hold, hcount.trans hcount'⟩
      · exact .inr ⟨hfresh, hcount.trans hzero⟩
    · exact .inr ⟨hfirst.next.trans hfresh, hzero⟩

theorem Harmless.notFile {s s' : Store} {ref : Nat} (hharmless : Harmless s s')
    (href : NotFile s ref) : NotFile s' ref :=
  ⟨Nat.lt_of_lt_of_le href.1 hharmless.next,
    mt (hharmless.cells ref).mp href.2⟩

/-- The pointer invariant follows a change that makes no file of an old
reference, if the pointers that are new lead to no file. -/
theorem Typed.of_notFile {s s' : Store} (htyped : Typed s)
    (hnotFile : ∀ ref, NotFile s ref → NotFile s' ref) (hunborn : s'.Unborn)
    (hvnodes : ∀ v e, (s'.vnodes v).ops.IsPipe → (s'.vnodes v).data = some e →
      NotFile s' e ∧ NotFile s' (s'.ends e).pipe)
    (hinodes : ∀ ino,
      (∀ b, (s'.inodes ino).buf = some b → NotFile s' b) ∧
      ∀ entry ∈ (s'.inodes ino).children, NotFile s' entry.vnode)
    (hmounts : s'.mounts = s.mounts) (hstdin : s'.stdinVnode = s.stdinVnode)
    (hstdout : s'.stdoutVnode = s.stdoutVnode)
    (hstderr : s'.stderrVnode = s.stderrVnode) : Typed s' := by
  refine ⟨hunborn, hvnodes, fun ino => (hinodes ino).1,
    fun ino => (hinodes ino).2, ?_, ?_, ?_, ?_⟩
  · rw [hmounts]
    exact fun mount hmem => hnotFile _ (htyped.mounts mount hmem)
  · rw [hstdin]
    exact fun v hmem => hnotFile v (htyped.stdin v hmem)
  · rw [hstdout]
    exact fun v hmem => hnotFile v (htyped.stdout v hmem)
  · rw [hstderr]
    exact fun v hmem => hnotFile v (htyped.stderr v hmem)

/-- The same when the pointers are the old ones. -/
theorem Typed.of_same {s s' : Store} (htyped : Typed s)
    (hnotFile : ∀ ref, NotFile s ref → NotFile s' ref) (hunborn : s'.Unborn)
    (hvnodes : ∀ v, (s'.vnodes v).ops = (s.vnodes v).ops ∧
      (s'.vnodes v).data = (s.vnodes v).data)
    (hends : s'.ends = s.ends) (hinodes : s'.inodes = s.inodes)
    (hmounts : s'.mounts = s.mounts) (hstdin : s'.stdinVnode = s.stdinVnode)
    (hstdout : s'.stdoutVnode = s.stdoutVnode)
    (hstderr : s'.stderrVnode = s.stderrVnode) : Typed s' := by
  apply htyped.of_notFile hnotFile hunborn _ _ hmounts hstdin hstdout hstderr
  · intro v e hops hdata
    rw [(hvnodes v).1] at hops
    rw [(hvnodes v).2] at hdata
    rw [hends]
    obtain ⟨hend, hpipe⟩ := htyped.ends v e hops hdata
    exact ⟨hnotFile e hend, hnotFile _ hpipe⟩
  · rw [hinodes]
    exact fun ino => ⟨fun b hb => hnotFile b (htyped.bufs ino b hb),
      fun entry hmem => hnotFile _ (htyped.children ino entry hmem)⟩

theorem Typed.of_harmless {s s' : Store} (htyped : Typed s)
    (hharmless : Harmless s s') (hunborn : s'.Unborn)
    (hvnodes : ∀ v e, (s'.vnodes v).ops.IsPipe → (s'.vnodes v).data = some e →
      NotFile s' e ∧ NotFile s' (s'.ends e).pipe)
    (hinodes : ∀ ino,
      (∀ b, (s'.inodes ino).buf = some b → NotFile s' b) ∧
      ∀ entry ∈ (s'.inodes ino).children, NotFile s' entry.vnode)
    (hmounts : s'.mounts = s.mounts) (hstdin : s'.stdinVnode = s.stdinVnode)
    (hstdout : s'.stdoutVnode = s.stdoutVnode)
    (hstderr : s'.stderrVnode = s.stderrVnode) : Typed s' :=
  htyped.of_notFile (fun _ => hharmless.notFile) hunborn hvnodes hinodes hmounts
    hstdin hstdout hstderr

/-- Both ends of a pipe are counted as before. -/
def Pipe.SameEnds (pipe pipe' : Pipe) : Prop :=
  pipe'.readers = pipe.readers ∧ pipe'.writers = pipe.writers

section PipeEnds

theorem Pipe.SameEnds.refl (pipe : Pipe) : pipe.SameEnds pipe := ⟨rfl, rfl⟩

theorem Pipe.SameEnds.trans {pipe pipe' pipe'' : Pipe}
    (hfirst : pipe.SameEnds pipe') (hsecond : pipe'.SameEnds pipe'') :
    pipe.SameEnds pipe'' :=
  ⟨hsecond.1.trans hfirst.1, hsecond.2.trans hfirst.2⟩

theorem pipeWakePeer_sameEnds (pipe : Pipe) (wokeByWrite : Bool) :
    pipe.SameEnds (pipeWakePeer pipe wokeByWrite).2 := by
  unfold pipeWakePeer
  dsimp only
  split_ifs <;> exact ⟨rfl, rfl⟩

theorem pipeBlock_sameEnds (pipe : Pipe) (isWrite : Bool) (pid : Nat) :
    pipe.SameEnds (pipeBlock pipe isWrite pid) := by
  unfold pipeBlock
  split_ifs <;> exact ⟨rfl, rfl⟩

theorem readBatch_sameEnds (call : PipeCall) (batch : Nat) :
    call.pipe.SameEnds (readBatch call batch).pipe :=
  pipeWakePeer_sameEnds _ false

theorem writeBatch_sameEnds (len : Nat) (src : Nat → UInt8) (call : PipeCall) :
    call.pipe.SameEnds (writeBatch len src call).pipe :=
  pipeWakePeer_sameEnds _ true

theorem pipeReadLoop_sameEnds (len fuel : Nat) (call : PipeCall) :
    call.pipe.SameEnds (pipeReadLoop len fuel call).2.pipe := by
  induction fuel generalizing call with
  | zero => exact .refl _
  | succ fuel ih =>
      rw [pipeReadLoop]
      split_ifs
      · exact .refl _
      · exact .refl _
      · exact (readBatch_sameEnds call _).trans (ih _)
      · exact .refl _

theorem pipeWriteLoop_sameEnds (len : Nat) (src : Nat → UInt8) (fuel : Nat)
    (call : PipeCall) :
    call.pipe.SameEnds (pipeWriteLoop len src fuel call).2.pipe := by
  induction fuel generalizing call with
  | zero => exact .refl _
  | succ fuel ih =>
      rw [pipeWriteLoop]
      split_ifs
      · exact .refl _
      · exact .refl _
      · exact (writeBatch_sameEnds len src call).trans (ih _)
      · exact .refl _

theorem pipeWriteResume_sameEnds (len : Nat) (src : Nat → UInt8)
    (call : PipeCall) :
    call.pipe.SameEnds (pipeWriteResume len src call).2.pipe := by
  unfold pipeWriteResume
  split_ifs
  · exact .refl _
  · exact .refl _
  · exact (writeBatch_sameEnds len src call).trans
      (pipeWriteLoop_sameEnds len src _ _)

end PipeEnds

/-- There is no new pipe, and what leads from an old vnode to a pipe is as it
was. -/
structure SamePipes (s s' : Store) : Prop where
  pipes : ∀ p, s'.cells p = some .pipe →
    s.cells p = some .pipe ∧ (s.pipes p).SameEnds (s'.pipes p)
  vnodes : ∀ v : Nat, v < s.next → (s'.vnodes v).ops = (s.vnodes v).ops ∧
    (s'.vnodes v).data = (s.vnodes v).data
  ends : ∀ e : Nat, e < s.next → s'.ends e = s.ends e

theorem SamePipes.of_eq {s s' : Store} (hcells : s'.cells = s.cells)
    (hpipes : s'.pipes = s.pipes) (hvnodes : s'.vnodes = s.vnodes)
    (hends : s'.ends = s.ends) : SamePipes s s' := by
  refine ⟨?_, ?_, ?_⟩
  · intro p hpipe
    rw [hcells] at hpipe
    rw [hpipes]
    exact ⟨hpipe, rfl, rfl⟩
  · intro v _
    rw [hvnodes]
    exact ⟨rfl, rfl⟩
  · intro e _
    rw [hends]

theorem SamePipes.trans {s s' s'' : Store} (hnext : s.next ≤ s'.next)
    (hfirst : SamePipes s s') (hsecond : SamePipes s' s'') :
    SamePipes s s'' := by
  refine ⟨?_, ?_, ?_⟩
  · intro p hpipe
    obtain ⟨hmid, hreaders, hwriters⟩ := hsecond.pipes p hpipe
    obtain ⟨hold, hreaders', hwriters'⟩ := hfirst.pipes p hmid
    exact ⟨hold, hreaders.trans hreaders', hwriters.trans hwriters'⟩
  · intro v hv
    obtain ⟨hops, hdata⟩ := hsecond.vnodes v (Nat.lt_of_lt_of_le hv hnext)
    obtain ⟨hops', hdata'⟩ := hfirst.vnodes v hv
    exact ⟨hops.trans hops', hdata.trans hdata'⟩
  · intro e he
    exact (hsecond.ends e (Nat.lt_of_lt_of_le he hnext)).trans
      (hfirst.ends e he)

/-- From a typed store, a typed store without harm. -/
structure Gentle (s s' : Store) : Prop where
  typed : Typed s'
  harmless : Harmless s s'

/-- Besides, the pipes are the same. -/
structure Quiet (s s' : Store) : Prop extends Gentle s s' where
  pipes : SamePipes s s'

section Primitives

variable {s s' s'' : Store}

theorem Gentle.trans (hfirst : Gentle s s') (hsecond : Gentle s' s'') :
    Gentle s s'' :=
  ⟨hsecond.typed, hfirst.harmless.trans hsecond.harmless⟩

theorem Quiet.refl (htyped : Typed s) : Quiet s s :=
  ⟨⟨htyped, Harmless.refl s⟩, SamePipes.of_eq rfl rfl rfl rfl⟩

theorem Quiet.trans (hfirst : Quiet s s') (hsecond : Quiet s' s'') :
    Quiet s s'' :=
  ⟨hfirst.toGentle.trans hsecond.toGentle,
    hfirst.pipes.trans hfirst.harmless.next hsecond.pipes⟩

theorem Typed.inodes_of_harmless (htyped : Typed s)
    (hharmless : Harmless s s') (ino : Ref) :
    (∀ b, (s.inodes ino).buf = some b → NotFile s' b) ∧
      ∀ entry ∈ (s.inodes ino).children, NotFile s' entry.vnode :=
  ⟨fun b hbuf => hharmless.notFile (htyped.bufs ino b hbuf),
    fun entry hmem => hharmless.notFile (htyped.children ino entry hmem)⟩

theorem Typed.ends_of_harmless (htyped : Typed s) (hharmless : Harmless s s')
    {v e : Ref} (hops : (s.vnodes v).ops.IsPipe)
    (hdata : (s.vnodes v).data = some e) :
    NotFile s' e ∧ NotFile s' (s.ends e).pipe :=
  ⟨hharmless.notFile (htyped.ends v e hops hdata).1,
    hharmless.notFile (htyped.ends v e hops hdata).2⟩

theorem refuse_quiet (htyped : Typed s) : Quiet s s.refuse :=
  ⟨⟨⟨htyped.unborn, htyped.ends, htyped.bufs, htyped.children, htyped.mounts,
    htyped.stdin, htyped.stdout, htyped.stderr⟩,
    Harmless.of_eq rfl rfl rfl rfl⟩, SamePipes.of_eq rfl rfl rfl rfl⟩

theorem setPipe_gentle (htyped : Typed s) (p : Ref) (pipe : Pipe) :
    Gentle s (s.setPipe p pipe) :=
  ⟨⟨htyped.unborn, htyped.ends, htyped.bufs, htyped.children, htyped.mounts,
    htyped.stdin, htyped.stdout, htyped.stderr⟩,
    Harmless.of_eq rfl rfl rfl rfl⟩

theorem setPipe_quiet (htyped : Typed s) {p : Ref} {pipe : Pipe}
    (hsame : (s.pipes p).SameEnds pipe) : Quiet s (s.setPipe p pipe) := by
  refine ⟨setPipe_gentle htyped p pipe, ?_, fun _ _ => ⟨rfl, rfl⟩,
    fun _ _ => rfl⟩
  intro q hpipe
  refine ⟨hpipe, ?_⟩
  by_cases hq : q = p
  · subst hq
    simp only [Store.setPipe, Function.update_self]
    exact hsame
  · simp only [Store.setPipe, Function.update_of_ne hq]
    exact ⟨rfl, rfl⟩

theorem setBytes_quiet (htyped : Typed s) (b : Ref) (bytes : Nat → UInt8) :
    Quiet s (s.setBytes b bytes) :=
  ⟨⟨⟨htyped.unborn, htyped.ends, htyped.bufs, htyped.children, htyped.mounts,
    htyped.stdin, htyped.stdout, htyped.stderr⟩,
    Harmless.of_eq rfl rfl rfl rfl⟩, SamePipes.of_eq rfl rfl rfl rfl⟩

/-- The references after an allocation. -/
theorem Store.Unborn.grant (hunborn : s.Unborn) (kind : ObjKind) :
    (s.grant kind).Unborn := by
  intro ref href
  have hne : ref ≠ s.next := by
    rintro rfl
    exact Nat.not_succ_le_self _ href
  exact (Function.update_of_ne hne _ _).trans
    (hunborn ref (Nat.le_of_succ_le href))

theorem Store.Unborn.kfree (hunborn : s.Unborn) (ref : Ref) :
    (s.kfree ref).Unborn := by
  intro other hother
  cases hcell : (s.kfree ref).cells other with
  | none => rfl
  | some kind =>
      have hold := kfree_cells_some hcell
      rw [hunborn other hother] at hold
      cases hold

theorem grant_gentle (htyped : Typed s) {kind : ObjKind} (hfile : kind ≠ .file)
    (hvnode : kind ≠ .vnode) : Gentle s (s.grant kind) := by
  have hnext : s.cells s.next = none := htyped.unborn _ (Nat.le_refl _)
  have hharmless : Harmless s (s.grant kind) := by
    constructor
    · exact Nat.le_succ _
    · intro ref
      by_cases href : ref = s.next
      · subst href
        simp [Store.grant, hnext, hfile]
      · simp [Store.grant, href]
    · exact fun _ _ => ⟨rfl, rfl⟩
    · exact fun v halive => .inl ⟨grant_cells_some hvnode halive, rfl⟩
  exact ⟨htyped.of_harmless hharmless (htyped.unborn.grant kind)
    (fun _ _ => htyped.ends_of_harmless hharmless)
    (htyped.inodes_of_harmless hharmless) rfl rfl rfl rfl, hharmless⟩

theorem grant_pipes {kind : ObjKind} (hpipe : kind ≠ .pipe) :
    SamePipes s (s.grant kind) :=
  ⟨fun _ hlive => ⟨grant_cells_some hpipe hlive, rfl, rfl⟩,
    fun _ _ => ⟨rfl, rfl⟩, fun _ _ => rfl⟩

theorem grant_quiet (htyped : Typed s) {kind : ObjKind} (hfile : kind ≠ .file)
    (hvnode : kind ≠ .vnode) (hpipe : kind ≠ .pipe) : Quiet s (s.grant kind) :=
  ⟨grant_gentle htyped hfile hvnode, grant_pipes hpipe⟩

theorem kfree_quiet (htyped : Typed s) {ref : Ref} (href : NotFile s ref) :
    Quiet s (s.kfree ref) := by
  have hharmless : Harmless s (s.kfree ref) := by
    constructor
    · exact Nat.le_refl _
    · intro other
      by_cases hsame : other = ref
      · subst hsame
        simp [Store.kfree, href.2]
      · simp [Store.kfree, hsame]
    · exact fun _ _ => ⟨rfl, rfl⟩
    · exact fun v halive => .inl ⟨kfree_cells_some halive, rfl⟩
  exact ⟨⟨htyped.of_harmless hharmless (htyped.unborn.kfree ref)
    (fun _ _ => htyped.ends_of_harmless hharmless)
    (htyped.inodes_of_harmless hharmless) rfl rfl rfl rfl, hharmless⟩,
    fun _ hpipe => ⟨kfree_cells_some hpipe, rfl, rfl⟩, fun _ _ => ⟨rfl, rfl⟩,
    fun _ _ => rfl⟩

theorem kfreeOption_quiet (htyped : Typed s) {ref : Option Ref}
    (href : ∀ r ∈ ref, NotFile s r) : Quiet s (s.kfreeOption ref) := by
  cases ref with
  | none => exact Quiet.refl htyped
  | some r => exact kfree_quiet htyped (href r rfl)

/-- Writing an open file without touching its vnode and its count. -/
theorem setFile_quiet (htyped : Typed s) {f : Ref} {file : File}
    (hvnode : file.vnode = (s.files f).vnode)
    (hcount : file.refcount = (s.files f).refcount) :
    Quiet s (s.setFile f file) := by
  refine ⟨⟨⟨htyped.unborn, htyped.ends, htyped.bufs, htyped.children,
    htyped.mounts, htyped.stdin, htyped.stdout, htyped.stderr⟩,
    Nat.le_refl _, fun _ => Iff.rfl, ?_, fun _ halive => .inl ⟨halive, rfl⟩⟩,
    SamePipes.of_eq rfl rfl rfl rfl⟩
  intro g _
  by_cases hsame : g = f
  · subst hsame
    simp [Store.setFile, hvnode, hcount]
  · simp [Store.setFile, hsame]

/-- Writing a vnode without touching its count and its pipe end. -/
theorem setVnode_gentle (htyped : Typed s) {v : Ref} {vnode : Vnode}
    (hcount : vnode.refcount = (s.vnodes v).refcount)
    (hops : vnode.ops = (s.vnodes v).ops)
    (hdata : vnode.data = (s.vnodes v).data ∨ vnode.data = none) :
    Gentle s (s.setVnode v vnode) := by
  have hharmless : Harmless s (s.setVnode v vnode) := by
    refine ⟨Nat.le_refl _, fun _ => Iff.rfl, fun _ _ => ⟨rfl, rfl⟩, ?_⟩
    intro w halive
    refine .inl ⟨halive, ?_⟩
    by_cases hsame : w = v
    · subst hsame
      simp [Store.setVnode, hcount]
    · simp [Store.setVnode, hsame]
  refine ⟨htyped.of_harmless hharmless htyped.unborn ?_
    (htyped.inodes_of_harmless hharmless) rfl rfl rfl rfl, hharmless⟩
  intro w e hpipe hend
  by_cases hsame : w = v
  · subst hsame
    simp only [Store.setVnode, Function.update_self] at hpipe hend
    rcases hdata with hkept | hnone
    · exact htyped.ends_of_harmless hharmless (hops ▸ hpipe) (hkept ▸ hend)
    · rw [hnone] at hend
      cases hend
  · simp only [Store.setVnode, Function.update_of_ne hsame] at hpipe hend
    exact htyped.ends_of_harmless hharmless hpipe hend

theorem setVnode_quiet (htyped : Typed s) {v : Ref} {vnode : Vnode}
    (hcount : vnode.refcount = (s.vnodes v).refcount)
    (hops : vnode.ops = (s.vnodes v).ops)
    (hdata : vnode.data = (s.vnodes v).data) :
    Quiet s (s.setVnode v vnode) := by
  refine ⟨setVnode_gentle htyped hcount hops (.inl hdata),
    fun p hpipe => ⟨hpipe, rfl, rfl⟩, ?_, fun _ _ => rfl⟩
  intro w _
  by_cases hsame : w = v
  · subst hsame
    simp only [Store.setVnode, Function.update_self]
    exact ⟨hops, hdata⟩
  · simp [Store.setVnode, hsame]

/-- Writing an inode whose pointers lead to no file. -/
theorem setInode_quiet (htyped : Typed s) {ino : Ref} {inode : Inode}
    (hbuf : ∀ b, inode.buf = some b → NotFile s b)
    (hchildren : ∀ entry ∈ inode.children, NotFile s entry.vnode) :
    Quiet s (s.setInode ino inode) := by
  have hharmless : Harmless s (s.setInode ino inode) :=
    Harmless.of_eq rfl rfl rfl rfl
  refine ⟨⟨htyped.of_harmless hharmless htyped.unborn htyped.ends ?_
    rfl rfl rfl rfl, hharmless⟩, SamePipes.of_eq rfl rfl rfl rfl⟩
  intro other
  by_cases hsame : other = ino
  · subst hsame
    simp only [Store.setInode, Function.update_self]
    exact ⟨hbuf, hchildren⟩
  · simp only [Store.setInode, Function.update_of_ne hsame]
    exact ⟨htyped.bufs other, htyped.children other⟩

/-- Writing a pipe end whose pipe is no file. -/
theorem setEnd_gentle (htyped : Typed s) {e : Ref} {pipeEnd : PipeEnd}
    (hpipe : NotFile s pipeEnd.pipe) : Gentle s (s.setEnd e pipeEnd) := by
  have hharmless : Harmless s (s.setEnd e pipeEnd) :=
    Harmless.of_eq rfl rfl rfl rfl
  refine ⟨htyped.of_harmless hharmless htyped.unborn ?_
    (htyped.inodes_of_harmless hharmless) rfl rfl rfl rfl, hharmless⟩
  intro v d hops hdata
  obtain ⟨hend, hold⟩ := htyped.ends v d hops hdata
  refine ⟨hend, ?_⟩
  by_cases hsame : d = e
  · subst hsame
    simp only [Store.setEnd, Function.update_self]
    exact hpipe
  · simp only [Store.setEnd, Function.update_of_ne hsame]
    exact hold

/-- A new pipe end is not yet in any vnode. -/
theorem grant_setEnd_quiet (htyped : Typed s) {pipeEnd : PipeEnd}
    (hpipe : NotFile s pipeEnd.pipe) :
    Quiet s ((s.grant .pipeEnd).setEnd s.next pipeEnd) := by
  have hgrant := @grant_quiet s htyped .pipeEnd (by decide) (by decide)
    (by decide)
  refine ⟨hgrant.toGentle.trans (setEnd_gentle hgrant.typed
    (hgrant.harmless.notFile hpipe)), hgrant.pipes.pipes, hgrant.pipes.vnodes,
    ?_⟩
  intro e he
  exact Function.update_of_ne (Nat.ne_of_lt he) _ _

end Primitives

end Orion
