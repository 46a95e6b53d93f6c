/-
What a failed `SYS_OPEN` leaves behind.  `vfs_open` finds or creates the vnode
and lets the back end truncate it before it asks for the file object, and
`sys_open` looks for a descriptor last; neither is taken back.
-/
import Orion.AccessModes
import Orion.MakeDir

namespace Orion

open MachineInt

/-- The vnode that `vfs_open` opens, if it is there before. -/
def openFinds (s : Store) (path : List UInt8) (flags : UInt32) : Option Ref :=
  match vfsResolve s path with
  | some v => some v
  | none =>
      if flags &&& oCreat = 0 then none
      else
        match parentDir s path with
        | none => none
        | some (dir, leaf) => ramfsLookup s dir leaf

/-- Every regular file has an inode of its own, and paths lead to no pipe
end. -/
structure PlainFiles (s : Store) : Prop where
  born : ∀ v ino, Regular s v ino → v < s.next ∧ ino < s.next
  unique : ∀ v w ino, Regular s v ino → Regular s w ino → v = w
  linked : ∀ v, Linked s v → Sane s v

section Targets

variable {s s' s₁ : Store} {path leaf : List UInt8} {flags : UInt32}
  {dir v ino : Ref}

theorem openTarget_of_finds (hfinds : openFinds s path flags = some v) :
    openTarget s path flags = (some v, s) := by
  unfold openFinds at hfinds
  unfold openTarget
  cases hresolve : vfsResolve s path with
  | some w =>
      rw [hresolve] at hfinds
      rw [Option.some.inj hfinds]
  | none =>
      rw [hresolve] at hfinds
      dsimp only at hfinds ⊢
      split_ifs at hfinds ⊢
      cases hparent : parentDir s path with
      | none =>
          rw [hparent] at hfinds
          cases hfinds
      | some place =>
          obtain ⟨dir, leaf⟩ := place
          rw [hparent] at hfinds
          obtain ⟨parent, -, -, hdir⟩ := parentDir_eq_some hparent
          dsimp only at hfinds ⊢
          rw [ramfsCreate, if_neg (not_not_intro hdir), hfinds]

/-- A path without a vnode: the open fails with the tree as it was, or makes a
vnode and an entry. -/
theorem openTarget_of_missing (htree : FsTree s)
    (hfinds : openFinds s path flags = none) :
    (∃ s₁, openTarget s path flags = (none, s₁) ∧ SameTree s s₁) ∨
      ∃ dir leaf v ino s₀ s₁, flags &&& oCreat ≠ 0 ∧
        parentDir s path = some (dir, leaf) ∧
        openTarget s path flags = (some v, s₁) ∧
        NewVnode s v .file .ramfs (some ino) s₀ ∧
        Links s₀ dir (leaf.take (vfsNameMax - 1)) v s₁ := by
  unfold openFinds at hfinds
  unfold openTarget
  cases hresolve : vfsResolve s path with
  | some w =>
      rw [hresolve] at hfinds
      cases hfinds
  | none =>
      rw [hresolve] at hfinds
      dsimp only at hfinds ⊢
      split_ifs at hfinds ⊢ with hcreat
      · exact .inl ⟨s, rfl, (Unmoved.refl s).sameTree⟩
      cases hparent : parentDir s path with
      | none => exact .inl ⟨s, rfl, (Unmoved.refl s).sameTree⟩
      | some place =>
          obtain ⟨dir, leaf⟩ := place
          rw [hparent] at hfinds
          obtain ⟨parent, -, -, hdir⟩ := parentDir_eq_some hparent
          dsimp only at hfinds ⊢
          have hcreated := ramfsCreate_created htree hdir leaf .file
          generalize ramfsCreate s dir leaf .file = result at hcreated ⊢
          cases hcreated with
          | found hlookup =>
              rw [hfinds] at hlookup
              cases hlookup
          | failed hsame => exact .inl ⟨_, rfl, hsame.sameTree⟩
          | unlinked hnew hsame =>
              exact .inl ⟨_, rfl, (hnew.unmoved hsame).sameTree htree⟩
          | linked hlookup hnew hlinks =>
              exact .inr ⟨dir, leaf, _, _, _, _, hcreat, rfl, rfl, hnew, hlinks⟩

/-- The open is about an old vnode exactly if it was found. -/
theorem openTarget_old_iff (htree : FsTree s) (hv : v < s.next) :
    (openTarget s path flags).1 = some v ↔ openFinds s path flags = some v := by
  cases hfinds : openFinds s path flags with
  | some w => rw [openTarget_of_finds hfinds]
  | none =>
      refine iff_of_false (fun htarget => ?_) nofun
      rcases openTarget_of_missing htree hfinds with ⟨s₁, hnone, -⟩ |
        ⟨dir, leaf, w, ino, s₀, s₁, -, -, hsome, hnew, -⟩
      · rw [hnone] at htarget
        cases htarget
      · rw [hsome] at htarget
        obtain rfl := Option.some.inj htarget
        exact absurd hnew.fresh (Nat.not_le.mpr hv)

end Targets

section SameFiles

variable {s s' s'' : Store} {v w ino other : Ref} {flags : UInt32}

theorem SameFile.trans (hfirst : SameFile s s' v) (hsecond : SameFile s' s'' v) :
    SameFile s s'' v :=
  ⟨hsecond.1.trans hfirst.1, fun len offset =>
    (hsecond.2 len offset).trans (hfirst.2 len offset)⟩

/-- What a read depends on. -/
theorem sameFile_of_eq (hshape : (s'.vnodes v).shape = (s.vnodes v).shape)
    (hsize : (s'.vnodes v).size = (s.vnodes v).size)
    (hbuf : (s'.inodes (inodeOf s v)).buf = (s.inodes (inodeOf s v)).buf)
    (hbytes : s'.bytes = s.bytes) : SameFile s s' v := by
  refine ⟨hsize, fun len offset => ?_⟩
  unfold ramfsRead
  dsimp only
  rw [type_eq_of_shape hshape, hsize, inodeOf_eq_of_shape hshape, hbuf, hbytes]

/-- Finding or making the vnode changes no file that is there. -/
theorem PlainFiles.openTarget_same (hplain : PlainFiles s)
    (hregular : Regular s v ino) (path : List UInt8) (flags : UInt32) :
    Regular (openTarget s path flags).2 v ino ∧
      SameFile s (openTarget s path flags).2 v := by
  obtain ⟨hv, hino⟩ := hplain.born v ino hregular
  have hadds := openTarget_adds s path flags
  have hold := hadds.old v hv
  have hinode : inodeOf s v = ino := by
    rw [inodeOf, hregular.data]
    rfl
  refine ⟨?_, sameFile_of_eq (by rw [hold]) (by rw [hold]) ?_ hadds.bytes⟩
  · obtain ⟨htype, hops, hdata⟩ := hregular
    rw [← hold] at htype hops hdata
    exact ⟨htype, hops, hdata⟩
  · rw [hinode]
    rcases hadds.inodes ino with ⟨hbuf, -⟩ | ⟨hnew, -⟩
    · exact hbuf
    · exact absurd hino (Nat.not_lt.mpr hnew)

end SameFiles

section Backend

variable {s s' : Store} {v w ino other : Ref} {flags : UInt32}

theorem backendOpen_size (hregular : Regular s v ino) (flags : UInt32) :
    ((backendOpen s v flags).vnodes v).size =
      if flags &&& oTrunc != 0 then 0 else (s.vnodes v).size := by
  rw [backendOpen, if_pos hregular.ops,
    (ramfsOpen_vnodes s hregular.type flags).2.1]

/-- Only the file that is opened with `O_TRUNC` changes. -/
theorem backendOpen_same (hregular : Regular s w ino)
    (hsane : (s.vnodes v).type = .file → (s.vnodes v).ops = .ramfs →
      ∃ ino, Regular s v ino) (hunique : Regular s v ino → v = w)
    (hnot : ¬ (flags &&& oTrunc ≠ 0 ∧ v = w)) :
    SameFile s (backendOpen s v flags) w := by
  have hrefl : SameFile s s w := ⟨rfl, fun _ _ => rfl⟩
  unfold backendOpen
  split_ifs with hops
  swap
  · exact hrefl
  have hopen := ramfsOpen_truncates s v flags
  generalize ramfsOpen s v flags = opened at hopen ⊢
  cases hopen with
  | not => exact hrefl
  | empties cells freed htrunc htype =>
      obtain ⟨other, hother⟩ := hsane htype hops
      have hwv : w ≠ v := fun heq => hnot ⟨htrunc, heq.symm⟩
      have hne : inodeOf s w ≠ inodeOf s v := by
        rw [inodeOf, inodeOf, hregular.data, hother.data]
        rintro ⟨⟩
        exact hwv (hunique hother).symm
      have hothers := Function.update_of_ne hwv
        { s.vnodes v with size := 0 } s.vnodes
      exact sameFile_of_eq (congrArg Vnode.shape hothers)
        (congrArg Vnode.size hothers)
        (congrArg Inode.buf (Function.update_of_ne hne ..)) rfl

end Backend

section Undoing

variable {s s' : Store} {path : List UInt8} {flags : UInt32} {v : Ref}

/-- What a failed open leaves of a store: the tree and the files, and the
references given back. -/
structure Undone (s s' : Store) : Prop where
  next : s.next ≤ s'.next
  mounts : s'.mounts = s.mounts
  root : s'.ramfsRoot = s.ramfsRoot
  inodes : s'.inodes = s.inodes
  bytes : s'.bytes = s.bytes
  shape : ∀ w, (s'.vnodes w).shape = (s.vnodes w).shape
  size : ∀ w, (s'.vnodes w).size = (s.vnodes w).size
  counts : ∀ w, (s.vnodes w).refcount < 2 ^ 32 - 1 →
    (s'.vnodes w).refcount = (s.vnodes w).refcount

theorem Undone.unmoved (hundone : Undone s s') : Unmoved s s' :=
  ⟨hundone.next, hundone.mounts, hundone.root, hundone.shape,
    fun ino => by rw [hundone.inodes]⟩

theorem Undone.sameFile (hundone : Undone s s') (w : Ref) : SameFile s s' w :=
  sameFile_of_eq (hundone.shape w) (hundone.size w) (by rw [hundone.inodes])
    hundone.bytes

end Undoing

section Failing

variable {k k' : Kernel} {self : Nat} {s s₁ s' : Store} {path : List UInt8}
  {flags : UInt32} {v ino : Ref}

theorem openFinds_linked (hfinds : openFinds s path flags = some v) :
    Linked s v := by
  unfold openFinds at hfinds
  split at hfinds
  · rename_i hresolve
    obtain rfl := Option.some.inj hfinds
    exact vfsResolve_linked hresolve
  · split_ifs at hfinds
    split at hfinds
    · cases hfinds
    · exact ramfsLookup_linked hfinds

/-- A vnode that has just been made is a regular file and empty. -/
theorem openTarget_new_size (hplain : PlainFiles s) {dir : Ref} {s₀ : Store}
    {name : List UInt8} (htarget : openTarget s path flags = (some v, s₁))
    (hnew : NewVnode s v .file .ramfs (some ino) s₀)
    (hlinks : Links s₀ dir name v s₁) :
    Regular s₁ v ino ∧ (s₁.vnodes v).size = 0 := by
  have hshape := (hlinks.shape v).trans hnew.vnode
  have hregular : Regular s₁ v ino :=
    ⟨congrArg (·.1) hshape, congrArg (·.2.1) hshape, congrArg (·.2.2) hshape⟩
  refine ⟨hregular, ?_⟩
  have hmade := (openTarget_adds s path flags).new v hnew.fresh
  rw [htarget] at hmade
  rcases hmade with hsame | hzero
  · have hold : Regular s v ino := by
      obtain ⟨htype, hops, hdata⟩ := hregular
      rw [hsame] at htype hops hdata
      exact ⟨htype, hops, hdata⟩
    exact absurd (hplain.born v ino hold).1 (Nat.not_lt.mpr hnew.fresh)
  · exact hzero

/-- The vnode to open has an inode of its own if it is a regular file. -/
theorem openTarget_apart (htree : FsTree s) (hplain : PlainFiles s)
    (htarget : openTarget s path flags = (some v, s₁)) :
    ((s₁.vnodes v).type = .file → (s₁.vnodes v).ops = .ramfs →
      ∃ ino, Regular s₁ v ino) ∧
    ∀ w ino, Regular s w ino → Regular s₁ v ino → v = w := by
  cases hfinds : openFinds s path flags with
  | some found =>
      rw [openTarget_of_finds hfinds] at htarget
      obtain ⟨hv, rfl⟩ := Prod.mk.inj htarget
      obtain rfl := Option.some.inj hv
      exact ⟨(hplain.linked found (openFinds_linked hfinds)).file,
        fun w ino hregular hother => hplain.unique found w ino hother hregular⟩
  | none =>
      rcases openTarget_of_missing htree hfinds with ⟨s₁, hnone, -⟩ |
        ⟨dir, leaf, made, ino, s₀, s₂, -, -, hsome, hnew, hlinks⟩
      · rw [hnone] at htarget
        cases htarget
      · have hmade := (openTarget_new_size hplain hsome hnew hlinks).1
        rw [hsome] at htarget
        obtain ⟨hv, rfl⟩ := Prod.mk.inj htarget
        obtain rfl := Option.some.inj hv
        refine ⟨fun _ _ => ⟨ino, hmade⟩, fun w other hregular hother => ?_⟩
        obtain rfl := Option.some.inj (hmade.data.symm.trans hother.data)
        exact absurd (hnew.inode ino rfl).1
          (Nat.not_le.mpr (hplain.born w ino hregular).2)

/-- What the failed open has found, made and emptied. -/
structure LateFailure (s : Store) (path : List UInt8) (flags : UInt32) (v : Ref)
    (s₁ s' : Store) : Prop where
  target : openTarget s path flags = (some v, s₁)
  undone : Undone (backendOpen s₁ v flags) s'

theorem LateFailure.files (hopened : LateFailure s path flags v s₁ s') (htree : FsTree s)
    (hplain : PlainFiles s) {w : Ref} (hregular : Regular s w ino) :
    SameFile s s' w ∨ (flags &&& oTrunc ≠ 0 ∧ openFinds s path flags = some w ∧
      (s'.vnodes w).size = 0) := by
  obtain ⟨htarget, hundone⟩ := hopened
  obtain ⟨hkept, hsame⟩ := hplain.openTarget_same hregular path flags
  have hborn := (hplain.born w ino hregular).1
  rw [htarget] at hkept hsame
  by_cases hchanged : flags &&& oTrunc ≠ 0 ∧ v = w
  · obtain ⟨htrunc, rfl⟩ := hchanged
    refine .inr ⟨htrunc, ?_, ?_⟩
    · rw [← openTarget_old_iff htree hborn, htarget]
    · rw [hundone.size, backendOpen_size hkept,
        if_pos (bne_iff_ne.mpr htrunc)]
  · refine .inl (hsame.trans (SameFile.trans ?_ (hundone.sameFile w)))
    obtain ⟨hsane, hunique⟩ := openTarget_apart htree hplain htarget
    exact backendOpen_same hkept hsane (hunique w ino hregular) hchanged

end Failing

namespace OpenFailureWitness

/-- "/f" -/
def path : List UInt8 := [slash, 0x66]

/-- Process 1 creates a file, writes a byte and opens the file until its table
is full. -/
def inputs : List LifeInput :=
  [.input (.call (.procCreate 16)), .input (.call (.procInitFrame 1 0x1000)),
    .input (.call (.procSetReady 1)), .input (.call (.schedAdd 1)), .start,
    .input (.event (.syscall (.open (some path) oCreat))),
    .input (.event (.syscall (.write 3 (some fun _ => 7) 1)))] ++
  List.replicate 12 (.input (.event (.syscall (.open (some path) oRdonly))))

def sizeAt (k : Kernel) (path : List UInt8) : Option Nat :=
  (vfsResolve k.store path).map fun v => (k.store.vnodes v).size

end OpenFailureWitness

end Orion
