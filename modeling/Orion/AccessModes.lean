/-
The access modes of open files.  `vfs_open` records the flags, and neither
`vfs_read` nor `vfs_write` looks at the mode in them: the modes hold as far as
the callers keep to them.
-/
import Orion.FileRefinement

namespace Orion

open MachineInt

/-- The part of the flags that is the access mode. -/
def accessMode (flags : UInt32) : UInt32 := flags &&& (oWronly ||| oRdwr)

def opensForReading (flags : UInt32) : Bool := accessMode flags != oWronly

def opensForWriting (flags : UInt32) : Bool := accessMode flags != oRdonly

/-- The file calls, and another descriptor for an open file, as `fork` and
`dup2` make them. -/
inductive SharedCall where
  | vfs (call : VfsCall)
  | share (f : Nat)

/-- The kernel, and the flags each file has been opened with. -/
structure ModeSystem where
  kernel : Kernel
  flags : Nat → UInt32

/-- `vfs_read` turns down a length of zero. -/
def readAnswer (k : Kernel) (self f len : Nat) : Option (Outcome × Kernel) :=
  if len = 0 then some (.ret (-1) .none, k) else vfsRead k self f len

/-- `vfs_write` does so too. -/
def writeAnswer (k : Kernel) (self f : Nat) (src : Nat → UInt8) (len : Nat) :
    Option (Outcome × Kernel) :=
  if len = 0 then some (.ret (-1) .none, k) else vfsWrite k self f src len

/-- The flags after an `open` with its result. -/
def recorded (flags : Nat → UInt32) (result : Option Ref) (new : UInt32) :
    Nat → UInt32 :=
  match result with
  | none => flags
  | some f => Function.update flags f new

/-- One call.  Files are passed as long as they are open. -/
def ModeSystem.step (sys : ModeSystem) : SharedCall → Option ModeSystem
  | .vfs (.open path flags) =>
      let opened := vfsOpen sys.kernel.store path flags
      some ⟨sys.kernel.setStore opened.2, recorded sys.flags opened.1 flags⟩
  | .vfs (.mkdir path) =>
      some { sys with
        kernel := sys.kernel.setStore (vfsMkdir sys.kernel.store path).2 }
  | .vfs (.read self f len) =>
      if sys.kernel.store.isLive .file f = false then none
      else (readAnswer sys.kernel self f len).map fun answer =>
        { sys with kernel := answer.2 }
  | .vfs (.write self f src len) =>
      if sys.kernel.store.isLive .file f = false then none
      else (writeAnswer sys.kernel self f src len).map fun answer =>
        { sys with kernel := answer.2 }
  | .vfs (.close f) =>
      if sys.kernel.store.isLive .file f = false then none
      else
        let closed := vfsClose sys.kernel.store f
        some { sys with
          kernel := wakeAll (sys.kernel.setStore closed.2) closed.1 }
  | .share f =>
      if sys.kernel.store.isLive .file f = false then none
      else some { sys with
        kernel := sys.kernel.setStore (fileRef sys.kernel.store f) }

/-- Regular files are read and written only in the mode they have been opened
in, and no write goes past 4 GB. -/
def modeKept (sys : ModeSystem) : SharedCall → Bool
  | .vfs (.read _ f len) =>
      let store := sys.kernel.store
      len == 0 || !isRegular store (store.files f).vnode ||
        opensForReading (sys.flags f)
  | .vfs (.write _ f _ len) =>
      let store := sys.kernel.store
      len == 0 || !isRegular store (store.files f).vnode ||
        (opensForWriting (sys.flags f) && writeOffset store f + len < 2 ^ 32)
  | _ => true

/-- Neither the size of the file nor a byte of it is another one. -/
def SameFile (s s' : Store) (v : Ref) : Prop :=
  (s'.vnodes v).size = (s.vnodes v).size ∧
    ∀ len offset, ramfsRead s' v len offset = ramfsRead s v len offset

/-- The file is written through a descriptor opened for writing, or it is
opened with `O_TRUNC`. -/
def MayChange (sys : ModeSystem) (v : Ref) : SharedCall → Prop
  | .vfs (.open path flags) => flags &&& oTrunc ≠ 0 ∧
      (openTarget sys.kernel.store path flags).1 = some v
  | .vfs (.write _ f _ _) => (sys.kernel.store.files f).vnode = v ∧
      opensForWriting (sys.flags f) = true
  | _ => False

/-- What the access modes promise about one call. -/
structure ModesHonoured (sys : ModeSystem) (call : SharedCall)
    (next : ModeSystem) : Prop where
  changes : ∀ v ino, Regular sys.kernel.store v ino →
    SameFile sys.kernel.store next.kernel.store v ∨ MayChange sys v call
  write : ∀ self f src len ino, call = .vfs (.write self f src len) →
    Regular sys.kernel.store (sys.kernel.store.files f).vnode ino →
    opensForWriting (sys.flags f) = false →
    writeAnswer sys.kernel self f src len = some (.ret (-1) .none, sys.kernel)
  read : ∀ self f len ino, call = .vfs (.read self f len) →
    Regular sys.kernel.store (sys.kernel.store.files f).vnode ino →
    opensForReading (sys.flags f) = false →
    ∃ k, readAnswer sys.kernel self f len = some (.ret (-1) .none, k)

/-- The invariant holds again, and the files are as they were except the ones
that `changed` tells. -/
structure Touches (changed : Nat → Prop) (s s' : Store)
    (contents contents' : Contents) : Prop where
  inv : FsInv s' contents'
  regular : ∀ v ino, Regular s v ino → Regular s' v ino
  size : ∀ v ino, Regular s v ino → ¬ changed v →
    (s'.vnodes v).size = (s.vnodes v).size
  bytes : ∀ v, ¬ changed v → contents' v = contents v

section Touching

variable {s s' : Store} {contents contents' : Contents} {changed : Nat → Prop}

theorem Touches.sameFile (htouches : Touches changed s s' contents contents')
    (hinv : FsInv s contents) {v ino : Nat} (hregular : Regular s v ino)
    (hnot : ¬ changed v) : SameFile s s' v := by
  have hsize := htouches.size v ino hregular hnot
  refine ⟨hsize, fun len offset => ?_⟩
  rw [htouches.inv.ramfsRead_eq (htouches.regular v ino hregular),
    hinv.ramfsRead_eq hregular, hsize, htouches.bytes v hnot]

theorem Touches.mono {changed' : Nat → Prop}
    (htouches : Touches changed s s' contents contents')
    (hmono : ∀ v, changed v → changed' v) :
    Touches changed' s s' contents contents' where
  inv := htouches.inv
  regular := htouches.regular
  size := fun v ino hregular hnot =>
    htouches.size v ino hregular (mt (hmono v) hnot)
  bytes := fun v hnot => htouches.bytes v (mt (hmono v) hnot)

theorem FsStill.touches (hstill : FsStill s s') (hinv : FsInv s contents) :
    Touches changed s s' contents contents where
  inv := hinv.still hstill
  regular := fun _ _ => hstill.regular_iff.mpr
  size := fun v ino hregular _ => hstill.size v ino hregular
  bytes := fun _ _ => rfl

theorem Adds.touches (hnew : Adds s s') (hinv : FsInv s contents)
    (hinv' : FsInv s' contents) : Touches changed s s' contents contents where
  inv := hinv'
  regular := fun _ _ => hnew.regular hinv
  size := fun v ino hregular _ => by
    rw [hnew.old v (hinv.born v ino hregular).1]
  bytes := fun _ _ => rfl

end Touching

section Opening

variable {s : Store} {contents : Contents}

/-- Only `O_TRUNC` changes a size. -/
theorem ramfsOpen_size (s : Store) (v : Ref) (flags : UInt32) {w : Nat}
    (hnot : ¬ (flags &&& oTrunc ≠ 0 ∧ v = w)) :
    ((ramfsOpen s v flags).vnodes w).size = (s.vnodes w).size := by
  have hopen := ramfsOpen_truncates s v flags
  generalize ramfsOpen s v flags = opened at hopen ⊢
  cases hopen with
  | not => rfl
  | empties cells freed htrunc =>
      have hw : w ≠ v := fun hw => hnot ⟨htrunc, hw.symm⟩
      exact congrArg Vnode.size (Function.update_of_ne hw ..)

/-- The same files are regular as well. -/
theorem vfsOpenVnode_keeps (s : Store) (v : Ref) (flags : UInt32) (w : Nat) :
    (∀ ino, Regular (vfsOpenVnode s (some v) flags).2 w ino ↔
        Regular s w ino) ∧
      (¬ (flags &&& oTrunc ≠ 0 ∧ v = w) →
        ((vfsOpenVnode s (some v) flags).2.vnodes w).size =
          (s.vnodes w).size) := by
  have hopen : (∀ ino, Regular (backendOpen s v flags) w ino ↔
        Regular s w ino) ∧
      (¬ (flags &&& oTrunc ≠ 0 ∧ v = w) →
        ((backendOpen s v flags).vnodes w).size = (s.vnodes w).size) := by
    unfold backendOpen
    split_ifs
    · exact ⟨ramfsOpen_regular_iff s v flags w, ramfsOpen_size s v flags⟩
    · exact ⟨fun _ => Iff.rfl, fun _ => rfl⟩
  obtain ⟨hregular, hsize⟩ := hopen
  rcases vfsOpenVnode_some s v flags with heq | ⟨offset, heq, -⟩
  · rw [heq]
    exact ⟨fun ino => (refuse_still _).regular_iff.trans (hregular ino), hsize⟩
  · rw [heq]
    exact ⟨fun ino => (openedFile_regular_iff _ v offset flags w ino).trans
        (hregular ino),
      fun hnot => (openedFile_vnodes _ v offset flags w).2.trans (hsize hnot)⟩

/-- A file that is found or made is opened; another one is left as it is. -/
theorem vfsOpen_touches (hinv : FsInv s contents) (path : List UInt8)
    (flags : UInt32) : Touches (fun v => flags &&& oTrunc ≠ 0 ∧
      (openTarget s path flags).1 = some v) s (vfsOpen s path flags).2 contents
      (opened s contents path flags) := by
  have hafter := vfsOpen_fsInv hinv path flags
  have hfound : Touches (fun _ => False) s (openTarget s path flags).2 contents
      contents := (openTarget_adds s path flags).touches hinv
    (openTarget_yields hinv path flags).inv
  rw [vfsOpen_eq] at hafter ⊢
  unfold opened at hafter ⊢
  generalize openTarget s path flags = target at hafter hfound ⊢
  rcases target with ⟨_ | v, s₁⟩
  · exact ⟨hfound.inv, hfound.regular,
      fun w ino hw _ => hfound.size w ino hw not_false, fun _ _ => rfl⟩
  dsimp only at hafter hfound ⊢
  refine ⟨hafter, ?_, ?_, ?_⟩
  · intro w ino hw
    exact ((vfsOpenVnode_keeps s₁ v flags w).1 ino).mpr (hfound.regular w ino hw)
  · intro w ino hw hnot
    rw [Option.some.injEq] at hnot
    exact ((vfsOpenVnode_keeps s₁ v flags w).2 hnot).trans
      (hfound.size w ino hw not_false)
  · intro w hnot
    unfold truncated
    split_ifs with htrunc
    · refine Function.update_of_ne ?_ ..
      rintro rfl
      exact hnot ⟨htrunc, rfl⟩
    · rfl

end Opening

section Transfers

variable {k : Kernel} {contents : Contents} {self f len : Nat}
  {src : Nat → UInt8} {answer : Outcome × Kernel}

/-- A write changes the file it goes to.  What a hole in it holds does not
matter here. -/
theorem vfsWrite_touches {ino : Nat} (hinv : FsInv k.store contents)
    (hregular : Regular k.store (k.store.files f).vnode ino) (hlen : 0 < len)
    (hfits : writeOffset k.store f + len < 2 ^ 32)
    (hwrite : vfsWrite k self f src len = some answer) : ∃ contents',
      Touches (fun v => (k.store.files f).vnode = v) k.store answer.2.store
        contents contents' := by
  rcases vfsWrite_regular hinv hregular hlen hfits hwrite with ⟨-, hstill⟩ |
    ⟨b, grown, t, -, hgrows, hfills, hstill⟩
  · exact ⟨contents, hstill.touches hinv⟩
  have hseek := seekAppend_still k.store f
  have hgrown := hgrows.regular_iff.mpr (hseek.regular_iff.mpr hregular)
  generalize hheld : (fun i =>
    if i < max (grown.vnodes (k.store.files f).vnode).size
        (writeOffset k.store f + len)
      then stored (grown.bytes b) src len (writeOffset k.store f) i
      else 0) = held
  have hfilled : FsInv t
      (Function.update contents (k.store.files f).vnode held) := by
    apply hfills.fsInv_holding hgrows.inv hgrown (hgrows.buf b rfl)
    · intro i hi
      rw [← hheld]
      exact (if_pos hi).symm
    · intro i hi
      rw [← hheld]
      exact if_neg (Nat.not_lt.mpr hi)
  refine ⟨_, hfilled.still hstill, fun w i hw => ?_, fun w i hw hne => ?_,
    fun w hne => Function.update_of_ne (Ne.symm hne) ..⟩
  · exact hstill.regular_iff.mpr (hfills.regular_iff.mpr
      (hgrows.regular_iff.mpr (hseek.regular_iff.mpr hw)))
  · have hother := hfills.regular_iff.mpr
      (hgrows.regular_iff.mpr (hseek.regular_iff.mpr hw))
    rw [hstill.size w i hother, hfills.others w (Ne.symm hne), hgrows.vnodes,
      seekAppend_vnodes]

/-- A read of a regular file never fails, whatever its mode. -/
theorem vfsRead_answers {ino : Nat} (hinv : FsInv k.store contents)
    (hregular : Regular k.store (k.store.files f).vnode ino) (self len : Nat) :
    ∃ n bytes k', vfsRead k self f len = some (.ret n (.bytes bytes), k') := by
  unfold vfsRead
  simp only [hregular.ops, hinv.ramfsRead_eq hregular]
  exact ⟨_, _, _, rfl⟩

/-- Nor does a write for which there is memory. -/
theorem vfsWrite_answers {ino : Nat}
    (hregular : Regular k.store (k.store.files f).vnode ino)
    (hmemory : outOfMemory k.store f len = false)
    (hwrite : vfsWrite k self f src len = some answer) :
    answer.1 = .ret (i32 len) .none := by
  obtain ⟨buf, grown, hgrow, hend⟩ := vfsWrite_eq_some hregular hwrite
  rcases hend with ⟨hnone, -⟩ | ⟨b, -, rfl⟩
  · rw [(ramfsGrow_refused_iff hgrow).mpr hnone] at hmemory
    cases hmemory
  · rfl

end Transfers

/-- The flags of every file are as they were. -/
def SameFlags (s s' : Store) : Prop :=
  ∀ f, (s'.files f).flags = (s.files f).flags

section Flags

variable {s s' s'' : Store} {f : Nat}

theorem SameFlags.of_eq (hfiles : s'.files = s.files) : SameFlags s s' := by
  intro f
  rw [hfiles]

theorem SameFlags.trans (hfirst : SameFlags s s') (hsecond : SameFlags s' s'') :
    SameFlags s s'' := fun f => (hsecond f).trans (hfirst f)

theorem setFile_sameFlags {file : File} (hflags : file.flags = (s.files f).flags) :
    SameFlags s (s.setFile f file) := by
  intro g
  by_cases hg : g = f
  · subst hg
    rw [← hflags]
    exact congrArg File.flags (Function.update_self ..)
  · exact congrArg File.flags (Function.update_of_ne hg ..)

theorem Transfers.sameFlags {pipes : Prop} (htransfers : Transfers pipes s s') :
    SameFlags s s' := by
  refine htransfers.lift (.of_eq rfl) fun t t' hpast hstep => hpast.trans ?_
  cases hstep with
  | seek => exact setFile_sameFlags rfl
  | grow hgrow => cases hgrow <;> exact .of_eq rfl
  | _ => exact .of_eq rfl

theorem vfsClose_sameFlags (hsane : Sane s (s.files f).vnode) :
    SameFlags s (vfsClose s f).2 := by
  have hset := @setFile_sameFlags s f { s.files f with
    refcount := sub32 (s.files f).refcount 1 } rfl
  have hstill := @setFile_still s f { s.files f with
    refcount := sub32 (s.files f).refcount 1 } rfl
  unfold vfsClose
  dsimp only
  split_ifs
  · exact hset
  · refine hset.trans (.of_eq ?_)
    unfold vfsRelease
    dsimp only
    rw [closeHandler_of_notPipe]
    · rfl
    · simp only [Store.setFile, Function.update_self]
      exact (hstill.toFsSame.sane hsane).notPipe

theorem ramfsOpen_files (s : Store) (v : Ref) (flags : UInt32) :
    (ramfsOpen s v flags).files = s.files := by
  have hopen := ramfsOpen_truncates s v flags
  generalize ramfsOpen s v flags = opened at hopen ⊢
  cases hopen <;> rfl

/-- An `open` that succeeds records its flags. -/
theorem vfsOpen_flags (s : Store) (path : List UInt8) (flags : UInt32) (g : Nat) :
    ((vfsOpen s path flags).2.files g).flags =
      recorded (fun f => (s.files f).flags) (vfsOpen s path flags).1 flags g := by
  have hfound := (openTarget_adds s path flags).files
  rw [vfsOpen_eq]
  generalize openTarget s path flags = target at hfound ⊢
  rcases target with ⟨_ | v, s₁⟩
  · exact congrArg (fun files => (files g).flags) hfound
  dsimp only at hfound ⊢
  have hopen : (backendOpen s₁ v flags).files = s.files := by
    rw [← hfound]
    unfold backendOpen
    split_ifs
    · exact ramfsOpen_files s₁ v flags
    · rfl
  rcases vfsOpenVnode_some s₁ v flags with heq | ⟨offset, heq, -⟩
  · rw [heq]
    exact congrArg (fun files => (files g).flags) hopen
  · rw [heq]
    generalize backendOpen s₁ v flags = s₂ at hopen ⊢
    dsimp only [recorded]
    by_cases hg : g = s₂.next
    · subst hg
      rw [Function.update_self]
      exact congrArg File.flags (openedFile_files_next s₂ v _ flags)
    · rw [Function.update_of_ne hg, ← hopen]
      exact congrArg File.flags (openedFile_files v _ flags hg)

end Flags

section Runs

variable {sys next : ModeSystem} {call : SharedCall} {contents : Contents}

theorem Regular.isRegular {s : Store} {v ino : Nat} (hregular : Regular s v ino) :
    isRegular s v = true := by
  simp [Orion.isRegular, hregular.type, hregular.ops]

theorem modeKept_read {self f len ino : Nat}
    (hregular : Regular sys.kernel.store (sys.kernel.store.files f).vnode ino)
    (hkept : modeKept sys (.vfs (.read self f len)) = true) :
    len = 0 ∨ opensForReading (sys.flags f) = true := by
  simpa [modeKept, hregular.isRegular] using hkept

theorem modeKept_write {self f len ino : Nat} {src : Nat → UInt8}
    (hregular : Regular sys.kernel.store (sys.kernel.store.files f).vnode ino)
    (hkept : modeKept sys (.vfs (.write self f src len)) = true) :
    len = 0 ∨ (opensForWriting (sys.flags f) = true ∧
      writeOffset sys.kernel.store f + len < 2 ^ 32) := by
  simpa [modeKept, hregular.isRegular] using hkept

/-- A call changes the files it may change, and the flags of a file stay the
ones it has been opened with. -/
theorem ModeSystem.step_touches (hinv : FsInv sys.kernel.store contents)
    (hflags : ∀ f, (sys.kernel.store.files f).flags = sys.flags f)
    (hkept : modeKept sys call = true) (hstep : sys.step call = some next) :
    (∃ contents', Touches (fun v => MayChange sys v call) sys.kernel.store
        next.kernel.store contents contents') ∧
      ∀ f, (next.kernel.store.files f).flags = next.flags f := by
  -- all calls but `open` leave the flags alone
  have hsame : ∀ {s}, SameFlags sys.kernel.store s →
      ∀ f, (s.files f).flags = sys.flags f :=
    fun hsame f => (hsame f).trans (hflags f)
  cases call with
  | share f =>
      simp only [ModeSystem.step] at hstep
      split_ifs at hstep
      rw [← Option.some.inj hstep]
      have hstill := @setFile_still sys.kernel.store f { sys.kernel.store.files f
        with refcount := u32 ((sys.kernel.store.files f).refcount + 1) } rfl
      exact ⟨⟨contents, hstill.touches hinv⟩, hsame (setFile_sameFlags rfl)⟩
  | vfs call =>
      cases call with
      | «open» path flags =>
          rw [← Option.some.inj hstep]
          refine ⟨⟨_, vfsOpen_touches hinv path flags⟩, fun g => ?_⟩
          refine (vfsOpen_flags sys.kernel.store path flags g).trans ?_
          rw [funext hflags]
      | mkdir path =>
          rw [← Option.some.inj hstep]
          have hnew := vfsMkdir_adds sys.kernel.store path
          exact ⟨⟨contents, hnew.touches hinv (vfsMkdir_fsInv hinv path)⟩,
            hsame (.of_eq hnew.files)⟩
      | read self f len =>
          simp only [ModeSystem.step, readAnswer] at hstep
          split_ifs at hstep with hlive hlen
          · rw [← Option.some.inj hstep]
            exact ⟨⟨contents, (FsStill.refl _).touches hinv⟩, hflags⟩
          obtain ⟨answer, hread, rfl⟩ := Option.map_eq_some_iff.mp hstep
          have hfile := cells_of_isLive hlive
          have hsane := hinv.files f hfile
          exact ⟨⟨contents, (vfsRead_still hsane hread).touches hinv⟩,
            hsame (vfsRead_transfers hread).sameFlags⟩
      | write self f src len =>
          simp only [ModeSystem.step, writeAnswer] at hstep
          split_ifs at hstep with hlive hlen
          · rw [← Option.some.inj hstep]
            exact ⟨⟨contents, (FsStill.refl _).touches hinv⟩, hflags⟩
          obtain ⟨answer, hwrite, rfl⟩ := Option.map_eq_some_iff.mp hstep
          have hfile := cells_of_isLive hlive
          have hsane := hinv.files f hfile
          refine ⟨?_, hsame (vfsWrite_transfers hwrite).sameFlags⟩
          by_cases hregular : ∃ ino,
              Regular sys.kernel.store (sys.kernel.store.files f).vnode ino
          · obtain ⟨ino, hregular⟩ := hregular
            obtain ⟨hmode, hfits⟩ :=
              (modeKept_write hregular hkept).resolve_left hlen
            obtain ⟨contents', htouches⟩ := vfsWrite_touches hinv hregular
              (Nat.pos_of_ne_zero hlen) hfits hwrite
            exact ⟨contents', htouches.mono fun v hv => ⟨hv, hmode⟩⟩
          · push Not at hregular
            exact ⟨contents,
              (vfsWrite_other hsane hregular hwrite).2.touches hinv⟩
      | close f =>
          simp only [ModeSystem.step] at hstep
          split_ifs at hstep with hlive
          rw [← Option.some.inj hstep]
          have hfile := cells_of_isLive hlive
          have hsane := hinv.files f hfile
          dsimp only
          rw [wakeAll_store]
          exact ⟨⟨contents, (vfsClose_still hsane).touches hinv⟩,
            hsame (vfsClose_sameFlags hsane)⟩

theorem ModeSystem.step_honoured (hinv : FsInv sys.kernel.store contents)
    (hflags : ∀ f, (sys.kernel.store.files f).flags = sys.flags f)
    (hkept : modeKept sys call = true) (hstep : sys.step call = some next) :
    ModesHonoured sys call next := by
  obtain ⟨⟨contents', htouches⟩, -⟩ :=
    ModeSystem.step_touches hinv hflags hkept hstep
  refine ⟨?_, ?_, ?_⟩
  · intro v ino hregular
    by_cases hmay : MayChange sys v call
    · exact .inr hmay
    · exact .inl (htouches.sameFile hinv hregular hmay)
  · rintro self f src len ino rfl hregular hmode
    rcases modeKept_write hregular hkept with rfl | ⟨hwriting, -⟩
    · rfl
    · rw [hmode] at hwriting
      cases hwriting
  · rintro self f len ino rfl hregular hmode
    rcases modeKept_read hregular hkept with rfl | hreading
    · exact ⟨sys.kernel, rfl⟩
    · rw [hmode] at hreading
      cases hreading

/-- The invariant, whatever the files hold, and the flags. -/
def ModeSystem.Inv (sys : ModeSystem) : Prop :=
  (∃ contents, FsInv sys.kernel.store contents) ∧
    ∀ f, (sys.kernel.store.files f).flags = sys.flags f

theorem ModeSystem.step_inv (hinv : sys.Inv)
    (hstep : Machine.guarded modeKept ModeSystem.step sys call = some next) :
    next.Inv := by
  obtain ⟨⟨contents, hinv⟩, hflags⟩ := hinv
  obtain ⟨hkept, hstep⟩ := Machine.guarded_eq_some.mp hstep
  obtain ⟨⟨contents', htouches⟩, hflags'⟩ :=
    ModeSystem.step_touches hinv hflags hkept hstep
  exact ⟨⟨contents', htouches.inv⟩, hflags'⟩

theorem ModeSystem.fresh_inv {refuses : Nat → Bool}
    {garbage : Nat → Nat → UInt8} {k : Kernel}
    (hk : k.store = freshFs refuses garbage) :
    ModeSystem.Inv ⟨k, fun _ => oRdonly⟩ := by
  refine ⟨⟨fun _ _ => 0, ?_⟩, fun f => ?_⟩
  · rw [hk]
    exact fsInit_fsInv (fsInv_of_empty rfl rfl rfl rfl)
  · change (k.store.files f).flags = oRdonly
    rw [hk, freshFs, (fsInit_adds _).files]
    rfl

end Runs

/-- In every run of the file calls, with files shared by any number of
descriptors, in which regular files are read and written only in the mode they
have been opened in and no write goes past 4 GB, the access modes hold at
every call.  The mode a file has been opened with stays recorded, but it is
not looked at: without that condition a read of at least one byte gets what
there is, and a write for which there is memory is carried out. -/
theorem access_modes_run_honoured (refuses : Nat → Bool)
    (garbage : Nat → Nat → UInt8) (k : Kernel)
    (hk : k.store = freshFs refuses garbage) (calls : List SharedCall)
    (sys : ModeSystem)
    (hrun : Machine.exec (Machine.guarded modeKept ModeSystem.step)
      ⟨k, fun _ => oRdonly⟩ calls = some sys) :
    (∀ call next, modeKept sys call = true → sys.step call = some next →
      ModesHonoured sys call next) ∧
    (∀ f, (sys.kernel.store.files f).flags = sys.flags f) ∧
    ∀ self f len ino, 0 < len →
      Regular sys.kernel.store (sys.kernel.store.files f).vnode ino →
      (∃ n bytes k', readAnswer sys.kernel self f len =
        some (.ret n (.bytes bytes), k')) ∧
      ∀ src answer, outOfMemory sys.kernel.store f len = false →
        writeAnswer sys.kernel self f src len = some answer →
        answer.1 = .ret (i32 len) .none := by
  obtain ⟨⟨contents, hinv⟩, hflags⟩ : sys.Inv :=
    Machine.exec_invariant (fun _ _ _ => ModeSystem.step_inv)
      (ModeSystem.fresh_inv hk) hrun
  refine ⟨fun call next => ModeSystem.step_honoured hinv hflags, hflags, ?_⟩
  intro self f len ino hlen hregular
  rw [readAnswer, if_neg hlen.ne']
  refine ⟨vfsRead_answers hinv hregular self len, ?_⟩
  intro src answer hmemory hwrite
  rw [writeAnswer, if_neg hlen.ne'] at hwrite
  exact vfsWrite_answers hregular hmemory hwrite

namespace AccessModesWitness

/-- A kernel with no files, and the path `/f`. -/
def started : ModeSystem :=
  ⟨Kernel.reset (freshFs (fun _ => false) fun _ _ => 0xAA), fun _ => oRdonly⟩

def path : List UInt8 := [slash, 0x66]

def overwrite (f : Nat) : SharedCall :=
  .vfs (.write 1 f (fun _ => 0x55) 2)

def peek (f : Nat) : SharedCall := .vfs (.read 1 f 2)

/-- A file that is written through one of two descriptors, and opened again to
be read. -/
def careful : List SharedCall :=
  [.vfs (.open path (oCreat ||| oRdwr)), .share 15, .vfs (.close 15),
    overwrite 15, .vfs (.open path oRdonly)]

theorem careful_run :
    ((Machine.exec (Machine.guarded modeKept ModeSystem.step) started
      careful).bind fun sys => (sys.step (peek 17)).map fun _ =>
        let store := sys.kernel.store
        let v := (store.files 17).vnode
        (modeKept sys (peek 17), (store.vnodes v).type, (store.vnodes v).ops,
          (store.vnodes v).data, outOfMemory store 17 2)) =
      some (true, .file, .ramfs, some 12, false) := by
  decide +kernel

theorem careful_modes_honoured : ∃ sys next,
    Machine.exec (Machine.guarded modeKept ModeSystem.step) started careful =
      some sys ∧
    sys.step (peek 17) = some next ∧ ModesHonoured sys (peek 17) next ∧
    (sys.kernel.store.files 17).flags = sys.flags 17 ∧
    ∃ n bytes k', readAnswer sys.kernel 1 17 2 =
      some (.ret n (.bytes bytes), k') := by
  obtain ⟨sys, hrun, hrest⟩ := Option.bind_eq_some_iff.mp careful_run
  obtain ⟨next, hstep, hview⟩ := Option.map_eq_some_iff.mp hrest
  simp only [Prod.mk.injEq] at hview
  obtain ⟨hkept, htype, hops, hdata, -⟩ := hview
  obtain ⟨hhonoured, hflags, hanswers⟩ :=
    access_modes_run_honoured (fun _ => false) (fun _ _ => 0xAA)
      started.kernel rfl careful sys hrun
  exact ⟨sys, next, hrun, hstep, hhonoured _ next hkept hstep, hflags 17,
    (hanswers 1 17 2 12 (by decide) ⟨htype, hops, hdata⟩).1⟩

/-- The file is created to be read only. -/
def lend : List SharedCall := [.vfs (.open path (oCreat ||| oRdonly))]

theorem overwrite_run :
    ((Machine.exec ModeSystem.step started lend).bind fun sys =>
      (sys.step (overwrite 15)).map fun next =>
        let store := sys.kernel.store
        let v := (store.files 15).vnode
        (isRegular store v && (store.vnodes v).data == some 12 &&
            !opensForWriting (sys.flags 15),
          (writeAnswer sys.kernel 1 15 (fun _ => 0x55) 2).map Prod.fst,
          (store.vnodes v).size, (next.kernel.store.vnodes v).size)) =
      some (true, some (.ret 2 .none), 0, 2) := by
  decide +kernel

/-- It is written nevertheless, and opened again to be written only. -/
def reopen : List SharedCall := lend ++ [overwrite 15, .vfs (.open path oWronly)]

theorem peek_run :
    ((Machine.exec ModeSystem.step started reopen).bind fun sys =>
      (sys.step (peek 17)).map fun _ =>
        let store := sys.kernel.store
        let v := (store.files 17).vnode
        ((store.vnodes v).type, (store.vnodes v).ops, (store.vnodes v).data,
          opensForReading (sys.flags 17),
          (readAnswer sys.kernel 1 17 2).map Prod.fst)) =
      some (.file, .ramfs, some 12, false,
        some (.ret 2 (.bytes [0x55, 0x55]))) := by
  decide +kernel

/-- Neither mode is enforced: the write returns 2 and the file grows, and the
read returns both bytes. -/
theorem modes_not_honoured :
    (∃ sys next, Machine.exec ModeSystem.step started lend = some sys ∧
      sys.step (overwrite 15) = some next ∧
      ¬ SameFile sys.kernel.store next.kernel.store
        (sys.kernel.store.files 15).vnode ∧
      ¬ ModesHonoured sys (overwrite 15) next) ∧
    ∃ sys next, Machine.exec ModeSystem.step started reopen = some sys ∧
      sys.step (peek 17) = some next ∧ ¬ ModesHonoured sys (peek 17) next := by
  constructor
  · obtain ⟨sys, hrun, hrest⟩ := Option.bind_eq_some_iff.mp overwrite_run
    obtain ⟨next, hstep, hview⟩ := Option.map_eq_some_iff.mp hrest
    simp only [Prod.mk.injEq, isRegular, Bool.and_eq_true, beq_iff_eq,
      Bool.not_eq_true'] at hview
    obtain ⟨⟨⟨⟨htype, hops⟩, hdata⟩, hmode⟩, hanswer, hbefore, hafter⟩ := hview
    refine ⟨sys, next, hrun, hstep, fun hsame => ?_, fun hhonoured => ?_⟩
    · have hsize := hsame.1
      rw [hbefore, hafter] at hsize
      cases hsize
    rw [hhonoured.write 1 15 _ 2 12 rfl ⟨htype, hops, hdata⟩ hmode] at hanswer
    simp at hanswer
  · obtain ⟨sys, hrun, hrest⟩ := Option.bind_eq_some_iff.mp peek_run
    obtain ⟨next, hstep, hview⟩ := Option.map_eq_some_iff.mp hrest
    simp only [Prod.mk.injEq] at hview
    obtain ⟨htype, hops, hdata, hmode, hanswer⟩ := hview
    refine ⟨sys, next, hrun, hstep, fun hhonoured => ?_⟩
    obtain ⟨k, hread⟩ :=
      hhonoured.read 1 17 2 12 rfl ⟨htype, hops, hdata⟩ hmode
    rw [hread] at hanswer
    simp at hanswer

end AccessModesWitness

end Orion
