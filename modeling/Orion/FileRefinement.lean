/-
Opening a file, and whole runs.  A file that is opened is found or made; one
that is made holds nothing, and every other file is left as it is.
-/
import Orion.FileTransfers

namespace Orion

section Opening

variable {s s' s'' : Store} {ref : ByteFiles.State UInt8} {k k' : Kernel}
  {event : FileEvent} {f : Nat}

theorem openTarget_adds (s : Store) (path : List UInt8) (flags : UInt32) :
    Adds s (openTarget s path flags).2 := by
  unfold openTarget
  split
  · exact .refl s
  split_ifs
  · exact .refl s
  split
  · exact .refl s
  · exact ramfsCreate_adds s _ _ .file

theorem Adds.regular (hnew : Adds s s') {contents : Contents}
    (hinv : FsInv s contents) {v ino : Nat} (hregular : Regular s v ino) :
    Regular s' v ino := by
  have hlt := (hinv.born v ino hregular).1
  obtain ⟨htype, hops, hdata⟩ := hregular
  rw [← hnew.old v hlt] at htype hops hdata
  exact ⟨htype, hops, hdata⟩

/-- A file that has been created holds nothing. -/
theorem Sized.adds {files : Nat → List UInt8} (hsized : Sized s files)
    {contents : Contents} (hinv : FsInv s contents) (hnew : Adds s s') :
    Sized s' files := by
  have hcases : ∀ v ino, Regular s' v ino → (files v).length =
      (s'.vnodes v).size ∧ (s'.vnodes v).size < 2 ^ 31 := by
    rintro v ino ⟨htype, hops, hdata⟩
    have hfresh : s.next ≤ v → files v = [] := fun hge => hsized.absent v
      fun ino' hold => absurd (hinv.born v ino' hold).1 (Nat.not_lt.mpr hge)
    rcases Nat.lt_or_ge v s.next with hlt | hge
    · rw [hnew.old v hlt] at htype hops hdata ⊢
      exact ⟨hsized.size v ino ⟨htype, hops, hdata⟩,
        hsized.small v ino ⟨htype, hops, hdata⟩⟩
    · rcases hnew.new v hge with hsame | hzero
      · rw [hsame] at htype hops hdata
        exact absurd (hinv.born v ino ⟨htype, hops, hdata⟩).1
          (Nat.not_lt.mpr hge)
      · rw [hfresh hge, hzero]
        exact ⟨rfl, by decide⟩
  refine ⟨fun v ino h => (hcases v ino h).1, fun v ino h => (hcases v ino h).2,
    fun v hnot => hsized.absent v fun ino hregular => ?_⟩
  exact hnot ino (hnew.regular hinv hregular)

/-- What a regular file and the others are after they have been opened, with
or without `O_TRUNC`. -/
theorem ramfsOpen_vnodes (s : Store) {v : Nat}
    (htype : (s.vnodes v).type = .file) (flags : UInt32) :
    (ramfsOpen s v flags).files = s.files ∧
      (ramfsOpen s v flags).vnodes v = { s.vnodes v with size :=
        if flags &&& oTrunc != 0 then 0 else (s.vnodes v).size } ∧
      ∀ w, w ≠ v → (ramfsOpen s v flags).vnodes w = s.vnodes w := by
  have hopen := ramfsOpen_truncates s v flags
  generalize ramfsOpen s v flags = opened at hopen ⊢
  cases hopen with
  | not hnot =>
      rw [if_neg (mt bne_iff_ne.mp fun htrunc => hnot ⟨htrunc, htype⟩)]
      exact ⟨rfl, rfl, fun _ _ => rfl⟩
  | empties cells freed htrunc =>
      rw [if_pos (bne_iff_ne.mpr htrunc)]
      exact ⟨rfl, Function.update_self ..,
        fun w hw => Function.update_of_ne hw ..⟩

/-- The files after `O_TRUNC`. -/
def emptied (files : Nat → List UInt8) (v : Nat) (flags : UInt32) :
    Nat → List UInt8 :=
  if flags &&& oTrunc != 0 then Function.update files v [] else files

theorem held_emptied (v : Nat) (flags : UInt32)
    {descriptors : Nat → Option ByteFiles.Descriptor} :
    held ⟨emptied ref.files v flags, descriptors⟩ =
      truncated (held ref) v flags := by
  unfold emptied truncated
  by_cases htrunc : flags &&& oTrunc ≠ 0
  · rw [if_pos (bne_iff_ne.mpr htrunc), if_pos htrunc]
    funext w i
    by_cases hw : w = v
    · subst hw
      simp only [held, Function.update_self, List.getD_nil]
    · simp only [held, Function.update_of_ne hw]
  · rw [if_neg (mt bne_iff_ne.mp htrunc), if_neg htrunc]
    rfl

theorem ramfsOpen_regular_iff (s : Store) (v : Ref) (flags : UInt32)
    (w ino : Nat) : Regular (ramfsOpen s v flags) w ino ↔ Regular s w ino := by
  by_cases htype : (s.vnodes v).type = .file
  · obtain ⟨-, hvnode, hothers⟩ := ramfsOpen_vnodes s htype flags
    by_cases hw : w = v
    · subst hw
      apply regular_congr <;> rw [hvnode]
    · apply regular_congr <;> rw [hothers w hw]
  · rw [ramfsOpen, if_neg fun h => htype h.2]

theorem Sized.ramfsOpen {v i : Nat} (hsized : Sized s ref.files)
    (hregular : Regular s v i) (flags : UInt32) :
    Sized (ramfsOpen s v flags) (emptied ref.files v flags) := by
  obtain ⟨-, hvnode, hothers⟩ := ramfsOpen_vnodes s hregular.type flags
  refine hsized.change (ramfsOpen_regular_iff s v flags) ?_ ?_
  · intro w ino hw
    by_cases hwv : w = v
    · subst hwv
      rw [hvnode, emptied]
      split_ifs
      · simp
      · exact ⟨hsized.size w ino hw, hsized.small w ino hw⟩
    · rw [hothers w hwv, emptied]
      split_ifs
      · rw [Function.update_of_ne hwv]
        exact ⟨hsized.size w ino hw, hsized.small w ino hw⟩
      · exact ⟨hsized.size w ino hw, hsized.small w ino hw⟩
  · intro w hnot
    have hwv : w ≠ v := by
      rintro rfl
      exact hnot i hregular
    rw [emptied]
    split_ifs
    · exact Function.update_of_ne hwv ..
    · rfl

/-- A file object on the vnode changes nothing of the vnodes but a count. -/
theorem openedFile_vnodes (s : Store) (v : Ref) (offset : Nat) (flags : UInt32)
    (w : Nat) : ((openedFile s v offset flags).vnodes w).type =
        (s.vnodes w).type ∧
      ((openedFile s v offset flags).vnodes w).size = (s.vnodes w).size := by
  by_cases hw : w = v
  · subst hw
    simp [openedFile, vnodeRef, Store.setVnode, Store.setFile, Store.grant]
  · simp [openedFile, vnodeRef, Store.setVnode, Store.setFile, Store.grant, hw]

theorem openedFile_regular_iff (s : Store) (v : Ref) (offset : Nat)
    (flags : UInt32) (w ino : Nat) :
    Regular (openedFile s v offset flags) w ino ↔ Regular s w ino :=
  regular_congr (openedFile_vnodes s v offset flags w).1
    (openedFile_vnode v offset flags w).1 (openedFile_vnode v offset flags w).2

theorem Sized.openedFile {files : Nat → List UInt8} (hsized : Sized s files)
    (v : Ref) (offset : Nat) (flags : UInt32) :
    Sized (openedFile s v offset flags) files := by
  refine hsized.change (openedFile_regular_iff s v offset flags) ?_ fun _ _ => rfl
  intro w ino hw
  rw [(openedFile_vnodes s v offset flags w).2]
  exact ⟨hsized.size w ino hw, hsized.small w ino hw⟩

/-- An `open` that succeeds: the vnode is found or made, perhaps truncated,
and a file object is made for it. -/
theorem vfsOpen_eq_some {path : List UInt8} {flags : UInt32}
    (hopen : vfsOpen s path flags = (some f, s')) : ∃ v s₁ s₂,
      openTarget s path flags = (some v, s₁) ∧
      s₂ = (if (s₁.vnodes v).ops = .ramfs then ramfsOpen s₁ v flags else s₁) ∧
      f = s₂.next ∧ s' = openedFile s₂ v
        (if flags &&& oAppend ≠ 0 then (s₂.vnodes v).size else 0) flags := by
  rw [vfsOpen_eq] at hopen
  generalize openTarget s path flags = target at hopen
  obtain ⟨_ | v, s₁⟩ := target
  · cases hopen
  rcases vfsOpenVnode_some s₁ v flags with heq | ⟨offset, heq, rfl⟩
  · cases heq.symm.trans hopen
  · obtain ⟨hf, hs⟩ := Prod.mk.inj (heq.symm.trans hopen)
    exact ⟨v, s₁, _, rfl, rfl, (Option.some.inj hf).symm, hs.symm⟩

/-- What an `open` in the contract opens. -/
theorem vfsOpen_regular {contents : Contents} (hinv : FsInv s contents)
    {path : List UInt8} {flags : UInt32}
    (hopen : vfsOpen s path flags = (some f, s'))
    (hcontract : isRegular s' (s'.files f).vnode = true) : ∃ v s₁ ino,
      openTarget s path flags = (some v, s₁) ∧ Regular s₁ v ino ∧
      f = (ramfsOpen s₁ v flags).next ∧
      s' = openedFile (ramfsOpen s₁ v flags) v (if flags &&& oAppend ≠ 0
        then ((ramfsOpen s₁ v flags).vnodes v).size else 0) flags := by
  obtain ⟨v, s₁, s₂, htarget, hs₂, rfl, rfl⟩ := vfsOpen_eq_some hopen
  have hyields := openTarget_yields hinv path flags
  rw [htarget] at hyields
  have hvnode : ((openedFile s₂ v (if flags &&& oAppend ≠ 0 then
      (s₂.vnodes v).size else 0) flags).files s₂.next).vnode = v := by
    rw [openedFile_files_next]
  rw [hvnode, isRegular, Bool.and_eq_true, beq_iff_eq, beq_iff_eq,
    (openedFile_vnodes s₂ v _ flags v).1, (openedFile_vnode v _ flags v).1]
    at hcontract
  have hops : (s₁.vnodes v).ops = .ramfs := by
    by_contra hnot
    rw [if_neg hnot] at hs₂
    exact hnot (hs₂ ▸ hcontract.2)
  rw [if_pos hops] at hs₂
  have htype : (s₁.vnodes v).type = .file := by
    by_contra hnot
    rw [ramfsOpen, if_neg fun h => hnot h.2] at hs₂
    exact hnot (hs₂ ▸ hcontract.1)
  obtain ⟨ino, hregular⟩ := (hyields.sane v rfl).file htype hops
  exact ⟨v, s₁, ino, htarget, hregular, by rw [hs₂], by rw [hs₂]⟩

theorem fileCall_open {log : List FileEvent} {path : List UInt8}
    {flags : UInt32} (href : Refines k.store ref)
    (hcontract : inContract ⟨k, log⟩ (.open path flags) = true)
    (hcall : fileCall k (.open path flags) = some (event, k')) :
    ∃ ref', ref.strictStep event.1 = some (event.2, ref') ∧
      Refines k'.store ref' := by
  rw [fileCall] at hcall
  rw [inContract] at hcontract
  rcases hopen : vfsOpen k.store path flags with ⟨_ | f, s'⟩
  · rw [hopen] at hcall
    cases hcall
  rw [hopen] at hcall hcontract
  obtain ⟨rfl, rfl⟩ := Prod.mk.inj (Option.some.inj hcall)
  have hinv := vfsOpen_fsInv href.bytes.inv path flags
  rw [hopen] at hinv
  -- the file table
  rcases vfsOpen_cases href.typed path flags with
    ⟨_, hnone, -⟩ | ⟨r, t, offset, hr, hquiet, hsome⟩
  · rw [hopen] at hnone
    cases hnone
  rw [hopen] at hsome
  obtain ⟨hf, hs'⟩ := Prod.mk.inj hsome
  obtain rfl := Option.some.inj hf
  -- the vnode
  obtain ⟨v, s₁, ino, htarget, hregular, hnext, hs''⟩ :=
    vfsOpen_regular href.bytes.inv hopen hcontract
  have hnew := openTarget_adds k.store path flags
  rw [htarget] at hnew
  have hopened := (href.bytes.toSized.adds href.bytes.inv hnew).ramfsOpen hregular flags
  obtain ⟨hfiles, -, -⟩ := ramfsOpen_vnodes s₁ hregular.type flags
  have hiff := ramfsOpen_regular_iff s₁ v flags
  have hopen' := (hiff v ino).mpr hregular
  generalize ramfsOpen s₁ v flags = s₂ at hopened hfiles hiff hopen' hnext hs''
  have hsize := hopened.size v ino hopen'
  have hsmall := hopened.small v ino hopen'
  rw [← hsize] at hs'' hsmall
  have hfile : s'.files t.next = ⟨v, if flags &&& oAppend ≠ 0 then
      (emptied ref.files v flags v).length else 0, flags, 1⟩ := by
    rw [hs'', hnext]
    exact openedFile_files_next ..
  have hothers : ∀ g, g ≠ t.next → s'.files g = k.store.files g := by
    intro g hg
    rw [hs'', ← hnew.files, ← hfiles]
    exact openedFile_files v _ flags (hnext ▸ hg)
  have hcells : ∀ g, g ≠ t.next →
      (s'.cells g = some .file ↔ k.store.cells g = some .file) := by
    intro g hg
    rw [hs', openedFile_cells r offset flags hg]
    exact hquiet.harmless.cells g
  have hlive : s'.cells t.next = some .file := by
    rw [hs']
    exact openedFile_cells_next ..
  have hregular' : ∀ w i, Regular k.store w i → Regular s' w i := by
    intro w i hw
    rw [hs'']
    exact (openedFile_regular_iff s₂ v _ flags w i).mpr
      ((hiff w i).mpr (hnew.regular href.bytes.inv hw))
  have hnotFile : ∀ w, NotFile k.store w → NotFile s' w := by
    intro w hw
    rw [hs']
    exact openedFile_notFile r offset flags (hquiet.harmless.notFile hw)
  have hfileOf : OpenFile s' t.next := by
    refine ⟨?_, ?_, ?_, ino, ?_⟩
    · rw [hfile]
      dsimp only
      split_ifs
      · exact hsmall
      · decide
    · rw [hfile]
    · have hvnode : (s'.files t.next).vnode = r := by
        rw [hs', openedFile_files_next]
      rw [hvnode, hs']
      exact openedFile_notFile r offset flags hr
    · rw [hfile, hs'']
      exact (openedFile_regular_iff s₂ v _ flags v ino).mpr hopen'
  have hdescriptor : descriptorOf s' t.next = some ⟨v,
      if flags &&& oAppend != 0 then (emptied ref.files v flags v).length else 0,
      flags &&& oAppend != 0⟩ := by
    rw [descriptorOf, if_pos hlive, hfile]
    simp only [bne_iff_ne]
  have htable := @HoldsFiles.update k.store s' ref t.next href.files hcells
    (fun g hg _ => hothers g hg) hnotFile hregular' (fun _ => hfileOf)
    (emptied ref.files v flags)
  rw [hdescriptor] at htable
  refine ⟨_, ?_, ?_, ⟨?_, ?_⟩, htable⟩
  · rw [strictStep_of_ne rfl, hfile]
    rfl
  · change Typed s'
    rw [hs']
    exact openedFile_typed hquiet.typed r offset flags
  · change Sized s' _
    rw [hs'']
    exact hopened.openedFile v _ flags
  · rw [opened, htarget] at hinv
    rw [held_emptied]
    exact hinv

end Opening

section Setup

/-- There is no file yet, and none is open. -/
theorem freshFs_refines (refuses : Nat → Bool) (garbage : Nat → Nat → UInt8) :
    Refines (freshFs refuses garbage) .empty := by
  have htyped : Typed { Store.empty refuses with bytes := garbage } := by
    have hempty := empty_typed refuses
    exact ⟨hempty.unborn, hempty.ends, hempty.bufs, hempty.children,
      hempty.mounts, hempty.stdin, hempty.stdout, hempty.stderr⟩
  have hinv : FsInv { Store.empty refuses with bytes := garbage }
      (held .empty) := fsInv_of_empty rfl rfl rfl rfl
  have hsized : Sized { Store.empty refuses with bytes := garbage }
      fun _ => [] := by
    refine ⟨?_, ?_, fun _ _ => rfl⟩
    · rintro v ino ⟨-, -, ⟨⟩⟩
    · rintro v ino ⟨-, -, ⟨⟩⟩
  have hall := fsInit_quiet htyped
  have hnone : ∀ f, (freshFs refuses garbage).cells f ≠ some .file := fun f =>
    mt (hall.harmless.cells f).mp (Option.some_ne_none _ ∘ Eq.symm)
  refine ⟨hall.typed, ⟨?_, ?_⟩, ?_, ?_⟩
  · exact hsized.adds hinv (fsInit_adds _)
  · exact fsInit_fsInv hinv
  · exact fun f => (if_neg (hnone f)).symm
  · exact fun f hlive => absurd hlive (hnone f)

end Setup

/-- One call is answered by the byte sequences as by the kernel. -/
theorem FileRun.step_refines {run run' : FileRun} {call : VfsCall}
    {ref : ByteFiles.State UInt8} (href : Refines run.kernel.store ref)
    (hcontract : inContract run call = true)
    (hstep : run.step call = some run') : ∃ event ref',
      run'.log = run.log ++ [event] ∧
      ref.strictStep event.1 = some (event.2, ref') ∧
      Refines run'.kernel.store ref' := by
  obtain ⟨⟨event, k'⟩, hcall, rfl⟩ := Option.map_eq_some_iff.mp hstep
  have hanswer : ∃ ref', ref.strictStep event.1 = some (event.2, ref') ∧
      Refines k'.store ref' := by
    cases call with
    | «open» path flags => exact fileCall_open href hcontract hcall
    | mkdir path => cases hcall
    | read self f len => exact fileCall_read href hcall
    | write self f src len => exact fileCall_write href hcontract hcall
    | close f => exact fileCall_close href hcall
  obtain ⟨ref', hstep', href'⟩ := hanswer
  exact ⟨event, ref', rfl, hstep', href'⟩

/-- A run is the run of a store of byte sequences. -/
theorem FileRun.run_refines {run : FileRun} {calls : List VfsCall} {k : Kernel}
    (hinit : Refines k.store .empty)
    (hrun : Machine.exec (Machine.guarded inContract FileRun.step) ⟨k, []⟩
      calls = some run) : ∃ ref,
      Machine.collect ByteFiles.State.strictStep .empty
        (run.log.map Prod.fst) = some (run.log.map Prod.snd, ref) ∧
      Refines run.kernel.store ref := by
  have hkeep : ∀ (mid : FileRun) (call : VfsCall) (next : FileRun),
      (∃ ref, Machine.collect ByteFiles.State.strictStep .empty
        (mid.log.map Prod.fst) = some (mid.log.map Prod.snd, ref) ∧
        Refines mid.kernel.store ref) →
      Machine.guarded inContract FileRun.step mid call = some next →
      ∃ ref, Machine.collect ByteFiles.State.strictStep .empty
        (next.log.map Prod.fst) = some (next.log.map Prod.snd, ref) ∧
        Refines next.kernel.store ref := by
    rintro mid call next ⟨ref, hcollect, href⟩ hguarded
    obtain ⟨hcontract, hstep⟩ := Machine.guarded_eq_some.mp hguarded
    obtain ⟨event, ref', hlog, hanswer, href'⟩ :=
      mid.step_refines href hcontract hstep
    refine ⟨ref', ?_, href'⟩
    rw [hlog, List.map_append, List.map_append]
    exact Machine.collect_concat hcollect hanswer
  exact Machine.exec_invariant hkeep ⟨.empty, rfl, hinit⟩ hrun

/-- Over every run of calls on files of the ramfs, with any refusals of memory
and any bytes on the heap, every answer is the one of a store of byte
sequences that turns empty requests down; at the end the files hold the byte
sequences and the descriptors stand where theirs do. -/
theorem files_run_as_bytes (refuses : Nat → Bool)
    (garbage : Nat → Nat → UInt8) (k : Kernel)
    (hk : k.store = freshFs refuses garbage) (calls : List VfsCall)
    (run : FileRun)
    (hrun : Machine.exec (Machine.guarded inContract FileRun.step) ⟨k, []⟩
      calls = some run) : ∃ ref,
      Machine.collect ByteFiles.State.strictStep .empty
        (run.log.map Prod.fst) = some (run.log.map Prod.snd, ref) ∧
      (∀ v ino, Regular run.kernel.store v ino →
        (ref.files v).length = (run.kernel.store.vnodes v).size ∧
        ∀ len offset, ramfsRead run.kernel.store v len offset =
          some (((ref.files v).drop offset).take len)) ∧
      ∀ f, ref.descriptors f = descriptorOf run.kernel.store f := by
  have hinit := freshFs_refines refuses garbage
  rw [← hk] at hinit
  obtain ⟨ref, hcollect, href⟩ := FileRun.run_refines hinit hrun
  refine ⟨ref, hcollect, ?_, href.files.descriptors⟩
  intro v ino hregular
  exact ⟨href.bytes.size v ino hregular,
    fun len offset => href.bytes.ramfsRead_eq hregular len offset⟩

namespace FileRefinementWitness

/-- A kernel on a heap full of old bytes. -/
def kernel : Kernel := Kernel.reset (freshFs (fun _ => false) fun _ _ => 0xAA)

/-- Create `/f` and write two bytes, append one, and read from the start. -/
def appendAndRead : List VfsCall :=
  [.open [slash, 0x66] oCreat, .write 1 15 (fun i => 0x41 + i.toUInt8) 2,
    .open [slash, 0x66] oAppend, .write 1 17 (fun _ => 0x5A) 1,
    .open [slash, 0x66] oRdonly, .read 1 18 4]

/-- Create a file and read no bytes of it. -/
def readNothing : List VfsCall :=
  [.open [slash, 0x66] oCreat, .read 1 15 0]

theorem append_read_as_bytes : ∃ run ref,
    Machine.exec (Machine.guarded inContract FileRun.step) ⟨kernel, []⟩
      appendAndRead = some run ∧
    run.log.getLast? = some (.read 18 4, ⟨3, [0x41, 0x42, 0x5A]⟩) ∧
    Machine.collect ByteFiles.State.strictStep .empty
      (run.log.map Prod.fst) = some (run.log.map Prod.snd, ref) := by
  have hview : (Machine.exec (Machine.guarded inContract FileRun.step)
      ⟨kernel, []⟩ appendAndRead).map (fun run => run.log.getLast?) =
      some (some (.read 18 4, ⟨3, [0x41, 0x42, 0x5A]⟩)) := by
    decide +kernel
  obtain ⟨run, hrun, hlast⟩ := Option.map_eq_some_iff.mp hview
  obtain ⟨ref, hcollect, -⟩ := files_run_as_bytes (fun _ => false)
    (fun _ _ => 0xAA) kernel rfl appendAndRead run hrun
  exact ⟨run, ref, hrun, hlast, hcollect⟩

/-- `vfs_read` returns -1 for a length of zero, where the bytes up to
`min(0, size - offset)` are none and their count is 0. -/
theorem empty_read_not_answered : ∃ run,
    Machine.exec (Machine.guarded inContract FileRun.step) ⟨kernel, []⟩
      readNothing = some run ∧
    ∀ ref, Machine.collect ByteFiles.State.step .empty (run.log.map Prod.fst) ≠
      some (run.log.map Prod.snd, ref) := by
  have hview : (Machine.exec (Machine.guarded inContract FileRun.step)
      ⟨kernel, []⟩ readNothing).map FileRun.log =
      some [(.open 15 13 false false, ⟨0, []⟩), (.read 15 0, ⟨-1, []⟩)] := by
    decide +kernel
  have hcounts : (Machine.collect ByteFiles.State.step
      (ByteFiles.State.empty : ByteFiles.State UInt8)
      [.open 15 13 false false, .read 15 0]).map Prod.fst =
      some [⟨0, []⟩, ⟨0, []⟩] := by
    decide +kernel
  obtain ⟨run, hrun, hlog⟩ := Option.map_eq_some_iff.mp hview
  refine ⟨run, hrun, fun ref hcollect => ?_⟩
  rw [hlog] at hcollect
  have hresults := hcounts.symm.trans (congrArg (Option.map Prod.fst) hcollect)
  simp at hresults

end FileRefinementWitness

end Orion
