/-
What the functions that make, empty and fill files do to the store, step by
step.  Each has one lemma here; what it keeps is read off the steps wherever
it is needed.
-/
import Orion.StoreTypes

namespace Orion

open MachineInt

variable {s s' s'' : Store}

/-- `kfree` only takes objects away. -/
theorem kfreeOption_eq (s : Store) (ref : Option Ref) : ∃ cells freed,
    s.kfreeOption ref = { s with cells := cells, freed := freed } ∧
      ∀ f kind, cells f = some kind → s.cells f = some kind := by
  cases ref with
  | none => exact ⟨s.cells, s.freed, rfl, fun _ _ h => h⟩
  | some ref =>
      refine ⟨_, _, rfl, fun f kind h => ?_⟩
      by_cases heq : f = ref
      · rw [heq, Function.update_self] at h
        cases h
      · rwa [Function.update_of_ne heq] at h

/-- Nothing happens to open files, pipes, buffers and old vnodes; what is new
is empty. -/
structure Adds (s s' : Store) : Prop where
  next : s.next ≤ s'.next
  files : s'.files = s.files
  pipes : s'.pipes = s.pipes
  ends : s'.ends = s.ends
  bytes : s'.bytes = s.bytes
  old : ∀ v, v < s.next → s'.vnodes v = s.vnodes v
  new : ∀ v, s.next ≤ v → s'.vnodes v = s.vnodes v ∨ (s'.vnodes v).size = 0
  inodes : ∀ ino, ((s'.inodes ino).buf = (s.inodes ino).buf ∧
      (s'.inodes ino).capacity = (s.inodes ino).capacity) ∨
    s.next ≤ ino ∧ (s'.inodes ino).buf = none ∧ (s'.inodes ino).capacity = 0

theorem Adds.of_eq (hnext : s.next ≤ s'.next)
    (hsame : (s'.files, s'.pipes, s'.ends, s'.bytes, s'.vnodes, s'.inodes) =
      (s.files, s.pipes, s.ends, s.bytes, s.vnodes, s.inodes)) : Adds s s' := by
  simp only [Prod.mk.injEq] at hsame
  obtain ⟨hfiles, hpipes, hends, hbytes, hvnodes, hinodes⟩ := hsame
  exact ⟨hnext, hfiles, hpipes, hends, hbytes, fun v _ => congrFun hvnodes v,
    fun v _ => .inl (congrFun hvnodes v),
    fun ino => .inl (by rw [hinodes]; exact ⟨rfl, rfl⟩)⟩

theorem Adds.refl (s : Store) : Adds s s := .of_eq (Nat.le_refl _) rfl

theorem Adds.trans (hfirst : Adds s s') (hsecond : Adds s' s'') :
    Adds s s'' where
  next := hfirst.next.trans hsecond.next
  files := hsecond.files.trans hfirst.files
  pipes := hsecond.pipes.trans hfirst.pipes
  ends := hsecond.ends.trans hfirst.ends
  bytes := hsecond.bytes.trans hfirst.bytes
  old := fun v hv => (hsecond.old v (hv.trans_le hfirst.next)).trans
    (hfirst.old v hv)
  new := by
    intro v hv
    rcases Nat.lt_or_ge v s'.next with hlt | hge
    · rw [hsecond.old v hlt]
      exact hfirst.new v hv
    · rcases hsecond.new v hge with hsame | hzero
      · rw [hsame]
        exact hfirst.new v hv
      · exact .inr hzero
  inodes := by
    intro ino
    rcases hsecond.inodes ino with ⟨hbuf, hcapacity⟩ | ⟨hge, hnone⟩
    · rw [hbuf, hcapacity]
      exact hfirst.inodes ino
    · exact .inr ⟨hfirst.next.trans hge, hnone⟩

theorem kmalloc_adds (s : Store) (kind : ObjKind) :
    Adds s (s.kmalloc kind).2 := by
  rcases kmalloc_cases s kind with heq | heq
  · rw [heq]
    exact .of_eq (Nat.le_refl _) rfl
  · rw [heq]
    exact .of_eq (Nat.le_succ _) rfl

theorem kfreeOption_adds (s : Store) (ref : Option Ref) :
    Adds s (s.kfreeOption ref) := by
  cases ref with
  | none => exact .refl s
  | some ref => exact .of_eq (Nat.le_refl _) rfl

/-- A new vnode, inode and directory entry. -/
def Store.newVnode (s : Store) (vnode : Vnode) : Store :=
  (s.grant .vnode).setVnode s.next vnode

def Store.newInode (s : Store) : Store :=
  (s.grant .inode).setInode s.next ⟨none, 0, [], 0⟩

/-- A ramfs vnode and its inode. -/
def Store.newNode (s : Store) (type : VnodeType) : Store :=
  s.newInode.newVnode ⟨type, 0, 0, .ramfs, some s.next⟩

def Store.newEntry (s : Store) (dir : Ref) (name : List UInt8) (child : Ref) :
    Store :=
  (s.grant .dirent).setInode (inodeOf s dir) { s.inodes (inodeOf s dir) with
    children := ⟨s.next, name.take (vfsNameMax - 1), child⟩ ::
      (s.inodes (inodeOf s dir)).children
    childCount := u32 ((s.inodes (inodeOf s dir)).childCount + 1) }

theorem newVnode_adds (s : Store) {vnode : Vnode} (hsize : vnode.size = 0) :
    Adds s (s.newVnode vnode) := by
  refine ⟨Nat.le_succ _, rfl, rfl, rfl, rfl,
    fun v hv => Function.update_of_ne hv.ne .., ?_, fun _ => .inl ⟨rfl, rfl⟩⟩
  exact fun v _ => (Function.forall_update_iff s.vnodes fun w new =>
    new = s.vnodes w ∨ new.size = 0).mpr ⟨.inr hsize, fun _ _ => .inl rfl⟩ v

theorem setInode_adds (s : Store) (kind : ObjKind) {ino : Ref} {inode : Inode}
    (hinode : (inode.buf = (s.inodes ino).buf ∧
        inode.capacity = (s.inodes ino).capacity) ∨
      s.next ≤ ino ∧ inode.buf = none ∧ inode.capacity = 0) :
    Adds s ((s.grant kind).setInode ino inode) := by
  refine ⟨Nat.le_succ _, rfl, rfl, rfl, rfl, fun _ _ => rfl,
    fun _ _ => .inl rfl, ?_⟩
  exact (Function.forall_update_iff s.inodes fun ino new =>
    (new.buf = (s.inodes ino).buf ∧
      new.capacity = (s.inodes ino).capacity) ∨
    s.next ≤ ino ∧ new.buf = none ∧ new.capacity = 0).mpr
    ⟨hinode, fun _ _ => .inl ⟨rfl, rfl⟩⟩

theorem newInode_adds (s : Store) : Adds s s.newInode :=
  setInode_adds s .inode (.inr ⟨Nat.le_refl _, rfl, rfl⟩)

theorem newNode_vnode (s : Store) (type : VnodeType) :
    (s.newNode type).vnodes (s.next + 1) =
      ⟨type, 0, 0, .ramfs, some s.next⟩ := Function.update_self ..

theorem newNode_inode (s : Store) (type : VnodeType) :
    (s.newNode type).inodes s.next = ⟨none, 0, [], 0⟩ :=
  Function.update_self ..

section Outcomes

variable (s : Store)

theorem vnodeAlloc_cases (type : VnodeType) (ops : VfsOps)
    (data : Option Ref) : vnodeAlloc s type ops data = (none, s.refuse) ∨
      vnodeAlloc s type ops data =
        (some s.next, s.newVnode ⟨type, 0, 0, ops, data⟩) := by
  unfold vnodeAlloc
  rcases kmalloc_cases s .vnode with heq | heq
  · rw [heq]
    exact .inl rfl
  · rw [heq]
    exact .inr rfl

theorem ramfsNewVnode_outcome (type : VnodeType) :
    ramfsNewVnode s type = (none, s.refuse) ∨
    ramfsNewVnode s type = (none, s.newInode.refuse.kfree s.next) ∨
    ramfsNewVnode s type = (some (s.next + 1), s.newNode type) := by
  unfold ramfsNewVnode
  rcases kmalloc_cases s .inode with heq | heq
  · rw [heq]
    exact .inl rfl
  rw [heq]
  dsimp only
  rw [← Store.newInode]
  rcases vnodeAlloc_cases s.newInode type .ramfs (some s.next) with heq | heq
  · rw [heq]
    exact .inr (.inl rfl)
  · rw [heq]
    exact .inr (.inr rfl)

theorem ramfsAddDirent_outcome (dir : Ref) (name : List UInt8) (child : Ref) :
    ramfsAddDirent s dir name child = (false, s.refuse) ∨
      ramfsAddDirent s dir name child =
        (true, s.newEntry dir name child) := by
  unfold ramfsAddDirent
  rcases kmalloc_cases s .dirent with heq | heq
  · rw [heq]
    exact .inl rfl
  · rw [heq]
    exact .inr rfl

end Outcomes

/-- A mount or a directory entry leads to the vnode. -/
def Linked (s : Store) (v : Nat) : Prop :=
  (∃ mount ∈ s.mounts, mount.root = v) ∨
    ∃ ino, ∃ entry ∈ (s.inodes ino).children, entry.vnode = v

theorem ramfsLookup_linked {dir v : Ref} {name : List UInt8}
    (hlookup : ramfsLookup s dir name = some v) : Linked s v := by
  unfold ramfsLookup at hlookup
  split_ifs at hlookup
  obtain ⟨entry, hfind, rfl⟩ := Option.map_eq_some_iff.mp hlookup
  exact .inr ⟨_, entry, List.mem_of_find?_eq_some hfind, rfl⟩

/-- One step of setting up files and directories; `made` are the vnodes made
so far. -/
inductive Build (made : List Ref) (s : Store) : List Ref → Store → Prop where
  | refuse : Build made s made s.refuse
  | lost : Build made s made (s.newInode.refuse.kfree s.next)
  | node (type : VnodeType) : Build made s ((s.next + 1) :: made)
      (s.newNode type)
  | device {ops : VfsOps} (hpipe : ¬ ops.IsPipe) (hramfs : ops ≠ .ramfs) :
      Build made s (s.next :: made) (s.newVnode ⟨.dev, 0, 0, ops, none⟩)
  | entry (dir : Ref) (name : List UInt8) {child : Ref}
      (hchild : child ∈ made) : Build made s made (s.newEntry dir name child)
  | drop (type : VnodeType) : Build made s made
      (((s.newNode type).refuse.kfree s.next).kfree (s.next + 1))
  | mount (root : Option Ref) {mounts : List Mount}
      (hmounts : ∀ mount ∈ mounts, mount ∈ s.mounts ∨ mount.root ∈ made) :
      Build made s made { s with ramfsRoot := root, mounts := mounts }
  | streams {stdin stdout stderr : Option Ref} (hin : ∀ v ∈ stdin, v ∈ made)
      (hout : ∀ v ∈ stdout, v ∈ made) (herr : ∀ v ∈ stderr, v ∈ made) :
      Build made s made { s with
        stdinVnode := stdin, stdoutVnode := stdout, stderrVnode := stderr }

inductive Builds (s : Store) : List Ref → Store → Prop where
  | start : Builds s [] s
  | step {made made' : List Ref} {t t' : Store} (hpast : Builds s made t)
      (hstep : Build made t made' t') : Builds s made' t'

theorem Build.adds {made made' : List Ref} (hbuild : Build made s made' s') :
    Adds s s' := by
  cases hbuild with
  | lost => exact (newInode_adds s).trans (.of_eq (Nat.le_refl _) rfl)
  | node => exact (newInode_adds s).trans (newVnode_adds _ rfl)
  | device => exact newVnode_adds s rfl
  | entry => exact setInode_adds s .dirent (.inl ⟨rfl, rfl⟩)
  | drop => exact (newInode_adds s).trans ((newVnode_adds _ rfl).trans
      (.of_eq (Nat.le_refl _) rfl))
  | _ => exact .of_eq (Nat.le_refl _) rfl

theorem Builds.adds {made : List Ref} (hbuilds : Builds s made s') :
    Adds s s' := by
  induction hbuilds with
  | start => exact .refl s
  | step _ hstep ih => exact ih.trans hstep.adds

section Builders

variable {made : List Ref} {t : Store}

theorem vnodeAlloc_builds (hbuilds : Builds s made t) {ops : VfsOps}
    (hpipe : ¬ ops.IsPipe) (hramfs : ops ≠ .ramfs) :
    Builds s ((vnodeAlloc t .dev ops none).1.toList ++ made)
      (vnodeAlloc t .dev ops none).2 := by
  rcases vnodeAlloc_cases t .dev ops none with heq | heq
  · rw [heq]
    exact hbuilds.step .refuse
  · rw [heq]
    exact hbuilds.step (.device hpipe hramfs)

theorem ramfsNewVnode_builds (hbuilds : Builds s made t) (type : VnodeType) :
    Builds s ((ramfsNewVnode t type).1.toList ++ made)
      (ramfsNewVnode t type).2 := by
  rcases ramfsNewVnode_outcome t type with heq | heq | heq
  · rw [heq]
    exact hbuilds.step .refuse
  · rw [heq]
    exact hbuilds.step .lost
  · rw [heq]
    exact hbuilds.step (.node type)

theorem ramfsCreate_builds (hbuilds : Builds s made t) (dir : Ref)
    (name : List UInt8) (type : VnodeType) : ∃ made',
      Builds s made' (ramfsCreate t dir name type).2 ∧
        ∀ v ∈ (ramfsCreate t dir name type).1, v ∈ made' ∨ Linked t v := by
  unfold ramfsCreate
  split_ifs
  · exact ⟨made, hbuilds, nofun⟩
  cases hlookup : ramfsLookup t dir name with
  | some existing =>
      refine ⟨made, hbuilds, ?_⟩
      rintro v ⟨⟩
      exact .inr (ramfsLookup_linked hlookup)
  | none =>
      dsimp only
      rcases ramfsNewVnode_outcome t type with heq | heq | heq
      · rw [heq]
        exact ⟨made, hbuilds.step .refuse, nofun⟩
      · rw [heq]
        exact ⟨made, hbuilds.step .lost, nofun⟩
      rw [heq]
      dsimp only
      rcases ramfsAddDirent_outcome (t.newNode type) dir name
        (t.next + 1) with hadd | hadd
      · rw [hadd]
        change ∃ made', Builds s made' (((t.newNode type).refuse.kfreeOption
          ((t.newNode type).vnodes _).data).kfree _) ∧ _
        rw [newNode_vnode]
        exact ⟨made, hbuilds.step (.drop type), nofun⟩
      · rw [hadd]
        refine ⟨_, (hbuilds.step (.node type)).step
          (.entry dir name List.mem_cons_self), ?_⟩
        rintro v ⟨⟩
        exact .inl List.mem_cons_self

theorem vfsMkdir_builds (hbuilds : Builds s made t) (path : List UInt8) :
    ∃ made', Builds s made' (vfsMkdir t path).2 := by
  unfold vfsMkdir
  split_ifs
  · exact ⟨made, hbuilds⟩
  split
  · exact ⟨made, hbuilds⟩
  rename_i dir name _
  obtain ⟨made', hcreate, -⟩ := ramfsCreate_builds hbuilds dir name .dir
  unfold ramfsMkdirOp
  generalize ramfsCreate t dir name .dir = result at hcreate ⊢
  rcases result with ⟨_ | v, t₁⟩
  · exact ⟨made', hcreate⟩
  · exact ⟨made', hcreate⟩

theorem ramfsRegisterDev_builds (hbuilds : Builds s made t)
    (path : List UInt8) {dev : Ref} (hdev : dev ∈ made) :
    Builds s made (ramfsRegisterDev t path dev).2 := by
  unfold ramfsRegisterDev
  split_ifs
  · exact hbuilds
  split
  · exact hbuilds
  rename_i dir leaf _
  rcases ramfsAddDirent_outcome t dir leaf dev with heq | heq
  · rw [heq]
    exact hbuilds.step .refuse
  · rw [heq]
    exact hbuilds.step (.entry dir leaf hdev)

theorem ramfsInit_builds (hbuilds : Builds s made t) :
    ∃ made', Builds s made' (ramfsInit t) := by
  unfold ramfsInit
  have hnew := ramfsNewVnode_builds hbuilds .dir
  generalize ramfsNewVnode t .dir = node at hnew ⊢
  rcases node with ⟨_ | root, t₁⟩
  · exact ⟨made, hnew⟩
  dsimp only [vfsMount]
  split_ifs
  · exact ⟨_, hnew.step (.mount _ fun _ => .inl)⟩
  · refine ⟨_, hnew.step (.mount _ fun mount hmem => ?_)⟩
    rcases List.mem_append.mp hmem with hold | hroot
    · exact .inl hold
    · rw [List.mem_singleton.mp hroot]
      exact .inr List.mem_cons_self

theorem devfsInit_builds (hbuilds : Builds s made t) :
    ∃ made', Builds s made' (devfsInit t) := by
  unfold devfsInit
  obtain ⟨made', hmkdir⟩ := vfsMkdir_builds hbuilds devPath
  generalize vfsMkdir t devPath = result at hmkdir ⊢
  rcases result with ⟨_ | _, t₀⟩
  · exact ⟨made', hmkdir⟩
  dsimp only at hmkdir ⊢
  have hin := @vnodeAlloc_builds s made' t₀ hmkdir .stdin
    (by simp [VfsOps.IsPipe]) nofun
  generalize vnodeAlloc t₀ .dev .stdin none = stdin at hin ⊢
  have hout := @vnodeAlloc_builds s _ _ hin .stdout
    (by simp [VfsOps.IsPipe]) nofun
  generalize vnodeAlloc stdin.2 .dev .stdout none = stdout at hout ⊢
  have herr := @vnodeAlloc_builds s _ _ hout .stderr
    (by simp [VfsOps.IsPipe]) nofun
  generalize vnodeAlloc stdout.2 .dev .stderr none = stderr at herr ⊢
  generalize hall : stderr.1.toList ++ (stdout.1.toList ++
    (stdin.1.toList ++ made')) = made'' at herr
  have hmade : (∀ v ∈ stdin.1, v ∈ made'') ∧ (∀ v ∈ stdout.1, v ∈ made'') ∧
      ∀ v ∈ stderr.1, v ∈ made'' := by
    subst hall
    simp +contextual
  have hset := herr.step (.streams hmade.1 hmade.2.1 hmade.2.2)
  refine ⟨made'', ?_⟩
  split
  · rename_i i o e hi ho he
    exact ramfsRegisterDev_builds (ramfsRegisterDev_builds
      (ramfsRegisterDev_builds hset stdinPath (hmade.1 i hi)) stdoutPath
      (hmade.2.1 o ho)) stderrPath (hmade.2.2 e he)
  · exact hset

/-- The file system as the kernel sets it up. -/
theorem fsInit_builds (s : Store) :
    ∃ made, Builds s made (devfsInit (ramfsInit s)) := by
  obtain ⟨made, hramfs⟩ := ramfsInit_builds (.start (s := s))
  exact devfsInit_builds hramfs

theorem ramfsCreate_adds (s : Store) (dir : Ref) (name : List UInt8)
    (type : VnodeType) : Adds s (ramfsCreate s dir name type).2 := by
  obtain ⟨made, hbuilds, -⟩ := ramfsCreate_builds .start dir name type
  exact hbuilds.adds

theorem vfsMkdir_adds (s : Store) (path : List UInt8) :
    Adds s (vfsMkdir s path).2 := by
  obtain ⟨made, hbuilds⟩ := vfsMkdir_builds .start path
  exact hbuilds.adds

theorem fsInit_adds (s : Store) : Adds s (devfsInit (ramfsInit s)) := by
  obtain ⟨made, hbuilds⟩ := fsInit_builds s
  exact hbuilds.adds

end Builders

/-- A file that is opened with `O_TRUNC` loses its buffer. -/
inductive Truncates (s : Store) (v : Ref) (flags : UInt32) : Store → Prop where
  | not (hnot : ¬ (flags &&& oTrunc ≠ 0 ∧ (s.vnodes v).type = .file)) :
      Truncates s v flags s
  | empties (cells : Ref → Option ObjKind) (freed : List Ref)
      (htrunc : flags &&& oTrunc ≠ 0) (htype : (s.vnodes v).type = .file)
      (hcells : ∀ f kind, cells f = some kind → s.cells f = some kind) :
      Truncates s v flags (Store.setInode
        { s.setVnode v { s.vnodes v with size := 0 } with
          cells := cells, freed := freed } (inodeOf s v)
        { s.inodes (inodeOf s v) with capacity := 0, buf := none })

theorem ramfsOpen_truncates (s : Store) (v : Ref) (flags : UInt32) :
    Truncates s v flags (ramfsOpen s v flags) := by
  unfold ramfsOpen
  dsimp only
  by_cases htrunc : flags &&& oTrunc ≠ 0 ∧ (s.vnodes v).type = .file
  · rw [if_pos htrunc]
    obtain ⟨cells, freed, hfree, hcells⟩ := kfreeOption_eq
      (s.setVnode v { s.vnodes v with size := 0 })
      (s.inodes (inodeOf s v)).buf
    rw [hfree]
    exact .empties cells freed htrunc.1 htrunc.2 hcells
  · rw [if_neg htrunc]
    exact .not htrunc

/-- The open entry of the vnode's operation table. -/
def backendOpen (s : Store) (v : Ref) (flags : UInt32) : Store :=
  if (s.vnodes v).ops = .ramfs then ramfsOpen s v flags else s

/-- A new open file on a vnode. -/
def openedFile (s : Store) (v : Ref) (offset : Nat) (flags : UInt32) : Store :=
  vnodeRef ((s.grant .file).setFile s.next ⟨v, offset, flags, 1⟩) v

theorem vfsOpenVnode_some (s : Store) (v : Ref) (flags : UInt32) :
    vfsOpenVnode s (some v) flags = (none, (backendOpen s v flags).refuse) ∨
    ∃ offset, vfsOpenVnode s (some v) flags =
      (some (backendOpen s v flags).next,
        openedFile (backendOpen s v flags) v offset flags) ∧
      offset = if flags &&& oAppend ≠ 0
        then ((backendOpen s v flags).vnodes v).size else 0 := by
  unfold vfsOpenVnode
  dsimp only
  rw [← backendOpen]
  rcases kmalloc_cases (backendOpen s v flags) .file with heq | heq
  · rw [heq]
    exact .inl rfl
  · rw [heq]
    exact .inr ⟨_, rfl, rfl⟩

/-- How `ramfs_write` comes to its buffer: the old one has room, there is no
memory, or the bytes move into a new one. -/
inductive Rebuffers (s : Store) (v : Ref) (stop : Nat) :
    Option Ref → Store → Prop where
  | fits (hroom : stop ≤ (s.inodes (inodeOf s v)).capacity) :
      Rebuffers s v stop (some ((s.inodes (inodeOf s v)).buf.getD 0)) s
  | refused (hroom : (s.inodes (inodeOf s v)).capacity < stop)
      (hmalloc : s.kmalloc .buffer = (none, s.refuse)) :
      Rebuffers s v stop none s.refuse
  | moved (capacity : Nat) (bytes : Nat → UInt8)
      (cells : Ref → Option ObjKind) (freed : List Ref)
      (hroom : (s.inodes (inodeOf s v)).capacity < stop)
      (hmalloc : s.kmalloc .buffer = (some s.next, s.grant .buffer))
      (hloop : growCapacity stop 64
        (if (s.inodes (inodeOf s v)).capacity = 0 then 64
          else (s.inodes (inodeOf s v)).capacity) = some capacity)
      (hbytes : ∀ b, (s.inodes (inodeOf s v)).buf = some b →
        ∀ i < (s.vnodes v).size, bytes i = s.bytes b i)
      (hcells : ∀ f kind, cells f = some kind →
        (s.grant .buffer).cells f = some kind)
      (hfree : ((s.grant .buffer).setBytes s.next bytes).kfreeOption
        (s.inodes (inodeOf s v)).buf =
        { (s.grant .buffer).setBytes s.next bytes with
          cells := cells, freed := freed }) :
      Rebuffers s v stop (some s.next) (Store.setInode
        { (s.grant .buffer).setBytes s.next bytes with
          cells := cells, freed := freed } (inodeOf s v)
        { s.inodes (inodeOf s v) with
          buf := some s.next, capacity := capacity })

theorem ramfsGrow_rebuffers {v : Ref} {stop : Nat} {buf : Option Ref}
    (hgrow : ramfsGrow s v stop = some (buf, s')) :
    Rebuffers s v stop buf s' := by
  unfold ramfsGrow at hgrow
  dsimp only at hgrow
  by_cases hroom : (s.inodes (inodeOf s v)).capacity < stop
  · rw [if_pos hroom] at hgrow
    obtain ⟨capacity, hloop, hmalloc⟩ := Option.map_eq_some_iff.mp hgrow
    rcases kmalloc_cases s .buffer with heq | heq
    · rw [heq] at hmalloc
      obtain ⟨rfl, rfl⟩ := Prod.mk.inj hmalloc
      exact .refused hroom heq
    · rw [heq] at hmalloc
      dsimp only at hmalloc
      generalize hmoved : (fun i =>
        if (s.inodes (inodeOf s v)).buf.isSome = true ∧ i < (s.vnodes v).size
        then (s.grant .buffer).bytes ((s.inodes (inodeOf s v)).buf.getD 0) i
        else (s.grant .buffer).bytes s.next i) = bytes at hmalloc
      obtain ⟨cells, freed, hfree, hcells⟩ := kfreeOption_eq
        ((s.grant .buffer).setBytes s.next bytes)
        (s.inodes (inodeOf s v)).buf
      rw [hfree] at hmalloc
      obtain ⟨rfl, rfl⟩ := Prod.mk.inj hmalloc
      refine .moved capacity bytes cells freed hroom heq hloop
        (fun b hbuf i hi => ?_) hcells hfree
      rw [← hmoved, hbuf]
      exact if_pos ⟨rfl, hi⟩
  · rw [if_neg hroom] at hgrow
    obtain ⟨rfl, rfl⟩ := Prod.mk.inj (Option.some.inj hgrow)
    exact .fits (Nat.le_of_not_lt hroom)

end Orion
