/-
The directories of the ramfs.  What path resolution reads of the store is the
kind of each vnode and the entries of each inode; opening, reading, writing
and closing leave both alone, and a new entry leads to a new vnode.
-/
import Orion.Creation
import Orion.PathWalk
import Orion.Syscall

namespace Orion

/-- What path resolution reads of a vnode. -/
def Vnode.shape (vnode : Vnode) : VnodeType × VfsOps × Option Ref :=
  (vnode.type, vnode.ops, vnode.data)

/-- The entries of a directory, latest first. -/
def entriesOf (s : Store) (dir : Ref) : List Dirent :=
  (s.inodes (inodeOf s dir)).children

/-- The directories form a hierarchy: each has an inode of its own, and entries
lead to vnodes that exist, to directories only if these are younger. -/
structure FsTree (s : Store) : Prop where
  dirs : ∀ v, (s.vnodes v).type = .dir → v < s.next ∧
    (s.vnodes v).ops = .ramfs ∧ ∃ ino, (s.vnodes v).data = some ino ∧ ino < s.next
  inodes : ∀ v w, (s.vnodes v).type = .dir → (s.vnodes w).type = .dir →
    inodeOf s v = inodeOf s w → v = w
  unborn : ∀ ino, s.next ≤ ino → (s.inodes ino).children = []
  links : ∀ v, (s.vnodes v).type = .dir → ∀ entry ∈ entriesOf s v,
    entry.vnode < s.next ∧ entry.name.length ≤ vfsNameMax - 1 ∧
      ((s.vnodes entry.vnode).type = .dir → v < entry.vnode)
  mounts : ∀ mount ∈ s.mounts, mount.root < s.next ∧
    mount.path.length < vfsPathMax - 1

/-- Nothing that path resolution reads has changed. -/
structure Unmoved (s s' : Store) : Prop where
  next : s.next ≤ s'.next
  mounts : s'.mounts = s.mounts
  root : s'.ramfsRoot = s.ramfsRoot
  shape : ∀ v, (s'.vnodes v).shape = (s.vnodes v).shape
  children : ∀ ino, (s'.inodes ino).children = (s.inodes ino).children

/-- There is a new vnode, and no entry for it. -/
structure NewVnode (s : Store) (v : Ref) (type : VnodeType) (ops : VfsOps)
    (data : Option Ref) (s' : Store) : Prop where
  next : s.next ≤ s'.next
  mounts : s'.mounts = s.mounts
  root : s'.ramfsRoot = s.ramfsRoot
  fresh : s.next ≤ v
  born : v < s'.next
  vnode : (s'.vnodes v).shape = (type, ops, data)
  others : ∀ w, w ≠ v → (s'.vnodes w).shape = (s.vnodes w).shape
  children : ∀ ino, (s'.inodes ino).children = (s.inodes ino).children
  inode : ∀ ino, data = some ino → s.next ≤ ino ∧ ino < s'.next

/-- There is a new entry at the front of a directory. -/
structure Links (s : Store) (dir : Ref) (name : List UInt8) (child : Ref)
    (s' : Store) : Prop where
  next : s.next ≤ s'.next
  mounts : s'.mounts = s.mounts
  root : s'.ramfsRoot = s.ramfsRoot
  shape : ∀ v, (s'.vnodes v).shape = (s.vnodes v).shape
  entry : ∃ d, (s'.inodes (inodeOf s dir)).children =
    ⟨d, name, child⟩ :: entriesOf s dir
  others : ∀ ino, ino ≠ inodeOf s dir →
    (s'.inodes ino).children = (s.inodes ino).children

section Relations

variable {s s' s'' : Store}

theorem Unmoved.refl (s : Store) : Unmoved s s :=
  ⟨Nat.le_refl _, rfl, rfl, fun _ => rfl, fun _ => rfl⟩

theorem Unmoved.trans (hfirst : Unmoved s s') (hsecond : Unmoved s' s'') :
    Unmoved s s'' where
  next := hfirst.next.trans hsecond.next
  mounts := hsecond.mounts.trans hfirst.mounts
  root := hsecond.root.trans hfirst.root
  shape := fun v => (hsecond.shape v).trans (hfirst.shape v)
  children := fun ino => (hsecond.children ino).trans (hfirst.children ino)

theorem type_eq_of_shape {v : Ref}
    (hshape : (s'.vnodes v).shape = (s.vnodes v).shape) :
    (s'.vnodes v).type = (s.vnodes v).type := congrArg Prod.fst hshape

theorem ops_eq_of_shape {v : Ref}
    (hshape : (s'.vnodes v).shape = (s.vnodes v).shape) :
    (s'.vnodes v).ops = (s.vnodes v).ops := congrArg (·.2.1) hshape

theorem data_eq_of_shape {v : Ref}
    (hshape : (s'.vnodes v).shape = (s.vnodes v).shape) :
    (s'.vnodes v).data = (s.vnodes v).data := congrArg (·.2.2) hshape

theorem inodeOf_eq_of_shape {v : Ref}
    (hshape : (s'.vnodes v).shape = (s.vnodes v).shape) :
    inodeOf s' v = inodeOf s v := by
  rw [inodeOf, inodeOf, data_eq_of_shape hshape]

theorem Unmoved.entriesOf (hsame : Unmoved s s') (v : Ref) :
    Orion.entriesOf s' v = Orion.entriesOf s v := by
  rw [Orion.entriesOf, inodeOf_eq_of_shape (hsame.shape v), hsame.children]
  rfl

theorem refuse_unmoved (s : Store) : Unmoved s s.refuse :=
  ⟨Nat.le_refl _, rfl, rfl, fun _ => rfl, fun _ => rfl⟩

theorem kfree_unmoved (s : Store) (ref : Ref) : Unmoved s (s.kfree ref) :=
  ⟨Nat.le_refl _, rfl, rfl, fun _ => rfl, fun _ => rfl⟩

theorem kfreeOption_unmoved (s : Store) (ref : Option Ref) :
    Unmoved s (s.kfreeOption ref) := by
  cases ref with
  | none => exact .refl s
  | some ref => exact kfree_unmoved s ref

theorem setVnode_unmoved {v : Ref} {vnode : Vnode}
    (hshape : vnode.shape = (s.vnodes v).shape) :
    Unmoved s (s.setVnode v vnode) := by
  refine ⟨Nat.le_refl _, rfl, rfl, ?_, fun _ => rfl⟩
  exact (Function.forall_update_iff s.vnodes fun w new =>
    new.shape = (s.vnodes w).shape).mpr ⟨hshape, fun _ _ => rfl⟩

theorem setInode_unmoved {ino : Ref} {inode : Inode}
    (hchildren : inode.children = (s.inodes ino).children) :
    Unmoved s (s.setInode ino inode) := by
  refine ⟨Nat.le_refl _, rfl, rfl, fun _ => rfl, ?_⟩
  exact (Function.forall_update_iff s.inodes fun i new =>
    new.children = (s.inodes i).children).mpr ⟨hchildren, fun _ _ => rfl⟩

theorem backendOpen_unmoved (s : Store) (v : Ref) (flags : UInt32) :
    Unmoved s (backendOpen s v flags) := by
  unfold backendOpen
  split_ifs
  · have hopen := ramfsOpen_truncates s v flags
    generalize ramfsOpen s v flags = s₁ at hopen ⊢
    cases hopen with
    | not => exact .refl s
    | empties =>
        exact ⟨Nat.le_refl _, rfl, rfl, (@setVnode_unmoved s v
          { s.vnodes v with size := 0 } rfl).shape,
          (@setInode_unmoved s (inodeOf s v) { s.inodes (inodeOf s v) with
            capacity := 0, buf := none } rfl).children⟩
  · exact .refl s

/-- An open file is made for the vnode, and the tree stays as it is. -/
theorem vfsOpenVnode_unmoved (s : Store) (v : Ref) (flags : UInt32) :
    Unmoved s (vfsOpenVnode s (some v) flags).2 ∧
      ∀ f, (vfsOpenVnode s (some v) flags).1 = some f →
        ((vfsOpenVnode s (some v) flags).2.files f).vnode = v := by
  have hopen := backendOpen_unmoved s v flags
  rcases vfsOpenVnode_some s v flags with heq | ⟨offset, heq, -⟩
  · rw [heq]
    exact ⟨hopen.trans (refuse_unmoved _), nofun⟩
  · rw [heq]
    generalize backendOpen s v flags = s₁ at hopen ⊢
    refine ⟨hopen.trans ⟨Nat.le_succ _, rfl, rfl, (@setVnode_unmoved s₁ v
      { s₁.vnodes v with
        refcount := MachineInt.u32 ((s₁.vnodes v).refcount + 1) }
      rfl).shape, fun _ => rfl⟩, ?_⟩
    rintro _ ⟨⟩
    change (Function.update s₁.files s₁.next _ s₁.next).vnode = v
    rw [Function.update_self]

end Relations

section Trees

variable {s s' : Store} {dir child v cur : Ref} {name : List UInt8}
  {names : List (List UInt8)}

/-- At most one vnode is new, and new entries lead to younger directories. -/
theorem FsTree.extend (htree : FsTree s) (hnext : s.next ≤ s'.next)
    (hmounts : s'.mounts = s.mounts)
    (hvnodes : ∀ w, (s'.vnodes w).shape = (s.vnodes w).shape ∨
      w = v ∧ s.next ≤ v ∧ v < s'.next ∧ ((s'.vnodes v).type = .dir →
        (s'.vnodes v).ops = .ramfs ∧ ∃ ino, (s'.vnodes v).data = some ino ∧
          s.next ≤ ino ∧ ino < s'.next))
    (hchildren : ∀ ino, ∀ entry ∈ (s'.inodes ino).children,
      entry ∈ (s.inodes ino).children ∨ ∃ dir, (s.vnodes dir).type = .dir ∧
        ino = inodeOf s dir ∧ entry.vnode < s'.next ∧
        entry.name.length ≤ vfsNameMax - 1 ∧
        ((s'.vnodes entry.vnode).type = .dir → dir < entry.vnode)) :
    FsTree s' := by
  have hborn : ∀ dir, (s.vnodes dir).type = .dir → inodeOf s dir < s.next := by
    intro dir hdir
    obtain ⟨-, -, ino, hdata, hlt⟩ := htree.dirs dir hdir
    rwa [inodeOf, hdata]
  -- the inode of the new vnode is younger than those of the old directories
  have hdirs : ∀ w, (s'.vnodes w).type = .dir →
      ((s'.vnodes w).shape = (s.vnodes w).shape ∧ (s.vnodes w).type = .dir ∧
        inodeOf s' w = inodeOf s w) ∨ w = v ∧ s.next ≤ inodeOf s' w := by
    intro w hw
    rcases hvnodes w with hshape | ⟨rfl, -, -, hdir⟩
    · exact .inl ⟨hshape, (type_eq_of_shape hshape).symm.trans hw,
        inodeOf_eq_of_shape hshape⟩
    · obtain ⟨-, ino, hdata, hle, -⟩ := hdir hw
      refine .inr ⟨rfl, ?_⟩
      rwa [inodeOf, hdata]
  have hbelow : ∀ ino, ∀ entry ∈ (s'.inodes ino).children, ino < s.next := by
    intro ino entry hmem
    by_contra hge
    rcases hchildren ino entry hmem with hold | ⟨dir, hdir, rfl, -⟩
    · rw [htree.unborn ino (Nat.not_lt.mp hge)] at hold
      cases hold
    · exact hge (hborn dir hdir)
  refine ⟨fun w hw => ?_, fun w x hw hx hwx => ?_, fun ino hino => ?_,
    fun w hw entry hentry => ?_, fun mount hmem => ?_⟩
  · rcases hvnodes w with hshape | ⟨rfl, -, hlt, hdir⟩
    · rw [type_eq_of_shape hshape] at hw
      obtain ⟨hlt, hops, ino, hdata, hino⟩ := htree.dirs w hw
      exact ⟨hlt.trans_le hnext, (ops_eq_of_shape hshape).trans hops, ino,
        (data_eq_of_shape hshape).trans hdata, hino.trans_le hnext⟩
    · obtain ⟨hops, ino, hdata, -, hino⟩ := hdir hw
      exact ⟨hlt, hops, ino, hdata, hino⟩
  · rcases hdirs w hw with ⟨-, hw', hinode⟩ | ⟨rfl, hnew⟩
    · rcases hdirs x hx with ⟨-, hx', hinode'⟩ | ⟨rfl, hnew⟩
      · exact htree.inodes w x hw' hx' (by rwa [hinode, hinode'] at hwx)
      · exact absurd (hborn w hw') (Nat.not_lt.mpr
          (hnew.trans_eq (hwx.symm.trans hinode)))
    · rcases hdirs x hx with ⟨-, hx', hinode'⟩ | ⟨rfl, -⟩
      · exact absurd (hborn x hx') (Nat.not_lt.mpr
          (hnew.trans_eq (hwx.trans hinode')))
      · rfl
  · exact List.eq_nil_iff_forall_not_mem.mpr fun entry hmem =>
      (hnext.trans hino).not_gt (hbelow ino entry hmem)
  · rcases hdirs w hw with ⟨-, hw', hinode⟩ | ⟨-, hnew⟩
    swap
    · exact absurd (hbelow _ entry hentry) (Nat.not_lt.mpr hnew)
    rw [entriesOf, hinode] at hentry
    rcases hchildren _ entry hentry with hold | ⟨dir, hdir, hino, hlink⟩
    · obtain ⟨hlt, hname, hrank⟩ := htree.links w hw' entry hold
      refine ⟨hlt.trans_le hnext, hname, fun htype => hrank ?_⟩
      rcases hvnodes entry.vnode with hshape | ⟨heq, hge, -⟩
      · exact (type_eq_of_shape hshape).symm.trans htype
      · exact absurd hlt (Nat.not_lt.mpr (heq ▸ hge))
    · exact htree.inodes w dir hw' hdir hino ▸ hlink
  · rw [hmounts] at hmem
    obtain ⟨hlt, hlength⟩ := htree.mounts mount hmem
    exact ⟨hlt.trans_le hnext, hlength⟩

theorem FsTree.unmoved (htree : FsTree s) (hsame : Unmoved s s') : FsTree s' :=
  @FsTree.extend _ _ 0 htree hsame.next hsame.mounts
    (fun w => .inl (hsame.shape w)) fun ino _ hmem =>
      .inl (hsame.children ino ▸ hmem)

theorem FsTree.newVnode {type : VnodeType} {ops : VfsOps} {data : Option Ref}
    (htree : FsTree s) (hnew : NewVnode s v type ops data s')
    (hdir : type = .dir → ops = .ramfs ∧ data ≠ none) : FsTree s' := by
  refine @FsTree.extend _ _ v htree hnew.next hnew.mounts (fun w => ?_)
    fun ino _ hmem => .inl (hnew.children ino ▸ hmem)
  by_cases hw : w = v
  · refine .inr ⟨hw, hnew.fresh, hnew.born, fun htype => ?_⟩
    obtain ⟨rfl, rfl, rfl⟩ : (s'.vnodes v).type = type ∧
        (s'.vnodes v).ops = ops ∧ (s'.vnodes v).data = data := by
      simpa [Vnode.shape] using hnew.vnode
    obtain ⟨hops, hsome⟩ := hdir htype
    obtain ⟨ino, hdata⟩ := Option.ne_none_iff_exists'.mp hsome
    exact ⟨hops, ino, hdata, hnew.inode ino hdata⟩
  · exact .inl (hnew.others w hw)

theorem Links.entriesOf (hlinks : Links s dir name child s') (v : Ref) :
    (inodeOf s v = inodeOf s dir ∧ ∃ d, Orion.entriesOf s' v =
      ⟨d, name, child⟩ :: Orion.entriesOf s v) ∨
    (inodeOf s v ≠ inodeOf s dir ∧
      Orion.entriesOf s' v = Orion.entriesOf s v) := by
  have hinode : inodeOf s' v = inodeOf s v := inodeOf_eq_of_shape (hlinks.shape v)
  by_cases hv : inodeOf s v = inodeOf s dir
  · obtain ⟨d, hentry⟩ := hlinks.entry
    refine .inl ⟨hv, d, ?_⟩
    rw [Orion.entriesOf, hinode, hv, hentry, Orion.entriesOf, Orion.entriesOf, hv]
  · refine .inr ⟨hv, ?_⟩
    rw [Orion.entriesOf, hinode, hlinks.others _ hv]
    rfl

/-- The vnodes that were there have their entries. -/
theorem NewVnode.entriesOf {type : VnodeType} {ops : VfsOps} {data : Option Ref}
    (hnew : NewVnode s v type ops data s') {w : Ref} (hw : w < s.next) :
    Orion.entriesOf s' w = Orion.entriesOf s w := by
  have hshape := hnew.others w (hw.trans_le hnew.fresh).ne
  rw [Orion.entriesOf, inodeOf_eq_of_shape hshape, hnew.children]
  rfl

theorem NewVnode.unmoved {type : VnodeType} {ops : VfsOps} {data : Option Ref}
    {s₁ : Store} (hnew : NewVnode s v type ops data s₁)
    (hsame : Unmoved s₁ s') : NewVnode s v type ops data s' where
  next := hnew.next.trans hsame.next
  mounts := hsame.mounts.trans hnew.mounts
  root := hsame.root.trans hnew.root
  fresh := hnew.fresh
  born := hnew.born.trans_le hsame.next
  vnode := (hsame.shape v).trans hnew.vnode
  others := fun w hw => (hsame.shape w).trans (hnew.others w hw)
  children := fun ino => (hsame.children ino).trans (hnew.children ino)
  inode := fun ino hino => ⟨(hnew.inode ino hino).1,
    (hnew.inode ino hino).2.trans_le hsame.next⟩

theorem Links.unmoved {s₁ : Store} (hlinks : Links s dir name child s₁)
    (hsame : Unmoved s₁ s') : Links s dir name child s' where
  next := hlinks.next.trans hsame.next
  mounts := hsame.mounts.trans hlinks.mounts
  root := hsame.root.trans hlinks.root
  shape := fun v => (hsame.shape v).trans (hlinks.shape v)
  entry := hlinks.entry.imp fun _ hentry => (hsame.children _).trans hentry
  others := fun ino hino => (hsame.children ino).trans (hlinks.others ino hino)

/-- The entries after a link: the old ones, and the new one in its
directory. -/
theorem Links.mem_children (hlinks : Links s dir name child s') {ino : Ref}
    {entry : Dirent} (hmem : entry ∈ (s'.inodes ino).children) :
    entry ∈ (s.inodes ino).children ∨
      (ino = inodeOf s dir ∧ entry.name = name ∧ entry.vnode = child) := by
  by_cases hino : ino = inodeOf s dir
  · subst hino
    obtain ⟨d, hentry⟩ := hlinks.entry
    rw [hentry] at hmem
    rcases List.mem_cons.mp hmem with rfl | hold
    · exact .inr ⟨rfl, rfl, rfl⟩
    · exact .inl hold
  · rw [hlinks.others ino hino] at hmem
    exact .inl hmem

theorem FsTree.links_tree (htree : FsTree s)
    (hlinks : Links s dir name child s') (hdir : (s.vnodes dir).type = .dir)
    (hchild : child < s.next) (hname : name.length ≤ vfsNameMax - 1)
    (hrank : (s.vnodes child).type = .dir → dir < child) : FsTree s' := by
  refine @FsTree.extend _ _ 0 htree hlinks.next hlinks.mounts
    (fun w => .inl (hlinks.shape w)) fun ino entry hmem => ?_
  refine (hlinks.mem_children hmem).imp_right ?_
  rintro ⟨hino, rfl, rfl⟩
  rw [type_eq_of_shape (hlinks.shape entry.vnode)]
  exact ⟨dir, hdir, hino, hchild.trans_le hlinks.next, hname, hrank⟩

theorem ramfsLookup_eq_some (hlookup : ramfsLookup s cur name = some v) :
    (s.vnodes cur).type = .dir ∧
      ∃ entry ∈ entriesOf s cur, entry.name = name ∧ entry.vnode = v := by
  unfold ramfsLookup at hlookup
  split_ifs at hlookup with hdir
  obtain ⟨entry, hfind, hvnode⟩ := Option.map_eq_some_iff.mp hlookup
  refine ⟨not_not.mp hdir, entry, List.mem_of_find?_eq_some hfind, ?_, hvnode⟩
  have hname := List.find?_some hfind
  exact of_decide_eq_true hname

/-- Lookups see the kind of the directory and its entries. -/
theorem ramfsLookup_congr
    (hshape : (s'.vnodes cur).shape = (s.vnodes cur).shape)
    (hentries : entriesOf s' cur = entriesOf s cur) (name : List UInt8) :
    ramfsLookup s' cur name = ramfsLookup s cur name := by
  have hchildren : (s'.inodes (inodeOf s' cur)).children =
    (s.inodes (inodeOf s cur)).children := hentries
  rw [ramfsLookup, ramfsLookup, type_eq_of_shape hshape, hchildren]

theorem descend_cons_eq_some :
    descend s cur (name :: names) = some v ↔ (s.vnodes cur).ops = .ramfs ∧
      ∃ next, ramfsLookup s cur name = some next ∧
        descend s next names = some v := by
  rw [descend]
  split_ifs with hops
  · rw [Option.bind_eq_some_iff]
    exact (and_iff_right hops).symm
  · exact iff_of_false (by simp) fun h => hops h.1

/-- A walk to a directory goes to younger and younger ones. -/
theorem FsTree.descend_lt (htree : FsTree s) (hv : (s.vnodes v).type = .dir)
    (hwalk : descend s cur names = some v) (hne : names ≠ []) : cur < v := by
  induction names generalizing cur with
  | nil => exact absurd rfl hne
  | cons name names ih =>
      obtain ⟨-, next, hlookup, hrest⟩ := descend_cons_eq_some.mp hwalk
      obtain ⟨hcur, entry, hmem, -, rfl⟩ := ramfsLookup_eq_some hlookup
      have hyounger := (htree.links cur hcur entry hmem).2.2
      cases names with
      | nil =>
          obtain rfl := Option.some.inj hrest
          exact hyounger hv
      | cons name' names =>
          obtain ⟨-, after, hlookup', -⟩ := descend_cons_eq_some.mp hrest
          have hdir := (ramfsLookup_eq_some hlookup').1
          exact (hyounger hdir).trans (ih hrest (List.cons_ne_nil _ _))

/-- Walks lead to vnodes that exist. -/
theorem FsTree.descend_lt_next (htree : FsTree s) (hcur : cur < s.next)
    (hwalk : descend s cur names = some v) : v < s.next := by
  induction names generalizing cur with
  | nil => exact Option.some.inj hwalk ▸ hcur
  | cons name names ih =>
      obtain ⟨-, next, hlookup, hrest⟩ := descend_cons_eq_some.mp hwalk
      obtain ⟨hdir, entry, hmem, -, rfl⟩ := ramfsLookup_eq_some hlookup
      exact ih (htree.links cur hdir entry hmem).1 hrest

theorem vfsResolve_unmoved (hsame : Unmoved s s') (path : List UInt8) :
    vfsResolve s' path = vfsResolve s path := by
  have hentries : ∀ v, entriesOf s' v = entriesOf s v := by
    intro v
    rw [entriesOf, inodeOf_eq_of_shape (hsame.shape v), hsame.children]
    rfl
  have hwalk : ∀ names cur, descend s' cur names = descend s cur names := by
    intro names
    induction names with
    | nil => exact fun _ => rfl
    | cons name names ih =>
        intro cur
        rw [descend, descend, ops_eq_of_shape (hsame.shape cur),
          ramfsLookup_congr (hsame.shape cur) (hentries cur)]
        simp only [ih]
  have hfind : findMount s' path = findMount s path := by
    unfold findMount
    rw [hsame.mounts]
  rw [vfsResolve_eq_descend, vfsResolve_eq_descend, hfind]
  simp only [hwalk]

/-- Walks from the vnodes that were there do not see the new one. -/
theorem descend_newVnode {type : VnodeType} {ops : VfsOps}
    {data : Option Ref} (htree : FsTree s)
    (hnew : NewVnode s v type ops data s') (hcur : cur < s.next) :
    descend s' cur names = descend s cur names := by
  induction names generalizing cur with
  | nil => rfl
  | cons name names ih =>
      have hshape := hnew.others cur (hcur.trans_le hnew.fresh).ne
      rw [descend, descend, ops_eq_of_shape hshape,
        ramfsLookup_congr hshape (hnew.entriesOf hcur)]
      split_ifs
      · cases hlookup : ramfsLookup s cur name with
        | none => rfl
        | some next =>
            obtain ⟨hdir, entry, hmem, -, rfl⟩ := ramfsLookup_eq_some hlookup
            exact ih (htree.links cur hdir entry hmem).1
      · rfl

/-- A vnode without an entry is not found. -/
theorem vfsResolve_newVnode {type : VnodeType} {ops : VfsOps}
    {data : Option Ref} (htree : FsTree s)
    (hnew : NewVnode s v type ops data s') (path : List UInt8) :
    vfsResolve s' path = vfsResolve s path := by
  have hfind : findMount s' path = findMount s path := by
    unfold findMount
    rw [hnew.mounts]
  rw [vfsResolve_eq_descend, vfsResolve_eq_descend, hfind]
  split_ifs
  · rfl
  cases hmount : findMount s path with
  | none => rfl
  | some mount =>
      have hmem := ((findMount_best s path).1 mount hmount).1
      exact descend_newVnode htree hnew (htree.mounts mount hmem).1

/-- A path to the directory itself does not pass the new entry. -/
theorem vfsResolve_links (htree : FsTree s) (hlinks : Links s dir name child s')
    (hdir : (s.vnodes dir).type = .dir) {path : List UInt8}
    (hresolve : vfsResolve s path = some dir) :
    vfsResolve s' path = some dir := by
  have hwalk : ∀ names cur, descend s cur names = some dir →
      descend s' cur names = some dir := by
    intro names
    induction names with
    | nil => exact fun _ => id
    | cons name names ih =>
        intro cur hcur
        have hlt := htree.descend_lt hdir hcur (List.cons_ne_nil _ _)
        obtain ⟨hops, next, hlookup, hrest⟩ := descend_cons_eq_some.mp hcur
        have hcurdir := (ramfsLookup_eq_some hlookup).1
        have hentries : entriesOf s' cur = entriesOf s cur := by
          rcases hlinks.entriesOf cur with ⟨hsame, -⟩ | ⟨-, hentries⟩
          · exact absurd (htree.inodes cur dir hcurdir hdir hsame) hlt.ne
          · exact hentries
        refine descend_cons_eq_some.mpr ⟨?_, next, ?_, ih next hrest⟩
        · rw [ops_eq_of_shape (hlinks.shape cur)]
          exact hops
        · rw [ramfsLookup_congr (hlinks.shape cur) hentries]
          exact hlookup
  have hfind : findMount s' path = findMount s path := by
    unfold findMount
    rw [hlinks.mounts]
  rw [vfsResolve_eq_descend] at hresolve ⊢
  rw [hfind]
  split_ifs at hresolve ⊢ with hhead
  obtain ⟨mount, hmount, hroot⟩ := Option.bind_eq_some_iff.mp hresolve
  exact Option.bind_eq_some_iff.mpr ⟨mount, hmount, hwalk _ _ hroot⟩

/-- The new entry is found first. -/
theorem ramfsLookup_links (hlinks : Links s dir name child s')
    (hdir : (s.vnodes dir).type = .dir) :
    ramfsLookup s' dir name = some child := by
  obtain ⟨-, d, hentries⟩ | ⟨hfalse, -⟩ := hlinks.entriesOf dir
  swap
  · exact absurd rfl hfalse
  have htype := (type_eq_of_shape (hlinks.shape dir)).trans hdir
  have hchildren : (s'.inodes (inodeOf s' dir)).children =
    ⟨d, name, child⟩ :: entriesOf s dir := hentries
  rw [ramfsLookup, if_neg (not_not_intro htype), hchildren,
    List.find?_cons_of_pos (by simp)]
  rfl

/-- The new entry is the only way to the new vnode. -/
theorem descend_links_child (htree : FsTree s) (htree' : FsTree s')
    (hlinks : Links s dir name child s') (hdir : (s.vnodes dir).type = .dir)
    (hfresh : ∀ v, (s.vnodes v).type = .dir → ∀ entry ∈ entriesOf s v,
      entry.vnode ≠ child) (hne : dir ≠ child) :
    descend s' dir names = some child ↔ names = [name] := by
  have htype : ∀ v, (s'.vnodes v).type = (s.vnodes v).type :=
    fun v => type_eq_of_shape (hlinks.shape v)
  have hops : (s'.vnodes dir).ops = .ramfs :=
    (ops_eq_of_shape (hlinks.shape dir)).trans (htree.dirs dir hdir).2.1
  constructor
  · intro hwalk
    rcases List.eq_nil_or_concat names with rfl | ⟨front, last, rfl⟩
    · exact absurd (Option.some.inj hwalk) hne
    rw [List.concat_eq_append, descend_append] at hwalk
    obtain ⟨before, hfront, hlast⟩ := Option.bind_eq_some_iff.mp hwalk
    obtain ⟨-, next, hlookup, hnext⟩ := descend_cons_eq_some.mp hlast
    obtain rfl : next = child := Option.some.inj hnext
    obtain ⟨hbefore, entry, hmem, hname, hvnode⟩ := ramfsLookup_eq_some hlookup
    rw [htype] at hbefore
    obtain ⟨hsame, d', hentries'⟩ | ⟨-, hentries'⟩ := hlinks.entriesOf before
    swap
    · rw [hentries'] at hmem
      exact absurd hvnode (hfresh before hbefore entry hmem)
    obtain rfl := htree.inodes before dir hbefore hdir hsame
    have hfront' : front = [] := by
      by_contra hfront'
      exact (htree'.descend_lt ((htype before).trans hdir) hfront hfront').false
    rw [hentries'] at hmem
    rcases List.mem_cons.mp hmem with rfl | hold
    · rw [hfront', ← hname]
      rfl
    · exact absurd hvnode (hfresh before hbefore entry hold)
  · rintro rfl
    exact descend_cons_eq_some.mpr
      ⟨hops, child, ramfsLookup_links hlinks hdir, rfl⟩

end Trees

/-- What `ramfs_create` can do: find an entry, fail, or make a vnode and an entry
for it. -/
inductive Created (s : Store) (dir : Ref) (name : List UInt8)
    (type : VnodeType) : Option Ref × Store → Prop where
  | found {v : Ref} (hlookup : ramfsLookup s dir name = some v) :
      Created s dir name type (some v, s)
  | failed {s' : Store} (hsame : Unmoved s s') :
      Created s dir name type (none, s')
  | unlinked {v ino : Ref} {s₁ s' : Store}
      (hnew : NewVnode s v type .ramfs (some ino) s₁) (hsame : Unmoved s₁ s') :
      Created s dir name type (none, s')
  | linked {child ino : Ref} {s₁ s' : Store}
      (hlookup : ramfsLookup s dir name = none)
      (hnew : NewVnode s child type .ramfs (some ino) s₁)
      (hlinks : Links s₁ dir (name.take (vfsNameMax - 1)) child s') :
      Created s dir name type (some child, s')

section Creation

variable {s s' : Store} {dir : Ref}

theorem newVnode_new {type : VnodeType} {ops : VfsOps} {data : Option Ref}
    (hsame : Unmoved s s') (hdata : ∀ ino, data = some ino →
      s.next ≤ ino ∧ ino < s'.next) :
    NewVnode s s'.next type ops data
      (s'.newVnode ⟨type, 0, 0, ops, data⟩) where
  next := hsame.next.trans (Nat.le_succ _)
  mounts := hsame.mounts
  root := hsame.root
  fresh := hsame.next
  born := Nat.lt_succ_self _
  vnode := by
    change (Function.update s'.vnodes s'.next _ s'.next).shape = _
    rw [Function.update_self]
    rfl
  others := fun w hw => (congrArg Vnode.shape
    (Function.update_of_ne hw _ _)).trans (hsame.shape w)
  children := hsame.children
  inode := fun ino hino => by
    obtain ⟨hle, hlt⟩ := hdata ino hino
    exact ⟨hle, Nat.lt_succ_of_lt hlt⟩

theorem ramfsNewVnode_cases (htree : FsTree s) (type : VnodeType) :
    (∃ s', ramfsNewVnode s type = (none, s') ∧ Unmoved s s') ∨
    ∃ v ino s', ramfsNewVnode s type = (some v, s') ∧
      NewVnode s v type .ramfs (some ino) s' := by
  have hinode : Unmoved s s.newInode :=
    ⟨Nat.le_succ _, rfl, rfl, fun _ => rfl,
      (@setInode_unmoved s s.next ⟨none, 0, [], 0⟩
        (htree.unborn s.next (Nat.le_refl _)).symm).children⟩
  rcases ramfsNewVnode_outcome s type with heq | heq | heq
  · exact .inl ⟨_, heq, refuse_unmoved s⟩
  · exact .inl ⟨_, heq, hinode.trans ((refuse_unmoved _).trans
      (kfree_unmoved _ _))⟩
  · refine .inr ⟨_, s.next, _, heq, newVnode_new hinode ?_⟩
    rintro _ ⟨⟩
    exact ⟨Nat.le_refl _, Nat.lt_succ_self _⟩

theorem ramfsAddDirent_cases (s : Store) (dir : Ref) (name : List UInt8)
    (child : Ref) :
    (∃ s', ramfsAddDirent s dir name child = (false, s') ∧ Unmoved s s') ∨
    ∃ s', ramfsAddDirent s dir name child = (true, s') ∧
      Links s dir (name.take (vfsNameMax - 1)) child s' := by
  rcases ramfsAddDirent_outcome s dir name child with heq | heq
  · exact .inl ⟨_, heq, refuse_unmoved s⟩
  · refine .inr ⟨_, heq, Nat.le_succ _, rfl, rfl, fun _ => rfl, ⟨s.next, ?_⟩,
      fun ino hne => ?_⟩
    · change (Function.update s.inodes (inodeOf s dir) _
        (inodeOf s dir)).children = _
      rw [Function.update_self]
      rfl
    · exact congrArg Inode.children (Function.update_of_ne hne _ _)

theorem ramfsCreate_created (htree : FsTree s)
    (hdir : (s.vnodes dir).type = .dir) (name : List UInt8)
    (type : VnodeType) :
    Created s dir name type (ramfsCreate s dir name type) := by
  rw [ramfsCreate, if_neg (not_not_intro hdir)]
  cases hlookup : ramfsLookup s dir name with
  | some v => exact .found hlookup
  | none =>
      dsimp only
      rcases ramfsNewVnode_cases htree type with
        ⟨s₁, hnone, hsame⟩ | ⟨child, ino, s₁, hsome, hnew⟩
      · rw [hnone]
        exact .failed hsame
      rw [hsome]
      dsimp only
      rcases ramfsAddDirent_cases s₁ dir name child with
        ⟨s₂, hfail, hsame⟩ | ⟨s₂, hdone, hlinks⟩
      · rw [hfail]
        exact .unlinked hnew (hsame.trans ((kfreeOption_unmoved _ _).trans
          (kfree_unmoved _ _)))
      · rw [hdone]
        exact .linked hlookup hnew hlinks

theorem parentDir_eq_some {path leaf : List UInt8}
    (hparent : parentDir s path = some (dir, leaf)) :
    ∃ parent, splitPath path = some (parent, leaf) ∧
      vfsResolve s parent = some dir ∧ (s.vnodes dir).type = .dir := by
  unfold parentDir at hparent
  split at hparent
  · cases hparent
  rename_i parent leaf' hsplit
  split at hparent
  · cases hparent
  rename_i dir' hresolve
  split_ifs at hparent with hdir
  obtain ⟨rfl, rfl⟩ := Prod.mk.inj (Option.some.inj hparent)
  exact ⟨parent, hsplit, hresolve, hdir⟩

/-- A path whose parent resolves is absolute. -/
theorem head_of_split {path parent leaf : List UInt8}
    (hsplit : splitPath path = some (parent, leaf))
    (hresolve : vfsResolve s parent = some dir) :
    path.head? = some slash := by
  obtain ⟨front, rfl, -, hparent⟩ := splitPath_eq_some hsplit
  rw [vfsResolve_eq_descend] at hresolve
  split_ifs at hresolve with hhead
  rw [not_not, hparent] at hhead
  cases front with
  | nil => rfl
  | cons c rest => exact hhead

end Creation

section CreateThenResolve

variable {s s₁ s' : Store} {path parent leaf : List UInt8} {dir child ino : Ref}
  {type : VnodeType}

/-- A leaf that the directory has under its full name is plain only if the path
resolves. -/
theorem not_plainLeaf_of_found (htree : FsTree s)
    (hsplit : splitPath path = some (parent, leaf))
    (hresolve : vfsResolve s parent = some dir)
    (hdir : (s.vnodes dir).type = .dir) (hnone : vfsResolve s path = none)
    {v : Ref} (hlookup : ramfsLookup s dir leaf = some v) :
    ¬ PlainLeaf leaf := by
  intro hplain
  have hmounts := fun mount hmem => (htree.mounts mount hmem).2
  have hhead := head_of_split hsplit hresolve
  have hsplit' := vfsResolve_split hmounts hhead hsplit
    (path_ne_of_unresolved hhead hnone) rfl
  obtain ⟨-, entry, hmem, hname, -⟩ := ramfsLookup_eq_some hlookup
  have hshort := (htree.links dir hdir entry hmem).2.1
  rw [hname] at hshort
  rw [hnone, hresolve, (components_eq_singleton_iff leaf).mpr hplain,
    List.take_of_length_le hshort, Option.bind_some] at hsplit'
  have hfound : descend s dir [leaf] = some v :=
    descend_cons_eq_some.mpr ⟨(htree.dirs dir hdir).2.1, v, hlookup, rfl⟩
  rw [hfound] at hsplit'
  cases hsplit'

/-- The directory is found where it was. -/
theorem vfsResolve_created_parent (htree : FsTree s)
    (hresolve : vfsResolve s parent = some dir)
    (hdir : (s.vnodes dir).type = .dir) {name : List UInt8}
    (hnew : NewVnode s child type .ramfs (some ino) s₁)
    (hlinks : Links s₁ dir name child s') : vfsResolve s' parent = some dir := by
  have hlt := (htree.dirs dir hdir).1.trans_le hnew.fresh
  have htree₁ := htree.newVnode hnew fun _ => ⟨rfl, Option.some_ne_none ino⟩
  refine vfsResolve_links htree₁ hlinks ?_ ?_
  · exact (type_eq_of_shape (hnew.others dir hlt.ne)).trans hdir
  · exact (vfsResolve_newVnode htree hnew parent).trans hresolve

/-- A path that is not itself mounted is resolved by way of the directory,
before and after the entry is made. -/
theorem vfsResolve_created (htree : FsTree s)
    (hsplit : splitPath path = some (parent, leaf))
    (hresolve : vfsResolve s parent = some dir)
    (hdir : (s.vnodes dir).type = .dir)
    (hself : ∀ mount ∈ s.mounts, mount.path ≠ path) {name : List UInt8}
    (hnew : NewVnode s child type .ramfs (some ino) s₁)
    (hlinks : Links s₁ dir name child s') :
    vfsResolve s path = descend s dir (components (skipSlashes leaf)) ∧
      vfsResolve s' path = descend s' dir (components (skipSlashes leaf)) := by
  have hmounts := fun mount hmem => (htree.mounts mount hmem).2
  have hhead := head_of_split hsplit hresolve
  have hparent := vfsResolve_created_parent htree hresolve hdir hnew hlinks
  constructor
  · rw [vfsResolve_split hmounts hhead hsplit hself rfl, hresolve]
    rfl
  · rw [vfsResolve_split hmounts hhead hsplit hself
      (hlinks.mounts.trans hnew.mounts), hparent]
    rfl

/-- A new entry is found under the path it was made for exactly if the leaf is
plain. -/
theorem vfsResolve_created_iff (htree : FsTree s)
    (hsplit : splitPath path = some (parent, leaf))
    (hresolve : vfsResolve s parent = some dir)
    (hdir : (s.vnodes dir).type = .dir) (hnone : vfsResolve s path = none)
    (hnew : NewVnode s child type .ramfs (some ino) s₁)
    (hlinks : Links s₁ dir (leaf.take (vfsNameMax - 1)) child s') :
    vfsResolve s' path = some child ↔ PlainLeaf leaf := by
  have hlt := (htree.dirs dir hdir).1.trans_le hnew.fresh
  have hdir₁ := (type_eq_of_shape (hnew.others dir hlt.ne)).trans hdir
  have htree₁ := htree.newVnode hnew
    fun _ => ⟨rfl, Option.some_ne_none ino⟩
  have htree' := htree₁.links_tree hlinks hdir₁ hnew.born
    (List.length_take_le _ _) fun _ => hlt
  have hfresh : ∀ v, (s₁.vnodes v).type = .dir →
      ∀ entry ∈ entriesOf s₁ v, entry.vnode ≠ child := by
    intro v hv entry hentry
    rw [entriesOf, hnew.children] at hentry
    by_cases hvc : v = child
    · subst hvc
      have hdata : (s₁.vnodes v).data = some ino := congrArg (·.2.2) hnew.vnode
      rw [inodeOf, hdata, Option.getD_some,
        htree.unborn ino (hnew.inode ino rfl).1] at hentry
      cases hentry
    · rw [type_eq_of_shape (hnew.others v hvc)] at hv
      rw [inodeOf_eq_of_shape (hnew.others v hvc)] at hentry
      exact ((htree.links v hv entry hentry).1.trans_le hnew.fresh).ne
  have hself := path_ne_of_unresolved (head_of_split hsplit hresolve) hnone
  rw [(vfsResolve_created htree hsplit hresolve hdir hself hnew hlinks).2,
    descend_links_child htree₁ htree' hlinks hdir₁ hfresh hlt.ne,
    components_eq_singleton_iff]

end CreateThenResolve

section Init

theorem empty_tree (refuses : Nat → Bool) : FsTree (Store.empty refuses) :=
  ⟨fun _ => nofun, fun _ _ => nofun, fun _ _ => rfl, fun _ => nofun,
    fun _ => nofun⟩

theorem FsTree.mount {s : Store} {path : List UInt8} {root : Ref}
    (htree : FsTree s) (hroot : root < s.next)
    (hpath : path.length < vfsPathMax - 1) : FsTree (vfsMount s path root).2 := by
  unfold vfsMount
  split_ifs
  · exact htree
  · refine ⟨htree.dirs, htree.inodes, htree.unborn, htree.links, ?_⟩
    intro mount hmem
    rcases List.mem_append.mp hmem with hold | hnew
    · exact htree.mounts mount hold
    · obtain rfl := List.mem_singleton.mp hnew
      exact ⟨hroot, (List.length_take_le' _ _).trans_lt hpath⟩

theorem ramfsInit_tree {s : Store} (htree : FsTree s) : FsTree (ramfsInit s) := by
  rcases ramfsNewVnode_cases htree .dir with
    ⟨s', hnone, hsame⟩ | ⟨root, ino, s', hsome, hnew⟩
  · rw [ramfsInit, hnone]
    exact htree.unmoved hsame
  · rw [ramfsInit, hsome]
    have htree' := htree.newVnode hnew fun _ => ⟨rfl, Option.some_ne_none ino⟩
    have hset : FsTree { s' with ramfsRoot := some root } :=
      ⟨htree'.dirs, htree'.inodes, htree'.unborn, htree'.links, htree'.mounts⟩
    exact hset.mount hnew.born (by decide)

end Init

/-- After `vfs_open` with `O_CREAT` the path leads to the opened file, and
opening it again finds the same vnode and makes no entry, exactly if the path
was there before or its leaf is plain: not empty, without a slash in its
first 63 bytes and with nothing but slashes behind them. -/
theorem vfsOpen_resolve_iff (s s' : Store) (path : List UInt8) (flags : UInt32)
    (f : Ref) (htree : FsTree s) (hcreat : flags &&& oCreat ≠ 0)
    (hopen : vfsOpen s path flags = (some f, s')) :
    (vfsResolve s' path = some (s'.files f).vnode ∧
      ∀ again, Unmoved s' (vfsOpen s' path again).2 ∧
        ∀ g, (vfsOpen s' path again).1 = some g →
          ((vfsOpen s' path again).2.files g).vnode = (s'.files f).vnode) ↔
    (vfsResolve s path).isSome = true ∨
      ∃ parent leaf, splitPath path = some (parent, leaf) ∧ PlainLeaf leaf := by
  have hagain : (vfsResolve s' path = some (s'.files f).vnode ∧
      ∀ again, Unmoved s' (vfsOpen s' path again).2 ∧
        ∀ g, (vfsOpen s' path again).1 = some g →
          ((vfsOpen s' path again).2.files g).vnode = (s'.files f).vnode) ↔
      vfsResolve s' path = some (s'.files f).vnode := by
    refine and_iff_left_of_imp fun hresolve again => ?_
    rw [vfsOpen, hresolve]
    exact vfsOpenVnode_unmoved s' _ again
  rw [hagain]
  unfold vfsOpen at hopen
  cases hbefore : vfsResolve s path with
  | some v =>
      rw [hbefore] at hopen
      dsimp only at hopen
      obtain ⟨hsame, hvnode⟩ := vfsOpenVnode_unmoved s v flags
      rw [hopen] at hsame hvnode
      refine iff_of_true ?_ (.inl rfl)
      rw [vfsResolve_unmoved hsame, hbefore, hvnode f rfl]
  | none =>
      rw [hbefore] at hopen
      dsimp only at hopen
      rw [if_neg hcreat] at hopen
      split at hopen
      · cases hopen
      rename_i dir leaf hparent
      obtain ⟨parent, hsplit, hresolve, hdir⟩ := parentDir_eq_some hparent
      have hsplits : ((none : Option Ref).isSome = true ∨
          ∃ parent leaf, splitPath path = some (parent, leaf) ∧
            PlainLeaf leaf) ↔ PlainLeaf leaf := by
        rw [hsplit]
        simp
      rw [hsplits]
      have hcreated := ramfsCreate_created htree hdir leaf .file
      generalize ramfsCreate s dir leaf .file = result at hcreated hopen
      cases hcreated with
      | failed hsame => cases hopen
      | unlinked hnew hsame => cases hopen
      | @found v hlookup =>
          obtain ⟨hsame, -⟩ := vfsOpenVnode_unmoved s v flags
          dsimp only at hopen
          rw [hopen] at hsame
          refine iff_of_false ?_ (not_plainLeaf_of_found htree hsplit hresolve
            hdir hbefore hlookup)
          rw [vfsResolve_unmoved hsame, hbefore]
          simp
      | @linked child ino s₁ s₂ hlookup hnew hlinks =>
          obtain ⟨hsame, hvnode⟩ := vfsOpenVnode_unmoved s₂ child flags
          dsimp only at hopen
          rw [hopen] at hsame hvnode
          rw [vfsResolve_unmoved hsame, hvnode f rfl]
          exact vfsResolve_created_iff htree hsplit hresolve hdir hbefore hnew
            hlinks

namespace DirTreeWitness

def root : Store := ramfsInit (Store.empty fun _ => false)

/-- What is seen of an `open` with `O_CREAT` and of a second one. -/
structure OpenView where
  vnode : Option Ref
  resolved : Option Ref
  again : Option Ref
  entries : Nat
  deriving DecidableEq

def openTwice (path : List UInt8) : OpenView :=
  let first := vfsOpen root path oCreat
  let second := vfsOpen first.2 path oCreat
  { vnode := first.1.map fun f => (first.2.files f).vnode
    resolved := vfsResolve first.2 path
    again := second.1.map fun f => (second.2.files f).vnode
    entries := (entriesOf second.2 (second.2.ramfsRoot.getD 0)).length }

/-- A name of 63 bytes is found again. -/
theorem longest_name_resolves : ∃ f s',
    vfsOpen root (slash :: List.replicate 63 97) oCreat = (some f, s') ∧
      vfsResolve s' (slash :: List.replicate 63 97) =
        some (s'.files f).vnode := by
  have hview : ((vfsOpen root (slash :: List.replicate 63 97) oCreat).1).isSome =
      true := by decide +kernel
  obtain ⟨f, hf⟩ := Option.isSome_iff_exists.mp hview
  refine ⟨f, _, Prod.ext hf rfl, ?_⟩
  refine ((vfsOpen_resolve_iff root _ _ oCreat f
    (ramfsInit_tree (empty_tree _)) (by decide) (Prod.ext hf rfl)).mpr
    (.inr ⟨[slash], List.replicate 63 97, ?_, ?_⟩)).1
  all_goals decide +kernel

/-- With one byte more the path leads nowhere, and a second `open` makes a
second file under the same name. -/
theorem longer_name_lost : openTwice (slash :: List.replicate 64 97) =
    { vnode := some 4
      resolved := none
      again := some 8
      entries := 2 } := by
  decide +kernel

end DirTreeWitness

end Orion
