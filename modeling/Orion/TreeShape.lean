/-
The shape of the ramfs tree.  `vfs_open` with `O_CREAT`, `vfs_mkdir` and
`ramfs_register_dev` cut a path in two and store what is behind the cut as a
name, whatever it is.  The tree stays well formed exactly as long as these
names are names: not empty, without a slash and new in their directory.
-/
import Orion.DirTree
import Orion.EdgePaths
import Orion.Machine

namespace Orion

/-- An entry as an edge from its directory. -/
def Entry (s : Store) (dir : Ref) (name : List UInt8) (v : Ref) : Prop :=
  (s.vnodes dir).type = .dir ∧
    ∃ entry ∈ entriesOf s dir, entry.name = name ∧ entry.vnode = v

/-- The names on the way from the root to a vnode. -/
abbrev TreePath (s : Store) (root : Ref) : List (List UInt8) → Ref → Prop :=
  EdgePaths.Path (Entry s) root

/-- Each name behind a slash. -/
def canonicalPath : List (List UInt8) → List UInt8
  | [] => [slash]
  | [name] => slash :: name
  | name :: names => slash :: name ++ canonicalPath names

/-- The directories have proper and distinct names, and there is one canonical
path to each vnode, under which `vfs_resolve` finds it. -/
structure WellFormed (s : Store) (root : Ref) : Prop where
  names : ∀ dir, (s.vnodes dir).type = .dir → ∀ entry ∈ entriesOf s dir,
    entry.name ≠ [] ∧ slash ∉ entry.name
  distinct : ∀ dir, (s.vnodes dir).type = .dir →
    ((entriesOf s dir).map Dirent.name).Nodup
  unique : ∀ path path' v, TreePath s root path v → TreePath s root path' v →
    path = path'
  resolves : ∀ path v, TreePath s root path v →
    vfsResolve s (canonicalPath path) = some v

/-- The calls that make entries; a device is registered by its vnode, which its
driver has allocated. -/
inductive TreeCall where
  | open (path : List UInt8) (flags : UInt32)
  | mkdir (path : List UInt8)
  | vnodeAlloc (ops : VfsOps)
  | registerDev (path : List UInt8) (dev : Ref)

def treeStep (s : Store) : TreeCall → Option Store
  | .open path flags => some (vfsOpen s path (flags ||| oCreat)).2
  | .mkdir path => some (vfsMkdir s path).2
  | .vnodeAlloc ops => some (vnodeAlloc s .dev ops none).2
  | .registerDev path dev =>
      if (s.vnodes dev).type = .dev ∧ dev < s.next
      then some (ramfsRegisterDev s path dev).2 else none

/-- The directory of a path, the uncut name, and the vnode if there is one
already. -/
def placeFor (s : Store) (path : List UInt8) (dev : Option Ref) :
    Option (Ref × List UInt8 × Option Ref) :=
  (parentDir s path).map fun found => (found.1, found.2, dev)

/-- Where the call may make an entry. -/
def target (s : Store) : TreeCall → Option (Ref × List UInt8 × Option Ref)
  | .open path _ =>
      if (vfsResolve s path).isSome then none else placeFor s path none
  | .mkdir path =>
      if path.head? ≠ some slash then none else placeFor s path none
  | .vnodeAlloc _ => none
  | .registerDev path dev =>
      if path.head? ≠ some slash then none else placeFor s path (some dev)

/-- Does an entry lead to this vnode? -/
def isLinked (s : Store) (v : Ref) : Bool :=
  (List.range s.next).any fun ino =>
    (s.inodes ino).children.any fun entry => entry.vnode == v

/-- If the call makes an entry, its name is not empty, has no slash and is new
in the directory, and the vnode has no entry yet. -/
def linksPlainly (s : Store) (call : TreeCall) : Bool :=
  match target s call, treeStep s call with
  | some (dir, leaf, dev), some s' =>
      let name := leaf.take (vfsNameMax - 1)
      (entriesOf s' dir).length == (entriesOf s dir).length ||
        (name != [] && !name.contains slash &&
          !((entriesOf s dir).map Dirent.name).contains name &&
          !(dev.any (isLinked s)))
  | _, _ => true

/-- The tree as the calls leave it. -/
structure TreeInv (s : Store) : Prop extends FsTree s where
  root : ∀ root, s.ramfsRoot = some root →
    (s.vnodes root).type = .dir ∧ s.mounts = [⟨[slash], root⟩]
  bare : s.ramfsRoot = none → s.mounts = []
  home : ∀ ino, ∀ entry ∈ (s.inodes ino).children, ∃ root path dir,
    s.ramfsRoot = some root ∧ TreePath s root path dir ∧
      (s.vnodes dir).type = .dir ∧ inodeOf s dir = ino
  plain : ∀ ino, ∀ entry ∈ (s.inodes ino).children,
    entry.name ≠ [] ∧ slash ∉ entry.name
  nodup : ∀ ino, ((s.inodes ino).children.map Dirent.name).Nodup
  once : ∀ ino ino', ∀ entry ∈ (s.inodes ino).children,
    ∀ entry' ∈ (s.inodes ino').children, entry.vnode = entry'.vnode →
      ino = ino' ∧ entry.name = entry'.name
  top : ∀ ino, ∀ entry ∈ (s.inodes ino).children,
    s.ramfsRoot ≠ some entry.vnode

section Shapes

variable {s s' : Store} {root v dir child : Ref} {path : List (List UInt8)}

theorem TreeInv.vertex_unique (hinv : TreeInv s)
    (hpath : TreePath s root path v) {v' : Ref}
    (hpath' : TreePath s root path v') : v = v' := by
  refine hpath.vertex_unique ?_ hpath'
  rintro before label after after' ⟨-, entry, hmem, hname, rfl⟩
    ⟨-, entry', hmem', hname', rfl⟩
  have hentry := List.inj_on_of_nodup_map (hinv.nodup (inodeOf s before)) hmem
    hmem' (hname.trans hname'.symm)
  rw [hentry]

/-- A walk follows the entries. -/
theorem descend_treePath {cur : Ref} {names : List (List UInt8)}
    (hpath : TreePath s root path cur) (hwalk : descend s cur names = some v) :
    TreePath s root (path ++ names) v := by
  induction names generalizing cur path with
  | nil =>
      rw [List.append_nil, ← Option.some.inj hwalk]
      exact hpath
  | cons name names ih =>
      obtain ⟨-, next, hlookup, hrest⟩ := descend_cons_eq_some.mp hwalk
      have hnext := ih (hpath.snoc (ramfsLookup_eq_some hlookup)) hrest
      rwa [List.append_assoc] at hnext

theorem treePath_mono (hpath : TreePath s root path v)
    (hentries : ∀ dir, (s.vnodes dir).type = .dir →
      (s'.vnodes dir).type = .dir ∧ entriesOf s dir ⊆ entriesOf s' dir) :
    TreePath s' root path v := by
  refine hpath.mono ?_
  rintro before label after ⟨hdir, entry, hmem, hentry⟩
  exact ⟨(hentries before hdir).1, entry, (hentries before hdir).2 hmem, hentry⟩

theorem TreeInv.entry_lt (hinv : TreeInv s) {ino : Ref} {entry : Dirent}
    (hmem : entry ∈ (s.inodes ino).children) : entry.vnode < s.next := by
  obtain ⟨-, -, dir, -, -, hdir, rfl⟩ := hinv.home ino entry hmem
  exact (hinv.links dir hdir entry hmem).1

/-- The entries and the old vnodes stay. -/
theorem TreeInv.still (hinv : TreeInv s) (htree : FsTree s')
    (hmounts : s'.mounts = s.mounts) (hroots : s'.ramfsRoot = s.ramfsRoot)
    (hold : ∀ w, w < s.next → (s'.vnodes w).shape = (s.vnodes w).shape)
    (hchildren : ∀ ino, (s'.inodes ino).children = (s.inodes ino).children) :
    TreeInv s' := by
  have hdirs : ∀ dir, (s.vnodes dir).type = .dir →
      (s'.vnodes dir).type = .dir ∧ inodeOf s' dir = inodeOf s dir := by
    intro dir hdir
    have hshape := hold dir (hinv.dirs dir hdir).1
    exact ⟨(type_eq_of_shape hshape).trans hdir, inodeOf_eq_of_shape hshape⟩
  refine ⟨htree, ?_, ?_, ?_, ?_, ?_, ?_, ?_⟩
  · rw [hroots, hmounts]
    exact fun root hroot => ⟨(hdirs root (hinv.root root hroot).1).1,
      (hinv.root root hroot).2⟩
  · rw [hroots, hmounts]
    exact hinv.bare
  · intro ino entry hmem
    rw [hchildren] at hmem
    obtain ⟨root, path, dir, hroot, hpath, hdir, hino⟩ :=
      hinv.home ino entry hmem
    refine ⟨root, path, dir, hroots.trans hroot, treePath_mono hpath
      fun dir hdir => ⟨(hdirs dir hdir).1, ?_⟩, (hdirs dir hdir).1,
      (hdirs dir hdir).2.trans hino⟩
    rw [entriesOf, entriesOf, (hdirs dir hdir).2, hchildren]
    exact List.Subset.refl _
  · simpa only [hchildren] using hinv.plain
  · simpa only [hchildren] using hinv.nodup
  · simpa only [hchildren] using hinv.once
  · simpa only [hchildren, hroots] using hinv.top

theorem TreeInv.unmoved (hinv : TreeInv s) (hsame : Unmoved s s') :
    TreeInv s' :=
  hinv.still (hinv.toFsTree.unmoved hsame) hsame.mounts hsame.root
    (fun w _ => hsame.shape w) hsame.children

theorem TreeInv.newVnode {type : VnodeType} {ops : VfsOps} {data : Option Ref}
    (hinv : TreeInv s) (hnew : NewVnode s v type ops data s')
    (hdir : type = .dir → ops = .ramfs ∧ data ≠ none) : TreeInv s' :=
  hinv.still (hinv.toFsTree.newVnode hnew hdir) hnew.mounts hnew.root
    (fun w hw => hnew.others w (hw.trans_le hnew.fresh).ne) hnew.children

theorem NewVnode.treePath {type : VnodeType} {ops : VfsOps} {data : Option Ref}
    {w : Ref} (hnew : NewVnode s w type ops data s') (htree : FsTree s)
    (hpath : TreePath s root path v) : TreePath s' root path v := by
  refine treePath_mono hpath fun dir hdir => ?_
  have hlt := (htree.dirs dir hdir).1
  rw [hnew.entriesOf hlt,
    type_eq_of_shape (hnew.others dir (hlt.trans_le hnew.fresh).ne)]
  exact ⟨hdir, List.Subset.refl _⟩

theorem Links.treePath {name : List UInt8}
    (hlinks : Links s dir name child s') (hpath : TreePath s root path v) :
    TreePath s' root path v := by
  refine treePath_mono hpath fun before hdir =>
    ⟨(type_eq_of_shape (hlinks.shape before)).trans hdir, ?_⟩
  rcases hlinks.entriesOf before with ⟨-, d, hentries⟩ | ⟨-, hentries⟩
  · rw [hentries]
    exact List.subset_cons_self ..
  · rw [hentries]
    exact List.Subset.refl _

/-- A plain new name for a vnode without an entry. -/
structure PlainLink (s : Store) (dir : Ref) (name : List UInt8) (child : Ref) :
    Prop where
  nonempty : name ≠ []
  noSlash : slash ∉ name
  fresh : name ∉ (entriesOf s dir).map Dirent.name
  unlinked : ∀ ino, ∀ entry ∈ (s.inodes ino).children, entry.vnode ≠ child

theorem TreeInv.linked {name : List UInt8} (hinv : TreeInv s)
    (hlinks : Links s dir name child s') (hroot : s.ramfsRoot = some root)
    (hpath : TreePath s root path dir) (hdir : (s.vnodes dir).type = .dir)
    (htree : FsTree s') (htop : child ≠ root)
    (hplain : PlainLink s dir name child) : TreeInv s' := by
  have hinode : ∀ v, inodeOf s' v = inodeOf s v :=
    fun v => inodeOf_eq_of_shape (hlinks.shape v)
  refine ⟨htree, ?_, ?_, ?_, ?_, ?_, ?_, ?_⟩
  · intro root hroot
    rw [hlinks.root] at hroot
    rw [type_eq_of_shape (hlinks.shape root), hlinks.mounts]
    exact hinv.root root hroot
  · rw [hlinks.root, hlinks.mounts]
    exact hinv.bare
  · intro ino entry hmem
    rcases hlinks.mem_children hmem with hold | ⟨rfl, -, -⟩
    · obtain ⟨root, path, dir, hroot, hpath, hdir, hino⟩ :=
        hinv.home ino entry hold
      exact ⟨root, path, dir, hlinks.root.trans hroot, hlinks.treePath hpath,
        (type_eq_of_shape (hlinks.shape dir)).trans hdir,
        (hinode dir).trans hino⟩
    · exact ⟨root, path, dir, hlinks.root.trans hroot, hlinks.treePath hpath,
        (type_eq_of_shape (hlinks.shape dir)).trans hdir, hinode dir⟩
  · intro ino entry hmem
    rcases hlinks.mem_children hmem with hold | ⟨-, rfl, -⟩
    · exact hinv.plain ino entry hold
    · exact ⟨hplain.nonempty, hplain.noSlash⟩
  · intro ino
    by_cases hino : ino = inodeOf s dir
    · subst hino
      obtain ⟨d, hentry⟩ := hlinks.entry
      rw [hentry, List.map_cons, List.nodup_cons]
      exact ⟨hplain.fresh, hinv.nodup _⟩
    · rw [hlinks.others ino hino]
      exact hinv.nodup ino
  · intro ino ino' entry hmem entry' hmem' hvnode
    rcases hlinks.mem_children hmem with hold | ⟨rfl, rfl, hnew⟩
    · rcases hlinks.mem_children hmem' with hold' | ⟨-, -, hnew'⟩
      · exact hinv.once ino ino' entry hold entry' hold' hvnode
      · exact absurd (hvnode.trans hnew') (hplain.unlinked ino entry hold)
    · rcases hlinks.mem_children hmem' with hold' | ⟨rfl, hname', -⟩
      · exact absurd (hvnode.symm.trans hnew) (hplain.unlinked ino' entry' hold')
      · exact ⟨rfl, hname'.symm⟩
  · intro ino entry hmem
    rw [hlinks.root]
    rcases hlinks.mem_children hmem with hold | ⟨-, -, hnew⟩
    · exact hinv.top ino entry hold
    · rw [hnew, hroot]
      exact fun h => htop (Option.some.inj h).symm

/-- With any other entry the tree is not well formed. -/
theorem TreeInv.plainLink {name : List UInt8} (hinv : TreeInv s)
    (hlinks : Links s dir name child s') (hroot : s.ramfsRoot = some root)
    (hpath : TreePath s root path dir) (hdir : (s.vnodes dir).type = .dir)
    (hwell : WellFormed s' root) : PlainLink s dir name child := by
  have hpath' := hlinks.treePath hpath
  have hdir' : (s'.vnodes dir).type = .dir :=
    (type_eq_of_shape (hlinks.shape dir)).trans hdir
  obtain ⟨d, hentries⟩ : ∃ d, entriesOf s' dir =
      ⟨d, name, child⟩ :: entriesOf s dir := by
    rcases hlinks.entriesOf dir with ⟨-, hentries⟩ | ⟨hne, -⟩
    · exact hentries
    · exact absurd rfl hne
  have hmem : (⟨d, name, child⟩ : Dirent) ∈ entriesOf s' dir := by
    rw [hentries]
    exact List.mem_cons_self
  have hfresh : name ∉ (entriesOf s dir).map Dirent.name := by
    have hdistinct := hwell.distinct dir hdir'
    rw [hentries, List.map_cons, List.nodup_cons] at hdistinct
    exact hdistinct.1
  obtain ⟨hne, hslash⟩ := hwell.names dir hdir' _ hmem
  refine ⟨hne, hslash, hfresh, ?_⟩
  -- two entries for one vnode would be two paths to it
  rintro ino entry hold rfl
  obtain ⟨root', path', dir', hroot', hhome, hdir'', rfl⟩ :=
    hinv.home ino entry hold
  obtain rfl := Option.some.inj (hroot.symm.trans hroot')
  have hpaths := hwell.unique _ _ entry.vnode
    (hpath'.snoc ⟨hdir', _, hmem, rfl, rfl⟩)
    (hlinks.treePath (hhome.snoc ⟨hdir'', entry, hold, rfl, rfl⟩))
  obtain ⟨rfl, hname⟩ := List.append_inj' hpaths rfl
  obtain rfl := hinv.vertex_unique hpath hhome
  exact hfresh (List.mem_map.mpr ⟨entry, hold, (List.cons.inj hname).1.symm⟩)

/-- A directory that a path leads to is in the tree. -/
theorem TreeInv.treePath_of_resolve (hinv : TreeInv s) {full : List UInt8}
    (hresolve : vfsResolve s full = some dir) :
    ∃ root path, s.ramfsRoot = some root ∧ TreePath s root path dir := by
  rw [vfsResolve_eq_descend] at hresolve
  split_ifs at hresolve
  obtain ⟨mount, hmount, hwalk⟩ := Option.bind_eq_some_iff.mp hresolve
  have hmem := ((findMount_best s full).1 mount hmount).1
  cases hroot : s.ramfsRoot with
  | none =>
      rw [hinv.bare hroot] at hmem
      cases hmem
  | some root =>
      rw [(hinv.root root hroot).2] at hmem
      obtain rfl := List.mem_singleton.mp hmem
      exact ⟨root, _, rfl, descend_treePath .here hwalk⟩

end Shapes

/-- What a call does to the tree. -/
inductive TreeGrowth (s : Store) (call : TreeCall) (s' : Store) : Prop where
  | still (hsame : Unmoved s s')
  | vnode {v : Ref} {type : VnodeType} {ops : VfsOps} {data : Option Ref}
      (hnew : NewVnode s v type ops data s')
      (hdir : type = .dir → ops = .ramfs ∧ data ≠ none)
  | child {dir child ino : Ref} {leaf : List UInt8} {type : VnodeType}
      {s₁ : Store} (htarget : target s call = some (dir, leaf, none))
      (hnew : NewVnode s child type .ramfs (some ino) s₁)
      (hlinks : Links s₁ dir (leaf.take (vfsNameMax - 1)) child s')
  | device {dir dev : Ref} {leaf : List UInt8}
      (htarget : target s call = some (dir, leaf, some dev))
      (htype : (s.vnodes dev).type = .dev) (hborn : dev < s.next)
      (hlinks : Links s dir (leaf.take (vfsNameMax - 1)) dev s')

section Calls

variable {s s' : Store} {call : TreeCall}

/-- A created file or directory, after more that leaves the tree alone. -/
theorem Created.growth {dir : Ref} {leaf : List UInt8} {type : VnodeType}
    {result : Option Ref × Store} (hcreated : Created s dir leaf type result)
    (htarget : target s call = some (dir, leaf, none))
    (hsame : Unmoved result.2 s') : TreeGrowth s call s' := by
  cases hcreated with
  | found _ => exact .still hsame
  | failed hfirst => exact .still (hfirst.trans hsame)
  | @unlinked _ ino _ _ hnew hfirst =>
      exact .vnode (hnew.unmoved (hfirst.trans hsame))
        fun _ => ⟨rfl, Option.some_ne_none ino⟩
  | linked _ hnew hlinks => exact .child htarget hnew (hlinks.unmoved hsame)

theorem treeStep_growth (htree : FsTree s) (hstep : treeStep s call = some s') :
    TreeGrowth s call s' := by
  cases call with
  | «open» path flags =>
      obtain rfl := Option.some.inj hstep
      cases hresolve : vfsResolve s path with
      | some v =>
          rw [vfsOpen, hresolve]
          exact .still (vfsOpenVnode_unmoved s v _).1
      | none =>
          rw [vfsOpen, hresolve]
          dsimp only
          split_ifs
          · exact .still (.refl s)
          split
          · exact .still (.refl s)
          rename_i dir leaf hparent
          obtain ⟨-, -, -, hdir⟩ := parentDir_eq_some hparent
          have hcreated := ramfsCreate_created htree hdir leaf .file
          have htarget : target s (.open path flags) = some (dir, leaf, none) := by
            rw [target, hresolve, placeFor, hparent]
            rfl
          split
          · rename_i heq
            rw [heq] at hcreated
            exact hcreated.growth htarget (.refl _)
          · rename_i v s₁ heq
            rw [heq] at hcreated
            exact hcreated.growth htarget (vfsOpenVnode_unmoved s₁ v _).1
  | mkdir path =>
      obtain rfl := Option.some.inj hstep
      unfold vfsMkdir
      split_ifs with hhead
      · exact .still (.refl s)
      split
      · exact .still (.refl s)
      rename_i dir leaf hparent
      obtain ⟨-, -, -, hdir⟩ := parentDir_eq_some hparent
      have hcreated : Created s dir leaf .dir (ramfsMkdirOp s dir leaf) :=
        ramfsCreate_created htree hdir leaf .dir
      have htarget : target s (.mkdir path) = some (dir, leaf, none) := by
        rw [target, if_neg hhead, placeFor, hparent]
        rfl
      split
      · rename_i heq
        rw [heq] at hcreated
        exact hcreated.growth htarget (.refl _)
      · rename_i heq
        rw [heq] at hcreated
        exact hcreated.growth htarget (.refl _)
  | vnodeAlloc ops =>
      obtain rfl := Option.some.inj hstep
      rcases vnodeAlloc_cases s .dev ops none with halloc | halloc
      · rw [halloc]
        exact .still (refuse_unmoved s)
      · rw [halloc]
        exact .vnode (newVnode_new (.refl s) fun _ h => by cases h)
          fun h => by cases h
  | registerDev path dev =>
      rw [treeStep] at hstep
      split_ifs at hstep with hdev
      obtain rfl := Option.some.inj hstep
      unfold ramfsRegisterDev
      split_ifs with hhead
      · exact .still (.refl s)
      split
      · exact .still (.refl s)
      rename_i dir leaf hparent
      have htarget : target s (.registerDev path dev) =
          some (dir, leaf, some dev) := by
        rw [target, if_neg hhead, placeFor, hparent]
        rfl
      rcases ramfsAddDirent_cases s dir leaf dev with
        ⟨s₁, hfail, hsame⟩ | ⟨s₁, hdone, hlinks⟩
      · rw [hfail]
        exact .still hsame
      · rw [hdone]
        exact .device htarget hdev.1 hdev.2 hlinks

theorem placeFor_eq_some {path leaf : List UInt8} {dir : Ref}
    {dev dev' : Option Ref} (hplace : placeFor s path dev = some (dir, leaf, dev')) :
    parentDir s path = some (dir, leaf) := by
  obtain ⟨found, hfound, hsame⟩ := Option.map_eq_some_iff.mp hplace
  simp only [Prod.mk.injEq] at hsame
  rw [hfound, ← hsame.1, ← hsame.2.1]

/-- The directory of a new entry is in the tree. -/
theorem TreeInv.target_dir (hinv : TreeInv s) {dir : Ref} {leaf : List UInt8}
    {dev : Option Ref} (htarget : target s call = some (dir, leaf, dev)) :
    (s.vnodes dir).type = .dir ∧ ∃ root path, s.ramfsRoot = some root ∧
      TreePath s root path dir := by
  have hparent : ∃ path, parentDir s path = some (dir, leaf) := by
    cases call with
    | «open» path flags =>
        rw [target] at htarget
        split_ifs at htarget
        exact ⟨path, placeFor_eq_some htarget⟩
    | mkdir path =>
        rw [target] at htarget
        split_ifs at htarget
        exact ⟨path, placeFor_eq_some htarget⟩
    | vnodeAlloc ops => cases htarget
    | registerDev path dev =>
        rw [target] at htarget
        split_ifs at htarget
        exact ⟨path, placeFor_eq_some htarget⟩
  obtain ⟨path, hpath⟩ := hparent
  obtain ⟨parent, -, hresolve, hdir⟩ := parentDir_eq_some hpath
  exact ⟨hdir, hinv.treePath_of_resolve hresolve⟩

theorem isLinked_iff (htree : FsTree s) (v : Ref) :
    isLinked s v = true ↔
      ∃ ino, ∃ entry ∈ (s.inodes ino).children, entry.vnode = v := by
  rw [isLinked, List.any_eq_true]
  constructor
  · rintro ⟨ino, -, hany⟩
    obtain ⟨entry, hmem, hvnode⟩ := List.any_eq_true.mp hany
    exact ⟨ino, entry, hmem, eq_of_beq hvnode⟩
  · rintro ⟨ino, entry, hmem, rfl⟩
    have hborn : ino < s.next := by
      by_contra hlt
      rw [htree.unborn ino (Nat.not_lt.mp hlt)] at hmem
      cases hmem
    exact ⟨ino, List.mem_range.mpr hborn,
      List.any_eq_true.mpr ⟨entry, hmem, beq_self_eq_true _⟩⟩

/-- A call that makes no entry passes. -/
theorem linksPlainly_of_still (hstep : treeStep s call = some s')
    (hentries : ∀ dir leaf dev, target s call = some (dir, leaf, dev) →
      entriesOf s' dir = entriesOf s dir) : linksPlainly s call = true := by
  rw [linksPlainly, hstep]
  cases htarget : target s call with
  | none => rfl
  | some found =>
      obtain ⟨dir, leaf, dev⟩ := found
      dsimp only
      rw [hentries dir leaf dev htarget, beq_self_eq_true, Bool.true_or]

/-- A call that makes an entry passes if the entry is plain. -/
theorem linksPlainly_iff {dir child : Ref} {leaf : List UInt8}
    {dev : Option Ref} {s₁ : Store}
    (htarget : target s call = some (dir, leaf, dev))
    (hstep : treeStep s call = some s')
    (hlinks : Links s₁ dir (leaf.take (vfsNameMax - 1)) child s')
    (hentries : entriesOf s₁ dir = entriesOf s dir)
    (hdev : dev.any (isLinked s) = true ↔
      ∃ ino, ∃ entry ∈ (s₁.inodes ino).children, entry.vnode = child) :
    linksPlainly s call = true ↔
      PlainLink s₁ dir (leaf.take (vfsNameMax - 1)) child := by
  have hlength : ((entriesOf s' dir).length == (entriesOf s dir).length) =
      false := by
    rcases hlinks.entriesOf dir with ⟨-, d, hgrown⟩ | ⟨hne, -⟩
    · rw [hgrown, hentries, List.length_cons]
      exact beq_false_of_ne (Nat.succ_ne_self _)
    · exact absurd rfl hne
  rw [linksPlainly, htarget, hstep]
  dsimp only
  rw [hlength, Bool.false_or]
  simp only [Bool.and_eq_true, bne_iff_ne, ne_eq, Bool.not_eq_true',
    ← Bool.not_eq_true, hdev, List.contains_iff_mem]
  constructor
  · rintro ⟨⟨⟨hne, hslash⟩, hfresh⟩, hunlinked⟩
    refine ⟨hne, hslash, hentries ▸ hfresh, ?_⟩
    exact fun ino entry hmem hvnode => hunlinked ⟨ino, entry, hmem, hvnode⟩
  · rintro ⟨hne, hslash, hfresh, hunlinked⟩
    refine ⟨⟨⟨hne, hslash⟩, hentries ▸ hfresh⟩, ?_⟩
    rintro ⟨ino, entry, hmem, hvnode⟩
    exact hunlinked ino entry hmem hvnode

theorem TreeInv.step_link {s₁ : Store} {dir child root : Ref}
    {name : List UInt8} {path : List (List UInt8)} (hinv : TreeInv s₁)
    (hlinks : Links s₁ dir name child s') (hroot : s₁.ramfsRoot = some root)
    (hpath : TreePath s₁ root path dir) (hdir : (s₁.vnodes dir).type = .dir)
    (htree : FsTree s') (htop : child ≠ root)
    (hguard : linksPlainly s call = true ↔ PlainLink s₁ dir name child) :
    (linksPlainly s call = true → TreeInv s') ∧
      (linksPlainly s call = false →
        ¬ ∀ root, s'.ramfsRoot = some root → WellFormed s' root) := by
  refine ⟨fun htrue => hinv.linked hlinks hroot hpath hdir htree htop
    (hguard.mp htrue), fun hfalse hwell => ?_⟩
  have hplain := hinv.plainLink hlinks hroot hpath hdir
    (hwell root (hlinks.root.trans hroot))
  exact absurd ((hguard.mpr hplain).symm.trans hfalse) (by decide)

/-- A plain call keeps the tree, and any other breaks it. -/
theorem TreeInv.step (hinv : TreeInv s) (hstep : treeStep s call = some s') :
    (linksPlainly s call = true → TreeInv s') ∧
      (linksPlainly s call = false →
        ¬ ∀ root, s'.ramfsRoot = some root → WellFormed s' root) := by
  cases treeStep_growth hinv.toFsTree hstep with
  | still hsame =>
      refine ⟨fun _ => hinv.unmoved hsame, fun hfalse => ?_⟩
      have hpass := linksPlainly_of_still hstep
        fun dir _ _ _ => hsame.entriesOf dir
      exact absurd (hpass.symm.trans hfalse) (by decide)
  | vnode hnew hdir =>
      refine ⟨fun _ => hinv.newVnode hnew hdir, fun hfalse => ?_⟩
      have hpass := linksPlainly_of_still hstep fun dir _ _ htarget =>
        hnew.entriesOf (hinv.dirs dir (hinv.target_dir htarget).1).1
      exact absurd (hpass.symm.trans hfalse) (by decide)
  | @child dir child ino leaf type s₁ htarget hnew hlinks =>
      obtain ⟨hdir, root, path, hroot, hpath⟩ := hinv.target_dir htarget
      have hlt := (hinv.dirs dir hdir).1
      have hinv₁ := hinv.newVnode hnew fun _ => ⟨rfl, Option.some_ne_none ino⟩
      have hdir₁ : (s₁.vnodes dir).type = .dir := (type_eq_of_shape
        (hnew.others dir (hlt.trans_le hnew.fresh).ne)).trans hdir
      have htree := hinv₁.toFsTree.links_tree hlinks hdir₁ hnew.born
        (List.length_take_le _ _) fun _ => hlt.trans_le hnew.fresh
      have htop : child ≠ root := by
        rintro rfl
        exact absurd (hinv.dirs child (hinv.root child hroot).1).1
          (Nat.not_lt.mpr hnew.fresh)
      refine hinv₁.step_link hlinks (hnew.root.trans hroot)
        (hnew.treePath hinv.toFsTree hpath) hdir₁ htree htop
        (linksPlainly_iff htarget hstep hlinks (hnew.entriesOf hlt) ?_)
      refine iff_of_false (by simp) ?_
      rintro ⟨ino', entry, hmem, rfl⟩
      rw [hnew.children] at hmem
      exact absurd (hinv.entry_lt hmem) (Nat.not_lt.mpr hnew.fresh)
  | @device dir dev leaf htarget htype hborn hlinks =>
      obtain ⟨hdir, root, path, hroot, hpath⟩ := hinv.target_dir htarget
      have hnotDir : (s.vnodes dev).type ≠ .dir := by
        rw [htype]
        decide
      have htree := hinv.toFsTree.links_tree hlinks hdir hborn
        (List.length_take_le _ _) fun hisDir => absurd hisDir hnotDir
      have htop : dev ≠ root := by
        rintro rfl
        exact hnotDir (hinv.root dev hroot).1
      exact hinv.step_link hlinks hroot hpath hdir htree htop
        (linksPlainly_iff htarget hstep hlinks rfl (isLinked_iff hinv.toFsTree dev))

end Calls

namespace TreeShapeWitness

def root : Store := ramfsInit (Store.empty fun _ => false)

/-- What is seen of a state. -/
structure View where
  root : Option Ref
  type : VnodeType
  names : List (List UInt8)
  deriving DecidableEq

def view (s : Store) (dir : Ref) : View :=
  ⟨s.ramfsRoot, (s.vnodes dir).type, (entriesOf s dir).map Dirent.name⟩

end TreeShapeWitness

end Orion
