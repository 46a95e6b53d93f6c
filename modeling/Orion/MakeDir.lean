/-
Making directories.  `vfs_mkdir` hands the string behind the last slash to
`ramfs_create`, which reports success for an entry of any type and stores a
name of at most 63 bytes; what the path leads to afterwards depends on what it
led to before and on how the string is cut.
-/
import Orion.DirTree

namespace Orion

/-- The directory tree is the same: every vnode that was there has its kind and
its entries, and every path leads to where it led. -/
structure SameTree (s s' : Store) : Prop where
  mounts : s'.mounts = s.mounts
  root : s'.ramfsRoot = s.ramfsRoot
  shape : ∀ v, v < s.next → (s'.vnodes v).shape = (s.vnodes v).shape
  entries : ∀ v, v < s.next → entriesOf s' v = entriesOf s v
  resolves : ∀ path, vfsResolve s' path = vfsResolve s path

section SameTrees

variable {s s' s₁ : Store}

theorem Unmoved.sameTree (hsame : Unmoved s s') : SameTree s s' where
  mounts := hsame.mounts
  root := hsame.root
  shape := fun v _ => hsame.shape v
  entries := fun v _ => hsame.entriesOf v
  resolves := vfsResolve_unmoved hsame

theorem NewVnode.sameTree {v : Ref} {type : VnodeType} {ops : VfsOps}
    {data : Option Ref} (hnew : NewVnode s v type ops data s')
    (htree : FsTree s) : SameTree s s' where
  mounts := hnew.mounts
  root := hnew.root
  shape := fun w hw => hnew.others w (hw.trans_le hnew.fresh).ne
  entries := fun _ hw => hnew.entriesOf hw
  resolves := vfsResolve_newVnode htree hnew

/-- A creation that fails leaves the tree alone. -/
theorem Created.sameTree {dir : Ref} {name : List UInt8} {type : VnodeType}
    (hcreated : Created s dir name type (none, s')) (htree : FsTree s) :
    SameTree s s' := by
  cases hcreated with
  | failed hsame => exact hsame.sameTree
  | unlinked hnew hsame => exact (hnew.unmoved hsame).sameTree htree

end SameTrees

section NewEntries

variable {s s₁ s' : Store} {dir child ino cur : Ref} {name other : List UInt8}
  {names : List (List UInt8)} {type : VnodeType}

/-- Below the directory with the new entry everything is as it was. -/
theorem descend_links_below (htree : FsTree s) (hlinks : Links s dir name child s')
    (hdir : (s.vnodes dir).type = .dir)
    (hbelow : (s.vnodes cur).type = .dir → dir < cur) :
    descend s' cur names = descend s cur names := by
  induction names generalizing cur with
  | nil => rfl
  | cons first names ih =>
      have hlookup : ramfsLookup s' cur first = ramfsLookup s cur first := by
        by_cases hcur : (s.vnodes cur).type = .dir
        · refine ramfsLookup_congr (hlinks.shape cur) ?_ first
          rcases hlinks.entriesOf cur with ⟨hinode, -⟩ | ⟨-, hentries⟩
          · exact absurd (htree.inodes cur dir hcur hdir hinode)
              (hbelow hcur).ne'
          · exact hentries
        · rw [ramfsLookup, ramfsLookup, type_eq_of_shape (hlinks.shape cur),
            if_pos hcur, if_pos hcur]
      rw [descend, descend, ops_eq_of_shape (hlinks.shape cur), hlookup]
      split_ifs
      · cases hnext : ramfsLookup s cur first with
        | none => rfl
        | some next =>
            obtain ⟨hcur, entry, hmem, -, rfl⟩ := ramfsLookup_eq_some hnext
            have hyounger := (htree.links cur hcur entry hmem).2.2
            exact ih fun hentry => (hbelow hcur).trans (hyounger hentry)
      · rfl

/-- The other names of the directory lead to where they led. -/
theorem descend_links_other (htree : FsTree s)
    (hlinks : Links s dir name child s') (hdir : (s.vnodes dir).type = .dir)
    (hother : other ≠ name) :
    descend s' dir (other :: names) = descend s dir (other :: names) := by
  obtain ⟨-, d, hentries⟩ | ⟨hfalse, -⟩ := hlinks.entriesOf dir
  swap
  · exact absurd rfl hfalse
  have hlookup : ramfsLookup s' dir other = ramfsLookup s dir other := by
    have hchildren : (s'.inodes (inodeOf s' dir)).children =
      ⟨d, name, child⟩ :: entriesOf s dir := hentries
    rw [ramfsLookup, ramfsLookup, type_eq_of_shape (hlinks.shape dir), hchildren,
      List.find?_cons_of_neg (by simpa using hother.symm)]
    rfl
  rw [descend, descend, ops_eq_of_shape (hlinks.shape dir), hlookup]
  split_ifs
  · cases hnext : ramfsLookup s dir other with
    | none => rfl
    | some next =>
        obtain ⟨-, entry, hmem, -, rfl⟩ := ramfsLookup_eq_some hnext
        exact descend_links_below htree hlinks hdir
          (htree.links dir hdir entry hmem).2.2
  · rfl

/-- A new directory is empty. -/
theorem descend_new_directory (htree : FsTree s)
    (hdir : (s.vnodes dir).type = .dir)
    (hnew : NewVnode s child .dir .ramfs (some ino) s₁)
    (hlinks : Links s₁ dir name child s') :
    descend s' child names = if names = [] then some child else none := by
  have hlt := (htree.dirs dir hdir).1.trans_le hnew.fresh
  have hdir₁ := (type_eq_of_shape (hnew.others dir hlt.ne)).trans hdir
  have htree₁ := htree.newVnode hnew fun _ => ⟨rfl, Option.some_ne_none ino⟩
  have hdata : (s₁.vnodes child).data = some ino := congrArg (·.2.2) hnew.vnode
  have hempty : (s₁.inodes (inodeOf s₁ child)).children = [] := by
    rw [inodeOf, hdata, Option.getD_some, hnew.children]
    exact htree.unborn ino (hnew.inode ino rfl).1
  rw [descend_links_below htree₁ hlinks hdir₁ fun _ => hlt]
  cases names with
  | nil => rfl
  | cons first names =>
      have hnone : ramfsLookup s₁ child first = none := by
        rw [ramfsLookup, hempty]
        split_ifs <;> rfl
      rw [descend, hnone, if_neg (List.cons_ne_nil _ _)]
      split_ifs <;> rfl

end NewEntries

/-- The path leads to a directory. -/
def LeadsToDir (s : Store) (path : List UInt8) : Prop :=
  ∃ v, vfsResolve s path = some v ∧ (s.vnodes v).type = .dir

/-- A new entry for the leaf is passed on the way along the path: the directory
has no entry with the leaf's full name, the path is not a mount point, and the
first 63 bytes of the leaf are a component. -/
def PassesNew (s : Store) (path : List UInt8) (dir : Ref) (leaf : List UInt8) :
    Prop :=
  ramfsLookup s dir leaf = none ∧ (∀ mount ∈ s.mounts, mount.path ≠ path) ∧
    leaf ≠ [] ∧ slash ∉ leaf.take (vfsNameMax - 1)

/-- What makes a successful `vfs_mkdir` yield a directory: the new entry is on
the path and nothing but slashes is behind its name, or it is not and the path
led to a directory. -/
def YieldsDir (s : Store) (path : List UInt8) : Prop :=
  ∃ dir leaf, parentDir s path = some (dir, leaf) ∧
    ((PassesNew s path dir leaf ∧ ∀ c ∈ leaf.drop (vfsNameMax - 1), c = slash) ∨
      ¬ PassesNew s path dir leaf ∧ LeadsToDir s path)

section Making

variable {s s₁ s' : Store} {path parent leaf : List UInt8} {dir child ino : Ref}

theorem first_component_ne {first : List UInt8} {names : List (List UInt8)}
    (hleaf : leaf = [] ∨ slash ∈ leaf.take (vfsNameMax - 1))
    (hnames : components (skipSlashes leaf) = first :: names) :
    first ≠ leaf.take (vfsNameMax - 1) := by
  rintro rfl
  rcases hleaf with rfl | hslash
  · rw [show skipSlashes [] = [] from rfl, components_nil] at hnames
    cases hnames
  · cases hrest : skipSlashes leaf with
    | nil =>
        rw [hrest, components_nil] at hnames
        cases hnames
    | cons c rest =>
        rw [hrest, components_cons, List.cons.injEq] at hnames
        rw [← hnames.1] at hslash
        exact slash_notMem_component _ hslash

section Created

variable (htree : FsTree s) (hsplit : splitPath path = some (parent, leaf))
  (hresolve : vfsResolve s parent = some dir)
  (hdir : (s.vnodes dir).type = .dir)
  (hnew : NewVnode s child .dir .ramfs (some ino) s₁)
  (hlinks : Links s₁ dir (leaf.take (vfsNameMax - 1)) child s')

include hnew hlinks in
theorem type_created {v : Ref} (hv : v < s.next) :
    (s'.vnodes v).type = (s.vnodes v).type := by
  rw [type_eq_of_shape (hlinks.shape v)]
  exact type_eq_of_shape (hnew.others v (hv.trans_le hnew.fresh).ne)

include htree hsplit hresolve hdir hnew hlinks

omit hdir in
/-- A path that is mounted leads to the root mounted there. -/
theorem leadsToDir_mounted (hself : ∃ mount ∈ s.mounts, mount.path = path) :
    LeadsToDir s' path ↔ LeadsToDir s path := by
  obtain ⟨mount, hmem, hpath⟩ := hself
  have hhead := head_of_split hsplit hresolve
  obtain ⟨best, hbest, hfind, hbelow⟩ := vfsResolve_of_mounted hhead hmem hpath
  have hfind' : findMount s' path = some best := by
    rw [← hfind, findMount, findMount, hlinks.mounts, hnew.mounts]
  have hroot := type_created hnew hlinks (htree.mounts best hbest).1
  unfold LeadsToDir
  rw [vfsResolve_eq_descend, vfsResolve_eq_descend, hfind, hfind',
    if_neg (not_not_intro hhead), Option.bind_some, Option.bind_some, hbelow]
  simp [descend, hroot, hhead]

/-- With the new entry on the way, it is the end of the path or the path leads
nowhere. -/
theorem leadsToDir_passes (hpasses : PassesNew s path dir leaf) :
    LeadsToDir s' path ↔ ∀ c ∈ leaf.drop (vfsNameMax - 1), c = slash := by
  obtain ⟨-, hself, hne, hslash⟩ := hpasses
  have hlt := (htree.dirs dir hdir).1.trans_le hnew.fresh
  have hdir₁ := (type_eq_of_shape (hnew.others dir hlt.ne)).trans hdir
  have hops : (s'.vnodes dir).ops = .ramfs := by
    rw [ops_eq_of_shape (hlinks.shape dir),
      ops_eq_of_shape (hnew.others dir hlt.ne)]
    exact (htree.dirs dir hdir).2.1
  have hchild : (s'.vnodes child).type = .dir :=
    (type_eq_of_shape (hlinks.shape child)).trans (congrArg Prod.fst hnew.vnode)
  have hwalk := (vfsResolve_created htree hsplit hresolve hdir hself hnew
    hlinks).2
  rw [components_of_notMem_take hne hslash, descend, if_pos hops,
    ramfsLookup_links hlinks hdir₁, Option.bind_some,
    descend_new_directory htree hdir hnew hlinks] at hwalk
  rw [LeadsToDir, hwalk, ← skipSlashes_eq_nil, ← components_eq_nil]
  split_ifs with hslashes
  · exact iff_of_true ⟨child, rfl, hchild⟩ hslashes
  · exact iff_of_false (by simp) hslashes

/-- Otherwise the path leads to where it led. -/
theorem leadsToDir_passes_not (hself : ∀ mount ∈ s.mounts, mount.path ≠ path)
    (hleaf : leaf = [] ∨ slash ∈ leaf.take (vfsNameMax - 1)) :
    LeadsToDir s' path ↔ LeadsToDir s path := by
  have hlt := (htree.dirs dir hdir).1.trans_le hnew.fresh
  have hdir₁ := (type_eq_of_shape (hnew.others dir hlt.ne)).trans hdir
  have htree₁ := htree.newVnode hnew fun _ => ⟨rfl, Option.some_ne_none ino⟩
  obtain ⟨hbefore, hafter⟩ :=
    vfsResolve_created htree hsplit hresolve hdir hself hnew hlinks
  have hsame : descend s' dir (components (skipSlashes leaf)) =
      descend s dir (components (skipSlashes leaf)) := by
    cases hnames : components (skipSlashes leaf) with
    | nil => rfl
    | cons first names =>
        rw [descend_links_other htree₁ hlinks hdir₁
            (first_component_ne hleaf hnames),
          descend_newVnode htree hnew (htree.dirs dir hdir).1]
  unfold LeadsToDir
  rw [hafter, hsame, hbefore]
  refine exists_congr fun v => and_congr_right fun hwalk => ?_
  rw [type_created hnew hlinks
    (htree.descend_lt_next (htree.dirs dir hdir).1 hwalk)]

end Created

/-- A successful `vfs_mkdir` yields a directory exactly if the new entry ends
the path, or is not on it and the path led to a directory before; a failed one
leaves the tree alone. -/
theorem vfsMkdir_directory_iff (s : Store) (path : List UInt8)
    (htree : FsTree s) :
    (∀ s', vfsMkdir s path = (true, s') →
      (LeadsToDir s' path ↔ YieldsDir s path)) ∧
    ∀ s', vfsMkdir s path = (false, s') → SameTree s s' := by
  unfold vfsMkdir
  split_ifs with hhead
  · refine ⟨nofun, ?_⟩
    rintro _ ⟨⟩
    exact (Unmoved.refl s).sameTree
  cases hparent : parentDir s path with
  | none =>
      refine ⟨nofun, ?_⟩
      rintro _ ⟨⟩
      exact (Unmoved.refl s).sameTree
  | some found =>
      obtain ⟨dir, leaf⟩ := found
      obtain ⟨parent, hsplit, hresolve, hdir⟩ := parentDir_eq_some hparent
      have hyields : YieldsDir s path ↔ (PassesNew s path dir leaf ∧
          ∀ c ∈ leaf.drop (vfsNameMax - 1), c = slash) ∨
          ¬ PassesNew s path dir leaf ∧ LeadsToDir s path := by
        rw [YieldsDir, hparent]
        simp
      have hcreated := ramfsCreate_created htree hdir leaf .dir
      dsimp only
      unfold ramfsMkdirOp
      generalize ramfsCreate s dir leaf .dir = result at hcreated
      obtain ⟨made, s₂⟩ := result
      cases made with
      | none =>
          refine ⟨nofun, ?_⟩
          rintro _ ⟨⟩
          exact hcreated.sameTree htree
      | some v =>
          refine ⟨?_, nofun⟩
          rintro _ ⟨⟩
          rw [hyields]
          cases hcreated with
          | found hlookup =>
              have hnot : ¬ PassesNew s path dir leaf := by
                rintro ⟨hnone, -⟩
                rw [hlookup] at hnone
                cases hnone
              simp [hnot]
          | linked hlookup hnew hlinks =>
              by_cases hpasses : PassesNew s path dir leaf
              · simp only [hpasses, true_and, not_true, false_and, or_false]
                exact leadsToDir_passes htree hsplit hresolve hdir hnew hlinks
                  hpasses
              · simp only [hpasses, false_and, not_false_eq_true, true_and,
                  false_or]
                by_cases hself : ∀ mount ∈ s.mounts, mount.path ≠ path
                · refine leadsToDir_passes_not htree hsplit hresolve hdir hnew
                    hlinks hself ?_
                  by_contra hleaf
                  rw [not_or] at hleaf
                  exact hpasses ⟨hlookup, hself, hleaf⟩
                · push Not at hself
                  exact leadsToDir_mounted htree hsplit hresolve hnew hlinks
                    hself

end Making

namespace MakeDirWitness

def root : Store := ramfsInit (Store.empty fun _ => false)

/-- A new directory in the root. -/
theorem new_directory : (vfsMkdir root [slash, 97]).1 = true ∧
    LeadsToDir (vfsMkdir root [slash, 97]).2 [slash, 97] := by
  have hdone : (vfsMkdir root [slash, 97]).1 = true := by decide +kernel
  have hiff := (vfsMkdir_directory_iff root [slash, 97]
    (ramfsInit_tree (empty_tree _))).1 _ (Prod.ext hdone rfl)
  have hparent : parentDir root [slash, 97] =
      some (root.ramfsRoot.getD 0, [97]) := by decide +kernel
  refine ⟨hdone, hiff.mpr ⟨_, _, hparent, .inl ⟨⟨?_, ?_, ?_, ?_⟩, ?_⟩⟩⟩
  · decide +kernel
  · intro mount hmem hpath
    have hmount := List.mem_map_of_mem (f := Mount.path) hmem
    rw [show root.mounts.map Mount.path = [[slash]] by decide +kernel,
      List.mem_singleton, hpath] at hmount
    exact absurd hmount (by decide)
  all_goals decide +kernel

/-- The file `/f`. -/
def withFile : Store := (vfsOpen root [slash, 102] oCreat).2

/-- `vfs_mkdir` of a file reports success, and the path leads to the file. -/
theorem file_stays_file :
    (vfsMkdir withFile [slash, 102]).1 = true ∧
      (vfsResolve (vfsMkdir withFile [slash, 102]).2 [slash, 102]).map
        (fun v => ((vfsMkdir withFile [slash, 102]).2.vnodes v).type) =
          some .file := by
  decide +kernel

end MakeDirWitness

end Orion
