/-
Paths that differ in slashes only.  Slashes between names and behind the mount
point are skipped, but `find_mount` compares the mounted strings with the path
byte by byte, so a repeated slash can take a path to another mount point.
-/
import Orion.PathNames

namespace Orion

/-- Both paths are resolved from the same root with the same number of names
before it, or no mount point covers either. -/
def SameStart (mounts : List Mount) (path path' : List UInt8) : Prop :=
  (∀ mount ∈ mounts, mount.path ≠ [] →
    ¬ mount.Covers path ∧ ¬ mount.Covers path') ∨
  ∃ mount mount', ResolvesFrom mounts path mount ∧
    ResolvesFrom mounts path' mount' ∧
    mount.root = mount'.root ∧
    (pathNames mount.path).length = (pathNames mount'.path).length

/-- The vnodes of a chain of directories below `root`. -/
def chainNode (root base : Nat) : Nat → Nat
  | 0 => root
  | i + 1 => base + i + 1

def chainEntry (names : List (List UInt8)) (base : Nat) (i : Nat) :
    List Dirent :=
  (names[i]?.map fun name => ⟨0, name, base + i + 1⟩).toList

/-- A file system with one chain of directories, named by `names`. -/
def chainStore (mounts : List Mount) (root base : Nat)
    (names : List (List UInt8)) : Store :=
  { Store.empty (fun _ => false) with
    mounts := mounts
    vnodes := fun v => ⟨.dir, 0, 0, .ramfs, some v⟩
    inodes := fun v =>
      { buf := none
        capacity := 0
        children := if v = root then chainEntry names base 0
          else if base < v then chainEntry names base (v - base) else []
        childCount := 0 } }

section Chains

variable {mounts : List Mount} {root base other : Nat}
  {names front rest : List (List UInt8)} {i : Nat}

theorem chainNode_inj (hroot : root ≤ base) {j : Nat}
    (hnode : chainNode root base i = chainNode root base j) : i = j := by
  cases i with
  | zero =>
      cases j with
      | zero => rfl
      | succ j =>
          change root = base + j + 1 at hnode
          omega
  | succ i =>
      cases j with
      | zero =>
          change base + i + 1 = root at hnode
          omega
      | succ j =>
          change base + i + 1 = base + j + 1 at hnode
          omega

theorem chainStore_lookup (hroot : root ≤ base) (i : Nat) (name : List UInt8) :
    ramfsLookup (chainStore mounts root base names) (chainNode root base i)
      name = if names[i]? = some name then some (chainNode root base (i + 1))
        else none := by
  have hchildren : ((chainStore mounts root base names).inodes
      (chainNode root base i)).children = chainEntry names base i := by
    cases i with
    | zero => exact if_pos rfl
    | succ i =>
        have hne : base + i + 1 ≠ root := by omega
        have hlt : base < base + i + 1 := by omega
        have hsub : base + i + 1 - base = i + 1 := by omega
        change (if base + i + 1 = root then _ else if base < base + i + 1
          then chainEntry names base (base + i + 1 - base) else []) = _
        rw [if_neg hne, if_pos hlt, hsub]
  change (((chainStore mounts root base names).inodes
    (chainNode root base i)).children.find? _).map _ = _
  rw [hchildren, chainEntry]
  cases names[i]? with
  | none => rfl
  | some found =>
      by_cases hname : found = name
      · simp [hname, chainNode]
      · simp [hname]

theorem chainStore_descend (hroot : root ≤ base) {v : Ref}
    (hwalk : descend (chainStore mounts root base names)
      (chainNode root base i) rest = some v) :
    v = chainNode root base (i + rest.length) := by
  induction rest generalizing i with
  | nil => exact (Option.some.inj hwalk).symm
  | cons name rest ih =>
      rw [descend, chainStore_lookup hroot] at hwalk
      split_ifs at hwalk
      · rw [ih hwalk, List.length_cons]
        congr 1
        omega
      · cases hwalk

theorem chainStore_descend_names (hroot : root ≤ base)
    (hnames : names = front ++ rest) :
    descend (chainStore mounts root base names)
      (chainNode root base front.length) rest =
        some (chainNode root base names.length) := by
  induction rest generalizing front with
  | nil =>
      rw [hnames, List.append_nil]
      rfl
  | cons name rest ih =>
      have hget : names[front.length]? = some name := by
        rw [hnames, List.getElem?_append_right (Nat.le_refl _), Nat.sub_self]
        rfl
      have hnext := @ih (front ++ [name]) (by rw [hnames, List.append_assoc]; rfl)
      rw [List.length_append, List.length_singleton] at hnext
      rw [descend, chainStore_lookup hroot, if_pos hget]
      exact hnext

theorem chainStore_lookup_other (hne : other ≠ root) (hle : other ≤ base)
    (name : List UInt8) :
    ramfsLookup (chainStore mounts root base names) other name = none := by
  have hchildren : ((chainStore mounts root base names).inodes other).children =
      [] := by
    change (if other = root then _ else _) = _
    rw [if_neg hne, if_neg (Nat.not_lt.mpr hle)]
  change (((chainStore mounts root base names).inodes other).children.find?
    _).map _ = _
  rw [hchildren]
  rfl

/-- Walks that start apart or are of different lengths can end apart. -/
theorem exists_walks_differ (mounts : List Mount)
    (hdiffer : root ≠ other ∨ rest.length < names.length) :
    ∃ s : Store, s.mounts = mounts ∧
      descend s root names ≠ descend s other rest := by
  have hroot : root ≤ max root other := le_max_left _ _
  have hother : other ≤ max root other := le_max_right _ _
  generalize max root other = base at hroot hother
  refine ⟨chainStore mounts root base names, rfl, fun hsame => ?_⟩
  have hall := @chainStore_descend_names mounts root base names [] names hroot rfl
  rw [show chainNode root base ([] : List (List UInt8)).length = root from rfl,
    hsame] at hall
  by_cases heq : other = root
  · subst heq
    have hend := @chainStore_descend mounts other base names rest 0 hroot _ hall
    have hlength := chainNode_inj hroot hend
    rcases hdiffer with hne | hlt
    · exact hne rfl
    · omega
  · cases rest with
    | nil =>
        have hend : other = chainNode root base names.length :=
          Option.some.inj hall
        cases hlength : names.length with
        | zero =>
            rw [hlength] at hend
            exact heq hend
        | succ n =>
            rw [hlength] at hend
            change other = base + n + 1 at hend
            omega
    | cons name rest =>
        rw [descend, chainStore_lookup_other heq hother] at hall
        split_ifs at hall
        all_goals cases hall

theorem starts_eq_of_walks_agree (hagree : ∀ s : Store, s.mounts = mounts →
      descend s root names = descend s other rest) :
    root = other ∧ names.length = rest.length := by
  by_contra hapart
  by_cases hdiffer : root ≠ other ∨ rest.length < names.length
  · obtain ⟨s, hs, hne⟩ := exists_walks_differ mounts hdiffer
    exact hne (hagree s hs)
  · rw [not_or, not_not] at hdiffer
    have hlt : names.length < rest.length :=
      Nat.lt_of_le_of_ne (Nat.le_of_not_lt hdiffer.2) fun hlength =>
        hapart ⟨hdiffer.1, hlength⟩
    obtain ⟨s, hs, hne⟩ := exists_walks_differ mounts
      (Or.inr hlt : other ≠ root ∨ _)
    exact hne (hagree s hs).symm

theorem exists_walk (mounts : List Mount) (root : Ref)
    (names : List (List UInt8)) : ∃ s : Store, s.mounts = mounts ∧
      descend s root names ≠ none := by
  refine ⟨chainStore mounts root root names, rfl, ?_⟩
  have hall := @chainStore_descend_names mounts root root names [] names
    (Nat.le_refl _) rfl
  intro hnone
  rw [show chainNode root root ([] : List (List UInt8)).length = root from rfl,
    hnone] at hall
  cases hall

end Chains

section Slashes

variable {mounts : List Mount} {mount mount' : Mount}
  {path path' : List UInt8} {s : Store}

theorem vfsResolve_of_serves (hhead : path.head? = some slash)
    (hshort : ∀ name ∈ pathNames path, name.length ≤ vfsNameMax - 1)
    (hserves : ResolvesFrom s.mounts path mount) :
    vfsResolve s path = descend s mount.root
      ((pathNames path).drop (pathNames mount.path).length) := by
  rw [vfsResolve_eq_pathNames s hhead hshort,
    findMount_eq_some_iff.mpr hserves]
  rfl

theorem vfsResolve_of_uncovered
    (hnone : ∀ mount ∈ s.mounts, mount.path ≠ [] → ¬ mount.Covers path) :
    vfsResolve s path = none := by
  rw [vfsResolve_eq_descend, findMount_eq_none_iff.mpr hnone]
  split_ifs <;> rfl

/-- A path is served or not by the mount table alone. -/
theorem serves_or_uncovered (mounts : List Mount) (path : List UInt8) :
    (∃ mount, ResolvesFrom mounts path mount) ∨
      ∀ mount ∈ mounts, mount.path ≠ [] → ¬ mount.Covers path := by
  let s : Store := { Store.empty (fun _ => false) with mounts := mounts }
  cases hfind : findMount s path with
  | none => exact .inr (findMount_eq_none_iff.mp hfind)
  | some mount => exact .inl ⟨mount, findMount_serves hfind⟩

/-- A path behind a mount point resolves in some file system. -/
theorem ResolvesFrom.exists_resolves (hserves : ResolvesFrom mounts path mount)
    (hhead : path.head? = some slash)
    (hshort : ∀ name ∈ pathNames path, name.length ≤ vfsNameMax - 1) :
    ∃ s : Store, s.mounts = mounts ∧ vfsResolve s path ≠ none := by
  obtain ⟨s, rfl, hwalk⟩ := exists_walk mounts mount.root
    ((pathNames path).drop (pathNames mount.path).length)
  refine ⟨s, rfl, ?_⟩
  rw [vfsResolve_of_serves hhead hshort hserves]
  exact hwalk

/-- Two paths with the same names lead to the same vnode in every file system
with the given mount table, exactly if both are resolved from the same root
with the same number of names before it. -/
theorem vfsResolve_slashes_iff (mounts : List Mount) (path path' : List UInt8)
    (hhead : path.head? = some slash) (hhead' : path'.head? = some slash)
    (hnames : pathNames path = pathNames path')
    (hshort : ∀ name ∈ pathNames path, name.length ≤ vfsNameMax - 1) :
    (∀ s : Store, s.mounts = mounts →
      vfsResolve s path = vfsResolve s path') ↔
        SameStart mounts path path' := by
  have hshort' := hnames ▸ hshort
  constructor
  · intro hsame
    rcases serves_or_uncovered mounts path with ⟨mount, hserves⟩ | hnone
    · rcases serves_or_uncovered mounts path' with ⟨mount', hserves'⟩ | hnone'
      · refine .inr ⟨mount, mount', hserves, hserves', ?_⟩
        have hle := hserves.covers.depth_le
        have hle' := hserves'.covers.depth_le
        rw [← hnames] at hle'
        have hwalks : ∀ s : Store, s.mounts = mounts →
            descend s mount.root
              ((pathNames path).drop (pathNames mount.path).length) =
            descend s mount'.root
              ((pathNames path).drop (pathNames mount'.path).length) := by
          rintro s rfl
          rw [← vfsResolve_of_serves hhead hshort hserves, hsame s rfl,
            vfsResolve_of_serves hhead' hshort' hserves', hnames]
        obtain ⟨hroot, hlength⟩ := starts_eq_of_walks_agree hwalks
        rw [List.length_drop, List.length_drop] at hlength
        exact ⟨hroot, by omega⟩
      · obtain ⟨s, rfl, hsome⟩ := hserves.exists_resolves hhead hshort
        rw [hsame s rfl, vfsResolve_of_uncovered hnone'] at hsome
        exact absurd rfl hsome
    · rcases serves_or_uncovered mounts path' with ⟨mount', hserves'⟩ | hnone'
      · obtain ⟨s, rfl, hsome⟩ := hserves'.exists_resolves hhead' hshort'
        rw [← hsame s rfl, vfsResolve_of_uncovered hnone] at hsome
        exact absurd rfl hsome
      · exact .inl fun mount hmem hne =>
          ⟨hnone mount hmem hne, hnone' mount hmem hne⟩
  · rintro hstart s rfl
    rcases hstart with hnone | ⟨mount, mount', hserves, hserves', hroot, hdepth⟩
    · rw [vfsResolve_of_uncovered fun m hm hne => (hnone m hm hne).1,
        vfsResolve_of_uncovered fun m hm hne => (hnone m hm hne).2]
    · rw [vfsResolve_of_serves hhead hshort hserves,
        vfsResolve_of_serves hhead' hshort' hserves', hroot, hdepth, hnames]

end Slashes

namespace SlashPathsWitness

open PathNamesWitness (mounted)

def rootOnly : List Mount := [⟨[slash], 1⟩]

theorem rootOnly_serves {path : List UInt8} (hhead : path.head? = some slash) :
    ResolvesFrom rootOnly path ⟨[slash], 1⟩ where
  first := rfl
  nonempty := List.cons_ne_nil _ _
  covers := by
    obtain ⟨rest, rfl⟩ := List.head?_eq_some_iff.mp hhead
    exact ⟨by simp [List.isPrefixOf], .inl rfl⟩
  longest := fun other hmem _ => by rw [List.mem_singleton.mp hmem]

/-- With `/` alone mounted, `/a` and `//a/` are one path. -/
theorem root_mount_insensitive :
    SameStart rootOnly [slash, 97] [slash, slash, 97, slash] ∧
      ∀ s : Store, s.mounts = rootOnly →
        vfsResolve s [slash, 97] = vfsResolve s [slash, slash, 97, slash] := by
  have hstart : SameStart rootOnly [slash, 97] [slash, slash, 97, slash] :=
    .inr ⟨_, _, rootOnly_serves rfl, rootOnly_serves rfl, rfl, rfl⟩
  exact ⟨hstart, (vfsResolve_slashes_iff rootOnly _ _ rfl rfl (by decide)
    (by decide)).mpr hstart⟩

/-- With `/a` mounted as well, `/a` is its root and `//a` is nothing. -/
theorem second_mount_sensitive :
    pathNames [slash, 97] = pathNames [slash, slash, 97] ∧
      (vfsResolve mounted [slash, 97]).isSome = true ∧
      vfsResolve mounted [slash, slash, 97] = none := by
  decide +kernel

end SlashPathsWitness

end Orion
