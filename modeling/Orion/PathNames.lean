/-
Paths as sequences of names.  `vfs_resolve` takes the longest mounted string
that the path starts with and walks the names behind it; what the path says is
the sequence of its names, and the same names can be written with different
slashes.
-/
import Orion.TreeShape

namespace Orion

/-- The non-empty strings between the slashes of a path. -/
def pathNames (path : List UInt8) : List (List UInt8) :=
  (path.splitOn slash).filter (· ≠ [])

section Names

variable {name path : List UInt8}

@[simp] theorem pathNames_nil : pathNames [] = [] := by
  decide

/-- A slash separates. -/
theorem pathNames_append (front leaf : List UInt8) :
    pathNames (front ++ slash :: leaf) = pathNames front ++ pathNames leaf := by
  unfold pathNames List.splitOn
  rw [List.splitOnP_append_cons (p := (· == slash)) front leaf (by decide),
    List.filter_append]

@[simp] theorem pathNames_slash (rest : List UInt8) :
    pathNames (slash :: rest) = pathNames rest :=
  pathNames_append [] rest

theorem pathNames_of_notMem (hne : name ≠ []) (hslash : slash ∉ name) :
    pathNames name = [name] := by
  rw [pathNames, List.splitOn_eq_singleton hslash]
  simp [hne]

theorem components_of_notMem (hslash : slash ∉ name)
    (hshort : name.length ≤ vfsNameMax - 1) :
    components (skipSlashes name) = pathNames name := by
  by_cases hne : name = []
  · rw [hne, pathNames_nil]
    exact components_nil
  · have hplain : PlainLeaf name := by
      refine ⟨hne, fun hmem => hslash (List.mem_of_mem_take hmem), ?_⟩
      rw [List.drop_eq_nil_of_le hshort]
      exact nofun
    rw [(components_eq_singleton_iff name).mpr hplain,
      List.take_of_length_le hshort, pathNames_of_notMem hne hslash]

/-- The walk looks up the names of the path if none is cut. -/
theorem components_eq_pathNames
    (hshort : ∀ name ∈ pathNames path, name.length ≤ vfsNameMax - 1) :
    components (skipSlashes path) = pathNames path := by
  induction hlength : path.length using Nat.strongRecOn generalizing path with
  | _ n ih =>
      by_cases hmem : slash ∈ path
      · obtain ⟨front, leaf, rfl, hfront⟩ := List.eq_append_cons_of_mem hmem
        rw [pathNames_append] at hshort ⊢
        have hleaf : leaf.length < n := by
          rw [← hlength, List.length_append, List.length_cons]
          omega
        have hfront' : front.length ≤ vfsNameMax - 1 := by
          by_cases hne : front = []
          · rw [hne]
            exact Nat.zero_le _
          · refine hshort front (List.mem_append_left _ ?_)
            rw [pathNames_of_notMem hne hfront]
            exact List.mem_singleton_self front
        rw [components_append, components_of_notMem hfront hfront',
          ih _ hleaf (fun name hname =>
            hshort name (List.mem_append_right _ hname)) rfl]
      · refine components_of_notMem hmem ?_
        by_cases hne : path = []
        · rw [hne]
          exact Nat.zero_le _
        · refine hshort path ?_
          rw [pathNames_of_notMem hne hmem]
          exact List.mem_singleton_self path

/-- A mounted string that covers the path ends between two names. -/
theorem Mount.Covers.pathNames {mount : Mount} (hcovers : mount.Covers path) :
    Orion.pathNames path = Orion.pathNames mount.path ++
      Orion.pathNames (path.drop mount.path.length) := by
  obtain ⟨hstart, hboundary⟩ := hcovers
  obtain ⟨rest, rfl⟩ := List.isPrefixOf_iff_prefix.mp hstart
  rw [List.drop_left]
  rw [List.getElem?_append_right (Nat.le_refl _), Nat.sub_self] at hboundary
  rcases hboundary with hroot | hslash | hend
  · rw [hroot, List.singleton_append, pathNames_slash, pathNames_slash,
      pathNames_nil, List.nil_append]
  · cases rest with
    | nil => cases hslash
    | cons c rest =>
        obtain rfl : c = slash := Option.some.inj hslash
        rw [pathNames_append, pathNames_slash]
  · cases rest with
    | nil => rw [List.append_nil, pathNames_nil, List.append_nil]
    | cons c rest => cases hend

theorem Mount.Covers.depth_le {mount : Mount} (hcovers : mount.Covers path) :
    (Orion.pathNames mount.path).length ≤ (Orion.pathNames path).length := by
  rw [hcovers.pathNames, List.length_append]
  exact Nat.le_add_right _ _

/-- Behind a mount point the walk looks up the rest of the names. -/
theorem Mount.Covers.componentsBelow {mount : Mount}
    (hcovers : mount.Covers path)
    (hshort : ∀ name ∈ Orion.pathNames path, name.length ≤ vfsNameMax - 1) :
    componentsBelow mount path =
      (Orion.pathNames path).drop (Orion.pathNames mount.path).length := by
  have hnames := hcovers.pathNames
  have hbelow : Orion.componentsBelow mount path =
      Orion.pathNames (path.drop mount.path.length) := by
    refine components_eq_pathNames fun name hname => hshort name ?_
    rw [hnames]
    exact List.mem_append_right _ hname
  rw [hbelow, hnames, List.drop_left]

/-- Resolution in terms of names. -/
theorem vfsResolve_eq_pathNames (s : Store) (hhead : path.head? = some slash)
    (hshort : ∀ name ∈ pathNames path, name.length ≤ vfsNameMax - 1) :
    vfsResolve s path = (findMount s path).bind fun mount =>
      descend s mount.root
        ((pathNames path).drop (pathNames mount.path).length) := by
  rw [vfsResolve_eq_descend, if_neg (not_not_intro hhead)]
  cases hfind : findMount s path with
  | none => rfl
  | some mount =>
      have hcovers := ((findMount_best s path).1 mount hfind).2.1
      rw [Option.bind_some, Option.bind_some, hcovers.componentsBelow hshort]

end Names

/-- The table entry that a path is resolved from: the first one with the longest
mounted string that covers the path. -/
structure ResolvesFrom (mounts : List Mount) (path : List UInt8)
    (mount : Mount) : Prop where
  first : mounts.find? (fun other => other.path = mount.path) = some mount
  nonempty : mount.path ≠ []
  covers : mount.Covers path
  longest : ∀ other ∈ mounts, other.Covers path →
    other.path.length ≤ mount.path.length

section Serving

variable {mounts : List Mount} {s : Store} {path : List UInt8}
  {mount other : Mount}

theorem ResolvesFrom.mem (hserves : ResolvesFrom mounts path mount) :
    mount ∈ mounts :=
  List.mem_of_find?_eq_some hserves.first

theorem covers_path_eq (hmount : mount.Covers path) (hother : other.Covers path)
    (hlength : mount.path.length = other.path.length) :
    mount.path = other.path := by
  have hstart := List.isPrefixOf_iff_prefix.mp hmount.1
  have hstart' := List.isPrefixOf_iff_prefix.mp hother.1
  exact (List.prefix_of_prefix_length_le hstart hstart' hlength.le).eq_of_length
    hlength

theorem ResolvesFrom.unique (hserves : ResolvesFrom mounts path mount)
    (hother : ResolvesFrom mounts path other) : mount = other := by
  have hlength := (hother.longest mount hserves.mem hserves.covers).antisymm
    (hserves.longest other hother.mem hother.covers)
  have hfirst := hserves.first
  rw [covers_path_eq hserves.covers hother.covers hlength, hother.first] at hfirst
  exact (Option.some.inj hfirst).symm

/-- Of several entries with one string the first is kept. -/
theorem foldl_betterMount_first {best : Option Mount}
    (hcovers : mount.Covers path)
    (hfold : mounts.foldl (betterMount path) best = some mount) :
    best = some mount ∨
      mounts.find? (fun other => other.path = mount.path) = some mount ∧
        bestLength best < mount.path.length := by
  induction mounts generalizing best with
  | nil => exact .inl hfold
  | cons first rest ih =>
      rw [List.foldl_cons] at hfold
      have hrest := ih hfold
      unfold betterMount at hrest
      split_ifs at hrest with hbetter
      · rcases hrest with hfirst | ⟨hfind, hlt⟩
        · obtain rfl := Option.some.inj hfirst
          exact .inr ⟨List.find?_cons_of_pos (by simp), hbetter.2⟩
        · have hne : first.path ≠ mount.path := by
            intro heq
            rw [← heq] at hlt
            exact Nat.lt_irrefl _ hlt
          refine .inr ⟨?_, hbetter.2.trans hlt⟩
          rwa [List.find?_cons_of_neg (by simpa using hne)]
      · rcases hrest with hbest | ⟨hfind, hlt⟩
        · exact .inl hbest
        · have hne : first.path ≠ mount.path := by
            intro heq
            refine hbetter ⟨?_, heq ▸ hlt⟩
            rw [Mount.Covers, heq]
            exact hcovers
          refine .inr ⟨?_, hlt⟩
          rwa [List.find?_cons_of_neg (by simpa using hne)]

theorem findMount_serves (hfind : findMount s path = some mount) :
    ResolvesFrom s.mounts path mount := by
  obtain ⟨hbest, hlongest⟩ := findMount_best s path
  obtain ⟨-, hcovers, hpos⟩ := hbest mount hfind
  rw [hfind] at hlongest
  refine ⟨?_, List.ne_nil_of_length_pos hpos, hcovers, hlongest⟩
  rw [findMount_eq_foldl] at hfind
  exact ((foldl_betterMount_first hcovers hfind).resolve_left nofun).1

theorem findMount_eq_none_iff : findMount s path = none ↔
    ∀ mount ∈ s.mounts, mount.path ≠ [] → ¬ mount.Covers path := by
  constructor
  · intro hnone mount hmem hne hcovers
    have hle := (findMount_best s path).2 mount hmem hcovers
    rw [hnone] at hle
    exact hne (List.length_eq_zero_iff.mp (Nat.le_zero.mp hle))
  · intro hnone
    cases hfind : findMount s path with
    | none => rfl
    | some mount =>
        have hserves := findMount_serves hfind
        exact absurd hserves.covers (hnone mount hserves.mem hserves.nonempty)

theorem findMount_eq_some_iff : findMount s path = some mount ↔
    ResolvesFrom s.mounts path mount := by
  refine ⟨findMount_serves, fun hserves => ?_⟩
  cases hfind : findMount s path with
  | none =>
      exact absurd hserves.covers
        (findMount_eq_none_iff.mp hfind mount hserves.mem hserves.nonempty)
  | some found => rw [hserves.unique (findMount_serves hfind)]

end Serving

/-- A name that can stand between two slashes. -/
def IsName (name : List UInt8) : Prop := name ≠ [] ∧ slash ∉ name

/-- Distinct canonical mount paths, the root among them. -/
structure CanonicalMounts (mounts : List Mount) : Prop where
  canonical : ∀ mount ∈ mounts, ∃ names, (∀ name ∈ names, IsName name) ∧
    mount.path = canonicalPath names
  distinct : (mounts.map Mount.path).Nodup
  root : [slash] ∈ mounts.map Mount.path

/-- The mount point with the most leading names of a path. -/
structure DeepestMount (mounts : List Mount) (names : List (List UInt8))
    (k : Nat) (mount : Mount) : Prop where
  depth : k ≤ names.length
  mem : mount ∈ mounts
  path : mount.path = canonicalPath (names.take k)
  deepest : ∀ j, k < j → j ≤ names.length → ∀ other ∈ mounts,
    other.path ≠ canonicalPath (names.take j)

section Canonical

variable {names front : List (List UInt8)} {mounts : List Mount}
  {mount : Mount} {s : Store}

theorem canonicalPath_of_ne_nil (hnil : names ≠ []) :
    canonicalPath names = names.flatMap (slash :: ·) := by
  induction names with
  | nil => exact absurd rfl hnil
  | cons name names ih =>
      cases names with
      | nil => simp [canonicalPath]
      | cons next names =>
          have htail := ih (List.cons_ne_nil next names)
          rw [canonicalPath, htail]
          · rfl
          · exact List.cons_ne_nil next names

theorem canonicalPath_head (names : List (List UInt8)) :
    (canonicalPath names).head? = some slash := by
  by_cases hnil : names = []
  · rw [hnil]
    rfl
  · obtain ⟨name, rest, rfl⟩ := List.exists_cons_of_ne_nil hnil
    rw [canonicalPath_of_ne_nil hnil]
    rfl

theorem pathNames_flatMap (hnames : ∀ name ∈ names, IsName name) :
    pathNames (names.flatMap (slash :: ·)) = names := by
  induction names with
  | nil => exact pathNames_nil
  | cons name names ih =>
      obtain ⟨⟨hne, hslash⟩, hrest⟩ := List.forall_mem_cons.mp hnames
      rw [List.flatMap_cons, List.cons_append, pathNames_slash]
      cases names with
      | nil =>
          rw [List.flatMap_nil, List.append_nil]
          exact pathNames_of_notMem hne hslash
      | cons next names =>
          rw [List.flatMap_cons, List.cons_append, pathNames_append,
            pathNames_of_notMem hne hslash, List.singleton_append]
          have htail := ih hrest
          rw [List.flatMap_cons, List.cons_append, pathNames_slash] at htail
          rw [htail]

theorem pathNames_canonicalPath (hnames : ∀ name ∈ names, IsName name) :
    pathNames (canonicalPath names) = names := by
  by_cases hnil : names = []
  · rw [hnil]
    rfl
  · rw [canonicalPath_of_ne_nil hnil]
    exact pathNames_flatMap hnames

/-- Canonical paths are compared name by name. -/
theorem covers_canonicalPath_iff (hpath : mount.path = canonicalPath front)
    (hfront : ∀ name ∈ front, IsName name)
    (hnames : ∀ name ∈ names, IsName name) :
    mount.Covers (canonicalPath names) ↔ front <+: names := by
  constructor
  · intro hcovers
    have hsplit := hcovers.pathNames
    rw [hpath, pathNames_canonicalPath hfront,
      pathNames_canonicalPath hnames] at hsplit
    exact ⟨_, hsplit.symm⟩
  · rintro ⟨rest, rfl⟩
    by_cases hnil : front = []
    · have hroot : mount.path = [slash] := by rw [hpath, hnil]; rfl
      refine ⟨?_, .inl hroot⟩
      rw [hroot, List.isPrefixOf_iff_prefix]
      obtain ⟨tail, htail⟩ := List.head?_eq_some_iff.mp
        (canonicalPath_head (front ++ rest))
      exact ⟨tail, htail.symm⟩
    · have hall : canonicalPath (front ++ rest) =
          mount.path ++ rest.flatMap (slash :: ·) := by
        rw [hpath, canonicalPath_of_ne_nil hnil,
          canonicalPath_of_ne_nil (by simp [hnil]), List.flatMap_append]
      refine ⟨?_, .inr ?_⟩
      · rw [hall, List.isPrefixOf_iff_prefix]
        exact List.prefix_append _ _
      · rw [hall, List.getElem?_append_right (Nat.le_refl _), Nat.sub_self]
        cases rest with
        | nil => exact .inr rfl
        | cons name rest => exact .inl rfl

theorem canonicalPath_length_lt {name : List UInt8} (hname : IsName name)
    (front rest : List (List UInt8)) : (canonicalPath front).length <
      (canonicalPath (front ++ name :: rest)).length := by
  have hpos := List.length_pos_of_ne_nil hname.1
  have hall : front ++ name :: rest ≠ [] := by simp
  rw [canonicalPath_of_ne_nil hall, List.flatMap_append, List.length_append,
    List.flatMap_cons, List.length_append, List.length_cons]
  by_cases hnil : front = []
  · rw [hnil, canonicalPath, List.length_singleton]
    omega
  · rw [canonicalPath_of_ne_nil hnil]
    omega

theorem CanonicalMounts.eq_of_path (hmounts : CanonicalMounts mounts)
    {other : Mount} (hmem : mount ∈ mounts) (hother : other ∈ mounts)
    (hpath : mount.path = other.path) : mount = other :=
  List.inj_on_of_nodup_map hmounts.distinct hmem hother hpath

theorem DeepestMount.unique (hmounts : CanonicalMounts mounts) {k j : Nat}
    {other : Mount} (hmount : DeepestMount mounts names k mount)
    (hother : DeepestMount mounts names j other) : j = k ∧ other = mount := by
  have hjk : j = k := by
    refine Nat.le_antisymm ?_ ?_
    · refine Nat.le_of_not_lt fun hlt => ?_
      exact hmount.deepest j hlt hother.depth other hother.mem hother.path
    · refine Nat.le_of_not_lt fun hlt => ?_
      exact hother.deepest k hlt hmount.depth mount hmount.mem hmount.path
  refine ⟨hjk, hmounts.eq_of_path hother.mem hmount.mem ?_⟩
  rw [hother.path, hmount.path, hjk]

/-- The longest string is the deepest mount point. -/
theorem ResolvesFrom.deepest (hmounts : CanonicalMounts mounts)
    (hnames : ∀ name ∈ names, IsName name)
    (hserves : ResolvesFrom mounts (canonicalPath names) mount) :
    DeepestMount mounts names (pathNames mount.path).length mount := by
  obtain ⟨front, hfront, hpath⟩ := hmounts.canonical mount hserves.mem
  obtain ⟨rest, rfl⟩ :=
    (covers_canonicalPath_iff hpath hfront hnames).mp hserves.covers
  have hdepth : (pathNames mount.path).length = front.length := by
    rw [hpath, pathNames_canonicalPath hfront]
  rw [hdepth]
  refine ⟨by simp, hserves.mem, by rw [List.take_left]; exact hpath, ?_⟩
  intro j hlt hj other hmem hother
  have htake : (front ++ rest).take j <+: front ++ rest := List.take_prefix _ _
  have hcovers := (covers_canonicalPath_iff hother
    (fun name hname => hnames name (htake.subset hname)) hnames).mpr htake
  have hle := hserves.longest other hmem hcovers
  obtain ⟨name, between, hbetween⟩ : ∃ name between,
      rest.take (j - front.length) = name :: between := by
    refine List.exists_cons_of_length_pos ?_
    rw [List.length_take]
    rw [List.length_append] at hj
    omega
  have hname : IsName name := by
    refine hnames name (List.mem_append_right _ (List.mem_of_mem_take
      (i := j - front.length) ?_))
    rw [hbetween]
    exact List.mem_cons_self
  rw [hother, hpath, List.take_append, List.take_of_length_le hlt.le,
    hbetween] at hle
  exact absurd hle (Nat.not_le.mpr (canonicalPath_length_lt hname front between))

/-- A canonical path leads to the vnode that its names lead to below the deepest
mount point among its leading names, in one round for each of them. -/
theorem vfsResolve_canonical (s : Store) (names : List (List UInt8))
    (hmounts : CanonicalMounts s.mounts)
    (hnames : ∀ name ∈ names, IsName name ∧ name.length ≤ vfsNameMax - 1) :
    ∃ k mount, DeepestMount s.mounts names k mount ∧
      (∀ j other, DeepestMount s.mounts names j other →
        j = k ∧ other = mount) ∧
      vfsResolve s (canonicalPath names) =
        descend s mount.root (names.drop k) ∧
      ∀ fuel, names.length - k ≤ fuel → resolveLoop s fuel mount.root
        (skipSlashes ((canonicalPath names).drop mount.path.length)) =
          descend s mount.root (names.drop k) := by
  have hname : ∀ name ∈ names, IsName name := fun name hmem =>
    (hnames name hmem).1
  have hpath := pathNames_canonicalPath hname
  obtain ⟨top, htop, hslash⟩ := List.mem_map.mp hmounts.root
  have hcovers : top.Covers (canonicalPath names) :=
    (covers_canonicalPath_iff (show top.path = canonicalPath [] from hslash)
      nofun hname).mpr List.nil_prefix
  cases hfind : findMount s (canonicalPath names) with
  | none =>
      refine absurd hcovers (findMount_eq_none_iff.mp hfind top htop ?_)
      rw [hslash]
      exact List.cons_ne_nil _ _
  | some mount =>
      have hserves := findMount_serves hfind
      have hdeepest := hserves.deepest hmounts hname
      have hshort : ∀ name ∈ pathNames (canonicalPath names),
          name.length ≤ vfsNameMax - 1 := by
        rw [hpath]
        exact fun name hmem => (hnames name hmem).2
      have hbelow := hserves.covers.componentsBelow hshort
      rw [hpath] at hbelow
      refine ⟨_, mount, hdeepest,
        fun j other => hdeepest.unique hmounts, ?_, ?_⟩
      · rw [vfsResolve_eq_pathNames s (canonicalPath_head names) hshort, hfind,
          hpath]
        rfl
      · intro fuel hfuel
        rw [← hbelow]
        refine resolveLoop_eq_descend ?_ mount.root
        change (componentsBelow mount (canonicalPath names)).length ≤ fuel
        rw [hbelow, List.length_drop]
        exact hfuel

end Canonical

namespace PathNamesWitness

/-- The root directory, mounted at `/` and again at `/a`. -/
def mounted : Store :=
  let store := ramfsInit (Store.empty fun _ => false)
  (vfsMount store [slash, 97] (store.ramfsRoot.getD 0)).2

theorem mounted_canonical : CanonicalMounts mounted.mounts := by
  refine ⟨?_, by decide +kernel, by decide +kernel⟩
  intro mount hmem
  have hpath : mount.path ∈ mounted.mounts.map Mount.path :=
    List.mem_map_of_mem hmem
  rw [show mounted.mounts.map Mount.path = [[slash], [slash, 97]] by
    decide +kernel] at hpath
  rcases List.mem_cons.mp hpath with hroot | hsub
  · exact ⟨[], nofun, hroot⟩
  · refine ⟨[[97]], ?_, List.mem_singleton.mp hsub⟩
    intro name hname
    rw [List.mem_singleton.mp hname]
    exact ⟨by decide, by decide⟩

/-- The path `/a/b` is resolved from the mount point `/a`. -/
theorem mounted_resolves : ∃ k mount,
    DeepestMount mounted.mounts [[97], [98]] k mount ∧
      vfsResolve mounted (canonicalPath [[97], [98]]) =
        descend mounted mount.root ([[97], [98]].drop k) := by
  have hnames : ∀ name ∈ [[97], [98]],
      IsName name ∧ name.length ≤ vfsNameMax - 1 := by
    unfold IsName
    decide
  obtain ⟨k, mount, hdeepest, -, hresolve, -⟩ :=
    vfsResolve_canonical mounted _ mounted_canonical hnames
  exact ⟨k, mount, hdeepest, hresolve⟩

end PathNamesWitness

end Orion
