/-
Path resolution as a walk.  `vfs_resolve` cuts the rest of a path behind the
mount point into components, at slashes and after 63 bytes, and looks them up
one after the other; the three functions that make entries cut the same string
at the last slash of its first 127 bytes.
-/
import Orion.Vfs
import Mathlib.Data.List.TakeWhile

namespace Orion

/-- What is left of a path after its first component. -/
def advance (rest : List UInt8) : List UInt8 :=
  skipSlashes (rest.drop (component rest).length)

section Components

variable {rest : List UInt8} {c : UInt8}

theorem skipSlashes_length_le (rest : List UInt8) :
    (skipSlashes rest).length ≤ rest.length :=
  List.length_dropWhile_le _ rest

theorem skipSlashes_head (rest : List UInt8) :
    (skipSlashes rest).head? ≠ some slash := by
  intro hhead
  have hfalse := List.head?_dropWhile_not (· == slash) rest
  rw [show (rest.dropWhile (· == slash)).head? = some slash from hhead] at hfalse
  exact absurd hfalse (by decide)

theorem skipSlashes_of_head (hhead : rest.head? ≠ some slash) :
    skipSlashes rest = rest := by
  cases rest with
  | nil => rfl
  | cons c rest =>
      refine List.dropWhile_cons_of_neg ?_
      simpa using hhead

theorem skipSlashes_eq_nil : skipSlashes rest = [] ↔ ∀ c ∈ rest, c = slash := by
  simp [skipSlashes, List.dropWhile_eq_nil_iff]

theorem component_cons_of_ne (hc : c ≠ slash) (rest : List UInt8) :
    0 < (component (c :: rest)).length := by
  simp [component, vfsNameMax, hc]

theorem component_length_le (rest : List UInt8) :
    (component rest).length ≤ rest.length :=
  ((List.takeWhile_prefix _).length_le).trans (List.length_take_le' _ _)

theorem slash_notMem_component (rest : List UInt8) : slash ∉ component rest := by
  intro hmem
  have hne := List.mem_takeWhile_imp hmem
  simp at hne

theorem advance_length_lt (c : UInt8) (rest : List UInt8) :
    (advance (c :: rest)).length < (c :: rest).length := by
  by_cases hc : c = slash
  · have hnone : component (c :: rest) = [] := by
      simp [component, vfsNameMax, hc]
    rw [advance, hnone, hc]
    exact Nat.lt_succ_of_le (skipSlashes_length_le rest)
  · refine (skipSlashes_length_le _).trans_lt ?_
    rw [List.length_drop]
    exact Nat.sub_lt (Nat.succ_pos _) (component_cons_of_ne hc rest)

end Components

/-- The components that `vfs_resolve` looks up. -/
def components : List UInt8 → List (List UInt8)
  | [] => []
  | c :: rest => component (c :: rest) :: components (advance (c :: rest))
termination_by rest => rest.length
decreasing_by exact advance_length_lt c rest

/-- Look up one name after the other. -/
def descend (store : Store) : Ref → List (List UInt8) → Option Ref
  | cur, [] => some cur
  | cur, name :: names =>
      if (store.vnodes cur).ops = .ramfs then
        (ramfsLookup store cur name).bind fun next => descend store next names
      else none

section Walks

variable {s : Store}

@[simp] theorem components_nil : components [] = [] := by
  rw [components]

theorem components_cons (c : UInt8) (rest : List UInt8) :
    components (c :: rest) =
      component (c :: rest) :: components (advance (c :: rest)) := by
  rw [components]

@[simp] theorem components_eq_nil {rest : List UInt8} :
    components rest = [] ↔ rest = [] := by
  cases rest with
  | nil => simp
  | cons c rest => simp [components_cons]

theorem descend_append (cur : Ref) (front back : List (List UInt8)) :
    descend s cur (front ++ back) =
      (descend s cur front).bind fun next => descend s next back := by
  induction front generalizing cur with
  | nil => rfl
  | cons name front ih =>
      rw [List.cons_append, descend, descend]
      split_ifs
      · cases ramfsLookup s cur name with
        | none => rfl
        | some next => exact ih next
      · rfl

theorem components_length_le (rest : List UInt8) :
    (components rest).length ≤ rest.length := by
  induction hlength : rest.length using Nat.strongRecOn generalizing rest with
  | _ n ih =>
      cases rest with
      | nil => simp
      | cons c rest =>
          have hlt := advance_length_lt c rest
          have hle := ih _ (hlength ▸ hlt) (advance (c :: rest)) rfl
          rw [components_cons, List.length_cons, ← hlength]
          exact Nat.succ_le_of_lt (hle.trans_lt hlt)

/-- The loop makes one round for each component. -/
theorem resolveLoop_eq_descend {fuel : Nat} {rest : List UInt8}
    (hfuel : (components rest).length ≤ fuel) (cur : Ref) :
    resolveLoop s fuel cur rest = descend s cur (components rest) := by
  induction fuel generalizing cur rest with
  | zero =>
      have hnil := List.length_eq_zero_iff.mp (Nat.le_zero.mp hfuel)
      obtain rfl := components_eq_nil.mp hnil
      rw [components_nil]
      rfl
  | succ fuel ih =>
      cases rest with
      | nil =>
          rw [components_nil]
          rfl
      | cons c rest =>
          rw [components_cons, List.length_cons] at hfuel
          rw [components_cons, descend]
          simp only [resolveLoop]
          split_ifs
          · cases ramfsLookup s cur (component (c :: rest)) with
            | none => rfl
            | some next => exact ih (Nat.le_of_succ_le_succ hfuel) next
          · rfl

/-- The components of a path behind a mount point. -/
def componentsBelow (mount : Mount) (path : List UInt8) : List (List UInt8) :=
  components (skipSlashes (path.drop mount.path.length))

theorem vfsResolve_eq_descend (s : Store) (path : List UInt8) :
    vfsResolve s path = if path.head? ≠ some slash then none
      else (findMount s path).bind fun mount =>
        descend s mount.root (componentsBelow mount path) := by
  unfold vfsResolve
  split_ifs
  · rfl
  cases findMount s path with
  | none => rfl
  | some mount => exact resolveLoop_eq_descend (components_length_le _) mount.root

end Walks

section Splits

variable {front leaf path : List UInt8}

theorem skipSlashes_append (front leaf : List UInt8) :
    skipSlashes (front ++ slash :: leaf) =
      if skipSlashes front = [] then skipSlashes leaf
      else skipSlashes front ++ slash :: leaf := by
  induction front with
  | nil => simp [skipSlashes]
  | cons c front ih =>
      by_cases hc : c = slash
      · have hskip : ∀ rest, skipSlashes (c :: rest) = skipSlashes rest :=
          fun rest => List.dropWhile_cons_of_pos (beq_iff_eq.mpr hc)
        rw [List.cons_append, hskip, hskip]
        exact ih
      · have hkeep : ∀ rest, skipSlashes (c :: rest) = c :: rest :=
          fun rest => skipSlashes_of_head (by simpa using hc)
        rw [List.cons_append, hkeep, hkeep, if_neg (List.cons_ne_nil _ _)]
        rfl

theorem component_append (front leaf : List UInt8) :
    component (front ++ slash :: leaf) = component front := by
  unfold component
  rw [List.take_append]
  by_cases hlong : vfsNameMax - 1 ≤ front.length
  · rw [Nat.sub_eq_zero_of_le hlong, List.take_zero, List.append_nil]
  · obtain ⟨n, hn⟩ : ∃ n, vfsNameMax - 1 - front.length = n + 1 :=
      ⟨vfsNameMax - 1 - front.length - 1, by omega⟩
    rw [hn, List.take_succ_cons, List.takeWhile_append]
    split_ifs with hall
    · rw [List.takeWhile_cons_of_neg (by simp), List.append_nil]
      exact ((List.takeWhile_prefix _).eq_of_length hall).symm
    · rfl

/-- A slash separates. -/
theorem components_append (front leaf : List UInt8) :
    components (skipSlashes (front ++ slash :: leaf)) =
      components (skipSlashes front) ++ components (skipSlashes leaf) := by
  induction hlength : front.length using Nat.strongRecOn
    generalizing front with
  | _ n ih =>
      rw [skipSlashes_append]
      split_ifs with hnone
      · rw [hnone, components_nil]
        rfl
      · obtain ⟨c, rest, hrest⟩ := List.exists_cons_of_ne_nil hnone
        have hc : c ≠ slash := by
          have hhead := skipSlashes_head front
          rw [hrest] at hhead
          simpa using hhead
        have hshort : (rest.drop ((component (c :: rest)).length - 1)).length <
            n := by
          have hle := skipSlashes_length_le front
          rw [hrest] at hle
          simp only [List.length_cons, List.length_drop] at hle ⊢
          omega
        have hpos := component_cons_of_ne hc rest
        have hdrop : (c :: rest).drop (component (c :: rest)).length =
            rest.drop ((component (c :: rest)).length - 1) := by
          obtain ⟨m, hm⟩ := Nat.exists_eq_succ_of_ne_zero hpos.ne'
          rw [hm]
          rfl
        have hle := component_length_le (c :: rest)
        have hcut : ((c :: rest) ++ slash :: leaf).drop
            (component (c :: rest)).length =
            (c :: rest).drop (component (c :: rest)).length ++
              slash :: leaf := List.drop_append_of_le_length hle
        have hfirst : components ((c :: rest) ++ slash :: leaf) =
            component (c :: rest) ::
              components (advance ((c :: rest) ++ slash :: leaf)) := by
          rw [← component_append (c :: rest) leaf]
          exact components_cons c (rest ++ slash :: leaf)
        rw [hrest, hfirst, advance, component_append, hcut, hdrop,
          ih _ hshort _ rfl, components_cons, advance, hdrop]
        rfl

/-- A name that is found again under the string it was made from. -/
def PlainLeaf (leaf : List UInt8) : Prop :=
  leaf ≠ [] ∧ slash ∉ leaf.take (vfsNameMax - 1) ∧
    ∀ c ∈ leaf.drop (vfsNameMax - 1), c = slash

instance (leaf : List UInt8) : Decidable (PlainLeaf leaf) :=
  inferInstanceAs (Decidable (_ ∧ _ ∧ _))

theorem drop_take_length (leaf : List UInt8) (n : Nat) :
    leaf.drop (leaf.take n).length = leaf.drop n := by
  rw [List.length_take]
  rcases Nat.le_total n leaf.length with hle | hle
  · rw [Nat.min_eq_left hle]
  · rw [Nat.min_eq_right hle, List.drop_length, List.drop_eq_nil_of_le hle]

/-- A leaf with no early slash gives the name that `ramfs_add_dirent` stores, and
what is behind it. -/
theorem components_of_notMem_take (hne : leaf ≠ [])
    (hslash : slash ∉ leaf.take (vfsNameMax - 1)) :
    components (skipSlashes leaf) = leaf.take (vfsNameMax - 1) ::
      components (skipSlashes (leaf.drop (vfsNameMax - 1))) := by
  obtain ⟨c, rest, rfl⟩ := List.exists_cons_of_ne_nil hne
  have hc : c ≠ slash := by
    rintro rfl
    exact hslash List.mem_cons_self
  have hname : component (c :: rest) = (c :: rest).take (vfsNameMax - 1) := by
    unfold component
    rw [List.takeWhile_eq_self_iff]
    intro d hd
    rw [bne_iff_ne]
    rintro rfl
    exact hslash hd
  rw [skipSlashes_of_head (by simpa using hc), components_cons, advance, hname,
    drop_take_length]

/-- The string is cut into the one name that `ramfs_add_dirent` stores. -/
theorem components_eq_singleton_iff (leaf : List UInt8) :
    components (skipSlashes leaf) = [leaf.take (vfsNameMax - 1)] ↔
      PlainLeaf leaf := by
  constructor
  · intro hone
    cases hrest : skipSlashes leaf with
    | nil =>
        rw [hrest, components_nil] at hone
        cases hone
    | cons c rest =>
        rw [hrest, components_cons, List.cons.injEq, components_eq_nil] at hone
        obtain ⟨hname, hend⟩ := hone
        have hc : c ≠ slash := by
          have hhead := skipSlashes_head leaf
          rw [hrest] at hhead
          simpa using hhead
        have hslash : slash ∉ leaf.take (vfsNameMax - 1) := by
          rw [← hname]
          exact slash_notMem_component _
        have hpos := component_cons_of_ne hc rest
        rw [hname] at hpos
        have hleaf : leaf.head? ≠ some slash := by
          cases leaf with
          | nil => simp
          | cons d tail =>
              intro hd
              obtain rfl := Option.some.inj hd
              exact hslash (List.mem_cons_self)
        rw [skipSlashes_of_head hleaf] at hrest
        rw [advance, hname, ← hrest, drop_take_length, skipSlashes_eq_nil] at hend
        refine ⟨?_, hslash, hend⟩
        rw [hrest]
        simp
  · rintro ⟨hne, hslash, hend⟩
    rw [components_of_notMem_take hne hslash, skipSlashes_eq_nil.mpr hend,
      components_nil]

end Splits

/-- The mount point is at the front of the path, at a component boundary. -/
def Mount.Covers (mount : Mount) (path : List UInt8) : Prop :=
  mount.path.isPrefixOf path = true ∧ (mount.path = [slash] ∨
    path[mount.path.length]? = some slash ∨ path[mount.path.length]? = none)

instance (mount : Mount) (path : List UInt8) : Decidable (mount.Covers path) :=
  inferInstanceAs (Decidable (_ ∧ _))

section Mounts

variable {s : Store} {path path' : List UInt8} {mount : Mount}

/-- The length of the best match so far. -/
def bestLength (best : Option Mount) : Nat :=
  (best.map fun m => m.path.length).getD 0

/-- One round of `find_mount`. -/
def betterMount (path : List UInt8) (best : Option Mount) (mount : Mount) :
    Option Mount :=
  if mount.Covers path ∧ bestLength best < mount.path.length then some mount
  else best

theorem findMount_eq_foldl (s : Store) (path : List UInt8) :
    findMount s path = s.mounts.foldl (betterMount path) none := by
  unfold findMount betterMount Mount.Covers bestLength
  simp only [and_assoc]

theorem findMount_congr
    (hcovers : ∀ mount ∈ s.mounts, mount.Covers path ↔ mount.Covers path') :
    findMount s path = findMount s path' := by
  rw [findMount_eq_foldl, findMount_eq_foldl]
  refine List.foldl_ext _ _ none fun best mount hmem => ?_
  simp only [betterMount, hcovers mount hmem]

/-- The rounds only ever find a longer match, and each match that there is. -/
theorem foldl_betterMount (mounts : List Mount) (best : Option Mount) :
    (mounts.foldl (betterMount path) best = best ∨ ∃ mount ∈ mounts,
      mounts.foldl (betterMount path) best = some mount ∧
        mount.Covers path ∧ 0 < mount.path.length) ∧
    bestLength best ≤ bestLength (mounts.foldl (betterMount path) best) ∧
    ∀ mount ∈ mounts, mount.Covers path → mount.path.length ≤
      bestLength (mounts.foldl (betterMount path) best) := by
  induction mounts generalizing best with
  | nil => exact ⟨.inl rfl, Nat.le_refl _, nofun⟩
  | cons first rest ih =>
      rw [List.foldl_cons]
      obtain ⟨hfound, hlong, hall⟩ := ih (betterMount path best first)
      unfold betterMount at hfound hlong hall ⊢
      split_ifs at hfound hlong hall ⊢ with hbetter
      · refine ⟨?_, hbetter.2.le.trans hlong, ?_⟩
        · rcases hfound with hsame | ⟨mount, hmem, hmount⟩
          · exact .inr ⟨first, List.mem_cons_self, hsame, hbetter.1,
              Nat.zero_lt_of_lt hbetter.2⟩
          · exact .inr ⟨mount, List.mem_cons_of_mem _ hmem, hmount⟩
        · exact List.forall_mem_cons.mpr ⟨fun _ => hlong, hall⟩
      · refine ⟨?_, hlong, ?_⟩
        · rcases hfound with hsame | ⟨mount, hmem, hmount⟩
          · exact .inl hsame
          · exact .inr ⟨mount, List.mem_cons_of_mem _ hmem, hmount⟩
        · refine List.forall_mem_cons.mpr ⟨fun hfirst => ?_, hall⟩
          refine Nat.le_trans (Nat.le_of_not_lt fun hlt => ?_) hlong
          exact hbetter ⟨hfirst, hlt⟩

/-- The longest mount point that covers the path. -/
theorem findMount_best (s : Store) (path : List UInt8) :
    (∀ mount, findMount s path = some mount →
      mount ∈ s.mounts ∧ mount.Covers path ∧ 0 < mount.path.length) ∧
    ∀ mount ∈ s.mounts, mount.Covers path →
      mount.path.length ≤ bestLength (findMount s path) := by
  rw [findMount_eq_foldl]
  obtain ⟨hfound, -, hall⟩ := @foldl_betterMount path s.mounts none
  refine ⟨fun mount hmount => ?_, hall⟩
  rcases hfound with hnone | ⟨best, hmem, hbest, hcovers⟩
  · rw [hnone] at hmount
    cases hmount
  · rw [hmount] at hbest
    obtain rfl := Option.some.inj hbest
    exact ⟨hmem, hcovers⟩

/-- The path is cut at a slash that has no other one behind it among the first
127 bytes. -/
theorem splitPath_eq_some {parent leaf : List UInt8}
    (hsplit : splitPath path = some (parent, leaf)) :
    ∃ front, path = front ++ slash :: leaf ∧
      (∀ j, front.length < j → j < vfsPathMax - 1 → path[j]? ≠ some slash) ∧
      parent = if front = [] then [slash] else front := by
  unfold splitPath at hsplit
  dsimp only at hsplit
  split at hsplit
  · cases hsplit
  rename_i i hfind
  obtain ⟨rfl, rfl⟩ := Prod.mk.inj (Option.some.inj hsplit)
  obtain ⟨hslash, later, earlier, hrange, hlater⟩ :=
    List.find?_eq_some_iff_append.mp hfind
  rw [beq_iff_eq, List.getElem?_take] at hslash
  split_ifs at hslash with hi
  obtain ⟨hlt, hget⟩ := List.getElem?_eq_some_iff.mp hslash
  have hpath : path = path.take i ++ slash :: path.drop (i + 1) := by
    rw [← hget, List.getElem_cons_drop, List.take_append_drop]
  have hlength : (path.take i).length = i := List.length_take_of_le hlt.le
  refine ⟨path.take i, hpath, ?_, ?_⟩
  · intro j hij hj hget'
    rw [hlength] at hij
    have hjlt : j < path.length := (List.getElem?_eq_some_iff.mp hget').1
    have hmem : j ∈ later ++ i :: earlier := by
      rw [← hrange, List.mem_reverse, List.mem_range, List.length_take]
      exact lt_min hj hjlt
    have hsorted : (later ++ i :: earlier).Pairwise (· > ·) := by
      rw [← hrange, List.pairwise_reverse]
      exact List.pairwise_lt_range
    have hj' : j ∈ later := by
      rcases List.mem_append.mp hmem with hin | hin
      · exact hin
      · rcases List.mem_cons.mp hin with rfl | hin
        · exact absurd hij (Nat.lt_irrefl _)
        · have hgt := (List.pairwise_cons.mp
            (List.pairwise_append.mp hsorted).2.1).1 j hin
          exact absurd hij (Nat.lt_asymm hgt)
    have hnot := hlater j hj'
    rw [List.getElem?_take, if_pos hj, hget'] at hnot
    cases hnot
  · rw [List.take_take, Nat.min_eq_left hi.le]
    have hzero : i = 0 ↔ path.take i = [] := by
      rw [← List.length_eq_zero_iff, hlength]
    simp only [hzero]

theorem covers_append_iff {front leaf : List UInt8} (hfront : front ≠ [])
    (hhead : front.head? = some slash)
    (hshort : mount.Covers (front ++ slash :: leaf) →
      mount.path.length ≤ front.length ∨ mount.path = [slash]) :
    mount.Covers (front ++ slash :: leaf) ↔ mount.Covers front := by
  have hroot : [slash].isPrefixOf front = true := by
    cases front with
    | nil => cases hhead
    | cons c front =>
        obtain rfl := Option.some.inj hhead
        simp [List.isPrefixOf]
  constructor
  · intro hcovers
    rcases hshort hcovers with hle | hslash
    · refine ⟨?_, ?_⟩
      · rw [List.isPrefixOf_iff_prefix]
        exact List.prefix_of_prefix_length_le
          (List.isPrefixOf_iff_prefix.mp hcovers.1)
          (List.prefix_append front _) hle
      · rcases Nat.lt_or_eq_of_le hle with hlt | heq
        · have hsame : (front ++ slash :: leaf)[mount.path.length]? =
              front[mount.path.length]? := List.getElem?_append_left hlt
          rw [← hsame]
          exact hcovers.2
        · exact .inr (.inr (List.getElem?_eq_none heq.ge))
    · exact ⟨hslash ▸ hroot, .inl hslash⟩
  · intro hcovers
    have hprefix := List.isPrefixOf_iff_prefix.mp hcovers.1
    refine ⟨?_, ?_⟩
    · rw [List.isPrefixOf_iff_prefix]
      exact hprefix.trans (List.prefix_append front _)
    · rcases hcovers.2 with hslash | hslash | hend
      · exact .inl hslash
      · have hlt := (List.getElem?_eq_some_iff.mp hslash).1
        exact .inr (.inl ((List.getElem?_append_left hlt).trans hslash))
      · have hlength : mount.path.length = front.length :=
          hprefix.length_le.antisymm (List.getElem?_eq_none_iff.mp hend)
        refine .inr (.inl ?_)
        rw [hlength, List.getElem?_append_right (Nat.le_refl _), Nat.sub_self]
        rfl

theorem covers_slash_iff {leaf : List UInt8}
    (hshort : mount.Covers (slash :: leaf) →
      mount.path.length ≤ 0 ∨ mount.path = [slash]) :
    mount.Covers (slash :: leaf) ↔ mount.Covers [slash] := by
  have hnil : mount.path = [] → ∀ rest, mount.Covers (slash :: rest) := by
    intro hpath rest
    rw [Mount.Covers, hpath]
    exact ⟨rfl, .inr (.inl rfl)⟩
  have hroot : mount.path = [slash] → ∀ rest, mount.Covers (slash :: rest) := by
    intro hpath rest
    rw [Mount.Covers, hpath]
    exact ⟨by simp [List.isPrefixOf], .inl rfl⟩
  constructor
  · intro hcovers
    rcases hshort hcovers with hle | hslash
    · exact hnil (List.length_eq_zero_iff.mp (Nat.le_zero.mp hle)) []
    · exact hroot hslash []
  · intro hcovers
    have hprefix := List.isPrefixOf_iff_prefix.mp hcovers.1
    rcases List.prefix_cons_iff.mp hprefix with hpath | ⟨tail, hpath, htail⟩
    · exact hnil hpath leaf
    · rw [List.prefix_nil] at htail
      exact hroot (by rw [hpath, htail]) leaf

/-- A path that is itself mounted leads to a root of the mount table. -/
theorem vfsResolve_of_mounted (hhead : path.head? = some slash)
    (hmem : mount ∈ s.mounts) (hpath : mount.path = path) :
    ∃ best ∈ s.mounts, findMount s path = some best ∧
      componentsBelow best path = [] := by
  have hcovers : mount.Covers path := by
    rw [Mount.Covers, hpath]
    exact ⟨List.isPrefixOf_iff_prefix.mpr (List.prefix_refl path),
      .inr (.inr (List.getElem?_eq_none (Nat.le_refl _)))⟩
  have hbest := (findMount_best s path).2 mount hmem hcovers
  rw [hpath] at hbest
  cases hfind : findMount s path with
  | none =>
      rw [hfind] at hbest
      obtain rfl := List.length_eq_zero_iff.mp (Nat.le_zero.mp hbest)
      cases hhead
  | some best =>
      rw [hfind] at hbest
      change path.length ≤ best.path.length at hbest
      refine ⟨best, ((findMount_best s path).1 best hfind).1, rfl, ?_⟩
      rw [componentsBelow, List.drop_eq_nil_of_le hbest]
      exact components_nil

theorem path_ne_of_unresolved (hhead : path.head? = some slash)
    (hnone : vfsResolve s path = none) :
    ∀ mount ∈ s.mounts, mount.path ≠ path := by
  intro mount hmem hpath
  obtain ⟨best, -, hfind, hbelow⟩ := vfsResolve_of_mounted hhead hmem hpath
  rw [vfsResolve_eq_descend, if_neg (not_not_intro hhead), hfind,
    Option.bind_some, hbelow] at hnone
  cases hnone

/-- A path that is not itself mounted lies behind the same mount point as its
parent, and its components are those of the parent and those of the leaf. -/
theorem findMount_split {parent leaf : List UInt8}
    (hmounts : ∀ mount ∈ s.mounts, mount.path.length < vfsPathMax - 1)
    (hhead : path.head? = some slash)
    (hsplit : splitPath path = some (parent, leaf))
    (hself : ∀ mount ∈ s.mounts, mount.path ≠ path) :
    findMount s path = findMount s parent ∧
      ∀ mount, findMount s path = some mount →
        componentsBelow mount path =
          componentsBelow mount parent ++ components (skipSlashes leaf) := by
  obtain ⟨front, hpath, hlast, hparent⟩ := splitPath_eq_some hsplit
  have hshort : ∀ mount ∈ s.mounts, mount.Covers path →
      mount.path.length ≤ front.length ∨ mount.path = [slash] := by
    intro mount hmem hcovers
    rcases hcovers.2 with hslash | hslash | hend
    · exact .inr hslash
    · refine .inl (Nat.le_of_not_lt fun hlt => ?_)
      exact hlast _ hlt (hmounts mount hmem) hslash
    · have hstart := List.isPrefixOf_iff_prefix.mp hcovers.1
      exact absurd (hstart.eq_of_length_le (List.getElem?_eq_none_iff.mp hend))
        (hself mount hmem)
  by_cases hfront : front = []
  · subst hfront
    rw [if_pos rfl] at hparent
    rw [List.nil_append] at hpath
    subst hparent hpath
    refine ⟨findMount_congr fun mount hmem =>
      covers_slash_iff (hshort mount hmem), fun mount hfind => ?_⟩
    obtain ⟨hmem, hcovers, hpos⟩ := (findMount_best s _).1 mount hfind
    have hroot : mount.path = [slash] :=
      (hshort mount hmem hcovers).resolve_left (Nat.not_le.mpr hpos)
    simp [componentsBelow, hroot, skipSlashes]
  · rw [if_neg hfront] at hparent
    subst hparent hpath
    have hhead' : parent.head? = some slash := by
      cases parent with
      | nil => exact absurd rfl hfront
      | cons c rest => exact hhead
    have hiff : ∀ mount ∈ s.mounts, mount.Covers (parent ++ slash :: leaf) ↔
        mount.Covers parent :=
      fun mount hmem => covers_append_iff hfront hhead' (hshort mount hmem)
    refine ⟨findMount_congr hiff, fun mount hfind => ?_⟩
    obtain ⟨hmem, hcovers, -⟩ := (findMount_best s _).1 mount hfind
    have hle : mount.path.length ≤ parent.length :=
      (List.isPrefixOf_iff_prefix.mp ((hiff mount hmem).mp hcovers).1).length_le
    rw [componentsBelow, List.drop_append_of_le_length hle, components_append]
    rfl

/-- After any change of the tree, the path is resolved by way of its parent. -/
theorem vfsResolve_split {s' : Store} {parent leaf : List UInt8}
    (hmounts : ∀ mount ∈ s.mounts, mount.path.length < vfsPathMax - 1)
    (hhead : path.head? = some slash)
    (hsplit : splitPath path = some (parent, leaf))
    (hself : ∀ mount ∈ s.mounts, mount.path ≠ path)
    (hsame : s'.mounts = s.mounts) :
    vfsResolve s' path = (vfsResolve s' parent).bind fun dir =>
      descend s' dir (components (skipSlashes leaf)) := by
  obtain ⟨hmount, hbelow⟩ := findMount_split hmounts hhead hsplit hself
  have hfind : ∀ p, findMount s' p = findMount s p := by
    intro p
    unfold findMount
    rw [hsame]
  have hparent : parent.head? = some slash := by
    obtain ⟨front, hpath, -, hparent⟩ := splitPath_eq_some hsplit
    rw [hparent]
    split_ifs with hfront
    · rfl
    · rw [hpath] at hhead
      cases front with
      | nil => exact absurd rfl hfront
      | cons c rest => exact hhead
  rw [vfsResolve_eq_descend, vfsResolve_eq_descend, if_neg (not_not_intro hhead),
    if_neg (not_not_intro hparent), hfind, hfind, ← hmount]
  cases hfound : findMount s path with
  | none => rfl
  | some mount =>
      rw [Option.bind_some, Option.bind_some, hbelow mount hfound, descend_append]

end Mounts

end Orion
