/-
What a failing `pipe_create` leaves behind.  The early failures release every
object once.  A failure after the read end has been opened goes through
`vfs_close`, whose close handler frees objects that the clean-up labels free
again.
-/
import Orion.Fd
import Mathlib.Data.Finset.Card
import Mathlib.Data.Finset.Range

namespace Orion

open MachineInt

/-- References not yet handed out are not live. -/
def Store.Unborn (store : Store) : Prop :=
  ∀ ref : Nat, store.next ≤ ref → store.cells ref = none

/-- Is the `i`-th allocation from here on refused? -/
def Store.refusedAt (store : Store) (i : Nat) : Prop :=
  store.refuses (store.requests + i) = true

instance (store : Store) (i : Nat) : Decidable (store.refusedAt i) :=
  inferInstanceAs (Decidable (_ = true))

/-- The number of descriptors the table has left. -/
def freeSlots (table : FdTable) : Nat :=
  ((Finset.range fdMax).filter fun fd => table fd = none).card

/-- The live objects are those of `before`, and the objects allocated since
have been freed once each; nothing else has been freed. -/
structure Clean (before after : Store) : Prop where
  live : after.cells = before.cells
  released : ∃ log, after.freed = log ++ before.freed ∧
    log.Perm (List.range' before.next (after.next - before.next))

/-- If the call fails, nothing of it remains. -/
def Atomic (store : Store) (table : FdTable) (result : PipeCreated) : Prop :=
  result.fds = none → result.table = table ∧ Clean store result.store

theorem atomic_failed_iff {store store' : Store} {table table' : FdTable}
    {woken : List Nat} :
    Atomic store table ⟨none, woken, store', table'⟩ ↔
      table' = table ∧ Clean store store' := by
  simp only [Atomic, forall_const]

theorem atomic_done {store store' : Store} {table table' : FdTable}
    {woken : List Nat} (fds : Nat × Nat) :
    Atomic store table ⟨some fds, woken, store', table'⟩ :=
  fun hfds => absurd hfds (Option.some_ne_none fds)

/-- `after` has allocated `objects` objects in `calls` requests since
`before`, and has freed none. -/
structure Grown (before after : Store) (objects calls : Nat) : Prop where
  next : after.next = before.next + objects
  requests : after.requests = before.requests + calls
  refuses : after.refuses = before.refuses
  freed : after.freed = before.freed
  cells : ∀ ref : Nat, ref < before.next → after.cells ref = before.cells ref
  unborn : after.Unborn

section Growing

variable {before after : Store} {objects calls : Nat}

theorem Grown.refl (hunborn : before.Unborn) : Grown before before 0 0 :=
  ⟨rfl, rfl, rfl, rfl, fun _ _ => rfl, hunborn⟩

theorem kmalloc_refused {s : Store} {kind : ObjKind}
    (hrefused : s.refuses s.requests = true) :
    s.kmalloc kind = (none, s.refuse) := by
  rw [Store.kmalloc, if_pos hrefused]

theorem kmalloc_granted {s : Store} {kind : ObjKind}
    (hgranted : ¬ s.refuses s.requests = true) :
    s.kmalloc kind = (some s.next, s.grant kind) := by
  rw [Store.kmalloc, if_neg hgranted]

theorem Grown.refuse (hgrown : Grown before after objects calls) :
    Grown before after.refuse objects (calls + 1) :=
  ⟨hgrown.next, congrArg (· + 1) hgrown.requests, hgrown.refuses, hgrown.freed,
    hgrown.cells, hgrown.unborn⟩

theorem Grown.grant (hgrown : Grown before after objects calls)
    (kind : ObjKind) :
    Grown before (after.grant kind) (objects + 1) (calls + 1) := by
  refine ⟨congrArg (· + 1) hgrown.next, congrArg (· + 1) hgrown.requests,
    hgrown.refuses, hgrown.freed, fun ref href => ?_, fun ref href => ?_⟩
  · have hne : ref ≠ after.next := by
      rw [hgrown.next]
      omega
    exact (Function.update_of_ne hne _ _).trans (hgrown.cells ref href)
  · have hne : ref ≠ after.next := by
      rintro rfl
      exact Nat.not_succ_le_self _ href
    exact (Function.update_of_ne hne _ _).trans
      (hgrown.unborn ref (Nat.le_of_succ_le href))

theorem Grown.refused_iff (hgrown : Grown before after objects calls) :
    after.refuses after.requests = true ↔ before.refusedAt calls := by
  rw [hgrown.refuses, hgrown.requests, Store.refusedAt]

/-- Writing to objects allocates and frees nothing. -/
theorem Grown.of_eq {after' : Store}
    (hgrown : Grown before after objects calls)
    (hnext : after'.next = after.next)
    (hrequests : after'.requests = after.requests)
    (hrefuses : after'.refuses = after.refuses)
    (hfreed : after'.freed = after.freed)
    (hcells : after'.cells = after.cells) :
    Grown before after' objects calls := by
  refine ⟨hnext.trans hgrown.next, hrequests.trans hgrown.requests,
    hrefuses.trans hgrown.refuses, hfreed.trans hgrown.freed, ?_, ?_⟩
  · intro ref href
    rw [hcells, hgrown.cells ref href]
  · intro ref href
    rw [hcells]
    exact hgrown.unborn ref (hnext ▸ href)

/-- Opening the vnode of a pipe end. -/
theorem Grown.vfsOpenVnode (hgrown : Grown before after objects calls)
    {v : Ref} (flags : UInt32) (hops : (after.vnodes v).ops ≠ .ramfs) :
    (before.refusedAt calls ∧ ∃ after',
      vfsOpenVnode after (some v) flags = (none, after') ∧
        Grown before after' objects (calls + 1) ∧
        after'.files = after.files ∧ after'.vnodes = after.vnodes) ∨
    (¬ before.refusedAt calls ∧ ∃ after',
      vfsOpenVnode after (some v) flags =
        (some (before.next + objects), after') ∧
        Grown before after' (objects + 1) (calls + 1) ∧
        (∃ offset, after'.files = Function.update after.files
          (before.next + objects) ⟨v, offset, flags, 1⟩) ∧
        ∃ count, after'.vnodes = Function.update after.vnodes v
          { after.vnodes v with refcount := count }) := by
  have hstays : (if (after.vnodes v).ops = .ramfs then ramfsOpen after v flags
      else after) = after := if_neg hops
  by_cases hrefused : before.refusedAt calls
  · refine .inl ⟨hrefused, after.refuse, ?_, hgrown.refuse, rfl, rfl⟩
    simp only [Orion.vfsOpenVnode, hstays,
      kmalloc_refused (hgrown.refused_iff.mpr hrefused)]
  · refine .inr ⟨hrefused, vnodeRef ((after.grant .file).setFile
      (before.next + objects) ⟨v, if flags &&& oAppend ≠ 0
        then (after.vnodes v).size else 0, flags, 1⟩) v, ?_,
      (hgrown.grant .file).of_eq rfl rfl rfl rfl rfl, ⟨_, rfl⟩,
      u32 ((after.vnodes v).refcount + 1), rfl⟩
    simp only [Orion.vfsOpenVnode, hstays,
      kmalloc_granted (mt hgrown.refused_iff.mp hrefused), hgrown.next]
    rfl

/-- Free the objects of a list one after the other. -/
def Store.freeList (store : Store) (refs : List Ref) : Store :=
  refs.foldl Store.kfree store

theorem freeList_freed (store : Store) (refs : List Ref) :
    (store.freeList refs).freed = refs.reverse ++ store.freed := by
  induction refs generalizing store with
  | nil => rfl
  | cons ref rest ih =>
      simp only [Store.freeList, List.foldl_cons] at ih ⊢
      rw [ih]
      simp [Store.kfree]

theorem freeList_next (store : Store) (refs : List Ref) :
    (store.freeList refs).next = store.next := by
  induction refs generalizing store with
  | nil => rfl
  | cons ref rest ih => exact ih (store.kfree ref)

theorem freeList_cells (store : Store) (refs : List Ref) (ref : Ref) :
    (store.freeList refs).cells ref =
      if ref ∈ refs then none else store.cells ref := by
  induction refs generalizing store with
  | nil => simp [Store.freeList]
  | cons head rest ih =>
      simp only [Store.freeList, List.foldl_cons] at ih ⊢
      rw [ih]
      by_cases hhead : ref = head <;> simp [Store.kfree, hhead]

/-- Freeing each new object once restores the heap. -/
theorem Grown.freeList (hgrown : Grown before after objects calls)
    (hunborn : before.Unborn) {refs : List Ref}
    (hrefs : refs.Perm (List.range' before.next objects)) :
    Clean before (after.freeList refs) := by
  have hmem : ∀ ref : Nat, ref ∈ refs ↔
      before.next ≤ ref ∧ ref < before.next + objects := fun ref => by
    rw [hrefs.mem_iff, List.mem_range'_1]
  constructor
  · funext ref
    rw [freeList_cells]
    by_cases hnew : ref ∈ refs
    · rw [if_pos hnew, hunborn ref ((hmem ref).mp hnew).1]
    · rw [if_neg hnew]
      rcases Nat.lt_or_ge ref before.next with hold | hge
      · exact hgrown.cells ref hold
      · have hout : after.next ≤ ref := by
          rw [hgrown.next]
          by_contra hlt
          exact hnew ((hmem ref).mpr ⟨hge, Nat.lt_of_not_le hlt⟩)
        rw [hgrown.unborn ref hout, hunborn ref hge]
  · refine ⟨refs.reverse, ?_, ?_⟩
    · rw [freeList_freed, hgrown.freed]
    · rw [freeList_next, hgrown.next, Nat.add_sub_cancel_left]
      exact refs.reverse_perm.trans hrefs

end Growing

section DoubleFree

/-- A heap in which one object has been freed twice is not clean. -/
theorem not_clean_of_count {before after : Store} {log : List Ref} {ref : Ref}
    (hfreed : after.freed = log ++ before.freed)
    (htwice : 2 ≤ log.count ref) : ¬ Clean before after := by
  rintro ⟨-, log', hfreed', hperm⟩
  have hlog : log = log' :=
    List.append_cancel_right (hfreed.symm.trans hfreed')
  have honce := List.nodup_iff_count.mp
    (hperm.nodup_iff.mpr List.nodup_range') ref
  rw [hlog] at htwice
  omega

/-- The frees of a store since another one. -/
def FreedSince (before after : Store) (log : List Ref) : Prop :=
  after.freed = log ++ before.freed

theorem pipeMaybeFree_freed (store : Store) (p : Ref) :
    ∃ log, FreedSince store (pipeMaybeFree store p) log := by
  unfold pipeMaybeFree
  split_ifs
  · exact ⟨[p], rfl⟩
  · exact ⟨[], rfl⟩

/-- Closing a pipe end frees its vnode. -/
theorem pipeClose_freed {store : Store} {v e : Ref}
    (closeEnd : Pipe → List Nat × Pipe)
    (hdata : (store.vnodes v).data = some e) :
    ∃ log, FreedSince store (pipeClose store v closeEnd).2 log ∧ v ∈ log := by
  simp only [pipeClose, hdata]
  obtain ⟨log, hlog⟩ := pipeMaybeFree_freed
    (((store.setPipe (store.ends e).pipe
      (closeEnd (store.pipes (store.ends e).pipe)).2).kfree e).setVnode v
        { store.vnodes v with data := none }) (store.ends e).pipe
  refine ⟨v :: log ++ [e], ?_, List.mem_cons_self⟩
  rw [FreedSince, Store.kfree, hlog]
  simp [Store.setVnode, Store.kfree, Store.setPipe]

theorem closeHandler_freed (store : Store) (v : Ref) :
    ∃ log, FreedSince store (closeHandler store v).2 log := by
  have hpipe : ∀ closeEnd, ∃ log,
      FreedSince store (pipeClose store v closeEnd).2 log := by
    intro closeEnd
    cases hdata : (store.vnodes v).data with
    | none =>
        refine ⟨[], ?_⟩
        simp only [pipeClose, hdata]
        rfl
    | some e =>
        obtain ⟨log, hlog, -⟩ := pipeClose_freed closeEnd hdata
        exact ⟨log, hlog⟩
  unfold closeHandler
  split
  · exact hpipe pipeCloseReadEnd
  · exact hpipe pipeCloseWriteEnd
  · exact ⟨[], rfl⟩

theorem vfsRelease_freed (store : Store) (f : Ref) :
    ∃ log, FreedSince store (vfsRelease store f).2 log := by
  obtain ⟨log, hlog⟩ := closeHandler_freed store (store.files f).vnode
  exact ⟨f :: log, congrArg (f :: ·) hlog⟩

/-- Releasing an open file on the read end of a pipe frees the vnode. -/
theorem vfsRelease_readEnd_freed {store : Store} {f v e : Ref}
    (hvnode : (store.files f).vnode = v)
    (hops : (store.vnodes v).ops = .pipeRead)
    (hdata : (store.vnodes v).data = some e) :
    ∃ log, FreedSince store (vfsRelease store f).2 log ∧ v ∈ log := by
  obtain ⟨log, hlog, hmem⟩ := pipeClose_freed pipeCloseReadEnd hdata
  refine ⟨f :: log, ?_, List.mem_cons_of_mem f hmem⟩
  have hhandler : closeHandler store v = pipeCloseRead store v := by
    simp only [closeHandler, hops]
  simp only [vfsRelease, hvnode, hhandler]
  exact congrArg (f :: ·) hlog

theorem vfsClose_freed (store : Store) (f : Ref) :
    ∃ log, FreedSince store (vfsClose store f).2 log := by
  simp only [vfsClose]
  split_ifs
  · exact ⟨[], rfl⟩
  · exact vfsRelease_freed _ f

theorem vfsClose_readEnd_freed {store : Store} {f v e : Ref}
    (hvnode : (store.files f).vnode = v) (hcount : (store.files f).refcount = 1)
    (hops : (store.vnodes v).ops = .pipeRead)
    (hdata : (store.vnodes v).data = some e) :
    ∃ log, FreedSince store (vfsClose store f).2 log ∧ v ∈ log := by
  have hlast : ¬ 0 < sub32 (store.files f).refcount 1 := by
    rw [hcount]
    decide
  simp only [vfsClose, if_neg hlast]
  apply @vfsRelease_readEnd_freed (store.setFile f _) f v e _ hops hdata
  simp only [Store.setFile, Function.update_self, hvnode]

theorem FreedSince.trans {first second third : Store} {log log' : List Ref}
    (hlog : FreedSince first second log)
    (hlog' : FreedSince second third log') :
    FreedSince first third (log' ++ log) := by
  rw [FreedSince, hlog', hlog, List.append_assoc]

/-- The labels free the vnode of the read end, whoever has freed it before. -/
theorem errFreeWv_not_clean {before store : Store} {log : List Ref}
    (pipe rend rv wend wv : Ref) (hlog : FreedSince before store log)
    (hmem : rv ∈ log) :
    ¬ Clean before (errFreeWv store pipe rend rv wend wv) := by
  have hfreed : (errFreeWv store pipe rend rv wend wv).freed =
      ([pipe, rend, rv, wend, wv] ++ log) ++ before.freed := by
    rw [FreedSince] at hlog
    simp [errFreeWv, errFreeWend, errFreeRv, errFreeRend, errFreePipe,
      Store.kfree, hlog]
  apply @not_clean_of_count _ _ _ rv hfreed
  have honce : 1 ≤ log.count rv := List.one_le_count_iff.mpr hmem
  have hlabels : 1 ≤ [pipe, rend, rv, wend, wv].count rv :=
    List.one_le_count_iff.mpr (by simp)
  rw [List.count_append]
  omega

end DoubleFree

section Installing

theorem fdInstall_eq_none {table : FdTable} {f : Ref}
    (hnone : fdInstall table f = none) : freeSlots table = 0 := by
  rw [fdInstall, Option.map_eq_none_iff, List.find?_eq_none] at hnone
  rw [freeSlots, Finset.card_eq_zero, Finset.filter_eq_empty_iff]
  intro fd hfd hfree
  apply hnone fd (List.mem_range.mpr (Finset.mem_range.mp hfd))
  rw [hfree]
  rfl

theorem fdInstall_eq_some {table table' : FdTable} {f : Ref} {fd : Nat}
    (hsome : fdInstall table f = some (fd, table')) :
    fd < fdMax ∧ table fd = none ∧
      table' = Function.update table fd (some f) := by
  obtain ⟨slot, hfind, heq⟩ := Option.map_eq_some_iff.mp hsome
  obtain ⟨rfl, rfl⟩ := Prod.mk.injEq .. ▸ heq
  refine ⟨List.mem_range.mp (List.mem_of_find?_eq_some hfind), ?_, rfl⟩
  have hfree : (table slot).isNone = true := by
    simpa using List.find?_some hfind
  exact Option.isNone_iff_eq_none.mp hfree

/-- An installed file takes one slot. -/
theorem freeSlots_install {table : FdTable} {fd : Nat} (hfd : fd < fdMax)
    (hfree : table fd = none) (f : Ref) :
    freeSlots (Function.update table fd (some f)) + 1 = freeSlots table := by
  have herase : ((Finset.range fdMax).filter fun slot =>
      Function.update table fd (some f) slot = none) =
      ((Finset.range fdMax).filter fun slot => table slot = none).erase fd := by
    ext slot
    by_cases hslot : slot = fd
    · simp [hslot]
    · simp [hslot]
  have hmem : fd ∈ (Finset.range fdMax).filter fun slot => table slot = none :=
    Finset.mem_filter.mpr ⟨Finset.mem_range.mpr hfd, hfree⟩
  rw [freeSlots, herase, Finset.card_erase_add_one hmem, freeSlots]

end Installing

section Stages

variable {before store : Store} {table : FdTable}

/-- The read end is open: the sixth object is the only file on the vnode. -/
structure ReadOpen (before store : Store) : Prop where
  vnode : (store.files (before.next + 5)).vnode = before.next + 2
  refcount : (store.files (before.next + 5)).refcount = 1
  ops : (store.vnodes (before.next + 2)).ops = .pipeRead
  data : (store.vnodes (before.next + 2)).data = some (before.next + 1)

theorem ReadOpen.close (hopen : ReadOpen before store)
    (hlog : FreedSince before store []) :
    ∃ log, FreedSince before (vfsClose store (before.next + 5)).2 log ∧
      before.next + 2 ∈ log := by
  obtain ⟨log, hclose, hmem⟩ := vfsClose_readEnd_freed hopen.vnode
    hopen.refcount hopen.ops hopen.data
  exact ⟨log ++ [], hlog.trans hclose, List.mem_append_left [] hmem⟩

/-- Installing the two files is atomic if both find a slot. -/
theorem pipeInstall_atomic_iff (hopen : ReadOpen before store)
    (hlog : FreedSince before store []) (pipe rend wend wv wf : Ref) :
    Atomic before table (pipeInstall store table pipe rend (before.next + 2)
      wend wv (before.next + 5) wf) ↔ 2 ≤ freeSlots table := by
  obtain ⟨log, hread, hmem⟩ := hopen.close hlog
  obtain ⟨log', hwrite⟩ := vfsClose_freed
    (vfsClose store (before.next + 5)).2 wf
  have hdirty : ¬ Clean before (errFreeWv
      (vfsClose (vfsClose store (before.next + 5)).2 wf).2 pipe rend
      (before.next + 2) wend wv) :=
    errFreeWv_not_clean pipe rend _ wend wv (hread.trans hwrite)
      (List.mem_append_right log' hmem)
  cases hfirst : fdInstall table (before.next + 5) with
  | none =>
      have hslots := fdInstall_eq_none hfirst
      simp only [pipeInstall, hfirst, atomic_failed_iff, hdirty, and_false,
        false_iff]
      omega
  | some first =>
      obtain ⟨rfd, table'⟩ := first
      obtain ⟨hrfd, hfree, rfl⟩ := fdInstall_eq_some hfirst
      have hslots := freeSlots_install hrfd hfree (before.next + 5)
      cases hsecond : fdInstall (Function.update table rfd
          (some (before.next + 5))) wf with
      | none =>
          have hnone := fdInstall_eq_none hsecond
          -- closing the descriptor just installed is closing the file
          have hclose : (fdClose store (Function.update table rfd
              (some (before.next + 5))) rfd).2.1 =
              (vfsClose store (before.next + 5)).2 := by
            rw [fdClose, if_neg (Nat.not_le.mpr hrfd)]
            simp only [Function.update_self]
          simp only [pipeInstall, hfirst, hsecond, atomic_failed_iff, hclose,
            hdirty, and_false, false_iff]
          omega
      | some second =>
          obtain ⟨wfd, table''⟩ := second
          obtain ⟨hwfd, hfree', -⟩ := fdInstall_eq_some hsecond
          have hslots' := freeSlots_install hwfd hfree' wf
          simp only [pipeInstall, hfirst, hsecond, atomic_done, true_iff]
          omega

/-- Once the read end is open, a refused second file leaves objects freed
twice. -/
theorem pipeOpenWrite_atomic_iff (hgrown : Grown before store 6 6)
    (hopen : ReadOpen before store)
    (hwrite : (store.vnodes (before.next + 4)).ops = .pipeWrite)
    (pipe rend wend : Ref) :
    Atomic before table (pipeOpenWrite store table pipe rend (before.next + 2)
      wend (before.next + 4) (before.next + 5)) ↔
      ¬ before.refusedAt 6 ∧ 2 ≤ freeSlots table := by
  have hops : (store.vnodes (before.next + 4)).ops ≠ .ramfs := by
    rw [hwrite]
    decide
  rcases hgrown.vfsOpenVnode oWronly hops with
    ⟨hrefused, store', heq, hgrown', hfiles, hvnodes⟩ |
    ⟨hrefused, store', heq, hgrown', ⟨offset, hfiles⟩, count, hvnodes⟩
  · have hopen' : ReadOpen before store' := by
      constructor
      · rw [hfiles, hopen.vnode]
      · rw [hfiles, hopen.refcount]
      · rw [hvnodes, hopen.ops]
      · rw [hvnodes, hopen.data]
    obtain ⟨log, hread, hmem⟩ := hopen'.close hgrown'.freed
    have hdirty := errFreeWv_not_clean pipe rend (before.next + 2) wend
      (before.next + 4) hread hmem
    simp only [pipeOpenWrite, heq, hrefused, not_true, false_and,
      atomic_failed_iff, hdirty, and_false]
  · have hfile : before.next + 5 ≠ before.next + 6 := by omega
    have hvnode : before.next + 2 ≠ before.next + 4 := by omega
    have hopen' : ReadOpen before store' := by
      constructor
      · rw [hfiles, Function.update_of_ne hfile, hopen.vnode]
      · rw [hfiles, Function.update_of_ne hfile, hopen.refcount]
      · rw [hvnodes, Function.update_of_ne hvnode, hopen.ops]
      · rw [hvnodes, Function.update_of_ne hvnode, hopen.data]
    simp only [pipeOpenWrite, heq, hrefused, not_false_iff, true_and]
    exact pipeInstall_atomic_iff hopen' hgrown'.freed pipe rend wend _ _

/-- The labels free the objects allocated so far in reverse order. -/
theorem Grown.atomic {objects calls : Nat}
    (hgrown : Grown before store objects calls) (hunborn : before.Unborn) :
    Atomic before table ⟨none, [],
      store.freeList (List.range' before.next objects).reverse, table⟩ :=
  atomic_failed_iff.mpr
    ⟨rfl, hgrown.freeList hunborn (List.reverse_perm _)⟩

theorem pipeOpenRead_atomic_iff (hunborn : before.Unborn)
    (hgrown : Grown before store 5 5)
    (hread : store.vnodes (before.next + 2) =
      ⟨.pipe, 0, 0, .pipeRead, some (before.next + 1)⟩)
    (hwrite : (store.vnodes (before.next + 4)).ops = .pipeWrite) :
    Atomic before table (pipeOpenRead store table before.next
      (before.next + 1) (before.next + 2) (before.next + 3)
      (before.next + 4)) ↔
      before.refusedAt 5 ∨ (¬ before.refusedAt 6 ∧ 2 ≤ freeSlots table) := by
  have hops : (store.vnodes (before.next + 2)).ops ≠ .ramfs := by simp [hread]
  rcases hgrown.vfsOpenVnode oRdonly hops with
    ⟨hrefused, store', heq, hgrown', -⟩ |
    ⟨hrefused, store', heq, hgrown', ⟨offset, hfiles⟩, count, hvnodes⟩
  · simp only [pipeOpenRead, heq, hrefused, true_or, iff_true]
    exact hgrown'.atomic hunborn
  · have hopen : ReadOpen before store' := by
      constructor
      · rw [hfiles, Function.update_self]
      · rw [hfiles, Function.update_self]
      · rw [hvnodes, Function.update_self, hread]
      · rw [hvnodes, Function.update_self, hread]
    have hne : before.next + 4 ≠ before.next + 2 := by omega
    have hwrite' : (store'.vnodes (before.next + 4)).ops = .pipeWrite := by
      rw [hvnodes, Function.update_of_ne hne, hwrite]
    simp only [pipeOpenRead, heq, hrefused, false_or]
    exact pipeOpenWrite_atomic_iff hgrown' hopen hwrite' _ _ _

/-- The objects of a pipe, in the order in which they are made. -/
def pipeScript (p : Ref) : List (Store → Store) :=
  [fun s => (s.grant .pipe).setPipe p Pipe.fresh,
    fun s => (s.grant .pipeEnd).setEnd (p + 1) ⟨p, false⟩,
    fun s => (s.grant .vnode).setVnode (p + 2)
      ⟨.pipe, 0, 0, .pipeRead, some (p + 1)⟩,
    fun s => (s.grant .pipeEnd).setEnd (p + 3) ⟨p, true⟩,
    fun s => (s.grant .vnode).setVnode (p + 4)
      ⟨.pipe, 0, 0, .pipeWrite, some (p + 3)⟩]

/-- The heap with the first `n` of them. -/
def pipeStage (s : Store) (n : Nat) : Store :=
  ((pipeScript s.next).take n).foldl (fun s make => make s) s

/-- `pipe_create` is refused one of its first five objects, and frees those it
has, or gets to the opening of the read end. -/
theorem pipeCreate_cases (s : Store) (table : FdTable) :
    (∃ n < 5, s.refusedAt n ∧ pipeCreate s table = ⟨none, [],
      (pipeStage s n).refuse.freeList (List.range' s.next n).reverse, table⟩) ∨
    ((∀ i < 5, ¬ s.refusedAt i) ∧ pipeCreate s table =
      pipeOpenRead (pipeStage s 5) table s.next (s.next + 1) (s.next + 2)
        (s.next + 3) (s.next + 4)) := by
  unfold pipeCreate
  by_cases h0 : s.refusedAt 0
  · rw [kmalloc_refused h0]
    exact .inl ⟨0, by decide, h0, rfl⟩
  rw [kmalloc_granted h0]
  dsimp only
  by_cases h1 : s.refusedAt 1
  · rw [kmalloc_refused]
    exacts [.inl ⟨1, by decide, h1, rfl⟩, h1]
  rw [kmalloc_granted (by exact h1)]
  dsimp only
  by_cases h2 : s.refusedAt 2
  · rw [vnodeAlloc, kmalloc_refused]
    exacts [.inl ⟨2, by decide, h2, rfl⟩, h2]
  rw [vnodeAlloc, kmalloc_granted (by exact h2)]
  dsimp only
  by_cases h3 : s.refusedAt 3
  · rw [kmalloc_refused]
    exacts [.inl ⟨3, by decide, h3, rfl⟩, h3]
  rw [kmalloc_granted (by exact h3)]
  dsimp only
  by_cases h4 : s.refusedAt 4
  · rw [vnodeAlloc, kmalloc_refused]
    exacts [.inl ⟨4, by decide, h4, rfl⟩, h4]
  rw [vnodeAlloc, kmalloc_granted (by exact h4)]
  refine .inr ⟨fun i hi => ?_, rfl⟩
  have hcases : i = 0 ∨ i = 1 ∨ i = 2 ∨ i = 3 ∨ i = 4 := by omega
  rcases hcases with rfl | rfl | rfl | rfl | rfl <;> assumption

theorem pipeStage_grown (hunborn : store.Unborn) {n : Nat} (hn : n ≤ 5) :
    Grown store (pipeStage store n) n n := by
  induction n with
  | zero => exact Grown.refl hunborn
  | succ n ih =>
      have hgrown := ih (Nat.le_of_succ_le hn)
      have hcases : n = 0 ∨ n = 1 ∨ n = 2 ∨ n = 3 ∨ n = 4 := by omega
      rcases hcases with rfl | rfl | rfl | rfl | rfl
      all_goals exact (hgrown.grant _).of_eq rfl rfl rfl rfl rfl

/-- A call of `pipe_create` is atomic if it fails before the read end is open,
and otherwise only if it does not fail. -/
theorem pipeCreate_atomic_iff (store : Store) (table : FdTable)
    (hunborn : store.Unborn) :
    Atomic store table (pipeCreate store table) ↔
      (∃ i < 6, store.refusedAt i) ∨
        (¬ store.refusedAt 6 ∧ 2 ≤ freeSlots table) := by
  rcases pipeCreate_cases store table with
    ⟨n, hn, hrefused, heq⟩ | ⟨hgranted, heq⟩
  · rw [heq]
    have hgrown := pipeStage_grown hunborn (Nat.le_of_lt hn)
    exact iff_of_true (hgrown.refuse.atomic hunborn)
      (.inl ⟨n, Nat.lt_succ_of_lt hn, hrefused⟩)
  have hread : (pipeStage store 5).vnodes (store.next + 2) =
      ⟨.pipe, 0, 0, .pipeRead, some (store.next + 1)⟩ := by
    simp [pipeStage, pipeScript, Store.setVnode, Store.setEnd, Store.grant]
  have hwrite : ((pipeStage store 5).vnodes (store.next + 4)).ops =
      .pipeWrite := by
    simp [pipeStage, pipeScript, Store.setVnode]
  rw [heq, pipeOpenRead_atomic_iff hunborn
    (pipeStage_grown hunborn (Nat.le_refl 5)) hread hwrite]
  -- of the first six requests only the last one can have been refused
  refine or_congr ⟨fun hrefused => ⟨5, by decide, hrefused⟩, ?_⟩ .rfl
  rintro ⟨i, hi, hrefused⟩
  rcases Nat.lt_succ_iff_lt_or_eq.mp hi with hlt | rfl
  · exact absurd hrefused (hgranted i hlt)
  · exact hrefused

end Stages

namespace PipeCreateWitness

/-- A heap that has no objects yet and refuses nothing. -/
def store : Store where
  next := 1
  cells := fun _ => none
  freed := []
  requests := 0
  refuses := fun _ => false
  files := fun _ => default
  vnodes := fun _ => default
  ends := fun _ => default
  pipes := fun _ => Pipe.fresh
  inodes := fun _ => default
  bytes := fun _ _ => 0
  mounts := []
  ramfsRoot := none
  stdinVnode := none
  stdoutVnode := none
  stderrVnode := none

/-- A table in which the slots from `free` on are empty. -/
def tableWith (free : Nat) : FdTable :=
  fun fd => if fd < free then some 0 else none

theorem two_slots_atomic :
    store.Unborn ∧ Atomic store (tableWith 14)
      (pipeCreate store (tableWith 14)) :=
  ⟨fun _ _ => rfl,
    (pipeCreate_atomic_iff store (tableWith 14) fun _ _ => rfl).mpr
      (.inr (by decide))⟩

/-- With one free slot the call fails and five objects are freed twice. -/
theorem one_slot_frees_twice :
    (pipeCreate store (tableWith 15)).fds = none ∧
      (pipeCreate store (tableWith 15)).store.freed =
        [1, 2, 3, 4, 5, 7, 5, 1, 4, 6, 3, 2] ∧
      ¬ Atomic store (tableWith 15) (pipeCreate store (tableWith 15)) := by
  have hfreed : (pipeCreate store (tableWith 15)).store.freed =
      [1, 2, 3, 4, 5, 7, 5, 1, 4, 6, 3, 2] ++ store.freed := by decide
  refine ⟨by decide, hfreed, fun hatomic => ?_⟩
  exact @not_clean_of_count _ _ _ 3 hfreed (by decide)
    (hatomic (by decide)).2

end PipeCreateWitness

end Orion
