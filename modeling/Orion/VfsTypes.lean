/-
The file-system functions that neither open nor close a file are quiet, and
the vnodes they find or make are no files.
-/
import Orion.Transfers

namespace Orion

open MachineInt

variable {s : Store}

/-- A quiet call that returns a pointer to something other than a file. -/
structure QuietRef (s : Store) (result : Option Ref × Store) : Prop where
  quiet : Quiet s result.2
  ref : ∀ r ∈ result.1, NotFile result.2 r

theorem QuietRef.none {s' : Store} (hquiet : Quiet s s') :
    QuietRef s (none, s') :=
  ⟨hquiet, fun _ hr => by cases hr⟩

theorem kmalloc_quiet (htyped : Typed s) {kind : ObjKind}
    (hfile : kind ≠ .file) (hvnode : kind ≠ .vnode) (hpipe : kind ≠ .pipe) :
    QuietRef s (s.kmalloc kind) := by
  unfold Store.kmalloc
  split_ifs
  · exact QuietRef.none (refuse_quiet htyped)
  · refine ⟨grant_quiet htyped hfile hvnode hpipe, ?_⟩
    rintro r ⟨⟩
    refine ⟨Nat.lt_succ_self _, ?_⟩
    simp [Store.grant, hfile]

/-- A new vnode has no files. -/
theorem newVnode_quiet (htyped : Typed s) (type : VnodeType) {ops : VfsOps}
    {data : Option Ref} (hends : ops.IsPipe → ∀ e ∈ data,
      NotFile s e ∧ NotFile s (s.ends e).pipe) :
    Quiet s ((s.grant .vnode).setVnode s.next ⟨type, 0, 0, ops, data⟩) := by
  have hnext : s.cells s.next = none := htyped.unborn _ (Nat.le_refl _)
  have hharmless : Harmless s ((s.grant .vnode).setVnode s.next
      ⟨type, 0, 0, ops, data⟩) := by
    constructor
    · exact Nat.le_succ _
    · intro ref
      by_cases href : ref = s.next
      · subst href
        simp [Store.setVnode, Store.grant, hnext]
      · simp [Store.setVnode, Store.grant, href]
    · exact fun _ _ => ⟨rfl, rfl⟩
    · intro v halive
      by_cases hv : v = s.next
      · subst hv
        exact .inr ⟨Nat.le_refl _, by simp [Store.setVnode]⟩
      · refine .inl ⟨?_, ?_⟩
        · exact (Function.update_of_ne hv _ _).symm.trans halive
        · simp [Store.setVnode, Store.grant, hv]
  have hpipes : SamePipes s ((s.grant .vnode).setVnode s.next
      ⟨type, 0, 0, ops, data⟩) := by
    refine ⟨(grant_pipes (by decide)).pipes, ?_, fun _ _ => rfl⟩
    intro v hv
    simp [Store.setVnode, Store.grant, Nat.ne_of_lt hv]
  refine ⟨⟨htyped.of_harmless hharmless (htyped.unborn.grant .vnode) ?_
    (htyped.inodes_of_harmless hharmless) rfl rfl rfl rfl, hharmless⟩, hpipes⟩
  intro v e hpipe hdata
  by_cases hv : v = s.next
  · subst hv
    simp only [Store.setVnode, Function.update_self] at hpipe hdata
    obtain ⟨hend, hring⟩ := hends hpipe e hdata
    exact ⟨hharmless.notFile hend, hharmless.notFile hring⟩
  · simp only [Store.setVnode, Function.update_of_ne hv] at hpipe hdata
    exact htyped.ends_of_harmless hharmless hpipe hdata

theorem newInode_quiet (htyped : Typed s) : Quiet s s.newInode := by
  have hgrant := @grant_quiet s htyped .inode (by decide) (by decide)
    (by decide)
  exact hgrant.trans (setInode_quiet hgrant.typed (fun _ h => by cases h)
    fun _ h => by cases h)

theorem ramfsOpen_quiet (htyped : Typed s) (v : Ref) (flags : UInt32) :
    Quiet s (ramfsOpen s v flags) := by
  unfold ramfsOpen
  dsimp only
  split_ifs
  · have hvnode := @setVnode_quiet s htyped v
      { s.vnodes v with size := 0 } rfl rfl rfl
    have hbuf := @kfreeOption_quiet _ hvnode.typed
      (s.inodes (inodeOf s v)).buf
      (fun b hb => hvnode.harmless.notFile (htyped.bufs _ b hb))
    have hquiet := hvnode.trans hbuf
    refine hquiet.trans (setInode_quiet hquiet.typed (by simp) ?_)
    intro entry hmem
    exact hquiet.harmless.notFile (htyped.children _ entry hmem)
  · exact Quiet.refl htyped

theorem Typed.linked (htyped : Typed s) {v : Nat} (hlinked : Linked s v) :
    NotFile s v := by
  rcases hlinked with ⟨mount, hmem, rfl⟩ | ⟨ino, entry, hmem, rfl⟩
  · exact htyped.mounts mount hmem
  · exact htyped.children ino entry hmem

/-- A vnode that has been made and its inode are no files. -/
def Made (s : Store) (v : Ref) : Prop :=
  NotFile s v ∧ ∀ ino ∈ (s.vnodes v).data, NotFile s ino

theorem Quiet.made {s' : Store} {v : Ref} (hquiet : Quiet s s')
    (hmade : Made s v) : Made s' v := by
  refine ⟨hquiet.harmless.notFile hmade.1, fun ino hino => ?_⟩
  rw [(hquiet.pipes.vnodes v hmade.1.1).2] at hino
  exact hquiet.harmless.notFile (hmade.2 ino hino)

theorem newVnode_made (s : Store) {vnode : Vnode}
    (hdata : ∀ ino ∈ vnode.data, NotFile s ino) :
    Made (s.newVnode vnode) s.next := by
  unfold Made Store.newVnode Store.setVnode NotFile
  dsimp only
  rw [Function.update_self]
  refine ⟨⟨Nat.lt_succ_self _, by simp [Store.grant]⟩, fun ino hino => ?_⟩
  obtain ⟨hlt, hnot⟩ := hdata ino hino
  refine ⟨Nat.lt_succ_of_lt hlt, ?_⟩
  simpa [Store.grant, Function.update_of_ne hlt.ne] using hnot

theorem Build.quiet {made made' : List Ref} {s' : Store}
    (hbuild : Build made s made' s') (htyped : Typed s)
    (hmade : ∀ v ∈ made, Made s v) : Quiet s s' ∧ ∀ v ∈ made', Made s' v := by
  have hold : Quiet s s' → Quiet s s' ∧ ∀ v ∈ made, Made s' v :=
    fun hquiet => ⟨hquiet, fun v hv => hquiet.made (hmade v hv)⟩
  have hinode := newInode_quiet htyped
  have hnext : NotFile s.newInode s.next :=
    ⟨Nat.lt_succ_self _, by simp [Store.newInode, Store.setInode, Store.grant]⟩
  have hnode (type : VnodeType) : Quiet s (s.newNode type) :=
    hinode.trans (newVnode_quiet hinode.typed type (by simp [VfsOps.IsPipe]))
  have hnew (type : VnodeType) : Made (s.newNode type) (s.next + 1) :=
    newVnode_made s.newInode (by rintro _ ⟨⟩; exact hnext)
  cases hbuild with
  | refuse => exact hold (refuse_quiet htyped)
  | lost =>
      have hrefuse := refuse_quiet hinode.typed
      exact hold (hinode.trans (hrefuse.trans (kfree_quiet hrefuse.typed
        (hrefuse.harmless.notFile hnext))))
  | node type =>
      exact ⟨hnode type,
        List.forall_mem_cons.mpr ⟨hnew type, (hold (hnode type)).2⟩⟩
  | device hpipe =>
      have hquiet := @newVnode_quiet s htyped .dev _ none
        (fun h => absurd h hpipe)
      exact ⟨hquiet, List.forall_mem_cons.mpr
        ⟨newVnode_made s (fun _ h => by cases h), (hold hquiet).2⟩⟩
  | entry dir name hchild =>
      have hgrant := @grant_quiet s htyped .dirent (by decide) (by decide)
        (by decide)
      refine hold (hgrant.trans (setInode_quiet hgrant.typed
        (hgrant.typed.bufs _) (List.forall_mem_cons.mpr ⟨?_,
          hgrant.typed.children _⟩)))
      exact hgrant.harmless.notFile (hmade _ hchild).1
  | drop type =>
      have hrefuse := refuse_quiet (hnode type).typed
      have hmade := hrefuse.made (hnew type)
      have hdata := kfree_quiet hrefuse.typed
        (hmade.2 s.next (congrArg Vnode.data (newNode_vnode s type)))
      exact hold ((hnode type).trans (hrefuse.trans (hdata.trans (kfree_quiet
        hdata.typed (hdata.harmless.notFile hmade.1)))))
  | mount root hmounts =>
      refine hold ⟨⟨⟨htyped.unborn, htyped.ends, htyped.bufs, htyped.children,
        fun mount hmem => ?_, htyped.stdin, htyped.stdout, htyped.stderr⟩,
        Harmless.of_eq rfl rfl rfl rfl⟩, SamePipes.of_eq rfl rfl rfl rfl⟩
      rcases hmounts mount hmem with hmount | hroot
      · exact htyped.mounts mount hmount
      · exact (hmade _ hroot).1
  | streams hin hout herr =>
      exact hold ⟨⟨⟨htyped.unborn, htyped.ends, htyped.bufs, htyped.children,
        htyped.mounts, fun v hv => (hmade v (hin v hv)).1,
        fun v hv => (hmade v (hout v hv)).1,
        fun v hv => (hmade v (herr v hv)).1⟩,
        Harmless.of_eq rfl rfl rfl rfl⟩, SamePipes.of_eq rfl rfl rfl rfl⟩

theorem Builds.quiet {made : List Ref} {s' : Store}
    (hbuilds : Builds s made s') (htyped : Typed s) :
    Quiet s s' ∧ ∀ v ∈ made, Made s' v := by
  induction hbuilds with
  | start => exact ⟨Quiet.refl htyped, nofun⟩
  | step _ hstep ih =>
      obtain ⟨hquiet, hmade⟩ := hstep.quiet ih.1.typed ih.2
      exact ⟨ih.1.trans hquiet, hmade⟩

theorem ramfsCreate_quiet (htyped : Typed s) (dir : Ref) (name : List UInt8)
    (type : VnodeType) : QuietRef s (ramfsCreate s dir name type) := by
  obtain ⟨made, hbuilds, hfound⟩ := ramfsCreate_builds .start dir name type
  obtain ⟨hquiet, hmade⟩ := hbuilds.quiet htyped
  refine ⟨hquiet, fun v hv => ?_⟩
  rcases hfound v hv with hnew | hlinked
  · exact (hmade v hnew).1
  · exact hquiet.harmless.notFile (htyped.linked hlinked)

theorem findMount_mem {path : List UInt8} {mount : Mount}
    (hfind : findMount s path = some mount) : mount ∈ s.mounts := by
  have hfold : ∀ (mounts : List Mount) (best : Option Mount),
      (mounts.foldl (fun best mount =>
        let mlen := mount.path.length
        let boundary := mount.path = [slash] ∨ path[mlen]? = some slash ∨
          path[mlen]? = none
        if mount.path.isPrefixOf path ∧ boundary ∧
            (best.map fun m => m.path.length).getD 0 < mlen
        then some mount else best) best) = some mount →
      best = some mount ∨ mount ∈ mounts := by
    intro mounts
    induction mounts with
    | nil => exact fun best hbest => .inl hbest
    | cons head rest ih =>
        intro best hrest
        rcases ih _ hrest with hhead | hmem
        · dsimp only at hhead
          split_ifs at hhead
          · exact .inr (List.mem_cons.mpr (.inl (Option.some.inj hhead).symm))
          · exact .inl hhead
        · exact .inr (List.mem_cons_of_mem head hmem)
  rcases hfold s.mounts none hfind with hnone | hmem
  · cases hnone
  · exact hmem

theorem resolveLoop_linked {fuel : Nat} {cur v : Ref} {rest : List UInt8}
    (hcur : Linked s cur) (hresolve : resolveLoop s fuel cur rest = some v) :
    Linked s v := by
  induction fuel generalizing cur rest with
  | zero =>
      cases rest with
      | nil =>
          rw [resolveLoop, Option.some.injEq] at hresolve
          exact hresolve ▸ hcur
      | cons c rest => exact absurd hresolve.symm (Option.some_ne_none v)
  | succ fuel ih =>
      cases rest with
      | nil =>
          rw [resolveLoop, Option.some.injEq] at hresolve
          exact hresolve ▸ hcur
      | cons c rest =>
          simp only [resolveLoop] at hresolve
          split_ifs at hresolve
          split at hresolve
          · cases hresolve
          · rename_i next hlookup
            exact ih (ramfsLookup_linked hlookup) hresolve

theorem vfsResolve_linked {path : List UInt8} {v : Ref}
    (hresolve : vfsResolve s path = some v) : Linked s v := by
  unfold vfsResolve at hresolve
  split_ifs at hresolve
  split at hresolve
  · cases hresolve
  · rename_i mount hfind
    exact resolveLoop_linked (.inl ⟨mount, findMount_mem hfind, rfl⟩) hresolve

theorem fsInit_quiet (htyped : Typed s) : Quiet s (devfsInit (ramfsInit s)) := by
  obtain ⟨made, hbuilds⟩ := fsInit_builds s
  exact (hbuilds.quiet htyped).1

theorem Rebuffers.quiet {v : Ref} {stop : Nat} {buf : Option Ref} {s' : Store}
    (hgrow : Rebuffers s v stop buf s') (htyped : Typed s) : Quiet s s' := by
  cases hgrow with
  | fits => exact Quiet.refl htyped
  | refused => exact refuse_quiet htyped
  | moved capacity bytes cells freed _ hmalloc _ _ _ hfree =>
      have hnew := @kmalloc_quiet s htyped .buffer (by decide) (by decide)
        (by decide)
      rw [hmalloc] at hnew
      have hbytes := setBytes_quiet hnew.quiet.typed s.next bytes
      have hfreed := hbytes.trans (kfreeOption_quiet hbytes.typed fun b hb =>
        (hnew.quiet.trans hbytes).harmless.notFile
          (htyped.bufs (inodeOf s v) b hb))
      rw [hfree] at hfreed
      have hquiet := hnew.quiet.trans hfreed
      apply hquiet.trans
      apply setInode_quiet hquiet.typed
      · rintro b ⟨⟩
        exact hfreed.harmless.notFile (hnew.ref s.next rfl)
      · exact fun entry hmem =>
          hquiet.harmless.notFile (htyped.children _ entry hmem)

theorem Transfers.quiet {pipes : Prop} {s' : Store}
    (htransfers : Transfers pipes s s') (htyped : Typed s) : Quiet s s' := by
  refine htransfers.lift (.refl htyped) fun t t' hpast hstep => hpast.trans ?_
  have htyped' := hpast.typed
  cases hstep with
  | seek => exact setFile_quiet htyped' rfl rfl
  | resize => exact setVnode_quiet htyped' rfl rfl rfl
  | fill => exact setBytes_quiet htyped' _ _
  | grow hgrow => exact hgrow.quiet htyped'
  | pipe _ _ hends => exact setPipe_quiet htyped' hends

/-- The pipe of a closed end goes with its last end. -/
theorem pipeMaybeFree_quiet (htyped : Typed s) {p : Ref} (hp : NotFile s p) :
    Quiet s (pipeMaybeFree s p) := by
  unfold pipeMaybeFree
  split_ifs
  · exact kfree_quiet htyped hp
  · exact Quiet.refl htyped

theorem pipeClose_gentle (htyped : Typed s) {v : Ref} (hv : NotFile s v)
    (hpipe : (s.vnodes v).ops.IsPipe) (closeEnd : Pipe → List Nat × Pipe) :
    Gentle s (pipeClose s v closeEnd).2 := by
  unfold pipeClose
  dsimp only
  cases hdata : (s.vnodes v).data with
  | none => exact (Quiet.refl htyped).toGentle
  | some e =>
      obtain ⟨hend, hring⟩ := htyped.ends v e hpipe hdata
      dsimp only
      generalize (closeEnd (s.pipes (s.ends e).pipe)).2 = closed
      have hset := setPipe_gentle htyped (s.ends e).pipe closed
      have hfree := hset.trans
        (kfree_quiet hset.typed (hset.harmless.notFile hend)).toGentle
      have hdrop := hfree.trans (@setVnode_gentle _ hfree.typed v
        { s.vnodes v with data := none } rfl rfl (.inr rfl))
      have hmaybe := hdrop.trans (pipeMaybeFree_quiet hdrop.typed
        (hdrop.harmless.notFile hring)).toGentle
      exact hmaybe.trans
        (kfree_quiet hmaybe.typed (hmaybe.harmless.notFile hv)).toGentle

theorem closeHandler_gentle (htyped : Typed s) {v : Ref} (hv : NotFile s v) :
    Gentle s (closeHandler s v).2 := by
  unfold closeHandler
  split
  · rename_i hops
    exact pipeClose_gentle htyped hv (.inl hops) _
  · rename_i hops
    exact pipeClose_gentle htyped hv (.inr hops) _
  · exact (Quiet.refl htyped).toGentle

end Orion
