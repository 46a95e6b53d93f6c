/-
The reference counts of open files and of vnodes.  `refs` says how many
references to each open file there should be; opening, sharing and closing
change it at one file.  Each end that a pipe counts is the end of an open
file, or is owed to one that is about to be opened.
-/
import Orion.Occupancy
import Orion.VfsTypes

namespace Orion

open MachineInt

/-- The open files on a vnode. -/
def filesOn (s : Store) (v : Nat) : Finset Nat :=
  (Finset.range s.next).filter fun f =>
    s.cells f = some .file ∧ (s.files f).vnode = v

/-- The pipe behind a vnode, and which of its ends. -/
def vnodeEnd (s : Store) (v : Nat) : Option (Nat × Bool) :=
  match (s.vnodes v).ops with
  | .pipeRead => (s.vnodes v).data.map fun e => ((s.ends e).pipe, false)
  | .pipeWrite => (s.vnodes v).data.map fun e => ((s.ends e).pipe, true)
  | _ => none

/-- The end of a pipe that an open file leads to. -/
def fileEnd (s : Store) (f : Nat) : Option (Nat × Bool) :=
  vnodeEnd s (s.files f).vnode

/-- The number of open read or write ends. -/
def Pipe.endCount (pipe : Pipe) (isWrite : Bool) : Nat :=
  if isWrite then pipe.writers else pipe.readers

structure CountInv (s : Store) (refs : Nat → Nat) (owed : List (Nat × Bool)) :
    Prop where
  typed : Typed s
  count : ∀ f : Nat, s.cells f = some .file → (s.files f).refcount = refs f
  live : ∀ f : Nat, s.cells f = some .file ↔ 0 < refs f
  born : ∀ f : Nat, s.cells f = some .file → NotFile s (s.files f).vnode
  vnode : ∀ v : Nat, s.cells v = some .vnode →
    (s.vnodes v).refcount = (filesOn s v).card
  ends : ∀ (p : Nat) (isWrite : Bool), s.cells p = some .pipe →
    (s.pipes p).endCount isWrite ≠ 0 → (p, isWrite) ∈ owed ∨
      ∃ f : Nat, s.cells f = some .file ∧ fileEnd s f = some (p, isWrite)
  single : ∀ (p : Nat) (isWrite : Bool), s.cells p = some .pipe →
    (s.pipes p).endCount isWrite ≤ 1

section Quietness

variable {s s' : Store} {refs : Nat → Nat} {owed : List (Nat × Bool)}

theorem mem_filesOn (hunborn : s.Unborn) {f v : Nat} :
    f ∈ filesOn s v ↔ s.cells f = some .file ∧ (s.files f).vnode = v := by
  rw [filesOn, Finset.mem_filter, Finset.mem_range, and_iff_right_iff_imp]
  rintro ⟨hlive, -⟩
  by_contra hge
  rw [hunborn f (Nat.le_of_not_lt hge)] at hlive
  cases hlive

theorem Harmless.filesOn_eq (hharmless : Harmless s s') (hunborn : s.Unborn)
    (hunborn' : s'.Unborn) (v : Nat) : filesOn s' v = filesOn s v := by
  ext f
  rw [mem_filesOn hunborn', mem_filesOn hunborn, hharmless.cells]
  refine and_congr_right fun hlive => ?_
  rw [(hharmless.files f hlive).1]

theorem CountInv.fresh_vnode (hinv : CountInv s refs owed) {v : Nat}
    (hfresh : s.next ≤ v) : filesOn s v = ∅ := by
  apply Finset.eq_empty_of_forall_notMem
  intro f hf
  obtain ⟨hlive, rfl⟩ := (mem_filesOn hinv.typed.unborn).mp hf
  exact Nat.not_lt.mpr hfresh (hinv.born f hlive).1

/-- A vnode that was there with this count, or that is new. -/
theorem CountInv.vnode_count (hinv : CountInv s refs owed) {v count : Nat}
    (hvnode : (s.cells v = some .vnode ∧ count = (s.vnodes v).refcount) ∨
      (s.next ≤ v ∧ count = 0)) : count = (filesOn s v).card := by
  rcases hvnode with ⟨hold, hcount⟩ | ⟨hfresh, hzero⟩
  · exact hcount.trans (hinv.vnode v hold)
  · rw [hzero, hinv.fresh_vnode hfresh, Finset.card_empty]

theorem vnodeEnd_congr {v : Nat} (hops : (s'.vnodes v).ops = (s.vnodes v).ops)
    (hdata : (s'.vnodes v).data = (s.vnodes v).data)
    (hends : ∀ e, (s.vnodes v).ops.IsPipe → (s.vnodes v).data = some e →
      s'.ends e = s.ends e) : vnodeEnd s' v = vnodeEnd s v := by
  unfold vnodeEnd
  rw [hops, hdata]
  cases hdata' : (s.vnodes v).data with
  | none => rfl
  | some e =>
      cases hkind : (s.vnodes v).ops with
      | pipeRead =>
          simp only [Option.map_some, hends e (.inl hkind) hdata']
      | pipeWrite =>
          simp only [Option.map_some, hends e (.inr hkind) hdata']
      | _ => rfl

theorem SamePipes.vnodeEnd_eq (hsame : SamePipes s s') (htyped : Typed s)
    {v : Nat} (hv : v < s.next) : vnodeEnd s' v = vnodeEnd s v :=
  vnodeEnd_congr (hsame.vnodes v hv).1 (hsame.vnodes v hv).2
    fun e hops hdata => hsame.ends e (htyped.ends v e hops hdata).1.1

/-- Everything but the pipes is right after a gentle change. -/
theorem CountInv.of_gentle (hinv : CountInv s refs owed)
    (hgentle : Gentle s s') {owed' : List (Nat × Bool)}
    (hends : ∀ (p : Nat) (isWrite : Bool), s'.cells p = some .pipe →
      (s'.pipes p).endCount isWrite ≠ 0 → (p, isWrite) ∈ owed' ∨
        ∃ f : Nat, s.cells f = some .file ∧
          vnodeEnd s' (s.files f).vnode = some (p, isWrite))
    (hsingle : ∀ (p : Nat) (isWrite : Bool), s'.cells p = some .pipe →
      (s'.pipes p).endCount isWrite ≤ 1) : CountInv s' refs owed' := by
  have hharmless := hgentle.harmless
  refine ⟨hgentle.typed, ?_, ?_, ?_, ?_, ?_, hsingle⟩
  · intro f hlive
    rw [hharmless.cells] at hlive
    rw [(hharmless.files f hlive).2]
    exact hinv.count f hlive
  · intro f
    rw [hharmless.cells]
    exact hinv.live f
  · intro f hlive
    rw [hharmless.cells] at hlive
    rw [(hharmless.files f hlive).1]
    exact hharmless.notFile (hinv.born f hlive)
  · intro v halive
    rw [hinv.vnode_count (hharmless.vnodes v halive),
      hharmless.filesOn_eq hinv.typed.unborn hgentle.typed.unborn]
  · intro p isWrite hpipe hcount
    rcases hends p isWrite hpipe hcount with howed | ⟨f, hlive, hend⟩
    · exact .inl howed
    · refine .inr ⟨f, (hharmless.cells f).mpr hlive, ?_⟩
      rw [fileEnd, (hharmless.files f hlive).1]
      exact hend

theorem Pipe.SameEnds.endCount {pipe pipe' : Pipe} (hsame : pipe.SameEnds pipe')
    (isWrite : Bool) : pipe'.endCount isWrite = pipe.endCount isWrite := by
  cases isWrite with
  | false => exact hsame.1
  | true => exact hsame.2

theorem CountInv.quiet (hinv : CountInv s refs owed) (hquiet : Quiet s s') :
    CountInv s' refs owed := by
  apply hinv.of_gentle hquiet.toGentle
  · intro p isWrite hpipe hcount
    obtain ⟨hold, hsame⟩ := hquiet.pipes.pipes p hpipe
    rw [hsame.endCount] at hcount
    rcases hinv.ends p isWrite hold hcount with howed | ⟨f, hlive, hend⟩
    · exact .inl howed
    · refine .inr ⟨f, hlive, ?_⟩
      rw [hquiet.pipes.vnodeEnd_eq hinv.typed (hinv.born f hlive).1]
      exact hend
  · intro p isWrite hpipe
    obtain ⟨hold, hsame⟩ := hquiet.pipes.pipes p hpipe
    rw [hsame.endCount]
    exact hinv.single p isWrite hold

/-- A new pipe owes its two ends. -/
theorem CountInv.newPipe (hinv : CountInv s refs owed) :
    CountInv ((s.grant .pipe).setPipe s.next Pipe.fresh) refs
      ((s.next, false) :: (s.next, true) :: owed) := by
  have hgrant := @grant_gentle s hinv.typed .pipe (by decide) (by decide)
  have hgentle := hgrant.trans (setPipe_gentle hgrant.typed s.next Pipe.fresh)
  have hold : ∀ p : Nat, p ≠ s.next →
      ((s.grant .pipe).setPipe s.next Pipe.fresh).cells p = some .pipe →
      s.cells p = some .pipe ∧
        ((s.grant .pipe).setPipe s.next Pipe.fresh).pipes p = s.pipes p :=
    fun p hp hpipe => ⟨(Function.update_of_ne hp _ _).symm.trans hpipe,
      Function.update_of_ne hp _ _⟩
  apply hinv.of_gentle hgentle
  · intro p isWrite hpipe hcount
    by_cases hp : p = s.next
    · subst hp
      cases isWrite <;> simp
    · obtain ⟨hpipe', heq⟩ := hold p hp hpipe
      rw [heq] at hcount
      rcases hinv.ends p isWrite hpipe' hcount with howed | hfile
      · exact .inl (List.mem_cons_of_mem _ (List.mem_cons_of_mem _ howed))
      · exact .inr hfile
  · intro p isWrite hpipe
    by_cases hp : p = s.next
    · subst hp
      cases isWrite <;> simp [Store.setPipe, Pipe.endCount, Pipe.fresh]
    · obtain ⟨hpipe', heq⟩ := hold p hp hpipe
      rw [heq]
      exact hinv.single p isWrite hpipe'

end Quietness

section Sharing

variable {s : Store} {refs : Nat → Nat} {owed : List (Nat × Bool)} {f : Nat}

/-- Only the count of one open file is written. -/
theorem CountInv.setCount (hinv : CountInv s refs owed)
    (hlive : s.cells f = some .file) {n : Nat} (hn : 0 < n) :
    CountInv (s.setFile f { s.files f with refcount := n })
      (Function.update refs f n) owed := by
  have hvnode : ∀ g, ((s.setFile f { s.files f with refcount := n }).files
      g).vnode = (s.files g).vnode := by
    intro g
    by_cases hg : g = f
    · subst hg
      simp [Store.setFile]
    · simp [Store.setFile, hg]
  have hon : ∀ v, filesOn (s.setFile f { s.files f with refcount := n }) v =
      filesOn s v := by
    intro v
    ext g
    simp only [filesOn, Finset.mem_filter, hvnode]
    rfl
  refine ⟨⟨hinv.typed.unborn, hinv.typed.ends, hinv.typed.bufs,
    hinv.typed.children, hinv.typed.mounts, hinv.typed.stdin,
    hinv.typed.stdout, hinv.typed.stderr⟩, ?_, ?_, ?_, ?_, ?_, hinv.single⟩
  · intro g hg
    by_cases heq : g = f
    · subst heq
      simp [Store.setFile]
    · rw [Function.update_of_ne heq, ← hinv.count g hg]
      simp [Store.setFile, heq]
  · intro g
    by_cases heq : g = f
    · subst heq
      rw [Function.update_self]
      exact iff_of_true hlive hn
    · rw [Function.update_of_ne heq]
      exact hinv.live g
  · intro g hg
    rw [hvnode]
    exact hinv.born g hg
  · intro v halive
    rw [hon]
    exact hinv.vnode v halive
  · intro p isWrite hpipe hcount
    rcases hinv.ends p isWrite hpipe hcount with howed | ⟨g, hg, hend⟩
    · exact .inl howed
    · refine .inr ⟨g, hg, ?_⟩
      rw [fileEnd, hvnode]
      exact hend

/-- One more descriptor on an open file. -/
theorem CountInv.share (hinv : CountInv s refs owed) (hf : 0 < refs f)
    (hsmall : refs f + 1 < 2 ^ 32) :
    CountInv (fileRef s f) (Function.update refs f (refs f + 1)) owed := by
  have hlive := (hinv.live f).mpr hf
  have hset := hinv.setCount hlive (Nat.succ_pos (refs f))
  unfold fileRef u32
  dsimp only
  rw [hinv.count f hlive, Nat.mod_eq_of_lt hsmall]
  exact hset

end Sharing

section Opening

variable {s : Store} {refs : Nat → Nat} {owed : List (Nat × Bool)}

theorem openedFile_cells (v : Ref) (offset : Nat) (flags : UInt32) {ref : Nat}
    (href : ref ≠ s.next) :
    (openedFile s v offset flags).cells ref = s.cells ref :=
  Function.update_of_ne href _ _

theorem openedFile_cells_next (s : Store) (v : Ref) (offset : Nat)
    (flags : UInt32) : (openedFile s v offset flags).cells s.next = some .file :=
  Function.update_self _ _ _

theorem openedFile_files (v : Ref) (offset : Nat) (flags : UInt32) {g : Nat}
    (hg : g ≠ s.next) : (openedFile s v offset flags).files g = s.files g :=
  Function.update_of_ne hg _ _

theorem openedFile_files_next (s : Store) (v : Ref) (offset : Nat)
    (flags : UInt32) :
    (openedFile s v offset flags).files s.next = ⟨v, offset, flags, 1⟩ :=
  Function.update_self _ _ _

theorem openedFile_old {v : Ref} {offset : Nat} {flags : UInt32} {ref : Nat}
    {kind : ObjKind} (hkind : kind ≠ .file)
    (hlive : (openedFile s v offset flags).cells ref = some kind) :
    s.cells ref = some kind := by
  by_cases href : ref = s.next
  · rw [href, openedFile_cells_next] at hlive
    exact absurd (Option.some.inj hlive).symm hkind
  · rwa [openedFile_cells v offset flags href] at hlive

theorem openedFile_notFile (v : Ref) (offset : Nat) (flags : UInt32)
    {ref : Nat} (href : NotFile s ref) :
    NotFile (openedFile s v offset flags) ref := by
  refine ⟨Nat.lt_succ_of_lt href.1, ?_⟩
  rw [openedFile_cells v offset flags (Nat.ne_of_lt href.1)]
  exact href.2

theorem openedFile_vnode (v : Ref) (offset : Nat) (flags : UInt32) (w : Nat) :
    ((openedFile s v offset flags).vnodes w).ops = (s.vnodes w).ops ∧
      ((openedFile s v offset flags).vnodes w).data = (s.vnodes w).data := by
  by_cases hw : w = v
  · subst hw
    simp [openedFile, vnodeRef, Store.setVnode, Store.setFile, Store.grant]
  · simp [openedFile, vnodeRef, Store.setVnode, Store.setFile, Store.grant, hw]

theorem openedFile_typed (htyped : Typed s) (v : Ref) (offset : Nat)
    (flags : UInt32) : Typed (openedFile s v offset flags) := by
  apply htyped.of_same (fun _ => openedFile_notFile v offset flags)
    (htyped.unborn.grant .file) (openedFile_vnode v offset flags) <;> rfl

theorem openedFile_end (v : Ref) (offset : Nat) (flags : UInt32) (w : Nat) :
    vnodeEnd (openedFile s v offset flags) w = vnodeEnd s w :=
  vnodeEnd_congr (openedFile_vnode v offset flags w).1
    (openedFile_vnode v offset flags w).2 fun _ _ _ => rfl

theorem next_notMem_filesOn (hunborn : s.Unborn) (w : Nat) :
    s.next ∉ filesOn s w := by
  rw [mem_filesOn hunborn, hunborn s.next (Nat.le_refl _)]
  rintro ⟨⟨⟩, -⟩

theorem filesOn_openedFile (htyped : Typed s) (v : Ref) (offset : Nat)
    (flags : UInt32) (w : Nat) : filesOn (openedFile s v offset flags) w =
      if w = v then insert s.next (filesOn s w) else filesOn s w := by
  have hout := next_notMem_filesOn htyped.unborn w
  ext g
  rw [mem_filesOn (openedFile_typed htyped v offset flags).unborn]
  by_cases hg : g = s.next
  · subst hg
    rw [openedFile_files_next, openedFile_cells_next]
    split_ifs with hw
    · simp [hw]
    · simp [hout, Ne.symm hw]
  · rw [openedFile_cells v offset flags hg, openedFile_files v offset flags hg,
      ← mem_filesOn htyped.unborn]
    split_ifs
    · simp [hg]
    · rfl

/-- Opening a vnode; a pipe end that is owed may be paid with it. -/
theorem CountInv.opened (hinv : CountInv s refs owed) {v : Nat}
    (hv : NotFile s v) (offset : Nat) (flags : UInt32)
    (hsmall : (filesOn s v).card + 1 < 2 ^ 32) {owed' : List (Nat × Bool)}
    (howed : ∀ owes ∈ owed, owes ∈ owed' ∨ vnodeEnd s v = some owes) :
    refs s.next = 0 ∧ CountInv (openedFile s v offset flags)
      (Function.update refs s.next 1) owed' := by
  have hunborn := hinv.typed.unborn
  have hnext : s.cells s.next = none := hunborn _ (Nat.le_refl _)
  have hnew := openedFile_cells_next s v offset flags
  have hfile := openedFile_files_next s v offset flags
  have hcells := @openedFile_cells s v offset flags
  have hfiles := @openedFile_files s v offset flags
  refine ⟨?_, openedFile_typed hinv.typed v offset flags, ?_, ?_, ?_, ?_, ?_, ?_⟩
  · have hdead := mt (hinv.live s.next).mpr
    rw [hnext] at hdead
    exact Nat.eq_zero_of_not_pos (hdead (by simp))
  · intro g hg
    by_cases heq : g = s.next
    · subst heq
      rw [hfile, Function.update_self]
    · rw [hcells heq] at hg
      rw [hfiles heq, Function.update_of_ne heq]
      exact hinv.count g hg
  · intro g
    by_cases heq : g = s.next
    · subst heq
      rw [hnew, Function.update_self]
      exact iff_of_true rfl Nat.one_pos
    · rw [hcells heq, Function.update_of_ne heq]
      exact hinv.live g
  · intro g hg
    by_cases heq : g = s.next
    · subst heq
      rw [hfile]
      exact openedFile_notFile v offset flags hv
    · rw [hcells heq] at hg
      rw [hfiles heq]
      exact openedFile_notFile v offset flags (hinv.born g hg)
  · intro w halive
    have hcount := hinv.vnode w (openedFile_old (by decide) halive)
    rw [filesOn_openedFile hinv.typed]
    split_ifs with hwv
    · subst hwv
      have hrefcount : ((openedFile s w offset flags).vnodes w).refcount =
          u32 ((s.vnodes w).refcount + 1) := by
        simp [openedFile, vnodeRef, Store.setVnode, Store.setFile, Store.grant]
      rw [hrefcount, hcount,
        Finset.card_insert_of_notMem (next_notMem_filesOn hunborn w)]
      exact Nat.mod_eq_of_lt hsmall
    · rw [← hcount]
      simp [openedFile, vnodeRef, Store.setVnode, Store.setFile, Store.grant,
        hwv]
  · intro p isWrite hpipe hcount
    rcases hinv.ends p isWrite (openedFile_old (by decide) hpipe) hcount with
      hmem | ⟨g, hg, hend⟩
    · rcases howed _ hmem with hkept | hpaid
      · exact .inl hkept
      · refine .inr ⟨s.next, hnew, ?_⟩
        rw [fileEnd, hfile, openedFile_end]
        exact hpaid
    · have hlive : g ≠ s.next := by
        rintro rfl
        rw [hnext] at hg
        cases hg
      refine .inr ⟨g, (hcells hlive).trans hg, ?_⟩
      rw [fileEnd, hfiles hlive, openedFile_end]
      exact hend
  · intro p isWrite hpipe
    exact hinv.single p isWrite (openedFile_old (by decide) hpipe)

/-- Opening a vnode fails quietly, or makes a new file on it. -/
theorem vfsOpenVnode_cases (htyped : Typed s) (v : Option Ref)
    (flags : UInt32) :
    (∃ s', vfsOpenVnode s v flags = (none, s') ∧ Quiet s s') ∨
    ∃ r s₁ offset, v = some r ∧ Quiet s s₁ ∧ vfsOpenVnode s v flags =
      (some s₁.next, openedFile s₁ r offset flags) := by
  cases v with
  | none => exact .inl ⟨s, rfl, Quiet.refl htyped⟩
  | some r =>
      have hquiet : Quiet s (backendOpen s r flags) := by
        unfold backendOpen
        split_ifs
        · exact ramfsOpen_quiet htyped r flags
        · exact Quiet.refl htyped
      rcases vfsOpenVnode_some s r flags with heq | ⟨offset, heq, -⟩
      · exact .inl ⟨_, heq, hquiet.trans (refuse_quiet hquiet.typed)⟩
      · exact .inr ⟨r, _, offset, rfl, hquiet, heq⟩

/-- The same for a path. -/
theorem vfsOpen_cases (htyped : Typed s) (path : List UInt8) (flags : UInt32) :
    (∃ s', vfsOpen s path flags = (none, s') ∧ Quiet s s') ∨
    ∃ r s₁ offset, NotFile s₁ r ∧ Quiet s s₁ ∧ vfsOpen s path flags =
      (some s₁.next, openedFile s₁ r offset flags) := by
  unfold vfsOpen
  cases hresolve : vfsResolve s path with
  | some v =>
      rcases vfsOpenVnode_cases htyped (some v) flags with
        hnone | ⟨r, s₁, offset, heq, hquiet, hopen⟩
      · exact .inl hnone
      · cases heq
        exact .inr ⟨v, s₁, offset,
          hquiet.harmless.notFile (htyped.linked (vfsResolve_linked hresolve)),
          hquiet, hopen⟩
  | none =>
      dsimp only
      split_ifs
      · exact .inl ⟨s, rfl, Quiet.refl htyped⟩
      cases parentDir s path with
      | none => exact .inl ⟨s, rfl, Quiet.refl htyped⟩
      | some place =>
          have hcreate := ramfsCreate_quiet htyped place.1 place.2 .file
          dsimp only
          generalize ramfsCreate s place.1 place.2 .file = made at hcreate ⊢
          rcases made with ⟨_ | v, s₀⟩
          · exact .inl ⟨s₀, rfl, hcreate.quiet⟩
          · rcases vfsOpenVnode_cases hcreate.quiet.typed (some v) flags with
              ⟨s', hopen, hquiet⟩ | ⟨r, s₁, offset, heq, hquiet, hopen⟩
            · exact .inl ⟨s', hopen, hcreate.quiet.trans hquiet⟩
            · cases heq
              exact .inr ⟨v, s₁, offset,
                hquiet.harmless.notFile (hcreate.ref v rfl),
                hcreate.quiet.trans hquiet, hopen⟩

end Opening

/-- The close handler drops the end of the vnode from its pipe. -/
structure Closes (s : Store) (v : Nat) (s' : Store) : Prop where
  pipes : ∀ (p : Nat) (isWrite : Bool), s'.cells p = some .pipe →
    s.cells p = some .pipe ∧ (s'.pipes p).endCount isWrite =
      if vnodeEnd s v = some (p, isWrite)
      then (s.pipes p).endCount isWrite - 1 else (s.pipes p).endCount isWrite
  vnodes : ∀ w : Nat, w ≠ v → s'.vnodes w = s.vnodes w
  ends : s'.ends = s.ends

section Closing

variable {s s' : Store} {refs : Nat → Nat} {owed : List (Nat × Bool)}

theorem Closes.refl (s : Store) {v : Nat} (hend : vnodeEnd s v = none) :
    Closes s v s := by
  refine ⟨fun p isWrite hpipe => ⟨hpipe, ?_⟩, fun _ _ => rfl, rfl⟩
  rw [if_neg (by simp [hend])]

theorem pipeCloseReadEnd_endCount (pipe : Pipe) (isWrite : Bool) :
    (pipeCloseReadEnd pipe).2.endCount isWrite =
      if isWrite = false then pipe.endCount isWrite - 1
      else pipe.endCount isWrite := by
  unfold pipeCloseReadEnd
  dsimp only
  split_ifs
  all_goals
    first
      | rw [(pipeWakePeer_sameEnds _ _).endCount]
      | skip
  all_goals cases isWrite <;> simp_all [Pipe.endCount]

theorem pipeCloseWriteEnd_endCount (pipe : Pipe) (isWrite : Bool) :
    (pipeCloseWriteEnd pipe).2.endCount isWrite =
      if isWrite = true then pipe.endCount isWrite - 1
      else pipe.endCount isWrite := by
  unfold pipeCloseWriteEnd
  dsimp only
  split_ifs
  all_goals
    first
      | rw [(pipeWakePeer_sameEnds _ _).endCount]
      | skip
  all_goals cases isWrite <;> simp_all [Pipe.endCount]

/-- Nothing but liveness changes. -/
structure OnlyFrees (s s' : Store) : Prop where
  pipes : s'.pipes = s.pipes
  vnodes : s'.vnodes = s.vnodes
  ends : s'.ends = s.ends
  cells : ∀ ref kind, s'.cells ref = some kind → s.cells ref = some kind

theorem pipeMaybeFree_kfree_frees (s : Store) (p v : Ref) :
    OnlyFrees s ((pipeMaybeFree s p).kfree v) := by
  unfold pipeMaybeFree
  split_ifs
  · exact ⟨rfl, rfl, rfl, fun _ _ h => kfree_cells_some (kfree_cells_some h)⟩
  · exact ⟨rfl, rfl, rfl, fun _ _ => kfree_cells_some⟩

theorem Closes.onlyFrees {s'' : Store} {v : Nat} (hcloses : Closes s v s')
    (hfrees : OnlyFrees s' s'') : Closes s v s'' := by
  refine ⟨?_, ?_, hfrees.ends.trans hcloses.ends⟩
  · intro p isWrite hpipe
    rw [hfrees.pipes]
    exact hcloses.pipes p isWrite (hfrees.cells p _ hpipe)
  · intro w hw
    rw [hfrees.vnodes]
    exact hcloses.vnodes w hw

theorem pipeClose_closes {v : Ref} {side : Bool}
    {closeEnd : Pipe → List Nat × Pipe}
    (hside : vnodeEnd s v =
      (s.vnodes v).data.map fun e => ((s.ends e).pipe, side))
    (hclose : ∀ pipe isWrite, (closeEnd pipe).2.endCount isWrite =
      if isWrite = side then pipe.endCount isWrite - 1
      else pipe.endCount isWrite) :
    Closes s v (pipeClose s v closeEnd).2 := by
  unfold pipeClose
  dsimp only
  cases hdata : (s.vnodes v).data with
  | none =>
      rw [hdata] at hside
      exact Closes.refl s hside
  | some e =>
      rw [hdata, Option.map_some] at hside
      dsimp only
      generalize hp : (s.ends e).pipe = p at hside ⊢
      apply Closes.onlyFrees _ (pipeMaybeFree_kfree_frees _ p v)
      refine ⟨?_, fun w hw => Function.update_of_ne hw _ _, rfl⟩
      intro q isWrite hpipe
      refine ⟨kfree_cells_some hpipe, ?_⟩
      rw [hside]
      by_cases hq : q = p
      · subst hq
        rw [show Store.pipes _ q = (closeEnd (s.pipes q)).2 from
          Function.update_self _ _ _, hclose]
        simp [eq_comm]
      · rw [show Store.pipes _ q = s.pipes q from Function.update_of_ne hq _ _,
          if_neg]
        simp [Ne.symm hq]

theorem closeHandler_closes (s : Store) (v : Ref) :
    Closes s v (closeHandler s v).2 := by
  unfold closeHandler
  split
  · rename_i hops
    apply pipeClose_closes _ pipeCloseReadEnd_endCount
    rw [vnodeEnd, hops]
  · rename_i hops
    apply pipeClose_closes _ pipeCloseWriteEnd_endCount
    rw [vnodeEnd, hops]
  · rename_i hread hwrite
    apply Closes.refl
    unfold vnodeEnd
    split
    · rename_i hops
      exact absurd hops hread
    · rename_i hops
      exact absurd hops hwrite
    · rfl

/-- What the release of an open file amounts to. -/
structure Releases (s : Store) (f v : Nat) (s' : Store) : Prop where
  typed : Typed s'
  cells : ∀ ref, s'.cells ref = some .file ↔
    ref ≠ f ∧ s.cells ref = some .file
  files : ∀ g : Nat, g ≠ f → s.cells g = some .file →
    (s'.files g).vnode = (s.files g).vnode ∧
      (s'.files g).refcount = (s.files g).refcount
  notFile : ∀ ref, NotFile s ref → NotFile s' ref
  vnodes : ∀ w : Nat, s'.cells w = some .vnode → ∃ count : Nat,
    ((s.cells w = some .vnode ∧ count = (s.vnodes w).refcount) ∨
      (s.next ≤ w ∧ count = 0)) ∧
    (s'.vnodes w).refcount = if w = v then count - 1 else count
  pipes : ∀ (p : Nat) (isWrite : Bool), s'.cells p = some .pipe →
    s.cells p = some .pipe ∧ (s'.pipes p).endCount isWrite =
      if vnodeEnd s v = some (p, isWrite)
      then (s.pipes p).endCount isWrite - 1 else (s.pipes p).endCount isWrite
  ends : ∀ w : Nat, w ≠ v → vnodeEnd s' w = vnodeEnd s w

theorem vfsRelease_releases (htyped : Typed s) {f v : Ref}
    (hvnode : (s.files f).vnode = v) (hv : NotFile s v) :
    Releases s f v (vfsRelease s f).2 := by
  have hgentle := closeHandler_gentle htyped hv
  have hcloses := closeHandler_closes s v
  unfold vfsRelease
  dsimp only
  rw [hvnode]
  generalize (closeHandler s v).2 = s₂ at hgentle hcloses ⊢
  have hharmless := hgentle.harmless
  have hcells : ∀ ref, ((vnodeUnref s₂ v).kfree f).cells ref =
      if ref = f then none else s₂.cells ref := by
    intro ref
    split_ifs with href
    · rw [href]
      exact Function.update_self _ _ _
    · exact Function.update_of_ne href _ _
  have hfield : ∀ w, (((vnodeUnref s₂ v).kfree f).vnodes w).ops =
      (s₂.vnodes w).ops ∧ (((vnodeUnref s₂ v).kfree f).vnodes w).data =
      (s₂.vnodes w).data ∧ (((vnodeUnref s₂ v).kfree f).vnodes w).refcount =
      if w = v then (s₂.vnodes w).refcount - 1 else (s₂.vnodes w).refcount := by
    intro w
    by_cases hw : w = v
    · subst hw
      simp [vnodeUnref, Store.setVnode, Store.kfree]
    · simp [vnodeUnref, Store.setVnode, Store.kfree, hw]
  have hnotFile : ∀ ref, NotFile s₂ ref →
      NotFile ((vnodeUnref s₂ v).kfree f) ref := by
    intro ref href
    refine ⟨href.1, ?_⟩
    rw [hcells]
    split_ifs
    · exact Option.some_ne_none _ ∘ Eq.symm
    · exact href.2
  refine ⟨?_, ?_, ?_, ?_, ?_, ?_, ?_⟩
  · apply hgentle.typed.of_same hnotFile _
      (fun w => ⟨(hfield w).1, (hfield w).2.1⟩) <;> try rfl
    intro ref href
    rw [hcells]
    split_ifs
    · rfl
    · exact hgentle.typed.unborn ref href
  · intro ref
    rw [hcells]
    split_ifs with href
    · simp [href]
    · rw [hharmless.cells]
      simp [href]
  · exact fun g _ hg => hharmless.files g hg
  · exact fun ref href => hnotFile ref (hharmless.notFile href)
  · intro w halive
    rw [hcells] at halive
    split_ifs at halive
    exact ⟨_, hharmless.vnodes w halive, (hfield w).2.2⟩
  · intro p isWrite hpipe
    rw [hcells] at hpipe
    split_ifs at hpipe
    exact hcloses.pipes p isWrite hpipe
  · intro w hw
    have hsame := hcloses.vnodes w hw
    apply vnodeEnd_congr
    · rw [(hfield w).1, hsame]
    · rw [(hfield w).2.1, hsame]
    · exact fun e _ _ => congrFun hcloses.ends e

/-- The last reference to an open file goes. -/
theorem CountInv.releases (hinv : CountInv s refs owed) {f v : Nat}
    (hf : 0 < refs f) (hvnode : (s.files f).vnode = v)
    (hreleases : Releases s f v s') :
    CountInv s' (Function.update refs f 0) owed := by
  have hlive := (hinv.live f).mpr hf
  have hon : ∀ w, filesOn s' w = (filesOn s w).erase f := by
    intro w
    ext g
    rw [mem_filesOn hreleases.typed.unborn, Finset.mem_erase,
      mem_filesOn hinv.typed.unborn, hreleases.cells, and_assoc]
    refine and_congr_right fun hne => and_congr_right fun hg => ?_
    rw [(hreleases.files g hne hg).1]
  refine ⟨hreleases.typed, ?_, ?_, ?_, ?_, ?_, ?_⟩
  · intro g hg
    obtain ⟨hne, hold⟩ := (hreleases.cells g).mp hg
    rw [(hreleases.files g hne hold).2, Function.update_of_ne hne]
    exact hinv.count g hold
  · intro g
    rw [hreleases.cells]
    by_cases hne : g = f
    · subst hne
      simp
    · rw [Function.update_of_ne hne, hinv.live]
      simp [hne]
  · intro g hg
    obtain ⟨hne, hold⟩ := (hreleases.cells g).mp hg
    rw [(hreleases.files g hne hold).1]
    exact hreleases.notFile _ (hinv.born g hold)
  · intro w halive
    obtain ⟨count, hcount, hrefcount⟩ := hreleases.vnodes w halive
    rw [hrefcount, hinv.vnode_count hcount, hon]
    split_ifs with hw
    · rw [Finset.card_erase_of_mem]
      exact (mem_filesOn hinv.typed.unborn).mpr ⟨hlive, hvnode.trans hw.symm⟩
    · rw [Finset.erase_eq_of_notMem]
      rw [mem_filesOn hinv.typed.unborn, hvnode]
      exact fun h => hw h.2.symm
  · intro p isWrite hpipe hcount
    obtain ⟨hold, heq⟩ := hreleases.pipes p isWrite hpipe
    rw [heq] at hcount
    split_ifs at hcount with hend
    · have hsingle := hinv.single p isWrite hold
      omega
    · rcases hinv.ends p isWrite hold hcount with howed | ⟨g, hg, hend'⟩
      · exact .inl howed
      · have hw : (s.files g).vnode ≠ v := by
          intro hw
          rw [fileEnd, hw] at hend'
          exact hend hend'
        have hne : g ≠ f := by
          rintro rfl
          exact hw hvnode
        refine .inr ⟨g, (hreleases.cells g).mpr ⟨hne, hg⟩, ?_⟩
        rw [fileEnd, (hreleases.files g hne hg).1, hreleases.ends _ hw]
        exact hend'
  · intro p isWrite hpipe
    obtain ⟨hold, heq⟩ := hreleases.pipes p isWrite hpipe
    have hsingle := hinv.single p isWrite hold
    rw [heq]
    split_ifs <;> omega

/-- One descriptor on an open file goes; old references stay what they are. -/
theorem CountInv.close (hinv : CountInv s refs owed) {f : Nat}
    (hf : 0 < refs f) (hsmall : refs f < 2 ^ 32) :
    CountInv (vfsClose s f).2 (Function.update refs f (refs f - 1)) owed ∧
      ∀ ref, NotFile s ref → NotFile (vfsClose s f).2 ref := by
  have hlive := (hinv.live f).mpr hf
  have hsub : sub32 (s.files f).refcount 1 = refs f - 1 := by
    rw [hinv.count f hlive]
    exact sub32_of_le hf hsmall
  unfold vfsClose
  dsimp only
  rw [hsub]
  by_cases hlast : 0 < refs f - 1
  · rw [if_pos hlast]
    exact ⟨hinv.setCount hlive hlast, fun _ href => href⟩
  · rw [if_neg hlast]
    have hzero : refs f - 1 = 0 := Nat.eq_zero_of_not_pos hlast
    rw [hzero]
    have htyped : Typed (s.setFile f { s.files f with refcount := 0 }) :=
      ⟨hinv.typed.unborn, hinv.typed.ends, hinv.typed.bufs,
        hinv.typed.children, hinv.typed.mounts, hinv.typed.stdin,
        hinv.typed.stdout, hinv.typed.stderr⟩
    have hvnode : ((s.setFile f { s.files f with refcount := 0 }).files
        f).vnode = (s.files f).vnode := by
      simp [Store.setFile]
    have hreleases := vfsRelease_releases htyped hvnode (hinv.born f hlive)
    refine ⟨hinv.releases hf rfl ?_, hreleases.notFile⟩
    refine ⟨hreleases.typed, hreleases.cells, ?_, hreleases.notFile,
      hreleases.vnodes, hreleases.pipes, hreleases.ends⟩
    intro g hne hg
    rw [← show (s.setFile f { s.files f with refcount := 0 }).files g =
      s.files g from Function.update_of_ne hne _ _]
    exact hreleases.files g hne hg

end Closing

end Orion
