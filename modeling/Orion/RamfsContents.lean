/-
What the regular files of the in-memory file system hold, byte by byte, and
what each of its operations does to it.  A buffer comes from the heap as it
was left there: nothing clears it.
-/
import Orion.VfsTypes

namespace Orion

open MachineInt

/-- For each file and position the byte stored last, 0 where there is none. -/
abbrev Contents := Nat → Nat → UInt8

/-- A regular ramfs file and its inode. -/
structure Regular (s : Store) (v ino : Nat) : Prop where
  type : (s.vnodes v).type = .file
  ops : (s.vnodes v).ops = .ramfs
  data : (s.vnodes v).data = some ino

/-- A vnode that a path or an open file may lead to. -/
structure Sane (s : Store) (v : Nat) : Prop where
  born : v < s.next
  file : (s.vnodes v).type = .file → (s.vnodes v).ops = .ramfs →
    ∃ ino, Regular s v ino
  notPipe : ¬ (s.vnodes v).ops.IsPipe

/-- Every file has an inode and a buffer of its own, and the bytes up to its
size are the ones last stored. -/
structure FsInv (s : Store) (contents : Contents) : Prop where
  born : ∀ v ino, Regular s v ino → v < s.next ∧ ino < s.next
  unique : ∀ v w ino, Regular s v ino → Regular s w ino → v = w
  bufBorn : ∀ ino b, (s.inodes ino).buf = some b → b < s.next
  bufUnique : ∀ ino ino' b, (s.inodes ino).buf = some b →
    (s.inodes ino').buf = some b → ino = ino'
  empty : ∀ v ino, Regular s v ino → (s.inodes ino).buf = none →
    (s.vnodes v).size = 0 ∧ (s.inodes ino).capacity = 0
  data : ∀ v ino b, Regular s v ino → (s.inodes ino).buf = some b →
    ∀ i < (s.vnodes v).size, s.bytes b i = contents v i
  rest : ∀ v ino, Regular s v ino → ∀ i, (s.vnodes v).size ≤ i →
    contents v i = 0
  blank : ∀ v, (∀ ino, ¬ Regular s v ino) → ∀ i, contents v i = 0
  linked : ∀ v, Linked s v → Sane s v
  files : ∀ f, s.cells f = some .file → Sane s (s.files f).vnode

/-- No regular file has changed, and there is no new one. -/
structure FsSame (s s' : Store) : Prop where
  next : s.next ≤ s'.next
  type : ∀ v, (s'.vnodes v).type = (s.vnodes v).type
  ops : ∀ v, (s'.vnodes v).ops = (s.vnodes v).ops
  data : ∀ v, (s'.vnodes v).data = (s.vnodes v).data
  size : ∀ v ino, Regular s v ino → (s'.vnodes v).size = (s.vnodes v).size
  buf : ∀ ino, (s'.inodes ino).buf = (s.inodes ino).buf
  capacity : ∀ ino, (s'.inodes ino).capacity = (s.inodes ino).capacity
  bytes : s'.bytes = s.bytes

/-- There is no new path and no new open file either. -/
structure FsStill (s s' : Store) : Prop extends FsSame s s' where
  linked : ∀ v, Linked s' v → Linked s v
  files : ∀ f, s'.cells f = some .file → s.cells f = some .file ∧
    (s'.files f).vnode = (s.files f).vnode

section Frames

variable {s s' s'' : Store} {contents : Contents} {v ino : Nat}

theorem regular_congr (htype : (s'.vnodes v).type = (s.vnodes v).type)
    (hops : (s'.vnodes v).ops = (s.vnodes v).ops)
    (hdata : (s'.vnodes v).data = (s.vnodes v).data) :
    Regular s' v ino ↔ Regular s v ino := by
  constructor
  · rintro ⟨htype', hops', hdata'⟩
    exact ⟨htype ▸ htype', hops ▸ hops', hdata ▸ hdata'⟩
  · rintro ⟨htype', hops', hdata'⟩
    exact ⟨htype.trans htype', hops.trans hops', hdata.trans hdata'⟩

theorem FsSame.regular_iff (hsame : FsSame s s') :
    Regular s' v ino ↔ Regular s v ino :=
  regular_congr (hsame.type v) (hsame.ops v) (hsame.data v)

theorem FsSame.refl (s : Store) : FsSame s s :=
  ⟨Nat.le_refl _, fun _ => rfl, fun _ => rfl, fun _ => rfl, fun _ _ _ => rfl,
    fun _ => rfl, fun _ => rfl, rfl⟩

theorem FsSame.trans (hfirst : FsSame s s') (hsecond : FsSame s' s'') :
    FsSame s s'' where
  next := hfirst.next.trans hsecond.next
  type v := (hsecond.type v).trans (hfirst.type v)
  ops v := (hsecond.ops v).trans (hfirst.ops v)
  data v := (hsecond.data v).trans (hfirst.data v)
  size v ino hregular := (hsecond.size v ino
    (hfirst.regular_iff.mpr hregular)).trans (hfirst.size v ino hregular)
  buf ino := (hsecond.buf ino).trans (hfirst.buf ino)
  capacity ino := (hsecond.capacity ino).trans (hfirst.capacity ino)
  bytes := hsecond.bytes.trans hfirst.bytes

theorem FsStill.refl (s : Store) : FsStill s s :=
  ⟨FsSame.refl s, fun _ h => h, fun _ h => ⟨h, rfl⟩⟩

theorem FsStill.trans (hfirst : FsStill s s') (hsecond : FsStill s' s'') :
    FsStill s s'' where
  toFsSame := hfirst.toFsSame.trans hsecond.toFsSame
  linked v hlinked := hfirst.linked v (hsecond.linked v hlinked)
  files f hfile := by
    obtain ⟨hfile', hvnode'⟩ := hsecond.files f hfile
    obtain ⟨hfile'', hvnode''⟩ := hfirst.files f hfile'
    exact ⟨hfile'', hvnode'.trans hvnode''⟩

theorem FsSame.sane (hsame : FsSame s s') (hsane : Sane s v) : Sane s' v where
  born := Nat.lt_of_lt_of_le hsane.born hsame.next
  file htype hops := by
    rw [hsame.type] at htype
    rw [hsame.ops] at hops
    obtain ⟨ino, hregular⟩ := hsane.file htype hops
    exact ⟨ino, hsame.regular_iff.mpr hregular⟩
  notPipe := by
    rw [hsame.ops]
    exact hsane.notPipe

/-- The invariant follows if the new paths and the new open files lead to sane
vnodes. -/
theorem FsInv.same (hinv : FsInv s contents) (hsame : FsSame s s')
    (hlinked : ∀ v, Linked s' v → Sane s' v)
    (hfiles : ∀ f, s'.cells f = some .file → Sane s' (s'.files f).vnode) :
    FsInv s' contents where
  born v ino hregular := by
    obtain ⟨hv, hino⟩ := hinv.born v ino (hsame.regular_iff.mp hregular)
    exact ⟨Nat.lt_of_lt_of_le hv hsame.next,
      Nat.lt_of_lt_of_le hino hsame.next⟩
  unique v w ino hv hw := hinv.unique v w ino (hsame.regular_iff.mp hv)
    (hsame.regular_iff.mp hw)
  bufBorn ino b hbuf := by
    rw [hsame.buf] at hbuf
    exact Nat.lt_of_lt_of_le (hinv.bufBorn ino b hbuf) hsame.next
  bufUnique ino ino' b hbuf hbuf' := by
    rw [hsame.buf] at hbuf hbuf'
    exact hinv.bufUnique ino ino' b hbuf hbuf'
  empty v ino hregular hbuf := by
    have hold := hsame.regular_iff.mp hregular
    rw [hsame.buf] at hbuf
    rw [hsame.size v ino hold, hsame.capacity]
    exact hinv.empty v ino hold hbuf
  data v ino b hregular hbuf i hi := by
    have hold := hsame.regular_iff.mp hregular
    rw [hsame.buf] at hbuf
    rw [hsame.size v ino hold] at hi
    rw [hsame.bytes]
    exact hinv.data v ino b hold hbuf i hi
  rest v ino hregular i hi := by
    have hold := hsame.regular_iff.mp hregular
    rw [hsame.size v ino hold] at hi
    exact hinv.rest v ino hold i hi
  blank v hnone :=
    hinv.blank v fun ino hold => hnone ino (hsame.regular_iff.mpr hold)
  linked := hlinked
  files := hfiles

theorem FsInv.still (hinv : FsInv s contents) (hstill : FsStill s s') :
    FsInv s' contents := by
  apply hinv.same hstill.toFsSame
  · intro v hlinked
    exact hstill.sane (hinv.linked v (hstill.linked v hlinked))
  · intro f hfile
    obtain ⟨hold, hvnode⟩ := hstill.files f hfile
    rw [hvnode]
    exact hstill.sane (hinv.files f hold)

end Frames

section Primitives

variable {s : Store} {contents : Contents}

theorem refuse_still (s : Store) : FsStill s s.refuse :=
  ⟨⟨Nat.le_refl _, fun _ => rfl, fun _ => rfl, fun _ => rfl, fun _ _ _ => rfl,
    fun _ => rfl, fun _ => rfl, rfl⟩, fun _ h => h, fun _ h => ⟨h, rfl⟩⟩

theorem grant_same (s : Store) (kind : ObjKind) : FsSame s (s.grant kind) :=
  ⟨Nat.le_succ _, fun _ => rfl, fun _ => rfl, fun _ => rfl, fun _ _ _ => rfl,
    fun _ => rfl, fun _ => rfl, rfl⟩

theorem grant_still (s : Store) {kind : ObjKind} (hkind : kind ≠ .file) :
    FsStill s (s.grant kind) :=
  ⟨grant_same s kind, fun _ h => h,
    fun _ hfile => ⟨grant_cells_some hkind hfile, rfl⟩⟩

theorem kfree_still (s : Store) (ref : Nat) : FsStill s (s.kfree ref) :=
  ⟨⟨Nat.le_refl _, fun _ => rfl, fun _ => rfl, fun _ => rfl,
    fun _ _ _ => rfl, fun _ => rfl, fun _ => rfl, rfl⟩, fun _ h => h,
    fun _ hfile => ⟨kfree_cells_some hfile, rfl⟩⟩

theorem setFile_still {f : Nat} {file : File}
    (hvnode : file.vnode = (s.files f).vnode) : FsStill s (s.setFile f file) := by
  refine ⟨⟨Nat.le_refl _, fun _ => rfl, fun _ => rfl, fun _ => rfl,
    fun _ _ _ => rfl, fun _ => rfl, fun _ => rfl, rfl⟩, fun _ h => h,
    fun f' hfile => ⟨hfile, ?_⟩⟩
  by_cases heq : f' = f
  · simp only [heq, Store.setFile, Function.update_self, hvnode]
  · simp only [Store.setFile, Function.update_of_ne heq]

/-- A count changes, or the size of something that is not a regular file. -/
theorem setVnode_still {v : Nat} {vnode : Vnode}
    (htype : vnode.type = (s.vnodes v).type)
    (hops : vnode.ops = (s.vnodes v).ops)
    (hdata : vnode.data = (s.vnodes v).data)
    (hsize : ∀ ino, Regular s v ino → vnode.size = (s.vnodes v).size) :
    FsStill s (s.setVnode v vnode) := by
  have hvnodes : ∀ {α : Type} (field : Vnode → α),
      field vnode = field (s.vnodes v) →
      ∀ w, field ((s.setVnode v vnode).vnodes w) = field (s.vnodes w) := by
    intro α field hfield w
    by_cases heq : w = v
    · simp only [heq, Store.setVnode, Function.update_self, hfield]
    · simp only [Store.setVnode, Function.update_of_ne heq]
  refine ⟨⟨Nat.le_refl _, hvnodes Vnode.type htype, hvnodes Vnode.ops hops,
    hvnodes Vnode.data hdata, fun w ino hregular => ?_, fun _ => rfl,
    fun _ => rfl, rfl⟩, fun _ h => h, fun _ h => ⟨h, rfl⟩⟩
  by_cases heq : w = v
  · rw [heq] at hregular
    exact hvnodes Vnode.size (hsize ino hregular) w
  · simp only [Store.setVnode, Function.update_of_ne heq]

end Primitives

section Creation

variable {s t : Store} {contents : Contents} {v : Nat} {made : List Ref}

theorem Sane.adds (hsane : Sane s v) (hadds : Adds s t) : Sane t v := by
  have hold := hadds.old v hsane.born
  refine ⟨hsane.born.trans_le hadds.next, ?_, by rw [hold]; exact hsane.notPipe⟩
  rw [hold]
  intro htype hops
  obtain ⟨ino, hregular⟩ := hsane.file htype hops
  exact ⟨ino, (regular_congr (by rw [hold]) (by rw [hold])
    (by rw [hold])).mpr hregular⟩

/-- What is created leaves the invariant as it is: an old file keeps its inode,
and a new one has an empty inode of its own. -/
theorem FsInv.adds (hinv : FsInv s contents) (hadds : Adds s t)
    (hnew : ∀ v ino, Regular t v ino → Regular s v ino ∨
      (s.next ≤ v ∧ v + 1 = t.next ∧ s.next ≤ ino ∧ ino < t.next ∧
        (t.inodes ino).buf = none ∧ (t.inodes ino).capacity = 0))
    (hmade : ∀ v ∈ made, Sane s v)
    (hlinked : ∀ v, Linked t v → Linked s v ∨ v ∈ made)
    (hcells : ∀ f, t.cells f = some .file → s.cells f = some .file) :
    FsInv t contents := by
  have hkept : ∀ {v ino}, Regular s v ino → Regular t v ino := by
    intro v ino hregular
    have hold := hadds.old v (hinv.born v ino hregular).1
    exact (regular_congr (by rw [hold]) (by rw [hold]) (by rw [hold])).mpr
      hregular
  have hvnode : ∀ {v ino}, Regular s v ino → t.vnodes v = s.vnodes v :=
    fun hregular => hadds.old _ (hinv.born _ _ hregular).1
  have hinode : ∀ {v ino}, Regular s v ino →
      (t.inodes ino).buf = (s.inodes ino).buf ∧
        (t.inodes ino).capacity = (s.inodes ino).capacity :=
    fun hregular => (hadds.inodes _).resolve_right fun hfresh =>
      absurd (hinv.born _ _ hregular).2 (Nat.not_lt.mpr hfresh.1)
  have hbuf : ∀ {ino b}, (t.inodes ino).buf = some b →
      (s.inodes ino).buf = some b := by
    intro ino b hb
    rcases hadds.inodes ino with ⟨hsame, -⟩ | ⟨-, hnone, -⟩
    · exact hsame.symm.trans hb
    · cases hnone.symm.trans hb
  have hfresh : ∀ {v}, s.next ≤ v → ∀ ino, ¬ Regular s v ino :=
    fun hle ino hregular => absurd (hinv.born _ ino hregular).1
      (Nat.not_lt.mpr hle)
  constructor
  · intro v ino h
    rcases hnew v ino h with hold | ⟨-, hv, -, hino, -⟩
    · exact ⟨(hinv.born v ino hold).1.trans_le hadds.next,
        (hinv.born v ino hold).2.trans_le hadds.next⟩
    · exact ⟨by omega, hino⟩
  · intro v w ino hv hw
    rcases hnew v ino hv with hv | ⟨-, hlast, hino, -⟩
    · rcases hnew w ino hw with hw | ⟨-, -, hino, -⟩
      · exact hinv.unique v w ino hv hw
      · exact absurd (hinv.born v ino hv).2 (Nat.not_lt.mpr hino)
    · rcases hnew w ino hw with hw | ⟨-, hlast', -⟩
      · exact absurd (hinv.born w ino hw).2 (Nat.not_lt.mpr hino)
      · omega
  · exact fun ino b hb => (hinv.bufBorn ino b (hbuf hb)).trans_le hadds.next
  · exact fun ino ino' b hb hb' => hinv.bufUnique ino ino' b (hbuf hb) (hbuf hb')
  · intro v ino h hnone
    rcases hnew v ino h with hold | ⟨hv, -, -, -, -, hcapacity⟩
    · rw [(hinode hold).1] at hnone
      rw [hvnode hold, (hinode hold).2]
      exact hinv.empty v ino hold hnone
    · refine ⟨(hadds.new v hv).resolve_left fun hsame => ?_, hcapacity⟩
      exact hfresh hv ino ((regular_congr (by rw [hsame]) (by rw [hsame])
        (by rw [hsame])).mp h)
  · intro v ino b h hb
    rcases hnew v ino h with hold | ⟨-, -, -, -, hnone, -⟩
    · rw [hvnode hold, hadds.bytes]
      exact hinv.data v ino b hold (hbuf hb)
    · cases hnone.symm.trans hb
  · intro v ino h
    rcases hnew v ino h with hold | ⟨hv, -⟩
    · rw [hvnode hold]
      exact hinv.rest v ino hold
    · exact fun i _ => hinv.blank v (hfresh hv) i
  · exact fun v hnone => hinv.blank v fun ino h => hnone ino (hkept h)
  · exact fun v hv => ((hlinked v hv).elim (hinv.linked v) (hmade v)).adds hadds
  · intro f hf
    rw [hadds.files]
    exact (hinv.files f (hcells f hf)).adds hadds

theorem Linked.newInode (hlinked : Linked s.newInode v) : Linked s v := by
  rcases hlinked with hmount | ⟨other, entry, hmem, rfl⟩
  · exact .inl hmount
  · by_cases hother : other = s.next
    · simp only [hother, Store.newInode, Store.setInode,
        Function.update_self] at hmem
      cases hmem
    · simp only [Store.newInode, Store.setInode,
        Function.update_of_ne hother] at hmem
      exact .inr ⟨other, entry, hmem, rfl⟩

theorem Build.fsInv {made' : List Ref} (hbuild : Build made s made' t)
    (hinv : FsInv s contents) (hmade : ∀ v ∈ made, Sane s v) :
    FsInv t contents ∧ ∀ v ∈ made', Sane t v := by
  have hadds := hbuild.adds
  have hold : ∀ v ∈ made, Sane t v := fun v hv => (hmade v hv).adds hadds
  have hnode (type : VnodeType) : FsInv (s.newNode type) contents := by
    refine hinv.adds ((newInode_adds s).trans (newVnode_adds _ rfl))
      (fun v ino h => ?_) hmade (fun v hv => .inl (Linked.newInode hv))
      fun f hf => grant_cells_some (by decide) (grant_cells_some (by decide) hf)
    by_cases hv : v = s.next + 1
    · have hdata := h.data
      rw [hv, newNode_vnode] at hdata
      obtain rfl := Option.some.inj hdata
      rw [newNode_inode, hv]
      exact .inr ⟨Nat.le_succ _, rfl, Nat.le_refl _,
        Nat.lt_succ_of_lt (Nat.lt_succ_self _), rfl, rfl⟩
    · have hsame := Function.update_of_ne hv
        ⟨type, 0, 0, .ramfs, some s.next⟩ s.vnodes
      exact .inl ((regular_congr (congrArg Vnode.type hsame)
        (congrArg Vnode.ops hsame) (congrArg Vnode.data hsame)).mp h)
  cases hbuild with
  | refuse => exact ⟨hinv.still (refuse_still s), hold⟩
  | lost =>
      refine ⟨hinv.adds hadds (fun v ino h => .inl ⟨h.type, h.ops, h.data⟩) hmade
        (fun v hv => .inl ?_) fun f hf => ?_, hold⟩
      · exact Linked.newInode hv
      · exact grant_cells_some (by decide) (kfree_cells_some hf)
  | node type =>
      refine ⟨hnode type, List.forall_mem_cons.mpr ⟨?_, hold⟩⟩
      refine ⟨Nat.lt_succ_self _, fun htype _ => ⟨s.next, htype, ?_, ?_⟩, ?_⟩
      all_goals rw [newNode_vnode]
      simp [VfsOps.IsPipe]
  | drop type =>
      exact ⟨(hnode type).still ((refuse_still _).trans
        ((kfree_still _ _).trans (kfree_still _ _))), hold⟩
  | @device ops hpipe hramfs =>
      have hself : (s.newVnode ⟨.dev, 0, 0, ops, none⟩).vnodes s.next =
          ⟨.dev, 0, 0, ops, none⟩ := Function.update_self ..
      refine ⟨hinv.adds hadds (fun v ino h => .inl ?_) hmade (fun _ => .inl)
        fun f => grant_cells_some (by decide), List.forall_mem_cons.mpr ⟨?_, hold⟩⟩
      · have hv : v ≠ s.next := by
          rintro rfl
          have hdata := h.data
          rw [hself] at hdata
          cases hdata
        have hsame := Function.update_of_ne hv ⟨.dev, 0, 0, ops, none⟩ s.vnodes
        exact (regular_congr (congrArg Vnode.type hsame)
          (congrArg Vnode.ops hsame) (congrArg Vnode.data hsame)).mp h
      · refine ⟨Nat.lt_succ_self _, ?_, ?_⟩
        · rw [hself]
          rintro ⟨⟩
        · rw [hself]
          exact hpipe
  | entry dir name hchild =>
      refine ⟨hinv.adds hadds (fun v ino h => .inl ⟨h.type, h.ops, h.data⟩) hmade
        ?_ fun f => grant_cells_some (by decide), hold⟩
      rintro v (hmount | ⟨other, entry, hmem, rfl⟩)
      · exact .inl (.inl hmount)
      by_cases hother : other = inodeOf s dir
      · simp only [hother, Store.newEntry, Store.setInode,
          Function.update_self] at hmem
        rcases List.mem_cons.mp hmem with rfl | hmem
        · exact .inr hchild
        · exact .inl (.inr ⟨_, entry, hmem, rfl⟩)
      · simp only [Store.newEntry, Store.setInode,
          Function.update_of_ne hother] at hmem
        exact .inl (.inr ⟨other, entry, hmem, rfl⟩)
  | mount root hmounts =>
      refine ⟨hinv.adds hadds (fun v ino h => .inl ⟨h.type, h.ops, h.data⟩) hmade
        ?_ fun _ => id, hold⟩
      rintro v (⟨mount, hmem, rfl⟩ | hentry)
      · exact (hmounts mount hmem).imp_left fun h => .inl ⟨mount, h, rfl⟩
      · exact .inl (.inr hentry)
  | streams =>
      exact ⟨hinv.adds hadds (fun v ino h => .inl ⟨h.type, h.ops, h.data⟩) hmade
        (fun _ => .inl) fun _ => id, hold⟩

theorem Builds.fsInv (hbuilds : Builds s made t) (hinv : FsInv s contents) :
    FsInv t contents ∧ ∀ v ∈ made, Sane t v := by
  induction hbuilds with
  | start => exact ⟨hinv, nofun⟩
  | step _ hstep ih => exact hstep.fsInv ih.1 ih.2

/-- The invariant, and a result that is a sane vnode if it is one. -/
structure Yields (contents : Contents) (result : Option Ref × Store) :
    Prop where
  inv : FsInv result.2 contents
  sane : ∀ v ∈ result.1, Sane result.2 v

theorem Yields.none {s : Store} (hinv : FsInv s contents) :
    Yields contents (none, s) :=
  ⟨hinv, fun _ hv => by cases hv⟩

theorem ramfsCreate_yields (hinv : FsInv s contents) (dir : Ref)
    (name : List UInt8) (type : VnodeType) :
    Yields contents (ramfsCreate s dir name type) := by
  obtain ⟨made, hbuilds, hfound⟩ := ramfsCreate_builds .start dir name type
  obtain ⟨hinv', hmade⟩ := hbuilds.fsInv hinv
  refine ⟨hinv', fun v hv => ?_⟩
  rcases hfound v hv with hnew | hlinked
  · exact hmade v hnew
  · exact (hinv.linked v hlinked).adds hbuilds.adds

theorem vfsMkdir_fsInv (hinv : FsInv s contents) (path : List UInt8) :
    FsInv (vfsMkdir s path).2 contents := by
  obtain ⟨made, hbuilds⟩ := vfsMkdir_builds .start path
  exact (hbuilds.fsInv hinv).1

end Creation

section Changes

variable {s t : Store} {contents : Contents} {v ino : Nat}

/-- Only one file may be different, and it still has its inode. -/
structure FileChange (s t : Store) (v ino : Nat) : Prop where
  old : Regular s v ino
  new : Regular t v ino
  next : s.next ≤ t.next
  vnodes : ∀ w, w ≠ v → t.vnodes w = s.vnodes w
  inodes : ∀ other, other ≠ ino → t.inodes other = s.inodes other

theorem FileChange.regular_iff (hchange : FileChange s t v ino) {w other : Nat} :
    Regular t w other ↔ Regular s w other := by
  by_cases heq : w = v
  · subst heq
    exact regular_congr (hchange.new.type.trans hchange.old.type.symm)
      (hchange.new.ops.trans hchange.old.ops.symm)
      (hchange.new.data.trans hchange.old.data.symm)
  · apply regular_congr <;> rw [hchange.vnodes w heq]

/-- A regular file is the changed one, or another one with another inode. -/
theorem FileChange.regular_cases (hchange : FileChange s t v ino)
    (hinv : FsInv s contents) {w other : Nat} (hregular : Regular t w other) :
    (w = v ∧ other = ino) ∨ (w ≠ v ∧ other ≠ ino ∧ Regular s w other) := by
  have hold := hchange.regular_iff.mp hregular
  by_cases heq : w = v
  · rw [heq] at hold
    exact .inl ⟨heq, Option.some.inj (hold.data.symm.trans hchange.old.data)⟩
  · exact .inr ⟨heq,
      fun hino => heq (hinv.unique w v ino (hino ▸ hold) hchange.old), hold⟩

theorem FileChange.sane (hchange : FileChange s t v ino) {w : Nat}
    (hsane : Sane s w) : Sane t w := by
  refine ⟨Nat.lt_of_lt_of_le hsane.born hchange.next, ?_, ?_⟩
  · intro htype hops
    by_cases heq : w = v
    · exact ⟨ino, heq ▸ hchange.new⟩
    · rw [hchange.vnodes w heq] at htype hops
      obtain ⟨other, hother⟩ := hsane.file htype hops
      exact ⟨other, hchange.regular_iff.mpr hother⟩
  · by_cases heq : w = v
    · rw [heq, hchange.new.ops]
      simp [VfsOps.IsPipe]
    · rw [hchange.vnodes w heq]
      exact hsane.notPipe

theorem FileChange.linked (hchange : FileChange s t v ino)
    (hchildren : (t.inodes ino).children = (s.inodes ino).children)
    (hmounts : t.mounts = s.mounts) {w : Nat} (hlinked : Linked t w) :
    Linked s w := by
  rcases hlinked with hmount | ⟨other, entry, hmem, hentry⟩
  · rw [hmounts] at hmount
    exact .inl hmount
  · refine .inr ⟨other, entry, ?_, hentry⟩
    by_cases heq : other = ino
    · rw [heq, hchildren] at hmem
      exact heq ▸ hmem
    · rwa [hchange.inodes other heq] at hmem

/-- One file gets another buffer, size or contents. -/
theorem FsInv.change (hinv : FsInv s contents) (hchange : FileChange s t v ino)
    (hchildren : (t.inodes ino).children = (s.inodes ino).children)
    (hmounts : t.mounts = s.mounts)
    (hfiles : ∀ f, t.cells f = some .file → s.cells f = some .file ∧
      (t.files f).vnode = (s.files f).vnode)
    (hbuf : ∀ b, (t.inodes ino).buf = some b →
      b < t.next ∧ ∀ other, other ≠ ino → (s.inodes other).buf ≠ some b)
    (hbytes : ∀ other b, other ≠ ino → (s.inodes other).buf = some b →
      t.bytes b = s.bytes b)
    {held : Nat → UInt8}
    (hempty : (t.inodes ino).buf = none →
      (t.vnodes v).size = 0 ∧ (t.inodes ino).capacity = 0)
    (hdata : ∀ b, (t.inodes ino).buf = some b → ∀ i < (t.vnodes v).size,
      t.bytes b i = held i)
    (hrest : ∀ i, (t.vnodes v).size ≤ i → held i = 0) :
    FsInv t (Function.update contents v held) := by
  have hpart : ∀ {other b}, other ≠ ino → (t.inodes other).buf = some b →
      (s.inodes other).buf = some b := by
    intro other b hne hb
    rwa [hchange.inodes other hne] at hb
  constructor
  · intro w other h
    obtain ⟨hw, hother⟩ := hinv.born w other (hchange.regular_iff.mp h)
    exact ⟨Nat.lt_of_lt_of_le hw hchange.next,
      Nat.lt_of_lt_of_le hother hchange.next⟩
  · intro w w' other h h'
    exact hinv.unique w w' other (hchange.regular_iff.mp h)
      (hchange.regular_iff.mp h')
  · intro other b hb
    by_cases heq : other = ino
    · exact (hbuf b (heq ▸ hb)).1
    · exact Nat.lt_of_lt_of_le (hinv.bufBorn other b (hpart heq hb))
        hchange.next
  · intro other other' b hb hb'
    by_cases heq : other = ino
    · by_cases heq' : other' = ino
      · rw [heq, heq']
      · exact absurd (hpart heq' hb') ((hbuf b (heq ▸ hb)).2 other' heq')
    · by_cases heq' : other' = ino
      · exact absurd (hpart heq hb) ((hbuf b (heq' ▸ hb')).2 other heq)
      · exact hinv.bufUnique other other' b (hpart heq hb) (hpart heq' hb')
  · intro w other h hb
    rcases hchange.regular_cases hinv h with ⟨rfl, rfl⟩ | ⟨hw, hne, h'⟩
    · exact hempty hb
    · rw [hchange.inodes other hne] at hb ⊢
      rw [hchange.vnodes w hw]
      exact hinv.empty w other h' hb
  · intro w other b h hb i hi
    rcases hchange.regular_cases hinv h with ⟨rfl, rfl⟩ | ⟨hw, hne, h'⟩
    · rw [Function.update_self]
      exact hdata b hb i hi
    · have hb' := hpart hne hb
      rw [hchange.vnodes w hw] at hi
      rw [Function.update_of_ne hw, hbytes other b hne hb']
      exact hinv.data w other b h' hb' i hi
  · intro w other h i hi
    rcases hchange.regular_cases hinv h with ⟨rfl, rfl⟩ | ⟨hw, -, h'⟩
    · rw [Function.update_self]
      exact hrest i hi
    · rw [hchange.vnodes w hw] at hi
      rw [Function.update_of_ne hw]
      exact hinv.rest w other h' i hi
  · intro w hall i
    have hw : w ≠ v := fun heq => hall ino (heq ▸ hchange.new)
    rw [Function.update_of_ne hw]
    exact hinv.blank w (fun other h => hall other (hchange.regular_iff.mpr h)) i
  · intro w hw
    exact hchange.sane (hinv.linked w (hchange.linked hchildren hmounts hw))
  · intro f hf
    obtain ⟨hf', hvnode⟩ := hfiles f hf
    rw [hvnode]
    exact hchange.sane (hinv.files f hf')

/-- `O_TRUNC` drops what has been stored. -/
def truncated (contents : Contents) (v : Nat) (flags : UInt32) : Contents :=
  if flags &&& oTrunc ≠ 0 then Function.update contents v fun _ => 0
  else contents

theorem FsInv.truncated_of_not (hinv : FsInv s contents)
    (hnot : ∀ ino, ¬ Regular s v ino) (flags : UInt32) :
    truncated contents v flags = contents := by
  unfold truncated
  split_ifs
  · rw [← show contents v = fun _ => 0 from funext (hinv.blank v hnot),
      Function.update_eq_self]
  · rfl

theorem ramfsOpen_fsInv (hinv : FsInv s contents) (hsane : Sane s v)
    (hops : (s.vnodes v).ops = .ramfs) (flags : UInt32) :
    FsInv (ramfsOpen s v flags) (truncated contents v flags) ∧
      Sane (ramfsOpen s v flags) v := by
  have hopen := ramfsOpen_truncates s v flags
  generalize ramfsOpen s v flags = opened at hopen ⊢
  cases hopen with
  | not hnot =>
      by_cases htype : (s.vnodes v).type = .file
      · rw [truncated, if_neg fun h => hnot ⟨h, htype⟩]
        exact ⟨hinv, hsane⟩
      · rw [hinv.truncated_of_not fun ino h => htype h.type]
        exact ⟨hinv, hsane⟩
  | empties cells freed htrunc htype hcells =>
      obtain ⟨ino, hregular⟩ := hsane.file htype hops
      have hino : inodeOf s v = ino := by rw [inodeOf, hregular.data]; rfl
      rw [hino, truncated, if_pos htrunc]
      generalize ht : Store.setInode { s.setVnode v { s.vnodes v with size := 0 }
        with cells := cells, freed := freed } ino
        { s.inodes ino with capacity := 0, buf := none } = t
      have hvnode : t.vnodes v = { s.vnodes v with size := 0 } := by
        rw [← ht]
        exact Function.update_self ..
      have hinode : t.inodes ino =
          { s.inodes ino with capacity := 0, buf := none } := by
        rw [← ht]
        exact Function.update_self ..
      have hnew : Regular t v ino :=
        ⟨(congrArg Vnode.type hvnode).trans hregular.type,
          (congrArg Vnode.ops hvnode).trans hregular.ops,
          (congrArg Vnode.data hvnode).trans hregular.data⟩
      have hnext : t.next = s.next := by rw [← ht]; rfl
      refine ⟨hinv.change ⟨hregular, hnew, hnext.ge, ?_, ?_⟩
        ?_ ?_ ?_ ?_ ?_ ?_ ?_ ?_, ⟨?_, fun _ _ => ⟨ino, hnew⟩, ?_⟩⟩
      · intro w hw
        rw [← ht]
        exact Function.update_of_ne hw ..
      · intro other hne
        rw [← ht]
        exact Function.update_of_ne hne ..
      · rw [hinode]
      · rw [← ht]
        rfl
      · intro f hf
        rw [← ht] at hf ⊢
        exact ⟨hcells f .file hf, rfl⟩
      · rw [hinode]
        rintro b ⟨⟩
      · intro other b _ _
        rw [← ht]
        rfl
      · rw [hvnode, hinode]
        exact fun _ => ⟨rfl, rfl⟩
      · rw [hinode]
        rintro b ⟨⟩
      · exact fun _ _ => rfl
      · rw [hnext]
        exact hsane.born
      · rw [hnew.ops]
        simp [VfsOps.IsPipe]

/-- Opening a vnode truncates it if asked to, and makes one more file. -/
theorem vfsOpenVnode_fsInv (hinv : FsInv s contents) (hsane : Sane s v)
    (flags : UInt32) : FsInv (vfsOpenVnode s (some v) flags).2
      (truncated contents v flags) := by
  have hopen : FsInv (backendOpen s v flags) (truncated contents v flags) ∧
      Sane (backendOpen s v flags) v := by
    unfold backendOpen
    split_ifs with hops
    · exact ramfsOpen_fsInv hinv hsane hops flags
    · rw [hinv.truncated_of_not fun ino h => hops h.ops]
      exact ⟨hinv, hsane⟩
  rcases vfsOpenVnode_some s v flags with heq | ⟨offset, heq, -⟩
  · rw [heq]
    exact hopen.1.still (refuse_still _)
  · rw [heq]
    generalize backendOpen s v flags = s₁ at hopen ⊢
    obtain ⟨hinv₁, hsane₁⟩ := hopen
    have hsame : FsSame s₁ ((s₁.grant .file).setFile s₁.next
        ⟨v, offset, flags, 1⟩) :=
      ⟨Nat.le_succ _, fun _ => rfl, fun _ => rfl, fun _ => rfl,
        fun _ _ _ => rfl, fun _ => rfl, fun _ => rfl, rfl⟩
    have hopened := hinv₁.same hsame
      (fun w hw => hsame.sane (hinv₁.linked w hw)) (fun f hf => by
        by_cases hf' : f = s₁.next
        · simp only [hf', Store.setFile, Function.update_self]
          exact hsame.sane hsane₁
        · simp only [Store.setFile, Function.update_of_ne hf']
          simp only [Store.setFile, Store.grant, Function.update_of_ne hf'] at hf
          exact hsame.sane (hinv₁.files f hf))
    exact hopened.still (setVnode_still rfl rfl rfl fun _ _ => rfl)

theorem closeHandler_of_notPipe (hnot : ¬ (s.vnodes v).ops.IsPipe) :
    closeHandler s v = ([], s) := by
  unfold closeHandler
  split
  · rename_i hops
    exact absurd (.inl hops) hnot
  · rename_i hops
    exact absurd (.inr hops) hnot
  · rfl

theorem vfsRelease_still {f : Nat} (hsane : Sane s (s.files f).vnode) :
    FsStill s (vfsRelease s f).2 := by
  unfold vfsRelease
  dsimp only
  rw [closeHandler_of_notPipe hsane.notPipe]
  have hunref : FsStill s (vnodeUnref s (s.files f).vnode) :=
    setVnode_still rfl rfl rfl fun _ _ => rfl
  exact hunref.trans (kfree_still _ f)

theorem vfsClose_still {f : Nat} (hsane : Sane s (s.files f).vnode) :
    FsStill s (vfsClose s f).2 := by
  unfold vfsClose
  dsimp only
  have hset := @setFile_still s f { s.files f with
    refcount := sub32 (s.files f).refcount 1 } rfl
  split_ifs
  · exact hset
  · refine hset.trans (vfsRelease_still ?_)
    simp only [Store.setFile, Function.update_self]
    exact hset.toFsSame.sane hsane

end Changes

section Writing

variable {s t : Store} {contents : Contents} {v ino stop : Nat}

/-- A buffer with room: the file, its bytes and its size are as before. -/
structure Grows (s : Store) (contents : Contents) (v ino : Nat)
    (result : Option Ref) (t : Store) : Prop where
  inv : FsInv t contents
  vnodes : t.vnodes = s.vnodes
  files : t.files = s.files
  buf : ∀ b ∈ result, (t.inodes ino).buf = some b

theorem Grows.regular_iff {result : Option Ref}
    (hgrows : Grows s contents v ino result t) {w other : Nat} :
    Regular t w other ↔ Regular s w other := by
  apply regular_congr <;> rw [hgrows.vnodes]

/-- The file moves into a new buffer. -/
theorem FsInv.newBuffer (hinv : FsInv s contents) (hregular : Regular s v ino)
    {bytes : Nat → UInt8} {cells : Ref → Option ObjKind} {freed : List Ref}
    {capacity : Nat}
    (hcells : ∀ f kind, cells f = some kind →
      ((s.grant .buffer).setBytes s.next bytes).cells f = some kind)
    (hbytes : ∀ i < (s.vnodes v).size, bytes i = contents v i) :
    FsInv (Store.setInode { (s.grant .buffer).setBytes s.next bytes with
      cells := cells, freed := freed } ino
      { s.inodes ino with buf := some s.next, capacity := capacity })
      contents := by
  have hstill := grant_still s (show ObjKind.buffer ≠ .file by decide)
  generalize ht : Store.setInode { (s.grant .buffer).setBytes s.next bytes with
    cells := cells, freed := freed } ino
    { s.inodes ino with buf := some s.next, capacity := capacity } = t
  have hinode : t.inodes ino =
      { s.inodes ino with buf := some s.next, capacity := capacity } := by
    rw [← ht]
    exact Function.update_self ..
  have hvnodes : t.vnodes = s.vnodes := by rw [← ht]; rfl
  have hnext : t.next = s.next + 1 := by rw [← ht]; rfl
  have hnew : Regular t v ino := by
    obtain ⟨htype, hops, hdata⟩ := hregular
    rw [← hvnodes] at htype hops hdata
    exact ⟨htype, hops, hdata⟩
  have hbuf : ∀ b, (t.inodes ino).buf = some b → b = s.next := by
    rw [hinode]
    rintro b ⟨⟩
    rfl
  rw [← Function.update_eq_self v contents]
  refine hinv.change ⟨hregular, hnew, hnext ▸ Nat.le_succ _, ?_, ?_⟩
    ?_ ?_ ?_ ?_ ?_ ?_ ?_ ?_
  · exact fun w _ => congrFun hvnodes w
  · intro other hne
    rw [← ht]
    exact Function.update_of_ne hne ..
  · rw [hinode]
  · rw [← ht]
    rfl
  · intro f hf
    rw [← ht] at hf ⊢
    exact ⟨(hstill.files f (hcells f .file hf)).1, rfl⟩
  · intro b hb
    rw [hbuf b hb, hnext]
    refine ⟨Nat.lt_succ_self _, fun other _ hother => ?_⟩
    exact Nat.lt_irrefl _ (hinv.bufBorn other _ hother)
  · intro other b _ hb
    have hne : b ≠ s.next := fun heq =>
      Nat.lt_irrefl _ (heq ▸ hinv.bufBorn other b hb)
    rw [← ht]
    exact Function.update_of_ne hne ..
  · rw [hinode]
    rintro ⟨⟩
  · intro b hb i hi
    rw [hvnodes] at hi
    rw [hbuf b hb, ← hbytes i hi, ← ht]
    exact congrFun (Function.update_self ..) i
  · intro i hi
    rw [hvnodes] at hi
    exact hinv.rest v ino hregular i hi

theorem ramfsGrow_grows (hinv : FsInv s contents) (hregular : Regular s v ino)
    (hstop : 0 < stop) {result : Option Ref}
    (hgrow : ramfsGrow s v stop = some (result, t)) :
    Grows s contents v ino result t := by
  have hino : inodeOf s v = ino := by rw [inodeOf, hregular.data]; rfl
  cases ramfsGrow_rebuffers hgrow with
  | fits hroom =>
      rw [hino] at hroom ⊢
      cases hbuf : (s.inodes ino).buf with
      | none =>
          have hcapacity := (hinv.empty v ino hregular hbuf).2
          omega
      | some b =>
          refine ⟨hinv, rfl, rfl, ?_⟩
          rintro _ ⟨⟩
          exact hbuf
  | refused => exact ⟨hinv.still (refuse_still s), rfl, rfl, nofun⟩
  | moved capacity bytes cells freed _ _ _ hbytes hcells =>
      rw [hino] at hbytes ⊢
      refine ⟨hinv.newBuffer hregular hcells fun i hi => ?_, rfl, rfl, ?_⟩
      · cases hbuf : (s.inodes ino).buf with
        | none =>
            rw [(hinv.empty v ino hregular hbuf).1] at hi
            exact absurd hi (Nat.not_lt_zero i)
        | some b =>
            rw [hbytes b hbuf i hi]
            exact hinv.data v ino b hregular hbuf i hi
      · rintro _ ⟨⟩
        simp only [Store.setInode, Function.update_self]

/-- A growth that is refused memory leaves the file alone. -/
theorem ramfsGrow_none (hgrow : ramfsGrow s v stop = some (none, t)) :
    t = s.refuse := by
  cases ramfsGrow_rebuffers hgrow with
  | refused => rfl

/-- What a file holds after a write. -/
def stored (held src : Nat → UInt8) (len offset : Nat) : Nat → UInt8 :=
  fun i => if offset ≤ i ∧ i < offset + len then src (i - offset) else held i

/-- The copy into the buffer and the new size. -/
structure Fills (s : Store) (v b : Nat) (src : Nat → UInt8)
    (len offset stop : Nat) (t : Store) : Prop where
  next : t.next = s.next
  cells : t.cells = s.cells
  files : t.files = s.files
  inodes : t.inodes = s.inodes
  mounts : t.mounts = s.mounts
  bytes : t.bytes = Function.update s.bytes b (stored (s.bytes b) src len offset)
  vnode : t.vnodes v = { s.vnodes v with size := max (s.vnodes v).size stop }
  others : ∀ w, w ≠ v → t.vnodes w = s.vnodes w

theorem ramfsFill_fills (s : Store) (v b : Nat) (src : Nat → UInt8)
    (len offset stop : Nat) : Fills s v b src len offset stop
      (ramfsFill s v b src len offset stop) := by
  unfold ramfsFill
  dsimp only
  split_ifs with hgrows
  · change (s.vnodes v).size < stop at hgrows
    refine ⟨rfl, rfl, rfl, rfl, rfl, rfl, ?_, fun w hw => ?_⟩
    · rw [Nat.max_eq_right (Nat.le_of_lt hgrows)]
      exact Function.update_self ..
    · exact Function.update_of_ne hw ..
  · change ¬ (s.vnodes v).size < stop at hgrows
    refine ⟨rfl, rfl, rfl, rfl, rfl, rfl, ?_, fun _ _ => rfl⟩
    rw [Nat.max_eq_left (Nat.le_of_not_lt hgrows)]
    rfl

theorem Fills.regular_iff {b len offset : Nat} {src : Nat → UInt8}
    (hfills : Fills s v b src len offset stop t) {w : Nat} :
    Regular t w ino ↔ Regular s w ino := by
  by_cases hw : w = v
  · subst hw
    apply regular_congr <;> rw [hfills.vnode]
  · apply regular_congr <;> rw [hfills.others w hw]

/-- Whatever the file holds afterwards, the other files are as before. -/
theorem Fills.fsInv_holding {b len offset : Nat} {src held : Nat → UInt8}
    (hfills : Fills s v b src len offset stop t)
    (hinv : FsInv s contents) (hregular : Regular s v ino)
    (hbuf : (s.inodes ino).buf = some b)
    (hdata : ∀ i < max (s.vnodes v).size stop,
      stored (s.bytes b) src len offset i = held i)
    (hrest : ∀ i, max (s.vnodes v).size stop ≤ i → held i = 0) :
    FsInv t (Function.update contents v held) := by
  have hsize : (t.vnodes v).size = max (s.vnodes v).size stop :=
    congrArg Vnode.size hfills.vnode
  have hsame : ∀ b', (t.inodes ino).buf = some b' → b' = b := by
    intro b' hb'
    rw [hfills.inodes, hbuf] at hb'
    exact (Option.some.inj hb').symm
  have hchange : FileChange s t v ino :=
    ⟨hregular, hfills.regular_iff.mpr hregular, hfills.next.ge, hfills.others,
      fun other _ => congrFun hfills.inodes other⟩
  apply hinv.change hchange
  · rw [hfills.inodes]
  · exact hfills.mounts
  · intro f hf
    rw [hfills.cells] at hf
    exact ⟨hf, by rw [hfills.files]⟩
  · intro b' hb'
    rw [hsame b' hb', hfills.next]
    exact ⟨hinv.bufBorn ino b hbuf, fun other hne hother =>
      hne (hinv.bufUnique other ino b hother hbuf)⟩
  · intro other b' hne hb'
    have hb : b' ≠ b := fun heq =>
      hne (hinv.bufUnique other ino b (heq ▸ hb') hbuf)
    rw [hfills.bytes, Function.update_of_ne hb]
  · rw [hfills.inodes, hbuf]
    rintro ⟨⟩
  · intro b' hb' i hi
    rw [hsame b' hb', hfills.bytes, Function.update_self]
    exact hdata i (hsize ▸ hi)
  · intro i hi
    exact hrest i (hsize ▸ hi)

/-- The bytes between the old size and the offset are not touched: they have
to be 0 already. -/
theorem Fills.fsInv {b len offset : Nat} {src : Nat → UInt8}
    (hfills : Fills s v b src len offset (offset + len) t)
    (hinv : FsInv s contents) (hregular : Regular s v ino)
    (hbuf : (s.inodes ino).buf = some b)
    (hhole : ∀ i, (s.vnodes v).size ≤ i → i < offset → s.bytes b i = 0) :
    FsInv t (Function.update contents v
      (stored (contents v) src len offset)) := by
  apply hfills.fsInv_holding hinv hregular hbuf
  · intro i hi
    unfold stored
    split_ifs with hrange
    · rfl
    · -- an old byte, or one of the hole
      rcases Nat.lt_or_ge i (s.vnodes v).size with hlt | hge
      · exact hinv.data v ino b hregular hbuf i hlt
      · rw [hinv.rest v ino hregular i hge]
        exact hhole i hge (by omega)
  · intro i hi
    have hout : ¬ (offset ≤ i ∧ i < offset + len) := by omega
    rw [stored, if_neg hout]
    exact hinv.rest v ino hregular i (by omega)

end Writing

section Setup

variable {s : Store} {contents : Contents}

/-- A store without any object; the bytes of the heap are whatever they
are. -/
theorem fsInv_of_empty (hvnodes : s.vnodes = fun _ => default)
    (hinodes : s.inodes = fun _ => default) (hmounts : s.mounts = [])
    (hcells : s.cells = fun _ => none) : FsInv s fun _ _ => 0 := by
  have hnot : ∀ v ino, ¬ Regular s v ino := by
    rintro v ino ⟨-, -, hdata⟩
    rw [hvnodes] at hdata
    cases hdata
  have hbuf : ∀ ino b, (s.inodes ino).buf ≠ some b := by
    intro ino b hb
    rw [hinodes] at hb
    cases hb
  refine ⟨fun v ino h => absurd h (hnot v ino),
    fun v w ino h => absurd h (hnot v ino), fun ino b h => absurd h (hbuf ino b),
    fun ino _ b h => absurd h (hbuf ino b), fun v ino h => absurd h (hnot v ino),
    fun v ino b h => absurd h (hnot v ino), fun v ino h => absurd h (hnot v ino),
    fun _ _ _ => rfl, ?_, ?_⟩
  · rintro v (⟨mount, hmem, -⟩ | ⟨ino, entry, hmem, -⟩)
    · rw [hmounts] at hmem
      cases hmem
    · rw [hinodes] at hmem
      cases hmem
  · intro f hf
    rw [hcells] at hf
    cases hf

theorem fsInit_fsInv (hinv : FsInv s contents) :
    FsInv (devfsInit (ramfsInit s)) contents := by
  obtain ⟨made, hbuilds⟩ := fsInit_builds s
  exact (hbuilds.fsInv hinv).1

end Setup

end Orion
