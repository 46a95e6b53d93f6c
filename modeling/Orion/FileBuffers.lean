/-
The buffers of regular files.  Capacities are 64 times a power of two, up to
`2 ^ 31`: beyond that the growth loop of `ramfs_write` comes to 0 and never
ends, and an end that wraps at `2 ^ 32` makes it copy past its buffer.
-/
import Orion.AccessModes

namespace Orion

open MachineInt

/-- What the growth loop can come to. -/
def IsCapacity (capacity : Nat) : Prop :=
  capacity = 0 ∨ ∃ j ≤ 25, capacity = 64 * 2 ^ j

section Growth

variable {stop capacity : Nat}

theorem IsCapacity.le (hcapacity : IsCapacity capacity) :
    capacity ≤ 2 ^ 31 := by
  rcases hcapacity with rfl | ⟨j, hj, rfl⟩
  · exact Nat.zero_le _
  · have hpow : 2 ^ j ≤ 2 ^ 25 := Nat.pow_le_pow_right (by decide) hj
    omega

/-- Twice `2 ^ 31` is 0. -/
theorem IsCapacity.double (hcapacity : IsCapacity capacity) :
    IsCapacity (u32 (capacity * 2)) := by
  rcases hcapacity with rfl | ⟨j, hj, rfl⟩
  · exact .inl rfl
  · rcases Nat.eq_or_lt_of_le hj with rfl | hlt
    · exact .inl (by decide)
    · have hnext : IsCapacity (64 * 2 ^ (j + 1)) := .inr ⟨j + 1, hlt, rfl⟩
      have hle := hnext.le
      rw [Nat.mul_assoc, ← pow_succ, u32_of_lt (by omega)]
      exact hnext

theorem IsCapacity.start (hcapacity : IsCapacity capacity) :
    ∃ rest ≤ 25, (if capacity = 0 then 64 else capacity) =
      64 * 2 ^ (25 - rest) := by
  rcases hcapacity with rfl | ⟨j, hj, rfl⟩
  · exact ⟨25, Nat.le_refl _, rfl⟩
  · refine ⟨25 - j, Nat.sub_le _ _, ?_⟩
    rw [if_neg (Nat.mul_ne_zero (by decide) (Nat.two_pow_pos j).ne'),
      Nat.sub_sub_self hj]

/-- A loop that ends has made room. -/
theorem growCapacity_some {fuel grown : Nat} (hcapacity : IsCapacity capacity)
    (hgrow : growCapacity stop fuel capacity = some grown) :
    IsCapacity grown ∧ stop ≤ grown := by
  induction fuel generalizing capacity with
  | zero => cases hgrow
  | succ fuel ih =>
      rw [growCapacity] at hgrow
      split_ifs at hgrow with hmore
      · exact ih hcapacity.double hgrow
      · obtain rfl := Option.some.inj hgrow
        exact ⟨hcapacity, Nat.le_of_not_lt hmore⟩

/-- Up to `2 ^ 31` the loop ends. -/
theorem growCapacity_ends (hstop : stop ≤ 2 ^ 31) {rest fuel : Nat}
    (hrest : rest ≤ 25) (hfuel : rest < fuel) :
    (growCapacity stop fuel (64 * 2 ^ (25 - rest))).isSome := by
  induction rest generalizing fuel with
  | zero =>
      obtain ⟨fuel, rfl⟩ : ∃ m, fuel = m + 1 := ⟨fuel - 1, by omega⟩
      rw [growCapacity, if_neg (by omega)]
      rfl
  | succ rest ih =>
      obtain ⟨fuel, rfl⟩ : ∃ m, fuel = m + 1 := ⟨fuel - 1, by omega⟩
      have hnext : 25 - (rest + 1) + 1 = 25 - rest := by omega
      have hle := IsCapacity.le (.inr ⟨25 - rest, Nat.sub_le _ _, rfl⟩)
      rw [growCapacity]
      split_ifs
      · rw [Nat.mul_assoc, ← pow_succ, hnext, u32_of_lt (by omega)]
        exact ih (by omega) (by omega)
      · rfl

/-- The loop ends with room for `offset + len` bytes exactly if that is at most
`2 ^ 31`. -/
theorem growth_iff {offset len : Nat} (hcapacity : IsCapacity capacity) :
    (∃ fuel grown, growCapacity (u32 (offset + len)) fuel
        (if capacity = 0 then 64 else capacity) = some grown ∧
      offset + len ≤ grown) ↔ offset + len ≤ 2 ^ 31 := by
  obtain ⟨rest, hrest, hstart⟩ := hcapacity.start
  rw [hstart]
  have hvalid : IsCapacity (64 * 2 ^ (25 - rest)) :=
    .inr ⟨_, Nat.sub_le _ _, rfl⟩
  constructor
  · rintro ⟨fuel, grown, hgrow, henough⟩
    exact henough.trans (growCapacity_some hvalid hgrow).1.le
  · intro hsmall
    have hstop : u32 (offset + len) = offset + len := u32_of_lt (by omega)
    have hends := growCapacity_ends (hstop.trans_le hsmall) hrest
      (Nat.lt_succ_self rest)
    obtain ⟨grown, hgrow⟩ := Option.isSome_iff_exists.mp hends
    exact ⟨_, grown, hgrow, hstop ▸ (growCapacity_some hvalid hgrow).2⟩

end Growth

/-- Every inode has a capacity of the growth loop. -/
def Doubled (s : Store) : Prop := ∀ ino, IsCapacity (s.inodes ino).capacity

section Capacities

variable {s s' : Store}

/-- An inode keeps its buffer, or it has none. -/
def KeepsBuffer (old new : Inode) : Prop :=
  (new.buf = none ∧ new.capacity = 0) ∨
    (new.buf = old.buf ∧ new.capacity = old.capacity)

theorem Adds.buffers (hadds : Adds s s') (ino : Nat) :
    KeepsBuffer (s.inodes ino) (s'.inodes ino) :=
  (hadds.inodes ino).symm.imp_left And.right

theorem Doubled.of_eq (hdoubled : Doubled s) (hinodes : s'.inodes = s.inodes) :
    Doubled s' := by
  intro ino
  rw [hinodes]
  exact hdoubled ino

theorem Doubled.keeps (hdoubled : Doubled s)
    (hkeeps : ∀ ino, KeepsBuffer (s.inodes ino) (s'.inodes ino)) :
    Doubled s' := by
  intro ino
  rcases hkeeps ino with ⟨-, hzero⟩ | ⟨-, hsame⟩
  · exact .inl hzero
  · rw [hsame]
    exact hdoubled ino

theorem vfsClose_inodes (s : Store) (f : Nat) :
    (vfsClose s f).2.inodes = s.inodes := by
  have hclose : ∀ (s : Store) v, (closeHandler s v).2.inodes = s.inodes := by
    intro s v
    have hpipe : ∀ closeEnd, (pipeClose s v closeEnd).2.inodes = s.inodes := by
      intro closeEnd
      unfold pipeClose pipeMaybeFree
      dsimp only
      split
      · rfl
      · split_ifs <;> rfl
    unfold closeHandler
    split
    · exact hpipe _
    · exact hpipe _
    · rfl
  unfold vfsClose vfsRelease
  dsimp only
  split_ifs
  · rfl
  · exact hclose _ _

/-- A growth that ends has made room, and takes no capacity away. -/
theorem Rebuffers.capacity {v stop : Nat} {buf : Option Ref}
    (hgrow : Rebuffers s v stop buf s') (hdoubled : Doubled s) :
    Doubled s' ∧ (∀ ino, (s.inodes ino).capacity ≤ (s'.inodes ino).capacity) ∧
      (buf.isSome → stop ≤ (s'.inodes (inodeOf s v)).capacity) := by
  cases hgrow with
  | fits hroom => exact ⟨hdoubled, fun _ => Nat.le_refl _, fun _ => hroom⟩
  | refused => exact ⟨hdoubled, fun _ => Nat.le_refl _, nofun⟩
  | moved capacity bytes cells freed hroom _ hloop =>
      obtain ⟨rest, -, hstart⟩ := (hdoubled (inodeOf s v)).start
      rw [hstart] at hloop
      obtain ⟨hcapacity, hstop⟩ :=
        growCapacity_some (.inr ⟨_, Nat.sub_le _ rest, rfl⟩) hloop
      refine ⟨?_, ?_, fun _ => ?_⟩
      · exact (Function.forall_update_iff s.inodes
          fun _ new => IsCapacity new.capacity).mpr
            ⟨hcapacity, fun ino _ => hdoubled ino⟩
      · exact (Function.forall_update_iff s.inodes
          fun ino new => (s.inodes ino).capacity ≤ new.capacity).mpr
            ⟨hroom.le.trans hstop, fun _ _ => Nat.le_refl _⟩
      · change stop ≤ (Function.update s.inodes (inodeOf s v) _
          (inodeOf s v)).capacity
        rw [Function.update_self]
        exact hstop

theorem Transfers.doubled {pipes : Prop} (htransfers : Transfers pipes s s')
    (hdoubled : Doubled s) : Doubled s' := by
  refine htransfers.lift (R := fun _ t => Doubled t) hdoubled
    fun t t' hpast hstep => ?_
  cases hstep with
  | grow hgrow => exact (hgrow.capacity hpast).1
  | _ => exact hpast

/-- Files keep their buffers and their sizes, or they are emptied. -/
structure Empties (s s' : Store) : Prop where
  buffers : ∀ ino, KeepsBuffer (s.inodes ino) (s'.inodes ino)
  sizes : ∀ w, (s'.vnodes w).size = 0 ∨
    (s'.vnodes w).size = (s.vnodes w).size

theorem Empties.refl (s : Store) : Empties s s :=
  ⟨fun _ => .inr ⟨rfl, rfl⟩, fun _ => .inr rfl⟩

theorem ramfsOpen_empties (s : Store) (v : Ref) (flags : UInt32) :
    Empties s (ramfsOpen s v flags) := by
  have hopen := ramfsOpen_truncates s v flags
  generalize ramfsOpen s v flags = opened at hopen ⊢
  cases hopen with
  | not => exact .refl s
  | empties =>
      constructor
      · exact (Function.forall_update_iff s.inodes
          fun ino new => KeepsBuffer (s.inodes ino) new).mpr
          ⟨.inl ⟨rfl, rfl⟩, fun _ _ => .inr ⟨rfl, rfl⟩⟩
      · exact (Function.forall_update_iff s.vnodes fun w new =>
          new.size = 0 ∨ new.size = (s.vnodes w).size).mpr
          ⟨.inl rfl, fun _ _ => .inr rfl⟩

theorem vfsOpenVnode_empties (s : Store) (v : Option Ref) (flags : UInt32) :
    Empties s (vfsOpenVnode s v flags).2 := by
  cases v with
  | none => exact .refl s
  | some v =>
      have hopen : Empties s (backendOpen s v flags) := by
        unfold backendOpen
        split_ifs
        · exact ramfsOpen_empties s v flags
        · exact .refl s
      rcases vfsOpenVnode_some s v flags with heq | ⟨offset, heq, -⟩
      · rw [heq]
        exact ⟨hopen.buffers, hopen.sizes⟩
      · rw [heq]
        refine ⟨hopen.buffers, fun w => (hopen.sizes w).imp
          (openedFile_vnodes _ v offset flags w).2.trans
          (openedFile_vnodes _ v offset flags w).2.trans⟩

theorem VfsSystem.step_doubled {sys sys' : VfsSystem} {call : VfsCall}
    (hdoubled : Doubled sys.kernel.store) (hstep : sys.step call = some sys') :
    Doubled sys'.kernel.store := by
  cases call with
  | «open» path flags =>
      rw [← Option.some.inj hstep]
      change Doubled (vfsOpen _ path flags).2
      rw [vfsOpen_eq]
      exact (hdoubled.keeps (openTarget_adds _ path flags).buffers).keeps
        (vfsOpenVnode_empties _ _ flags).buffers
  | mkdir path =>
      rw [← Option.some.inj hstep]
      exact hdoubled.keeps (vfsMkdir_adds _ path).buffers
  | read self f len =>
      simp only [VfsSystem.step] at hstep
      split_ifs at hstep
      · exact Option.some.inj hstep ▸ hdoubled
      · obtain ⟨result, hread, rfl⟩ := Option.map_eq_some_iff.mp hstep
        exact (vfsRead_transfers hread).doubled hdoubled
  | write self f src len =>
      simp only [VfsSystem.step] at hstep
      split_ifs at hstep
      · exact Option.some.inj hstep ▸ hdoubled
      · obtain ⟨result, hwrite, rfl⟩ := Option.map_eq_some_iff.mp hstep
        exact (vfsWrite_transfers hwrite).doubled hdoubled
  | close f =>
      simp only [VfsSystem.step] at hstep
      split_ifs at hstep
      rw [← Option.some.inj hstep]
      refine hdoubled.of_eq ?_
      rw [wakeAll_store]
      exact vfsClose_inodes _ f

theorem freshFs_doubled (refuses : Nat → Bool) (garbage : Nat → Nat → UInt8) :
    Doubled (freshFs refuses garbage) :=
  Doubled.keeps (fun _ => .inl rfl)
    (fsInit_adds _).buffers

end Capacities

/-- In every state that opens, writes and reads lead to, the growth loop ends
with room for `offset + len` bytes exactly if that is at most `2 ^ 31`. -/
theorem growth_run_iff (refuses : Nat → Bool) (garbage : Nat → Nat → UInt8)
    (k : Kernel) (hk : k.store = freshFs refuses garbage)
    (calls : List VfsCall) (sys : VfsSystem)
    (hrun : Machine.exec VfsSystem.step ⟨k, fun _ _ => 0⟩ calls = some sys)
    (ino offset len : Nat) :
    (∃ fuel grown, growCapacity (u32 (offset + len)) fuel
        (if (sys.kernel.store.inodes ino).capacity = 0 then 64
          else (sys.kernel.store.inodes ino).capacity) = some grown ∧
      offset + len ≤ grown) ↔ offset + len ≤ 2 ^ 31 := by
  have hdoubled : Doubled sys.kernel.store := by
    apply @Machine.exec_invariant _ _ _
      (fun mid : VfsSystem => Doubled mid.kernel.store) _ _ _ _ _ hrun
    · exact fun _ _ _ => VfsSystem.step_doubled
    · exact hk ▸ freshFs_doubled refuses garbage
  exact growth_iff (hdoubled ino)

/-- No file is larger than its buffer. -/
def Bounded (s : Store) : Prop :=
  ∀ v ino, Regular s v ino → (s.vnodes v).size ≤ (s.inodes ino).capacity

/-- The invariant of the runs in which no write wraps. -/
structure Buffered (s : Store) : Prop where
  doubled : Doubled s
  bounded : Bounded s
  inv : ∃ contents, FsInv s contents

section Bounds

variable {s s' : Store} {k : Kernel} {self f len v ino : Nat}

/-- An emptied file is in bounds: an inode without a buffer belongs to a file
without bytes. -/
theorem Bounded.keeps {contents : Contents} (hbounded : Bounded s)
    (hinv : FsInv s' contents)
    (hbuffers : ∀ ino, KeepsBuffer (s.inodes ino) (s'.inodes ino))
    (hsizes : ∀ v ino, Regular s' v ino → (s'.vnodes v).size = 0 ∨
      Regular s v ino ∧ (s'.vnodes v).size = (s.vnodes v).size) :
    Bounded s' := by
  intro v ino hregular
  rcases hsizes v ino hregular with hzero | ⟨hold, hsize⟩
  · rw [hzero]
    exact Nat.zero_le _
  · rcases hbuffers ino with ⟨hnone, -⟩ | ⟨-, hcapacity⟩
    · rw [(hinv.empty v ino hregular hnone).1]
      exact Nat.zero_le _
    · rw [hsize, hcapacity]
      exact hbounded v ino hold

theorem Bounded.still {contents : Contents} (hbounded : Bounded s)
    (hinv : FsInv s contents) (hstill : FsStill s s') : Bounded s' := by
  apply hbounded.keeps (hinv.still hstill)
  · exact fun ino => .inr ⟨hstill.buf ino, hstill.capacity ino⟩
  · intro v ino hregular
    have hold := hstill.regular_iff.mp hregular
    exact .inr ⟨hold, hstill.size v ino hold⟩

theorem Bounded.adds {contents : Contents} (hbounded : Bounded s)
    (hinv : FsInv s' contents) (hnew : Adds s s') : Bounded s' := by
  apply hbounded.keeps hinv hnew.buffers
  intro v ino hregular
  have hsame : s'.vnodes v = s.vnodes v ∨ (s'.vnodes v).size = 0 :=
    (Nat.lt_or_ge v s.next).elim (fun h => .inl (hnew.old v h)) (hnew.new v)
  rcases hsame with hvnode | hzero
  · refine .inr ⟨(regular_congr ?_ ?_ ?_).mp hregular, ?_⟩ <;> rw [hvnode]
  · exact .inl hzero

theorem vfsOpen_bounded {contents : Contents} (hbounded : Bounded s)
    (hinv : FsInv s contents) (path : List UInt8) (flags : UInt32) :
    Bounded (vfsOpen s path flags).2 := by
  have hyields := openTarget_yields hinv path flags
  have hfound := hbounded.adds hyields.inv (openTarget_adds s path flags)
  have hafter := vfsOpen_fsInv hinv path flags
  rw [vfsOpen_eq] at hafter ⊢
  generalize openTarget s path flags = target at hyields hfound hafter ⊢
  rcases target with ⟨_ | v, s₁⟩
  · exact hfound
  have hempties := vfsOpenVnode_empties s₁ (some v) flags
  apply hfound.keeps hafter hempties.buffers
  intro w ino hregular
  have hold := ((vfsOpenVnode_keeps s₁ v flags w).1 ino).mp hregular
  exact (hempties.sizes w).imp_right fun hsize => ⟨hold, hsize⟩

/-- What `ramfs_write` does before it copies. -/
theorem writeBuffer_grows {b : Ref} {grown : Store}
    (hbuffer : writeBuffer s f len = some (b, grown)) :
    ramfsGrow (seekAppend s f) (s.files f).vnode
      (u32 (writeOffset s f + len)) = some (some b, grown) := by
  unfold writeBuffer at hbuffer
  dsimp only at hbuffer
  split_ifs at hbuffer
  split at hbuffer
  · rename_i hgrow
    obtain ⟨rfl, rfl⟩ := Prod.mk.inj (Option.some.inj hbuffer)
    exact hgrow
  · cases hbuffer

theorem Buffered.writeBuffer (hbuffered : Buffered s) {b : Ref} {grown : Store}
    (hregular : Regular s (s.files f).vnode ino)
    (hbuffer : writeBuffer s f len = some (b, grown)) :
    IsCapacity (grown.inodes ino).capacity ∧
      u32 (writeOffset s f + len) ≤ (grown.inodes ino).capacity ∧
      ∀ other, (s.inodes other).capacity ≤ (grown.inodes other).capacity := by
  have hseek := seekAppend_still s f
  have hino : inodeOf (seekAppend s f) (s.files f).vnode = ino := by
    rw [inodeOf, (hseek.regular_iff.mpr hregular).data]
    rfl
  have hdoubled : Doubled (seekAppend s f) := by
    intro other
    rw [hseek.capacity]
    exact hbuffered.doubled other
  obtain ⟨hgrown, hle, hroom⟩ :=
    (ramfsGrow_rebuffers (writeBuffer_grows hbuffer)).capacity hdoubled
  rw [hino] at hroom
  refine ⟨hgrown ino, hroom rfl, fun other => ?_⟩
  rw [← hseek.capacity]
  exact hle other

theorem vfsWrite_buffered (hbuffered : Buffered k.store)
    (hlive : k.store.cells f = some .file) (hlen : len ≠ 0)
    (hfits : writeOffset k.store f + len < 2 ^ 32) {src : Nat → UInt8}
    {result : Outcome × Kernel}
    (hwrite : vfsWrite k self f src len = some result) :
    Bounded result.2.store ∧ ∃ contents, FsInv result.2.store contents := by
  obtain ⟨contents, hinv⟩ := hbuffered.inv
  by_cases hregular : ∃ ino, Regular k.store (k.store.files f).vnode ino
  · obtain ⟨ino, hregular⟩ := hregular
    have hpos := Nat.pos_of_ne_zero hlen
    obtain ⟨contents', htouches⟩ :=
      vfsWrite_touches hinv hregular hpos hfits hwrite
    refine ⟨?_, contents', htouches.inv⟩
    rcases vfsWrite_regular hinv hregular hpos hfits hwrite with
      ⟨-, hstill⟩ | ⟨b, grown, t, hbuffer, hgrows, hfills, hstill⟩
    · exact hbuffered.bounded.still hinv hstill
    · obtain ⟨-, hroom, hle⟩ := hbuffered.writeBuffer hregular hbuffer
      rw [u32_of_lt hfits] at hroom
      have hseek := seekAppend_still k.store f
      intro w other hw
      have hfilled := hstill.regular_iff.mp hw
      have hgrown := hfills.regular_iff.mp hfilled
      have hsought := hgrows.regular_iff.mp hgrown
      have hold := hseek.regular_iff.mp hsought
      have hsize : (grown.vnodes w).size = (k.store.vnodes w).size := by
        rw [hgrows.vnodes, hseek.size w other hold]
      have hbound := (hbuffered.bounded w other hold).trans (hle other)
      rw [hstill.size w other hfilled, hstill.capacity, hfills.inodes]
      by_cases hwv : w = (k.store.files f).vnode
      · subst hwv
        obtain rfl : other = ino :=
          Option.some.inj (hold.data.symm.trans hregular.data)
        rw [hfills.vnode]
        exact max_le (hsize ▸ hbound) hroom
      · rw [hfills.others w hwv, hsize]
        exact hbound
  · push Not at hregular
    obtain ⟨-, hstill⟩ :=
      vfsWrite_other (hinv.files f hlive) hregular hwrite
    exact ⟨hbuffered.bounded.still hinv hstill, contents, hinv.still hstill⟩

theorem VfsSystem.step_buffered {sys sys' : VfsSystem} {call : VfsCall}
    (hbuffered : Buffered sys.kernel.store) (hfits : copyFits sys call = true)
    (hstep : sys.step call = some sys') : Buffered sys'.kernel.store := by
  have hdoubled := VfsSystem.step_doubled hbuffered.doubled hstep
  suffices hrest : Bounded sys'.kernel.store ∧
      ∃ contents, FsInv sys'.kernel.store contents from
    ⟨hdoubled, hrest.1, hrest.2⟩
  obtain ⟨contents, hinv⟩ := hbuffered.inv
  have hbounded := hbuffered.bounded
  cases call with
  | «open» path flags =>
      rw [← Option.some.inj hstep]
      exact ⟨vfsOpen_bounded hbounded hinv path flags, _,
        vfsOpen_fsInv hinv path flags⟩
  | mkdir path =>
      rw [← Option.some.inj hstep]
      have hafter := vfsMkdir_fsInv hinv path
      exact ⟨hbounded.adds hafter (vfsMkdir_adds _ path), _, hafter⟩
  | read self f len =>
      simp only [VfsSystem.step] at hstep
      split_ifs at hstep with hlive
      · exact Option.some.inj hstep ▸ ⟨hbounded, contents, hinv⟩
      · obtain ⟨result, hread, rfl⟩ := Option.map_eq_some_iff.mp hstep
        have hstill := vfsRead_still
          (hinv.files f (cells_of_isLive hlive)) hread
        exact ⟨hbounded.still hinv hstill, contents, hinv.still hstill⟩
  | write self f src len =>
      simp only [VfsSystem.step] at hstep
      split_ifs at hstep with hlive hlen
      · exact Option.some.inj hstep ▸ ⟨hbounded, contents, hinv⟩
      · obtain ⟨result, hwrite, rfl⟩ := Option.map_eq_some_iff.mp hstep
        exact vfsWrite_buffered hbuffered (cells_of_isLive hlive) hlen
          (of_decide_eq_true hfits) hwrite
  | close f =>
      simp only [VfsSystem.step] at hstep
      split_ifs at hstep with hlive
      rw [← Option.some.inj hstep]
      dsimp only
      rw [wakeAll_store]
      have hstill := vfsClose_still (hinv.files f (cells_of_isLive hlive))
      exact ⟨hbounded.still hinv hstill, contents, hinv.still hstill⟩

end Bounds

/-- In a run whose writes end below `2 ^ 32` no file is larger than its buffer,
a buffer of any capacity is there, `ramfs_read` loads from positions inside of
it, and a write that gets to its copy stays inside of it exactly if it ends
below `2 ^ 32`, too. -/
theorem buffers_run_bounded (refuses : Nat → Bool)
    (garbage : Nat → Nat → UInt8) (k : Kernel)
    (hk : k.store = freshFs refuses garbage) (calls : List VfsCall)
    (sys : VfsSystem)
    (hrun : Machine.exec (Machine.guarded copyFits VfsSystem.step)
      ⟨k, fun _ _ => 0⟩ calls = some sys) :
    (∀ v ino, Regular sys.kernel.store v ino →
      (sys.kernel.store.vnodes v).size ≤
          (sys.kernel.store.inodes ino).capacity ∧
        (0 < (sys.kernel.store.inodes ino).capacity →
          (sys.kernel.store.inodes ino).buf.isSome = true) ∧
        ∀ len offset bytes, ramfsRead sys.kernel.store v len offset =
          some bytes → ∀ i < bytes.length,
            offset + i < (sys.kernel.store.inodes ino).capacity) ∧
    ∀ f ino len b grown, 0 < len →
      Regular sys.kernel.store (sys.kernel.store.files f).vnode ino →
      writeBuffer sys.kernel.store f len = some (b, grown) →
      (sys.kernel.store.vnodes (sys.kernel.store.files f).vnode).size ≤
          (grown.inodes ino).capacity ∧
        ((∀ i < len, writeOffset sys.kernel.store f + i <
            (grown.inodes ino).capacity) ↔
          writeOffset sys.kernel.store f + len < 2 ^ 32) := by
  have hbuffered : Buffered sys.kernel.store := by
    apply @Machine.exec_invariant _ _ _
      (fun mid : VfsSystem => Buffered mid.kernel.store) _ _ _ _ _ hrun
    · intro mid call next hbuffered hstep
      obtain ⟨hfits, hstep⟩ := Machine.guarded_eq_some.mp hstep
      exact VfsSystem.step_buffered hbuffered hfits hstep
    · rw [hk]
      have hempty : Bounded { Store.empty refuses with bytes := garbage } :=
        fun _ _ hregular => by cases hregular.data
      have hinv : FsInv (freshFs refuses garbage) fun _ _ => 0 :=
        fsInit_fsInv (fsInv_of_empty rfl rfl rfl rfl)
      exact ⟨freshFs_doubled refuses garbage, hempty.adds hinv
        (fsInit_adds _), _, hinv⟩
  obtain ⟨contents, hinv⟩ := hbuffered.inv
  refine ⟨fun v ino hregular => ?_, fun f ino len b grown hlen hregular hbuffer =>
    ?_⟩
  · have hbound := hbuffered.bounded v ino hregular
    refine ⟨hbound, fun hpos => ?_, fun len offset bytes hread i hi => ?_⟩
    · rw [Option.isSome_iff_ne_none]
      intro hnone
      exact hpos.ne' (hinv.empty v ino hregular hnone).2
    · rw [hinv.ramfsRead_eq hregular] at hread
      rw [← Option.some.inj hread, List.length_map, List.length_range] at hi
      omega
  · obtain ⟨hcapacity, hroom, hle⟩ := hbuffered.writeBuffer hregular hbuffer
    refine ⟨(hbuffered.bounded _ ino hregular).trans (hle ino), ?_⟩
    constructor
    · intro hall
      have hlast := hall (len - 1) (by omega)
      have hmax := hcapacity.le
      omega
    · intro hfits i hi
      rw [u32_of_lt hfits] at hroom
      omega

namespace FileBuffersWitness

open Machine (exec guarded)
open RamfsReadsWitness (kernel path)

/-- Create a file and write 64 bytes to it. -/
def filled : List VfsCall :=
  [.open path oCreat, .write 1 15 (fun _ => 0x55) 64]

theorem filled_run : (exec (guarded copyFits VfsSystem.step)
    ⟨kernel, fun _ _ => 0⟩ filled).map (fun sys =>
      ((sys.kernel.store.vnodes 13).type, (sys.kernel.store.vnodes 13).ops,
        (sys.kernel.store.vnodes 13).data, (sys.kernel.store.vnodes 13).size)) =
      some (.file, .ramfs, some 12, 64) := by
  decide +kernel

/-- A second write of the same size finds or makes room for it. -/
theorem filled_grows : ∃ sys, exec VfsSystem.step ⟨kernel, fun _ _ => 0⟩ filled =
      some sys ∧ ∃ fuel grown, growCapacity (u32 (64 + 64)) fuel
        (if (sys.kernel.store.inodes 12).capacity = 0 then 64
          else (sys.kernel.store.inodes 12).capacity) = some grown ∧
        64 + 64 ≤ grown := by
  obtain ⟨sys, hrun, -⟩ := Option.map_eq_some_iff.mp filled_run
  have hfree := Machine.exec_of_guarded hrun
  exact ⟨sys, hfree, (growth_run_iff (fun _ => false) (fun _ _ => 0xAA) kernel
    rfl filled sys hfree 12 64 64).mpr (by decide)⟩

theorem filled_bounded : ∃ sys, exec (guarded copyFits VfsSystem.step)
      ⟨kernel, fun _ _ => 0⟩ filled = some sys ∧
    Regular sys.kernel.store 13 12 ∧
    64 ≤ (sys.kernel.store.inodes 12).capacity := by
  obtain ⟨sys, hrun, hview⟩ := Option.map_eq_some_iff.mp filled_run
  simp only [Prod.mk.injEq] at hview
  obtain ⟨htype, hops, hdata, hsize⟩ := hview
  have hbounds := (buffers_run_bounded (fun _ => false) (fun _ _ => 0xAA) kernel
    rfl filled sys hrun).1 13 12 ⟨htype, hops, hdata⟩
  exact ⟨sys, hrun, ⟨htype, hops, hdata⟩, hsize ▸ hbounds.1⟩

/-- For a new file and `2 ^ 31 + 1` bytes the loop goes on for ever. -/
theorem growth_endless :
    (exec VfsSystem.step ⟨kernel, fun _ _ => 0⟩ [.open path oCreat]).map
      (fun sys => (sys.kernel.store.isLive .file 15,
        writeOffset sys.kernel.store 15,
        (sys.kernel.store.inodes 12).capacity)) = some (true, 0, 0) ∧
    ∀ fuel, growCapacity (u32 (0 + (2 ^ 31 + 1))) fuel 64 = none := by
  refine ⟨by decide +kernel, fun fuel => ?_⟩
  cases hgrow : growCapacity (u32 (0 + (2 ^ 31 + 1))) fuel 64 with
  | none => rfl
  | some grown =>
      obtain ⟨hcapacity, hstop⟩ :=
        growCapacity_some (.inr ⟨0, by decide, rfl⟩) hgrow
      have hle := hcapacity.le
      rw [u32_of_lt (by decide)] at hstop
      omega

/-- A write of `2 ^ 32 - 1` bytes at offset 64 finds its end at 63 and copies
into the buffer of 64 bytes. -/
theorem copy_overruns :
    ((exec VfsSystem.step ⟨kernel, fun _ _ => 0⟩ filled).bind fun sys =>
      (writeBuffer sys.kernel.store 15 (2 ^ 32 - 1)).map fun target =>
        (writeOffset sys.kernel.store 15, (target.2.inodes 12).capacity)) =
      some (64, 64) := by
  decide +kernel

end FileBuffersWitness

end Orion
