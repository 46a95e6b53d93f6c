/-
The heap as a list of blocks.  `Laid` relates the words of the heap to a list
of boundary-tagged blocks between the prologue and the epilogue; the tag
writes of `coalesce` and `place` become edits of the list.
-/
import Orion.BoundaryTag
import Orion.Kheap

namespace Orion

open MachineInt ByteMem BoundaryTag

/-- Where the blocks begin, right behind the prologue. -/
def firstBlock : Nat := heapStart + 12

theorem firstBlock_le (n : Nat) : 4 ≤ firstBlock + n :=
  Nat.le_add_right_of_le (by decide)

/-- Prologue, blocks and epilogue, from `HEAP_START` up to the epilogue. -/
structure Laid (mem : Mem) (blocks : List Block) : Prop where
  prologueHeader : getWord mem (heapStart + 4) = 9
  prologueFooter : getWord mem (heapStart + 8) = 9
  tiles : Tiles mem firstBlock blocks
  epilogue : getWord mem (firstBlock + span blocks) = 1
  ceiling : firstBlock + span blocks + 4 ≤ heapMax

section Tags

variable {mem : Mem} {a size : Nat} {block : Block}

theorem pack_zero (size : Nat) : pack size 0 = size := Nat.or_zero size

theorem pack_one (haligned : size % 8 = 0) : pack size 1 = size + 1 := by
  have hsize : size = 2 ^ 3 * (size / 8) := by omega
  rw [pack, hsize]
  exact (Nat.two_pow_add_eq_or_of_lt (by decide) (size / 8)).symm

theorem pack_tag (block : Block) :
    pack block.size block.used.toNat = block.tag := by
  cases hused : block.used with
  | false => simp [Block.tag, hused, pack_zero]
  | true => simp [Block.tag, hused, pack_one block.aligned]

theorem getSize_of_tag (htag : getWord mem a = block.tag) :
    getSize mem a = block.size := by
  rw [getSize, htag, Block.tag_size]

theorem getAlloc_of_tag (htag : getWord mem a = block.tag) :
    getAlloc mem a = block.used.toNat := by
  rw [getAlloc, htag, Block.tag_used]

theorem isFree_of_tag (htag : getWord mem a = block.tag) :
    (getAlloc mem a == 0) = !block.used := by
  rw [getAlloc_of_tag htag]
  cases block.used <;> rfl

theorem hdrp_payload (hbound : a + 4 < 2 ^ 32) : hdrp (a + 4) = a := by
  rw [hdrp, wsize, sub32_of_le (by omega) hbound, Nat.add_sub_cancel]

theorem nextBlkp_payload (hsize : getSize mem a = size)
    (hbound : a + size + 4 < 2 ^ 32) :
    nextBlkp mem (a + 4) = a + size + 4 := by
  rw [nextBlkp, hdrp_payload (by omega), hsize, u32_of_lt (by omega)]
  omega

theorem ftrp_payload (hsize : getSize mem a = size) (hlarge : 4 ≤ size)
    (hbound : a + size + 4 < 2 ^ 32) :
    ftrp mem (a + 4) = a + size - 4 := by
  rw [ftrp, hdrp_payload (by omega), hsize, u32_of_lt (by omega), dwsize,
    sub32_of_le (by omega) (by omega)]
  omega

theorem prevBlkp_payload (hsize : getSize mem (a - 4) = size)
    (hlow : size + 4 ≤ a) (hbound : a + 4 < 2 ^ 32) :
    prevBlkp mem (a + 4) = a - size + 4 := by
  rw [prevBlkp, dwsize, sub32_of_le (show 8 ≤ a + 4 by omega) hbound,
    show a + 4 - 8 = a - 4 by omega, hsize,
    sub32_of_le (by omega) hbound]
  omega

/-- From the payload of a block back to the block before it. -/
theorem prevBlkp_behind (htag : getWord mem (a + block.size - 4) = block.tag)
    (hlow : 4 ≤ a) (hbound : a + block.size + 4 < 2 ^ 32) :
    prevBlkp mem (a + block.size + 4) = a + 4 := by
  rw [prevBlkp_payload (getSize_of_tag htag) (by omega) hbound,
    Nat.add_sub_cancel]

/-- Writing a header and then the footer it points to writes both tags. -/
theorem putWord_ftrp (hbound : a + block.size + 4 < 2 ^ 32) :
    putWord (putWord mem a block.tag)
        (ftrp (putWord mem a block.tag) (a + 4)) block.tag =
      writeTags mem a block := by
  have hlarge := block.large
  have htag := getWord_putWord mem (a := a) (block.tag_lt (by omega))
  rw [ftrp_payload (getSize_of_tag htag) (by omega) hbound, writeTags]

end Tags

namespace Laid

variable {mem mem' : Mem} {pre post old new : List Block} {block : Block}

theorem bound (hlaid : Laid mem (pre ++ block :: post)) :
    firstBlock + span pre + block.size + span post + 4 ≤ heapMax := by
  have hceiling := hlaid.ceiling
  rw [span_append, span_cons] at hceiling
  omega

theorem tags (hlaid : Laid mem (pre ++ block :: post)) :
    getWord mem (firstBlock + span pre) = block.tag ∧
      getWord mem (firstBlock + span pre + block.size - 4) = block.tag :=
  At.tags ⟨pre, post, rfl, rfl⟩ hlaid.tiles

theorem tags_next {next : Block}
    (hlaid : Laid mem (pre ++ block :: next :: post)) :
    getWord mem (firstBlock + span pre + block.size) = next.tag ∧
      getWord mem (firstBlock + span pre + block.size + next.size - 4) =
        next.tag := by
  have hat : At firstBlock (pre ++ block :: next :: post)
      (firstBlock + span pre + block.size) next :=
    ⟨pre ++ [block], post, by simp, by simp [Nat.add_assoc]⟩
  exact hat.tags hlaid.tiles

/-- Replacing blocks by others in the same bytes keeps the layout. -/
theorem splice (hlaid : Laid mem (pre ++ old ++ post))
    (hspan : span new = span old)
    (hnew : Tiles mem' (firstBlock + span pre) new)
    (hagree : ∀ x, x < firstBlock + span pre ∨
      firstBlock + span pre + span old ≤ x → mem' x = mem x) :
    Laid mem' (pre ++ new ++ post) := by
  have htotal : span (pre ++ new ++ post) = span (pre ++ old ++ post) := by
    simp only [span_append, hspan]
  have hword : ∀ a, a + 4 ≤ firstBlock ∨
      firstBlock + span (pre ++ old ++ post) ≤ a →
      getWord mem' a = getWord mem a := by
    intro a houtside
    apply getWord_congr
    intro x hlow hhigh
    simp only [span_append] at houtside
    exact hagree x (by omega)
  constructor
  · rw [hword _ (by simp only [firstBlock]; omega)]
    exact hlaid.prologueHeader
  · rw [hword _ (by simp only [firstBlock]; omega)]
    exact hlaid.prologueFooter
  · exact hlaid.tiles.splice hspan hnew hagree
  · rw [htotal, hword _ (Or.inr (Nat.le_refl _))]
    exact hlaid.epilogue
  · rw [htotal]
    exact hlaid.ceiling

/-- Writing the tags of one block over a run of blocks of the same span. -/
theorem writeTags (hlaid : Laid mem (pre ++ old ++ post))
    (hspan : block.size = span old) :
    Laid (writeTags mem (firstBlock + span pre) block)
      (pre ++ [block] ++ post) := by
  have hceiling := hlaid.ceiling
  simp only [span_append, heapMax] at hceiling
  apply hlaid.splice
  · simpa using hspan
  · exact tiles_writeTags mem _ (by omega)
  · intro x houtside
    exact writeTags_of_outside mem block (by omega)

end Laid

namespace Laid

variable {mem : Mem} {pre post : List Block} {block prev next : Block}

/-- What `coalesce` reads from the footer before a block. -/
theorem prev_free (hlaid : Laid mem (pre ++ block :: post)) :
    (getAlloc mem (ftrp mem (prevBlkp mem (firstBlock + span pre + 4))) == 0) =
      !lastUsed pre := by
  have hbound := hlaid.bound
  simp only [heapMax] at hbound
  rcases List.eq_nil_or_concat pre with rfl | ⟨rest, prev, rfl⟩
  · have hheader : getSize mem (heapStart + 4) = 8 := by
      rw [getSize, hlaid.prologueHeader]
    have hfooter : getSize mem (firstBlock - 4) = 8 := by
      rw [getSize, firstBlock, show heapStart + 12 - 4 = heapStart + 8 from rfl,
        hlaid.prologueFooter]
    have hprologue : firstBlock - 8 = heapStart + 4 := rfl
    rw [span_nil, Nat.add_zero, prevBlkp_payload hfooter (by decide) (by decide),
      hprologue, ftrp_payload hheader (by decide) (by decide), getAlloc,
      show heapStart + 4 + 8 - 4 = heapStart + 8 from rfl,
      hlaid.prologueFooter]
    rfl
  · have hlarge := prev.large
    rw [List.concat_eq_append, List.append_assoc, List.singleton_append] at hlaid
    obtain ⟨hheader, hfooter⟩ := hlaid.tags
    simp only [List.concat_eq_append, span_append, span_cons, span_nil,
      Nat.add_zero, ← Nat.add_assoc, lastUsed_concat] at hbound ⊢
    rw [prevBlkp_behind hfooter (firstBlock_le _) (by omega),
      ftrp_payload (getSize_of_tag hheader) (by omega) (by omega)]
    exact isFree_of_tag hfooter

/-- What `coalesce` reads from the header behind a block. -/
theorem next_free (hlaid : Laid mem (pre ++ block :: post)) :
    (getAlloc mem (hdrp (nextBlkp mem (firstBlock + span pre + 4))) == 0) =
      !headUsed post := by
  have hbound := hlaid.bound
  simp only [heapMax] at hbound
  rw [nextBlkp_payload (getSize_of_tag hlaid.tags.1) (by omega),
    hdrp_payload (by omega)]
  cases post with
  | nil =>
      have hepilogue := hlaid.epilogue
      rw [span_append, span_cons, span_nil, Nat.add_zero, ← Nat.add_assoc]
        at hepilogue
      rw [getAlloc, hepilogue]
      rfl
  | cons next rest =>
      exact isFree_of_tag hlaid.tags_next.1

theorem coalesce_between_used (hlaid : Laid mem (pre ++ block :: post))
    (hprev : lastUsed pre = true) (hnext : headUsed post = true) :
    coalesce mem (firstBlock + span pre + 4) =
      (firstBlock + span pre + 4, mem) := by
  simp only [coalesce, hlaid.prev_free, hlaid.next_free, hprev, hnext,
    Bool.not_true]

theorem coalesce_next (hlaid : Laid mem (pre ++ block :: next :: post))
    (hprev : lastUsed pre = true) (hnext : next.used = false) :
    coalesce mem (firstBlock + span pre + 4) =
      (firstBlock + span pre + 4,
        BoundaryTag.writeTags mem (firstBlock + span pre)
          (block.merge next)) := by
  have hbound := hlaid.bound
  simp only [heapMax, span_cons] at hbound
  have hsize := getSize_of_tag hlaid.tags.1
  have hsizeNext := getSize_of_tag hlaid.tags_next.1
  have hmerge : u32 (block.size + next.size) = (block.merge next).tag := by
    rw [u32_of_lt (by omega), Block.tag_of_free rfl]
    rfl
  have hwrite : firstBlock + span pre + (block.merge next).size + 4 < 2 ^ 32 := by
    simp only [Block.merge]
    omega
  simp only [coalesce, hlaid.prev_free, hlaid.next_free, hprev, headUsed, hnext,
    Bool.not_true, Bool.not_false]
  simp only [nextBlkp_payload hsize (by omega),
    hdrp_payload (show firstBlock + span pre + 4 < 2 ^ 32 by omega),
    hdrp_payload (show firstBlock + span pre + block.size + 4 < 2 ^ 32 by omega),
    hsize, hsizeNext, pack_zero, hmerge, putWord_ftrp hwrite]

theorem coalesce_prev (hlaid : Laid mem (pre ++ prev :: block :: post))
    (hprev : prev.used = false) (hnext : headUsed post = true) :
    coalesce mem (firstBlock + span pre + prev.size + 4) =
      (firstBlock + span pre + 4,
        BoundaryTag.writeTags mem (firstBlock + span pre)
          (prev.merge block)) := by
  have hbound := hlaid.bound
  simp only [heapMax, span_cons] at hbound
  have hlarge := block.large
  have hsize := getSize_of_tag hlaid.tags_next.1
  have hsizePrev := getSize_of_tag hlaid.tags.1
  have hback := prevBlkp_behind hlaid.tags.2 (firstBlock_le _) (by omega)
  have hmerge : u32 (block.size + prev.size) = (prev.merge block).tag := by
    rw [u32_of_lt (by omega), Block.tag_of_free rfl, Nat.add_comm]
    rfl
  have hfooter : firstBlock + span pre + prev.size + block.size - 4 =
      firstBlock + span pre + (prev.merge block).size - 4 := by
    simp only [Block.merge, Nat.add_assoc]
  have hlaid' : Laid mem ((pre ++ [prev]) ++ block :: post) := by simpa using hlaid
  have hprevFree := hlaid'.prev_free
  have hnextFree := hlaid'.next_free
  simp only [span_append, span_cons, span_nil, Nat.add_zero, ← Nat.add_assoc,
    lastUsed_concat] at hprevFree hnextFree
  simp only [coalesce, hprevFree, hnextFree, hprev, hnext, Bool.not_true,
    Bool.not_false]
  simp only [hback, ftrp_payload hsize (by omega) (by omega),
    hdrp_payload (show firstBlock + span pre + 4 < 2 ^ 32 by omega),
    hdrp_payload (show firstBlock + span pre + prev.size + 4 < 2 ^ 32 by omega),
    hsize, hsizePrev, pack_zero, hmerge, hfooter, writeTags_comm]

theorem coalesce_both (hlaid : Laid mem (pre ++ prev :: block :: next :: post))
    (hprev : prev.used = false) (hnext : next.used = false) :
    coalesce mem (firstBlock + span pre + prev.size + 4) =
      (firstBlock + span pre + 4,
        BoundaryTag.writeTags mem (firstBlock + span pre)
          (prev.merge (block.merge next))) := by
  have hbound := hlaid.bound
  simp only [heapMax, span_cons] at hbound
  have hlarge := prev.large
  have hlargeNext := next.large
  have hlaid' : Laid mem ((pre ++ [prev]) ++ block :: next :: post) := by
    simpa using hlaid
  have hprevFree := hlaid'.prev_free
  have hnextFree := hlaid'.next_free
  have htagNext := hlaid'.tags_next.1
  simp only [span_append, span_cons, span_nil, Nat.add_zero, ← Nat.add_assoc,
    lastUsed_concat] at hprevFree hnextFree htagNext
  have hsize := getSize_of_tag hlaid.tags_next.1
  have hsizePrev := getSize_of_tag hlaid.tags.1
  have hsizeNext := getSize_of_tag htagNext
  have hback := prevBlkp_behind hlaid.tags.2 (firstBlock_le _) (by omega)
  have hmerge : u32 (block.size + u32 (prev.size + next.size)) =
      (prev.merge (block.merge next)).tag := by
    rw [u32_of_lt (show prev.size + next.size < 2 ^ 32 by omega),
      u32_of_lt (by omega), Block.tag_of_free rfl, Nat.add_left_comm]
    rfl
  have hfooter : firstBlock + span pre + prev.size + block.size + next.size - 4 =
      firstBlock + span pre + (prev.merge (block.merge next)).size - 4 := by
    simp only [Block.merge, Nat.add_assoc]
  -- the header of the block behind is not the one just written
  have hsizeNext' : getSize (putWord mem (firstBlock + span pre)
      (prev.merge (block.merge next)).tag)
      (firstBlock + span pre + prev.size + block.size) = next.size := by
    rw [getSize, getWord_putWord_of_disjoint _ _ (by omega)]
    exact hsizeNext
  simp only [coalesce, hprevFree, hnextFree, hprev, headUsed, hnext,
    Bool.not_false]
  simp only [hback, nextBlkp_payload hsize (by omega),
    hdrp_payload (show firstBlock + span pre + 4 < 2 ^ 32 by omega),
    hdrp_payload (show firstBlock + span pre + prev.size + 4 < 2 ^ 32 by omega),
    hdrp_payload (show firstBlock + span pre + prev.size + block.size + 4 < 2 ^ 32
      by omega),
    hsize, hsizePrev, hsizeNext, pack_zero, hmerge,
    ftrp_payload hsizeNext' (by omega) (by omega), hfooter,
    BoundaryTag.writeTags]

end Laid

/-- The heap `blocks` turned into one with a free block at `bp` and no two
free neighbours, without touching a block in use. -/
structure FreeAt (mem mem' : Mem) (blocks : List Block) (bp : Nat)
    (pre : List Block) (free : Block) (post : List Block) : Prop where
  laid : Laid mem' (pre ++ free :: post)
  coalesced : Coalesced (pre ++ free :: post)
  payload : bp = firstBlock + span pre + 4
  unused : free.used = false
  headers : usedHeaders firstBlock (pre ++ free :: post) =
    usedHeaders firstBlock blocks
  keeps : Keeps (fun _ => True) firstBlock mem mem' blocks (pre ++ free :: post)

/-- The four cases of `coalesce`, on the blocks before and behind its
argument. -/
inductive Merges : List Block → Block → List Block →
    List Block → Block → List Block → Prop
  | alone {pre block post} (hlast : lastUsed pre = true)
      (hhead : headUsed post = true) : Merges pre block post pre block post
  | next {pre block next post} (hlast : lastUsed pre = true)
      (hnext : next.used = false) :
      Merges pre block (next :: post) pre (block.merge next) post
  | prev {pre prev block post} (hprev : prev.used = false)
      (hhead : headUsed post = true) :
      Merges (pre ++ [prev]) block post pre (prev.merge block) post
  | both {pre prev block next post} (hprev : prev.used = false)
      (hnext : next.used = false) :
      Merges (pre ++ [prev]) block (next :: post) pre
        (prev.merge (block.merge next)) post

namespace Merges

variable {pre post pre' post' : List Block} {block merged : Block}

theorem size_le (hmerges : Merges pre block post pre' merged post') :
    block.size ≤ merged.size := by
  cases hmerges with
  | alone _ _ => exact Nat.le_refl _
  | next _ _ => exact Nat.le_add_right _ _
  | prev _ _ => exact Nat.le_add_left _ _
  | both _ _ =>
      exact (Nat.le_add_right _ _).trans (Nat.le_add_left _ _)

theorem span_eq (hmerges : Merges pre block post pre' merged post') :
    span (pre' ++ merged :: post') = span (pre ++ block :: post) := by
  cases hmerges <;> simp [Block.merge, Nat.add_assoc]

end Merges

namespace Laid

variable {mem : Mem} {pre old post : List Block} {block merged : Block}

/-- Tagging a run of free blocks as one block. -/
theorem freeAt_merge (hlaid : Laid mem (pre ++ old ++ post))
    (hold : ∀ block ∈ old, block.used = false)
    (hsize : merged.size = span old) (hmerged : merged.used = false)
    (hpre : Coalesced pre) (hpost : Coalesced post)
    (hlast : lastUsed pre = true) (hhead : headUsed post = true) :
    FreeAt mem (BoundaryTag.writeTags mem (firstBlock + span pre) merged)
      (pre ++ old ++ post) (firstBlock + span pre + 4) pre merged post := by
  have hspan : span [merged] = span old := by simpa using hsize
  have hlist : pre ++ merged :: post = pre ++ [merged] ++ post := by simp
  constructor
  · rw [hlist]
    exact hlaid.writeTags hsize
  · exact coalesced_append_cons.mpr ⟨hpre, hpost, Or.inr ⟨hlast, hhead⟩⟩
  · rfl
  · exact hmerged
  · simp only [hlist, usedHeaders_append, span_append, hspan,
      usedHeaders_free _ hold, usedHeaders, hmerged, Bool.false_eq_true,
      ↓reduceIte]
  · rw [hlist]
    apply keeps_splice hspan
    · intro x houtside
      exact writeTags_of_outside mem merged (by omega)
    · intro header block hat hused
      simp [hold block hat.mem] at hused

/-- `coalesce` merges its argument with its free neighbours. -/
theorem coalesce_freeAt (hlaid : Laid mem (pre ++ block :: post))
    (hfree : block.used = false) (hpre : Coalesced pre)
    (hpost : Coalesced post) :
    ∃ pre' merged post', Merges pre block post pre' merged post' ∧
      FreeAt mem (coalesce mem (firstBlock + span pre + 4)).2
        (pre ++ block :: post) (coalesce mem (firstBlock + span pre + 4)).1
        pre' merged post' := by
  rcases hpre.last_cases with hlast | ⟨rest, prev, rfl, hprev, hrest, hlast⟩
  · rcases hpost.head_cases with hhead | ⟨next, tail, rfl, hnext, htail, hhead⟩
    · rw [hlaid.coalesce_between_used hlast hhead]
      refine ⟨pre, block, post, .alone hlast hhead, hlaid, ?_, rfl, hfree, rfl,
        Keeps.refl _ _ _ _⟩
      exact coalesced_append_cons.mpr ⟨hpre, hpost, Or.inr ⟨hlast, hhead⟩⟩
    · rw [hlaid.coalesce_next hlast hnext]
      refine ⟨pre, block.merge next, tail, .next hlast hnext, ?_⟩
      have hrun : pre ++ block :: next :: tail =
          pre ++ [block, next] ++ tail := by simp
      rw [hrun] at hlaid ⊢
      apply hlaid.freeAt_merge _ rfl rfl hpre htail hlast hhead
      simp [hfree, hnext]
  · have hback : firstBlock + span (rest ++ [prev]) + 4 =
        firstBlock + span rest + prev.size + 4 := by
      simp [Nat.add_assoc]
    rw [hback]
    rcases hpost.head_cases with hhead | ⟨next, tail, rfl, hnext, htail, hhead⟩
    · have hrun : rest ++ [prev] ++ block :: post =
          rest ++ [prev, block] ++ post := by simp
      have hlaid' : Laid mem (rest ++ prev :: block :: post) := by
        simpa using hlaid
      rw [hrun] at hlaid ⊢
      rw [hlaid'.coalesce_prev hprev hhead]
      refine ⟨rest, prev.merge block, post, .prev hprev hhead, ?_⟩
      apply hlaid.freeAt_merge _ rfl rfl hrest hpost hlast hhead
      simp [hfree, hprev]
    · have hrun : rest ++ [prev] ++ block :: next :: tail =
          rest ++ [prev, block, next] ++ tail := by simp
      have hlaid' : Laid mem (rest ++ prev :: block :: next :: tail) := by
        simpa using hlaid
      rw [hrun] at hlaid ⊢
      rw [hlaid'.coalesce_both hprev hnext]
      refine ⟨rest, prev.merge (block.merge next), tail, .both hprev hnext, ?_⟩
      apply hlaid.freeAt_merge _ rfl rfl hrest htail hlast hhead
      simp [hfree, hprev, hnext]

end Laid

/-- How a free block is used for `asize` bytes: whole when fewer than sixteen
bytes would be left over, and otherwise split with a free remainder. -/
inductive Splits (free : Block) (asize : Nat) : Block → List Block → Prop
  | whole (block : Block) (hshort : free.size - asize < minBlock)
      (hused : block.used = true) (hsize : block.size = free.size) :
      Splits free asize block []
  | split (block remainder : Block) (hlarge : minBlock ≤ free.size - asize)
      (hused : block.used = true) (hsize : block.size = asize)
      (hfree : remainder.used = false)
      (hrest : remainder.size = free.size - asize) :
      Splits free asize block [remainder]

namespace Splits

variable {free block : Block} {asize : Nat} {rest : List Block}

theorem used (hsplits : Splits free asize block rest) : block.used = true := by
  cases hsplits with
  | whole _ hused _ => exact hused
  | split _ _ hused _ _ _ => exact hused

theorem rest_free (hsplits : Splits free asize block rest) :
    ∀ remainder ∈ rest, remainder.used = false := by
  cases hsplits with
  | whole _ _ _ => simp
  | split _ _ _ _ hfree _ => simpa using hfree

theorem fits (hsplits : Splits free asize block rest)
    (hfits : asize ≤ free.size) : asize ≤ block.size := by
  cases hsplits with
  | whole _ _ hsize => exact hsize ▸ hfits
  | split _ _ _ hsize _ _ => exact Nat.le_of_eq hsize.symm

theorem span_eq (hsplits : Splits free asize block rest)
    (hfits : asize ≤ free.size) : span (block :: rest) = span [free] := by
  cases hsplits with
  | whole _ _ hsize => simp [hsize]
  | split _ _ _ hsize _ hrest => simp [hsize, hrest, hfits]

end Splits

section Place

variable {mem : Mem} {a asize : Nat} {free block remainder : Block}

theorem place_whole (hsize : getSize mem a = free.size)
    (hbound : a + free.size + 4 < 2 ^ 32) (hfits : asize ≤ free.size)
    (hshort : free.size - asize < minBlock) (hused : block.used = true)
    (hblock : block.size = free.size) :
    place mem (a + 4) asize = writeTags mem a block := by
  have hleft : sub32 free.size asize = free.size - asize :=
    sub32_of_le hfits (by omega)
  have htag : pack free.size 1 = block.tag := by
    rw [← hblock, ← pack_tag, hused]
    rfl
  simp only [place, hdrp_payload (show a + 4 < 2 ^ 32 by omega), hsize, hleft]
  rw [if_neg (by omega), htag, putWord_ftrp (by omega)]

theorem place_split (hsize : getSize mem a = free.size)
    (hbound : a + free.size + 4 < 2 ^ 32) (hfits : asize ≤ free.size)
    (hlarge : minBlock ≤ free.size - asize) (hused : block.used = true)
    (hblock : block.size = asize) (hfree : remainder.used = false)
    (hrest : remainder.size = free.size - asize) :
    place mem (a + 4) asize =
      writeTags (writeTags mem a block) (a + block.size) remainder := by
  have hleft : sub32 free.size asize = remainder.size := by
    rw [hrest]
    exact sub32_of_le hfits (by omega)
  have htag : pack asize 1 = block.tag := by
    rw [← hblock, ← pack_tag, hused]
    rfl
  have htagRest : pack remainder.size 0 = remainder.tag := by
    rw [pack_zero, Block.tag_of_free hfree]
  have hheader : getWord (writeTags mem a block) a = block.tag :=
    (tiles_writeTags mem a (by omega)).1
  simp only [place, hdrp_payload (show a + 4 < 2 ^ 32 by omega), hsize, hleft]
  rw [if_pos (hrest ▸ hlarge), htag, putWord_ftrp (by omega),
    nextBlkp_payload (getSize_of_tag hheader) (by omega),
    hdrp_payload (by omega), htagRest, putWord_ftrp (by omega)]

/-- The tag writes of `place`, as blocks. -/
theorem place_tiles (hsize : getSize mem a = free.size)
    (hbound : a + free.size + 4 < 2 ^ 32) (haligned : asize % 8 = 0)
    (hlarge : minBlock ≤ asize) (hfits : asize ≤ free.size) :
    ∃ block rest, Splits free asize block rest ∧
      Tiles (place mem (a + 4) asize) a (block :: rest) ∧
      ∀ x, x < a ∨ a + free.size ≤ x → place mem (a + 4) asize x = mem x := by
  by_cases hsplit : minBlock ≤ free.size - asize
  · let block : Block := ⟨asize, true, haligned, hlarge⟩
    let remainder : Block :=
      ⟨free.size - asize, false, by have := free.aligned; omega, hsplit⟩
    have hplace : place mem (a + 4) asize =
        writeTags (writeTags mem a block) (a + block.size) remainder :=
      place_split hsize hbound hfits hsplit rfl rfl rfl rfl
    rw [hplace]
    refine ⟨block, [remainder], .split _ _ hsplit rfl rfl rfl rfl, ?_, ?_⟩
    · have hfront : Tiles (writeTags mem a block) a [block] :=
        tiles_writeTags mem a (by simp only [block]; omega)
      have hback : remainder.size < 2 ^ 32 := by simp only [remainder]; omega
      simpa using hfront.concat_writeTags hback
    · intro x houtside
      rw [writeTags_of_outside _ _ (by simp only [remainder, block]; omega),
        writeTags_of_outside _ _ (by simp only [block]; omega)]
  · let block : Block := ⟨free.size, true, free.aligned, free.large⟩
    have hplace : place mem (a + 4) asize = writeTags mem a block :=
      place_whole hsize hbound hfits (by omega) rfl rfl
    rw [hplace]
    refine ⟨block, [], .whole _ (by omega) rfl rfl, ?_, ?_⟩
    · exact tiles_writeTags mem a (by simp only [block]; omega)
    · intro x houtside
      exact writeTags_of_outside mem block houtside

end Place

/-- The heap `blocks` with `block` newly in use at `bp`, the blocks that were
in use being untouched. -/
structure Allocated (mem mem' : Mem) (blocks : List Block) (bp : Nat)
    (pre : List Block) (block : Block) (post : List Block) : Prop where
  laid : Laid mem' (pre ++ block :: post)
  coalesced : Coalesced (pre ++ block :: post)
  payload : bp = firstBlock + span pre + 4
  used : block.used = true
  headers : (usedHeaders firstBlock (pre ++ block :: post)).Perm
    ((bp - 4) :: usedHeaders firstBlock blocks)
  keeps : Keeps (fun _ => True) firstBlock mem mem' blocks
    (pre ++ block :: post)

/-- `place` puts a free block of a coalesced heap in use. -/
theorem FreeAt.place {mem mem' : Mem} {blocks pre post : List Block} {bp : Nat}
    {free : Block} {asize : Nat}
    (hfreeAt : FreeAt mem mem' blocks bp pre free post)
    (haligned : asize % 8 = 0) (hlarge : minBlock ≤ asize)
    (hfits : asize ≤ free.size) :
    ∃ block rest, Splits free asize block rest ∧
      Allocated mem (place mem' bp asize) blocks bp pre block
        (rest ++ post) := by
  have hlaid := hfreeAt.laid
  have hbound := hlaid.bound
  simp only [heapMax] at hbound
  obtain ⟨block, rest, hsplits, htiles, hagree⟩ :=
    place_tiles (getSize_of_tag hlaid.tags.1) (by omega) haligned hlarge hfits
  rw [← hfreeAt.payload] at htiles hagree
  refine ⟨block, rest, hsplits, ?_⟩
  have hspan := hsplits.span_eq hfits
  have hold : pre ++ free :: post = pre ++ [free] ++ post := by simp
  have hnew : pre ++ block :: (rest ++ post) =
      pre ++ (block :: rest) ++ post := by simp
  have hagree' : ∀ x, x < firstBlock + span pre ∨
      firstBlock + span pre + span [free] ≤ x →
      Orion.place mem' bp asize x = mem' x := by
    intro x houtside
    exact hagree x (by simpa using houtside)
  obtain ⟨hpre, hpost, hsides⟩ := coalesced_append_cons.mp hfreeAt.coalesced
  constructor
  · rw [hnew]
    exact (hold ▸ hlaid).splice hspan htiles hagree'
  · refine coalesced_append_cons.mpr ⟨hpre, ?_, Or.inl hsplits.used⟩
    cases hsplits with
    | whole _ _ _ => exact hpost
    | split remainder _ _ _ hfree _ =>
        rcases hsides with hused | ⟨_, hhead⟩
        · rw [hfreeAt.unused] at hused
          exact absurd hused Bool.false_ne_true
        · exact coalesced_cons.mpr ⟨hpost, Or.inr hhead⟩
  · exact hfreeAt.payload
  · exact hsplits.used
  · have hheader : bp - 4 = firstBlock + span pre := by
      rw [hfreeAt.payload, Nat.add_sub_cancel]
    have hrest := usedHeaders_free (firstBlock + span pre + block.size)
      hsplits.rest_free
    rw [← hfreeAt.headers, hnew, hold, hheader]
    simp only [usedHeaders_append, hspan, usedHeaders, hsplits.used,
      hfreeAt.unused, hrest, Bool.false_eq_true, ↓reduceIte, List.append_assoc,
      List.singleton_append]
    exact List.perm_middle
  · refine hfreeAt.keeps.trans ?_
    rw [hold, hnew]
    apply keeps_splice hspan hagree'
    intro header other hat hused
    rw [List.mem_singleton.mp hat.mem, hfreeAt.unused] at hused
    exact absurd hused Bool.false_ne_true

end Orion
