/-
Boundary-tagged blocks.  A region of memory is tiled by blocks; the first and
the last word of a block both hold its size, a multiple of eight, with the
low bit telling whether the block is in use.  The lemmas relate edits of the
tag words to edits of the list of blocks.
-/
import Mathlib.Data.List.Chain
import Mathlib.Data.List.Pairwise
import Orion.ByteMem

namespace BoundaryTag

open ByteMem

/-- A block: room for two tags and eight bytes of payload at least. -/
structure Block where
  size : Nat
  used : Bool
  aligned : size % 8 = 0
  large : 16 ≤ size

/-- The word both tags of the block hold. -/
def Block.tag (block : Block) : Nat := block.size + block.used.toNat

theorem Block.tag_size (block : Block) : block.tag / 8 * 8 = block.size := by
  have haligned := block.aligned
  cases hused : block.used <;> simp [Block.tag, hused] <;> omega

theorem Block.tag_used (block : Block) : block.tag % 2 = block.used.toNat := by
  have haligned := block.aligned
  cases hused : block.used <;> simp [Block.tag, hused] <;> omega

/-- The free block that takes the place of two neighbours. -/
def Block.merge (left right : Block) : Block where
  size := left.size + right.size
  used := false
  aligned := by
    have hleft := left.aligned
    have hright := right.aligned
    omega
  large := Nat.le_add_right_of_le left.large

theorem Block.tag_of_free {block : Block} (hfree : block.used = false) :
    block.tag = block.size := by
  simp [Block.tag, hfree]

/-- The bytes that a list of blocks takes up. -/
def span : List Block → Nat
  | [] => 0
  | block :: rest => block.size + span rest

@[simp] theorem span_nil : span [] = 0 := rfl

@[simp] theorem span_cons (block : Block) (rest : List Block) :
    span (block :: rest) = block.size + span rest := rfl

@[simp] theorem span_append (left right : List Block) :
    span (left ++ right) = span left + span right := by
  induction left with
  | nil => simp
  | cons block rest ih =>
      rw [List.cons_append, span_cons, span_cons, ih, Nat.add_assoc]

theorem span_aligned (blocks : List Block) : span blocks % 8 = 0 := by
  induction blocks with
  | nil => rfl
  | cons block rest ih =>
      have haligned := block.aligned
      rw [span_cons]
      omega

/-- The tags of the blocks, laid out from address `a` on. -/
def Tiles (mem : Mem) : Nat → List Block → Prop
  | _, [] => True
  | a, block :: rest =>
      getWord mem a = block.tag ∧ getWord mem (a + block.size - 4) = block.tag ∧
        Tiles mem (a + block.size) rest

theorem tiles_append (mem : Mem) (a : Nat) (left right : List Block) :
    Tiles mem a (left ++ right) ↔
      Tiles mem a left ∧ Tiles mem (a + span left) right := by
  induction left generalizing a with
  | nil => simp [Tiles]
  | cons block rest ih =>
      simp only [List.cons_append, Tiles, ih, span_cons, Nat.add_assoc]
      tauto

/-- The tiling reads nothing outside its own bytes. -/
theorem Tiles.congr {mem mem' : Mem} {a : Nat} {blocks : List Block}
    (hagree : ∀ x, a ≤ x → x < a + span blocks → mem' x = mem x)
    (htiles : Tiles mem a blocks) : Tiles mem' a blocks := by
  induction blocks generalizing a with
  | nil => trivial
  | cons block rest ih =>
      obtain ⟨hheader, hfooter, hrest⟩ := htiles
      have hlarge := block.large
      rw [span_cons] at hagree
      refine ⟨?_, ?_, ?_⟩
      · rw [← hheader]
        apply getWord_congr
        intro x hlow hhigh
        exact hagree x hlow (by omega)
      · rw [← hfooter]
        apply getWord_congr
        intro x hlow hhigh
        exact hagree x (by omega) (by omega)
      · apply ih _ hrest
        intro x hlow hhigh
        exact hagree x (by omega) (by omega)

/-- Replace the middle of a tiling: the new blocks take up the same bytes and
memory is unchanged elsewhere. -/
theorem Tiles.splice {mem mem' : Mem} {a : Nat} {pre old new post : List Block}
    (htiles : Tiles mem a (pre ++ old ++ post))
    (hspan : span new = span old)
    (hnew : Tiles mem' (a + span pre) new)
    (hagree : ∀ x, x < a + span pre ∨ a + span pre + span old ≤ x →
      mem' x = mem x) :
    Tiles mem' a (pre ++ new ++ post) := by
  rw [tiles_append, tiles_append] at htiles ⊢
  obtain ⟨⟨hpre, _⟩, hpost⟩ := htiles
  refine ⟨⟨?_, hnew⟩, ?_⟩
  · apply hpre.congr
    intro x _ hhigh
    exact hagree x (Or.inl hhigh)
  · rw [span_append] at hpost ⊢
    rw [hspan]
    apply hpost.congr
    intro x hlow _
    exact hagree x (Or.inr (by omega))

/-- Write both tags of a block whose header is at `a`. -/
def writeTags (mem : Mem) (a : Nat) (block : Block) : Mem :=
  putWord (putWord mem a block.tag) (a + block.size - 4) block.tag

theorem Block.tag_lt {block : Block} (hsize : block.size < 2 ^ 32) :
    block.tag < 2 ^ 32 := by
  have haligned := block.aligned
  cases hused : block.used <;> simp [Block.tag, hused] <;> omega

theorem writeTags_of_outside (mem : Mem) {a x : Nat} (block : Block)
    (houtside : x < a ∨ a + block.size ≤ x) :
    writeTags mem a block x = mem x := by
  have hlarge := block.large
  rw [writeTags, putWord_of_outside _ _ (by omega),
    putWord_of_outside _ _ (by omega)]

theorem tiles_writeTags (mem : Mem) (a : Nat) {block : Block}
    (hsize : block.size < 2 ^ 32) :
    Tiles (writeTags mem a block) a [block] := by
  have hlarge := block.large
  have htag := block.tag_lt hsize
  refine ⟨?_, getWord_putWord _ htag, trivial⟩
  rw [writeTags, getWord_putWord_of_disjoint _ _ (by omega),
    getWord_putWord _ htag]

/-- One more block behind a tiling. -/
theorem Tiles.concat_writeTags {mem : Mem} {a : Nat} {blocks : List Block}
    {block : Block} (htiles : Tiles mem a blocks)
    (hsize : block.size < 2 ^ 32) :
    Tiles (writeTags mem (a + span blocks) block) a (blocks ++ [block]) := by
  rw [tiles_append]
  refine ⟨?_, tiles_writeTags mem _ hsize⟩
  apply htiles.congr
  intro x _ hhigh
  exact writeTags_of_outside mem block (Or.inl hhigh)

/-- The order of the two tag writes does not matter. -/
theorem writeTags_comm (mem : Mem) (a : Nat) (block : Block) :
    putWord (putWord mem (a + block.size - 4) block.tag) a block.tag =
      writeTags mem a block := by
  have hlarge := block.large
  exact putWord_comm mem block.tag block.tag (by omega)

/-- A block together with the blocks before and after it. -/
structure At (a : Nat) (blocks : List Block) (header : Nat) (block : Block) :
    Prop where
  split : ∃ pre post, blocks = pre ++ block :: post ∧ header = a + span pre

theorem at_append {a header : Nat} {left right : List Block} {block : Block} :
    At a (left ++ right) header block ↔
      At a left header block ∨ At (a + span left) right header block := by
  constructor
  · intro hat
    obtain ⟨pre, post, hsplit, rfl⟩ := hat.split
    rcases List.append_eq_append_iff.mp hsplit with
      ⟨mid, rfl, rfl⟩ | ⟨mid, rfl, hmid⟩
    · exact Or.inr ⟨mid, post, rfl, by rw [span_append, Nat.add_assoc]⟩
    · cases mid with
      | nil =>
          exact Or.inr ⟨[], post, by simpa using hmid.symm, by simp⟩
      | cons head rest =>
          simp only [List.cons_append, List.cons.injEq] at hmid
          obtain ⟨rfl, rfl⟩ := hmid
          exact Or.inl ⟨pre, rest, rfl, rfl⟩
  · rintro (hat | hat)
    · obtain ⟨pre, post, rfl, rfl⟩ := hat.split
      exact ⟨pre, post ++ right, by simp, rfl⟩
    · obtain ⟨pre, post, rfl, rfl⟩ := hat.split
      exact ⟨left ++ pre, post, by simp, by rw [span_append, Nat.add_assoc]⟩

theorem At.tags {mem : Mem} {a header : Nat} {blocks : List Block}
    {block : Block} (hat : At a blocks header block)
    (htiles : Tiles mem a blocks) :
    getWord mem header = block.tag ∧
      getWord mem (header + block.size - 4) = block.tag := by
  obtain ⟨pre, post, rfl, rfl⟩ := hat.split
  rw [tiles_append] at htiles
  exact ⟨htiles.2.1, htiles.2.2.1⟩

theorem At.bounds {a header : Nat} {blocks : List Block} {block : Block}
    (hat : At a blocks header block) :
    a ≤ header ∧ header + block.size ≤ a + span blocks := by
  obtain ⟨pre, post, rfl, rfl⟩ := hat.split
  rw [span_append, span_cons]
  omega

/-- Blocks do not overlap. -/
theorem At.disjoint {a header header' : Nat} {blocks : List Block}
    {block block' : Block} (hat : At a blocks header block)
    (hat' : At a blocks header' block') :
    (header = header' ∧ block = block') ∨ header + block.size ≤ header' ∨
      header' + block'.size ≤ header := by
  obtain ⟨pre, post, hsplit, rfl⟩ := hat.split
  obtain ⟨pre', post', hsplit', rfl⟩ := hat'.split
  rw [hsplit] at hsplit'
  rcases List.append_eq_append_iff.mp hsplit' with
    ⟨mid, rfl, hmid⟩ | ⟨mid, rfl, hmid⟩
  · cases mid with
    | nil =>
        simp only [List.nil_append, List.cons.injEq] at hmid
        exact Or.inl ⟨by simp, hmid.1⟩
    | cons head rest =>
        simp only [List.cons_append, List.cons.injEq] at hmid
        rw [← hmid.1]
        refine Or.inr (Or.inl ?_)
        rw [span_append, span_cons]
        omega
  · cases mid with
    | nil =>
        simp only [List.nil_append, List.cons.injEq] at hmid
        exact Or.inl ⟨by simp, hmid.1.symm⟩
    | cons head rest =>
        simp only [List.cons_append, List.cons.injEq] at hmid
        rw [← hmid.1]
        refine Or.inr (Or.inr ?_)
        rw [span_append, span_cons]
        omega

/-- The header addresses of the blocks in use, in ascending order. -/
def usedHeaders : Nat → List Block → List Nat
  | _, [] => []
  | a, block :: rest =>
      if block.used then a :: usedHeaders (a + block.size) rest
      else usedHeaders (a + block.size) rest

@[simp] theorem usedHeaders_nil (a : Nat) : usedHeaders a [] = [] := rfl

theorem usedHeaders_append (a : Nat) (left right : List Block) :
    usedHeaders a (left ++ right) =
      usedHeaders a left ++ usedHeaders (a + span left) right := by
  induction left generalizing a with
  | nil => simp
  | cons block rest ih =>
      by_cases hused : block.used = true
      · simp [usedHeaders, hused, ih, Nat.add_assoc]
      · simp [usedHeaders, hused, ih, Nat.add_assoc]

theorem mem_usedHeaders {a header : Nat} {blocks : List Block} :
    header ∈ usedHeaders a blocks ↔
      ∃ block, At a blocks header block ∧ block.used = true := by
  constructor
  · intro hmem
    induction blocks generalizing a with
    | nil => simp at hmem
    | cons head rest ih =>
        have htail : ∀ {block : Block}, At (a + head.size) rest header block →
            At a (head :: rest) header block := by
          intro block hat
          obtain ⟨pre, post, rfl, rfl⟩ := hat.split
          exact ⟨head :: pre, post, rfl, by simp [Nat.add_assoc]⟩
        by_cases hused : head.used = true
        · simp only [usedHeaders, hused, ↓reduceIte, List.mem_cons] at hmem
          rcases hmem with rfl | hmem
          · exact ⟨head, ⟨[], rest, rfl, rfl⟩, hused⟩
          · obtain ⟨block, hat, hblock⟩ := ih hmem
            exact ⟨block, htail hat, hblock⟩
        · simp only [usedHeaders, hused, Bool.false_eq_true, ↓reduceIte] at hmem
          obtain ⟨block, hat, hblock⟩ := ih hmem
          exact ⟨block, htail hat, hblock⟩
  · rintro ⟨block, hat, hused⟩
    obtain ⟨pre, post, rfl, rfl⟩ := hat.split
    rw [usedHeaders_append]
    simp [usedHeaders, hused]

/-- No two neighbours are both free. -/
def Coalesced (blocks : List Block) : Prop :=
  blocks.IsChain fun left right => left.used = true ∨ right.used = true

/-- Is the last block in use?  An empty list has a used boundary instead. -/
def lastUsed (blocks : List Block) : Bool :=
  match blocks.getLast? with
  | none => true
  | some block => block.used

/-- Is the first block in use?  An empty list has a used boundary instead. -/
def headUsed : List Block → Bool
  | [] => true
  | block :: _ => block.used

@[simp] theorem lastUsed_nil : lastUsed [] = true := rfl

@[simp] theorem lastUsed_concat (blocks : List Block) (block : Block) :
    lastUsed (blocks ++ [block]) = block.used := by
  simp [lastUsed]

@[simp] theorem headUsed_nil : headUsed [] = true := rfl

@[simp] theorem headUsed_cons (block : Block) (blocks : List Block) :
    headUsed (block :: blocks) = block.used := rfl

/-- A free block needs a block in use, or the boundary, on both sides. -/
theorem coalesced_append_cons {pre post : List Block} {block : Block} :
    Coalesced (pre ++ block :: post) ↔
      Coalesced pre ∧ Coalesced post ∧
        (block.used = true ∨ lastUsed pre = true ∧ headUsed post = true) := by
  have hleft : (∀ x ∈ pre.getLast?, x.used = true ∨ block.used = true) ↔
      block.used = true ∨ lastUsed pre = true := by
    rcases List.eq_nil_or_concat pre with rfl | ⟨rest, prev, rfl⟩
    · simp
    · simp [or_comm]
  have hright : (∀ y ∈ post.head?, block.used = true ∨ y.used = true) ↔
      block.used = true ∨ headUsed post = true := by
    cases post <;> simp
  simp only [Coalesced, List.isChain_append, List.isChain_cons, List.head?_cons,
    Option.mem_some_iff, forall_eq', hleft, hright]
  tauto

theorem coalesced_cons {post : List Block} {block : Block} :
    Coalesced (block :: post) ↔
      Coalesced post ∧ (block.used = true ∨ headUsed post = true) := by
  have hiff : Coalesced ([] ++ block :: post) ↔ _ := coalesced_append_cons
  simpa [Coalesced] using hiff

theorem Coalesced.last_cases {blocks : List Block}
    (hcoalesced : Coalesced blocks) :
    lastUsed blocks = true ∨ ∃ rest block, blocks = rest ++ [block] ∧
      block.used = false ∧ Coalesced rest ∧ lastUsed rest = true := by
  rcases List.eq_nil_or_concat blocks with rfl | ⟨rest, block, hconcat⟩
  · exact Or.inl rfl
  · rw [List.concat_eq_append] at hconcat
    subst hconcat
    obtain ⟨hrest, _, hsides⟩ := coalesced_append_cons.mp hcoalesced
    cases hused : block.used with
    | true => exact Or.inl (by simpa using hused)
    | false =>
        rw [hused] at hsides
        exact Or.inr ⟨rest, block, rfl, hused, hrest, by simpa using hsides⟩

theorem Coalesced.head_cases {blocks : List Block}
    (hcoalesced : Coalesced blocks) :
    headUsed blocks = true ∨ ∃ block rest, blocks = block :: rest ∧
      block.used = false ∧ Coalesced rest ∧ headUsed rest = true := by
  cases blocks with
  | nil => exact Or.inl rfl
  | cons block rest =>
      obtain ⟨hrest, hsides⟩ := coalesced_cons.mp hcoalesced
      cases hused : block.used with
      | true => exact Or.inl hused
      | false =>
          rw [hused] at hsides
          exact Or.inr ⟨block, rest, rfl, hused, hrest, by simpa using hsides⟩

/-- A coalesced tiling without a block in use has at most one block. -/
theorem Coalesced.length_le_one {blocks : List Block}
    (hcoalesced : Coalesced blocks)
    (hfree : ∀ block ∈ blocks, block.used = false) : blocks.length ≤ 1 := by
  rcases blocks with _ | ⟨first, _ | ⟨second, rest⟩⟩
  · simp
  · simp
  · have hpair := (List.isChain_cons_cons.mp hcoalesced).1
    rw [hfree first (by simp), hfree second (by simp)] at hpair
    simp at hpair

theorem usedHeaders_free (a : Nat) {blocks : List Block}
    (hfree : ∀ block ∈ blocks, block.used = false) :
    usedHeaders a blocks = [] := by
  induction blocks generalizing a with
  | nil => rfl
  | cons block rest ih =>
      rw [List.forall_mem_cons] at hfree
      simp [usedHeaders, hfree.1, ih _ hfree.2]

/-- The blocks in use whose header is in `kept` stay where they are, with all
their bytes. -/
structure Keeps (kept : Nat → Prop) (a : Nat) (mem mem' : Mem)
    (blocks blocks' : List Block) : Prop where
  block : ∀ {header block}, kept header → At a blocks header block →
    block.used = true → At a blocks' header block
  byte : ∀ {header block}, kept header → At a blocks header block →
    block.used = true → ∀ x, header ≤ x → x < header + block.size →
      mem' x = mem x

theorem Keeps.trans {kept : Nat → Prop} {a : Nat} {mem mem' mem'' : Mem}
    {blocks blocks' blocks'' : List Block}
    (hfirst : Keeps kept a mem mem' blocks blocks')
    (hsecond : Keeps kept a mem' mem'' blocks' blocks'') :
    Keeps kept a mem mem'' blocks blocks'' where
  block hkept hat hused :=
    hsecond.block hkept (hfirst.block hkept hat hused) hused
  byte hkept hat hused x hlow hhigh := by
    rw [hsecond.byte hkept (hfirst.block hkept hat hused) hused x hlow hhigh]
    exact hfirst.byte hkept hat hused x hlow hhigh

theorem Keeps.mono {kept kept' : Nat → Prop} {a : Nat} {mem mem' : Mem}
    {blocks blocks' : List Block} (himp : ∀ header, kept' header → kept header)
    (hkeeps : Keeps kept a mem mem' blocks blocks') :
    Keeps kept' a mem mem' blocks blocks' where
  block hkept := hkeeps.block (himp _ hkept)
  byte hkept := hkeeps.byte (himp _ hkept)

theorem Keeps.refl (kept : Nat → Prop) (a : Nat) (mem : Mem)
    (blocks : List Block) : Keeps kept a mem mem blocks blocks where
  block _ hat _ := hat
  byte _ _ _ _ _ _ := rfl

theorem At.mem {a header : Nat} {blocks : List Block} {block : Block}
    (hat : At a blocks header block) : block ∈ blocks := by
  obtain ⟨pre, post, rfl, _⟩ := hat.split
  simp

theorem at_singleton {a header : Nat} {block other : Block}
    (hat : At a [block] header other) : header = a := by
  have hbounds := hat.bounds
  have hlarge := other.large
  rw [List.mem_singleton.mp hat.mem, span_cons, span_nil] at hbounds
  omega

/-- An edit of the middle keeps the blocks on both sides of it. -/
theorem keeps_splice {kept : Nat → Prop} {a : Nat} {mem mem' : Mem}
    {pre old new post : List Block} (hspan : span new = span old)
    (hagree : ∀ x, x < a + span pre ∨ a + span pre + span old ≤ x →
      mem' x = mem x)
    (hold : ∀ header block, At (a + span pre) old header block →
      block.used = true → ¬ kept header) :
    Keeps kept a mem mem' (pre ++ old ++ post) (pre ++ new ++ post) := by
  -- a kept block lies before the edit or behind it
  have hcases : ∀ header block, kept header →
      At a (pre ++ old ++ post) header block → block.used = true →
      At a (pre ++ new ++ post) header block ∧
        (header + block.size ≤ a + span pre ∨
          a + span pre + span old ≤ header) := by
    intro header block hkept hat hused
    rw [List.append_assoc, at_append, at_append] at hat
    rw [List.append_assoc, at_append, at_append]
    rcases hat with hat | hat | hat
    · exact ⟨Or.inl hat, Or.inl hat.bounds.2⟩
    · exact absurd hkept (hold header block hat hused)
    · refine ⟨Or.inr (Or.inr ?_), Or.inr hat.bounds.1⟩
      rw [hspan]
      exact hat
  constructor
  · intro header block hkept hat hused
    exact (hcases header block hkept hat hused).1
  · intro header block hkept hat hused x hlow hhigh
    have hside := (hcases header block hkept hat hused).2
    exact hagree x (by omega)

theorem usedHeaders_ge {a header : Nat} {blocks : List Block}
    (hmem : header ∈ usedHeaders a blocks) : a ≤ header := by
  obtain ⟨block, hat, _⟩ := mem_usedHeaders.mp hmem
  exact hat.bounds.1

theorem usedHeaders_sorted (a : Nat) (blocks : List Block) :
    (usedHeaders a blocks).Pairwise (· < ·) := by
  induction blocks generalizing a with
  | nil => exact List.Pairwise.nil
  | cons block rest ih =>
      by_cases hused : block.used = true
      · simp only [usedHeaders, hused, ↓reduceIte]
        refine List.pairwise_cons.mpr ⟨fun header hmem => ?_, ih _⟩
        have hge := usedHeaders_ge hmem
        have hlarge := block.large
        omega
      · simp only [usedHeaders, hused, Bool.false_eq_true, ↓reduceIte]
        exact ih _

theorem usedHeaders_nodup (a : Nat) (blocks : List Block) :
    (usedHeaders a blocks).Nodup :=
  (usedHeaders_sorted a blocks).imp Nat.ne_of_lt

/-- Blocks of the given sizes in use, and one free block in each gap. -/
def fillGaps (sizeAt : Nat → Nat) (stop : Nat) :
    Nat → List Nat → List (Nat × Bool)
  | a, [] => if a < stop then [(stop - a, false)] else []
  | a, header :: rest =>
      (if a < header then [(header - a, false)] else []) ++
        (sizeAt header, true) ::
          fillGaps sizeAt stop (header + sizeAt header) rest

/-- A coalesced tiling is known from its blocks in use. -/
theorem Coalesced.eq_fillGaps {mem : Mem} {a : Nat} {blocks : List Block}
    (hcoalesced : Coalesced blocks) (htiles : Tiles mem a blocks) :
    blocks.map (fun block => (block.size, block.used)) =
      fillGaps (fun header => getWord mem header / 8 * 8) (a + span blocks) a
        (usedHeaders a blocks) := by
  induction blocks generalizing a with
  | nil => simp [fillGaps]
  | cons block rest ih =>
      obtain ⟨hrest, hnext⟩ := coalesced_cons.mp hcoalesced
      have hpos : 0 < block.size := Nat.zero_lt_of_lt block.large
      have hsize := block.tag_size
      rw [← htiles.1] at hsize
      rw [List.map_cons, ih hrest htiles.2.2, span_cons, ← Nat.add_assoc]
      cases hused : block.used with
      | true => simp [usedHeaders, fillGaps, hused, hsize]
      | false =>
          -- the next block is in use, if there is one
          cases rest with
          | nil => simp [usedHeaders, fillGaps, hused, hpos]
          | cons next rest =>
              have hnext : next.used = true := by simpa [hused] using hnext
              simp [usedHeaders, fillGaps, hused, hpos, hnext]

/-- Bytes between the tags of a block do not matter to the tiling. -/
theorem Tiles.congr_payload {mem mem' : Mem} {a : Nat} {block : Block}
    (htiles : Tiles mem a [block])
    (hagree : ∀ x, x < a + 4 ∨ a + block.size - 4 ≤ x → mem' x = mem x) :
    Tiles mem' a [block] := by
  obtain ⟨hheader, hfooter, _⟩ := htiles
  have hlarge := block.large
  refine ⟨?_, ?_, trivial⟩
  · rw [← hheader]
    apply getWord_congr
    intro x _ hhigh
    exact hagree x (Or.inl hhigh)
  · rw [← hfooter]
    apply getWord_congr
    intro x hlow _
    exact hagree x (Or.inr hlow)

end BoundaryTag
