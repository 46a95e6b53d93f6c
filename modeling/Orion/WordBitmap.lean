/-
Bitmaps stored in 32-bit words: bit `n` lives in word `n / 32` at position
`n % 32`.  The operations are the shifts and masks a C program writes; the
lemmas read them bit by bit, count the set bits below a bound and describe
the word-skipping search for the first clear bit.
-/
import Mathlib.Data.Finset.Card

namespace WordBitmap

/-- The words, indexed from zero. -/
abbrev Words := Nat → BitVec 32

def set (words : Words) (n : Nat) : Words := fun w =>
  if w = n / 32 then words w ||| (1#32 <<< (n % 32)) else words w

def clear (words : Words) (n : Nat) : Words := fun w =>
  if w = n / 32 then words w &&& ~~~(1#32 <<< (n % 32)) else words w

def test (words : Words) (n : Nat) : Bool :=
  ((words (n / 32) >>> (n % 32)) &&& 1#32) != 0#32

theorem test_eq_getLsbD (words : Words) (n : Nat) :
    test words n = (words (n / 32)).getLsbD (n % 32) := by
  have hone : ∀ w : BitVec 32, (w &&& 1#32 != 0#32) = w.getLsbD 0 := by
    intro w
    rw [BitVec.and_one_eq_setWidth_ofBool_getLsbD]
    cases w.getLsbD 0 <;> decide
  rw [test, hone, BitVec.getLsbD_ushiftRight, Nat.add_zero]

/-- The one-bit mask of `n` selects exactly bit `n` of its own word. -/
theorem getLsbD_mask {n m : Nat} (hword : m / 32 = n / 32) :
    (1#32 <<< (n % 32)).getLsbD (m % 32) = decide (m = n) := by
  by_cases heq : m = n
  · subst m
    simp [Nat.mod_lt]
  · have hne : m % 32 ≠ n % 32 := by omega
    simp only [BitVec.getLsbD_shiftLeft, BitVec.getLsbD_one, heq,
      decide_false]
    by_cases hlt : m % 32 < n % 32
    · simp [hlt]
    · have : m % 32 - n % 32 ≠ 0 := by omega
      simp [this]

theorem test_set (words : Words) (n m : Nat) :
    test (set words n) m = (decide (m = n) || test words m) := by
  rw [test_eq_getLsbD, test_eq_getLsbD, set]
  by_cases hword : m / 32 = n / 32
  · rw [if_pos hword, BitVec.getLsbD_or]
    rw [getLsbD_mask hword, Bool.or_comm]
  · have hne : m ≠ n := by
      rintro rfl
      exact hword rfl
    rw [if_neg hword]
    simp [hne]

theorem test_clear (words : Words) (n m : Nat) :
    test (clear words n) m = (!decide (m = n) && test words m) := by
  rw [test_eq_getLsbD, test_eq_getLsbD, clear]
  by_cases hword : m / 32 = n / 32
  · rw [if_pos hword, BitVec.getLsbD_and, BitVec.getLsbD_not]
    have hlt : m % 32 < 32 := Nat.mod_lt m (by decide)
    rw [getLsbD_mask hword, Bool.and_comm]
    simp [hlt]
  · have hne : m ≠ n := by
      rintro rfl
      exact hword rfl
    rw [if_neg hword]
    simp [hne]

theorem test_of_word_full {words : Words} {n : Nat}
    (hfull : words (n / 32) = 0xFFFFFFFF#32) : test words n = true := by
  have hlt : n % 32 < 32 := Nat.mod_lt n (by decide)
  have hones : 0xFFFFFFFF#32 = BitVec.allOnes 32 := by decide
  rw [test_eq_getLsbD, hfull, hones, BitVec.getLsbD_allOnes]
  exact decide_eq_true hlt

/-- The number of set bits below `bound`. -/
def population (words : Words) (bound : Nat) : Nat :=
  ((Finset.range bound).filter fun n => test words n = true).card

theorem population_full {words : Words} {bound : Nat}
    (hfull : ∀ n < bound, test words n = true) :
    population words bound = bound := by
  rw [population, Finset.filter_true_of_mem, Finset.card_range]
  intro n hn
  exact hfull n (Finset.mem_range.mp hn)

theorem population_pos {words : Words} {bound n : Nat} (hn : n < bound)
    (htest : test words n = true) : 0 < population words bound :=
  Finset.card_pos.mpr
    ⟨n, Finset.mem_filter.mpr ⟨Finset.mem_range.mpr hn, htest⟩⟩

theorem population_le (words : Words) (bound : Nat) :
    population words bound ≤ bound := by
  have hle := Finset.card_filter_le (Finset.range bound)
    fun n => test words n = true
  rwa [Finset.card_range] at hle

theorem population_mono (words : Words) {low high : Nat} (hle : low ≤ high) :
    population words low ≤ population words high :=
  Finset.card_le_card
    (Finset.filter_subset_filter _ (Finset.range_mono hle))

/-- Clear bits at the top add nothing. -/
theorem population_of_clear_above {words : Words} {low high : Nat}
    (hle : low ≤ high) (habove : ∀ n, low ≤ n → test words n = false) :
    population words high = population words low := by
  refine congrArg Finset.card (Finset.ext fun n => ?_)
  simp only [Finset.mem_filter, Finset.mem_range]
  refine and_congr_left fun hset => ⟨fun _ => ?_, fun hn => by omega⟩
  by_contra hn
  rw [habove n (by omega)] at hset
  contradiction

theorem population_set {words : Words} {bound n : Nat} (hn : n < bound)
    (htest : test words n = false) :
    population (set words n) bound = population words bound + 1 := by
  have hinsert :
      (Finset.range bound).filter (fun m => test (set words n) m = true) =
        insert n ((Finset.range bound).filter
          fun m => test words m = true) := by
    ext m
    simp only [Finset.mem_filter, Finset.mem_range, Finset.mem_insert,
      test_set, Bool.or_eq_true, decide_eq_true_eq]
    constructor
    · rintro ⟨hm, heq | hold⟩
      · exact Or.inl heq
      · exact Or.inr ⟨hm, hold⟩
    · rintro (heq | ⟨hm, hold⟩)
      · exact ⟨heq ▸ hn, Or.inl heq⟩
      · exact ⟨hm, Or.inr hold⟩
  rw [population, hinsert, Finset.card_insert_of_notMem, population]
  simp [htest]

/-- Clearing a bit is undone by setting it, so the count drops by one. -/
theorem population_clear {words : Words} {bound n : Nat} (hn : n < bound)
    (htest : test words n = true) :
    population (clear words n) bound + 1 = population words bound := by
  have hclear : test (clear words n) n = false := by simp [test_clear]
  rw [← population_set hn hclear, population, population]
  congr 1
  apply Finset.filter_congr
  intro m _
  rw [test_set, test_clear]
  by_cases heq : m = n
  · simp [heq, htest]
  · simp [heq]

/-- The search of one word: a full word is skipped, otherwise its bits are
tried in ascending order. -/
def searchWord (words : Words) (wanted : Nat → Bool) (w : Nat) : Option Nat :=
  if words w = 0xFFFFFFFF#32 then none
  else ((List.range 32).map fun bit => w * 32 + bit).find?
    fun n => wanted n && !test words n

/-- The search of the words `first, ..., last - 1`. -/
def search (words : Words) (wanted : Nat → Bool) (first last : Nat) :
    Option Nat :=
  (List.range' first (last - first)).findSome? (searchWord words wanted)

theorem searchWord_eq_find? (words : Words) (wanted : Nat → Bool) (w : Nat) :
    searchWord words wanted w =
      (List.range' (w * 32) 32).find? fun n => wanted n && !test words n := by
  have hbits : (List.range 32).map (fun bit => w * 32 + bit) =
      List.range' (w * 32) 32 := by
    rw [List.range_eq_range', List.map_add_range', Nat.add_zero]
  rw [searchWord, hbits]
  by_cases hfull : words w = 0xFFFFFFFF#32
  · rw [if_pos hfull, eq_comm, List.find?_range'_eq_none]
    intro n hlow hhigh
    have hword : n / 32 = w := by omega
    rw [test_of_word_full (hword ▸ hfull)]
    simp
  · rw [if_neg hfull]

theorem flatMap_wordBits (first count : Nat) :
    (List.range' first count).flatMap (fun w => List.range' (w * 32) 32) =
      List.range' (first * 32) (count * 32) := by
  induction count generalizing first with
  | zero => simp
  | succ count ih =>
      rw [List.range'_succ, List.flatMap_cons, ih (first + 1),
        Nat.add_mul first 1 32, Nat.one_mul, List.range'_append_1]
      congr 1
      omega

/-- Skipping full words does not change the bit that is found. -/
theorem search_eq_find? (words : Words) (wanted : Nat → Bool)
    (first last : Nat) :
    search words wanted first last =
      (List.range' (first * 32) ((last - first) * 32)).find?
        fun n => wanted n && !test words n := by
  rw [search, ← flatMap_wordBits, List.find?_flatMap]
  congr 1
  funext w
  exact searchWord_eq_find? words wanted w

/-- Bit `n` is the lowest clear bit of the range `start, ..., stop - 1`. -/
structure FirstClear (words : Words) (start stop n : Nat) : Prop where
  start_le : start ≤ n
  lt_stop : n < stop
  clear : test words n = false
  below : ∀ m, start ≤ m → m < n → test words m = true

theorem FirstClear.unique {words : Words} {start stop n m : Nat}
    (hn : FirstClear words start stop n) (hm : FirstClear words start stop m) :
    n = m := by
  rcases Nat.lt_trichotomy n m with hlt | heq | hgt
  · have hset := hm.below n hn.start_le hlt
    rw [hn.clear] at hset
    contradiction
  · exact heq
  · have hset := hn.below m hm.start_le hgt
    rw [hm.clear] at hset
    contradiction

section Search

variable {words : Words} {wanted : Nat → Bool} {start stop : Nat}

/-- The word bounds `start / 32` and `(stop + 31) / 32` enclose the range. -/
theorem search_some_firstClear
    (hwanted : ∀ n, wanted n = true ↔ start ≤ n ∧ n < stop) {n : Nat}
    (hfound : search words wanted (start / 32) ((stop + 31) / 32) = some n) :
    FirstClear words start stop n := by
  rw [search_eq_find?, List.find?_range'_eq_some] at hfound
  obtain ⟨hn, _, hbelow⟩ := hfound
  simp only [Bool.and_eq_true, hwanted, Bool.not_eq_true'] at hn
  refine ⟨hn.1.1, hn.1.2, hn.2, ?_⟩
  intro m hlow hhigh
  have hm := hbelow m (by omega) hhigh
  have hin : wanted m = true := (hwanted m).mpr ⟨hlow, hhigh.trans hn.1.2⟩
  simpa [hin] using hm

theorem search_none_full
    (hwanted : ∀ n, wanted n = true ↔ start ≤ n ∧ n < stop)
    (hnone : search words wanted (start / 32) ((stop + 31) / 32) = none) :
    ∀ m, start ≤ m → m < stop → test words m = true := by
  intro m hlow hhigh
  rw [search_eq_find?, List.find?_range'_eq_none] at hnone
  have hm := hnone m (by omega) (by omega)
  have hin : wanted m = true := (hwanted m).mpr ⟨hlow, hhigh⟩
  simpa [hin] using hm

end Search

end WordBitmap
