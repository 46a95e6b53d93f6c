/-
Ring buffers with a head index and a count.  Elements are copied in and out
one at a time, each index wrapping at the capacity; the lemmas say what a
batch of copies does to the contents.
-/
import Mathlib.Data.List.Basic

namespace RingBuffer

universe u

variable {α : Type u}

/-- The `count` elements from `head` on. -/
def contents (size : Nat) (buf : Nat → α) (head count : Nat) : List α :=
  (List.range count).map fun i => buf ((head + i) % size)

/-- Copy out `n` elements from `head` on; the result has the new head. -/
def copyOut (size : Nat) (buf : Nat → α) : Nat → Nat → List α × Nat
  | 0, head => ([], head)
  | n + 1, head =>
      let rest := copyOut size buf n ((head + 1) % size)
      (buf head :: rest.1, rest.2)

/-- Copy elements in from index `tail` on. -/
def copyIn (size : Nat) : (Nat → α) → Nat → List α → (Nat → α)
  | buf, _, [] => buf
  | buf, tail, element :: rest =>
      copyIn size (Function.update buf tail element) ((tail + 1) % size) rest

theorem contents_succ {size : Nat} (buf : Nat → α) {head : Nat} (count : Nat)
    (hhead : head < size) :
    contents size buf head (count + 1) =
      buf head :: contents size buf ((head + 1) % size) count := by
  have hshift : ∀ i, ((head + 1) % size + i) % size = (head + (i + 1)) % size := by
    intro i
    rw [Nat.mod_add_mod, Nat.add_assoc, Nat.add_comm 1 i]
  simp only [contents, List.range_succ_eq_map, List.map_cons, List.map_map,
    Nat.add_zero, Nat.mod_eq_of_lt hhead, Function.comp_def, hshift]

/-- Copying out takes the elements from the front. -/
theorem contents_eq_copyOut {size n count : Nat} (buf : Nat → α) {head : Nat}
    (hhead : head < size) (hn : n ≤ count) :
    contents size buf head count =
      (copyOut size buf n head).1 ++
        contents size buf (copyOut size buf n head).2 (count - n) := by
  induction n generalizing head count with
  | zero => rfl
  | succ n ih =>
      obtain ⟨count, rfl⟩ : ∃ m, count = m + 1 := ⟨count - 1, by omega⟩
      have hnext : (head + 1) % size < size := Nat.mod_lt _ (by omega)
      rw [contents_succ buf count hhead, ih hnext (by omega : n ≤ count),
        Nat.add_sub_add_right]
      rfl

theorem copyOut_head_lt {size : Nat} (buf : Nat → α) (n : Nat) {head : Nat}
    (hhead : head < size) : (copyOut size buf n head).2 < size := by
  induction n generalizing head with
  | zero => exact hhead
  | succ n ih => exact ih (Nat.mod_lt _ (by omega))

/-- Distinct offsets below the capacity are distinct slots. -/
theorem slot_ne {size head i j : Nat} (hij : i < j) (hj : j < size) :
    (head + i) % size ≠ (head + j) % size := by
  intro heq
  have hdvd : size ∣ head + j - (head + i) :=
    Nat.dvd_of_mod_eq_zero (Nat.sub_mod_eq_zero_of_mod_eq heq.symm)
  have hle := Nat.le_of_dvd (by omega) hdvd
  omega

/-- One element written behind the last one. -/
theorem contents_update {size head count : Nat} (buf : Nat → α) (element : α)
    (hroom : count < size) :
    contents size (Function.update buf ((head + count) % size) element) head
        (count + 1) =
      contents size buf head count ++ [element] := by
  simp only [contents, List.range_succ, List.map_append, List.map_cons,
    List.map_nil, Function.update_self]
  congr 1
  apply List.map_congr_left
  intro i hi
  rw [Function.update_of_ne (slot_ne (List.mem_range.mp hi) hroom)]

/-- Copying in appends at the back. -/
theorem contents_copyIn {size head count : Nat} (buf : Nat → α)
    (elements : List α) (hroom : count + elements.length ≤ size) :
    contents size (copyIn size buf ((head + count) % size) elements) head
        (count + elements.length) =
      contents size buf head count ++ elements := by
  induction elements generalizing buf count with
  | nil => simp [copyIn]
  | cons element rest ih =>
      rw [List.length_cons] at hroom ⊢
      have hnext : ((head + count) % size + 1) % size =
          (head + (count + 1)) % size := by
        rw [Nat.mod_add_mod, Nat.add_assoc]
      have hcount : count + (rest.length + 1) = count + 1 + rest.length := by
        omega
      rw [copyIn, hnext, hcount, ih _ (by omega),
        contents_update buf element (by omega), List.append_assoc,
        List.singleton_append]

end RingBuffer
