/-
Files as byte sequences.  A store of files is what reads and writes through
descriptors see of it: the bytes of each file and where each descriptor
stands.
-/
import Mathlib.Data.List.Basic

namespace ByteFiles

universe u

variable {β : Type u}

structure Descriptor where
  file : Nat
  offset : Nat
  append : Bool
  deriving DecidableEq

structure State (β : Type u) where
  files : Nat → List β
  descriptors : Nat → Option Descriptor

def State.empty : State β := ⟨fun _ => [], fun _ => none⟩

/-- The calls.  A write is refused if there is no memory for it. -/
inductive Call (β : Type u) where
  | open (fd file : Nat) (truncate append : Bool)
  | read (fd len : Nat)
  | write (fd : Nat) (data : List β) (refused : Bool)
  | close (fd : Nat)
  deriving DecidableEq

/-- The returned count, and the bytes that have been read. -/
structure Result (β : Type u) where
  count : Int
  bytes : List β
  deriving DecidableEq

/-- Replace or extend the bytes from `offset` on. -/
def splice (old data : List β) (offset : Nat) : List β :=
  old.take offset ++ data ++ old.drop (offset + data.length)

/-- Let the descriptor stand at `offset`. -/
def State.seek (s : State β) (fd offset : Nat) (d : Descriptor) : State β :=
  { s with descriptors :=
      Function.update s.descriptors fd (some { d with offset := offset }) }

def State.step (s : State β) : Call β → Option (Result β × State β)
  | .open fd file truncate append =>
      let files := if truncate then Function.update s.files file [] else s.files
      let offset := if append then (files file).length else 0
      some (⟨0, []⟩, ⟨files, Function.update s.descriptors fd
        (some ⟨file, offset, append⟩)⟩)
  | .read fd len =>
      (s.descriptors fd).map fun d =>
        let bytes := ((s.files d.file).drop d.offset).take len
        (⟨bytes.length, bytes⟩, s.seek fd (d.offset + bytes.length) d)
  | .write fd data refused =>
      (s.descriptors fd).map fun d =>
        let old := s.files d.file
        let offset := if d.append then old.length else d.offset
        if refused then (⟨-1, []⟩, s.seek fd offset d)
        else (⟨data.length, []⟩, State.seek { s with
          files := Function.update s.files d.file (splice old data offset) }
          fd (offset + data.length) d)
  | .close fd =>
      (s.descriptors fd).map fun _ =>
        (⟨0, []⟩, { s with descriptors := Function.update s.descriptors fd none })

/-- A request to move no bytes. -/
def Call.isEmpty : Call β → Bool
  | .read _ len => len == 0
  | .write _ data _ => data.isEmpty
  | _ => false

/-- The same, for a store that turns empty requests down. -/
def State.strictStep (s : State β) (call : Call β) :
    Option (Result β × State β) :=
  if call.isEmpty then some (⟨-1, []⟩, s) else s.step call

theorem length_splice {old data : List β} {offset : Nat}
    (hoffset : offset ≤ old.length) :
    (splice old data offset).length = max old.length (offset + data.length) := by
  rw [splice, List.length_append, List.length_append, List.length_take,
    List.length_drop]
  omega

theorem getD_splice {old data : List β} {offset : Nat} (zero : β)
    (hoffset : offset ≤ old.length) (i : Nat) :
    (splice old data offset).getD i zero =
      if offset ≤ i ∧ i < offset + data.length then data.getD (i - offset) zero
      else old.getD i zero := by
  have hlength : (old.take offset).length = offset :=
    List.length_take_of_le hoffset
  simp only [splice, List.getD_eq_getElem?_getD, List.append_assoc]
  split_ifs with hinside
  · rw [List.getElem?_append_right (by omega), hlength,
      List.getElem?_append_left (by omega)]
  · rcases Nat.lt_or_ge i offset with hlt | hge
    · rw [List.getElem?_append_left (by omega), List.getElem?_take_of_lt hlt]
    · rw [List.getElem?_append_right (by omega), hlength,
        List.getElem?_append_right (by omega), List.getElem?_drop]
      congr 2
      omega

end ByteFiles
