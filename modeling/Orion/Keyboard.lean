/-
The keyboard driver: the ring of typed characters, the modifier keys and the
process that waits for input.
-/
import Orion.MachineInt

namespace Orion

def kbBufferSize : Nat := 64

/-- `kb_waiter_pid` when nobody waits. -/
def kbNoWaiter : Nat := 0xFFFF

structure Keyboard where
  buf : Nat → UInt8
  read : Nat
  write : Nat
  waiterPid : Nat
  shiftHeld : Bool
  capsLock : Bool

def Keyboard.initial : Keyboard where
  buf := fun _ => 0
  read := 0
  write := 0
  waiterPid := kbNoWaiter
  shiftHeld := false
  capsLock := false

/-- The characters of the keys 0x00 to 0x39; the others have none. -/
def scancodeNormal : List UInt8 :=
  [0, 0, 49, 50, 51, 52, 53, 54, 55, 56, 57, 48, 45, 61, 8, 9,
    113, 119, 101, 114, 116, 121, 117, 105, 111, 112, 91, 93, 10, 0, 97, 115,
    100, 102, 103, 104, 106, 107, 108, 59, 39, 96, 0, 92, 122, 120, 99, 118,
    98, 110, 109, 44, 46, 47, 0, 42, 0, 32]

def scancodeShifted : List UInt8 :=
  [0, 0, 33, 64, 35, 36, 37, 94, 38, 42, 40, 41, 95, 43, 8, 9,
    81, 87, 69, 82, 84, 89, 85, 73, 79, 80, 123, 125, 10, 0, 65, 83,
    68, 70, 71, 72, 74, 75, 76, 58, 34, 126, 0, 124, 90, 88, 67, 86,
    66, 78, 77, 60, 62, 63, 0, 42, 0, 32]

namespace Keyboard

variable (kbd : Keyboard)

def hasChar : Bool := kbd.read != kbd.write

/-- Drop the character if the ring is full. -/
def push (c : UInt8) : Keyboard :=
  let next := (kbd.write + 1) % kbBufferSize
  if next ≠ kbd.read then
    { kbd with buf := Function.update kbd.buf kbd.write c, write := next }
  else kbd

/-- Take up to `len` characters. -/
def take : Nat → Keyboard → List UInt8 × Keyboard
  | 0, kbd => ([], kbd)
  | len + 1, kbd =>
      if kbd.hasChar then
        let rest := take len
          { kbd with read := (kbd.read + 1) % kbBufferSize }
        (kbd.buf kbd.read :: rest.1, rest.2)
      else ([], kbd)

/-- The character of a key under the current modifiers.  With caps lock on, a
lower-case letter is raised by the first adjustment and lowered again by the
second. -/
def translate (key : UInt8) : UInt8 :=
  let c := ((if kbd.shiftHeld then scancodeShifted else scancodeNormal)[
    key.toNat]?).getD 0
  let c := if kbd.capsLock ∧ 97 ≤ c ∧ c ≤ 122 then c - 32 else c
  if kbd.capsLock ∧ 65 ≤ c ∧ c ≤ 90 then c + 32 else c

end Keyboard

/-- One keyboard interrupt: the processes to wake and the new state. -/
def keyboardHandler (kbd : Keyboard) (scancode : UInt8) :
    List Nat × Keyboard :=
  let released := scancode &&& 0x80 ≠ 0
  let key := scancode &&& 0x7F
  if key = 0x2A ∨ key = 0x36 then
    ([], { kbd with shiftHeld := decide ¬ released })
  else if key = 0x3A ∧ ¬ released then
    ([], { kbd with capsLock := !kbd.capsLock })
  else if released then ([], kbd)
  else
    let c := kbd.translate key
    if c = 0 then ([], kbd)
    else
      let kbd := kbd.push c
      if kbd.waiterPid = kbNoWaiter then ([], kbd)
      else ([kbd.waiterPid], { kbd with waiterPid := kbNoWaiter })

end Orion
