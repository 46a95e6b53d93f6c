/-
The way of a character through the keyboard driver: the ring is a queue of 63
characters, and scancodes are decoded with one flag for two shift keys and with
two case flips of which the second undoes the first.
-/
import Orion.Keyboard
import Orion.Machine
import Orion.RingBuffer

namespace Orion

open Machine (collect)

/-- `keyboard_getchar`: 0 if nothing is pending. -/
def Keyboard.getchar (kbd : Keyboard) : UInt8 × Keyboard :=
  if kbd.read = kbd.write then (0, kbd)
  else (kbd.buf kbd.read,
    { kbd with read := (kbd.read + 1) % kbBufferSize })

/-- The calls on the ring. -/
inductive RingCall where
  | push (c : UInt8)
  | getchar
  deriving DecidableEq, Repr

/-- One call, with what it returns. -/
def Keyboard.serve (kbd : Keyboard) : RingCall → Option (Option UInt8 × Keyboard)
  | .push c => some (none, kbd.push c)
  | .getchar => some (some kbd.getchar.1, kbd.getchar.2)

/-- The queue that the ring implements: all characters accepted so far, and how
many of them have been taken. -/
structure CharQueue where
  accepted : List UInt8
  taken : Nat

namespace CharQueue

def empty : CharQueue := ⟨[], 0⟩

variable (q : CharQueue)

def pending : List UInt8 := q.accepted.drop q.taken

/-- A character is dropped if 63 are pending. -/
def push (c : UInt8) : CharQueue :=
  if q.pending.length = kbBufferSize - 1 then q
  else { q with accepted := q.accepted ++ [c] }

/-- The first character that has not been taken yet. -/
def getchar : UInt8 × CharQueue :=
  match q.accepted[q.taken]? with
  | none => (0, q)
  | some c => (c, { q with taken := q.taken + 1 })

def serve : RingCall → Option (Option UInt8 × CharQueue)
  | .push c => some (none, q.push c)
  | .getchar => some (some q.getchar.1, q.getchar.2)

end CharQueue

/-- The ring holds the pending characters from the read index on. -/
structure Queues (kbd : Keyboard) (q : CharQueue) : Prop where
  read_lt : kbd.read < kbBufferSize
  taken_le : q.taken ≤ q.accepted.length
  room : q.pending.length < kbBufferSize
  tail : kbd.write = (kbd.read + q.pending.length) % kbBufferSize
  contents : RingBuffer.contents kbBufferSize kbd.buf kbd.read q.pending.length =
    q.pending

section Ring

variable {kbd : Keyboard} {q : CharQueue}

theorem Queues.read_eq_write_iff (hq : Queues kbd q) :
    kbd.read = kbd.write ↔ q.pending = [] := by
  have hread := hq.read_lt
  have hroom := hq.room
  rw [hq.tail, ← List.length_eq_zero_iff]
  simp only [kbBufferSize] at *
  omega

theorem Queues.full_iff (hq : Queues kbd q) :
    (kbd.write + 1) % kbBufferSize = kbd.read ↔
      q.pending.length = kbBufferSize - 1 := by
  have hread := hq.read_lt
  have hroom := hq.room
  rw [hq.tail]
  simp only [kbBufferSize] at *
  omega

theorem Queues.push (hq : Queues kbd q) (c : UInt8) :
    Queues (kbd.push c) (q.push c) := by
  by_cases hfull : q.pending.length = kbBufferSize - 1
  · rwa [Keyboard.push, if_neg (not_not.mpr (hq.full_iff.mpr hfull)),
      CharQueue.push, if_pos hfull]
  · rw [Keyboard.push, if_pos (mt hq.full_iff.mp hfull), CharQueue.push,
      if_neg hfull]
    have hroom := hq.room
    have hpending : (CharQueue.mk (q.accepted ++ [c]) q.taken).pending =
        q.pending ++ [c] := List.drop_append_of_le_length hq.taken_le
    have hlength : (CharQueue.mk (q.accepted ++ [c]) q.taken).pending.length =
        q.pending.length + 1 := by rw [hpending, List.length_append]; rfl
    refine ⟨hq.read_lt, ?_, by omega, ?_, ?_⟩
    · exact Nat.le_trans hq.taken_le (by simp)
    · rw [hlength, ← Nat.add_assoc]
      simp only [hq.tail]
      rw [Nat.mod_add_mod]
    · rw [hlength, hpending]
      simp only [hq.tail]
      rw [RingBuffer.contents_update kbd.buf c hroom, hq.contents]

theorem Queues.getchar (hq : Queues kbd q) :
    kbd.getchar.1 = q.getchar.1 ∧ Queues kbd.getchar.2 q.getchar.2 := by
  rcases Nat.eq_or_lt_of_le hq.taken_le with hall | hmore
  · have hempty : q.pending = [] := List.drop_eq_nil_of_le (Nat.le_of_eq hall.symm)
    have hnone : q.accepted[q.taken]? = none :=
      List.getElem?_eq_none (Nat.le_of_eq hall.symm)
    rw [Keyboard.getchar, if_pos (hq.read_eq_write_iff.mpr hempty),
      CharQueue.getchar, hnone]
    exact ⟨rfl, hq⟩
  · have hpending : q.pending = q.accepted[q.taken] ::
        (CharQueue.mk q.accepted (q.taken + 1)).pending :=
      List.drop_eq_getElem_cons hmore
    have hsome : q.accepted[q.taken]? = some q.accepted[q.taken] :=
      List.getElem?_eq_getElem hmore
    have hcells := hq.contents
    have hroom := hq.room
    have htail := hq.tail
    rw [hpending, List.length_cons] at hroom htail
    rw [hpending, List.length_cons,
      RingBuffer.contents_succ kbd.buf _ hq.read_lt, List.cons.injEq] at hcells
    have hne : kbd.read ≠ kbd.write := by
      rw [ne_eq, hq.read_eq_write_iff, hpending]
      exact List.cons_ne_nil _ _
    rw [Keyboard.getchar, if_neg hne, CharQueue.getchar, hsome]
    refine ⟨hcells.1, Nat.mod_lt _ (by decide), hmore,
      Nat.lt_of_succ_lt hroom, ?_, hcells.2⟩
    rw [htail, Nat.mod_add_mod, Nat.add_assoc, Nat.add_comm 1]

end Ring

/-- Every call returns what the queue returns. -/
theorem collect_queues {kbd : Keyboard} {q : CharQueue} (hq : Queues kbd q)
    (calls : List RingCall) : ∃ answers kbd' q',
      collect Keyboard.serve kbd calls = some (answers, kbd') ∧
      collect CharQueue.serve q calls = some (answers, q') ∧ Queues kbd' q' := by
  induction calls generalizing kbd q with
  | nil => exact ⟨[], kbd, q, rfl, rfl, hq⟩
  | cons call calls ih =>
      cases call with
      | push c =>
          obtain ⟨answers, kbd', q', hring, hqueue, hq'⟩ := ih (hq.push c)
          refine ⟨none :: answers, kbd', q', ?_, ?_, hq'⟩
          · simp [collect, Keyboard.serve, hring]
          · simp [collect, CharQueue.serve, hqueue]
      | getchar =>
          obtain ⟨hanswer, hnext⟩ := hq.getchar
          obtain ⟨answers, kbd', q', hring, hqueue, hq'⟩ := ih hnext
          refine ⟨some q.getchar.1 :: answers, kbd', q', ?_, ?_, hq'⟩
          · simp [collect, Keyboard.serve, hring, hanswer]
          · simp [collect, CharQueue.serve, hqueue]

/-- Through any calls on the ring the indices stay inside of it, and it answers
as a queue of 63 characters. -/
theorem keyboardRing_is_queue (calls : List RingCall) :
    ∃ answers kbd q,
      collect Keyboard.serve .initial calls = some (answers, kbd) ∧
      collect CharQueue.serve .empty calls = some (answers, q) ∧
      kbd.read < kbBufferSize ∧ kbd.write < kbBufferSize ∧
      q.pending.length ≤ kbBufferSize - 1 ∧
      (kbd.hasChar = true ↔ q.pending ≠ []) := by
  have hinit : Queues .initial .empty :=
    ⟨by decide, by decide, by decide, rfl, rfl⟩
  obtain ⟨answers, kbd, q, hring, hqueue, hq⟩ := collect_queues hinit calls
  refine ⟨answers, kbd, q, hring, hqueue, hq.read_lt, ?_,
    Nat.le_sub_one_of_lt hq.room, ?_⟩
  · rw [hq.tail]
    exact Nat.mod_lt _ (by decide)
  · rw [Keyboard.hasChar, bne_iff_ne, ne_eq, hq.read_eq_write_iff]

/-- The character that the handler offers to `buf_push`: the one that it puts
into an empty ring. -/
def Keyboard.offered (kbd : Keyboard) (scancode : UInt8) : Option UInt8 :=
  let after := (keyboardHandler { kbd with read := 0, write := 0 } scancode).2
  if after.hasChar then some (after.buf 0) else none

/-- The characters offered while the scancodes arrive. -/
def Keyboard.offers : Keyboard → List UInt8 → List UInt8
  | _, [] => []
  | kbd, scancode :: rest =>
      (kbd.offered scancode).toList ++
        offers (keyboardHandler kbd scancode).2 rest

/-- What the reference decoder knows of the modifier keys. -/
structure Modifiers where
  left : Bool
  right : Bool
  caps : Bool
  deriving DecidableEq

namespace Modifiers

def initial : Modifiers := ⟨false, false, false⟩

variable (m : Modifiers)

def shift : Bool := m.left || m.right

def next (scancode : UInt8) : Modifiers :=
  let released := scancode &&& 0x80 ≠ 0
  let key := scancode &&& 0x7F
  if key = 0x2A then { m with left := !released }
  else if key = 0x36 then { m with right := !released }
  else if key = 0x3A ∧ ¬ released then { m with caps := !m.caps }
  else m

/-- A key's character without shift, and with it. -/
def normal (key : UInt8) : UInt8 := (scancodeNormal[key.toNat]?).getD 0

def shifted (key : UInt8) : UInt8 := (scancodeShifted[key.toNat]?).getD 0

def isLetter (key : UInt8) : Bool := 97 ≤ normal key && normal key ≤ 122

/-- The scancode of a key-down that is neither a shift key nor caps lock. -/
def isPress (scancode : UInt8) : Bool :=
  scancode &&& 0x80 = 0 ∧ scancode &&& 0x7F ≠ 0x2A ∧
    scancode &&& 0x7F ≠ 0x36 ∧ scancode &&& 0x7F ≠ 0x3A

def char (key : UInt8) : UInt8 :=
  if isLetter key then
    if m.shift != m.caps then normal key - 32 else normal key
  else if m.shift then shifted key else normal key

def decoded (scancode : UInt8) : Option UInt8 :=
  if isPress scancode && m.char scancode != 0 then some (m.char scancode)
  else none

/-- The characters of the reference decoder. -/
def decode : Modifiers → List UInt8 → List UInt8
  | _, [] => []
  | m, scancode :: rest =>
      (m.decoded scancode).toList ++ decode (m.next scancode) rest

/-- Whether the last event of a shift key was a press, after one more event. -/
def lastDown (last : Bool) (scancode : UInt8) : Bool :=
  if scancode &&& 0x7F = 0x2A ∨ scancode &&& 0x7F = 0x36 then
    scancode &&& 0x80 = 0
  else last

/-- The presses that are misread: a letter under caps lock alone; and while a
shift key is still down after the other one has come up, every key with two
characters, a letter under caps lock excepted. -/
def misread (last : Bool) (scancode : UInt8) : Bool :=
  isPress scancode &&
    if isLetter scancode && m.caps then !m.shift
    else m.shift && !last && normal scancode != shifted scancode

/-- None of the scancodes is a misread press. -/
def legible : Modifiers → Bool → List UInt8 → Bool
  | _, _, [] => true
  | m, last, scancode :: rest =>
      !m.misread last scancode &&
        legible (m.next scancode) (lastDown last scancode) rest

end Modifiers

section Decoding

variable {kbd : Keyboard} {m : Modifiers} {last : Bool}

/-- Ring and waiter play no part in the decoding. -/
theorem offered_eq (kbd : Keyboard) (scancode : UInt8) :
    kbd.offered scancode =
      if Modifiers.isPress scancode ∧ kbd.translate (scancode &&& 0x7F) ≠ 0
      then some (kbd.translate (scancode &&& 0x7F)) else none := by
  simp only [Keyboard.offered, keyboardHandler, Modifiers.isPress,
    decide_eq_true_eq]
  by_cases hshift : scancode &&& 0x7F = 0x2A ∨ scancode &&& 0x7F = 0x36
  · rcases hshift with hkey | hkey <;> simp [hkey, Keyboard.hasChar]
  by_cases hup : scancode &&& 0x80 = 0
  · by_cases hcaps : scancode &&& 0x7F = 0x3A
    · simp [hcaps, hup, Keyboard.hasChar]
    · have htranslate : Keyboard.translate { kbd with read := 0, write := 0 }
        (scancode &&& 0x7F) = kbd.translate (scancode &&& 0x7F) := rfl
      simp only [htranslate]
      by_cases hchar : kbd.translate (scancode &&& 0x7F) = 0
      · simp [hshift, hcaps, hup, hchar, Keyboard.hasChar]
      · by_cases hwaiter : kbd.waiterPid = kbNoWaiter <;>
          simp_all [Keyboard.hasChar, Keyboard.push, kbBufferSize]
  · simp [hshift, hup, Keyboard.hasChar]

/-- What the handler does to the modifier flags. -/
theorem keyboardHandler_flags (kbd : Keyboard) (scancode : UInt8) :
    (keyboardHandler kbd scancode).2.shiftHeld =
        Modifiers.lastDown kbd.shiftHeld scancode ∧
      (keyboardHandler kbd scancode).2.capsLock =
        if scancode &&& 0x7F = 0x3A ∧ scancode &&& 0x80 = 0 then !kbd.capsLock
        else kbd.capsLock := by
  have hpush : ∀ c, (kbd.push c).shiftHeld = kbd.shiftHeld ∧
      (kbd.push c).capsLock = kbd.capsLock := by
    intro c
    rw [Keyboard.push]
    split_ifs <;> exact ⟨rfl, rfl⟩
  simp only [keyboardHandler, Modifiers.lastDown]
  split_ifs <;> simp_all

/-- A fact about the two characters of every key is one about the pairs of
the tables and about no character at all. -/
theorem forall_key {P : UInt8 → UInt8 → Prop} [∀ a b, Decidable (P a b)]
    (hnone : P 0 0) (htables : ((scancodeNormal.zip scancodeShifted).all
      fun pair => P pair.1 pair.2) = true) (key : UInt8) :
    P (Modifiers.normal key) (Modifiers.shifted key) := by
  simp only [List.all_eq_true, decide_eq_true_eq] at htables
  unfold Modifiers.normal Modifiers.shifted
  by_cases hkey : key.toNat < (scancodeNormal.zip scancodeShifted).length
  · have hpair := htables _ (List.getElem_mem hkey)
    rw [List.getElem_zip] at hpair
    rwa [List.getElem?_eq_getElem, List.getElem?_eq_getElem]
  · have hnormal : scancodeNormal.length ≤ key.toNat := Nat.le_of_not_lt hkey
    have hshifted : scancodeShifted.length ≤ key.toNat := Nat.le_of_not_lt hkey
    rwa [List.getElem?_eq_none hnormal, List.getElem?_eq_none hshifted]

/-- The two case flips cancel, so that caps lock only takes the shift away
from a letter. -/
theorem translate_eq (kbd : Keyboard) (key : UInt8) :
    kbd.translate key =
      if kbd.shiftHeld && !(Modifiers.isLetter key && kbd.capsLock) then
        Modifiers.shifted key
      else Modifiers.normal key := by
  have hflips := forall_key (P := fun lower upper => ∀ held caps : Bool,
    (let c := if held then upper else lower
      let c := if caps ∧ 97 ≤ c ∧ c ≤ 122 then c - 32 else c
      if caps ∧ 65 ≤ c ∧ c ≤ 90 then c + 32 else c) =
        if held && !((97 ≤ lower && lower ≤ 122) && caps) then upper else lower)
    (by decide) (by decide +kernel) key kbd.shiftHeld kbd.capsLock
  rw [Modifiers.isLetter, ← hflips, Keyboard.translate]
  cases kbd.shiftHeld <;> rfl

/-- The two tables have characters for the same keys, and a letter's capital
32 below it. -/
theorem letter_table (key : UInt8) :
    (Modifiers.shifted key = 0 ↔ Modifiers.normal key = 0) ∧
      (Modifiers.isLetter key = true →
        Modifiers.normal key - 32 = Modifiers.shifted key ∧
        Modifiers.shifted key ≠ Modifiers.normal key) :=
  forall_key (P := fun lower upper => (upper = 0 ↔ lower = 0) ∧
    ((97 ≤ lower && lower ≤ 122) = true → lower - 32 = upper ∧ upper ≠ lower))
    (by decide) (by decide +kernel) key

theorem press_key : ∀ n < 256, Modifiers.isPress (.ofNat n) = true →
    (.ofNat n : UInt8) &&& 0x7F = .ofNat n := by
  decide +kernel

theorem press_translate {scancode : UInt8} (hheld : kbd.shiftHeld = last)
    (hcaps : kbd.capsLock = m.caps) (hdown : last = true → m.shift = true)
    (hpress : Modifiers.isPress scancode = true) :
    (kbd.translate (scancode &&& 0x7F) = 0 ↔ m.char scancode = 0) ∧
      (kbd.translate (scancode &&& 0x7F) = m.char scancode ↔
        m.misread last scancode = false) := by
  have hkey := press_key _ scancode.toNat_lt
  rw [UInt8.ofNat_toNat] at hkey
  obtain ⟨hzero, hcapital⟩ := letter_table scancode
  rw [hkey hpress, translate_eq, hheld, hcaps, Modifiers.char,
    Modifiers.misread, hpress]
  generalize m.shift = shift at hdown ⊢
  cases hletter : Modifiers.isLetter scancode with
  | false =>
      cases shift <;> cases last <;>
        simp_all [@eq_comm _ (Modifiers.normal scancode)]
  | true =>
      obtain ⟨hbelow, hne⟩ := hcapital hletter
      rw [hbelow]
      cases m.caps <;> cases shift <;> cases last <;>
        simp_all [hne.symm]

/-- Handler and reference decoder offer a character for the same scancodes,
and the same character unless the press is misread. -/
theorem offered_decoded (hheld : kbd.shiftHeld = last)
    (hcaps : kbd.capsLock = m.caps) (hdown : last = true → m.shift = true)
    (scancode : UInt8) :
    (kbd.offered scancode).isSome = (m.decoded scancode).isSome ∧
      (kbd.offered scancode = m.decoded scancode ↔
        m.misread last scancode = false) := by
  rw [offered_eq, Modifiers.decoded]
  by_cases hpress : Modifiers.isPress scancode = true
  · obtain ⟨hzero, hsame⟩ := press_translate hheld hcaps hdown hpress
    by_cases hnone : m.char scancode = 0
    · rw [← hsame]
      simp [hnone, hzero.mpr hnone]
    · have hsome := mt hzero.mp hnone
      rw [← hsame]
      simp [hpress, hnone, hsome]
  · simp [hpress, Modifiers.misread]

/-- The flag of the handler tells the truth when it is set. -/
theorem lastDown_shift (hdown : last = true → m.shift = true)
    (scancode : UInt8) (hlast : Modifiers.lastDown last scancode = true) :
    (m.next scancode).shift = true := by
  simp only [Modifiers.lastDown, Modifiers.next, Modifiers.shift] at *
  split_ifs at * <;> simp_all

theorem next_caps (m : Modifiers) (scancode : UInt8) :
    (m.next scancode).caps =
      if scancode &&& 0x7F = 0x3A ∧ scancode &&& 0x80 = 0 then !m.caps
      else m.caps := by
  simp only [Modifiers.next]
  split_ifs <;> simp_all

theorem toList_append_inj {a b : Option UInt8} {l l' : List UInt8}
    (hsome : a.isSome = b.isSome) :
    a.toList ++ l = b.toList ++ l' ↔ a = b ∧ l = l' := by
  cases a <;> cases b <;> simp_all

theorem offers_eq_iff {scancodes : List UInt8} (hheld : kbd.shiftHeld = last)
    (hcaps : kbd.capsLock = m.caps) (hdown : last = true → m.shift = true) :
    kbd.offers scancodes = m.decode scancodes ↔
      m.legible last scancodes = true := by
  induction scancodes generalizing kbd m last with
  | nil => exact ⟨fun _ => rfl, fun _ => rfl⟩
  | cons scancode rest ih =>
      obtain ⟨hsome, hmisread⟩ := offered_decoded hheld hcaps hdown scancode
      obtain ⟨hheld', hcaps'⟩ := keyboardHandler_flags kbd scancode
      rw [hheld] at hheld'
      rw [hcaps, ← next_caps] at hcaps'
      rw [Keyboard.offers, Modifiers.decode, toList_append_inj hsome, hmisread,
        ih hheld' hcaps' (lastDown_shift hdown scancode), Modifiers.legible,
        Bool.and_eq_true, Bool.not_eq_true']

end Decoding

/-- The handler offers the characters of the reference decoder exactly if no
press is misread. -/
theorem keyboard_decodes_iff (scancodes : List UInt8) :
    Keyboard.initial.offers scancodes = Modifiers.initial.decode scancodes ↔
      Modifiers.initial.legible false scancodes = true :=
  offers_eq_iff rfl rfl nofun

namespace KeyboardInputWitness

/-- Caps lock and then A gives `a`; with both shift keys down, one of them up
and then A gives `a`, too. -/
theorem case_lost :
    Keyboard.initial.offers [0x3A, 0xBA, 0x1E] = [97] ∧
    Modifiers.initial.decode [0x3A, 0xBA, 0x1E] = [65] ∧
    Keyboard.initial.offers [0x2A, 0x36, 0xAA, 0x1E] = [97] ∧
    Modifiers.initial.decode [0x2A, 0x36, 0xAA, 0x1E] = [65] := by
  decide +kernel

end KeyboardInputWitness

end Orion
