/-
The frames on the kernel stacks.  The assembly stubs push one and pop it
again, `proc_init_frame` writes one by hand, and the C code reads and writes
its words through `regs_t`; here all three are the same seventeen words.
-/
import Orion.WordStack

namespace Orion

open ByteMem WordStack

/-- The registers of the processor. -/
structure Regs where
  gs : UInt16
  fs : UInt16
  es : UInt16
  ds : UInt16
  edi : UInt32
  esi : UInt32
  ebp : UInt32
  esp : UInt32
  ebx : UInt32
  edx : UInt32
  ecx : UInt32
  eax : UInt32
  eip : UInt32
  cs : UInt16
  eflags : UInt32
deriving DecidableEq, Repr

structure Cpu where
  regs : Regs
  mem : Mem

/-- The data segment registers. -/
inductive Seg where
  | gs
  | fs
  | es
  | ds

def Regs.seg (regs : Regs) : Seg → UInt16
  | .gs => regs.gs
  | .fs => regs.fs
  | .es => regs.es
  | .ds => regs.ds

def Regs.setSeg (regs : Regs) (value : UInt16) : Seg → Regs
  | .gs => { regs with gs := value }
  | .fs => { regs with fs := value }
  | .es => { regs with es := value }
  | .ds => { regs with ds := value }

/-- The instructions of the stubs that use the stack. -/
inductive Instr where
  | cli
  | push (value : UInt32)
  | pushSeg (seg : Seg)
  | pusha
  | popSeg (seg : Seg)
  | popa
  | addEsp (n : UInt32)
  | iret

section Execution

variable (c : Cpu)

def Cpu.stack : Stack := ⟨c.mem, c.regs.esp⟩

def Cpu.onStack (s : Stack) : Cpu := ⟨{ c.regs with esp := s.sp }, s.mem⟩

/-- The word `i` of the stack. -/
def Cpu.top (i : UInt32) : UInt32 := word c.mem (c.regs.esp + 4 * i)

def Cpu.exec : Instr → Cpu
  | .cli => { c with regs.eflags := c.regs.eflags &&& ~~~0x200 }
  | .push value => c.onStack (c.stack.push value)
  -- a selector is pushed as a word, zero-extended
  | .pushSeg seg => c.onStack (c.stack.push (c.regs.seg seg).toUInt32)
  | .pusha =>
      c.onStack (c.stack.pushAll [c.regs.eax, c.regs.ecx, c.regs.edx,
        c.regs.ebx, c.regs.esp, c.regs.ebp, c.regs.esi, c.regs.edi])
  | .popSeg seg =>
      { c with regs := { c.regs.setSeg (c.top 0).toUInt16 seg with
          esp := c.regs.esp + 4 } }
  -- the saved stack pointer is skipped
  | .popa =>
      { c with regs := { c.regs with
          edi := c.top 0
          esi := c.top 1
          ebp := c.top 2
          ebx := c.top 4
          edx := c.top 5
          ecx := c.top 6
          eax := c.top 7
          esp := c.regs.esp + 32 } }
  | .addEsp n => { c with regs.esp := c.regs.esp + n }
  -- from ring 0 to ring 0, without a stack switch
  | .iret =>
      { c with regs := { c.regs with
          eip := c.top 0
          cs := (c.top 1).toUInt16
          eflags := c.top 2
          esp := c.regs.esp + 12 } }

def Cpu.run (code : List Instr) : Cpu := code.foldl Cpu.exec c

/-- What the processor itself pushes when it enters a gate in ring 0. -/
def Cpu.interrupt : Cpu :=
  c.onStack (c.stack.pushAll
    [c.regs.eflags, c.regs.cs.toUInt32, c.regs.eip])

end Execution

/-- The start of a stub, up to the call of its handler. -/
def stubEntry (intNo : UInt32) : List Instr :=
  [.cli, .push 0, .push intNo, .pusha, .pushSeg .ds, .pushSeg .es,
    .pushSeg .fs, .pushSeg .gs]

def syscallEntry : List Instr := stubEntry 0x80

def irqEntry (irq : UInt32) : List Instr := stubEntry (32 + irq)

/-- The end of both stubs, and of `sched_start_first`. -/
def stubReturn : List Instr :=
  [.popSeg .gs, .popSeg .fs, .popSeg .es, .popSeg .ds, .popa, .addEsp 8, .iret]

/-- `regs_t`, without the `useresp` and `ss` that ring 0 does not push. -/
structure RegsT where
  gs : UInt32
  fs : UInt32
  es : UInt32
  ds : UInt32
  edi : UInt32
  esi : UInt32
  ebp : UInt32
  espSaved : UInt32
  ebx : UInt32
  edx : UInt32
  ecx : UInt32
  eax : UInt32
  intNo : UInt32
  errCode : UInt32
  eip : UInt32
  cs : UInt32
  eflags : UInt32
deriving DecidableEq, Repr

/-- The words of a `regs_t` in the order of the structure's fields. -/
def RegsT.words (r : RegsT) : List UInt32 :=
  [r.gs, r.fs, r.es, r.ds, r.edi, r.esi, r.ebp, r.espSaved, r.ebx, r.edx,
    r.ecx, r.eax, r.intNo, r.errCode, r.eip, r.cs, r.eflags]

def RegsT.ofWords (words : List UInt32) : RegsT :=
  let at_ := fun i => words.getD i 0
  ⟨at_ 0, at_ 1, at_ 2, at_ 3, at_ 4, at_ 5, at_ 6, at_ 7, at_ 8, at_ 9, at_ 10,
    at_ 11, at_ 12, at_ 13, at_ 14, at_ 15, at_ 16⟩

/-- The bytes of a frame. -/
def frameSize : Nat := 68

/-- The `regs_t` that a pointer to a frame points to. -/
def regsAt (mem : Mem) (esp : UInt32) : RegsT :=
  RegsT.ofWords (popAll mem esp 17)

/-- The registers that are named in a `regs_t`. -/
def RegsT.regs (r : RegsT) (esp : UInt32) : Regs where
  gs := r.gs.toUInt16
  fs := r.fs.toUInt16
  es := r.es.toUInt16
  ds := r.ds.toUInt16
  edi := r.edi
  esi := r.esi
  ebp := r.ebp
  esp := esp
  ebx := r.ebx
  edx := r.edx
  ecx := r.ecx
  eax := r.eax
  eip := r.eip
  cs := r.cs.toUInt16
  eflags := r.eflags

/-- The registers at an entry, as `regs_t` names them. -/
def Regs.saved (regs : Regs) (intNo : UInt32) : RegsT where
  gs := regs.gs.toUInt32
  fs := regs.fs.toUInt32
  es := regs.es.toUInt32
  ds := regs.ds.toUInt32
  edi := regs.edi
  esi := regs.esi
  ebp := regs.ebp
  espSaved := regs.esp - 20
  ebx := regs.ebx
  edx := regs.edx
  ecx := regs.ecx
  eax := regs.eax
  intNo := intNo
  errCode := 0
  eip := regs.eip
  cs := regs.cs.toUInt32
  eflags := regs.eflags

/-- The members of a `regs_t` that handlers store to. -/
inductive Field where
  | edi
  | esi
  | ebp
  | ebx
  | edx
  | ecx
  | eax
  | eip
  | eflags

def Field.index : Field → Nat
  | .edi => 4
  | .esi => 5
  | .ebp => 6
  | .ebx => 8
  | .edx => 9
  | .ecx => 10
  | .eax => 11
  | .eip => 14
  | .eflags => 16

def Regs.store (regs : Regs) (value : UInt32) : Field → Regs
  | .edi => { regs with edi := value }
  | .esi => { regs with esi := value }
  | .ebp => { regs with ebp := value }
  | .ebx => { regs with ebx := value }
  | .edx => { regs with edx := value }
  | .ecx => { regs with ecx := value }
  | .eax => { regs with eax := value }
  | .eip => { regs with eip := value }
  | .eflags => { regs with eflags := value }

/-- The registers with what a handler stores. -/
def Regs.storeAll (regs : Regs) (stores : List (Field × UInt32)) : Regs :=
  stores.foldl (fun regs store => regs.store store.2 store.1) regs

/-- Assignments through a pointer to a `regs_t`. -/
def storeAll (mem : Mem) (esp : UInt32) (stores : List (Field × UInt32)) :
    Mem :=
  stores.foldl (fun mem store =>
    putWord mem (esp.toNat + 4 * store.1.index) store.2.toNat) mem

/-- `proc_init_frame` on a stack that ends at `top`. -/
def initFrame (mem : Mem) (top entry : UInt32) : Stack :=
  Stack.pushAll ⟨mem, top⟩
    [0x202, 0x08, entry,
      0, 0,
      0, 0, 0, 0, 0, 0, 0, 0,
      0x10, 0x10, 0x10, 0x10]

/-- The registers of a program that has not run yet. -/
def freshRegs (entry esp : UInt32) : Regs where
  gs := 0x10
  fs := 0x10
  es := 0x10
  ds := 0x10
  edi := 0
  esi := 0
  ebp := 0
  esp := esp
  ebx := 0
  edx := 0
  ecx := 0
  eax := 0
  eip := entry
  cs := 0x08
  eflags := 0x202

/-- The `regs_t` of a frame that `proc_init_frame` has written. -/
def freshFrame (entry : UInt32) : RegsT :=
  { (freshRegs entry 0).saved 0 with espSaved := 0 }

section Pushes

variable (c : Cpu) (s : Stack)

theorem exec_cli_onStack : (c.onStack s).exec .cli = (c.exec .cli).onStack s :=
  rfl

theorem exec_push_onStack (value : UInt32) :
    (c.onStack s).exec (.push value) = c.onStack (s.push value) := rfl

theorem exec_pushSeg_onStack (seg : Seg) :
    (c.onStack s).exec (.pushSeg seg) =
      c.onStack (s.push (c.regs.seg seg).toUInt32) := by
  cases seg <;> rfl

theorem exec_pusha_onStack :
    (c.onStack s).exec .pusha =
      c.onStack (s.pushAll [c.regs.eax, c.regs.ecx, c.regs.edx, c.regs.ebx,
        s.sp, c.regs.ebp, c.regs.esi, c.regs.edi]) := rfl

theorem stack_onStack : (c.onStack s).stack = s := rfl

/-- The stubs push the frame that `regs_t` describes. -/
theorem stubEntry_stack (intNo : UInt32) :
    (c.interrupt.run (stubEntry intNo)).stack =
      c.stack.pushAll (c.regs.saved intNo).words.reverse := by
  have hsaved : c.stack.sp - 4 - 4 - 4 - 4 - 4 = c.regs.esp - 20 := by
    simp only [UInt32.sub_eq_add_neg, UInt32.add_assoc]
    rfl
  simp only [Cpu.interrupt, stubEntry, Cpu.run, List.foldl_cons,
    List.foldl_nil, exec_cli_onStack, exec_push_onStack, exec_pusha_onStack,
    exec_pushSeg_onStack, stack_onStack, Stack.pushAll]
  simp only [Regs.saved, RegsT.words, List.reverse_cons, List.reverse_nil,
    List.nil_append, List.cons_append, Stack.pushAll, ← hsaved]
  rfl

end Pushes

section Frames

variable (mem : Mem)

theorem RegsT.ofWords_words (r : RegsT) : RegsT.ofWords r.words = r := rfl

theorem RegsT.length_words (r : RegsT) : r.words.reverse.length = 17 := rfl

/-- The pop sequence restores the registers named in the `regs_t`. -/
theorem stubReturn_regs (c : Cpu) :
    (c.run stubReturn).regs =
      (regsAt c.mem c.regs.esp).regs
        (c.regs.esp + UInt32.ofNat frameSize) := by
  simp only [stubReturn, Cpu.run, List.foldl_cons, List.foldl_nil, Cpu.exec,
    Regs.setSeg, Cpu.top, UInt32.mul_zero, UInt32.add_zero]
  simp only [regsAt, RegsT.ofWords, RegsT.regs, popAll, List.getD_cons_zero,
    List.getD_cons_succ]
  simp [UInt32.add_assoc, frameSize]

theorem saved_regs (regs : Regs) (intNo : UInt32) :
    (regs.saved intNo).regs regs.esp = regs := by
  simp [Regs.saved, RegsT.regs]

theorem freshFrame_regs (entry esp : UInt32) :
    (freshFrame entry).regs esp = freshRegs entry esp := by
  simp [freshFrame, freshRegs, Regs.saved, RegsT.regs]

theorem saved_store (regs : Regs) (intNo value : UInt32) (field : Field) :
    (regs.store value field).saved intNo =
      RegsT.ofWords ((regs.saved intNo).words.set field.index value) := by
  cases field <;> rfl

theorem initFrame_eq (top entry : UInt32) :
    initFrame mem top entry =
      Stack.pushAll ⟨mem, top⟩ (freshFrame entry).words.reverse := rfl

theorem regsAt_congr {mem mem' : Mem} {esp : UInt32}
    (hroom : esp.toNat + frameSize < 2 ^ 32)
    (hagree : ∀ x, esp.toNat ≤ x → x < esp.toNat + frameSize →
      mem' x = mem x) : regsAt mem' esp = regsAt mem esp := by
  rw [regsAt, popAll_congr (n := 17) hroom hagree, regsAt]

theorem regsAt_words (esp : UInt32) :
    (regsAt mem esp).words = popAll mem esp 17 := rfl

theorem Field.index_lt (field : Field) : field.index < 17 := by
  cases field <;> decide

/-- A handler that stores through its `regs_t` changes the registers that the
frame will restore. -/
theorem regsAt_storeAll {mem : Mem} {esp intNo : UInt32} {regs : Regs}
    {stores : List (Field × UInt32)} (hroom : esp.toNat + frameSize < 2 ^ 32)
    (hframe : regsAt mem esp = regs.saved intNo) :
    regsAt (storeAll mem esp stores) esp =
      (regs.storeAll stores).saved intNo := by
  induction stores generalizing mem regs with
  | nil => exact hframe
  | cons store rest ih =>
      obtain ⟨field, value⟩ := store
      apply ih
      rw [regsAt, popAll_putWord (n := 17) mem value hroom field.index_lt,
        ← regsAt_words, hframe, saved_store]

theorem storeAll_of_outside {esp : UInt32} {stores : List (Field × UInt32)}
    {x : Nat} (houtside : x < esp.toNat ∨ esp.toNat + frameSize ≤ x) :
    storeAll mem esp stores x = mem x := by
  induction stores generalizing mem with
  | nil => rfl
  | cons store rest ih =>
      refine (ih _).trans (putWord_of_outside mem _ ?_)
      have hindex := store.1.index_lt
      unfold frameSize at houtside
      omega

end Frames

/-- `s'` is `s` with the frame `r` on top. -/
structure PushesFrame (s : Stack) (r : RegsT) (s' : Stack) : Prop where
  toNat : s'.sp.toNat + frameSize = s.sp.toNat
  back : s'.sp + UInt32.ofNat frameSize = s.sp
  frame : regsAt s'.mem s'.sp = r
  outside : ∀ x, x < s'.sp.toNat ∨ s.sp.toNat ≤ x → s'.mem x = s.mem x

theorem pushAll_pushesFrame (s : Stack) (r : RegsT)
    (hroom : frameSize ≤ s.sp.toNat) :
    PushesFrame s r (s.pushAll r.words.reverse) := by
  have hsp := @toNat_sp_pushAll s r.words.reverse hroom
  have hwords := @popAll_pushAll s r.words.reverse hroom
  rw [r.length_words] at hsp hwords
  rw [List.reverse_reverse] at hwords
  have htoNat : (s.pushAll r.words.reverse).sp.toNat + frameSize =
      s.sp.toNat := by
    unfold frameSize at hroom ⊢
    omega
  refine ⟨htoNat, ?_, ?_, ?_⟩
  · apply UInt32.toNat_inj.mp
    have hlt := s.sp.toNat_lt
    rw [UInt32.toNat_add, UInt32.toNat_ofNat_of_lt' (by decide), htoNat,
      Nat.mod_eq_of_lt hlt]
  · rw [regsAt, hwords, RegsT.ofWords_words]
  · intro x houtside
    refine pushAll_of_outside s hroom ?_
    rw [r.length_words]
    omega

/-- The stack that the handler of an entry stub finds. -/
def pushFrame (mem : Mem) (regs : Regs) (stub : List Instr) : Stack :=
  ((Cpu.mk regs mem).interrupt.run stub).stack

theorem stubEntry_pushesFrame (mem : Mem) {regs : Regs} (intNo : UInt32)
    (hroom : frameSize ≤ regs.esp.toNat) :
    PushesFrame ⟨mem, regs.esp⟩ (regs.saved intNo)
      (pushFrame mem regs (stubEntry intNo)) := by
  rw [pushFrame, stubEntry_stack]
  exact pushAll_pushesFrame _ _ hroom

theorem initFrame_pushesFrame (mem : Mem) {top : UInt32} (entry : UInt32)
    (hroom : frameSize ≤ top.toNat) :
    PushesFrame ⟨mem, top⟩ (freshFrame entry) (initFrame mem top entry) := by
  rw [initFrame_eq]
  exact pushAll_pushesFrame _ _ hroom

end Orion
