/-
What reading and writing do to the store, step by step.  A relation that each
step keeps to is kept to by the calls.
-/
import Orion.Creation
import Orion.Syscall

namespace Orion

open MachineInt

variable {pipes : Prop} {s s' : Store}

/-- One step of a transfer; `pipes` tells whether it may go to a pipe. -/
inductive TransferStep (pipes : Prop) (s : Store) : Store → Prop where
  | seek (f : Ref) (offset : Nat) :
      TransferStep pipes s (s.setFile f { s.files f with offset := offset })
  | resize (v : Ref) (size : Nat) :
      TransferStep pipes s (s.setVnode v { s.vnodes v with size := size })
  | fill (b : Ref) (bytes : Nat → UInt8) : TransferStep pipes s (s.setBytes b bytes)
  | grow {v : Ref} {stop : Nat} {buf : Option Ref} {t : Store}
      (hgrow : Rebuffers s v stop buf t) : TransferStep pipes s t
  | pipe (hpipes : pipes) (p : Ref) {pipe : Pipe}
      (hends : (s.pipes p).SameEnds pipe) : TransferStep pipes s (s.setPipe p pipe)

def Transfers (pipes : Prop) : Store → Store → Prop :=
  Relation.ReflTransGen (TransferStep pipes)

theorem TransferStep.single (hstep : TransferStep pipes s s') : Transfers pipes s s' :=
  Relation.ReflTransGen.single hstep

theorem Transfers.lift {R : Store → Store → Prop}
    (htransfers : Transfers pipes s s') (hrefl : R s s)
    (hstep : ∀ t t', R s t → TransferStep pipes t t' → R s t') : R s s' := by
  induction htransfers with
  | refl => exact hrefl
  | tail _ hlast ih => exact hstep _ _ ih hlast

theorem seekAppend_transfers (s : Store) (f : Ref) :
    Transfers pipes s (seekAppend s f) := by
  unfold seekAppend
  dsimp only
  split_ifs
  · exact (TransferStep.seek f _).single
  · exact .refl

theorem readDone_transfers (k : Kernel) (f : Ref) (n : Int) :
    ∃ t, readDone k f n = k.setStore t ∧ Transfers pipes k.store t := by
  unfold readDone
  dsimp only
  split_ifs
  · exact ⟨_, rfl, (TransferStep.seek f _).single⟩
  · exact ⟨k.store, rfl, .refl⟩

theorem writeDone_transfers (k : Kernel) (f : Ref) (n : Int) :
    ∃ t, writeDone k f n = k.setStore t ∧ Transfers pipes k.store t := by
  unfold writeDone
  dsimp only
  split_ifs
  · exact ⟨_, rfl, (TransferStep.seek f _).single.tail (.resize _ _)⟩
  · exact ⟨_, rfl, (TransferStep.seek f _).single⟩
  · exact ⟨k.store, rfl, .refl⟩

theorem ramfsFill_transfers (s : Store) (v buf : Ref) (src : Nat → UInt8)
    (len offset stop : Nat) :
    Transfers pipes s (ramfsFill s v buf src len offset stop) := by
  unfold ramfsFill
  dsimp only
  split_ifs
  · exact (TransferStep.fill buf _).single.tail (.resize v _)
  · exact (TransferStep.fill buf _).single

theorem ramfsWrite_transfers {v : Ref} {src : Nat → UInt8} {len offset : Nat}
    {result : Int × Store}
    (hwrite : ramfsWrite s v src len offset = some result) :
    Transfers pipes s result.2 := by
  unfold ramfsWrite at hwrite
  split_ifs at hwrite
  · rw [← Option.some.inj hwrite]
    exact .refl
  obtain ⟨⟨buf, t⟩, hgrow, rfl⟩ := Option.map_eq_some_iff.mp hwrite
  have hgrown : Transfers pipes s t :=
    (TransferStep.grow (ramfsGrow_rebuffers hgrow)).single
  cases buf with
  | none => exact hgrown
  | some b => exact hgrown.trans (ramfsFill_transfers t v b src len offset _)

end Orion
