/-
Runs of a partial step function.  A machine consumes one label at a time; a
label that is not enabled, or that halts the machine, has no successor.
-/
import Mathlib.Data.List.Basic

namespace Machine

universe u v

variable {S : Type u} {L : Type v}

/-- Execute the labels from left to right. -/
def exec (step : S → L → Option S) : S → List L → Option S
  | state, [] => some state
  | state, label :: rest =>
      (step state label).bind fun next => exec step next rest

@[simp] theorem exec_nil (step : S → L → Option S) (state : S) :
    exec step state [] = some state := rfl

theorem exec_cons_eq_some (step : S → L → Option S) {state last : S}
    {label : L} {rest : List L} :
    exec step state (label :: rest) = some last ↔
      ∃ next, step state label = some next ∧
        exec step next rest = some last := by
  simp only [exec, Option.bind_eq_some_iff]

theorem exec_append {step : S → L → Option S} {first second last : S}
    {labels labels' : List L} (hfirst : exec step first labels = some second)
    (hsecond : exec step second labels' = some last) :
    exec step first (labels ++ labels') = some last := by
  induction labels generalizing first with
  | nil =>
      rw [exec_nil, Option.some.injEq] at hfirst
      exact hfirst ▸ hsecond
  | cons label rest ih =>
      obtain ⟨next, hnext, hrest⟩ := (exec_cons_eq_some step).mp hfirst
      exact (exec_cons_eq_some step).mpr ⟨next, hnext, ih hrest⟩

/-- A predicate that holds at the start and survives every enabled step holds
at the end of every run. -/
theorem exec_invariant {step : S → L → Option S} {Inv : S → Prop}
    (hstep : ∀ state label next, Inv state → step state label = some next →
      Inv next)
    {state last : S} {labels : List L} (hinit : Inv state)
    (hrun : exec step state labels = some last) : Inv last := by
  induction labels generalizing state with
  | nil =>
      rw [exec_nil, Option.some.injEq] at hrun
      exact hrun ▸ hinit
  | cons label rest ih =>
      obtain ⟨next, hnext, hrest⟩ := (exec_cons_eq_some step).mp hrun
      exact ih (hstep state label next hinit hnext) hrest

/-- The machine that takes only the steps its guard accepts. -/
def guarded (guard : S → L → Bool) (step : S → L → Option S)
    (state : S) (label : L) : Option S :=
  if guard state label then step state label else none

theorem guarded_eq_some {guard : S → L → Bool} {step : S → L → Option S}
    {state next : S} {label : L} :
    guarded guard step state label = some next ↔
      guard state label = true ∧ step state label = some next := by
  by_cases hguard : guard state label <;> simp [guarded, hguard]

/-- A guarded run is a run. -/
theorem exec_of_guarded {guard : S → L → Bool} {step : S → L → Option S}
    {state last : S} {labels : List L}
    (hrun : exec (guarded guard step) state labels = some last) :
    exec step state labels = some last := by
  induction labels generalizing state with
  | nil => exact hrun
  | cons label rest ih =>
      obtain ⟨next, hnext, hrest⟩ := (exec_cons_eq_some _).mp hrun
      exact (exec_cons_eq_some step).mpr
        ⟨next, (guarded_eq_some.mp hnext).2, ih hrest⟩

theorem exec_guarded_mono {weak strong : S → L → Bool}
    {step : S → L → Option S}
    (hweak : ∀ state label, strong state label = true →
      weak state label = true)
    {state last : S} {labels : List L}
    (hrun : exec (guarded strong step) state labels = some last) :
    exec (guarded weak step) state labels = some last := by
  induction labels generalizing state with
  | nil => exact hrun
  | cons label rest ih =>
      obtain ⟨next, hnext, hrest⟩ := (exec_cons_eq_some _).mp hrun
      obtain ⟨hguard, hstep⟩ := guarded_eq_some.mp hnext
      exact (exec_cons_eq_some _).mpr
        ⟨next, guarded_eq_some.mpr ⟨hweak _ _ hguard, hstep⟩, ih hrest⟩

/-- The guard is exact for a property of states: it keeps the property, and a
step against it breaks the property at once. -/
theorem exec_guarded_iff {guard : S → L → Bool} {step : S → L → Option S}
    {Inv Good : S → Prop} (hgood : ∀ state, Inv state → Good state)
    (hkeep : ∀ state label next, Inv state → guard state label = true →
      step state label = some next → Inv next)
    (hbreak : ∀ state label next, Inv state → guard state label = false →
      step state label = some next → ¬ Good next)
    {state last : S} {labels : List L} (hinit : Inv state)
    (hrun : exec step state labels = some last) :
    exec (guarded guard step) state labels = some last ↔
      ∀ past rest mid, labels = past ++ rest →
        exec step state past = some mid → Good mid := by
  induction labels generalizing state with
  | nil =>
      refine ⟨fun _ past rest mid hsplit hmid => ?_, fun _ => hrun⟩
      obtain ⟨rfl, -⟩ := List.nil_eq_append_iff.mp hsplit
      exact Option.some.inj hmid ▸ hgood state hinit
  | cons label labels ih =>
      obtain ⟨next, hnext, htail⟩ := (exec_cons_eq_some step).mp hrun
      rw [exec_cons_eq_some]
      constructor
      · rintro ⟨next', hguarded, hrest⟩ past rest mid hsplit hmid
        obtain ⟨hguard, hstep⟩ := guarded_eq_some.mp hguarded
        obtain rfl : next = next' := Option.some.inj (hnext.symm.trans hstep)
        have hinv := hkeep state label next hinit hguard hnext
        rcases List.cons_eq_append_iff.mp hsplit with
          ⟨rfl, -⟩ | ⟨past', rfl, hsplit'⟩
        · exact Option.some.inj hmid ▸ hgood state hinit
        · obtain ⟨next', hstep', hmid'⟩ := (exec_cons_eq_some step).mp hmid
          obtain rfl : next = next' := Option.some.inj (hnext.symm.trans hstep')
          exact (ih hinv htail).mp hrest past' rest mid hsplit' hmid'
      · intro hall
        have hguard : guard state label = true := by
          by_contra hfalse
          exact hbreak state label next hinit (Bool.not_eq_true _ ▸ hfalse) hnext
            (hall [label] labels next rfl
              ((exec_cons_eq_some step).mpr ⟨next, hnext, rfl⟩))
        refine ⟨next, guarded_eq_some.mpr ⟨hguard, hnext⟩, ?_⟩
        apply (ih (hkeep state label next hinit hguard hnext) htail).mpr
        intro past rest mid hsplit hmid
        exact hall (label :: past) rest mid (congrArg (label :: ·) hsplit)
          ((exec_cons_eq_some step).mpr ⟨next, hnext, hmid⟩)

/-- A predicate that survives every step into a good state holds at the end of
a run through good states. -/
theorem exec_invariant_along {step : S → L → Option S} {Inv Good : S → Prop}
    (hstep : ∀ state label next, Inv state → Good next →
      step state label = some next → Inv next)
    {state last : S} {labels : List L} (hinit : Inv state)
    (hgood : ∀ past rest mid, labels = past ++ rest →
      exec step state past = some mid → Good mid)
    (hrun : exec step state labels = some last) : Inv last := by
  induction labels generalizing state with
  | nil => exact Option.some.inj hrun ▸ hinit
  | cons label labels ih =>
      obtain ⟨next, hnext, htail⟩ := (exec_cons_eq_some step).mp hrun
      have hafter : ∀ past rest mid, labels = past ++ rest →
          exec step next past = some mid → Good mid := by
        intro past rest mid hsplit hmid
        exact hgood (label :: past) rest mid (congrArg (label :: ·) hsplit)
          ((exec_cons_eq_some step).mpr ⟨next, hnext, hmid⟩)
      exact ih (hstep state label next hinit
        (hafter [] labels next rfl rfl) hnext) hafter htail

/-- Does the check succeed in every state of the run? -/
def passes (check : S → Bool) (step : S → L → Option S) : S → List L → Bool
  | state, [] => check state
  | state, label :: rest =>
      check state && (step state label).all fun next =>
        passes check step next rest

theorem check_of_passes {check : S → Bool} {step : S → L → Option S}
    {state mid : S} {labels past rest : List L}
    (hpasses : passes check step state labels = true)
    (hsplit : labels = past ++ rest) (hmid : exec step state past = some mid) :
    check mid = true := by
  induction past generalizing state labels with
  | nil =>
      obtain rfl := Option.some.inj hmid
      cases labels with
      | nil => exact hpasses
      | cons label tail => exact (Bool.and_eq_true_iff.mp hpasses).1
  | cons label past ih =>
      subst hsplit
      obtain ⟨next, hnext, hrest⟩ := (exec_cons_eq_some step).mp hmid
      have htail := (Bool.and_eq_true_iff.mp hpasses).2
      rw [hnext] at htail
      exact ih htail rfl hrest

section Answers

universe w

variable {R : Type w}

/-- Execute the labels and collect the answers. -/
def collect (step : S → L → Option (R × S)) : S → List L → Option (List R × S)
  | state, [] => some ([], state)
  | state, label :: rest =>
      (step state label).bind fun taken =>
        (collect step taken.2 rest).map fun done => (taken.1 :: done.1, done.2)

theorem collect_concat {step : S → L → Option (R × S)} {state last next : S}
    {labels : List L} {label : L} {answers : List R} {answer : R}
    (hrun : collect step state labels = some (answers, last))
    (hstep : step last label = some (answer, next)) :
    collect step state (labels ++ [label]) = some (answers ++ [answer], next) := by
  induction labels generalizing state answers with
  | nil =>
      obtain ⟨rfl, rfl⟩ := Prod.mk.inj (Option.some.inj hrun)
      rw [List.nil_append, collect, hstep]
      rfl
  | cons first labels ih =>
      obtain ⟨taken, htaken, hrest⟩ := Option.bind_eq_some_iff.mp hrun
      obtain ⟨done, hdone, hpair⟩ := Option.map_eq_some_iff.mp hrest
      obtain ⟨rfl, rfl⟩ := Prod.mk.inj hpair
      rw [List.cons_append, collect, htaken, Option.bind_some, ih hdone]
      rfl

end Answers

end Machine
