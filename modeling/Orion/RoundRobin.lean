/-
Runs of the scheduler in which nothing but the scheduler itself acts.  The
choice looks at the current process and the queue only, never at who ran
before: the two best processes take turns and everybody else waits.
-/
import Orion.Dispatch
import Mathlib.Data.List.Chain

namespace Orion

/-- The process that is dispatched after `cur` has used up its slice. -/
def successor (k : Kernel) (cur : Nat) : Option Nat :=
  (rivals k cur).argmin k.priority

def best (k : Kernel) : Option Nat := (contenders k).argmin k.priority

def second (k : Kernel) : Option Nat := (best k).bind (successor k)

/-- Calls of `sched_switch_esp`, with the processes they dispatch.  In between
no process is added, removed or blocked; clocks, slices and flags may move. -/
inductive SwitchRun (k : Kernel) : List Nat → Kernel → Prop where
  | start : SwitchRun k [] k
  | stay {dispatched : List Nat} {k₁ k₂ : Kernel} (esp : Frame)
      (hrun : SwitchRun k dispatched k₁) (hsame : Undisturbed k₁ k₂)
      (hstay : (schedSwitchEsp k₂ esp).currentProc = k₂.currentProc) :
      SwitchRun k dispatched (schedSwitchEsp k₂ esp)
  | dispatch {dispatched : List Nat} {k₁ k₂ : Kernel} {next : Nat}
      (esp : Frame) (hrun : SwitchRun k dispatched k₁)
      (hsame : Undisturbed k₁ k₂)
      (hnext : (schedSwitchEsp k₂ esp).currentProc = some next)
      (hnew : k₂.currentProc ≠ some next) :
      SwitchRun k (dispatched ++ [next]) (schedSwitchEsp k₂ esp)

/-- Between two consecutive dispatches of a process, every other runnable
process of the same priority is dispatched. -/
def RoundRobin (k : Kernel) : Prop :=
  ∀ past between first k', SwitchRun k (past ++ first :: between ++ [first]) k' →
    first ∉ between → ∀ other ∈ k.readyQueue, k.runnable other = true →
      other ≠ first → k.priority other = k.priority first → other ∈ between

/-- Is there a third process as good as the second best? -/
def crowded (k : Kernel) : Bool :=
  match best k, second k with
  | some first, some next => (contenders k).any fun pid =>
      pid != first && pid != next && k.priority pid == k.priority next
  | _, _ => false

/-- The processes of the best priority. -/
def leaders (k : Kernel) : List Nat :=
  (contenders k).filter fun pid =>
    (best k).any fun first => k.priority pid == k.priority first

/-- A minimum that passes a test is the minimum of what passes it. -/
theorem argmin_filter {f : Nat → Nat} {test : Nat → Bool} {l : List Nat}
    {least : Nat} (hleast : l.argmin f = some least)
    (htest : test least = true) : (l.filter test).argmin f = some least := by
  induction l generalizing least with
  | nil => cases hleast
  | cons head tail ih =>
      rw [List.argmin_cons] at hleast
      cases htail : tail.argmin f with
      | none =>
          rw [htail] at hleast
          obtain rfl : head = least := Option.some.inj hleast
          obtain rfl := List.argmin_eq_none.mp htail
          rw [List.filter_cons_of_pos htest]
          rfl
      | some other =>
          rw [htail] at hleast
          dsimp only at hleast
          split_ifs at hleast with hless
          · obtain rfl := Option.some.inj hleast
            have hrest := ih htail htest
            by_cases hhead : test head = true
            · rw [List.filter_cons_of_pos hhead, List.argmin_cons, hrest]
              exact if_pos hless
            · rw [List.filter_cons_of_neg hhead]
              exact hrest
          · obtain rfl := Option.some.inj hleast
            rw [List.filter_cons_of_pos htest, List.argmin_cons]
            cases hrest : (tail.filter test).argmin f with
            | none => rfl
            | some rest =>
                have hmem := List.mem_of_mem_filter (List.argmin_mem hrest)
                have hle := List.le_of_mem_argmin hmem htail
                exact if_neg (by omega)

section Choice

variable {k : Kernel} {cur first next : Nat}

theorem successor_eq_best (hbest : best k = some first) (hne : cur ≠ first) :
    successor k cur = some first :=
  argmin_filter hbest (by simpa using Ne.symm hne)

theorem successor_best (hbest : best k = some first) :
    successor k first = second k := by
  rw [second, hbest, Option.bind_some]

theorem successor_ne (hnext : successor k cur = some next) : next ≠ cur :=
  (mem_rivals.mp (List.argmin_mem hnext)).2

/-- With a second best process around, the best one and it take turns. -/
theorem successor_alternates (hbest : best k = some first)
    (hsecond : second k = some next) :
    successor k cur = some (if cur = first then next else first) := by
  split_ifs with hcur
  · rw [hcur, successor_best hbest, hsecond]
  · exact successor_eq_best hbest hcur

theorem best_of_successor (hnext : successor k cur = some next) :
    ∃ first, best k = some first := by
  have hmem := (mem_rivals.mp (List.argmin_mem hnext)).1
  cases hbest : best k with
  | none =>
      rw [List.argmin_eq_none.mp hbest] at hmem
      cases hmem
  | some first => exact ⟨first, rfl⟩

theorem rivals_ready (hcurrent : k.currentProc = some cur)
    (hnext : next ∈ rivals k cur) : k.state next = .ready := by
  obtain ⟨hmem, hne⟩ := mem_rivals.mp hnext
  rcases runnable_iff.mp (mem_contenders.mp hmem).2.1 with
    hready | ⟨hsame, -⟩
  · exact hready
  · exact absurd (Option.some.inj (hsame.symm.trans hcurrent)) hne

theorem nextProc_eq_some (hnext : nextProc k = some next) :
    ∃ cur, k.currentProc = some cur ∧ successor k cur = some next := by
  unfold nextProc at hnext
  split_ifs at hnext
  obtain ⟨cur, hcurrent, hpick⟩ := Option.bind_eq_some_iff.mp hnext
  split_ifs at hpick
  exact ⟨cur, hcurrent, hpick⟩

/-- A switch changes nothing about who can be chosen. -/
theorem Turn.contenders_eq {k' : Kernel} (hturn : Turn k (nextProc k) k') :
    contenders k' = contenders k := by
  have hrunnable : ∀ pid, k'.runnable pid = k.runnable pid := by
    intro pid
    have hstate := hturn.state pid
    have hcurrent' := hturn.current
    rw [Bool.eq_iff_iff, runnable_iff, runnable_iff]
    cases hnext : nextProc k with
    | none =>
        rw [hnext] at hstate hcurrent'
        rw [hcurrent', hstate]
        rfl
    | some next =>
        obtain ⟨cur, hcurrent, hpick⟩ := nextProc_eq_some hnext
        have hready := rivals_ready hcurrent (List.argmin_mem hpick)
        have hne := successor_ne hpick
        rw [hnext] at hstate hcurrent'
        rw [hcurrent', hstate, hcurrent]
        by_cases hpid : pid = next
        · subst hpid
          simp [hready]
        · by_cases hrunning : pid = cur ∧ k.state pid = .running
          · obtain ⟨rfl, hrunning⟩ := hrunning
            simp [hrunning, hne]
          · have hkeep : ¬ (cur = pid ∧ k.state pid = .running) :=
              fun h => hrunning ⟨h.1.symm, h.2⟩
            simp [Ne.symm hpid, hkeep]
  unfold contenders
  rw [hturn.queue]
  simp only [hrunnable, hturn.priority]

end Choice

section Runs

variable {k k' : Kernel} {dispatched : List Nat}

/-- What a run keeps. -/
structure Kept (k k' : Kernel) : Prop where
  contenders : contenders k' = contenders k
  priority : k'.priority = k.priority
  enabled : k'.schedEnabled = k.schedEnabled

theorem Kept.call {j : Kernel} (hkept : Kept k k') (hsame : Undisturbed k' j)
    (esp : Frame) : Kept k (schedSwitchEsp j esp) := by
  have hturn := schedSwitchEsp_turn j esp
  refine ⟨?_, ?_, ?_⟩
  · rw [hturn.contenders_eq, hsame.contenders_eq, hkept.contenders]
  · rw [funext hturn.priority, hsame.priority_eq, hkept.priority]
  · rw [hturn.enabled, hsame.enabled, hkept.enabled]

theorem SwitchRun.kept (hrun : SwitchRun k dispatched k') : Kept k k' := by
  induction hrun with
  | start => exact ⟨rfl, rfl, rfl⟩
  | stay esp _ hsame _ ih => exact ih.call hsame esp
  | dispatch esp _ hsame _ _ ih => exact ih.call hsame esp

theorem Kept.successor_eq {j : Kernel} (hkept : Kept k k')
    (hsame : Undisturbed k' j) (cur : Nat) :
    successor j cur = successor k cur := by
  rw [successor, rivals, hsame.contenders_eq, hkept.contenders,
    hsame.priority_eq, hkept.priority, successor, rivals]

/-- Every dispatched process is the successor of the one before it. -/
theorem SwitchRun.chain {cur : Nat} (hcurrent : k.currentProc = some cur)
    (hrun : SwitchRun k dispatched k') :
    List.IsChain (fun last next => successor k last = some next)
        (cur :: dispatched) ∧
      (cur :: dispatched).getLast? = k'.currentProc := by
  induction hrun with
  | start => exact ⟨List.IsChain.singleton _, hcurrent.symm⟩
  | stay esp _ hsame hstay ih =>
      exact ⟨ih.1, ih.2.trans (hsame.current.symm.trans hstay.symm)⟩
  | @dispatch past k₁ k₂ next esp hrun hsame hnext hnew ih =>
      have hpick : nextProc k₂ = some next := by
        rw [(schedSwitchEsp_turn k₂ esp).current] at hnext
        cases hnone : nextProc k₂ with
        | none =>
            rw [hnone] at hnext
            exact absurd hnext hnew
        | some other =>
            rw [hnone] at hnext
            exact hnext
      obtain ⟨last, hlast, hsucc⟩ := nextProc_eq_some hpick
      rw [hrun.kept.successor_eq hsame] at hsucc
      rw [← List.cons_append]
      refine ⟨List.isChain_append.mpr ⟨ih.1, List.IsChain.singleton _, ?_⟩, ?_⟩
      · intro before hbefore after hafter
        rw [ih.2, ← hsame.current, hlast] at hbefore
        obtain rfl := Option.some.inj hbefore
        obtain rfl := Option.some.inj hafter
        exact hsucc
      · rw [hnext]
        exact List.getLast?_concat

theorem SwitchRun.eq_nil (hcurrent : k.currentProc = none)
    (hrun : SwitchRun k dispatched k') :
    dispatched = [] ∧ k'.currentProc = none := by
  induction hrun with
  | start => exact ⟨rfl, hcurrent⟩
  | stay esp _ hsame hstay ih =>
      exact ⟨ih.1, hstay.trans (hsame.current.trans ih.2)⟩
  | @dispatch _ _ k₂ next esp _ hsame hnext _ ih =>
      have hidle : k₂.currentProc = none := hsame.current.trans ih.2
      rw [(schedSwitchEsp_turn k₂ esp).current, hidle, Option.or_none] at hnext
      obtain ⟨cur, hcur, -⟩ := nextProc_eq_some hnext
      rw [hidle] at hcur
      cases hcur

theorem SwitchRun.enabled (hrun : SwitchRun k dispatched k')
    (hsome : dispatched ≠ []) : k.schedEnabled = true := by
  induction hrun with
  | start => exact absurd rfl hsome
  | stay _ _ _ _ ih => exact ih hsome
  | @dispatch _ _ k₂ next esp hrun hsame hnext hnew _ =>
      by_contra hoff
      apply hnew
      have hnone : nextProc k₂ = none := by
        apply if_neg
        rw [hsame.enabled, hrun.kept.enabled]
        exact fun h => hoff h.1
      rwa [(schedSwitchEsp_turn k₂ esp).current, hnone, Option.none_or] at hnext

/-- A yield hands the processor on. -/
theorem SwitchRun.yield {cur next : Nat} (hrun : SwitchRun k dispatched k')
    (hon : k.schedEnabled = true) (hcurrent : k'.currentProc = some cur)
    (hnext : successor k cur = some next) :
    ∃ k'', SwitchRun k (dispatched ++ [next]) k'' ∧
      k''.currentProc = some next := by
  have hsame := schedForceSwitch_undisturbed k'
  obtain ⟨htick, hslice⟩ := schedForceSwitch_expired hcurrent
  have hcurrent' := hsame.current.trans hcurrent
  have hon' : (schedForceSwitch k').schedEnabled = true :=
    hsame.enabled.trans (hrun.kept.enabled.trans hon)
  have hpick : nextProc (schedForceSwitch k') = some next := by
    rw [nextProc, if_pos ⟨hon', htick⟩, hcurrent', Option.bind_some, hslice,
      if_neg (by decide)]
    exact (hrun.kept.successor_eq hsame cur).trans hnext
  have hdispatch :
      (schedSwitchEsp (schedForceSwitch k') .user).currentProc = some next := by
    rw [(schedSwitchEsp_turn _ .user).current, hpick]
    rfl
  refine ⟨_, .dispatch .user hrun hsame hdispatch ?_, hdispatch⟩
  rw [hcurrent']
  exact fun h => successor_ne hnext (Option.some.inj h).symm

/-- With two processes to choose from, yields can go on for ever between
them. -/
theorem exists_switchRun {cur first next : Nat} (hon : k.schedEnabled = true)
    (hcurrent : k.currentProc = some cur) (hbest : best k = some first)
    (hsecond : second k = some next) (n : Nat) :
    ∃ dispatched k' last, SwitchRun k dispatched k' ∧ dispatched.length = n ∧
      k'.currentProc = some last ∧ dispatched ⊆ [first, next] := by
  induction n with
  | zero => exact ⟨[], k, cur, .start, rfl, hcurrent, List.nil_subset _⟩
  | succ n ih =>
      obtain ⟨dispatched, k₁, last, hrun, hlength, hlast, hsub⟩ := ih
      have hnext := @successor_alternates k last first next hbest hsecond
      obtain ⟨k₂, hrun', hcurrent'⟩ := hrun.yield hon hlast hnext
      refine ⟨_, k₂, _, hrun', ?_, hcurrent', ?_⟩
      · rw [List.length_append, hlength, List.length_singleton]
      · refine List.append_subset.mpr ⟨hsub, ?_⟩
        intro pid hpid
        rw [List.mem_singleton.mp hpid]
        split_ifs <;> simp

end Runs

section Fairness

variable {k : Kernel}

theorem crowded_eq_true : crowded k = true ↔ ∃ first next third,
    best k = some first ∧ second k = some next ∧ third ∈ contenders k ∧
      third ≠ first ∧ third ≠ next ∧ k.priority third = k.priority next := by
  unfold crowded
  cases hbest : best k with
  | none => simp
  | some first =>
      cases hsecond : second k with
      | none => simp
      | some next => simp [and_assoc]

/-- Two dispatches of a process have exactly its alternate in between. -/
theorem between_eq {first next pid : Nat} {between : List Nat}
    (hbest : best k = some first) (hsecond : second k = some next)
    (hchain : List.IsChain (fun last next => successor k last = some next)
      (pid :: between ++ [pid])) (hnot : pid ∉ between) :
    (pid = first ∧ between = [next]) ∨ (pid = next ∧ between = [first]) := by
  have hstep := fun cur => @successor_alternates k cur first next hbest hsecond
  have hne : next ≠ first := successor_ne ((successor_best hbest).trans hsecond)
  simp only [hstep, Option.some.injEq] at hchain
  have hlast := (List.isChain_append.mp hchain).2.2 _
    (List.getLast?_eq_some_getLast (List.cons_ne_nil pid between)) pid rfl
  have hpid : pid = first ∨ pid = next := by
    split_ifs at hlast
    · exact .inr hlast.symm
    · exact .inl hlast.symm
  match between with
  | [] =>
      simp only [List.cons_append, List.nil_append, List.isChain_cons_cons,
        List.isChain_singleton, and_true] at hchain
      rcases hpid with rfl | rfl
      · exact absurd ((if_pos rfl).symm.trans hchain) hne
      · exact absurd ((if_neg hne).symm.trans hchain).symm hne
  | [middle] =>
      simp only [List.cons_append, List.nil_append, List.isChain_cons_cons,
        List.isChain_singleton, and_true] at hchain
      rcases hpid with rfl | rfl
      · exact .inl ⟨rfl, by rw [← hchain.1, if_pos rfl]⟩
      · exact .inr ⟨rfl, by rw [← hchain.1, if_neg hne]⟩
  | middle :: third :: rest =>
      simp only [List.cons_append, List.isChain_cons_cons] at hchain
      obtain ⟨hmiddle, hthird, -⟩ := hchain
      simp only [List.mem_cons, not_or] at hnot
      rcases hpid with rfl | rfl
      · rw [if_pos rfl] at hmiddle
        rw [if_neg (hmiddle ▸ hne)] at hthird
        exact absurd hthird hnot.2.1
      · rw [if_neg hne] at hmiddle
        rw [if_pos hmiddle.symm] at hthird
        exact absurd hthird hnot.2.1

/-- A crowd is served unfairly. -/
theorem not_roundRobin_of_crowded {cur : Nat} (hon : k.schedEnabled = true)
    (hcurrent : k.currentProc = some cur) (hcrowd : crowded k = true) :
    ¬ RoundRobin k := by
  obtain ⟨first, next, third, hbest, hsecond, hmem, hfirst, hnext,
    hpriority⟩ := crowded_eq_true.mp hcrowd
  have hstep := fun cur => @successor_alternates k cur first next hbest hsecond
  have hne : next ≠ first := successor_ne ((successor_best hbest).trans hsecond)
  obtain ⟨hqueue, hrunnable, -⟩ := mem_contenders.mp hmem
  -- the second best process runs, then the best one, then the second again
  obtain ⟨past, k₁, last, hrun, hlast, hbefore⟩ : ∃ past k₁ last,
      SwitchRun k past k₁ ∧ k₁.currentProc = some last ∧ last = first := by
    by_cases hcur : cur = first
    · exact ⟨[], k, cur, .start, hcurrent, hcur⟩
    · have hfollow := hstep cur
      rw [if_neg hcur] at hfollow
      obtain ⟨k₁, hrun, hlast⟩ := SwitchRun.start.yield hon hcurrent hfollow
      exact ⟨_, k₁, first, hrun, hlast, rfl⟩
  subst hbefore
  have hforth := (hstep last).trans (by rw [if_pos rfl])
  have hback := (hstep next).trans (by rw [if_neg hne])
  obtain ⟨k₂, hrun₂, hlast₂⟩ := hrun.yield hon hlast hforth
  obtain ⟨k₃, hrun₃, hlast₃⟩ := hrun₂.yield hon hlast₂ hback
  obtain ⟨k₄, hrun₄, -⟩ := hrun₃.yield hon hlast₃ hforth
  intro hfair
  have hwaits := hfair past [last] next k₄ (by simpa using hrun₄)
    (by simpa using hne) third hqueue hrunnable hnext hpriority
  exact hfirst (List.mem_singleton.mp hwaits)

/-- A process that runs twice shares the processor with a second one. -/
theorem exists_second {pid : Nat} {between : List Nat}
    (hchain : List.IsChain (fun last next => successor k last = some next)
      (pid :: between ++ [pid])) :
    ∃ first next, best k = some first ∧ second k = some next := by
  have hlast := (List.isChain_append.mp hchain).2.2 _
    (List.getLast?_eq_some_getLast (List.cons_ne_nil pid between)) pid rfl
  obtain ⟨first, hbest⟩ := best_of_successor hlast
  by_cases hfirst : (pid :: between).getLast (List.cons_ne_nil _ _) = first
  · rw [hfirst, successor_best hbest] at hlast
    exact ⟨first, pid, hbest, hlast⟩
  · obtain rfl : first = pid :=
      Option.some.inj ((successor_eq_best hbest hfirst).symm.trans hlast)
    obtain ⟨next, hnext⟩ : ∃ next, successor k first = some next := by
      cases between with
      | nil => exact ⟨first, (List.isChain_cons_cons.mp hchain).1⟩
      | cons next rest => exact ⟨next, (List.isChain_cons_cons.mp hchain).1⟩
    exact ⟨first, next, hbest, (successor_best hbest).symm.trans hnext⟩

/-- Without a crowd everybody who runs twice has let his equals run. -/
theorem roundRobin_of_not_crowded (hcrowd : crowded k = false) :
    RoundRobin k := by
  intro past between pid k' hrun hnot other hqueue hrunnable hne hpriority
  cases hcurrent : k.currentProc with
  | none =>
      have hnil := (hrun.eq_nil hcurrent).1
      simp at hnil
  | some cur =>
      have hchain := (hrun.chain hcurrent).1
      rw [List.append_assoc, List.cons_append, ← List.cons_append] at hchain
      replace hchain := hchain.right_of_append
      obtain ⟨first, next, hbest, hsecond⟩ := exists_second hchain
      have hsucc := (successor_best hbest).trans hsecond
      by_contra hwaits
      apply Bool.eq_false_iff.mp hcrowd
      apply crowded_eq_true.mpr
      have hmem : first ∈ contenders k := List.argmin_mem hbest
      have hmem' := mem_rivals.mp (List.argmin_mem hsucc)
      rcases between_eq hbest hsecond hchain hnot with
        ⟨rfl, rfl⟩ | ⟨rfl, rfl⟩
      · have hother : other ∈ contenders k := mem_contenders.mpr
          ⟨hqueue, hrunnable, hpriority ▸ (mem_contenders.mp hmem).2.2⟩
        refine ⟨pid, next, other, hbest, hsecond, hother, hne,
          by simpa using hwaits, ?_⟩
        have hlow := List.le_of_mem_argmin hmem'.1 hbest
        have hhigh := List.le_of_mem_argmin (mem_rivals.mpr ⟨hother, hne⟩) hsucc
        omega
      · have hother : other ∈ contenders k := mem_contenders.mpr
          ⟨hqueue, hrunnable, hpriority ▸ (mem_contenders.mp hmem'.1).2.2⟩
        exact ⟨first, pid, other, hbest, hsecond, hother,
          by simpa using hwaits, hne, hpriority⟩

/-- As many switches as there are processes of the best priority, all among
them, give each of them one turn. -/
def FairRounds (k : Kernel) : Prop :=
  ∀ dispatched k', SwitchRun k dispatched k' →
    dispatched.length = (leaders k).length → dispatched ⊆ leaders k →
      dispatched.Perm (leaders k)

theorem mem_leaders {pid first : Nat} (hbest : best k = some first) :
    pid ∈ leaders k ↔
      pid ∈ contenders k ∧ k.priority pid = k.priority first := by
  simp [leaders, hbest]

/-- Two processes that follow each other in a run are different. -/
theorem fairRounds_of_le {cur : Nat} (hcurrent : k.currentProc = some cur)
    (hnodup : k.readyQueue.Nodup) (hfew : (leaders k).length ≤ 2) :
    FairRounds k := by
  intro dispatched k' hrun hlength hsub
  have hleaders : (leaders k).Nodup := (hnodup.filter _).filter _
  have hdistinct : dispatched.Nodup := by
    have hchain := (hrun.chain hcurrent).1
    match dispatched with
    | [] => exact List.nodup_nil
    | [pid] => exact List.nodup_singleton pid
    | [pid, next] =>
        have hnext := (List.isChain_cons_cons.mp
          (List.isChain_cons_cons.mp hchain).2).1
        simpa using (successor_ne hnext).symm
    | pid :: next :: third :: rest =>
        simp only [List.length_cons] at hlength
        omega
  exact (List.subperm_of_subset hdistinct hsub).perm_of_length_le
    (Nat.le_of_eq hlength.symm)

theorem not_fairRounds_of_lt {cur : Nat} (hon : k.schedEnabled = true)
    (hcurrent : k.currentProc = some cur) (hnodup : k.readyQueue.Nodup)
    (hmany : 2 < (leaders k).length) : ¬ FairRounds k := by
  have hleaders : (leaders k).Nodup := (hnodup.filter _).filter _
  have hcover : ∀ few : List Nat, leaders k ⊆ few → 2 < few.length :=
    fun few hsub => hmany.trans_le
      (List.subperm_of_subset hleaders hsub).length_le
  cases hbest : best k with
  | none => simp [leaders, hbest] at hmany
  | some first =>
      obtain ⟨other, hother, hne⟩ : ∃ other ∈ leaders k, other ≠ first := by
        by_contra hall
        push Not at hall
        exact absurd (hcover [first] fun pid hpid => by simp [hall pid hpid])
          (by simp)
      obtain ⟨hmem, hpriority⟩ := (mem_leaders hbest).mp hother
      have hrival : other ∈ rivals k first := mem_rivals.mpr ⟨hmem, hne⟩
      cases hsecond : second k with
      | none =>
          rw [← successor_best hbest] at hsecond
          rw [List.argmin_eq_none.mp hsecond] at hrival
          cases hrival
      | some next =>
          have hsucc := (successor_best hbest).trans hsecond
          have hnext := (mem_rivals.mp (List.argmin_mem hsucc)).1
          have hlow := List.le_of_mem_argmin hnext hbest
          have hhigh := List.le_of_mem_argmin hrival hsucc
          have hpair : [first, next] ⊆ leaders k := by
            intro pid hpid
            simp only [List.mem_cons, List.not_mem_nil, or_false] at hpid
            rcases hpid with rfl | rfl
            · exact (mem_leaders hbest).mpr ⟨List.argmin_mem hbest, rfl⟩
            · exact (mem_leaders hbest).mpr ⟨hnext, by omega⟩
          intro hfair
          obtain ⟨dispatched, k', last, hrun, hlength, -, hsub⟩ :=
            exists_switchRun hon hcurrent hbest hsecond (leaders k).length
          have hperm := hfair dispatched k' hrun hlength
            (List.Subset.trans hsub hpair)
          exact absurd (hcover [first, next]
            (List.Subset.trans hperm.symm.subset hsub)) (by simp)

end Fairness

/-- The scheduler is fair to equals exactly if it is idle or no third process
is as good as the second best; and a round of the best processes gives each
of them one turn exactly if there are at most two. -/
theorem roundRobin_iff (k : Kernel) :
    (RoundRobin k ↔ (k.schedEnabled = true → k.currentProc ≠ none →
      crowded k = false)) ∧
    (k.schedEnabled = true → k.currentProc ≠ none → k.readyQueue.Nodup →
      (FairRounds k ↔ (leaders k).length ≤ 2)) := by
  refine ⟨⟨?_, ?_⟩, ?_⟩
  · intro hfair hon hsome
    obtain ⟨cur, hcurrent⟩ := Option.ne_none_iff_exists'.mp hsome
    by_contra hcrowd
    exact not_roundRobin_of_crowded hon hcurrent
      (Bool.not_eq_false _ ▸ hcrowd) hfair
  · intro hcalm
    by_cases hactive : k.schedEnabled = true ∧ k.currentProc ≠ none
    · exact roundRobin_of_not_crowded (hcalm hactive.1 hactive.2)
    intro past between pid k' hrun
    have hsome : past ++ pid :: between ++ [pid] ≠ [] := by simp
    refine absurd ⟨hrun.enabled hsome, fun hnone => ?_⟩ hactive
    exact hsome (hrun.eq_nil hnone).1
  · intro hon hsome hnodup
    obtain ⟨cur, hcurrent⟩ := Option.ne_none_iff_exists'.mp hsome
    refine ⟨fun hfair => ?_, fairRounds_of_le hcurrent hnodup⟩
    by_contra hmany
    exact not_fairRounds_of_lt hon hcurrent hnodup (Nat.lt_of_not_le hmany)
      hfair

namespace RoundRobinWitness

/-- The scheduler has started on processes of the given priorities. -/
def started (priorities : List Nat) : Option Kernel :=
  (populate (Kernel.reset (Store.empty fun _ => false)) priorities).bind
    schedStart

structure Contest where
  enabled : Bool
  current : Option Nat
  queue : List Nat
  crowd : Bool
  leading : List Nat
  deriving DecidableEq

def contest (k : Kernel) : Contest :=
  ⟨k.schedEnabled, k.currentProc, k.readyQueue, crowded k, leaders k⟩

/-- Two equals and the idle process. -/
theorem two_take_turns : ∃ k, started [16, 16, 31] = some k ∧
    RoundRobin k ∧ FairRounds k := by
  have hview : (started [16, 16, 31]).map contest =
      some ⟨true, some 1, [1, 2, 3], false, [1, 2]⟩ := by decide +kernel
  obtain ⟨k, hk, hvalues⟩ := Option.map_eq_some_iff.mp hview
  simp only [contest, Contest.mk.injEq] at hvalues
  obtain ⟨hon, hcurrent, hqueue, hcrowd, hleading⟩ := hvalues
  have hsome : k.currentProc ≠ none := by simp [hcurrent]
  refine ⟨k, hk, (roundRobin_iff k).1.mpr fun _ _ => hcrowd,
    ((roundRobin_iff k).2 hon hsome ?_).mpr ?_⟩
  · rw [hqueue]
    decide
  · rw [hleading]
    decide

/-- Of three equals the third never runs. -/
theorem third_starves : ∃ k, started [16, 16, 16] = some k ∧
    ¬ RoundRobin k ∧ ¬ FairRounds k := by
  have hview : (started [16, 16, 16]).map contest =
      some ⟨true, some 1, [1, 2, 3], true, [1, 2, 3]⟩ := by decide +kernel
  obtain ⟨k, hk, hvalues⟩ := Option.map_eq_some_iff.mp hview
  simp only [contest, Contest.mk.injEq] at hvalues
  obtain ⟨hon, hcurrent, hqueue, hcrowd, hleading⟩ := hvalues
  refine ⟨k, hk, not_roundRobin_of_crowded hon hcurrent hcrowd,
    not_fairRounds_of_lt hon hcurrent ?_ ?_⟩
  · rw [hqueue]
    decide
  · rw [hleading]
    decide

end RoundRobinWitness

end Orion
