import TeePa.HeartbeatRuns
import TeePa.ExpiryPass
import TeePa.Rounds

/-! How long a device that has gone silent stays among the tasks. A pass may pass its
task by, but only after it has taken out another one, so its place moves forward with
every pass; and of the tasks that are overdue, a pass leaves half at most. -/
namespace TeePa.Detection
open Texts Heartbeat HeartbeatRuns ExpiryPass Rounds Runs
open HeartbeatThreads (lastState lastStateCons visitReturned)

def refs (m : Monitor) : List Nat := m.executingTasks.map Task.ref

structure Distinct (m : Monitor) : Prop where
  distinct : (refs m).Nodup
  created : ∀ ref ∈ refs m, ref < m.created

theorem updatedRefs {m : Monitor} {index : Nat} {i : Task} (v : Visit)
    (here : m.executingTasks[index]? = some i) :
    refs (updatedTask v index i m).2.2 = refs m ∧ (updatedTask v index i m).2.2.created = m.created := by
  unfold updatedTask
  dsimp only
  split
  · exact ⟨@assignKeeps _ Task.ref index i {i with heartbeatCheck := false} m here rfl,rfl⟩
  · simp only [executeCommand,assign,List.set_set,refs]
    exact ⟨@assignKeeps _ Task.ref index i (renew v i) m here rfl,trivial⟩

theorem expireRefs (v : Visit) (i : Task) (m : Monitor) :
    (refs (expire v i m).2).Sublist (refs m) ∧ (expire v i m).2.created = m.created := by
  unfold expire
  split
  · exact ⟨List.eraseP_sublist.map Task.ref,rfl⟩
  · exact ⟨List.Sublist.refl _,rfl⟩

theorem visitRefs {m : Monitor} {index : Nat} {i : Task} (v : Visit)
    (here : m.executingTasks[index]? = some i) :
    (refs (visit v index i m).after).Sublist (refs m) ∧
    (visit v index i m).after.created = m.created := by
  obtain ⟨same,created⟩ := updatedRefs v here
  unfold visit
  dsimp only
  split
  · split
    · exact ⟨same ▸ List.Sublist.refl _,created⟩
    · obtain ⟨fewer,created'⟩ := expireRefs v (updatedTask v index i m).2.1 (updatedTask v index i m).2.2
      exact ⟨same ▸ fewer,created'.trans created⟩
  · exact expireRefs v i m

theorem visitDistinct {m : Monitor} {index : Nat} {i : Task} (v : Visit) (h : Distinct m)
    (here : m.executingTasks[index]? = some i) : Distinct (visit v index i m).after := by
  obtain ⟨fewer,created⟩ := visitRefs v here
  exact ⟨h.distinct.sublist fewer,fun ref mem => created ▸ h.created ref (fewer.subset mem)⟩

theorem examineRefs (auditLog : Text) (now : Time) (m : Monitor) :
    refs (examine auditLog now m) = refs m ∧ (examine auditLog now m).created = m.created := by
  unfold examine
  cases decodedTitle auditLog with
  | none => exact ⟨rfl,rfl⟩
  | some title =>
    refine ⟨?_,rfl⟩
    simp only [refs,markTasks,List.map_map]
    refine List.map_congr_left (fun t _ => ?_)
    simp only [Function.comp_def]
    split <;> rfl

theorem registerDistinct {m : Monitor} (h : Distinct m) (targetIp command : Text) (now : Time) :
    Distinct (registerTask targetIp command now m) := by
  have split : refs (registerTask targetIp command now m) = refs m ++ [m.created] := by
    simp only [refs,registerTask,List.map_append,List.map_cons,List.map_nil]
  refine ⟨?_,?_⟩
  · rw [split]
    refine List.nodup_append.mpr ⟨h.distinct,by simp,fun a old b new same => ?_⟩
    rw [List.mem_singleton.mp new] at same
    exact Nat.ne_of_lt (h.created a old) same
  · intro ref mem
    rw [split] at mem
    rcases List.mem_append.mp mem with old | new
    · exact Nat.lt_succ_of_lt (h.created ref old)
    · exact List.mem_singleton.mp new ▸ Nat.lt_succ_self _

theorem stepDistinct {m m' : Monitor} {action : Action} (h : Distinct m)
    (ok : step m action = some m') : Distinct m' := by
  cases action with
  | register targetIp command now =>
    cases Option.some.inj ok
    exact registerDistinct h targetIp command now
  | examine auditLog now =>
    cases Option.some.inj ok
    obtain ⟨same,created⟩ := examineRefs auditLog now m
    exact ⟨same ▸ h.distinct,fun ref mem => created ▸ h.created ref (same ▸ mem)⟩
  | check env =>
    cases Option.some.inj ok
    exact passKeeps (fun index _ _ h here => visitDistinct (env index) h here) h

def Within (i : Task) (places : Nat) (m : Monitor) : Prop := i.ref ∉ refs m ∨
  ∃ before after, m.executingTasks = before ++ i::after ∧ before.length < places

/- In the middle of a pass: its place has moved already, or the loop has still to come
to it. -/
def Ahead (i : Task) (place index : Nat) (m : Monitor) : Prop := i.ref ∉ refs m ∨
  ∃ before after, m.executingTasks = before ++ i::after ∧
    (before.length < place ∨ (before.length = place ∧ index ≤ place))

section Pass
variable {i j : Task} {place index : Nat} {m : Monitor} {v : Visit}

theorem expireAhead {before after : List Task} (h : Distinct m)
    (whole : m.executingTasks = before ++ i::after)
    (ahead : before.length < place ∨ (before.length = place ∧ index ≤ place))
    (here : m.executingTasks[index]? = some j) (due : i.expireTime ≤ v.checkNow) :
    Ahead i place (index+1) (expire v j m).2 := by
  have own : index = before.length → j = i := by
    intro same
    rw [whole,same,List.getElem?_append_right (Nat.le_refl _),Nat.sub_self] at here
    exact (Option.some.inj here).symm
  have front : index < before.length → j ∈ before := by
    intro inside
    rw [whole,List.getElem?_append_left inside] at here
    exact List.mem_of_getElem? here
  unfold expire
  split
  · have removed : (remove j m).2.executingTasks = m.executingTasks.eraseP (equalFields j) := rfl
    by_cases equal : ∃ k ∈ before, equalFields j k = true
    · -- One in front of it is taken out, and it moves forward.
      obtain ⟨k,mem,same⟩ := equal
      refine .inr ⟨before.eraseP (equalFields j),after,?_,.inl ?_⟩
      · rw [removed,whole,List.eraseP_append_left same _ mem]
      · have some := List.length_pos_of_mem mem
        rw [List.length_eraseP_of_mem mem same]
        omega
    · have others : ∀ k ∈ before, ¬ equalFields j k = true := fun k mem same => equal ⟨k,mem,same⟩
      rw [whole,List.eraseP_append_right _ others] at removed
      by_cases mine : equalFields j i = true
      · rw [List.eraseP_cons_of_pos mine] at removed
        refine .inl (fun mem => ?_)
        have distinct := h.distinct
        simp only [refs,whole,List.map_append,List.map_cons] at distinct
        rw [refs,removed,List.map_append] at mem
        obtain ⟨-,behind,apart⟩ := List.nodup_append.mp distinct
        rcases List.mem_append.mp mem with first | last
        · exact apart _ first _ List.mem_cons_self rfl
        · exact (List.nodup_cons.mp behind).1 last
      · rw [List.eraseP_cons_of_neg mine] at removed
        refine .inr ⟨before,_,removed,.inl (ahead.resolve_right (fun ⟨same,early⟩ => ?_))⟩
        rcases Nat.lt_or_eq_of_le (same ▸ early) with inside | exact
        · exact others j (front inside) (equalItself j)
        · exact mine (own exact ▸ equalItself i)
  · rename_i late
    refine .inr ⟨before,after,whole,ahead.imp_right (fun ⟨same,early⟩ => ⟨same,?_⟩)⟩
    rcases Nat.lt_or_eq_of_le (same ▸ early) with inside | exact
    · omega
    · exact absurd (own exact ▸ due) late

theorem visitAhead (h : Distinct m) (ahead : Ahead i place index m)
    (here : m.executingTasks[index]? = some j) (unflagged : i.heartbeatCheck = false)
    (ok : v.ssh ≠ .osError) (due : i.expireTime ≤ v.checkNow) :
    Ahead i place (index+1) (visit v index j m).after := by
  rcases ahead with gone | ⟨before,after,whole,ahead⟩
  · exact .inl (fun mem => gone ((visitRefs v here).1.subset mem))
  · cases flag : j.heartbeatCheck with
    | false =>
      rw [visitUnflagged v index m flag]
      exact expireAhead h whole ahead here due
    | true =>
      rw [visitFlagged index m flag ok]
      have other : index ≠ before.length := by
        intro same
        rw [whole,same,List.getElem?_append_right (Nat.le_refl _),Nat.sub_self] at here
        rw [Option.some.inj here,flag] at unflagged
        contradiction
      obtain ⟨inside,-⟩ := List.getElem?_eq_some_iff.mp here
      have renewed : Distinct (renewal v index j m) := by
        have same : refs (renewal v index j m) = refs m :=
          @assignKeeps _ Task.ref index j (renew v j) m here rfl
        exact ⟨same ▸ h.distinct,same ▸ h.created⟩
      have there : (renewal v index j m).executingTasks[index]? = some (renew v j) :=
        List.getElem?_set_self inside
      have set : (renewal v index j m).executingTasks = (before ++ i::after).set index (renew v j) := by
        rw [← whole]
        rfl
      rcases Nat.lt_or_gt_of_ne other with front | behind
      · rw [List.set_append_left _ _ front] at set
        have size := @List.length_set _ before index (renew v j)
        exact expireAhead renewed set (size.symm ▸ ahead) there due
      · have split : ∃ rest, (before ++ i::after).set index (renew v j) = before ++ i::rest := by
          obtain ⟨step,rfl⟩ := Nat.exists_eq_add_of_lt behind
          rw [List.set_append_right _ _ (by omega),show before.length + step + 1 - before.length =
            step + 1 by omega,List.set_cons_succ]
          exact ⟨_,rfl⟩
        obtain ⟨rest,split⟩ := split
        exact expireAhead renewed (set.trans split) ahead there due

theorem aheadEnds (ahead : Ahead i place index m) (past : m.executingTasks.length ≤ index) :
    Within i place m := by
  refine ahead.imp_right (fun ⟨before,after,whole,ahead⟩ =>
    ⟨before,after,whole,ahead.resolve_right (fun ⟨same,early⟩ => ?_)⟩)
  rw [whole,List.length_append,List.length_cons] at past
  omega

theorem roundsAhead {env : Nat → Visit} {fuel : Nat} (h : Distinct m) (ahead : Ahead i place index m)
    (unflagged : i.heartbeatCheck = false)
    (fair : ∀ index, (env index).ssh ≠ .osError ∧ i.expireTime ≤ (env index).checkNow)
    (enough : m.executingTasks.length ≤ index + fuel) :
    Within i place (lastState (rounds env fuel index m) m) := by
  induction fuel generalizing index m with
  | zero => exact aheadEnds ahead enough
  | succ fuel ih =>
    rw [rounds]
    cases here : m.executingTasks[index]? with
    | none => exact aheadEnds ahead (List.getElem?_eq_none_iff.mp here)
    | some j =>
      obtain ⟨ok,due⟩ := fair index
      have next := visitAhead h ahead here unflagged ok due
      have shorter := visitShrinks (env index) index j m
      simp only [visitReturned index j m ok,Bool.false_eq_true,if_false,lastStateCons]
      exact ih (visitDistinct (env index) h here) next (by omega)

theorem checkWithin {env : Nat → Visit} (h : Distinct m) (within : Within i (place+1) m)
    (unflagged : i.heartbeatCheck = false)
    (fair : ∀ index, (env index).ssh ≠ .osError ∧ i.expireTime ≤ (env index).checkNow) :
    Within i place (checkExpire env m) := by
  have ahead : Ahead i place 0 m := by
    refine within.imp_right (fun ⟨before,after,whole,few⟩ => ⟨before,after,whole,?_⟩)
    omega
  exact roundsAhead h ahead unflagged fair (by omega)

end Pass
/- Nothing answers the task, and every pass that is made comes after its deadline and
to its end. -/
def Silent (i : Task) (_ : Monitor) : Action → Prop
  | .register _ _ _ => True
  | .examine auditLog _ => ∀ title ∈ decodedTitle auditLog, ¬ title <:+: i.executeCmd
  | .check env => ∀ index, (env index).ssh ≠ .osError ∧ i.expireTime ≤ (env index).checkNow

def isCheck : Action → Bool
  | .check _ => true
  | _ => false

structure Waiting (i : Task) (places : Nat) (m : Monitor) : Prop extends Distinct m where
  issued : i.ref < m.created
  within : Within i places m

section Run
variable {i : Task} {places : Nat} {m m' : Monitor}

theorem registerWithin (issued : i.ref < m.created) (within : Within i places m)
    (targetIp command : Text) (now : Time) :
    Within i places (registerTask targetIp command now m) := by
  have split : refs (registerTask targetIp command now m) = refs m ++ [m.created] := by
    simp only [refs,registerTask,List.map_append,List.map_cons,List.map_nil]
  rcases within with gone | ⟨before,after,whole,few⟩
  · refine .inl (fun mem => ?_)
    rw [split] at mem
    rcases List.mem_append.mp mem with old | new
    · exact gone old
    · exact Nat.ne_of_lt issued (List.mem_singleton.mp new)
  · refine .inr ⟨before,after ++ [⟨m.created,now,now + seconds 180,targetIp,command,false⟩],?_,few⟩
    rw [registerTask,whole,List.append_assoc]
    rfl

theorem examineWithin (within : Within i places m) {auditLog : Text}
    (silent : ∀ title ∈ decodedTitle auditLog, ¬ title <:+: i.executeCmd) (now : Time) :
    Within i places (examine auditLog now m) := by
  rcases within with gone | ⟨before,after,whole,few⟩
  · exact .inl ((examineRefs auditLog now m).1 ▸ gone)
  · unfold examine
    cases titled : decodedTitle auditLog with
    | none => exact .inr ⟨before,after,whole,few⟩
    | some title =>
      have quiet := silent title titled
      refine .inr ⟨markTasks title before,markTasks title after,?_,?_⟩
      · simp only [markTasks,whole,List.map_append,List.map_cons,if_neg quiet]
      · rw [markTasks,List.length_map]
        exact few

theorem stepWaits {action : Action} (h : Waiting i places m) (unflagged : i.heartbeatCheck = false)
    (silent : Silent i m action) (ok : step m action = some m') :
    Waiting i (if isCheck action then places - 1 else places) m' := by
  have distinct := stepDistinct h.toDistinct ok
  cases action with
  | register targetIp command now =>
    cases Option.some.inj ok
    exact ⟨distinct,Nat.lt_succ_of_lt h.issued,
      registerWithin h.issued h.within targetIp command now⟩
  | examine auditLog now =>
    cases Option.some.inj ok
    exact ⟨distinct,(examineRefs auditLog now m).2 ▸ h.issued,examineWithin h.within silent now⟩
  | check env =>
    cases Option.some.inj ok
    have created : (checkExpire env m).created = m.created :=
      @passKeeps (fun next => next.created = m.created) env
        (fun index before j same here => (visitRefs (env index) here).2.trans same) m rfl
    refine ⟨distinct,created ▸ h.issued,?_⟩
    have more : Within i (places - 1 + 1) m :=
      h.within.imp_right (fun ⟨before,after,whole,few⟩ => ⟨before,after,whole,by omega⟩)
    exact checkWithin h.toDistinct more unflagged silent

theorem runWaits {actions : List Action} (h : Waiting i places m)
    (unflagged : i.heartbeatCheck = false) (run : Run (Restrict (Silent i) (Of step)) m actions m') :
    Waiting i (places - actions.countP isCheck) m' := by
  induction run generalizing places with
  | nil m => exact h
  | @cons m action t actions u head tail ih =>
    have next := ih (stepWaits h unflagged head.1 head.2)
    rw [List.countP_cons]
    cases checks : isCheck action with
    | true =>
      rw [checks,if_pos rfl,Nat.sub_sub,Nat.add_comm] at next
      exact next
    | false =>
      rw [checks] at next
      exact next

end Run

theorem silentLeaves {earlier actions : List Action} {m m' : Monitor} {i : Task}
    {before after : List Task} (reached : Run (Of step) start earlier m)
    (whole : m.executingTasks = before ++ i::after) (unflagged : i.heartbeatCheck = false)
    (run : Run (Restrict (Silent i) (Of step)) m actions m')
    (passes : before.length < actions.countP isCheck) :
    ∀ t ∈ m'.executingTasks, t.ref ≠ i.ref := by
  have startDistinct : Distinct HeartbeatRuns.start :=
    ⟨List.nodup_nil,fun _ mem => absurd mem List.not_mem_nil⟩
  have preserved : ∀ m action m', Distinct m → Of step m action m' → Distinct m' :=
    fun m action m' h ok => stepDistinct h ok
  have distinct := invariant preserved reached startDistinct
  have mine : i.ref ∈ refs m :=
    List.mem_map.mpr ⟨i,whole ▸ List.mem_append_right _ List.mem_cons_self,rfl⟩
  have waiting : Waiting i (before.length + 1) m :=
    ⟨distinct,distinct.created i.ref mine,.inr ⟨before,after,whole,Nat.lt_succ_self _⟩⟩
  have last := (runWaits waiting unflagged run).within
  rw [Nat.sub_eq_zero_of_le passes] at last
  rcases last with gone | ⟨_,_,_,few⟩
  · exact fun t mem same => gone (same ▸ List.mem_map.mpr ⟨t,mem,rfl⟩)
  · exact absurd few (Nat.not_lt_zero _)

def registered : List Action :=
  [.register "a".toList (keyCommand zeros) 0,.register "b".toList (keyCommand zeros) 0]

def overdue : Visit := ⟨ones,seconds 181,seconds 181,.success⟩

theorem silentLeavesSecond : ∃ m m', Run (Of step) HeartbeatRuns.start registered m ∧
    Run (Restrict (Silent (silent 1 "b".toList)) (Of step)) m
      [.check (fun _ => overdue),.check (fun _ => overdue)] m' ∧
    ∀ t ∈ m'.executingTasks, t.ref ≠ 1 := by
  have reached : Run (Of step) HeartbeatRuns.start registered _ :=
    .cons rfl (.cons rfl (.nil _))
  have fair : overdue.ssh ≠ .osError ∧ (silent 1 "b".toList).expireTime ≤ overdue.checkNow := by
    decide
  have quiet : ∀ m, Silent (silent 1 "b".toList) m (.check (fun _ => overdue)) := fun _ _ => fair
  have run : Run (Restrict (Silent (silent 1 "b".toList)) (Of step))
      (registerTask "b".toList (keyCommand zeros) 0
        (registerTask "a".toList (keyCommand zeros) 0 HeartbeatRuns.start))
      [.check (fun _ => overdue),.check (fun _ => overdue)] _ :=
    .cons ⟨quiet _,rfl⟩ (.cons ⟨quiet _,rfl⟩ (.nil _))
  exact ⟨_,_,reached,run,@silentLeaves registered _ _ _ (silent 1 "b".toList)
    [silent 0 "a".toList] [] reached rfl rfl run (by decide)⟩

section Overdue
variable {t later : Time} {m m' : Monitor}

instance (t : Time) (i : Task) : Decidable (Expired t i) := by unfold Expired; infer_instance

def overdueCount (t : Time) (tasks : List Task) : Nat := tasks.countP (fun i => decide (Expired t i))

theorem removeCount {tasks : List Task} {i : Task} (due : Expired t i) (mem : i ∈ tasks) :
    overdueCount t (tasks.eraseP (equalFields i)) + 1 = overdueCount t tasks := by
  obtain ⟨j,front,back,-,same,split,left⟩ := List.exists_of_eraseP mem (equalItself i)
  rw [left,split]
  simp only [overdueCount,List.countP_append,List.countP_cons,
    decide_eq_true (expiredEqual due same),if_true]
  omega

def Window (t later : Time) (m : Monitor) : Prop :=
  ∀ i ∈ m.executingTasks, i.expireTime ≤ t ∨ later < i.expireTime

/- The round reads the clock between the two, and SSH answers it or reports an error that
the code names. -/
structure Timed (t later : Time) (v : Visit) : Prop where
  caught : v.ssh ≠ .osError
  renewed : t ≤ v.renewNow
  first : t ≤ v.checkNow
  last : v.checkNow ≤ later

def Inside (t later : Time) (_ : Monitor) : Action → Prop
  | .register _ _ now => t ≤ now
  | .examine _ _ => True
  | .check env => ∀ index, Timed t later (env index)

section Round
variable {v : Visit} {index : Nat} {i : Task} {rest : List Task}

theorem visitTasks (timed : Timed t later v) (index : Nat) (i : Task) (m : Monitor) :
    ∀ j ∈ (visit v index i m).after.executingTasks, j ∈ m.executingTasks ∨ j = renew v i := by
  have fewer : ∀ (x : Task) (m : Monitor), ∀ j ∈ (expire v x m).2.executingTasks,
      j ∈ m.executingTasks := by
    intro x m j mem
    unfold expire at mem
    split at mem
    · exact List.mem_of_mem_eraseP mem
    · exact mem
  intro j mem
  cases flag : i.heartbeatCheck with
  | false =>
    rw [visitUnflagged v index m flag] at mem
    exact .inl (fewer i m j mem)
  | true =>
    rw [visitFlagged index m flag timed.caught] at mem
    exact List.mem_or_eq_of_mem_set (fewer (renew v i) (renewal v index i m) j mem)

theorem visitWindow (short : later < t + seconds 15) (timed : Timed t later v)
    (h : Window t later m) (index : Nat) (i : Task) :
    Window t later (visit v index i m).after := by
  intro j mem
  rcases visitTasks timed index i m j mem with old | rfl
  · exact h j old
  · exact .inr (Int.lt_of_lt_of_le short (Int.add_le_add_right timed.renewed _))

theorem renewedLives (timed : Timed t later v) (i : Task) : ¬ Expired t (renew v i) := by
  rintro ⟨-,due⟩
  have behind : v.renewNow < v.renewNow + seconds 15 := Int.lt_add_of_pos_right _ (by decide)
  exact absurd (Int.le_trans due timed.renewed) (Int.not_le.mpr behind)

theorem renewedStays (short : later < t + seconds 15) (timed : Timed t later v) (i : Task) :
    expire v (renew v i) (renewal v index i m) = (none,renewal v index i m) := by
  have soon : v.checkNow < t + seconds 15 := Int.lt_of_le_of_lt timed.last short
  have late := Int.lt_of_lt_of_le soon (Int.add_le_add_right timed.renewed (seconds 15))
  exact if_neg (Int.not_le.mpr late)

theorem firstCount (t : Time) (i : Task) (tasks : List Task) :
    overdueCount t (i::tasks) = overdueCount t tasks + if Expired t i then 1 else 0 := by
  rw [overdueCount,List.countP_cons]
  simp only [decide_eq_true_eq]
  rfl

theorem tailCount (t : Time) (tasks : List Task) :
    overdueCount t tasks ≤ overdueCount t tasks.tail + 1 := by
  cases tasks with
  | nil => exact Nat.zero_le _
  | cons i rest =>
    rw [firstCount,List.tail_cons]
    split <;> omega

theorem setCount {tasks : List Task} (behind : tasks.drop index = i::rest) (x : Task)
    (before : ¬ Expired t i) (after : ¬ Expired t x) :
    overdueCount t (tasks.set index x) = overdueCount t tasks := by
  have parts : ∀ l : List Task, overdueCount t l =
      overdueCount t (l.take index) + overdueCount t (l.drop index) := by
    intro l
    rw [overdueCount,overdueCount,overdueCount,← List.countP_append,List.take_append_drop]
  have front : (tasks.set index x).take index = tasks.take index := List.take_set_of_le (Nat.le_refl _)
  rw [parts (tasks.set index x),parts tasks,front,setBehind x behind,behind,firstCount,firstCount,
    if_neg before,if_neg after]

/- Of what is behind the index a round passes one task by at most, and for that it has
taken one out. -/
theorem visitHalves (short : later < t + seconds 15) (timed : Timed t later v)
    (h : Window t later m) (behind : m.executingTasks.drop index = i::rest) :
    2 * overdueCount t (visit v index i m).after.executingTasks + overdueCount t (i::rest) ≤
      2 * overdueCount t m.executingTasks +
        overdueCount t ((visit v index i m).after.executingTasks.drop (index+1)) := by
  have mem : i ∈ m.executingTasks := List.mem_of_mem_drop (behind ▸ List.mem_cons_self)
  cases flag : i.heartbeatCheck with
  | true =>
    have alive : ¬ Expired t i := fun due => nomatch flag.symm.trans due.1
    have count := setCount behind (renew v i) alive (renewedLives timed i)
    rw [visitFlagged index m flag timed.caught,renewedStays short timed i,firstCount,if_neg alive]
    simp only [renewal,count,← List.drop_drop,setBehind (renew v i) behind]
    exact Nat.le_refl _
  | false =>
    rw [visitUnflagged v index m flag]
    dsimp only
    rw [expireBehind v behind,firstCount]
    by_cases due : i.expireTime ≤ v.checkNow
    · have expired : Expired t i := by
        refine ⟨flag,(h i mem).resolve_right (fun live => ?_)⟩
        exact Int.not_le.mpr live (Int.le_trans due timed.last)
      have removed := removeCount expired mem
      have tail := tailCount t rest
      rw [expire,if_pos due,if_pos due,if_pos expired]
      simp only [remove]
      omega
    · have alive : ¬ Expired t i := fun expired => due (Int.le_trans expired.2 timed.first)
      rw [expire,if_neg due,if_neg due,if_neg alive]
      exact Nat.le_refl _

end Round

section Pass
variable {env : Nat → Visit}

theorem roundsHalve (short : later < t + seconds 15) (timed : ∀ index, Timed t later (env index))
    {fuel index : Nat} (h : Window t later m) (enough : m.executingTasks.length ≤ index + fuel) :
    2 * overdueCount t (lastState (rounds env fuel index m) m).executingTasks +
      overdueCount t (m.executingTasks.drop index) ≤ 2 * overdueCount t m.executingTasks := by
  induction fuel generalizing index m with
  | zero =>
    rw [List.drop_of_length_le (show m.executingTasks.length ≤ index from enough)]
    exact Nat.le_refl _
  | succ fuel ih =>
    rw [rounds]
    cases at_ : m.executingTasks[index]? with
    | none =>
      rw [List.drop_of_length_le (List.getElem?_eq_none_iff.mp at_)]
      exact Nat.le_refl _
    | some i =>
      obtain ⟨inside,here⟩ := List.getElem?_eq_some_iff.mp at_
      have behind := List.drop_eq_getElem_cons inside
      rw [here] at behind
      have shorter := visitShrinks (env index) index i m
      have rest := @ih (visit (env index) index i m).after (index+1)
        (visitWindow short (timed index) h index i) (by omega)
      have first := visitHalves short (timed index) h behind
      simp only [visitReturned index i m (timed index).caught,Bool.false_eq_true,if_false,
        lastStateCons,behind]
      omega

theorem checkHalves (short : later < t + seconds 15) (timed : ∀ index, Timed t later (env index))
    (h : Window t later m) :
    2 * overdueCount t (checkExpire env m).executingTasks ≤ overdueCount t m.executingTasks := by
  have half := @roundsHalve t later m env short timed m.executingTasks.length 0 h (by omega)
  have same : checkExpire env m = lastState (rounds env m.executingTasks.length 0 m) m := rfl
  rw [← same,List.drop_zero] at half
  omega

theorem checkWindow (short : later < t + seconds 15) (timed : ∀ index, Timed t later (env index))
    (h : Window t later m) : Window t later (checkExpire env m) :=
  @passKeeps (Window t later) env
    (fun index _ i h _ => visitWindow short (timed index) h index i) m h

end Pass

theorem examineCount (auditLog : Text) (now : Time) (m : Monitor) :
    overdueCount t (examine auditLog now m).executingTasks ≤ overdueCount t m.executingTasks := by
  unfold examine
  cases decodedTitle auditLog with
  | none => exact Nat.le_refl _
  | some title =>
    simp only [overdueCount,markTasks,List.countP_map]
    refine List.countP_mono_left (fun i _ due => ?_)
    simp only [Function.comp_apply,decide_eq_true_eq] at due ⊢
    split at due
    · exact Bool.noConfusion due.1
    · exact due

theorem stepHalves {action : Action} (short : later < t + seconds 15) (h : Window t later m)
    (inside : Inside t later m action) (ok : step m action = some m') :
    Window t later m' ∧ (if isCheck action then 2 else 1) * overdueCount t m'.executingTasks ≤
      overdueCount t m.executingTasks := by
  cases action with
  | register targetIp command now =>
    cases Option.some.inj ok
    have more : seconds 15 ≤ seconds 180 := by decide
    have late : later < now + seconds 180 := Int.lt_of_lt_of_le short (Int.add_le_add inside more)
    have live : ¬ now + seconds 180 ≤ t :=
      Int.not_le.mpr (Int.lt_of_le_of_lt inside (Int.lt_add_of_pos_right now (by decide)))
    refine ⟨fun i mem => ?_,?_⟩
    · rcases List.mem_append.mp mem with old | new
      · exact h i old
      · rw [List.mem_singleton.mp new]
        exact .inr late
    · simp [overdueCount,registerTask,Expired,live,isCheck]
  | examine auditLog now =>
    cases Option.some.inj ok
    refine ⟨fun j mem => ?_,?_⟩
    · unfold examine at mem
      split at mem
      · exact h j mem
      · obtain ⟨i,old,⟨-,rfl⟩ | ⟨-,rfl⟩⟩ := markedTask mem
        · exact h j old
        · exact h i old
    · simpa [isCheck] using examineCount auditLog now m
  | check env =>
    cases Option.some.inj ok
    exact ⟨checkWindow short inside h,checkHalves short inside h⟩

end Overdue

def threeSilent : Monitor :=
  ⟨[silent 0 "a".toList,silent 1 "b".toList,silent 2 "c".toList],3,[]⟩

def readings (n : Int) : Visit := ⟨ones,seconds n,seconds (n+1),.sshException⟩

def twice : List Action :=
  [.check (fun _ => readings 181),.examine "type=CWD".toList 0,.check (fun _ => readings 182)]

end TeePa.Detection
