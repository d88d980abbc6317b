import TeePa.Heartbeat

/-! Runs of the monitoring in which registrations, examined logs and whole passes
of check_expire come one after another, each at its own time. -/
namespace TeePa.HeartbeatRuns
open Texts Heartbeat Runs

inductive Action where
  | register (targetIp command : Text) (now : Time)
  | examine (auditLog : Text) (now : Time)
  | check (env : Nat → Visit)

def start : Monitor := ⟨[],0,[]⟩

def step (m : Monitor) : Action → Option Monitor
  | .register targetIp command now => some (registerTask targetIp command now m)
  | .examine auditLog now => some (examine auditLog now m)
  | .check env => some (checkExpire env m)

/- No uncaught error, and less than 15 seconds between the two readings of a round.
A reading that the round does not make is free. -/
structure Paced (v : Visit) : Prop where
  caught : v.ssh ≠ .osError
  quick : v.checkNow < v.renewNow + seconds 15

def Admitted (_ : Monitor) : Action → Prop
  | .check env => ∀ index, Paced (env index)
  | _ => True

def Flags (m : Monitor) : Prop :=
  ∀ t ∈ m.executingTasks, Answered m.history t → t.heartbeatCheck = true

theorem registerFlags {m : Monitor} (h : Flags m) (targetIp command : Text) (now : Time) :
    Flags (registerTask targetIp command now m) := by
  intro t mem answered
  obtain ⟨other,before⟩ := answeredGiven.mp answered
  rcases List.mem_append.mp mem with old | new
  · exact h t old before
  · cases List.mem_singleton.mp new
    exact absurd rfl other

theorem examineFlags {m : Monitor} (h : Flags m) (auditLog : Text) (now : Time) :
    Flags (examine auditLog now m) := by
  unfold examine
  cases decodedTitle auditLog with
  | none => exact h
  | some title =>
    intro t mem answered
    obtain ⟨i,old,⟨silent,rfl⟩ | ⟨-,rfl⟩⟩ := markedTask mem
    · exact h t old ((answeredExamined.mp answered).resolve_right silent)
    · rfl

theorem removeFlags {m : Monitor} (h : Flags m) (i : Task) : Flags (remove i m).2 :=
  fun t mem => h t (List.mem_of_mem_eraseP mem)

theorem equalRead {i t : Task} (same : equalFields i t = true) :
    i.expireTime = t.expireTime ∧ i.heartbeatCheck = t.heartbeatCheck := by
  simp only [equalFields,decide_eq_true_eq] at same
  exact ⟨same.2.1,same.2.2.2.2⟩

theorem expireSpares {m : Monitor} {t : Task} (v : Visit) (i : Task) (mem : t ∈ m.executingTasks) :
    t ∈ (expire v i m).2.executingTasks ∨ (i.expireTime ≤ v.checkNow ∧ equalFields i t = true) := by
  unfold expire
  split
  · rename_i due
    have parted := (removeVictim i m).mem_iff.mpr mem
    rcases List.mem_append.mp parted with stays | victim
    · exact .inl stays
    · exact .inr ⟨due,List.find?_some (Option.mem_toList.mp victim)⟩
  · exact .inl mem

theorem expireFlags {m : Monitor} {i : Task} (h : Flags m) (v : Visit) :
    Flags (expire v i m).2 := by
  unfold expire
  split
  · exact removeFlags h i
  · exact h

theorem renewalFlags {m : Monitor} (h : Flags m) (v : Visit) (index : Nat) (i : Task) :
    Flags (renewal v index i m) := by
  intro t mem answered
  obtain ⟨other,before⟩ := answeredGiven.mp answered
  rcases List.mem_or_eq_of_mem_set mem with old | rfl
  · exact h t old (answeredExecuted.mp before)
  · exact absurd rfl other

theorem pacedRenewal {v : Visit} (index : Nat) (i : Task) (m : Monitor) (paced : Paced v) :
    expire v (renew v i) (renewal v index i m) = (none,renewal v index i m) :=
  if_neg (Int.not_le.mpr paced.quick)

theorem visitFlags {v : Visit} {m : Monitor} (h : Flags m) (index : Nat) (i : Task)
    (paced : Paced v) : Flags (visit v index i m).after := by
  cases flag : i.heartbeatCheck with
  | true =>
    rw [visitFlagged index m flag paced.caught,pacedRenewal index i m paced]
    exact renewalFlags h v index i
  | false =>
    rw [visitUnflagged v index m flag]
    exact expireFlags h v

theorem checkFlags {env : Nat → Visit} (paced : ∀ index, Paced (env index)) {m : Monitor}
    (h : Flags m) : Flags (checkExpire env m) :=
  @passKeeps Flags env (fun index _ i h _ => visitFlags h index i (paced index)) m h

theorem stepFlags {m m' : Monitor} {action : Action} (h : Flags m) (allowed : Admitted m action)
    (ok : step m action = some m') : Flags m' := by
  cases action with
  | register targetIp command now =>
    cases Option.some.inj ok
    exact registerFlags h targetIp command now
  | examine auditLog now =>
    cases Option.some.inj ok
    exact examineFlags h auditLog now
  | check env =>
    cases Option.some.inj ok
    exact checkFlags allowed h

theorem runFlags {actions m} (run : Run (Restrict Admitted (Of step)) start actions m) : Flags m := by
  have preserved : ∀ m action m', Flags m → Restrict Admitted (Of step) m action m' → Flags m' :=
    fun m action m' h moved => stepFlags h moved.1 moved.2
  exact invariant preserved run (fun t mem => by simp [start] at mem)

def Missing (m : Monitor) (t : Task) : Prop := ∀ u ∈ m.executingTasks, u.ref ≠ t.ref

def Spares (round : Round) : Prop := ∀ t ∈ round.before.executingTasks, Missing round.after t →
  ¬ Answered round.before.history t

def Brisk (env : Nat → Visit) : Prop :=
  ∀ earlier later, earlier ≤ later → (env later).checkNow < (env earlier).renewNow + seconds 15

theorem renewalPlace {m : Monitor} {index : Nat} {i t : Task} (v : Visit)
    (at_ : m.executingTasks[index]? = some i) (mem : t ∈ m.executingTasks) :
    t ∈ (renewal v index i m).executingTasks ∨
      (t = i ∧ renew v i ∈ (renewal v index i m).executingTasks) := by
  obtain ⟨place,here⟩ := List.mem_iff_getElem?.mp mem
  by_cases own : place = index
  · rw [own,at_] at here
    obtain ⟨inside,-⟩ := List.getElem?_eq_some_iff.mp at_
    exact .inr ⟨(Option.some.inj here).symm,List.mem_set inside (renew v i)⟩
  · refine .inl (List.mem_iff_getElem?.mpr ⟨place,?_⟩)
    rw [renewal,List.getElem?_set_ne (Ne.symm own)]
    exact here

theorem visitSpares {v : Visit} {index : Nat} {i : Task} {m : Monitor} (h : Flags m)
    (at_ : m.executingTasks[index]? = some i) (paced : Paced v) : Spares (visit v index i m) := by
  cases flag : i.heartbeatCheck with
  | true =>
    rw [visitFlagged index m flag paced.caught,pacedRenewal index i m paced]
    intro t mem missing
    rcases renewalPlace v at_ mem with stays | ⟨rfl,renewed⟩
    · exact absurd rfl (missing t stays)
    · exact absurd rfl (missing (renew v t) renewed)
  | false =>
    rw [visitUnflagged v index m flag]
    intro t mem missing
    rcases expireSpares v i mem with stays | ⟨-,same⟩
    · exact absurd rfl (missing t stays)
    · intro answered
      have unflagged := (equalRead same).2
      rw [h t mem answered,flag] at unflagged
      contradiction

/- What keeps a task in the list for the rest of a brisk pass: its flag, or a deadline
that is 15 seconds behind a reading of this pass. -/
def Kept (env : Nat → Visit) (ref index : Nat) (m : Monitor) : Prop :=
  ∃ t ∈ m.executingTasks, t.ref = ref ∧ (t.heartbeatCheck = true ∨
    ∃ earlier < index, t.expireTime = (env earlier).renewNow + seconds 15)

theorem visitKept {env : Nat → Visit} {ref index : Nat} {i : Task} {m : Monitor}
    (brisk : Brisk env) (paced : Paced (env index)) (h : Kept env ref index m)
    (at_ : m.executingTasks[index]? = some i) :
    Kept env ref (index+1) (visit (env index) index i m).after := by
  obtain ⟨t,mem,own,reason⟩ := h
  have later : t.heartbeatCheck = true ∨
      ∃ earlier < index + 1, t.expireTime = (env earlier).renewNow + seconds 15 := by
    refine reason.imp_right ?_
    rintro ⟨earlier,before,deadline⟩
    exact ⟨earlier,Nat.lt_succ_of_lt before,deadline⟩
  cases flag : i.heartbeatCheck with
  | true =>
    rw [visitFlagged index m flag paced.caught,pacedRenewal index i m paced]
    rcases renewalPlace (env index) at_ mem with stays | ⟨rfl,renewed⟩
    · exact ⟨t,stays,own,later⟩
    · exact ⟨renew (env index) t,renewed,own,.inr ⟨index,Nat.lt_succ_self _,rfl⟩⟩
  | false =>
    rw [visitUnflagged (env index) index m flag]
    rcases expireSpares (env index) i mem with stays | ⟨due,same⟩
    · exact ⟨t,stays,own,later⟩
    · obtain ⟨deadline,unflagged⟩ := equalRead same
      rcases reason with flagged | ⟨earlier,before,deadline'⟩
      · rw [← unflagged,flag] at flagged
        contradiction
      · have soon := brisk earlier index (Nat.le_of_lt before)
        rw [deadline,deadline'] at due
        exact absurd due (Int.not_le.mpr soon)

/- No pass of any run loses a task that has been answered since it got its command:
no round does, and where all of its readings are less than 15 seconds apart the pass
as a whole does not either. -/
theorem noFalseExpiry {actions m} {env : Nat → Visit}
    (run : Run (Restrict Admitted (Of step)) start actions m) (paced : ∀ index, Paced (env index)) :
    (∀ round ∈ checkRounds env m, Spares round) ∧
    (Brisk env → ∀ t ∈ m.executingTasks, Missing (checkExpire env m) t →
      ¬ Answered m.history t) := by
  have flags := runFlags run
  constructor
  · intro round mem
    have each : ∀ index m i, Flags m → m.executingTasks[index]? = some i →
        Spares (visit (env index) index i m) ∧ Flags (visit (env index) index i m).after :=
      fun index m i h at_ => ⟨visitSpares h at_ (paced index),visitFlags h index i (paced index)⟩
    exact (roundsEach each flags round mem).1
  · intro brisk t mem missing answered
    have kept : Kept env t.ref 0 m := ⟨t,mem,rfl,.inl (flags t mem answered)⟩
    obtain ⟨-,u,left,same,-⟩ :=
      passKeepsAt (fun index _ _ h at_ => visitKept brisk (paced index) h at_) kept
    exact missing u left same

def early : Visit := ⟨zeros,seconds 2,seconds 3,.success⟩
def late : Visit := ⟨zeros,seconds 200,seconds 201,.success⟩

def twoDevices : List Action :=
  [.register "a".toList (keyCommand zeros) 0,.register "b".toList (keyCommand ones) 0,
    .examine "proctitle=ps 0".toList (seconds 1),.check (fun _ => early),
    .examine "proctitle=touch".toList (seconds 4)]

theorem earlyPaced : Paced early := ⟨by decide,by decide⟩
theorem latePaced : Paced late := ⟨by decide,by decide⟩

theorem noFalseExpiryTwoDevices : ∃ m, Run (Restrict Admitted (Of step)) start twoDevices m ∧
    m.executingTasks.map Task.ref = [0,1] ∧
    (checkExpire (fun _ => late) m).executingTasks.map Task.ref = [0] ∧
    (∀ round ∈ checkRounds (fun _ => late) m, Spares round) ∧
    ∀ t ∈ m.executingTasks, Missing (checkExpire (fun _ => late) m) t → ¬ Answered m.history t := by
  have paced : Admitted start (.check (fun _ => early)) := fun _ => earlyPaced
  have run : Run (Restrict Admitted (Of step)) start twoDevices _ :=
    .cons ⟨trivial,rfl⟩ (.cons ⟨trivial,rfl⟩ (.cons ⟨trivial,rfl⟩ (.cons ⟨paced,rfl⟩
      (.cons ⟨trivial,rfl⟩ (.nil _)))))
  obtain ⟨spared,kept⟩ := noFalseExpiry run (fun _ => latePaced)
  exact ⟨_,run,by decide +kernel,by decide +kernel,spared,kept (fun _ _ _ => latePaced.quick)⟩

end TeePa.HeartbeatRuns
