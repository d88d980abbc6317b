import TeePa.Heartbeat

/-! The heartbeat thread beside the timers of logmatch. A renewal is taken apart
into its steps, and between any two of them a log may be examined against all
tasks. Only the heartbeat thread changes which tasks there are. -/
namespace TeePa.HeartbeatThreads
open Texts Heartbeat Runs

/- Where the heartbeat thread stands: between two passes, or in the round of one
task. A renewal keeps the token it has drawn. -/
inductive Pc where
  | idle
  | test (index : Nat)
  | clear (index : Nat)
  | ssh (index : Nat) (token : Token)
  | setExpire (index : Nat) (token : Token)
  | setCmd (index : Nat) (token : Token)
  | expiry (index : Nat)
  | stopped
  deriving DecidableEq, Repr

@[ext]
structure System where
  monitor : Monitor
  pc : Pc
  deriving DecidableEq, Repr

inductive Action where
  | register (targetIp command : Text) (now : Time)
  | heartbeat (v : Visit)
  | examine (auditLog : Text) (now : Time)
  deriving DecidableEq, Repr

def start : System := ⟨⟨[],0,[]⟩,.idle⟩

/- The next step of the heartbeat thread. The task of the round is the object the
loop holds, which stays where it is until the round is over. -/
def heartbeatStep (v : Visit) (s : System) : Option System := match s.pc with
  | .idle => some {s with pc := .test 0}
  | .test index => match s.monitor.executingTasks[index]? with
    | none => some {s with pc := .idle}
    | some i => some {s with pc := if i.heartbeatCheck then .clear index else .expiry index}
  | .clear index => do
      let i ← s.monitor.executingTasks[index]?
      some ⟨assign index {i with heartbeatCheck := false} s.monitor,.ssh index v.token⟩
  | .ssh index token => do
      let i ← s.monitor.executingTasks[index]?
      let issued := executeCommand i.ipAddress "root".toList "toor".toList (renewCommand token)
        v.ssh s.monitor
      some ⟨issued.2,if issued.1 then .setExpire index token else .stopped⟩
  | .setExpire index token => do
      let i ← s.monitor.executingTasks[index]?
      some ⟨assign index {i with expireTime := v.renewNow + seconds 15} s.monitor,
        .setCmd index token⟩
  | .setCmd index token => do
      let i ← s.monitor.executingTasks[index]?
      let m := assign index {i with executeCmd := renewCommand token} s.monitor
      some ⟨{m with history := m.history ++ [.given i.ref (renewCommand token)]},.expiry index⟩
  | .expiry index => do
      let i ← s.monitor.executingTasks[index]?
      some ⟨(expire v i s.monitor).2,.test (index+1)⟩
  | .stopped => none

def step (s : System) : Action → Option System
  | .register targetIp command now =>
      if s.pc = .idle then some {s with monitor := registerTask targetIp command now s.monitor}
      else none
  | .heartbeat v => heartbeatStep v s
  | .examine auditLog now => some {s with monitor := examine auditLog now s.monitor}

def renewing : Pc → Option Nat
  | .ssh index _ => some index
  | .setExpire index _ => some index
  | .setCmd index _ => some index
  | _ => none

def Undisturbed (s : System) : Action → Prop
  | .examine auditLog _ => ∀ index ∈ renewing s.pc, ∀ i ∈ s.monitor.executingTasks[index]?,
      ∀ title ∈ decodedTitle auditLog, ¬ title <:+: i.executeCmd
  | _ => True

structure Known (m : Monitor) : Prop where
  distinct : (m.executingTasks.map Task.ref).Nodup
  created : ∀ t ∈ m.executingTasks, t.ref < m.created
  flags : ∀ t ∈ m.executingTasks, t.heartbeatCheck = true → Answered m.history t

structure Fresh (s : System) : Prop extends Known s.monitor where
  renewing : ∀ index ∈ renewing s.pc, ∀ i ∈ s.monitor.executingTasks[index]?,
    i.heartbeatCheck = false

theorem startFresh : Fresh start :=
  ⟨⟨List.nodup_nil,fun t mem => by simp [start] at mem,fun t mem => by simp [start] at mem⟩,
    fun index none => nomatch none⟩

theorem registerKnown {m : Monitor} (h : Known m) (targetIp command : Text) (now : Time) :
    Known (registerTask targetIp command now m) := by
  refine ⟨?_,?_,?_⟩
  · simp only [registerTask,List.map_append,List.map_cons,List.map_nil]
    refine List.nodup_append.mpr ⟨h.distinct,by simp,?_⟩
    intro a old b new same
    obtain ⟨t,mem,rfl⟩ := List.mem_map.mp old
    rw [List.mem_singleton.mp new] at same
    exact Nat.ne_of_lt (h.created t mem) same
  · intro t mem
    rcases List.mem_append.mp mem with old | new
    · exact Nat.lt_succ_of_lt (h.created t old)
    · cases List.mem_singleton.mp new
      exact Nat.lt_succ_self _
  · intro t mem flag
    rcases List.mem_append.mp mem with old | new
    · exact answeredGiven.mpr ⟨(Nat.ne_of_lt (h.created t old)).symm,h.flags t old flag⟩
    · cases List.mem_singleton.mp new
      contradiction

theorem examineKnown {m : Monitor} (h : Known m) (auditLog : Text) (now : Time) :
    Known (examine auditLog now m) := by
  unfold examine
  cases decodedTitle auditLog with
  | none => exact h
  | some title =>
    have refs : (markTasks title m.executingTasks).map Task.ref = m.executingTasks.map Task.ref := by
      rw [markTasks,List.map_map]
      apply List.map_congr_left
      intro t _
      simp only [Function.comp_def]
      split <;> rfl
    refine ⟨refs ▸ h.distinct,?_,?_⟩
    · intro t mem
      obtain ⟨i,old,⟨-,rfl⟩ | ⟨-,rfl⟩⟩ := markedTask mem
      · exact h.created t old
      · exact h.created i old
    · intro t mem flag
      obtain ⟨i,old,⟨-,rfl⟩ | ⟨occurs,rfl⟩⟩ := markedTask mem
      · exact answeredExamined.mpr (.inl (h.flags t old flag))
      · exact answeredExamined.mpr (.inr occurs)

section Assign
variable {m : Monitor} {index : Nat} {i i' : Task}

theorem assignKnown (h : Known m) (at_ : m.executingTasks[index]? = some i)
    (same : i'.ref = i.ref) (flag : i'.heartbeatCheck = true → Answered m.history i') :
    Known (assign index i' m) := by
  refine ⟨assignKeeps Task.ref at_ same ▸ h.distinct,?_,?_⟩
  · intro t mem
    rcases List.mem_or_eq_of_mem_set mem with old | rfl
    · exact h.created t old
    · exact same ▸ h.created i (List.mem_of_getElem? at_)
  · intro t mem flagged
    rcases List.mem_or_eq_of_mem_set mem with old | rfl
    · exact h.flags t old flagged
    · exact flag flagged

theorem assignAt (at_ : m.executingTasks[index]? = some i) :
    (assign index i' m).executingTasks[index]? = some i' := by
  obtain ⟨inside,-⟩ := List.getElem?_eq_some_iff.mp at_
  exact List.getElem?_set_self inside

theorem sameRef {t : Task} (h : Known m) (mem : i ∈ m.executingTasks) (mem' : t ∈ m.executingTasks)
    (same : i.ref = t.ref) : i = t := by
  obtain ⟨j,place⟩ := List.mem_iff_getElem?.mp mem
  obtain ⟨k,place'⟩ := List.mem_iff_getElem?.mp mem'
  obtain ⟨inside,-⟩ := List.getElem?_eq_some_iff.mp place
  have both : (m.executingTasks.map Task.ref)[j]? = (m.executingTasks.map Task.ref)[k]? := by
    rw [List.getElem?_map,List.getElem?_map,place,place']
    exact congrArg some same
  have equal : j = k := (List.getElem?_inj (by simpa using inside) h.distinct).mp both
  rw [equal,place'] at place
  exact (Option.some.inj place).symm

/- A new command answers nothing; the other tasks have other identities. -/
theorem givenKnown (h : Known m) (command : Text) (at_ : m.executingTasks[index]? = some i)
    (unflagged : i.heartbeatCheck = false) :
    Known {m with history := m.history ++ [.given i.ref command]} := by
  refine ⟨h.distinct,h.created,?_⟩
  intro t mem flag
  refine answeredGiven.mpr ⟨?_,h.flags t mem flag⟩
  intro own
  rw [sameRef h (List.mem_of_getElem? at_) mem own,flag] at unflagged
  contradiction

theorem executedKnown (h : Known m) (clientIp user password command : Text) (ssh : SshOutcome) :
    Known (executeCommand clientIp user password command ssh m).2 :=
  ⟨h.distinct,h.created,fun t mem flag => answeredExecuted.mpr (h.flags t mem flag)⟩

theorem expireKnown (h : Known m) (v : Visit) (i : Task) : Known (expire v i m).2 := by
  unfold expire
  split
  · have sub : (m.executingTasks.eraseP (equalFields i)).Sublist m.executingTasks :=
      List.eraseP_sublist
    exact ⟨h.distinct.sublist (sub.map Task.ref),fun t mem => h.created t (sub.subset mem),
      fun t mem => h.flags t (sub.subset mem)⟩
  · exact h

end Assign

theorem heartbeatFresh {v : Visit} {s s' : System} (h : Fresh s)
    (ok : heartbeatStep v s = some s') : Fresh s' := by
  obtain ⟨m,pc⟩ := s
  have known : Known m := h.toKnown
  have middle := h.renewing
  cases pc with
  | idle =>
    cases Option.some.inj ok
    exact ⟨known,fun index none => nomatch none⟩
  | test index =>
    simp only [heartbeatStep] at ok
    split at ok
    · cases Option.some.inj ok
      exact ⟨known,fun index none => nomatch none⟩
    · cases Option.some.inj ok
      refine ⟨known,?_⟩
      intro index none
      dsimp only at none
      split at none <;> exact nomatch none
  | clear index =>
    simp only [heartbeatStep,bind,Option.bind_eq_some_iff] at ok
    obtain ⟨i,at_,last⟩ := ok
    cases Option.some.inj last
    refine ⟨assignKnown known at_ rfl (fun flag => nomatch flag),?_⟩
    intro j own t place
    cases Option.some.inj own
    rw [assignAt at_] at place
    cases Option.some.inj place
    rfl
  | ssh index token =>
    simp only [heartbeatStep,bind,Option.bind_eq_some_iff] at ok
    obtain ⟨i,at_,last⟩ := ok
    cases Option.some.inj last
    refine ⟨executedKnown known _ _ _ _ _,?_⟩
    intro j own t place
    apply middle j _ t place
    dsimp only at own
    split at own
    · exact own
    · exact nomatch own
  | setExpire index token =>
    simp only [heartbeatStep,bind,Option.bind_eq_some_iff] at ok
    obtain ⟨i,at_,last⟩ := ok
    cases Option.some.inj last
    have unflagged : i.heartbeatCheck = false := middle index rfl i at_
    refine ⟨assignKnown known at_ rfl (fun flag => nomatch unflagged.symm.trans flag),?_⟩
    intro j own t place
    cases Option.some.inj own
    rw [assignAt at_] at place
    cases Option.some.inj place
    exact unflagged
  | setCmd index token =>
    simp only [heartbeatStep,bind,Option.bind_eq_some_iff] at ok
    obtain ⟨i,at_,last⟩ := ok
    cases Option.some.inj last
    have unflagged : i.heartbeatCheck = false := middle index rfl i at_
    have assigned := @assignKnown m index i {i with executeCmd := renewCommand token} known at_ rfl
      (fun flag => nomatch unflagged.symm.trans flag)
    have place := @assignAt m index i {i with executeCmd := renewCommand token} at_
    have given := @givenKnown _ index {i with executeCmd := renewCommand token} assigned
      (renewCommand token) place unflagged
    exact ⟨given,fun index none => nomatch none⟩
  | expiry index =>
    simp only [heartbeatStep,bind,Option.bind_eq_some_iff] at ok
    obtain ⟨i,at_,last⟩ := ok
    cases Option.some.inj last
    exact ⟨expireKnown known v i,fun index none => nomatch none⟩
  | stopped => contradiction

theorem examineFresh {s : System} (h : Fresh s) {auditLog : Text} {now : Time}
    (apart : Undisturbed s (.examine auditLog now)) :
    Fresh {s with monitor := examine auditLog now s.monitor} := by
  refine ⟨examineKnown h.toKnown auditLog now,?_⟩
  intro index own t place
  dsimp only at own place
  unfold examine at place
  cases title : decodedTitle auditLog with
  | none =>
    rw [title] at place
    exact h.renewing index own t place
  | some title' =>
    rw [title] at place
    simp only [markTasks,List.getElem?_map,Option.mem_def,Option.map_eq_some_iff] at place
    obtain ⟨i,at_,rfl⟩ := place
    have silent := apart index own i at_ title' title
    rw [if_neg silent]
    exact h.renewing index own i at_

theorem stepFresh {s s' : System} {action : Action} (h : Fresh s) (apart : Undisturbed s action)
    (ok : step s action = some s') : Fresh s' := by
  cases action with
  | register targetIp command now =>
    simp only [step] at ok
    split at ok
    · rename_i idle
      cases Option.some.inj ok
      refine ⟨registerKnown h.toKnown targetIp command now,?_⟩
      intro index own
      rw [idle] at own
      exact nomatch own
    · contradiction
  | heartbeat v => exact heartbeatFresh h ok
  | examine auditLog now =>
    cases Option.some.inj ok
    exact examineFresh h apart

theorem answersFresh {actions s} (run : Run (Restrict Undisturbed (Of step)) start actions s)
    {index : Nat} {i : Task} (at_ : s.monitor.executingTasks[index]? = some i)
    (flagged : i.heartbeatCheck = true) : Answered s.monitor.history i := by
  have preserved : ∀ s action s', Fresh s → Restrict Undisturbed (Of step) s action s' → Fresh s' :=
    fun s action s' h moved => stepFresh h moved.1 moved.2
  have fresh := invariant preserved run startFresh
  exact fresh.flags i (List.mem_of_getElem? at_) flagged

theorem visitAlone (v : Visit) {m : Monitor} {index : Nat} {i : Task}
    (at_ : m.executingTasks[index]? = some i) (ok : v.ssh ≠ .osError) :
    ∃ n, Run (Of step) ⟨m,.test index⟩ (List.replicate n (.heartbeat v))
      ⟨(visit v index i m).after,.test (index+1)⟩ := by
  cases flag : i.heartbeatCheck with
  | false =>
    refine ⟨2,execRun.mp ?_⟩
    rw [visitUnflagged v index m flag]
    simp only [exec,List.replicate,step,heartbeatStep,at_,flag,Bool.false_eq_true,if_false,
      Option.bind_eq_bind,Option.bind_some]
  | true =>
    obtain ⟨inside,entry⟩ := List.getElem?_eq_some_iff.mp at_
    refine ⟨6,execRun.mp ?_⟩
    rw [visitFlagged index m flag ok]
    simp only [exec,List.replicate,step,heartbeatStep,getElem?_pos,entry,inside,flag,if_true,
      assign,executeCommand,ne_eq,ok,not_false_eq_true,decide_true,Option.bind_eq_bind,
      Option.bind_some,List.length_set,List.getElem_set_self,List.set_set,List.append_assoc,
      List.cons_append,List.nil_append,renewal,renew]

theorem visitReturned {v : Visit} (index : Nat) (i : Task) (m : Monitor) (ok : v.ssh ≠ .osError) :
    (visit v index i m).raised = false := by
  cases flag : i.heartbeatCheck with
  | false => rw [visitUnflagged v index m flag]
  | true => rw [visitFlagged index m flag ok]

def lastState (done : List Round) (m : Monitor) : Monitor := (done.getLast?.map Round.after).getD m

theorem lastStateCons (round : Round) (rest : List Round) (m : Monitor) :
    lastState (round::rest) m = lastState rest round.after := by
  rw [lastState,List.getLast?_cons,lastState]
  cases rest.getLast? <;> rfl

theorem roundsAlone {env : Nat → Visit} (ok : ∀ index, (env index).ssh ≠ .osError)
    {fuel index : Nat} {m : Monitor} (enough : m.executingTasks.length ≤ index + fuel) :
    ∃ visits : List Visit, Run (Of step) ⟨m,.test index⟩ (visits.map .heartbeat)
      ⟨lastState (rounds env fuel index m) m,.idle⟩ := by
  induction fuel generalizing index m with
  | zero =>
    have past : m.executingTasks[index]? = none := List.getElem?_eq_none (by omega)
    exact ⟨[env index],single (by simp [Of,step,heartbeatStep,past,rounds,lastState])⟩
  | succ fuel ih =>
    rw [rounds]
    cases at_ : m.executingTasks[index]? with
    | none =>
      exact ⟨[env index],single (by simp [Of,step,heartbeatStep,at_,lastState])⟩
    | some i =>
      have shorter := visitShrinks (env index) index i m
      obtain ⟨n,first⟩ := visitAlone (env index) at_ (ok index)
      obtain ⟨visits,rest⟩ := @ih (index+1) (visit (env index) index i m).after (by omega)
      refine ⟨List.replicate n (env index) ++ visits,?_⟩
      simp only [visitReturned index i m (ok index),Bool.false_eq_true,if_false,lastStateCons,
        List.map_append,List.map_replicate]
      exact append first rest

theorem passAlone {env : Nat → Visit} (ok : ∀ index, (env index).ssh ≠ .osError) (m : Monitor) :
    ∃ visits : List Visit, Run (Of step) ⟨m,.idle⟩ (visits.map .heartbeat)
      ⟨checkExpire env m,.idle⟩ := by
  obtain ⟨visits,run⟩ := @roundsAlone env ok m.executingTasks.length 0 m (by omega)
  exact ⟨env 0::visits,.cons rfl run⟩

def answer : Text := "proctitle=ps 0".toList
def quick : Visit := ⟨ones,seconds 2,seconds 2,.success⟩

def answeredOnce : List Action := [.register "a".toList (keyCommand zeros) 0,
  .examine answer (seconds 1),.heartbeat quick]

theorem answersFreshOnce : ∃ s i, Run (Restrict Undisturbed (Of step)) start answeredOnce s ∧
    s.pc = .test 0 ∧ s.monitor.executingTasks[0]? = some i ∧ i.heartbeatCheck = true ∧
    Answered s.monitor.history i := by
  have quiet : Undisturbed ⟨registerTask "a".toList (keyCommand zeros) 0 start.monitor,.idle⟩
      (.examine answer (seconds 1)) := fun index none => nomatch none
  have run : Run (Restrict Undisturbed (Of step)) start answeredOnce _ :=
    .cons ⟨trivial,rfl⟩ (.cons ⟨quiet,rfl⟩ (.cons ⟨trivial,rfl⟩ (.nil _)))
  refine ⟨_,⟨0,0,seconds 180,"a".toList,keyCommand zeros,true⟩,run,rfl,?_,rfl,?_⟩
  · decide +kernel
  · exact @answersFresh _ _ run 0 _ (by decide +kernel) rfl

/- The same title again, after the flag is cleared and before the command is set:
the next pass finds the flag, and nothing has answered the new command. -/
def answeredTwice : List Action := answeredOnce ++ [.heartbeat quick,.heartbeat quick,
  .examine answer (seconds 2)] ++ List.replicate 6 (.heartbeat quick)

theorem staleAnswerRenews : ∃ s i, Run (Of step) start answeredTwice s ∧ s.pc = .test 0 ∧
    s.monitor.executingTasks[0]? = some i ∧ i.heartbeatCheck = true ∧
    i.executeCmd = renewCommand ones ∧ ¬ Answered s.monitor.history i := by
  have run := execRun.mp (show exec step start answeredTwice = some _ from rfl)
  refine ⟨_,⟨0,0,seconds 17,"a".toList,renewCommand ones,true⟩,run,by decide +kernel,
    by decide +kernel,rfl,rfl,?_⟩
  rintro ⟨title,now,mem,-⟩
  have none : since (gives 0) [.given 0 (keyCommand zeros),.examined "ps 0".toList (seconds 1),
      .examined "ps 0".toList (seconds 2),.executed "a".toList "root".toList "toor".toList
        (renewCommand ones) .success,.given 0 (renewCommand ones)] = [] := by decide +kernel
  exact List.not_mem_nil (none ▸ mem)

end TeePa.HeartbeatThreads
