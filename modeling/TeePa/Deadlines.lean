import TeePa.HeartbeatRuns
import TeePa.HeartbeatThreads
import TeePa.Rounds

/-! The deadline of a task against its answers. A flag records no time, and a pass
looks at the flag first, so what counts is when the first answer was examined. -/
namespace TeePa.Deadlines
open Texts Heartbeat HeartbeatRuns Rounds Runs
open HeartbeatThreads (Known registerKnown examineKnown assignKnown assignAt givenKnown
  executedKnown expireKnown)

def answerTime (i : Task) : Event → Option Time
  | .examined title now => if title <:+: i.executeCmd then some now else none
  | .executed .. => none
  | .given .. => none

def answerTimes (history : List Event) (i : Task) : List Time :=
  (since (gives i.ref) history).filterMap (answerTime i)

def firstAnswer (history : List Event) (i : Task) : Option Time := (answerTimes history i).head?

def InTime (m : Monitor) : Prop :=
  ∀ i ∈ m.executingTasks, ∀ first ∈ firstAnswer m.history i, first ≤ i.expireTime

def Prompt (m : Monitor) : Action → Prop
  | .examine auditLog now => ∀ title ∈ decodedTitle auditLog, ∀ i ∈ m.executingTasks,
      title <:+: i.executeCmd → ¬ Answered m.history i → now ≤ i.expireTime
  | _ => True

theorem answerTimesSnoc (history : List Event) (event : Event) (i : Task) :
    answerTimes (history ++ [event]) i =
      if gives i.ref event then [] else answerTimes history i ++ (answerTime i event).toList := by
  rw [answerTimes,sinceSnoc]
  split
  · rfl
  · rw [List.filterMap_append]
    cases time : answerTime i event <;> simp [answerTimes,time]

theorem firstGiven {history : List Event} {i : Task} {ref : Nat} {command : Text} {first : Time}
    (found : firstAnswer (history ++ [.given ref command]) i = some first) :
    firstAnswer history i = some first := by
  rw [firstAnswer,answerTimesSnoc] at found
  split at found
  · contradiction
  · rwa [answerTime,Option.toList_none,List.append_nil] at found

theorem firstFresh (history : List Event) (i : Task) (command : Text) :
    firstAnswer (history ++ [.given i.ref command]) i = none := by
  have own : gives i.ref (.given i.ref command) = true := beq_self_eq_true i.ref
  rw [firstAnswer,answerTimesSnoc,if_pos own]
  rfl

theorem firstExecuted {history : List Event} {i : Task} {ip user password command outcome} :
    firstAnswer (history ++ [.executed ip user password command outcome]) i =
      firstAnswer history i := by
  have answers := answerTimesSnoc history (.executed ip user password command outcome) i
  simp only [gives,Bool.false_eq_true,if_false,answerTime,Option.toList_none,List.append_nil]
    at answers
  rw [firstAnswer,answers,firstAnswer]

theorem firstExamined (history : List Event) (i : Task) (title : Text) (now : Time) :
    firstAnswer (history ++ [.examined title now]) i =
      (firstAnswer history i).or (if title <:+: i.executeCmd then some now else none) := by
  have answers := answerTimesSnoc history (.examined title now) i
  simp only [gives,Bool.false_eq_true,if_false,answerTime] at answers
  rw [firstAnswer,answers,List.head?_append,firstAnswer]
  split <;> rfl

theorem answeredFirst (history : List Event) (i : Task) :
    Answered history i ↔ ∃ first, firstAnswer history i = some first := by
  constructor
  · rintro ⟨title,now,mem,occurs⟩
    have timed : now ∈ answerTimes history i := List.mem_filterMap.mpr ⟨_,mem,if_pos occurs⟩
    exact Option.isSome_iff_exists.mp (List.isSome_head?.mpr (List.ne_nil_of_mem timed))
  · rintro ⟨first,found⟩
    obtain ⟨event,mem,timed⟩ := List.mem_filterMap.mp (List.mem_of_head? found)
    cases event with
    | examined title now =>
      rw [answerTime] at timed
      split at timed
      · rename_i occurs
        exact ⟨title,now,mem,occurs⟩
      · contradiction
    | executed => contradiction
    | given => contradiction

theorem registerInTime {m : Monitor} (h : InTime m) (targetIp command : Text) (now : Time) :
    InTime (registerTask targetIp command now m) := by
  intro i mem first found
  rcases List.mem_append.mp mem with old | new
  · exact h i old first (firstGiven found)
  · cases List.mem_singleton.mp new
    exact nomatch (firstFresh m.history _ command).symm.trans found

theorem examineInTime {m : Monitor} (h : InTime m) {auditLog : Text} {now : Time}
    (prompt : Prompt m (.examine auditLog now)) : InTime (examine auditLog now m) := by
  cases title : decodedTitle auditLog with
  | none =>
    simp only [examine,title]
    exact h
  | some title' =>
    simp only [examine,title]
    intro t mem first found
    obtain ⟨i,old,marked⟩ := markedTask mem
    have same : firstAnswer (m.history ++ [.examined title' now]) i = some first ∧
        t.expireTime = i.expireTime := by
      rcases marked with ⟨-,rfl⟩ | ⟨-,rfl⟩ <;> exact ⟨found,rfl⟩
    rw [same.2]
    rw [firstExamined] at same
    rcases Option.or_eq_some_iff.mp same.1 with before | ⟨unanswered,own⟩
    · exact h i old first before
    · split at own
      · rename_i occurs
        cases Option.some.inj own
        refine prompt title' title i old occurs ?_
        intro answered
        obtain ⟨earlier,found⟩ := (answeredFirst _ _).mp answered
        exact nomatch unanswered.symm.trans found
      · contradiction

theorem expireInTime {m : Monitor} (h : InTime m) (v : Visit) (i : Task) :
    InTime (expire v i m).2 := by
  unfold expire
  split
  · exact fun t mem => h t (List.mem_of_mem_eraseP mem)
  · exact h

theorem executedInTime {m : Monitor} (h : InTime m) (clientIp user password command : Text)
    (ssh : SshOutcome) : InTime (executeCommand clientIp user password command ssh m).2 := by
  intro t mem first found
  exact h t mem first (firstExecuted ▸ found)

section Assign
variable {m : Monitor} {index : Nat} {i : Task}

theorem clearedInTime (h : InTime m) (at_ : m.executingTasks[index]? = some i) :
    InTime (assign index {i with heartbeatCheck := false} m) := by
  intro t mem first found
  rcases List.mem_or_eq_of_mem_set mem with old | rfl
  · exact h t old first found
  · exact h i (List.mem_of_getElem? at_) first found

theorem renewalInTime (h : InTime m) (v : Visit) : InTime (renewal v index i m) := by
  intro t mem first found
  rcases List.mem_or_eq_of_mem_set mem with old | rfl
  · exact h t old first (firstExecuted ▸ firstGiven found)
  · exact nomatch (firstFresh _ (renew v i) _).symm.trans found

theorem clearedKnown (h : Known m) (at_ : m.executingTasks[index]? = some i) :
    Known (assign index {i with heartbeatCheck := false} m) :=
  assignKnown h at_ rfl (fun flag => nomatch flag)

theorem renewalKnown (h : Known m) (at_ : m.executingTasks[index]? = some i) (v : Visit) :
    Known (renewal v index i m) := by
  have cleared := clearedKnown h at_
  have issued := executedKnown cleared i.ipAddress "root".toList "toor".toList
    (renewCommand v.token) v.ssh
  have place := @assignAt m index i {i with heartbeatCheck := false} at_
  have assigned := @assignKnown _ index _ (renew v i) issued place rfl (fun flag => nomatch flag)
  have given := givenKnown assigned (renewCommand v.token) (@assignAt _ index _ (renew v i) place) rfl
  simp only [assign,executeCommand,List.set_set] at given
  exact given

end Assign

structure Timely (m : Monitor) : Prop extends Known m where
  inTime : InTime m

theorem expireTimely {m : Monitor} (h : Timely m) (v : Visit) (i : Task) : Timely (expire v i m).2 :=
  ⟨expireKnown h.toKnown v i,expireInTime h.inTime v i⟩

theorem visitTimely {v : Visit} {index : Nat} {i : Task} {m : Monitor} (h : Timely m)
    (at_ : m.executingTasks[index]? = some i) : Timely (visit v index i m).after := by
  cases flag : i.heartbeatCheck with
  | true =>
    by_cases lost : v.ssh = .osError
    · rw [visitRaised index m flag lost]
      exact ⟨executedKnown (clearedKnown h.toKnown at_) _ _ _ _ _,
        executedInTime (clearedInTime h.inTime at_) _ _ _ _ _⟩
    · rw [visitFlagged index m flag lost]
      exact expireTimely ⟨renewalKnown h.toKnown at_ v,renewalInTime h.inTime v⟩ v _
  | false =>
    rw [visitUnflagged v index m flag]
    exact expireTimely h v i

theorem checkTimely {m : Monitor} (h : Timely m) (env : Nat → Visit) : Timely (checkExpire env m) :=
  @passKeeps Timely env (fun _ _ _ h at_ => visitTimely h at_) m h

theorem stepTimely {m m' : Monitor} {action : Action} (h : Timely m) (prompt : Prompt m action)
    (ok : step m action = some m') : Timely m' := by
  cases action with
  | register targetIp command now =>
    cases Option.some.inj ok
    exact ⟨registerKnown h.toKnown targetIp command now,registerInTime h.inTime targetIp command now⟩
  | examine auditLog now =>
    cases Option.some.inj ok
    exact ⟨examineKnown h.toKnown auditLog now,examineInTime h.inTime prompt⟩
  | check env =>
    cases Option.some.inj ok
    exact checkTimely h env

theorem startTimely : Timely start :=
  ⟨HeartbeatThreads.startFresh.toKnown,fun _ mem => absurd mem List.not_mem_nil⟩

theorem runTimely {actions m} (run : Run (Restrict Prompt (Of step)) start actions m) : Timely m := by
  have preserved : ∀ m action m', Timely m → Restrict Prompt (Of step) m action m' → Timely m' :=
    fun m action m' h moved => stepTimely h moved.1 moved.2
  exact invariant preserved run startTimely

def AnsweredInTime (history : List Event) (i : Task) : Prop :=
  ∃ first ∈ firstAnswer history i, first ≤ i.expireTime

/- What a pass may do: what it adds to the history is a renewal of a task that was
answered in time, and the commands and deadlines of all others stay. -/
structure Lawful (m m' : Monitor) : Prop where
  renews : ∃ events, m'.history = m.history ++ events ∧
    ∀ event ∈ events, ∃ i ∈ m.executingTasks, AnsweredInTime m.history i ∧ Renews i event
  tasks : ∀ t ∈ m'.executingTasks, ∃ i ∈ m.executingTasks, i.ref = t.ref ∧
    ((t.executeCmd = i.executeCmd ∧ t.expireTime = i.expireTime) ∨ AnsweredInTime m.history i)

theorem checkLawful {m : Monitor} (h : Timely m) (env : Nat → Visit) :
    Lawful m (checkExpire env m) := by
  have inTime : ∀ i ∈ m.executingTasks, i.heartbeatCheck = true → AnsweredInTime m.history i := by
    intro i mem flagged
    obtain ⟨first,found⟩ := (answeredFirst m.history i).mp (h.flags i mem flagged)
    exact ⟨first,found,h.inTime i mem first found⟩
  obtain ⟨events,passed⟩ := passRenews env m
  constructor
  · refine ⟨events,passed.history,fun event new => ?_⟩
    obtain ⟨i,mem,flagged,renews⟩ := passed.renews event new
    exact ⟨i,mem,inTime i mem flagged,renews⟩
  · intro t left
    obtain ⟨i,mem,same,kept⟩ := passed.tasks t left
    exact ⟨i,mem,same,kept.imp_right (fun renewed => inTime i mem renewed.1)⟩

structure Moved (m m' : Monitor) (events : List Event) : Prop where
  history : m'.history = m.history ++ events
  created : m.created ≤ m'.created
  given : ∀ ref < m.created, ∀ command, .given ref command ∈ events →
    ∃ i ∈ m.executingTasks, i.ref = ref
  tasks : ∀ t ∈ m'.executingTasks, t.ref < m.created → ∃ i ∈ m.executingTasks, i.ref = t.ref ∧
    ((t.executeCmd = i.executeCmd ∧ t.expireTime = i.expireTime) ∨
      ∃ command, .given t.ref command ∈ events)

theorem stepMoved {m m' : Monitor} {action : Action} (ok : step m action = some m') :
    ∃ events, Moved m m' events ∧ ∀ title now, .examined title now ∈ events →
      events = [.examined title now] ∧ ∃ auditLog, decodedTitle auditLog = some title ∧
        action = .examine auditLog now := by
  cases action with
  | register targetIp command now =>
    cases Option.some.inj ok
    refine ⟨[.given m.created command],⟨rfl,Nat.le_succ _,?_,?_⟩,fun _ _ mem => ?_⟩
    · intro ref old command' mem
      cases List.mem_singleton.mp mem
      exact absurd old (Nat.lt_irrefl _)
    · intro t mem old
      rcases List.mem_append.mp mem with before | new
      · exact ⟨t,before,rfl,.inl ⟨rfl,rfl⟩⟩
      · cases List.mem_singleton.mp new
        exact absurd old (Nat.lt_irrefl _)
    · exact nomatch List.mem_singleton.mp mem
  | examine auditLog now =>
    cases Option.some.inj ok
    unfold examine
    cases title : decodedTitle auditLog with
    | none =>
      exact ⟨[],⟨(List.append_nil _).symm,Nat.le_refl _,fun _ _ _ none => absurd none List.not_mem_nil,
        fun t mem _ => ⟨t,mem,rfl,.inl ⟨rfl,rfl⟩⟩⟩,fun _ _ none => absurd none List.not_mem_nil⟩
    | some title' =>
      refine ⟨[.examined title' now],⟨rfl,Nat.le_refl _,?_,?_⟩,?_⟩
      · intro ref _ command mem
        exact nomatch List.mem_singleton.mp mem
      · intro t mem _
        obtain ⟨i,old,⟨-,rfl⟩ | ⟨-,rfl⟩⟩ := markedTask mem
        · exact ⟨t,old,rfl,.inl ⟨rfl,rfl⟩⟩
        · exact ⟨i,old,rfl,.inl ⟨rfl,rfl⟩⟩
      · intro title now mem
        cases List.mem_singleton.mp mem
        exact ⟨rfl,auditLog,‹_›,rfl⟩
  | check env =>
    cases Option.some.inj ok
    obtain ⟨events,passed⟩ := passRenews env m
    refine ⟨events,⟨passed.history,Nat.le_of_eq passed.created.symm,?_,?_⟩,fun title now mem => ?_⟩
    · intro ref _ command mem
      obtain ⟨i,old,-,⟨_,_,renews⟩ | ⟨_,renews⟩⟩ := passed.renews _ mem
      · exact nomatch renews
      · cases renews
        exact ⟨i,old,rfl⟩
    · intro t mem _
      obtain ⟨i,old,same,kept⟩ := passed.tasks t mem
      exact ⟨i,old,same,kept.imp_right (fun renewed => same ▸ renewed.2)⟩
    · obtain ⟨i,-,-,⟨_,_,renews⟩ | ⟨_,renews⟩⟩ := passed.renews _ mem <;> exact nomatch renews

structure Late (s : Monitor) (i : Task) (between : List Event) (title : Text) (now : Time) : Prop where
  current : ∀ command, .given i.ref command ∉ between
  unanswered : ¬ Answered (s.history ++ between) i
  answers : title <:+: i.executeCmd
  behind : i.expireTime < now

structure Dropped (i : Task) (m : Monitor) (after : List Event) : Prop where
  missing : Missing m i
  spared : ∀ command, .given i.ref command ∉ after

structure Followed (s : Monitor) (i : Task) (m : Monitor) (past : List Event) : Prop where
  history : m.history = s.history ++ past
  created : i.ref < m.created
  kept : (∀ command, .given i.ref command ∉ past) → ∀ t ∈ m.executingTasks, t.ref = i.ref →
    t.executeCmd = i.executeCmd ∧ t.expireTime = i.expireTime
  dropped : ∀ between title now after, past = between ++ .examined title now :: after →
    Late s i between title now → Dropped i m after

section Follow
variable {s m m' : Monitor} {i : Task} {past events : List Event}

theorem droppedMoved {after : List Event} (h : Dropped i m after) (old : i.ref < m.created)
    (moved : Moved m m' events) : Dropped i m' (after ++ events) := by
  constructor
  · intro t mem same
    obtain ⟨j,before,own,-⟩ := moved.tasks t mem (same ▸ old)
    exact h.missing j before (own.trans same)
  · intro command mem
    rcases List.mem_append.mp mem with earlier | new
    · exact h.spared command earlier
    · obtain ⟨j,before,own⟩ := moved.given i.ref old command new
      exact h.missing j before own

theorem keptMoved (h : Followed s i m past) (moved : Moved m m' events)
    (current : ∀ command, .given i.ref command ∉ past ++ events) :
    ∀ t ∈ m'.executingTasks, t.ref = i.ref →
      t.executeCmd = i.executeCmd ∧ t.expireTime = i.expireTime := by
  intro t mem same
  obtain ⟨j,before,own,stays | ⟨command,given⟩⟩ := moved.tasks t mem (same ▸ h.created)
  · have kept := h.kept (fun command old => current command (List.mem_append_left _ old)) j before
      (own.trans same)
    exact ⟨stays.1.trans kept.1,stays.2.trans kept.2⟩
  · exact absurd (List.mem_append_right past (same ▸ given)) (current command)

/- A late first answer finds the task gone: the step would not be prompt otherwise. -/
theorem lateFinds {auditLog title : Text} {now : Time} (h : Followed s i m past)
    (prompt : Prompt m (.examine auditLog now)) (read : decodedTitle auditLog = some title)
    (late : Late s i past title now) : Missing m i := by
  intro t mem same
  obtain ⟨command,deadline⟩ := h.kept late.current t mem same
  have unanswered : ¬ Answered m.history t := by
    rw [Answered,same,command,h.history]
    exact late.unanswered
  have soon := prompt title read t mem (command ▸ late.answers) unanswered
  rw [deadline] at soon
  exact absurd late.behind (Int.not_lt.mpr soon)

theorem stepFollowed {action : Action} (h : Followed s i m past) (prompt : Prompt m action)
    (ok : step m action = some m') : ∃ events, Followed s i m' (past ++ events) := by
  obtain ⟨events,moved,own⟩ := stepMoved ok
  refine ⟨events,?_,Nat.lt_of_lt_of_le h.created moved.created,keptMoved h moved,?_⟩
  · rw [moved.history,h.history,List.append_assoc]
  · intro between title now after same late
    rcases splitLast same with ⟨rest,before,rfl⟩ | ⟨front,rfl,last⟩
    · exact droppedMoved (h.dropped between title now rest before late) h.created moved
    · have new : .examined title now ∈ events := by rw [last]; simp
      obtain ⟨alone,auditLog,read,rfl⟩ := own title now new
      rw [alone] at last
      obtain ⟨rfl,rfl⟩ : front = [] ∧ after = [] := by
        cases front with
        | nil => exact ⟨rfl,(List.cons.inj last).2.symm⟩
        | cons first rest => simp at last
      rw [List.append_nil] at late
      have gone : Dropped i m [] := ⟨lateFinds h prompt read late,fun _ => List.not_mem_nil⟩
      exact ⟨(droppedMoved gone h.created moved).missing,fun _ => List.not_mem_nil⟩

theorem startFollowed (h : Timely s) (mem : i ∈ s.executingTasks) : Followed s i s [] := by
  refine ⟨(List.append_nil _).symm,h.created i mem,?_,fun between title now after none => ?_⟩
  · intro _ t mem' same
    rw [HeartbeatThreads.sameRef h.toKnown mem' mem same]
    exact ⟨rfl,rfl⟩
  · simp at none

end Follow

/- In a run without a late first answer, every pass renews only what was answered in
time, and the list holds no task whose first answer came behind its deadline: where such
an answer is examined, its task has left the list before and nothing renews it. -/
theorem renewsInTime {before s actions m} (first : Run (Restrict Prompt (Of step)) start before s)
    (run : Run (Restrict Prompt (Of step)) s actions m) :
    (∀ env : Nat → Visit, Lawful m (checkExpire env m)) ∧ InTime m ∧
    ∀ i ∈ s.executingTasks, ∀ between title now after,
      m.history = s.history ++ between ++ .examined title now :: after →
      Late s i between title now → Dropped i m after := by
  have timely := runTimely (append first run)
  refine ⟨checkLawful timely,timely.inTime,?_⟩
  intro i mem between title now after same late
  have preserved : ∀ m action m', (∃ past, Followed s i m past) →
      Restrict Prompt (Of step) m action m' → ∃ past, Followed s i m' past := by
    rintro m action m' ⟨past,h⟩ ⟨prompt,ok⟩
    obtain ⟨events,next⟩ := stepFollowed h prompt ok
    exact ⟨past ++ events,next⟩
  obtain ⟨past,h⟩ := invariant preserved run ⟨[],startFollowed (runTimely first) mem⟩
  rw [h.history,List.append_assoc] at same
  exact h.dropped between title now after (List.append_cancel_left same) late

theorem promptBefore {m : Monitor} {auditLog : Text} {now : Time}
    (early : m.executingTasks.all (fun i => now ≤ i.expireTime) = true) :
    Prompt m (.examine auditLog now) := by
  intro title _ i mem _ _
  exact of_decide_eq_true (List.all_eq_true.mp early i mem)

def answeredTwice : Monitor := (exec step start twoDevices).getD start

def lateSecond : List Action :=
  [.check (fun _ => late),.examine "proctitle=ps 1".toList (seconds 202)]

def second : Task := ⟨1,0,seconds 180,"b".toList,keyCommand ones,false⟩

theorem renewsInTimeTwoDevices : ∃ m events,
    Run (Restrict Prompt (Of step)) start twoDevices answeredTwice ∧
    Run (Restrict Prompt (Of step)) answeredTwice lateSecond m ∧
    second ∈ answeredTwice.executingTasks ∧
    m.history = answeredTwice.history ++ events ++ [.examined "ps 1".toList (seconds 202)] ∧
    Late answeredTwice second events "ps 1".toList (seconds 202) ∧ Dropped second m [] ∧
    (checkExpire (fun _ => late) answeredTwice).executingTasks.map Task.executeCmd =
      [renewCommand zeros] ∧
    ∀ env : Nat → Visit, Lawful answeredTwice (checkExpire env answeredTwice) := by
  have first : Run (Restrict Prompt (Of step)) start twoDevices answeredTwice :=
    .cons ⟨trivial,rfl⟩ (.cons ⟨trivial,rfl⟩ (.cons ⟨promptBefore (by decide +kernel),rfl⟩
      (.cons ⟨trivial,rfl⟩ (.cons ⟨promptBefore (by decide +kernel),rfl⟩ (.nil _)))))
  have prompt : Prompt (checkExpire (fun _ => late) answeredTwice)
      (.examine "proctitle=ps 1".toList (seconds 202)) := promptBefore (by decide +kernel)
  have run : Run (Restrict Prompt (Of step)) answeredTwice lateSecond _ :=
    .cons ⟨trivial,rfl⟩ (.cons ⟨prompt,rfl⟩ (.nil _))
  have mem : second ∈ answeredTwice.executingTasks := by decide +kernel
  let events : List Event := [.executed "a".toList "root".toList "toor".toList
    (renewCommand zeros) .success,.given 0 (renewCommand zeros)]
  have past : (examine "proctitle=ps 1".toList (seconds 202)
      (checkExpire (fun _ => late) answeredTwice)).history =
      answeredTwice.history ++ events ++ [.examined "ps 1".toList (seconds 202)] := by decide +kernel
  have late : Late answeredTwice second events "ps 1".toList (seconds 202) := by
    refine ⟨?_,?_,by decide +kernel,by decide⟩
    · intro command given
      simp [events,second] at given
    · have none : firstAnswer (answeredTwice.history ++ events) second = none := by decide +kernel
      rw [answeredFirst]
      exact fun ⟨_,found⟩ => nomatch none.symm.trans found
  exact ⟨_,events,first,run,mem,past,late,
    (renewsInTime first run).2.2 second mem events _ _ [] past late,by decide +kernel,
    (renewsInTime first (.nil _)).1⟩

theorem lateBreaks {m : Monitor} {auditLog : Text} {now : Time}
    (slow : ¬ Prompt m (.examine auditLog now)) : ¬ InTime (examine auditLog now m) := by
  intro inTime
  apply slow
  intro title found i mem occurs silent
  have unanswered : firstAnswer m.history i = none := by
    cases first : firstAnswer m.history i with
    | none => rfl
    | some time => exact absurd ((answeredFirst _ _).mpr ⟨time,first⟩) silent
  simp only [examine,Option.mem_def.mp found] at inTime
  refine inTime {i with heartbeatCheck := true} (List.mem_map.mpr ⟨i,mem,if_pos occurs⟩) now ?_
  have first := firstExamined m.history i title now
  rw [unanswered,if_pos occurs] at first
  exact first

def Reads : Action → Time → Prop
  | .register _ _ now,t => t = now
  | .examine _ now,t => t = now
  | .check env,t => ∃ index, t = (env index).renewNow ∨ t = (env index).checkNow

def ClockOrder (actions : List Action) : Prop :=
  actions.Pairwise (fun a b => ∀ s t, Reads a s → Reads b t → s ≤ t)

def overdue : Visit := ⟨ones,seconds 182,seconds 182,.success⟩

def answeredLate : List Action := [.register "a".toList (keyCommand zeros) 0,
  .examine "proctitle=ps 0".toList (seconds 181)]

theorem lateAnswerRenews : ∃ m i, Run (Of step) start answeredLate m ∧
    ClockOrder (answeredLate ++ [.check (fun _ => overdue)]) ∧ m.executingTasks = [i] ∧
    i.expireTime = seconds 180 ∧ firstAnswer m.history i = some (seconds 181) ∧
    (checkExpire (fun _ => overdue) m).executingTasks = [renew overdue i] := by
  have run := execRun.mp (show exec step start answeredLate = some _ from rfl)
  refine ⟨_,⟨0,0,seconds 180,"a".toList,keyCommand zeros,true⟩,run,?_,by decide +kernel,rfl,
    by decide +kernel,by decide +kernel⟩
  have passTime : ∀ t, Reads (.check (fun _ => overdue)) t → t = seconds 182 := by
    rintro t ⟨_,rfl | rfl⟩ <;> rfl
  refine List.pairwise_cons.mpr ⟨?_,List.pairwise_cons.mpr ⟨?_,List.pairwise_singleton _ _⟩⟩
  · intro b mem s t first second
    cases (first : s = 0)
    rcases List.mem_cons.mp mem with rfl | mem
    · cases (second : t = seconds 181)
      decide
    · cases List.mem_singleton.mp mem
      rw [passTime t second]
      decide
  · intro b mem s t first second
    cases (first : s = seconds 181)
    cases List.mem_singleton.mp mem
    rw [passTime t second]
    decide

end TeePa.Deadlines
