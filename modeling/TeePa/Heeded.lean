import TeePa.Process

/-! What an examined log leaves behind: the flag of every task that it answers, until the
heartbeat thread takes up the renewal of that task. -/
namespace TeePa.Heeded
open Texts Heartbeat Runs
open HeartbeatThreads (System heartbeatStep renewing assignAt)
open Process (Beats Turns Watches monitor passPc)

/- The renewal of a task is under way, or its SSH attempt has ended the thread. -/
inductive Begun (s : System) (index : Nat) (t : Task) (events : List Event) : Prop where
  | underway (own : renewing s.pc = some index)
  | raised (token : Token) (mem : .executed t.ipAddress "root".toList "toor".toList
      (renewCommand token) .osError ∈ events)

def Heeds (s : System) (title : Text) (events : List Event) : Prop :=
  ∀ (index : Nat) (t : Task), s.monitor.executingTasks[index]? = some t → title <:+: t.executeCmd →
    (∀ command, .given t.ref command ∉ events) → t.heartbeatCheck = true ∨ Begun s index t events

def AllHeeded (s : System) : Prop := ∀ before title now after,
  s.monitor.history = before ++ .examined title now :: after → Heeds s title after

section Step
variable {s s' : System} {events : List Event}

theorem begunLater {index : Nat} {t : Task} (h : Begun s index t events) (before : List Event) :
    Begun s index t (before ++ events) := by
  cases h with
  | underway own => exact .underway own
  | raised token mem => exact .raised token (List.mem_append_right _ mem)

theorem heededNext (h : AllHeeded s) (history : s'.monitor.history = s.monitor.history ++ events)
    (quiet : ∀ title now, .examined title now ∉ events)
    (next : ∀ (index : Nat) (t : Task), s'.monitor.executingTasks[index]? = some t →
      (∀ command, .given t.ref command ∉ events) → Begun s' index t events ∨
        ∃ j : Nat, s.monitor.executingTasks[j]? = some t ∧ renewing s.pc ≠ some j) : AllHeeded s' := by
  intro before title now after split
  rw [history] at split
  rcases splitLast split with ⟨rest,old,rfl⟩ | ⟨front,-,new⟩
  · intro index t here occurs fresh
    rcases next index t here (fun command mem => fresh command (List.mem_append_right _ mem)) with
      begun | ⟨j,there,other⟩
    · exact .inr (begunLater begun rest)
    · rcases h before title now rest old j t there occurs
        (fun command mem => fresh command (List.mem_append_left _ mem)) with flag | begun
      · exact .inl flag
      · cases begun with
        | underway own => exact absurd own other
        | raised token mem => exact .inr (.raised token (List.mem_append_left _ mem))
  · exact absurd (new ▸ List.mem_append_right _ List.mem_cons_self) (quiet title now)

theorem heededCalm (h : AllHeeded s) (calm : renewing s.pc = none)
    (history : s'.monitor.history = s.monitor.history ++ events)
    (quiet : ∀ title now, .examined title now ∉ events)
    (tasks : ∀ t ∈ s'.monitor.executingTasks, (∀ command, .given t.ref command ∉ events) →
      t ∈ s.monitor.executingTasks) : AllHeeded s' := by
  refine heededNext h history quiet (fun index t here fresh => .inr ?_)
  obtain ⟨j,there⟩ := List.mem_iff_getElem?.mp (tasks t (List.mem_of_getElem? here) fresh)
  exact ⟨j,there,by rw [calm]; exact (Option.some_ne_none j).symm⟩

theorem heededAssign (h : AllHeeded s) {index : Nat} {i : Task}
    (pc : ∀ j, renewing s.pc = some j → j = index)
    (tasks : s'.monitor.executingTasks = s.monitor.executingTasks.set index i)
    (history : s'.monitor.history = s.monitor.history ++ events)
    (quiet : ∀ title now, .examined title now ∉ events)
    (own : (∀ command, .given i.ref command ∉ events) → renewing s'.pc = some index) :
    AllHeeded s' := by
  refine heededNext h history quiet (fun j t here fresh => ?_)
  rw [tasks] at here
  by_cases same : index = j
  · subst same
    obtain ⟨inside,-⟩ := List.getElem?_eq_some_iff.mp here
    rw [List.length_set] at inside
    rw [List.getElem?_set_self inside] at here
    cases Option.some.inj here
    exact .inl (.underway (own fresh))
  · rw [List.getElem?_set_ne same] at here
    exact .inr ⟨j,here,fun other => same (pc j other).symm⟩

theorem heartbeatHeeded {v : Visit} (h : AllHeeded s) (ok : heartbeatStep v s = some s') : AllHeeded s' := by
  obtain ⟨m,pc⟩ := s
  have none : ∀ title now, Event.examined title now ∉ [] := fun _ _ mem => absurd mem List.not_mem_nil
  have same : m.history = m.history ++ [] := (List.append_nil _).symm
  cases pc with
  | idle =>
    cases Option.some.inj ok
    exact heededCalm h rfl same none (fun t mem _ => mem)
  | test index =>
    simp only [heartbeatStep] at ok
    split at ok <;> cases Option.some.inj ok <;> exact heededCalm h rfl same none (fun t mem _ => mem)
  | clear index =>
    simp only [heartbeatStep,bind,Option.bind_eq_some_iff] at ok
    obtain ⟨i,-,last⟩ := ok
    cases Option.some.inj last
    exact heededAssign h (fun j own => absurd own.symm (Option.some_ne_none j)) rfl same none (fun _ => rfl)
  | ssh index token =>
    simp only [heartbeatStep,bind,Option.bind_eq_some_iff] at ok
    obtain ⟨i,at_,last⟩ := ok
    cases Option.some.inj last
    refine heededNext h rfl (by simp) (fun j t here fresh => ?_)
    by_cases own : index = j
    · subst own
      cases Option.some.inj (at_.symm.trans here)
      refine .inl ?_
      by_cases lost : v.ssh = .osError
      · exact .raised token (by rw [lost]; exact List.mem_singleton_self _)
      · refine .underway ?_
        simp only [executeCommand,ne_eq,lost,not_false_eq_true,decide_true,if_true]
        rfl
    · exact .inr ⟨j,here,fun other => own (Option.some.inj other)⟩
  | setExpire index token =>
    simp only [heartbeatStep,bind,Option.bind_eq_some_iff] at ok
    obtain ⟨i,-,last⟩ := ok
    cases Option.some.inj last
    exact heededAssign h (fun j own => (Option.some.inj own).symm) rfl same none (fun _ => rfl)
  | setCmd index token =>
    simp only [heartbeatStep,bind,Option.bind_eq_some_iff] at ok
    obtain ⟨i,-,last⟩ := ok
    cases Option.some.inj last
    refine heededAssign h (fun j own => (Option.some.inj own).symm) rfl rfl (by simp) (fun fresh => ?_)
    exact absurd (List.mem_singleton_self _) (fresh (renewCommand token))
  | expiry index =>
    simp only [heartbeatStep,bind,Option.bind_eq_some_iff] at ok
    obtain ⟨i,-,last⟩ := ok
    cases Option.some.inj last
    refine @heededCalm ⟨m,.expiry index⟩ _ [] h rfl ?_ none (fun t mem _ => ?_)
    · rw [List.append_nil]
      unfold expire
      split <;> rfl
    · dsimp only [expire] at mem
      split at mem
      · exact List.mem_of_mem_eraseP mem
      · exact mem
  | stopped => contradiction

theorem examineHeeded (h : AllHeeded s) (auditLog : Text) (now : Time) :
    AllHeeded {s with monitor := examine auditLog now s.monitor} := by
  unfold examine
  cases decodedTitle auditLog with
  | none => exact h
  | some title =>
    intro before title' moment after split index t here occurs fresh
    simp only [markTasks,List.getElem?_map,Option.map_eq_some_iff] at here
    obtain ⟨i,there,rfl⟩ := here
    by_cases own : title <:+: i.executeCmd
    · rw [if_pos own]
      exact .inl rfl
    · rw [if_neg own] at occurs fresh ⊢
      rcases splitLast split with ⟨rest,old,rfl⟩ | ⟨front,-,new⟩
      · rcases h before title' moment rest old index i there occurs
          (fun command mem => fresh command (List.mem_append_left _ mem)) with flag | begun
        · exact .inl flag
        · cases begun with
          | underway own => exact .inr (.underway own)
          | raised token mem => exact .inr (.raised token (List.mem_append_left _ mem))
      · cases front with
        | nil =>
          cases (List.cons.inj new).1
          exact absurd occurs own
        | cons first later => exact absurd (List.cons.inj new).2 (by simp)

theorem beatsHeeded (h : AllHeeded s) (turn : Beats s s') : AllHeeded s' := by
  have calm : ∀ {pc : HeartbeatThreads.Pc}, pc = .idle → renewing pc = none := by
    rintro pc rfl
    rfl
  cases turn with
  | waits idle same pc =>
    refine @heededCalm s s' [] h (calm idle) ?_ (by simp) (fun t mem _ => same ▸ mem)
    rw [same,List.append_nil]
  | registers targetIp command now idle same pc =>
    refine heededCalm h (calm idle) (congrArg Monitor.history same) (by simp) (fun t mem fresh => ?_)
    rw [same] at mem
    rcases List.mem_append.mp mem with old | new
    · exact old
    · cases List.mem_singleton.mp new
      exact absurd (List.mem_singleton_self _) (fresh command)
  | contacts targetIp command ssh idle same pc =>
    refine heededCalm h (calm idle) (congrArg Monitor.history same) (by simp) (fun t mem _ => ?_)
    rw [same] at mem
    exact mem
  | passes v next turn same pc =>
    have after := heartbeatHeeded h turn
    rcases pc with pc | ⟨-,stopped⟩
    · have whole : s' = next := HeartbeatThreads.System.ext same pc
      exact whole ▸ after
    · refine @heededCalm next s' [] after (by rw [stopped]; rfl) ?_ (by simp)
        (fun t mem _ => same ▸ mem)
      rw [same,List.append_nil]

end Step

section Process
variable {first s t : Process.System} {action : Process.Action}

theorem stepHeeded (h : AllHeeded ⟨monitor s,passPc s.beat⟩) (ok : Process.step s action = some t) :
    AllHeeded ⟨monitor t,passPc t.beat⟩ := by
  cases Process.stepTurns ok with
  | listens receiver beat =>
    have same : monitor t = monitor s := by rw [monitor,receiver,monitor]
    rw [same,beat]
    exact h
  | threads own given moved beat =>
    rw [beat]
    cases Process.threadWatches moved with
    | rested same _ =>
      have same : monitor t = monitor s := same
      rw [same]
      exact h
    | examined auditLog now mem next _ =>
      have next : monitor t = examine auditLog now (monitor s) := next
      rw [next]
      exact examineHeeded h auditLog now
  | beats m receiver turn =>
    have now : monitor t = m := by rw [monitor,receiver]; rfl
    exact now ▸ beatsHeeded h turn

structure Since (first s : Process.System) (logs : List Text) (events : List Event) : Prop where
  taken : s.receiver.shared.watched.taken = first.receiver.shared.watched.taken ++ logs
  history : (monitor s).history = (monitor first).history ++ events
  examined : ∀ auditLog ∈ logs, ∀ title ∈ decodedTitle auditLog, ∃ now, .examined title now ∈ events

theorem startSince (first : Process.System) : Since first first [] [] :=
  ⟨(List.append_nil _).symm,(List.append_nil _).symm,fun _ mem => absurd mem List.not_mem_nil⟩

theorem sinceSame {logs : List Text} {events : List Event} (h : Since first s logs events)
    (same : t.receiver.shared.watched.taken = s.receiver.shared.watched.taken) {more : List Event}
    (history : (monitor t).history = (monitor s).history ++ more) :
    Since first t logs (events ++ more) := by
  refine ⟨same.trans h.taken,by rw [history,h.history,List.append_assoc],?_⟩
  intro auditLog mem title decoded
  obtain ⟨now,seen⟩ := h.examined auditLog mem title decoded
  exact ⟨now,List.mem_append_left _ seen⟩

theorem stepSince {logs : List Text} {events : List Event} (h : Since first s logs events)
    (ok : Process.step s action = some t) : ∃ logs' events', Since first t logs' events' := by
  cases Process.stepTurns ok with
  | listens receiver beat =>
    have same : monitor t = monitor s := by rw [monitor,receiver,monitor]
    exact ⟨logs,_,@sinceSame first s t _ _ h (by rw [receiver]) [] (by rw [same,List.append_nil])⟩
  | threads own given moved beat =>
    cases Process.threadWatches moved with
    | rested same kept =>
      have same : monitor t = monitor s := same
      exact ⟨logs,_,@sinceSame first s t _ _ h kept [] (by rw [same,List.append_nil])⟩
    | examined auditLog now mem next out =>
      have next : monitor t = examine auditLog now (monitor s) := next
      obtain ⟨more,history⟩ := Renewals.examinedHistory auditLog now (monitor s)
      refine ⟨logs ++ [auditLog],events ++ more,?_,?_,fun log mem title decoded => ?_⟩
      · rw [out,h.taken,List.append_assoc]
      · rw [next,history,h.history,List.append_assoc]
      · rcases List.mem_append.mp mem with old | new
        · obtain ⟨moment,seen⟩ := h.examined log old title decoded
          exact ⟨moment,List.mem_append_left _ seen⟩
        · cases List.mem_singleton.mp new
          refine ⟨now,List.mem_append_right _ ?_⟩
          rw [examine,show decodedTitle auditLog = some title from decoded] at history
          exact List.append_cancel_left history ▸ List.mem_singleton_self _
  | beats m receiver turn =>
    obtain ⟨more,history,-⟩ := Process.beatsAdds turn
    have now : monitor t = m := by rw [monitor,receiver]; rfl
    exact ⟨logs,_,sinceSame h (by rw [receiver]; rfl) (now ▸ history)⟩

end Process

end TeePa.Heeded
