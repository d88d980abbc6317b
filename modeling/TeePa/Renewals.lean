import TeePa.HeartbeatThreads

/-! What a renewal rests on. A task gets a second command only where a log was examined
whose title occurs in one it had before; a flag is the memory of such a log, and the
heartbeat thread acts on nothing else. -/
namespace TeePa.Renewals
open Texts Heartbeat HeartbeatThreads

def Reported (history : List Event) (ref : Nat) : Prop :=
  ∃ before command after title now, history = before ++ .given ref command :: after ∧
    .examined title now ∈ after ∧ title <:+: command

def Founded (history : List Event) : Prop :=
  ∀ before ref command after, history = before ++ .given ref command :: after →
    (∃ first, .given ref first ∈ before) → Reported before ref

structure Rooted (m : Monitor) : Prop where
  created : ∀ ref command, .given ref command ∈ m.history → ref < m.created
  given : ∀ t ∈ m.executingTasks, .given t.ref t.executeCmd ∈ m.history
  flags : ∀ t ∈ m.executingTasks, t.heartbeatCheck = true → Reported m.history t.ref
  founded : Founded m.history

def deciding : Pc → Option Nat
  | .clear index => some index
  | .ssh index _ => some index
  | .setExpire index _ => some index
  | .setCmd index _ => some index
  | _ => none

structure Grounded (s : System) : Prop extends Rooted s.monitor where
  deciding : ∀ index ∈ deciding s.pc, ∀ i ∈ s.monitor.executingTasks[index]?,
    Reported s.monitor.history i.ref

section History
variable {history : List Event} {ref : Nat}

theorem reportedMore (h : Reported history ref) (more : List Event) :
    Reported (history ++ more) ref := by
  obtain ⟨before,command,after,title,now,rfl,mem,occurs⟩ := h
  exact ⟨before,command,after ++ more,title,now,by simp,List.mem_append_left _ mem,occurs⟩

theorem reportedNow {command title : Text} (given : .given ref command ∈ history)
    (occurs : title <:+: command) (now : Time) :
    Reported (history ++ [.examined title now]) ref := by
  obtain ⟨before,after,rfl⟩ := List.append_of_mem given
  exact ⟨before,command,after ++ [.examined title now],title,now,by simp,
    List.mem_append_right _ (List.mem_singleton.mpr rfl),occurs⟩

theorem foundedSnoc {event : Event} (h : Founded history)
    (own : ∀ ref command, event = .given ref command → (∃ first, .given ref first ∈ history) →
      Reported history ref) : Founded (history ++ [event]) := by
  intro before ref command after split first
  rcases List.eq_nil_or_concat after with rfl | ⟨rest,last,rfl⟩
  · obtain ⟨rfl,same⟩ := List.append_inj' split rfl
    exact own ref command (List.singleton_inj.mp same) first
  · have same : history ++ [event] = (before ++ .given ref command :: rest) ++ [last] := by
      rw [split]
      simp
    exact h before ref command rest (List.append_inj' same rfl).1 first

end History

theorem startGrounded : Grounded start :=
  ⟨⟨fun _ _ mem => absurd mem List.not_mem_nil,fun _ mem => absurd mem List.not_mem_nil,
    fun _ mem => absurd mem List.not_mem_nil,fun before _ _ _ split => by simp [start] at split⟩,
    fun _ none => absurd none (Option.not_mem_none _)⟩

section Monitor
variable {m : Monitor} {index : Nat} {i i' : Task}

theorem registerRooted (h : Rooted m) (targetIp command : Text) (now : Time) :
    Rooted (registerTask targetIp command now m) := by
  refine ⟨?_,?_,?_,?_⟩
  · intro ref given mem
    rcases List.mem_append.mp mem with old | new
    · exact Nat.lt_succ_of_lt (h.created ref given old)
    · cases List.mem_singleton.mp new
      exact Nat.lt_succ_self _
  · intro t mem
    rcases List.mem_append.mp mem with old | new
    · exact List.mem_append_left _ (h.given t old)
    · cases List.mem_singleton.mp new
      exact List.mem_append_right _ (List.mem_singleton.mpr rfl)
  · intro t mem flag
    rcases List.mem_append.mp mem with old | new
    · exact reportedMore (h.flags t old flag) _
    · cases List.mem_singleton.mp new
      contradiction
  · refine foundedSnoc h.founded (fun ref given same first => ?_)
    cases same
    obtain ⟨first,mem⟩ := first
    exact absurd (h.created _ _ mem) (Nat.lt_irrefl _)

theorem executedRooted (h : Rooted m) (clientIp user password command : Text) (ssh : SshOutcome) :
    Rooted (executeCommand clientIp user password command ssh m).2 := by
  refine ⟨?_,fun t mem => List.mem_append_left _ (h.given t mem),
    fun t mem flag => reportedMore (h.flags t mem flag) _,?_⟩
  · intro ref given mem
    rcases List.mem_append.mp mem with old | new
    · exact h.created ref given old
    · exact Event.noConfusion (List.mem_singleton.mp new)
  · exact foundedSnoc h.founded (fun _ _ same => Event.noConfusion same)

theorem examineRooted (h : Rooted m) (auditLog : Text) (now : Time) :
    Rooted (examine auditLog now m) := by
  unfold examine
  cases decodedTitle auditLog with
  | none => exact h
  | some title =>
    refine ⟨?_,?_,?_,?_⟩
    · intro ref given mem
      rcases List.mem_append.mp mem with old | new
      · exact h.created ref given old
      · exact Event.noConfusion (List.mem_singleton.mp new)
    · intro t mem
      obtain ⟨i,old,⟨-,rfl⟩ | ⟨-,rfl⟩⟩ := markedTask mem
      · exact List.mem_append_left _ (h.given t old)
      · exact List.mem_append_left _ (h.given i old)
    · intro t mem flag
      obtain ⟨i,old,⟨-,rfl⟩ | ⟨occurs,rfl⟩⟩ := markedTask mem
      · exact reportedMore (h.flags t old flag) _
      · exact reportedNow (h.given i old) occurs now
    · exact foundedSnoc h.founded (fun _ _ same => Event.noConfusion same)

theorem assignRooted (h : Rooted m) (here : m.executingTasks[index]? = some i)
    (ref : i'.ref = i.ref) (command : i'.executeCmd = i.executeCmd)
    (flag : i'.heartbeatCheck = true → i.heartbeatCheck = true) : Rooted (assign index i' m) := by
  have mine : i ∈ m.executingTasks := List.mem_of_getElem? here
  refine ⟨h.created,?_,?_,h.founded⟩
  · intro t mem
    rcases List.mem_or_eq_of_mem_set mem with old | rfl
    · exact h.given t old
    · exact ref ▸ command ▸ h.given i mine
  · intro t mem flagged
    rcases List.mem_or_eq_of_mem_set mem with old | rfl
    · exact h.flags t old flagged
    · exact ref ▸ h.flags i mine (flag flagged)

theorem givenRooted (h : Rooted m) (here : m.executingTasks[index]? = some i)
    (reported : Reported m.history i.ref) (command : Text) :
    Rooted {m with
      executingTasks := m.executingTasks.set index {i with executeCmd := command}
      history := m.history ++ [.given i.ref command]} := by
  have mine : i ∈ m.executingTasks := List.mem_of_getElem? here
  refine ⟨?_,?_,?_,?_⟩
  · intro ref given mem
    rcases List.mem_append.mp mem with old | new
    · exact h.created ref given old
    · cases List.mem_singleton.mp new
      exact h.created _ _ (h.given i mine)
  · intro t mem
    rcases List.mem_or_eq_of_mem_set mem with old | rfl
    · exact List.mem_append_left _ (h.given t old)
    · exact List.mem_append_right _ (List.mem_singleton.mpr rfl)
  · intro t mem flagged
    rcases List.mem_or_eq_of_mem_set mem with old | rfl
    · exact reportedMore (h.flags t old flagged) _
    · exact reportedMore reported _
  · refine foundedSnoc h.founded (fun ref given same _ => ?_)
    cases same
    exact reported

theorem expireRooted (h : Rooted m) (v : Visit) (i : Task) : Rooted (expire v i m).2 := by
  unfold expire
  split
  · have kept : ∀ t ∈ m.executingTasks.eraseP (equalFields i), t ∈ m.executingTasks :=
      fun t mem => List.mem_of_mem_eraseP mem
    exact ⟨h.created,fun t mem => h.given t (kept t mem),fun t mem => h.flags t (kept t mem),
      h.founded⟩
  · exact h

end Monitor

theorem heartbeatGrounded {v : Visit} {s s' : System} (h : Grounded s)
    (ok : heartbeatStep v s = some s') : Grounded s' := by
  obtain ⟨m,pc⟩ := s
  have rooted : Rooted m := h.toRooted
  have decided := h.deciding
  cases pc with
  | idle =>
    cases Option.some.inj ok
    exact ⟨rooted,fun _ none => absurd none (Option.not_mem_none _)⟩
  | test index =>
    simp only [heartbeatStep] at ok
    cases here : m.executingTasks[index]? with
    | none =>
      simp only [here] at ok
      cases Option.some.inj ok
      exact ⟨rooted,fun _ none => absurd none (Option.not_mem_none _)⟩
    | some i =>
      simp only [here] at ok
      cases Option.some.inj ok
      refine ⟨rooted,?_⟩
      intro other mine j place
      dsimp only at mine place
      split at mine
      · rename_i flagged
        cases Option.some.inj mine
        rw [here] at place
        cases Option.some.inj place
        exact rooted.flags i (List.mem_of_getElem? here) flagged
      · exact absurd mine (Option.not_mem_none _)
  | clear index =>
    simp only [heartbeatStep,bind,Option.bind_eq_some_iff] at ok
    obtain ⟨i,here,last⟩ := ok
    cases Option.some.inj last
    refine ⟨assignRooted rooted here rfl rfl (fun flag => Bool.noConfusion flag),?_⟩
    intro other mine j place
    cases Option.some.inj mine
    rw [assignAt here] at place
    cases Option.some.inj place
    exact decided index rfl i here
  | ssh index token =>
    simp only [heartbeatStep,bind,Option.bind_eq_some_iff] at ok
    obtain ⟨i,here,last⟩ := ok
    cases Option.some.inj last
    refine ⟨executedRooted rooted _ _ _ _ _,?_⟩
    intro other mine j place
    dsimp only at mine
    split at mine
    · exact reportedMore (decided other mine j place) _
    · exact absurd mine (Option.not_mem_none _)
  | setExpire index token =>
    simp only [heartbeatStep,bind,Option.bind_eq_some_iff] at ok
    obtain ⟨i,here,last⟩ := ok
    cases Option.some.inj last
    refine ⟨assignRooted rooted here rfl rfl (fun flag => flag),?_⟩
    intro other mine j place
    cases Option.some.inj mine
    rw [assignAt here] at place
    cases Option.some.inj place
    exact decided index rfl i here
  | setCmd index token =>
    simp only [heartbeatStep,bind,Option.bind_eq_some_iff] at ok
    obtain ⟨i,here,last⟩ := ok
    cases Option.some.inj last
    exact ⟨givenRooted rooted here (decided index rfl i here) (renewCommand token),
      fun _ none => absurd none (Option.not_mem_none _)⟩
  | expiry index =>
    simp only [heartbeatStep,bind,Option.bind_eq_some_iff] at ok
    obtain ⟨i,here,last⟩ := ok
    cases Option.some.inj last
    exact ⟨expireRooted rooted v i,fun _ none => absurd none (Option.not_mem_none _)⟩
  | stopped => contradiction

theorem examinedHistory (auditLog : Text) (now : Time) (m : Monitor) :
    ∃ more, (examine auditLog now m).history = m.history ++ more := by
  unfold examine
  cases decodedTitle auditLog with
  | none => exact ⟨[],(List.append_nil _).symm⟩
  | some title => exact ⟨_,rfl⟩

theorem examinedPlace {auditLog : Text} {now : Time} {m : Monitor} {index : Nat} {i : Task}
    (place : (examine auditLog now m).executingTasks[index]? = some i) :
    ∃ j, m.executingTasks[index]? = some j ∧ i.ref = j.ref := by
  unfold examine at place
  split at place
  · exact ⟨i,place,rfl⟩
  · simp only [markTasks,List.getElem?_map,Option.map_eq_some_iff] at place
    obtain ⟨j,here,rfl⟩ := place
    refine ⟨j,here,?_⟩
    split <;> rfl

theorem examineGrounded {s : System} (h : Grounded s) (auditLog : Text) (now : Time) :
    Grounded {s with monitor := examine auditLog now s.monitor} := by
  refine ⟨examineRooted h.toRooted auditLog now,?_⟩
  intro index mine i place
  obtain ⟨j,here,same⟩ := examinedPlace place
  obtain ⟨more,longer⟩ := examinedHistory auditLog now s.monitor
  dsimp only
  rw [longer,same]
  exact reportedMore (h.deciding index mine j here) more

end TeePa.Renewals
