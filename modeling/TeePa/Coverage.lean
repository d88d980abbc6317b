import TeePa.Enrollment
import TeePa.HeartbeatThreads

/-! Where the devices are. The listener puts an entry in one list, the heartbeat thread
takes it out and makes a task of it, and a pass takes the task out: in every order of
their steps no entry is lost on its way and none is made twice of one. -/
namespace TeePa.Coverage
open Texts Heartbeat HeartbeatLoop Enrollment Runs
open HeartbeatThreads (lastState lastStateCons)

def victims (rounds : List Round) : List Text :=
  rounds.flatMap (fun round => round.removed.toList.map Task.ipAddress)

def enrolls (s : System) : Action → List Text
  | .listen => match s.listener with
    | .fresh address => [address]
    | _ => []
  | _ => []

def expels (s : System) : Action → List Text
  | .heartbeat reading => match s.beat, s.iotDevice with
    | .loop _, [] => victims (checkRounds reading.visits s.monitor)
    | _, _ => []
  | _ => []

structure Book where
  system : System
  enrolled : List Text
  expelled : List Text
  deriving DecidableEq, Repr

def opened (token : Token) : Book := ⟨start token,[],[]⟩

def bookStep (b : Book) (action : Action) : Option Book := do
  let t ← step b.system action
  some ⟨t,b.enrolled ++ enrolls b.system action,b.expelled ++ expels b.system action⟩

def listed (s : System) : List Text :=
  s.iotDevice ++ (between s.beat).toList ++ addresses s.monitor

section Pass
variable {env : Nat → Visit}

theorem expireVictim (v : Visit) (i : Task) (m : Monitor) :
    (addresses (expire v i m).2 ++ (expire v i m).1.toList.map Task.ipAddress).Perm (addresses m) := by
  unfold expire
  split
  · have moved := (removeVictim i m).map Task.ipAddress
    rw [List.map_append] at moved
    exact moved
  · exact .of_eq (List.append_nil _)

theorem visitVictim {index : Nat} {i : Task} {m : Monitor} (v : Visit)
    (here : m.executingTasks[index]? = some i) :
    (addresses (visit v index i m).after ++
      (visit v index i m).removed.toList.map Task.ipAddress).Perm (addresses m) := by
  have updated := updatedAddresses v here
  unfold visit
  dsimp only
  split
  · split
    · exact .of_eq ((List.append_nil _).trans updated)
    · exact updated ▸ expireVictim v _ _
  · exact expireVictim v i m

theorem roundsVictims {fuel index : Nat} {m : Monitor} :
    (addresses (lastState (rounds env fuel index m) m) ++ victims (rounds env fuel index m)).Perm
      (addresses m) := by
  induction fuel generalizing index m with
  | zero => exact .of_eq (List.append_nil _)
  | succ fuel ih =>
    rw [rounds]
    cases here : m.executingTasks[index]? with
    | none => exact .of_eq (List.append_nil _)
    | some i =>
      have own := visitVictim (env index) here
      dsimp only
      split
      · rw [victims,List.flatMap_singleton]
        exact own
      · rw [lastStateCons,victims,List.flatMap_cons]
        refine .trans (List.perm_append_comm.append_left _) (.trans ?_ own)
        rw [← List.append_assoc]
        exact ih.append_right _

theorem passVictims (env : Nat → Visit) (m : Monitor) :
    (addresses (checkExpire env m) ++ victims (checkRounds env m)).Perm (addresses m) :=
  roundsVictims

end Pass

section Step
variable {s t : System}

theorem listenListed (ok : listenStep s = some t) :
    (listed t).Perm (listed s ++ enrolls s .listen) := by
  unfold listenStep at ok
  cases pc : s.listener with
  | accept =>
    rw [pc] at ok
    contradiction
  | accepted address =>
    simp only [pc] at ok
    have none : enrolls s .listen = [] := by simp only [enrolls,pc]
    rw [none,List.append_nil]
    split at ok <;> cases Option.some.inj ok <;> exact .refl _
  | unregistered address =>
    simp only [pc] at ok
    have none : enrolls s .listen = [] := by simp only [enrolls,pc]
    rw [none,List.append_nil]
    split at ok <;> cases Option.some.inj ok <;> exact .refl _
  | fresh address =>
    simp only [pc] at ok
    cases Option.some.inj ok
    have one : enrolls s .listen = [address] := by simp only [enrolls,pc]
    rw [one,listed,listed,List.append_assoc,List.append_assoc,List.append_assoc,List.append_assoc]
    refine List.Perm.append_left _ ?_
    rw [← List.append_assoc (between s.beat).toList]
    exact List.perm_append_comm

/- Only a pass takes an entry out; a pop and a hand-over move one. -/
theorem heartbeatListed {reading : Reading} (ok : heartbeatStep reading s = some t) :
    (listed t ++ expels s (.heartbeat reading)).Perm (listed s) := by
  unfold heartbeatStep at ok
  cases pc : s.beat with
  | loop token =>
    simp only [pc] at ok
    cases last : s.iotDevice.getLast? with
    | some targetIp =>
      simp only [last] at ok
      cases Option.some.inj ok
      have split := lastWaiting last
      have stays : expels s (.heartbeat reading) = [] := by
        simp only [expels,pc]
        split
        · rename_i empty
          rw [empty] at last
          contradiction
        · rfl
      have before : listed s = s.iotDevice.dropLast ++ [targetIp] ++ addresses s.monitor := by
        rw [listed,pc,← split,List.append_assoc]
        rfl
      rw [stays,List.append_nil,before]
      exact .refl _
    | none =>
      simp only [last] at ok
      have empty : s.iotDevice = [] := List.getLast?_eq_none_iff.mp last
      have out : expels s (.heartbeat reading) = victims (checkRounds reading.visits s.monitor) := by
        simp only [expels,pc,empty]
      have before : listed s = addresses s.monitor := by
        simp only [listed,empty,pc,between,Option.toList_none,List.nil_append]
      have after : listed t = addresses (checkExpire reading.visits s.monitor) := by
        cases Option.some.inj ok
        rw [listed,empty]
        dsimp only
        split <;> rfl
      rw [out,before,after]
      exact passVictims reading.visits s.monitor
  | popped token targetIp =>
    simp only [pc] at ok
    have stays : expels s (.heartbeat reading) = [] := by simp only [expels,pc]
    have before : listed s = s.iotDevice ++ ([targetIp] ++ addresses s.monitor) := by
      rw [listed,pc,List.append_assoc]
      rfl
    have after : listed t = s.iotDevice ++ (addresses s.monitor ++ [targetIp]) := by
      cases Option.some.inj ok
      rw [listed,contactAddresses,List.append_assoc]
      dsimp only
      split <;> rfl
    rw [stays,List.append_nil,before,after]
    exact List.perm_append_comm.append_left _
  | stopped =>
    simp only [pc] at ok
    contradiction

theorem connectListed {address : Text} (ok : step s (.connect address) = some t) :
    listed t = listed s ∧ t.listener = .accepted address := by
  simp only [step] at ok
  split at ok
  · cases Option.some.inj ok
    exact ⟨rfl,rfl⟩
  · contradiction

theorem stepListed {action : Action} (ok : step s action = some t) :
    (listed t ++ expels s action).Perm (listed s ++ enrolls s action) := by
  cases action with
  | connect address =>
    rw [(connectListed ok).1]
    exact .refl _
  | listen =>
    have stays : expels s .listen = [] := rfl
    rw [stays,List.append_nil]
    exact listenListed ok
  | heartbeat reading =>
    have none : enrolls s (.heartbeat reading) = [] := rfl
    rw [none,List.append_nil]
    exact heartbeatListed ok

end Step

theorem bookCases {b c : Book} {action : Action} (ok : bookStep b action = some c) :
    step b.system action = some c.system ∧ c.enrolled = b.enrolled ++ enrolls b.system action ∧
      c.expelled = b.expelled ++ expels b.system action := by
  simp only [bookStep,bind,Option.bind_eq_some_iff] at ok
  obtain ⟨t,moved,made⟩ := ok
  cases Option.some.inj made
  exact ⟨moved,rfl,rfl⟩

theorem entriesConserved {token : Token} {actions : List Action} {b : Book}
    (run : Run (Of bookStep) (opened token) actions b) :
    (listed b.system ++ b.expelled).Perm b.enrolled := by
  have preserved : ∀ b action c, (listed b.system ++ b.expelled).Perm b.enrolled →
      Of bookStep b action c → (listed c.system ++ c.expelled).Perm c.enrolled := by
    intro b action c h ok
    obtain ⟨moved,enrolled,expelled⟩ := bookCases ok
    have later := (stepListed moved).append_right b.expelled
    have front : (listed c.system ++ (b.expelled ++ expels b.system action)).Perm
        (listed c.system ++ expels b.system action ++ b.expelled) := by
      rw [List.append_assoc]
      exact List.perm_append_comm.append_left _
    have back : (listed b.system ++ enrolls b.system action ++ b.expelled).Perm
        (listed b.system ++ b.expelled ++ enrolls b.system action) := by
      rw [List.append_assoc,List.append_assoc]
      exact List.perm_append_comm.append_left _
    rw [enrolled,expelled]
    exact front.trans (later.trans (back.trans (h.append_right _)))
  exact invariant preserved run (.refl _)

/- Two devices: the one that came last is popped first, and the pass that takes its task
out passes the other by. -/
def late : Action := .heartbeat ⟨ones,⟨0,.success⟩,fun _ => ⟨ones,seconds 181,seconds 181,.success⟩⟩

def pair : List Action :=
  [.connect "10.0.0.1".toList,.listen,.listen,.listen,.connect "10.0.0.2".toList,.listen,.listen,
    .listen,late,late,late,late,late]

theorem entriesConservedPair : ∃ b, Run (Of bookStep) (opened zeros) pair b ∧
    b.enrolled = ["10.0.0.1".toList,"10.0.0.2".toList] ∧ b.expelled = ["10.0.0.2".toList] ∧
    (listed b.system ++ b.expelled).Perm b.enrolled := by
  have ran : (exec bookStep (opened zeros) pair).map (fun b => (b.enrolled,b.expelled)) =
      some (["10.0.0.1".toList,"10.0.0.2".toList],["10.0.0.2".toList]) := by decide +kernel
  obtain ⟨b,ok,lists⟩ := Option.map_eq_some_iff.mp ran
  obtain ⟨enrolled,expelled⟩ := Prod.mk.inj lists
  exact ⟨b,execRun.mp ok,enrolled,expelled,entriesConserved (execRun.mp ok)⟩

def held : Listener → Option Text
  | .accept => none
  | .accepted address => some address
  | .unregistered address => some address
  | .fresh address => some address

structure Accounted (address : Text) (before : Nat) (b : Book) : Prop where
  bound : before ≤ b.expelled.length
  somewhere : address ∈ held b.system.listener ∨ address ∈ listed b.system ∨
    address ∈ b.expelled.drop before

theorem listenHolds {s t : System} {address : Text} (ok : listenStep s = some t)
    (mine : address ∈ held s.listener) : address ∈ held t.listener ∨ address ∈ listed t := by
  unfold listenStep at ok
  cases pc : s.listener with
  | accept =>
    rw [pc] at mine
    contradiction
  | accepted other =>
    simp only [pc] at ok
    rw [pc] at mine
    cases Option.some.inj mine
    split at ok <;> cases Option.some.inj ok
    · rename_i found
      obtain ⟨i,mem,same⟩ := List.any_eq_true.mp found
      refine .inr (List.mem_append_right _ (List.mem_map.mpr ⟨i,mem,?_⟩))
      exact of_decide_eq_true same
    · exact .inl rfl
  | unregistered other =>
    simp only [pc] at ok
    rw [pc] at mine
    cases Option.some.inj mine
    split at ok <;> cases Option.some.inj ok
    · rename_i waits
      exact .inr (List.mem_append_left _ (List.mem_append_left _ waits))
    · exact .inl rfl
  | fresh other =>
    simp only [pc] at ok
    rw [pc] at mine
    cases Option.some.inj mine
    cases Option.some.inj ok
    refine .inr (List.mem_append_left _ (List.mem_append_left _ ?_))
    exact List.mem_append_right _ (List.mem_singleton.mpr rfl)

theorem stepHolds {s t : System} {action : Action} {address : Text} (ok : step s action = some t)
    (mine : address ∈ held s.listener) : address ∈ held t.listener ∨ address ∈ listed t := by
  cases action with
  | connect other =>
    simp only [step] at ok
    split at ok
    · rename_i idle
      rw [idle] at mine
      contradiction
    · contradiction
  | listen => exact listenHolds ok mine
  | heartbeat reading => exact .inl ((heartbeatCases ok).1 ▸ mine)

theorem stepAccounted {b c : Book} {action : Action} {address : Text} {before : Nat}
    (h : Accounted address before b) (ok : bookStep b action = some c) :
    Accounted address before c := by
  obtain ⟨moved,-,expelled⟩ := bookCases ok
  have parts : (b.expelled ++ expels b.system action).drop before =
      b.expelled.drop before ++ expels b.system action := List.drop_append_of_le_length h.bound
  refine ⟨?_,?_⟩
  · rw [expelled,List.length_append]
    exact Nat.le_add_right_of_le h.bound
  · rw [expelled,parts,List.mem_append]
    rcases h.somewhere with mine | inside | out
    · rcases stepHolds moved mine with still | entered
      · exact .inl still
      · exact .inr (.inl entered)
    · have stays := (stepListed moved).mem_iff.mpr (List.mem_append_left _ inside)
      rcases List.mem_append.mp stays with kept | left
      · exact .inr (.inl kept)
      · exact .inr (.inr (.inr left))
    · exact .inr (.inr (.inl out))

theorem neverForgotten {b c d : Book} {address : Text} {actions : List Action}
    (connected : bookStep b (.connect address) = some c) (run : Run (Of bookStep) c actions d) :
    address ∈ held d.system.listener ∨ address ∈ listed d.system ∨
      address ∈ d.expelled.drop c.expelled.length := by
  obtain ⟨moved,-,-⟩ := bookCases connected
  have first : Accounted address c.expelled.length c :=
    ⟨Nat.le_refl _,.inl (by rw [(connectListed moved).2]; rfl)⟩
  have preserved : ∀ b action c', Accounted address c.expelled.length b → Of bookStep b action c' →
      Accounted address c.expelled.length c' := fun _ _ _ h ok => stepAccounted h ok
  exact (invariant preserved run first).somewhere

theorem neverForgottenOnce : ∃ c d, bookStep (opened zeros) (.connect "10.0.0.1".toList) = some c ∧
    Run (Of bookStep) c [.listen,.listen,.listen,late,late,late] d ∧
    ("10.0.0.1".toList ∈ held d.system.listener ∨ "10.0.0.1".toList ∈ listed d.system ∨
      "10.0.0.1".toList ∈ d.expelled.drop 0) := by
  have connected : bookStep (opened zeros) (.connect "10.0.0.1".toList) =
      some ⟨⟨[],⟨[],0,[]⟩,.accepted "10.0.0.1".toList,.loop zeros⟩,[],[]⟩ := rfl
  have ran : (exec bookStep ⟨⟨[],⟨[],0,[]⟩,.accepted "10.0.0.1".toList,.loop zeros⟩,[],[]⟩
      [.listen,.listen,.listen,late,late,late]).isSome := by decide +kernel
  obtain ⟨d,ok⟩ := Option.isSome_iff_exists.mp ran
  exact ⟨_,d,connected,execRun.mp ok,neverForgotten connected (execRun.mp ok)⟩

end TeePa.Coverage
