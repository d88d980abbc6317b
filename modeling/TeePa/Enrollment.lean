import TeePa.HeartbeatLoop
import TeePa.Runs

/-! How an address gets from a connection to a task. The listener looks at the tasks
and at the waiting devices before it appends; the heartbeat thread takes a device out
of the one list and later puts its task in the other. -/
namespace TeePa.Enrollment
open Texts Heartbeat HeartbeatLoop Runs

/- Where the listener stands with the connection it has accepted: behind neither
test, behind the one on executing_tasks, or behind both. -/
inductive Listener where
  | accept
  | accepted (address : Text)
  | unregistered (address : Text)
  | fresh (address : Text)
  deriving DecidableEq, Repr

inductive Beat where
  | loop (token : Token)
  | popped (token : Token) (targetIp : Text)
  | stopped
  deriving DecidableEq, Repr

structure System where
  iotDevice : List Text
  monitor : Monitor
  listener : Listener
  beat : Beat
  deriving DecidableEq, Repr

structure Reading where
  token : Token
  contact : Contact
  visits : Nat → Visit

inductive Action where
  | connect (address : Text)
  | listen
  | heartbeat (reading : Reading)

def start (token : Token) : System := ⟨[],⟨[],0,[]⟩,.accept,.loop token⟩

def listenStep (s : System) : Option System := match s.listener with
  | .accept => none
  | .accepted address =>
      if s.monitor.executingTasks.any (fun targetIp => targetIp.ipAddress = address) then
        some {s with listener := .accept}
      else some {s with listener := .unregistered address}
  | .unregistered address =>
      if address ∈ s.iotDevice then some {s with listener := .accept}
      else some {s with listener := .fresh address}
  | .fresh address => some {s with iotDevice := s.iotDevice ++ [address],listener := .accept}

/- One pop, one contact, or one pass; a pass only where nobody waits. -/
def heartbeatStep (reading : Reading) (s : System) : Option System := match s.beat with
  | .loop token => match s.iotDevice.getLast? with
    | some targetIp => some {s with
        iotDevice := s.iotDevice.dropLast
        beat := .popped token targetIp}
    | none => some {s with
        monitor := checkExpire reading.visits s.monitor
        beat := if (checkRounds reading.visits s.monitor).all (fun round => !round.raised)
          then .loop reading.token else .stopped}
  | .popped token targetIp =>
      let issued := contact token reading.contact targetIp s.monitor
      some {s with monitor := issued.2,beat := if issued.1 then .loop token else .stopped}
  | .stopped => none

def step (s : System) : Action → Option System
  | .connect address =>
      if s.listener = .accept then some {s with listener := .accepted address} else none
  | .listen => listenStep s
  | .heartbeat reading => heartbeatStep reading s

def addresses (m : Monitor) : List Text := m.executingTasks.map Task.ipAddress

structure OneEntry (s : System) : Prop where
  waiting : s.iotDevice.Nodup
  registered : (addresses s.monitor).Nodup
  apart : ∀ address ∈ s.iotDevice, address ∉ addresses s.monitor

def between : Beat → Option Text
  | .popped _ targetIp => some targetIp
  | _ => none

def seeking : Listener → Option Text
  | .accepted address => some address
  | _ => none

def unregistered : Listener → Option Text
  | .unregistered address => some address
  | _ => none

def next (s : System) : Option Text := match s.beat with
  | .loop _ => s.iotDevice.getLast?
  | _ => none

/- The tasks are not searched for an address that is in neither list, and no address
is taken out between the two tests of it. -/
def Clear (s : System) : Action → Prop
  | .connect _ => True
  | .listen => ∀ address ∈ seeking s.listener, address ∉ between s.beat
  | .heartbeat _ => ∀ address ∈ unregistered s.listener, address ∉ next s
instance (s) : (action : Action) → Decidable (Clear s action)
  | .connect _ => .isTrue trivial
  | .listen => Option.decidableForallMem _
  | .heartbeat _ => Option.decidableForallMem _

section Pass
variable {m : Monitor} {index : Nat} {i : Task}

theorem updatedAddresses (v : Visit) (here : m.executingTasks[index]? = some i) :
    addresses (updatedTask v index i m).2.2 = addresses m := by
  unfold updatedTask
  dsimp only
  split
  · exact @assignKeeps _ Task.ipAddress index i {i with heartbeatCheck := false} m here rfl
  · simp only [executeCommand,assign,List.set_set,addresses]
    exact @assignKeeps _ Task.ipAddress index i (renew v i) m here rfl

theorem expireAddresses (v : Visit) (i : Task) (m : Monitor) :
    (addresses (expire v i m).2).Sublist (addresses m) := by
  rw [addresses,expiredTasks,addresses]
  split
  · exact List.eraseP_sublist.map _
  · exact .refl _

theorem visitAddresses (v : Visit) (here : m.executingTasks[index]? = some i) :
    (addresses (visit v index i m).after).Sublist (addresses m) := by
  have updated := updatedAddresses v here
  unfold visit
  dsimp only
  split
  · split
    · exact updated ▸ .refl _
    · exact updated ▸ expireAddresses _ _ _
  · exact expireAddresses _ _ _

theorem passAddresses (env : Nat → Visit) (m : Monitor) :
    (addresses (checkExpire env m)).Sublist (addresses m) := by
  have each : ∀ index x i, (addresses x).Sublist (addresses m) → x.executingTasks[index]? = some i →
      (addresses (visit (env index) index i x).after).Sublist (addresses m) :=
    fun index _ _ kept here => (visitAddresses (env index) here).trans kept
  exact passKeeps each (List.Sublist.refl (addresses m))

end Pass

structure Enrolled (s : System) : Prop where
  once : (s.iotDevice ++ (between s.beat).toList ++ addresses s.monitor).Nodup
  unregistered : ∀ address, s.listener = .unregistered address →
    address ∉ between s.beat ∧ address ∉ addresses s.monitor
  fresh : ∀ address, s.listener = .fresh address →
    address ∉ s.iotDevice ++ (between s.beat).toList ++ addresses s.monitor

theorem enrolledOne {s : System} (h : Enrolled s) : OneEntry s := by
  obtain ⟨fronts,tasks,apart⟩ := List.nodup_append.mp h.once
  refine ⟨(List.nodup_append.mp fronts).1,tasks,?_⟩
  intro address waiting registered
  exact apart address (List.mem_append_left _ waiting) address registered rfl

theorem startEnrolled (token : Token) : Enrolled (start token) :=
  ⟨List.nodup_nil,nofun,nofun⟩

theorem listenEnrolled {s t : System} (h : Enrolled s) (clear : Clear s .listen)
    (ok : listenStep s = some t) : Enrolled t := by
  obtain ⟨once,unregistered,fresh⟩ := h
  unfold listenStep at ok
  split at ok
  · contradiction
  · rename_i address pc
    split at ok
    · cases Option.some.inj ok
      exact ⟨once,nofun,nofun⟩
    · rename_i absent
      cases Option.some.inj ok
      refine ⟨once,?_,nofun⟩
      rintro other same
      cases Listener.unregistered.inj same
      refine ⟨clear address (by simp [seeking,pc]),fun mem => absent ?_⟩
      obtain ⟨t,inside,rfl⟩ := List.mem_map.mp mem
      exact List.any_eq_true.mpr ⟨t,inside,decide_eq_true rfl⟩
  · rename_i address pc
    split at ok
    · cases Option.some.inj ok
      exact ⟨once,nofun,nofun⟩
    · rename_i absent
      cases Option.some.inj ok
      refine ⟨once,nofun,?_⟩
      rintro other same
      cases Listener.fresh.inj same
      obtain ⟨free,missing⟩ := unregistered address pc
      simp only [List.mem_append,Option.mem_toList,not_or]
      exact ⟨⟨absent,free⟩,missing⟩
  · rename_i address pc
    cases Option.some.inj ok
    refine ⟨?_,nofun,nofun⟩
    have absent := fresh address pc
    have front : s.iotDevice ++ [address] ++ (between s.beat).toList ++ addresses s.monitor =
        s.iotDevice ++ address :: ((between s.beat).toList ++ addresses s.monitor) := by simp
    rw [List.append_assoc] at absent once
    dsimp only
    rw [front,List.perm_middle.nodup_iff,List.nodup_cons]
    exact ⟨absent,once⟩

theorem contactAddresses (token : Token) (c : Contact) (targetIp : Text) (m : Monitor) :
    addresses (contact token c targetIp m).2 = addresses m ++ [targetIp] := by
  simp [addresses,contact,executeCommand,registerTask]

structure Popped (s t : System) (targetIp : Text) : Prop where
  next : next s = some targetIp
  waiting : s.iotDevice = t.iotDevice ++ [targetIp]
  before : between s.beat = none
  after : between t.beat = some targetIp
  tasks : addresses t.monitor = addresses s.monitor

structure Passed (s t : System) : Prop where
  waiting : t.iotDevice = s.iotDevice
  before : between s.beat = none
  after : between t.beat = none
  tasks : (addresses t.monitor).Sublist (addresses s.monitor)

structure Registered (s t : System) (targetIp : Text) : Prop where
  waiting : t.iotDevice = s.iotDevice
  before : between s.beat = some targetIp
  after : between t.beat = none
  tasks : addresses t.monitor = addresses s.monitor ++ [targetIp]

theorem lastWaiting {xs : List Text} {a : Text} (last : xs.getLast? = some a) :
    xs = xs.dropLast ++ [a] := by
  obtain ⟨front,rfl⟩ := List.getLast?_eq_some_iff.mp last
  rw [List.dropLast_concat]

theorem heartbeatCases {s t : System} {reading : Reading} (ok : heartbeatStep reading s = some t) :
    t.listener = s.listener ∧
      ((∃ targetIp, Popped s t targetIp) ∨ Passed s t ∨ ∃ targetIp, Registered s t targetIp) := by
  unfold heartbeatStep at ok
  split at ok
  · rename_i token pc
    have before : between s.beat = none := by rw [pc]; rfl
    split at ok
    · rename_i targetIp last
      cases Option.some.inj ok
      exact ⟨rfl,.inl ⟨targetIp,by rw [next,pc,last],lastWaiting last,before,rfl,rfl⟩⟩
    · cases Option.some.inj ok
      refine ⟨rfl,.inr (.inl ⟨rfl,before,?_,passAddresses _ _⟩)⟩
      dsimp only
      split <;> rfl
  · rename_i token targetIp pc
    have before : between s.beat = some targetIp := by rw [pc]; rfl
    cases Option.some.inj ok
    refine ⟨rfl,.inr (.inr ⟨targetIp,rfl,before,?_,contactAddresses _ _ _ _⟩)⟩
    dsimp only
    split <;> rfl
  · contradiction

theorem heartbeatEnrolled {s t : System} {reading : Reading} (h : Enrolled s)
    (clear : Clear s (.heartbeat reading)) (ok : heartbeatStep reading s = some t) :
    Enrolled t := by
  obtain ⟨once,missing,fresh⟩ := h
  obtain ⟨listener,⟨targetIp,popped⟩ | passed | ⟨targetIp,registered⟩⟩ := heartbeatCases ok
  · have same : s.iotDevice ++ (between s.beat).toList =
        t.iotDevice ++ (between t.beat).toList := by
      rw [popped.before,popped.after,popped.waiting]
      exact List.append_nil _
    rw [same,← popped.tasks] at once
    refine ⟨once,?_,?_⟩
    · intro address waits
      rw [listener] at waits
      rw [popped.tasks,popped.after,← popped.next]
      exact ⟨clear address (by rw [waits]; rfl),(missing address waits).2⟩
    · intro address seen
      rw [← same,popped.tasks]
      exact fresh address (listener ▸ seen)
  · have shorter : (t.iotDevice ++ (between t.beat).toList ++ addresses t.monitor).Sublist
        (s.iotDevice ++ (between s.beat).toList ++ addresses s.monitor) := by
      rw [passed.waiting,passed.before,passed.after]
      exact passed.tasks.append_left _
    refine ⟨once.sublist shorter,?_,?_⟩
    · intro address waits
      refine ⟨by rw [passed.after]; exact nofun,fun mem => ?_⟩
      exact (missing address (listener ▸ waits)).2 (passed.tasks.subset mem)
    · exact fun address seen mem => fresh address (listener ▸ seen) (shorter.subset mem)
  · have order : (t.iotDevice ++ (between t.beat).toList ++ addresses t.monitor).Perm
        (s.iotDevice ++ (between s.beat).toList ++ addresses s.monitor) := by
      rw [registered.waiting,registered.before,registered.after,registered.tasks,
        Option.toList_none,Option.toList_some,List.append_nil,List.append_assoc]
      exact List.perm_append_comm.append_left _
    refine ⟨order.nodup_iff.mpr once,?_,?_⟩
    · intro address waits
      obtain ⟨other,absent⟩ := missing address (listener ▸ waits)
      refine ⟨by rw [registered.after]; exact nofun,fun mem => ?_⟩
      rw [registered.tasks] at mem
      rcases List.mem_append.mp mem with old | new
      · exact absent old
      · exact other (by rw [registered.before,List.mem_singleton.mp new]; rfl)
    · exact fun address seen mem => fresh address (listener ▸ seen) (order.subset mem)

theorem stepEnrolled {s t : System} {action : Action} (h : Enrolled s) (clear : Clear s action)
    (ok : step s action = some t) : Enrolled t := by
  cases action with
  | connect address =>
    simp only [step] at ok
    split at ok
    · cases Option.some.inj ok
      exact ⟨h.once,nofun,nofun⟩
    · contradiction
  | listen => exact listenEnrolled h clear ok
  | heartbeat reading => exact heartbeatEnrolled h clear ok

theorem oneEntry {token : Token} {actions : List Action} {s : System}
    (run : Run (Restrict Clear (Of step)) (start token) actions s) : OneEntry s := by
  have preserved : ∀ s action t, Enrolled s → Restrict Clear (Of step) s action t → Enrolled t :=
    fun s action t h moved => stepEnrolled h moved.1 moved.2
  exact enrolledOne (invariant preserved run (startEnrolled token))

/- The device's second connection comes after its task, or before its hand-over: then
it is popped and registered between the two tests. -/
def quiet : Action := .heartbeat ⟨ones,⟨0,.success⟩,fun _ => ⟨ones,0,0,.success⟩⟩

def known : List Action :=
  [.connect "10.0.0.1".toList,.listen,.listen,.listen,quiet,quiet,.connect "10.0.0.1".toList,.listen]

def crossed : List Action :=
  [.connect "10.0.0.1".toList,.listen,.listen,.listen,.connect "10.0.0.1".toList,.listen,
    quiet,quiet,.listen,.listen]

theorem oneEntryKnown : ∃ s, Run (Restrict Clear (Of step)) (start zeros) known s ∧
    addresses s.monitor = ["10.0.0.1".toList] ∧ OneEntry s := by
  have ran : (execWithin Clear step (start zeros) known).map (fun s => addresses s.monitor) =
      some ["10.0.0.1".toList] := by decide +kernel
  obtain ⟨s,ok,tasks⟩ := Option.map_eq_some_iff.mp ran
  exact ⟨s,execWithinRun ok,tasks,oneEntry (execWithinRun ok)⟩

theorem crossedTwice : ∃ s, Run (Of step) (start zeros) crossed s ∧
    "10.0.0.1".toList ∈ s.iotDevice ∧ "10.0.0.1".toList ∈ addresses s.monitor ∧ ¬ OneEntry s := by
  have ran : (exec step (start zeros) crossed).map (fun s => (s.iotDevice,addresses s.monitor)) =
      some (["10.0.0.1".toList],["10.0.0.1".toList]) := by decide +kernel
  obtain ⟨s,ok,lists⟩ := Option.map_eq_some_iff.mp ran
  obtain ⟨waiting,registered⟩ := Prod.mk.inj lists
  have first : "10.0.0.1".toList ∈ s.iotDevice := waiting ▸ List.mem_singleton.mpr rfl
  have second : "10.0.0.1".toList ∈ addresses s.monitor := registered ▸ List.mem_singleton.mpr rfl
  exact ⟨s,execRun.mp ok,first,second,fun h => h.apart _ first second⟩

end TeePa.Enrollment
