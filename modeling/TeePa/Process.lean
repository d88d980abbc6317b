import TeePa.ReceiverOutputs
import TeePa.Renewals

/-! The receiver as main starts it: the thread that accepts connections and puts their
devices on a list, the threads that it starts for each of them, those of the SPADE
server, and the heartbeat thread. All of them share the deques, the list of waiting
devices and the tasks, and take their steps in any order. -/
namespace TeePa.Process
open Texts Receiver Heartbeat Runs Threads
open ReceiverThreads (Listening Orderly alone)
open ReceiverDeques (Accounted)
open Renewals (Grounded Reported)

/- Where the accepting thread stands with the connection it has: before one of its
two tests, before the append, or before it starts the three threads. -/
inductive Listener where
  | accept
  | accepted (address : Text)
  | unregistered (address : Text)
  | fresh (address : Text)
  | starting
  deriving DecidableEq, Repr

/- The heartbeat thread: at the top of its loop, with a device it has popped, with the
task of that device registered, or in check_expire. -/
inductive Beat where
  | loop (token : Token)
  | popped (token : Token) (targetIp : Text)
  | registered (token : Token) (targetIp : Text)
  | pass (pc : HeartbeatThreads.Pc)
  | stopped
  deriving DecidableEq, Repr

structure System where
  receiver : ReceiverThreads.System
  iotDevice : List Text
  listener : Listener
  beat : Beat

structure Reading where
  token : Token
  now : Time
  ssh : SshOutcome
  visit : Visit

inductive Action where
  | connect (address : Text)
  | listen
  | thread (action : ReceiverThreads.Action)
  | heartbeat (reading : Reading)

def start (token : Token) : System :=
  ⟨ReceiverThreads.start ⟨[],0,[]⟩,[],.accept,.loop token⟩

def monitor (s : System) : Monitor := s.receiver.shared.process.monitor

def withMonitor (m : Monitor) (r : ReceiverThreads.System) : ReceiverThreads.System :=
  {r with shared := {r.shared with process := {r.shared.process with monitor := m}}}

def listenStep (s : System) : Option System := match s.listener with
  | .accept => none
  | .accepted address =>
      if (monitor s).executingTasks.any (fun targetIp => targetIp.ipAddress = address) then
        some {s with listener := .starting}
      else some {s with listener := .unregistered address}
  | .unregistered address =>
      if s.iotDevice.contains address then some {s with listener := .starting}
      else some {s with listener := .fresh address}
  | .fresh address => some {s with iotDevice := s.iotDevice ++ [address],listener := .starting}
  | .starting => (ReceiverThreads.step s.receiver .accept).map
      (fun r => {s with receiver := r,listener := .accept})

/- The threads of the connections are started by the accepting one only. -/
def isAccept : ReceiverThreads.Action → Bool
  | .accept => true
  | _ => false

def passed (token : Token) : HeartbeatThreads.Pc → Beat
  | .idle => .loop token
  | .stopped => .stopped
  | pc => .pass pc

def heartbeatStep (reading : Reading) (s : System) : Option System := match s.beat with
  | .loop token => match s.iotDevice.getLast? with
    | some targetIp => some {s with
        iotDevice := s.iotDevice.dropLast
        beat := .popped token targetIp}
    | none => some {s with beat := .pass .idle}
  | .popped token targetIp => some {s with
      receiver := withMonitor (registerTask targetIp (keyCommand token) reading.now (monitor s))
        s.receiver
      beat := .registered token targetIp}
  | .registered token targetIp =>
      let issued := executeCommand targetIp "root".toList "toor".toList
        (keyCommand token ++ ";optee_example_watchdog".toList) reading.ssh (monitor s)
      some {s with
        receiver := withMonitor issued.2 s.receiver
        beat := if issued.1 then .loop token else .stopped}
  | .pass pc => (HeartbeatThreads.heartbeatStep reading.visit ⟨monitor s,pc⟩).map (fun next => {s with
      receiver := withMonitor next.monitor s.receiver
      beat := passed reading.token next.pc})
  | .stopped => none

def step (s : System) : Action → Option System
  | .connect address =>
      if s.listener = .accept then some {s with listener := .accepted address} else none
  | .listen => listenStep s
  | .thread action => if isAccept action then none
      else (ReceiverThreads.step s.receiver action).map (fun r => {s with receiver := r})
  | .heartbeat reading => heartbeatStep reading s

def passPc : Beat → HeartbeatThreads.Pc
  | .pass pc => pc
  | _ => .idle

/- What a step of the heartbeat thread does to the tasks: it takes up a device or goes on
in its pass. The pass of a thread that an exception has left is over. -/
inductive Beats (s t : HeartbeatThreads.System) : Prop where
  | waits (idle : s.pc = .idle) (monitor : t.monitor = s.monitor) (pc : t.pc = .idle)
  | registers (targetIp command : Text) (now : Time) (idle : s.pc = .idle)
      (monitor : t.monitor = registerTask targetIp command now s.monitor) (pc : t.pc = .idle)
  | contacts (targetIp command : Text) (ssh : SshOutcome) (idle : s.pc = .idle)
      (monitor : t.monitor = (executeCommand targetIp "root".toList "toor".toList command ssh
        s.monitor).2) (pc : t.pc = .idle)
  | passes (v : Visit) (next : HeartbeatThreads.System)
      (turn : HeartbeatThreads.heartbeatStep v s = some next) (monitor : t.monitor = next.monitor)
      (pc : t.pc = next.pc ∨ t.pc = .idle ∧ next.pc = .stopped)

inductive Turns (s : System) (action : Action) (t : System) : Prop where
  | listens (receiver : t.receiver = s.receiver) (beat : t.beat = s.beat)
  | threads (own : ReceiverThreads.Action) (given : own = .accept ∨ action = .thread own)
      (moved : ReceiverThreads.step s.receiver own = some t.receiver) (beat : t.beat = s.beat)
  | beats (m : Monitor) (receiver : t.receiver = withMonitor m s.receiver)
      (turn : Beats ⟨monitor s,passPc s.beat⟩ ⟨m,passPc t.beat⟩)

theorem passedPc (token : Token) (pc : HeartbeatThreads.Pc) :
    passPc (passed token pc) = pc ∨ passPc (passed token pc) = .idle ∧ pc = .stopped := by
  cases pc with
  | stopped => exact .inr ⟨rfl,rfl⟩
  | _ => exact .inl rfl

section Turns
variable {s t : System}

theorem heartbeatTurns {reading : Reading} (ok : heartbeatStep reading s = some t) : ∃ m,
    t.receiver = withMonitor m s.receiver ∧
    Beats ⟨monitor s,passPc s.beat⟩ ⟨m,passPc t.beat⟩ ∧ t.listener = s.listener := by
  unfold heartbeatStep at ok
  cases pc : s.beat with
  | loop token =>
    simp only [pc] at ok
    split at ok <;> cases Option.some.inj ok <;> exact ⟨monitor s,rfl,.waits rfl rfl rfl,rfl⟩
  | popped token targetIp =>
    simp only [pc] at ok
    cases Option.some.inj ok
    exact ⟨_,rfl,.registers targetIp (keyCommand token) reading.now rfl rfl rfl,rfl⟩
  | registered token targetIp =>
    simp only [pc] at ok
    cases Option.some.inj ok
    refine ⟨_,rfl,.contacts targetIp _ reading.ssh rfl rfl ?_,rfl⟩
    dsimp only
    split <;> rfl
  | pass pc' =>
    simp only [pc] at ok
    obtain ⟨next,turn,rfl⟩ := Option.map_eq_some_iff.mp ok
    exact ⟨_,rfl,.passes reading.visit next turn rfl (passedPc reading.token next.pc),rfl⟩
  | stopped =>
    simp only [pc] at ok
    contradiction

theorem listenTurns {action : Action} (ok : listenStep s = some t) : Turns s action t := by
  unfold listenStep at ok
  cases pc : s.listener with
  | accept =>
    simp only [pc] at ok
    contradiction
  | accepted address | unregistered address =>
    simp only [pc] at ok
    split at ok <;> cases Option.some.inj ok <;> exact .listens rfl rfl
  | fresh address =>
    simp only [pc] at ok
    cases Option.some.inj ok
    exact .listens rfl rfl
  | starting =>
    simp only [pc] at ok
    obtain ⟨r,started,rfl⟩ := Option.map_eq_some_iff.mp ok
    exact .threads .accept (.inl rfl) started rfl

theorem stepTurns {action : Action} (ok : step s action = some t) : Turns s action t := by
  cases action with
  | connect address =>
    simp only [step] at ok
    split at ok
    · cases Option.some.inj ok
      exact .listens rfl rfl
    · contradiction
  | listen => exact listenTurns ok
  | thread own =>
    simp only [step] at ok
    split at ok
    · contradiction
    · obtain ⟨r,moved,rfl⟩ := Option.map_eq_some_iff.mp ok
      exact .threads own (.inr rfl) moved rfl
  | heartbeat reading =>
    obtain ⟨m,receiver,turn,-⟩ := heartbeatTurns ok
    exact .beats m receiver turn

end Turns

def Brought (r : ReceiverThreads.System) (title : Text) : Prop :=
  ∃ entry ∈ r.shared.watched.pushed, title ∈ decodedTitle entry.2

structure Sound (s : System) : Prop where
  orderly : Orderly s.receiver
  accounted : Accounted s.receiver.shared
  grounded : Grounded ⟨monitor s,passPc s.beat⟩
  brought : ∀ title now, .examined title now ∈ (monitor s).history → Brought s.receiver title

section Threads
variable {s t : ReceiverThreads.System}

inductive Watches (s t : ReceiverThreads.Shared) : Prop where
  | rested (same : t.process.monitor = s.process.monitor) (taken : t.watched.taken = s.watched.taken)
  | examined (auditLog : Text) (now : Time)
      (mem : auditLog ∈ s.process.buffers.auditBufferHeartbeat.items)
      (next : t.process.monitor = examine auditLog now s.process.monitor)
      (taken : t.watched.taken = s.watched.taken ++ [auditLog])

theorem buffersOnly (s : ReceiverThreads.Shared) (buffers : Buffers)
    {buffered watched passed : ReceiverThreads.Tape} (taken : watched.taken = s.watched.taken) :
    Watches s ⟨{s.process with buffers := buffers},buffered,watched,passed⟩ := .rested rfl taken

theorem listenWatches {index : Nat} {got : Received} {c c' : Listening}
    {s t : ReceiverThreads.Shared} (ok : ReceiverThreads.listenStep index got s c = some (t,c')) :
    Watches s t := by
  obtain ⟨heard,pc⟩ := c
  cases pc with
  | recv => exact (Prod.mk.inj (Option.some.inj ok)).1 ▸ .rested rfl rfl
  | lines rest => cases rest <;> exact (Prod.mk.inj (Option.some.inj ok)).1 ▸ .rested rfl rfl
  | buffer auditLog rest =>
    rw [← (Prod.mk.inj (Option.some.inj ok)).1]
    exact buffersOnly s _ rfl
  | heartbeat auditLog rest =>
    rw [← (Prod.mk.inj (Option.some.inj ok)).1]
    exact buffersOnly s _ rfl
  | audit auditLog rest =>
    rw [← (Prod.mk.inj (Option.some.inj ok)).1]
    exact buffersOnly s _ rfl
  | closed => cases ok

theorem saveWatches {now : SavedLogs.Hour} {s t : Consumers.Shared} {own own' : Consumers.SaveChain}
    (ok : Consumers.saveStep now s own = some (t,own')) : t.monitor = s.monitor := by
  cases own with
  | call =>
    simp only [Consumers.saveStep] at ok
    split at ok <;> cases Option.some.inj ok <;> rfl
  | test name temp =>
    simp only [Consumers.saveStep] at ok
    split at ok <;> cases Option.some.inj ok <;> rfl
  | pop name temp =>
    simp only [Consumers.saveStep] at ok
    split at ok <;> cases Option.some.inj ok <;> rfl
  | opening name temp | writing name temp => cases Option.some.inj ok; rfl
  | died temp => cases ok

theorem matchWatches {now : Time} {s t : ReceiverThreads.Shared} {own own' : Consumers.MatchChain}
    (ok : ReceiverThreads.matchTurn now s own = some (t,own')) : Watches s t := by
  obtain ⟨r,turn,same⟩ := Option.map_eq_some_iff.mp ok
  rw [← (Prod.mk.inj same).1]
  cases own with
  | test =>
    cases Option.some.inj turn
    exact .rested rfl (ReceiverOutputs.takeNothing _ _)
  | pop =>
    cases popped : s.process.buffers.auditBufferHeartbeat.popleft with
    | none =>
      simp only [Consumers.logmatchStep,popped] at turn
      cases Option.some.inj turn
      exact .rested rfl (ReceiverOutputs.takeNothing _ _)
    | some result =>
      simp only [Consumers.logmatchStep,popped] at turn
      cases Option.some.inj turn
      have front := Deque.popleftItems popped
      exact .examined result.1 now (front ▸ List.mem_cons_self) rfl (ReceiverOutputs.takeFirst front)
  | died => cases turn

theorem clientWatches {next : SpadeServer.Shared → SpadeServer.Client →
      Option (SpadeServer.Shared × SpadeServer.Client)} {s t : ReceiverThreads.Shared}
    {client client' : SpadeServer.Client}
    (ok : ReceiverThreads.clientTurn next s client = some (t,client')) : Watches s t := by
  obtain ⟨r,-,same⟩ := Option.map_eq_some_iff.mp ok
  exact (Prod.mk.inj same).1 ▸ .rested rfl rfl

theorem threadWatches {action : ReceiverThreads.Action} (ok : ReceiverThreads.step s action = some t) :
    Watches s.shared t.shared := by
  cases action with
  | accept => cases Option.some.inj ok; exact .rested rfl rfl
  | connect => cases Option.some.inj ok; exact .rested rfl rfl
  | listen index got =>
    obtain ⟨result,acted,rfl⟩ := Option.map_eq_some_iff.mp ok
    obtain ⟨_,_,_,turn,_⟩ := movedAt acted
    exact listenWatches turn
  | save index now =>
    obtain ⟨result,acted,rfl⟩ := Option.map_eq_some_iff.mp ok
    obtain ⟨_,_,_,turn,_⟩ := movedAt acted
    obtain ⟨r,saved,same⟩ := Option.map_eq_some_iff.mp turn
    exact (Prod.mk.inj same).1 ▸ .rested (saveWatches saved) rfl
  | logmatch index now =>
    obtain ⟨result,acted,rfl⟩ := Option.map_eq_some_iff.mp ok
    obtain ⟨_,_,_,turn,_⟩ := movedAt acted
    exact matchWatches turn
  | disconnect index =>
    obtain ⟨result,acted,rfl⟩ := Option.map_eq_some_iff.mp ok
    obtain ⟨_,_,_,turn,_⟩ := movedAt acted
    exact clientWatches turn
  | send index accepted =>
    obtain ⟨result,acted,rfl⟩ := Option.map_eq_some_iff.mp ok
    obtain ⟨_,_,_,turn,_⟩ := movedAt acted
    exact clientWatches turn

theorem threadPushes {action : ReceiverThreads.Action} (ok : ReceiverThreads.step s action = some t) :
    ∀ entry ∈ s.shared.watched.pushed, entry ∈ t.shared.watched.pushed := by
  have kept : ∀ {index : Nat} {s t : ReceiverThreads.Shared} {buffer heartbeat audit : List Text},
      ReceiverThreads.Pushes index s t buffer heartbeat audit →
      ∀ entry ∈ s.watched.pushed, entry ∈ t.watched.pushed := by
    intro index s t buffer heartbeat audit pushes entry mem
    rw [pushes.watched]
    exact List.mem_append_left _ mem
  cases action with
  | accept => cases Option.some.inj ok; exact fun _ mem => mem
  | connect => cases Option.some.inj ok; exact fun _ mem => mem
  | listen index got =>
    obtain ⟨result,acted,rfl⟩ := Option.map_eq_some_iff.mp ok
    obtain ⟨_,_,_,turn,_⟩ := movedAt acted
    rcases ReceiverThreads.listenCases turn with ⟨-,same,-⟩ | ⟨-,-,_,_,_,pushes,-⟩
    · dsimp only
      rw [same]
      exact fun _ mem => mem
    · exact kept pushes
  | save index now =>
    obtain ⟨result,acted,rfl⟩ := Option.map_eq_some_iff.mp ok
    obtain ⟨_,_,_,turn,_⟩ := movedAt acted
    exact kept (@ReceiverThreads.savePushes _ _ index _ _ _ turn)
  | logmatch index now =>
    obtain ⟨result,acted,rfl⟩ := Option.map_eq_some_iff.mp ok
    obtain ⟨_,_,_,turn,_⟩ := movedAt acted
    exact kept (@ReceiverThreads.matchPushes _ _ index _ _ _ turn)
  | disconnect index =>
    obtain ⟨result,acted,rfl⟩ := Option.map_eq_some_iff.mp ok
    obtain ⟨_,_,_,turn,_⟩ := movedAt acted
    exact kept (@ReceiverThreads.clientPushes _ _ index _ _ _ turn)
  | send index accepted =>
    obtain ⟨result,acted,rfl⟩ := Option.map_eq_some_iff.mp ok
    obtain ⟨_,_,_,turn,_⟩ := movedAt acted
    exact kept (@ReceiverThreads.clientPushes _ _ index _ _ _ turn)

end Threads

section Step
variable {s t : System}

theorem withMonitorOrderly {r : ReceiverThreads.System} (h : Orderly r) (m : Monitor) :
    Orderly (withMonitor m r) := by
  refine ⟨fun index c here => ?_,fun index past => ?_⟩
  · have listened := h.connections index c here
    exact ⟨listened.buffered,listened.watched,listened.passed,listened.closed⟩
  · have unheard := h.fresh index past
    exact ⟨unheard.buffered,unheard.watched,unheard.passed⟩

theorem withMonitorAccounted {r : ReceiverThreads.System} (h : Accounted r.shared) (m : Monitor) :
    Accounted (withMonitor m r).shared := ⟨h.buffered,h.watched,h.passed⟩

theorem threadsSound {action : ReceiverThreads.Action} (h : Sound s)
    (ok : ReceiverThreads.step s.receiver action = some t.receiver) (beat : t.beat = s.beat) :
    Sound t := by
  have orderly := ReceiverThreads.stepOrderly h.orderly ok
  have accounted := ReceiverDeques.stepAccounted h.accounted ok
  have kept : ∀ title, Brought s.receiver title → Brought t.receiver title :=
    fun title ⟨entry,mem,reads⟩ => ⟨entry,threadPushes ok entry mem,reads⟩
  cases threadWatches ok with
  | rested same _ =>
    have same : monitor t = monitor s := same
    exact ⟨orderly,accounted,by rw [same,beat]; exact h.grounded,
      fun title now mem => kept title (h.brought title now (same ▸ mem))⟩
  | examined auditLog now mem next _ =>
    have next : monitor t = examine auditLog now (monitor s) := next
    refine ⟨orderly,accounted,?_,fun title moment seen => ?_⟩
    · rw [next,beat]
      exact Renewals.examineGrounded h.grounded auditLog now
    · have pushed := (SlidingQueue.accountsSuffix h.accounted.watched).subset mem
      obtain ⟨entry,inside,rfl⟩ := List.mem_map.mp pushed
      rw [next,examine] at seen
      cases found : decodedTitle entry.2 with
      | none =>
        rw [found] at seen
        exact kept title (h.brought title moment seen)
      | some title' =>
        rw [found] at seen
        rcases List.mem_append.mp seen with old | new
        · exact kept title (h.brought title moment old)
        · cases List.mem_singleton.mp new
          exact kept title ⟨entry,inside,found⟩

def Adds (h h' : HeartbeatThreads.System) : Prop := ∃ events,
  h'.monitor.history = h.monitor.history ++ events ∧ ∀ title now, .examined title now ∉ events

theorem addsNothing {h h' : HeartbeatThreads.System} (same : h'.monitor.history = h.monitor.history) :
    Adds h h' :=
  ⟨[],by rw [same,List.append_nil],fun _ _ mem => absurd mem List.not_mem_nil⟩

theorem passAdds {v : Visit} {h h' : HeartbeatThreads.System}
    (ok : HeartbeatThreads.heartbeatStep v h = some h') : Adds h h' := by
  obtain ⟨m,pc⟩ := h
  cases pc with
  | idle => cases Option.some.inj ok; exact addsNothing rfl
  | test index =>
    simp only [HeartbeatThreads.heartbeatStep] at ok
    split at ok <;> cases Option.some.inj ok <;> exact addsNothing rfl
  | clear index | setExpire index token =>
    simp only [HeartbeatThreads.heartbeatStep,bind,Option.bind_eq_some_iff] at ok
    obtain ⟨i,-,last⟩ := ok
    cases Option.some.inj last
    exact addsNothing rfl
  | ssh index token | setCmd index token =>
    simp only [HeartbeatThreads.heartbeatStep,bind,Option.bind_eq_some_iff] at ok
    obtain ⟨i,-,last⟩ := ok
    cases Option.some.inj last
    exact ⟨_,rfl,by simp⟩
  | expiry index =>
    simp only [HeartbeatThreads.heartbeatStep,bind,Option.bind_eq_some_iff] at ok
    obtain ⟨i,-,last⟩ := ok
    cases Option.some.inj last
    refine addsNothing ?_
    dsimp only [expire]
    split <;> rfl
  | stopped => contradiction

theorem beatsAdds {h h' : HeartbeatThreads.System} (turn : Beats h h') : Adds h h' := by
  cases turn with
  | waits idle same pc => exact addsNothing (congrArg Monitor.history same)
  | registers targetIp command now idle same pc =>
    exact ⟨_,congrArg Monitor.history same,by simp⟩
  | contacts targetIp command ssh idle same pc =>
    exact ⟨_,congrArg Monitor.history same,by simp⟩
  | passes v next turn same pc =>
    obtain ⟨events,history,quiet⟩ := passAdds turn
    exact ⟨events,(congrArg Monitor.history same).trans history,quiet⟩

theorem idleGrounded {h : HeartbeatThreads.System} (rooted : Renewals.Rooted h.monitor)
    (idle : h.pc = .idle) : Grounded h := by
  refine ⟨rooted,fun index none => ?_⟩
  rw [idle] at none
  exact absurd none (Option.not_mem_none _)

theorem beatsGrounded {h h' : HeartbeatThreads.System} (grounded : Grounded h) (turn : Beats h h') :
    Grounded h' := by
  have rooted : Renewals.Rooted h.monitor := grounded.toRooted
  cases turn with
  | waits idle same pc => exact idleGrounded (same ▸ rooted) pc
  | registers targetIp command now idle same pc =>
    exact idleGrounded (same ▸ Renewals.registerRooted rooted targetIp command now) pc
  | contacts targetIp command ssh idle same pc =>
    exact idleGrounded (same ▸ Renewals.executedRooted rooted targetIp _ _ command ssh) pc
  | passes v next turn same pc =>
    have after := Renewals.heartbeatGrounded grounded turn
    rcases pc with pc | ⟨idle,-⟩
    · have whole : h' = next := HeartbeatThreads.System.ext same pc
      exact whole ▸ after
    · exact idleGrounded (same ▸ after.toRooted) idle

theorem stepSound {action : Action} (h : Sound s) (ok : step s action = some t) : Sound t := by
  cases stepTurns ok with
  | listens receiver beat =>
    have same : monitor t = monitor s := by rw [monitor,receiver,monitor]
    exact ⟨receiver ▸ h.orderly,receiver ▸ h.accounted,by rw [same,beat]; exact h.grounded,
      by rw [same,receiver]; exact h.brought⟩
  | threads own given moved beat => exact threadsSound h moved beat
  | beats m receiver turn =>
    have now : monitor t = m := by rw [monitor,receiver]; rfl
    refine ⟨?_,?_,?_,fun title moment mem => ?_⟩
    · exact receiver ▸ withMonitorOrderly h.orderly m
    · exact receiver ▸ withMonitorAccounted h.accounted m
    · exact now ▸ beatsGrounded h.grounded turn
    · obtain ⟨events,history,quiet⟩ := beatsAdds turn
      have history : m.history = (monitor s).history ++ events := history
      rw [now,history] at mem
      rw [receiver]
      exact h.brought title moment ((List.mem_append.mp mem).resolve_right (quiet title moment))

end Step

theorem startSound (token : Token) : Sound (start token) :=
  ⟨ReceiverThreads.startOrderly _,ReceiverDeques.startAccounted _,Renewals.startGrounded,
    fun _ _ mem => absurd mem List.not_mem_nil⟩

def Received (r : ReceiverThreads.System) (title : Text) : Prop :=
  ∃ (index : Nat) (c : Listening), r.connections[index]? = some c ∧
    ∃ auditLog ∈ (alone c.heard).buffers.appended, title ∈ decodedTitle auditLog

theorem broughtReceived {r : ReceiverThreads.System} {title : Text} (h : Orderly r)
    (brought : Brought r title) : Received r title := by
  obtain ⟨⟨index,auditLog⟩,mem,reads⟩ := brought
  have mine : auditLog ∈ own index r.shared.watched.pushed :=
    List.mem_map.mpr ⟨(index,auditLog),List.mem_filter.mpr ⟨mem,decide_eq_true rfl⟩,rfl⟩
  cases here : r.connections[index]? with
  | none =>
    have none := (h.fresh index (List.getElem?_eq_none_iff.mp here)).watched
    rw [none] at mine
    contradiction
  | some c =>
    have listened := (h.connections index c here).watched
    exact ⟨index,c,here,auditLog,listened ▸ List.mem_append_left _ mine,reads⟩

def Attested (r : ReceiverThreads.System) (history : List Event) (ref : Nat) : Prop :=
  ∃ before command after title now, history = before ++ .given ref command :: after ∧
    .examined title now ∈ after ∧ title <:+: command ∧ Received r title

theorem renewalsAttested {token : Token} {actions : List Action} {s : System}
    (run : Run (Of step) (start token) actions s) {before after : List Event} {ref : Nat}
    {command : Text} (renewed : (monitor s).history = before ++ .given ref command :: after)
    (second : ∃ first, .given ref first ∈ before) : Attested s.receiver before ref := by
  have preserved : ∀ s action t, Sound s → Of step s action t → Sound t :=
    fun s action t h ok => stepSound h ok
  have sound := invariant preserved run (startSound token)
  obtain ⟨earlier,given,between,title,now,split,mem,occurs⟩ :=
    sound.grounded.founded before ref command after renewed second
  have examined : .examined title now ∈ (monitor s).history := by
    rw [renewed,split]
    exact List.mem_append_left _ (List.mem_append_right _ (List.mem_cons_of_mem _ mem))
  exact ⟨earlier,given,between,title,now,split,mem,occurs,
    broughtReceived sound.orderly (sound.brought title now examined)⟩

theorem threadsRun {s : System} {actions : List ReceiverThreads.Action} {r r' : ReceiverThreads.System}
    (run : Run (Restrict (fun _ action => isAccept action = false) (Of ReceiverThreads.step))
      r actions r') :
    Run (Of step) {s with receiver := r} (actions.map .thread) {s with receiver := r'} := by
  induction run with
  | nil r => exact .nil _
  | @cons r action r' actions r'' head tail ih =>
    refine .cons ?_ ih
    have moved : ReceiverThreads.step r action = some r' := head.2
    have other : ¬ isAccept action = true := by simp [head.1]
    simp only [Of,step,if_neg other,moved,Option.map_some]

def address : Text := "10.0.0.1".toList

def enrolling : List Action :=
  [.connect address,.listen,.listen,.listen,.listen] ++
    List.replicate 3 (.heartbeat ⟨ones,0,.success,⟨ones,0,0,.success⟩⟩)

def commanded : Monitor := (executeCommand address "root".toList "toor".toList
  (keyCommand zeros ++ ";optee_example_watchdog".toList) .success
  (registerTask address (keyCommand zeros) 0 ⟨[],0,[]⟩)).2

def ready : System := ⟨withMonitor commanded ReceiverDeques.oneAccepted,[],.accept,.loop zeros⟩

def report : Text := "audit(1.2:3): proctitle=ps 0,node=a\n".toList ++
  (List.replicate 10 ReceiverDeques.plainLine).flatten

def reported : ReceiverThreads.System :=
  ReceiverThreads.standing ready.receiver 0
    ((logsOf report).foldl (ReceiverThreads.appendThree 0) ready.receiver.shared)
    ⟨[.data (encode report)],.recv⟩

def renewing : List Action :=
  [.thread (.logmatch 0 1),.thread (.logmatch 0 1)] ++
    List.replicate 7 (.heartbeat ⟨ones,2,.success,⟨ones,2,2,.success⟩⟩)

theorem renewalsAttestedOnce : ∃ actions s before, Run (Of step) (start zeros) actions s ∧
    (monitor s).history = before ++ [.given 0 (renewCommand ones)] ∧
    Attested s.receiver before 0 := by
  have enrolled : Run (Of step) (start zeros) enrolling ready := execRun.mp rfl
  have allowed : ∀ (s : ReceiverThreads.System) got,
      isAccept (.listen 0 got) = false := fun _ _ => rfl
  obtain ⟨actions,chunk⟩ := @ReceiverThreads.chunkAlone (fun _ action => isAccept action = false)
    ready.receiver 0 [] (encode report) report allowed rfl (decodeEncode _) (by decide +kernel)
  have heard := @threadsRun ready actions ready.receiver reported chunk
  have ran : (exec step {ready with receiver := reported} renewing).map (fun s => (monitor s).history) =
      some (commanded.history ++ [.examined "ps 0".toList 1,.executed address "root".toList
        "toor".toList (renewCommand ones) .success] ++ [.given 0 (renewCommand ones)]) := by
    decide +kernel
  obtain ⟨s,ok,history⟩ := Option.map_eq_some_iff.mp ran
  have run := append (append enrolled heard) (execRun.mp ok)
  have first : .given 0 (keyCommand zeros) ∈ commanded.history := List.mem_cons_self
  exact ⟨_,s,_,run,history,renewalsAttested run history ⟨_,List.mem_append_left _ first⟩⟩

end TeePa.Process
