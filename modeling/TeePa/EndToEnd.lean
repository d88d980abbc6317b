import TeePa.Connections
import TeePa.Process

/-! The whole way of a record: any number of devices, the TCP connections that their
trusted applications open, and the receiver process with all of its threads, up to the
connections of SPADE. Whichever takes the next step, a connection's reader gets whole
sends. -/
namespace TeePa.EndToEnd
open Texts hiding Bytes
open CStrings KernelRing KernelClient CollectTa Receiver Heartbeat Runs Threads Batches Connections
open DeviceRuns (AuditRecord Device)
open Transport (Answered Printable recordLog)
open ReceiverThreads (Listening Listened Orderly)
open ReceiverOutputs (Served ServedIn Reliable)

structure System where
  devices : List Device
  wires : List (List Received)
  process : Process.System

inductive Event where
  | enqueue (device : Nat) (record : AuditRecord)
  | send (device : Nat) (locals : Locals) (outcomes : Outcomes) (session net : Option Network)
  | receive (action : Process.Action)

def start (boots : List Memory) (token : Token) : System :=
  ⟨boots.map DeviceRuns.start,[],Process.start token⟩

/- accept returns the next connection that has been opened; a recv returns what comes next
over its own, or times out. -/
def reads (s : System) : Process.Action → Option (List (List Received))
  | .connect _ =>
      if s.process.receiver.connections.length < s.wires.length then some s.wires else none
  | .thread (.listen index got) => do
      let c ← s.process.receiver.connections[index]?
      let wire ← s.wires[index]?
      if c.pc ≠ .recv ∨ got = .failure then some s.wires
      else if wire.head? = some got then some (s.wires.set index wire.tail)
      else none
  | _ => some s.wires

def sendStep (locals : Locals) (o : Outcomes) (session net : Option Network)
    (wires : List (List Received)) (d : Device) : Option (List (List Received) × Device) := do
  let device ← DeviceRuns.step d (.send locals o)
  let calls := (sendEventlogTaCollect locals o d.kernel).2.1
  if ∀ call ∈ calls, Answered session net call then
    some (wires ++ calls.flatMap (dials session net),device)
  else none

def enqueueStep (record : AuditRecord) (wires : List (List Received)) (d : Device) :
    Option (List (List Received) × Device) :=
  (DeviceRuns.step d (.enqueue record)).map (Prod.mk wires)

def step (s : System) : Event → Option System
  | .enqueue device record => (move (enqueueStep record) device s.wires s.devices).map
      (fun r => {s with devices := r.2})
  | .send device locals o session net =>
      (move (sendStep locals o session net) device s.wires s.devices).map
        (fun r => {s with wires := r.1,devices := r.2})
  | .receive action => do
      let wires ← reads s action
      let process ← Process.step s.process action
      some {s with wires := wires,process := process}

/- Printable records, and sends to SPADE that are whole. -/
def Admitted (s : System) : Event → Prop
  | .enqueue _ record => Printable record.toCString
  | .receive (.thread action) => Reliable s.process.receiver action
  | _ => True

/- A connection that waits for its thread is as one whose thread has read nothing. -/
def reader (r : ReceiverThreads.System) (index : Nat) : Listening :=
  (r.connections[index]?).getD ⟨[],.recv⟩

def inHand : Process.Listener → Nat
  | .accept => 0
  | _ => 1

/- Each connection beside the device that opened it and the records that came over it.
The connections of one device that brought any are, in order, its batches that arrived. -/
structure Wired (s : System) (sources : List (Nat × List CString)) : Prop where
  count : sources.length = s.wires.length
  accepted : s.process.receiver.connections.length + inHand s.process.listener ≤ s.wires.length
  devices : ∀ (d : Nat) (device : Device), s.devices[d]? = some device → ∃ batches,
    Parted device batches ∧ nonempty (own d sources) = arrivedBatches batches
  known : ∀ source ∈ sources, source.1 < s.devices.length
  written : ∀ source ∈ sources, (∀ r ∈ source.2, Printable r) ∧ (batchBytes source.2).length ≤ 11024
  reading : ∀ (index : Nat) (wire : List Received) (source : Nat × List CString),
    s.wires[index]? = some wire → sources[index]? = some source →
    Reads (reader s.process.receiver index) wire source.2

theorem startWired (boots : List Memory) (token : Token) : Wired (start boots token) [] := by
  refine ⟨rfl,Nat.le_refl _,fun d device here => ?_,fun _ mem => absurd mem List.not_mem_nil,
    fun _ mem => absurd mem List.not_mem_nil,fun index wire source here _ => by cases here⟩
  obtain ⟨boot,-,rfl⟩ := List.mem_map.mp (List.mem_of_getElem? here)
  exact ⟨[],startParted boot,rfl⟩

section Step
variable {s : System} {sources : List (Nat × List CString)} {d : Nat} {device device' : Device}

theorem devicesMove (h : Wired s sources) (here : s.devices[d]? = some device)
    (extra : List (List CString)) (next : ∃ batches, Parted device' batches ∧
      nonempty (own d sources ++ extra) = arrivedBatches batches) :
    ∀ (e : Nat) (other : Device), (s.devices.set d device')[e]? = some other → ∃ batches,
      Parted other batches ∧
        nonempty (own e (sources ++ extra.map (Prod.mk d))) = arrivedBatches batches := by
  intro e other found
  by_cases same : d = e
  · subst same
    obtain ⟨inside,-⟩ := List.getElem?_eq_some_iff.mp here
    rw [List.getElem?_set_self inside] at found
    rw [ownMine]
    exact Option.some.inj found ▸ next
  · rw [List.getElem?_set_ne same] at found
    rw [ownOther same]
    exact h.devices e other found

theorem enqueueWired {record : AuditRecord} {t : System} (h : Wired s sources)
    (printable : Printable record.toCString) (ok : step s (.enqueue d record) = some t) :
    Wired t sources := by
  obtain ⟨result,acted,rfl⟩ := Option.map_eq_some_iff.mp ok
  obtain ⟨device,device',here,turn,threads⟩ := movedAt acted
  obtain ⟨next,moved,same⟩ := Option.map_eq_some_iff.mp turn
  have stepped : next = device' := (Prod.mk.inj same).2
  subst stepped
  obtain ⟨batches,parted,records⟩ := h.devices d device here
  have devices := @devicesMove s sources d device next h here []
    ⟨batches,enqueueParted parted printable moved,by rw [List.append_nil]; exact records⟩
  rw [List.map_nil,List.append_nil] at devices
  refine ⟨h.count,h.accepted,?_,?_,h.written,h.reading⟩
  · exact threads ▸ devices
  · dsimp only
    rw [threads,List.length_set]
    exact h.known

theorem readerPast {r : ReceiverThreads.System} {index : Nat} (past : r.connections.length ≤ index) :
    reader r index = ⟨[],.recv⟩ := by
  rw [reader,List.getElem?_eq_none past]
  rfl

theorem newReading {index : Nat} {wire : List Received} {source : Nat × List CString}
    {links : List (List Received × List CString)} (h : Wired s sources)
    (carries : ∀ link ∈ links, Carries link.1 link.2)
    (wired : (s.wires ++ links.map Prod.fst)[index]? = some wire)
    (sourced : (sources ++ (links.map Prod.snd).map (Prod.mk d))[index]? = some source) :
    Reads (reader s.process.receiver index) wire source.2 := by
  rcases Nat.lt_or_ge index s.wires.length with old | new
  · rw [List.getElem?_append_left old] at wired
    rw [List.getElem?_append_left (h.count.symm ▸ old)] at sourced
    exact h.reading index wire source wired sourced
  · rw [List.getElem?_append_right new] at wired
    rw [List.getElem?_append_right (h.count.symm ▸ new),h.count] at sourced
    rw [List.getElem?_map] at wired
    rw [List.getElem?_map,List.getElem?_map] at sourced
    obtain ⟨link,found,rfl⟩ := Option.map_eq_some_iff.mp wired
    rw [found] at sourced
    rw [readerPast (Nat.le_trans (Nat.le_trans (Nat.le_add_right _ _) h.accepted) new),
      ← Option.some.inj sourced]
    exact ⟨[],carries link (List.mem_of_getElem? found),.inl rfl⟩

theorem sentPieces {batches : List Batch} {locals : Locals} {o : Outcomes} {session net : Option Network}
    (h : Parted device batches) (ok : DeviceRuns.step device (.send locals o) = some device')
    (replies : ∀ call ∈ (sendEventlogTaCollect locals o device.kernel).2.1, Answered session net call) :
    ∃ (batches' : List Batch) (pieces : List (List CString)), Parted device' batches' ∧
      (sendEventlogTaCollect locals o device.kernel).2.1.flatMap (carried net) =
        pieces.map batchBytes ∧
      arrivedBatches batches' = arrivedBatches batches ++ pieces ∧
      ∀ piece ∈ pieces, piece ≠ [] ∧ (∀ r ∈ piece, Printable r) ∧
        (batchBytes piece).length ≤ 11024 := by
  rcases sendParted h ok replies with
    ⟨same,none⟩ | ⟨arrived,front,next,some,printable,fits,brought⟩
  · exact ⟨batches,[],same,none,(List.append_nil _).symm,fun _ mem => absurd mem List.not_mem_nil⟩
  · have records := (recordsSnoc batches arrived front).2.2
    cases arrived with
    | false => exact ⟨_,[],next,brought,records,fun _ mem => absurd mem List.not_mem_nil⟩
    | true => exact ⟨_,[front],next,brought,records,
        List.forall_mem_singleton.mpr ⟨some,printable,fits⟩⟩

theorem sendWired {locals : Locals} {o : Outcomes} {session net : Option Network} {t : System}
    (h : Wired s sources) (ok : step s (.send d locals o session net) = some t) :
    ∃ sources', Wired t sources' := by
  obtain ⟨moved,acted,rfl⟩ := Option.map_eq_some_iff.mp ok
  obtain ⟨device,device',here,turn,threads⟩ := movedAt acted
  simp only [sendStep,bind,Option.bind_eq_some_iff] at turn
  obtain ⟨next,stepped,turn⟩ := turn
  split at turn
  · rename_i replies
    obtain ⟨wires,same⟩ := Prod.mk.inj (Option.some.inj turn)
    subst same
    obtain ⟨batches,parted,records⟩ := h.devices d device here
    obtain ⟨batches',pieces,parted',brought,arrived,written⟩ := sentPieces parted stepped replies
    obtain ⟨links,fronts,joined,each⟩ := dialedSources (callsDialed session net _) brought
      (fun piece mem => (written piece mem).1)
    rw [← fronts] at wires
    refine ⟨sources ++ (links.map Prod.snd).map (Prod.mk d),?_,?_,?_,?_,?_,?_⟩ <;> (try dsimp only)
    · rw [← wires,List.length_append,List.length_append,List.length_map,List.length_map,
        List.length_map,h.count]
    · rw [← wires,List.length_append]
      exact Nat.le_trans h.accepted (Nat.le_add_right _ _)
    · rw [threads]
      refine devicesMove h here (links.map Prod.snd) ⟨batches',parted',?_⟩
      rw [nonemptyAppend,records,arrived,joined]
    · intro source mem
      rw [threads,List.length_set]
      rcases List.mem_append.mp mem with old | new
      · exact h.known source old
      · obtain ⟨piece,-,rfl⟩ := List.mem_map.mp new
        exact (List.getElem?_eq_some_iff.mp here).1
    · intro source mem
      rcases List.mem_append.mp mem with old | new
      · exact h.written source old
      · obtain ⟨piece,inside,rfl⟩ := List.mem_map.mp new
        obtain ⟨link,found,rfl⟩ := List.mem_map.mp inside
        rcases (each link found).2 with none | some
        · dsimp only
          rw [none]
          exact ⟨fun _ mem => absurd mem List.not_mem_nil,Nat.zero_le _⟩
        · exact (written link.2 some).2
    · rw [← wires]
      exact fun index wire source => newReading h (fun link mem => (each link mem).1)
  · contradiction

theorem restWired {process : Process.System} (h : Wired s sources)
    (connections : process.receiver.connections = s.process.receiver.connections)
    (hand : process.receiver.connections.length + inHand process.listener ≤ s.wires.length) :
    Wired {s with process := process} sources := by
  refine ⟨h.count,hand,h.devices,h.known,h.written,fun index wire source wired sourced => ?_⟩
  have same : reader process.receiver index = reader s.process.receiver index := by
    rw [reader,connections,reader]
  exact same ▸ h.reading index wire source wired sourced

theorem acceptWired {r : ReceiverThreads.System} (h : Wired s sources)
    (pc : s.process.listener = .starting)
    (started : ReceiverThreads.step s.process.receiver .accept = some r) :
    Wired {s with process := {s.process with receiver := r,listener := .accept}} sources := by
  have accepted := h.accepted
  rw [pc] at accepted
  cases Option.some.inj started
  refine ⟨h.count,?_,h.devices,h.known,h.written,fun index wire source wired sourced => ?_⟩
  · dsimp only
    rw [List.length_append,List.length_singleton]
    exact accepted
  · have reading := h.reading index wire source wired sourced
    rcases Nat.lt_or_ge index s.process.receiver.connections.length with old | new
    · rw [reader,List.getElem?_append_left old]
      exact reading
    · rw [readerPast new] at reading
      rw [reader,List.getElem?_append_right new,List.getElem?_singleton]
      split <;> exact reading

theorem listenWired {index : Nat} {got : Received} {wires : List (List Received)}
    {r : ReceiverThreads.System} (h : Wired s sources)
    (read : reads s (.thread (.listen index got)) = some wires)
    (stepped : ReceiverThreads.step s.process.receiver (.listen index got) = some r) :
    Wired {s with wires := wires,process := {s.process with receiver := r}} sources := by
  simp only [reads,bind,Option.bind_eq_some_iff] at read
  obtain ⟨c,here,wire,wired,read⟩ := read
  obtain ⟨result,acted,rfl⟩ := Option.map_eq_some_iff.mp stepped
  obtain ⟨own,own',there,turn,threads⟩ := movedAt acted
  have same : own = c := Option.some.inj (there.symm.trans here)
  subst same
  obtain ⟨inside,-⟩ := List.getElem?_eq_some_iff.mp here
  obtain ⟨inside',-⟩ := List.getElem?_eq_some_iff.mp wired
  have next : ∃ rest, wires = s.wires.set index rest ∧
      ∀ source, Reads own wire source → Reads own' rest source := by
    have kept : s.wires.set index wire = s.wires := by
      obtain ⟨_,entry⟩ := List.getElem?_eq_some_iff.mp wired
      rw [← entry,List.set_getElem_self]
    split at read
    · rename_i other
      refine ⟨wire,by rw [kept]; exact (Option.some.inj read).symm,fun source before => ?_⟩
      by_cases pc : own.pc = .recv
      · exact (recvReads before pc turn).1 (other.resolve_left (fun away => away pc))
      · exact linesReads before pc turn
    · rename_i waits
      have pc : own.pc = .recv := Decidable.byContradiction (fun away => waits (.inl away))
      split at read
      · rename_i first
        exact ⟨wire.tail,(Option.some.inj read).symm,
          fun source before => (recvReads before pc turn).2 first⟩
      · contradiction
  obtain ⟨rest,rfl,reading⟩ := next
  refine ⟨?_,?_,h.devices,h.known,h.written,?_⟩ <;> dsimp only
  · rw [List.length_set]
    exact h.count
  · rw [threads,List.length_set,List.length_set]
    exact h.accepted
  · intro other wire' source wired' sourced
    by_cases same : index = other
    · subst same
      rw [List.getElem?_set_self inside'] at wired'
      have mine := h.reading index wire source wired sourced
      rw [reader,here] at mine
      rw [reader,threads,List.getElem?_set_self inside,← Option.some.inj wired']
      exact reading source.2 mine
    · rw [List.getElem?_set_ne same] at wired'
      rw [reader,threads,List.getElem?_set_ne same]
      exact h.reading other wire' source wired' sourced

theorem threadWired {action : ReceiverThreads.Action} {wires : List (List Received)}
    {r : ReceiverThreads.System} (h : Wired s sources) (read : reads s (.thread action) = some wires)
    (other : ¬ Process.isAccept action = true)
    (stepped : ReceiverThreads.step s.process.receiver action = some r) :
    Wired {s with wires := wires,process := {s.process with receiver := r}} sources := by
  cases action with
  | accept => exact absurd rfl other
  | listen index got => exact listenWired h read stepped
  | connect =>
    cases Option.some.inj read
    cases Option.some.inj stepped
    exact restWired h rfl h.accepted
  | save index now | logmatch index now | disconnect index | send index accepted =>
    cases Option.some.inj read
    obtain ⟨result,-,rfl⟩ := Option.map_eq_some_iff.mp stepped
    exact restWired h rfl h.accepted

theorem waitedWired {process : Process.System} (h : Wired s sources)
    (ok : Process.listenStep s.process = some process) :
    Wired {s with process := process} sources := by
  have accepted := h.accepted
  unfold Process.listenStep at ok
  cases pc : s.process.listener with
  | accept =>
    simp only [pc] at ok
    contradiction
  | accepted address | unregistered address =>
    rw [pc] at accepted
    simp only [pc] at ok
    split at ok <;> cases Option.some.inj ok <;> exact restWired h rfl accepted
  | fresh address =>
    rw [pc] at accepted
    simp only [pc] at ok
    cases Option.some.inj ok
    exact restWired h rfl accepted
  | starting =>
    simp only [pc] at ok
    obtain ⟨r,started,rfl⟩ := Option.map_eq_some_iff.mp ok
    exact acceptWired h pc started

theorem receiveWired {action : Process.Action} {t : System} (h : Wired s sources)
    (ok : step s (.receive action) = some t) : Wired t sources := by
  simp only [step,bind,Option.bind_eq_some_iff] at ok
  obtain ⟨wires,read,process,stepped,last⟩ := ok
  cases Option.some.inj last
  cases action with
  | connect address =>
    simp only [reads] at read
    simp only [Process.step] at stepped
    split at read
    · rename_i room
      cases Option.some.inj read
      split at stepped
      · cases Option.some.inj stepped
        exact restWired h rfl room
      · contradiction
    · contradiction
  | listen =>
    cases Option.some.inj read
    exact waitedWired h stepped
  | thread action =>
    simp only [Process.step] at stepped
    split at stepped
    · contradiction
    · rename_i other
      obtain ⟨r,moved,rfl⟩ := Option.map_eq_some_iff.mp stepped
      exact threadWired h read other moved
  | heartbeat reading =>
    cases Option.some.inj read
    obtain ⟨m,receiver,-,listener⟩ := Process.heartbeatTurns stepped
    refine restWired h (by rw [receiver]; rfl) ?_
    rw [receiver,listener]
    exact h.accepted

theorem stepWired {event : Event} {t : System} (h : Wired s sources) (admitted : Admitted s event)
    (ok : step s event = some t) : ∃ sources', Wired t sources' := by
  cases event with
  | enqueue device record => exact ⟨sources,enqueueWired h admitted ok⟩
  | send device locals o session net => exact sendWired h ok
  | receive action => exact ⟨sources,receiveWired h ok⟩

end Step

theorem processRun {s t : System} {events : List Event} (run : Run (Restrict Admitted (Of step)) s events t) :
    ∃ actions, Run (Restrict (fun s action => ∀ own, action = .thread own → Reliable s.receiver own)
      (Of Process.step)) s.process actions t.process := by
  induction run with
  | nil s => exact ⟨[],.nil _⟩
  | @cons s event next events t head tail ih =>
    obtain ⟨admitted,ok⟩ := head
    obtain ⟨actions,rest⟩ := ih
    cases event with
    | enqueue device record =>
      obtain ⟨result,-,rfl⟩ := Option.map_eq_some_iff.mp ok
      exact ⟨actions,rest⟩
    | send device locals o session net =>
      obtain ⟨result,-,rfl⟩ := Option.map_eq_some_iff.mp ok
      exact ⟨actions,rest⟩
    | receive action =>
      simp only [Of,step,bind,Option.bind_eq_some_iff] at ok
      obtain ⟨wires,-,process,stepped,last⟩ := ok
      cases Option.some.inj last
      refine ⟨action::actions,.cons ⟨?_,stepped⟩ rest⟩
      rintro own rfl
      exact admitted

theorem readerListened {r : ReceiverThreads.System} (h : Orderly r) (index : Nat) :
    Listened r.shared index (reader r index) := by
  rw [reader]
  cases here : r.connections[index]? with
  | some c => exact h.connections index c here
  | none =>
    obtain ⟨buffered,watched,passed⟩ := h.fresh index (List.getElem?_eq_none_iff.mp here)
    exact ⟨by rw [buffered]; rfl,by rw [watched]; rfl,by rw [passed]; rfl,rfl⟩

theorem runWired {boots : List Memory} {token : Token} {events : List Event} {s : System}
    (run : Run (Restrict Admitted (Of step)) (start boots token) events s) :
    ∃ sources, Wired s sources := by
  have kept : ∀ s event t, (∃ sources, Wired s sources) → Restrict Admitted (Of step) s event t →
      ∃ sources, Wired t sources :=
    fun s event t ⟨sources,h⟩ moved => stepWired h moved.1 moved.2
  exact invariant kept run ⟨[],startWired boots token⟩

theorem runSound {boots : List Memory} {token : Token} {events : List Event} {s : System}
    (run : Run (Restrict Admitted (Of step)) (start boots token) events s) :
    Process.Sound s.process := by
  obtain ⟨actions,process⟩ := processRun run
  have kept : ∀ s action t, Process.Sound s → Of Process.step s action t → Process.Sound t :=
    fun s action t h ok => Process.stepSound h ok
  exact invariant kept (unrestrict process) (Process.startSound token)

end TeePa.EndToEnd
