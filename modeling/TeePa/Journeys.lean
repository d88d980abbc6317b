import TeePa.EndToEnd
import TeePa.HeartbeatAnswers

/-! How a batch gets from the ring of a device into the deques of the receiver: a send,
the accepts of the connections it has opened, and the thread of the one that brings the
batch, with no failure on the way. -/
namespace TeePa.Journeys
open Texts hiding Bytes
open Heartbeat hiding Event
open CStrings KernelRing Receiver Runs Threads Batches Connections EndToEnd
open KernelClient (batchBytes)
open DeviceRuns (Device)
open Transport (Printable recordText recordLog)
open HeartbeatAnswers
open ReceiverThreads (Listening listenStep appendThree)

theorem quietStep {s : System} {action : Process.Action} {process : Process.System}
    (admitted : Admitted s (.receive action)) (read : reads s action = some s.wires)
    (ok : Process.step s.process action = some process) :
    Restrict Admitted (Of step) s (.receive action) {s with process := process} := by
  refine ⟨admitted,?_⟩
  simp only [Of,step,read,ok,bind,Option.bind_some]

section Accepting

def accepting (count : Nat) (r : ReceiverThreads.System) : ReceiverThreads.System :=
  {r with
    connections := r.connections ++ List.replicate count ⟨[],.recv⟩
    saves := r.saves ++ List.replicate count .call
    logmatches := r.logmatches ++ List.replicate count .test}

def enlisted (address : Text) (process : Process.System) : List Text :=
  if (Process.monitor process).executingTasks.any (fun targetIp => targetIp.ipAddress = address) ∨
    process.iotDevice.contains address then process.iotDevice
  else process.iotDevice ++ [address]

theorem acceptOne {s : System} (address : Text) (idle : s.process.listener = .accept)
    (room : s.process.receiver.connections.length < s.wires.length) : ∃ actions : List Process.Action,
      Run (Restrict Admitted (Of step)) s (actions.map .receive) {s with process := {s.process with
        receiver := accepting 1 s.process.receiver
        iotDevice := enlisted address s.process}} := by
  obtain ⟨devices,wires,⟨receiver,iotDevice,listener,beat⟩⟩ := s
  have idle : listener = .accept := idle
  subst idle
  have first : Restrict Admitted (Of step) ⟨devices,wires,⟨receiver,iotDevice,.accept,beat⟩⟩
      (.receive (.connect address)) ⟨devices,wires,⟨receiver,iotDevice,.accepted address,beat⟩⟩ :=
    quietStep trivial (if_pos room) rfl
  have turn : ∀ {iotDevice : List Text} {listener : Process.Listener} {process : Process.System},
      Process.listenStep ⟨receiver,iotDevice,listener,beat⟩ = some process →
      Restrict Admitted (Of step) ⟨devices,wires,⟨receiver,iotDevice,listener,beat⟩⟩
        (.receive .listen) ⟨devices,wires,process⟩ := fun ok => quietStep trivial rfl ok
  have last : ∀ iotDevice : List Text, Restrict Admitted (Of step)
      ⟨devices,wires,⟨receiver,iotDevice,.starting,beat⟩⟩ (.receive .listen)
      ⟨devices,wires,⟨accepting 1 receiver,iotDevice,.accept,beat⟩⟩ := fun _ => turn rfl
  by_cases registered : receiver.shared.process.monitor.executingTasks.any
      (fun targetIp => targetIp.ipAddress = address) = true
  · have same : enlisted address ⟨receiver,iotDevice,.accept,beat⟩ = iotDevice := if_pos (.inl registered)
    refine ⟨[.connect address,.listen,.listen],.cons first (.cons (turn (if_pos registered)) ?_)⟩
    rw [same]
    exact single (last iotDevice)
  · by_cases waiting : iotDevice.contains address = true
    · have same : enlisted address ⟨receiver,iotDevice,.accept,beat⟩ = iotDevice := if_pos (.inr waiting)
      refine ⟨[.connect address,.listen,.listen,.listen],
        .cons first (.cons (turn (if_neg registered)) (.cons (turn (if_pos waiting)) ?_))⟩
      rw [same]
      exact single (last iotDevice)
    · have fresh : enlisted address ⟨receiver,iotDevice,.accept,beat⟩ = iotDevice ++ [address] :=
        if_neg (not_or.mpr ⟨registered,waiting⟩)
      refine ⟨[.connect address,.listen,.listen,.listen,.listen],
        .cons first (.cons (turn (if_neg registered)) (.cons (turn (if_neg waiting))
          (.cons (turn rfl) ?_)))⟩
      rw [fresh]
      exact single (last _)

theorem acceptMany {s : System} {address : Text} (idle : s.process.listener = .accept)
    (waiting : s.process.iotDevice.contains address = true) {count : Nat}
    (room : s.process.receiver.connections.length + count ≤ s.wires.length) :
    ∃ actions : List Process.Action, Run (Restrict Admitted (Of step)) s (actions.map .receive)
      {s with process := {s.process with receiver := accepting count s.process.receiver}} := by
  induction count generalizing s with
  | zero =>
    have same : accepting 0 s.process.receiver = s.process.receiver := by simp [accepting]
    rw [same]
    exact ⟨[],.nil s⟩
  | succ count ih =>
    obtain ⟨first,one⟩ := acceptOne address idle (by omega)
    have known : enlisted address s.process = s.process.iotDevice := if_pos (.inr waiting)
    rw [known] at one
    obtain ⟨later,rest⟩ := @ih {s with process := {s.process with
      receiver := accepting 1 s.process.receiver}} idle waiting (by
        simp only [accepting,List.length_append,List.length_replicate]
        omega)
    refine ⟨first ++ later,?_⟩
    have whole : accepting count (accepting 1 s.process.receiver) =
        accepting (count + 1) s.process.receiver := by
      simp only [accepting,List.append_assoc,List.replicate_append_replicate,Nat.add_comm 1 count]
    rw [List.map_append,← whole]
    exact append one rest

end Accepting

section Reading
variable {index : Nat}

/- Turns of one connection's thread in its loop, and of the chain that examines logs. -/
def Inward (index : Nat) (_ : ReceiverThreads.System) (action : ReceiverThreads.Action) : Prop :=
  action = .listen index .failure ∨ ∃ now, action = .logmatch index now

theorem inwardRun {s : System} {r r' : ReceiverThreads.System}
    {actions : List ReceiverThreads.Action} (inside : index < s.wires.length)
    (run : Run (Restrict (Inward index) (Of ReceiverThreads.step)) r actions r') :
    Run (Restrict Admitted (Of step)) {s with process := {s.process with receiver := r}}
      (actions.map (fun action => .receive (.thread action)))
      {s with process := {s.process with receiver := r'}} := by
  induction run with
  | nil r => exact .nil _
  | @cons r action next actions r' head tail ih =>
    have moved : ReceiverThreads.step r action = some next := head.2
    refine .cons ?_ ih
    rcases head.1 with rfl | ⟨now,rfl⟩
    · obtain ⟨result,turned,-⟩ := Option.map_eq_some_iff.mp moved
      obtain ⟨c,-,here,-,-⟩ := movedAt turned
      have wired := List.getElem?_eq_getElem inside
      refine quietStep trivial ?_ ?_
      · simp only [reads,here,wired,bind,Option.bind_some,or_true,if_true]
      · simp only [Process.step,Process.isAccept,Bool.false_eq_true,if_false,moved,Option.map_some]
    · refine quietStep trivial rfl ?_
      simp only [Process.step,Process.isAccept,Bool.false_eq_true,if_false,moved,Option.map_some]

theorem takesNext {s : System} {bytes : Texts.Bytes} {rest heard : List Received}
    (wired : s.wires[index]? = some (.data bytes :: rest))
    (thread : s.process.receiver.connections[index]? = some ⟨heard,.recv⟩) :
    Restrict Admitted (Of step) s (.receive (.thread (.listen index (.data bytes)))) {s with
      wires := s.wires.set index rest
      process := {s.process with
        receiver := ReceiverThreads.standing s.process.receiver index s.process.receiver.shared
          ⟨heard ++ [.data bytes],ReceiverThreads.received (.data bytes)⟩}} := by
  obtain ⟨inside,entry⟩ := List.getElem?_eq_some_iff.mp thread
  have same : ReceiverThreads.standing s.process.receiver index s.process.receiver.shared
      ⟨heard,.recv⟩ = s.process.receiver := by
    rw [ReceiverThreads.standing,← entry,List.set_getElem_self]
  have read : listenStep index (.data bytes) s.process.receiver.shared ⟨heard,.recv⟩ =
      some (s.process.receiver.shared,⟨heard ++ [.data bytes],
        ReceiverThreads.received (.data bytes)⟩) := rfl
  have turn := ReceiverThreads.listenTurn inside read
  rw [same] at turn
  have waits : ¬ ((⟨heard,.recv⟩ : Listening).pc ≠ .recv ∨ Received.data bytes = .failure) := by
    rintro (other | other)
    · exact other rfl
    · cases other
  refine ⟨trivial,?_⟩
  simp only [Of] at turn
  simp only [Of,step,reads,thread,wired,Process.step,Process.isAccept,Bool.false_eq_true,if_false,turn,
    if_neg waits,List.head?_cons,List.tail_cons,bind,Option.bind_some,Option.map_some,if_true]

structure ReadOut (s : System) (index : Nat) (data : Texts.Bytes) (text : Text) (t : System) :
    Prop where
  wires : t.wires[index]? = some []
  thread : t.process.receiver.connections[index]? = some ⟨[.data data,.data []],.closed⟩
  shared : t.process.receiver.shared =
    (logsOf text).foldl (appendThree index) s.process.receiver.shared
  logmatches : t.process.receiver.logmatches = s.process.receiver.logmatches
  clients : t.process.receiver.clients = s.process.receiver.clients
  devices : t.devices = s.devices
  beat : t.process.beat = s.process.beat

theorem readsBatch {s : System} {data : Texts.Bytes} {text : Text}
    (wired : s.wires[index]? = some [.data data,.data []])
    (thread : s.process.receiver.connections[index]? = some ⟨[],.recv⟩)
    (decoded : decode data = some text) (more : text.length ≠ 0) : ∃ events t,
      Run (Restrict Admitted (Of step)) s events t ∧ ReadOut s index data text t := by
  obtain ⟨inside,-⟩ := List.getElem?_eq_some_iff.mp wired
  obtain ⟨within,-⟩ := List.getElem?_eq_some_iff.mp thread
  have first := takesNext wired thread
  have pc : ReceiverThreads.received (.data data) = .lines (splitlines text) := by
    simp only [ReceiverThreads.received,decoded,if_neg more]
  rw [pc] at first
  obtain ⟨actions,lines⟩ := @ReceiverThreads.linesAlone (Inward index) s.process.receiver index
    (fun _ => .inl rfl) within ([] ++ [.data data]) (splitlines text) s.process.receiver.shared
  have between := @inwardRun index {s with wires := s.wires.set index [.data []]} _ _ _
    (by rw [List.length_set]; exact inside) lines
  have waiting : (ReceiverThreads.standing s.process.receiver index
      (((splitlines text).filterMap translateAuditLog).foldl (appendThree index)
        s.process.receiver.shared)
      ⟨[] ++ [.data data],.recv⟩).connections[index]? = some ⟨[] ++ [.data data],.recv⟩ :=
    List.getElem?_set_self within
  have second := @takesNext index {s with
    wires := s.wires.set index [.data []]
    process := {s.process with receiver := _}} [] [] _ (List.getElem?_set_self inside) waiting
  have ends : ReceiverThreads.received (.data []) = .closed := by
    rw [ReceiverThreads.received,decodeEmpty]
    rfl
  rw [ends] at second
  refine ⟨_,_,.cons first (append between (single second)),?_,?_,rfl,rfl,rfl,rfl,rfl⟩
  · dsimp only
    rw [List.set_set,List.getElem?_set_self inside]
  · dsimp only [ReceiverThreads.standing]
    rw [List.set_set,List.getElem?_set_self within]
    rfl

end Reading

section Sending

theorem longBatch {d d' : Device} {sent front rest : List CString} {locals : KernelClient.Locals}
    {o : KernelClient.Outcomes} (h : DeviceRuns.InOrder d sent)
    (ok : DeviceRuns.step d (.send locals o) = some d')
    (available : DeviceRuns.SessionAvailable d.kernel o)
    (batch : DeviceRuns.BatchOutcome d d' locals o sent front rest) :
    10000 < (batchBytes front).length := by
  obtain ⟨guard,rfl⟩ := DeviceRuns.sendStep ok
  obtain ⟨k,same,all⟩ := DeviceRuns.sendWithSession locals available
  obtain ⟨front',rest',gathered⟩ := KernelClient.gatherAllBatch locals h.wellFormed guard h.long
  have left := batch.left
  dsimp only at left
  rw [all,KernelClient.sendBatchRing,same,gathered.left] at left
  have split := gathered.split.symm.trans batch.split
  rw [left] at split
  have passed := gathered.passed
  rw [List.append_cancel_right split,CString.length,KernelClient.withLinesBytes] at passed
  exact passed

theorem dialedOne {wires : List (List Received)} {brought : List CStrings.Bytes}
    {data : CStrings.Bytes} (h : Dialed wires brought) (mem : data ∈ brought) :
    ∃ index : Nat, wires[index]? = some (stream data) := by
  induction h with
  | none => exact absurd mem List.not_mem_nil
  | silent _ ih | ended _ ih =>
    obtain ⟨index,found⟩ := ih mem
    exact ⟨index + 1,found⟩
  | batch other _ ih =>
    rcases List.mem_cons.mp mem with rfl | later
    · exact ⟨0,rfl⟩
    · obtain ⟨index,found⟩ := ih later
      exact ⟨index + 1,found⟩

theorem enqueuesRun {u u' : Transport.System} {records : List DeviceRuns.AuditRecord}
    (run : Run (Restrict Prints (Of Transport.step)) u (records.map .enqueue) u') {s : System}
    (alone : s.devices = [u.device]) :
    Run (Restrict Admitted (Of step)) s (records.map (.enqueue 0))
      {s with devices := [u'.device]} := by
  induction records generalizing u s with
  | nil =>
    cases run
    rw [← alone]
    exact .nil s
  | cons record rest ih =>
    cases run with
    | cons head tail =>
      obtain ⟨prints,ok⟩ := head
      simp only [Of,Transport.step,bind,Option.bind_eq_some_iff] at ok
      obtain ⟨device,moved,last⟩ := ok
      cases Option.some.inj last
      have here : s.devices[0]? = some u.device := by rw [alone]; rfl
      have set : s.devices.set 0 device = [device] := by rw [alone]; rfl
      have stepped : step s (.enqueue 0 record) = some {s with devices := [device]} := by
        simp only [step,move,enqueueStep,here,moved,set,bind,Option.bind_some,Option.map_some]
      exact .cons ⟨prints,stepped⟩ (ih tail rfl)

structure Underway (s : System) (index : Nat) (front : List CString) : Prop where
  wired : s.wires[index]? = some (stream (batchBytes front))
  long : 10000 < (batchBytes front).length
  fits : (batchBytes front).length ≤ 11024

theorem sendsBatch {u u' : Transport.System} {sent : List CString} {locals : KernelClient.Locals}
    {o : KernelClient.Outcomes} {session net : Option CollectTa.Network} {boots : List Memory}
    {token : Token} (h : Transport.Transported u sent)
    (available : DeviceRuns.SessionAvailable u.device.kernel o) (reported : DeviceRuns.Reported o)
    (ok : Transport.step u (.send locals o session net) = some u') : ∃ s index front rest,
      Restrict Admitted (Of step) {start boots token with devices := [u.device]}
        (.send 0 locals o session net) s ∧
      queued u.device.kernel.ring = front ++ rest ∧ front ≠ [] ∧ Underway s index front ∧
      s.process = Process.start token := by
  simp only [Transport.step,bind,Option.bind_eq_some_iff] at ok
  obtain ⟨device,moved,last⟩ := ok
  split at last
  · rename_i replies
    obtain ⟨front,rest,batch⟩ := (DeviceRuns.sendOutcome h.order moved).2 available
    obtain ⟨ctx,size,handle,shm,calls⟩ := batch.invoked reported
    have brought : (KernelClient.sendEventlogTaCollect locals o
        u.device.kernel).2.1.flatMap (carried net) = [batchBytes front] := by
      rw [calls] at replies ⊢
      rw [List.flatMap_append,quietCarries (DeviceRuns.openedQuiet o _),
        reportedCarries batch.fits reported
          (fun call mem => replies call (List.mem_append_right _ mem))]
      rfl
    have dialed := callsDialed session net
      (KernelClient.sendEventlogTaCollect locals o u.device.kernel).2.1
    rw [brought] at dialed
    obtain ⟨index,found⟩ := dialedOne dialed (List.mem_singleton_self _)
    have stepped : step {start boots token with devices := [u.device]}
        (.send 0 locals o session net) = some ⟨[device],(KernelClient.sendEventlogTaCollect locals o
          u.device.kernel).2.1.flatMap (dials session net),Process.start token⟩ := by
      simp only [step,move,sendStep,start,List.getElem?_cons_zero,moved,bind,Option.bind_some,
        if_pos replies,List.nil_append,Option.map_some]
      rfl
    exact ⟨_,index,front,rest,⟨trivial,stepped⟩,batch.split,batch.taken,
      ⟨found,longBatch h.order moved available batch,batch.fits⟩,rfl⟩
  · contradiction

end Sending

theorem streamOne {data : CStrings.Bytes} (fits : data.length ≤ 11024) :
    stream data = [.data data,.data []] := by
  have one : data.length ≤ Transport.recvSize := Nat.le_trans fits (by decide)
  rw [stream,Transport.recvChunks,if_pos one]
  rfl

theorem batchTexts {front source : List CString} (same : batchBytes source = batchBytes front)
    (printable : ∀ r ∈ front, Printable r) (written : ∀ r ∈ source, Printable r) :
    source.map recordText = front.map recordText := by
  have free : ∀ records : List CString, (∀ r ∈ records, Printable r) →
      ∀ t ∈ records.map recordText, BreakFree t := by
    intro records all t mem
    obtain ⟨r,inside,rfl⟩ := List.mem_map.mp mem
    exact printableBreakFree (all r inside)
  have texts := congrArg decode same
  rw [← Transport.batchText printable,← Transport.batchText written,decodeEncode,decodeEncode]
    at texts
  have lines := congrArg splitlines (Option.some.inj texts)
  have first := splitlinesRecords (free source written)
  have second := splitlinesRecords (free front printable)
  rw [List.flatMap_map] at first second
  rw [← first,← second,lines]

def reportBytes : CStrings.Bytes :=
  encode (RecordKinds.recordText (titleRecord stamp (secretOf zeros) .key node))

def titled : DeviceRuns.AuditRecord :=
  ⟨⟨reportBytes,by decide +kernel⟩,by decide +kernel,by decide +kernel⟩

theorem titledText : recordText titled.toCString =
    RecordKinds.recordText (titleRecord stamp (secretOf zeros) .key node) := by decide +kernel

def filling : List DeviceRuns.AuditRecord := titled :: List.replicate 499 Transport.sample

theorem fillingPrintable : ∀ r ∈ filling, Printable r.toCString := by
  have first : Printable titled.toCString := by decide +kernel
  have later : Printable Transport.sample.toCString := by decide +kernel
  exact List.forall_mem_cons.mpr ⟨first,fun r mem => List.eq_of_mem_replicate mem ▸ later⟩

def batch (count : Nat) : List CString :=
  titled.toCString :: List.replicate count Transport.sample.toCString

theorem fillingFront {front rest : List CString}
    (split : filling.map (·.toCString) = front ++ rest) (some : front ≠ []) :
    ∃ count, count ≤ 499 ∧ front = batch count := by
  cases front with
  | nil => exact absurd rfl some
  | cons r later =>
    rw [filling,List.map_cons,List.map_replicate,List.cons_append] at split
    obtain ⟨same,tail⟩ := List.cons.inj split
    obtain ⟨count,records,-⟩ := List.replicate_eq_append_iff.mp tail
    exact ⟨later.length,by omega,by rw [batch,← same,← records]⟩

theorem replicatedBytes (count : Nat) (r : CString) :
    (batchBytes (List.replicate count r)).length = count * (r.bytes.length + 1) := by
  induction count with
  | zero => simp [batchBytes]
  | succ count ih =>
    have one : batchBytes (List.replicate (count + 1) r) =
        (r.bytes ++ [10]) ++ batchBytes (List.replicate count r) := rfl
    rw [one,List.length_append,ih,List.length_append,List.length_singleton,Nat.succ_mul,
      Nat.add_comm]

theorem titledLong {count : Nat} (long : 10000 < (batchBytes (batch count)).length) :
    80 ≤ count := by
  have one : batchBytes (batch count) =
      (titled.bytes ++ [10]) ++ batchBytes (List.replicate count Transport.sample.toCString) := rfl
  rw [one,List.length_append,replicatedBytes,List.length_append,List.length_singleton] at long
  have first : titled.bytes.length ≤ 1023 := titled.fits
  have other : Transport.sample.bytes.length ≤ 100 := by decide +kernel
  have bound := Nat.mul_le_mul_left count (Nat.add_le_add_right other 1)
  omega

theorem logsApart : ∃ answer log, recordLog titled.toCString = some answer ∧
    recordLog Transport.sample.toCString = some log ∧ answer ≠ log := by
  have found : (recordLog Transport.sample.toCString).isSome ∧
      recordLog titled.toCString ≠ recordLog Transport.sample.toCString ∧
      (recordLog titled.toCString).isSome := by decide +kernel
  obtain ⟨some,other,first⟩ := found
  obtain ⟨log,same⟩ := Option.isSome_iff_exists.mp some
  obtain ⟨answer,mine⟩ := Option.isSome_iff_exists.mp first
  refine ⟨answer,log,mine,same,fun equal => other ?_⟩
  rw [mine,same,equal]

theorem answerSent {answer : Text} (found : recordLog titled.toCString = some answer) :
    0 < (encode answer).length := by
  have some : (recordLog titled.toCString).all (fun answer => 0 < (encode answer).length) = true := by
    decide +kernel
  rw [found] at some
  exact of_decide_eq_true some

theorem filledRing : ∃ full, Run (Restrict Prints (Of Transport.step))
      (Transport.start (fun _ => 0)) (filling.map .enqueue) full ∧
    Transport.Transported full [] ∧ full.device.kernel.ring.queueNum ≥ 500 ∧
    queued full.device.kernel.ring = filling.map (·.toCString) := by
  have size : filling.length = 500 := by rw [filling,List.length_cons,List.length_replicate]
  obtain ⟨full,fill,order,count⟩ := Transport.fillTransported
    (Transport.startTransported (fun _ => 0)) filling fillingPrintable (by rw [size]; decide)
  have accepted := (Transport.runTransported (Transport.startTransported _) fill).2
  rw [order.order.accepted] at accepted
  have records : Transport.enqueued (filling.map .enqueue) = filling.map (·.toCString) := by
    rw [Transport.enqueued,List.flatMap_map]
    exact List.map_eq_flatMap.symm
  rw [records] at accepted
  refine ⟨full,weaken (fun s event t moved => ⟨?_,moved.2⟩) fill,order,?_,accepted⟩
  · rw [count,size]
    decide
  · cases event with
    | enqueue record => exact moved.1.1
    | send locals o session net => trivial

theorem acceptsAll {s : System} {token : Token} (address : Text)
    (fresh : s.process = Process.start token) (some : 0 < s.wires.length) :
    ∃ actions : List Process.Action, Run (Restrict Admitted (Of step)) s (actions.map .receive)
      {s with process := {Process.start token with
        receiver := accepting s.wires.length (Process.start token).receiver
        iotDevice := [address]}} := by
  have idle : s.process.listener = .accept := by rw [fresh]; rfl
  have none : s.process.receiver.connections.length = 0 := by rw [fresh]; rfl
  obtain ⟨first,one⟩ := acceptOne address idle (by rw [none]; exact some)
  have listed : enlisted address s.process = [address] := by
    rw [fresh]
    exact if_neg (by simp [Process.start,Process.monitor,ReceiverThreads.start])
  obtain ⟨later,rest⟩ := @acceptMany {s with process := {s.process with
    receiver := accepting 1 s.process.receiver,iotDevice := enlisted address s.process}} address idle
    (by rw [listed]; exact List.contains_iff_mem.mpr (List.mem_singleton_self _)) (s.wires.length - 1)
    (by
      simp only [accepting,List.length_append,List.length_replicate,none]
      omega)
  have whole : accepting (s.wires.length - 1) (accepting 1 s.process.receiver) =
      accepting s.wires.length s.process.receiver := by
    have size : 1 + (s.wires.length - 1) = s.wires.length := by omega
    simp only [accepting,List.append_assoc,List.replicate_append_replicate,size]
  rw [whole] at rest
  refine ⟨first ++ later,?_⟩
  have run := append one rest
  rw [listed,fresh] at run
  rw [List.map_append]
  exact run

theorem readsRecords {s : System} {index : Nat} {front : List CString} (way : Underway s index front)
    (printable : ∀ r ∈ front, Printable r)
    (thread : s.process.receiver.connections[index]? = some ⟨[],.recv⟩) : ∃ events t text,
      Run (Restrict Admitted (Of step)) s events t ∧ ReadOut s index (batchBytes front) text t ∧
      logsOf text = front.filterMap recordLog := by
  have wired := way.wired
  rw [streamOne way.fits] at wired
  have decoded := congrArg decode (Transport.batchText printable)
  rw [decodeEncode] at decoded
  have more : (front.flatMap (fun r => recordText r ++ ['\n'])).length ≠ 0 := by
    intro none
    have bytes := Transport.batchText printable
    rw [List.eq_nil_of_length_eq_zero none] at bytes
    have long := way.long
    rw [← bytes] at long
    exact absurd long (by decide)
  obtain ⟨events,t,run,read⟩ := readsBatch wired thread decoded.symm more
  exact ⟨events,t,_,run,read,Transport.batchLogs printable⟩

theorem batchUnderway : ∃ events s index count,
    Run (Restrict Admitted (Of step)) (start [fun _ => 0] zeros) events s ∧
    Underway s index (batch count) ∧
    count ≤ 499 ∧ index < s.wires.length ∧ s.process = {Process.start zeros with
      receiver := accepting s.wires.length (Process.start zeros).receiver
      iotDevice := [Process.address]} := by
  obtain ⟨full,fill,order,guard,records⟩ := filledRing
  obtain ⟨u,ok⟩ := @Transport.sendEnabled full [] ⟨fun _ => 0,0⟩ DeviceRuns.invokeSucceeds
    Transport.net Transport.net order guard (.inr (by decide)) (by decide) rfl rfl rfl
  have enqueued := @enqueuesRun _ _ _ fill (start [fun _ => 0] zeros) rfl
  obtain ⟨s,index,front,rest,sent,split,some,way,fresh⟩ :=
    @sendsBatch full u [] _ _ _ _ [fun _ => 0] zeros order (.inr (by decide)) (by decide) ok
  obtain ⟨count,few,rfl⟩ := fillingFront (records.symm.trans split) some
  obtain ⟨inside,-⟩ := List.getElem?_eq_some_iff.mp way.wired
  obtain ⟨actions,accepted⟩ := acceptsAll Process.address fresh (Nat.lt_of_le_of_lt (Nat.zero_le _) inside)
  exact ⟨_,_,index,count,append (append enqueued (single sent)) accepted,
    ⟨way.wired,way.long,way.fits⟩,few,inside,rfl⟩

theorem batchPrintable (count : Nat) : ∀ r ∈ batch count, Printable r := by
  refine List.forall_mem_cons.mpr ⟨fillingPrintable _ List.mem_cons_self,fun r mem => ?_⟩
  rw [List.eq_of_mem_replicate mem]
  exact fillingPrintable _ (List.mem_cons_of_mem _ (by decide +kernel))

theorem acceptedThread {index count : Nat} {r : ReceiverThreads.System} (fresh : r.connections = [])
    (inside : index < count) : (accepting count r).connections[index]? = some ⟨[],.recv⟩ := by
  rw [accepting,fresh,List.nil_append]
  exact List.getElem?_replicate_of_lt inside

end TeePa.Journeys
