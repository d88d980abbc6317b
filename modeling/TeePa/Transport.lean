import TeePa.DeviceRuns
import TeePa.CollectTa
import TeePa.Receiver

/-! The way of a record from the kernel's ring to the receiver's buffers. The
driver hands each call to the TA and returns its result; the TA opens a connection
for each session and for each batch, and the receiver reads a batch to its end. -/
namespace TeePa.Transport
open Texts hiding Bytes
open CStrings KernelRing KernelClient DeviceRuns CollectTa Receiver Runs

/- What the TA finds when the session is opened and when its command is invoked; none
where the TEE refuses the call itself, and the TA does not see it. -/
inductive Event where
  | enqueue (record : AuditRecord)
  | send (locals : Locals) (outcomes : Outcomes) (session net : Option Network)

structure System where
  device : Device
  buffers : Buffers

def start (m : Memory) : System := ⟨DeviceRuns.start m,noLogs⟩

section Command
variable (net : Option Network) (command : Network → UInt32 × List TaCall)

def Answers (ret : UInt32) : Prop := match net with
  | some net => (command net).1 = ret
  | none => ret ≠ teecSuccess

instance (ret) : Decidable (Answers net command ret) := by unfold Answers; split <;> infer_instance

def performed : List TaCall := match net with
  | some net => (command net).2
  | none => []

end Command

/- The results that the driver gave the kernel are the TA's own or an error of the TEE. -/
def Answered (session net : Option Network) : TeeCall → Prop
  | .openSession _ arg rc =>
      0 ≤ rc → Answers session (taOpenSessionEntryPoint (teeParamTypes [0,0,0,0])) arg.ret
  | .invokeFunc _ arg attrs _ sent rc ret =>
      0 ≤ rc → Answers net (taInvokeCommandEntryPoint arg.func (teeParamTypes attrs) sent) ret
  | _ => True

instance (session net call) : Decidable (Answered session net call) := by
  unfold Answered; split <;> infer_instance

def recvSize : Nat := 26000

/- One connection: its bytes in as few chunks as recv can give, then its end. -/
def recvChunks (data : Bytes) : List Bytes :=
  if data.length ≤ recvSize then [data]
  else data.take recvSize :: recvChunks (data.drop recvSize)
termination_by data.length
decreasing_by simp only [recvSize,List.length_drop] at *; omega

def receive (b : Buffers) (data : Bytes) : Buffers :=
  (listenToClient b ((recvChunks data ++ [[]]).map .data)).buffers

def arrives (net : Option Network) (b : Buffers) : TeeCall → Buffers
  | .invokeFunc _ arg attrs _ sent rc _ =>
      if rc < 0 then b
      else (forwarded (performed net (taInvokeCommandEntryPoint arg.func (teeParamTypes attrs)
        sent))).foldl receive b
  | _ => b

def step (s : System) : Event → Option System
  | .enqueue record => do
      let device ← DeviceRuns.step s.device (.enqueue record)
      some {s with device := device}
  | .send locals o session net => do
      let device ← DeviceRuns.step s.device (.send locals o)
      let calls := (sendEventlogTaCollect locals o s.device.kernel).2.1
      if ∀ call ∈ calls, Answered session net call then
        some ⟨device,calls.foldl (arrives net) s.buffers⟩
      else none

def Printable (r : CString) : Prop := ∀ byte ∈ r.bytes, 0x20 ≤ byte ∧ byte ≤ 0x7e
instance (r) : Decidable (Printable r) := List.decidableBAll _ _

def Admitted (s : System) : Event → Prop
  | .enqueue record => Printable record.toCString ∧ s.device.kernel.ring.queueNum < queueSize
  | .send locals o _ _ => Succeeds s.device (.send locals o)

def recordOf : Event → List CString
  | .enqueue record => [record.toCString]
  | .send .. => []

def enqueued (events : List Event) : List CString := events.flatMap recordOf

def recordText (r : CString) : Text := asciiText r.bytes
def recordLog (r : CString) : Option Text := translateAuditLog (recordText r)

def AuditKept (b : Buffers) : Prop := b.appended.length ≤ 10000 → b.audit.items = b.appended

theorem parseLineKept {b : Buffers} (h : AuditKept b) (d : Text) : AuditKept (parseLine b d) := by
  unfold parseLine
  cases translateAuditLog d with
  | none => exact h
  | some auditLog =>
    intro few
    simp only [appendLog,List.length_append,List.length_singleton] at few ⊢
    have same := h (by omega)
    have room : b.audit.items.length < 10000 := by rw [same]; omega
    rw [Deque.appendItems auditLog room,same]

theorem parseKept (data : Text) {b : Buffers} (h : AuditKept b) : AuditKept (parseEventLog data b) := by
  unfold parseEventLog
  induction splitlines data generalizing b with
  | nil => exact h
  | cons d rest ih => exact ih (parseLineKept h d)

theorem listenKept (received : List Received) {b : Buffers} (h : AuditKept b) :
    AuditKept (listenToClient b received).buffers := by
  induction received generalizing b with
  | nil => exact h
  | cons head rest ih =>
    cases head with
    | failure => exact h
    | data bytes =>
      rw [listenToClient]
      cases decode bytes with
      | none => exact h
      | some data =>
        dsimp only
        split
        · exact h
        · exact ih (parseKept data h)

theorem printableAscii {r : CString} (printable : Printable r) : encode (recordText r) = r.bytes := by
  apply encodeAscii
  intro byte mem
  have high : byte.toNat ≤ 126 := (printable byte mem).2
  omega

theorem batchText {records : List CString} (printable : ∀ r ∈ records, Printable r) :
    encode (records.flatMap (fun r => recordText r ++ ['\n'])) = batchBytes records := by
  induction records with
  | nil => rfl
  | cons r rest ih =>
    have head := printableAscii (printable r (by simp))
    have tail := ih (fun t mem => printable t (List.mem_cons_of_mem _ mem))
    have feed : encode ['\n'] = [10] := by decide +kernel
    rw [batchBytes] at tail ⊢
    rw [List.flatMap_cons,List.flatMap_cons,encodeAppend,encodeAppend,head,tail,feed]

theorem batchLogs {records : List CString} (printable : ∀ r ∈ records, Printable r) :
    logsOf (records.flatMap (fun r => recordText r ++ ['\n'])) = records.filterMap recordLog := by
  have lines : ∀ t ∈ records.map recordText, BreakFree t := by
    intro t mem
    obtain ⟨r,inside,rfl⟩ := List.mem_map.mp mem
    exact printableBreakFree (printable r inside)
  have framed := splitlinesRecords lines
  rw [List.flatMap_map] at framed
  rw [logsOf,keptLines,framed,List.filterMap_map]
  rfl

theorem receiveBatch {records : List CString} (printable : ∀ r ∈ records, Printable r)
    (fits : (batchBytes records).length ≤ 11024) (b : Buffers) :
    (receive b (batchBytes records)).appended = b.appended ++ records.filterMap recordLog := by
  have single : recvChunks (batchBytes records) = [batchBytes records] := by
    rw [recvChunks,if_pos (show (batchBytes records).length ≤ recvSize by
      simp only [recvSize]; omega)]
  rw [receive,single,listenedAppended,← batchText printable]
  simp only [List.singleton_append,chunkLogs,decodeEncode,decodeEmpty,List.length_nil,if_true,
    List.append_nil]
  split
  · rename_i none
    have nothing := List.eq_nil_of_length_eq_zero none
    rw [← batchLogs printable,nothing]
    rfl
  · rw [batchLogs printable]

theorem receiveKept {b : Buffers} (h : AuditKept b) (data : Bytes) : AuditKept (receive b data) :=
  listenKept _ h

theorem arrivesKept {net b} (call : TeeCall) (h : AuditKept b) : AuditKept (arrives net b call) := by
  cases call with
  | invokeFunc ctx arg attrs shm sent rc ret =>
    simp only [arrives]
    split
    · exact h
    · generalize forwarded _ = batches
      induction batches generalizing b with
      | nil => exact h
      | cons data rest ih => exact ih (receiveKept h data)
  | _ => exact h

theorem callsKept {net b} (calls : List TeeCall) (h : AuditKept b) :
    AuditKept (calls.foldl (arrives net) b) := by
  induction calls generalizing b with
  | nil => exact h
  | cons call rest ih => exact ih (arrivesKept call h)

theorem quietArrives {net b calls} (quiet : Quiet calls) : calls.foldl (arrives net) b = b := by
  induction calls generalizing b with
  | nil => rfl
  | cons call rest ih =>
    have silent := quiet call (by simp)
    have tail := @ih b (fun c mem => quiet c (List.mem_cons_of_mem _ mem))
    cases call with
    | invokeFunc ctx arg attrs shm sent rc ret => contradiction
    | _ => exact tail

structure Transported (s : System) (sent : List CString) : Prop where
  order : InOrder s.device sent
  printable : ∀ r ∈ s.device.accepted, Printable r
  appended : s.buffers.appended = sent.filterMap recordLog
  kept : AuditKept s.buffers

theorem startTransported (m : Memory) : Transported (start m) [] := by
  refine ⟨startInOrder m,?_,rfl,fun _ => rfl⟩
  intro r mem
  simp [start,DeviceRuns.start] at mem

theorem enqueueTransported {s s' sent record} (h : Transported s sent)
    (printable : Printable record.toCString) (room : s.device.kernel.ring.queueNum < queueSize)
    (ok : step s (.enqueue record) = some s') :
    Transported s' sent ∧ s'.device.accepted = s.device.accepted ++ [record.toCString] := by
  simp only [step,bind,Option.bind_eq_some_iff] at ok
  obtain ⟨device,moved,last⟩ := ok
  cases Option.some.inj last
  have accepted := (enqueueAccepted moved room).1
  refine ⟨⟨enqueueInOrder h.order moved,?_,h.appended,h.kept⟩,accepted⟩
  intro r mem
  dsimp only at mem
  rw [accepted] at mem
  rcases List.mem_append.mp mem with old | new
  · exact h.printable r old
  · rw [List.mem_singleton.mp new]; exact printable

theorem batchArrives {session net b opened ctx size handle shm front o}
    (printable : ∀ r ∈ front, Printable r) (fits : (batchBytes front).length ≤ 11024)
    (quiet : Quiet opened) (ok : Reported o)
    (answered : ∀ call ∈ reportedCalls ctx size handle shm (batchBytes front) o,
      Answered session net call) :
    ((opened ++ reportedCalls ctx size handle shm (batchBytes front) o).foldl (arrives net)
      b).appended = b.appended ++ front.filterMap recordLog := by
  obtain ⟨-,low,ret⟩ := ok
  have returned := answered _ (List.mem_cons_of_mem _ List.mem_cons_self) low
  rw [ret] at returned
  have taken : ¬ o.invokeFunc < 0 := by omega
  cases net with
  | none => exact absurd rfl returned
  | some net =>
    have pieces := @sendMsgForwards (batchBytes front) net (by omega) returned
    rw [List.foldl_append,quietArrives quiet,reportedCalls]
    simp only [List.foldl_cons,List.foldl_nil,arrives,if_neg taken]
    change ((forwarded (taInvokeCommandEntryPoint taCollectSendMsg (teeParamTypes [5,0,0,0])
      (batchBytes front) net).2).foldl receive b).appended = _
    rw [pieces]
    exact receiveBatch printable fits b

theorem sendTransported {s s' sent locals o session net} (h : Transported s sent)
    (allowed : Succeeds s.device (.send locals o)) (ok : step s (.send locals o session net) = some s') :
    (∃ sent', Transported s' sent') ∧ s'.device.accepted = s.device.accepted := by
  simp only [step,bind,Option.bind_eq_some_iff] at ok
  obtain ⟨device,moved,last⟩ := ok
  split at last
  · rename_i answered
    cases Option.some.inj last
    obtain ⟨without,within⟩ := sendOutcome h.order moved
    have accepted : device.accepted = s.device.accepted := by
      obtain ⟨-,rfl⟩ := sendStep moved; rfl
    have printable : ∀ r ∈ device.accepted, Printable r := by rw [accepted]; exact h.printable
    refine ⟨?_,accepted⟩
    by_cases available : SessionAvailable s.device.kernel o
    · obtain ⟨front,rest,batch⟩ := within available
      have reported := allowed available
      obtain ⟨ctx,size,handle,shm,calls⟩ := batch.invoked reported
      have removed : ∀ r ∈ front, Printable r := by
        intro r mem
        apply h.printable
        rw [h.order.accepted,batch.split]
        exact List.mem_append_right _ (List.mem_append_left _ mem)
      rw [calls] at answered
      refine ⟨sent ++ front,sentInOrder h.order reported batch,printable,?_,callsKept _ h.kept⟩
      have handed : ∀ call ∈ reportedCalls ctx size handle shm (batchBytes front) o,
          Answered session net call := fun call mem => answered call (List.mem_append_right _ mem)
      rw [calls,batchArrives removed batch.fits (openedQuiet o _) reported handed,h.appended,
        List.filterMap_append]
    · obtain ⟨-,-,quiet⟩ := sendWithoutSession locals available
      refine ⟨sent,without available,printable,?_,callsKept _ h.kept⟩
      rw [quietArrives quiet]
      exact h.appended
  · contradiction

theorem runTransported {s sent events s'} (h : Transported s sent)
    (run : Run (Restrict Admitted (Of step)) s events s') :
    (∃ sent', Transported s' sent') ∧
      s'.device.accepted = s.device.accepted ++ enqueued events := by
  induction run generalizing sent with
  | nil s => exact ⟨⟨sent,h⟩,by simp [enqueued]⟩
  | @cons s event t events u head tail ih =>
    cases event with
    | enqueue record =>
      obtain ⟨next,accepted⟩ := enqueueTransported h head.1.1 head.1.2 head.2
      obtain ⟨last,whole⟩ := ih next
      exact ⟨last,by rw [whole,accepted]; simp [enqueued,recordOf]⟩
    | send locals o session net =>
      obtain ⟨⟨sent',next⟩,accepted⟩ := sendTransported h head.1 head.2
      obtain ⟨last,whole⟩ := ih next
      exact ⟨last,by rw [whole,accepted]; simp [enqueued,recordOf]⟩

theorem transportAgrees {m events s} (run : Run (Restrict Admitted (Of step)) (start m) events s) :
    ∃ removed, enqueued events = removed ++ queued s.device.kernel.ring ∧
      s.buffers.appended = removed.filterMap recordLog ∧
      (s.buffers.appended.length ≤ 10000 →
        s.buffers.audit.items = removed.filterMap recordLog) := by
  obtain ⟨⟨sent,last⟩,accepted⟩ := runTransported (startTransported m) run
  have all : s.device.accepted = enqueued events := accepted
  refine ⟨sent,?_,last.appended,?_⟩
  · rw [← all]; exact last.order.accepted
  · intro few
    rw [last.kept few]; exact last.appended

theorem openedAnswered {o k net} {session : Network} (available : SessionAvailable k o)
    (connected : session.socketOpen.isSome) :
    ∀ call ∈ openedCalls o k, Answered (some session) net call := by
  obtain ⟨ctx,opened⟩ := Option.isSome_iff_exists.mp connected
  unfold openedCalls
  split
  · rename_i null
    obtain ⟨context,low,ret⟩ := available.resolve_left (fun other => other null)
    obtain ⟨handle,given⟩ := Option.isSome_iff_exists.mp context
    have fine : ¬ (o.openSession < 0 ∨ o.sessionRet ≠ teecSuccess) := by
      rintro (high | other)
      · omega
      · exact other ret
    intro call mem
    simp only [taCreateSession,given,if_neg fine,List.mem_cons,List.not_mem_nil,or_false] at mem
    rcases mem with rfl | rfl
    · trivial
    · intro _
      have types : ¬ teeParamTypes [0,0,0,0] ≠
          teeParamTypes [teeParamTypeNone,teeParamTypeNone,teeParamTypeNone,teeParamTypeNone] :=
        not_not_intro rfl
      unfold Answers taOpenSessionEntryPoint
      dsimp only
      rw [if_neg types,opened,ret]
      rfl
  · intro call mem
    simp at mem

theorem sendEnabled {s sent locals o} {session net : Network} (h : Transported s sent)
    (guard : s.device.kernel.ring.queueNum ≥ 500) (available : SessionAvailable s.device.kernel o)
    (ok : Reported o) (listening : session.socketOpen.isSome) (connected : net.socketOpen.isSome)
    (taken : net.socketSend = true) : ∃ s', step s (.send locals o (some session) (some net)) = some s' := by
  obtain ⟨device,moved⟩ : ∃ device, DeviceRuns.step s.device (.send locals o) = some device :=
    ⟨_,if_pos guard⟩
  obtain ⟨front,rest,batch⟩ := (sendOutcome h.order moved).2 available
  obtain ⟨ctx,size,handle,shm,calls⟩ := batch.invoked ok
  have answered : ∀ call ∈ (sendEventlogTaCollect locals o s.device.kernel).2.1,
      Answered (some session) (some net) call := by
    rw [calls]
    intro call mem
    rcases List.mem_append.mp mem with early | late
    · exact openedAnswered available listening call early
    · simp only [reportedCalls,List.mem_cons,List.not_mem_nil,or_false] at late
      rcases late with rfl | rfl | rfl
      · trivial
      · intro _
        rw [ok.2.2]
        exact sendMsgSucceeds _ connected taken
      · trivial
  simp only [step,bind,moved,Option.bind_some,if_pos answered]
  exact ⟨_,rfl⟩

theorem fillTransported {s sent} (h : Transported s sent) (records : List AuditRecord)
    (printable : ∀ r ∈ records, Printable r.toCString)
    (room : s.device.kernel.ring.queueNum + records.length ≤ queueSize) :
    ∃ s', Run (Restrict Admitted (Of step)) s (records.map .enqueue) s' ∧ Transported s' sent ∧
      s'.device.kernel.ring.queueNum = s.device.kernel.ring.queueNum + records.length := by
  induction records generalizing s with
  | nil => exact ⟨s,.nil s,h,by simp⟩
  | cons record rest ih =>
    simp only [List.length_cons] at room
    have first : s.device.kernel.ring.queueNum < queueSize := by omega
    have written := printable record (by simp)
    obtain ⟨device,moved⟩ : ∃ device, DeviceRuns.step s.device (.enqueue record) = some device :=
      ⟨_,rfl⟩
    have stepped : step s (.enqueue record) = some {s with device := device} := by
      simp only [step,bind,moved,Option.bind_some]
    obtain ⟨-,count⟩ := enqueueAccepted moved first
    obtain ⟨next,-⟩ := enqueueTransported h written first stepped
    obtain ⟨s',run,last,num⟩ := ih next (fun r mem => printable r (List.mem_cons_of_mem _ mem))
      (by dsimp only; omega)
    refine ⟨s',.cons ⟨⟨written,first⟩,stepped⟩ run,last,?_⟩
    dsimp only at num
    simp only [List.length_cons]
    omega

def sample : AuditRecord :=
  ⟨⟨"audit(1.0:1): syscall=1,node=h".toUTF8.toList,by decide +kernel⟩,by decide +kernel,by decide +kernel⟩

def net : Network := ⟨some 3,true,4⟩

theorem transportAgreesBatch : ∃ s, Run (Restrict Admitted (Of step)) (start (fun _ => 0))
      (List.replicate 500 (.enqueue sample) ++
        [.send ⟨fun _ => 0,0⟩ invokeSucceeds (some net) (some net)]) s ∧
    ∃ removed, enqueued (List.replicate 500 (.enqueue sample) ++
        [.send ⟨fun _ => 0,0⟩ invokeSucceeds (some net) (some net)]) =
      removed ++ queued s.device.kernel.ring ∧ s.buffers.appended = removed.filterMap recordLog ∧
      (s.buffers.appended.length ≤ 10000 →
        s.buffers.audit.items = removed.filterMap recordLog) := by
  have written : Printable sample.toCString := by decide +kernel
  obtain ⟨full,fill,order,count⟩ := fillTransported (startTransported (fun _ => 0))
    (List.replicate 500 sample) (fun r mem => List.eq_of_mem_replicate mem ▸ written)
    (by rw [List.length_replicate]; decide)
  rw [List.length_replicate] at count
  rw [List.map_replicate] at fill
  obtain ⟨s,moved⟩ := @sendEnabled full [] ⟨fun _ => 0,0⟩ invokeSucceeds net net order
    (by rw [count]; decide) (Or.inr (by decide)) (by decide) rfl rfl rfl
  have allowed : Admitted full (.send ⟨fun _ => 0,0⟩ invokeSucceeds (some net) (some net)) :=
    fun _ => (by decide : Reported invokeSucceeds)
  have run := append fill (single ⟨allowed,moved⟩)
  exact ⟨s,run,transportAgrees run⟩

end TeePa.Transport
