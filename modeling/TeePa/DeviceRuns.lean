import TeePa.KernelClient

/-! Runs of the device: records are enqueued, and kauditd sends a batch whenever
500 or more are queued. Which records the ring accepted and which driver calls
were made is kept in order; a batch counts as delivered only where its
invocation reported success. -/
namespace TeePa.DeviceRuns
open CStrings KernelRing KernelClient BoundedFifo Runs

/- The shortest record is the prefix 'audit(s.mmm:n): ' with ',node='. -/
structure AuditRecord extends CString where
  long : 22 ≤ bytes.length
  fits : bytes.length ≤ 1023
  deriving DecidableEq, Repr

inductive Event where
  | enqueue (record : AuditRecord)
  | send (locals : Locals) (outcomes : Outcomes)

structure Device where
  kernel : Kernel
  accepted : List CString
  calls : List TeeCall

def start (m : Memory) : Device := ⟨⟨initial m,.null,zeroedArg⟩,[],[]⟩

def step (d : Device) : Event → Option Device
  | .enqueue record =>
      let stored := enqueue record.toCString d.kernel.ring
      some {d with
        kernel := {d.kernel with ring := stored.2}
        accepted := if stored.1 = 0 then d.accepted ++ [record.toCString] else d.accepted}
  | .send locals o =>
      if d.kernel.ring.queueNum ≥ 500 then
        let sent := sendEventlogTaCollect locals o d.kernel
        some {d with kernel := sent.2.2,calls := d.calls ++ sent.2.1}
      else none

def deliveredBy : TeeCall → Bytes
  | .invokeFunc _ _ _ _ sent rc ret => if 0 ≤ rc ∧ ret = teecSuccess then sent else []
  | _ => []

def delivered (calls : List TeeCall) : Bytes := calls.flatMap deliveredBy

def Kept (d : Device) : Prop := ∃ sent,
  d.accepted.Perm (sent ++ queued d.kernel.ring) ∧ (queued d.kernel.ring).Sublist d.accepted ∧
  delivered d.calls = batchBytes sent

def Opens (o : Outcomes) : Prop :=
  o.openContext.isSome ∧ 0 ≤ o.openSession ∧ o.sessionRet = teecSuccess
instance (o) : Decidable (Opens o) := by unfold Opens; infer_instance

def SessionAvailable (k : Kernel) (o : Outcomes) : Prop := k.teeCtx ≠ .null ∨ Opens o
instance (k o) : Decidable (SessionAvailable k o) := by unfold SessionAvailable; infer_instance

def Reported (o : Outcomes) : Prop :=
  o.shmAlloc.isSome ∧ 0 ≤ o.invokeFunc ∧ o.invokeRet = teecSuccess
instance (o) : Decidable (Reported o) := by unfold Reported; infer_instance

/- The condition on one event: a send that has its session is not refused
shared memory, and its invocation reports success. -/
def Succeeds (d : Device) : Event → Prop
  | .enqueue _ => True
  | .send _ o => SessionAvailable d.kernel o → Reported o

structure InOrder (d : Device) (sent : List CString) : Prop where
  wellFormed : WellFormed d.kernel.ring
  long : ∀ r ∈ queued d.kernel.ring, 22 ≤ r.length
  accepted : d.accepted = sent ++ queued d.kernel.ring
  delivered : delivered d.calls = batchBytes sent

theorem inOrderKept {d sent} (h : InOrder d sent) : Kept d :=
  ⟨sent,h.accepted ▸ List.Perm.refl _,h.accepted ▸ List.sublist_append_right _ _,h.delivered⟩

@[simp] theorem deliveredAppend (a b : List TeeCall) :
    delivered (a ++ b) = delivered a ++ delivered b := List.flatMap_append

theorem batchBytesAppend (a b : List CString) :
    batchBytes (a ++ b) = batchBytes a ++ batchBytes b := List.flatMap_append

theorem startInOrder (m : Memory) : InOrder (start m) [] := by
  refine ⟨initialWellFormed m,?_,rfl,rfl⟩
  intro r mem
  simp only [start,initialQueued,List.not_mem_nil] at mem

theorem enqueueInOrder {d d' sent record} (h : InOrder d sent)
    (ok : step d (.enqueue record) = some d') : InOrder d' sent := by
  cases Option.some.inj ok
  have short : record.toCString.length < slotSize := by
    have := record.fits
    simp only [CString.length,slotSize]; omega
  by_cases room : d.kernel.ring.queueNum < queueSize
  · have next := enqueueQueued h.wellFormed short room
    have ret : (enqueue record.toCString d.kernel.ring).1 = 0 := by simp [enqueue,if_pos room]
    refine ⟨enqueueWellFormed h.wellFormed short,?_,?_,h.delivered⟩
    · intro r mem
      dsimp only at mem
      rw [next] at mem
      rcases List.mem_append.mp mem with old | new
      · exact h.long r old
      · rw [List.mem_singleton.mp new]; exact record.long
    · dsimp only
      rw [if_pos ret,next,h.accepted,List.append_assoc]
  · have same := enqueueFull record.toCString room
    dsimp only
    rw [same]
    exact ⟨h.wellFormed,h.long,h.accepted,h.delivered⟩

def invokes : TeeCall → Bool
  | .invokeFunc .. => true
  | _ => false

def Quiet (calls : List TeeCall) : Prop := ∀ call ∈ calls, invokes call = false
instance (calls) : Decidable (Quiet calls) := by unfold Quiet; infer_instance

theorem quietDelivered {calls} (quiet : Quiet calls) : delivered calls = [] := by
  apply List.flatMap_eq_nil_iff.mpr
  intro call mem
  have silent := quiet call mem
  cases call <;> first | rfl | contradiction

theorem enqueueAccepted {d d' record} (ok : step d (.enqueue record) = some d')
    (room : d.kernel.ring.queueNum < queueSize) :
    d'.accepted = d.accepted ++ [record.toCString] ∧
    d'.kernel.ring.queueNum = d.kernel.ring.queueNum + 1 := by
  cases Option.some.inj ok
  have ret : (enqueue record.toCString d.kernel.ring).1 = 0 := by simp [enqueue,if_pos room]
  exact ⟨if_pos ret,by simp [enqueue,if_pos room]⟩

theorem createSessionQuiet (o : Outcomes) (k : Kernel) :
    (taCreateSession o k).2.2.ring = k.ring ∧ Quiet (taCreateSession o k).2.1 := by
  unfold taCreateSession
  cases o.openContext with
  | none => exact ⟨rfl,by simp [Quiet,invokes]⟩
  | some handle => dsimp only; split <;> exact ⟨rfl,by simp [Quiet,invokes]⟩

theorem createSessionRet (o : Outcomes) (k : Kernel) :
    (taCreateSession o k).1 = if Opens o then 0 else -1 := by
  unfold taCreateSession
  cases opened : o.openContext with
  | none => simp [Opens,opened]
  | some handle =>
    dsimp only
    split
    · rename_i bad
      have failed : ¬ Opens o := by
        rintro ⟨-,low,ret⟩
        rcases bad with rc | other
        · omega
        · exact other ret
      rw [if_neg failed]
    · rename_i good
      have ret : o.sessionRet = teecSuccess :=
        Decidable.byContradiction (fun other => good (Or.inr other))
      rw [if_pos (show Opens o from ⟨by rw [opened]; rfl,by omega,ret⟩)]

theorem sendWithoutSession {o k} (locals : Locals) (failed : ¬ SessionAvailable k o) :
    (sendEventlogTaCollect locals o k).1 = -1 ∧
    (sendEventlogTaCollect locals o k).2.2.ring = k.ring ∧
    Quiet (sendEventlogTaCollect locals o k).2.1 := by
  have null : k.teeCtx = .null := Decidable.byContradiction (fun other => failed (Or.inl other))
  have refused : (taCreateSession o k).1 < 0 := by
    rw [createSessionRet,if_neg (fun opens => failed (Or.inr opens))]; decide
  have quiet := createSessionQuiet o k
  simp only [sendEventlogTaCollect,if_pos null,if_pos refused]
  exact ⟨trivial,quiet⟩

def openedCalls (o : Outcomes) (k : Kernel) : List TeeCall :=
  if k.teeCtx = .null then (taCreateSession o k).2.1 else []

theorem openedQuiet (o : Outcomes) (k : Kernel) : Quiet (openedCalls o k) := by
  unfold openedCalls
  split
  · exact (createSessionQuiet o k).2
  · simp [Quiet]

theorem sendWithSession {o k} (locals : Locals) (available : SessionAvailable k o) :
    ∃ k', k'.ring = k.ring ∧ sendEventlogTaCollect locals o k =
      ((sendBatch locals o k').1,openedCalls o k ++ (sendBatch locals o k').2.1,
        (sendBatch locals o k').2.2) := by
  by_cases null : k.teeCtx = .null
  · have opens : Opens o := available.resolve_left (fun other => other null)
    have accepted : ¬ (taCreateSession o k).1 < 0 := by
      rw [createSessionRet,if_pos opens]; decide
    refine ⟨(taCreateSession o k).2.2,(createSessionQuiet o k).1,?_⟩
    simp only [sendEventlogTaCollect,openedCalls,if_pos null,if_neg accepted]
  · refine ⟨k,rfl,?_⟩
    simp only [sendEventlogTaCollect,openedCalls,if_neg null]
    rfl

theorem invokeReported {ctx session func data len o} (ok : Reported o) :
    (taInvoke ctx session func data len o).1 = 0 ∧
    delivered (taInvoke ctx session func data len o).2 = load data 0 len := by
  obtain ⟨shm,rc,ret⟩ := ok
  obtain ⟨handle,allocated⟩ := Option.isSome_iff_exists.mp shm
  rw [invokeReturns allocated rc (.inl ret)]
  simp [delivered,deliveredBy,rc,ret]

theorem invokeUnreported {ctx session func data len o} (failed : ¬ Reported o) :
    delivered (taInvoke ctx session func data len o).2 = [] := by
  unfold taInvoke
  cases allocated : o.shmAlloc with
  | none => rfl
  | some shm =>
    have silent : ¬ (0 ≤ o.invokeFunc ∧ o.invokeRet = teecSuccess) := by
      rintro ⟨rc,ret⟩
      exact failed ⟨by rw [allocated]; rfl,rc,ret⟩
    dsimp only
    split <;> simp [delivered,deliveredBy,silent]

theorem batchSent {d sent} (locals : Locals) (o : Outcomes) {k : Kernel} (h : InOrder d sent)
    (same : k.ring = d.kernel.ring) (guard : d.kernel.ring.queueNum ≥ 500) :
    ∃ front rest, queued d.kernel.ring = front ++ rest ∧ front ≠ [] ∧
      WellFormed (sendBatch locals o k).2.2.ring ∧ queued (sendBatch locals o k).2.2.ring = rest ∧
      (batchBytes front).length ≤ 11024 ∧ (Reported o → (sendBatch locals o k).1 = 0) ∧
      delivered (sendBatch locals o k).2.1 =
        (if Reported o then batchBytes front else []) := by
  obtain ⟨front,rest,batch⟩ := gatherAllBatch locals h.wellFormed guard h.long
  rw [← same] at batch
  have text := loadOfHolds batch.text
  have bytes : (withLines .empty front).bytes = batchBytes front := withLinesBytes .empty front
  have fits := batch.fits
  rw [CString.length,bytes] at fits
  rw [bytes] at text
  refine ⟨front,rest,same ▸ batch.split,batch.taken,?_⟩
  rw [sendBatchRing]
  refine ⟨batch.wellFormed,batch.left,fits,?_,?_⟩
  · intro ok
    have zero := (@invokeReported k.teeCtx k.sessArg.session 0x1
      (gatherAll locals k.ring).summaryLog
      ((gatherAll locals k.ring).logMsgLen.getD locals.logMsgLen) o ok).1
    simp only [sendBatch,zero]
    rfl
  · have calls : delivered (sendBatch locals o k).2.1 =
        delivered (taInvoke k.teeCtx k.sessArg.session 0x1 (gatherAll locals k.ring).summaryLog
          ((gatherAll locals k.ring).logMsgLen.getD locals.logMsgLen) o).2 := by
      simp only [sendBatch]
      split
      · rw [deliveredAppend]; exact List.append_nil _
      · rfl
    rw [calls]
    split
    · rename_i ok
      rw [(invokeReported ok).2,batch.length,Option.getD_some,text]
    · rename_i failed
      exact invokeUnreported failed

def reportedCalls (ctx : TeeContext) (size : Nat) (session : UInt32) (shm : Nat) (sent : Bytes)
    (o : Outcomes) : List TeeCall :=
  [.shmAlloc ctx size (some shm),.invokeFunc ctx ⟨0x1,session,4⟩
    [teeIoctlParamAttrTypeMemrefInput,0,0,0] shm sent o.invokeFunc o.invokeRet,.shmFree shm]

theorem batchCalls {front} (locals : Locals) {o : Outcomes} (k : Kernel) (ok : Reported o)
    (calls : delivered (sendBatch locals o k).2.1 = batchBytes front) :
    ∃ size shm, (sendBatch locals o k).2.1 =
      reportedCalls k.teeCtx size k.sessArg.session shm (batchBytes front) o := by
  obtain ⟨handle,allocated⟩ := Option.isSome_iff_exists.mp ok.1
  have calm : ¬ (0 : Int) < 0 := by decide
  simp only [sendBatch,invokeReturns allocated ok.2.1 (.inl ok.2.2),if_neg calm] at calls ⊢
  refine ⟨(gatherAll locals k.ring).logMsgLen.getD locals.logMsgLen,handle,?_⟩
  simp [reportedCalls,delivered,deliveredBy,ok.2.1,ok.2.2] at calls ⊢
  exact calls

theorem sendStep {d d' locals o} (ok : step d (.send locals o) = some d') :
    d.kernel.ring.queueNum ≥ 500 ∧
    d' = {d with
      kernel := (sendEventlogTaCollect locals o d.kernel).2.2
      calls := d.calls ++ (sendEventlogTaCollect locals o d.kernel).2.1} := by
  simp only [step] at ok
  split at ok
  · rename_i guard
    exact ⟨guard,(Option.some.inj ok).symm⟩
  · contradiction

/- What a send with a session does: the batch leaves the ring, and where its
invocation is reported the text of it was handed over in one call. -/
structure BatchOutcome (d d' : Device) (locals : Locals) (o : Outcomes)
    (sent front rest : List CString) : Prop where
  split : queued d.kernel.ring = front ++ rest
  taken : front ≠ []
  left : queued d'.kernel.ring = rest
  wellFormed : WellFormed d'.kernel.ring
  accepted : d'.accepted = d.accepted
  delivered : delivered d'.calls =
    batchBytes sent ++ (if Reported o then batchBytes front else [])
  fits : (batchBytes front).length ≤ 11024
  invoked : Reported o → ∃ ctx size session shm,
    (sendEventlogTaCollect locals o d.kernel).2.1 =
      openedCalls o d.kernel ++ reportedCalls ctx size session shm (batchBytes front) o

theorem sendOutcome {d d' sent locals o} (h : InOrder d sent)
    (ok : step d (.send locals o) = some d') :
    (¬ SessionAvailable d.kernel o → InOrder d' sent) ∧
    (SessionAvailable d.kernel o → ∃ front rest, BatchOutcome d d' locals o sent front rest) := by
  obtain ⟨guard,rfl⟩ := sendStep ok
  constructor
  · intro failed
    obtain ⟨-,ring,none⟩ := sendWithoutSession locals failed
    refine ⟨?_,?_,?_,?_⟩ <;> dsimp only
    · rw [ring]; exact h.wellFormed
    · rw [ring]; exact h.long
    · rw [ring]; exact h.accepted
    · rw [deliveredAppend,quietDelivered none,List.append_nil]; exact h.delivered
  · intro available
    obtain ⟨k,same,all⟩ := sendWithSession locals available
    obtain ⟨front,rest,split,taken,wf,left,fits,-,calls⟩ := batchSent locals o h same guard
    refine ⟨front,rest,split,taken,?_,?_,rfl,?_,fits,?_⟩ <;> (try dsimp only) <;> rw [all]
    · exact left
    · exact wf
    · rw [deliveredAppend,deliveredAppend,quietDelivered (openedQuiet o d.kernel),
        List.nil_append,calls,h.delivered]
    · intro ok
      rw [if_pos ok] at calls
      obtain ⟨size,shm,three⟩ := batchCalls locals k ok calls
      exact ⟨k.teeCtx,size,k.sessArg.session,shm,congrArg (openedCalls o d.kernel ++ ·) three⟩

theorem sentInOrder {d d' locals o sent front rest} (h : InOrder d sent) (ok : Reported o)
    (batch : BatchOutcome d d' locals o sent front rest) : InOrder d' (sent ++ front) := by
  have calls := batch.delivered
  rw [if_pos ok,← batchBytesAppend] at calls
  refine ⟨batch.wellFormed,?_,?_,calls⟩
  · intro r mem
    rw [batch.left] at mem
    exact h.long r (batch.split ▸ List.mem_append_right _ mem)
  · rw [batch.accepted,h.accepted,batch.split,batch.left,List.append_assoc]

theorem stepInOrder {d d' sent event} (h : InOrder d sent) (allowed : Succeeds d event)
    (ok : step d event = some d') : ∃ sent', InOrder d' sent' := by
  cases event with
  | enqueue record => exact ⟨sent,enqueueInOrder h ok⟩
  | send locals o =>
    obtain ⟨without,within⟩ := sendOutcome h ok
    by_cases available : SessionAvailable d.kernel o
    · obtain ⟨front,rest,batch⟩ := within available
      exact ⟨sent ++ front,sentInOrder h (allowed available) batch⟩
    · exact ⟨sent,without available⟩

theorem runInOrder {m events d}
    (run : Run (Restrict Succeeds (Of step)) (start m) events d) : ∃ sent, InOrder d sent := by
  have preserved : ∀ d event d', (∃ sent, InOrder d sent) →
      Restrict Succeeds (Of step) d event d' → ∃ sent, InOrder d' sent := by
    intro d event d' h moved
    obtain ⟨sent,order⟩ := h
    exact stepInOrder order moved.1 moved.2
  exact invariant preserved run ⟨[],startInOrder m⟩

theorem nothingLost {m events d} (run : Run (Restrict Succeeds (Of step)) (start m) events d) :
    Kept d ∧ ∀ locals o, d.kernel.ring.queueNum ≥ 500 → Succeeds d (.send locals o) →
      (sendEventlogTaCollect locals o d.kernel).1 = -1 →
      (sendEventlogTaCollect locals o d.kernel).2.2.ring = d.kernel.ring := by
  obtain ⟨sent,order⟩ := runInOrder run
  refine ⟨inOrderKept order,?_⟩
  intro locals o guard allowed failed
  by_cases available : SessionAvailable d.kernel o
  · obtain ⟨k,same,all⟩ := sendWithSession locals available
    obtain ⟨_,_,_,_,_,_,_,zero,_⟩ := batchSent locals o order same guard
    rw [all] at failed
    exact absurd ((zero (allowed available)).symm.trans failed) (by decide)
  · exact (sendWithoutSession locals available).2.1

/- The other direction, for one send: a batch whose invocation is not reported a
success is in the ring no longer, and no delivered text accounts for it. -/
theorem unreportedLoses {d d' sent locals o} (h : InOrder d sent)
    (available : SessionAvailable d.kernel o) (failed : ¬ Reported o)
    (ok : step d (.send locals o) = some d') : ¬ Kept d' := by
  obtain ⟨front,rest,batch⟩ := (sendOutcome h ok).2 available
  rintro ⟨claimed,perm,-,texts⟩
  have calls := batch.delivered
  rw [if_neg failed,List.append_nil] at calls
  rw [batch.accepted,h.accepted,batch.split,batch.left,← List.append_assoc] at perm
  have shuffled := (List.perm_append_right_iff rest).mp perm
  have lengths := (List.Perm.flatMap_right (fun r : CString => r.bytes ++ [10]) shuffled).length_eq
  have same : batchBytes sent = batchBytes claimed := calls.symm.trans texts
  change (batchBytes (sent ++ front)).length = (batchBytes claimed).length at lengths
  rw [← same,batchBytesAppend,List.length_append] at lengths
  cases front with
  | nil => exact batch.taken rfl
  | cons r more =>
    have positive : 0 < (batchBytes (r::more)).length := by
      simp only [batchBytes,List.flatMap_cons,List.length_append,List.length_singleton]
      omega
    omega

theorem fillRun {d sent} (h : InOrder d sent) (records : List AuditRecord)
    (room : d.kernel.ring.queueNum + records.length ≤ queueSize) :
    ∃ d', Run (Restrict Succeeds (Of step)) d (records.map .enqueue) d' ∧ InOrder d' sent ∧
      d'.kernel.ring.queueNum = d.kernel.ring.queueNum + records.length := by
  induction records generalizing d with
  | nil => exact ⟨d,.nil d,h,by simp⟩
  | cons record rest ih =>
    simp only [List.length_cons] at room
    have first : d.kernel.ring.queueNum < queueSize := by omega
    obtain ⟨next,moved⟩ : ∃ next, step d (.enqueue record) = some next := ⟨_,rfl⟩
    obtain ⟨-,count⟩ := enqueueAccepted moved first
    obtain ⟨d',run,order,num⟩ := ih (enqueueInOrder h moved) (by omega)
    refine ⟨d',.cons ⟨trivial,moved⟩ run,order,?_⟩
    simp only [List.length_cons]
    omega

def shortest : AuditRecord := ⟨filled 22 65 (by decide),by decide,by decide⟩

theorem fullRing : ∃ d,
    Run (Restrict Succeeds (Of step)) (start (fun _ => 0)) (List.replicate 500 (.enqueue shortest)) d ∧
    InOrder d [] ∧ d.kernel.ring.queueNum ≥ 500 := by
  obtain ⟨full,fill,order,count⟩ := fillRun (startInOrder (fun _ => 0))
    (List.replicate 500 shortest) (by rw [List.length_replicate]; decide)
  rw [List.length_replicate] at count
  rw [List.map_replicate] at fill
  exact ⟨full,fill,order,by rw [count]; decide⟩

def invokeSucceeds : Outcomes := ⟨some 1,0,teecSuccess,7,some 2,0,teecSuccess⟩

theorem nothingLostBatch : ∃ d,
    Run (Restrict Succeeds (Of step)) (start (fun _ => 0))
      (List.replicate 500 (.enqueue shortest) ++ [.send ⟨fun _ => 0,0⟩ invokeSucceeds]) d ∧
    Kept d := by
  obtain ⟨full,fill,-,guard⟩ := fullRing
  have moved : step full (.send ⟨fun _ => 0,0⟩ invokeSucceeds) = some _ := if_pos guard
  have allowed : Succeeds full (.send ⟨fun _ => 0,0⟩ invokeSucceeds) :=
    fun _ => (by decide : Reported invokeSucceeds)
  have run := append fill (single ⟨allowed,moved⟩)
  exact ⟨_,run,(nothingLost run).1⟩

def invokeFails : Outcomes := ⟨some 1,0,teecSuccess,7,some 2,-1,teecSuccess⟩

theorem failedInvokeLoses : ∃ d,
    Run (Of step) (start (fun _ => 0))
      (List.replicate 500 (.enqueue shortest) ++ [.send ⟨fun _ => 0,0⟩ invokeFails]) d ∧
    ¬ Kept d := by
  obtain ⟨full,fill,order,guard⟩ := fullRing
  have moved : step full (.send ⟨fun _ => 0,0⟩ invokeFails) = some _ := if_pos guard
  exact ⟨_,append (unrestrict fill) (single moved),
    unreportedLoses order (Or.inr (by decide)) (by decide) moved⟩

end TeePa.DeviceRuns
