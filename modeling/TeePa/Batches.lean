import TeePa.Transport

/-! The way of the batches where anything on it may fail: the context, the session, the
shared memory, the invocation, the TA's own socket. A batch that has left the ring comes
to the receiver whole or not at all. -/
namespace TeePa.Batches
open Texts hiding Bytes
open CStrings KernelRing KernelClient CollectTa Receiver Runs Transport
open DeviceRuns (AuditRecord Device InOrder Reported SessionAvailable Quiet invokes reportedCalls
  sendOutcome sendStep enqueueInOrder sendWithoutSession openedQuiet openedCalls batchBytesAppend)

structure Batch where
  arrived : Bool
  records : List CString
  deriving DecidableEq, Repr

def recordsOf (batches : List Batch) : List CString := batches.flatMap Batch.records

def arrivedRecords (batches : List Batch) : List CString := recordsOf (batches.filter Batch.arrived)

def arrivedBatches (batches : List Batch) : List (List CString) :=
  (batches.filter Batch.arrived).map Batch.records

theorem refusedForwards {cmdId paramTypes : UInt32} {memref : Bytes} {net : Network}
    (refused : (taInvokeCommandEntryPoint cmdId paramTypes memref net).1 ≠ teeSuccess) :
    forwarded (taInvokeCommandEntryPoint cmdId paramTypes memref net).2 = [] := by
  unfold taInvokeCommandEntryPoint at refused ⊢
  split
  · rename_i test
    rw [if_pos test] at refused
    unfold testTcpConnect at refused ⊢
    cases opened : net.socketOpen with
    | none => rfl
    | some ctx => simp only [opened] at refused; exact absurd rfl refused
  · rename_i notTest
    rw [if_neg notTest] at refused
    split
    · rename_i message
      rw [if_pos message] at refused
      unfold showRecvMsg sendEventLog at refused ⊢
      split
      · rfl
      · rename_i types
        rw [if_neg types] at refused
        cases opened : net.socketOpen with
        | none => simp only [opened] at refused ⊢; split <;> rfl
        | some ctx =>
          cases sent : net.socketSend with
          | false => simp only [opened,sent] at refused ⊢; split <;> rfl
          | true =>
            simp only [opened,sent] at refused
            exact absurd rfl refused
    · rfl

def carried (net : Option Network) : TeeCall → List Bytes
  | .invokeFunc _ arg attrs _ sent rc _ =>
      if rc < 0 then []
      else forwarded (performed net (taInvokeCommandEntryPoint arg.func (teeParamTypes attrs) sent))
  | _ => []

theorem arrivesCarried (net : Option Network) (calls : List TeeCall) (b : Buffers) :
    calls.foldl (arrives net) b = (calls.flatMap (carried net)).foldl receive b := by
  induction calls generalizing b with
  | nil => rfl
  | cons call rest ih =>
    have one : arrives net b call = (carried net call).foldl receive b := by
      cases call with
      | invokeFunc ctx arg attrs shm sent rc ret => simp only [arrives,carried]; split <;> rfl
      | _ => rfl
    rw [List.foldl_cons,ih,List.flatMap_cons,List.foldl_append,one]

theorem quietCarries {net : Option Network} {calls : List TeeCall} (quiet : Quiet calls) :
    calls.flatMap (carried net) = [] := by
  refine List.flatMap_eq_nil_iff.mpr (fun call mem => ?_)
  have silent := quiet call mem
  cases call <;> first | rfl | contradiction

theorem failedCarries {session net : Option Network} {ctx : TeeContext} {arg : InvokeArg}
    {attrs : List UInt32} {shm : Nat} {sent : Bytes} {rc : Int} {ret : UInt32}
    (failed : ¬ (0 ≤ rc ∧ ret = teecSuccess))
    (answered : Answered session net (.invokeFunc ctx arg attrs shm sent rc ret)) :
    carried net (.invokeFunc ctx arg attrs shm sent rc ret) = [] := by
  rw [carried]
  split
  · rfl
  · rename_i low
    have rc : 0 ≤ rc := Int.not_lt.mp low
    have returned := answered rc
    have refused : ret ≠ teecSuccess := fun success => failed ⟨rc,success⟩
    cases net with
    | none => rfl
    | some net =>
      have own : (taInvokeCommandEntryPoint arg.func (teeParamTypes attrs) sent net).1 = ret :=
        returned
      exact refusedForwards (own.symm ▸ refused)

theorem unreportedCarries {session net : Option Network} {ctx : TeeContext} {handle func : UInt32}
    {data : Memory} {len : Nat} {o : Outcomes} (failed : ¬ Reported o)
    (answered : ∀ call ∈ (taInvoke ctx handle func data len o).2, Answered session net call) :
    (taInvoke ctx handle func data len o).2.flatMap (carried net) = [] := by
  unfold taInvoke at answered ⊢
  cases allocated : o.shmAlloc with
  | none => rfl
  | some shm =>
    have silent : ¬ (0 ≤ o.invokeFunc ∧ o.invokeRet = teecSuccess) :=
      fun ok => failed ⟨by rw [allocated]; rfl,ok⟩
    rw [allocated] at answered
    dsimp only at answered ⊢
    split at answered <;> rename_i outcome <;> (first | rw [if_pos outcome] | rw [if_neg outcome])
    all_goals
      have none := failedCarries silent (answered _ (List.mem_cons_of_mem _ List.mem_cons_self))
      simp only [List.cons_append,List.flatMap_cons,none]
      rfl

theorem batchCarries {session net : Option Network} {locals : Locals} {o : Outcomes} {k : Kernel}
    (failed : ¬ Reported o)
    (answered : ∀ call ∈ (sendBatch locals o k).2.1, Answered session net call) :
    (sendBatch locals o k).2.1.flatMap (carried net) = [] := by
  simp only [sendBatch] at answered ⊢
  split at answered <;> rename_i outcome <;> (first | rw [if_pos outcome] | rw [if_neg outcome])
  · rw [List.flatMap_append,unreportedCarries failed
      (fun call mem => answered call (List.mem_append_left _ mem))]
    rfl
  · exact unreportedCarries failed answered

theorem reportedCarries {session net : Option Network} {ctx : TeeContext} {size shm : Nat}
    {handle : UInt32} {front : List CString} {o : Outcomes} (fits : (batchBytes front).length ≤ 11024)
    (ok : Reported o) (answered : ∀ call ∈ reportedCalls ctx size handle shm (batchBytes front) o,
      Answered session net call) :
    (reportedCalls ctx size handle shm (batchBytes front) o).flatMap (carried net) =
      [batchBytes front] := by
  obtain ⟨-,low,ret⟩ := ok
  have returned := answered _ (List.mem_cons_of_mem _ List.mem_cons_self) low
  rw [ret] at returned
  have taken : ¬ o.invokeFunc < 0 := Int.not_lt.mpr low
  have small : (batchBytes front).length < 0x100000000 := Nat.lt_of_le_of_lt fits (by decide)
  have pieces : forwarded (performed net (taInvokeCommandEntryPoint 0x1
      (teeParamTypes [teeIoctlParamAttrTypeMemrefInput,0,0,0]) (batchBytes front))) =
      [batchBytes front] := by
    cases net with
    | none => exact absurd rfl returned
    | some net => exact sendMsgForwards small returned
  simp only [reportedCalls,List.flatMap_cons,carried,if_neg taken,pieces]
  rfl

structure Parted (d : Device) (batches : List Batch) : Prop where
  wellFormed : WellFormed d.kernel.ring
  long : ∀ r ∈ queued d.kernel.ring, 22 ≤ r.length
  printable : ∀ r ∈ d.accepted, Printable r
  accepted : d.accepted = recordsOf batches ++ queued d.kernel.ring

theorem startParted (m : Memory) : Parted (DeviceRuns.start m) [] :=
  ⟨initialWellFormed m,fun r mem => by simp only [DeviceRuns.start,initialQueued,List.not_mem_nil] at mem,
    fun r mem => absurd mem List.not_mem_nil,rfl⟩

theorem recordsSnoc (batches : List Batch) (arrived : Bool) (records : List CString) :
    recordsOf (batches ++ [⟨arrived,records⟩]) = recordsOf batches ++ records ∧
    arrivedRecords (batches ++ [⟨arrived,records⟩]) =
      arrivedRecords batches ++ (if arrived then records else []) ∧
    arrivedBatches (batches ++ [⟨arrived,records⟩]) =
      arrivedBatches batches ++ (if arrived then [records] else []) := by
  cases arrived <;> simp [recordsOf,arrivedRecords,arrivedBatches]

def fresh (d : Device) : Device := ⟨d.kernel,queued d.kernel.ring,[]⟩

theorem freshInOrder {d : Device} {batches : List Batch} (h : Parted d batches) :
    InOrder (fresh d) [] := ⟨h.wellFormed,h.long,rfl,rfl⟩

theorem enqueueParted {d d' : Device} {batches : List Batch} {record : AuditRecord}
    (h : Parted d batches) (printable : Printable record.toCString)
    (ok : DeviceRuns.step d (.enqueue record) = some d') : Parted d' batches := by
  have order := enqueueInOrder (freshInOrder h) (rfl : DeviceRuns.step _ (.enqueue record) = some _)
  cases Option.some.inj ok
  have same : (if (enqueue record.toCString d.kernel.ring).1 = 0
      then queued d.kernel.ring ++ [record.toCString] else queued d.kernel.ring) =
      queued (enqueue record.toCString d.kernel.ring).2 := order.accepted
  refine ⟨order.wellFormed,order.long,?_,?_⟩
  · intro r mem
    dsimp only at mem
    split at mem
    · rcases List.mem_append.mp mem with old | new
      · exact h.printable r old
      · exact List.mem_singleton.mp new ▸ printable
    · exact h.printable r mem
  · dsimp only
    rw [← same,h.accepted]
    split
    · rw [List.append_assoc]
    · rfl

theorem sendParted {d d' : Device} {batches : List Batch} {locals : Locals} {o : Outcomes}
    {session net : Option Network} (h : Parted d batches)
    (ok : DeviceRuns.step d (.send locals o) = some d')
    (answered : ∀ call ∈ (sendEventlogTaCollect locals o d.kernel).2.1, Answered session net call) :
    let brought := (sendEventlogTaCollect locals o d.kernel).2.1.flatMap (carried net)
    (Parted d' batches ∧ brought = []) ∨
    ∃ arrived front, Parted d' (batches ++ [⟨arrived,front⟩]) ∧ front ≠ [] ∧
      (∀ r ∈ front, Printable r) ∧ (batchBytes front).length ≤ 11024 ∧
      brought = if arrived then [batchBytes front] else [] := by
  obtain ⟨guard,rfl⟩ := sendStep ok
  have moved : DeviceRuns.step (fresh d) (.send locals o) = some _ := if_pos guard
  obtain ⟨without,within⟩ := sendOutcome (freshInOrder h) moved
  by_cases available : SessionAvailable d.kernel o
  · refine .inr ?_
    obtain ⟨front,rest,batch⟩ := within available
    have split : queued d.kernel.ring = front ++ rest := batch.split
    have removed : ∀ r ∈ front, Printable r := by
      intro r mem
      apply h.printable
      rw [h.accepted,split]
      exact List.mem_append_right _ (List.mem_append_left _ mem)
    have left : queued (sendEventlogTaCollect locals o d.kernel).2.2.ring = rest := batch.left
    refine ⟨decide (Reported o),front,⟨batch.wellFormed,?_,h.printable,?_⟩,batch.taken,removed,
      batch.fits,?_⟩
    · intro r mem
      rw [left] at mem
      exact h.long r (split ▸ List.mem_append_right _ mem)
    · rw [(recordsSnoc _ _ _).1]
      dsimp only
      rw [left,h.accepted,split,List.append_assoc]
    · by_cases reported : Reported o
      · obtain ⟨ctx,size,handle,shm,calls⟩ := batch.invoked reported
        have calls : (sendEventlogTaCollect locals o d.kernel).2.1 = _ := calls
        rw [calls] at answered ⊢
        rw [List.flatMap_append,quietCarries (openedQuiet o _),reportedCarries batch.fits reported
          (fun call mem => answered call (List.mem_append_right _ mem))]
        simp [reported]
      · obtain ⟨k,-,all⟩ := DeviceRuns.sendWithSession locals available
        rw [all] at answered ⊢
        dsimp only at answered ⊢
        rw [List.flatMap_append,quietCarries (openedQuiet o _),batchCarries reported
          (fun call mem => answered call (List.mem_append_right _ mem))]
        simp [reported]
  · refine .inl ⟨?_,?_⟩
    · have order := without available
      exact ⟨order.wellFormed,order.long,h.printable,by
        have same := order.accepted
        rw [List.nil_append] at same
        rw [h.accepted]
        exact congrArg _ same⟩
    · exact quietCarries (sendWithoutSession locals available).2.2

def Prints (_ : System) : Event → Prop
  | .enqueue record => Printable record.toCString
  | .send .. => True

def batchOf (before after : Ring) (brought : List Bytes) : List Batch :=
  let taken := (queued before).take ((queued before).length - (queued after).length)
  if taken = [] then [] else [⟨!brought.isEmpty,taken⟩]

structure Book where
  system : System
  batches : List Batch

def opened (m : Memory) : Book := ⟨start m,[]⟩

def sentBy (s t : System) : Event → List Batch
  | .enqueue _ => []
  | .send locals o _ net => batchOf s.device.kernel.ring t.device.kernel.ring
      ((sendEventlogTaCollect locals o s.device.kernel).2.1.flatMap (carried net))

def bookStep (b : Book) (event : Event) : Option Book := do
  let s ← step b.system event
  some ⟨s,b.batches ++ sentBy b.system s event⟩

def Written (b : Book) : Event → Prop := Prints b.system

structure Booked (b : Book) : Prop where
  parted : Parted b.system.device b.batches
  appended : b.system.buffers.appended = (arrivedRecords b.batches).filterMap recordLog

theorem takenNothing {before after : Ring} (brought : List Bytes)
    (same : queued before = queued after) : batchOf before after brought = [] := by
  rw [batchOf,same,Nat.sub_self]
  rfl

theorem takenFront {before after : Ring} {front : List CString} {arrived : Bool}
    (split : queued before = front ++ queued after) (some : front ≠ []) :
    batchOf before after (if arrived then [batchBytes front] else []) = [⟨arrived,front⟩] := by
  have taken : (queued before).take ((queued before).length - (queued after).length) = front := by
    rw [split,List.length_append,Nat.add_sub_cancel,List.take_left]
  rw [batchOf,taken,if_neg some]
  cases arrived <;> rfl

theorem stepBooked {b c : Book} {event : Event} (h : Booked b) (written : Written b event)
    (ok : bookStep b event = some c) : Booked c := by
  simp only [bookStep,bind,Option.bind_eq_some_iff] at ok
  obtain ⟨t,stepped,last⟩ := ok
  cases Option.some.inj last
  cases event with
  | enqueue record =>
    simp only [step,bind,Option.bind_eq_some_iff] at stepped
    obtain ⟨device,moved,last⟩ := stepped
    cases Option.some.inj last
    have none : ∀ t, sentBy b.system t (.enqueue record) = [] := fun _ => rfl
    refine ⟨?_,?_⟩ <;> dsimp only <;> rw [none,List.append_nil]
    · exact enqueueParted h.parted written moved
    · exact h.appended
  | send locals o session net =>
    simp only [step,bind,Option.bind_eq_some_iff] at stepped
    obtain ⟨device,moved,last⟩ := stepped
    split at last
    · rename_i answered
      cases Option.some.inj last
      have accepted : device.accepted = b.system.device.accepted := by
        rw [(sendStep moved).2]
      have before := h.parted.accepted
      have appends := arrivesCarried net
        (sendEventlogTaCollect locals o b.system.device.kernel).2.1 b.system.buffers
      rcases sendParted h.parted moved answered with
        ⟨parted,none⟩ | ⟨arrived,front,parted,some,printable,fits,brought⟩
      · have same : queued b.system.device.kernel.ring = queued device.kernel.ring := by
          rw [← accepted,parted.accepted] at before
          exact (List.append_cancel_left before).symm
        have nothing := takenNothing ((sendEventlogTaCollect locals o
          b.system.device.kernel).2.1.flatMap (carried net)) same
        refine ⟨?_,?_⟩ <;> dsimp only [sentBy] <;> rw [nothing,List.append_nil]
        · exact parted
        · rw [appends,none]
          exact h.appended
      · have split : queued b.system.device.kernel.ring = front ++ queued device.kernel.ring := by
          rw [← accepted,parted.accepted,(recordsSnoc _ _ _).1,List.append_assoc] at before
          exact (List.append_cancel_left before).symm
        have taken := @takenFront _ _ _ arrived split some
        rw [← brought] at taken
        refine ⟨?_,?_⟩ <;> dsimp only [sentBy] <;> rw [taken]
        · exact parted
        · rw [appends,brought,(recordsSnoc _ _ _).2.1,List.filterMap_append,← h.appended]
          cases arrived with
          | false => exact (List.append_nil _).symm
          | true => exact receiveBatch printable fits b.system.buffers
    · contradiction

def refused : Network := ⟨none,true,4⟩

def answersRefused : KernelClient.Outcomes :=
  {DeviceRuns.invokeSucceeds with invokeRet := teeIsocketErrorRemoteClosed}

theorem refusedEnabled {s : System} (locals : Locals) (guard : s.device.kernel.ring.queueNum ≥ 500) :
    ∃ t, step s (.send locals answersRefused (some Transport.net) (some refused)) = some t := by
  obtain ⟨device,moved⟩ : ∃ device, DeviceRuns.step s.device (.send locals answersRefused) =
      some device := ⟨_,if_pos guard⟩
  have available : SessionAvailable s.device.kernel answersRefused := .inr (by decide)
  have answered : ∀ call ∈ (sendEventlogTaCollect locals answersRefused s.device.kernel).2.1,
      Answered (some Transport.net) (some refused) call := by
    obtain ⟨k,-,all⟩ := DeviceRuns.sendWithSession locals available
    rw [all]
    intro call mem
    rcases List.mem_append.mp mem with early | late
    · exact openedAnswered available rfl call early
    · have failed : answersRefused.invokeFunc < 0 ∨ (answersRefused.invokeRet ≠ teecSuccess ∧
          answersRefused.invokeRet ≠ teecErrorShortBuffer) := .inr (by decide)
      simp only [sendBatch,taInvoke,show answersRefused.shmAlloc = some 2 from rfl,if_pos failed,
        show (-einval : Int) < 0 from by decide,if_true,List.cons_append,List.nil_append,
        List.mem_cons,List.not_mem_nil,or_false] at late
      rcases late with rfl | rfl | rfl
      · trivial
      · exact fun _ => congrArg Prod.fst (sendMsgCommand _ refused)
      · trivial
  simp only [step,bind,moved,Option.bind_some,if_pos answered]
  exact ⟨_,rfl⟩

theorem filledPrints : ∃ full, Run (Restrict Prints (Of step)) (start (fun _ => 0))
    (List.replicate 500 (.enqueue sample)) full ∧ Transported full [] ∧
    full.device.kernel.ring.queueNum ≥ 500 := by
  have written : Printable sample.toCString := by decide +kernel
  obtain ⟨full,fill,order,count⟩ := fillTransported (startTransported (fun _ => 0))
    (List.replicate 500 sample) (fun r mem => List.eq_of_mem_replicate mem ▸ written)
    (by rw [List.length_replicate]; decide)
  rw [List.length_replicate] at count
  rw [List.map_replicate] at fill
  refine ⟨full,weaken (fun s event t moved => ⟨?_,moved.2⟩) fill,order,by rw [count]; decide⟩
  cases event with
  | enqueue record => exact moved.1.1
  | send locals o session net => trivial

theorem runBooked {s t : System} {events : List Event}
    (run : Run (Restrict Prints (Of step)) s events t) (batches : List Batch) :
    ∃ more, Run (Restrict Written (Of bookStep)) ⟨s,batches⟩ events ⟨t,batches ++ more⟩ := by
  induction run generalizing batches with
  | nil s => exact ⟨[],(List.append_nil batches).symm ▸ .nil _⟩
  | @cons s event t events u head tail ih =>
    obtain ⟨prints,ok⟩ := head
    have stepped : bookStep ⟨s,batches⟩ event = some ⟨t,batches ++ sentBy s t event⟩ := by
      simp only [bookStep,show step s event = some t from ok,bind,Option.bind_some]
    obtain ⟨more,rest⟩ := ih (batches ++ sentBy s t event)
    refine ⟨sentBy s t event ++ more,.cons ⟨prints,stepped⟩ ?_⟩
    rw [← List.append_assoc]
    exact rest

end TeePa.Batches
