import TeePa.DeviceRuns

/-! What one send takes from the ring: the shortest run of records whose text is
over 10000 characters, and nothing else, whatever the stack frame held before. -/
namespace TeePa.ExactBatch
open CStrings KernelRing KernelClient DeviceRuns

structure Least (q : List CString) (count : Nat) : Prop where
  inside : count ≤ q.length
  passed : 10000 < (batchBytes (q.take count)).length
  least : ∀ fewer < count, (batchBytes (q.take fewer)).length ≤ 10000

def emptied (locals : Locals) (ring : Ring) : Gathered :=
  ⟨ring,memset locals.summaryLog 0 0 (strlen locals.summaryLog 0),none⟩

structure SendsExactly (locals : Locals) (o : Outcomes) (k : Kernel) (count : Nat) : Prop where
  least : Least (queued k.ring) count
  ends : ∀ fuel eventLog, k.ring.queueNum.toNat < fuel →
    gather fuel eventLog (emptied locals k.ring) = gatherAll locals k.ring
  assigned : (gatherAll locals k.ring).logMsgLen =
    some (batchBytes ((queued k.ring).take count)).length
  low : 10001 ≤ (batchBytes ((queued k.ring).take count)).length
  high : (batchBytes ((queued k.ring).take count)).length ≤ 11024
  nul : (gatherAll locals k.ring).summaryLog (batchBytes ((queued k.ring).take count)).length = 0
  frame : ∀ x, 12000 ≤ x → (gatherAll locals k.ring).summaryLog x = locals.summaryLog x
  text : load (gatherAll locals k.ring).summaryLog 0
      (batchBytes ((queued k.ring).take count)).length =
    batchBytes ((queued k.ring).take count)
  invoked : ∃ ctx session closing, (sendEventlogTaCollect locals o k).2.1 =
    openedCalls o k ++ (taInvoke ctx session 0x1 (gatherAll locals k.ring).summaryLog
      (batchBytes ((queued k.ring).take count)).length o).2 ++ closing ∧
    (closing = [] ∨ closing = [.closeSession ctx session])
  left : queued (sendEventlogTaCollect locals o k).2.2.ring = (queued k.ring).drop count

theorem batchBytesPrefix {a b : List CString} (front : a <+: b) :
    (batchBytes a).length ≤ (batchBytes b).length := by
  obtain ⟨rest,rfl⟩ := front
  rw [batchBytesAppend,List.length_append]
  exact Nat.le_add_right _ _

theorem leastOfFront {q front rest : List CString} (split : q = front ++ rest)
    (passed : 10000 < (batchBytes front).length)
    (least : (batchBytes front.dropLast).length ≤ 10000) : Least q front.length := by
  subst split
  have own : (front ++ rest).take front.length = front := List.take_left
  refine ⟨by rw [List.length_append]; omega,by rw [own]; exact passed,?_⟩
  intro fewer less
  have inFront : (front ++ rest).take fewer = front.take fewer :=
    List.take_append_of_le_length (Nat.le_of_lt less)
  have shorter : front.take fewer <+: front.dropLast := by
    rw [List.dropLast_eq_take]
    exact List.take_prefix_take_left (by omega)
  rw [inFront]
  exact Nat.le_trans (batchBytesPrefix shorter) least

theorem gatherFresh {g : Gathered} (held : g.ring.queueNum > 0) (fuel : Nat) (eventLog other : CString) :
    gather (fuel+1) eventLog g = gather (fuel+1) other g := by
  have same : dequeue eventLog g.ring = dequeue other g.ring := by
    rw [dequeue,dequeue,if_pos held,if_pos held]
  rw [gather,gather,same]

theorem gatherStable {g : Gathered} {eventLog : CString} (more : Nat) :
    gather (g.ring.queueNum.toNat + 1 + more) eventLog g =
      gather (g.ring.queueNum.toNat + 1) eventLog g := by
  induction more with
  | zero => rfl
  | succ more ih => rw [← Nat.add_assoc,← gatherEnds (by omega),ih]

theorem gatherAnyFuel {ring : Ring} (locals : Locals) (held : ring.queueNum > 0) {fuel : Nat}
    (enough : ring.queueNum.toNat < fuel) (eventLog : CString) :
    gather fuel eventLog (emptied locals ring) = gatherAll locals ring := by
  obtain ⟨more,rfl⟩ := Nat.exists_eq_add_of_le (Nat.succ_le_of_lt enough)
  have stable := @gatherStable (emptied locals ring) eventLog more
  have fresh := @gatherFresh (emptied locals ring) held ring.queueNum.toNat eventLog .empty
  exact stable.trans fresh

theorem emptiedFrame {locals : Locals} (ring : Ring) (nul : ∃ x, x < 12000 ∧ locals.summaryLog x = 0) :
    ∀ x, 12000 ≤ x → (emptied locals ring).summaryLog x = locals.summaryLog x := by
  intro x high
  obtain ⟨n,inside,zero⟩ := nul
  have size : strlen locals.summaryLog 0 ≤ n := strlenBefore (by rwa [Nat.zero_add])
  refine writeOutside (Or.inr ?_)
  rw [List.length_replicate]
  omega

theorem sendBatchCalls (locals : Locals) (o : Outcomes) (k : Kernel) {count : Nat}
    (assigned : (gatherAll locals k.ring).logMsgLen = some count) :
    ∃ closing, (sendBatch locals o k).2.1 = (taInvoke k.teeCtx k.sessArg.session 0x1
        (gatherAll locals k.ring).summaryLog count o).2 ++ closing ∧
      (closing = [] ∨ closing = [.closeSession k.teeCtx k.sessArg.session]) := by
  simp only [sendBatch,assigned,Option.getD_some]
  split
  · exact ⟨_,rfl,.inr rfl⟩
  · exact ⟨[],(List.append_nil _).symm,.inl rfl⟩

theorem sendsExactBatch {k : Kernel} {locals : Locals} {o : Outcomes} (bounds : InBounds k.ring)
    (guard : k.ring.queueNum ≥ 500) (sizes : ∀ r ∈ queued k.ring, 22 ≤ r.length ∧ r.length ≤ 1023)
    (nul : ∃ x, x < 12000 ∧ locals.summaryLog x = 0) (available : SessionAvailable k o) :
    ∃ count, SendsExactly locals o k count := by
  have wf : WellFormed k.ring :=
    ⟨bounds,fun r mem => Nat.lt_succ_of_le (sizes r mem).2⟩
  obtain ⟨front,rest,batch⟩ := gatherAllBatch locals wf guard (fun r mem => (sizes r mem).1)
  have bytes : (withLines .empty front).bytes = batchBytes front := withLinesBytes .empty front
  have length : (withLines .empty front).length = (batchBytes front).length :=
    congrArg List.length bytes
  have taken : (queued k.ring).take front.length = front := by rw [batch.split,List.take_left]
  have dropped : (queued k.ring).drop front.length = rest := by rw [batch.split,List.drop_left]
  have assigned : (gatherAll locals k.ring).logMsgLen = some (batchBytes front).length :=
    batch.length.trans (congrArg some length)
  obtain ⟨k',same,sent⟩ := sendWithSession locals available
  obtain ⟨closing,calls,closed⟩ :=
    sendBatchCalls locals o k' (show (gatherAll locals k'.ring).logMsgLen = _ from same ▸ assigned)
  rw [same] at calls
  refine ⟨front.length,?_,fun fuel eventLog enough => gatherAnyFuel locals (by omega) enough eventLog,
    ?_,?_,?_,?_,?_,?_,?_,?_⟩
  · exact leastOfFront batch.split (length ▸ batch.passed)
      (by have := batch.least; rwa [CString.length,withLinesBytes] at this)
  · rw [taken,assigned]
  · rw [taken,← length]
    exact batch.passed
  · rw [taken,← length]
    exact batch.fits
  · have last := batch.text.nul
    rwa [Nat.zero_add,length,← taken] at last
  · intro x high
    exact (batch.frame x high).trans (emptiedFrame k.ring nul x high)
  · rw [taken,← length,← bytes]
    exact loadOfHolds batch.text
  · rw [taken,sent]
    refine ⟨k'.teeCtx,k'.sessArg.session,closing,?_,closed⟩
    rw [calls,List.append_assoc]
  · rw [sent,dropped,sendBatchRing,same]
    exact batch.left

theorem sendsExactBatchShortest : ∃ d,
    Runs.Run (Runs.Of step) (start (fun _ => 0)) (List.replicate 500 (.enqueue shortest)) d ∧
    ∃ count, SendsExactly ⟨fun _ => 0,0⟩ invokeSucceeds d.kernel count := by
  obtain ⟨full,fill,order,guard⟩ := fullRing
  refine ⟨full,Runs.unrestrict fill,?_⟩
  apply sendsExactBatch order.wellFormed.toInBounds guard
  · intro r mem
    exact ⟨order.long r mem,Nat.le_of_lt_succ (order.wellFormed.contained r mem)⟩
  · exact ⟨0,by decide,rfl⟩
  · exact .inr (by decide)

end TeePa.ExactBatch
