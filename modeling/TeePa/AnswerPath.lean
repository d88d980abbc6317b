import TeePa.Heeded
import TeePa.Journeys

/-! The way of an answer: the title of a command that has run on a device, from the ring
of its kernel to the flag of the task that the command belongs to, past all the other
records and whatever the other threads do. -/
namespace TeePa.AnswerPath
open Texts hiding Bytes
open Heartbeat hiding Event
open CStrings KernelRing Receiver Runs Threads Batches Connections EndToEnd Journeys
open KernelClient (batchBytes)
open Transport (Printable recordText recordLog)
open HeartbeatAnswers
open Heeded (AllHeeded Since)
open Process (monitor passPc)
open ReceiverThreads (Listening Shared alone)

theorem broughtTaken {shared : Shared} (h : ReceiverDeques.Accounted shared) {index : Nat} {log : Text}
    (brought : log ∈ own index shared.watched.pushed) (kept : shared.watched.dropped = 0)
    (gone : log ∉ shared.process.buffers.auditBufferHeartbeat.items) : log ∈ shared.watched.taken := by
  have recorded := h.watched
  rw [ReceiverDeques.Recorded,kept] at recorded
  have whole := SlidingQueue.accountsWhole recorded
  obtain ⟨entry,mem,rfl⟩ := List.mem_map.mp brought
  have pushed : entry.2 ∈ shared.watched.pushed.map Prod.snd :=
    List.mem_map_of_mem (List.mem_filter.mp mem).1
  rw [← whole] at pushed
  exact (List.mem_append.mp pushed).resolve_right gone

theorem endCloses (front : List Received) (b : Buffers) :
    (listenToClient b (front ++ [.data []])).closed = true := by
  induction front generalizing b with
  | nil => rw [List.nil_append,listenToClient,decodeEmpty]; rfl
  | cons got rest ih =>
    cases got with
    | failure => rfl
    | data bytes =>
      rw [List.cons_append,listenToClient]
      cases decode bytes with
      | none => rfl
      | some data =>
        dsimp only
        split
        · rfl
        · exact ih _

theorem endedOwes {pc : ReceiverThreads.ListenPc} (h : ReceiverThreads.ended pc = true) :
    ReceiverThreads.owedHeartbeat pc = [] := by
  cases pc with
  | closed => rfl
  | _ => exact Bool.noConfusion h

theorem readWhole {shared : Shared} {index : Nat} {c : Listening} {source : List CString}
    (h : Reads c [] source) (listened : ReceiverThreads.Listened shared index c)
    (printable : ∀ r ∈ source, Printable r) (fits : (batchBytes source).length ≤ 11024) :
    own index shared.watched.pushed = source.filterMap recordLog := by
  have logs := readsLogs h printable fits
  obtain ⟨front,carries,heard⟩ := h
  rw [List.append_nil] at carries
  have owed := listened.watched
  rcases carries with ⟨rfl,-⟩ | rfl
  · rw [List.prefix_nil.mp logs] at owed
    exact (List.append_eq_nil_iff.mp owed).1
  · have same : (alone c.heard).buffers = (alone (stream (batchBytes source))).buffers := by
      rcases heard with here | ⟨here,-⟩
      · rw [here]
      · rw [here]; exact failureAppended _ noLogs
    have whole : (alone (stream (batchBytes source))).buffers.appended =
        source.filterMap recordLog :=
      Transport.receiveBatch printable fits noLogs
    have ends : ReceiverThreads.ended c.pc = true := by
      rcases heard with here | ⟨-,ended⟩
      · rw [listened.closed,here,stream,List.map_append]
        exact endCloses _ noLogs
      · exact ended
    rw [endedOwes ends,List.append_nil,same,whole] at owed
    exact owed

/- A record came over a connection that has been read to its end, and its log has gone
through the deque, which has dropped none. -/
structure Passed (s : System) (sources : List (Nat × List CString)) (r : CString) : Prop where
  source : ∃ (index : Nat) (source : Nat × List CString), sources[index]? = some source ∧
    s.wires[index]? = some [] ∧ r ∈ source.2
  kept : s.process.receiver.shared.watched.dropped = 0
  gone : ∀ log ∈ recordLog r, log ∉ s.process.receiver.shared.process.buffers.auditBufferHeartbeat.items

theorem passedTaken {s : System} {sources : List (Nat × List CString)} {r : CString} {log : Text}
    (wired : Wired s sources) (sound : Process.Sound s.process) (h : Passed s sources r)
    (made : recordLog r = some log) : log ∈ s.process.receiver.shared.watched.taken := by
  obtain ⟨⟨index,source,sourced,read,mem⟩,kept,gone⟩ := h
  obtain ⟨printable,fits⟩ := wired.written source (List.mem_of_getElem? sourced)
  have whole := readWhole (wired.reading index _ _ read sourced)
    (readerListened sound.orderly index) printable fits
  have brought : log ∈ own index s.process.receiver.shared.watched.pushed := by
    rw [whole]
    exact List.mem_filterMap.mpr ⟨r,mem,made⟩
  exact broughtTaken sound.accounted brought kept (gone log made)

theorem runHeeded {boots : List Memory} {token : Token} {events : List Event} {s : System}
    (run : Run (Restrict Admitted (Of step)) (start boots token) events s) :
    AllHeeded ⟨monitor s.process,passPc s.process.beat⟩ := by
  obtain ⟨actions,process⟩ := processRun run
  have kept : ∀ (s : Process.System) action t, AllHeeded ⟨monitor s,passPc s.beat⟩ →
      Of Process.step s action t → AllHeeded ⟨monitor t,passPc t.beat⟩ :=
    fun s action t h ok => Heeded.stepHeeded h ok
  refine invariant kept (unrestrict process) (fun before title now after split => ?_)
  have none : [] = before ++ .examined title now :: after := split
  simp at none

theorem runSince {first s : System} {events : List Event}
    (run : Run (Restrict Admitted (Of step)) first events s) :
    ∃ logs history, Since first.process s.process logs history := by
  obtain ⟨actions,process⟩ := processRun run
  have kept : ∀ s action t, (∃ logs history, Since first.process s logs history) →
      Of Process.step s action t → ∃ logs history, Since first.process t logs history :=
    fun s action t ⟨logs,history,h⟩ ok => Heeded.stepSince h ok
  exact invariant kept (unrestrict process) ⟨[],[],Heeded.startSince first.process⟩

section Batch

theorem sourceOf {s : System} {sources : List (Nat × List CString)} {index : Nat}
    {front : List CString} (h : Wired s sources) (read : s.wires[index]? = some [])
    (thread : s.process.receiver.connections[index]? =
      some ⟨[.data (batchBytes front),.data []],.closed⟩)
    (printable : ∀ r ∈ front, Printable r) : ∃ source,
      sources[index]? = some source ∧ source.2.map recordText = front.map recordText := by
  obtain ⟨inside,-⟩ := List.getElem?_eq_some_iff.mp read
  have sourced := List.getElem?_eq_getElem (h.count.symm ▸ inside)
  obtain ⟨written,small⟩ := h.written _ (List.mem_of_getElem? sourced)
  have reading := h.reading index _ _ read sourced
  rw [reader,thread] at reading
  obtain ⟨front',carries,heard⟩ := reading
  rw [List.append_nil] at carries
  have whole : front' = [.data (batchBytes front),.data []] := by
    rcases heard with same | ⟨same,-⟩
    · exact same.symm
    · have ends := congrArg List.getLast? same
      rw [List.getLast?_concat] at ends
      cases ends
  refine ⟨_,sourced,batchTexts ?_ printable written⟩
  rcases carries with ⟨-,none | emptied⟩ | brought
  · rw [whole] at none
    cases none
  · rw [whole] at emptied
    have size := congrArg List.length emptied
    cases size
  · rw [whole,streamOne small] at brought
    have same := (List.cons.inj brought).1
    exact (Received.data.inj same).symm

theorem enrolls {s : System} {r : ReceiverThreads.System} (here : s.process =
      {Process.start zeros with receiver := r, iotDevice := [Process.address]})
    (fresh : r.shared.process.monitor = ⟨[],0,[]⟩) : ∃ events,
      Run (Restrict Admitted (Of step)) s events {s with process :=
        ⟨Process.withMonitor Process.commanded r,[],.accept,.loop zeros⟩} := by
  obtain ⟨devices,wires,process⟩ := s
  subst here
  have beat : ∀ {p p' : Process.System}, Process.heartbeatStep ⟨zeros,0,.success,⟨zeros,0,0,.success⟩⟩ p =
      some p' → Restrict Admitted (Of step) ⟨devices,wires,p⟩
        (.receive (.heartbeat ⟨zeros,0,.success,⟨zeros,0,0,.success⟩⟩)) ⟨devices,wires,p'⟩ :=
    fun ok => quietStep trivial rfl ok
  have registered : Process.withMonitor (registerTask Process.address (keyCommand zeros) 0
      r.shared.process.monitor) r = Process.withMonitor (registerTask Process.address (keyCommand zeros)
        0 ⟨[],0,[]⟩) r := by rw [fresh]
  have second : Process.heartbeatStep ⟨zeros,0,.success,⟨zeros,0,0,.success⟩⟩
      ⟨r,[],.accept,.popped zeros Process.address⟩ = some ⟨Process.withMonitor
        (registerTask Process.address (keyCommand zeros) 0 ⟨[],0,[]⟩) r,[],.accept,
        .registered zeros Process.address⟩ := by
    rw [← registered]
    rfl
  exact ⟨_,.cons (beat rfl) (.cons (beat second) (single (beat rfl)))⟩

structure Untouched (m m' : Monitor) : Prop where
  history : ∃ events, m'.history = m.history ++ events ∧
    ∀ event ∈ events, ∃ title now, event = .examined title now
  tasks : m'.executingTasks.map (·.executeCmd) = m.executingTasks.map (·.executeCmd)

theorem untouchedThen {m m' m'' : Monitor} (h : Untouched m m') (next : Untouched m' m'') :
    Untouched m m'' := by
  obtain ⟨first,split,all⟩ := h.history
  obtain ⟨later,split',all'⟩ := next.history
  refine ⟨⟨first ++ later,by rw [split',split,List.append_assoc],fun event mem => ?_⟩,
    next.tasks.trans h.tasks⟩
  exact (List.mem_append.mp mem).elim (all event) (all' event)

theorem untouchedSame (m : Monitor) : Untouched m m :=
  ⟨⟨[],(List.append_nil _).symm,fun _ mem => absurd mem List.not_mem_nil⟩,rfl⟩

theorem examineUntouched (auditLog : Text) (now : Time) (m : Monitor) :
    Untouched m (examine auditLog now m) := by
  unfold examine
  cases decodedTitle auditLog with
  | none => exact untouchedSame m
  | some title =>
    refine ⟨⟨_,rfl,fun event mem => ⟨title,now,List.mem_singleton.mp mem⟩⟩,?_⟩
    simp only [markTasks,List.map_map]
    refine List.map_congr_left (fun i _ => ?_)
    simp only [Function.comp_apply]
    split <;> rfl

theorem threadUntouched {Allowed : ReceiverThreads.System → ReceiverThreads.Action → Prop}
    {r r' : ReceiverThreads.System} {actions : List ReceiverThreads.Action}
    (run : Run (Restrict Allowed (Of ReceiverThreads.step)) r actions r') :
    Untouched r.shared.process.monitor r'.shared.process.monitor := by
  have kept : ∀ s action t, Untouched r.shared.process.monitor s.shared.process.monitor →
      Of ReceiverThreads.step s action t →
      Untouched r.shared.process.monitor t.shared.process.monitor := by
    intro s action t h ok
    cases Process.threadWatches ok with
    | rested same _ => exact same ▸ h
    | examined auditLog now mem next _ => exact next ▸ untouchedThen h (examineUntouched auditLog now _)
  exact invariant kept (unrestrict run) (untouchedSame _)

/- The device has its command, and the batch with the title of that command waits to be read. -/
structure Awaited (s : System) (index count : Nat) : Prop where
  way : Underway s index (batch count)
  few : count ≤ 499
  thread : s.process.receiver.connections[index]? = some ⟨[],.recv⟩
  chain : s.process.receiver.logmatches[index]? = some .test
  beat : s.process.beat = .loop zeros
  tasks : monitor s.process = Process.commanded
  fresh : s.process.receiver.shared.watched = ⟨[],[],0⟩
  empty : s.process.receiver.shared.process.buffers.auditBufferHeartbeat.items = []

theorem awaitsTitle : ∃ events s index count,
    Run (Restrict Admitted (Of step)) (start [fun _ => 0] zeros) events s ∧
    Awaited s index count := by
  obtain ⟨sent,s,index,count,filled,way,few,inside,accepted⟩ := batchUnderway
  obtain ⟨given,enrolled⟩ := enrolls accepted rfl
  refine ⟨_,_,index,count,append filled enrolled,⟨way.wired,way.long,way.fits⟩,few,?_,?_,rfl,rfl,rfl,rfl⟩
  · exact @acceptedThread index _ (Process.start zeros).receiver rfl inside
  · exact List.getElem?_replicate_of_lt inside

/- The title's log has been examined. -/
structure Examined (s t : System) (index count : Nat) : Prop where
  wires : t.wires[index]? = some []
  thread : t.process.receiver.connections[index]? =
    some ⟨[.data (batchBytes (batch count)),.data []],.closed⟩
  beat : t.process.beat = s.process.beat
  dropped : t.process.receiver.shared.watched.dropped = s.process.receiver.shared.watched.dropped
  gone : ∀ log ∈ recordLog titled.toCString,
    log ∉ t.process.receiver.shared.process.buffers.auditBufferHeartbeat.items
  untouched : Untouched (monitor s.process) (monitor t.process)

theorem examinesTitle {s : System} {index count : Nat} (h : Awaited s index count) : ∃ events t,
    Run (Restrict Admitted (Of step)) s events t ∧ Examined s t index count := by
  obtain ⟨events,t,text,second,read,logs⟩ := readsRecords h.way (batchPrintable count) h.thread
  obtain ⟨answer,log,found,sampled,apart⟩ := logsApart
  rw [batch,List.filterMap_cons_some found,List.filterMap_replicate_of_some sampled] at logs
  have few := h.few
  have many := titledLong h.way.long
  have size : (answer :: List.replicate count log).length = count + 1 := by
    rw [List.length_cons,List.length_replicate]
  obtain ⟨-,dropped,-⟩ := ReceiverThreads.threeWatched index (answer :: List.replicate count log)
    s.process.receiver.shared
  rw [h.empty,size,List.length_nil,Nat.sub_eq_zero_of_le (by omega),Nat.add_zero,← logs,
    ← read.shared] at dropped
  have process := ReceiverThreads.threeProcess index (answer :: List.replicate count log)
    s.process.receiver.shared
  rw [← logs,← read.shared,logs] at process
  have deque : t.process.receiver.shared.process.buffers.auditBufferHeartbeat.items =
      answer :: List.replicate count log := by
    have room : s.process.receiver.shared.process.buffers.auditBufferHeartbeat.items.length +
        (answer :: List.replicate count log).length ≤ 1000 := by
      rw [h.empty,size,List.length_nil]
      omega
    rw [process,(foldedBuffers _ _).2.1,Deque.appendedItems _ room,h.empty,List.nil_append]
  have more : count - 10 + 1 + 10 ≤
      t.process.receiver.shared.process.buffers.auditBufferHeartbeat.items.length := by
    rw [deque,size]
    omega
  obtain ⟨actions,r,examined,drained⟩ := @ReceiverThreads.examinesDown (Inward index)
    t.process.receiver index (fun _ => .inr ⟨0,rfl⟩) _ (read.logmatches ▸ h.chain) more
  obtain ⟨inside,-⟩ := List.getElem?_eq_some_iff.mp read.wires
  have third := @inwardRun index t _ _ _ inside examined
  have same : monitor t.process = monitor s.process := by rw [monitor,process]; rfl
  refine ⟨_,_,append second third,read.wires,?_,read.beat,?_,?_,?_⟩
  · exact drained.connections ▸ read.thread
  · exact drained.dropped.trans dropped
  · intro mine here mem
    cases Option.some.inj (found.symm.trans here)
    dsimp only at mem
    rw [drained.items,deque,List.drop_succ_cons] at mem
    exact apart (List.eq_of_mem_replicate (List.mem_of_mem_drop mem))
  · exact same ▸ threadUntouched examined

theorem examinedPassed {s t : System} {sources : List (Nat × List CString)} {index count : Nat}
    (h : Awaited s index count) (done : Examined s t index count) (wired : Wired t sources) :
    ∃ r, Passed t sources r ∧ recordText r = recordText titled.toCString := by
  obtain ⟨source,sourced,texts⟩ := sourceOf wired done.wires done.thread (batchPrintable count)
  have mine : recordText titled.toCString ∈ source.2.map recordText := by
    rw [texts]
    exact List.mem_cons_self
  obtain ⟨r,mem,text⟩ := List.mem_map.mp mine
  have logs : recordLog r = recordLog titled.toCString := by rw [recordLog,text,← recordLog]
  have none : t.process.receiver.shared.watched.dropped = 0 := by rw [done.dropped,h.fresh]
  have gone := done.gone
  rw [← logs] at gone
  exact ⟨r,⟨⟨index,source,sourced,done.wires,mem⟩,none,gone⟩,text⟩

end Batch

end TeePa.AnswerPath
