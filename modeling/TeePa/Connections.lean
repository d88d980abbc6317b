import TeePa.Batches
import TeePa.ReceiverThreads

/-! The TCP connections that a trusted application opens for the calls of one send, and
what the threads that read them append. A connection brings nothing, or ends at once, or
brings one batch. -/
namespace TeePa.Connections
open Texts hiding Bytes
open CStrings KernelRing KernelClient CollectTa Receiver Batches
open Transport (recvChunks Printable performed recordLog)
open ReceiverThreads (Listening alone ended listenCases)

/- What recv returns for a connection, from the socket calls behind its open. -/
def sentOver : List TaCall → List Received
  | [] => []
  | .send _ data true::rest => (recvChunks data).map .data ++ sentOver rest
  | .close _::_ => [.data []]
  | .open _::_ => []
  | _::rest => sentOver rest

def connectionsOf : List TaCall → List (List Received)
  | [] => []
  | .open (some _)::rest => sentOver rest :: connectionsOf rest
  | _::rest => connectionsOf rest

def dials (session net : Option Network) : TeeCall → List (List Received)
  | .openSession _ _ rc =>
      if rc < 0 then []
      else connectionsOf (performed session (taOpenSessionEntryPoint (teeParamTypes [0,0,0,0])))
  | .invokeFunc _ arg attrs _ sent rc _ =>
      if rc < 0 then []
      else connectionsOf (performed net
        (taInvokeCommandEntryPoint arg.func (teeParamTypes attrs) sent))
  | _ => []

def stream (data : Bytes) : List Received := (recvChunks data ++ [[]]).map .data

inductive Dialed : List (List Received) → List Bytes → Prop where
  | none : Dialed [] []
  | silent {wires brought} (rest : Dialed wires brought) : Dialed ([]::wires) brought
  | ended {wires brought} (rest : Dialed wires brought) : Dialed ([.data []]::wires) brought
  | batch {wires brought} (data : Bytes) (rest : Dialed wires brought) :
      Dialed (stream data::wires) (data::brought)

theorem dialedAppend {wires wires' : List (List Received)} {brought brought' : List Bytes}
    (h : Dialed wires brought) (h' : Dialed wires' brought') :
    Dialed (wires ++ wires') (brought ++ brought') := by
  induction h with
  | none => exact h'
  | silent _ ih => exact .silent ih
  | ended _ ih => exact .ended ih
  | batch data _ ih => exact .batch data ih

theorem commandDialed (cmdId paramTypes : UInt32) (memref : Bytes) (net : Network) :
    Dialed (connectionsOf (taInvokeCommandEntryPoint cmdId paramTypes memref net).2)
      (forwarded (taInvokeCommandEntryPoint cmdId paramTypes memref net).2) := by
  have written : ∀ data : Bytes, (recvChunks data).map Received.data ++ [.data []] = stream data :=
    fun data => by rw [stream,List.map_append]; rfl
  unfold taInvokeCommandEntryPoint
  split
  · unfold testTcpConnect
    cases net.socketOpen with
    | none => exact .none
    | some ctx =>
      cases sent : net.socketSend with
      | false => exact .ended .none
      | true =>
        have wires : connectionsOf [.open (some ctx),.send ctx testBuf true,.close ctx] =
            [stream testBuf] := by rw [← written]; rfl
        exact wires ▸ .batch testBuf .none
  · split
    · unfold showRecvMsg sendEventLog
      split
      · exact .none
      · cases net.socketOpen with
        | none => exact .none
        | some ctx =>
          cases net.socketSend with
          | false => exact .silent .none
          | true =>
            have whole : ∀ data : Bytes, Dialed (connectionsOf [.malloc net.block memref.length,
                .open (some ctx),.send ctx data true,.close ctx,.free net.block]) [data] := by
              intro data
              have wires : connectionsOf [.malloc net.block memref.length,.open (some ctx),
                  .send ctx data true,.close ctx,.free net.block] = [stream data] := by
                rw [← written]; rfl
              exact wires ▸ .batch data .none
            exact whole _
    · exact .none

theorem callDialed (session net : Option Network) (call : TeeCall) :
    Dialed (dials session net call) (carried net call) := by
  cases call with
  | openSession ctx arg rc =>
    simp only [dials,carried]
    split
    · exact .none
    · cases session with
      | none => exact .none
      | some session =>
        unfold performed taOpenSessionEntryPoint
        dsimp only
        split
        · exact .none
        · cases session.socketOpen with
          | none => exact .none
          | some ctx => exact .silent .none
  | invokeFunc ctx arg attrs shm sent rc ret =>
    simp only [dials,carried]
    split
    · exact .none
    · cases net with
      | none => exact .none
      | some net => exact commandDialed arg.func (teeParamTypes attrs) sent net
  | _ => exact .none

theorem callsDialed (session net : Option Network) (calls : List TeeCall) :
    Dialed (calls.flatMap (dials session net)) (calls.flatMap (carried net)) := by
  induction calls with
  | nil => exact .none
  | cons call rest ih =>
    rw [List.flatMap_cons,List.flatMap_cons]
    exact dialedAppend (callDialed session net call) ih

def Carries (wire : List Received) (source : List CString) : Prop :=
  (source = [] ∧ (wire = [] ∨ wire = [.data []])) ∨ wire = stream (batchBytes source)

def nonempty (sources : List (List CString)) : List (List CString) := sources.filter (!·.isEmpty)

theorem nonemptyAppend (front rest : List (List CString)) :
    nonempty (front ++ rest) = nonempty front ++ nonempty rest := List.filter_append ..

theorem nonemptyCons {front : List CString} (some : front ≠ []) (rest : List (List CString)) :
    nonempty (front::rest) = front::nonempty rest := by
  cases front with
  | nil => exact absurd rfl some
  | cons r front => rfl

theorem dialedSources {wires : List (List Received)} {brought : List Bytes}
    (h : Dialed wires brought) {batches : List (List CString)}
    (texts : brought = batches.map batchBytes) (records : ∀ batch ∈ batches, batch ≠ []) :
    ∃ links : List (List Received × List CString), links.map Prod.fst = wires ∧
      nonempty (links.map Prod.snd) = batches ∧
      ∀ link ∈ links, Carries link.1 link.2 ∧ (link.2 = [] ∨ link.2 ∈ batches) := by
  induction h generalizing batches with
  | none => exact ⟨[],rfl,(List.map_eq_nil_iff.mp texts.symm).symm,fun _ mem => absurd mem List.not_mem_nil⟩
  | silent _ ih =>
    obtain ⟨links,rfl,same,each⟩ := ih texts records
    exact ⟨([],[])::links,rfl,same,List.forall_mem_cons.mpr ⟨⟨.inl ⟨rfl,.inl rfl⟩,.inl rfl⟩,each⟩⟩
  | ended _ ih =>
    obtain ⟨links,rfl,same,each⟩ := ih texts records
    exact ⟨([.data []],[])::links,rfl,same,
      List.forall_mem_cons.mpr ⟨⟨.inl ⟨rfl,.inr rfl⟩,.inl rfl⟩,each⟩⟩
  | batch data _ ih =>
    obtain ⟨front,rest,rfl,first,others⟩ := List.map_eq_cons_iff.mp texts.symm
    obtain ⟨some,more⟩ := List.forall_mem_cons.mp records
    obtain ⟨links,rfl,same,each⟩ := ih others.symm more
    refine ⟨(stream data,front)::links,rfl,?_,List.forall_mem_cons.mpr ⟨⟨.inr (by rw [first]),
      .inr List.mem_cons_self⟩,fun link mem => ?_⟩⟩
    · rw [List.map_cons,nonemptyCons some,same]
    · obtain ⟨carries,found⟩ := each link mem
      exact ⟨carries,found.imp_right (List.mem_cons_of_mem _)⟩

def Reads (c : Listening) (wire : List Received) (source : List CString) : Prop :=
  ∃ front, Carries (front ++ wire) source ∧
    (c.heard = front ∨ (c.heard = front ++ [.failure] ∧ ended c.pc = true))

theorem failureAppended (heard : List Received) (b : Buffers) :
    (listenToClient b (heard ++ [.failure])).buffers = (listenToClient b heard).buffers := by
  induction heard generalizing b with
  | nil => rfl
  | cons got rest ih =>
    cases got with
    | failure => rfl
    | data bytes =>
      rw [List.cons_append,listenToClient,listenToClient]
      cases decode bytes with
      | none => rfl
      | some data =>
        dsimp only
        split
        · rfl
        · exact ih _

theorem appendedMore (more : List Received) (b : Buffers) :
    b.appended <+: (listenToClient b more).buffers.appended := by
  induction more generalizing b with
  | nil => exact List.prefix_refl _
  | cons got rest ih =>
    cases got with
    | failure => exact List.prefix_refl _
    | data bytes =>
      rw [listenToClient]
      cases decode bytes with
      | none => exact List.prefix_refl _
      | some data =>
        dsimp only
        split
        · exact List.prefix_refl _
        · exact ((parsedAppended data b).symm ▸ List.prefix_append _ _).trans (ih _)

theorem heardPrefix (heard more : List Received) (b : Buffers) :
    (listenToClient b heard).buffers.appended <+:
      (listenToClient b (heard ++ more)).buffers.appended := by
  induction heard generalizing b with
  | nil => exact appendedMore more b
  | cons got rest ih =>
    cases got with
    | failure => exact List.prefix_refl _
    | data bytes =>
      rw [List.cons_append,listenToClient,listenToClient]
      cases decode bytes with
      | none => exact List.prefix_refl _
      | some data =>
        dsimp only
        split
        · exact List.prefix_refl _
        · exact ih _

theorem readsLogs {c : Listening} {wire : List Received} {source : List CString}
    (h : Reads c wire source) (printable : ∀ r ∈ source, Printable r)
    (fits : (batchBytes source).length ≤ 11024) :
    (alone c.heard).buffers.appended <+: source.filterMap recordLog := by
  obtain ⟨front,carries,heard⟩ := h
  have same : (alone c.heard).buffers = (alone front).buffers := by
    rcases heard with here | ⟨here,-⟩
    · rw [here]
    · rw [here]; exact failureAppended front noLogs
  have whole : (alone (front ++ wire)).buffers.appended = source.filterMap recordLog := by
    rcases carries with ⟨rfl,idle | ending⟩ | batch
    · rw [idle]; rfl
    · rw [ending,alone,listenToClient,decodeEmpty]; rfl
    · rw [batch]; exact Transport.receiveBatch printable fits noLogs
  rw [same,← whole]
  exact heardPrefix front wire noLogs

theorem recvReads {index : Nat} {got : Received} {shared shared' : ReceiverThreads.Shared}
    {c c' : Listening} {wire : List Received} {source : List CString} (h : Reads c wire source)
    (pc : c.pc = .recv) (ok : ReceiverThreads.listenStep index got shared c = some (shared',c')) :
    (got = .failure → Reads c' wire source) ∧
    (wire.head? = some got → Reads c' wire.tail source) := by
  obtain ⟨front,carries,heard⟩ := h
  have whole : c.heard = front := by
    refine heard.resolve_right (fun ⟨_,closed⟩ => ?_)
    rw [pc] at closed
    exact Bool.noConfusion closed
  rw [ReceiverThreads.listenStep,pc] at ok
  obtain ⟨-,rfl⟩ := Prod.mk.inj (Option.some.inj ok)
  rw [whole]
  refine ⟨fun failed => ?_,fun first => ?_⟩
  · rw [failed]
    exact ⟨front,carries,.inr ⟨rfl,rfl⟩⟩
  · obtain ⟨rest,rfl⟩ := List.head?_eq_some_iff.mp first
    refine ⟨front ++ [got],?_,.inl rfl⟩
    rw [List.append_assoc]
    exact carries

theorem linesReads {index : Nat} {got : Received} {shared shared' : ReceiverThreads.Shared}
    {c c' : Listening} {wire : List Received} {source : List CString} (h : Reads c wire source)
    (pc : c.pc ≠ .recv) (ok : ReceiverThreads.listenStep index got shared c = some (shared',c')) :
    Reads c' wire source := by
  obtain ⟨front,carries,heard⟩ := h
  rcases listenCases ok with ⟨here,-,-⟩ | ⟨same,⟨still,-⟩,-⟩
  · exact absurd here pc
  · refine ⟨front,carries,.inl (same.trans (heard.resolve_right (fun ⟨_,closed⟩ => ?_)))⟩
    rw [still] at closed
    exact Bool.noConfusion closed

end TeePa.Connections
