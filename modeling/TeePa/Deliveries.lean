import TeePa.Journeys

/-! What SPADE gets of the records of the devices, over the whole way. -/
namespace TeePa.Deliveries
open Texts hiding Bytes
open Heartbeat hiding Event
open CStrings KernelRing Receiver Runs Threads Batches Connections EndToEnd Journeys
open KernelClient (batchBytes)
open Transport (recordLog)
open ReceiverThreads (Orderly)
open ReceiverOutputs (Served ServedIn Reliable)

def sourceLogs (source : Nat × List CString) : List Text := source.2.filterMap recordLog

structure Delivered (s : System) (sources : List (Nat × List CString))
    (shares : List (List Text × SpadeServer.Client)) : Prop where
  wired : Wired s sources
  connections : ∀ index, own index s.process.receiver.shared.passed.pushed <+:
    (sources[index]?.map sourceLogs).getD []
  served : Served s.process.receiver.shared.passed.taken s.process.receiver.clients shares
  order : ∀ share ∈ shares,
    share.1.Sublist (s.process.receiver.shared.passed.pushed.map Prod.snd)
  once : ∀ log, (shares.flatMap Prod.fst).count log ≤ (sources.flatMap sourceLogs).count log

theorem connectionsFrom {s : System} {sources : List (Nat × List CString)} (h : Wired s sources)
    (orderly : Orderly s.process.receiver) (index : Nat) :
    own index s.process.receiver.shared.passed.pushed <+:
      (sources[index]?.map sourceLogs).getD [] := by
  have listened := (readerListened orderly index).passed
  rcases Nat.lt_or_ge index s.wires.length with old | new
  · have wired := List.getElem?_eq_getElem old
    have sourced := List.getElem?_eq_getElem (h.count.symm ▸ old)
    obtain ⟨printable,fits⟩ := h.written _ (List.mem_of_getElem? sourced)
    have logs := readsLogs (h.reading index _ _ wired sourced) printable fits
    rw [← listened] at logs
    rw [sourced]
    exact (List.prefix_append _ _).trans logs
  · have past := Nat.le_trans (Nat.le_trans (Nat.le_add_right _ _) h.accepted) new
    rw [(orderly.fresh index past).passed]
    exact List.nil_prefix

theorem stepServed {s t : Process.System} {action : Process.Action} (h : ServedIn s.receiver)
    (reliable : ∀ own, action = .thread own → Reliable s.receiver own)
    (ok : Process.step s action = some t) : ServedIn t.receiver := by
  cases Process.stepTurns ok with
  | listens receiver beat => exact receiver ▸ h
  | threads own given moved beat =>
    have whole : Reliable s.receiver own :=
      given.elim (fun accepted => accepted ▸ trivial) (fun same => reliable own same)
    exact ReceiverOutputs.stepServed h whole moved
  | beats m receiver turn => exact receiver ▸ h

theorem sharesCount (shares : List (List Text × SpadeServer.Client)) (log : Text) :
    (shares.flatMap Prod.fst).count log ≤
      (shares.flatMap (fun share => share.1 ++ SpadeServer.held share.2)).count log := by
  induction shares with
  | nil => exact Nat.le_refl _
  | cons share rest ih =>
    simp only [List.flatMap_cons,List.count_append]
    omega

section Serving
variable {s : System}

def serving (s : System) (shared : ReceiverThreads.Shared) (client : SpadeServer.Client) : System :=
  {s with process := {s.process with receiver := {s.process.receiver with
    shared := shared
    clients := [client]}}}

theorem clientStep {client client' : SpadeServer.Client} {shared shared' : ReceiverThreads.Shared}
    {accepted : Nat} (whole : ∀ temp ∈ SpadeServer.sending client,
      client.isOpen = true ∧ accepted = (encode temp).length)
    (turn : ReceiverThreads.clientTurn (SpadeServer.listenClient accepted) shared client =
      some (shared',client')) :
    Restrict Admitted (Of step) (serving s shared client) (.receive (.thread (.send 0 accepted)))
      (serving s shared' client') := by
  have admitted : Admitted (serving s shared client) (.receive (.thread (.send 0 accepted))) := by
    intro own here
    cases Option.some.inj here
    exact whole
  refine @quietStep (serving s shared client) _ (serving s shared' client').process admitted rfl ?_
  simp only [serving,Process.step,Process.isAccept,Bool.false_eq_true,if_false,ReceiverThreads.step,
    move,List.getElem?_cons_zero,turn,bind,Option.bind_some,Option.map_some,List.set_cons_zero]

theorem servesFirst {log : Text} {rest : Deque Text 10000}
    (alone : s.process.receiver.clients = [])
    (more : 30 < s.process.receiver.shared.process.buffers.audit.items.length)
    (first : s.process.receiver.shared.process.buffers.audit.popleft = some (log,rest))
    (some : 0 < (encode log).length) : ∃ events t, Run (Restrict Admitted (Of step)) s events t ∧
      t.process.receiver.clients = [⟨true,encode log,.test⟩] ∧ t.devices = s.devices := by
  have connected : Restrict Admitted (Of step) s (.receive (.thread .connect))
      (serving s s.process.receiver.shared ⟨true,[],.test⟩) := by
    refine quietStep trivial rfl ?_
    simp only [Process.step,Process.isAccept,Bool.false_eq_true,if_false,ReceiverThreads.step,alone,
      List.nil_append,Option.map_some]
  have idle : ∀ {client : SpadeServer.Client} {accepted : Nat}, SpadeServer.sending client = none →
      ∀ temp ∈ SpadeServer.sending client, client.isOpen = true ∧ accepted = (encode temp).length := by
    intro client accepted none temp mem
    rw [none] at mem
    exact absurd mem (Option.not_mem_none _)
  obtain ⟨shared,same⟩ : ∃ shared, s.process.receiver.shared = shared := ⟨_,rfl⟩
  rw [same] at connected more first
  have tested : ReceiverThreads.clientTurn (SpadeServer.listenClient 0) shared ⟨true,[],.test⟩ =
      .some (shared,⟨true,[],.pop⟩) := by
    simp only [ReceiverThreads.clientTurn,SpadeServer.listenClient,if_pos more,Option.map_some]
  have popped : ReceiverThreads.clientTurn (SpadeServer.listenClient 0) shared ⟨true,[],.pop⟩ =
      .some ({shared with
        process := {shared.process with buffers := {shared.process.buffers with audit := rest}}
        passed := {shared.passed with taken := shared.passed.taken ++ [log]}},
        ⟨true,[],.send log⟩) := by
    simp only [ReceiverThreads.clientTurn,SpadeServer.listenClient,SpadeServer.take,first,
      Option.map_some]
  have sent : ∀ shared : ReceiverThreads.Shared, ReceiverThreads.clientTurn
      (SpadeServer.listenClient (encode log).length) shared ⟨true,[],.send log⟩ =
        .some (shared,⟨true,encode log,.test⟩) := by
    intro shared
    have all : 0 < (encode log).length ∧ (encode log).length ≤ (encode log).length :=
      ⟨some,Nat.le_refl _⟩
    simp only [ReceiverThreads.clientTurn,SpadeServer.listenClient,if_true,if_pos all,
      List.nil_append,List.take_length,Option.map_some]
  have whole : ∀ temp ∈ SpadeServer.sending ⟨true,[],.send log⟩,
      true = true ∧ (encode log).length = (encode temp).length := by
    intro temp mem
    cases Option.some.inj mem
    exact ⟨rfl,rfl⟩
  exact ⟨_,_,.cons connected (.cons (clientStep (idle rfl) tested)
    (.cons (clientStep (idle rfl) popped) (single (clientStep whole (sent _))))),rfl,rfl⟩

end Serving

end TeePa.Deliveries
