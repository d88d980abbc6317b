import TeePa.Consumers
import TeePa.SpadeServer
import TeePa.SlidingQueue

/-! The receiver process as the threads it runs: one that listens to each TCP
connection, the two chains of timers that each connection starts, and one thread for
each connection of SPADE. They share three deques, and any of them may take its turn
between two steps of another; the three appends of a log are steps of their own. -/
namespace TeePa.ReceiverThreads
open Texts Receiver SavedLogs Heartbeat Runs Threads SlidingQueue
open Consumers (SaveChain MatchChain saveStep logmatchStep)
open SpadeServer (Client listenClient hangUp)

/- What has gone through one deque: the logs appended, each with the connection whose
thread appended it, the logs taken out again, and how many its bound has dropped. -/
structure Tape where
  pushed : List (Nat × Text)
  taken : List Text
  dropped : Nat

def noTape : Tape := ⟨[],[],0⟩

def Tape.push {maxlen : Nat} (t : Tape) (q : Deque Text maxlen) (index : Nat) (auditLog : Text) :
    Tape :=
  {t with
    pushed := t.pushed ++ [(index,auditLog)]
    dropped := if q.items.length < maxlen then t.dropped else t.dropped + 1}

def Tape.take {maxlen : Nat} (t : Tape) (before after : Deque Text maxlen) : Tape :=
  {t with taken := t.taken ++ before.items.take (before.items.length - after.items.length)}

structure Shared where
  process : Consumers.Shared
  buffered : Tape
  watched : Tape
  passed : Tape

/- Where a thread stands with its connection: before recv, in the loop over the lines
it has got, before one of the three appends, or behind the except clause. -/
inductive ListenPc where
  | recv
  | lines (rest : List Text)
  | buffer (auditLog : Text) (rest : List Text)
  | heartbeat (auditLog : Text) (rest : List Text)
  | audit (auditLog : Text) (rest : List Text)
  | closed
  deriving DecidableEq, Repr

structure Listening where
  heard : List Received
  pc : ListenPc
  deriving DecidableEq, Repr

structure System where
  shared : Shared
  connections : List Listening
  saves : List SaveChain
  logmatches : List MatchChain
  clients : List Client

inductive Action where
  | accept
  | listen (index : Nat) (received : Received)
  | save (index : Nat) (now : Hour)
  | logmatch (index : Nat) (now : Time)
  | connect
  | disconnect (index : Nat)
  | send (index accepted : Nat)
  deriving DecidableEq, Repr

def start (m : Monitor) : System :=
  ⟨⟨⟨noLogs,fun _ => none,m⟩,noTape,noTape,noTape⟩,[],[],[],[]⟩

def received : Received → ListenPc
  | .failure => .closed
  | .data bytes => match decode bytes with
    | none => .closed
    | some data => if data.length = 0 then .closed else .lines (splitlines data)

def appendBuffer (index : Nat) (auditLog : Text) (s : Shared) : Shared :=
  {s with
    process := {s.process with buffers := {s.process.buffers with
      auditBuffer := s.process.buffers.auditBuffer.append auditLog}}
    buffered := s.buffered.push s.process.buffers.auditBuffer index auditLog}

def appendHeartbeat (index : Nat) (auditLog : Text) (s : Shared) : Shared :=
  {s with
    process := {s.process with buffers := {s.process.buffers with
      auditBufferHeartbeat := s.process.buffers.auditBufferHeartbeat.append auditLog}}
    watched := s.watched.push s.process.buffers.auditBufferHeartbeat index auditLog}

def appendAudit (index : Nat) (auditLog : Text) (s : Shared) : Shared :=
  {s with
    process := {s.process with buffers := {s.process.buffers with
      audit := s.process.buffers.audit.append auditLog}}
    passed := s.passed.push s.process.buffers.audit index auditLog}

-- What recv returns is read in one step of the thread only.
def listenStep (index : Nat) (got : Received) (s : Shared) (c : Listening) :
    Option (Shared × Listening) := match c.pc with
  | .recv => some (s,⟨c.heard ++ [got],received got⟩)
  | .lines [] => some (s,{c with pc := .recv})
  | .lines (d::rest) => some (s,{c with pc := match translateAuditLog d with
    | none => .lines rest
    | some auditLog => .buffer auditLog rest})
  | .buffer auditLog rest => some (appendBuffer index auditLog s,{c with pc := .heartbeat auditLog rest})
  | .heartbeat auditLog rest =>
      some (appendHeartbeat index auditLog s,{c with pc := .audit auditLog rest})
  | .audit auditLog rest => some (appendAudit index auditLog s,{c with pc := .lines rest})
  | .closed => none

def saveTurn (now : Hour) (s : Shared) (chain : SaveChain) : Option (Shared × SaveChain) :=
  (saveStep now s.process chain).map (fun r => ({s with
    process := r.1
    buffered := s.buffered.take s.process.buffers.auditBuffer r.1.buffers.auditBuffer},r.2))

def matchTurn (now : Time) (s : Shared) (chain : MatchChain) : Option (Shared × MatchChain) :=
  (logmatchStep now s.process chain).map (fun r => ({s with
    process := r.1
    watched := s.watched.take s.process.buffers.auditBufferHeartbeat
      r.1.buffers.auditBufferHeartbeat},r.2))

def clientTurn (next : SpadeServer.Shared → Client → Option (SpadeServer.Shared × Client))
    (s : Shared) (client : Client) : Option (Shared × Client) :=
  (next ⟨s.process.buffers,s.passed.taken⟩ client).map (fun r => ({s with
    process := {s.process with buffers := r.1.buffers}
    passed := {s.passed with taken := r.1.removed}},r.2))

def step (s : System) : Action → Option System
  | .accept => some {s with
      connections := s.connections ++ [⟨[],.recv⟩]
      saves := s.saves ++ [.call]
      logmatches := s.logmatches ++ [.test]}
  | .listen index got => (move (listenStep index got) index s.shared s.connections).map
      (fun r => {s with shared := r.1,connections := r.2})
  | .save index now => (move (saveTurn now) index s.shared s.saves).map
      (fun r => {s with shared := r.1,saves := r.2})
  | .logmatch index now => (move (matchTurn now) index s.shared s.logmatches).map
      (fun r => {s with shared := r.1,logmatches := r.2})
  | .connect => some {s with clients := s.clients ++ [⟨true,[],.test⟩]}
  | .disconnect index => (move (clientTurn hangUp) index s.shared s.clients).map
      (fun r => {s with shared := r.1,clients := r.2})
  | .send index accepted => (move (clientTurn (listenClient accepted)) index s.shared s.clients).map
      (fun r => {s with shared := r.1,clients := r.2})

section Alone
variable {Allowed : System → Action → Prop} {s : System} {index : Nat}

def standing (s : System) (index : Nat) (shared : Shared) (c : Listening) : System :=
  {s with shared := shared,connections := s.connections.set index c}

def appendThree (index : Nat) (shared : Shared) (auditLog : Text) : Shared :=
  appendAudit index auditLog (appendHeartbeat index auditLog (appendBuffer index auditLog shared))

theorem listenTurn {got : Received} {shared shared' : Shared} {c c' : Listening}
    (inside : index < s.connections.length)
    (turn : listenStep index got shared c = some (shared',c')) :
    Of step (standing s index shared c) (.listen index got) (standing s index shared' c') := by
  have here : (s.connections.set index c)[index]? = some c := List.getElem?_set_self inside
  simp only [Of,step,standing,move,here,turn,bind,Option.bind_some,Option.map_some,List.set_set]

theorem linesAlone (allowed : ∀ s, Allowed s (.listen index .failure))
    (inside : index < s.connections.length) (heard : List Received) (lines : List Text)
    (shared : Shared) : ∃ actions,
      Run (Restrict Allowed (Of step)) (standing s index shared ⟨heard,.lines lines⟩) actions
        (standing s index ((lines.filterMap translateAuditLog).foldl (appendThree index) shared)
          ⟨heard,.recv⟩) := by
  have turn : ∀ {shared shared' : Shared} {c c' : Listening},
      listenStep index .failure shared c = some (shared',c') →
      Restrict Allowed (Of step) (standing s index shared c) (.listen index .failure)
        (standing s index shared' c') := fun ok => ⟨allowed _,listenTurn inside ok⟩
  induction lines generalizing shared with
  | nil => exact ⟨_,single (turn rfl)⟩
  | cons d rest ih =>
    cases found : translateAuditLog d with
    | none =>
      obtain ⟨actions,run⟩ := ih shared
      rw [List.filterMap_cons_none found]
      exact ⟨_,.cons (turn (by simp only [listenStep,found])) run⟩
    | some auditLog =>
      obtain ⟨actions,run⟩ := ih (appendThree index shared auditLog)
      rw [List.filterMap_cons_some found,List.foldl_cons]
      have tested : listenStep index .failure shared ⟨heard,.lines (d::rest)⟩ =
          some (shared,⟨heard,.buffer auditLog rest⟩) := by simp only [listenStep,found]
      have first : listenStep index .failure shared ⟨heard,.buffer auditLog rest⟩ =
          some (appendBuffer index auditLog shared,⟨heard,.heartbeat auditLog rest⟩) := rfl
      exact ⟨_,.cons (turn tested) (.cons (turn first) (.cons (turn rfl) (.cons (turn rfl) run)))⟩

theorem chunkAlone {heard : List Received} {bytes : Bytes} {data : Text}
    (allowed : ∀ s got, Allowed s (.listen index got))
    (here : s.connections[index]? = some ⟨heard,.recv⟩) (text : decode bytes = some data)
    (more : data.length ≠ 0) : ∃ actions,
      Run (Restrict Allowed (Of step)) s actions
        (standing s index ((logsOf data).foldl (appendThree index) s.shared)
          ⟨heard ++ [.data bytes],.recv⟩) := by
  obtain ⟨inside,entry⟩ := List.getElem?_eq_some_iff.mp here
  have same : standing s index s.shared ⟨heard,.recv⟩ = s := by
    rw [standing,← entry,List.set_getElem_self]
  have read : listenStep index (.data bytes) s.shared ⟨heard,.recv⟩ =
      some (s.shared,⟨heard ++ [.data bytes],.lines (splitlines data)⟩) := by
    simp only [listenStep,received,text,if_neg more]
  have first : Restrict Allowed (Of step) s (.listen index (.data bytes)) _ :=
    ⟨allowed _ _,same ▸ listenTurn inside read⟩
  obtain ⟨actions,run⟩ := linesAlone (fun s => allowed s .failure) inside (heard ++ [.data bytes])
    (splitlines data) s.shared
  exact ⟨_,.cons first run⟩

theorem threeProcess (index : Nat) (logs : List Text) (shared : Shared) :
    (logs.foldl (appendThree index) shared).process = {shared.process with
      buffers := {logs.foldl appendLog shared.process.buffers with
        appended := shared.process.buffers.appended}} := by
  induction logs generalizing shared with
  | nil => rfl
  | cons auditLog rest ih =>
    rw [List.foldl_cons,List.foldl_cons,ih]
    simp only [appendThree,appendAudit,appendHeartbeat,appendBuffer,appendLog,foldedBuffers]

theorem parsedAlone (index : Nat) (data : Text) (shared : Shared) :
    ((logsOf data).foldl (appendThree index) shared).process.buffers =
      {parseEventLog data shared.process.buffers with appended := shared.process.buffers.appended} := by
  rw [parsedLogs,threeProcess]

theorem threeWatched (index : Nat) (logs : List Text) (shared : Shared) :
    (logs.foldl (appendThree index) shared).watched.taken = shared.watched.taken ∧
    (logs.foldl (appendThree index) shared).watched.dropped = shared.watched.dropped +
      (shared.process.buffers.auditBufferHeartbeat.items.length + logs.length - 1000) ∧
    (logs.foldl (appendThree index)
      shared).process.buffers.auditBufferHeartbeat.items.length =
        min 1000 (shared.process.buffers.auditBufferHeartbeat.items.length + logs.length) := by
  have bound := shared.process.buffers.auditBufferHeartbeat.bounded
  induction logs generalizing shared with
  | nil =>
    rw [List.foldl_nil,List.length_nil]
    exact ⟨rfl,by omega,by omega⟩
  | cons log rest ih =>
    have size : (appendThree index shared log).process.buffers.auditBufferHeartbeat.items.length =
        min 1000 (shared.process.buffers.auditBufferHeartbeat.items.length + 1) := by
      simp only [appendThree,appendAudit,appendHeartbeat,appendBuffer,Deque.append,
        List.length_drop,List.length_append,List.length_singleton]
      omega
    have dropped : (appendThree index shared log).watched.dropped =
        if shared.process.buffers.auditBufferHeartbeat.items.length < 1000 then shared.watched.dropped
        else shared.watched.dropped + 1 := rfl
    have taken : (appendThree index shared log).watched.taken = shared.watched.taken := rfl
    obtain ⟨same,all,left⟩ := ih (appendThree index shared log) (by rw [size]; omega)
    rw [List.foldl_cons,List.length_cons,all,left,size,dropped]
    refine ⟨same.trans taken,?_,by omega⟩
    split <;> omega

structure Drained (index count : Nat) (r r' : System) : Prop where
  chain : r'.logmatches[index]? = some .test
  connections : r'.connections = r.connections
  taken : r'.shared.watched.taken = r.shared.watched.taken ++
    r.shared.process.buffers.auditBufferHeartbeat.items.take count
  dropped : r'.shared.watched.dropped = r.shared.watched.dropped
  items : r'.shared.process.buffers.auditBufferHeartbeat.items =
    r.shared.process.buffers.auditBufferHeartbeat.items.drop count

theorem chainTurn {shared : Shared} {chain chain' : MatchChain} {now : Time}
    (allowed : Allowed s (.logmatch index now)) (here : s.logmatches[index]? = some chain)
    (turn : matchTurn now s.shared chain = some (shared,chain')) :
    Restrict Allowed (Of step) s (.logmatch index now)
      {s with shared := shared,logmatches := s.logmatches.set index chain'} := by
  refine ⟨allowed,?_⟩
  simp only [Of,step,move,here,turn,bind,Option.bind_some,Option.map_some]

theorem testTurn {shared : Shared}
    (more : 10 < shared.process.buffers.auditBufferHeartbeat.items.length) : ∃ shared',
      matchTurn 0 shared .test = some (shared',.pop) ∧
      shared'.watched.taken = shared.watched.taken ∧
      shared'.watched.dropped = shared.watched.dropped ∧
      shared'.process.buffers.auditBufferHeartbeat =
        shared.process.buffers.auditBufferHeartbeat := by
  rw [matchTurn,logmatchStep,if_pos more]
  refine ⟨_,rfl,?_,rfl,rfl⟩
  simp only [Tape.take,Nat.sub_self,List.take_zero,List.append_nil]

theorem popTurn {shared : Shared} {log : Text} {rest : Deque Text 1000}
    (found : shared.process.buffers.auditBufferHeartbeat.popleft = some (log,rest)) : ∃ shared',
      matchTurn 0 shared .pop = some (shared',.test) ∧
      shared'.watched.taken = shared.watched.taken ++ [log] ∧
      shared'.watched.dropped = shared.watched.dropped ∧
      shared'.process.buffers.auditBufferHeartbeat = rest := by
  have size : (log :: rest.items).length - rest.items.length = 1 := by
    rw [List.length_cons]
    omega
  rw [matchTurn,logmatchStep,found]
  refine ⟨_,rfl,?_,rfl,rfl⟩
  simp only [Tape.take,Deque.popleftItems found,size,List.take_succ_cons,List.take_zero]

theorem examinesOne (allowed : ∀ s, Allowed s (.logmatch index 0))
    (chain : s.logmatches[index]? = some .test)
    (more : 10 < s.shared.process.buffers.auditBufferHeartbeat.items.length) : ∃ s',
      Run (Restrict Allowed (Of step)) s [.logmatch index 0,.logmatch index 0] s' ∧
      Drained index 1 s s' := by
  obtain ⟨inside,-⟩ := List.getElem?_eq_some_iff.mp chain
  obtain ⟨between,tested,still,kept,same⟩ := testTurn more
  obtain ⟨⟨log,rest⟩,found⟩ := Deque.nonemptyPops (Nat.lt_trans (by decide) more)
  obtain ⟨after,popped,out,kept',left⟩ := popTurn (same ▸ found)
  refine ⟨_,.cons (chainTurn (allowed _) chain tested)
    (single (chainTurn (allowed _) (List.getElem?_set_self inside) popped)),?_⟩
  refine ⟨?_,rfl,?_,kept'.trans kept,?_⟩
  · dsimp only
    rw [List.set_set,List.getElem?_set_self inside]
  · dsimp only
    rw [out,still,Deque.popleftItems found]
    rfl
  · dsimp only
    rw [left,Deque.popleftItems found]
    rfl

theorem examinesDown (allowed : ∀ s, Allowed s (.logmatch index 0)) {count : Nat}
    (chain : s.logmatches[index]? = some .test)
    (more : count + 10 ≤ s.shared.process.buffers.auditBufferHeartbeat.items.length) :
    ∃ actions s', Run (Restrict Allowed (Of step)) s actions s' ∧ Drained index count s s' := by
  induction count generalizing s with
  | zero => exact ⟨[],s,.nil s,chain,rfl,(List.append_nil _).symm,rfl,rfl⟩
  | succ count ih =>
    obtain ⟨next,first,one⟩ := examinesOne allowed chain (by omega)
    have fewer : count + 10 ≤ next.shared.process.buffers.auditBufferHeartbeat.items.length := by
      rw [one.items,List.length_drop]
      omega
    obtain ⟨actions,s',rest,down⟩ := ih one.chain fewer
    refine ⟨_,s',append first rest,down.chain,down.connections.trans one.connections,?_,
      down.dropped.trans one.dropped,?_⟩
    · rw [down.taken,one.taken,one.items,List.append_assoc,← List.take_add,Nat.add_comm]
    · rw [down.items,one.items,List.drop_drop,Nat.add_comm]

end Alone

def translated (rest : List Text) : List Text := rest.filterMap translateAuditLog

def owedBuffer : ListenPc → List Text
  | .lines rest | .heartbeat _ rest | .audit _ rest => translated rest
  | .buffer auditLog rest => auditLog :: translated rest
  | _ => []

def owedHeartbeat : ListenPc → List Text
  | .lines rest | .audit _ rest => translated rest
  | .buffer auditLog rest | .heartbeat auditLog rest => auditLog :: translated rest
  | _ => []

def owedAudit : ListenPc → List Text
  | .lines rest => translated rest
  | .buffer auditLog rest | .heartbeat auditLog rest | .audit auditLog rest =>
      auditLog :: translated rest
  | _ => []

def ended : ListenPc → Bool
  | .closed => true
  | _ => false

def alone (heard : List Received) : Connection := listenToClient noLogs heard

structure Listened (s : Shared) (index : Nat) (c : Listening) : Prop where
  buffered : own index s.buffered.pushed ++ owedBuffer c.pc = (alone c.heard).buffers.appended
  watched : own index s.watched.pushed ++ owedHeartbeat c.pc = (alone c.heard).buffers.appended
  passed : own index s.passed.pushed ++ owedAudit c.pc = (alone c.heard).buffers.appended
  closed : ended c.pc = (alone c.heard).closed

structure Unheard (s : Shared) (index : Nat) : Prop where
  buffered : own index s.buffered.pushed = []
  watched : own index s.watched.pushed = []
  passed : own index s.passed.pushed = []

structure Orderly (s : System) : Prop where
  connections : ∀ (index : Nat) (c : Listening), s.connections[index]? = some c →
    Listened s.shared index c
  fresh : ∀ index, s.connections.length ≤ index → Unheard s.shared index

theorem listenSnoc (heard : List Received) (got : Received) (b : Buffers)
    (still : (listenToClient b heard).closed = false) :
    listenToClient b (heard ++ [got]) = listenToClient (listenToClient b heard).buffers [got] := by
  induction heard generalizing b with
  | nil => rfl
  | cons first rest ih =>
    cases first with
    | failure => exact absurd still (by simp [listenToClient])
    | data bytes =>
      rw [List.cons_append,listenToClient,listenToClient]
      cases known : decode bytes with
      | none => exact absurd still (by simp [listenToClient,known])
      | some data =>
        rw [listenToClient,known] at still
        dsimp only at still ⊢
        split
        · rename_i none
          exact absurd still (by simp [none])
        · rename_i some
          rw [if_neg some] at still
          exact ih _ still

theorem heardNext {c : Listening} (got : Received) (still : (alone c.heard).closed = false) :
    (alone (c.heard ++ [got])).buffers.appended =
      (alone c.heard).buffers.appended ++ owedAudit (received got) ∧
    ended (received got) = (alone (c.heard ++ [got])).closed := by
  rw [alone,listenSnoc c.heard got noLogs still]
  cases got with
  | failure => exact ⟨(List.append_nil _).symm,rfl⟩
  | data bytes =>
    rw [listenToClient,received]
    cases decode bytes with
    | none => exact ⟨(List.append_nil _).symm,rfl⟩
    | some data =>
      dsimp only
      split
      · exact ⟨(List.append_nil _).symm,rfl⟩
      · exact ⟨parsedAppended data _,rfl⟩

theorem owedReceived (got : Received) : owedBuffer (received got) = owedAudit (received got) ∧
    owedHeartbeat (received got) = owedAudit (received got) := by
  cases got with
  | failure => exact ⟨rfl,rfl⟩
  | data bytes =>
    rw [received]
    cases decode bytes with
    | none => exact ⟨rfl,rfl⟩
    | some data => dsimp only; split <;> exact ⟨rfl,rfl⟩

structure Pushes (index : Nat) (s t : Shared) (buffer heartbeat audit : List Text) : Prop where
  buffered : t.buffered.pushed = s.buffered.pushed ++ buffer.map (Prod.mk index)
  watched : t.watched.pushed = s.watched.pushed ++ heartbeat.map (Prod.mk index)
  passed : t.passed.pushed = s.passed.pushed ++ audit.map (Prod.mk index)

structure Pays (index : Nat) (s t : Shared) (c c' : Listening) : Prop where
  heard : c'.heard = c.heard
  still : ended c.pc = false ∧ ended c'.pc = false
  pushes : ∃ buffer heartbeat audit, Pushes index s t buffer heartbeat audit ∧
    owedBuffer c.pc = buffer ++ owedBuffer c'.pc ∧
    owedHeartbeat c.pc = heartbeat ++ owedHeartbeat c'.pc ∧
    owedAudit c.pc = audit ++ owedAudit c'.pc

section Step
variable {s t : Shared} {index : Nat} {c c' : Listening}

theorem pushesNothing (index : Nat) (process : Consumers.Shared) {buffered watched passed : Tape}
    (first : buffered.pushed = s.buffered.pushed) (second : watched.pushed = s.watched.pushed)
    (third : passed.pushed = s.passed.pushed) :
    Pushes index s ⟨process,buffered,watched,passed⟩ [] [] [] :=
  ⟨first.trans (List.append_nil _).symm,second.trans (List.append_nil _).symm,
    third.trans (List.append_nil _).symm⟩

theorem pushesSame (index : Nat) (s : Shared) : Pushes index s s [] [] [] :=
  pushesNothing index s.process rfl rfl rfl

theorem pushesBuffer (index : Nat) (auditLog : Text) (s : Shared) :
    Pushes index s (appendBuffer index auditLog s) [auditLog] [] [] :=
  ⟨rfl,(List.append_nil _).symm,(List.append_nil _).symm⟩

theorem pushesHeartbeat (index : Nat) (auditLog : Text) (s : Shared) :
    Pushes index s (appendHeartbeat index auditLog s) [] [auditLog] [] :=
  ⟨(List.append_nil _).symm,rfl,(List.append_nil _).symm⟩

theorem pushesAudit (index : Nat) (auditLog : Text) (s : Shared) :
    Pushes index s (appendAudit index auditLog s) [] [] [auditLog] := by
  have nothing := @pushesNothing s index (appendAudit index auditLog s).process s.buffered s.watched
    s.passed rfl rfl rfl
  exact ⟨nothing.buffered,nothing.watched,rfl⟩

theorem savePushes {now : Hour} {chain chain' : SaveChain}
    (ok : saveTurn now s chain = some (t,chain')) : Pushes index s t [] [] [] := by
  obtain ⟨r,-,same⟩ := Option.map_eq_some_iff.mp ok
  cases same
  exact pushesNothing index r.1 rfl rfl rfl

theorem matchPushes {now : Time} {chain chain' : MatchChain}
    (ok : matchTurn now s chain = some (t,chain')) : Pushes index s t [] [] [] := by
  obtain ⟨r,-,same⟩ := Option.map_eq_some_iff.mp ok
  cases same
  exact pushesNothing index r.1 rfl rfl rfl

theorem clientPushes {next : SpadeServer.Shared → Client → Option (SpadeServer.Shared × Client)}
    {client client' : Client} (ok : clientTurn next s client = some (t,client')) :
    Pushes index s t [] [] [] := by
  obtain ⟨r,-,same⟩ := Option.map_eq_some_iff.mp ok
  cases same
  exact pushesNothing index {s.process with buffers := r.1.buffers} rfl rfl rfl

theorem listenCases {got : Received} (ok : listenStep index got s c = some (t,c')) :
    (c.pc = .recv ∧ t = s ∧ c' = ⟨c.heard ++ [got],received got⟩) ∨ Pays index s t c c' := by
  obtain ⟨heard,pc⟩ := c
  cases pc with
  | recv =>
    obtain ⟨shared,own⟩ := Prod.mk.inj (Option.some.inj ok)
    exact .inl ⟨rfl,shared.symm,own.symm⟩
  | lines rest =>
    refine .inr ?_
    cases rest with
    | nil =>
      obtain ⟨shared,own⟩ := Prod.mk.inj (Option.some.inj ok)
      rw [← shared,← own]
      exact ⟨rfl,⟨rfl,rfl⟩,[],[],[],pushesSame index s,
        rfl,rfl,rfl⟩
    | cons d rest =>
      obtain ⟨shared,own⟩ := Prod.mk.inj (Option.some.inj ok)
      rw [← shared,← own]
      cases found : translateAuditLog d with
      | none =>
        have skip : translated (d::rest) = translated rest := List.filterMap_cons_none found
        exact ⟨rfl,⟨rfl,rfl⟩,[],[],[],pushesSame index s,
          skip,skip,skip⟩
      | some auditLog =>
        have next : translated (d::rest) = auditLog :: translated rest :=
          List.filterMap_cons_some found
        exact ⟨rfl,⟨rfl,rfl⟩,[],[],[],pushesSame index s,
          next,next,next⟩
  | buffer auditLog rest =>
    obtain ⟨shared,own⟩ := Prod.mk.inj (Option.some.inj ok)
    rw [← shared,← own]
    exact .inr ⟨rfl,⟨rfl,rfl⟩,_,_,_,
      pushesBuffer index auditLog s,rfl,rfl,rfl⟩
  | heartbeat auditLog rest =>
    obtain ⟨shared,own⟩ := Prod.mk.inj (Option.some.inj ok)
    rw [← shared,← own]
    exact .inr ⟨rfl,⟨rfl,rfl⟩,_,_,_,
      pushesHeartbeat index auditLog s,rfl,rfl,rfl⟩
  | audit auditLog rest =>
    obtain ⟨shared,own⟩ := Prod.mk.inj (Option.some.inj ok)
    rw [← shared,← own]
    exact .inr ⟨rfl,⟨rfl,rfl⟩,_,_,_,
      pushesAudit index auditLog s,rfl,rfl,rfl⟩
  | closed => cases ok

theorem listenListened {got : Received} (h : Listened s index c)
    (ok : listenStep index got s c = some (t,c')) : Listened t index c' := by
  obtain ⟨buffered,watched,passed,closed⟩ := h
  rcases listenCases ok with ⟨pc,rfl,rfl⟩ | ⟨heard,⟨still,still'⟩,buffer,heartbeat,audit,pushes,owed⟩
  · have unended : (alone c.heard).closed = false := by rw [← closed,pc]; rfl
    obtain ⟨appended,ends⟩ := heardNext got unended
    obtain ⟨first,second⟩ := owedReceived got
    have settled : ∀ {log : List (Nat × Text)} {owed whole : List Text},
        own index log ++ owed = whole → owed = [] → own index log = whole :=
      fun same none => by rw [← same,none,List.append_nil]
    refine ⟨?_,?_,?_,ends⟩ <;> dsimp only
    · rw [settled buffered (by rw [pc]; rfl),first,appended]
    · rw [settled watched (by rw [pc]; rfl),second,appended]
    · rw [settled passed (by rw [pc]; rfl),appended]
  · have paid : ∀ {log log' : List (Nat × Text)} {owed owed' whole xs : List Text},
        own index log ++ owed = whole → log' = log ++ xs.map (Prod.mk index) → owed = xs ++ owed' →
        own index log' ++ owed' = whole := by
      intro log log' owed owed' whole xs before pushed rest
      rw [pushed,ownMine,List.append_assoc,← rest,before]
    refine ⟨?_,?_,?_,?_⟩
    · exact heard ▸ paid buffered pushes.buffered owed.1
    · exact heard ▸ paid watched pushes.watched owed.2.1
    · exact heard ▸ paid passed pushes.passed owed.2.2
    · rw [still',heard,← closed,still]

structure SameOwn (s t : Shared) (other : Nat) : Prop where
  buffered : own other t.buffered.pushed = own other s.buffered.pushed
  watched : own other t.watched.pushed = own other s.watched.pushed
  passed : own other t.passed.pushed = own other s.passed.pushed

theorem pushesOthers {buffer heartbeat audit : List Text}
    (pushes : Pushes index s t buffer heartbeat audit) {other : Nat} (different : index ≠ other) :
    SameOwn s t other := by
  refine ⟨?_,?_,?_⟩
  · rw [pushes.buffered,ownOther different]
  · rw [pushes.watched,ownOther different]
  · rw [pushes.passed,ownOther different]

theorem listenOthers {got : Received} (ok : listenStep index got s c = some (t,c')) {other : Nat}
    (different : index ≠ other) : SameOwn s t other := by
  rcases listenCases ok with ⟨-,rfl,-⟩ | ⟨-,-,buffer,heartbeat,audit,pushes,-⟩
  · exact ⟨rfl,rfl,rfl⟩
  · exact pushesOthers pushes different

theorem listenedSame {other : Nat} (same : SameOwn s t other) (h : Listened s other c) :
    Listened t other c :=
  ⟨same.buffered ▸ h.buffered,same.watched ▸ h.watched,same.passed ▸ h.passed,h.closed⟩

theorem unheardSame {other : Nat} (same : SameOwn s t other) (h : Unheard s other) :
    Unheard t other :=
  ⟨same.buffered.trans h.buffered,same.watched.trans h.watched,same.passed.trans h.passed⟩

theorem orderlySame {system : System} (h : Orderly system)
    (pushes : ∀ index, Pushes index system.shared t [] [] []) :
    (∀ (index : Nat) (c : Listening), system.connections[index]? = some c → Listened t index c) ∧
    ∀ index, system.connections.length ≤ index → Unheard t index := by
  have same : ∀ other, SameOwn system.shared t other :=
    fun other => pushesOthers (pushes (other+1)) (Nat.succ_ne_self other)
  exact ⟨fun index c here => listenedSame (same index) (h.connections index c here),
    fun index past => unheardSame (same index) (h.fresh index past)⟩

end Step

theorem startOrderly (m : Monitor) : Orderly (start m) :=
  ⟨fun index c here => by simp [start] at here,fun _ _ => ⟨rfl,rfl,rfl⟩⟩

theorem acceptOrderly {s t : System} (h : Orderly s) (ok : step s .accept = some t) : Orderly t := by
  cases Option.some.inj ok
  refine ⟨fun index c here => ?_,fun index past => h.fresh index ?_⟩
  · rcases Nat.lt_or_ge index s.connections.length with old | new
    · exact h.connections index c ((List.getElem?_append_left old).symm.trans here)
    · obtain ⟨buffered,watched,passed⟩ := h.fresh index new
      have mine : c = ⟨[],.recv⟩ := by
        have last := List.mem_of_getElem? ((List.getElem?_append_right new).symm.trans here)
        exact List.mem_singleton.mp last
      subst mine
      exact ⟨by rw [buffered]; rfl,by rw [watched]; rfl,by rw [passed]; rfl,
        rfl⟩
  · rw [List.length_append] at past
    exact Nat.le_trans (Nat.le_add_right _ _) past

theorem listenOrderly {s t : System} {index : Nat} {got : Received} (h : Orderly s)
    (ok : step s (.listen index got) = some t) : Orderly t := by
  obtain ⟨result,acted,rfl⟩ := Option.map_eq_some_iff.mp ok
  obtain ⟨own,own',here,turn,threads⟩ := movedAt acted
  obtain ⟨inside,-⟩ := List.getElem?_eq_some_iff.mp here
  refine ⟨fun other c found => ?_,fun other past => ?_⟩
  · dsimp only at found
    rw [threads] at found
    by_cases same : index = other
    · subst same
      rw [List.getElem?_set_self inside] at found
      exact Option.some.inj found ▸ listenListened (h.connections index own here) turn
    · rw [List.getElem?_set_ne same] at found
      exact listenedSame (listenOthers turn same) (h.connections other c found)
  · dsimp only at past
    rw [threads,List.length_set] at past
    have different : index ≠ other := Nat.ne_of_lt (Nat.lt_of_lt_of_le inside past)
    exact unheardSame (listenOthers turn different) (h.fresh other past)

theorem stepOrderly {s t : System} {action : Action} (h : Orderly s)
    (ok : step s action = some t) : Orderly t := by
  cases action with
  | accept => exact acceptOrderly h ok
  | listen index got => exact listenOrderly h ok
  | save index now =>
    obtain ⟨result,acted,rfl⟩ := Option.map_eq_some_iff.mp ok
    obtain ⟨_,_,_,turn,_⟩ := movedAt acted
    obtain ⟨connections,fresh⟩ := orderlySame h (fun _ => savePushes turn)
    exact ⟨connections,fresh⟩
  | logmatch index now =>
    obtain ⟨result,acted,rfl⟩ := Option.map_eq_some_iff.mp ok
    obtain ⟨_,_,_,turn,_⟩ := movedAt acted
    obtain ⟨connections,fresh⟩ := orderlySame h (fun _ => matchPushes turn)
    exact ⟨connections,fresh⟩
  | connect =>
    cases Option.some.inj ok
    exact ⟨h.connections,h.fresh⟩
  | disconnect index =>
    obtain ⟨result,acted,rfl⟩ := Option.map_eq_some_iff.mp ok
    obtain ⟨_,_,_,turn,_⟩ := movedAt acted
    obtain ⟨connections,fresh⟩ := orderlySame h (fun _ => clientPushes turn)
    exact ⟨connections,fresh⟩
  | send index accepted =>
    obtain ⟨result,acted,rfl⟩ := Option.map_eq_some_iff.mp ok
    obtain ⟨_,_,_,turn,_⟩ := movedAt acted
    obtain ⟨connections,fresh⟩ := orderlySame h (fun _ => clientPushes turn)
    exact ⟨connections,fresh⟩

theorem connectionsApart {m : Monitor} {actions : List Action} {s : System}
    (run : Run (Of step) (start m) actions s) {index : Nat} {c : Listening}
    (here : s.connections[index]? = some c) : Listened s.shared index c := by
  have orderly := invariant (fun _ _ _ h ok => stepOrderly h ok) run (startOrderly m)
  exact orderly.connections index c here

/- Two connections, each with one record. Their logs are in one order in the first deque
and in the other in the second. -/
def chunk (host : Text) : Received :=
  .data (encode ("audit(1.2:3): cwd=\"/\",node=".toList ++ host ++ ['\n']))

def crossed : List Action :=
  [.accept,.accept,.listen 0 (chunk ['a']),.listen 1 (chunk ['b']),.listen 0 .failure,
    .listen 0 .failure,.listen 1 .failure,.listen 1 .failure,.listen 1 .failure,
    .listen 0 .failure,.listen 0 .failure,.listen 1 .failure]

theorem connectionsApartCrossed : ∃ s c, Run (Of step) (start ⟨[],0,[]⟩) crossed s ∧
    s.shared.buffered.pushed.map Prod.fst = [0,1] ∧ s.shared.watched.pushed.map Prod.fst = [1,0] ∧
    s.connections[1]? = some c ∧ Listened s.shared 1 c := by
  have ran : (exec step (start ⟨[],0,[]⟩) crossed).map (fun s =>
      (s.shared.buffered.pushed.map Prod.fst,s.shared.watched.pushed.map Prod.fst,
        s.connections.length)) = some ([0,1],[1,0],2) := by decide +kernel
  obtain ⟨s,ok,facts⟩ := Option.map_eq_some_iff.mp ran
  obtain ⟨first,facts⟩ := Prod.mk.inj facts
  obtain ⟨second,two⟩ := Prod.mk.inj facts
  have here : s.connections[1]? = some s.connections[1] := List.getElem?_eq_getElem (by omega)
  exact ⟨s,_,execRun.mp ok,first,second,here,connectionsApart (execRun.mp ok) here⟩

end TeePa.ReceiverThreads
