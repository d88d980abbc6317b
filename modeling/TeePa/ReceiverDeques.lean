import TeePa.ReceiverThreads

/-! What becomes of the logs in the three deques of the receiver, whatever the turns of
its threads: each deque keeps the last of what was appended to it, and its consumers take
the rest in order, but for what its bound drops. -/
namespace TeePa.ReceiverDeques
open Texts Receiver Heartbeat Runs Threads SlidingQueue ReceiverThreads
open SavedLogs (Hour)
open Consumers (SaveChain MatchChain saveStep logmatchStep savePending matchPending SaveAlive
  MatchAlive saveTakes matchTakes aliveMove aliveStart)
open SpadeServer (Client listenClient hangUp)

def Recorded {maxlen : Nat} (t : Tape) (q : Deque Text maxlen) : Prop :=
  Accounts (t.pushed.map Prod.snd) q.items t.taken t.dropped

structure Accounted (s : Shared) : Prop where
  buffered : Recorded s.buffered s.process.buffers.auditBuffer
  watched : Recorded s.watched s.process.buffers.auditBufferHeartbeat
  passed : Recorded s.passed s.process.buffers.audit

theorem accountedOf {auditBuffer auditBufferHeartbeat : Deque Text 1000} {audit : Deque Text 10000}
    {buffered watched passed : Tape} (appended : List Text) (disk : Consumers.Disk)
    (m : Monitor) (first : Recorded buffered auditBuffer) (second : Recorded watched auditBufferHeartbeat)
    (third : Recorded passed audit) :
    Accounted ⟨⟨⟨auditBuffer,auditBufferHeartbeat,audit,appended⟩,disk,m⟩,buffered,watched,passed⟩ :=
  ⟨first,second,third⟩

section Tapes
variable {maxlen : Nat} {t : Tape} {q q' : Deque Text maxlen}

theorem pushRecorded (h : Recorded t q) (index : Nat) (auditLog : Text) :
    Recorded (t.push q index auditLog) (q.append auditLog) := by
  have pushed : (t.push q index auditLog).pushed.map Prod.snd =
      t.pushed.map Prod.snd ++ [auditLog] := by simp [Tape.push]
  have slid := slideAccounts h q.bounded auditLog
  rw [← pushed] at slid
  exact slid

theorem takeRecorded {out : List Text} (h : Recorded t q) (taken : q.items = out ++ q'.items) :
    Recorded (t.take q q') q' := by
  have size : q.items.length - q'.items.length = out.length := by
    rw [taken,List.length_append]
    omega
  have front : q.items.take (q.items.length - q'.items.length) = out := by
    rw [size,taken,List.take_left]
  rw [Recorded,taken] at h
  have popped := takeAccounts h
  rw [← front] at popped
  exact popped

end Tapes

theorem saveDeques {now : Hour} {s t : Consumers.Shared} {own own' : SaveChain}
    (ok : saveStep now s own = some (t,own')) :
    (∃ out, s.buffers.auditBuffer.items = out ++ t.buffers.auditBuffer.items) ∧
    t.buffers.auditBufferHeartbeat = s.buffers.auditBufferHeartbeat ∧
    t.buffers.audit = s.buffers.audit := by
  cases own with
  | call =>
    simp only [saveStep] at ok
    split at ok <;> cases Option.some.inj ok <;> exact ⟨⟨[],rfl⟩,rfl,rfl⟩
  | test name temp =>
    simp only [saveStep] at ok
    split at ok <;> cases Option.some.inj ok <;> exact ⟨⟨[],rfl⟩,rfl,rfl⟩
  | pop name temp =>
    cases popped : s.buffers.auditBuffer.popleft with
    | none =>
      simp only [saveStep,popped] at ok
      cases Option.some.inj ok
      exact ⟨⟨[],rfl⟩,rfl,rfl⟩
    | some result =>
      simp only [saveStep,popped] at ok
      cases Option.some.inj ok
      exact ⟨⟨[result.1],Deque.popleftItems popped⟩,rfl,rfl⟩
  | opening name temp | writing name temp =>
    cases Option.some.inj ok
    exact ⟨⟨[],rfl⟩,rfl,rfl⟩
  | died temp => cases ok

theorem matchDeques {now : Time} {s t : Consumers.Shared} {own own' : MatchChain}
    (ok : logmatchStep now s own = some (t,own')) :
    (∃ out, s.buffers.auditBufferHeartbeat.items = out ++ t.buffers.auditBufferHeartbeat.items) ∧
    t.buffers.auditBuffer = s.buffers.auditBuffer ∧ t.buffers.audit = s.buffers.audit := by
  cases own with
  | test =>
    cases Option.some.inj ok
    exact ⟨⟨[],rfl⟩,rfl,rfl⟩
  | pop =>
    cases popped : s.buffers.auditBufferHeartbeat.popleft with
    | none =>
      simp only [logmatchStep,popped] at ok
      cases Option.some.inj ok
      exact ⟨⟨[],rfl⟩,rfl,rfl⟩
    | some result =>
      simp only [logmatchStep,popped] at ok
      cases Option.some.inj ok
      exact ⟨⟨[result.1],Deque.popleftItems popped⟩,rfl,rfl⟩
  | died => cases ok

inductive Serves (accepted : Nat) (s t : SpadeServer.Shared) (client client' : Client) : Prop where
  | rested (shared : t = s) (held : SpadeServer.held client' = SpadeServer.held client)
      (received : client'.received = client.received)
  | took (temp : Text) (rest : Deque Text 10000) (popped : s.buffers.audit.popleft = some (temp,rest))
      (shared : t = ⟨{s.buffers with audit := rest},s.removed ++ [temp]⟩)
      (idle : SpadeServer.held client = []) (held : SpadeServer.held client' = [temp])
      (received : client'.received = client.received)
  | sent (shared : t = s) (temp : Text) (held : SpadeServer.sending client = some temp)
      (idle : SpadeServer.held client' = []) (front : client.isOpen = true →
        client'.received = client.received ++ (encode temp).take accepted)

theorem clientServes {accepted : Nat} {s t : SpadeServer.Shared} {client client' : Client}
    (ok : listenClient accepted s client = some (t,client')) : Serves accepted s t client client' := by
  unfold listenClient at ok
  split at ok
  · rename_i pc
    cases Option.some.inj ok
    refine .rested rfl ?_ ?_ <;> split <;> simp [SpadeServer.held,SpadeServer.sending,pc]
  · rename_i pc
    have idle : SpadeServer.held client = [] := by simp [SpadeServer.held,SpadeServer.sending,pc]
    cases popped : s.buffers.audit.popleft with
    | none =>
      simp only [SpadeServer.take,popped] at ok
      cases Option.some.inj ok
      exact .rested rfl idle.symm rfl
    | some result =>
      simp only [SpadeServer.take,popped] at ok
      cases Option.some.inj ok
      exact .took result.1 result.2 popped rfl idle rfl rfl
  · rename_i temp pc
    have held : SpadeServer.sending client = some temp := by simp [SpadeServer.sending,pc]
    split at ok
    · split at ok
      · cases Option.some.inj ok
        exact .sent rfl temp held rfl (fun _ => rfl)
      · contradiction
    · rename_i gone
      cases Option.some.inj ok
      exact .sent rfl temp held rfl (fun there => absurd there gone)
  · contradiction

theorem hungServes {accepted : Nat} {s t : SpadeServer.Shared} {client client' : Client}
    (ok : hangUp s client = some (t,client')) : Serves accepted s t client client' := by
  cases Option.some.inj ok
  exact .rested rfl rfl rfl

section Step
variable {s t : Shared}

theorem listenAccounted {index : Nat} {got : Received} {c c' : Listening} (h : Accounted s)
    (ok : listenStep index got s c = some (t,c')) : Accounted t := by
  obtain ⟨buffered,watched,passed⟩ := h
  obtain ⟨heard,pc⟩ := c
  cases pc with
  | recv =>
    rw [← (Prod.mk.inj (Option.some.inj ok)).1]
    exact ⟨buffered,watched,passed⟩
  | lines rest =>
    cases rest with
    | nil =>
      rw [← (Prod.mk.inj (Option.some.inj ok)).1]
      exact ⟨buffered,watched,passed⟩
    | cons d rest =>
      rw [← (Prod.mk.inj (Option.some.inj ok)).1]
      exact ⟨buffered,watched,passed⟩
  | buffer auditLog rest =>
    rw [← (Prod.mk.inj (Option.some.inj ok)).1]
    exact accountedOf _ _ _ (pushRecorded buffered index auditLog) watched passed
  | heartbeat auditLog rest =>
    rw [← (Prod.mk.inj (Option.some.inj ok)).1]
    exact accountedOf _ _ _ buffered (pushRecorded watched index auditLog) passed
  | audit auditLog rest =>
    rw [← (Prod.mk.inj (Option.some.inj ok)).1]
    exact accountedOf _ _ _ buffered watched (pushRecorded passed index auditLog)
  | closed => cases ok

theorem saveAccounted {now : Hour} {chain chain' : SaveChain} (h : Accounted s)
    (ok : saveTurn now s chain = some (t,chain')) : Accounted t := by
  obtain ⟨r,turn,same⟩ := Option.map_eq_some_iff.mp ok
  obtain ⟨⟨out,taken⟩,heartbeat,audit⟩ := saveDeques turn
  rw [← (Prod.mk.inj same).1]
  have others : Recorded s.passed r.1.buffers.audit := audit ▸ h.passed
  exact ⟨takeRecorded h.buffered taken,heartbeat ▸ h.watched,others⟩

theorem matchAccounted {now : Time} {chain chain' : MatchChain} (h : Accounted s)
    (ok : matchTurn now s chain = some (t,chain')) : Accounted t := by
  obtain ⟨r,turn,same⟩ := Option.map_eq_some_iff.mp ok
  obtain ⟨⟨out,taken⟩,buffer,audit⟩ := matchDeques turn
  rw [← (Prod.mk.inj same).1]
  have others : Recorded s.passed r.1.buffers.audit := audit ▸ h.passed
  exact ⟨buffer ▸ h.buffered,takeRecorded h.watched taken,others⟩

theorem clientAccounted {next : SpadeServer.Shared → Client → Option (SpadeServer.Shared × Client)}
    {accepted : Nat} {client client' : Client} (h : Accounted s)
    (serves : ∀ {s t client client'}, next s client = some (t,client') →
      Serves accepted s t client client')
    (ok : clientTurn next s client = some (t,client')) : Accounted t := by
  obtain ⟨⟨shared,own⟩,turn,same⟩ := Option.map_eq_some_iff.mp ok
  rw [← (Prod.mk.inj same).1]
  cases serves turn with
  | rested same => cases same; exact ⟨h.buffered,h.watched,h.passed⟩
  | took temp rest popped same =>
    cases same
    have front : s.process.buffers.audit.items = [temp] ++ rest.items := Deque.popleftItems popped
    have passed := h.passed
    rw [Recorded,front] at passed
    exact accountedOf _ _ _ h.buffered h.watched (takeAccounts passed)
  | sent same => cases same; exact ⟨h.buffered,h.watched,h.passed⟩

end Step

theorem startAccounted (m : Monitor) : Accounted (start m).shared :=
  ⟨startAccounts,startAccounts,startAccounts⟩

theorem stepAccounted {s t : System} {action : Action} (h : Accounted s.shared)
    (ok : step s action = some t) : Accounted t.shared := by
  cases action with
  | accept => cases Option.some.inj ok; exact h
  | connect => cases Option.some.inj ok; exact h
  | listen index got =>
    obtain ⟨result,acted,rfl⟩ := Option.map_eq_some_iff.mp ok
    obtain ⟨_,_,_,turn,_⟩ := movedAt acted
    exact listenAccounted h turn
  | save index now =>
    obtain ⟨result,acted,rfl⟩ := Option.map_eq_some_iff.mp ok
    obtain ⟨_,_,_,turn,_⟩ := movedAt acted
    exact saveAccounted h turn
  | logmatch index now =>
    obtain ⟨result,acted,rfl⟩ := Option.map_eq_some_iff.mp ok
    obtain ⟨_,_,_,turn,_⟩ := movedAt acted
    exact matchAccounted h turn
  | disconnect index =>
    obtain ⟨result,acted,rfl⟩ := Option.map_eq_some_iff.mp ok
    obtain ⟨_,_,_,turn,_⟩ := movedAt acted
    exact clientAccounted h (@hungServes 0) turn
  | send index accepted =>
    obtain ⟨result,acted,rfl⟩ := Option.map_eq_some_iff.mp ok
    obtain ⟨_,_,_,turn,_⟩ := movedAt acted
    exact clientAccounted h clientServes turn

theorem dequesAccounted {m : Monitor} {actions : List Action} {s : System}
    (run : Run (Of step) (start m) actions s) : Accounted s.shared := by
  have preserved : ∀ s action t, Accounted s.shared → Of step s action t → Accounted t.shared :=
    fun s action t h ok => stepAccounted h ok
  exact invariant preserved run (startAccounted m)

def plainLine : Text := "audit(1.2:3): cwd=\"/\",node=a\n".toList

def oneAccepted : System := {start ⟨[],0,[]⟩ with
  connections := [⟨[],.recv⟩]
  saves := [.call]
  logmatches := [.test]}

def filled (count : Nat) : System :=
  standing oneAccepted 0 ((logsOf (List.replicate count plainLine).flatten).foldl (appendThree 0)
    oneAccepted.shared) ⟨[.data (encode (List.replicate count plainLine).flatten)],.recv⟩

theorem filledRun {Allowed : System → Action → Prop} (allowed : ∀ s got, Allowed s (.listen 0 got))
    (accepts : Allowed (start ⟨[],0,[]⟩) .accept) {count : Nat} (more : 0 < count) :
    ∃ actions, Run (Restrict Allowed (Of step)) (start ⟨[],0,[]⟩) actions (filled count) := by
  have some : (List.replicate count plainLine).flatten.length ≠ 0 := by
    obtain ⟨fewer,rfl⟩ := Nat.exists_eq_succ_of_ne_zero (Nat.ne_of_gt more)
    rw [List.replicate_succ,List.flatten_cons,List.length_append]
    exact Nat.ne_of_gt (Nat.lt_of_lt_of_le (by decide) (Nat.le_add_right _ _))
  obtain ⟨actions,run⟩ := @chunkAlone Allowed oneAccepted 0 _ _ _ allowed rfl (decodeEncode _) some
  exact ⟨_,.cons ⟨accepts,rfl⟩ run⟩

def plainBody : Text := "audit(1.2:3): cwd=\"/\",node=a".toList
def plainLog : Text := "node=a type=CWD audit(1.2:3): cwd=\"/\"\n".toList

theorem plainLogs (count : Nat) :
    logsOf (List.replicate count plainLine).flatten = List.replicate count plainLog := by
  have line : plainLine = plainBody ++ ['\n'] := by decide +kernel
  have translated : translateAuditLog plainBody = some plainLog := by decide +kernel
  have free : ∀ r ∈ List.replicate count plainBody, BreakFree r := by
    intro r mem
    rw [List.eq_of_mem_replicate mem]
    exact freeOfAll (by decide +kernel)
  have whole : (List.replicate count plainLine).flatten =
      (List.replicate count plainBody).flatMap (fun r => r ++ ['\n']) := by
    rw [List.flatMap_def,List.map_replicate,line]
  rw [logsOf,keptLines,whole,splitlinesRecords free,List.filterMap_replicate_of_some translated]

theorem filledWatched (count : Nat) : (filled count).logmatches[0]? = some .test ∧
    (filled count).shared.watched.taken = [] ∧ (filled count).shared.watched.dropped = count - 1000 ∧
    (filled count).shared.process.buffers.auditBufferHeartbeat.items.length = min 1000 count := by
  obtain ⟨taken,dropped,size⟩ := threeWatched 0 (List.replicate count plainLog) oneAccepted.shared
  have none : oneAccepted.shared.process.buffers.auditBufferHeartbeat.items.length = 0 := rfl
  have fresh : oneAccepted.shared.watched.dropped = 0 := rfl
  rw [none,List.length_replicate,Nat.zero_add] at dropped size
  rw [fresh,Nat.zero_add] at dropped
  rw [filled,plainLogs]
  exact ⟨rfl,taken,dropped,size⟩

theorem dequesAccountedDropped : ∃ actions s, Run (Of step) (start ⟨[],0,[]⟩) actions s ∧
    s.shared.watched.dropped = 12 ∧ s.shared.watched.taken.length = 1 ∧ Accounted s.shared := by
  obtain ⟨actions,first⟩ := @filledRun (fun _ _ => True) (fun _ _ => trivial) trivial 1012
    (by decide)
  obtain ⟨chain,taken,dropped,size⟩ := filledWatched 1012
  obtain ⟨s,second,one⟩ := @examinesOne (fun _ _ => True) (filled 1012) 0 (fun _ => trivial) chain
    (by rw [size]; decide)
  have run := append (unrestrict first) (unrestrict second)
  refine ⟨_,s,run,one.dropped.trans dropped,?_,dequesAccounted run⟩
  rw [one.taken,taken,List.nil_append,List.length_take,size]
  decide

def Few (s : System) : Action → Prop
  | .accept => s.saves.length < 11
  | .connect => s.clients.length < 31
  | _ => True
instance (s) : (action : Action) → Decidable (Few s action)
  | .accept | .connect => Nat.decLt _ _
  | .listen _ _ | .save _ _ | .logmatch _ _ | .disconnect _ | .send _ _ => .isTrue trivial

def clientPending (client : Client) : Bool := match client.pc with
  | .pop => true
  | _ => false

structure Fed (s : System) : Prop where
  saves : ∀ chain ∈ s.saves, SaveAlive chain
  logmatches : ∀ chain ∈ s.logmatches, MatchAlive chain
  saving : ∀ chain ∈ s.saves, savePending chain = true →
    0 < s.shared.process.buffers.auditBuffer.items.length
  matching : ∀ chain ∈ s.logmatches, matchPending chain = true →
    0 < s.shared.process.buffers.auditBufferHeartbeat.items.length
  sending : ∀ client ∈ s.clients, clientPending client = true →
    0 < s.shared.process.buffers.audit.items.length

structure Supplied (s : System) : Prop where
  saves : ∀ chain ∈ s.saves, SaveAlive chain
  logmatches : ∀ chain ∈ s.logmatches, MatchAlive chain
  saveCount : s.saves.length ≤ 11
  matchCount : s.logmatches.length = s.saves.length
  clientCount : s.clients.length ≤ 31
  saving : Reserved 10 s.shared.process.buffers.auditBuffer.items.length savePending s.saves
  matching : Reserved 10 s.shared.process.buffers.auditBufferHeartbeat.items.length matchPending
    s.logmatches
  sending : Reserved 30 s.shared.process.buffers.audit.items.length clientPending s.clients

theorem reservedFeeds {Local : Type} {bound size : Nat} {pending : Local → Bool}
    {threads : List Local} (h : Reserved bound size pending threads)
    (few : threads.length ≤ bound + 1) {own : Local} (mem : own ∈ threads)
    (mine : pending own = true) : 0 < size := by
  obtain ⟨before,after,rfl⟩ := List.append_of_mem mem
  exact reservedTake h few mine

theorem suppliedFed {s : System} (h : Supplied s) : Fed s :=
  ⟨h.saves,h.logmatches,fun _ mem mine => reservedFeeds h.saving h.saveCount mem mine,
    fun _ mem mine => reservedFeeds h.matching (h.matchCount ▸ h.saveCount) mem mine,
    fun _ mem mine => reservedFeeds h.sending h.clientCount mem mine⟩

theorem startSupplied (m : Monitor) : Supplied (start m) :=
  ⟨fun _ mem => absurd mem List.not_mem_nil,fun _ mem => absurd mem List.not_mem_nil,
    Nat.zero_le _,rfl,Nat.zero_le _,.inl rfl,.inl rfl,.inl rfl⟩

structure Grows (b b' : Buffers) : Prop where
  auditBuffer : b.auditBuffer.items.length ≤ b'.auditBuffer.items.length
  heartbeat : b.auditBufferHeartbeat.items.length ≤ b'.auditBufferHeartbeat.items.length
  audit : b.audit.items.length ≤ b'.audit.items.length

theorem growsOf {b : Buffers} {auditBuffer auditBufferHeartbeat : Deque Text 1000}
    {audit : Deque Text 10000} (appended : List Text)
    (first : b.auditBuffer.items.length ≤ auditBuffer.items.length)
    (second : b.auditBufferHeartbeat.items.length ≤ auditBufferHeartbeat.items.length)
    (third : b.audit.items.length ≤ audit.items.length) :
    Grows b ⟨auditBuffer,auditBufferHeartbeat,audit,appended⟩ := ⟨first,second,third⟩

theorem listenGrows {index : Nat} {got : Received} {s t : Shared} {c c' : Listening}
    (ok : listenStep index got s c = some (t,c')) : Grows s.process.buffers t.process.buffers := by
  have same : Grows s.process.buffers s.process.buffers :=
    ⟨Nat.le_refl _,Nat.le_refl _,Nat.le_refl _⟩
  obtain ⟨heard,pc⟩ := c
  cases pc with
  | recv => exact (Prod.mk.inj (Option.some.inj ok)).1 ▸ same
  | lines rest =>
    cases rest with
    | nil => exact (Prod.mk.inj (Option.some.inj ok)).1 ▸ same
    | cons d rest => exact (Prod.mk.inj (Option.some.inj ok)).1 ▸ same
  | buffer auditLog rest =>
    rw [← (Prod.mk.inj (Option.some.inj ok)).1]
    exact growsOf _ (Deque.appendGrows [auditLog] _) (Nat.le_refl _) (Nat.le_refl _)
  | heartbeat auditLog rest =>
    rw [← (Prod.mk.inj (Option.some.inj ok)).1]
    exact growsOf _ (Nat.le_refl _) (Deque.appendGrows [auditLog] _) (Nat.le_refl _)
  | audit auditLog rest =>
    rw [← (Prod.mk.inj (Option.some.inj ok)).1]
    exact growsOf _ (Nat.le_refl _) (Nat.le_refl _) (Deque.appendGrows [auditLog] _)
  | closed => cases ok

theorem clientTakes {accepted : Nat} {s t : SpadeServer.Shared} {own own' : Client}
    (ok : listenClient accepted s own = some (t,own'))
    (supply : clientPending own = true → 0 < s.buffers.audit.items.length) :
    t.buffers.auditBuffer = s.buffers.auditBuffer ∧
    t.buffers.auditBufferHeartbeat = s.buffers.auditBufferHeartbeat ∧
    Takes 30 s.buffers.audit.items.length t.buffers.audit.items.length clientPending own own' := by
  have never : ∀ {p : Prop}, false = true → p := fun mine => Bool.noConfusion mine
  obtain ⟨isOpen,received,pc⟩ := own
  cases pc with
  | test =>
    cases Option.some.inj ok
    refine ⟨rfl,rfl,fun mine => ?_,never,fun _ _ => rfl⟩
    dsimp only at mine
    split at mine
    · rename_i more
      exact ⟨rfl,more,rfl⟩
    · contradiction
  | pop =>
    obtain ⟨result,popped⟩ := Deque.nonemptyPops (supply rfl)
    simp only [listenClient,SpadeServer.take,popped] at ok
    cases Option.some.inj ok
    refine ⟨rfl,rfl,never,fun _ => ?_,fun _ mine => never mine.symm⟩
    rw [Deque.popleftItems popped]
    rfl
  | send temp =>
    simp only [listenClient] at ok
    split at ok
    · split at ok
      · cases Option.some.inj ok
        exact ⟨rfl,rfl,never,never,fun _ _ => rfl⟩
      · contradiction
    · cases Option.some.inj ok
      exact ⟨rfl,rfl,never,never,fun _ _ => rfl⟩
  | dead => cases ok

theorem hungPending {s t : SpadeServer.Shared} {own own' : Client}
    (ok : hangUp s own = some (t,own')) : t = s ∧ clientPending own' = clientPending own := by
  cases Option.some.inj ok
  exact ⟨rfl,rfl⟩

theorem reservedSame {Local : Type} {bound size : Nat} {pending : Local → Bool}
    {before after : List Local} {own own' : Local}
    (h : Reserved bound size pending (before ++ own :: after)) (same : pending own' = pending own) :
    Reserved bound size pending (before ++ own' :: after) := by
  simp only [Reserved,List.countP_append,List.countP_cons,List.length_append,List.length_cons,same]
    at h ⊢
  exact h

theorem acceptSupplied {s t : System} (h : Supplied s) (room : Few s .accept)
    (ok : step s .accept = some t) : Supplied t := by
  cases Option.some.inj ok
  have size : s.saves.length < 11 := room
  refine ⟨aliveStart h.saves trivial,aliveStart h.logmatches trivial,?_,?_,h.clientCount,
    reservedStart h.saving rfl,reservedStart h.matching rfl,h.sending⟩
  · simp only [List.length_append,List.length_singleton]
    omega
  · simp only [List.length_append,List.length_singleton,h.matchCount]

theorem stepSupplied {s t : System} {action : Action} (h : Supplied s) (room : Few s action)
    (ok : step s action = some t) : Supplied t := by
  cases action with
  | accept => exact acceptSupplied h room ok
  | connect =>
    cases Option.some.inj ok
    have size : s.clients.length < 31 := room
    refine ⟨h.saves,h.logmatches,h.saveCount,h.matchCount,?_,h.saving,h.matching,
      reservedStart h.sending rfl⟩
    simp only [List.length_append,List.length_singleton]
    omega
  | listen index got =>
    obtain ⟨result,acted,rfl⟩ := Option.map_eq_some_iff.mp ok
    obtain ⟨_,_,_,turn,_⟩ := movedAt acted
    have grows := listenGrows turn
    exact ⟨h.saves,h.logmatches,h.saveCount,h.matchCount,h.clientCount,
      reservedMore h.saving grows.auditBuffer,reservedMore h.matching grows.heartbeat,
      reservedMore h.sending grows.audit⟩
  | save index now =>
    obtain ⟨result,acted,rfl⟩ := Option.map_eq_some_iff.mp ok
    obtain ⟨before,after,own,own',m⟩ := moved acted
    have length := movedLength m
    obtain ⟨r,turn,same⟩ := Option.map_eq_some_iff.mp m.step
    obtain ⟨shared,rfl⟩ := Prod.mk.inj same
    obtain ⟨-,heartbeat,audit⟩ := saveDeques turn
    have supply : savePending own = true → 0 < s.shared.process.buffers.auditBuffer.items.length :=
      reservedFeeds h.saving h.saveCount (List.mem_of_getElem? m.here)
    obtain ⟨alive,-,takes⟩ := saveTakes turn supply
    obtain ⟨saves,logmatches,saveCount,matchCount,clientCount,saving,matching,sending⟩ := h
    rw [m.threads] at saves saving
    rw [← shared]
    refine ⟨?_,logmatches,length ▸ saveCount,length ▸ matchCount,clientCount,?_,?_,?_⟩
    · exact m.threads' ▸ aliveMove saves alive
    · exact m.threads' ▸ reservedMove saving takes
    · exact heartbeat ▸ matching
    · exact audit ▸ sending
  | logmatch index now =>
    obtain ⟨result,acted,rfl⟩ := Option.map_eq_some_iff.mp ok
    obtain ⟨before,after,own,own',m⟩ := moved acted
    have length := movedLength m
    obtain ⟨r,turn,same⟩ := Option.map_eq_some_iff.mp m.step
    obtain ⟨shared,rfl⟩ := Prod.mk.inj same
    obtain ⟨-,buffer,audit⟩ := matchDeques turn
    have supply : matchPending own = true →
        0 < s.shared.process.buffers.auditBufferHeartbeat.items.length :=
      reservedFeeds h.matching (h.matchCount ▸ h.saveCount) (List.mem_of_getElem? m.here)
    obtain ⟨alive,-,takes⟩ := matchTakes turn supply
    obtain ⟨saves,logmatches,saveCount,matchCount,clientCount,saving,matching,sending⟩ := h
    rw [m.threads] at logmatches matching
    rw [← shared]
    refine ⟨saves,?_,saveCount,length ▸ matchCount,clientCount,?_,?_,?_⟩
    · exact m.threads' ▸ aliveMove logmatches alive
    · exact buffer ▸ saving
    · exact m.threads' ▸ reservedMove matching takes
    · exact audit ▸ sending
  | disconnect index =>
    obtain ⟨result,acted,rfl⟩ := Option.map_eq_some_iff.mp ok
    obtain ⟨before,after,own,own',m⟩ := moved acted
    have length := movedLength m
    obtain ⟨r,turn,same⟩ := Option.map_eq_some_iff.mp m.step
    obtain ⟨shared,rfl⟩ := Prod.mk.inj same
    obtain ⟨rest,pending⟩ := hungPending turn
    obtain ⟨saves,logmatches,saveCount,matchCount,clientCount,saving,matching,sending⟩ := h
    rw [m.threads] at sending
    rw [← shared,rest]
    exact ⟨saves,logmatches,saveCount,matchCount,length ▸ clientCount,saving,matching,
      m.threads' ▸ reservedSame sending pending⟩
  | send index accepted =>
    obtain ⟨result,acted,rfl⟩ := Option.map_eq_some_iff.mp ok
    obtain ⟨before,after,own,own',m⟩ := moved acted
    have length := movedLength m
    obtain ⟨r,turn,same⟩ := Option.map_eq_some_iff.mp m.step
    obtain ⟨shared,rfl⟩ := Prod.mk.inj same
    have supply : clientPending own = true → 0 < s.shared.process.buffers.audit.items.length :=
      reservedFeeds h.sending h.clientCount (List.mem_of_getElem? m.here)
    obtain ⟨buffer,heartbeat,takes⟩ := clientTakes turn supply
    obtain ⟨saves,logmatches,saveCount,matchCount,clientCount,saving,matching,sending⟩ := h
    rw [m.threads] at sending
    rw [← shared]
    refine ⟨saves,logmatches,saveCount,matchCount,length ▸ clientCount,?_,?_,?_⟩
    · exact buffer ▸ saving
    · exact heartbeat ▸ matching
    · exact m.threads' ▸ reservedMove sending takes

theorem neverStarved {m : Monitor} {actions : List Action} {s : System}
    (run : Run (Restrict Few (Of step)) (start m) actions s) : Fed s := by
  have preserved : ∀ s action t, Supplied s → Restrict Few (Of step) s action t → Supplied t :=
    fun s action t h moved => stepSupplied h moved.1 moved.2
  exact suppliedFed (invariant preserved run (startSupplied m))

def poppers : List Action := [.connect,.save 0 SavedLogs.nine,.save 0 SavedLogs.nine,.logmatch 0 0,
  .send 0 0]

theorem neverStarvedPoppers : ∃ actions s,
    Run (Restrict Few (Of step)) (start ⟨[],0,[]⟩) actions s ∧
    s.saves.map savePending = [true] ∧ s.logmatches.map matchPending = [true] ∧
    s.clients.map clientPending = [true] ∧ Fed s := by
  have ran : (execWithin Few step (filled 31) poppers).map (fun s => (s.saves.map savePending,
      s.logmatches.map matchPending,s.clients.map clientPending)) = some ([true],[true],[true]) := by
    decide +kernel
  obtain ⟨s,ok,facts⟩ := Option.map_eq_some_iff.mp ran
  obtain ⟨saving,facts⟩ := Prod.mk.inj facts
  obtain ⟨matching,sending⟩ := Prod.mk.inj facts
  obtain ⟨actions,first⟩ := @filledRun Few (fun _ _ => trivial) (by decide) 31 (by decide)
  have run := append first (execWithinRun ok)
  exact ⟨_,s,run,saving,matching,sending,neverStarved run⟩

end TeePa.ReceiverDeques
