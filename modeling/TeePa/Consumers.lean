import TeePa.Heartbeat
import TeePa.SavedLogs
import TeePa.Threads

/-! The chains of timers that listen starts for every connection: one that saves
logs and one that examines them. A chain tests the length of its deque and takes a
log in two steps, and between them any other chain may take its turn. -/
namespace TeePa.Consumers
open Texts Receiver SavedLogs Heartbeat Runs Threads

/- A chain of save_audit_log calls: before a call, in its loop with the name of its
file and what it has taken out, before it opens the file, before what it writes goes
out, or left by an IndexError. -/
inductive SaveChain where
  | call
  | test (name temp : Text)
  | pop (name temp : Text)
  | opening (name temp : Text)
  | writing (name temp : Text)
  | died (temp : Text)
  deriving DecidableEq, Repr

inductive MatchChain where
  | test
  | pop
  | died
  deriving DecidableEq, Repr

abbrev Disk := Text → Option Bytes

-- Mode "w" drops what the file holds.
def openFile (name : Text) (disk : Disk) : Disk :=
  fun other => if other = name then some [] else disk other

/- Every descriptor has its own offset, which is 0 behind the open: what another chain
has written meanwhile is overwritten, but for what is longer. -/
def writeFile (name : Text) (data : Bytes) (disk : Disk) : Disk := fun other =>
  if other = name then some (data ++ ((disk name).getD []).drop data.length) else disk other

example (name : Text) (disk : Disk) :
    writeFile name [1] (writeFile name [2,3] (openFile name (openFile name disk))) name =
      some [1,3] := by simp [writeFile,openFile]

structure Shared where
  buffers : Buffers
  disk : Disk
  monitor : Monitor

structure System where
  shared : Shared
  saves : List SaveChain
  logmatches : List MatchChain

inductive Action where
  | accept
  | parse (data : Text)
  | save (index : Nat) (now : Hour)
  | logmatch (index : Nat) (now : Time)
  deriving DecidableEq, Repr

def start (m : Monitor) : System := ⟨⟨noLogs,fun _ => none,m⟩,[],[]⟩

/- What the file object buffers goes out when it is closed. A call that is over starts
the timer of the next one. -/
def saveStep (now : Hour) (s : Shared) : SaveChain → Option (Shared × SaveChain)
  | .call =>
      if s.buffers.auditBuffer.items.length > 5 then some (s,.test (saveAuditLogName now) [])
      else some (s,.call)
  | .test name temp =>
      if s.buffers.auditBuffer.items.length > 10 then some (s,.pop name temp)
      else some (s,.opening name temp)
  | .pop name temp => match s.buffers.auditBuffer.popleft with
    | none => some (s,.died temp)
    | some (auditLog,rest) =>
        some ({s with buffers := {s.buffers with auditBuffer := rest}},.test name (temp ++ auditLog))
  | .opening name temp => some ({s with disk := openFile name s.disk},.writing name temp)
  | .writing name temp => some ({s with disk := writeFile name (encode temp) s.disk},.call)
  | .died _ => none

def logmatchStep (now : Time) (s : Shared) : MatchChain → Option (Shared × MatchChain)
  | .test => some (s,if s.buffers.auditBufferHeartbeat.items.length > 10 then .pop else .test)
  | .pop => match s.buffers.auditBufferHeartbeat.popleft with
    | none => some (s,.died)
    | some (auditLog,rest) => some ({s with
        buffers := {s.buffers with auditBufferHeartbeat := rest}
        monitor := examine auditLog now s.monitor},.test)
  | .died => none

def step (s : System) : Action → Option System
  | .accept => some {s with saves := s.saves ++ [.call],logmatches := s.logmatches ++ [.test]}
  | .parse data => some {s with
      shared := {s.shared with buffers := parseEventLog data s.shared.buffers}}
  | .save index now => (move (saveStep now) index s.shared s.saves).map
      (fun r => {s with shared := r.1,saves := r.2})
  | .logmatch index now => (move (logmatchStep now) index s.shared s.logmatches).map
      (fun r => {s with shared := r.1,logmatches := r.2})

def savePending : SaveChain → Bool
  | .pop _ _ => true
  | _ => false

def matchPending : MatchChain → Bool
  | .pop => true
  | _ => false

def SaveAlive : SaveChain → Prop
  | .died _ => False
  | _ => True

def MatchAlive : MatchChain → Prop
  | .died => False
  | _ => True

structure NoneDied (s : System) : Prop where
  saves : ∀ chain ∈ s.saves, SaveAlive chain
  logmatches : ∀ chain ∈ s.logmatches, MatchAlive chain

section Alone
variable {s : Shared} {now : Hour} {time : Time}

def saveAlone (here : Shared × SaveChain) (now : Hour) : Option (Shared × SaveChain) :=
  saveStep now here.1 here.2

def matchAlone (here : Shared × MatchChain) (time : Time) : Option (Shared × MatchChain) :=
  logmatchStep time here.1 here.2

def onDisk (files : Files) : Disk := fun name => (files name).map encode

theorem openedWritten (name temp : Text) (files : Files) :
    writeFile name (encode temp) (openFile name (onDisk files)) =
      onDisk (openWrite name temp files) := by
  funext other
  by_cases same : other = name
  · simp [writeFile,openFile,onDisk,openWrite,same]
  · simp [writeFile,openFile,onDisk,openWrite,same]

theorem saveLoop {fuel : Nat} {files : Files} (name temp : Text) (s : Shared)
    (disk : s.disk = onDisk files) (enough : s.buffers.auditBuffer.items.length ≤ fuel + 10) :
    ∃ turns, Run (Of saveAlone) (s,.test name temp) (List.replicate turns now)
      ({s with
        buffers := {s.buffers with auditBuffer := (takeOut fuel temp s.buffers.auditBuffer).2}
        disk := onDisk (openWrite name (takeOut fuel temp s.buffers.auditBuffer).1 files)},.call) := by
  have closes : ∀ (s : Shared) temp, s.disk = onDisk files → Run (Of saveAlone)
      (s,.opening name temp) [now,now] ({s with disk := onDisk (openWrite name temp files)},.call) := by
    intro s temp disk
    rw [← openedWritten,← disk]
    exact .cons rfl (single rfl)
  induction fuel generalizing s temp with
  | zero =>
    refine ⟨3,.cons ?_ (closes s temp disk)⟩
    simp only [Of,saveAlone,saveStep,if_neg (Nat.not_lt.mpr (Nat.zero_add 10 ▸ enough))]
  | succ fuel ih =>
    by_cases more : s.buffers.auditBuffer.items.length > 10
    · obtain ⟨result,found⟩ := Deque.nonemptyPops (Nat.lt_trans (by decide) more)
      have shorter := congrArg List.length (Deque.popleftItems found)
      rw [List.length_cons] at shorter
      obtain ⟨turns,run⟩ := ih (temp ++ result.1)
        {s with buffers := {s.buffers with auditBuffer := result.2}} disk (by dsimp only; omega)
      have tested : Of saveAlone (s,.test name temp) now (s,.pop name temp) := by
        simp only [Of,saveAlone,saveStep,if_pos more]
      have taken : Of saveAlone (s,.pop name temp) now
          ({s with buffers := {s.buffers with auditBuffer := result.2}},
            .test name (temp ++ result.1)) := by
        simp only [Of,saveAlone,saveStep,found]
      refine ⟨turns + 2,.cons tested (.cons taken ?_)⟩
      simpa only [takeOut,if_pos more,found] using run
    · have tested : Of saveAlone (s,.test name temp) now (s,.opening name temp) := by
        simp only [Of,saveAlone,saveStep,if_neg more]
      refine ⟨3,.cons tested ?_⟩
      rw [takeOut,if_neg more]
      exact closes s temp disk

theorem saveCall (now : Hour) (s : Shared) {files : Files} (disk : s.disk = onDisk files) :
    ∃ turns, Run (Of saveAlone) (s,.call) (List.replicate turns now)
      ({s with
        buffers := {s.buffers with
          auditBuffer := (saveAuditLog now s.buffers.auditBuffer files).1}
        disk := onDisk (saveAuditLog now s.buffers.auditBuffer files).2},.call) := by
  by_cases more : s.buffers.auditBuffer.items.length > 5
  · obtain ⟨turns,run⟩ := @saveLoop now _ _ (saveAuditLogName now) [] s disk
      (Nat.le_add_right s.buffers.auditBuffer.items.length 10)
    have called : Of saveAlone (s,.call) now (s,.test (saveAuditLogName now) []) := by
      simp only [Of,saveAlone,saveStep,if_pos more]
    refine ⟨turns + 1,.cons called ?_⟩
    simpa only [saveAuditLog,if_pos more] using run
  · refine ⟨1,single ?_⟩
    simp only [Of,saveAlone,saveStep,saveAuditLog,if_neg more,← disk]

theorem matchCall (time : Time) {fuel : Nat} (s : Shared)
    (enough : s.buffers.auditBufferHeartbeat.items.length ≤ fuel + 10) :
    ∃ turns, Run (Of matchAlone) (s,.test) (List.replicate turns time)
      ({s with
        buffers := {s.buffers with auditBufferHeartbeat :=
          (logmatch time fuel s.buffers.auditBufferHeartbeat s.monitor).1}
        monitor := (logmatch time fuel s.buffers.auditBufferHeartbeat s.monitor).2},.test) := by
  induction fuel generalizing s with
  | zero => exact ⟨0,.nil _⟩
  | succ fuel ih =>
    by_cases more : s.buffers.auditBufferHeartbeat.items.length > 10
    · obtain ⟨result,found⟩ := Deque.nonemptyPops (Nat.lt_trans (by decide) more)
      have shorter := congrArg List.length (Deque.popleftItems found)
      rw [List.length_cons] at shorter
      obtain ⟨turns,run⟩ := ih {s with
        buffers := {s.buffers with auditBufferHeartbeat := result.2}
        monitor := examine result.1 time s.monitor} (by dsimp only; omega)
      have tested : Of matchAlone (s,.test) time (s,.pop) := by
        simp only [Of,matchAlone,logmatchStep,if_pos more]
      have taken : Of matchAlone (s,.pop) time ({s with
          buffers := {s.buffers with auditBufferHeartbeat := result.2}
          monitor := examine result.1 time s.monitor},.test) := by
        simp only [Of,matchAlone,logmatchStep,found]
      refine ⟨turns + 2,.cons tested (.cons taken ?_)⟩
      simpa only [logmatch,if_pos more,found] using run
    · refine ⟨0,?_⟩
      simp only [logmatch,if_neg more]
      exact .nil _

end Alone

def AtMost (n : Nat) (s : System) : Action → Prop
  | .accept => s.saves.length < n
  | _ => True
instance (n s) : (action : Action) → Decidable (AtMost n s action)
  | .accept => Nat.decLt _ _
  | .parse _ | .save _ _ | .logmatch _ _ => .isTrue trivial

structure Supplied (n : Nat) (s : System) : Prop extends NoneDied s where
  saveCount : s.saves.length ≤ n
  matchCount : s.logmatches.length = s.saves.length
  saving : Reserved 10 s.shared.buffers.auditBuffer.items.length savePending s.saves
  matching : Reserved 10 s.shared.buffers.auditBufferHeartbeat.items.length matchPending s.logmatches

theorem startSupplied (n : Nat) (m : Monitor) : Supplied n (start m) :=
  ⟨⟨nofun,nofun⟩,Nat.zero_le n,rfl,.inl rfl,.inl rfl⟩

section Step
variable {now : Hour} {time : Time} {s t : Shared}

theorem saveTakes {own own' : SaveChain} (ok : saveStep now s own = some (t,own'))
    (supply : savePending own = true → 0 < s.buffers.auditBuffer.items.length) :
    SaveAlive own' ∧ t.buffers.auditBufferHeartbeat = s.buffers.auditBufferHeartbeat ∧
    Takes 10 s.buffers.auditBuffer.items.length t.buffers.auditBuffer.items.length savePending
      own own' := by
  cases own with
  | call =>
    simp only [saveStep] at ok
    split at ok
    · cases Option.some.inj ok
      exact ⟨trivial,rfl,nofun,nofun,fun _ _ => rfl⟩
    · cases Option.some.inj ok
      exact ⟨trivial,rfl,nofun,nofun,fun _ _ => rfl⟩
  | test name temp =>
    simp only [saveStep] at ok
    split at ok
    · rename_i more
      cases Option.some.inj ok
      exact ⟨trivial,rfl,fun _ => ⟨rfl,more,rfl⟩,nofun,nofun⟩
    · cases Option.some.inj ok
      exact ⟨trivial,rfl,nofun,nofun,fun _ _ => rfl⟩
  | pop name temp =>
    obtain ⟨result,found⟩ := Deque.nonemptyPops (supply rfl)
    simp only [saveStep,found] at ok
    cases Option.some.inj ok
    refine ⟨trivial,rfl,nofun,fun _ => ?_,nofun⟩
    rw [Deque.popleftItems found]
    rfl
  | opening name temp =>
    cases Option.some.inj ok
    exact ⟨trivial,rfl,nofun,nofun,fun _ _ => rfl⟩
  | writing name temp =>
    cases Option.some.inj ok
    exact ⟨trivial,rfl,nofun,nofun,fun _ _ => rfl⟩
  | died temp => contradiction

theorem matchTakes {own own' : MatchChain} (ok : logmatchStep time s own = some (t,own'))
    (supply : matchPending own = true → 0 < s.buffers.auditBufferHeartbeat.items.length) :
    MatchAlive own' ∧ t.buffers.auditBuffer = s.buffers.auditBuffer ∧
    Takes 10 s.buffers.auditBufferHeartbeat.items.length
      t.buffers.auditBufferHeartbeat.items.length matchPending own own' := by
  cases own with
  | test =>
    simp only [logmatchStep] at ok
    split at ok
    · rename_i more
      cases Option.some.inj ok
      exact ⟨trivial,rfl,fun _ => ⟨rfl,more,rfl⟩,nofun,nofun⟩
    · cases Option.some.inj ok
      exact ⟨trivial,rfl,nofun,nofun,fun _ _ => rfl⟩
  | pop =>
    obtain ⟨result,found⟩ := Deque.nonemptyPops (supply rfl)
    simp only [logmatchStep,found] at ok
    cases Option.some.inj ok
    refine ⟨trivial,rfl,nofun,fun _ => ?_,nofun⟩
    rw [Deque.popleftItems found]
    rfl
  | died => contradiction

end Step

theorem aliveMove {Local : Type} {Alive : Local → Prop} {before after : List Local}
    {own own' : Local} (h : ∀ chain ∈ before ++ own :: after, Alive chain) (mine : Alive own') :
    ∀ chain ∈ before ++ own' :: after, Alive chain := by
  intro chain mem
  rcases List.mem_append.mp mem with front | back
  · exact h chain (List.mem_append_left _ front)
  · rcases List.mem_cons.mp back with rfl | back
    · exact mine
    · exact h chain (List.mem_append_right _ (List.mem_cons_of_mem _ back))

theorem aliveStart {Local : Type} {Alive : Local → Prop} {chains : List Local} {own : Local}
    (h : ∀ chain ∈ chains, Alive chain) (alive : Alive own) :
    ∀ chain ∈ chains ++ [own], Alive chain := by
  intro chain mem
  rcases List.mem_append.mp mem with old | new
  · exact h chain old
  · exact List.mem_singleton.mp new ▸ alive

theorem stepSupplied {n : Nat} (few : n ≤ 11) {s t : System} {action : Action} (h : Supplied n s)
    (room : AtMost n s action) (ok : step s action = some t) : Supplied n t := by
  obtain ⟨⟨saves,logmatches⟩,saveCount,matchCount,saving,matching⟩ := h
  cases action with
  | accept =>
    cases Option.some.inj ok
    have size : s.saves.length < n := room
    refine ⟨⟨aliveStart saves trivial,aliveStart logmatches trivial⟩,?_,?_,
      reservedStart saving rfl,reservedStart matching rfl⟩
    · simp only [List.length_append,List.length_singleton]; omega
    · simp only [List.length_append,List.length_singleton]; omega
  | parse data =>
    cases Option.some.inj ok
    obtain ⟨save,heartbeat,-⟩ := foldedBuffers (logsOf data) s.shared.buffers
    rw [← parsedLogs] at save heartbeat
    refine ⟨⟨saves,logmatches⟩,saveCount,matchCount,?_,?_⟩
    · exact reservedMore saving (save ▸ Deque.appendGrows _ _)
    · exact reservedMore matching (heartbeat ▸ Deque.appendGrows _ _)
  | save index now =>
    obtain ⟨result,acted,rfl⟩ := Option.map_eq_some_iff.mp ok
    obtain ⟨before,after,own,own',m⟩ := moved acted
    have length := movedLength m
    rw [m.threads] at saving saves
    obtain ⟨alive,others,takes⟩ := saveTakes m.step
      (reservedTake saving (m.threads ▸ Nat.le_trans saveCount few))
    refine ⟨⟨?_,logmatches⟩,?_,?_,?_,?_⟩
    · exact m.threads' ▸ aliveMove saves alive
    · exact length ▸ saveCount
    · exact length ▸ matchCount
    · exact m.threads' ▸ reservedMove saving takes
    · exact others ▸ matching
  | logmatch index now =>
    obtain ⟨result,acted,rfl⟩ := Option.map_eq_some_iff.mp ok
    obtain ⟨before,after,own,own',m⟩ := moved acted
    have length := movedLength m
    rw [m.threads] at matching logmatches
    obtain ⟨alive,others,takes⟩ := matchTakes m.step
      (reservedTake matching (m.threads ▸ matchCount ▸ Nat.le_trans saveCount few))
    refine ⟨⟨saves,?_⟩,saveCount,?_,?_,?_⟩
    · exact m.threads' ▸ aliveMove logmatches alive
    · exact length ▸ matchCount
    · exact others ▸ saving
    · exact m.threads' ▸ reservedMove matching takes

theorem fewConnections {n : Nat} (few : n ≤ 11) {m : Monitor} {actions : List Action} {s : System}
    (run : Run (Restrict (AtMost n) (Of step)) (start m) actions s) : NoneDied s := by
  have supplied : Supplied n s := by
    refine invariant ?_ run (startSupplied n m)
    rintro s action t h ⟨room,ok⟩
    exact stepSupplied few h room ok
  exact supplied.toNoneDied

/- Twelve connections and twelve logs. The last chain has taken a log; then all test
the eleven that are left, and the last one to take finds none. -/
def twelveRecords : Text :=
  (List.replicate 12 "audit(1.2:3): cwd=\"/\",node=h\n".toList).flatten

def twelve : List Action :=
  List.replicate 12 .accept ++ [.parse twelveRecords,.save 11 nine,.save 11 nine,.save 11 nine] ++
    (List.range 11).map (Action.save · nine) ++ (List.range 12).map (Action.save · nine) ++
    (List.range 12).map (Action.save · nine)

def idle : Monitor := ⟨[],0,[]⟩

theorem twelveRun : ∃ s, Run (Restrict (AtMost 12) (Of step)) (start idle) twelve s ∧
    s.saves.getLast? = some (.died "node=h type=CWD audit(1.2:3): cwd=\"/\"\n".toList) := by
  have ran : (execWithin (AtMost 12) step (start idle) twelve).map (fun s => s.saves.getLast?) =
      some (some (.died "node=h type=CWD audit(1.2:3): cwd=\"/\"\n".toList)) := by decide +kernel
  obtain ⟨s,ok,last⟩ := Option.map_eq_some_iff.mp ran
  exact ⟨s,execWithinRun ok,last⟩

theorem lastDied {s : System} {temp : Text} (last : s.saves.getLast? = some (.died temp)) :
    ¬ NoneDied s :=
  fun h => h.saves _ (List.mem_of_getLast? last)

theorem consumersSupplied (n : Nat) :
    (∀ m actions s, Run (Restrict (AtMost n) (Of step)) (start m) actions s → NoneDied s) ↔
      n ≤ 11 := by
  constructor
  · intro all
    refine Nat.le_of_not_lt (fun many => ?_)
    obtain ⟨s,run,last⟩ := twelveRun
    refine lastDied last (all idle twelve s (weaken ?_ run))
    rintro s action t ⟨room,ok⟩
    refine ⟨?_,ok⟩
    cases action with
    | accept => exact Nat.lt_of_lt_of_le room many
    | parse data => trivial
    | save index now => trivial
    | logmatch index now => trivial
  · intro few m actions s run
    exact fewConnections few run

theorem twelveConnectionsFail :
    ¬ ∀ m actions s, Run (Of step) (start m) actions s → NoneDied s := by
  intro all
  obtain ⟨s,run,last⟩ := twelveRun
  exact lastDied last (all idle twelve s (unrestrict run))

end TeePa.Consumers
