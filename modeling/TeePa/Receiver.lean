import TeePa.Texts

/-! The log receiver's side of one TCP connection: what it makes of the chunks
recv returns. The deques keep their bound as a field; `appended` is the history
of every string appended, which the bounded deques forget. -/
namespace TeePa.Receiver
open Texts

def formatAuditMsg (auditType msg : Text) : Option Text :=
  if ¬ "audit".toList <:+: msg then none
  else
    let fields := msg.splitOn ','
    some (fields.getLastD [] ++ " type=".toList ++ auditType ++ " ".toList ++ fields.headD [] ++ ['\n'])

def translateAuditLog (rawLog : Text) : Option Text :=
  if "syscall".toList <:+: rawLog then formatAuditMsg "SYSCALL".toList rawLog
  else if "proctitle".toList <:+: rawLog then formatAuditMsg "PROCTITLE".toList rawLog
  else if "saddr".toList <:+: rawLog then formatAuditMsg "SOCKADDR".toList rawLog
  else if "cwd".toList <:+: rawLog then formatAuditMsg "CWD".toList rawLog
  else if "item".toList <:+: rawLog then formatAuditMsg "PATH".toList rawLog
  else if "op=start".toList <:+: rawLog then formatAuditMsg "DAEMON_START".toList rawLog
  else if "op=add_rule".toList <:+: rawLog then formatAuditMsg "CONFIG_CHANGE".toList rawLog
  else none

/- collections.deque(maxlen): appending to a full one drops its oldest item. -/
structure Deque (α : Type) (maxlen : Nat) where
  items : List α
  bounded : items.length ≤ maxlen

namespace Deque
variable {α : Type} {maxlen : Nat}

def empty : Deque α maxlen := ⟨[],Nat.zero_le _⟩

def append (q : Deque α maxlen) (x : α) : Deque α maxlen :=
  ⟨(q.items ++ [x]).drop (q.items.length + 1 - maxlen),by
    simp only [List.length_drop,List.length_append,List.length_cons,List.length_nil]; omega⟩

-- popleft; none where it raises IndexError.
def popleft (q : Deque α maxlen) : Option (α × Deque α maxlen) :=
  q.items.head?.map (fun x => (x,⟨q.items.tail,by
    have := q.bounded; rw [List.length_tail]; omega⟩))

theorem appendItems {q : Deque α maxlen} (x : α) (room : q.items.length < maxlen) :
    (q.append x).items = q.items ++ [x] := by
  simp only [append,show q.items.length + 1 - maxlen = 0 by omega,List.drop_zero]

theorem appendedItems (xs : List α) {q : Deque α maxlen}
    (room : q.items.length + xs.length ≤ maxlen) :
    (xs.foldl append q).items = q.items ++ xs := by
  induction xs generalizing q with
  | nil => simp
  | cons x rest ih =>
    rw [List.length_cons] at room
    have one : (q.append x).items = q.items ++ [x] := appendItems x (by omega)
    have size : (q.append x).items.length = q.items.length + 1 := by simp [one]
    rw [List.foldl_cons,ih (by omega),one,List.append_assoc,List.singleton_append]

theorem appendGrows (xs : List α) (q : Deque α maxlen) :
    q.items.length ≤ (xs.foldl append q).items.length := by
  induction xs generalizing q with
  | nil => exact Nat.le_refl _
  | cons x rest ih =>
    refine Nat.le_trans ?_ (ih (q.append x))
    have bound := q.bounded
    simp only [append,List.length_drop,List.length_append,List.length_singleton]
    omega

theorem popleftItems {q rest : Deque α maxlen} {x : α} (ok : q.popleft = some (x,rest)) :
    q.items = x :: rest.items := by
  obtain ⟨items,bounded⟩ := q
  cases items with
  | nil => cases ok
  | cons head tail => cases Option.some.inj ok; rfl

theorem nonemptyPops {q : Deque α maxlen} (more : 0 < q.items.length) :
    ∃ result, q.popleft = some result := by
  obtain ⟨items,bounded⟩ := q
  cases items with
  | nil => contradiction
  | cons head tail => exact ⟨_,rfl⟩

theorem drained {β : Type} {keep : Nat} {loop : Nat → β → Deque α maxlen → β × Deque α maxlen}
    {f : β → α → β} (done : ∀ acc q, loop 0 acc q = (acc,q))
    (few : ∀ fuel acc q, ¬ q.items.length > keep → loop (fuel+1) acc q = (acc,q))
    (more : ∀ fuel acc q x rest, q.items.length > keep → q.popleft = some (x,rest) →
      loop (fuel+1) acc q = loop fuel (f acc x) rest)
    {fuel : Nat} {acc : β} {q : Deque α maxlen} (enough : q.items.length ≤ fuel + keep) :
    (loop fuel acc q).1 = (q.items.take (q.items.length - keep)).foldl f acc ∧
    (loop fuel acc q).2.items = q.items.drop (q.items.length - keep) := by
  induction fuel generalizing acc q with
  | zero =>
    have none : q.items.length - keep = 0 := by omega
    rw [none,done]
    exact ⟨rfl,rfl⟩
  | succ fuel ih =>
    by_cases excess : q.items.length > keep
    · obtain ⟨⟨x,rest⟩,popped⟩ := nonemptyPops (Nat.zero_lt_of_lt excess)
      have items := popleftItems popped
      have size := congrArg List.length items
      rw [List.length_cons] at size
      have count : q.items.length - keep = (rest.items.length - keep) + 1 := by omega
      rw [more fuel acc q x rest excess popped,count,items,List.take_succ_cons,
        List.drop_succ_cons,List.foldl_cons]
      exact ih (by omega)
    · have none : q.items.length - keep = 0 := by omega
      rw [few fuel acc q excess,none]
      exact ⟨rfl,rfl⟩

end Deque

structure Buffers where
  auditBuffer : Deque Text 1000
  auditBufferHeartbeat : Deque Text 1000
  audit : Deque Text 10000
  appended : List Text

def noLogs : Buffers := ⟨.empty,.empty,.empty,[]⟩

def appendLog (b : Buffers) (auditLog : Text) : Buffers :=
  ⟨b.auditBuffer.append auditLog,b.auditBufferHeartbeat.append auditLog,b.audit.append auditLog,
    b.appended ++ [auditLog]⟩

def parseLine (b : Buffers) (d : Text) : Buffers := match translateAuditLog d with
  | none => b
  | some auditLog => appendLog b auditLog

def parseEventLog (data : Text) (b : Buffers) : Buffers := (splitlines data).foldl parseLine b

/- What one call of client.recv gives the thread: bytes, or an exception such as
the timeout. An empty chunk is the end of the stream. -/
inductive Received where
  | data (bytes : Bytes)
  | failure
  deriving DecidableEq, Repr

structure Connection where
  buffers : Buffers
  closed : Bool

-- One except clause ends the loop: a bad chunk, an empty one and a failure alike.
def listenToClient (b : Buffers) : List Received → Connection
  | [] => ⟨b,false⟩
  | .failure::_ => ⟨b,true⟩
  | .data bytes::rest => match decode bytes with
    | none => ⟨b,true⟩
    | some data => if data.length = 0 then ⟨b,true⟩ else listenToClient (parseEventLog data b) rest

def logsOf (data : Text) : List Text := keptLines translateAuditLog data

theorem parsedLogs (data : Text) (b : Buffers) :
    parseEventLog data b = (logsOf data).foldl appendLog b := by
  have general : ∀ (lines : List Text) (b : Buffers),
      lines.foldl parseLine b = (lines.filterMap translateAuditLog).foldl appendLog b := by
    intro lines
    induction lines with
    | nil => intro b; simp only [List.foldl_nil,List.filterMap_nil]
    | cons d rest ih =>
      intro b
      rw [List.foldl_cons,ih,parseLine]
      cases found : translateAuditLog d with
      | none => rw [List.filterMap_cons_none found]
      | some auditLog => rw [List.filterMap_cons_some found,List.foldl_cons]
  exact general (splitlines data) b

theorem foldedAppended (logs : List Text) (b : Buffers) :
    (logs.foldl appendLog b).appended = b.appended ++ logs := by
  induction logs generalizing b with
  | nil => simp
  | cons auditLog rest ih => rw [List.foldl_cons,ih]; simp [appendLog]

theorem parsedAppended (data : Text) (b : Buffers) :
    (parseEventLog data b).appended = b.appended ++ logsOf data := by
  rw [parsedLogs,foldedAppended]

theorem foldedBuffers (logs : List Text) (b : Buffers) :
    (logs.foldl appendLog b).auditBuffer = logs.foldl Deque.append b.auditBuffer ∧
    (logs.foldl appendLog b).auditBufferHeartbeat = logs.foldl Deque.append b.auditBufferHeartbeat ∧
    (logs.foldl appendLog b).audit = logs.foldl Deque.append b.audit := by
  induction logs generalizing b with
  | nil => exact ⟨rfl,rfl,rfl⟩
  | cons auditLog rest ih => simp only [List.foldl_cons,ih,appendLog,and_self]

def chunkLogs : List Bytes → List Text
  | [] => []
  | chunk::rest => match decode chunk with
    | none => []
    | some data => if data.length = 0 then [] else logsOf data ++ chunkLogs rest

theorem listenedAppended (chunks : List Bytes) (b : Buffers) :
    (listenToClient b (chunks.map .data)).buffers.appended = b.appended ++ chunkLogs chunks := by
  induction chunks generalizing b with
  | nil => simp [listenToClient,chunkLogs]
  | cons chunk rest ih =>
    rw [List.map_cons,listenToClient,chunkLogs]
    cases decode chunk with
    | none => simp
    | some data =>
      dsimp only
      split
      · simp
      · rw [ih,parsedAppended,List.append_assoc]

theorem translateNothing : translateAuditLog [] = none := by decide

theorem newlineLogs (text rest : Text) :
    logsOf (text ++ '\n'::rest) = logsOf text ++ logsOf rest :=
  keptNewline translateNothing text rest

/- The same chain as a table: the first keyword that occurs gives the type. -/
def auditTypes : List (Text × Text) :=
  [("syscall".toList,"SYSCALL".toList),("proctitle".toList,"PROCTITLE".toList),
    ("saddr".toList,"SOCKADDR".toList),("cwd".toList,"CWD".toList),("item".toList,"PATH".toList),
    ("op=start".toList,"DAEMON_START".toList),("op=add_rule".toList,"CONFIG_CHANGE".toList)]

def selectFrom (types : List (Text × Text)) (rawLog : Text) : Option Text :=
  (types.find? (fun entry => entry.1 <:+: rawLog)).map Prod.snd

def selectType (rawLog : Text) : Option Text := selectFrom auditTypes rawLog

theorem selectCons (keyword auditType : Text) (rest : List (Text × Text)) (rawLog : Text) :
    selectFrom ((keyword,auditType)::rest) rawLog =
      if keyword <:+: rawLog then some auditType else selectFrom rest rawLog := by
  rw [selectFrom,List.find?_cons]
  by_cases found : keyword <:+: rawLog
  · simp only [decide_eq_true found,Option.map_some,if_pos found]
  · simp only [decide_eq_false found,if_neg found]
    rfl

def translateFrom (rawLog : Text) : List (Text × Text) → Option Text
  | [] => none
  | entry::rest =>
      if entry.1 <:+: rawLog then formatAuditMsg entry.2 rawLog else translateFrom rawLog rest

theorem translateFromSelected (rawLog : Text) (types : List (Text × Text)) :
    translateFrom rawLog types =
      (selectFrom types rawLog).bind (fun t => formatAuditMsg t rawLog) := by
  induction types with
  | nil => rfl
  | cons entry rest ih =>
    rw [translateFrom,selectCons entry.1 entry.2]
    split
    · rfl
    · exact ih

theorem translateSelected (rawLog : Text) :
    translateAuditLog rawLog = (selectType rawLog).bind (fun t => formatAuditMsg t rawLog) :=
  translateFromSelected rawLog auditTypes

def Translatable (rawLog : Text) : Prop :=
  "audit".toList <:+: rawLog ∧ ∃ entry ∈ auditTypes, entry.1 <:+: rawLog

theorem formatSome (auditType msg : Text) :
    (formatAuditMsg auditType msg).isSome ↔ "audit".toList <:+: msg := by
  unfold formatAuditMsg
  split <;> simp_all

theorem translateSome (rawLog : Text) :
    (translateAuditLog rawLog).isSome ↔ Translatable rawLog := by
  rw [translateSelected,selectType,selectFrom,Translatable]
  cases found : auditTypes.find? (fun entry => entry.1 <:+: rawLog) with
  | none =>
    have absent := List.find?_eq_none.mp found
    simp only [Option.map_none,Option.bind_none,Option.isSome_none,Bool.false_eq_true,false_iff]
    rintro ⟨-,entry,mem,inside⟩
    exact absent entry mem (by simpa using inside)
  | some entry =>
    have inside : entry.1 <:+: rawLog := by simpa using List.find?_some found
    simp only [Option.map_some,Option.bind_some,formatSome]
    exact ⟨fun audit => ⟨audit,entry,List.mem_of_find?_eq_some found,inside⟩,fun h => h.1⟩

theorem translateNone {rawLog : Text} : translateAuditLog rawLog = none ↔ ¬ Translatable rawLog := by
  rw [← translateSome]
  cases translateAuditLog rawLog <;> simp

theorem translatableInfix {piece line : Text} (inside : piece <:+: line)
    (h : Translatable piece) : Translatable line := by
  obtain ⟨audit,entry,mem,keyword⟩ := h
  exact ⟨audit.trans inside,entry,mem,keyword.trans inside⟩

/- The kernel ends a record with ',node=' and the host name. -/
theorem splitNode (b : Text) {h : Text} (noComma : ',' ∉ h) :
    (b ++ ",node=".toList ++ h).splitOn ',' = b.splitOn ',' ++ ["node=".toList ++ h] := by
  have suffix : ',' ∉ "node=".toList ++ h := by
    intro mem
    rcases List.mem_append.mp mem with label | host
    · exact absurd label (by decide)
    · exact noComma host
  have shape : b ++ ",node=".toList ++ h = b ++ ',' :: ("node=".toList ++ h) := by simp
  rw [shape,List.splitOn_append_cons_self,List.splitOn_eq_singleton suffix]

theorem translateNode {b h T : Text} (noComma : ',' ∉ h) (audit : "audit".toList <:+: b)
    (selected : selectType (b ++ ",node=".toList ++ h) = some T) :
    translateAuditLog (b ++ ",node=".toList ++ h) = some ("node=".toList ++ h ++
      " type=".toList ++ T ++ " ".toList ++ (b.splitOn ',').headD [] ++ ['\n']) := by
  have whole : "audit".toList <:+: b ++ ",node=".toList ++ h := by
    rw [List.append_assoc]
    exact audit.trans List.infix_append_left
  have front : (b.splitOn ',' ++ ["node=".toList ++ h]).headD [] = (b.splitOn ',').headD [] := by
    cases split : b.splitOn ',' with
    | nil => exact absurd split (List.splitOn_ne_nil _ _)
    | cons head tail => rfl
  have last : (b.splitOn ',' ++ ["node=".toList ++ h]).getLastD [] = "node=".toList ++ h := by
    rw [List.getLastD_eq_getLast?,List.getLast?_append]; rfl
  rw [translateSelected,selected,Option.bind_some,formatAuditMsg,if_neg (not_not_intro whole)]
  simp only [splitNode b noComma,front,last]

theorem bodyComplete {b h T : Text} (noComma : ',' ∉ h) (audit : "audit".toList <:+: b)
    (selected : selectType (b ++ ",node=".toList ++ h) = some T) :
    translateAuditLog (b ++ ",node=".toList ++ h) =
      some ("node=".toList ++ h ++ " type=".toList ++ T ++ " ".toList ++ b ++ ['\n']) ↔
    ',' ∉ b := by
  rw [translateNode noComma audit selected]
  constructor
  · intro same comma
    have equal := List.append_cancel_left (List.append_cancel_right (Option.some.inj same))
    obtain ⟨front,back,rfl,fresh⟩ := List.eq_append_cons_of_mem comma
    rw [List.splitOn_append_cons_self_of_not_mem fresh] at equal
    have lengths := congrArg List.length equal
    simp at lengths
  · intro free
    rw [List.splitOn_eq_singleton free]
    rfl

theorem bodyCompletePlain : translateAuditLog
      ("audit(1.2:3): cwd=\"/tmp\"".toList ++ ",node=".toList ++ "h".toList) =
    some ("node=".toList ++ "h".toList ++ " type=".toList ++ "CWD".toList ++ " ".toList ++
      "audit(1.2:3): cwd=\"/tmp\"".toList ++ ['\n']) :=
  (bodyComplete (by decide) (by decide +kernel) (by decide +kernel)).mpr (by decide +kernel)

def commaBody : Text := "audit(1.2:3): cwd=\"/a,b\"".toList

theorem commaDropsBody :
    selectType (commaBody ++ ",node=".toList ++ "h".toList) = some "CWD".toList ∧
    translateAuditLog (commaBody ++ ",node=".toList ++ "h".toList) =
      some "node=h type=CWD audit(1.2:3): cwd=\"/a\n".toList ∧
    translateAuditLog (commaBody ++ ",node=".toList ++ "h".toList) ≠
      some ("node=".toList ++ "h".toList ++ " type=".toList ++ "CWD".toList ++ " ".toList ++
        commaBody ++ ['\n']) := by
  refine ⟨?_,?_,?_⟩
  · decide +kernel
  · decide +kernel
  · decide +kernel

end TeePa.Receiver
