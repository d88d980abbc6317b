import TeePa.Heartbeat

/-! Runs of the receiver's side of the heartbeat: data arrives, and passes of
logmatch examine it against a list of tasks. A title flags a task where it occurs
in the task's command, so a piece of the command without the token is enough. -/
namespace TeePa.TokenRuns
open Texts Receiver Heartbeat Runs

def shapes : List (Text × Text) :=
  [("ps ".toList,[]),("touch /tmp/".toList,";optee_example_watchdog".toList)]

def Issued (command : Text) (token : Token) : Prop :=
  ∃ shape ∈ shapes, command = shape.1 ++ token.digits ++ shape.2

theorem issuedKey (token : Token) : Issued (keyCommand token) token :=
  ⟨("ps ".toList,[]),List.mem_cons_self,(List.append_nil _).symm⟩

theorem issuedRenew (token : Token) : Issued (renewCommand token) token :=
  ⟨("touch /tmp/".toList,";optee_example_watchdog".toList),by simp [shapes],rfl⟩

def Fragment (title command : Text) (token : Token) : Prop :=
  ∃ shape ∈ shapes, command = shape.1 ++ token.digits ++ shape.2 ∧
    (title <:+: shape.1 ++ token.digits.dropLast ∨ title <:+: token.digits.tail ++ shape.2)

theorem tokenSome (token : Token) : token.digits ≠ [] := by
  intro none
  have size := token.size
  rw [none] at size
  contradiction

theorem tokenLong {token : Token} {t : Text} (inside : token.digits <:+: t) : 32 ≤ t.length :=
  token.size ▸ inside.length_le

theorem notDigit {c : Char} (token : Token) (other : isTokenDigit c = false) :
    c ∉ token.digits := by
  intro mem
  rw [token.hex c mem] at other
  contradiction

/- Neither side of the command is long enough for the token, and a character that
is no digit ends each. -/
theorem tokenBefore (token : Token) {shape : Text × Text} (mem : shape ∈ shapes) :
    ¬ token.digits <:+: shape.1 ++ token.digits.dropLast := by
  have short : (token.digits.dropLast).length = 31 := by rw [List.length_dropLast,token.size]
  have side : ∀ {front : Text} {c : Char}, front.length < 32 → isTokenDigit c = false →
      ¬ token.digits <:+: front ++ c :: token.digits.dropLast := by
    intro front c few other inside
    rcases pieceSide (notDigit token other) inside with before | behind
    · have := tokenLong before; omega
    · have := tokenLong behind; omega
  simp only [shapes,List.mem_cons,List.not_mem_nil,or_false] at mem
  rcases mem with rfl | rfl
  · exact @side ['p','s'] ' ' (by decide) (by decide)
  · exact @side ['t','o','u','c','h',' ','/','t','m','p'] '/' (by decide) (by decide)

theorem tokenBehind (token : Token) {shape : Text × Text} (mem : shape ∈ shapes) :
    ¬ token.digits <:+: token.digits.tail ++ shape.2 := by
  have short : (token.digits.tail).length = 31 := by rw [List.length_tail,token.size]
  simp only [shapes,List.mem_cons,List.not_mem_nil,or_false] at mem
  intro inside
  rcases mem with rfl | rfl
  · have := tokenLong inside
    rw [List.append_nil] at this
    omega
  · rcases @pieceSide _ _ _ "optee_example_watchdog".toList ';' (notDigit token (by decide))
      inside with before | behind
    · have := tokenLong before; omega
    · exact absurd (tokenLong behind) (by decide)

theorem titleCarries {title command : Text} {token : Token} (issued : Issued command token)
    (occurs : title <:+: command) :
    token.digits <:+: title ↔ ¬ Fragment title command token := by
  constructor
  · rintro carried ⟨shape,mem,-,before | behind⟩
    · exact tokenBefore token mem (carried.trans before)
    · exact tokenBehind token mem (carried.trans behind)
  · obtain ⟨shape,mem,rfl⟩ := issued
    intro whole
    rcases pieceParts (tokenSome token) occurs with carried | before | behind
    · exact carried
    · exact absurd ⟨shape,mem,rfl,.inl before⟩ whole
    · exact absurd ⟨shape,mem,rfl,.inr behind⟩ whole

structure System where
  buffers : Buffers
  monitor : Monitor

inductive Action where
  | receive (data : Text)
  | logmatch (now : Time)
  deriving DecidableEq, Repr

def start (tasks : List Task) : System := ⟨noLogs,⟨tasks,tasks.length,[]⟩⟩

def step (s : System) : Action → Option System
  | .receive data => some {s with buffers := parseEventLog data s.buffers}
  | .logmatch now =>
      let buffer := s.buffers.auditBufferHeartbeat
      let examined := logmatch now buffer.items.length buffer s.monitor
      some ⟨{s.buffers with auditBufferHeartbeat := examined.1},examined.2⟩

def nextTitles (s : System) : List Text :=
  let items := s.buffers.auditBufferHeartbeat.items
  (items.take (items.length - 10)).filterMap decodedTitle

def Carried (s : System) : Action → Prop
  | .receive _ => True
  | .logmatch _ => ∀ title ∈ nextTitles s, ∀ t ∈ s.monitor.executingTasks, ∀ token,
      Issued t.executeCmd token → ¬ Fragment title t.executeCmd token

def titleOf : Event → Option Text
  | .examined title _ => some title
  | _ => none

def examinedTitles (m : Monitor) : List Text := m.history.filterMap titleOf

def flagBy (titles : List Text) (t : Task) : Task :=
  {t with heartbeatCheck := t.heartbeatCheck || titles.any (fun title => title <:+: t.executeCmd)}

theorem flagNothing : flagBy [] = id := by
  funext t
  simp [flagBy]

theorem flagTwice (first second : List Text) :
    flagBy second ∘ flagBy first = flagBy (first ++ second) := by
  funext t
  simp only [Function.comp_apply,flagBy,List.any_append,Bool.or_assoc]
  rfl

theorem markFlagBy (title : Text) (tasks : List Task) :
    markTasks title tasks = tasks.map (flagBy [title]) := by
  apply List.map_congr_left
  intro t _
  by_cases occurs : title <:+: t.executeCmd
  · simp [flagBy,occurs]
  · simp [flagBy,occurs]

/- The tasks are the ones at the start with the flags the examined titles give,
and each of those titles met the condition. -/
structure Flagged (tasks : List Task) (s : System) : Prop where
  flags : s.monitor.executingTasks = tasks.map (flagBy (examinedTitles s.monitor))
  carried : ∀ title ∈ examinedTitles s.monitor, ∀ t ∈ tasks, ∀ token,
    Issued t.executeCmd token → ¬ Fragment title t.executeCmd token

section Examine
variable {α : Type} (auditLog : α → Text) (now : α → Time)

theorem foldedFlags (logs : List α) (m : Monitor) :
    (logs.foldl (fun m l => examine (auditLog l) (now l) m) m).executingTasks =
      m.executingTasks.map (flagBy (logs.filterMap (fun l => decodedTitle (auditLog l)))) := by
  induction logs generalizing m with
  | nil => simp only [List.foldl_nil,List.filterMap_nil,flagNothing,List.map_id]
  | cons l rest ih =>
    rw [List.foldl_cons,ih,examine]
    cases found : decodedTitle (auditLog l) with
    | none => simp only [List.filterMap_cons,found]
    | some title =>
      simp only [List.filterMap_cons,found,markFlagBy,List.map_map,flagTwice,
        List.singleton_append]

theorem foldedTitles (logs : List α) (m : Monitor) :
    examinedTitles (logs.foldl (fun m l => examine (auditLog l) (now l) m) m) =
      examinedTitles m ++ logs.filterMap (fun l => decodedTitle (auditLog l)) := by
  induction logs generalizing m with
  | nil => exact (List.append_nil _).symm
  | cons l rest ih =>
    rw [List.foldl_cons,ih,examine]
    cases found : decodedTitle (auditLog l) with
    | none => simp only [List.filterMap_cons,found]
    | some title => simp [examinedTitles,titleOf,found]

end Examine

theorem logmatchFlagged {tasks : List Task} {s s' : System} {now : Time} (h : Flagged tasks s)
    (allowed : Carried s (.logmatch now)) (ok : step s (.logmatch now) = some s') :
    Flagged tasks s' ∧
      examinedTitles s'.monitor = examinedTitles s.monitor ++ nextTitles s := by
  cases Option.some.inj ok
  have pass := (@logmatchExamines now _ s.buffers.auditBufferHeartbeat s.monitor
    (Nat.le_add_right _ 10)).2
  have flags := foldedFlags id (fun _ => now) (s.buffers.auditBufferHeartbeat.items.take
    (s.buffers.auditBufferHeartbeat.items.length - 10)) s.monitor
  have titles := foldedTitles id (fun _ => now) (s.buffers.auditBufferHeartbeat.items.take
    (s.buffers.auditBufferHeartbeat.items.length - 10)) s.monitor
  simp only [id] at flags titles
  refine ⟨⟨?_,?_⟩,?_⟩ <;> dsimp only <;> rw [pass]
  · rw [flags,titles,h.flags,List.map_map,flagTwice]
  · intro title mem t inside token issued
    rw [titles] at mem
    rcases List.mem_append.mp mem with old | new
    · exact h.carried title old t inside token issued
    · refine allowed title new (flagBy (examinedTitles s.monitor) t) ?_ token issued
      rw [h.flags]
      exact List.mem_map_of_mem inside
  · exact titles

theorem stepFlagged {tasks : List Task} {s s' : System} {action : Action} (h : Flagged tasks s)
    (allowed : Carried s action) (ok : step s action = some s') : Flagged tasks s' := by
  cases action with
  | receive data =>
    cases Option.some.inj ok
    exact ⟨h.flags,h.carried⟩
  | logmatch now => exact (logmatchFlagged h allowed ok).1

theorem startFlagged (tasks : List Task) : Flagged tasks (start tasks) := by
  refine ⟨?_,fun title mem => by simp [start,examinedTitles] at mem⟩
  simp [start,examinedTitles,flagNothing]

theorem tokenRenews {tasks actions s}
    (run : Run (Restrict Carried (Of step)) (start tasks) actions s) {index : Nat} {t : Task}
    {token : Token} (at_ : tasks[index]? = some t) (unflagged : t.heartbeatCheck = false)
    (issued : Issued t.executeCmd token) :
    ∃ t', s.monitor.executingTasks[index]? = some t' ∧ t'.executeCmd = t.executeCmd ∧
      (t'.heartbeatCheck = true → ∃ title ∈ examinedTitles s.monitor, token.digits <:+: title) ∧
      ∀ title ∈ examinedTitles s.monitor, title <:+: t.executeCmd → token.digits <:+: title := by
  have preserved : ∀ s action s', Flagged tasks s → Restrict Carried (Of step) s action s' →
      Flagged tasks s' := fun s action s' h moved => stepFlagged h moved.1 moved.2
  have flagged := invariant preserved run (startFlagged tasks)
  have carries : ∀ title ∈ examinedTitles s.monitor, title <:+: t.executeCmd →
      token.digits <:+: title := fun title mem occurs =>
    (titleCarries issued occurs).mpr
      (flagged.carried title mem t (List.mem_of_getElem? at_) token issued)
  refine ⟨flagBy (examinedTitles s.monitor) t,?_,rfl,?_,carries⟩
  · rw [flagged.flags,List.getElem?_map,at_]; rfl
  · intro flag
    simp only [flagBy,unflagged,Bool.false_or,List.any_eq_true,decide_eq_true_eq] at flag
    obtain ⟨title,mem,occurs⟩ := flag
    exact ⟨title,mem,carries title mem occurs⟩

def titleRecord (hex : Text) : Text :=
  "audit(1.0:1): proctitle=".toList ++ hex ++ ",node=h\n".toList

def titleLog (hex : Text) : Text :=
  "node=h type=PROCTITLE audit(1.0:1): proctitle=".toList ++ hex ++ ['\n']

def eleven (hex : Text) : List Action :=
  [.receive (List.replicate 11 (titleRecord hex)).flatten,.logmatch 0]

def heldLogs (s : System) : List Text := s.buffers.auditBufferHeartbeat.items

theorem elevenExamine {s s' : System} {auditLog title : Text}
    (buffered : heldLogs s = List.replicate 11 auditLog)
    (decoded : decodedTitle auditLog = some title) (ok : step s (.logmatch 0) = some s') :
    nextTitles s = [title] ∧ s'.monitor = {s.monitor with
      executingTasks := markTasks title s.monitor.executingTasks
      history := s.monitor.history ++ [.examined title 0]} := by
  have one : s.buffers.auditBufferHeartbeat.items.take
      (s.buffers.auditBufferHeartbeat.items.length - 10) = [auditLog] := by
    rw [← heldLogs,buffered]; rfl
  constructor
  · simp [nextTitles,one,decoded]
  · cases Option.some.inj ok
    dsimp only
    rw [(@logmatchExamines 0 _ s.buffers.auditBufferHeartbeat s.monitor (Nat.le_add_right _ 10)).2,
      one,List.foldl_cons,List.foldl_nil,examine,decoded]

def waiting : Task := ⟨0,0,seconds 180,"a".toList,keyCommand zeros,false⟩

-- The whole command, and its first three characters, as the kernel writes them.
def commandHex : Text := "707320".toList ++ (List.replicate 32 "30".toList).flatten
def prefixHex : Text := "707320".toList

theorem commandBuffered : (step (start [waiting])
    (.receive (List.replicate 11 (titleRecord commandHex)).flatten)).map heldLogs =
      some (List.replicate 11 (titleLog commandHex)) := by
  decide +kernel

theorem prefixBuffered : (step (start [waiting])
    (.receive (List.replicate 11 (titleRecord prefixHex)).flatten)).map heldLogs =
      some (List.replicate 11 (titleLog prefixHex)) := by
  decide +kernel

theorem receiveMonitor {s s' : System} {data : Text} (ok : step s (.receive data) = some s') :
    s'.monitor = s.monitor := by
  cases Option.some.inj ok
  rfl

theorem stepsHeld {s s' : System} {action : Action} {logs : List Text} (ok : step s action = some s')
    (held : (step s action).map heldLogs = some logs) : heldLogs s' = logs := by
  rw [ok,Option.map_some] at held
  exact Option.some.inj held

theorem stepEnabled (s : System) (action : Action) : ∃ s', step s action = some s' := by
  cases action with
  | receive data => exact ⟨_,rfl⟩
  | logmatch now => exact ⟨_,rfl⟩

theorem commandDecoded : decodedTitle (titleLog commandHex) = some (keyCommand zeros) := by
  have hex : a2bHex (strip ((titleLog commandHex).drop (36 + proctitle.length))) =
      some (encode (keyCommand zeros)) := by decide +kernel
  rw [decodedHex (by decide +kernel) (by decide +kernel) hex]
  decide +kernel

theorem prefixDecoded : decodedTitle (titleLog prefixHex) = some "ps ".toList := by
  have hex : a2bHex (strip ((titleLog prefixHex).drop (36 + proctitle.length))) =
      some (encode "ps ".toList) := by decide +kernel
  rw [decodedHex (by decide +kernel) (by decide +kernel) hex]
  decide +kernel

theorem tokenRenewsCommand : ∃ s, Run (Restrict Carried (Of step)) (start [waiting])
      (eleven commandHex) s ∧
    ∃ t', s.monitor.executingTasks[0]? = some t' ∧ t'.executeCmd = waiting.executeCmd ∧
      (t'.heartbeatCheck = true →
        ∃ title ∈ examinedTitles s.monitor, zeros.digits <:+: title) ∧
      ∀ title ∈ examinedTitles s.monitor, title <:+: waiting.executeCmd →
        zeros.digits <:+: title := by
  obtain ⟨received,first⟩ := stepEnabled (start [waiting])
    (.receive (List.replicate 11 (titleRecord commandHex)).flatten)
  obtain ⟨s,second⟩ := stepEnabled received (.logmatch 0)
  have allowed : Carried received (.logmatch 0) := by
    intro title mem t inside token issued
    rw [(elevenExamine (stepsHeld first commandBuffered) commandDecoded second).1] at mem
    rw [receiveMonitor first] at inside
    have own : t = waiting := List.mem_singleton.mp inside
    rw [own] at issued ⊢
    rw [List.mem_singleton.mp mem]
    have carries := titleCarries issued (List.infix_refl (keyCommand zeros))
    obtain ⟨shape,-,same⟩ := issued
    exact carries.mp ⟨shape.1,shape.2,same.symm⟩
  have run : Run (Restrict Carried (Of step)) (start [waiting]) (eleven commandHex) s :=
    .cons ⟨trivial,first⟩ (.cons ⟨allowed,second⟩ (.nil s))
  exact ⟨s,run,@tokenRenews [waiting] _ s run 0 waiting zeros rfl rfl (issuedKey zeros)⟩

theorem fragmentRenews : ∃ s, Run (Of step) (start [waiting]) (eleven prefixHex) s ∧
    s.monitor.executingTasks = [{waiting with heartbeatCheck := true}] ∧
    Issued waiting.executeCmd zeros ∧ examinedTitles s.monitor = ["ps ".toList] ∧
    ¬ ∃ title ∈ examinedTitles s.monitor, zeros.digits <:+: title := by
  obtain ⟨received,first⟩ := stepEnabled (start [waiting])
    (.receive (List.replicate 11 (titleRecord prefixHex)).flatten)
  obtain ⟨s,second⟩ := stepEnabled received (.logmatch 0)
  have after := (elevenExamine (stepsHeld first prefixBuffered) prefixDecoded second).2
  rw [receiveMonitor first] at after
  have titles : examinedTitles s.monitor = ["ps ".toList] := by
    rw [after]
    decide +kernel
  refine ⟨s,.cons first (.cons second (.nil s)),?_,issuedKey zeros,titles,?_⟩
  · rw [after]
    decide +kernel
  · rw [titles]
    decide +kernel

end TeePa.TokenRuns
