import TeePa.Receiver
import TeePa.Runs

/-! The receiver's monitoring of its devices: the tasks, the logs that answer
them, and the pass that renews and expires them. A task is a Python object, so it
has an identity of its own; equality compares its fields. Readings of the clock,
random tokens and the outcomes of SSH are inputs. -/
namespace TeePa.Heartbeat
open Texts Receiver Runs

-- Microseconds, the resolution of datetime.
abbrev Time := Int
def seconds (n : Int) : Time := n * 1000000

def isTokenDigit (c : Char) : Bool :=
  (0x30 ≤ c.toNat ∧ c.toNat ≤ 0x39) ∨ (0x61 ≤ c.toNat ∧ c.toNat ≤ 0x66)

-- What secrets.token_hex(16) can return.
structure Token where
  digits : Text
  hex : ∀ c ∈ digits, isTokenDigit c = true
  size : digits.length = 32
  deriving DecidableEq, Repr

def repeated (c : Char) (digit : isTokenDigit c = true) : Token :=
  ⟨List.replicate 32 c,fun _ mem => List.eq_of_mem_replicate mem ▸ digit,List.length_replicate⟩

def zeros : Token := repeated '0' (by decide)
def ones : Token := repeated '1' (by decide)

structure Task where
  ref : Nat
  createTime : Time
  expireTime : Time
  ipAddress : Text
  executeCmd : Text
  heartbeatCheck : Bool
  deriving DecidableEq, Repr

-- The generated __eq__ of the dataclass.
def equalFields (a b : Task) : Bool :=
  a.createTime = b.createTime ∧ a.expireTime = b.expireTime ∧ a.ipAddress = b.ipAddress ∧
    a.executeCmd = b.executeCmd ∧ a.heartbeatCheck = b.heartbeatCheck

theorem equalItself (i : Task) : equalFields i i = true := by simp [equalFields]

/- SSH gives a result, an SSHException, or an error the code does not catch. -/
inductive SshOutcome where
  | success
  | sshException
  | osError
  deriving DecidableEq, Repr

inductive Event where
  | executed (clientIp user password command : Text) (outcome : SshOutcome)
  | given (ref : Nat) (executeCmd : Text)
  | examined (title : Text) (now : Time)
  deriving DecidableEq, Repr

structure Monitor where
  executingTasks : List Task
  created : Nat
  history : List Event
  deriving DecidableEq, Repr

structure Visit where
  token : Token
  renewNow : Time
  checkNow : Time
  ssh : SshOutcome
  deriving DecidableEq, Repr

def keyCommand (token : Token) : Text := "ps ".toList ++ token.digits

def renewCommand (token : Token) : Text :=
  "touch /tmp/".toList ++ token.digits ++ ";optee_example_watchdog".toList

def proctitle : Text := "proctitle=".toList

/- The title of a log, as logmatch reads it; none where there is no title field.
The fallback is the stripped field itself. -/
def decodedTitle (auditLog : Text) : Option Text :=
  if proctitle <:+: auditLog then
    let idx := (find proctitle auditLog).getD 0
    let auditProctilte := strip (auditLog.drop (idx + proctitle.length))
    match (a2bHex auditProctilte).bind decode with
    | some executeCmd => some (replace '\x00' ' ' executeCmd)
    | none => some auditProctilte
  else none

def markTasks (title : Text) (tasks : List Task) : List Task :=
  tasks.map (fun i => if title <:+: i.executeCmd then {i with heartbeatCheck := true} else i)

def examine (auditLog : Text) (now : Time) (m : Monitor) : Monitor := match decodedTitle auditLog with
  | none => m
  | some title => {m with
      executingTasks := markTasks title m.executingTasks
      history := m.history ++ [.examined title now]}

-- One call of logmatch; every round takes a log, so the count bounds the rounds.
def logmatch (now : Time) : Nat → Deque Text 1000 → Monitor → Deque Text 1000 × Monitor
  | 0, buffer, m => (buffer,m)
  | fuel+1, buffer, m =>
      if buffer.items.length > 10 then match buffer.popleft with
        | none => (buffer,m)
        | some (auditLog,rest) => logmatch now fuel rest (examine auditLog now m)
      else (buffer,m)

def registerTask (targetIp command : Text) (now : Time) (m : Monitor) : Monitor :=
  {executingTasks := m.executingTasks ++
      [⟨m.created,now,now + seconds 180,targetIp,command,false⟩]
   created := m.created + 1
   history := m.history ++ [.given m.created command]}

-- Whether it returns: an SSHException is caught, any other error leaves it.
def executeCommand (clientIp user password command : Text) (ssh : SshOutcome) (m : Monitor) :
    Bool × Monitor :=
  (ssh ≠ .osError,{m with history := m.history ++ [.executed clientIp user password command ssh]})

def assign (index : Nat) (i : Task) (m : Monitor) : Monitor :=
  {m with executingTasks := m.executingTasks.set index i}

def updatedTask (v : Visit) (index : Nat) (i : Task) (m : Monitor) : Bool × Task × Monitor :=
  let cleared := {i with heartbeatCheck := false}
  let command := renewCommand v.token
  let issued := executeCommand i.ipAddress "root".toList "toor".toList command v.ssh
    (assign index cleared m)
  match issued.1 with
  | false => (false,cleared,issued.2)
  | true =>
      let renewed := {cleared with expireTime := v.renewNow + seconds 15,executeCmd := command}
      let m := assign index renewed issued.2
      (true,renewed,{m with history := m.history ++ [.given i.ref command]})

/- list.remove takes out the first task with the same fields. -/
def remove (i : Task) (m : Monitor) : Option Task × Monitor :=
  (m.executingTasks.find? (equalFields i),
    {m with executingTasks := m.executingTasks.eraseP (equalFields i)})

theorem foundErased {α : Type} (p : α → Bool) (xs : List α) :
    (xs.eraseP p ++ (xs.find? p).toList).Perm xs := by
  induction xs with
  | nil => exact .nil
  | cons x xs ih =>
    cases holds : p x with
    | true =>
      rw [List.eraseP_cons_of_pos holds,List.find?_cons_of_pos holds]
      exact List.perm_append_singleton x xs
    | false =>
      have fails : ¬ p x = true := by rw [holds]; exact nofun
      rw [List.eraseP_cons_of_neg fails,List.find?_cons_of_neg fails]
      exact ih.cons x

theorem removeVictim (i : Task) (m : Monitor) :
    ((remove i m).2.executingTasks ++ (remove i m).1.toList).Perm m.executingTasks :=
  foundErased (equalFields i) m.executingTasks

def expire (v : Visit) (i : Task) (m : Monitor) : Option Task × Monitor :=
  if i.expireTime ≤ v.checkNow then remove i m else (none,m)

/- One round of check_expire: the state it began in, the task it found, the one it
took out, whether an exception left it, and the state after it. -/
structure Round where
  before : Monitor
  found : Task
  removed : Option Task
  raised : Bool
  after : Monitor
  deriving DecidableEq, Repr

def visit (v : Visit) (index : Nat) (i : Task) (m : Monitor) : Round :=
  if i.heartbeatCheck then
    let updated := updatedTask v index i m
    match updated.1 with
    | false => ⟨m,i,none,true,updated.2.2⟩
    | true =>
        let expired := expire v updated.2.1 updated.2.2
        ⟨m,i,expired.1,false,expired.2⟩
  else
    let expired := expire v i m
    ⟨m,i,expired.1,false,expired.2⟩

/- The loop goes over a list that it shortens, by index. -/
def rounds (env : Nat → Visit) : Nat → Nat → Monitor → List Round
  | 0, _, _ => []
  | fuel+1, index, m => match m.executingTasks[index]? with
    | none => []
    | some i =>
        let round := visit (env index) index i m
        if round.raised then [round] else round :: rounds env fuel (index+1) round.after

def checkRounds (env : Nat → Visit) (m : Monitor) : List Round :=
  rounds env m.executingTasks.length 0 m

def checkExpire (env : Nat → Visit) (m : Monitor) : Monitor :=
  ((checkRounds env m).getLast?.map Round.after).getD m

theorem markedTask {title : Text} {tasks : List Task} {t : Task} (mem : t ∈ markTasks title tasks) :
    ∃ i ∈ tasks, (¬ title <:+: i.executeCmd ∧ t = i) ∨
      (title <:+: i.executeCmd ∧ t = {i with heartbeatCheck := true}) := by
  obtain ⟨i,old,rfl⟩ := List.mem_map.mp mem
  refine ⟨i,old,?_⟩
  split <;> rename_i occurs
  · exact .inr ⟨occurs,rfl⟩
  · exact .inl ⟨occurs,rfl⟩

theorem decodedHex {auditLog executeCmd : Text} {idx : Nat} (field : proctitle <:+: auditLog)
    (found : find proctitle auditLog = some idx)
    (hex : a2bHex (strip (auditLog.drop (idx + proctitle.length))) = some (encode executeCmd)) :
    decodedTitle auditLog = some (replace '\x00' ' ' executeCmd) := by
  rw [decodedTitle,if_pos field,found,Option.getD_some]
  simp only [hex,Option.bind_some,decodeEncode]

theorem updatedLength (v : Visit) (index : Nat) (i : Task) (m : Monitor) :
    (updatedTask v index i m).2.2.executingTasks.length = m.executingTasks.length := by
  unfold updatedTask
  dsimp only
  split <;> simp [executeCommand,assign]

theorem expireShrinks (v : Visit) (i : Task) (m : Monitor) :
    (expire v i m).2.executingTasks.length ≤ m.executingTasks.length := by
  unfold expire
  split
  · exact List.length_eraseP_le
  · exact Nat.le_refl _

theorem visitShrinks (v : Visit) (index : Nat) (i : Task) (m : Monitor) :
    (visit v index i m).after.executingTasks.length ≤ m.executingTasks.length := by
  have size := updatedLength v index i m
  unfold visit
  dsimp only
  split
  · split
    · exact Nat.le_of_eq size
    · exact Nat.le_trans (expireShrinks _ _ _) (Nat.le_of_eq size)
  · exact expireShrinks _ _ _

theorem roundsEnd (env : Nat → Visit) {fuel index : Nat} {m : Monitor}
    (enough : m.executingTasks.length ≤ index + fuel) :
    rounds env fuel index m = rounds env (fuel+1) index m := by
  induction fuel generalizing index m with
  | zero =>
    have past : m.executingTasks[index]? = none := List.getElem?_eq_none (by omega)
    simp only [rounds,past]
  | succ fuel ih =>
    rw [rounds,rounds]
    cases m.executingTasks[index]? with
    | none => rfl
    | some i =>
      have shorter := visitShrinks (env index) index i m
      dsimp only
      rw [ih (by omega)]

section Rounds
variable {Good : Monitor → Prop} {Just : Round → Prop} {env : Nat → Visit}

theorem roundsEach (each : ∀ index m i, Good m → m.executingTasks[index]? = some i →
      Just (visit (env index) index i m) ∧ Good (visit (env index) index i m).after)
    {fuel index : Nat} {m : Monitor} (h : Good m) :
    ∀ round ∈ rounds env fuel index m, Just round ∧ Good round.after := by
  induction fuel generalizing index m with
  | zero => intro round mem; simp [rounds] at mem
  | succ fuel ih =>
    intro round mem
    rw [rounds] at mem
    cases at_ : m.executingTasks[index]? with
    | none => simp [at_] at mem
    | some i =>
      have first := each index m i h at_
      simp only [at_] at mem
      split at mem
      · exact List.mem_singleton.mp mem ▸ first
      · rcases List.mem_cons.mp mem with rfl | later
        · exact first
        · exact ih first.2 round later

theorem roundsAt {Good : Nat → Monitor → Prop} (each : ∀ index m i, Good index m →
      m.executingTasks[index]? = some i → Good (index+1) (visit (env index) index i m).after)
    {fuel index : Nat} {m : Monitor} (h : Good index m) :
    ∀ round ∈ rounds env fuel index m, ∃ later, Good later round.after := by
  induction fuel generalizing index m with
  | zero => intro round mem; simp [rounds] at mem
  | succ fuel ih =>
    intro round mem
    rw [rounds] at mem
    cases at_ : m.executingTasks[index]? with
    | none => simp [at_] at mem
    | some i =>
      have first := each index m i h at_
      simp only [at_] at mem
      split at mem
      · exact ⟨index+1,List.mem_singleton.mp mem ▸ first⟩
      · rcases List.mem_cons.mp mem with rfl | later
        · exact ⟨index+1,first⟩
        · exact ih first round later

theorem passKeepsAt {Good : Nat → Monitor → Prop} (each : ∀ index m i, Good index m →
      m.executingTasks[index]? = some i → Good (index+1) (visit (env index) index i m).after)
    {m : Monitor} (h : Good 0 m) : ∃ later, Good later (checkExpire env m) := by
  unfold checkExpire
  cases last : (checkRounds env m).getLast? with
  | none => exact ⟨0,h⟩
  | some round => exact roundsAt each h round (List.mem_of_getLast? last)

theorem passKeeps (each : ∀ index m i, Good m → m.executingTasks[index]? = some i →
      Good (visit (env index) index i m).after) {m : Monitor} (h : Good m) :
    Good (checkExpire env m) := by
  obtain ⟨-,kept⟩ := @passKeepsAt env (fun _ => Good) each m h
  exact kept

end Rounds

theorem assignKeeps {α : Type} (read : Task → α) {index : Nat} {i i' : Task} {m : Monitor}
    (at_ : m.executingTasks[index]? = some i) (same : read i' = read i) :
    (assign index i' m).executingTasks.map read = m.executingTasks.map read := by
  obtain ⟨inside,entry⟩ := List.getElem?_eq_some_iff.mp at_
  have bound : index < (m.executingTasks.map read).length := by simpa using inside
  have own : read i' = (m.executingTasks.map read)[index] := by
    rw [List.getElem_map,entry,same]
  rw [assign,List.map_set,own,List.set_getElem_self]

theorem logmatchExamines (now : Time) {fuel : Nat} {buffer : Deque Text 1000} {m : Monitor}
    (enough : buffer.items.length ≤ fuel + 10) :
    (logmatch now fuel buffer m).1.items = buffer.items.drop (buffer.items.length - 10) ∧
    (logmatch now fuel buffer m).2 =
      (buffer.items.take (buffer.items.length - 10)).foldl (fun m l => examine l now m) m := by
  have passes := @Deque.drained Text 1000 Monitor 10
    (fun fuel m buffer => ((logmatch now fuel buffer m).2,(logmatch now fuel buffer m).1))
    (fun m l => examine l now m) (fun _ _ => rfl)
    (fun fuel m buffer few => by simp only [logmatch,if_neg few])
    (fun fuel m buffer l rest more popped => by simp only [logmatch,if_pos more,popped])
    fuel m buffer enough
  exact ⟨passes.2,passes.1⟩

def renew (v : Visit) (i : Task) : Task :=
  {i with
    heartbeatCheck := false
    expireTime := v.renewNow + seconds 15
    executeCmd := renewCommand v.token}

def renewal (v : Visit) (index : Nat) (i : Task) (m : Monitor) : Monitor :=
  {m with
    executingTasks := m.executingTasks.set index (renew v i)
    history := m.history ++ [.executed i.ipAddress "root".toList "toor".toList
      (renewCommand v.token) v.ssh] ++ [.given i.ref (renewCommand v.token)]}

theorem updatedReturns {v : Visit} (index : Nat) (i : Task) (m : Monitor) (ok : v.ssh ≠ .osError) :
    updatedTask v index i m = (true,renew v i,renewal v index i m) := by
  have returned : decide (v.ssh ≠ .osError) = true := decide_eq_true ok
  simp only [updatedTask,executeCommand,returned,assign,renewal,renew,List.set_set]

theorem visitFlagged {v : Visit} {i : Task} (index : Nat) (m : Monitor)
    (flagged : i.heartbeatCheck = true) (ok : v.ssh ≠ .osError) :
    visit v index i m = ⟨m,i,(expire v (renew v i) (renewal v index i m)).1,false,
      (expire v (renew v i) (renewal v index i m)).2⟩ := by
  simp only [visit,if_pos flagged,updatedReturns index i m ok]

theorem visitUnflagged {i : Task} (v : Visit) (index : Nat) (m : Monitor)
    (unflagged : i.heartbeatCheck = false) :
    visit v index i m = ⟨m,i,(expire v i m).1,false,(expire v i m).2⟩ := by
  simp only [visit,unflagged,Bool.false_eq_true,if_false]

theorem visitRaised {v : Visit} {i : Task} (index : Nat) (m : Monitor)
    (flagged : i.heartbeatCheck = true) (lost : v.ssh = .osError) :
    visit v index i m = ⟨m,i,none,true,(executeCommand i.ipAddress "root".toList "toor".toList
      (renewCommand v.token) v.ssh (assign index {i with heartbeatCheck := false} m)).2⟩ := by
  simp only [visit,if_pos flagged,updatedTask,executeCommand,lost,ne_eq,not_true_eq_false,
    decide_false]

/- A log answers a task where it was examined after the task got its command and
its title occurs in that command. -/
def gives (ref : Nat) : Event → Bool
  | .given given _ => given == ref
  | _ => false

def Answered (history : List Event) (i : Task) : Prop :=
  ∃ title now, .examined title now ∈ since (gives i.ref) history ∧ title <:+: i.executeCmd

theorem answeredSnoc {history : List Event} {i : Task} {event : Event} :
    Answered (history ++ [event]) i ↔ gives i.ref event = false ∧
      (Answered history i ∨ ∃ title now, event = .examined title now ∧ title <:+: i.executeCmd) := by
  unfold Answered
  rw [sinceSnoc]
  cases given : gives i.ref event with
  | true => simp
  | false =>
    simp only [Bool.false_eq_true,if_false,true_and]
    constructor
    · rintro ⟨title,now,mem,occurs⟩
      rcases List.mem_append.mp mem with old | new
      · exact .inl ⟨title,now,old,occurs⟩
      · exact .inr ⟨title,now,(List.mem_singleton.mp new).symm,occurs⟩
    · rintro (⟨title,now,old,occurs⟩ | ⟨title,now,rfl,occurs⟩)
      · exact ⟨title,now,List.mem_append_left _ old,occurs⟩
      · exact ⟨title,now,List.mem_append_right _ (List.mem_singleton.mpr rfl),occurs⟩

theorem answeredExamined {history : List Event} {i : Task} {title : Text} {now : Time} :
    Answered (history ++ [.examined title now]) i ↔
      Answered history i ∨ title <:+: i.executeCmd := by
  simp [answeredSnoc,gives]

theorem answeredExecuted {history : List Event} {i : Task} {ip user password command outcome} :
    Answered (history ++ [.executed ip user password command outcome]) i ↔ Answered history i := by
  simp [answeredSnoc,gives]

theorem answeredGiven {history : List Event} {i : Task} {ref : Nat} {command : Text} :
    Answered (history ++ [.given ref command]) i ↔ ref ≠ i.ref ∧ Answered history i := by
  simp [answeredSnoc,gives]

end TeePa.Heartbeat
