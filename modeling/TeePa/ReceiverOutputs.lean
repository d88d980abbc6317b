import TeePa.Segmentation
import TeePa.ReceiverDeques

/-! What the receiver gives away: the files its save chains write and the bytes its
socket server sends. Every log is one line, so a reader that splits either at its line
breaks gets logs back, whatever the turns of the threads that filled the deques. -/
namespace TeePa.ReceiverOutputs
open Texts Receiver Heartbeat Runs Threads SlidingQueue ReceiverThreads ReceiverDeques
open SavedLogs (Hour)
open Consumers (SaveChain Disk openFile writeFile saveStep)
open SpadeServer (Client listenClient hangUp Written)

def WholeLine (log : Text) : Prop := ∃ line, BreakFree line ∧ log = line ++ ['\n']

section Lines

theorem fieldChars (line : Text) : ∀ field ∈ line.splitOn ',', ∀ c ∈ field, c ∈ line := by
  induction line with
  | nil =>
    intro field mem c inside
    rw [List.splitOn_nil,List.mem_singleton] at mem
    exact mem ▸ inside
  | cons first rest ih =>
    intro field mem c inside
    rw [List.splitOn_cons_eq_if_modifyHead] at mem
    split at mem
    · rcases List.mem_cons.mp mem with rfl | later
      · exact absurd inside List.not_mem_nil
      · exact List.mem_cons_of_mem _ (ih field later c inside)
    · obtain ⟨head,tail,split⟩ := List.exists_cons_of_ne_nil (List.splitOn_ne_nil ',' rest)
      rw [split,List.modifyHead_cons] at mem
      rw [split] at ih
      rcases List.mem_cons.mp mem with rfl | later
      · rcases List.mem_cons.mp inside with rfl | old
        · exact List.mem_cons_self
        · exact List.mem_cons_of_mem _ (ih head List.mem_cons_self c old)
      · exact List.mem_cons_of_mem _ (ih field (List.mem_cons_of_mem _ later) c inside)

theorem freeAppend {t u : Text} (free : BreakFree t) (free' : BreakFree u) : BreakFree (t ++ u) :=
  fun c mem => (List.mem_append.mp mem).elim (free c) (free' c)

theorem typesFree : ∀ entry ∈ auditTypes, BreakFree (" type=".toList ++ entry.2 ++ [' ']) := by
  intro entry mem
  have all : auditTypes.all (fun entry => (" type=".toList ++ entry.2 ++ [' ']).all
      (fun c => isLineBreak c == false)) = true := by decide +kernel
  exact freeOfAll (List.all_eq_true.mp all entry mem)

theorem translatedWhole {line log : Text} (free : BreakFree line)
    (given : translateAuditLog line = some log) : WholeLine log := by
  obtain ⟨-,entry,mem,written⟩ := Segmentation.translateShape given
  have fields : ∀ field ∈ line.splitOn ',', BreakFree field :=
    fun field inside c found => free c (fieldChars line field inside c found)
  obtain ⟨head,tail,split⟩ := List.exists_cons_of_ne_nil (List.splitOn_ne_nil ',' line)
  rw [split] at written fields
  have last : BreakFree ((head::tail).getLastD []) := by
    rw [List.getLastD_eq_getLast?,List.getLast?_eq_some_getLast (List.cons_ne_nil head tail)]
    exact fields _ (List.getLast_mem _)
  refine ⟨(head::tail).getLastD [] ++ ((" type=".toList ++ entry.2 ++ [' ']) ++ head),?_,?_⟩
  · exact freeAppend last (freeAppend (typesFree entry mem) (fields head List.mem_cons_self))
  · rw [written]
    simp

theorem linesWhole (data : Text) : ∀ log ∈ logsOf data, WholeLine log := by
  intro log mem
  obtain ⟨line,inside,given⟩ := List.mem_filterMap.mp mem
  have none : BreakFree [] := fun c absent => absurd absent List.not_mem_nil
  exact translatedWhole (splitlinesBreakFree none line inside) given

theorem listenedWhole (heard : List Received) (b : Buffers) :
    ∀ log ∈ (listenToClient b heard).buffers.appended, log ∈ b.appended ∨ WholeLine log := by
  induction heard generalizing b with
  | nil => exact fun log mem => .inl mem
  | cons got rest ih =>
    cases got with
    | failure => exact fun log mem => .inl mem
    | data bytes =>
      rw [listenToClient]
      cases decode bytes with
      | none => exact fun log mem => .inl mem
      | some data =>
        dsimp only
        split
        · exact fun log mem => .inl mem
        · intro log mem
          rcases ih (parseEventLog data b) log mem with old | whole
          · rw [parsedAppended] at old
            exact (List.mem_append.mp old).imp_right (linesWhole data log)
          · exact .inr whole

theorem wholeSplit {logs : List Text} (whole : ∀ log ∈ logs, WholeLine log) :
    (splitlines logs.flatten).map (· ++ ['\n']) = logs := by
  have bodies : ∃ lines : List Text, (∀ line ∈ lines, BreakFree line) ∧
      logs = lines.map (· ++ ['\n']) := by
    induction logs with
    | nil => exact ⟨[],fun line mem => absurd mem List.not_mem_nil,rfl⟩
    | cons log rest ih =>
      obtain ⟨lines,free,same⟩ := ih (fun log mem => whole log (List.mem_cons_of_mem _ mem))
      obtain ⟨line,plain,written⟩ := whole log List.mem_cons_self
      exact ⟨line::lines,List.forall_mem_cons.mpr ⟨plain,free⟩,by rw [written,same,List.map_cons]⟩
  obtain ⟨lines,free,rfl⟩ := bodies
  rw [← List.flatMap_def,splitlinesRecords free]

end Lines

theorem entriesWhole {connections : List Listening} {log : List (Nat × Text)}
    {owed : ListenPc → List Text}
    (listened : ∀ (index : Nat) (c : Listening), connections[index]? = some c →
      own index log ++ owed c.pc = (alone c.heard).buffers.appended)
    (fresh : ∀ index, connections.length ≤ index → own index log = []) :
    ∀ text ∈ log.map Prod.snd, WholeLine text := by
  intro text mem
  obtain ⟨⟨index,entry⟩,inside,rfl⟩ := List.mem_map.mp mem
  have mine : entry ∈ own index log :=
    List.mem_map.mpr ⟨(index,entry),List.mem_filter.mpr ⟨inside,decide_eq_true rfl⟩,rfl⟩
  rcases Nat.lt_or_ge index connections.length with old | new
  · have whole := listened index connections[index] (List.getElem?_eq_getElem old)
    have appended : entry ∈ (alone connections[index].heard).buffers.appended :=
      whole ▸ List.mem_append_left _ mine
    exact (listenedWhole _ noLogs entry appended).resolve_left List.not_mem_nil
  · exact absurd (fresh index new ▸ mine) List.not_mem_nil

theorem takenWhole {tape : Tape} {maxlen : Nat} {q : Deque Text maxlen}
    (recorded : Recorded tape q) (whole : ∀ text ∈ tape.pushed.map Prod.snd, WholeLine text) :
    ∀ logs : List Text, logs.Sublist tape.taken → logs.Sublist (tape.pushed.map Prod.snd) ∧
      (splitlines logs.flatten).map (· ++ ['\n']) = logs := by
  intro logs part
  have pushed := (part.trans (List.sublist_append_left _ _)).trans (accountsOrder recorded)
  exact ⟨pushed,wholeSplit (fun log mem => whole log (pushed.subset mem))⟩

section Saves

def saveTemp : SaveChain → Text
  | .call => []
  | .test _ temp | .pop _ temp | .opening _ temp | .writing _ temp | .died temp => temp

def opensName : SaveChain → Option Text
  | .opening name _ => some name
  | _ => none

def openName : SaveChain → Option Text
  | .writing name _ => some name
  | _ => none

structure Filed (taken : List Text) (saves : List SaveChain) (writes : List (Text × List Text))
    (temps : List (List Text)) : Prop where
  once : taken.Perm (writes.flatMap Prod.snd ++ temps.flatten)
  held : temps.map List.flatten = saves.map saveTemp
  written : ∀ w ∈ writes, w.2.Sublist taken
  holding : ∀ temp ∈ temps, temp.Sublist taken

def lastWrite (writes : List (Text × List Text)) (name : Text) : Option Bytes :=
  ((writes.filter (fun w => w.1 = name)).getLast?).map (fun w => encode w.2.flatten)

/- A file that no chain has open holds what was written to it last. -/
structure Contents (disk : Disk) (saves : List SaveChain) (writes : List (Text × List Text)) :
    Prop where
  apart : (saves.filterMap openName).Nodup
  opened : ∀ name ∈ saves.filterMap openName, disk name = some []
  closed : ∀ name, name ∉ saves.filterMap openName → disk name = lastWrite writes name

theorem startFiled : Filed [] [] [] [] :=
  ⟨.refl _,rfl,fun _ mem => absurd mem List.not_mem_nil,fun _ mem => absurd mem List.not_mem_nil⟩

theorem startContents : Contents (fun _ => none) [] [] :=
  ⟨.nil,fun _ mem => absurd mem List.not_mem_nil,fun _ _ => rfl⟩

variable {taken : List Text} {before after : List SaveChain} {own own' : SaveChain} {disk : Disk}
variable {writes : List (Text × List Text)} {temps : List (List Text)}

theorem heldParts (h : Filed taken (before ++ own :: after) writes temps) :
    ∃ front temp back, temps = front ++ temp :: back ∧ front.map List.flatten = before.map saveTemp ∧
      temp.flatten = saveTemp own ∧ back.map List.flatten = after.map saveTemp := by
  have held := h.held
  rw [List.map_append,List.map_cons] at held
  obtain ⟨front,rest,rfl,fronts,rests⟩ := List.map_eq_append_iff.mp held
  obtain ⟨temp,back,rfl,mine,backs⟩ := List.map_eq_cons_iff.mp rests
  exact ⟨front,temp,back,rfl,fronts,mine,backs⟩

theorem filedSame (h : Filed taken (before ++ own :: after) writes temps)
    (same : saveTemp own' = saveTemp own) : Filed taken (before ++ own' :: after) writes temps := by
  refine ⟨h.once,?_,h.written,h.holding⟩
  rw [h.held,List.map_append,List.map_append,List.map_cons,List.map_cons,same]

theorem filedTakes (h : Filed taken (before ++ own :: after) writes temps) (log : Text)
    (temp : saveTemp own' = saveTemp own ++ log) :
    ∃ temps', Filed (taken ++ [log]) (before ++ own' :: after) writes temps' := by
  obtain ⟨front,mine,back,rfl,fronts,whole,backs⟩ := heldParts h
  have more : ∀ {logs : List Text}, logs.Sublist taken → logs.Sublist (taken ++ [log]) :=
    fun sub => sub.trans (List.sublist_append_left _ _)
  refine ⟨front ++ (mine ++ [log]) :: back,?_,?_,fun w mem => more (h.written w mem),?_⟩
  · refine List.perm_iff_count.mpr (fun text => ?_)
    have all := h.once.count_eq text
    simp only [List.flatten_append,List.flatten_cons,List.count_append] at all ⊢
    omega
  · rw [List.map_append,List.map_cons,List.map_append,List.map_cons,fronts,backs,List.flatten_append,
      whole,temp,List.flatten_singleton]
  · intro logs mem
    rcases List.mem_append.mp mem with first | later
    · exact more (h.holding logs (List.mem_append_left _ first))
    · rcases List.mem_cons.mp later with rfl | last
      · have own := h.holding mine (List.mem_append_right _ List.mem_cons_self)
        exact own.append (List.Sublist.refl _)
      · exact more (h.holding logs (List.mem_append_right _ (List.mem_cons_of_mem _ last)))

theorem filedWrites (h : Filed taken (before ++ own :: after) writes temps) (name : Text)
    (empty : saveTemp own' = []) : ∃ logs temps', logs.flatten = saveTemp own ∧
      Filed taken (before ++ own' :: after) (writes ++ [(name,logs)]) temps' := by
  obtain ⟨front,mine,back,rfl,fronts,whole,backs⟩ := heldParts h
  refine ⟨mine,front ++ [] :: back,whole,?_,?_,?_,?_⟩
  · refine List.perm_iff_count.mpr (fun text => ?_)
    have all := h.once.count_eq text
    simp only [List.flatten_append,List.flatten_cons,List.count_append,List.flatMap_append,
      List.flatMap_cons,List.flatMap_nil,List.count_nil] at all ⊢
    omega
  · rw [List.map_append,List.map_cons,List.map_append,List.map_cons,fronts,backs,empty]
    rfl
  · intro w mem
    rcases List.mem_append.mp mem with old | new
    · exact h.written w old
    · rw [List.mem_singleton.mp new]
      exact h.holding mine (List.mem_append_right _ List.mem_cons_self)
  · intro logs mem
    rcases List.mem_append.mp mem with first | later
    · exact h.holding logs (List.mem_append_left _ first)
    · rcases List.mem_cons.mp later with rfl | last
      · exact List.nil_sublist _
      · exact h.holding logs (List.mem_append_right _ (List.mem_cons_of_mem _ last))

theorem filedMore {saves : List SaveChain} (h : Filed taken saves writes temps) :
    Filed taken (saves ++ [.call]) writes (temps ++ [[]]) := by
  refine ⟨?_,?_,h.written,?_⟩
  · rw [List.flatten_append]
    exact h.once.trans (by simp)
  · rw [List.map_append,List.map_append,h.held]
    rfl
  · intro logs mem
    rcases List.mem_append.mp mem with old | new
    · exact h.holding logs old
    · exact List.mem_singleton.mp new ▸ List.nil_sublist _

theorem contentsSame {saves saves' : List SaveChain} (h : Contents disk saves writes)
    (same : saves'.filterMap openName = saves.filterMap openName) : Contents disk saves' writes :=
  ⟨same ▸ h.apart,same ▸ h.opened,same ▸ h.closed⟩

theorem openParts (before after : List SaveChain) (own : SaveChain) :
    (before ++ own :: after).filterMap openName =
      before.filterMap openName ++ ((openName own).toList ++ after.filterMap openName) := by
  rw [List.filterMap_append,List.filterMap_cons]
  cases openName own <;> rfl

theorem contentsOpens {name temp : Text} (h : Contents disk (before ++ own :: after) writes)
    (shut : openName own = none) (free : name ∉ (before ++ own :: after).filterMap openName) :
    Contents (openFile name disk) (before ++ .writing name temp :: after) writes := by
  obtain ⟨apart,opened,closed⟩ := h
  rw [openParts,shut] at apart opened closed free
  have named : openName (.writing name temp) = some name := rfl
  have split : ∀ other, other ∈ (before ++ SaveChain.writing name temp :: after).filterMap openName ↔
      other = name ∨ other ∈ before.filterMap openName ++ after.filterMap openName := by
    intro other
    rw [openParts,named]
    simp only [Option.toList_some,List.mem_append,List.mem_cons,List.not_mem_nil]
    grind
  refine ⟨?_,fun other mem => ?_,fun other absent => ?_⟩
  · rw [openParts,named]
    exact (List.perm_middle.nodup_iff).mpr (List.nodup_cons.mpr ⟨free,apart⟩)
  · rcases (split other).mp mem with rfl | open_
    · exact if_pos rfl
    · have different : other ≠ name := fun same => free (same ▸ open_)
      rw [openFile,if_neg different]
      exact opened other open_
  · obtain ⟨different,shut⟩ := not_or.mp (fun either => absent ((split other).mpr either))
    rw [openFile,if_neg different]
    exact closed other shut

theorem contentsWrites {name temp : Text} {logs : List Text}
    (h : Contents disk (before ++ .writing name temp :: after) writes) (whole : logs.flatten = temp) :
    Contents (writeFile name (encode temp) disk) (before ++ .call :: after)
      (writes ++ [(name,logs)]) := by
  obtain ⟨apart,opened,closed⟩ := h
  have named : openName (.writing name temp) = some name := rfl
  have shut : openName .call = none := rfl
  rw [openParts,named] at apart opened closed
  have apart := (List.perm_middle.nodup_iff).mp apart
  obtain ⟨free,apart⟩ := List.nodup_cons.mp apart
  refine ⟨?_,fun other mem => ?_,fun other absent => ?_⟩
  · rw [openParts,shut]
    exact apart
  · rw [openParts,shut] at mem
    have different : other ≠ name := fun same => free (same ▸ mem)
    rw [writeFile,if_neg different]
    exact opened other (by simp only [List.mem_append] at mem ⊢; grind)
  · rw [openParts,shut] at absent
    by_cases same : other = name
    · subst same
      have empty := opened other (by simp)
      simp [writeFile,empty,lastWrite,List.filter_append,whole]
    · have different : name ≠ other := fun equal => same equal.symm
      have old := closed other (by simp only [List.mem_append] at absent ⊢; simp; grind)
      rw [writeFile,if_neg same,old]
      simp [lastWrite,List.filter_append,different]

end Saves

theorem takeNothing {maxlen : Nat} (t : Tape) (q : Deque Text maxlen) : (t.take q q).taken = t.taken := by
  rw [Tape.take,Nat.sub_self,List.take_zero,List.append_nil]

theorem takeFirst {maxlen : Nat} {t : Tape} {q q' : Deque Text maxlen} {log : Text}
    (popped : q.items = log :: q'.items) : (t.take q q').taken = t.taken ++ [log] := by
  have size : q.items.length - q'.items.length = 1 := by
    rw [popped,List.length_cons]
    omega
  rw [Tape.take,size,popped,List.take_succ_cons,List.take_zero]

theorem saveFiled {now : Hour} {s t : Shared} {before after : List SaveChain} {own own' : SaveChain}
    {writes : List (Text × List Text)} {temps : List (List Text)}
    (h : Filed s.buffered.taken (before ++ own :: after) writes temps)
    (ok : saveTurn now s own = some (t,own')) : ∃ writes' temps',
      Filed t.buffered.taken (before ++ own' :: after) writes' temps' ∧
      ((∀ name ∈ opensName own, name ∉ (before ++ own :: after).filterMap openName) →
        Contents s.process.disk (before ++ own :: after) writes →
        Contents t.process.disk (before ++ own' :: after) writes') := by
  obtain ⟨r,turn,same⟩ := Option.map_eq_some_iff.mp ok
  obtain ⟨shared,chain⟩ := Prod.mk.inj same
  rw [← shared,← chain]
  have shut : ∀ {chain chain' : SaveChain}, openName chain' = openName chain →
      (before ++ chain' :: after).filterMap openName =
        (before ++ chain :: after).filterMap openName := by
    intro chain chain' equal
    rw [openParts,openParts,equal]
  cases own with
  | call =>
    have rests : r.1 = s.process ∧ saveTemp r.2 = [] ∧ openName r.2 = none := by
      simp only [saveStep] at turn
      split at turn <;> cases Option.some.inj turn <;> exact ⟨rfl,rfl,rfl⟩
    dsimp only
    rw [rests.1,takeNothing]
    exact ⟨writes,temps,filedSame h rests.2.1,fun _ contents => contentsSame contents (shut rests.2.2)⟩
  | test name temp =>
    have rests : r.1 = s.process ∧ saveTemp r.2 = temp ∧ openName r.2 = none := by
      simp only [saveStep] at turn
      split at turn <;> cases Option.some.inj turn <;> exact ⟨rfl,rfl,rfl⟩
    dsimp only
    rw [rests.1,takeNothing]
    exact ⟨writes,temps,filedSame h rests.2.1,fun _ contents => contentsSame contents (shut rests.2.2)⟩
  | pop name temp =>
    cases popped : s.process.buffers.auditBuffer.popleft with
    | none =>
      simp only [saveStep,popped] at turn
      cases Option.some.inj turn
      dsimp only
      rw [takeNothing]
      exact ⟨writes,temps,filedSame h rfl,fun _ contents => contentsSame contents (shut rfl)⟩
    | some result =>
      simp only [saveStep,popped] at turn
      cases Option.some.inj turn
      dsimp only
      rw [takeFirst (Deque.popleftItems popped)]
      have temp' : saveTemp (SaveChain.test name (temp ++ result.1)) = temp ++ result.1 := rfl
      obtain ⟨temps',filed⟩ := filedTakes h result.1 temp'
      exact ⟨writes,temps',filed,fun _ contents => contentsSame contents (shut rfl)⟩
  | opening name temp =>
    cases Option.some.inj turn
    dsimp only
    rw [takeNothing]
    exact ⟨writes,temps,filedSame h rfl,fun free contents => contentsOpens contents rfl (free name rfl)⟩
  | writing name temp =>
    cases Option.some.inj turn
    dsimp only
    rw [takeNothing]
    have empty : saveTemp SaveChain.call = [] := rfl
    obtain ⟨logs,temps',whole,filed⟩ := filedWrites h name empty
    exact ⟨_,temps',filed,fun _ contents => contentsWrites contents whole⟩
  | died temp => cases turn

structure SameFiled (s t : Shared) : Prop where
  taken : t.buffered.taken = s.buffered.taken
  disk : t.process.disk = s.process.disk

theorem sameFiledOf (s : Shared) (buffers : Buffers) (m : Monitor) (watched : Tape)
    {buffered passed : Tape} (saving : buffered.taken = s.buffered.taken)
    (sending : passed.taken = s.passed.taken) :
    SameFiled s ⟨⟨buffers,s.process.disk,m⟩,buffered,watched,passed⟩ ∧
    passed.taken = s.passed.taken := ⟨⟨saving,rfl⟩,sending⟩

theorem listenSameFiled {index : Nat} {got : Received} {s t : Shared} {c c' : Listening}
    (ok : listenStep index got s c = some (t,c')) : SameFiled s t ∧ t.passed.taken = s.passed.taken := by
  obtain ⟨heard,pc⟩ := c
  cases pc with
  | recv => rw [← (Prod.mk.inj (Option.some.inj ok)).1]; exact ⟨⟨rfl,rfl⟩,rfl⟩
  | lines rest =>
    cases rest <;> rw [← (Prod.mk.inj (Option.some.inj ok)).1] <;> exact ⟨⟨rfl,rfl⟩,rfl⟩
  | buffer auditLog rest =>
    rw [← (Prod.mk.inj (Option.some.inj ok)).1]
    exact sameFiledOf s _ _ _ rfl rfl
  | heartbeat auditLog rest =>
    rw [← (Prod.mk.inj (Option.some.inj ok)).1]
    exact sameFiledOf s _ _ _ rfl rfl
  | audit auditLog rest =>
    rw [← (Prod.mk.inj (Option.some.inj ok)).1]
    exact sameFiledOf s _ _ _ rfl rfl
  | closed => cases ok

theorem matchSameFiled {now : Time} {s t : Shared} {chain chain' : Consumers.MatchChain}
    (ok : matchTurn now s chain = some (t,chain')) :
    SameFiled s t ∧ t.passed.taken = s.passed.taken := by
  obtain ⟨r,turn,same⟩ := Option.map_eq_some_iff.mp ok
  rw [← (Prod.mk.inj same).1]
  refine ⟨⟨rfl,?_⟩,rfl⟩
  cases chain with
  | test => cases Option.some.inj turn; rfl
  | pop =>
    cases popped : s.process.buffers.auditBufferHeartbeat.popleft with
    | none => simp only [Consumers.logmatchStep,popped] at turn; cases Option.some.inj turn; rfl
    | some result => simp only [Consumers.logmatchStep,popped] at turn; cases Option.some.inj turn; rfl
  | died => cases turn

theorem clientSameFiled {next : SpadeServer.Shared → Client → Option (SpadeServer.Shared × Client)}
    {s t : Shared} {client client' : Client} (ok : clientTurn next s client = some (t,client')) :
    SameFiled s t := by
  obtain ⟨r,turn,same⟩ := Option.map_eq_some_iff.mp ok
  rw [← (Prod.mk.inj same).1]
  exact ⟨rfl,rfl⟩

def Exclusive (s : System) : Action → Prop
  | .save index _ => ∀ chain ∈ s.saves[index]?, ∀ name ∈ opensName chain,
      name ∉ s.saves.filterMap openName
  | _ => True
instance (s) : (action : Action) → Decidable (Exclusive s action)
  | .save index _ => inferInstanceAs (Decidable (∀ chain ∈ s.saves[index]?,
      ∀ name ∈ opensName chain, name ∉ s.saves.filterMap openName))
  | .accept | .listen _ _ | .logmatch _ _ | .connect | .disconnect _ | .send _ _ => .isTrue trivial

structure FiledIn (Apart : Prop) (s : System) (writes : List (Text × List Text))
    (temps : List (List Text)) : Prop where
  filed : Filed s.shared.buffered.taken s.saves writes temps
  contents : Apart → Contents s.shared.process.disk s.saves writes

theorem filedRest {Apart : Prop} {s t : System} {writes : List (Text × List Text)}
    {temps : List (List Text)} (h : FiledIn Apart s writes temps) (same : SameFiled s.shared t.shared)
    (saves : t.saves = s.saves) : FiledIn Apart t writes temps := by
  refine ⟨?_,fun apart => ?_⟩
  · rw [same.taken,saves]
    exact h.filed
  · rw [same.disk,saves]
    exact h.contents apart

theorem stepFiled {Apart : Prop} {s t : System} {action : Action}
    {writes : List (Text × List Text)} {temps : List (List Text)} (h : FiledIn Apart s writes temps)
    (exclusive : Apart → Exclusive s action) (ok : step s action = some t) :
    ∃ writes' temps', FiledIn Apart t writes' temps' := by
  cases action with
  | accept =>
    cases Option.some.inj ok
    refine ⟨writes,_,filedMore h.filed,fun apart => contentsSame (h.contents apart) ?_⟩
    rw [List.filterMap_append]
    exact List.append_nil _
  | connect => cases Option.some.inj ok; exact ⟨writes,temps,h.filed,h.contents⟩
  | listen index got =>
    obtain ⟨result,acted,rfl⟩ := Option.map_eq_some_iff.mp ok
    obtain ⟨_,_,_,turn,_⟩ := movedAt acted
    exact ⟨writes,temps,filedRest h (listenSameFiled turn).1 rfl⟩
  | save index now =>
    obtain ⟨result,acted,rfl⟩ := Option.map_eq_some_iff.mp ok
    obtain ⟨before,after,own,own',m⟩ := moved acted
    obtain ⟨filed,contents⟩ := h
    rw [m.threads] at filed contents
    obtain ⟨writes',temps',filed',contents'⟩ := saveFiled filed m.step
    refine ⟨writes',temps',m.threads' ▸ filed',fun apart => ?_⟩
    have free := exclusive apart own m.here
    rw [m.threads] at free
    exact m.threads' ▸ contents' free (contents apart)
  | logmatch index now =>
    obtain ⟨result,acted,rfl⟩ := Option.map_eq_some_iff.mp ok
    obtain ⟨_,_,_,turn,_⟩ := movedAt acted
    exact ⟨writes,temps,filedRest h (matchSameFiled turn).1 rfl⟩
  | disconnect index =>
    obtain ⟨result,acted,rfl⟩ := Option.map_eq_some_iff.mp ok
    obtain ⟨_,_,_,turn,_⟩ := movedAt acted
    exact ⟨writes,temps,filedRest h (clientSameFiled turn) rfl⟩
  | send index accepted =>
    obtain ⟨result,acted,rfl⟩ := Option.map_eq_some_iff.mp ok
    obtain ⟨_,_,_,turn,_⟩ := movedAt acted
    exact ⟨writes,temps,filedRest h (clientSameFiled turn) rfl⟩

/- Between its open and its write another chain opens the file of the next hour. -/
def savesTwo : List Action :=
  .accept :: List.replicate 5 (.save 0 SavedLogs.nine) ++ List.replicate 3 (.save 1 SavedLogs.ten) ++
    [.save 0 SavedLogs.nine]

section Clients

structure Served (taken : List Text) (clients : List Client)
    (shares : List (List Text × Client)) : Prop where
  clients : shares.map Prod.snd = clients
  received : ∀ share ∈ shares, share.2.received = encode share.1.flatten
  order : ∀ share ∈ shares, (share.1 ++ SpadeServer.held share.2).Sublist taken
  once : taken.Perm (shares.flatMap (fun share => share.1 ++ SpadeServer.held share.2))

theorem startServed : Served [] [] [] :=
  ⟨rfl,fun _ mem => absurd mem List.not_mem_nil,fun _ mem => absurd mem List.not_mem_nil,.refl _⟩

variable {taken : List Text} {before after : List Client} {own own' : Client}
variable {shares : List (List Text × Client)}

theorem servedMove (h : Served taken (before ++ own :: after) shares) (out : List Text)
    (next : ∀ logs : List Text, own.received = encode logs.flatten → ∃ logs' : List Text,
      own'.received = encode logs'.flatten ∧
      logs' ++ SpadeServer.held own' = (logs ++ SpadeServer.held own) ++ out) :
    ∃ shares', Served (taken ++ out) (before ++ own' :: after) shares' := by
  obtain ⟨clients,received,order,once⟩ := h
  obtain ⟨front,rest,rfl,fronts,rests⟩ := List.map_eq_append_iff.mp clients
  obtain ⟨⟨logs,client⟩,back,rfl,mine,backs⟩ := List.map_eq_cons_iff.mp rests
  have mine : client = own := mine
  subst mine
  have inside : (logs,client) ∈ front ++ (logs,client) :: back :=
    List.mem_append_right _ List.mem_cons_self
  obtain ⟨logs',received',balance⟩ := next logs (received _ inside)
  have elsewhere : ∀ {p : List Text × Client → Prop}, (∀ share ∈ front ++ (logs,client) :: back, p share) →
      p (logs',own') → ∀ share ∈ front ++ (logs',own') :: back, p share := by
    intro p all own share mem
    rcases List.mem_append.mp mem with first | later
    · exact all share (List.mem_append_left _ first)
    · rcases List.mem_cons.mp later with rfl | last
      · exact own
      · exact all share (List.mem_append_right _ (List.mem_cons_of_mem _ last))
  refine ⟨front ++ (logs',own') :: back,?_,elsewhere received received',?_,?_⟩
  · rw [List.map_append,List.map_cons,fronts,backs]
  · refine elsewhere (fun share mem => (order share mem).trans (List.sublist_append_left _ _)) ?_
    dsimp only
    rw [balance]
    exact (order _ inside).append (List.Sublist.refl _)
  · refine List.perm_iff_count.mpr (fun text => ?_)
    have all := once.count_eq text
    have one := congrArg (List.count text) balance
    simp only [List.flatMap_append,List.flatMap_cons,List.count_append] at all one ⊢
    omega

theorem servedRested (h : Served taken (before ++ own :: after) shares)
    (received : own'.received = own.received)
    (held : SpadeServer.held own' = SpadeServer.held own) :
    ∃ shares', Served taken (before ++ own' :: after) shares' := by
  have moved := servedMove h [] (fun logs same =>
    ⟨logs,received.trans same,by rw [held,List.append_nil]⟩)
  rwa [List.append_nil] at moved

theorem servedStep {accepted : Nat} {s t : SpadeServer.Shared}
    (h : Served s.removed (before ++ own :: after) shares) (serves : Serves accepted s t own own')
    (reliable : ∀ temp ∈ SpadeServer.sending own, own.isOpen = true ∧ accepted = (encode temp).length) :
    ∃ shares', Served t.removed (before ++ own' :: after) shares' := by
  cases serves with
  | rested shared held received =>
    rw [shared]
    exact servedRested h received held
  | took temp rest popped shared idle held received =>
    rw [shared]
    exact servedMove h [temp] (fun logs same =>
      ⟨logs,received.trans same,by rw [held,idle,List.append_nil]⟩)
  | sent shared temp held idle front =>
    obtain ⟨isOpen,all⟩ := reliable temp held
    have held' : SpadeServer.held own = [temp] := by rw [SpadeServer.held,held]; rfl
    have moved := servedMove h [] (fun logs same => ⟨logs ++ [temp],by
      rw [front isOpen,same,all,List.take_length,List.flatten_append,List.flatten_singleton,
        encodeAppend],by rw [idle,held',List.append_nil]⟩)
    rwa [List.append_nil,← shared] at moved

end Clients

def Reliable (s : System) : Action → Prop
  | .send index accepted => ∀ client ∈ s.clients[index]?, ∀ temp ∈ SpadeServer.sending client,
      client.isOpen = true ∧ accepted = (encode temp).length
  | _ => True
instance (s) : (action : Action) → Decidable (Reliable s action)
  | .send index accepted => inferInstanceAs (Decidable (∀ client ∈ s.clients[index]?,
      ∀ temp ∈ SpadeServer.sending client, client.isOpen = true ∧ accepted = (encode temp).length))
  | .accept | .listen _ _ | .save _ _ | .logmatch _ _ | .connect | .disconnect _ => .isTrue trivial

def ServedIn (s : System) : Prop := ∃ shares, Served s.shared.passed.taken s.clients shares

theorem servedRest {s t : System} (h : ServedIn s) (same : t.shared.passed.taken = s.shared.passed.taken)
    (clients : t.clients = s.clients) : ServedIn t := by
  rw [ServedIn,same,clients]
  exact h

theorem stepServed {s t : System} {action : Action} (h : ServedIn s) (reliable : Reliable s action)
    (ok : step s action = some t) : ServedIn t := by
  cases action with
  | accept => cases Option.some.inj ok; exact h
  | connect =>
    cases Option.some.inj ok
    obtain ⟨shares,clients,received,order,once⟩ := h
    have fresh : ∀ {p : List Text × Client → Prop}, (∀ share ∈ shares, p share) → p ([],⟨true,[],.test⟩) →
        ∀ share ∈ shares ++ [([],⟨true,[],.test⟩)], p share := by
      intro p all new share mem
      rcases List.mem_append.mp mem with old | last
      · exact all share old
      · exact List.mem_singleton.mp last ▸ new
    refine ⟨shares ++ [([],⟨true,[],.test⟩)],?_,fresh received rfl,fresh order (List.nil_sublist _),?_⟩
    · rw [List.map_append,clients]
      rfl
    · rw [List.flatMap_append]
      exact once.trans (List.Perm.of_eq (List.append_nil _).symm)
  | listen index got =>
    obtain ⟨result,acted,rfl⟩ := Option.map_eq_some_iff.mp ok
    obtain ⟨_,_,_,turn,_⟩ := movedAt acted
    exact servedRest h (listenSameFiled turn).2 rfl
  | save index now =>
    obtain ⟨result,acted,rfl⟩ := Option.map_eq_some_iff.mp ok
    obtain ⟨_,_,_,turn,_⟩ := movedAt acted
    obtain ⟨r,-,same⟩ := Option.map_eq_some_iff.mp turn
    exact servedRest h (by dsimp only; rw [← (Prod.mk.inj same).1]) rfl
  | logmatch index now =>
    obtain ⟨result,acted,rfl⟩ := Option.map_eq_some_iff.mp ok
    obtain ⟨_,_,_,turn,_⟩ := movedAt acted
    exact servedRest h (matchSameFiled turn).2 rfl
  | disconnect index =>
    obtain ⟨result,acted,rfl⟩ := Option.map_eq_some_iff.mp ok
    obtain ⟨before,after,own,own',m⟩ := moved acted
    obtain ⟨shares,served⟩ := h
    rw [m.threads] at served
    rw [ServedIn,m.threads']
    obtain ⟨⟨shared,client⟩,turn,same⟩ := Option.map_eq_some_iff.mp m.step
    rw [← (Prod.mk.inj same).1,← (Prod.mk.inj same).2]
    cases Option.some.inj turn
    exact servedRested served rfl rfl
  | send index accepted =>
    obtain ⟨result,acted,rfl⟩ := Option.map_eq_some_iff.mp ok
    obtain ⟨before,after,own,own',m⟩ := moved acted
    obtain ⟨shares,served⟩ := h
    rw [m.threads] at served
    rw [ServedIn,m.threads']
    obtain ⟨⟨shared,client⟩,turn,same⟩ := Option.map_eq_some_iff.mp m.step
    rw [← (Prod.mk.inj same).1,← (Prod.mk.inj same).2]
    exact servedStep served (clientServes turn) (reliable own m.here)

theorem servedWholeLines {m : Monitor} {actions : List Action} {s : System}
    (run : Run (Restrict Reliable (Of step)) (start m) actions s) : ∃ shares,
      Served s.shared.passed.taken s.clients shares ∧ ∀ share ∈ shares,
        share.1.Sublist (s.shared.passed.pushed.map Prod.snd) ∧
        decode share.2.received = some share.1.flatten ∧
        (splitlines share.1.flatten).map (· ++ ['\n']) = share.1 := by
  have preserved : ∀ s action t, ServedIn s → Restrict Reliable (Of step) s action t → ServedIn t :=
    fun s action t h moved => stepServed h moved.1 moved.2
  obtain ⟨shares,served⟩ := invariant preserved run ⟨[],startServed⟩
  have plain : Run (Of step) (start m) actions s := unrestrict run
  have orderly := invariant (fun _ _ _ h ok => stepOrderly h ok) plain (startOrderly m)
  have accounted : ∀ s action t, Accounted s.shared → Of step s action t → Accounted t.shared :=
    fun s action t h ok => stepAccounted h ok
  have recorded := (invariant accounted plain (startAccounted m)).passed
  have whole := entriesWhole (fun index c here => (orderly.connections index c here).passed)
    (fun index past => (orderly.fresh index past).passed)
  refine ⟨shares,served,fun share mem => ?_⟩
  have part := (List.sublist_append_left _ _).trans (served.order share mem)
  obtain ⟨sub,lines⟩ := takenWhole recorded whole share.1 part
  exact ⟨sub,by rw [served.received share mem,decodeEncode],lines⟩

def sendsTwo : List Action :=
  [.connect,.connect,.send 0 0,.send 0 0,.send 1 0,.send 1 0,.send 1 38,.send 0 38]

theorem servedWholeLinesTwo : ∃ actions s,
    Run (Restrict Reliable (Of step)) (start ⟨[],0,[]⟩) actions s ∧
    s.clients.map (fun c => c.received.length) = [38,38] ∧ ∃ shares,
      Served s.shared.passed.taken s.clients shares ∧ ∀ share ∈ shares,
        share.1.Sublist (s.shared.passed.pushed.map Prod.snd) ∧
        decode share.2.received = some share.1.flatten ∧
        (splitlines share.1.flatten).map (· ++ ['\n']) = share.1 := by
  have ran : (execWithin Reliable step (filled 32) sendsTwo).map
      (fun s => s.clients.map (fun c => c.received.length)) = some [38,38] := by decide +kernel
  obtain ⟨s,ok,sizes⟩ := Option.map_eq_some_iff.mp ran
  obtain ⟨actions,first⟩ := @filledRun Reliable (fun _ _ => trivial) trivial 32 (by decide)
  have run := append first (execWithinRun ok)
  exact ⟨_,s,run,sizes,servedWholeLines run⟩

end TeePa.ReceiverOutputs
