import TeePa.HeartbeatLoop
import TeePa.TokenRuns

/-! Which logs mark a device as alive. A log loses its origin when it enters the
buffer, so the origin is kept here beside it: what a task's flag becomes is compared
for all logs and for those that came from its own device. -/
namespace TeePa.DeviceIsolation
open Texts Heartbeat HeartbeatLoop TokenRuns

structure Arrived where
  origin : Text
  auditLog : Text
  now : Time
  deriving DecidableEq, Repr

def examineAll (logs : List Arrived) (m : Monitor) : Monitor :=
  logs.foldl (fun m l => examine l.auditLog l.now m) m

def ownLogs (address : Text) (logs : List Arrived) : List Arrived :=
  logs.filter (fun l => l.origin = address)

def flagAfter (logs : List Arrived) (index : Nat) (m : Monitor) : Option Bool :=
  (examineAll logs m).executingTasks[index]?.map Task.heartbeatCheck

def Names (l : Arrived) (t : Task) : Prop :=
  ∃ title ∈ decodedTitle l.auditLog, title <:+: t.executeCmd

theorem flaggedAfter {logs : List Arrived} {index : Nat} {m : Monitor} {t : Task}
    (here : m.executingTasks[index]? = some t) :
    ∃ flag, flagAfter logs index m = some flag ∧
      (flag = true ↔ t.heartbeatCheck = true ∨ ∃ l ∈ logs, Names l t) := by
  refine ⟨(flagBy (logs.filterMap (fun l => decodedTitle l.auditLog)) t).heartbeatCheck,?_,?_⟩
  · rw [flagAfter,examineAll,foldedFlags Arrived.auditLog Arrived.now,List.getElem?_map,here]
    rfl
  · simp only [flagBy,Bool.or_eq_true,List.any_eq_true,decide_eq_true_eq,List.mem_filterMap,Names]
    constructor
    · rintro (flag | ⟨title,⟨l,mem,found⟩,occurs⟩)
      · exact .inl flag
      · exact .inr ⟨l,mem,title,found,occurs⟩
    · rintro (flag | ⟨l,mem,title,found,occurs⟩)
      · exact .inl flag
      · exact .inr ⟨title,⟨l,mem,found⟩,occurs⟩

theorem othersNeverMark {logs : List Arrived} {index : Nat} {m : Monitor} {t : Task}
    (here : m.executingTasks[index]? = some t) :
    flagAfter logs index m = flagAfter (ownLogs t.ipAddress logs) index m ↔
      t.heartbeatCheck = true ∨
      (∃ l ∈ logs, l.origin = t.ipAddress ∧ Names l t) ∨
      ∀ l ∈ logs, l.origin ≠ t.ipAddress → ¬ Names l t := by
  obtain ⟨all,allFlag,allTrue⟩ := @flaggedAfter logs index m t here
  obtain ⟨own,ownFlag,ownTrue⟩ := @flaggedAfter (ownLogs t.ipAddress logs) index m t here
  rw [allFlag,ownFlag,Option.some.injEq,Bool.eq_iff_iff,allTrue,ownTrue]
  simp only [ownLogs,List.mem_filter,decide_eq_true_eq]
  constructor
  · intro same
    by_cases flag : t.heartbeatCheck = true
    · exact .inl flag
    · by_cases mine : ∃ l ∈ logs, l.origin = t.ipAddress ∧ Names l t
      · exact .inr (.inl mine)
      · refine .inr (.inr (fun l mem _ names => ?_))
        rcases same.mp (.inr ⟨l,mem,names⟩) with was | ⟨l',⟨mem',origin⟩,names'⟩
        · exact flag was
        · exact mine ⟨l',mem',origin,names'⟩
  · rintro (flag | ⟨l,mem,origin,names⟩ | none)
    · exact ⟨fun _ => .inl flag,fun _ => .inl flag⟩
    · exact ⟨fun _ => .inr ⟨l,⟨mem,origin⟩,names⟩,fun _ => .inr ⟨l,mem,names⟩⟩
    · constructor
      · rintro (flag | ⟨l,mem,names⟩)
        · exact .inl flag
        · by_cases origin : l.origin = t.ipAddress
          · exact .inr ⟨l,⟨mem,origin⟩,names⟩
          · exact absurd names (none l mem origin)
      · rintro (flag | ⟨l,⟨mem,-⟩,names⟩)
        · exact .inl flag
        · exact .inr ⟨l,mem,names⟩

/- Two devices that waited for the same iteration, which gave them one token. -/
def answering : Turn :=
  ⟨zeros,fun _ => ⟨0,.success⟩,fun _ => ⟨ones,seconds 1,seconds 1,.success⟩⟩

def together : Monitor :=
  (iteration answering ["10.0.0.2".toList,"10.0.0.1".toList] ⟨[],0,[]⟩).monitor

def firstTask : Task := ⟨0,0,seconds 180,"10.0.0.1".toList,keyCommand zeros,false⟩
def secondTask : Task := ⟨1,0,seconds 180,"10.0.0.2".toList,keyCommand zeros,false⟩

theorem togetherTasks : together.executingTasks = [firstTask,secondTask] := by decide +kernel

def report (origin : Text) : Arrived := ⟨origin,titleLog commandHex,0⟩

theorem reportNames {origin : Text} : Names (report origin) secondTask :=
  ⟨keyCommand zeros,commandDecoded,List.infix_refl _⟩

theorem othersNeverMarkReported :
    flagAfter [report "10.0.0.1".toList,report "10.0.0.2".toList] 1 together =
      flagAfter (ownLogs "10.0.0.2".toList
        [report "10.0.0.1".toList,report "10.0.0.2".toList]) 1 together := by
  have here : together.executingTasks[1]? = some secondTask := by rw [togetherTasks]; rfl
  exact (othersNeverMark here).mpr
    (.inr (.inl ⟨report "10.0.0.2".toList,by simp,rfl,reportNames⟩))

theorem neighbourMarks :
    flagAfter [report "10.0.0.1".toList] 1 together = some true ∧
    flagAfter (ownLogs "10.0.0.2".toList [report "10.0.0.1".toList]) 1 together = some false := by
  have here : together.executingTasks[1]? = some secondTask := by rw [togetherTasks]; rfl
  obtain ⟨all,allFlag,allTrue⟩ := @flaggedAfter [report "10.0.0.1".toList] 1 together _ here
  have marked := allTrue.mpr (.inr ⟨report "10.0.0.1".toList,by simp,reportNames⟩)
  have none : ownLogs "10.0.0.2".toList [report "10.0.0.1".toList] = [] := by decide +kernel
  refine ⟨marked ▸ allFlag,?_⟩
  rw [none,flagAfter,examineAll,List.foldl_nil,togetherTasks]
  rfl

end TeePa.DeviceIsolation
