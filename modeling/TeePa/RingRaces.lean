import TeePa.KernelRing

/-! Enqueue calls on several CPUs beside kauditd's dequeue calls, with no lock:
each access to the ring is a step of its own, and an increment or decrement is
one read and one write. A slot holds one record, of any type. -/
namespace TeePa.RingRaces
open BoundedFifo Runs CStrings
open KernelRing (Ring WellFormed InBounds queueSize slotSize slots queued indexToNat)

variable {α : Type}

/- Where a call stands: before its test, its copy, or one half of its update. -/
inductive EnqueuePc where
  | test
  | copy
  | read
  | write (num : Int)
  | returned (ret : Int)
  deriving DecidableEq, Repr

inductive DequeuePc (α : Type) where
  | test
  | copy
  | advance (auditLog : α)
  | read (auditLog : α)
  | write (auditLog : α) (num : Int)
  deriving DecidableEq, Repr

structure Enqueue (α : Type) where
  auditLog : α
  pc : EnqueuePc
  deriving DecidableEq, Repr

/- The shared ring, every enqueue call there will be, the one consumer, and what
the calls that returned 0 have taken in and given out. -/
structure State (α : Type) where
  testQueue : Nat → α
  queueHead : Int
  queueNum : Int
  enqueues : List (Enqueue α)
  dequeue : DequeuePc α
  accepted : List α
  delivered : List α

inductive Action where
  | enqueue (call : Nat)
  | dequeue
  deriving DecidableEq, Repr

def index (i : Int) : Nat := (i.tmod queueSize).toNat

def start (slots : Nat → α) (records : List α) : State α :=
  ⟨slots,0,0,records.map (fun r => ⟨r,.test⟩),.test,[],[]⟩

def goto (s : State α) (call : Nat) (e : Enqueue α) (pc : EnqueuePc) : List (Enqueue α) :=
  s.enqueues.set call {e with pc := pc}

def enqueueStep (s : State α) (call : Nat) (e : Enqueue α) : Option (State α) := match e.pc with
  | .test => some {s with
      enqueues := goto s call e (if s.queueNum < queueSize then .copy else .returned (-1))}
  | .copy => some {s with
      testQueue := store s.testQueue (index (s.queueHead + s.queueNum)) e.auditLog
      enqueues := goto s call e .read}
  | .read => some {s with enqueues := goto s call e (.write s.queueNum)}
  | .write num => some {s with
      queueNum := num + 1
      enqueues := goto s call e (.returned 0)
      accepted := s.accepted ++ [e.auditLog]}
  | .returned _ => none

def dequeueStep (s : State α) : State α := match s.dequeue with
  | .test => {s with dequeue := if s.queueNum > 0 then .copy else .test}
  | .copy => {s with dequeue := .advance (s.testQueue s.queueHead.toNat)}
  | .advance auditLog => {s with
      queueHead := (s.queueHead + 1).tmod queueSize
      dequeue := .read auditLog}
  | .read auditLog => {s with dequeue := .write auditLog s.queueNum}
  | .write auditLog num => {s with
      queueNum := num - 1
      dequeue := .test
      delivered := s.delivered ++ [auditLog]}

def step (s : State α) : Action → Option (State α)
  | .enqueue call => do
      let e ← s.enqueues[call]?
      enqueueStep s call e
  | .dequeue => some (dequeueStep s)

def Busy : EnqueuePc → Prop
  | .read => True
  | .write _ => True
  | _ => False
instance (pc) : Decidable (Busy pc) := by unfold Busy; split <;> infer_instance

def Writing : EnqueuePc → Prop
  | .write _ => True
  | _ => False
instance (pc) : Decidable (Writing pc) := by unfold Writing; split <;> infer_instance

def taken : DequeuePc α → List α
  | .advance auditLog => [auditLog]
  | .read auditLog => [auditLog]
  | .write auditLog _ => [auditLog]
  | _ => []

-- One while the head still stands on the record that was taken.
def ahead : DequeuePc α → Nat
  | .advance _ => 1
  | _ => 0

def written : DequeuePc α → Option Int
  | .write _ num => some num
  | _ => none

def base (s : State α) : Nat := s.queueHead.toNat + ahead s.dequeue
def held (s : State α) : Nat := s.queueNum.toNat - (taken s.dequeue).length
def contents (s : State α) : List α := window queueSize s.testQueue (base s) (held s)

/- The steps kept apart: a record is copied only while no other is being counted,
the ring has room, and the head is not ahead of the count; and the reads and
writes of the two updates do not overlap. -/
def Separate (s : State α) : Action → Prop
  | .enqueue call => match (s.enqueues[call]?).map Enqueue.pc with
    | some .copy => (∀ q ∈ s.enqueues, ¬ Busy q.pc) ∧
        ahead s.dequeue = (taken s.dequeue).length ∧ held s < queueSize
    | some .read => written s.dequeue = none
    | _ => True
  | .dequeue => match s.dequeue with
    | .read _ => ∀ q ∈ s.enqueues, ¬ Writing q.pc
    | _ => True

instance (s : State α) (action) : Decidable (Separate s action) := by
  unfold Separate; split <;> split <;> infer_instance

structure Orderly (s : State α) : Prop where
  headLow : 0 ≤ s.queueHead
  headHigh : s.queueHead < queueSize
  numLow : 0 ≤ s.queueNum
  more : s.dequeue = .test ∨ 0 < s.queueNum
  room : held s ≤ queueSize
  alone : ∀ (i j : Nat) p q, s.enqueues[i]? = some p → s.enqueues[j]? = some q →
    Busy p.pc → Busy q.pc → i = j
  pending : ∀ (i : Nat) p, s.enqueues[i]? = some p → Busy p.pc →
    held s < queueSize ∧ s.testQueue ((base s + held s) % queueSize) = p.auditLog
  counting : ∀ (i : Nat) p num, s.enqueues[i]? = some p → p.pc = .write num →
    num = s.queueNum ∧ written s.dequeue = none
  reading : ∀ num, written s.dequeue = some num → num = s.queueNum
  accounted : s.accepted.Perm (s.delivered ++ taken s.dequeue ++ contents s)

theorem startOrderly (slots : Nat → α) (records : List α) : Orderly (start slots records) := by
  have idle : ∀ (i : Nat) p, (start slots records).enqueues[i]? = some p → p.pc = .test := by
    intro i p found
    simp only [start,List.getElem?_map,Option.map_eq_some_iff] at found
    obtain ⟨r,-,rfl⟩ := found
    rfl
  refine ⟨Int.le_refl 0,by simp [start,queueSize],Int.le_refl 0,.inl rfl,by simp [held,start],?_,?_,?_,?_,?_⟩
  · intro i j p q found _ busy
    rw [idle i p found] at busy
    exact absurd busy (by decide)
  · intro i p found busy
    rw [idle i p found] at busy
    exact absurd busy (by decide)
  · intro i p num found write
    rw [idle i p found] at write
    contradiction
  · intro num write
    contradiction
  · simp [start,contents,window,held,taken]

theorem takenLength (d : DequeuePc α) : (taken d).length ≤ 1 ∧ ahead d ≤ (taken d).length := by
  cases d <;> simp [taken,ahead]

theorem takenCounted {s : State α} (h : Orderly s) :
    (taken s.dequeue).length ≤ s.queueNum.toNat := by
  have bound := (takenLength s.dequeue).1
  rcases h.more with idle | positive
  · rw [idle]; exact Nat.zero_le _
  · omega

theorem tailIndex {s : State α} (h : Orderly s)
    (level : ahead s.dequeue = (taken s.dequeue).length) :
    index (s.queueHead + s.queueNum) = (base s + held s) % queueSize := by
  have low := Int.add_nonneg h.headLow h.numLow
  have counted := takenCounted h
  rw [index,indexToNat low,Int.toNat_add h.headLow h.numLow,base,held]
  congr 1
  omega

section Calls
variable {s : State α} {call : Nat} {e : Enqueue α} {pc : EnqueuePc}

theorem gotoAt (found : s.enqueues[call]? = some e) (i : Nat) :
    (goto s call e pc)[i]? = if call = i then some {e with pc := pc} else s.enqueues[i]? := by
  obtain ⟨inside,-⟩ := List.getElem?_eq_some_iff.mp found
  rw [goto,List.getElem?_set,if_pos inside]

theorem gotoIdle (found : s.enqueues[call]? = some e) (idle : ¬ Busy pc) {i : Nat} {q : Enqueue α}
    (present : (goto s call e pc)[i]? = some q) (busy : Busy q.pc) : s.enqueues[i]? = some q := by
  rw [gotoAt found] at present
  split at present
  · cases Option.some.inj present
    exact absurd busy idle
  · exact present

theorem gotoSole (found : s.enqueues[call]? = some e)
    (sole : ∀ (i : Nat) q, s.enqueues[i]? = some q → Busy q.pc → call = i) {i : Nat} {q : Enqueue α}
    (present : (goto s call e pc)[i]? = some q) (busy : Busy q.pc) :
    call = i ∧ q = {e with pc := pc} := by
  rw [gotoAt found] at present
  split at present
  · rename_i same
    exact ⟨same,(Option.some.inj present).symm⟩
  · rename_i other
    exact absurd (sole i q present busy) other

theorem writeBusy {num : Int} (write : pc = .write num) : Busy pc := by rw [write]; trivial

theorem testOrderly (h : Orderly s) (found : s.enqueues[call]? = some e) (idle : ¬ Busy pc) :
    Orderly {s with enqueues := goto s call e pc} := by
  refine ⟨h.headLow,h.headHigh,h.numLow,h.more,h.room,?_,?_,?_,h.reading,h.accounted⟩
  · intro i j p q atI atJ busyI busyJ
    exact h.alone i j p q (gotoIdle found idle atI busyI) (gotoIdle found idle atJ busyJ) busyI busyJ
  · intro i p at_ busy
    exact h.pending i p (gotoIdle found idle at_ busy) busy
  · intro i p num at_ write
    exact h.counting i p num (gotoIdle found idle at_ (writeBusy write)) write

theorem copyOrderly (h : Orderly s) (found : s.enqueues[call]? = some e)
    (none : ∀ q ∈ s.enqueues, ¬ Busy q.pc)
    (level : ahead s.dequeue = (taken s.dequeue).length) (space : held s < queueSize) :
    Orderly {s with
      testQueue := store s.testQueue (index (s.queueHead + s.queueNum)) e.auditLog
      enqueues := goto s call e .read} := by
  have sole : ∀ (i : Nat) q, s.enqueues[i]? = some q → Busy q.pc → call = i :=
    fun i q at_ busy => absurd busy (none q (List.mem_of_getElem? at_))
  refine ⟨h.headLow,h.headHigh,h.numLow,h.more,h.room,?_,?_,?_,h.reading,?_⟩
  · intro i j p q atI atJ busyI busyJ
    exact (gotoSole found sole atI busyI).1.symm.trans (gotoSole found sole atJ busyJ).1
  · intro i p at_ busy
    obtain ⟨-,rfl⟩ := gotoSole found sole at_ busy
    refine ⟨space,?_⟩
    change store s.testQueue (index (s.queueHead + s.queueNum)) e.auditLog _ = e.auditLog
    rw [tailIndex h level]
    exact storeAt _ _ _
  · intro i p num at_ write
    obtain ⟨-,rfl⟩ := gotoSole found sole at_ (writeBusy write)
    contradiction
  · change s.accepted.Perm (s.delivered ++ taken s.dequeue ++ window queueSize
      (store s.testQueue (index (s.queueHead + s.queueNum)) e.auditLog) (base s) (held s))
    rw [windowStore e.auditLog (tailIndex h level) space]
    exact h.accounted

theorem readOrderly (h : Orderly s) (found : s.enqueues[call]? = some e) (reading : e.pc = .read)
    (apart : written s.dequeue = none) :
    Orderly {s with enqueues := goto s call e (.write s.queueNum)} := by
  have busy : Busy e.pc := by rw [reading]; trivial
  have sole : ∀ (i : Nat) q, s.enqueues[i]? = some q → Busy q.pc → call = i :=
    fun i q at_ other => h.alone call i e q found at_ busy other
  refine ⟨h.headLow,h.headHigh,h.numLow,h.more,h.room,?_,?_,?_,h.reading,h.accounted⟩
  · intro i j p q atI atJ busyI busyJ
    exact (gotoSole found sole atI busyI).1.symm.trans (gotoSole found sole atJ busyJ).1
  · intro i p at_ busyP
    obtain ⟨-,rfl⟩ := gotoSole found sole at_ busyP
    exact h.pending call e found busy
  · intro i p num at_ write
    obtain ⟨-,rfl⟩ := gotoSole found sole at_ (writeBusy write)
    exact ⟨(EnqueuePc.write.inj write).symm,apart⟩

theorem writeOrderly {num : Int} (h : Orderly s) (found : s.enqueues[call]? = some e)
    (writing : e.pc = .write num) :
    Orderly {s with
      queueNum := num + 1
      enqueues := goto s call e (.returned 0)
      accepted := s.accepted ++ [e.auditLog]} := by
  have busy : Busy e.pc := writeBusy writing
  obtain ⟨rfl,apart⟩ := h.counting call e num found writing
  obtain ⟨space,place⟩ := h.pending call e found busy
  have sole : ∀ (i : Nat) q, s.enqueues[i]? = some q → Busy q.pc → call = i :=
    fun i q at_ other => h.alone call i e q found at_ busy other
  have none : ∀ (i : Nat) q, (goto s call e (.returned 0))[i]? = some q → ¬ Busy q.pc := by
    intro i q at_ other
    obtain ⟨-,rfl⟩ := gotoSole found sole at_ other
    exact other
  have low := h.numLow
  have counted := takenCounted h
  have grown : (s.queueNum + 1).toNat - (taken s.dequeue).length = held s + 1 := by
    rw [held]; omega
  refine ⟨h.headLow,h.headHigh,?_,.inr ?_,?_,?_,?_,?_,?_,?_⟩
  · exact Int.le_trans low (Int.le_add_one (Int.le_refl _))
  · exact Int.lt_add_one_of_le low
  · change (s.queueNum + 1).toNat - _ ≤ _
    rw [grown]; exact space
  · intro i j p q atI _ busyI
    exact absurd busyI (none i p atI)
  · intro i p at_ busyP
    exact absurd busyP (none i p at_)
  · intro i p n at_ write
    exact absurd (writeBusy write) (none i p at_)
  · intro n write
    rw [apart] at write
    contradiction
  · change (s.accepted ++ [e.auditLog]).Perm (s.delivered ++ taken s.dequeue ++
      window queueSize s.testQueue (base s) ((s.queueNum + 1).toNat - (taken s.dequeue).length))
    rw [grown,windowSnoc,place,← List.append_assoc]
    exact h.accounted.append_right _

end Calls

theorem enqueueOrderly {s s' : State α} {call : Nat} (h : Orderly s)
    (apart : Separate s (.enqueue call)) (ok : step s (.enqueue call) = some s') : Orderly s' := by
  simp only [step,bind,Option.bind_eq_some_iff] at ok
  obtain ⟨e,found,moved⟩ := ok
  have condition := apart
  simp only [Separate,found,Option.map_some] at condition
  cases stage : e.pc with
  | test =>
    simp only [enqueueStep,stage] at moved
    cases Option.some.inj moved
    apply testOrderly h found
    split <;> exact id
  | copy =>
    simp only [enqueueStep,stage] at moved condition
    cases Option.some.inj moved
    exact copyOrderly h found condition.1 condition.2.1 condition.2.2
  | read =>
    simp only [enqueueStep,stage] at moved condition
    cases Option.some.inj moved
    exact readOrderly h found stage condition
  | write num =>
    simp only [enqueueStep,stage] at moved
    cases Option.some.inj moved
    exact writeOrderly h found stage
  | returned ret =>
    simp only [enqueueStep,stage] at moved
    contradiction

/- The five steps of the consumer. The contents lose their first record when it
is copied out; the head and the count follow later. -/
theorem dequeueTested {s : State α} (h : Orderly s) (stage : s.dequeue = .test) :
    Orderly {s with dequeue := if s.queueNum > 0 then .copy else .test} := by
  obtain ⟨slots,head,num,enqueues,dequeue,accepted,delivered⟩ := s
  subst stage
  dsimp only at *
  split
  · rename_i positive
    exact ⟨h.headLow,h.headHigh,h.numLow,.inr positive,h.room,h.alone,h.pending,h.counting,
      (fun _ write => nomatch write),h.accounted⟩
  · exact h

theorem dequeueCopied {s : State α} (h : Orderly s) (stage : s.dequeue = .copy) :
    Orderly {s with dequeue := .advance (s.testQueue s.queueHead.toNat)} := by
  obtain ⟨slots,head,num,enqueues,dequeue,accepted,delivered⟩ := s
  subst stage
  have positive : 0 < num := h.more.resolve_left (fun none => nomatch none)
  have low := h.headLow
  have high := h.headHigh
  have room := h.room
  have pending := h.pending
  have accounted := h.accounted
  have count : num.toNat = (num.toNat - 1) + 1 := by omega
  simp only [base,held,contents,taken,ahead,List.length_nil,Nat.add_zero,Nat.sub_zero]
    at room pending accounted low high
  refine ⟨low,high,h.numLow,.inr positive,?_,h.alone,?_,h.counting,(fun _ write => nomatch write),?_⟩
  · change num.toNat - 1 ≤ queueSize
    omega
  · intro i p at_ busy
    obtain ⟨space,place⟩ := pending i p at_ busy
    change num.toNat - 1 < queueSize ∧
      slots ((head.toNat + 1 + (num.toNat - 1)) % queueSize) = p.auditLog
    rw [show head.toNat + 1 + (num.toNat - 1) = head.toNat + num.toNat by omega]
    exact ⟨by omega,place⟩
  · change accepted.Perm (delivered ++ [slots head.toNat] ++
      window queueSize slots (head.toNat + 1) (num.toNat - 1))
    rw [count,windowCons,windowMod,Nat.mod_eq_of_lt (by omega)] at accounted
    simpa using accounted

theorem dequeueAdvanced {s : State α} {x : α} (h : Orderly s) (stage : s.dequeue = .advance x) :
    Orderly {s with
      queueHead := (s.queueHead + 1).tmod queueSize
      dequeue := .read x} := by
  obtain ⟨slots,head,num,enqueues,dequeue,accepted,delivered⟩ := s
  subst stage
  have low : 0 ≤ head + 1 := Int.le_trans h.headLow (Int.le_add_one (Int.le_refl _))
  have next : ((head + 1).tmod queueSize).toNat = (head.toNat + 1) % queueSize := by
    rw [indexToNat low,Int.toNat_add h.headLow (by decide)]
    rfl
  refine ⟨?_,?_,h.numLow,.inr (h.more.resolve_left (fun none => nomatch none)),h.room,h.alone,?_,
    h.counting,(fun _ write => nomatch write),?_⟩
  · exact Int.tmod_nonneg _ low
  · exact Int.tmod_lt_of_pos _ (by decide)
  · intro i p at_ busy
    obtain ⟨space,place⟩ := h.pending i p at_ busy
    refine ⟨space,?_⟩
    change slots ((((head + 1).tmod queueSize).toNat + (num.toNat - 1)) % queueSize) = _
    rw [next,Nat.mod_add_mod]
    exact place
  · change accepted.Perm (delivered ++ [x] ++
      window queueSize slots ((head + 1).tmod queueSize).toNat (num.toNat - 1))
    rw [next,windowMod]
    exact h.accounted

theorem dequeueRead {s : State α} {x : α} (h : Orderly s) (stage : s.dequeue = .read x)
    (apart : ∀ q ∈ s.enqueues, ¬ Writing q.pc) :
    Orderly {s with dequeue := .write x s.queueNum} := by
  obtain ⟨slots,head,num,enqueues,dequeue,accepted,delivered⟩ := s
  subst stage
  refine ⟨h.headLow,h.headHigh,h.numLow,.inr (h.more.resolve_left (fun none => nomatch none)),
    h.room,h.alone,h.pending,?_,fun n write => (Option.some.inj write).symm,h.accounted⟩
  intro i p n at_ write
  exact absurd (show Writing p.pc by rw [write]; trivial) (apart p (List.mem_of_getElem? at_))

theorem dequeueWritten {s : State α} {x : α} {num : Int} (h : Orderly s)
    (stage : s.dequeue = .write x num) :
    Orderly {s with
      queueNum := num - 1
      dequeue := .test
      delivered := s.delivered ++ [x]} := by
  obtain ⟨slots,head,count,enqueues,dequeue,accepted,delivered⟩ := s
  subst stage
  have same : num = count := h.reading num rfl
  subst same
  have positive : 0 < num := h.more.resolve_left (fun none => nomatch none)
  have shrunk : (num - 1).toNat - 0 = num.toNat - 1 := by omega
  refine ⟨h.headLow,h.headHigh,?_,.inl rfl,?_,h.alone,?_,?_,(fun _ write => nomatch write),?_⟩
  · exact Int.le_sub_one_of_lt positive
  · change (num - 1).toNat - 0 ≤ queueSize
    rw [shrunk]
    exact h.room
  · intro i p at_ busy
    obtain ⟨space,place⟩ := h.pending i p at_ busy
    change (num - 1).toNat - 0 < queueSize ∧
      slots ((head.toNat + 0 + ((num - 1).toNat - 0)) % queueSize) = p.auditLog
    rw [shrunk]
    exact ⟨space,place⟩
  · intro i p n at_ write
    exact nomatch (h.counting i p n at_ write).2
  · change accepted.Perm (delivered ++ [x] ++ [] ++
      window queueSize slots (head.toNat + 0) ((num - 1).toNat - 0))
    rw [shrunk,List.append_nil]
    exact h.accounted

theorem dequeueOrderly {s : State α} (h : Orderly s) (apart : Separate s .dequeue) :
    Orderly (dequeueStep s) := by
  cases stage : s.dequeue with
  | test => simp only [dequeueStep,stage]; exact dequeueTested h stage
  | copy => simp only [dequeueStep,stage]; exact dequeueCopied h stage
  | advance x => simp only [dequeueStep,stage]; exact dequeueAdvanced h stage
  | read x =>
    simp only [Separate,stage] at apart
    simp only [dequeueStep,stage]
    exact dequeueRead h stage apart
  | write x num => simp only [dequeueStep,stage]; exact dequeueWritten h stage

theorem stepOrderly {s s' : State α} {action : Action} (h : Orderly s) (apart : Separate s action)
    (ok : step s action = some s') : Orderly s' := by
  cases action with
  | enqueue call => exact enqueueOrderly h apart ok
  | dequeue =>
    cases Option.some.inj ok
    exact dequeueOrderly h apart

def Returned : EnqueuePc → Prop
  | .returned _ => True
  | _ => False
instance (pc) : Decidable (Returned pc) := by unfold Returned; split <;> infer_instance

def Finished (s : State α) : Prop := (∀ e ∈ s.enqueues, Returned e.pc) ∧ s.dequeue = .test

def remaining (s : State α) : List α :=
  window queueSize s.testQueue s.queueHead.toNat s.queueNum.toNat

theorem recordsConserved {slots : Nat → α} {records actions s}
    (run : Run (Restrict Separate (Of step)) (start slots records) actions s)
    (finished : Finished s) : s.accepted.Perm (s.delivered ++ remaining s) := by
  have preserved : ∀ (s : State α) action s', Orderly s → Restrict Separate (Of step) s action s' →
      Orderly s' := fun s action s' h moved => stepOrderly h moved.1 moved.2
  have orderly := invariant preserved run (startOrderly slots records)
  have accounted := orderly.accounted
  rw [contents,base,held,finished.2] at accounted
  simpa [taken,ahead,remaining] using accounted

def afterEnqueue (s : State α) (call : Nat) (record : α) : State α :=
  if s.queueNum < queueSize then {s with
    testQueue := store s.testQueue (index (s.queueHead + s.queueNum)) record
    queueNum := s.queueNum + 1
    enqueues := s.enqueues.set call ⟨record,.returned 0⟩
    accepted := s.accepted ++ [record]}
  else {s with enqueues := s.enqueues.set call ⟨record,.returned (-1)⟩}

def afterDequeue (s : State α) : State α :=
  if s.queueNum > 0 then {s with
    queueHead := (s.queueHead + 1).tmod queueSize
    queueNum := s.queueNum - 1
    dequeue := .test
    delivered := s.delivered ++ [s.testQueue s.queueHead.toNat]}
  else s

theorem enqueueAlone {s : State α} {call : Nat} {record : α}
    (found : s.enqueues[call]? = some ⟨record,.test⟩) :
    ∃ n, Run (Of step) s (List.replicate n (.enqueue call)) (afterEnqueue s call record) := by
  obtain ⟨inside,entry⟩ := List.getElem?_eq_some_iff.mp found
  unfold afterEnqueue
  split
  · rename_i room
    refine ⟨4,execRun.mp ?_⟩
    simp [exec,List.replicate,step,enqueueStep,goto,entry,room,inside]
  · rename_i full
    refine ⟨1,execRun.mp ?_⟩
    simp [exec,List.replicate,step,enqueueStep,goto,entry,full,inside]

theorem dequeueAlone {s : State α} (idle : s.dequeue = .test) :
    ∃ n, Run (Of step) s (List.replicate n .dequeue) (afterDequeue s) := by
  unfold afterDequeue
  split
  · rename_i held
    refine ⟨5,execRun.mp ?_⟩
    simp [exec,List.replicate,step,dequeueStep,idle,held]
  · exact ⟨0,.nil s⟩

/- There the steps are the functions of the ring: the shared state goes on showing
what they return. -/
def Shows (s : State CString) (r : Ring) : Prop :=
  s.queueHead = r.queueHead ∧ s.queueNum = r.queueNum ∧ remaining s = queued r

theorem enqueueShows {s : State CString} {r : Ring} {record : CString} (call : Nat)
    (wf : WellFormed r) (short : record.length < slotSize) (shows : Shows s r) :
    Shows (afterEnqueue s call record) (KernelRing.enqueue record r).2 := by
  obtain ⟨head,num,same⟩ := shows
  by_cases room : r.queueNum < queueSize
  · have low := Int.add_nonneg wf.headLow wf.numLow
    have nonnegative := wf.numLow
    have place : index (s.queueHead + s.queueNum) =
        (s.queueHead.toNat + s.queueNum.toNat) % queueSize := by
      rw [index,head,num,indexToNat low,Int.toNat_add wf.headLow wf.numLow]
    have size : s.queueNum.toNat < queueSize := by omega
    have next : (s.queueNum + 1).toNat = s.queueNum.toNat + 1 := by omega
    rw [afterEnqueue,if_pos (num ▸ room)]
    refine ⟨?_,?_,?_⟩
    · simp only [KernelRing.enqueue,if_pos room,head]
    · simp only [KernelRing.enqueue,if_pos room,num]
    · rw [KernelRing.enqueueQueued wf short room,← same]
      change window queueSize (store s.testQueue (index (s.queueHead + s.queueNum)) record)
        s.queueHead.toNat (s.queueNum + 1).toNat = _
      rw [next,windowStored record place size]
      rfl
  · rw [afterEnqueue,if_neg (num ▸ room),KernelRing.enqueueFull record room]
    exact ⟨head,num,same⟩

theorem dequeueShows {s : State CString} {r : Ring} (buffer : CString) (bounds : InBounds r)
    (shows : Shows s r) : Shows (afterDequeue s) (KernelRing.dequeue buffer r).2.2 ∧
    (afterDequeue s).delivered = s.delivered ++
      (if r.queueNum > 0 then [(KernelRing.dequeue buffer r).2.1] else []) := by
  obtain ⟨head,num,same⟩ := shows
  by_cases held : r.queueNum > 0
  · have headLow := bounds.headLow
    have headHigh := bounds.headHigh
    have taken := KernelRing.dequeueQueued buffer bounds held
    have high : s.queueHead.toNat < queueSize := by omega
    have next : (s.queueHead + 1).toNat = s.queueHead.toNat + 1 := by omega
    have count : s.queueNum.toNat = (s.queueNum - 1).toNat + 1 := by omega
    rw [← same,remaining,count,windowCons,Nat.mod_eq_of_lt high] at taken
    obtain ⟨first,rest⟩ := List.cons.inj taken
    rw [afterDequeue,if_pos (num ▸ held),if_pos held,← first]
    refine ⟨⟨?_,?_,?_⟩,rfl⟩
    · simp only [KernelRing.dequeue,if_pos held,head]
    · simp only [KernelRing.dequeue,if_pos held,num]
    · rw [← rest]
      change window queueSize s.testQueue ((s.queueHead + 1).tmod queueSize).toNat _ = _
      rw [indexToNat (by omega),next]
  · rw [afterDequeue,if_neg (num ▸ held),if_neg held,List.append_nil,KernelRing.dequeue,if_neg held]
    exact ⟨⟨head,num,same⟩,rfl⟩

def inTurn : List Action := List.replicate 4 (.enqueue 0) ++ List.replicate 4 (.enqueue 1) ++
  List.replicate 5 .dequeue

theorem recordsConservedInTurn : ∃ s,
    Run (Restrict Separate (Of step)) (start (fun _ => 0) [1,2]) inTurn s ∧
    s.accepted.Perm (s.delivered ++ remaining s) := by
  have run := execWithinRun (show execWithin Separate step (start (fun _ => 0) [1,2]) inTurn = some _ from rfl)
  exact ⟨_,run,recordsConserved run ⟨by decide,rfl⟩⟩

/- Both calls pass their test and copy before either counts: the second record
takes the slot of the first, and the count takes in a slot nobody wrote. -/
def together : List Action := [.enqueue 0,.enqueue 1,.enqueue 0,.enqueue 1,.enqueue 0,.enqueue 0,
  .enqueue 1,.enqueue 1]

theorem copiesCollide : ∃ s, Run (Of step) (start (fun _ => 0) [1,2]) together s ∧ Finished s ∧
    s.accepted = [1,2] ∧ s.delivered = [] ∧ remaining s = [2,0] ∧
    ¬ s.accepted.Perm (s.delivered ++ remaining s) := by
  have run := execRun.mp (show exec step (start (fun _ => 0) [1,2]) together = some _ from rfl)
  exact ⟨_,run,⟨by decide,rfl⟩,by decide,by decide,by decide,by decide⟩

end TeePa.RingRaces
