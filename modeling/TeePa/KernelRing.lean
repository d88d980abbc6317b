import TeePa.Runs
import TeePa.CStrings
import TeePa.BoundedFifo

/-! The kernel's ring of audit records. `test_queue` is kept as the contiguous
byte array it is, 15000 slots of 1024 bytes, and `strcpy` is bounded by nothing:
`enqueue` computes the record's length and never looks at it. A record longer
than a slot is representable here and runs into the next one. -/
namespace TeePa.KernelRing
open CStrings BoundedFifo Runs

def queueSize : Nat := 15000
def slotSize : Nat := 1024

structure Ring where
  testQueue : Memory
  queueHead : Int
  queueNum : Int

def initial (m : Memory) : Ring := ⟨m,0,0⟩

-- The address of test_queue[index].data.
def data (index : Int) : Nat := index.toNat * slotSize

def enqueue (auditLog : CString) (r : Ring) : Int × Ring :=
  if r.queueNum < queueSize then
    (0,{r with
      testQueue := strcpy r.testQueue (data ((r.queueHead + r.queueNum).tmod queueSize)) auditLog
      queueNum := r.queueNum + 1})
  else (-1,r)

/- The argument is what the caller's buffer holds; the second result is what it
holds afterwards. -/
def dequeue (auditLog : CString) (r : Ring) : Int × CString × Ring :=
  if r.queueNum > 0 then
    (0,stringAt r.testQueue (data r.queueHead),{r with
      queueHead := (r.queueHead + 1).tmod queueSize
      queueNum := r.queueNum - 1})
  else (-1,auditLog,r)

/- The view of the ring as a queue: the string each slot would be read as, and
the strings from the head on. -/
def slots (r : Ring) (i : Nat) : CString := stringAt r.testQueue (i * slotSize)

def queued (r : Ring) : List CString :=
  window queueSize (slots r) r.queueHead.toNat r.queueNum.toNat

structure InBounds (r : Ring) : Prop where
  headLow : 0 ≤ r.queueHead
  headHigh : r.queueHead < queueSize
  numLow : 0 ≤ r.queueNum
  numHigh : r.queueNum ≤ queueSize

structure WellFormed (r : Ring) : Prop extends InBounds r where
  contained : ∀ s ∈ queued r, s.length < slotSize

theorem sizeIs : (queueSize : Int) = 15000 := rfl

theorem indexToNat {x : Int} (low : 0 ≤ x) :
    (x.tmod queueSize).toNat = x.toNat % queueSize := by
  rw [Int.tmod_eq_emod_of_nonneg low,sizeIs,show queueSize = 15000 from rfl]
  omega

theorem tailSlot {r : Ring} (bounds : InBounds r) :
    data ((r.queueHead + r.queueNum).tmod queueSize) =
      ((r.queueHead.toNat + r.queueNum.toNat) % queueSize) * slotSize := by
  have low := Int.add_nonneg bounds.headLow bounds.numLow
  rw [data,indexToNat low,Int.toNat_add bounds.headLow bounds.numLow]

theorem initialWellFormed (m : Memory) : WellFormed (initial m) := by
  refine ⟨⟨Int.le_refl 0,?_,Int.le_refl 0,?_⟩,?_⟩ <;> simp [initial,queued,window,queueSize]

theorem initialQueued (m : Memory) : queued (initial m) = [] := rfl

theorem queuedLength {r : Ring} (bounds : InBounds r) : ((queued r).length : Int) = r.queueNum := by
  rw [queued,windowLength,Int.toNat_of_nonneg bounds.numLow]

theorem enqueueFull {r : Ring} (s : CString) (full : ¬ r.queueNum < queueSize) :
    enqueue s r = (-1,r) := if_neg full

theorem enqueueBounds {r : Ring} (s : CString) (bounds : InBounds r) : InBounds (enqueue s r).2 := by
  unfold enqueue
  split
  · have := bounds.numLow
    exact ⟨bounds.headLow,bounds.headHigh,by dsimp only; omega,by dsimp only; omega⟩
  · exact bounds

theorem dequeueBounds {r : Ring} (buffer : CString) (bounds : InBounds r) :
    InBounds (dequeue buffer r).2.2 := by
  unfold dequeue
  split
  · have low : 0 ≤ r.queueHead + 1 := by have := bounds.headLow; omega
    have high := bounds.numHigh
    have small := Int.emod_lt_of_pos (r.queueHead + 1) (show (0 : Int) < queueSize by decide)
    have positive := Int.emod_nonneg (r.queueHead + 1) (show (queueSize : Int) ≠ 0 by decide)
    refine ⟨?_,?_,?_,?_⟩ <;> dsimp only
    · rwa [Int.tmod_eq_emod_of_nonneg low]
    · rwa [Int.tmod_eq_emod_of_nonneg low]
    · omega
    · omega
  · exact bounds

theorem slotUntouched {m : Memory} {i j : Nat} {s : CString} (different : i ≠ j)
    (short : s.length < slotSize) (contained : (stringAt m (i * slotSize)).length < slotSize) :
    stringAt (strcpy m (j * slotSize) s) (i * slotSize) = stringAt m (i * slotSize) := by
  have small : (stringAt m (i * slotSize)).length < addressSpace :=
    addressSpaceLarge (Nat.lt_trans contained (by decide))
  apply stringAtOfHolds _ small
  apply holdsFrame (holdsStringAt small)
  intro x low high
  apply strcpyOutside
  simp only [slotSize] at *
  omega

theorem enqueueQueued {r : Ring} {s : CString} (wf : WellFormed r) (short : s.length < slotSize)
    (room : r.queueNum < queueSize) : queued (enqueue s r).2 = queued r ++ [s] := by
  have bounds := wf.toInBounds
  have size : r.queueNum.toNat < queueSize := by have := bounds.numLow; omega
  have next : (r.queueNum + 1).toNat = r.queueNum.toNat + 1 := by have := bounds.numLow; omega
  simp only [enqueue,if_pos room,queued,next,windowSnoc]
  congr 1
  · apply windowCongr
    intro i inside
    simp only [slots,tailSlot bounds]
    apply slotUntouched (distinctSlots inside size) short
    exact wf.contained _ (List.mem_of_getElem? (windowAt inside))
  · simp only [slots,tailSlot bounds,List.cons.injEq,and_true]
    exact stringAtOfHolds (strcpyHolds _ _ s)
      (addressSpaceLarge (Nat.lt_trans short (by decide)))

theorem enqueueWellFormed {r : Ring} {s : CString} (wf : WellFormed r) (short : s.length < slotSize) :
    WellFormed (enqueue s r).2 := by
  by_cases room : r.queueNum < queueSize
  · refine ⟨enqueueBounds s wf.toInBounds,?_⟩
    intro t mem
    rw [enqueueQueued wf short room] at mem
    rcases List.mem_append.mp mem with old | new
    · exact wf.contained t old
    · rw [List.mem_singleton.mp new]; exact short
  · rw [enqueueFull s room]; exact wf

theorem dequeueQueued {r : Ring} (buffer : CString) (bounds : InBounds r) (held : r.queueNum > 0) :
    queued r = (dequeue buffer r).2.1 :: queued (dequeue buffer r).2.2 := by
  have headHigh : r.queueHead.toNat < queueSize := by
    have := bounds.headLow; have := bounds.headHigh; omega
  have low : 0 ≤ r.queueHead + 1 := by have := bounds.headLow; omega
  have head : (r.queueHead + 1).toNat = r.queueHead.toNat + 1 := by have := bounds.headLow; omega
  have count : r.queueNum.toNat = (r.queueNum - 1).toNat + 1 := by omega
  simp only [dequeue,if_pos held,queued]
  rw [count,windowCons,indexToNat low,head,Nat.mod_eq_of_lt headHigh]
  rfl

theorem dequeueWellFormed {r : Ring} (buffer : CString) (wf : WellFormed r) :
    WellFormed (dequeue buffer r).2.2 := by
  refine ⟨dequeueBounds buffer wf.toInBounds,?_⟩
  intro s mem
  by_cases held : r.queueNum > 0
  · apply wf.contained
    rw [dequeueQueued buffer wf.toInBounds held]
    exact List.mem_cons_of_mem _ mem
  · rw [dequeue,if_neg held] at mem
    exact wf.contained s mem

inductive Call where
  | enqueue (auditLog : CString)
  | dequeue (auditLog : CString)
  deriving DecidableEq, Repr

structure Reply where
  ret : Int
  auditLog : CString
  deriving DecidableEq, Repr

def call (r : Ring) : Call → Reply × Ring
  | .enqueue s => (⟨(enqueue s r).1,s⟩,(enqueue s r).2)
  | .dequeue buffer => (⟨(dequeue buffer r).1,(dequeue buffer r).2.1⟩,(dequeue buffer r).2.2)

/- What the ring is for: a first-in first-out queue of at most 15000 records. -/
def fifoCall (q : List CString) : Call → Reply × List CString
  | .enqueue s => (⟨if (push queueSize s q).1 then 0 else -1,s⟩,(push queueSize s q).2)
  | .dequeue buffer => match pop q with
    | (some s,rest) => (⟨0,s⟩,rest)
    | (none,rest) => (⟨-1,buffer⟩,rest)

def ShortRecord : Call → Prop
  | .enqueue s => s.length < slotSize
  | .dequeue _ => True

structure Refines (r : Ring) (q : List CString) : Prop where
  wellFormed : WellFormed r
  contents : queued r = q

theorem callRefines {r : Ring} {q : List CString} (related : Refines r q) (c : Call)
    (short : ShortRecord c) :
    (call r c).1 = (fifoCall q c).1 ∧ Refines (call r c).2 (fifoCall q c).2 := by
  obtain ⟨wf,rfl⟩ := related
  have count := queuedLength wf.toInBounds
  cases c with
  | enqueue s =>
    by_cases room : r.queueNum < queueSize
    · have pushed : push queueSize s (queued r) = (true,queued r ++ [s]) := if_pos (by omega)
      simp only [call,fifoCall,pushed]
      refine ⟨by simp [enqueue,if_pos room],enqueueWellFormed wf short,enqueueQueued wf short room⟩
    · have pushed : push queueSize s (queued r) = (false,queued r) := if_neg (by omega)
      simp only [call,fifoCall,pushed,enqueueFull s room]
      exact ⟨rfl,wf,rfl⟩
  | dequeue buffer =>
    by_cases held : r.queueNum > 0
    · have taken := dequeueQueued buffer wf.toInBounds held
      have popped : pop (queued r) =
          (some (dequeue buffer r).2.1,queued (dequeue buffer r).2.2) := by rw [taken]; rfl
      simp only [call,fifoCall,popped]
      exact ⟨by simp [dequeue,if_pos held],dequeueWellFormed buffer wf,rfl⟩
    · have none : queued r = [] := List.eq_nil_of_length_eq_zero (by omega)
      have same : dequeue buffer r = (-1,buffer,r) := if_neg held
      simp only [call,fifoCall,none,pop,same]
      exact ⟨trivial,wf,none⟩

structure Answers (r : Ring) (q : List CString) : Prop where
  full : ∀ s, (enqueue s r).1 = -1 ↔ q.length = queueSize
  fullKeeps : ∀ s, (enqueue s r).1 = -1 → (enqueue s r).2 = r
  stored : ∀ s, (enqueue s r).1 ≠ -1 → (enqueue s r).1 = 0
  none : ∀ buffer, (dequeue buffer r).1 = -1 ↔ q = []
  noneKeeps : ∀ buffer, (dequeue buffer r).1 = -1 → (dequeue buffer r).2 = (buffer,r)
  oldest : ∀ buffer s rest, q = s::rest → (dequeue buffer r).1 = 0 ∧ (dequeue buffer r).2.1 = s

theorem answers {r : Ring} {q : List CString} (related : Refines r q) : Answers r q := by
  obtain ⟨wf,rfl⟩ := related
  have count := queuedLength wf.toInBounds
  have high := wf.numHigh
  have low := wf.numLow
  refine ⟨?_,?_,?_,?_,?_,?_⟩
  · intro s
    unfold enqueue
    split <;> simp <;> omega
  · intro s failed
    unfold enqueue at failed ⊢
    split <;> simp_all
  · intro s
    unfold enqueue
    split <;> simp
  · intro buffer
    have empty : queued r = [] ↔ r.queueNum = 0 := by rw [← List.length_eq_zero_iff]; omega
    rw [empty]
    unfold dequeue
    split <;> simp <;> omega
  · intro buffer failed
    unfold dequeue at failed ⊢
    split <;> simp_all
  · intro buffer s rest front
    have held : r.queueNum > 0 := by rw [front,List.length_cons] at count; omega
    have taken := dequeueQueued buffer wf.toInBounds held
    rw [front] at taken
    exact ⟨by simp [dequeue,if_pos held],(List.cons.inj taken).1.symm⟩

theorem finalRefines (m : Memory) (calls : List Call) (short : ∀ c ∈ calls, ShortRecord c) :
    replies call (initial m) calls = replies fifoCall [] calls ∧
    Refines (final call (initial m) calls) (final fifoCall [] calls) :=
  repliesAgree Refines ShortRecord (fun _ _ c related ok => callRefines related c ok)
    ⟨initialWellFormed m,initialQueued m⟩ short

theorem ringIsBoundedFifo (m : Memory) (calls : List Call) (short : ∀ c ∈ calls, ShortRecord c) :
    replies call (initial m) calls = replies fifoCall [] calls ∧
    queued (final call (initial m) calls) = final fifoCall [] calls ∧
    Answers (final call (initial m) calls) (final fifoCall [] calls) ∧
    InBounds (final call (initial m) calls) := by
  obtain ⟨same,related⟩ := finalRefines m calls short
  exact ⟨same,related.contents,answers related,related.wellFormed.toInBounds⟩

def filled (n : Nat) (b : UInt8) (notNul : b ≠ 0) : CString :=
  ⟨List.replicate n b,by intro c mem; rw [List.eq_of_mem_replicate mem]; exact notNul⟩

@[simp] theorem filledLength (n : Nat) (b : UInt8) (notNul : b ≠ 0) :
    (filled n b notNul).length = n := List.length_replicate

def twoRecords : List Call := [.enqueue (filled 3 71 (by decide)),.enqueue (filled 1023 66 (by decide)),
  .dequeue .empty,.dequeue .empty,.dequeue (filled 1 67 (by decide))]

theorem ringIsBoundedFifoTwoRecords : (∀ c ∈ twoRecords, ShortRecord c) ∧
    replies call (initial (fun _ => 1)) twoRecords =
      [⟨0,filled 3 71 (by decide)⟩,⟨0,filled 1023 66 (by decide)⟩,⟨0,filled 3 71 (by decide)⟩,
        ⟨0,filled 1023 66 (by decide)⟩,⟨-1,filled 1 67 (by decide)⟩] := by
  have short : ∀ c ∈ twoRecords, ShortRecord c := by
    simp [twoRecords,ShortRecord,slotSize]
  exact ⟨short,(ringIsBoundedFifo (fun _ => 1) twoRecords short).1.trans rfl⟩

def drain : Nat → Ring → List CString
  | 0, _ => []
  | n+1, r =>
      if (dequeue .empty r).1 = 0 then (dequeue .empty r).2.1 :: drain n (dequeue .empty r).2.2
      else []

def enqueueAll (records : List CString) (r : Ring) : Ring :=
  records.foldl (fun r s => (enqueue s r).2) r

theorem drainQueued {r : Ring} (bounds : InBounds r) (n : Nat) : drain n r = (queued r).take n := by
  induction n generalizing r with
  | zero => rfl
  | succ n ih =>
    have count := queuedLength bounds
    by_cases held : r.queueNum > 0
    · have delivered : (dequeue .empty r).1 = 0 := by simp [dequeue,if_pos held]
      have taken := dequeueQueued .empty bounds held
      rw [drain,if_pos delivered,ih (dequeueBounds .empty bounds),taken,List.take_succ_cons]
    · have failed : (dequeue .empty r).1 = -1 := by simp [dequeue,if_neg held]
      have none : queued r = [] := List.eq_nil_of_length_eq_zero (by omega)
      rw [drain,failed,none]
      rfl

theorem drainAll {r : Ring} (bounds : InBounds r) : drain r.queueNum.toNat r = queued r := by
  rw [drainQueued bounds,List.take_of_length_le]
  have := queuedLength bounds
  omega

theorem enqueueAllQueued {r : Ring} (wf : WellFormed r) (records : List CString)
    (short : ∀ s ∈ records, s.length < slotSize) :
    WellFormed (enqueueAll records r) ∧ queued r <+: queued (enqueueAll records r) := by
  induction records generalizing r with
  | nil => exact ⟨wf,List.prefix_refl _⟩
  | cons s rest ih =>
    have head := short s (by simp)
    have next := ih (enqueueWellFormed wf head) (fun t mem => short t (List.mem_cons_of_mem _ mem))
    refine ⟨next.1,List.IsPrefix.trans ?_ next.2⟩
    by_cases room : r.queueNum < queueSize
    · exact ⟨[s],(enqueueQueued wf head room).symm⟩
    · exact ⟨[],by simp only [enqueueFull s room,List.append_nil]⟩

def ringStep (r : Ring) (c : Call) (r' : Ring) : Prop := (call r c).2 = r'

theorem runWellFormed {m : Memory} {calls : List Call} {r : Ring}
    (run : Run (Restrict (fun _ c => ShortRecord c) ringStep) (initial m) calls r) :
    WellFormed r := by
  refine invariant ?_ run (initialWellFormed m)
  intro s c t wf step
  obtain ⟨short,rfl⟩ := step
  exact (callRefines ⟨wf,rfl⟩ c short).2.wellFormed

theorem shortRecordsIsolated {m : Memory} {calls : List Call} {r : Ring}
    (run : Run (Restrict (fun _ c => ShortRecord c) ringStep) (initial m) calls r)
    {s : CString} (short : s.length < slotSize) (accepted : (enqueue s r).1 = 0)
    {later : List CString} (laterShort : ∀ t ∈ later, t.length < slotSize) :
    drain r.queueNum.toNat (enqueue s r).2 = drain r.queueNum.toNat r ∧
    (drain (r.queueNum.toNat+1) (enqueueAll later (enqueue s r).2))[r.queueNum.toNat]? = some s := by
  have wf := runWellFormed run
  have room : r.queueNum < queueSize := by
    by_cases room : r.queueNum < queueSize
    · exact room
    · rw [enqueueFull s room] at accepted; contradiction
  have count : (queued r).length = r.queueNum.toNat := by
    have := queuedLength wf.toInBounds
    omega
  have next := enqueueWellFormed wf short
  have behind := enqueueAllQueued next later laterShort
  rw [enqueueQueued wf short room] at behind
  obtain ⟨more,same⟩ := behind.2
  constructor
  · rw [drainQueued next.toInBounds,drainAll wf.toInBounds,enqueueQueued wf short room,← count,
      List.take_left]
  · rw [drainQueued behind.1.toInBounds,← same,← count,
      List.getElem?_take_of_lt (Nat.lt_succ_self _)]
    simp

theorem overlongRecordGlued {r : Ring} {s t : CString} {k : Nat} (bounds : InBounds r)
    (place : (r.queueHead.toNat + r.queueNum.toNat) % queueSize = k)
    (next : (r.queueHead.toNat + r.queueNum.toNat + 1) % queueSize = k+1)
    (room : r.queueNum + 1 < queueSize) (long : slotSize ≤ s.length)
    (small : slotSize + t.length < addressSpace) :
    slots (enqueueAll [s,t] r) k = (s.take slotSize).append t := by
  have first : r.queueNum < queueSize := by omega
  have stored : (enqueue s r).2 =
      {r with testQueue := strcpy r.testQueue (k * slotSize) s,queueNum := r.queueNum + 1} := by
    simp only [enqueue,if_pos first,tailSlot bounds,place]
  have bounds' := enqueueBounds s bounds
  have count : (r.queueNum + 1).toNat = r.queueNum.toNat + 1 := by have := bounds.numLow; omega
  have place' := tailSlot bounds'
  rw [stored] at place'
  simp only [count,← Nat.add_assoc,next] at place'
  have memory : (enqueueAll [s,t] r).testQueue =
      strcpy (strcpy r.testQueue (k * slotSize) s) ((k+1) * slotSize) t := by
    simp only [enqueueAll,List.foldl_cons,List.foldl_nil,stored]
    simp only [enqueue,if_pos room,place']
  have size : (s.take slotSize).length = slotSize := by
    rw [CString.takeLength,Nat.min_eq_left long]
  rw [slots,memory]
  apply stringAtOfHolds
  · apply gluedHolds size
    · intro i b found
      have inside : i < slotSize := by
        rw [← size]; exact (List.getElem?_eq_some_iff.mp found).1
      rw [strcpyOutside (Or.inl (by simp only [slotSize] at *; omega))]
      apply (strcpyHolds r.testQueue (k * slotSize) s).bytes
      simpa [CString.take,List.getElem?_take_of_lt inside] using found
    · rw [show k * slotSize + slotSize = (k+1) * slotSize by rw [Nat.succ_mul]]
      exact strcpyHolds _ _ t
  · rwa [CString.appendLength,size]

theorem overlongFirstGlued (m : Memory) {s t : CString} (long : slotSize ≤ s.length)
    (small : slotSize + t.length < addressSpace) :
    (drain 1 (enqueueAll [t] (enqueue s (initial m)).2))[0]? = some ((s.take slotSize).append t) := by
  have start := (initialWellFormed m).toInBounds
  have glued := overlongRecordGlued start rfl rfl (by simp [initial,queueSize]) long small
  have bounds := enqueueBounds t (enqueueBounds s start)
  have view := drainQueued bounds 1
  simp only [enqueueAll,List.foldl_cons,List.foldl_nil] at glued ⊢
  rw [view,List.getElem?_take_of_lt Nat.zero_lt_one,queued,windowAt (by simp [enqueue,initial,queueSize])]
  exact congrArg some glued

theorem fullSlotGlued :
    (enqueue (filled 1024 65 (by decide)) (initial (fun _ => 0))).1 = 0 ∧
    (drain 1 (enqueueAll [filled 1 66 (by decide)]
      (enqueue (filled 1024 65 (by decide)) (initial (fun _ => 0))).2))[0]? ≠
      some (filled 1024 65 (by decide)) := by
  refine ⟨rfl,?_⟩
  rw [overlongFirstGlued _ (by rw [filledLength]; decide)
    (by rw [filledLength]; exact addressSpaceLarge (by decide))]
  intro same
  have lengths := congrArg CString.length (Option.some.inj same)
  rw [CString.appendLength,filledLength,filledLength,CString.takeLength,filledLength] at lengths
  exact absurd lengths (by decide)

def neighbours : List Call := [.enqueue (filled 3 71 (by decide)),.enqueue (filled 300 66 (by decide)),
  .dequeue .empty,.enqueue (filled 1023 67 (by decide))]

theorem runFinal (calls : List Call) (short : ∀ c ∈ calls, ShortRecord c) (r : Ring) :
    Run (Restrict (fun _ c => ShortRecord c) ringStep) r calls (final call r calls) := by
  induction calls generalizing r with
  | nil => exact .nil r
  | cons c rest ih =>
    obtain ⟨first,others⟩ := List.forall_mem_cons.mp short
    exact .cons ⟨first,rfl⟩ (ih others (call r c).2)

theorem shortRecordsIsolatedThird : ∃ r,
    Run (Restrict (fun _ c => ShortRecord c) ringStep) (initial (fun _ => 1)) neighbours r ∧
    drain 2 r = [filled 300 66 (by decide),filled 1023 67 (by decide)] ∧
    drain 2 (enqueue (filled 1023 68 (by decide)) r).2 = drain 2 r ∧
    (drain 3 (enqueueAll [filled 1023 69 (by decide),filled 1 70 (by decide)]
      (enqueue (filled 1023 68 (by decide)) r).2))[2]? = some (filled 1023 68 (by decide)) := by
  have short : ∀ c ∈ neighbours, ShortRecord c := by
    simp [neighbours,ShortRecord,slotSize]
  obtain ⟨-,wf,contents⟩ := finalRefines (fun _ => 1) neighbours short
  have queued : queued (final call (initial (fun _ => 1)) neighbours) =
      [filled 300 66 (by decide),filled 1023 67 (by decide)] := contents.trans rfl
  have count : (final call (initial (fun _ => 1)) neighbours).queueNum = 2 := by
    have length := queuedLength wf.toInBounds
    rw [queued] at length
    exact length.symm
  have run := runFinal neighbours short (initial (fun _ => 1))
  have accepted : (enqueue (filled 1023 68 (by decide))
      (final call (initial (fun _ => 1)) neighbours)).1 = 0 := by
    rw [enqueue,if_pos (by rw [count]; decide)]
  have behind : ∀ t ∈ [filled 1023 69 (by decide),filled 1 70 (by decide)], t.length < slotSize := by
    simp [slotSize]
  have isolated := shortRecordsIsolated run (by rw [filledLength]; decide) accepted behind
  rw [count] at isolated
  refine ⟨_,run,?_,isolated⟩
  rw [drainQueued wf.toInBounds,queued]
  rfl

end TeePa.KernelRing
