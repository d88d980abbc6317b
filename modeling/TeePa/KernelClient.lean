import TeePa.KernelRing

/-! The kernel's client of TA-Collect. What the TEE driver answers is an input
of each call, and every driver call is kept in order with its arguments. The two
locals that nothing initialises are inputs as well. -/
namespace TeePa.KernelClient
open CStrings KernelRing BoundedFifo Runs

def teecSuccess : UInt32 := 0x00000000
def teecErrorShortBuffer : UInt32 := 0xFFFF0010
def einval : Int := 22
def teeIoctlLoginPublic : UInt32 := 0
def teeIoctlParamAttrTypeMemrefInput : UInt32 := 5

-- 627a757a-9924-11ec-b909-0242ac120002, as export_uuid lays it out.
def introspectionTaUuid : Bytes :=
  [0x62,0x7a,0x75,0x7a,0x99,0x24,0x11,0xec,0xb9,0x09,0x02,0x42,0xac,0x12,0x00,0x02]

/- The pointer tee_ctx: NULL, an ERR_PTR, or an open context. -/
inductive TeeContext where
  | null
  | error
  | context (handle : Nat)
  deriving DecidableEq, Repr

structure SessionArg where
  uuid : Bytes
  clntLogin : UInt32
  numParams : UInt32
  session : UInt32
  ret : UInt32
  deriving DecidableEq, Repr

def zeroedArg : SessionArg := ⟨List.replicate 16 0,0,0,0,0⟩

structure InvokeArg where
  func : UInt32
  session : UInt32
  numParams : UInt32
  deriving DecidableEq, Repr

inductive TeeCall where
  | openContext (result : TeeContext)
  | openSession (ctx : TeeContext) (arg : SessionArg) (rc : Int)
  | closeContext (ctx : TeeContext)
  | shmAlloc (ctx : TeeContext) (size : Nat) (result : Option Nat)
  | invokeFunc (ctx : TeeContext) (arg : InvokeArg) (attrs : List UInt32) (shm : Nat)
      (sent : Bytes) (rc : Int) (ret : UInt32)
  | shmFree (shm : Nat)
  | closeSession (ctx : TeeContext) (session : UInt32)
  deriving DecidableEq, Repr

structure Outcomes where
  openContext : Option Nat
  openSession : Int
  sessionRet : UInt32
  session : UInt32
  shmAlloc : Option Nat
  invokeFunc : Int
  invokeRet : UInt32
  deriving DecidableEq, Repr

structure Locals where
  summaryLog : Memory
  logMsgLen : Nat

structure Kernel where
  ring : Ring
  teeCtx : TeeContext
  sessArg : SessionArg

def taInvoke (ctx : TeeContext) (session func : UInt32) (sendData : Memory) (sendDataLen : Nat)
    (o : Outcomes) : Int × List TeeCall :=
  match o.shmAlloc with
  | none => (-1,[.shmAlloc ctx sendDataLen none])
  | some shm =>
      let sent := [.shmAlloc ctx sendDataLen (some shm),
        .invokeFunc ctx ⟨func,session,4⟩ [teeIoctlParamAttrTypeMemrefInput,0,0,0] shm
          (load sendData 0 sendDataLen) o.invokeFunc o.invokeRet]
      if o.invokeFunc < 0 ∨ (o.invokeRet ≠ teecSuccess ∧ o.invokeRet ≠ teecErrorShortBuffer) then
        (-einval,sent)
      else (0,sent ++ [.shmFree shm])

def taCreateSession (o : Outcomes) (k : Kernel) : Int × List TeeCall × Kernel :=
  match o.openContext with
  | none => (-1,[.openContext .error],{k with teeCtx := .error,sessArg := zeroedArg})
  | some handle =>
      let ctx := TeeContext.context handle
      let arg : SessionArg :=
        ⟨introspectionTaUuid,teeIoctlLoginPublic,0,o.session,o.sessionRet⟩
      let opened := [.openContext ctx,.openSession ctx arg o.openSession]
      if o.openSession < 0 ∨ arg.ret ≠ teecSuccess then
        (-1,opened ++ [.closeContext ctx],{k with teeCtx := ctx,sessArg := arg})
      else (0,opened,{k with teeCtx := ctx,sessArg := arg})

def newline : CString := ⟨[10],by simp⟩

-- strcat(summary_log, event_log); strcat(summary_log, newline).
def addLine (summaryLog : Memory) (eventLog : CString) : Memory :=
  strcat (strcat summaryLog 0 eventLog) 0 newline

/- The state of the concatenation loop; a length is none until it is assigned. -/
structure Gathered where
  ring : Ring
  summaryLog : Memory
  logMsgLen : Option Nat

-- dequeue answers 0 or -1, so the first test of the loop never ends it.
def gather : Nat → CString → Gathered → Gathered
  | 0, _, g => g
  | fuel+1, eventLog, g =>
      let taken := dequeue eventLog g.ring
      if taken.1 ≠ 1 ∧ taken.2.2.queueNum > 0 then
        let summaryLog := addLine g.summaryLog taken.2.1
        let logMsgLen := strlen summaryLog 0
        let next : Gathered := ⟨taken.2.2,summaryLog,some logMsgLen⟩
        if logMsgLen > 10000 then next else gather fuel taken.2.1 next
      else {g with ring := taken.2.2}

/- Every round but the last takes a record, so the count bounds the rounds. -/
def gatherAll (locals : Locals) (ring : Ring) : Gathered :=
  gather (ring.queueNum.toNat + 1) .empty
    ⟨ring,memset locals.summaryLog 0 0 (strlen locals.summaryLog 0),none⟩

def sendBatch (locals : Locals) (o : Outcomes) (k : Kernel) : Int × List TeeCall × Kernel :=
  let g := gatherAll locals k.ring
  let sent := taInvoke k.teeCtx k.sessArg.session 0x1 g.summaryLog
    (g.logMsgLen.getD locals.logMsgLen) o
  if sent.1 < 0 then
    (-1,sent.2 ++ [.closeSession k.teeCtx k.sessArg.session],
      {k with ring := g.ring,teeCtx := .null})
  else (0,sent.2,{k with ring := g.ring})

def sendEventlogTaCollect (locals : Locals) (o : Outcomes) (k : Kernel) :
    Int × List TeeCall × Kernel :=
  let opened := if k.teeCtx = .null then taCreateSession o k else (0,[],k)
  if opened.1 < 0 then (-1,opened.2.1,{opened.2.2 with teeCtx := .null})
  else
    let sent := sendBatch locals o opened.2.2
    (sent.1,opened.2.1 ++ sent.2.1,sent.2.2)

theorem invokeReturns {ctx session func sendData sendDataLen} {o : Outcomes} {shm : Nat}
    (allocated : o.shmAlloc = some shm) (rc : 0 ≤ o.invokeFunc)
    (ret : o.invokeRet = teecSuccess ∨ o.invokeRet = teecErrorShortBuffer) :
    taInvoke ctx session func sendData sendDataLen o = (0,[.shmAlloc ctx sendDataLen (some shm),
      .invokeFunc ctx ⟨func,session,4⟩ [teeIoctlParamAttrTypeMemrefInput,0,0,0] shm
        (load sendData 0 sendDataLen) o.invokeFunc o.invokeRet,.shmFree shm]) := by
  have fine : ¬ (o.invokeFunc < 0 ∨
      (o.invokeRet ≠ teecSuccess ∧ o.invokeRet ≠ teecErrorShortBuffer)) := by
    rintro (low | ⟨other,other'⟩)
    · exact absurd rc (Int.not_le.mpr low)
    · exact ret.elim other other'
  simp only [taInvoke,allocated,if_neg fine]
  rfl

theorem dequeueShrinks {r : Ring} (buffer : CString) (more : (dequeue buffer r).2.2.queueNum > 0) :
    (dequeue buffer r).2.2.queueNum.toNat + 1 = r.queueNum.toNat := by
  unfold dequeue at more ⊢
  split at more <;> rename_i held
  · simp only [if_pos held] at more ⊢; omega
  · exact absurd more held

theorem gatherEnds {fuel : Nat} {eventLog : CString} {g : Gathered}
    (enough : g.ring.queueNum.toNat < fuel) :
    gather fuel eventLog g = gather (fuel+1) eventLog g := by
  induction fuel generalizing eventLog g with
  | zero => omega
  | succ fuel ih =>
    rw [gather,gather]
    dsimp only
    split
    · rename_i taken
      split
      · rfl
      · apply ih
        have := dequeueShrinks eventLog taken.2
        dsimp only
        omega
    · rfl

def line (s r : CString) : CString := (s.append r).append newline

@[simp] theorem lineLength (s r : CString) : (line s r).length = s.length + r.length + 1 := by
  rw [line,CString.appendLength,CString.appendLength]; rfl

def withLines (s : CString) : List CString → CString
  | [] => s
  | r::rest => withLines (line s r) rest

def batchBytes (records : List CString) : Bytes := records.flatMap (fun r => r.bytes ++ [10])

theorem withLinesBytes (s : CString) (records : List CString) :
    (withLines s records).bytes = s.bytes ++ batchBytes records := by
  induction records generalizing s with
  | nil => simp [withLines,batchBytes]
  | cons r rest ih =>
    rw [withLines,ih]
    simp [batchBytes,line,newline,List.append_assoc]

structure Batch (s : CString) (before : Memory) (q : List CString) (g : Gathered)
    (front rest : List CString) : Prop where
  split : q = front ++ rest
  taken : front ≠ []
  left : queued g.ring = rest
  wellFormed : WellFormed g.ring
  text : Holds g.summaryLog 0 (withLines s front)
  length : g.logMsgLen = some (withLines s front).length
  passed : 10000 < (withLines s front).length
  fits : (withLines s front).length ≤ 11024
  least : (withLines s front.dropLast).length ≤ 10000
  frame : ∀ x, 12000 ≤ x → g.summaryLog x = before x

theorem strcatFrame {m : Memory} {s : CString} (t : CString) (held : Holds m 0 s)
    (small : s.length < addressSpace) {x : Nat} (beyond : s.length + t.length < x) :
    strcat m 0 t x = m x := by
  apply strcpyOutside
  rw [strlenOfHolds held small]
  omega

theorem addLineHolds {m : Memory} {s : CString} (r : CString) (held : Holds m 0 s)
    (room : s.length + r.length < 11100) :
    Holds (addLine m r) 0 (line s r) ∧ strlen (addLine m r) 0 = s.length + r.length + 1 ∧
    ∀ x, 12000 ≤ x → addLine m r x = m x := by
  have small : s.length < addressSpace := addressSpaceLarge (by omega)
  have joined := strcatHolds r held small
  have size : (s.append r).length = s.length + r.length := CString.appendLength s r
  have small' : (s.append r).length < addressSpace := addressSpaceLarge (by omega)
  have whole : Holds (addLine m r) 0 (line s r) := strcatHolds newline joined small'
  refine ⟨whole,?_,?_⟩
  · rw [strlenOfHolds whole (addressSpaceLarge (by rw [lineLength]; omega)),lineLength]
  · intro x high
    have one : newline.length = 1 := rfl
    rw [addLine,strcatFrame newline joined small' (by omega),strcatFrame r held small (by omega)]

theorem gatherRound {fuel : Nat} {eventLog : CString} {g : Gathered} {r : CString}
    {rest : List CString} (wf : WellFormed g.ring) (contents : queued g.ring = r::rest)
    (more : rest ≠ []) :
    ∃ ring, WellFormed ring ∧ queued ring = rest ∧
      gather (fuel+1) eventLog g =
        if strlen (addLine g.summaryLog r) 0 > 10000 then
          ⟨ring,addLine g.summaryLog r,some (strlen (addLine g.summaryLog r) 0)⟩
        else gather fuel r
          ⟨ring,addLine g.summaryLog r,some (strlen (addLine g.summaryLog r) 0)⟩ := by
  have count := queuedLength wf.toInBounds
  rw [contents,List.length_cons] at count
  have held : g.ring.queueNum > 0 := by omega
  have front := dequeueQueued eventLog wf.toInBounds held
  rw [contents] at front
  obtain ⟨same,left⟩ := List.cons.inj front
  refine ⟨(dequeue eventLog g.ring).2.2,dequeueWellFormed eventLog wf,left.symm,?_⟩
  have ret : (dequeue eventLog g.ring).1 ≠ 1 := by simp [dequeue,if_pos held]
  have again : (dequeue eventLog g.ring).2.2.queueNum > 0 := by
    have remaining := queuedLength (dequeueBounds eventLog wf.toInBounds)
    rw [← left] at remaining
    have := List.length_pos_iff.mpr more
    omega
  rw [gather]
  simp only [if_pos (And.intro ret again),← same]

/- From 500 records of 22 characters or more, the text passes 10000 characters
before the queue is down to its last record: the bound on what is still to come
is carried through the loop. -/
theorem gatherBatch {fuel : Nat} {eventLog : CString} {g : Gathered} {s : CString}
    {q : List CString} (wf : WellFormed g.ring) (contents : queued g.ring = q)
    (enough : q.length ≤ fuel) (text : Holds g.summaryLog 0 s) (below : s.length ≤ 10000)
    (long : ∀ r ∈ q, 22 ≤ r.length) (plenty : 10000 < s.length + 23 * (q.length - 1)) :
    ∃ front rest, Batch s g.summaryLog q (gather fuel eventLog g) front rest := by
  induction fuel generalizing eventLog g s q with
  | zero => omega
  | succ fuel ih =>
    cases q with
    | nil => simp only [List.length_nil] at plenty; omega
    | cons r rest =>
      simp only [List.length_cons,Nat.add_sub_cancel] at plenty enough
      have lower := long r (by simp)
      have upper : r.length < 1024 := wf.contained r (by rw [contents]; simp)
      have more : rest ≠ [] := by
        intro none
        rw [none,List.length_nil] at plenty
        omega
      obtain ⟨ring,wf',left,unfolded⟩ := @gatherRound fuel eventLog g r rest wf contents more
      obtain ⟨held,measured,frame⟩ := addLineHolds r text (by omega)
      rw [unfolded,measured]
      by_cases passed : s.length + r.length + 1 > 10000
      · rw [if_pos passed]
        refine ⟨[r],rest,rfl,by simp,left,wf',held,?_,?_,?_,below,frame⟩
        · exact congrArg some (lineLength s r).symm
        · exact (lineLength s r).symm ▸ passed
        · have size : (withLines s [r]).length = s.length + r.length + 1 := lineLength s r
          omega
      · rw [if_neg passed]
        have next : 10000 < (line s r).length + 23 * (rest.length - 1) := by
          rw [lineLength]
          have := List.length_pos_iff.mpr more
          omega
        have short : (line s r).length ≤ 10000 := by rw [lineLength]; omega
        obtain ⟨front,tail,batch⟩ := @ih r
          ⟨ring,addLine g.summaryLog r,some (s.length + r.length + 1)⟩ (line s r) rest wf' left
          (by omega) held short (fun t mem => long t (List.mem_cons_of_mem _ mem)) next
        refine ⟨r::front,tail,?_,by simp,batch.left,batch.wellFormed,batch.text,batch.length,
          batch.passed,batch.fits,?_,fun x high => (batch.frame x high).trans (frame x high)⟩
        · rw [batch.split,List.cons_append]
        · rw [List.dropLast_cons_of_ne_nil batch.taken]
          exact batch.least

theorem gatherAllBatch {ring : Ring} (locals : Locals) (wf : WellFormed ring)
    (guard : ring.queueNum ≥ 500) (long : ∀ r ∈ queued ring, 22 ≤ r.length) :
    ∃ front rest, Batch .empty (memset locals.summaryLog 0 0 (strlen locals.summaryLog 0))
      (queued ring) (gatherAll locals ring) front rest := by
  have count := queuedLength wf.toInBounds
  have plenty : 10000 < CString.empty.length + 23 * ((queued ring).length - 1) := by
    rw [CString.emptyLength]
    omega
  exact @gatherBatch (ring.queueNum.toNat+1) .empty
    ⟨ring,memset locals.summaryLog 0 0 (strlen locals.summaryLog 0),none⟩ .empty (queued ring) wf
    rfl (by omega) (memsetStrlenHolds _ _) (Nat.zero_le _) long plenty

theorem sendBatchRing (locals : Locals) (o : Outcomes) (k : Kernel) :
    (sendBatch locals o k).2.2.ring = (gatherAll locals k.ring).ring := by
  simp only [sendBatch]
  split <;> rfl

end TeePa.KernelClient
