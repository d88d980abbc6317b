import TeePa.KernelIntegrity
import TeePa.Ledger

/-! The programs of the normal world and the watchdog's pseudo TA, which one of them
invokes. All the programs are of one shape: a context, a session, their commands in
order, and an exit at the first answer that is no success. -/
namespace TeePa.Hosts
open CStrings CollectTa Ledger

def teecNone : UInt32 := 0
def teecValueInput : UInt32 := 1
def teecValueOutput : UInt32 := 2
def teecValueInout : UInt32 := 3
def teecMemrefTempOutput : UInt32 := 6

inductive Param where
  | none
  | value (a b : UInt32)
  | tmpref (buffer : Bytes)
  deriving DecidableEq, Repr

structure Request where
  command : UInt32
  paramTypes : UInt32
  params : List Param
  deriving DecidableEq, Repr

structure Program where
  uuid : Bytes
  requests : List Request
  deriving DecidableEq, Repr

-- 627a757a-9924-11ec-b909-0242ac120002
def collect : Program :=
  ⟨[0x62,0x7a,0x75,0x7a,0x99,0x24,0x11,0xec,0xb9,0x09,0x02,0x42,0xac,0x12,0x00,0x02],
    [⟨taCollectTcpTest,teeParamTypes [teecNone,teecNone,teecNone,teecNone],
      [.none,.none,.none,.none]⟩]⟩

-- d1dd57b6-0b2b-4355-b40c-0b0c7ef702d2
def kernelIntegrity : Program :=
  ⟨[0xd1,0xdd,0x57,0xb6,0x0b,0x2b,0x43,0x55,0xb4,0x0c,0x0b,0x0c,0x7e,0xf7,0x02,0xd2],
    [⟨KernelIntegrity.taKernelIntegrityCmdIncValue,
      teeParamTypes [teecValueInout,teecMemrefTempOutput,teecNone,teecNone],
      [.value 42 0,.tmpref (List.replicate 64 0),.none,.none]⟩]⟩

def gpioOn : UInt32 := 0
def gpioOff : UInt32 := 1
def pmStart : UInt32 := 2

-- 44c9884e-9e5f-48d9-9b78-4d141a2fecab
def watchdog : Program :=
  ⟨[0x44,0xc9,0x88,0x4e,0x9e,0x5f,0x48,0xd9,0x9b,0x78,0x4d,0x14,0x1a,0x2f,0xec,0xab],
    [⟨pmStart,teeParamTypes [teecValueOutput,teecNone,teecNone,teecNone],
        [.value 0 0,.none,.none,.none]⟩,
      ⟨gpioOn,teeParamTypes [teecValueInput,teecNone,teecNone,teecNone],
        [.value 0 0,.none,.none,.none]⟩]⟩

inductive Call where
  | initializeContext (res : UInt32)
  | openSession (uuid : Bytes) (res : UInt32)
  | invokeCommand (request : Request) (res : UInt32)
  | closeSession
  | finalizeContext
  deriving DecidableEq, Repr

structure Outcome (Deed : Type) where
  exitStatus : Nat
  calls : List Call
  deeds : List Deed
  deriving DecidableEq, Repr

structure Invoked (Deed : Type) where
  completed : Bool
  calls : List Call
  deeds : List Deed
  deriving DecidableEq, Repr

structure Failure where
  res : UInt32
  failed : res ≠ teeSuccess
  deriving DecidableEq, Repr

/- What the TEE makes of one call to an application: it passes the answer on, it refuses
the call before the application sees it, or it fails behind the application. -/
inductive Dispatch where
  | answered
  | refused (failure : Failure)
  | lost (failure : Failure)
  deriving DecidableEq, Repr

section Main
variable {Deed : Type}

def dispatched (d : Dispatch) (answer : UInt32 × List Deed) : UInt32 × List Deed := match d with
  | .answered => answer
  | .refused failure => (failure.res,[])
  | .lost failure => (failure.res,answer.2)

def invokeAll (serve : Request → UInt32 × List Deed) : List (Request × Dispatch) → Invoked Deed
  | [] => ⟨true,[],[]⟩
  | (request,d)::rest =>
      let answer := dispatched d (serve request)
      if answer.1 ≠ teeSuccess then ⟨false,[.invokeCommand request answer.1],answer.2⟩
      else
        let later := invokeAll serve rest
        ⟨later.completed,.invokeCommand request answer.1 :: later.calls,answer.2 ++ later.deeds⟩

def Program.commands (p : Program) (tee : Nat → Dispatch) : List (Request × Dispatch) :=
  p.requests.mapIdx (fun index request => (request,tee index))

-- errx leaves everything to the end of the process.
def main (p : Program) (context session : UInt32) (tee : Nat → Dispatch)
    (serve : Request → UInt32 × List Deed) : Outcome Deed :=
  if context ≠ teeSuccess then ⟨1,[.initializeContext context],[]⟩
  else if session ≠ teeSuccess then
    ⟨1,[.initializeContext context,.openSession p.uuid session],[]⟩
  else
    let invoked := invokeAll serve (p.commands tee)
    let calls := .initializeContext context :: .openSession p.uuid session :: invoked.calls
    if invoked.completed then ⟨0,calls ++ [.closeSession,.finalizeContext],invoked.deeds⟩
    else ⟨1,calls,invoked.deeds⟩

end Main

inductive Resource where
  | context
  | session
  deriving DecidableEq, Repr

def effectsOf : Call → List (Effect Resource)
  | .initializeContext res => if res = teeSuccess then [.acquire .context] else []
  | .openSession _ res => .use .context :: if res = teeSuccess then [.acquire .session] else []
  | .invokeCommand _ _ => [.use .context,.use .session]
  | .closeSession => [.use .context,.release .session]
  | .finalizeContext => [.release .context]

def effects (calls : List Call) : List (Effect Resource) := calls.flatMap effectsOf

def leftBy (context session : UInt32) (completed : Bool) : List Resource :=
  if context ≠ teeSuccess then []
  else if session ≠ teeSuccess then [.context]
  else if completed then [] else [.session,.context]

def both : Account Resource := ⟨[.session,.context],false⟩

section Posted
variable {Deed : Type} {serve : Request → UInt32 × List Deed}

theorem dispatchedFine {d : Dispatch} {answer : UInt32 × List Deed} :
    (dispatched d answer).1 = teeSuccess ↔ d = .answered ∧ answer.1 = teeSuccess := by
  cases d with
  | answered => exact ⟨fun fine => ⟨rfl,fine⟩,fun fine => fine.2⟩
  | refused failure => exact ⟨fun fine => absurd fine failure.failed,fun fine => nomatch fine.1⟩
  | lost failure => exact ⟨fun fine => absurd fine failure.failed,fun fine => nomatch fine.1⟩

theorem requestsPosted (commands : List (Request × Dispatch)) :
    postAll (effects (invokeAll serve commands).calls) both = both := by
  have one : ∀ request res, postAll (effects [.invokeCommand request res]) both = both :=
    fun _ _ => rfl
  induction commands with
  | nil => rfl
  | cons command rest ih =>
    rw [invokeAll]
    dsimp only
    split
    · exact one command.1 _
    · have apart : ∀ res calls, effects (.invokeCommand command.1 res :: calls) =
          effects [.invokeCommand command.1 res] ++ effects calls := fun _ _ => rfl
      rw [apart,postAppend,one]
      exact ih

theorem mainPosted (p : Program) (context session : UInt32) (tee : Nat → Dispatch) :
    postAll (effects (main p context session tee serve).calls) nothing =
      ⟨leftBy context session (invokeAll serve (p.commands tee)).completed,false⟩ := by
  unfold main leftBy
  split
  · rename_i failed
    simp [effects,effectsOf,failed,postAll,nothing]
  · rename_i initialized
    have initialized := Decidable.not_not.mp initialized
    split
    · rename_i failed
      simp [effects,effectsOf,failed,initialized,postAll,post,nothing]
    · rename_i opened
      have opened := Decidable.not_not.mp opened
      have front : ∀ calls, postAll (effects (.initializeContext context ::
          .openSession p.uuid session :: calls)) nothing = postAll (effects calls) both := by
        intro calls
        rw [initialized,opened]
        rfl
      dsimp only
      split
      · rw [List.cons_append,List.cons_append,front,effects,List.flatMap_append,postAppend]
        refine (congrArg (postAll _) (requestsPosted (p.commands tee))).trans ?_
        rfl
      · rw [front,requestsPosted]
        rfl

theorem mainEnds (p : Program) (context session : UInt32) (tee : Nat → Dispatch) :
    (main p context session tee serve).exitStatus =
      (if (context = teeSuccess ∧ session = teeSuccess) ∧
        (invokeAll serve (p.commands tee)).completed then 0 else 1) ∧
    (main p context session tee serve).deeds =
      if context = teeSuccess ∧ session = teeSuccess then (invokeAll serve (p.commands tee)).deeds
      else [] := by
  by_cases opened : context = teeSuccess ∧ session = teeSuccess
  · rw [main,if_neg (not_not_intro opened.1),if_neg (not_not_intro opened.2),if_pos opened]
    dsimp only
    split
    · rename_i completed
      exact ⟨(if_pos ⟨opened,completed⟩).symm,rfl⟩
    · rename_i stopped
      exact ⟨(if_neg (fun h => stopped h.2)).symm,rfl⟩
  · rw [if_neg opened,if_neg (fun h => opened h.1),main]
    split
    · exact ⟨rfl,rfl⟩
    · rename_i initialized
      rw [if_pos (fun taken => opened ⟨Decidable.not_not.mp initialized,taken⟩)]
      exact ⟨rfl,rfl⟩

theorem mainWell (p : Program) (context session : UInt32) (tee : Nat → Dispatch) :
    (main p context session tee serve).exitStatus = 0 ↔
      (context = teeSuccess ∧ session = teeSuccess) ∧
        (invokeAll serve (p.commands tee)).completed = true := by
  rw [(mainEnds p context session tee).1]
  split
  · rename_i well
    exact ⟨fun _ => well,fun _ => rfl⟩
  · rename_i stopped
    exact ⟨fun h => Nat.noConfusion h,fun h => absurd h stopped⟩

theorem oneRequest (request : Request) (d : Dispatch) :
    (invokeAll serve [(request,d)]).completed = true ↔
      d = .answered ∧ (serve request).1 = teeSuccess := by
  rw [← dispatchedFine,invokeAll]
  dsimp only
  split
  · rename_i failed
    exact ⟨fun h => Bool.noConfusion h,fun h => absurd h failed⟩
  · rename_i fine
    exact ⟨fun _ => Decidable.not_not.mp fine,fun _ => rfl⟩

end Posted

/- The test program against the forwarding application. A session opened without an
operation has no types. -/
def runCollect (context : UInt32) (opened : Dispatch) (tee : Nat → Dispatch)
    (opening invoking : Network) : Outcome TaCall :=
  main collect context (dispatched opened (taOpenSessionEntryPoint 0 opening)).1 tee
    (fun request => taInvokeCommandEntryPoint request.command request.paramTypes [] invoking)

theorem collectEnds (context : UInt32) (opened : Dispatch) (tee : Nat → Dispatch)
    (opening invoking : Network) :
    (runCollect context opened tee opening invoking).exitStatus = 0 ↔ context = teeSuccess ∧
      (opened = .answered ∧ opening.socketOpen.isSome) ∧
      tee 0 = .answered ∧ invoking.socketOpen.isSome := by
  have closed : teeIsocketErrorRemoteClosed ≠ teeSuccess := by decide
  have session : (taOpenSessionEntryPoint 0 opening).1 = teeSuccess ↔
      opening.socketOpen.isSome := by
    have untyped : ¬ 0 ≠ teeParamTypes
        [teeParamTypeNone,teeParamTypeNone,teeParamTypeNone,teeParamTypeNone] :=
      not_not_intro rfl
    rw [taOpenSessionEntryPoint,if_neg untyped]
    cases opening.socketOpen with
    | none => exact ⟨fun h => absurd h closed,fun h => Bool.noConfusion h⟩
    | some ctx => exact ⟨fun _ => rfl,fun _ => rfl⟩
  have answered : (testTcpConnect invoking).1 = teeSuccess ↔ invoking.socketOpen.isSome := by
    rw [testTcpConnect]
    cases invoking.socketOpen with
    | none => exact ⟨fun h => absurd h closed,fun h => Bool.noConfusion h⟩
    | some ctx => exact ⟨fun _ => rfl,fun _ => rfl⟩
  refine (mainWell _ _ _ tee).trans ?_
  rw [dispatchedFine,session,and_assoc]
  refine and_congr_right (fun _ => and_congr_right (fun _ => ?_))
  exact (oneRequest _ _).trans (and_congr_right (fun _ => answered))

section KernelIntegrity
open MemoryIntrospection
open KernelIntegrity (Tee ptaInvoke invokedSends)

def runKernelIntegrity (sha256 : Bytes → Digest) (context : UInt32) (opened : Dispatch)
    (dispatch : Nat → Dispatch) (params : Memref) (m : Memory) (tee : Tee) (net : Network) :
    Outcome TaCall :=
  let opening : UInt32 × List TaCall := (KernelIntegrity.taOpenSessionEntryPoint 0,[])
  main kernelIntegrity context (dispatched opened opening).1 dispatch (fun request =>
    let invoked := KernelIntegrity.taInvokeCommandEntryPoint sha256 request.command
      request.paramTypes params m tee net
    (invoked.result,invoked.calls))

theorem integrityEnds (sha256 : Bytes → Digest) (context : UInt32) (opened : Dispatch)
    (dispatch : Nat → Dispatch) (params : Memref) (m : Memory) (tee : Tee) (net : Network) :
    (runKernelIntegrity sha256 context opened dispatch params m tee net).exitStatus = 0 ↔
      context = teeSuccess ∧ opened = .answered ∧ dispatch 0 = .answered ∧
        tee.session = teeSuccess := by
  have answered : (ptaInvoke sha256 (teeParamTypes [3,6,0,0]) params m tee net).result =
      teeSuccess ↔ tee.session = teeSuccess := by
    by_cases session : tee.session = teeSuccess
    · rw [invokedSends _ _ _ _ session]
      exact ⟨fun _ => session,fun _ => rfl⟩
    · have types : ¬ teeParamTypes [3,6,0,0] ≠ teeParamTypes
          [teeParamTypeValueInout,teeParamTypeMemrefOutput,teeParamTypeNone,teeParamTypeNone] :=
        not_not_intro rfl
      rw [ptaInvoke,if_neg types,if_pos session]
  refine (mainWell _ _ _ dispatch).trans ?_
  rw [dispatchedFine,and_assoc]
  refine and_congr_right (fun _ => and_congr (and_iff_left rfl) ?_)
  exact (oneRequest _ _).trans (and_congr_right (fun _ => answered))

end KernelIntegrity

def rpi3PeriBase : UInt64 := 0x3F000000
def wdtBase : UInt64 := rpi3PeriBase + 0x100000
def pmRstc : UInt64 := 0x1c
def pmWdog : UInt64 := 0x24
def pmPassword : UInt32 := 0x5a000000
def pmRstcWrcfgFullReset : UInt32 := 0x00000020
def pmWdogTimeSet : UInt32 := 0x000fffff

structure Mmu where
  enabled : Bool
  physToVirt : UInt64 → UInt64

inductive Io where
  | read (address : UInt64)
  | write (address : UInt64) (value : UInt32)
  deriving DecidableEq, Repr

def nsecPeriphBase (mmu : Mmu) (pa : UInt64) : UInt64 :=
  if mmu.enabled then mmu.physToVirt pa else pa

-- The word read is only traced.
def testWDTOn (mmu : Mmu) : UInt32 × List Io :=
  let timeout : UInt32 := 10
  let base := nsecPeriphBase mmu wdtBase
  (teeSuccess,[.read base,
    .write (base + pmWdog) (pmPassword ||| (timeout &&& pmWdogTimeSet)),
    .write (base + pmRstc) (pmPassword ||| pmRstcWrcfgFullReset)])

-- The types and the parameters are not looked at.
def invokeCommand (mmu : Mmu) (request : Request) : UInt32 × List Io :=
  if request.command = gpioOn ∨ request.command = gpioOff ∨ request.command = pmStart then
    testWDTOn mmu
  else (teeErrorBadParameters,[])

abbrev Registers := UInt64 → UInt32

def perform (r : Registers) : Io → Registers
  | .read _ => r
  | .write address value => fun a => if a = address then value else r a

def performAll (io : List Io) (r : Registers) : Registers := io.foldl perform r

structure Client where
  program : Program
  context : UInt32
  session : UInt32
  tee : Nat → Dispatch

def Client.outcome (mmu : Mmu) (c : Client) : Outcome Io :=
  main c.program c.context c.session c.tee (invokeCommand mmu)

def Client.Opened (c : Client) : Prop := c.context = teeSuccess ∧ c.session = teeSuccess
instance (c : Client) : Decidable c.Opened := by unfold Client.Opened; infer_instance

def Known (request : Request) : Prop := request.command ≤ pmStart
instance (request) : Decidable (Known request) := by unfold Known; infer_instance

def Accepted (command : Request × Dispatch) : Prop := Known command.1 ∧ command.2 = .answered
instance (command) : Decidable (Accepted command) := by unfold Accepted; infer_instance

/- The watchdog carries a command out that the TEE then fails to answer. -/
def Reaches (command : Request × Dispatch) : Prop :=
  Known command.1 ∧ ∀ failure, command.2 ≠ .refused failure
instance (command) : Decidable (Reaches command) :=
  decidable_of_iff (Known command.1 ∧ (match command.2 with | .refused _ => false | _ => true) = true)
    (by unfold Reaches; cases command.2 <;> simp)

/- The commands that are carried out: those up to the first that is not accepted, and
that one where it reaches the watchdog all the same. -/
def carriedOut (commands : List (Request × Dispatch)) : List (Request × Dispatch) :=
  commands.takeWhile (fun command => decide (Accepted command)) ++
    ((commands.dropWhile (fun command => decide (Accepted command))).take 1).filter
      (fun command => decide (Reaches command))

def Client.carried (c : Client) : List (Request × Dispatch) :=
  if c.Opened then carriedOut (c.program.commands c.tee) else []

def ioBy (mmu : Mmu) (clients : List Client) : List Io :=
  clients.flatMap (fun c => (c.outcome mmu).deeds)

def armed (mmu : Mmu) (r : Registers) : Registers := fun address =>
  if address = nsecPeriphBase mmu wdtBase + pmRstc then 0x5a000020
  else if address = nsecPeriphBase mmu wdtBase + pmWdog then 0x5a00000a
  else r address

section Watchdog
variable {mmu : Mmu}

theorem known (request : Request) :
    invokeCommand mmu request =
      if Known request then testWDTOn mmu else (teeErrorBadParameters,[]) := by
  have same : (request.command = gpioOn ∨ request.command = gpioOff ∨
      request.command = pmStart) ↔ Known request := by
    have at0 : gpioOn.toNat = 0 := rfl
    have at1 : gpioOff.toNat = 1 := rfl
    have at2 : pmStart.toNat = 2 := rfl
    rw [Known,UInt32.le_iff_toNat_le,← UInt32.toNat_inj,← UInt32.toNat_inj,← UInt32.toNat_inj]
    omega
  by_cases k : Known request
  · rw [invokeCommand,if_pos (same.mpr k),if_pos k]
  · rw [invokeCommand,if_neg (fun h => k (same.mp h)),if_neg k]

theorem acceptedFine (command : Request × Dispatch) :
    (dispatched command.2 (invokeCommand mmu command.1)).1 = teeSuccess ↔ Accepted command := by
  rw [dispatchedFine,known,Accepted,and_comm]
  refine and_congr_left (fun _ => ?_)
  split
  · rename_i k
    exact ⟨fun _ => k,fun _ => rfl⟩
  · rename_i unknown
    exact ⟨fun fine => absurd fine (by decide),fun k => absurd k unknown⟩

theorem reachesDeeds (command : Request × Dispatch) :
    (dispatched command.2 (invokeCommand mmu command.1)).2 =
      if Reaches command then (testWDTOn mmu).2 else [] := by
  obtain ⟨request,d⟩ := command
  have served : (invokeCommand mmu request).2 = if Known request then (testWDTOn mmu).2 else [] := by
    rw [known]
    split <;> rfl
  cases d with
  | answered => simpa [dispatched,Reaches] using served
  | lost failure => simpa [dispatched,Reaches] using served
  | refused failure => simp [dispatched,Reaches]

theorem acceptedReaches {command : Request × Dispatch} (h : Accepted command) : Reaches command :=
  ⟨h.1,fun _ refused => nomatch h.2.symm.trans refused⟩

theorem carriedCons (command : Request × Dispatch) (rest : List (Request × Dispatch)) :
    carriedOut (command::rest) = if Accepted command then command :: carriedOut rest
      else if Reaches command then [command] else [] := by
  unfold carriedOut
  rw [List.takeWhile_cons,List.dropWhile_cons]
  by_cases accepted : Accepted command
  · simp only [accepted,decide_true,if_true,List.cons_append]
  · simp only [accepted,decide_false,Bool.false_eq_true,if_false,List.nil_append]
    by_cases reaches : Reaches command <;> simp [reaches]

theorem commandsInvoked (commands : List (Request × Dispatch)) :
    ((invokeAll (invokeCommand mmu) commands).completed = true ↔ ∀ c ∈ commands, Accepted c) ∧
    (invokeAll (invokeCommand mmu) commands).deeds =
      (List.replicate (carriedOut commands).length (testWDTOn mmu).2).flatten := by
  induction commands with
  | nil => exact ⟨⟨fun _ _ mem => absurd mem List.not_mem_nil,fun _ => rfl⟩,rfl⟩
  | cons command rest ih =>
    have fine := @acceptedFine mmu command
    have deeds := @reachesDeeds mmu command
    rw [invokeAll,carriedCons]
    dsimp only
    by_cases accepted : Accepted command
    · rw [if_neg (not_not_intro (fine.mpr accepted)),if_pos accepted,deeds,
        if_pos (acceptedReaches accepted)]
      refine ⟨ih.1.trans ⟨fun all => List.forall_mem_cons.mpr ⟨accepted,all⟩,
        fun all => (List.forall_mem_cons.mp all).2⟩,?_⟩
      rw [ih.2,List.length_cons,List.replicate_succ,List.flatten_cons]
    · rw [if_pos (fun answered => accepted (fine.mp answered)),if_neg accepted,deeds]
      refine ⟨⟨fun h => Bool.noConfusion h,
        fun all => absurd (all command List.mem_cons_self) accepted⟩,?_⟩
      split
      · exact (List.append_nil _).symm
      · rfl

theorem clientDeeds (c : Client) :
    (c.outcome mmu).deeds = (List.replicate c.carried.length (testWDTOn mmu).2).flatten := by
  refine (mainEnds c.program c.context c.session c.tee).2.trans ?_
  by_cases opened : c.Opened
  · rw [Client.carried,if_pos opened]
    exact (if_pos opened).trans (commandsInvoked (c.program.commands c.tee)).2
  · rw [Client.carried,if_neg opened]
    exact if_neg opened

theorem clientExit (c : Client) :
    (c.outcome mmu).exitStatus = 0 ↔ c.Opened ∧ ∀ command ∈ c.program.commands c.tee,
      Accepted command :=
  (mainWell c.program c.context c.session c.tee).trans
    (and_congr_right (fun _ => (commandsInvoked (c.program.commands c.tee)).1))

theorem clientsDeeds (clients : List Client) :
    ioBy mmu clients =
      (List.replicate (clients.flatMap Client.carried).length (testWDTOn mmu).2).flatten := by
  induction clients with
  | nil => rfl
  | cons c rest ih =>
    have first : ioBy mmu (c :: rest) = (c.outcome mmu).deeds ++ ioBy mmu rest := rfl
    rw [first,clientDeeds,ih,List.flatMap_cons,List.length_append,
      ← List.replicate_append_replicate,List.flatten_append]

-- The reset is written last.
theorem arms (r : Registers) : performAll (testWDTOn mmu).2 r = armed mmu r := rfl

theorem armedAgain (r : Registers) : armed mmu (armed mmu r) = armed mmu r := by
  funext address
  unfold armed
  split
  · rfl
  · split <;> rfl

theorem armedBy (n : Nat) (r : Registers) :
    performAll (List.replicate n (testWDTOn mmu).2).flatten r =
      if n = 0 then r else armed mmu r := by
  induction n generalizing r with
  | zero => rfl
  | succ n ih =>
    rw [List.replicate_succ,List.flatten_cons,performAll,List.foldl_append]
    refine (ih (performAll (testWDTOn mmu).2 r)).trans ?_
    rw [arms,if_neg (Nat.succ_ne_zero n)]
    split
    · rfl
    · exact armedAgain r

end Watchdog

theorem neverDisarmed (mmu : Mmu) (clients : List Client) (r : Registers) :
    (∀ c ∈ clients,
      ((c.outcome mmu).exitStatus = 0 ↔
        c.Opened ∧ ∀ command ∈ c.program.commands c.tee, Accepted command) ∧
      (postAll (effects (c.outcome mmu).calls) nothing).misused = false ∧
      ((c.outcome mmu).exitStatus = 0 →
        (postAll (effects (c.outcome mmu).calls) nothing).held = [])) ∧
    ioBy mmu clients =
      (List.replicate (clients.flatMap Client.carried).length (testWDTOn mmu).2).flatten ∧
    performAll (ioBy mmu clients) r =
      if clients.flatMap Client.carried = [] then r else armed mmu r := by
  refine ⟨fun c _ => ⟨clientExit c,?_,fun well => ?_⟩,clientsDeeds clients,?_⟩
  · rw [Client.outcome,mainPosted]
  · obtain ⟨⟨initialized,opened⟩,all⟩ := (clientExit c).mp well
    rw [Client.outcome,mainPosted,leftBy,if_neg (not_not_intro initialized),
      if_neg (not_not_intro opened),if_pos ((commandsInvoked _).1.mpr all)]
  · rw [clientsDeeds,armedBy]
    simp only [List.length_eq_zero_iff]

end TeePa.Hosts
