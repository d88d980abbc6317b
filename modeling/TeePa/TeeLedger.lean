import TeePa.DeviceRuns
import TeePa.Ledger

/-! What the kernel's client holds of the TEE driver: contexts, sessions and shared
memory. A run is any sequence of sends, with records arriving in between, and every
driver call of a send is posted to one account. -/
namespace TeePa.TeeLedger
open CStrings KernelRing KernelClient DeviceRuns Ledger Runs

inductive Resource where
  | context (ctx : TeeContext)
  | session (ctx : TeeContext) (session : UInt32)
  | shm (handle : Nat)
  deriving DecidableEq, Repr

/- What a driver call takes, uses and gives back, where it succeeds in taking. -/
def effectsOf : TeeCall → List (Effect Resource)
  | .openContext (.context handle) => [.acquire (.context (.context handle))]
  | .openContext _ => []
  | .openSession ctx arg rc => .use (.context ctx) ::
      if 0 ≤ rc ∧ arg.ret = teecSuccess then [.acquire (.session ctx arg.session)] else []
  | .closeContext ctx => [.release (.context ctx)]
  | .shmAlloc ctx _ (some shm) => [.use (.context ctx),.acquire (.shm shm)]
  | .shmAlloc ctx _ none => [.use (.context ctx)]
  | .invokeFunc ctx arg _ shm _ _ _ =>
      [.use (.context ctx),.use (.session ctx arg.session),.use (.shm shm)]
  | .shmFree shm => [.release (.shm shm)]
  | .closeSession ctx session => [.use (.context ctx),.release (.session ctx session)]

def effects (calls : List TeeCall) : List (Effect Resource) := calls.flatMap effectsOf

structure Client where
  kernel : Kernel
  account : Account Resource

inductive Event where
  | enqueue (record : CString)
  | send (locals : Locals) (outcomes : Outcomes)

def start (m : Memory) : Client := ⟨⟨initial m,.null,zeroedArg⟩,nothing⟩

def step (c : Client) : Event → Option Client
  | .enqueue record =>
      some {c with kernel := {c.kernel with ring := (enqueue record c.kernel.ring).2}}
  | .send locals o =>
      let sent := sendEventlogTaCollect locals o c.kernel
      some ⟨sent.2.2,postAll (effects sent.2.1) c.account⟩

def expected (k : Kernel) : List Resource :=
  if k.teeCtx = .null then [] else [.session k.teeCtx k.sessArg.session,.context k.teeCtx]

structure Balanced (c : Client) : Prop where
  held : c.account.held.Perm (expected c.kernel)
  proper : c.account.misused = false

def Invoked (o : Outcomes) : Prop :=
  o.shmAlloc.isSome ∧ 0 ≤ o.invokeFunc ∧
    (o.invokeRet = teecSuccess ∨ o.invokeRet = teecErrorShortBuffer)
instance (o) : Decidable (Invoked o) := by unfold Invoked; infer_instance

def Completes (c : Client) : Event → Prop
  | .enqueue _ => True
  | .send _ o => SessionAvailable c.kernel o → Invoked o

theorem effectsAppend (first second : List TeeCall) :
    effects (first ++ second) = effects first ++ effects second := List.flatMap_append

theorem startBalanced (m : Memory) : Balanced (start m) := ⟨.refl _,rfl⟩

section Send
variable {k : Kernel} {o : Outcomes} {a : Account Resource}

theorem refusedReturns {ctx session func data len} (failed : ¬ Invoked o) :
    (taInvoke ctx session func data len o).1 < 0 := by
  unfold taInvoke
  cases allocated : o.shmAlloc with
  | none => exact (by decide : (-1 : Int) < 0)
  | some shm =>
    have bad : o.invokeFunc < 0 ∨
        (o.invokeRet ≠ teecSuccess ∧ o.invokeRet ≠ teecErrorShortBuffer) := by
      refine Decidable.byContradiction (fun fine => failed ⟨by rw [allocated]; rfl,?_,?_⟩)
      · exact Int.not_lt.mp (fun low => fine (.inl low))
      · refine Decidable.byContradiction (fun neither => fine (.inr ⟨?_,?_⟩))
        · exact fun same => neither (.inl same)
        · exact fun same => neither (.inr same)
    simp only [if_pos bad]
    exact (by decide : -einval < 0)

theorem batchPosted (locals : Locals) (ok : Invoked o) (ctx : .context k.teeCtx ∈ a.held)
    (session : .session k.teeCtx k.sessArg.session ∈ a.held) :
    postAll (effects (sendBatch locals o k).2.1) a = a ∧
    (sendBatch locals o k).2.2.teeCtx = k.teeCtx ∧
    (sendBatch locals o k).2.2.sessArg = k.sessArg := by
  obtain ⟨allocates,rc,ret⟩ := ok
  obtain ⟨shm,allocated⟩ := Option.isSome_iff_exists.mp allocates
  have calm : ¬ (0 : Int) < 0 := by decide
  simp only [sendBatch,invokeReturns allocated rc ret,if_neg calm]
  refine ⟨?_,trivial,trivial⟩
  have first : postAll ([Resource.context k.teeCtx].map .use) a = a :=
    usedHeld (by simpa using ctx)
  have rest := @bracketed _ _ (.shm shm)
    [.context k.teeCtx,.session k.teeCtx k.sessArg.session,.shm shm] a (by simp [ctx,session])
  have shape : ∀ len sent, effects [.shmAlloc k.teeCtx len (some shm),
      .invokeFunc k.teeCtx ⟨0x1,k.sessArg.session,4⟩ [teeIoctlParamAttrTypeMemrefInput,0,0,0] shm
        sent o.invokeFunc o.invokeRet,.shmFree shm] =
      [Resource.context k.teeCtx].map .use ++ (.acquire (.shm shm) ::
        ([Resource.context k.teeCtx,.session k.teeCtx k.sessArg.session,.shm shm].map .use ++
          [.release (.shm shm)])) := fun _ _ => rfl
  rw [shape,postAppend,first,rest]

theorem openedOutcome (o : Outcomes) :
    Opens o ↔ ∃ handle, o.openContext = some handle ∧
      ¬ (o.openSession < 0 ∨ o.sessionRet ≠ teecSuccess) := by
  rw [Opens,Option.isSome_iff_exists]
  constructor
  · rintro ⟨⟨handle,opened⟩,rc,ret⟩
    exact ⟨handle,opened,fun bad => bad.elim (Int.not_lt.mpr rc) (fun other => other ret)⟩
  · rintro ⟨handle,opened,fine⟩
    refine ⟨⟨handle,opened⟩,Int.not_lt.mp (fun low => fine (.inl low)),?_⟩
    exact Decidable.byContradiction (fun other => fine (.inr other))

theorem createPosted (o : Outcomes) (k : Kernel) :
    (Opens o → (taCreateSession o k).2.2.teeCtx ≠ .null ∧
      postAll (effects (taCreateSession o k).2.1) nothing =
        ⟨expected (taCreateSession o k).2.2,false⟩) ∧
    (¬ Opens o → postAll (effects (taCreateSession o k).2.1) nothing = nothing) := by
  constructor
  · intro opens
    obtain ⟨handle,opened,fine⟩ := (openedOutcome o).mp opens
    have good : 0 ≤ o.openSession ∧ o.sessionRet = teecSuccess := opens.2
    simp only [taCreateSession,opened,if_neg fine]
    simp [effects,effectsOf,postAll,post,nothing,expected,good]
  · intro failed
    unfold taCreateSession
    cases opened : o.openContext with
    | none => rfl
    | some handle =>
      have bad : o.openSession < 0 ∨ o.sessionRet ≠ teecSuccess :=
        Decidable.byContradiction (fun fine =>
          failed ((openedOutcome o).mpr ⟨handle,opened,fine⟩))
      have closed : ¬ (0 ≤ o.openSession ∧ o.sessionRet = teecSuccess) := fun good =>
        bad.elim (Int.not_lt.mpr good.1) (fun other => other good.2)
      simp only [if_pos bad]
      simp [effects,effectsOf,postAll,post,nothing,closed]

end Send

theorem nullNothing {c : Client} (h : Balanced c) (null : c.kernel.teeCtx = .null) :
    c.account = nothing := by
  obtain ⟨held,proper⟩ := h
  rw [expected,if_pos null] at held
  have none := held.eq_nil
  cases c with
  | mk kernel account =>
    cases account
    simp_all [nothing]

theorem sendRefused {c : Client} {o : Outcomes} (locals : Locals) (h : Balanced c)
    (failed : ¬ SessionAvailable c.kernel o) :
    (sendEventlogTaCollect locals o c.kernel).2.2.teeCtx = .null ∧
    postAll (effects (sendEventlogTaCollect locals o c.kernel).2.1) c.account = nothing := by
  have null : c.kernel.teeCtx = .null :=
    Decidable.byContradiction (fun other => failed (.inl other))
  have closed : ¬ Opens o := fun opens => failed (.inr opens)
  have refused : (taCreateSession o c.kernel).1 < 0 := by
    rw [createSessionRet,if_neg closed]; decide
  simp only [sendEventlogTaCollect,if_pos null,if_pos refused]
  exact ⟨trivial,nullNothing h null ▸ (createPosted o c.kernel).2 closed⟩

theorem sendOpened {c : Client} {o : Outcomes} (locals : Locals) (h : Balanced c)
    (available : SessionAvailable c.kernel o) :
    ∃ ready : Client, Balanced ready ∧ ready.kernel.teeCtx ≠ .null ∧
      (sendEventlogTaCollect locals o c.kernel).2.2 = (sendBatch locals o ready.kernel).2.2 ∧
      postAll (effects (sendEventlogTaCollect locals o c.kernel).2.1) c.account =
        postAll (effects (sendBatch locals o ready.kernel).2.1) ready.account := by
  by_cases null : c.kernel.teeCtx = .null
  · have opens : Opens o := available.resolve_left (fun other => other null)
    have accepted : ¬ (taCreateSession o c.kernel).1 < 0 := by
      rw [createSessionRet,if_pos opens]; decide
    obtain ⟨context,posted⟩ := (createPosted o c.kernel).1 opens
    refine ⟨⟨(taCreateSession o c.kernel).2.2,⟨expected (taCreateSession o c.kernel).2.2,false⟩⟩,
      ⟨.refl _,rfl⟩,context,?_,?_⟩
    · simp only [sendEventlogTaCollect,if_pos null,if_neg accepted]
    · simp only [sendEventlogTaCollect,if_pos null,if_neg accepted]
      rw [effectsAppend,postAppend,nullNothing h null,posted]
  · have none : ¬ (0 : Int) < 0 := by decide
    refine ⟨c,h,null,?_,?_⟩
    · simp only [sendEventlogTaCollect,if_neg null,if_neg none]
    · simp only [sendEventlogTaCollect,if_neg null,if_neg none,List.nil_append]

theorem expectedHeld {c : Client} (h : Balanced c) (context : c.kernel.teeCtx ≠ .null) :
    Resource.context c.kernel.teeCtx ∈ c.account.held ∧
    Resource.session c.kernel.teeCtx c.kernel.sessArg.session ∈ c.account.held := by
  have held := h.held
  rw [expected,if_neg context] at held
  exact ⟨held.mem_iff.mpr (by simp),held.mem_iff.mpr (by simp)⟩

theorem stepBalanced {c c' : Client} {event : Event} (h : Balanced c) (allowed : Completes c event)
    (ok : step c event = some c') : Balanced c' := by
  cases event with
  | enqueue record =>
    cases Option.some.inj ok
    exact ⟨h.held,h.proper⟩
  | send locals o =>
    cases Option.some.inj ok
    by_cases available : SessionAvailable c.kernel o
    · obtain ⟨ready,balanced,context,kernel,account⟩ := sendOpened locals h available
      obtain ⟨ctx,session⟩ := expectedHeld balanced context
      obtain ⟨same,teeCtx,sessArg⟩ := batchPosted locals (allowed available) ctx session
      refine ⟨?_,?_⟩
      · dsimp only
        rw [account,same,kernel,expected,teeCtx,sessArg]
        exact balanced.held
      · dsimp only
        rw [account,same]
        exact balanced.proper
    · obtain ⟨null,account⟩ := sendRefused locals h available
      refine ⟨?_,?_⟩
      · dsimp only
        rw [account,expected,if_pos null]
        exact .refl _
      · dsimp only
        rw [account]
        rfl

theorem ledgerBalanced {m : Memory} {events : List Event} {c : Client}
    (run : Run (Restrict Completes (Of step)) (start m) events c) : Balanced c := by
  have preserved : ∀ c event c', Balanced c → Restrict Completes (Of step) c event c' →
      Balanced c' := fun c event c' h moved => stepBalanced h moved.1 moved.2
  exact invariant preserved run (startBalanced m)

theorem invokeKeepsContext (ctx held : TeeContext) (session func : UInt32) (data : Memory)
    (len : Nat) (o : Outcomes) :
    .release (.context held) ∉ effects (taInvoke ctx session func data len o).2 := by
  unfold taInvoke
  cases o.shmAlloc with
  | none => simp [effects,effectsOf]
  | some shm => dsimp only; split <;> simp [effects,effectsOf]

theorem batchRefused {k : Kernel} {o : Outcomes} (locals : Locals) (failed : ¬ Invoked o)
    (held : TeeContext) : (sendBatch locals o k).2.2.teeCtx = .null ∧
    .release (.context held) ∉ effects (sendBatch locals o k).2.1 := by
  simp only [sendBatch,if_pos (refusedReturns failed),effectsAppend,List.mem_append,not_or]
  exact ⟨trivial,invokeKeepsContext _ _ _ _ _ _ _,by simp [effects,effectsOf]⟩

theorem failedLeaks {c c' : Client} {locals : Locals} {o : Outcomes} (h : Balanced c)
    (available : SessionAvailable c.kernel o) (failed : ¬ Invoked o)
    (ok : step c (.send locals o) = some c') : ¬ Balanced c' := by
  cases Option.some.inj ok
  obtain ⟨ready,balanced,context,kernel,account⟩ := sendOpened locals h available
  obtain ⟨null,kept⟩ := @batchRefused ready.kernel o locals failed ready.kernel.teeCtx
  have stays := heldStays (expectedHeld balanced context).1 kept
  rintro ⟨held,-⟩
  dsimp only at held
  rw [account,kernel,expected,if_pos null] at held
  exact absurd (held.mem_iff.mp stays) List.not_mem_nil

def oneRecord : CString := ⟨[65],by simp⟩
def noLocals : Locals := ⟨fun _ => 0,0⟩

theorem ledgerBalancedSends : ∃ c,
    Run (Restrict Completes (Of step)) (start (fun _ => 0))
      [.enqueue oneRecord,.send noLocals invokeSucceeds,.send noLocals invokeSucceeds] c ∧
    Balanced c := by
  have run : Run (Restrict Completes (Of step)) (start (fun _ => 0))
      [.enqueue oneRecord,.send noLocals invokeSucceeds,.send noLocals invokeSucceeds] _ :=
    .cons ⟨trivial,rfl⟩ (.cons ⟨fun _ => (by decide : Invoked invokeSucceeds),rfl⟩
      (.cons ⟨fun _ => (by decide : Invoked invokeSucceeds),rfl⟩ (.nil _)))
  exact ⟨_,run,ledgerBalanced run⟩

theorem failedInvokeUnbalanced : ∃ c,
    Run (Of step) (start (fun _ => 0)) [.send noLocals invokeFails] c ∧ ¬ Balanced c := by
  have moved : step (start (fun _ => 0)) (.send noLocals invokeFails) = some _ := rfl
  exact ⟨_,single moved,failedLeaks (startBalanced _) (.inr (by decide)) (by decide) moved⟩

end TeePa.TeeLedger
