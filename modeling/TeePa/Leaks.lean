import TeePa.TeeLedger

/-! What the kernel's client loses where the driver fails it. A batch that is not
invoked ends its session and forgets the context and the shared memory; whatever else
fails is given back, and nothing is ever used or given back that is not held. -/
namespace TeePa.Leaks
open CStrings KernelClient Ledger TeeLedger Runs
open DeviceRuns (Opens SessionAvailable createSessionRet)

def usedContext (k : Kernel) (o : Outcomes) : TeeContext :=
  if k.teeCtx = .null then (taCreateSession o k).2.2.teeCtx else k.teeCtx

def leaks (k : Kernel) : Event → List Resource
  | .enqueue _ => []
  | .send _ o => if SessionAvailable k o ∧ ¬ Invoked o then
      .context (usedContext k o) :: o.shmAlloc.toList.map Resource.shm else []

structure Book where
  client : Client
  leaked : List Resource

def opened (m : Memory) : Book := ⟨TeeLedger.start m,[]⟩

def leakStep (b : Book) (event : Event) : Option Book := do
  let c ← TeeLedger.step b.client event
  some ⟨c,b.leaked ++ leaks b.client.kernel event⟩

structure Kept (c : Client) (leaked : List Resource) : Prop where
  held : c.account.held.Perm (expected c.kernel ++ leaked)
  proper : c.account.misused = false

section Send
variable {k : Kernel} {o : Outcomes} {a : Account Resource}

theorem createFrom (o : Outcomes) (k : Kernel) (a : Account Resource) :
    (Opens o → (taCreateSession o k).2.2.teeCtx ≠ .null ∧
      postAll (effects (taCreateSession o k).2.1) a =
        {a with held := expected (taCreateSession o k).2.2 ++ a.held}) ∧
    (¬ Opens o → postAll (effects (taCreateSession o k).2.1) a = a) := by
  constructor
  · intro opens
    obtain ⟨handle,context,fine⟩ := (openedOutcome o).mp opens
    have good : 0 ≤ o.openSession ∧ o.sessionRet = teecSuccess := opens.2
    simp only [taCreateSession,context,if_neg fine]
    simp [effects,effectsOf,postAll,post,expected,good]
  · intro failed
    unfold taCreateSession
    cases context : o.openContext with
    | none => rfl
    | some handle =>
      have bad : o.openSession < 0 ∨ o.sessionRet ≠ teecSuccess :=
        Decidable.byContradiction (fun fine =>
          failed ((openedOutcome o).mpr ⟨handle,context,fine⟩))
      have closed : ¬ (0 ≤ o.openSession ∧ o.sessionRet = teecSuccess) := fun good =>
        bad.elim (Int.not_lt.mpr good.1) (fun other => other good.2)
      simp only [if_pos bad]
      simp [effects,effectsOf,postAll,post,closed]

theorem refusedAnswer {shm : Nat} (allocated : o.shmAlloc = some shm) (failed : ¬ Invoked o) :
    o.invokeFunc < 0 ∨ (o.invokeRet ≠ teecSuccess ∧ o.invokeRet ≠ teecErrorShortBuffer) := by
  refine Decidable.byContradiction (fun fine => failed ⟨by rw [allocated]; rfl,?_,?_⟩)
  · exact Int.not_lt.mp (fun low => fine (.inl low))
  · refine Decidable.byContradiction (fun neither => fine (.inr ⟨?_,?_⟩))
    · exact fun same => neither (.inl same)
    · exact fun same => neither (.inr same)

def without (k : Kernel) (o : Outcomes) (held : List Resource) : List Resource :=
  (o.shmAlloc.toList.map Resource.shm ++ held).erase (.session k.teeCtx k.sessArg.session)

theorem batchLost (locals : Locals) (failed : ¬ Invoked o) (ctx : .context k.teeCtx ∈ a.held)
    (session : .session k.teeCtx k.sessArg.session ∈ a.held) :
    postAll (effects (sendBatch locals o k).2.1) a =
      {a with held := without k o a.held} ∧
    (sendBatch locals o k).2.2.teeCtx = .null := by
  have refused := fun func data len =>
    @refusedReturns o k.teeCtx k.sessArg.session func data len failed
  simp only [sendBatch,if_pos (refused _ _ _)]
  refine ⟨?_,trivial⟩
  unfold taInvoke
  cases allocated : o.shmAlloc with
  | none => simp [effects,effectsOf,postAll,post,ctx,session,without,allocated]
  | some shm =>
    simp only [if_pos (refusedAnswer allocated failed)]
    simp [effects,effectsOf,postAll,post,ctx,session,without,allocated]

end Send

theorem sendReady {c : Client} {leaked : List Resource} {o : Outcomes} (locals : Locals)
    (h : Kept c leaked) (available : SessionAvailable c.kernel o) :
    ∃ ready : Client, Kept ready leaked ∧ ready.kernel.teeCtx = usedContext c.kernel o ∧
      ready.kernel.teeCtx ≠ .null ∧
      (sendEventlogTaCollect locals o c.kernel).2.2 = (sendBatch locals o ready.kernel).2.2 ∧
      postAll (effects (sendEventlogTaCollect locals o c.kernel).2.1) c.account =
        postAll (effects (sendBatch locals o ready.kernel).2.1) ready.account := by
  by_cases null : c.kernel.teeCtx = .null
  · have opens : Opens o := available.resolve_left (fun other => other null)
    have accepted : ¬ (taCreateSession o c.kernel).1 < 0 := by
      rw [createSessionRet,if_pos opens]; decide
    obtain ⟨context,posted⟩ := (createFrom o c.kernel c.account).1 opens
    have none : expected c.kernel = [] := if_pos null
    refine ⟨⟨(taCreateSession o c.kernel).2.2,
      {c.account with held := expected (taCreateSession o c.kernel).2.2 ++ c.account.held}⟩,
      ⟨?_,h.proper⟩,?_,context,?_,?_⟩
    · have held := h.held
      rw [none,List.nil_append] at held
      exact held.append_left _
    · rw [usedContext,if_pos null]
    · simp only [sendEventlogTaCollect,if_pos null,if_neg accepted]
    · simp only [sendEventlogTaCollect,if_pos null,if_neg accepted]
      rw [effectsAppend,postAppend,posted]
  · have calm : ¬ (0 : Int) < 0 := by decide
    refine ⟨c,h,?_,null,?_,?_⟩
    · rw [usedContext,if_neg null]
    · simp only [sendEventlogTaCollect,if_neg null,if_neg calm]
    · simp only [sendEventlogTaCollect,if_neg null,if_neg calm,List.nil_append]

theorem keptHeld {c : Client} {leaked : List Resource} (h : Kept c leaked)
    (context : c.kernel.teeCtx ≠ .null) :
    c.account.held.Perm (.session c.kernel.teeCtx c.kernel.sessArg.session ::
      .context c.kernel.teeCtx :: leaked) := by
  have held := h.held
  rw [expected,if_neg context] at held
  exact held

theorem withoutLost {k : Kernel} {o : Outcomes} {held leaked : List Resource}
    (kept : held.Perm (.session k.teeCtx k.sessArg.session :: .context k.teeCtx :: leaked)) :
    (without k o held).Perm
      (leaked ++ .context k.teeCtx :: o.shmAlloc.toList.map Resource.shm) := by
  have apart : Resource.session k.teeCtx k.sessArg.session ∉ o.shmAlloc.toList.map Resource.shm := by
    intro mem
    obtain ⟨shm,-,same⟩ := List.mem_map.mp mem
    exact Resource.noConfusion same
  have ordered := (kept.append_left (o.shmAlloc.toList.map Resource.shm)).erase
    (.session k.teeCtx k.sessArg.session)
  have gone : (o.shmAlloc.toList.map Resource.shm ++
      .session k.teeCtx k.sessArg.session :: .context k.teeCtx :: leaked).erase
      (.session k.teeCtx k.sessArg.session) =
      o.shmAlloc.toList.map Resource.shm ++ .context k.teeCtx :: leaked := by
    rw [List.erase_append_right _ apart,List.erase_cons_head]
  rw [gone] at ordered
  exact ordered.trans (List.perm_append_comm.trans List.perm_middle.symm)

theorem sendKept {c : Client} {leaked : List Resource} {locals : Locals} {o : Outcomes}
    (h : Kept c leaked) :
    Kept ⟨(sendEventlogTaCollect locals o c.kernel).2.2,
        postAll (effects (sendEventlogTaCollect locals o c.kernel).2.1) c.account⟩
      (leaked ++ leaks c.kernel (.send locals o)) := by
  by_cases available : SessionAvailable c.kernel o
  · obtain ⟨ready,kept,used,context,kernel,account⟩ := sendReady locals h available
    have whole := keptHeld kept context
    have ctx : Resource.context ready.kernel.teeCtx ∈ ready.account.held := whole.mem_iff.mpr (by simp)
    have session : Resource.session ready.kernel.teeCtx ready.kernel.sessArg.session ∈
        ready.account.held := whole.mem_iff.mpr (by simp)
    rw [kernel,account]
    by_cases invoked : Invoked o
    · have none : leaks c.kernel (.send locals o) = [] := if_neg (fun both => both.2 invoked)
      obtain ⟨same,teeCtx,sessArg⟩ := batchPosted locals invoked ctx session
      rw [same,none,List.append_nil]
      refine ⟨?_,kept.proper⟩
      dsimp only
      rw [expected,teeCtx,sessArg]
      exact kept.held
    · have lost : leaks c.kernel (.send locals o) =
          .context (usedContext c.kernel o) :: o.shmAlloc.toList.map Resource.shm :=
        if_pos ⟨available,invoked⟩
      obtain ⟨posted,null⟩ := batchLost locals invoked ctx session
      rw [posted,lost,← used]
      refine ⟨?_,kept.proper⟩
      dsimp only
      rw [expected,if_pos null]
      exact withoutLost whole
  · have null : c.kernel.teeCtx = .null :=
      Decidable.byContradiction (fun other => available (.inl other))
    have closed : ¬ Opens o := fun opens => available (.inr opens)
    have refused : (taCreateSession o c.kernel).1 < 0 := by
      rw [createSessionRet,if_neg closed]; decide
    have none : leaks c.kernel (.send locals o) = [] := if_neg (fun both => available both.1)
    have empty : expected c.kernel = [] := if_pos null
    have held := h.held
    rw [empty] at held
    simp only [sendEventlogTaCollect,if_pos null,if_pos refused,
      (createFrom o c.kernel c.account).2 closed,none,List.append_nil]
    exact ⟨held,h.proper⟩

theorem leaksExactly {m : Memory} {events : List Event} {b : Book}
    (run : Run (Of leakStep) (opened m) events b) : Kept b.client b.leaked := by
  have preserved : ∀ b event b', Kept b.client b.leaked → Of leakStep b event b' →
      Kept b'.client b'.leaked := by
    intro b event b' h ok
    simp only [Of,leakStep,bind,Option.bind_eq_some_iff] at ok
    obtain ⟨c,moved,last⟩ := ok
    cases Option.some.inj last
    cases event with
    | enqueue record =>
      cases Option.some.inj moved
      have none : leaks b.client.kernel (.enqueue record) = [] := rfl
      rw [none,List.append_nil]
      exact ⟨h.held,h.proper⟩
    | send locals o =>
      cases Option.some.inj moved
      exact sendKept h
  exact invariant preserved run ⟨.refl _,rfl⟩

def mishaps : List Event :=
  [.send noLocals DeviceRuns.invokeFails,.send noLocals ⟨some 4,0,teecSuccess,8,none,0,0⟩,
    .send noLocals DeviceRuns.invokeSucceeds]

theorem leaksExactlyMishaps : ∃ b, Run (Of leakStep) (opened (fun _ => 0)) mishaps b ∧
    b.leaked = [.context (.context 1),.shm 2,.context (.context 4)] ∧ Kept b.client b.leaked := by
  have run : Run (Of leakStep) (opened (fun _ => 0)) mishaps _ :=
    .cons rfl (.cons rfl (.cons rfl (.nil _)))
  exact ⟨_,run,by decide +kernel,leaksExactly run⟩

end TeePa.Leaks
