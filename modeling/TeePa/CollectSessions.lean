import TeePa.CollectTa
import TeePa.Ledger

/-! The life of one session of the forwarding application: it is opened, commands
come, and it is closed. Every socket and every heap block is posted to one account. -/
namespace TeePa.CollectSessions
open CStrings CollectTa Ledger

inductive Resource where
  | socket (ctx : Nat)
  | block (handle : Nat)
  deriving DecidableEq, Repr

def effectsOf : TaCall → List (Effect Resource)
  | .open none => []
  | .open (some ctx) => [.acquire (.socket ctx)]
  | .send ctx _ _ => [.use (.socket ctx)]
  | .close ctx => [.release (.socket ctx)]
  | .malloc block _ => [.acquire (.block block)]
  | .free block => [.release (.block block)]

def effects (calls : List TaCall) : List (Effect Resource) := calls.flatMap effectsOf

structure Command where
  cmdId : UInt32
  paramTypes : UInt32
  memref : Bytes
  net : Network
  deriving DecidableEq, Repr

def Command.calls (c : Command) : List TaCall :=
  (taInvokeCommandEntryPoint c.cmdId c.paramTypes c.memref c.net).2

-- TA_CloseSessionEntryPoint has no statement but the cast of its argument.
def taCloseSessionEntryPoint : List TaCall := []

/- A session that is not opened gets no command and is not closed. -/
def performed (paramTypes : UInt32) (net : Network) (commands : List Command) : List Command :=
  if (taOpenSessionEntryPoint paramTypes net).1 = teeSuccess then commands else []

def life (paramTypes : UInt32) (net : Network) (commands : List Command) : List TaCall :=
  (taOpenSessionEntryPoint paramTypes net).2 ++
    (performed paramTypes net commands).flatMap Command.calls ++
    (if (taOpenSessionEntryPoint paramTypes net).1 = teeSuccess then taCloseSessionEntryPoint
      else [])

def isSocket : Resource → Bool
  | .socket _ => true
  | _ => false

def isBlock : Resource → Bool
  | .block _ => true
  | _ => false

def socketsLeft (calls : List TaCall) : List Resource :=
  (postAll (effects calls) nothing).held.filter isSocket

def blocksLeft (calls : List TaCall) : List Resource :=
  (postAll (effects calls) nothing).held.filter isBlock

structure Released (paramTypes : UInt32) (net : Network) (commands : List Command) : Prop where
  sockets : socketsLeft (life paramTypes net commands) = []
  blocks : ∀ c ∈ performed paramTypes net commands, blocksLeft c.calls = []

def Message (c : Command) : Prop :=
  c.cmdId = taCollectSendMsg ∧ c.paramTypes = teeParamTypes
    [teeParamTypeMemrefInput,teeParamTypeNone,teeParamTypeNone,teeParamTypeNone]
instance (c) : Decidable (Message c) := by unfold Message; infer_instance

def Forwards (net : Network) : Prop := net.socketOpen.isSome ∧ net.socketSend = true
instance (net) : Decidable (Forwards net) := by unfold Forwards; infer_instance

inductive Does (c : Command) : Prop where
  | nothing (other : ¬ Message c) (same : effects c.calls = [])
  | tested (other : ¬ Message c) (ctx : Nat)
      (same : effects c.calls = [.acquire (.socket ctx),.use (.socket ctx),.release (.socket ctx)])
  | refused (message : Message c) (closed : c.net.socketOpen = none)
      (same : effects c.calls = [.acquire (.block c.net.block)])
  | unsent (message : Message c) (ctx : Nat) (opened : c.net.socketOpen = some ctx)
      (failed : c.net.socketSend = false)
      (same : effects c.calls = [.acquire (.block c.net.block),.acquire (.socket ctx),
        .use (.socket ctx)])
  | forwarded (message : Message c) (ctx : Nat) (opened : c.net.socketOpen = some ctx)
      (sent : c.net.socketSend = true)
      (same : effects c.calls = [.acquire (.block c.net.block),.acquire (.socket ctx),
        .use (.socket ctx),.release (.socket ctx),.release (.block c.net.block)])

theorem messageDoes {c : Command} (message : Message c) : Does c := by
  obtain ⟨cmdId,paramTypes,memref,net⟩ := c
  obtain ⟨rfl,rfl⟩ := message
  have calls : Command.calls ⟨taCollectSendMsg,teeParamTypes [teeParamTypeMemrefInput,
      teeParamTypeNone,teeParamTypeNone,teeParamTypeNone],memref,net⟩ = _ :=
    congrArg Prod.snd (sendMsgCommand memref net)
  cases opened : net.socketOpen with
  | none =>
    refine .refused ⟨rfl,rfl⟩ opened ?_
    rw [calls]
    simp only [sendEventLog,opened]
    rfl
  | some ctx =>
    cases sent : net.socketSend with
    | false =>
      refine .unsent ⟨rfl,rfl⟩ ctx opened sent ?_
      rw [calls]
      simp only [sendEventLog,opened,sent]
      rfl
    | true =>
      refine .forwarded ⟨rfl,rfl⟩ ctx opened sent ?_
      rw [calls]
      simp only [sendEventLog,opened,sent]
      rfl

theorem otherDoes {c : Command} (other : ¬ Message c) : Does c := by
  have calls : c.calls = [] ∨ c.calls = (testTcpConnect c.net).2 := by
    unfold Command.calls taInvokeCommandEntryPoint
    split
    · exact .inr rfl
    · split
      · rename_i msg
        have types : c.paramTypes ≠ teeParamTypes
            [teeParamTypeMemrefInput,teeParamTypeNone,teeParamTypeNone,teeParamTypeNone] :=
          fun same => other ⟨msg,same⟩
        rw [showRecvMsg,if_pos types]
        exact .inl rfl
      · exact .inl rfl
  rcases calls with none | test
  · exact .nothing other (by rw [none]; rfl)
  · cases opened : c.net.socketOpen with
    | none => exact .nothing other (by simp only [test,testTcpConnect,opened]; rfl)
    | some ctx => exact .tested other ctx (by simp only [test,testTcpConnect,opened]; rfl)

theorem commandDoes (c : Command) : Does c := by
  by_cases message : Message c
  · exact messageDoes message
  · exact otherDoes message

theorem blocksFreed (c : Command) : blocksLeft c.calls = [] ↔ (Message c → Forwards c.net) := by
  rcases commandDoes c with ⟨other,same⟩ | ⟨other,ctx,same⟩ | ⟨message,closed,same⟩ |
      ⟨message,ctx,opened,failed,same⟩ | ⟨message,ctx,opened,sent,same⟩
  · simp [blocksLeft,same,postAll,nothing,other]
  · simp [blocksLeft,same,postAll,post,nothing,other]
  · simp [blocksLeft,same,postAll,post,nothing,isBlock,message,Forwards,closed]
  · simp [blocksLeft,same,postAll,post,nothing,isBlock,message,Forwards,failed]
  · simp [blocksLeft,same,postAll,post,nothing,message,Forwards,opened,sent]

theorem socketsClosed (c : Command) : socketsLeft c.calls = [] ↔
    (Message c → c.net.socketOpen.isSome → c.net.socketSend = true) := by
  rcases commandDoes c with ⟨other,same⟩ | ⟨other,ctx,same⟩ | ⟨message,closed,same⟩ |
      ⟨message,ctx,opened,failed,same⟩ | ⟨message,ctx,opened,sent,same⟩
  · simp [socketsLeft,same,postAll,nothing,other]
  · simp [socketsLeft,same,postAll,post,nothing,other]
  · simp [socketsLeft,same,postAll,post,nothing,isSocket,closed]
  · simp [socketsLeft,same,postAll,post,nothing,isSocket,message,opened,failed]
  · simp [socketsLeft,same,postAll,post,nothing,sent]

theorem commandCloses (c : Command) (ctx : Nat) :
    (effects c.calls).count (.release (.socket ctx)) ≤
      (effects c.calls).count (.acquire (.socket ctx)) := by
  rcases commandDoes c with ⟨-,same⟩ | ⟨-,other,same⟩ | ⟨-,-,same⟩ | ⟨-,other,-,-,same⟩ |
      ⟨-,other,-,-,same⟩
  · simp [same]
  · by_cases mine : other = ctx <;> simp [same,mine]
  · simp [same]
  · simp [same]
  · by_cases mine : other = ctx <;> simp [same,mine]

theorem commandsClose (commands : List Command) (ctx : Nat) :
    (effects (commands.flatMap Command.calls)).count (.release (.socket ctx)) ≤
      (effects (commands.flatMap Command.calls)).count (.acquire (.socket ctx)) := by
  induction commands with
  | nil => exact Nat.le_refl _
  | cons c rest ih =>
    have first := commandCloses c ctx
    simp only [effects,List.flatMap_cons,List.flatMap_append,List.count_append] at first ih ⊢
    omega

theorem openedCtx {paramTypes : UInt32} {net : Network}
    (ok : (taOpenSessionEntryPoint paramTypes net).1 = teeSuccess) :
    ∃ ctx, (taOpenSessionEntryPoint paramTypes net).2 = [.open (some ctx)] := by
  unfold taOpenSessionEntryPoint at ok ⊢
  split at ok
  · exact absurd ok (by decide)
  · rename_i types
    rw [if_neg types]
    cases opened : net.socketOpen with
    | none =>
      rw [opened] at ok
      exact absurd ok (by decide)
    | some ctx => exact ⟨ctx,rfl⟩

theorem refusedCalls {paramTypes : UInt32} {net : Network}
    (failed : (taOpenSessionEntryPoint paramTypes net).1 ≠ teeSuccess) :
    effects (taOpenSessionEntryPoint paramTypes net).2 = [] := by
  unfold taOpenSessionEntryPoint at failed ⊢
  split
  · rfl
  · rename_i types
    rw [if_neg types] at failed
    cases opened : net.socketOpen with
    | none => rfl
    | some ctx =>
      rw [opened] at failed
      exact absurd rfl failed

theorem lifeReleases (paramTypes : UInt32) (net : Network) (commands : List Command) :
    Released paramTypes net commands ↔
      (taOpenSessionEntryPoint paramTypes net).1 ≠ teeSuccess := by
  constructor
  · rintro ⟨sockets,-⟩ ok
    obtain ⟨ctx,calls⟩ := openedCtx ok
    have whole : effects (life paramTypes net commands) =
        .acquire (.socket ctx) :: effects (commands.flatMap Command.calls) := by
      rw [life,performed,if_pos ok,if_pos ok,calls,taCloseSessionEntryPoint,List.append_nil]
      rfl
    have least := heldLeast (.socket ctx) (effects (life paramTypes net commands)) nothing
    have closes := commandsClose commands ctx
    rw [whole,List.count_cons_self,List.count_cons_of_ne (by simp)] at least
    have left : Resource.socket ctx ∈ (postAll (effects (life paramTypes net commands)) nothing).held := by
      refine List.count_pos_iff.mp ?_
      rw [whole]
      omega
    have open_ := List.mem_filter.mpr ⟨left,(rfl : isSocket (.socket ctx) = true)⟩
    rw [socketsLeft] at sockets
    rw [sockets] at open_
    contradiction
  · intro failed
    refine ⟨?_,?_⟩
    · rw [socketsLeft,life,performed,if_neg failed,if_neg failed,List.flatMap_nil,List.append_nil,
        List.append_nil,refusedCalls failed]
      rfl
    · intro c mem
      rw [performed,if_neg failed] at mem
      contradiction

theorem unopened (paramTypes : UInt32) (net : Network) :
    (taOpenSessionEntryPoint paramTypes net).1 ≠ teeSuccess ↔
      paramTypes ≠ teeParamTypes
        [teeParamTypeNone,teeParamTypeNone,teeParamTypeNone,teeParamTypeNone] ∨
      net.socketOpen = none := by
  unfold taOpenSessionEntryPoint
  split
  · rename_i types
    exact ⟨fun _ => .inl types,fun _ => by decide⟩
  · rename_i types
    cases opened : net.socketOpen with
    | none => exact ⟨fun _ => .inr rfl,fun _ => by decide⟩
    | some ctx =>
      refine ⟨fun failed => absurd rfl failed,?_⟩
      rintro (other | closed)
      · exact absurd other types
      · contradiction

/- The socket a session is opened with outlives the session, whatever is done in it, so
only a session that is never opened gives back everything. A command gives back what
it takes unless it is a message that is not forwarded. -/
theorem sessionReleases (paramTypes : UInt32) (net : Network) (commands : List Command) :
    (Released paramTypes net commands ↔
      paramTypes ≠ teeParamTypes
        [teeParamTypeNone,teeParamTypeNone,teeParamTypeNone,teeParamTypeNone] ∨
      net.socketOpen = none) ∧
    ∀ c : Command, (blocksLeft c.calls = [] ↔ (Message c → Forwards c.net)) ∧
      (socketsLeft c.calls = [] ↔
        (Message c → c.net.socketOpen.isSome → c.net.socketSend = true)) :=
  ⟨(lifeReleases paramTypes net commands).trans (unopened paramTypes net),
    fun c => ⟨blocksFreed c,socketsClosed c⟩⟩

def unsentMessage : Command :=
  ⟨taCollectSendMsg,teeParamTypes [teeParamTypeMemrefInput,teeParamTypeNone,teeParamTypeNone,
    teeParamTypeNone],[65],⟨some 2,false,1⟩⟩

theorem openedLeaks :
    socketsLeft (life 0 ⟨some 1,true,0⟩ []) = [.socket 1] ∧
    blocksLeft unsentMessage.calls = [.block 1] ∧
    ¬ Released 0 ⟨some 1,true,0⟩ [] ∧ ¬ Released 0 ⟨some 1,true,0⟩ [unsentMessage] := by
  refine ⟨by decide,by decide,fun h => ?_,fun h => ?_⟩
  · exact absurd h.sockets (by decide)
  · exact absurd (h.blocks unsentMessage (by decide)) (by decide)

end TeePa.CollectSessions
