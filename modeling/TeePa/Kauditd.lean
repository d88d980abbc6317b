import TeePa.DeviceRuns

/-! The kernel's audit thread and its backlog. Every record that is logged goes to the
ring behind the name of its host; each turn of the thread sends one batch at most, and
only from 500 records on. A turn that finds no session leaves the ring as it is. -/
namespace TeePa.Kauditd
open CStrings KernelRing KernelClient DeviceRuns Runs

def nodeField : CString := ⟨",node=".toUTF8.toList,by decide +kernel⟩

/- What enqueue answered, where it was called at all. -/
def auditLogEnd (ab : Option CString) (rateCheck : Bool) (hostname : CString) (r : Ring) :
    Option Int × Ring :=
  match ab with
  | none => (none,r)
  | some logMsg =>
      if rateCheck then
        let stored := enqueue ((logMsg.append nodeField).append hostname) r
        (some stored.1,stored.2)
      else (none,r)

-- One turn of the thread, past its netlink queues.
def kauditdTurn (locals : Locals) (o : Outcomes) (k : Kernel) : List TeeCall × Kernel :=
  if k.ring.queueNum ≥ 500 then (sendEventlogTaCollect locals o k).2 else ([],k)

inductive Event where
  | logged (ab : Option CString) (rateCheck : Bool) (hostname : CString)
  | turn (locals : Locals) (outcomes : Outcomes)

/- The kernel with what has happened to it: the records since the last turn, the turns
that had a batch to send and no session for it, and the records that were refused. -/
structure Audit where
  kernel : Kernel
  fresh : Nat
  outages : Nat
  refused : Nat

def start (m : Memory) : Audit := ⟨⟨initial m,.null,zeroedArg⟩,0,0,0⟩

def step (a : Audit) : Event → Option Audit
  | .logged ab rateCheck hostname =>
      let ended := auditLogEnd ab rateCheck hostname a.kernel.ring
      some {a with
        kernel := {a.kernel with ring := ended.2}
        fresh := if ended.1.isSome then a.fresh + 1 else a.fresh
        refused := if ended.1 = some (-1) then a.refused + 1 else a.refused}
  | .turn locals o =>
      some {a with
        kernel := (kauditdTurn locals o a.kernel).2
        fresh := 0
        outages := if a.kernel.ring.queueNum ≥ 500 ∧ ¬ SessionAvailable a.kernel o then a.outages + 1
          else a.outages}

def Paced (limit burst : Nat) (a : Audit) : Event → Prop
  | .logged ab rateCheck hostname => ∀ logMsg ∈ ab, rateCheck = true →
      22 ≤ ((logMsg.append nodeField).append hostname).length ∧
      ((logMsg.append nodeField).append hostname).length ≤ limit ∧ a.fresh < burst
  | .turn _ _ => True

structure Backlog (limit burst : Nat) (a : Audit) : Prop where
  wellFormed : WellFormed a.kernel.ring
  sizes : ∀ r ∈ queued a.kernel.ring, 22 ≤ r.length ∧ r.length ≤ limit
  paced : a.fresh ≤ burst
  bounded : a.kernel.ring.queueNum ≤ 499 + burst * a.outages + a.fresh
  refused : 499 + burst * (a.outages + 1) ≤ queueSize → a.refused = 0

theorem batchCount {front : List CString} {limit : Nat} (short : ∀ r ∈ front, r.length ≤ limit) :
    (batchBytes front).length ≤ front.length * (limit+1) := by
  induction front with
  | nil => exact Nat.zero_le _
  | cons r rest ih =>
    have head : r.bytes.length ≤ limit := short r List.mem_cons_self
    have tail := ih (fun t mem => short t (List.mem_cons_of_mem _ mem))
    have parts : (batchBytes (r::rest)).length = r.bytes.length + 1 + (batchBytes rest).length := by
      simp only [batchBytes,List.flatMap_cons,List.length_append,List.length_singleton]
    rw [parts,List.length_cons,Nat.succ_mul]
    omega

theorem turnTakes {k : Kernel} {o : Outcomes} (locals : Locals) (wf : WellFormed k.ring)
    (guard : k.ring.queueNum ≥ 500) (long : ∀ r ∈ queued k.ring, 22 ≤ r.length)
    (available : SessionAvailable k o) :
    ∃ front rest, queued k.ring = front ++ rest ∧ 10000 < (batchBytes front).length ∧
      WellFormed (kauditdTurn locals o k).2.ring ∧ queued (kauditdTurn locals o k).2.ring = rest := by
  obtain ⟨front,rest,batch⟩ := gatherAllBatch locals wf guard long
  obtain ⟨k',same,sent⟩ := sendWithSession locals available
  have ring : (kauditdTurn locals o k).2.ring = (gatherAll locals k.ring).ring := by
    rw [kauditdTurn,if_pos guard,sent,← same]
    exact sendBatchRing locals o k'
  have passed := batch.passed
  rw [CString.length,withLinesBytes] at passed
  refine ⟨front,rest,batch.split,passed,?_,?_⟩
  · rw [ring]
    exact batch.wellFormed
  · rw [ring]
    exact batch.left

theorem startBacklog (limit burst : Nat) (m : Memory) : Backlog limit burst (start m) := by
  refine ⟨initialWellFormed m,?_,Nat.zero_le _,?_,fun _ => rfl⟩
  · intro r mem
    exact absurd mem List.not_mem_nil
  · simp only [start,initial]
    omega

section Step
variable {limit burst : Nat} {a a' : Audit}

theorem loggedBacklog {ab : Option CString} {rateCheck : Bool} {hostname : CString}
    (h : Backlog limit burst a) (small : limit < slotSize)
    (paced : Paced limit burst a (.logged ab rateCheck hostname))
    (ok : step a (.logged ab rateCheck hostname) = some a') : Backlog limit burst a' := by
  cases Option.some.inj ok
  have quiet : auditLogEnd ab rateCheck hostname a.kernel.ring = (none,a.kernel.ring) ∨
      ∃ s : CString, 22 ≤ s.length ∧ s.length ≤ limit ∧ a.fresh < burst ∧
        auditLogEnd ab rateCheck hostname a.kernel.ring =
          (some (enqueue s a.kernel.ring).1,(enqueue s a.kernel.ring).2) := by
    cases ab with
    | none => exact .inl rfl
    | some logMsg =>
      cases rateCheck with
      | false => exact .inl rfl
      | true =>
        obtain ⟨long,short,room⟩ := paced logMsg rfl rfl
        exact .inr ⟨_,long,short,room,rfl⟩
  rcases quiet with none | ⟨s,long,short,room,stored⟩
  · rw [none]
    exact ⟨h.wellFormed,h.sizes,h.paced,h.bounded,h.refused⟩
  · have fits : s.length < slotSize := Nat.lt_of_le_of_lt short small
    have bounded := h.bounded
    rw [stored]
    by_cases free : a.kernel.ring.queueNum < queueSize
    · have ret : (enqueue s a.kernel.ring).1 = 0 := by rw [enqueue,if_pos free]
      have num : (enqueue s a.kernel.ring).2.queueNum = a.kernel.ring.queueNum + 1 := by
        rw [enqueue,if_pos free]
      refine ⟨enqueueWellFormed h.wellFormed fits,?_,room,?_,?_⟩
      · intro r mem
        dsimp only at mem
        rw [enqueueQueued h.wellFormed fits free] at mem
        rcases List.mem_append.mp mem with old | new
        · exact h.sizes r old
        · exact List.mem_singleton.mp new ▸ ⟨long,short⟩
      · simp only [num,Option.isSome_some,if_true]
        omega
      · simp only [ret]
        exact h.refused
    · have full := enqueueFull s free
      rw [full]
      refine ⟨h.wellFormed,h.sizes,room,?_,?_⟩
      · simp only [Option.isSome_some,if_true]
        omega
      · intro capacity
        dsimp only at capacity
        rw [Nat.mul_succ] at capacity
        omega

theorem turnRelieves {o : Outcomes} (locals : Locals) (h : Backlog limit burst a)
    (rate : (burst - 1) * (limit + 1) ≤ 10000) (guard : a.kernel.ring.queueNum ≥ 500)
    (available : SessionAvailable a.kernel o) :
    ∃ front rest, queued a.kernel.ring = front ++ rest ∧
      WellFormed (kauditdTurn locals o a.kernel).2.ring ∧
      queued (kauditdTurn locals o a.kernel).2.ring = rest ∧
      (kauditdTurn locals o a.kernel).2.ring.queueNum + burst ≤ a.kernel.ring.queueNum := by
  obtain ⟨front,rest,split,passed,wf,left⟩ :=
    turnTakes locals h.wellFormed guard (fun r mem => (h.sizes r mem).1) available
  have taken : burst ≤ front.length := by
    have count := @batchCount front limit
      (fun r mem => (h.sizes r (split ▸ List.mem_append_left _ mem)).2)
    refine Nat.le_of_not_lt (fun fewer => ?_)
    have most := Nat.mul_le_mul_right (limit+1) (show front.length ≤ burst - 1 by omega)
    omega
  have before := queuedLength h.wellFormed.toInBounds
  have after := queuedLength wf.toInBounds
  rw [split,List.length_append] at before
  rw [left] at after
  exact ⟨front,rest,split,wf,left,by omega⟩

theorem turnBacklog {locals : Locals} {o : Outcomes} (h : Backlog limit burst a)
    (rate : (burst - 1) * (limit + 1) ≤ 10000) (ok : step a (.turn locals o) = some a') :
    Backlog limit burst a' := by
  cases Option.some.inj ok
  have bounded := h.bounded
  have paced := h.paced
  by_cases guard : a.kernel.ring.queueNum ≥ 500
  · by_cases available : SessionAvailable a.kernel o
    · obtain ⟨front,rest,split,wf,left,relief⟩ := turnRelieves locals h rate guard available
      refine ⟨wf,?_,Nat.zero_le _,?_,?_⟩
      · intro r mem
        exact h.sizes r (split ▸ List.mem_append_right _ (left ▸ mem))
      · simp only [available,not_true,and_false,if_false]
        omega
      · simp only [available,not_true,and_false,if_false]
        exact h.refused
    · have ring : (kauditdTurn locals o a.kernel).2.ring = a.kernel.ring := by
        rw [kauditdTurn,if_pos guard]
        exact (sendWithoutSession locals available).2.1
      have more : (burst : Int) * ((a.outages + 1 : Nat) : Int) = burst * a.outages + burst := by
        rw [Int.natCast_add,Int.mul_add]
        exact congrArg _ (Int.mul_one _)
      refine ⟨ring ▸ h.wellFormed,ring ▸ h.sizes,Nat.zero_le _,?_,?_⟩
      · simp only [ring,guard,available,not_false_eq_true,and_self,if_true]
        rw [more]
        omega
      · simp only [guard,available,not_false_eq_true,and_self,if_true]
        intro capacity
        refine h.refused ?_
        rw [Nat.mul_succ] at capacity
        omega
  · have same : (kauditdTurn locals o a.kernel).2 = a.kernel := by rw [kauditdTurn,if_neg guard]
    rw [same]
    refine ⟨h.wellFormed,h.sizes,Nat.zero_le _,?_,?_⟩
    · have waiting : (0 : Int) ≤ burst * a.outages :=
        Int.mul_nonneg (Int.natCast_nonneg _) (Int.natCast_nonneg _)
      simp only [guard,false_and,if_false]
      omega
    · simp only [guard,false_and,if_false]
      exact h.refused

end Step

/- A batch holds at least `burst` records, so the ring never holds more than 499 and
what came since the last turn, and `burst` more for every turn without a session; until
those fill it, no record is refused. -/
theorem backlogBounded {limit burst : Nat} {m : Memory} {events : List Event} {a : Audit}
    (small : limit < slotSize) (rate : (burst - 1) * (limit + 1) ≤ 10000)
    (run : Run (Restrict (Paced limit burst) (Of step)) (start m) events a) :
    a.kernel.ring.queueNum ≤ 499 + burst * a.outages + a.fresh ∧
    (499 + burst * (a.outages + 1) ≤ queueSize → a.refused = 0) := by
  have preserved : ∀ a event a', Backlog limit burst a →
      Restrict (Paced limit burst) (Of step) a event a' → Backlog limit burst a' := by
    rintro a event a' h ⟨paced,ok⟩
    cases event with
    | logged ab rateCheck hostname => exact loggedBacklog h small paced ok
    | turn locals o => exact turnBacklog h rate ok
  have last := invariant preserved run (startBacklog limit burst m)
  exact ⟨last.bounded,last.refused⟩

def title : CString := ⟨List.replicate 16 65,by decide +kernel⟩

def host : CString := ⟨[104],by decide +kernel⟩

def record : Event := .logged (some title) true host

def turn (o : Outcomes) : Event := .turn ⟨fun _ => 0,0⟩ o

def noDriver : Outcomes := {invokeSucceeds with openContext := none}

theorem recordSize : ((title.append nodeField).append host).length = 23 := by decide +kernel

theorem recordsRun {a : Audit} (n : Nat) (h : Backlog 23 417 a)
    (room : a.kernel.ring.queueNum + n ≤ queueSize) (pace : a.fresh + n ≤ 417) :
    ∃ a', Run (Restrict (Paced 23 417) (Of step)) a (List.replicate n record) a' ∧
      Backlog 23 417 a' ∧ a'.kernel.ring.queueNum = a.kernel.ring.queueNum + n ∧
      a'.kernel.teeCtx = a.kernel.teeCtx ∧ a'.outages = a.outages := by
  induction n generalizing a with
  | zero => exact ⟨a,.nil a,h,by omega,rfl,rfl⟩
  | succ n ih =>
    have paced : Paced 23 417 a record := by
      intro logMsg mem _
      cases Option.some.inj mem
      rw [recordSize]
      exact ⟨by decide,by decide,by omega⟩
    have ended : auditLogEnd (some title) true host a.kernel.ring =
        (some (enqueue ((title.append nodeField).append host) a.kernel.ring).1,
          (enqueue ((title.append nodeField).append host) a.kernel.ring).2) := rfl
    have num : (auditLogEnd (some title) true host a.kernel.ring).2.queueNum =
        a.kernel.ring.queueNum + 1 := by
      rw [ended,enqueue,if_pos (by omega)]
    have moved : step a record = some _ := rfl
    have next := loggedBacklog h (by decide) paced moved
    have fresh : (auditLogEnd (some title) true host a.kernel.ring).1.isSome = true := rfl
    rw [if_pos fresh] at moved next
    obtain ⟨a',run,last,count,ctx,outages⟩ := @ih _ next (by dsimp only; omega) (by dsimp only; omega)
    exact ⟨a',.cons ⟨paced,moved⟩ run,last,by rw [count]; dsimp only; omega,ctx,outages⟩

theorem backlogBoundedTurns : ∃ a, Run (Restrict (Paced 23 417) (Of step)) (start (fun _ => 0))
      (List.replicate 417 record ++ [turn invokeSucceeds] ++ List.replicate 83 record ++
        [turn noDriver,turn invokeSucceeds]) a ∧
    a.outages = 1 ∧ a.kernel.ring.queueNum ≤ 83 ∧
    a.kernel.ring.queueNum ≤ 499 + 417 * a.outages + a.fresh ∧
    (499 + 417 * (a.outages + 1) ≤ queueSize → a.refused = 0) := by
  have rate : (417 - 1) * (23 + 1) ≤ 10000 := by decide
  obtain ⟨a,first,h,num,ctx,outages⟩ := recordsRun 417 (startBacklog 23 417 (fun _ => 0))
    (by decide) (by decide)
  have low : ¬ a.kernel.ring.queueNum ≥ 500 := by rw [num]; decide
  have idle : step a (turn invokeSucceeds) = some {a with fresh := 0} := by
    simp only [step,turn,kauditdTurn,low,false_and,if_false]
  obtain ⟨b,second,h',num',ctx',outages'⟩ := recordsRun 83 (turnBacklog h rate idle)
    (by dsimp only; rw [num]; decide) (by dsimp only; decide)
  have guard : b.kernel.ring.queueNum ≥ 500 := by rw [num']; dsimp only; rw [num]; decide
  have closed : ¬ SessionAvailable b.kernel noDriver := by
    rw [SessionAvailable,ctx',ctx]
    decide
  obtain ⟨c,missed,same,one⟩ : ∃ c, step b (turn noDriver) = some c ∧
      c.kernel.ring = b.kernel.ring ∧ c.outages = b.outages + 1 := by
    refine ⟨_,rfl,?_,if_pos ⟨guard,closed⟩⟩
    dsimp only
    rw [kauditdTurn,if_pos guard]
    exact (sendWithoutSession _ closed).2.1
  have opens : SessionAvailable c.kernel invokeSucceeds := .inr (by decide)
  obtain ⟨-,-,-,-,-,relief⟩ :=
    turnRelieves ⟨fun _ => 0,0⟩ (turnBacklog h' rate missed) rate (same ▸ guard) opens
  have paced : ∀ a o, Paced 23 417 a (turn o) := fun _ _ => trivial
  have run := append (append (append first (single ⟨paced _ _,idle⟩)) second)
    (.cons ⟨paced _ _,missed⟩ (single ⟨paced c invokeSucceeds,rfl⟩))
  refine ⟨_,run,?_,?_,backlogBounded (by decide) rate run⟩
  · simp only [opens,not_true,and_false,if_false]
    rw [one,outages',outages]
    rfl
  · rw [same,num',num] at relief
    dsimp only [start,initial] at relief ⊢
    omega

end TeePa.Kauditd
