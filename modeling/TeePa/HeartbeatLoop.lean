import TeePa.Rounds

/-! One iteration of the heartbeat thread: a first contact for every device that
waits, then the pass over the tasks. SSH is used in both, and each use has its own
outcome. -/
namespace TeePa.HeartbeatLoop
open Texts Heartbeat Rounds

structure Contact where
  now : Time
  ssh : SshOutcome
  deriving DecidableEq, Repr

structure Turn where
  token : Token
  contacts : Nat → Contact
  visits : Nat → Visit

structure Outcome where
  returned : Bool
  iotDevice : List Text
  monitor : Monitor
  deriving DecidableEq, Repr

def contact (token : Token) (c : Contact) (targetIp : Text) (m : Monitor) : Bool × Monitor :=
  executeCommand targetIp "root".toList "toor".toList
    (keyCommand token ++ ";optee_example_watchdog".toList) c.ssh
    (registerTask targetIp (keyCommand token) c.now m)

/- The inner loop pops from the right; every round takes a device, so the count
bounds the rounds. -/
def contactAll (turn : Turn) : Nat → Nat → List Text → Monitor → Outcome
  | 0, _, iotDevice, m => ⟨true,iotDevice,m⟩
  | fuel+1, index, iotDevice, m => match iotDevice.getLast? with
    | none => ⟨true,iotDevice,m⟩
    | some targetIp =>
        let issued := contact turn.token (turn.contacts index) targetIp m
        if issued.1 then contactAll turn fuel (index+1) iotDevice.dropLast issued.2
        else ⟨false,iotDevice.dropLast,issued.2⟩

def iteration (turn : Turn) (iotDevice : List Text) (m : Monitor) : Outcome :=
  let met := contactAll turn iotDevice.length 0 iotDevice m
  if met.returned then
    ⟨(checkRounds turn.visits met.monitor).all (fun round => !round.raised),met.iotDevice,
      checkExpire turn.visits met.monitor⟩
  else met

def firstTask (turn : Turn) (index ref : Nat) (targetIp : Text) : Task :=
  ⟨ref,(turn.contacts index).now,(turn.contacts index).now + seconds 180,targetIp,
    keyCommand turn.token,false⟩

def firstContact (turn : Turn) (index ref : Nat) (targetIp : Text) : List Event :=
  [.given ref (keyCommand turn.token),.executed targetIp "root".toList "toor".toList
    (keyCommand turn.token ++ ";optee_example_watchdog".toList) (turn.contacts index).ssh]

def registered (turn : Turn) (index : Nat) (devices : List Text) (m : Monitor) : Monitor :=
  {executingTasks := m.executingTasks ++
      devices.mapIdx (fun k => firstTask turn (index+k) (m.created+k))
   created := m.created + devices.length
   history := m.history ++
      (devices.mapIdx (fun k => firstContact turn (index+k) (m.created+k))).flatten}

structure Completed (turn : Turn) (iotDevice : List Text) (m : Monitor) : Prop where
  returned : (iteration turn iotDevice m).returned = true
  emptied : (iteration turn iotDevice m).iotDevice = []
  monitor : (iteration turn iotDevice m).monitor =
    checkExpire turn.visits (registered turn 0 iotDevice.reverse m)

/- No contact meets an error the handler does not name, and neither does the renewal of
a flagged task that the pass comes to. A device that is registered in this iteration
has no flag, so the tasks of before decide. -/
structure Caught (turn : Turn) (iotDevice : List Text) (tasks : List Task) : Prop where
  contacts : ∀ index < iotDevice.length, (turn.contacts index).ssh ≠ .osError
  renewals : ∀ entry ∈ looked turn.visits 0 tasks, entry.2.heartbeatCheck = true →
    (turn.visits entry.1).ssh ≠ .osError

theorem registeredNil (turn : Turn) (index : Nat) (m : Monitor) : registered turn index [] m = m := by
  simp [registered]

theorem shifted {α : Type} (f : Nat → Nat → α) (index ref : Nat) :
    (fun k => f (index+(k+1)) (ref+(k+1))) = fun k => f (index+1+k) (ref+1+k) := by
  funext k
  rw [Nat.add_comm k 1,← Nat.add_assoc,← Nat.add_assoc]

theorem registeredCons (turn : Turn) (index : Nat) (targetIp : Text) (rest : List Text) (m : Monitor) :
    registered turn index (targetIp::rest) m =
      registered turn (index+1) rest (contact turn.token (turn.contacts index) targetIp m).2 := by
  have tasks := shifted (firstTask turn) index m.created
  have events := shifted (firstContact turn) index m.created
  have size : m.created + (rest.length + 1) = m.created + 1 + rest.length := by omega
  simp only [registered,contact,executeCommand,registerTask,List.mapIdx_cons,tasks,events,
    List.length_cons,size,List.flatten_cons,List.append_assoc,Nat.add_zero]
  rfl

theorem firstUnflagged (turn : Turn) (index created : Nat) (devices : List Text) :
    ∀ i ∈ devices.mapIdx (fun k => firstTask turn (index+k) (created+k)),
      i.heartbeatCheck = false := by
  intro i mem
  obtain ⟨k,-,rfl⟩ := List.mem_mapIdx.mp mem
  rfl

theorem contactReturned (token : Token) (c : Contact) (targetIp : Text) (m : Monitor) :
    (contact token c targetIp m).1 = true ↔ c.ssh ≠ .osError := by
  simp [contact,executeCommand]

theorem contactedAll (turn : Turn) {fuel index : Nat} {devices : List Text} {m : Monitor}
    (enough : devices.length ≤ fuel) :
    ((contactAll turn fuel index devices.reverse m).returned = true ↔
      ∀ k < devices.length, (turn.contacts (index+k)).ssh ≠ .osError) ∧
    ((contactAll turn fuel index devices.reverse m).returned = true →
      contactAll turn fuel index devices.reverse m =
        ⟨true,[],registered turn index devices m⟩) := by
  induction fuel generalizing index devices m with
  | zero =>
    cases List.eq_nil_of_length_eq_zero (Nat.le_zero.mp enough)
    exact ⟨⟨fun _ => nofun,fun _ => rfl⟩,fun _ => by rw [registeredNil]; rfl⟩
  | succ fuel ih =>
    cases devices with
    | nil => exact ⟨⟨fun _ => nofun,fun _ => rfl⟩,fun _ => by rw [registeredNil]; rfl⟩
    | cons targetIp rest =>
      have last : (targetIp::rest).reverse.getLast? = some targetIp := by simp
      have front : (targetIp::rest).reverse.dropLast = rest.reverse := by simp
      have shorter : rest.length ≤ fuel := Nat.le_of_succ_le_succ enough
      rw [registeredCons]
      simp only [contactAll,last,front]
      by_cases met : (turn.contacts index).ssh = .osError
      · have failed : (contact turn.token (turn.contacts index) targetIp m).1 ≠ true :=
          fun ok => (contactReturned _ _ _ _).mp ok met
        rw [if_neg failed]
        refine ⟨⟨nofun,fun all => absurd met (all 0 (Nat.zero_lt_succ _))⟩,nofun⟩
      · rw [if_pos ((contactReturned _ _ _ _).mpr met)]
        obtain ⟨returned,result⟩ := @ih (index+1) rest
          (contact turn.token (turn.contacts index) targetIp m).2 shorter
        refine ⟨returned.trans ⟨fun others k small => ?_,fun all k small => ?_⟩,result⟩
        · cases k with
          | zero => exact met
          | succ k =>
            rw [Nat.add_comm k 1,← Nat.add_assoc]
            exact others k (Nat.lt_of_succ_lt_succ small)
        · rw [Nat.add_assoc,Nat.add_comm 1 k]
          exact all (k+1) (Nat.succ_lt_succ small)

theorem expiredTasks (v : Visit) (i : Task) (m : Monitor) :
    (expire v i m).2.executingTasks =
      if i.expireTime ≤ v.checkNow then m.executingTasks.eraseP (equalFields i)
      else m.executingTasks := by
  unfold expire
  split <;> rfl

theorem iterationCompletes (turn : Turn) (iotDevice : List Text) (m : Monitor) :
    Completed turn iotDevice m ↔ Caught turn iotDevice m.executingTasks := by
  obtain ⟨met,result⟩ := @contactedAll turn iotDevice.length 0 iotDevice.reverse m
    (Nat.le_of_eq List.length_reverse)
  simp only [List.reverse_reverse,List.length_reverse,Nat.zero_add] at met result
  have quiet := firstUnflagged turn 0 m.created iotDevice.reverse
  have pass := (passReturns turn.visits (registered turn 0 iotDevice.reverse m)).trans
    (@lookedFlagged turn.visits m.executingTasks _ (fun k => (turn.visits k).ssh ≠ .osError) 0 quiet)
  constructor
  · rintro ⟨returned,-,-⟩
    unfold iteration at returned
    dsimp only at returned
    split at returned
    · rename_i came
      rw [result came] at returned
      exact ⟨met.mp came,pass.mp returned⟩
    · contradiction
  · rintro ⟨contacts,renewals⟩
    have whole : iteration turn iotDevice m =
        ⟨true,[],checkExpire turn.visits (registered turn 0 iotDevice.reverse m)⟩ := by
      rw [iteration,result (met.mpr contacts)]
      simp only [if_true,pass.mpr renewals]
    exact ⟨by rw [whole],by rw [whole],by rw [whole]⟩

def refused : Turn :=
  ⟨zeros,fun _ => ⟨0,.osError⟩,fun _ => ⟨ones,0,0,.success⟩⟩

theorem refusedStops :
    (iteration refused ["10.0.0.1".toList,"10.0.0.2".toList] ⟨[],0,[]⟩).iotDevice =
      ["10.0.0.1".toList] ∧
    ¬ Completed refused ["10.0.0.1".toList,"10.0.0.2".toList] ⟨[],0,[]⟩ := by
  refine ⟨by decide +kernel,fun h => ?_⟩
  exact absurd h.returned (by decide +kernel)

end TeePa.HeartbeatLoop
