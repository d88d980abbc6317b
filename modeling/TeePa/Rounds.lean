import TeePa.Heartbeat

/-! One round of check_expire on the list that the loop goes over, and the pass from that.
What the loop has still to come to is as it was before the pass, but for the tasks that
are passed by. -/
namespace TeePa.Rounds
open Texts Heartbeat

section Behind
variable {index : Nat} {i : Task} {rest : List Task} {m : Monitor}

-- A flagged task has a new deadline by then.
def leaves (v : Visit) (i : Task) : Bool :=
  if i.heartbeatCheck then v.renewNow + seconds 15 ≤ v.checkNow else i.expireTime ≤ v.checkNow

/- The removed task may be an equal one in front: the rest moves forward all the same. -/
theorem erasedBehind {tasks : List Task} {p : Task → Bool} (behind : tasks.drop index = i::rest)
    (mine : p i = true) : (tasks.eraseP p).drop (index+1) = rest.tail := by
  have split : tasks = tasks.take index ++ i::rest := by rw [← behind,List.take_append_drop]
  have size : (tasks.take index).length = index := by
    rw [List.length_take]
    refine Nat.min_eq_left (Nat.le_of_not_lt (fun short => ?_))
    rw [List.drop_of_length_le (Nat.le_of_lt short)] at behind
    contradiction
  generalize tasks.take index = done at split size
  rw [split,← List.drop_one]
  by_cases front : ∃ j ∈ done, p j = true
  · obtain ⟨j,mem,same⟩ := front
    have some := List.length_pos_of_mem mem
    have shorter := List.length_eraseP_of_mem mem same
    have place : index + 1 = (done.eraseP p).length + 2 := by omega
    rw [List.eraseP_append_left same _ mem,place,List.drop_length_add_append]
    rfl
  · have others : ∀ j ∈ done, ¬ p j = true := fun j mem same => front ⟨j,mem,same⟩
    rw [List.eraseP_append_right _ others,List.eraseP_cons_of_pos mine,← size,
      List.drop_length_add_append]

theorem expireBehind (v : Visit) (behind : m.executingTasks.drop index = i::rest) :
    (expire v i m).2.executingTasks.drop (index+1) =
      if i.expireTime ≤ v.checkNow then rest.tail else rest := by
  unfold expire
  split
  · exact erasedBehind behind (equalItself i)
  · rw [← List.drop_drop,behind]
    rfl

theorem setBehind {tasks : List Task} (x : Task) (behind : tasks.drop index = i::rest) :
    (tasks.set index x).drop index = x::rest := by
  have inside : index < tasks.length := by
    refine Nat.lt_of_not_le (fun past => ?_)
    rw [List.drop_of_length_le past] at behind
    contradiction
  rw [List.drop_set,if_neg (Nat.lt_irrefl _),Nat.sub_self,behind]
  rfl

theorem foundBehind (behind : m.executingTasks.drop index = i::rest) :
    m.executingTasks[index]? = some i := by
  rw [← List.head?_drop,behind]
  rfl

theorem raisedBehind {v : Visit} (behind : m.executingTasks.drop index = i::rest)
    (flagged : i.heartbeatCheck = true) (lost : v.ssh = .osError) :
    (visit v index i m).after.executingTasks.drop (index+1) = rest := by
  have assigned := setBehind {i with heartbeatCheck := false} behind
  rw [visitRaised index m flagged lost,executeCommand,assign,← List.drop_drop,assigned]
  rfl

theorem visitBehind {v : Visit} (behind : m.executingTasks.drop index = i::rest)
    (ok : i.heartbeatCheck = true → v.ssh ≠ .osError) :
    (visit v index i m).raised = false ∧
    (visit v index i m).after.executingTasks.drop (index+1) =
      if leaves v i then rest.tail else rest := by
  cases flag : i.heartbeatCheck with
  | true =>
    have assigned := setBehind (renew v i) behind
    have renewed : (renewal v index i m).executingTasks.drop index = renew v i::rest := assigned
    rw [visitFlagged index m flag (ok flag)]
    refine ⟨rfl,(expireBehind v renewed).trans ?_⟩
    simp only [leaves,flag,renew,if_true,decide_eq_true_eq]
    exact ite_congr rfl (fun _ => rfl) (fun _ => rfl)
  | false =>
    rw [visitUnflagged v index m flag]
    refine ⟨rfl,(expireBehind v behind).trans ?_⟩
    simp only [leaves,flag,Bool.false_eq_true,if_false,decide_eq_true_eq]

end Behind

section Looked
variable {env : Nat → Visit}

/- The tasks that a pass looks at, each with the number of its round: the one behind a
task that leaves is passed by. -/
def looked (env : Nat → Visit) : Nat → List Task → List (Nat × Task)
  | _, [] => []
  | index, [i] => [(index,i)]
  | index, i::next::rest => (index,i) ::
      if leaves (env index) i then looked env (index+1) rest else looked env (index+1) (next::rest)

theorem lookedCons (index : Nat) (i : Task) (rest : List Task) :
    looked env index (i::rest) = (index,i) ::
      looked env (index+1) (if leaves (env index) i then rest.tail else rest) := by
  cases rest with
  | nil => simp [looked]
  | cons next rest =>
    rw [looked]
    split <;> rfl

theorem roundsReturn {fuel index : Nat} {m : Monitor} {todo : List Task}
    (behind : m.executingTasks.drop index = todo) (enough : todo.length ≤ fuel) :
    (∀ round ∈ rounds env fuel index m, round.raised = false) ↔
      ∀ entry ∈ looked env index todo, entry.2.heartbeatCheck = true →
        (env entry.1).ssh ≠ .osError := by
  induction fuel generalizing index m todo with
  | zero =>
    cases List.eq_nil_of_length_eq_zero (Nat.le_zero.mp enough)
    simp [rounds,looked]
  | succ fuel ih =>
    cases todo with
    | nil =>
      have past : m.executingTasks[index]? = none := by
        rw [← List.head?_drop,behind]
        rfl
      simp [rounds,past,looked]
    | cons i rest =>
      rw [rounds,foundBehind behind,lookedCons,List.forall_mem_cons]
      dsimp only
      by_cases ok : i.heartbeatCheck = true → (env index).ssh ≠ .osError
      · obtain ⟨returned,next⟩ := visitBehind behind ok
        have shorter : (if leaves (env index) i then rest.tail else rest).length ≤ fuel := by
          have tail := List.length_tail (l := rest)
          rw [List.length_cons] at enough
          split <;> omega
        rw [returned,if_neg Bool.false_ne_true,List.forall_mem_cons,ih next shorter]
        exact and_congr_left (fun _ => ⟨fun _ => ok,fun _ => returned⟩)
      · obtain ⟨flag,failed⟩ := Classical.not_imp.mp ok
        have raised : (visit (env index) index i m).raised = true := by
          rw [visitRaised index m flag (Decidable.not_not.mp failed)]
        rw [raised,if_pos rfl]
        constructor
        · intro all
          rw [all _ (List.mem_singleton.mpr rfl)] at raised
          contradiction
        · exact fun all => absurd all.1 ok

theorem lookedQuiet {tasks : List Task} {P : Nat → Prop} (index : Nat)
    (quiet : ∀ i ∈ tasks, i.heartbeatCheck = false) :
    ∀ entry ∈ looked env index tasks, entry.2.heartbeatCheck = true → P entry.1 := by
  fun_induction looked env index tasks with
  | case1 => exact fun _ mem => absurd mem List.not_mem_nil
  | case2 index i =>
    intro entry mem flag
    rw [List.mem_singleton.mp mem,quiet i List.mem_cons_self] at flag
    contradiction
  | case3 index i next rest ihLeft ihStayed =>
    rw [List.forall_mem_cons] at quiet
    refine List.forall_mem_cons.mpr ⟨fun flag => ?_,?_⟩
    · rw [quiet.1] at flag
      contradiction
    · split
      · exact ihLeft (List.forall_mem_cons.mp quiet.2).2
      · exact ihStayed quiet.2

theorem lookedFlagged {tasks new : List Task} {P : Nat → Prop} (index : Nat)
    (quiet : ∀ i ∈ new, i.heartbeatCheck = false) :
    (∀ entry ∈ looked env index (tasks ++ new), entry.2.heartbeatCheck = true → P entry.1) ↔
      ∀ entry ∈ looked env index tasks, entry.2.heartbeatCheck = true → P entry.1 := by
  fun_induction looked env index tasks with
  | case1 index =>
    exact ⟨fun _ _ mem => absurd mem List.not_mem_nil,fun _ => lookedQuiet index quiet⟩
  | case2 index i =>
    rw [List.singleton_append,lookedCons,List.forall_mem_cons,List.forall_mem_singleton]
    refine and_iff_left_of_imp (fun _ => lookedQuiet _ (fun j mem => quiet j ?_))
    split at mem
    · exact List.mem_of_mem_tail mem
    · exact mem
  | case3 index i next rest ihLeft ihStayed =>
    rw [List.cons_append,List.cons_append,looked,List.forall_mem_cons,List.forall_mem_cons]
    refine and_congr_right (fun _ => ?_)
    split
    · exact ihLeft
    · exact ihStayed

theorem passReturns (env : Nat → Visit) (m : Monitor) :
    (checkRounds env m).all (fun round => !round.raised) = true ↔
      ∀ entry ∈ looked env 0 m.executingTasks, entry.2.heartbeatCheck = true →
        (env entry.1).ssh ≠ .osError := by
  rw [List.all_eq_true]
  simp only [Bool.not_eq_true']
  exact roundsReturn rfl (Nat.le_refl _)

end Looked

section Passed
variable {m m' : Monitor} {events : List Event} {index : Nat} {i : Task}

def Renews (i : Task) (event : Event) : Prop :=
  (∃ token ssh, event = .executed i.ipAddress "root".toList "toor".toList (renewCommand token) ssh) ∨
    ∃ token, event = .given i.ref (renewCommand token)

structure Passed (m m' : Monitor) (events : List Event) : Prop where
  history : m'.history = m.history ++ events
  created : m'.created = m.created
  renews : ∀ event ∈ events, ∃ i ∈ m.executingTasks, i.heartbeatCheck = true ∧ Renews i event
  tasks : ∀ t ∈ m'.executingTasks, ∃ i ∈ m.executingTasks, i.ref = t.ref ∧
    ((t.executeCmd = i.executeCmd ∧ t.expireTime = i.expireTime) ∨
      (i.heartbeatCheck = true ∧ ∃ command, .given i.ref command ∈ events))

theorem notPassed (m : Monitor) : Passed m m [] :=
  ⟨(List.append_nil _).symm,rfl,fun _ none => absurd none List.not_mem_nil,
    fun t mem => ⟨t,mem,rfl,.inl ⟨rfl,rfl⟩⟩⟩

theorem expirePassed (h : Passed m m' events) (v : Visit) (i : Task) :
    Passed m (expire v i m').2 events := by
  unfold expire
  split
  · exact ⟨h.history,h.created,h.renews,fun t mem => h.tasks t (List.mem_of_mem_eraseP mem)⟩
  · exact h

section Renewal
variable (h : Passed m m' events) (mem : i ∈ m.executingTasks) (flagged : i.heartbeatCheck = true)
include h mem flagged

theorem raisedPassed (v : Visit) (index : Nat) :
    ∃ events, Passed m (executeCommand i.ipAddress "root".toList "toor".toList
      (renewCommand v.token) v.ssh (assign index {i with heartbeatCheck := false} m')).2 events := by
  let issued : Event := .executed i.ipAddress "root".toList "toor".toList (renewCommand v.token) v.ssh
  refine ⟨events ++ [issued],?_,h.created,?_,?_⟩
  · rw [← List.append_assoc,← h.history]
    rfl
  · intro event new
    rcases List.mem_append.mp new with old | new
    · exact h.renews event old
    · cases List.mem_singleton.mp new
      exact ⟨i,mem,flagged,.inl ⟨v.token,v.ssh,rfl⟩⟩
  · intro t left
    rcases List.mem_or_eq_of_mem_set left with old | rfl
    · obtain ⟨j,before,same,kept⟩ := h.tasks t old
      refine ⟨j,before,same,kept.imp_right ?_⟩
      rintro ⟨flag,command,given⟩
      exact ⟨flag,command,List.mem_append_left _ given⟩
    · exact ⟨i,mem,rfl,.inl ⟨rfl,rfl⟩⟩

theorem renewalPassed (v : Visit) (index : Nat) : ∃ events, Passed m (renewal v index i m') events := by
  let issued : Event := .executed i.ipAddress "root".toList "toor".toList (renewCommand v.token) v.ssh
  let given : Event := .given i.ref (renewCommand v.token)
  have last : given ∈ events ++ [issued] ++ [given] :=
    List.mem_append_right _ (List.mem_singleton.mpr rfl)
  refine ⟨events ++ [issued] ++ [given],?_,h.created,?_,?_⟩
  · rw [← List.append_assoc,← List.append_assoc,← h.history]
    rfl
  · intro event new
    rw [List.append_assoc] at new
    rcases List.mem_append.mp new with old | new
    · exact h.renews event old
    · rcases List.mem_cons.mp new with rfl | new
      · exact ⟨i,mem,flagged,.inl ⟨v.token,v.ssh,rfl⟩⟩
      · cases List.mem_singleton.mp new
        exact ⟨i,mem,flagged,.inr ⟨v.token,rfl⟩⟩
  · intro t left
    rcases List.mem_or_eq_of_mem_set left with old | rfl
    · obtain ⟨j,before,same,kept⟩ := h.tasks t old
      refine ⟨j,before,same,kept.imp_right ?_⟩
      rintro ⟨flag,command,given⟩
      exact ⟨flag,command,List.mem_append_left _ (List.mem_append_left _ given)⟩
    · exact ⟨i,mem,rfl,.inr ⟨flagged,_,last⟩⟩

end Renewal

theorem visitPassed (h : Passed m m' events) (mem : i ∈ m.executingTasks) (v : Visit) (index : Nat) :
    ∃ events, Passed m (visit v index i m').after events := by
  cases flag : i.heartbeatCheck with
  | true =>
    by_cases lost : v.ssh = .osError
    · rw [visitRaised index m' flag lost]
      exact raisedPassed h mem flag v index
    · rw [visitFlagged index m' flag lost]
      obtain ⟨events,renewed⟩ := renewalPassed h mem flag v index
      exact ⟨events,expirePassed renewed v _⟩
  | false =>
    rw [visitUnflagged v index m' flag]
    exact ⟨events,expirePassed h v i⟩

theorem visitUntouched {rest : List Task} (v : Visit)
    (behind : m.executingTasks.drop index = i::rest) :
    ((visit v index i m).after.executingTasks.drop (index+1)).Sublist rest := by
  by_cases lost : i.heartbeatCheck = true ∧ v.ssh = .osError
  · exact raisedBehind behind lost.1 lost.2 ▸ .refl _
  · rw [(visitBehind behind (fun flag failed => lost ⟨flag,failed⟩)).2]
    split
    · exact List.tail_sublist rest
    · exact .refl _

theorem passRenews (env : Nat → Visit) (m : Monitor) : ∃ events, Passed m (checkExpire env m) events := by
  let Good (index : Nat) (m' : Monitor) : Prop := (∃ events, Passed m m' events) ∧
    (m'.executingTasks.drop index).Sublist m.executingTasks
  have each : ∀ index m' i, Good index m' → m'.executingTasks[index]? = some i →
      Good (index+1) (visit (env index) index i m').after := by
    rintro index m' i ⟨⟨events,passed⟩,ahead⟩ at_
    obtain ⟨inside,here⟩ := List.getElem?_eq_some_iff.mp at_
    have behind : m'.executingTasks.drop index = i::m'.executingTasks.drop (index+1) := by
      rw [List.drop_eq_getElem_cons inside,here]
    rw [behind] at ahead
    exact ⟨visitPassed passed (ahead.subset List.mem_cons_self) (env index) index,
      (visitUntouched (env index) behind).trans ((List.sublist_cons_self i _).trans ahead)⟩
  obtain ⟨-,passed,-⟩ := passKeepsAt each (show Good 0 m from ⟨⟨[],notPassed m⟩,.refl _⟩)
  exact passed

end Passed

end TeePa.Rounds
