import TeePa.HeartbeatThreads

/-! One pass of check_expire at one reading of the clock, against what the pass is
for: every flagged task is renewed, every expired one leaves, the others stay. The
loop shortens the list it goes over, so the task behind an expired one is passed by. -/
namespace TeePa.ExpiryPass
open Texts Heartbeat HeartbeatThreads

def passVisit (token : Token) (t : Time) : Visit := ⟨token,t,t,.success⟩
def passEnv (tokens : Nat → Token) (t : Time) : Nat → Visit := fun index => passVisit (tokens index) t

def Expired (t : Time) (i : Task) : Prop := i.heartbeatCheck = false ∧ i.expireTime ≤ t

def Needy (t : Time) (i : Task) : Prop := i.heartbeatCheck = true ∨ i.expireTime ≤ t

def renewalEvents (token : Token) (i : Task) : List Event :=
  [.executed i.ipAddress "root".toList "toor".toList (renewCommand token) .success,
    .given i.ref (renewCommand token)]

inductive Treats (t : Time) : List Task → List Task → List Event → Prop
  | nil : Treats t [] [] []
  | renewed {i tasks tasks' events} (token : Token) (flagged : i.heartbeatCheck = true)
      (tail : Treats t tasks tasks' events) :
      Treats t (i::tasks) (renew (passVisit token t) i :: tasks') (renewalEvents token i ++ events)
  | kept {i tasks tasks' events} (unflagged : i.heartbeatCheck = false) (live : t < i.expireTime)
      (tail : Treats t tasks tasks' events) : Treats t (i::tasks) (i::tasks') events
  | expired {i tasks tasks' events} (due : Expired t i)
      (tail : Treats t tasks tasks' events) : Treats t (i::tasks) tasks' events

structure Treated (t : Time) (m m' : Monitor) : Prop where
  tasks : ∃ events, Treats t m.executingTasks m'.executingTasks events ∧
    m'.history = m.history ++ events
  created : m'.created = m.created

def Spaced (t : Time) : List Task → Prop
  | i::next::rest => (Expired t i → ¬ Needy t next) ∧ Spaced t (next::rest)
  | _ => True

theorem renewedRests (token : Token) (t : Time) (i : Task) : ¬ Needy t (renew (passVisit token t) i) := by
  have later : t < t + seconds 15 := Int.lt_add_of_pos_right t (by decide)
  rintro (flag | due)
  · exact nomatch flag
  · exact absurd later (Int.not_lt.mpr due)

theorem liveRests {t : Time} {i : Task} (unflagged : i.heartbeatCheck = false)
    (live : t < i.expireTime) : ¬ Needy t i := by
  rintro (flag | due)
  · exact nomatch unflagged.symm.trans flag
  · exact absurd live (Int.not_lt.mpr due)

theorem expiredNeedy {t : Time} {i : Task} (due : Expired t i) : Needy t i := .inr due.2

theorem expiredEqual {t : Time} {i j : Task} (due : Expired t i) (same : equalFields i j = true) :
    Expired t j := by
  simp only [equalFields,decide_eq_true_eq] at same
  exact ⟨same.2.2.2.2 ▸ due.1,same.2.1 ▸ due.2⟩

theorem treatsRest {t tasks tasks' events} (h : Treats t tasks tasks' events) :
    ∀ i ∈ tasks', ¬ Needy t i := by
  induction h with
  | nil => intro i mem; contradiction
  | renewed token flagged tail ih => exact List.forall_mem_cons.mpr ⟨renewedRests token t _,ih⟩
  | kept unflagged live tail ih => exact List.forall_mem_cons.mpr ⟨liveRests unflagged live,ih⟩
  | expired due tail ih => exact ih

section Pass
variable {tokens : Nat → Token} {t : Time}

def passFrom (tokens : Nat → Token) (t : Time) (fuel index : Nat) (m : Monitor) : Monitor :=
  lastState (rounds (passEnv tokens t) fuel index m) m

theorem passEnd {fuel index : Nat} {m : Monitor} (past : m.executingTasks[index]? = none) :
    passFrom tokens t fuel index m = m := by
  cases fuel with
  | zero => rfl
  | succ fuel => simp only [passFrom,rounds,past]; rfl

theorem passRound {fuel index : Nat} {m : Monitor} {i : Task}
    (at_ : m.executingTasks[index]? = some i) :
    passFrom tokens t (fuel+1) index m =
      passFrom tokens t fuel (index+1) (visit (passEnv tokens t index) index i m).after := by
  have ok : (passEnv tokens t index).ssh ≠ .osError := fun same => nomatch same
  simp only [passFrom,rounds,at_,visitReturned index i m ok,Bool.false_eq_true,if_false,
    lastStateCons]

/- What stands in front of the task that a removal is made for: all of it as before,
or that task itself in the place of an equal one. -/
def Front (t : Time) (done : List Task) (i : Task) (front : List Task) : Prop :=
  front = done ∨ ((∃ j ∈ done, Expired t j) ∧ i ∈ front)

theorem removeFront {m : Monitor} {done rest : List Task} {i : Task} (due : Expired t i)
    (whole : m.executingTasks = done ++ i::rest) :
    ∃ front, (remove i m).2.executingTasks = front ++ rest ∧ front.length = done.length ∧
      Front t done i front := by
  have removed : (remove i m).2.executingTasks = m.executingTasks.eraseP (equalFields i) := rfl
  rw [removed,whole]
  by_cases equal : ∃ j ∈ done, equalFields i j = true
  · obtain ⟨j,mem,same⟩ := equal
    have some := List.length_pos_of_mem mem
    refine ⟨done.eraseP (equalFields i) ++ [i],?_,?_,.inr ⟨⟨j,mem,expiredEqual due same⟩,by simp⟩⟩
    · rw [List.eraseP_append_left same _ mem,List.append_assoc,List.singleton_append]
    · rw [List.length_append,List.length_eraseP_of_mem mem same,List.length_singleton]
      omega
  · have others : ∀ j ∈ done, ¬ equalFields i j = true := fun j mem same => equal ⟨j,mem,same⟩
    refine ⟨done,?_,rfl,.inl rfl⟩
    rw [List.eraseP_append_right _ others,List.eraseP_cons_of_pos (equalItself i)]

/- One turn of the loop, at a task with `done` in front of it and `rest` behind: the
state after it, and what is then in front of the index and from it on. -/
inductive Turn (tokens : Nat → Token) (t : Time) (m : Monitor) (done : List Task) (i : Task) :
    List Task → Monitor → List Task → List Task → Prop
  | renewed {rest m'} (flagged : i.heartbeatCheck = true)
      (history : m'.history = m.history ++ renewalEvents (tokens done.length) i)
      (created : m'.created = m.created) :
      Turn tokens t m done i rest m' (done ++ [renew (passVisit (tokens done.length) t) i]) rest
  | kept {rest} (unflagged : i.heartbeatCheck = false) (live : t < i.expireTime) :
      Turn tokens t m done i rest m (done ++ [i]) rest
  | last {front} (due : Expired t i) (before : Front t done i front) :
      Turn tokens t m done i [] (remove i m).2 front []
  -- The next task moves to the index of the removed one, and the loop goes on behind it.
  | passed {next rest front} (due : Expired t i) (before : Front t done i front) :
      Turn tokens t m done i (next::rest) (remove i m).2 (front ++ [next]) rest

theorem passTurn (tokens : Nat → Token) (t : Time) (fuel : Nat) {m : Monitor} {done rest : List Task}
    {i : Task} (whole : m.executingTasks = done ++ i::rest) :
    ∃ m' done' todo, Turn tokens t m done i rest m' done' todo ∧
      m'.executingTasks = done' ++ todo ∧
      passFrom tokens t (fuel+1) done.length m = passFrom tokens t fuel done'.length m' := by
  have at_ : m.executingTasks[done.length]? = some i := by rw [whole]; simp
  rw [passRound at_]
  cases flag : i.heartbeatCheck with
  | true =>
    have ok : (passEnv tokens t done.length).ssh ≠ .osError := fun same => nomatch same
    have late : ¬ (renew (passVisit (tokens done.length) t) i).expireTime ≤ t :=
      fun due => renewedRests (tokens done.length) t i (.inr due)
    have round : (visit (passEnv tokens t done.length) done.length i m).after =
        renewal (passEnv tokens t done.length) done.length i m := by
      rw [visitFlagged done.length m flag ok,expire]
      exact congrArg Prod.snd (if_neg late)
    refine ⟨renewal (passEnv tokens t done.length) done.length i m,_,rest,.renewed flag ?_ rfl,?_,?_⟩
    · rw [renewal,List.append_assoc]
      rfl
    · rw [renewal,whole,List.set_append_right _ _ (Nat.le_refl _),Nat.sub_self]
      exact List.append_cons done _ rest
    · rw [round,List.length_append,List.length_singleton]
  | false =>
    rw [visitUnflagged _ done.length m flag,expire]
    by_cases due : i.expireTime ≤ t
    · obtain ⟨front,removed,size,before⟩ := removeFront ⟨flag,due⟩ whole
      have round : (if i.expireTime ≤ (passEnv tokens t done.length).checkNow then remove i m
          else (none,m)) = remove i m := if_pos due
      rw [round]
      cases rest with
      | nil =>
        rw [List.append_nil] at removed
        refine ⟨_,front,[],.last ⟨flag,due⟩ before,by rw [removed,List.append_nil],?_⟩
        rw [passEnd (List.getElem?_eq_none (by rw [removed]; omega)),
          passEnd (List.getElem?_eq_none (Nat.le_of_eq (by rw [removed])))]
      | cons next rest =>
        refine ⟨_,_,rest,.passed ⟨flag,due⟩ before,removed.trans (List.append_cons front next rest),?_⟩
        rw [List.length_append,List.length_singleton,size]
    · refine ⟨m,_,rest,.kept flag (Int.not_le.mp due),whole.trans (List.append_cons done i rest),?_⟩
      have round : (if i.expireTime ≤ (passEnv tokens t done.length).checkNow then remove i m
          else (none,m)) = (none,m) := if_neg due
      rw [round,List.length_append,List.length_singleton]

section Turns
variable {m m' : Monitor} {done done' rest todo : List Task} {i : Task}

theorem turnShortens (turn : Turn tokens t m done i rest m' done' todo) :
    todo.length ≤ rest.length := by
  cases turn with
  | renewed => exact Nat.le_refl _
  | kept => exact Nat.le_refl _
  | last => exact Nat.le_refl _
  | passed => exact Nat.le_succ _

theorem turnNeedy (turn : Turn tokens t m done i rest m' done' todo)
    (left : ∃ j ∈ done, Needy t j) : ∃ j ∈ done', Needy t j := by
  have more : ∀ {front : List Task} x, (∃ j ∈ front, Needy t j) → ∃ j ∈ front ++ x, Needy t j := by
    rintro front x ⟨j,mem,needy⟩
    exact ⟨j,List.mem_append_left _ mem,needy⟩
  have inFront : ∀ {front : List Task}, Expired t i → Front t done i front →
      ∃ j ∈ front, Needy t j := by
    rintro front due (rfl | ⟨-,mem⟩)
    · exact left
    · exact ⟨i,mem,expiredNeedy due⟩
  cases turn with
  | renewed => exact more _ left
  | kept => exact more _ left
  | last due before => exact inFront due before
  | passed due before => exact more _ (inFront due before)

theorem spacedTail (h : Spaced t (i::rest)) : Spaced t rest := by
  cases rest with
  | nil => trivial
  | cons next rest => exact h.2

theorem spacedBehind (alive : ¬ Expired t i) (h : Spaced t rest) : Spaced t (i::rest) := by
  cases rest with
  | nil => trivial
  | cons next rest => exact ⟨fun due => absurd due alive,h⟩

theorem flaggedAlive (flagged : i.heartbeatCheck = true) : ¬ Expired t i :=
  fun due => nomatch due.1.symm.trans flagged

theorem restKept (rests : ¬ Needy t i) : i.heartbeatCheck = false ∧ t < i.expireTime := by
  refine ⟨?_,Int.not_le.mp (fun due => rests (.inr due))⟩
  cases flag : i.heartbeatCheck with
  | false => rfl
  | true => exact absurd (.inl flag) rests

theorem turnSpaced (turn : Turn tokens t m done i rest m' done' todo)
    (calm : ∀ j ∈ done', ¬ Needy t j) (later : Spaced t todo) : Spaced t (i::rest) := by
  cases turn with
  | renewed flagged => exact spacedBehind (flaggedAlive flagged) later
  | kept unflagged live => exact spacedBehind (fun due => Int.not_le.mpr live due.2) later
  | last => trivial
  | passed =>
    have next := calm _ (List.mem_append_right _ List.mem_cons_self)
    exact ⟨fun _ => next,spacedBehind (fun due => next (expiredNeedy due)) later⟩

theorem turnTreats (turn : Turn tokens t m done i rest m' done' todo)
    (past : ∀ j ∈ done, ¬ Expired t j) (spaced : Spaced t (i::rest)) :
    (∀ j ∈ done', ¬ Expired t j) ∧ Spaced t todo ∧ m'.created = m.created ∧
    ∀ tasks events, Treats t todo tasks events → ∃ tasks' events',
      Treats t (i::rest) tasks' events' ∧ done ++ tasks' = done' ++ tasks ∧
      m.history ++ events' = m'.history ++ events := by
  have later : ∀ x, ¬ Expired t x → ∀ j ∈ done ++ [x], ¬ Expired t j := by
    intro x alive
    exact List.forall_mem_append.mpr ⟨past,List.forall_mem_singleton.mpr alive⟩
  have whole : ∀ {front : List Task}, Front t done i front → front = done := by
    rintro front (same | ⟨⟨j,mem,due⟩,-⟩)
    · exact same
    · exact absurd due (past j mem)
  cases turn with
  | renewed flagged history created =>
    have rests := renewedRests (tokens done.length) t i
    refine ⟨later _ (fun due => rests (expiredNeedy due)),spacedTail spaced,created,?_⟩
    intro tasks events treats
    refine ⟨_,_,.renewed (tokens done.length) flagged treats,List.append_cons done _ tasks,?_⟩
    rw [history,List.append_assoc]
  | kept unflagged live =>
    refine ⟨later i (fun due => Int.not_le.mpr live due.2),spacedTail spaced,rfl,?_⟩
    intro tasks events treats
    exact ⟨_,_,.kept unflagged live treats,List.append_cons done i tasks,rfl⟩
  | last due before =>
    cases whole before
    exact ⟨past,trivial,rfl,fun tasks events treats => ⟨_,_,.expired due treats,rfl,rfl⟩⟩
  | passed due before =>
    cases whole before
    have rests := spaced.1 due
    have kept := restKept rests
    refine ⟨later _ (fun due => rests (expiredNeedy due)),spacedTail spaced.2,rfl,?_⟩
    intro tasks events treats
    exact ⟨_,_,.expired due (.kept kept.1 kept.2 treats),List.append_cons done _ tasks,rfl⟩

end Turns

theorem needyStays {fuel : Nat} {m : Monitor} {done todo : List Task}
    (whole : m.executingTasks = done ++ todo) (left : ∃ i ∈ done, Needy t i) :
    ∃ i ∈ (passFrom tokens t fuel done.length m).executingTasks, Needy t i := by
  have still : ∃ i ∈ m.executingTasks, Needy t i := by
    obtain ⟨i,mem,needy⟩ := left
    exact ⟨i,whole ▸ List.mem_append_left _ mem,needy⟩
  induction fuel generalizing m done todo with
  | zero => exact still
  | succ fuel ih =>
    cases todo with
    | nil => rwa [passEnd (List.getElem?_eq_none (Nat.le_of_eq (by rw [whole,List.append_nil])))]
    | cons i rest =>
      obtain ⟨m',done',todo,turn,split,pass⟩ := passTurn tokens t fuel whole
      obtain ⟨j,mem,needy⟩ := turnNeedy turn left
      rw [pass]
      exact ih split ⟨j,mem,needy⟩ ⟨j,split ▸ List.mem_append_left _ mem,needy⟩

theorem spacedOfRest {fuel : Nat} {m : Monitor} {done todo : List Task}
    (whole : m.executingTasks = done ++ todo) (enough : todo.length ≤ fuel)
    (rests : ∀ i ∈ (passFrom tokens t fuel done.length m).executingTasks, ¬ Needy t i) :
    Spaced t todo := by
  induction fuel generalizing m done todo with
  | zero =>
    cases List.eq_nil_of_length_eq_zero (Nat.le_zero.mp enough)
    trivial
  | succ fuel ih =>
    cases todo with
    | nil => trivial
    | cons i rest =>
      obtain ⟨m',done',todo,turn,split,pass⟩ := passTurn tokens t fuel whole
      rw [pass] at rests
      have calm : ∀ j ∈ done', ¬ Needy t j := by
        intro j mem needy
        obtain ⟨k,inside,left⟩ := needyStays split ⟨j,mem,needy⟩
        exact rests k inside left
      have fewer := Nat.le_trans (turnShortens turn) (Nat.le_of_succ_le_succ enough)
      exact turnSpaced turn calm (ih split fewer rests)

theorem passTreats {fuel : Nat} {m : Monitor} {done todo : List Task}
    (whole : m.executingTasks = done ++ todo) (enough : todo.length ≤ fuel)
    (past : ∀ i ∈ done, ¬ Expired t i) (spaced : Spaced t todo) :
    ∃ tasks events, Treats t todo tasks events ∧
      (passFrom tokens t fuel done.length m).executingTasks = done ++ tasks ∧
      (passFrom tokens t fuel done.length m).history = m.history ++ events ∧
      (passFrom tokens t fuel done.length m).created = m.created := by
  induction fuel generalizing m done todo with
  | zero =>
    cases List.eq_nil_of_length_eq_zero (Nat.le_zero.mp enough)
    exact ⟨[],[],.nil,whole,(List.append_nil _).symm,rfl⟩
  | succ fuel ih =>
    cases todo with
    | nil =>
      rw [passEnd (List.getElem?_eq_none (Nat.le_of_eq (by rw [whole,List.append_nil])))]
      exact ⟨[],[],.nil,whole,(List.append_nil _).symm,rfl⟩
    | cons i rest =>
      obtain ⟨m',done',todo,turn,split,pass⟩ := passTurn tokens t fuel whole
      obtain ⟨past',spaced',created,extend⟩ := turnTreats turn past spaced
      have fewer := Nat.le_trans (turnShortens turn) (Nat.le_of_succ_le_succ enough)
      obtain ⟨tasks,events,treats,final⟩ := ih split fewer past' spaced'
      obtain ⟨tasks',events',treats',sameTasks,sameHistory⟩ := extend tasks events treats
      rw [pass]
      exact ⟨tasks',events',treats',final.1.trans sameTasks.symm,
        final.2.1.trans sameHistory.symm,final.2.2.trans created⟩

end Pass

theorem checkExpireTreats (tokens : Nat → Token) (t : Time) (m : Monitor) :
    Treated t m (checkExpire (passEnv tokens t) m) ↔ Spaced t m.executingTasks := by
  have pass : checkExpire (passEnv tokens t) m =
      passFrom tokens t m.executingTasks.length ([] : List Task).length m := rfl
  have whole : m.executingTasks = [] ++ m.executingTasks := rfl
  rw [pass]
  constructor
  · intro treated
    obtain ⟨events,treats,-⟩ := treated.tasks
    exact spacedOfRest whole (Nat.le_refl _) (treatsRest treats)
  · intro spaced
    obtain ⟨tasks,events,treats,tasks',history,created⟩ := @passTreats tokens t _ m [] _ whole
      (Nat.le_refl _) (fun i mem => absurd mem List.not_mem_nil) spaced
    exact ⟨⟨events,by rw [tasks']; exact treats,history⟩,created⟩

def silent (ref : Nat) (ipAddress : Text) : Task :=
  ⟨ref,0,seconds 180,ipAddress,keyCommand zeros,false⟩

def twoSilent : Monitor := ⟨[silent 0 "a".toList,silent 1 "b".toList],2,[]⟩

theorem secondSilentStays :
    (checkExpire (passEnv (fun _ => ones) (seconds 181)) twoSilent).executingTasks =
      [silent 1 "b".toList] ∧
    ¬ Treated (seconds 181) twoSilent (checkExpire (passEnv (fun _ => ones) (seconds 181)) twoSilent) := by
  have left : (checkExpire (passEnv (fun _ => ones) (seconds 181)) twoSilent).executingTasks =
      [silent 1 "b".toList] := by decide +kernel
  refine ⟨left,?_⟩
  intro treated
  obtain ⟨events,treats,-⟩ := treated.tasks
  have calm := treatsRest treats (silent 1 "b".toList) (by rw [left]; simp)
  exact calm (.inr (by decide))

end TeePa.ExpiryPass
