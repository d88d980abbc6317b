/-! Threads that take turns on a shared state. One step belongs to one thread of
the list; the others keep their place and their locals. -/
namespace TeePa.Threads

variable {Shared Local : Type}

def move (next : Shared → Local → Option (Shared × Local)) (index : Nat) (s : Shared)
    (threads : List Local) : Option (Shared × List Local) := do
  let own ← threads[index]?
  let result ← next s own
  some (result.1,threads.set index result.2)

structure Moved (next : Shared → Local → Option (Shared × Local)) (index : Nat) (s : Shared)
    (threads : List Local) (t : Shared) (threads' before after : List Local)
    (own own' : Local) : Prop where
  here : threads[index]? = some own
  threads : threads = before ++ own :: after
  threads' : threads' = before ++ own' :: after
  step : next s own = some (t,own')

theorem moved {next : Shared → Local → Option (Shared × Local)} {index : Nat} {s : Shared}
    {threads : List Local} {t : Shared × List Local} (ok : move next index s threads = some t) :
    ∃ before after own own', Moved next index s threads t.1 t.2 before after own own' := by
  simp only [move,bind,Option.bind_eq_some_iff] at ok
  obtain ⟨own,here,result,step,last⟩ := ok
  cases Option.some.inj last
  obtain ⟨inside,entry⟩ := List.getElem?_eq_some_iff.mp here
  refine ⟨threads.take index,threads.drop (index+1),own,result.2,here,?_,?_,step⟩
  · rw [← entry,List.getElem_cons_drop,List.take_append_drop]
  · rw [List.set_eq_take_append_cons_drop,if_pos inside]

theorem movedLength {next : Shared → Local → Option (Shared × Local)} {index : Nat} {s t : Shared}
    {threads threads' before after : List Local} {own own' : Local}
    (m : Moved next index s threads t threads' before after own own') :
    threads'.length = threads.length := by
  rw [m.threads,m.threads',List.length_append,List.length_append]
  rfl

theorem movedAt {next : Shared → Local → Option (Shared × Local)} {index : Nat} {s : Shared}
    {threads : List Local} {t : Shared × List Local} (ok : move next index s threads = some t) :
    ∃ own own', threads[index]? = some own ∧ next s own = some (t.1,own') ∧
      t.2 = threads.set index own' := by
  simp only [move,bind,Option.bind_eq_some_iff] at ok
  obtain ⟨own,here,result,step,last⟩ := ok
  cases Option.some.inj last
  exact ⟨own,result.2,here,step,rfl⟩

/- What one thread wrote to a log that several threads write to, where every entry
carries the place of its writer. -/
section Log
variable {α : Type}

def own (index : Nat) (log : List (Nat × α)) : List α :=
  (log.filter (fun entry => entry.1 = index)).map Prod.snd

theorem ownMine (index : Nat) (log : List (Nat × α)) (xs : List α) :
    own index (log ++ xs.map (Prod.mk index)) = own index log ++ xs := by
  induction xs with
  | nil => simp [own]
  | cons x rest ih => simp_all [own,List.filter_append]

theorem ownOther {index writer : Nat} (other : writer ≠ index) (log : List (Nat × α)) (xs : List α) :
    own index (log ++ xs.map (Prod.mk writer)) = own index log := by
  induction xs with
  | nil => simp [own]
  | cons x rest ih => simp_all [own,List.filter_append]

theorem ownCount [BEq α] [LawfulBEq α] {β : Type} {f : β → List α} {sources : List β} {first : Nat}
    {log : List (Nat × α)} (later : ∀ entry ∈ log, first ≤ entry.1)
    (within : ∀ index, (own (first + index) log).Sublist ((sources[index]?.map f).getD [])) (x : α) :
    (log.map Prod.snd).count x ≤ (sources.flatMap f).count x := by
  induction sources generalizing first log with
  | nil =>
    cases log with
    | nil => exact Nat.le_refl _
    | cons entry rest =>
      have low := later entry List.mem_cons_self
      have none := within (entry.1 - first)
      rw [Nat.add_sub_cancel' low] at none
      simp [own] at none
  | cons source rest ih =>
    have split := ((List.filter_append_perm (fun entry => entry.1 = first) log).map Prod.snd).count_eq x
    rw [List.map_append,List.count_append] at split
    have mine : (own first log).Sublist (f source) := within 0
    have behind := @ih (first+1) (log.filter (fun entry => !decide (entry.1 = first)))
      (fun entry mem => by
        have low := later entry (List.mem_filter.mp mem).1
        have other := (List.mem_filter.mp mem).2
        simp at other
        omega)
      (fun index => by
        have next := within (index + 1)
        have same : own (first + 1 + index) (log.filter (fun entry => !decide (entry.1 = first))) =
            own (first + (index + 1)) log := by
          rw [own,own,List.filter_filter,Nat.add_right_comm,Nat.add_assoc]
          refine congrArg _ (List.filter_congr (fun entry _ => ?_))
          by_cases here : entry.1 = first + (index + 1) <;> simp [here]
        rw [same]
        exact next)
    rw [List.flatMap_cons,List.count_append,← split]
    exact Nat.add_le_add (mine.count_le x) behind

end Log

/- Threads that test the size of something shared against a bound and take from it
in a later step. The takes still to come stay within the size, and as many items as
there are threads may go below the bound. -/
def Reserved (bound size : Nat) (pending : Local → Bool) (threads : List Local) : Prop :=
  threads.countP pending = 0 ∨ bound + 1 + threads.countP pending ≤ size + threads.length

structure Takes (bound size size' : Nat) (pending : Local → Bool) (own own' : Local) : Prop where
  tested : pending own' = true → pending own = false ∧ bound < size ∧ size' = size
  taken : pending own = true → size' + 1 = size
  rest : pending own' = false → pending own = false → size' = size

section Reserve
variable {bound size size' : Nat} {pending : Local → Bool} {threads before after : List Local}
variable {own own' : Local}

theorem reservedMove (h : Reserved bound size pending (before ++ own :: after))
    (takes : Takes bound size size' pending own own') :
    Reserved bound size' pending (before ++ own' :: after) := by
  obtain ⟨tested,taken,rest⟩ := takes
  simp only [Reserved,List.countP_append,List.countP_cons,List.length_append,List.length_cons] at h ⊢
  cases mine : pending own' with
  | true =>
    obtain ⟨idle,more,same⟩ := tested mine
    have others := List.countP_le_length (p := pending) (l := before)
    have others' := List.countP_le_length (p := pending) (l := after)
    simp only [idle,Bool.false_eq_true,if_false,if_true] at h ⊢
    omega
  | false =>
    cases was : pending own with
    | true =>
      have fewer := taken was
      simp only [was,Bool.false_eq_true,if_false,if_true] at h ⊢
      omega
    | false =>
      have same := rest mine was
      simp only [was,Bool.false_eq_true,if_false] at h ⊢
      omega

theorem reservedMore (h : Reserved bound size pending threads) (more : size ≤ size') :
    Reserved bound size' pending threads := by
  unfold Reserved at h ⊢
  omega

theorem reservedStart (h : Reserved bound size pending threads) (idle : pending own = false) :
    Reserved bound size pending (threads ++ [own]) := by
  simp only [Reserved,List.countP_append,List.countP_singleton,idle,List.length_append,
    List.length_singleton] at h ⊢
  simp only [Bool.false_eq_true,if_false]
  omega

theorem reservedTake (h : Reserved bound size pending (before ++ own :: after))
    (few : (before ++ own :: after).length ≤ bound + 1) (mine : pending own = true) : 0 < size := by
  simp only [Reserved,List.countP_append,List.countP_cons,mine,if_true] at h
  omega

end Reserve

end TeePa.Threads
