/-! Runs of a labelled step relation, and the rules used to argue about them.
A run is finite and keeps every label in order; a property of every reached
state is a property of the last state of every run, since a run may stop
anywhere. -/
namespace TeePa.Runs

variable {State Label Abstract : Type}

inductive Run (Step : State → Label → State → Prop) : State → List Label → State → Prop where
  | nil (s) : Run Step s [] s
  | cons {s label t labels u} (head : Step s label t) (tail : Run Step t labels u) :
      Run Step s (label::labels) u

def Restrict (Allowed : State → Label → Prop) (Step : State → Label → State → Prop)
    (s : State) (label : Label) (t : State) : Prop :=
  Allowed s label ∧ Step s label t

/- A deterministic system gives its next state, or none where the step is not
enabled; `exec` runs it on a whole schedule. -/
def Of (next : State → Label → Option State) (s : State) (label : Label) (t : State) : Prop :=
  next s label = some t

def exec (next : State → Label → Option State) : State → List Label → Option State
  | s,[] => some s
  | s,label::labels => do
      let t ← next s label
      exec next t labels

variable {Step : State → Label → State → Prop}

theorem invariant {Inv : State → Prop}
    (preserved : ∀ s label t, Inv s → Step s label t → Inv t)
    {s labels t} (run : Run Step s labels t) (start : Inv s) : Inv t := by
  induction run with
  | nil s => exact start
  | cons head tail ih => exact ih (preserved _ _ _ start head)

theorem append {s t u : State} {left right : List Label}
    (first : Run Step s left t) (second : Run Step t right u) : Run Step s (left ++ right) u := by
  induction first with
  | nil s => exact second
  | cons head tail ih => exact .cons head (ih second)

theorem single {s : State} {label : Label} {t : State} (step : Step s label t) :
    Run Step s [label] t := .cons step (.nil t)

theorem weaken {Step' : State → Label → State → Prop}
    (implied : ∀ s label t, Step s label t → Step' s label t)
    {s labels t} (run : Run Step s labels t) : Run Step' s labels t := by
  induction run with
  | nil s => exact .nil s
  | cons head tail ih => exact .cons (implied _ _ _ head) ih

theorem unrestrict {Allowed : State → Label → Prop} {s labels t}
    (run : Run (Restrict Allowed Step) s labels t) : Run Step s labels t :=
  weaken (fun _ _ _ step => step.2) run

theorem execRun {next : State → Label → Option State} {s : State} {labels : List Label} {t : State} :
    exec next s labels = some t ↔ Run (Of next) s labels t := by
  constructor
  · intro ok
    induction labels generalizing s with
    | nil => cases Option.some.inj ok; exact .nil _
    | cons label labels ih =>
      simp only [exec,bind,Option.bind_eq_some_iff] at ok
      obtain ⟨middle,head,tail⟩ := ok
      exact .cons head (ih tail)
  · intro run
    induction run with
    | nil s => rfl
    | cons head tail ih => simp only [exec,bind,Option.bind,show next _ _ = some _ from head,ih]

def execWithin (Allowed : State → Label → Prop) [∀ s label, Decidable (Allowed s label)]
    (next : State → Label → Option State) : State → List Label → Option State :=
  exec (fun s label => if Allowed s label then next s label else none)

theorem execWithinRun {Allowed : State → Label → Prop} [∀ s label, Decidable (Allowed s label)]
    {next : State → Label → Option State} {s : State} {labels : List Label} {t : State}
    (ok : execWithin Allowed next s labels = some t) :
    Run (Restrict Allowed (Of next)) s labels t := by
  refine weaken ?_ (execRun.mp ok)
  intro s label t moved
  simp only [Of] at moved
  split at moved
  · rename_i allowed
    exact ⟨allowed,moved⟩
  · contradiction

def since (resets : Label → Bool) (history : List Label) : List Label :=
  history.foldl (fun kept label => if resets label then [] else kept ++ [label]) []

theorem sinceSnoc (resets : Label → Bool) (history : List Label) (label : Label) :
    since resets (history ++ [label]) =
      if resets label then [] else since resets history ++ [label] := by
  simp only [since,List.foldl_append,List.foldl_cons,List.foldl_nil]

theorem splitLast {α : Type} {past events between after : List α} {event : α}
    (same : past ++ events = between ++ event :: after) :
    (∃ rest, past = between ++ event :: rest ∧ after = rest ++ events) ∨
      ∃ front, between = past ++ front ∧ events = front ++ event :: after := by
  rcases List.append_eq_append_iff.mp same with ⟨front,own,tail⟩ | ⟨rest,own,tail⟩
  · exact .inr ⟨front,own,tail⟩
  · cases rest with
    | nil => exact .inr ⟨[],by rw [own,List.append_nil,List.append_nil],tail.symm⟩
    | cons first rest =>
      obtain ⟨rfl,later⟩ := List.cons.inj tail
      exact .inl ⟨rest,own,later⟩

/- A machine answers every input. Two machines that stay related and answer
alike on every input of a kind give the same replies to every sequence of it. -/
variable {Input Output : Type}

def replies (f : State → Input → Output × State) : State → List Input → List Output
  | _,[] => []
  | s,input::rest => (f s input).1 :: replies f (f s input).2 rest

def final (f : State → Input → Output × State) (s : State) (inputs : List Input) : State :=
  inputs.foldl (fun s input => (f s input).2) s

theorem repliesAgree (Related : State → Abstract → Prop) (Admissible : Input → Prop)
    {f : State → Input → Output × State} {g : Abstract → Input → Output × Abstract}
    (agree : ∀ s a input, Related s a → Admissible input →
      (f s input).1 = (g a input).1 ∧ Related (f s input).2 (g a input).2)
    {s a} (start : Related s a) {inputs : List Input} (admissible : ∀ i ∈ inputs, Admissible i) :
    replies f s inputs = replies g a inputs ∧ Related (final f s inputs) (final g a inputs) := by
  induction inputs generalizing s a with
  | nil => exact ⟨rfl,start⟩
  | cons input rest ih =>
    have head := agree s a input start (admissible input (by simp))
    have tail := ih head.2 (fun i mem => admissible i (List.mem_cons_of_mem _ mem))
    exact ⟨by simp only [replies,head.1,tail.1],tail.2⟩

end TeePa.Runs
