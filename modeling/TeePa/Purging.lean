/-! Machines that answer each input, and inputs that their answers do not tell of: where
some inputs are not answered and leave the state alike in what the others look at, the
answers to a sequence are those to the sequence without them. -/
namespace TeePa.Purging

variable {State Input Output : Type}

def said (f : State → Input → List Output × State) : State → List Input → List Output
  | _,[] => []
  | s,input::rest => (f s input).1 ++ said f (f s input).2 rest

def last (f : State → Input → List Output × State) (s : State) (inputs : List Input) : State :=
  inputs.foldl (fun s input => (f s input).2) s

def Throughout (f : State → Input → List Output × State) (Allowed : State → Input → Prop) :
    State → List Input → Prop
  | _,[] => True
  | s,input::rest => Allowed s input ∧ Throughout f Allowed (f s input).2 rest

def purge (hidden : Input → Bool) (inputs : List Input) : List Input :=
  inputs.filter (fun input => !hidden input)

structure Unwinds (f : State → Input → List Output × State) (hidden : Input → Bool)
    (Allowed : State → Input → Prop) (Alike : State → State → Prop) : Prop where
  silent : ∀ s s' input, Alike s s' → hidden input = true →
    (f s input).1 = [] ∧ Alike (f s input).2 s'
  alike : ∀ s s' input, Alike s s' → hidden input = false → Allowed s input →
    (f s input).1 = (f s' input).1 ∧ Alike (f s input).2 (f s' input).2

theorem purged {f : State → Input → List Output × State} {hidden : Input → Bool}
    {Allowed : State → Input → Prop} {Alike : State → State → Prop}
    (h : Unwinds f hidden Allowed Alike) {s s' : State} (start : Alike s s')
    {inputs : List Input} (allowed : Throughout f Allowed s inputs) :
    said f s inputs = said f s' (purge hidden inputs) ∧
      Alike (last f s inputs) (last f s' (purge hidden inputs)) := by
  induction inputs generalizing s s' with
  | nil => exact ⟨rfl,start⟩
  | cons input rest ih =>
    cases kind : hidden input with
    | true =>
      obtain ⟨none,next⟩ := h.silent s s' input start kind
      obtain ⟨same,ends⟩ := ih next allowed.2
      have gone : purge hidden (input::rest) = purge hidden rest :=
        List.filter_cons_of_neg (by simp [kind])
      rw [gone,said,none,List.nil_append]
      exact ⟨same,ends⟩
    | false =>
      obtain ⟨answer,next⟩ := h.alike s s' input start kind allowed.1
      obtain ⟨same,ends⟩ := ih next allowed.2
      have kept : purge hidden (input::rest) = input :: purge hidden rest :=
        List.filter_cons_of_pos (by simp [kind])
      rw [kept,said,said,answer,same]
      exact ⟨rfl,ends⟩

end TeePa.Purging
