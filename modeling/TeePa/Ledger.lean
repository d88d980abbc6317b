/-! What is held of the things a program has to give back. Effects are posted one
after another to an account; releasing or using what is not held is remembered. -/
namespace TeePa.Ledger

inductive Effect (Key : Type) where
  | acquire (key : Key)
  | release (key : Key)
  | use (key : Key)
  deriving DecidableEq, Repr

structure Account (Key : Type) where
  held : List Key
  misused : Bool
  deriving DecidableEq, Repr

variable {Key : Type} [DecidableEq Key]

def nothing : Account Key := ⟨[],false⟩

def post (a : Account Key) : Effect Key → Account Key
  | .acquire key => {a with held := key :: a.held}
  | .release key => ⟨a.held.erase key,a.misused || !decide (key ∈ a.held)⟩
  | .use key => {a with misused := a.misused || !decide (key ∈ a.held)}

def postAll (effects : List (Effect Key)) (a : Account Key) : Account Key := effects.foldl post a

theorem postAppend (first second : List (Effect Key)) (a : Account Key) :
    postAll (first ++ second) a = postAll second (postAll first a) := List.foldl_append

theorem usedHeld {keys : List Key} {a : Account Key} (held : ∀ key ∈ keys, key ∈ a.held) :
    postAll (keys.map .use) a = a := by
  induction keys with
  | nil => rfl
  | cons key rest ih =>
    have first : post a (.use key) = a := by simp [post,held key List.mem_cons_self]
    rw [List.map_cons,postAll,List.foldl_cons,first]
    exact ih (fun other mem => held other (List.mem_cons_of_mem _ mem))

theorem bracketed {key : Key} {keys : List Key} {a : Account Key}
    (held : ∀ other ∈ keys, other ∈ key :: a.held) :
    postAll (.acquire key :: (keys.map .use ++ [.release key])) a = a := by
  have used : postAll (keys.map .use) (post a (.acquire key)) = post a (.acquire key) :=
    usedHeld held
  rw [postAll,List.foldl_cons,List.foldl_append]
  change post (postAll (keys.map .use) (post a (.acquire key))) (.release key) = a
  rw [used]
  simp [post]

theorem heldLeast (key : Key) (effects : List (Effect Key)) (a : Account Key) :
    a.held.count key + effects.count (.acquire key) ≤
      (postAll effects a).held.count key + effects.count (.release key) := by
  induction effects generalizing a with
  | nil => simp [postAll]
  | cons effect rest ih =>
    have later := ih (post a effect)
    have first : a.held.count key + [effect].count (.acquire key) ≤
        (post a effect).held.count key + [effect].count (.release key) := by
      cases effect with
      | acquire other => simp [post,List.count_cons,List.count_nil]
      | use other => simp [post,List.count_nil]
      | release other =>
        by_cases same : other = key
        · subst same
          simp [post,List.count_erase_self]
          omega
        · simp [post,List.count_erase_of_ne (fun h => same h.symm),same]
    rw [postAll,List.foldl_cons]
    rw [← List.singleton_append,List.count_append,List.count_append]
    simp only [postAll] at later
    omega

theorem heldStays {key : Key} {effects : List (Effect Key)} {a : Account Key} (held : key ∈ a.held)
    (kept : .release key ∉ effects) : key ∈ (postAll effects a).held := by
  have least := heldLeast key effects a
  have before := List.count_pos_iff.mpr held
  rw [List.count_eq_zero_of_not_mem kept] at least
  exact List.count_pos_iff.mp (by omega)

end TeePa.Ledger
