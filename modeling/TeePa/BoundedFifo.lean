/-! A bounded first-in first-out queue over any type, and the circular window
in which an array of slots keeps one: `n` consecutive slots from `head`, taken
modulo the number of slots. -/
namespace TeePa.BoundedFifo

variable {α : Type}

def push (capacity : Nat) (x : α) (q : List α) : Bool × List α :=
  if q.length < capacity then (true,q ++ [x]) else (false,q)

def pop : List α → Option α × List α
  | [] => (none,[])
  | x::q => (some x,q)

def window (size : Nat) (slots : Nat → α) (head n : Nat) : List α :=
  (List.range n).map (fun i => slots ((head+i) % size))

variable {size head n : Nat} {slots slots' : Nat → α}

@[simp] theorem windowLength : (window size slots head n).length = n := by simp [window]

theorem windowAt {i : Nat} (inside : i < n) :
    (window size slots head n)[i]? = some (slots ((head+i) % size)) := by
  simp only [window,List.getElem?_map,List.getElem?_range inside,Option.map_some]

theorem windowCongr (same : ∀ i, i < n → slots' ((head+i) % size) = slots ((head+i) % size)) :
    window size slots' head n = window size slots head n := by
  apply List.map_congr_left
  intro i mem
  exact same i (List.mem_range.mp mem)

theorem windowSnoc : window size slots head (n+1) =
    window size slots head n ++ [slots ((head+n) % size)] := by
  simp only [window,List.range_succ,List.map_append,List.map_cons,List.map_nil]

theorem windowCons : window size slots head (n+1) =
    slots (head % size) :: window size slots ((head+1) % size) n := by
  simp only [window,List.range_succ_eq_map,List.map_cons,List.map_map,Nat.add_zero]
  congr 1
  apply List.map_congr_left
  intro i _
  simp only [Function.comp_def,Nat.mod_add_mod]
  congr 2
  omega

theorem windowMod : window size slots (head % size) n = window size slots head n := by
  simp only [window,Nat.mod_add_mod]

theorem distinctSlots {i : Nat} (before : i < n) (room : n < size) :
    (head+i) % size ≠ (head+n) % size := by
  intro same
  have multiple := Nat.sub_mod_eq_zero_of_mod_eq same.symm
  rw [show head+n-(head+i) = n-i by omega,Nat.mod_eq_of_lt (by omega)] at multiple
  omega

def store (slots : Nat → α) (j : Nat) (x : α) (i : Nat) : α := if i = j then x else slots i

theorem storeAt (slots : Nat → α) (j : Nat) (x : α) : store slots j x j = x := if_pos rfl

theorem windowStore {j : Nat} (x : α) (behind : j = (head+n) % size) (room : n < size) :
    window size (store slots j x) head n = window size slots head n := by
  apply windowCongr
  intro i inside
  rw [behind]
  exact if_neg (distinctSlots inside room)

theorem windowStored {j : Nat} (x : α) (behind : j = (head+n) % size) (room : n < size) :
    window size (store slots j x) head (n+1) = window size slots head n ++ [x] := by
  rw [windowSnoc,windowStore x behind room,← behind,storeAt]

end TeePa.BoundedFifo
