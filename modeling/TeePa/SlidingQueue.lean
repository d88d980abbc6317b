/-! A queue of bounded length that drops its oldest entry where a push finds it full,
over any type, and the account of what has gone through it: everything pushed, in order,
what has been taken out, in order, and how many entries were dropped. -/
namespace TeePa.SlidingQueue

variable {α : Type}

def slide (maxlen : Nat) (items : List α) (x : α) : List α :=
  (items ++ [x]).drop (items.length + 1 - maxlen)

/- What is gone from the queue is a front of what was pushed. All of it was taken, in its
order, but for the entries dropped. -/
def Accounts (pushed items taken : List α) (dropped : Nat) : Prop := ∃ gone,
  pushed = gone ++ items ∧ taken.Sublist gone ∧ gone.length = taken.length + dropped

variable {pushed items taken : List α} {dropped maxlen : Nat}

theorem startAccounts : Accounts ([] : List α) [] [] 0 := ⟨[],rfl,List.Sublist.refl _,rfl⟩

theorem slideRoom (x : α) (room : items.length < maxlen) : slide maxlen items x = items ++ [x] := by
  rw [slide,show items.length + 1 - maxlen = 0 by omega,List.drop_zero]

theorem slideFull (x : α) (full : items.length = maxlen) :
    slide maxlen items x = (items ++ [x]).tail := by
  rw [slide,show items.length + 1 - maxlen = 1 by omega,List.drop_one]

theorem slideAccounts (h : Accounts pushed items taken dropped) (bounded : items.length ≤ maxlen)
    (x : α) : Accounts (pushed ++ [x]) (slide maxlen items x) taken
      (if items.length < maxlen then dropped else dropped + 1) := by
  obtain ⟨gone,split,sub,count⟩ := h
  by_cases room : items.length < maxlen
  · rw [if_pos room,slideRoom x room]
    exact ⟨gone,by rw [split,List.append_assoc],sub,count⟩
  · have full : items.length = maxlen := Nat.le_antisymm bounded (Nat.le_of_not_lt room)
    rw [if_neg room,slideFull x full]
    cases ends : items ++ [x] with
    | nil => simp at ends
    | cons oldest rest =>
      refine ⟨gone ++ [oldest],?_,sub.trans (List.sublist_append_left _ _),?_⟩
      · rw [split,List.append_assoc,ends,List.tail_cons,List.append_assoc]
        rfl
      · rw [List.length_append,List.length_singleton,count,Nat.add_assoc]

theorem takeAccounts {out : List α} (h : Accounts pushed (out ++ items) taken dropped) :
    Accounts pushed items (taken ++ out) dropped := by
  obtain ⟨gone,split,sub,count⟩ := h
  refine ⟨gone ++ out,by rw [split,List.append_assoc],sub.append (List.Sublist.refl _),?_⟩
  rw [List.length_append,List.length_append,count,Nat.add_right_comm]

theorem accountsOrder (h : Accounts pushed items taken dropped) :
    (taken ++ items).Sublist pushed := by
  obtain ⟨gone,rfl,sub,-⟩ := h
  exact sub.append (List.Sublist.refl _)

theorem accountsSuffix (h : Accounts pushed items taken dropped) : items <:+ pushed := by
  obtain ⟨gone,split,-,-⟩ := h
  exact ⟨gone,split.symm⟩

theorem accountsWhole (h : Accounts pushed items taken 0) : taken ++ items = pushed := by
  obtain ⟨gone,rfl,sub,count⟩ := h
  rw [sub.eq_of_length count.symm]

end TeePa.SlidingQueue
