/-! C strings in a flat byte memory: the operations of string.h that stop at a
NUL, and what they leave alone. A scan is bounded by the address space, so
every operation is total; where a NUL is in reach the bound is never met. -/
namespace TeePa.CStrings

abbrev Bytes := List UInt8
abbrev Memory := Nat → UInt8

structure CString where
  bytes : Bytes
  nulFree : ∀ b ∈ bytes, b ≠ 0
  deriving DecidableEq, Repr

namespace CString

def length (s : CString) : Nat := s.bytes.length

def empty : CString := ⟨[],by simp⟩

def take (n : Nat) (s : CString) : CString :=
  ⟨s.bytes.take n,fun b mem => s.nulFree b (List.mem_of_mem_take mem)⟩

def append (s t : CString) : CString :=
  ⟨s.bytes ++ t.bytes,by
    intro b mem
    rcases List.mem_append.mp mem with left | right
    · exact s.nulFree b left
    · exact t.nulFree b right⟩

theorem ext {s t : CString} (same : s.bytes = t.bytes) : s = t := by
  cases s; cases t; cases same; rfl

@[simp] theorem emptyLength : empty.length = 0 := rfl

@[simp] theorem appendLength (s t : CString) : (s.append t).length = s.length + t.length :=
  List.length_append

@[simp] theorem takeLength (n : Nat) (s : CString) : (s.take n).length = min n s.length :=
  List.length_take

@[simp] theorem appendBytes (s t : CString) : (s.append t).bytes = s.bytes ++ t.bytes := rfl

end CString

-- Irreducible, so that no proof unfolds a scan that far.
@[irreducible] def addressSpace : Nat := 0x10000000000000000

theorem addressSpaceLarge {n : Nat} (small : n < 0x100000) : n < addressSpace := by
  unfold addressSpace; omega

def scan (m : Memory) : Nat → Nat → Bytes
  | 0, _ => []
  | fuel+1, a => if m a = 0 then [] else m a :: scan m fuel (a+1)

theorem scanNulFree (m : Memory) (fuel a : Nat) : ∀ b ∈ scan m fuel a, b ≠ 0 := by
  induction fuel generalizing a with
  | zero => simp [scan]
  | succ fuel ih =>
    simp only [scan]
    split
    · simp
    · rename_i notNul
      intro b mem
      rcases List.mem_cons.mp mem with rfl | later
      · exact notNul
      · exact ih (a+1) b later

def stringAt (m : Memory) (a : Nat) : CString := ⟨scan m addressSpace a,scanNulFree m _ a⟩

def strlen (m : Memory) (a : Nat) : Nat := (stringAt m a).length

def write (m : Memory) (a : Nat) (bytes : Bytes) : Memory := fun x =>
  if a ≤ x ∧ x < a + bytes.length then bytes.getD (x-a) 0 else m x

def memset (m : Memory) (a : Nat) (b : UInt8) (n : Nat) : Memory := write m a (List.replicate n b)

def strcpy (m : Memory) (a : Nat) (s : CString) : Memory := write m a (s.bytes ++ [0])

def strcat (m : Memory) (a : Nat) (s : CString) : Memory := strcpy m (a + strlen m a) s

def load (m : Memory) (a n : Nat) : Bytes := (List.range n).map (fun i => m (a+i))

structure Holds (m : Memory) (a : Nat) (s : CString) : Prop where
  bytes : ∀ i b, s.bytes[i]? = some b → m (a+i) = b
  nul : m (a + s.length) = 0

theorem scanFrame {m m' : Memory} {a : Nat} (same : ∀ x, a ≤ x → m' x = m x) (fuel : Nat) :
    scan m' fuel a = scan m fuel a := by
  induction fuel generalizing a with
  | zero => rfl
  | succ fuel ih =>
    simp only [scan,same a (Nat.le_refl a)]
    rw [ih (fun x later => same x (by omega))]

theorem scanRunsOn {m : Memory} {bytes : Bytes} {fuel a : Nat}
    (held : ∀ i b, bytes[i]? = some b → m (a+i) = b ∧ b ≠ 0) (enough : bytes.length ≤ fuel) :
    scan m fuel a = bytes ++ scan m (fuel - bytes.length) (a + bytes.length) := by
  induction bytes generalizing fuel a with
  | nil => rfl
  | cons b rest ih =>
    cases fuel with
    | zero => exact absurd enough (Nat.not_succ_le_zero _)
    | succ fuel =>
      have head := held 0 b rfl
      have first : m a = b := head.1
      have tail : scan m fuel (a+1) =
          rest ++ scan m (fuel - rest.length) (a + 1 + rest.length) := by
        apply ih _ (Nat.le_of_succ_le_succ enough)
        intro i c found
        have next := held (i+1) c (by simpa using found)
        rwa [show a + (i+1) = a+1+i by omega] at next
      simp only [scan,first,tail,if_neg head.2,List.length_cons,List.cons_append,
        Nat.add_sub_add_right]
      rw [show a + 1 + rest.length = a + (rest.length+1) by omega]

theorem scanOf {m : Memory} {bytes : Bytes} {fuel a : Nat}
    (held : ∀ i b, bytes[i]? = some b → m (a+i) = b ∧ b ≠ 0)
    (nul : m (a + bytes.length) = 0) (enough : bytes.length < fuel) : scan m fuel a = bytes := by
  have more : fuel - bytes.length = fuel - bytes.length - 1 + 1 := by omega
  rw [scanRunsOn held (Nat.le_of_lt enough),more,scan,if_pos nul,List.append_nil]

theorem stringAtOfHolds {m a s} (held : Holds m a s) (small : s.length < addressSpace) :
    stringAt m a = s := by
  apply CString.ext
  apply scanOf _ held.nul small
  intro i b found
  exact ⟨held.bytes i b found,s.nulFree b (List.mem_of_getElem? found)⟩

theorem scanHeld {m : Memory} {fuel a : Nat} (short : (scan m fuel a).length < fuel) :
    (∀ i b, (scan m fuel a)[i]? = some b → m (a+i) = b) ∧ m (a + (scan m fuel a).length) = 0 := by
  induction fuel generalizing a with
  | zero => omega
  | succ fuel ih =>
    simp only [scan] at short ⊢
    split at short
    · rename_i nul
      simpa only [if_pos nul,List.getElem?_nil,List.length_nil,Nat.add_zero] using ⟨by simp,nul⟩
    · rename_i notNul
      simp only [if_neg notNul,List.length_cons]
      have rest := @ih (a+1) (by simpa using short)
      refine ⟨?_,?_⟩
      · intro i b found
        cases i with
        | zero => simpa using found
        | succ i =>
          have next := rest.1 i b (by simpa using found)
          rwa [show a+1+i = a + (i+1) by omega] at next
      · have last := rest.2
        rwa [show a+1+(scan m fuel (a+1)).length = a + ((scan m fuel (a+1)).length+1) by omega] at last

theorem scanBefore {m : Memory} {fuel a n : Nat} (nul : m (a+n) = 0) : (scan m fuel a).length ≤ n := by
  induction n generalizing fuel a with
  | zero =>
    cases fuel with
    | zero => exact Nat.le_refl 0
    | succ fuel =>
      have first : m a = 0 := nul
      rw [scan,if_pos first]
      exact Nat.le_refl 0
  | succ n ih =>
    cases fuel with
    | zero => exact Nat.zero_le _
    | succ fuel =>
      rw [scan]
      split
      · exact Nat.zero_le _
      · exact Nat.succ_le_succ (ih (by rwa [show a + 1 + n = a + (n+1) by omega]))

theorem strlenBefore {m : Memory} {a n : Nat} (nul : m (a+n) = 0) : strlen m a ≤ n := scanBefore nul

theorem holdsStringAt {m a} (small : (stringAt m a).length < addressSpace) :
    Holds m a (stringAt m a) := ⟨(scanHeld small).1,(scanHeld small).2⟩

theorem holdsFrame {m m' : Memory} {a s} (held : Holds m a s)
    (same : ∀ x, a ≤ x → x ≤ a + s.length → m' x = m x) : Holds m' a s := by
  refine ⟨?_,?_⟩
  · intro i b found
    have inside : i < s.length := (List.getElem?_eq_some_iff.mp found).1
    rw [same (a+i) (by omega) (by omega)]
    exact held.bytes i b found
  · rw [same _ (by omega) (Nat.le_refl _)]
    exact held.nul

theorem writeOutside {m : Memory} {a bytes x} (outside : x < a ∨ a + bytes.length ≤ x) :
    write m a bytes x = m x := if_neg (by omega)

theorem writeInside {m : Memory} {a bytes i b} (found : bytes[i]? = some b) :
    write m a bytes (a+i) = b := by
  have inside := (List.getElem?_eq_some_iff.mp found).1
  have position : a + i - a = i := by omega
  simp only [write,if_pos (show a ≤ a+i ∧ a+i < a + bytes.length by omega),position,
    List.getD_eq_getElem?_getD,found,Option.getD_some]

theorem writeAppend (m : Memory) (a : Nat) (front back : Bytes) :
    write (write m a front) (a + front.length) back = write m a (front ++ back) := by
  funext x
  rcases Nat.lt_or_ge x a with before | inside
  · rw [writeOutside (Or.inl (by omega)),writeOutside (Or.inl before),
      writeOutside (Or.inl before)]
  · obtain ⟨i,rfl⟩ := Nat.exists_eq_add_of_le inside
    rcases Nat.lt_or_ge i front.length with early | late
    · have found := List.getElem?_eq_getElem early
      rw [writeOutside (Or.inl (by omega)),writeInside found,
        writeInside ((List.getElem?_append_left early).trans found)]
    · obtain ⟨j,rfl⟩ := Nat.exists_eq_add_of_le late
      cases found : back[j]? with
      | none =>
        have behind := List.getElem?_eq_none_iff.mp found
        rw [writeOutside (Or.inr (by omega)),writeOutside (Or.inr (by omega)),
          writeOutside (Or.inr (by rw [List.length_append]; omega))]
      | some b =>
        have whole : (front ++ back)[front.length + j]? = some b := by
          rwa [List.getElem?_append_right (by omega),Nat.add_sub_cancel_left]
        rw [writeInside whole,← Nat.add_assoc,writeInside found]

theorem strcpyOutside {m : Memory} {a s x} (outside : x < a ∨ a + s.length < x) :
    strcpy m a s x = m x := by
  apply writeOutside
  simp only [List.length_append,List.length_cons,List.length_nil]
  simp only [CString.length] at outside
  omega

theorem strcpyHolds (m : Memory) (a : Nat) (s : CString) : Holds (strcpy m a s) a s := by
  refine ⟨?_,?_⟩
  · intro i b found
    apply writeInside
    rw [List.getElem?_append_left (List.getElem?_eq_some_iff.mp found).1]
    exact found
  · apply writeInside
    simp [CString.length]

theorem gluedHolds {m : Memory} {a n : Nat} {s t : CString} (size : s.length = n)
    (front : ∀ i b, s.bytes[i]? = some b → m (a+i) = b) (back : Holds m (a+n) t) :
    Holds m a (s.append t) := by
  subst size
  refine ⟨?_,?_⟩
  · intro i b found
    rw [CString.appendBytes,List.getElem?_append] at found
    split at found
    · exact front i b found
    · rename_i late
      have reached := back.bytes _ b found
      simp only [CString.length] at reached
      rwa [show a + s.bytes.length + (i - s.bytes.length) = a + i by omega] at reached
  · have last := back.nul
    rwa [Nat.add_assoc,← CString.appendLength] at last

theorem strcatHolds {m a s} (t : CString) (held : Holds m a s) (small : s.length < addressSpace) :
    Holds (strcat m a t) a (s.append t) := by
  have position : strlen m a = s.length := congrArg CString.length (stringAtOfHolds held small)
  have appended := strcpyHolds m (a + s.length) t
  simp only [strcat,position]
  apply gluedHolds rfl _ appended
  intro i b found
  have early : i < s.bytes.length := (List.getElem?_eq_some_iff.mp found).1
  rw [strcpyOutside (Or.inl (by simp only [CString.length]; omega))]
  exact held.bytes i b found

theorem strlenOfHolds {m a s} (held : Holds m a s) (small : s.length < addressSpace) :
    strlen m a = s.length := congrArg CString.length (stringAtOfHolds held small)

/- Zeroing a string up to its own length leaves the empty string, whatever the
memory held before; also where no NUL was in reach. -/
theorem memsetStrlenHolds (m : Memory) (a : Nat) :
    Holds (memset m a 0 (strlen m a)) a .empty := by
  refine ⟨by simp [CString.empty],?_⟩
  rw [CString.emptyLength,Nat.add_zero]
  cases size : strlen m a with
  | zero =>
    rw [memset,writeOutside (by simp)]
    have zero : (stringAt m a).length = 0 := size
    have small : (stringAt m a).length < addressSpace := zero ▸ addressSpaceLarge (by decide)
    have held := (holdsStringAt small).nul
    rwa [zero,Nat.add_zero] at held
  | succ n =>
    have first : (List.replicate (n+1) (0 : UInt8))[0]? = some 0 := by simp
    exact writeInside first

theorem loadWritten {m : Memory} {a n : Nat} {bytes : Bytes} (enough : n ≤ bytes.length) :
    load (write m a bytes) a n = bytes.take n := by
  apply List.ext_getElem?
  intro i
  simp only [load,List.getElem?_map,List.getElem?_take]
  by_cases inside : i < n
  · have found : bytes[i]? = some bytes[i] := List.getElem?_eq_getElem (by omega)
    rw [if_pos inside,List.getElem?_range inside,found]
    exact congrArg some (writeInside found)
  · rw [if_neg inside,List.getElem?_eq_none (by simpa using inside),Option.map_none]

theorem loadSucc (m : Memory) (a n : Nat) : load m a (n+1) = m a :: load m (a+1) n := by
  simp only [load,List.range_succ_eq_map,List.map_cons,List.map_map]
  refine congrArg (m a :: ·) (List.map_congr_left ?_)
  intro i _
  exact congrArg m (show a + (i+1) = a + 1 + i by omega)

theorem loadScanned (m : Memory) (fuel a : Nat) :
    load m a (scan m fuel a).length = scan m fuel a := by
  induction fuel generalizing a with
  | zero => rfl
  | succ fuel ih =>
    simp only [scan]
    split
    · rfl
    · rw [List.length_cons,loadSucc,ih (a+1)]

theorem loadOfHolds {m a s} (held : Holds m a s) : load m a s.length = s.bytes := by
  apply List.ext_getElem?
  intro i
  simp only [load,CString.length,List.getElem?_map]
  by_cases inside : i < s.bytes.length
  · have found : s.bytes[i]? = some s.bytes[i] := List.getElem?_eq_getElem inside
    rw [found,List.getElem?_range inside]
    exact congrArg some (held.bytes i _ found)
  · rw [List.getElem?_eq_none (by omega : s.bytes.length ≤ i),
      List.getElem?_eq_none (by simpa using (by omega : s.bytes.length ≤ i)),Option.map_none]

end TeePa.CStrings
