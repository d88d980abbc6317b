/-! Text as a receiver written in Python sees it: UTF-8 decoding, substring
search, str.splitlines, str.strip and hexadecimal. A text is a list of Unicode
scalar values, which is what strict decoding can give. -/
namespace TeePa.Texts

abbrev Bytes := List UInt8
abbrev Text := List Char

-- The test `pattern in t`.
instance decidableIn (pattern t : Text) : Decidable (pattern <:+: t) :=
  List.instDecidableIsInfixOfDecidableEq pattern t

def encode (t : Text) : Bytes := t.flatMap String.utf8EncodeChar

-- bytes.decode('utf-8'); none where Python raises.
def decode (b : Bytes) : Option Text := b.toByteArray.utf8Decode?.map Array.toList

@[simp] theorem encodeAppend (s t : Text) : encode (s ++ t) = encode s ++ encode t :=
  List.flatMap_append

theorem toByteArrayInj {a b : Bytes} (same : a.toByteArray = b.toByteArray) : a = b := by
  rw [← @List.toList_data_toByteArray a,same,List.toList_data_toByteArray]

@[simp] theorem decodeEncode (t : Text) : decode (encode t) = some t := by
  have whole : (encode t).toByteArray.utf8Decode? = some t.toArray := List.utf8Decode?_utf8Encode
  rw [decode,whole]; rfl

theorem decodeSource {b : Bytes} {t : Text} (ok : decode b = some t) : b = encode t := by
  obtain ⟨chars,found,rfl⟩ := Option.map_eq_some_iff.mp ok
  obtain ⟨source,valid⟩ := ByteArray.isSome_utf8Decode?_iff.mp (Option.isSome_of_eq_some found)
  have same : source.toArray = chars := by
    rw [valid,List.utf8Decode?_utf8Encode] at found
    exact Option.some.inj found
  rw [← same]
  exact toByteArrayInj valid

theorem decodeEmpty : decode [] = some [] := decodeEncode []

theorem encodePrefix {s t : Text} {b : Bytes} (same : encode s ++ b = encode t) :
    ∃ rest, t = s ++ rest ∧ b = encode rest := by
  have arrays : s.utf8Encode ++ b.toByteArray = t.utf8Encode := by
    change (encode s).toByteArray ++ b.toByteArray = (encode t).toByteArray
    rw [← List.toByteArray_append,same]
  obtain ⟨rest,rfl⟩ := List.isPrefix_of_utf8Encode_append_eq_utf8Encode _ arrays
  rw [encodeAppend] at same
  exact ⟨rest,rfl,List.append_cancel_left same⟩

theorem encodeLength (t : Text) : t.length ≤ (encode t).length := by
  induction t with
  | nil => exact Nat.le_refl 0
  | cons c rest ih =>
    have positive : 0 < (String.utf8EncodeChar c).length := by
      rw [String.length_utf8EncodeChar]; exact Char.utf8Size_pos c
    simp only [encode,List.flatMap_cons,List.length_append,List.length_cons] at ih ⊢
    omega

def asciiText (b : Bytes) : Text := b.map (fun x => Char.ofNat x.toNat)

theorem encodeAsciiChar : ∀ n < 128, String.utf8EncodeChar (Char.ofNat n) = [UInt8.ofNat n] := by
  decide +kernel

theorem encodeAscii {b : Bytes} (ascii : ∀ x ∈ b, x.toNat < 128) : encode (asciiText b) = b := by
  induction b with
  | nil => rfl
  | cons x rest ih =>
    have tail := ih (fun y mem => ascii y (List.mem_cons_of_mem _ mem))
    have head := encodeAsciiChar x.toNat (ascii x (by simp))
    rw [UInt8.ofNat_toNat] at head
    simp only [encode,asciiText,List.map_cons,List.flatMap_cons,head] at tail ⊢
    rw [tail]
    rfl

/- The byte of a newline occurs in the encoding of no other character, so valid bytes
can be cut at it. -/
theorem newlineByte {c : Char} (mem : 10 ∈ String.utf8EncodeChar c) : c = '\n' := by
  have code : ∀ n, (10 : UInt8) = UInt8.ofNat n → n % 256 = 10 := by
    intro n same
    have sizes := congrArg UInt8.toNat same
    rw [UInt8.toNat_ofNat'] at sizes
    exact sizes.symm
  have parts : c.val.toNat = 10 := by
    unfold String.utf8EncodeChar at mem
    dsimp only at mem
    split at mem
    · have own := code _ (List.mem_singleton.mp mem)
      omega
    · have high : ∀ n, 10 ≠ UInt8.ofNat (n % 0x40 + 0x80) := by
        intro n same
        have := code _ same
        omega
      split at mem
      · rcases List.mem_cons.mp mem with lead | mem
        · have := code _ lead; omega
        · exact absurd (List.mem_singleton.mp mem) (high _)
      · split at mem
        · rcases List.mem_cons.mp mem with lead | mem
          · have := code _ lead; omega
          · simp only [List.mem_cons,List.not_mem_nil,or_false,high] at mem
        · rcases List.mem_cons.mp mem with lead | mem
          · have := code _ lead; omega
          · simp only [List.mem_cons,List.not_mem_nil,or_false,high] at mem
  exact Char.ext (UInt32.toNat_inj.mp parts)

theorem encodeCut {t : Text} {record rest : Bytes} (same : encode t = record ++ 10 :: rest)
    (free : 10 ∉ record) :
    ∃ front back, t = front ++ '\n' :: back ∧ record = encode front ∧ rest = encode back := by
  induction t generalizing record with
  | nil => simp [encode] at same
  | cons c t ih =>
    have whole : encode (c::t) = String.utf8EncodeChar c ++ encode t := List.flatMap_cons
    rw [whole] at same
    rcases List.append_eq_append_iff.mp same with ⟨front,rfl,later⟩ | ⟨back,head,later⟩
    · obtain ⟨front',back,rfl,rfl,tail⟩ := ih later (fun mem => free (List.mem_append_right _ mem))
      exact ⟨c::front',back,rfl,List.flatMap_cons.symm,tail⟩
    · cases back with
      | nil =>
        rw [List.nil_append] at later
        obtain ⟨front',back,rfl,empty,tail⟩ := @ih [] later.symm List.not_mem_nil
        rw [List.append_nil] at head
        refine ⟨c::front',back,rfl,?_,tail⟩
        rw [← head]
        exact (List.append_nil _).symm.trans (congrArg _ empty)
      | cons x back =>
        rw [List.cons_append] at later
        obtain ⟨rfl,tail⟩ := List.cons.inj later
        have newline : c = '\n' := newlineByte (by rw [head]; simp)
        have one : (String.utf8EncodeChar c).length = 1 := by rw [newline]; rfl
        rw [head,List.length_append,List.length_cons] at one
        cases List.eq_nil_of_length_eq_zero (show record.length = 0 by omega)
        cases List.eq_nil_of_length_eq_zero (show back.length = 0 by omega)
        exact ⟨[],t,by rw [newline]; rfl,rfl,tail⟩

/- str.splitlines: the line breaks of Unicode strings, with a carriage return and
a line feed behind it as one break, and no empty line after a last break. -/
def isLineBreak (c : Char) : Bool :=
  [0x0a,0x0d,0x0b,0x0c,0x1c,0x1d,0x1e,0x85,0x2028,0x2029].contains c.toNat

def splitlinesFrom (afterCr : Bool) (current : Text) : Text → List Text
  | [] => if current = [] then [] else [current]
  | c::rest =>
      if afterCr ∧ c = '\n' then splitlinesFrom false current rest
      else if isLineBreak c then current :: splitlinesFrom (c = '\r') [] rest
      else splitlinesFrom false (current ++ [c]) rest

def splitlines (t : Text) : List Text := splitlinesFrom false [] t

def BreakFree (t : Text) : Prop := ∀ c ∈ t, isLineBreak c = false

theorem freeOfAll {t : Text} (all : t.all (fun c => isLineBreak c == false) = true) : BreakFree t :=
  fun c mem => beq_iff_eq.mp (List.all_eq_true.mp all c mem)

theorem printableChars : ∀ n < 127, 32 ≤ n → isLineBreak (Char.ofNat n) = false := by
  decide +kernel

theorem printableBreakFree {b : Bytes} (printable : ∀ x ∈ b, 0x20 ≤ x ∧ x ≤ 0x7e) :
    BreakFree (asciiText b) := by
  intro c mem
  obtain ⟨x,inside,rfl⟩ := List.mem_map.mp mem
  obtain ⟨low,high⟩ := printable x inside
  have low' : 32 ≤ x.toNat := low
  have high' : x.toNat ≤ 126 := high
  exact printableChars x.toNat (by omega) low'

theorem splitlinesBreakFree {afterCr current t} (free : BreakFree current) :
    ∀ line ∈ splitlinesFrom afterCr current t, BreakFree line := by
  induction t generalizing afterCr current with
  | nil =>
    intro line mem
    simp only [splitlinesFrom] at mem
    split at mem
    · simp at mem
    · rw [List.mem_singleton.mp mem]; exact free
  | cons c rest ih =>
    have none : BreakFree [] := by intro c mem; simp at mem
    simp only [splitlinesFrom]
    split
    · exact ih free
    · split
      · intro line mem
        rcases List.mem_cons.mp mem with rfl | later
        · exact free
        · exact ih none line later
      · rename_i plain
        apply ih
        intro d mem
        rcases List.mem_append.mp mem with old | new
        · exact free d old
        · rw [List.mem_singleton.mp new]; exact Bool.eq_false_iff.mpr plain

theorem splitlinesInfix {afterCr current t} (fresh : afterCr = true → current = []) :
    ∀ line ∈ splitlinesFrom afterCr current t, line <:+: current ++ t := by
  induction t generalizing afterCr current with
  | nil =>
    intro line mem
    simp only [splitlinesFrom] at mem
    split at mem
    · simp at mem
    · rw [List.mem_singleton.mp mem]; exact List.infix_append_left
  | cons c rest ih =>
    simp only [splitlinesFrom]
    split
    · rename_i fed
      intro line mem
      have none := fresh fed.1
      subst none
      exact List.infix_cons (ih (by simp) line mem)
    · split
      · intro line mem
        rcases List.mem_cons.mp mem with rfl | later
        · exact List.infix_append_left
        · have deep := ih (by simp) line later
          rw [List.nil_append] at deep
          exact List.infix_append_of_infix_right (List.infix_cons deep)
      · intro line mem
        have deep := ih (by simp) line mem
        rwa [List.append_assoc,List.singleton_append] at deep

theorem splitlinesFromFree {current piece rest : Text} (free : BreakFree piece) :
    splitlinesFrom false current (piece ++ rest) = splitlinesFrom false (current ++ piece) rest := by
  induction piece generalizing current with
  | nil => simp
  | cons c piece ih =>
    have plain := free c (by simp)
    have later : BreakFree piece := fun d mem => free d (List.mem_cons_of_mem _ mem)
    simp [splitlinesFrom,plain,ih later]

theorem splitlinesPending {current : Text} (pending : current ≠ []) (rest : Text) :
    ∃ tail lines, splitlinesFrom false current rest = (current ++ tail) :: lines := by
  induction rest generalizing current with
  | nil => exact ⟨[],[],by simp [splitlinesFrom,pending]⟩
  | cons c rest ih =>
    cases broken : isLineBreak c with
    | true =>
      refine ⟨[],splitlinesFrom (decide (c = '\r')) [] rest,?_⟩
      simp [splitlinesFrom,broken]
    | false =>
      obtain ⟨tail,lines,same⟩ := @ih (current ++ [c]) (by simp)
      refine ⟨[c] ++ tail,lines,?_⟩
      simp [splitlinesFrom,broken,same]

theorem pieceInLine {afterCr current} {before piece after : Text} (free : BreakFree piece)
    (some : piece ≠ []) :
    ∃ line ∈ splitlinesFrom afterCr current (before ++ piece ++ after), piece <:+: line := by
  induction before generalizing afterCr current with
  | nil =>
    cases piece with
    | nil => exact absurd rfl some
    | cons c piece =>
      have plain := free c (by simp)
      have notFeed : c ≠ '\n' := by rintro rfl; exact absurd plain (by decide)
      have later : BreakFree piece := fun d mem => free d (List.mem_cons_of_mem _ mem)
      obtain ⟨tail,lines,same⟩ := @splitlinesPending (current ++ [c] ++ piece) (by simp) after
      refine ⟨current ++ [c] ++ piece ++ tail,?_,⟨current,tail,by simp⟩⟩
      have first : splitlinesFrom afterCr current (c::(piece ++ after)) =
          splitlinesFrom false (current ++ [c]) (piece ++ after) := by
        simp [splitlinesFrom,plain,notFeed]
      rw [List.nil_append,List.cons_append,first,splitlinesFromFree later,same]
      exact List.mem_cons_self
  | cons d before ih =>
    simp only [List.cons_append,splitlinesFrom]
    split
    · exact ih
    · split
      · obtain ⟨line,mem,inside⟩ := @ih (decide (d = '\r')) []
        exact ⟨line,List.mem_cons_of_mem _ mem,inside⟩
      · exact ih

/- What a line-wise reader keeps of a text. Where it keeps nothing of an empty
line, a text may be cut next to any line break. -/
section Cuts
variable {α : Type} {keep : Text → Option α}

def keptLines (keep : Text → Option α) (t : Text) : List α := (splitlines t).filterMap keep

theorem keptAfterCr (empty : keep [] = none) (t : Text) :
    (splitlinesFrom true [] t).filterMap keep = (splitlinesFrom false [] t).filterMap keep := by
  cases t with
  | nil => rfl
  | cons c rest =>
    by_cases feed : c = '\n'
    · subst feed
      have broken : isLineBreak '\n' = true := by decide
      simp [splitlinesFrom,broken,empty]
    · simp [splitlinesFrom,feed]

theorem keptFresh (empty : keep [] = none) (afterCr : Bool) (t : Text) :
    (splitlinesFrom afterCr [] t).filterMap keep = keptLines keep t := by
  cases afterCr with
  | false => rfl
  | true => exact keptAfterCr empty t

theorem keptBehindBreak (empty : keep [] = none) {afterCr current before c after}
    (fresh : afterCr = true → current = []) (broken : isLineBreak c = true) :
    (splitlinesFrom afterCr current (before ++ [c] ++ after)).filterMap keep =
      (splitlinesFrom afterCr current (before ++ [c])).filterMap keep ++ keptLines keep after := by
  induction before generalizing afterCr current with
  | nil =>
    by_cases fed : afterCr = true ∧ c = '\n'
    · have none := fresh fed.1
      subst none
      simp [splitlinesFrom,fed,keptLines,splitlines]
    · simp only [List.nil_append,List.singleton_append,splitlinesFrom,if_neg fed,if_pos broken,
        ↓reduceIte]
      rw [List.filterMap_cons,List.filterMap_cons,keptFresh empty]
      cases keep current <;> simp
  | cons d before ih =>
    simp only [List.cons_append,splitlinesFrom]
    split
    · rename_i fed; exact ih (fun _ => fresh fed.1)
    · split
      · rw [List.filterMap_cons,List.filterMap_cons,ih (fun _ => rfl)]
        cases keep current <;> rfl
      · exact ih (by simp)

theorem keptBeforeBreak (empty : keep [] = none) {afterCr current before c after}
    (fresh : afterCr = true → current = []) (broken : isLineBreak c = true) :
    (splitlinesFrom afterCr current (before ++ c::after)).filterMap keep =
      (splitlinesFrom afterCr current before).filterMap keep ++ keptLines keep (c::after) := by
  have alone : keptLines keep (c::after) = keptLines keep after := by
    simp only [keptLines,splitlines,splitlinesFrom,Bool.false_eq_true,false_and,if_false,
      if_pos broken]
    rw [List.filterMap_cons_none empty]
    exact keptFresh empty _ after
  induction before generalizing afterCr current with
  | nil =>
    by_cases fed : afterCr = true ∧ c = '\n'
    · have none := fresh fed.1
      subst none
      rw [alone]
      simp [splitlinesFrom,fed,keptLines,splitlines]
    · simp only [List.nil_append,splitlinesFrom,if_neg fed,if_pos broken]
      rw [List.filterMap_cons,keptFresh empty,alone]
      by_cases none : current = []
      · simp [none,empty]
      · simp only [if_neg none,List.filterMap_cons,List.filterMap_nil]
        cases keep current <;> rfl
  | cons d before ih =>
    simp only [List.cons_append,splitlinesFrom]
    split
    · rename_i fed; exact ih (fun _ => fresh fed.1)
    · split
      · rw [List.filterMap_cons,List.filterMap_cons,ih (fun _ => rfl)]
        cases keep current <;> rfl
      · exact ih (by simp)

def AtBreak (before after : Text) : Prop :=
  before = [] ∨ after = [] ∨ (∃ c ∈ before.getLast?, isLineBreak c = true) ∨
  (∃ c ∈ after.head?, isLineBreak c = true)

theorem keptAppend (empty : keep [] = none) {before after : Text} (cut : AtBreak before after) :
    keptLines keep (before ++ after) = keptLines keep before ++ keptLines keep after := by
  have fresh : false = true → ([] : Text) = [] := fun _ => rfl
  rcases cut with rfl | rfl | ⟨c,last,broken⟩ | ⟨c,first,broken⟩
  · rfl
  · simp [keptLines,splitlines,splitlinesFrom]
  · obtain ⟨front,rfl⟩ := List.getLast?_eq_some_iff.mp last
    exact keptBehindBreak empty fresh broken
  · obtain ⟨tail,rfl⟩ := List.head?_eq_some_iff.mp first
    exact keptBeforeBreak empty fresh broken

theorem newlineBreaks : isLineBreak '\n' = true := by decide

theorem keptNewline (empty : keep [] = none) (text rest : Text) :
    keptLines keep (text ++ '\n'::rest) = keptLines keep text ++ keptLines keep rest := by
  have behind : AtBreak ['\n'] rest := .inr (.inr (.inl ⟨'\n',rfl,newlineBreaks⟩))
  have before : AtBreak text ('\n'::rest) := .inr (.inr (.inr ⟨'\n',rfl,newlineBreaks⟩))
  have single : keptLines keep ['\n'] = [] := by
    simp [keptLines,splitlines,splitlinesFrom,newlineBreaks,empty]
  rw [keptAppend empty before,← List.singleton_append,keptAppend empty behind,single]
  rfl

/- The line a cut runs through: what stands behind the last line break before the
cut, and in front of the first one after it. -/
def pending (t : Text) : Text := (t.reverse.takeWhile (fun c => !isLineBreak c)).reverse

def upcoming (t : Text) : Text := t.takeWhile (fun c => !isLineBreak c)

theorem upcomingSplit (t : Text) : BreakFree (upcoming t) ∧
    ∃ back, t = upcoming t ++ back ∧ ∀ front, AtBreak front back := by
  constructor
  · intro c mem
    simpa using List.all_eq_true.mp List.all_takeWhile c mem
  · refine ⟨t.dropWhile (fun c => !isLineBreak c),List.takeWhile_append_dropWhile.symm,?_⟩
    intro front
    cases rest : t.dropWhile (fun c => !isLineBreak c) with
    | nil => exact .inr (.inl rfl)
    | cons c tail =>
      have stopped := List.head?_dropWhile_not (fun c => !isLineBreak c) t
      rw [rest] at stopped
      exact .inr (.inr (.inr ⟨c,rfl,by simpa using stopped⟩))

theorem pendingSplit (t : Text) : BreakFree (pending t) ∧
    ∃ front, t = front ++ pending t ∧ ∀ back, AtBreak front back := by
  obtain ⟨free,rest,whole,-⟩ := upcomingSplit t.reverse
  have atEnd := List.head?_dropWhile_not (fun c => !isLineBreak c) t.reverse
  constructor
  · intro c mem
    exact free c (List.mem_reverse.mp mem)
  · refine ⟨(t.reverse.dropWhile (fun c => !isLineBreak c)).reverse,?_,?_⟩
    · rw [pending,← List.reverse_append,List.takeWhile_append_dropWhile,List.reverse_reverse]
    · intro back
      cases rest : t.reverse.dropWhile (fun c => !isLineBreak c) with
      | nil => exact .inl rfl
      | cons c tail =>
        rw [rest] at atEnd
        exact .inr (.inr (.inl ⟨c,by simp,by simpa using atEnd⟩))

theorem keptLine (empty : keep [] = none) {line : Text} (free : BreakFree line) :
    keptLines keep line = (keep line).toList := by
  have whole := @splitlinesFromFree [] line [] free
  rw [List.append_nil,List.nil_append] at whole
  rw [keptLines,splitlines,whole,splitlinesFrom]
  split
  · rename_i none
    rw [none,empty]
    rfl
  · cases kept : keep line <;> simp [kept]

theorem keptCut (empty : keep [] = none) (before after : Text) : ∃ first last,
    keptLines keep before = first ++ (keep (pending before)).toList ∧
    keptLines keep after = (keep (upcoming after)).toList ++ last ∧
    keptLines keep (before ++ after) =
      first ++ (keep (pending before ++ upcoming after)).toList ++ last := by
  obtain ⟨freePending,front,whole,atFront⟩ := pendingSplit before
  obtain ⟨freeUpcoming,back,whole',atBack⟩ := upcomingSplit after
  have freeLine : BreakFree (pending before ++ upcoming after) := by
    intro c mem
    exact (List.mem_append.mp mem).elim (freePending c) (freeUpcoming c)
  refine ⟨keptLines keep front,keptLines keep back,?_,?_,?_⟩
  · rw [← keptLine empty freePending,← keptAppend empty (atFront _),← whole]
  · rw [← keptLine empty freeUpcoming,← keptAppend empty (atBack _),← whole']
  · rw [← keptLine empty freeLine,← keptAppend empty (atFront _),← keptAppend empty (atBack _)]
    congr 1
    rw [List.append_assoc,List.append_assoc,← whole',← List.append_assoc,← whole]

end Cuts

theorem upcomingAppend {line : Text} (free : BreakFree line) (rest : Text) :
    upcoming (line ++ rest) = line ++ upcoming rest := by
  apply List.takeWhile_append_of_pos
  intro c mem
  simpa using free c mem

theorem upcomingBreak {c : Char} (broken : isLineBreak c = true) (rest : Text) :
    upcoming (c::rest) = [] := List.takeWhile_cons_of_neg (by simpa using broken)

theorem pendingAppend {line : Text} (free : BreakFree line) (front : Text) :
    pending (front ++ line) = pending front ++ line := by
  have turned := upcomingAppend (fun c mem => free c (List.mem_reverse.mp mem)) front.reverse
  rw [upcoming] at turned
  rw [pending,List.reverse_append,turned,List.reverse_append,List.reverse_reverse]
  rfl

theorem pendingBehind {c : Char} (broken : isLineBreak c = true) (front t : Text) :
    pending (front ++ c::t) = pending t := by
  have stops : (c::front.reverse).takeWhile (fun c => !isLineBreak c) = [] := upcomingBreak broken _
  rw [pending,pending,List.reverse_append,List.reverse_cons,List.append_assoc,
    List.singleton_append,List.takeWhile_append,stops]
  split
  · rename_i all
    rw [List.append_nil,(List.takeWhile_sublist _).eq_of_length all]
  · rfl

theorem splitlinesRecords {records : List Text} (free : ∀ r ∈ records, BreakFree r) :
    splitlines (records.flatMap (fun r => r ++ ['\n'])) = records := by
  induction records with
  | nil => rfl
  | cons r rest ih =>
    have head := free r (by simp)
    have tail := ih (fun t mem => free t (List.mem_cons_of_mem _ mem))
    have broken : isLineBreak '\n' = true := by decide
    rw [List.flatMap_cons,splitlines,List.append_assoc,splitlinesFromFree head]
    simp only [List.nil_append,List.singleton_append,splitlinesFrom,Bool.false_eq_true,false_and,
      if_false,if_pos broken]
    exact congrArg (r :: ·) tail

-- str.find, with none for -1.
def find (pattern : Text) : Text → Option Nat
  | [] => if pattern <+: [] then some 0 else none
  | c::rest => if pattern <+: c::rest then some 0 else (find pattern rest).map (· + 1)

theorem findAt {pattern front : Text} (rest : Text)
    (absent : ¬ pattern <:+: front ++ pattern.dropLast) :
    find pattern (front ++ pattern ++ rest) = some front.length := by
  induction front with
  | nil =>
    have first : pattern <+: pattern ++ rest := List.prefix_append pattern rest
    rw [List.nil_append]
    cases whole : pattern ++ rest with
    | nil => rw [whole] at first; exact if_pos first
    | cons c tail => rw [whole] at first; exact if_pos first
  | cons c front ih =>
    have later := ih (fun inside => absent (inside.trans ⟨[c],[],by simp⟩))
    have notHere : ¬ pattern <+: c::(front ++ pattern ++ rest) := by
      intro here
      have own : c::front ++ pattern.dropLast <+: c::(front ++ pattern ++ rest) := by
        obtain ⟨last,whole⟩ := List.dropLast_prefix pattern
        refine ⟨last ++ rest,?_⟩
        rw [List.cons_append,List.cons_append,List.append_assoc,← List.append_assoc pattern.dropLast,
          whole,List.append_assoc]
      have size : pattern.length ≤ (c::front ++ pattern.dropLast).length := by
        simp only [List.cons_append,List.length_cons,List.length_append,List.length_dropLast]
        omega
      exact absent (List.prefix_of_prefix_length_le here own size).isInfix
    rw [List.cons_append,List.cons_append,find,if_neg notHere,later]
    rfl

def isSpace (c : Char) : Bool :=
  (0x09 ≤ c.toNat ∧ c.toNat ≤ 0x0d) ∨ (0x1c ≤ c.toNat ∧ c.toNat ≤ 0x20) ∨
    [0x85,0xa0,0x1680,0x2028,0x2029,0x202f,0x205f,0x3000].contains c.toNat ∨
    (0x2000 ≤ c.toNat ∧ c.toNat ≤ 0x200a)

def strip (t : Text) : Text := ((t.dropWhile isSpace).reverse.dropWhile isSpace).reverse

theorem stripLine {t : Text} (solid : ∀ c ∈ t, isSpace c = false) : strip (t ++ ['\n']) = t := by
  have kept : ∀ {u : Text}, (∀ c ∈ u, isSpace c = false) → u.dropWhile isSpace = u := by
    intro u all
    cases u with
    | nil => rfl
    | cons c rest => exact List.dropWhile_cons_of_neg (by simp [all c List.mem_cons_self])
  have feed : isSpace '\n' = true := by decide
  cases t with
  | nil => rfl
  | cons c rest =>
    have first : ¬ isSpace c = true := by simp [solid c List.mem_cons_self]
    have back : ∀ d ∈ (c::rest).reverse, isSpace d = false :=
      fun d mem => solid d (List.mem_reverse.mp mem)
    rw [strip,List.cons_append,List.dropWhile_cons_of_neg first,← List.cons_append,
      List.reverse_append,List.reverse_singleton,List.singleton_append,
      List.dropWhile_cons_of_pos feed,kept back,List.reverse_reverse]

def hexDigit (c : Char) : Option UInt8 :=
  if 0x30 ≤ c.toNat ∧ c.toNat ≤ 0x39 then some (UInt8.ofNat (c.toNat - 0x30))
  else if 0x61 ≤ c.toNat ∧ c.toNat ≤ 0x66 then some (UInt8.ofNat (c.toNat - 0x61 + 10))
  else if 0x41 ≤ c.toNat ∧ c.toNat ≤ 0x46 then some (UInt8.ofNat (c.toNat - 0x41 + 10))
  else none

-- binascii.a2b_hex of a string; none where it raises.
def a2bHex : Text → Option Bytes
  | [] => some []
  | [_] => none
  | high::low::rest => do
      let h ← hexDigit high
      let l ← hexDigit low
      let bytes ← a2bHex rest
      some ((h <<< 4 ||| l) :: bytes)

def hexText (digit : Nat → Char) (bytes : Bytes) : Text :=
  bytes.flatMap (fun b => [digit (b.toNat / 16),digit (b.toNat % 16)])

theorem halvesByte : ∀ n < 256, UInt8.ofNat (n / 16) <<< 4 ||| UInt8.ofNat (n % 16) = UInt8.ofNat n := by
  decide +kernel

theorem a2bHexText {digit : Nat → Char} (reads : ∀ n < 16, hexDigit (digit n) = some (UInt8.ofNat n))
    (bytes : Bytes) : a2bHex (hexText digit bytes) = some bytes := by
  induction bytes with
  | nil => rfl
  | cons b rest ih =>
    have size := b.toNat_lt
    have high := reads (b.toNat / 16) (by omega)
    have low := reads (b.toNat % 16) (by omega)
    have whole := halvesByte b.toNat size
    rw [UInt8.ofNat_toNat] at whole
    have shape : hexText digit (b::rest) =
        digit (b.toNat / 16) :: digit (b.toNat % 16) :: hexText digit rest := rfl
    rw [shape,a2bHex,high,low,ih]
    exact congrArg (fun first => some (first :: rest)) whole

def replace (old new : Char) (t : Text) : Text := t.map (fun c => if c = old then new else c)

section Pieces
variable {α : Type} {piece pre middle post : List α}

theorem pieceFront (some : middle ≠ []) {front right : List α}
    (same : piece ++ right = front ++ middle ++ post) :
    middle <:+: piece ∨ piece <:+: front ++ middle.dropLast := by
  rcases List.append_eq_append_iff.mp same with ⟨gap,whole,-⟩ | ⟨gap,rfl,-⟩
  · cases gap with
    | nil =>
      rw [List.append_nil] at whole
      exact .inl (whole ▸ List.infix_append_right)
    | cons c gap =>
      refine .inr ?_
      rw [← List.dropLast_append_of_ne_nil some,whole,
        List.dropLast_append_of_ne_nil (List.cons_ne_nil c gap)]
      exact List.infix_append_left
  · exact .inl (List.infix_append front middle gap)

theorem pieceParts (some : middle ≠ []) (inside : piece <:+: pre ++ middle ++ post) :
    middle <:+: piece ∨ piece <:+: pre ++ middle.dropLast ∨ piece <:+: middle.tail ++ post := by
  obtain ⟨left,right,same⟩ := inside
  rw [List.append_assoc,List.append_assoc] at same
  rcases List.append_eq_append_iff.mp same with ⟨gap,rfl,rest⟩ | ⟨gap,rfl,rest⟩
  · rw [← List.append_assoc] at rest
    rcases pieceFront some rest with whole | before
    · exact .inl whole
    · refine .inr (.inl ?_)
      rw [List.append_assoc]
      exact List.infix_append_of_infix_right before
  · cases gap with
    | nil =>
      rcases @pieceFront α piece middle post some [] right rest.symm with whole | before
      · exact .inl whole
      · exact .inr (.inl (List.infix_append_of_infix_right before))
    | cons c gap =>
      refine .inr (.inr ?_)
      cases middle with
      | nil => exact absurd rfl some
      | cons d middle =>
        obtain ⟨-,tails⟩ := List.cons.inj rest
        exact ⟨gap,right,by rw [List.append_assoc]; exact tails.symm⟩

theorem pieceSide {separator : α} (absent : separator ∉ piece)
    (inside : piece <:+: pre ++ separator :: post) : piece <:+: pre ∨ piece <:+: post := by
  obtain ⟨left,right,same⟩ := inside
  rw [List.append_assoc] at same
  rcases List.append_eq_append_iff.mp same with ⟨gap,rfl,rest⟩ | ⟨gap,rfl,rest⟩
  · rcases List.append_eq_append_iff.mp rest with ⟨tail,rfl,-⟩ | ⟨tail,rfl,more⟩
    · exact .inl ⟨left,tail,List.append_assoc _ _ _⟩
    · cases tail with
      | nil => exact .inl ⟨left,[],by simp⟩
      | cons c tail =>
        obtain ⟨rfl,-⟩ := List.cons.inj more
        exact absurd (List.mem_append_right gap List.mem_cons_self) absent
  · cases gap with
    | nil =>
      cases piece with
      | nil => exact .inl List.nil_infix
      | cons c piece =>
        obtain ⟨rfl,-⟩ := List.cons.inj rest
        exact absurd List.mem_cons_self absent
    | cons c gap =>
      obtain ⟨-,tails⟩ := List.cons.inj rest
      exact .inr ⟨gap,right,by rw [List.append_assoc]; exact tails.symm⟩

def clearOf [BEq α] (piece : List α) : List α → Bool
  | [] => true
  | c::rest =>
      !(c::rest).isPrefixOf piece && !piece.isPrefixOf (c::rest) && clearOf piece rest

theorem pieceBehind [BEq α] [LawfulBEq α] {front : List α} (clear : clearOf piece front = true)
    (inside : piece <:+: front ++ post) : piece <:+: post := by
  induction front with
  | nil => exact inside
  | cons c rest ih =>
    simp only [clearOf,Bool.and_eq_true,Bool.not_eq_true',← Bool.not_eq_true,
      List.isPrefixOf_iff_prefix] at clear
    obtain ⟨left,right,same⟩ := inside
    cases left with
    | nil =>
      -- The piece begins with the front itself, or ends in it.
      rcases List.append_eq_append_iff.mp same with ⟨gap,front,-⟩ | ⟨gap,front,-⟩
      · exact absurd ⟨gap,front.symm⟩ clear.1.2
      · exact absurd ⟨gap,front.symm⟩ clear.1.1
    | cons d left => exact ih clear.2 ⟨left,right,(List.cons.inj same).2⟩

theorem separatorCut {separator : α} {x y z w : List α} (same : x ++ y = z ++ separator::w) :
    (∃ gap, z = x ++ gap ∧ y = gap ++ separator::w) ∨ ∃ ahead, x = z ++ separator::ahead ∧ ahead ++ y = w := by
  rcases List.append_eq_append_iff.mp same with ⟨gap,front,back⟩ | ⟨gap,front,back⟩
  · exact .inl ⟨gap,front,back⟩
  · cases gap with
    | nil => exact .inl ⟨[],by rw [front,List.append_nil,List.append_nil],back.symm⟩
    | cons c gap =>
      obtain ⟨rfl,later⟩ := List.cons.inj back
      exact .inr ⟨gap,front,later.symm⟩

theorem separatorSplit {separator : α} {x y z w : List α} (same : x ++ separator::y = z ++ separator::w)
    (absent : separator ∉ z) (alone : separator ∉ x ∨ separator ∉ w) : x = z ∧ y = w := by
  rcases List.append_eq_append_iff.mp same with ⟨gap,rfl,rest⟩ | ⟨gap,rfl,rest⟩
  · cases gap with
    | nil => exact ⟨(List.append_nil x).symm,(List.cons.inj rest).2⟩
    | cons c gap =>
      obtain ⟨rfl,-⟩ := List.cons.inj rest
      exact absurd (List.mem_append_right x List.mem_cons_self) absent
  · cases gap with
    | nil => exact ⟨List.append_nil z,(List.cons.inj rest).2.symm⟩
    | cons c gap =>
      obtain ⟨rfl,rfl⟩ := List.cons.inj rest
      rcases alone with first | only
      · exact absurd (List.mem_append_right z List.mem_cons_self) first
      · exact absurd (List.mem_append_right gap List.mem_cons_self) only

end Pieces

end TeePa.Texts
