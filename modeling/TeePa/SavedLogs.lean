import TeePa.Receiver
import TeePa.Runs

/-! The files save_audit_log leaves behind. One file holds what is saved in one
hour of the clock; opening it for writing drops what it held. Nothing is assumed
about the order of the times at which the timer fires. -/
namespace TeePa.SavedLogs
open Texts Receiver Runs

structure Hour where
  year : Nat
  month : Nat
  day : Nat
  hour : Nat
  monthOk : month ≤ 12
  dayOk : day ≤ 31
  hourOk : hour ≤ 23
  deriving DecidableEq, Repr

-- %m, %d and %H.
def twoDigits (n : Nat) : Text := [Nat.digitChar (n / 10),Nat.digitChar (n % 10)]

def saveAuditLogName (now : Hour) : Text :=
  ["TEST_".toList,twoDigits now.month,".".toList,twoDigits now.day,".".toList,
    Nat.toDigits 10 now.year,"-".toList,twoDigits now.hour,".log".toList].flatten

def stamp (t : Hour) : Nat := ((t.year * 13 + t.month) * 32 + t.day) * 24 + t.hour

abbrev Files := Text → Option Text

/- open(name,"w") and one write: what the file held before is gone. -/
def openWrite (name temp : Text) (files : Files) : Files :=
  fun other => if other = name then some temp else files other

/- The inner loop; every round takes a log, so the count bounds the rounds. -/
def takeOut : Nat → Text → Deque Text 1000 → Text × Deque Text 1000
  | 0, temp, auditBuffer => (temp,auditBuffer)
  | fuel+1, temp, auditBuffer =>
      if auditBuffer.items.length > 10 then match auditBuffer.popleft with
        | none => (temp,auditBuffer)
        | some (auditLog,rest) => takeOut fuel (temp ++ auditLog) rest
      else (temp,auditBuffer)

def saveAuditLog (now : Hour) (auditBuffer : Deque Text 1000) (files : Files) :
    Deque Text 1000 × Files :=
  if auditBuffer.items.length > 5 then
    let taken := takeOut auditBuffer.items.length [] auditBuffer
    (taken.2,openWrite (saveAuditLogName now) taken.1 files)
  else (auditBuffer,files)

theorem takenOut {fuel : Nat} {temp : Text} {auditBuffer : Deque Text 1000}
    (enough : auditBuffer.items.length ≤ fuel + 10) :
    (takeOut fuel temp auditBuffer).1 =
      temp ++ (auditBuffer.items.take (auditBuffer.items.length - 10)).flatten ∧
    (takeOut fuel temp auditBuffer).2.items =
      auditBuffer.items.drop (auditBuffer.items.length - 10) := by
  have passes := @Deque.drained Text 1000 Text 10 takeOut (· ++ ·) (fun _ _ => rfl)
    (fun fuel temp auditBuffer few => by rw [takeOut,if_neg few])
    (fun fuel temp auditBuffer l rest more popped => by rw [takeOut,if_pos more,popped])
    fuel temp auditBuffer enough
  have joined := @List.foldl_append_eq_append _ _
    (auditBuffer.items.take (auditBuffer.items.length - 10)) id temp
  rw [List.map_id] at joined
  exact ⟨passes.1.trans joined,passes.2⟩

section Names

theorem twoDigitsRead {n : Nat} (small : n < 100) : Nat.ofDigitChars 10 (twoDigits n) 0 = n := by
  rw [twoDigits,Nat.ofDigitChars_cons_digitChar_of_lt_ten (by omega),
    Nat.ofDigitChars_cons_digitChar_of_lt_ten (by omega),Nat.ofDigitChars_nil]
  omega

theorem twoDigitsSame {m n : Nat} (small : m < 100) (small' : n < 100)
    (same : twoDigits m = twoDigits n) : m = n := by
  rw [← twoDigitsRead small,same,twoDigitsRead small']

theorem twoDigitsLength (n : Nat) : (twoDigits n).length = 2 := rfl

theorem sameHour {t now : Hour} (year : t.year = now.year) (month : t.month = now.month)
    (day : t.day = now.day) (hour : t.hour = now.hour) : t = now := by
  cases t
  cases now
  simp_all

theorem nameParts (t : Hour) : saveAuditLogName t =
    "TEST_".toList ++ (twoDigits t.month ++ (".".toList ++ (twoDigits t.day ++ (".".toList ++
      (Nat.toDigits 10 t.year ++ ("-".toList ++ (twoDigits t.hour ++ ".log".toList))))))) := rfl

/- Every field but the year has a fixed width. -/
theorem nameSame {t now : Hour} (same : saveAuditLogName t = saveAuditLogName now) : t = now := by
  rw [nameParts,nameParts] at same
  obtain ⟨months,afterMonth⟩ := List.append_inj (List.append_cancel_left same)
    (by simp only [twoDigitsLength])
  obtain ⟨days,afterDay⟩ := List.append_inj (List.append_cancel_left afterMonth)
    (by simp only [twoDigitsLength])
  obtain ⟨years,afterYear⟩ := List.append_inj' (List.append_cancel_left afterDay)
    (by simp only [List.length_append,twoDigitsLength])
  have hours := List.append_cancel_right (List.append_cancel_left afterYear)
  have bounds := t.hourOk
  have bounds' := now.hourOk
  refine sameHour ?_ ?_ ?_ (twoDigitsSame (by omega) (by omega) hours)
  · rw [← Nat.ofDigitChars_ten_toDigits (n := t.year),years,Nat.ofDigitChars_ten_toDigits]
  · exact twoDigitsSame (Nat.lt_of_le_of_lt t.monthOk (by decide))
      (Nat.lt_of_le_of_lt now.monthOk (by decide)) months
  · exact twoDigitsSame (Nat.lt_of_le_of_lt t.dayOk (by decide))
      (Nat.lt_of_le_of_lt now.dayOk (by decide)) days

theorem stampSame {t now : Hour} (same : stamp t = stamp now) : t = now := by
  simp only [stamp] at same
  have bounds := And.intro t.monthOk (And.intro t.dayOk t.hourOk)
  have bounds' := And.intro now.monthOk (And.intro now.dayOk now.hourOk)
  exact sameHour (by omega) (by omega) (by omega) (by omega)

end Names

structure Listed (files : Files) (hours : List Hour) : Prop where
  sorted : hours.Pairwise (fun t u => stamp t < stamp u)
  complete : ∀ t, t ∈ hours ↔ (files (saveAuditLogName t)).isSome

def contentOf (files : Files) (t : Hour) : Text := (files (saveAuditLogName t)).getD []

def contentsOf (files : Files) (hours : List Hour) : Text := hours.flatMap (contentOf files)

structure System where
  buffers : Buffers
  files : Files

inductive Action where
  | parse (data : Text)
  | save (now : Hour)
  deriving DecidableEq, Repr

def start : System := ⟨noLogs,fun _ => none⟩

def saved (now : Hour) (s : System) : System :=
  let result := saveAuditLog now s.buffers.auditBuffer s.files
  ⟨{s.buffers with auditBuffer := result.1},result.2⟩

def step (s : System) : Action → Option System
  | .parse data => some {s with buffers := parseEventLog data s.buffers}
  | .save now => some (saved now s)

def Kept (s : System) : Prop :=
  ∃ hours, Listed s.files hours ∧ ∃ logs, contentsOf s.files hours = logs.flatten ∧
    logs ++ s.buffers.auditBuffer.items = s.buffers.appended

def Room (s : System) : Action → Prop
  | .parse data => s.buffers.auditBuffer.items.length + (logsOf data).length < 1000
  | .save _ => True

/- A call that opens its file finds nothing in it, and nothing in the file of a
later hour where it takes logs out. -/
def Fresh (s : System) : Action → Prop
  | .parse _ => True
  | .save now =>
      (5 < s.buffers.auditBuffer.items.length → contentOf s.files now = []) ∧
      (10 < s.buffers.auditBuffer.items.length →
        ∀ later, stamp now < stamp later → contentOf s.files later = [])

theorem startKept : Kept start :=
  ⟨[],⟨.nil,fun t => by simp [start]⟩,[],rfl,rfl⟩

theorem contentWritten (files : Files) (now : Hour) (temp : Text) (t : Hour) :
    contentOf (openWrite (saveAuditLogName now) temp files) t =
      if t = now then temp else contentOf files t := by
  unfold contentOf openWrite
  by_cases same : t = now
  · simp [same]
  · rw [if_neg (fun names => same (nameSame names)),if_neg same]

theorem contentsElsewhere {files : Files} {now : Hour} (temp : Text) {hours : List Hour}
    (other : now ∉ hours) :
    contentsOf (openWrite (saveAuditLogName now) temp files) hours = contentsOf files hours := by
  unfold contentsOf
  rw [List.flatMap_def,List.flatMap_def]
  congr 1
  apply List.map_congr_left
  intro t mem
  have different : t ≠ now := fun same => other (same ▸ mem)
  rw [contentWritten,if_neg different]

theorem hoursAround (now : Hour) {hours : List Hour}
    (sorted : hours.Pairwise (fun t u => stamp t < stamp u)) :
    ∃ early own late, hours = early ++ own ++ late ∧ (∀ t ∈ early, stamp t < stamp now) ∧
      (own = [] ∨ own = [now]) ∧ ∀ t ∈ late, stamp now < stamp t := by
  induction hours with
  | nil => exact ⟨[],[],[],rfl,by simp,.inl rfl,by simp⟩
  | cons t rest ih =>
    obtain ⟨first,tail⟩ := List.pairwise_cons.mp sorted
    rcases Nat.lt_trichotomy (stamp t) (stamp now) with before | same | after
    · obtain ⟨early,own,late,rfl,earlier,middle,later⟩ := ih tail
      refine ⟨t::early,own,late,rfl,?_,middle,later⟩
      intro u mem
      rcases List.mem_cons.mp mem with rfl | inside
      · exact before
      · exact earlier u inside
    · cases stampSame same
      exact ⟨[],[now],rest,rfl,by simp,.inr rfl,first⟩
    · refine ⟨[],[],t::rest,rfl,by simp,.inl rfl,?_⟩
      intro u mem
      rcases List.mem_cons.mp mem with rfl | inside
      · exact after
      · exact Nat.lt_trans after (first u inside)

theorem listedOnce {files : Files} {hours hours' : List Hour} (h : Listed files hours)
    (h' : Listed files hours') : hours = hours' := by
  have distinct : ∀ {l : List Hour}, l.Pairwise (fun t u => stamp t < stamp u) → l.Nodup := by
    intro l sorted
    refine sorted.imp ?_
    rintro t u before rfl
    exact Nat.lt_irrefl _ before
  have perm : hours.Perm hours' :=
    (List.perm_ext_iff_of_nodup (distinct h.sorted) (distinct h'.sorted)).mpr
      (fun t => (h.complete t).trans (h'.complete t).symm)
  exact List.Perm.eq_of_pairwise
    (fun t u _ _ before after => absurd (Nat.lt_trans before after) (Nat.lt_irrefl _))
    h.sorted h'.sorted perm

section Save
variable {s : System} {now : Hour}

theorem savedFew (few : ¬ 5 < s.buffers.auditBuffer.items.length) : saved now s = s := by
  rw [saved,saveAuditLog,if_neg few]

theorem savedMany (more : 5 < s.buffers.auditBuffer.items.length) :
    (saved now s).files = openWrite (saveAuditLogName now)
      (s.buffers.auditBuffer.items.take (s.buffers.auditBuffer.items.length - 10)).flatten s.files ∧
    (saved now s).buffers.auditBuffer.items =
      s.buffers.auditBuffer.items.drop (s.buffers.auditBuffer.items.length - 10) ∧
    (saved now s).buffers.appended = s.buffers.appended := by
  obtain ⟨temp,rest⟩ := @takenOut s.buffers.auditBuffer.items.length [] s.buffers.auditBuffer
    (Nat.le_add_right _ _)
  simp only [saved,saveAuditLog,if_pos more,temp,rest,List.nil_append,and_self]

theorem writtenListed {files : Files} {early own late : List Hour} (temp : Text)
    (listed : Listed files (early ++ own ++ late)) (earlier : ∀ t ∈ early, stamp t < stamp now)
    (middle : own = [] ∨ own = [now]) (later : ∀ t ∈ late, stamp now < stamp t) :
    Listed (openWrite (saveAuditLogName now) temp files) (early ++ [now] ++ late) := by
  obtain ⟨fronts,lates,before⟩ := List.pairwise_append.mp listed.sorted
  have earlies := (List.pairwise_append.mp fronts).1
  refine ⟨?_,?_⟩
  · refine List.pairwise_append.mpr ⟨?_,lates,?_⟩
    · refine List.pairwise_append.mpr ⟨earlies,List.pairwise_singleton _ _,?_⟩
      intro t mem u only
      exact List.mem_singleton.mp only ▸ earlier t mem
    · intro t mem u mem'
      rcases List.mem_append.mp mem with inside | only
      · exact before t (List.mem_append_left _ inside) u mem'
      · exact List.mem_singleton.mp only ▸ later u mem'
  · intro t
    by_cases same : t = now
    · simp [openWrite,same]
    · have names : saveAuditLogName t ≠ saveAuditLogName now := fun h => same (nameSame h)
      have absent : t ∉ own := by
        rcases middle with rfl | rfl
        · exact List.not_mem_nil
        · exact fun mem => same (List.mem_singleton.mp mem)
      rw [openWrite,if_neg names,← listed.complete]
      simp [same,absent]

theorem contentsAround {files : Files} {early own late : List Hour} :
    contentsOf files (early ++ own ++ late) =
      contentsOf files early ++ contentsOf files own ++ contentsOf files late := by
  simp only [contentsOf,List.flatMap_append]

theorem writtenAround {files : Files} {early late : List Hour} (temp : Text)
    (earlier : ∀ t ∈ early, stamp t < stamp now) (later : ∀ t ∈ late, stamp now < stamp t) :
    contentsOf (openWrite (saveAuditLogName now) temp files) (early ++ [now] ++ late) =
      contentsOf files early ++ temp ++ contentsOf files late := by
  have own : contentsOf (openWrite (saveAuditLogName now) temp files) [now] = temp := by
    simp [contentsOf,contentWritten]
  rw [contentsAround,own,
    contentsElsewhere temp (fun mem => Nat.lt_irrefl _ (earlier now mem)),
    contentsElsewhere temp (fun mem => Nat.lt_irrefl _ (later now mem))]

theorem saveKept (h : Kept s) (fresh : Fresh s (.save now)) : Kept (saved now s) := by
  by_cases more : 5 < s.buffers.auditBuffer.items.length
  · obtain ⟨hours,listed,logs,files,whole⟩ := h
    obtain ⟨early,own,late,rfl,earlier,middle,later⟩ := hoursAround now listed.sorted
    obtain ⟨opened,left,history⟩ := @savedMany s now more
    have ownEmpty : contentsOf s.files own = [] := by
      rcases middle with rfl | rfl
      · rfl
      · simp [contentsOf,fresh.1 more]
    -- either nothing is taken out, or the files behind this hour hold nothing
    have order : ∀ temp : Text,
        temp = (s.buffers.auditBuffer.items.take (s.buffers.auditBuffer.items.length - 10)).flatten →
        temp ++ contentsOf s.files late = contentsOf s.files late ++ temp := by
      intro temp taken
      by_cases full : 10 < s.buffers.auditBuffer.items.length
      · have lateEmpty : contentsOf s.files late = [] :=
          List.flatMap_eq_nil_iff.mpr (fun t mem => fresh.2 full t (later t mem))
        rw [lateEmpty,List.append_nil,List.nil_append]
      · have nothing : temp = [] := by
          rw [taken,show s.buffers.auditBuffer.items.length - 10 = 0 by omega]
          rfl
        rw [nothing,List.append_nil,List.nil_append]
    refine ⟨early ++ [now] ++ late,opened ▸ writtenListed _ listed earlier middle later,
      logs ++ s.buffers.auditBuffer.items.take (s.buffers.auditBuffer.items.length - 10),?_,?_⟩
    · rw [contentsAround,ownEmpty,List.append_nil] at files
      rw [opened,writtenAround _ earlier later,List.append_assoc,order _ rfl,← List.append_assoc,
        files,List.flatten_append]
    · rw [left,history,List.append_assoc,List.take_append_drop,whole]
  · rw [savedFew more]
    exact h

theorem overwriteLoses (h : Kept s) (more : 5 < s.buffers.auditBuffer.items.length)
    (content : contentOf s.files now ≠ []) : ¬ Kept (saved now s) := by
  rintro ⟨hours',listed',logs',files',whole'⟩
  obtain ⟨hours,listed,logs,files,whole⟩ := h
  obtain ⟨early,own,late,rfl,earlier,middle,later⟩ := hoursAround now listed.sorted
  obtain ⟨opened,left,history⟩ := @savedMany s now more
  have present : own = [now] := by
    rcases middle with rfl | own
    · have file : (s.files (saveAuditLogName now)).isSome := by
        cases found : s.files (saveAuditLogName now) with
        | none => exact absurd (by simp [contentOf,found]) content
        | some text => rfl
      have mem := (listed.complete now).mpr file
      simp only [List.append_nil,List.mem_append] at mem
      rcases mem with inside | inside
      · exact absurd (earlier now inside) (Nat.lt_irrefl _)
      · exact absurd (later now inside) (Nat.lt_irrefl _)
    · exact own
  cases present
  cases listedOnce listed' (opened ▸ writtenListed _ listed earlier middle later)
  rw [opened,writtenAround _ earlier later] at files'
  rw [contentsAround] at files
  rw [left,history] at whole'
  -- the characters in files and buffer no longer add up to those received
  have split : s.buffers.auditBuffer.items.flatten =
      (s.buffers.auditBuffer.items.take (s.buffers.auditBuffer.items.length - 10)).flatten ++
      (s.buffers.auditBuffer.items.drop (s.buffers.auditBuffer.items.length - 10)).flatten := by
    rw [← List.flatten_append,List.take_append_drop]
  have size := congrArg List.length split
  have before := congrArg (fun l => l.flatten.length) whole
  have after := congrArg (fun l => l.flatten.length) whole'
  have saved := congrArg List.length files
  have saved' := congrArg List.length files'
  have own : contentsOf s.files [now] = contentOf s.files now := by simp [contentsOf]
  simp only [List.flatten_append,List.length_append,own] at size before after saved saved'
  exact content (List.eq_nil_of_length_eq_zero (by omega))

end Save

theorem parseKept {s : System} (h : Kept s) {data : Text} (room : Room s (.parse data)) :
    Kept {s with buffers := parseEventLog data s.buffers} := by
  obtain ⟨hours,listed,logs,files,whole⟩ := h
  refine ⟨hours,listed,logs,files,?_⟩
  rw [parsedLogs,(foldedBuffers _ _).1,foldedAppended,
    Deque.appendedItems _ (Nat.le_of_lt room),← List.append_assoc,whole]

theorem savedLogsKept {actions : List Action} {s : System}
    (run : Run (Restrict (fun s a => Room s a ∧ Fresh s a) (Of step)) start actions s) :
    Kept s := by
  refine invariant ?_ run startKept
  rintro s action t kept ⟨⟨room,fresh⟩,moved⟩
  cases action with
  | parse data => cases Option.some.inj moved; exact parseKept kept room
  | save now => cases Option.some.inj moved; exact saveKept kept fresh

def elevenRecords : Text :=
  (List.replicate 11 "audit(1.2:3): cwd=\"/\",node=h\n".toList).flatten

def nine : Hour := ⟨2024,5,1,9,by decide,by decide,by decide⟩
def ten : Hour := ⟨2024,5,1,10,by decide,by decide,by decide⟩

def parsed : System := ⟨parseEventLog elevenRecords noLogs,fun _ => none⟩

theorem elevenLogs : (logsOf elevenRecords).length = 11 := by decide +kernel

theorem parsedRoom : Room start (.parse elevenRecords) := by
  rw [Room,elevenLogs]
  decide

theorem nineFresh : Fresh parsed (.save nine) := ⟨fun _ => rfl,fun _ _ _ => rfl⟩

theorem tenFresh : Fresh (saved nine parsed) (.save ten) := by
  have more : 5 < parsed.buffers.auditBuffer.items.length := by decide +kernel
  have later : ∀ t, stamp nine < stamp t → contentOf (saved nine parsed).files t = [] := by
    rintro t after
    have different : t ≠ nine := by
      rintro rfl
      exact Nat.lt_irrefl _ after
    rw [(savedMany more).1,contentWritten,if_neg different]
    rfl
  exact ⟨fun _ => later ten (by decide),fun _ t after => later t (Nat.lt_trans (by decide) after)⟩

theorem savedLogsKeptHours :
    ∃ s, Run (Restrict (fun s a => Room s a ∧ Fresh s a) (Of step)) start
      [.parse elevenRecords,.save nine,.save ten] s ∧ Kept s := by
  have run : Run (Restrict (fun s a => Room s a ∧ Fresh s a) (Of step)) start
      [.parse elevenRecords,.save nine,.save ten] (saved ten (saved nine parsed)) :=
    .cons ⟨⟨parsedRoom,trivial⟩,rfl⟩ (.cons ⟨⟨trivial,nineFresh⟩,rfl⟩
      (.cons ⟨⟨trivial,tenFresh⟩,rfl⟩ (.nil _)))
  exact ⟨_,run,savedLogsKept run⟩

theorem sameHourLoses : ∃ s, Run (Restrict Room (Of step)) start
      [.parse elevenRecords,.save nine,.save nine] s ∧ ¬ Kept s := by
  have first : Kept (saved nine parsed) := saveKept (parseKept startKept parsedRoom) nineFresh
  refine ⟨saved nine (saved nine parsed),?_,overwriteLoses first ?_ ?_⟩
  · exact .cons ⟨parsedRoom,rfl⟩ (.cons ⟨trivial,rfl⟩ (.cons ⟨trivial,rfl⟩ (.nil _)))
  · decide +kernel
  · decide +kernel

end TeePa.SavedLogs
