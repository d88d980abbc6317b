import TeePa.RecordKinds
import TeePa.TokenRuns

/-! From a command on the device to the flag of its task: the title the kernel
records, its way through translate_audit_log and the buffer, and the pass of
logmatch that reads it. -/
namespace TeePa.HeartbeatAnswers
open Texts Receiver RecordKinds Heartbeat

structure Secret where
  digits : Text
  some : digits ≠ []
  hex : ∀ c ∈ digits, isTokenDigit c = true

def secretOf (token : Token) : Secret := ⟨token.digits,TokenRuns.tokenSome token,token.hex⟩

def hostChar (c : Char) : Bool := c.isAlphanum || c = '-' || c = '.'

structure Host where
  name : Text
  allowed : ∀ c ∈ name, hostChar c = true

/- The command of register_task, and the one of updated_task. -/
inductive Form where
  | key
  | renew
  deriving DecidableEq, Repr

def executeCmd (secret : Secret) : Form → Text
  | .key => "ps ".toList ++ secret.digits
  | .renew => "touch /tmp/".toList ++ secret.digits ++ ";optee_example_watchdog".toList

-- The argument vector of the process the command starts.
def arguments (secret : Secret) : Form → List Text
  | .key => ["ps".toList,secret.digits]
  | .renew => ["touch".toList,"/tmp/".toList ++ secret.digits]

theorem keyForm (token : Token) : executeCmd (secretOf token) .key = keyCommand token := rfl

theorem renewForm (token : Token) : executeCmd (secretOf token) .renew = renewCommand token := rfl

def joined (args : List Text) : Text := ['\x00'].intercalate args

def upperDigit (n : Nat) : Char := (Nat.digitChar n).toUpper

-- The kernel writes a title with a NUL in it as upper-case hex.
def titleRecord (stamp : Stamp) (secret : Secret) (form : Form) (host : Host) : Record :=
  ⟨stamp,.proctitle,hexText upperDigit (encode (joined (arguments secret form))),host.name,
    fun other => nomatch other⟩

def title (secret : Secret) : Form → Text
  | .key => "ps ".toList ++ secret.digits
  | .renew => "touch /tmp/".toList ++ secret.digits

theorem titleOccurs (secret : Secret) (form : Form) : title secret form <:+: executeCmd secret form := by
  cases form with
  | key => exact List.infix_refl _
  | renew => exact List.infix_append_left

theorem digitKept {c : Char} (digit : isTokenDigit c = true) : c ≠ '\x00' := by
  rintro rfl
  exact absurd digit (by decide)

theorem replaceKept {old new : Char} {t : Text} (absent : old ∉ t) : replace old new t = t := by
  have same : t.map (fun c => if c = old then new else c) = t.map id := by
    apply List.map_congr_left
    intro c mem
    have other : c ≠ old := by
      rintro rfl
      exact absent mem
    exact if_neg other
  rw [replace,same,List.map_id]

theorem joinedPair (a b : Text) : joined [a,b] = a ++ '\x00' :: b := by
  simp [joined,List.intercalate]

theorem replacePair {a b : Text} (front : '\x00' ∉ a) (back : '\x00' ∉ b) :
    replace '\x00' ' ' (joined [a,b]) = a ++ ' ' :: b := by
  have split : replace '\x00' ' ' (a ++ '\x00' :: b) =
      replace '\x00' ' ' a ++ ' ' :: replace '\x00' ' ' b := List.map_append
  rw [joinedPair,split,replaceKept front,replaceKept back]

theorem replaceJoined (secret : Secret) (form : Form) :
    replace '\x00' ' ' (joined (arguments secret form)) = title secret form := by
  have kept : '\x00' ∉ secret.digits := fun mem => digitKept (secret.hex _ mem) rfl
  cases form with
  | key =>
    have args : arguments secret .key = ["ps".toList,secret.digits] := rfl
    have own : title secret .key = "ps ".toList ++ secret.digits := rfl
    have blank : "ps ".toList = "ps".toList ++ [' '] := by decide
    rw [args,replacePair (by decide) kept,own,blank,List.append_assoc,List.singleton_append]
  | renew =>
    have free : '\x00' ∉ "/tmp/".toList ++ secret.digits := by
      intro mem
      rcases List.mem_append.mp mem with label | digit
      · exact absurd label (by decide)
      · exact kept digit
    have args : arguments secret .renew = ["touch".toList,"/tmp/".toList ++ secret.digits] := rfl
    have own : title secret .renew = "touch /tmp/".toList ++ secret.digits := rfl
    have blank : "touch /tmp/".toList = "touch".toList ++ ' ' :: "/tmp/".toList := by decide
    rw [args,replacePair (by decide) free,own,blank,List.append_assoc,List.cons_append]

def plainChar (c : Char) : Bool := c.isAlphanum || "-.():".toList.contains c

theorem plainAscii : ∀ n < 128, plainChar (Char.ofNat n) = true →
    isLineBreak (Char.ofNat n) = false ∧ isSpace (Char.ofNat n) = false ∧
    Char.ofNat n ≠ ',' ∧ Char.ofNat n ≠ '=' := by decide +kernel

theorem alphanumSmall {c : Char} (alphanum : c.isAlphanum = true) : c.toNat < 128 := by
  have small : ∀ {high : Char}, high.toNat < 128 → c.val ≤ high.val → c.toNat < 128 :=
    fun bound below => Nat.lt_of_le_of_lt below bound
  rcases (Bool.or_eq_true _ _).mp alphanum with alpha | digit
  · rcases (Bool.or_eq_true _ _).mp alpha with upper | lower
    · exact @small 'Z' (by decide) (of_decide_eq_true upper).2
    · exact @small 'z' (by decide) (of_decide_eq_true ((Bool.and_eq_true _ _).mp lower).2)
  · exact @small '9' (by decide) (of_decide_eq_true ((Bool.and_eq_true _ _).mp digit).2)

theorem plainSmall {c : Char} (plain : plainChar c = true) : c.toNat < 128 := by
  rcases (Bool.or_eq_true _ _).mp plain with alphanum | other
  · exact alphanumSmall alphanum
  · have small : "-.():".toList.all (fun c => c.toNat < 128) = true := by decide
    exact of_decide_eq_true (List.all_eq_true.mp small c (List.contains_iff_mem.mp other))

structure Plain (c : Char) : Prop where
  noBreak : isLineBreak c = false
  solid : isSpace c = false
  noComma : c ≠ ','
  noEquals : c ≠ '='

theorem plainOf {c : Char} (plain : plainChar c = true) : Plain c := by
  have facts := plainAscii c.toNat (plainSmall plain)
  rw [Char.ofNat_toNat] at facts
  obtain ⟨noBreak,solid,noComma,noEquals⟩ := facts plain
  exact ⟨noBreak,solid,noComma,noEquals⟩

theorem hostPlain {c : Char} (allowed : hostChar c = true) : Plain c := by
  apply plainOf
  simp only [hostChar,Bool.or_eq_true,decide_eq_true_eq] at allowed
  rcases allowed with (alphanum | rfl) | rfl
  · rw [plainChar,alphanum,Bool.true_or]
  · decide
  · decide

theorem stampPlain {c : Char} (own : stampChar c = true) : Plain c := by
  apply plainOf
  rcases (Bool.or_eq_true _ _).mp own with digit | other
  · rw [plainChar,Char.isAlphanum,digit,Bool.or_true,Bool.true_or]
  · exact List.all_eq_true.mp (by decide) c (List.contains_iff_mem.mp other)

theorem upperPlain : ∀ n < 16, plainChar (upperDigit n) = true := by decide

theorem upperReads : ∀ n < 16, hexDigit (upperDigit n) = some (UInt8.ofNat n) := by decide

theorem hexPlain {bytes : Bytes} {c : Char} (mem : c ∈ hexText upperDigit bytes) : Plain c := by
  apply plainOf
  obtain ⟨b,-,digit⟩ := List.mem_flatMap.mp mem
  have size := b.toNat_lt
  simp only [List.mem_cons,List.not_mem_nil,or_false] at digit
  rcases digit with rfl | rfl
  · exact upperPlain _ (by omega)
  · exact upperPlain _ (by omega)

section Answer
variable (stamp : Stamp) (secret : Secret) (form : Form) (host : Host)

def hexTitle : Text := hexText upperDigit (encode (joined (arguments secret form)))

def body : Text := stampText stamp ++ ' ' :: (proctitle ++ hexTitle secret form)

def front (auditType : Text) : Text :=
  "node=".toList ++ host.name ++ ' ' :: ("type=".toList ++ auditType ++ ' ' :: (stampText stamp ++ [' ']))

def answerLog (auditType : Text) : Text :=
  front stamp host auditType ++ proctitle ++ (hexTitle secret form ++ ['\n'])

theorem recordSplit : recordText (titleRecord stamp secret form host) =
    body stamp secret form ++ ",node=".toList ++ host.name := by
  have comma : ",node=".toList = ',' :: "node=".toList := by decide
  have text : recordText (titleRecord stamp secret form host) = stampText stamp ++
      ' ' :: (proctitle ++ hexTitle secret form ++ ',' :: ("node=".toList ++ host.name)) := rfl
  rw [text,comma,body]
  simp only [List.append_assoc,List.cons_append]

theorem logSplit (auditType : Text) : "node=".toList ++ host.name ++ " type=".toList ++ auditType ++
    " ".toList ++ body stamp secret form ++ ['\n'] = answerLog stamp secret form host auditType := by
  have label : " type=".toList = ' ' :: "type=".toList := by decide
  have blank : " ".toList = [' '] := by decide
  have shape : answerLog stamp secret form host auditType =
      "node=".toList ++ host.name ++ ' ' :: ("type=".toList ++ auditType ++
        ' ' :: (stampText stamp ++ [' '])) ++ proctitle ++ (hexTitle secret form ++ ['\n']) := rfl
  rw [label,blank,body,shape]
  simp only [List.append_assoc,List.cons_append,List.nil_append]

theorem bodyNoComma : ',' ∉ body stamp secret form := by
  intro mem
  rcases List.mem_append.mp mem with own | mem
  · exact (stampPlain (stampChars own)).noComma rfl
  · rcases List.mem_cons.mp mem with blank | mem
    · exact absurd blank (by decide)
    · rcases List.mem_append.mp mem with label | hex
      · exact absurd label (by decide)
      · exact (hexPlain hex).noComma rfl

theorem hostNoComma : ',' ∉ host.name := fun mem => (hostPlain (host.allowed _ mem)).noComma rfl

theorem recordBreakFree : BreakFree (recordText (titleRecord stamp secret form host)) := by
  have blank : isLineBreak ' ' = false := by decide
  have title : BreakFree proctitle := freeOfAll (by decide +kernel)
  have node : BreakFree ",node=".toList := freeOfAll (by decide +kernel)
  rw [recordSplit,body]
  intro c mem
  simp only [List.mem_append,List.mem_cons] at mem
  rcases mem with ((own | rfl | label | hex) | label) | name
  · exact (stampPlain (stampChars own)).noBreak
  · exact blank
  · exact title c label
  · exact (hexPlain hex).noBreak
  · exact node c label
  · exact (hostPlain (host.allowed c name)).noBreak

def answerTypes : List Text := ["SYSCALL".toList,"PROCTITLE".toList]

/- A host name may have a keyword in it, so the type is not always the title's. -/
theorem titleSelected : ∃ auditType ∈ answerTypes,
    selectType (recordText (titleRecord stamp secret form host)) = some auditType := by
  have own : "proctitle".toList <:+: recordText (titleRecord stamp secret form host) :=
    ownOccurs (titleRecord stamp secret form host) _ rfl
  have table : auditTypes = ("syscall".toList,"SYSCALL".toList) ::
      ("proctitle".toList,"PROCTITLE".toList) :: auditTypes.drop 2 := rfl
  rw [selectType,table,selectCons,selectCons,if_pos own]
  split
  · exact ⟨_,List.mem_cons_self,rfl⟩
  · exact ⟨_,List.mem_cons_of_mem _ List.mem_cons_self,rfl⟩

theorem titleTranslated : ∃ auditType ∈ answerTypes,
    translateAuditLog (recordText (titleRecord stamp secret form host)) =
      some (answerLog stamp secret form host auditType) := by
  obtain ⟨auditType,mem,selected⟩ := titleSelected stamp secret form host
  have audit : "audit".toList <:+: body stamp secret form :=
    (stampAudit stamp).trans List.infix_append_left
  refine ⟨auditType,mem,?_⟩
  rw [recordSplit] at selected ⊢
  rw [translateNode (hostNoComma host) audit selected,
    List.splitOn_eq_singleton (bodyNoComma stamp secret form),List.headD_cons,logSplit]

theorem labelAlone {auditType : Text} (mem : auditType ∈ answerTypes) :
    ¬ proctitle <:+: front stamp host auditType ++ proctitle.dropLast := by
  have parts : front stamp host auditType = "node=".toList ++ host.name ++
      ' ' :: ("type=".toList ++ auditType ++ ' ' :: (stampText stamp ++ [' '])) := rfl
  have shape : front stamp host auditType ++ proctitle.dropLast =
      ("node=".toList ++ host.name) ++ ' ' :: (("type=".toList ++ auditType) ++
        ' ' :: (stampText stamp ++ ' ' :: proctitle.dropLast)) := by
    rw [parts]
    simp only [List.append_assoc,List.cons_append,List.nil_append]
  have noBlank : ' ' ∉ proctitle := by decide +kernel
  have equals : proctitle.all (fun c => c ≠ '=') = false := by decide +kernel
  have types : ∀ auditType ∈ answerTypes, auditType.all (fun c => c ≠ '=') = true := by
    decide +kernel
  rw [shape]
  intro inside
  rcases pieceSide noBlank inside with node | inside
  · refine awayFrom equals ?_ (pieceBehind (by decide +kernel) node)
    intro c own
    exact decide_eq_true (hostPlain (host.allowed c own)).noEquals
  · rcases pieceSide noBlank inside with label | inside
    · exact awayFrom equals (List.all_eq_true.mp (types auditType mem))
        (pieceBehind (by decide +kernel) label)
    · rcases pieceSide noBlank inside with own | short
      · refine awayFrom equals ?_ own
        intro c mem
        exact decide_eq_true (stampPlain (stampChars mem)).noEquals
      · exact absurd short.length_le (by decide +kernel)

theorem answerDecoded {auditType : Text} (mem : auditType ∈ answerTypes) :
    decodedTitle (answerLog stamp secret form host auditType) = some (title secret form) := by
  have found := findAt (hexTitle secret form ++ ['\n']) (labelAlone stamp host mem)
  have field : proctitle <:+: answerLog stamp secret form host auditType :=
    ⟨front stamp host auditType,_,rfl⟩
  have rest : (answerLog stamp secret form host auditType).drop
      ((front stamp host auditType).length + proctitle.length) = hexTitle secret form ++ ['\n'] := by
    rw [answerLog,← List.length_append,List.drop_left]
  have hex : a2bHex (strip ((answerLog stamp secret form host auditType).drop
      ((front stamp host auditType).length + proctitle.length))) =
      some (encode (joined (arguments secret form))) := by
    have line : strip (hexTitle secret form ++ ['\n']) = hexTitle secret form :=
      stripLine (fun c own => (hexPlain own).solid)
    rw [rest,line]
    exact a2bHexText upperReads _
  rw [decodedHex field found hex,replaceJoined]

theorem titleParsed : ∃ auditType ∈ answerTypes, ∀ b : Buffers,
    parseEventLog (recordText (titleRecord stamp secret form host) ++ ['\n']) b =
      appendLog b (answerLog stamp secret form host auditType) := by
  obtain ⟨auditType,mem,translated⟩ := titleTranslated stamp secret form host
  have lines := @splitlinesRecords [recordText (titleRecord stamp secret form host)]
    (List.forall_mem_singleton.mpr (recordBreakFree stamp secret form host))
  rw [List.flatMap_cons,List.flatMap_nil,List.append_nil] at lines
  refine ⟨auditType,mem,?_⟩
  intro b
  rw [parseEventLog,lines,List.foldl_cons,List.foldl_nil,parseLine,translated]

end Answer

def unflag (t : Task) : Task := {t with heartbeatCheck := false}

/- One pass of logmatch over a buffer: it ends at its guard with ten logs left, and
changes nothing of the tasks but their flags. -/
structure Pass (buffer buffer' : Deque Text 1000) (m m' : Monitor) : Prop where
  left : buffer'.items = buffer.items.drop (buffer.items.length - 10)
  created : m'.created = m.created
  onlyFlags : m'.executingTasks.map unflag = m.executingTasks.map unflag

theorem unflagAfter (titles : List Text) : unflag ∘ TokenRuns.flagBy titles = unflag := rfl

theorem examinedCreated (now : Time) (logs : List Text) (m : Monitor) :
    (logs.foldl (fun m l => examine l now m) m).created = m.created := by
  induction logs generalizing m with
  | nil => rfl
  | cons l rest ih =>
    rw [List.foldl_cons,ih,examine]
    cases decodedTitle l <;> rfl

section Logmatch
variable (now : Time) (m : Monitor) (buffer : Deque Text 1000)

def examinedLogs (buffer : Deque Text 1000) : List Text :=
  buffer.items.take (buffer.items.length - 10)

theorem passTasks : (logmatch now buffer.items.length buffer m).2.executingTasks =
    m.executingTasks.map (TokenRuns.flagBy ((examinedLogs buffer).filterMap decodedTitle)) := by
  rw [(@logmatchExamines now _ buffer m (Nat.le_add_right _ 10)).2]
  exact TokenRuns.foldedFlags id (fun _ => now) (examinedLogs buffer) m

theorem passOf : Pass buffer (logmatch now buffer.items.length buffer m).1 m
    (logmatch now buffer.items.length buffer m).2 := by
  obtain ⟨left,examined⟩ := @logmatchExamines now _ buffer m (Nat.le_add_right _ 10)
  refine ⟨left,?_,?_⟩
  · rw [examined]
    exact examinedCreated now (examinedLogs buffer) m
  · rw [passTasks,List.map_map,unflagAfter]

theorem logFlags {before after : List Text} {log title : Text}
    (place : buffer.items = before ++ log :: after) (ten : 10 ≤ after.length)
    (decoded : decodedTitle log = some title) {index : Nat} {t : Task}
    (at_ : m.executingTasks[index]? = some t) (occurs : title <:+: t.executeCmd) :
    (logmatch now buffer.items.length buffer m).2.executingTasks[index]? =
      some {t with heartbeatCheck := true} := by
  have examined : log ∈ examinedLogs buffer := by
    have size : buffer.items.length - 10 = before.length + 1 + (after.length - 10) := by
      rw [place,List.length_append,List.length_cons]
      omega
    rw [examinedLogs,size,place,List.append_cons,List.take_append]
    apply List.mem_append_left
    rw [List.take_of_length_le (by rw [List.length_append,List.length_singleton]; omega)]
    simp
  have mem : title ∈ (examinedLogs buffer).filterMap decodedTitle :=
    List.mem_filterMap.mpr ⟨log,examined,decoded⟩
  have flag : (t.heartbeatCheck || ((examinedLogs buffer).filterMap decodedTitle).any
      (fun title => title <:+: t.executeCmd)) = true := by
    rw [List.any_eq_true.mpr ⟨title,mem,decide_eq_true occurs⟩,Bool.or_true]
  rw [passTasks,List.getElem?_map,at_,Option.map_some,TokenRuns.flagBy,flag]

end Logmatch

theorem answerFlags (stamp : Stamp) (secret : Secret) (form : Form) (host : Host) :
    ∃ log, (∀ b : Buffers,
      parseEventLog (recordText (titleRecord stamp secret form host) ++ ['\n']) b = appendLog b log) ∧
    ∀ (now : Time) (m : Monitor) (buffer : Deque Text 1000) (before after : List Text),
      buffer.items = before ++ log :: after → 10 ≤ after.length →
      Pass buffer (logmatch now buffer.items.length buffer m).1 m
        (logmatch now buffer.items.length buffer m).2 ∧
      ∀ (index : Nat) (t : Task), m.executingTasks[index]? = some t →
        t.executeCmd = executeCmd secret form →
        (logmatch now buffer.items.length buffer m).2.executingTasks[index]? =
          some {t with heartbeatCheck := true} := by
  obtain ⟨auditType,mem,parsed⟩ := titleParsed stamp secret form host
  refine ⟨answerLog stamp secret form host auditType,parsed,?_⟩
  intro now m buffer before after place ten
  refine ⟨passOf now m buffer,?_⟩
  intro index t at_ command
  apply logFlags now m buffer place ten (answerDecoded stamp secret form host mem) at_
  rw [command]
  exact titleOccurs secret form

def stamp : Stamp := ⟨1,0,1⟩
def node : Host := ⟨"node".toList,List.all_eq_true.mp (by decide +kernel)⟩

theorem answerFlagsTen : ∃ (log : Text) (buffer : Deque Text 1000),
    (∀ b, parseEventLog (recordText (titleRecord stamp (secretOf zeros) .key node) ++ ['\n']) b =
      appendLog b log) ∧
    buffer.items = [[],log] ++ List.replicate 10 [] ∧
    (logmatch 5 12 buffer ⟨[⟨0,0,180,"a".toList,keyCommand ones,false⟩,
        ⟨1,1,181,"b".toList,keyCommand zeros,false⟩],2,[]⟩).2.executingTasks[1]? =
      some ⟨1,1,181,"b".toList,keyCommand zeros,true⟩ := by
  obtain ⟨log,parsed,flags⟩ := answerFlags stamp (secretOf zeros) .key node
  have fits : ([[],log] ++ List.replicate 10 [] : List Text).length ≤ 1000 := by
    simp only [List.length_append,List.length_replicate,List.length_cons,List.length_nil]
    decide
  obtain ⟨-,flagged⟩ := flags 5 ⟨[⟨0,0,180,"a".toList,keyCommand ones,false⟩,
    ⟨1,1,181,"b".toList,keyCommand zeros,false⟩],2,[]⟩ ⟨_,fits⟩ [[]] (List.replicate 10 []) rfl (by decide)
  exact ⟨log,⟨_,fits⟩,parsed,rfl,flagged 1 _ rfl (keyForm zeros).symm⟩

end TeePa.HeartbeatAnswers
