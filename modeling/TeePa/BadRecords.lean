import TeePa.Receiver

/-! A chunk of whole records, some of which may not be text. A record is what stands
in front of a newline byte. str.splitlines() knows more line breaks than that one, so a
record may be taken apart as well. -/
namespace TeePa.BadRecords
open Texts Receiver

def chunkOf (records : List Bytes) : Bytes := records.flatMap (fun r => r ++ [10])

def recordLog (r : Bytes) : Option Text := (decode r).bind translateAuditLog

def logged (line : Text) : Option (Text × Text) := (translateAuditLog line).map (Prod.mk line)

def translations (chunk : Bytes) : List (Text × Text) := match decode chunk with
  | none => []
  | some data => keptLines logged data

/- Each record of a known kind is translated, whole and in its place, and its translation
appended, whatever stands beside it; and what comes later is read from there. -/
structure Harmless (b : Buffers) (records : List Bytes) : Prop where
  translated : translations (chunkOf records) = (records.filterMap decode).filterMap logged
  appended : ∀ later, listenToClient b (.data (chunkOf records) :: later) =
    listenToClient ((records.filterMap recordLog).foldl appendLog b) later

def Fine (r : Bytes) : Prop := ∃ text, decode r = some text ∧ (Translatable text → BreakFree text)

theorem loggedNothing : logged [] = none := by rw [logged,translateNothing]; rfl

theorem loggedSome {line text log : Text} (found : logged line = some (text,log)) :
    line = text ∧ Translatable text := by
  obtain ⟨T,translated,same⟩ := Option.map_eq_some_iff.mp found
  obtain ⟨rfl,rfl⟩ := Prod.mk.inj same
  exact ⟨rfl,(translateSome line).mp (Option.isSome_of_eq_some translated)⟩

theorem loggedLogs (lines : List Text) :
    (lines.filterMap logged).map Prod.snd = lines.filterMap translateAuditLog := by
  have second : ∀ line, (logged line).map Prod.snd = translateAuditLog line := by
    intro line
    rw [logged,Option.map_map]
    exact Option.map_id'
  rw [List.map_filterMap]
  exact congrArg (fun keep => lines.filterMap keep) (funext second)

theorem recordKept {text : Text} (fine : Translatable text → BreakFree text) :
    keptLines logged text = (logged text).toList := by
  by_cases known : Translatable text
  · exact keptLine loggedNothing (fine known)
  · have unknown : ∀ line : Text, line <:+: text → logged line = none := by
      intro line inside
      rw [logged,translateNone.mpr (fun piece => known (translatableInfix inside piece))]
      rfl
    rw [unknown text (List.infix_refl text)]
    refine List.filterMap_eq_nil_iff.mpr (fun line mem => unknown line ?_)
    exact splitlinesInfix (fun _ => rfl) line mem

def textOf (texts : List Text) : Text := texts.flatMap (fun t => t ++ ['\n'])

theorem textsKept {texts : List Text} (fine : ∀ t ∈ texts, Translatable t → BreakFree t) :
    keptLines logged (textOf texts) = texts.filterMap logged := by
  induction texts with
  | nil => rfl
  | cons text rest ih =>
    obtain ⟨first,others⟩ := List.forall_mem_cons.mp fine
    have split : textOf (text::rest) = text ++ '\n'::textOf rest := by
      rw [textOf,List.flatMap_cons,List.append_assoc]
      rfl
    rw [split,keptNewline loggedNothing,recordKept first,ih others]
    cases kept : logged text with
    | none => rw [List.filterMap_cons_none kept]; rfl
    | some pair => rw [List.filterMap_cons_some kept]; rfl

theorem encodeRecords (texts : List Text) : encode (textOf texts) = chunkOf (texts.map encode) := by
  induction texts with
  | nil => rfl
  | cons text rest ih =>
    simp only [textOf,chunkOf,List.map_cons,List.flatMap_cons,encodeAppend] at ih ⊢
    rw [ih]
    rfl

theorem recordsText {records : List Bytes} (free : ∀ r ∈ records, 10 ∉ r) {text : Text}
    (ok : decode (chunkOf records) = some text) :
    ∃ texts : List Text, records = texts.map encode := by
  induction records generalizing text with
  | nil => exact ⟨[],rfl⟩
  | cons r rest ih =>
    have whole : encode text = r ++ 10 :: chunkOf rest := by
      rw [← decodeSource ok,chunkOf,List.flatMap_cons,List.append_assoc]
      rfl
    obtain ⟨front,back,-,record,tail⟩ := encodeCut whole (free r List.mem_cons_self)
    obtain ⟨texts,rfl⟩ := @ih (fun s mem => free s (List.mem_cons_of_mem _ mem)) back
      (by rw [tail,decodeEncode])
    exact ⟨front::texts,by rw [record,List.map_cons]⟩

theorem fineTexts {records : List Bytes} (fine : ∀ r ∈ records, Fine r) :
    ∃ texts : List Text, records = texts.map encode ∧
      ∀ t ∈ texts, Translatable t → BreakFree t := by
  induction records with
  | nil => exact ⟨[],rfl,fun _ mem => absurd mem List.not_mem_nil⟩
  | cons r rest ih =>
    obtain ⟨⟨text,ok,whole⟩,others⟩ := List.forall_mem_cons.mp fine
    obtain ⟨texts,rfl,each⟩ := ih others
    exact ⟨text::texts,by rw [decodeSource ok,List.map_cons],
      List.forall_mem_cons.mpr ⟨whole,each⟩⟩

theorem decodedTexts (texts : List Text) : (texts.map encode).filterMap decode = texts := by
  rw [List.filterMap_map,show decode ∘ encode = some from funext decodeEncode,List.filterMap_some]

theorem recordLogs (records : List Bytes) :
    records.filterMap recordLog = ((records.filterMap decode).filterMap logged).map Prod.snd := by
  rw [loggedLogs,List.filterMap_filterMap]
  rfl

theorem textMore {texts : List Text} (more : texts ≠ []) : (textOf texts).length ≠ 0 := by
  cases texts with
  | nil => exact absurd rfl more
  | cons text rest => simp [textOf]

theorem listenRecords {b : Buffers} {texts : List Text} (more : texts ≠ [])
    (fine : ∀ t ∈ texts, Translatable t → BreakFree t) : Harmless b (texts.map encode) := by
  have kept := textsKept fine
  refine ⟨?_,fun later => ?_⟩
  · rw [translations,← encodeRecords,decodeEncode,decodedTexts]
    exact kept
  · have logs : logsOf (textOf texts) = (texts.map encode).filterMap recordLog := by
      rw [recordLogs,decodedTexts,← kept]
      exact (loggedLogs _).symm
    rw [← encodeRecords,listenToClient,decodeEncode]
    simp only [if_neg (textMore more),parsedLogs,logs]

theorem harmlessAppends {b : Buffers} {records : List Bytes} (harmless : Harmless b records) :
    (listenToClient b [.data (chunkOf records)]).buffers.appended =
      b.appended ++ records.filterMap recordLog := by
  rw [harmless.appended [],listenToClient,foldedAppended]

theorem harmlessText {b : Buffers} {records : List Bytes} (free : ∀ r ∈ records, 10 ∉ r)
    (harmless : Harmless b records) : records ≠ [] ∧ ∃ texts : List Text, records = texts.map encode := by
  have stays : (listenToClient b [.data (chunkOf records)]).closed = false := by
    rw [harmless.appended []]; rfl
  rw [listenToClient] at stays
  cases ok : decode (chunkOf records) with
  | none => simp [ok] at stays
  | some text =>
    simp only [ok] at stays
    split at stays
    · contradiction
    · rename_i data
      refine ⟨fun none => ?_,recordsText free ok⟩
      rw [none] at ok
      cases Option.some.inj (ok.symm.trans decodeEmpty)
      exact data rfl

/- Each record is translated for itself exactly where all of them are text, and those of
a known kind one line each: a record that is not text costs its chunk and the
connection, one of a known kind that is several lines is translated in pieces. -/
theorem badRecordHarmless (b : Buffers) {records : List Bytes} (free : ∀ r ∈ records, 10 ∉ r) :
    Harmless b records ↔ records ≠ [] ∧ ∀ r ∈ records, Fine r := by
  constructor
  · intro harmless
    obtain ⟨more,texts,rfl⟩ := harmlessText free harmless
    refine ⟨more,List.forall_mem_map.mpr (fun t mem => ⟨t,decodeEncode t,fun known => ?_⟩)⟩
    have whole := harmless.translated
    rw [translations,← encodeRecords,decodeEncode,decodedTexts] at whole
    obtain ⟨log,translated⟩ := Option.isSome_iff_exists.mp ((translateSome t).mpr known)
    have paired : logged t = some (t,log) := by rw [logged,translated]; rfl
    have mine : (t,log) ∈ texts.filterMap logged := List.mem_filterMap.mpr ⟨t,mem,paired⟩
    rw [← whole] at mine
    obtain ⟨line,found,same⟩ := List.mem_filterMap.mp mine
    have one := splitlinesBreakFree (fun c none => absurd none List.not_mem_nil) line found
    exact (loggedSome same).1 ▸ one
  · rintro ⟨more,fine⟩
    obtain ⟨texts,rfl,each⟩ := fineTexts fine
    exact listenRecords (fun none => more (by rw [none]; rfl)) each

def goodRecord : Bytes := encode "audit(1.2:3): cwd=\"/\",node=h".toList
def unknownRecord : Bytes := encode "hel\rlo".toList

theorem badRecordHarmlessUnknown :
    (∀ r ∈ [goodRecord,unknownRecord], 10 ∉ r) ∧ Harmless noLogs [goodRecord,unknownRecord] := by
  have free : ∀ r ∈ [goodRecord,unknownRecord], 10 ∉ r := by decide
  refine ⟨free,(badRecordHarmless noLogs free).mpr ⟨by decide,?_⟩⟩
  intro r mem
  simp only [List.mem_cons,List.not_mem_nil,or_false] at mem
  rcases mem with rfl | rfl
  · exact ⟨_,decodeEncode _,fun _ => freeOfAll (by decide +kernel)⟩
  · refine ⟨_,decodeEncode _,fun known => absurd known.1 (by decide +kernel)⟩

/- A directory with a carriage return in its name: what is behind it is lost. -/
def cutRecord : Bytes := encode "audit(1.2:3): cwd=\"/a\rb\",node=h".toList

theorem badByteEnds : listenToClient noLogs [.data (chunkOf [goodRecord,[0xff]])] = ⟨noLogs,true⟩ := by
  have fails : decode (chunkOf [goodRecord,[0xff]]) = none := by decide +kernel
  rw [listenToClient,fails]

theorem cutRead : (listenToClient noLogs [.data (chunkOf [cutRecord])]).buffers.appended =
    ["audit(1.2:3): cwd=\"/a type=CWD audit(1.2:3): cwd=\"/a\n".toList] := by
  refine (listenedAppended [chunkOf [cutRecord]] noLogs).trans ?_
  decide +kernel

theorem cutWhole : recordLog cutRecord =
    some "node=h type=CWD audit(1.2:3): cwd=\"/a\rb\"\n".toList := by decide +kernel

theorem cutHarms : ¬ Harmless noLogs [cutRecord] := by
  intro harmless
  have ends := cutRead.symm.trans (harmlessAppends harmless)
  rw [List.filterMap_cons_some cutWhole] at ends
  exact absurd (List.cons.inj ends).1 (by decide +kernel)

theorem badByteLoses :
    recordLog goodRecord = some "node=h type=CWD audit(1.2:3): cwd=\"/\"\n".toList ∧
    (listenToClient noLogs [.data (chunkOf [goodRecord,[0xff]])]).buffers.appended = [] ∧
    (listenToClient noLogs [.data (chunkOf [goodRecord,[0xff]])]).closed = true ∧
    ¬ Harmless noLogs [goodRecord,[0xff]] ∧
    recordLog cutRecord = some "node=h type=CWD audit(1.2:3): cwd=\"/a\rb\"\n".toList ∧
    (listenToClient noLogs [.data (chunkOf [cutRecord])]).buffers.appended =
      ["audit(1.2:3): cwd=\"/a type=CWD audit(1.2:3): cwd=\"/a\n".toList] ∧
    ¬ Harmless noLogs [cutRecord] := by
  refine ⟨by decide +kernel,by rw [badByteEnds]; rfl,by rw [badByteEnds],fun harmless => ?_,cutWhole,
    cutRead,cutHarms⟩
  have stays : (listenToClient noLogs [.data (chunkOf [goodRecord,[0xff]])]).closed = false := by
    rw [harmless.appended []]; rfl
  rw [badByteEnds] at stays
  contradiction

end TeePa.BadRecords
