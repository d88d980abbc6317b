import TeePa.Receiver

/-! One stream of records, and the ways in which recv may return it. The chunks
of a connection are whatever TCP makes of it; `listenToClient` decodes and splits
each of them by itself. -/
namespace TeePa.Segmentation
open Texts Receiver

def SegmentsOf (stream : Bytes) (chunks : List Bytes) : Prop :=
  chunks.flatten = stream ∧ ∀ chunk ∈ chunks, chunk ≠ [] ∧ chunk.length ≤ 26000

theorem linesNone {data : Text} (quiet : ∀ line ∈ splitlines data, ¬ Translatable line) :
    logsOf data = [] :=
  List.filterMap_eq_nil_iff.mpr (fun line mem => translateNone.mpr (quiet line mem))

theorem linesQuiet {data : Text} (none : logsOf data = []) :
    ∀ line ∈ splitlines data, ¬ Translatable line := fun line mem =>
  translateNone.mp (List.filterMap_eq_nil_iff.mp none line mem)

theorem translatableLength {line : Text} (h : Translatable line) : 5 ≤ line.length :=
  h.1.length_le

theorem pieceQuiet {before data after : Text}
    (quiet : ∀ line ∈ splitlines (before ++ data ++ after), ¬ Translatable line) :
    ∀ line ∈ splitlines data, ¬ Translatable line := by
  intro line mem translatable
  have free : BreakFree line := splitlinesBreakFree (by intro c none; simp at none) line mem
  have inside : line <:+: data := splitlinesInfix (by simp) line mem
  obtain ⟨front,back,rfl⟩ := inside
  have some : line ≠ [] := by
    rintro rfl
    exact absurd (translatableLength translatable) (by decide)
  have place : before ++ (front ++ line ++ back) ++ after =
      (before ++ front) ++ line ++ (back ++ after) := by simp
  obtain ⟨whole,found,piece⟩ := pieceInLine free some
  exact quiet whole (place ▸ found) (translatableInfix piece translatable)

theorem quietChunks {chunks : List Bytes} {before after : Text}
    (same : chunks.flatten = encode after)
    (quiet : ∀ line ∈ splitlines (before ++ after), ¬ Translatable line) :
    chunkLogs chunks = [] := by
  induction chunks generalizing before after with
  | nil => rfl
  | cons chunk rest ih =>
    rw [chunkLogs]
    cases decoded : decode chunk with
    | none => rfl
    | some data =>
      dsimp only
      split
      · rfl
      · rw [List.flatten_cons,decodeSource decoded] at same
        obtain ⟨tail,rfl,later⟩ := encodePrefix same
        rw [← List.append_assoc] at quiet
        rw [linesNone (pieceQuiet quiet),ih later quiet]; rfl

theorem shortQuiet {data : Text} (short : data.length < 5) : logsOf data = [] := by
  apply linesNone
  intro line mem translatable
  have inside : line <:+: data := splitlinesInfix (by simp) line mem
  have long := translatableLength translatable
  have bound := inside.length_le
  omega

def singles (stream : Bytes) : List Bytes := stream.map (fun byte => [byte])

theorem singlesSegment (stream : Bytes) : SegmentsOf stream (singles stream) := by
  constructor
  · induction stream with
    | nil => rfl
    | cons byte rest ih => exact congrArg (byte :: ·) ih
  · intro chunk mem
    obtain ⟨byte,-,rfl⟩ := List.mem_map.mp mem
    simp

theorem singlesLogs (stream : Bytes) : chunkLogs (singles stream) = [] := by
  induction stream with
  | nil => rfl
  | cons byte rest ih =>
    rw [singles,List.map_cons,chunkLogs]
    cases decoded : decode [byte] with
    | none => rfl
    | some data =>
      dsimp only
      split
      · rfl
      · have bound := encodeLength data
        rw [← decodeSource decoded] at bound
        have short : data.length < 5 := by
          simp only [List.length_cons,List.length_nil] at bound; omega
        rw [shortQuiet short]
        exact ih

/- A cut is harmless next to a line break, and inside a line that gives no log. -/
def CutWhole (before after : Text) : Prop :=
  pending before = [] ∨ upcoming after = [] ∨ ¬ Translatable (pending before ++ upcoming after)

/- Every cut is harmless, up to where nothing translatable is left. From a chunk
that does not decode on, nothing is read. -/
inductive LinesWhole : List Bytes → Text → Prop where
  | quiet {chunks stream} (none : ∀ line ∈ splitlines stream, ¬ Translatable line) :
      LinesWhole chunks stream
  | chunk {t chunks stream} (some : t ≠ []) (whole : CutWhole t stream)
      (later : LinesWhole chunks stream) : LinesWhole (encode t :: chunks) (t ++ stream)

theorem cutWholeLogs {before after : Text} (whole : CutWhole before after) :
    logsOf (before ++ after) = logsOf before ++ logsOf after := by
  obtain ⟨first,last,left,right,both⟩ := keptCut translateNothing before after
  simp only [logsOf,left,right,both]
  rcases whole with none | none | quiet
  · simp [none,translateNothing]
  · simp [none,translateNothing]
  · have front : ¬ Translatable (pending before) :=
      fun h => quiet (translatableInfix List.infix_append_left h)
    have back : ¬ Translatable (upcoming after) :=
      fun h => quiet (translatableInfix List.infix_append_right h)
    simp [translateNone.mpr quiet,translateNone.mpr front,translateNone.mpr back]

theorem wholeLogs {chunks stream} (whole : LinesWhole chunks stream)
    (same : chunks.flatten = encode stream) : chunkLogs chunks = logsOf stream := by
  induction whole with
  | quiet none => rw [linesNone none]; exact @quietChunks _ [] _ same none
  | chunk some cut later ih =>
    rename_i t chunks stream
    have full : t.length ≠ 0 := fun none => some (List.eq_nil_of_length_eq_zero none)
    rw [List.flatten_cons,encodeAppend] at same
    rw [chunkLogs,decodeEncode]
    dsimp only
    rw [if_neg full,ih (List.append_cancel_left same),cutWholeLogs cut]

/- A record whose suffix is the only place with a comma or 'node='. -/
structure PlainRecord where
  body : Text
  host : Text
  bodyComma : ',' ∉ body
  bodyNode : ¬ "node=".toList <:+: body
  hostComma : ',' ∉ host
  hostSpace : ' ' ∉ host
  breakFree : BreakFree (body ++ host)

def PlainRecord.text (r : PlainRecord) : Text := r.body ++ ",node=".toList ++ r.host

def recordStream (records : List PlainRecord) : Text := records.flatMap (fun r => r.text ++ ['\n'])

def recordLogs (records : List PlainRecord) : List Text :=
  records.filterMap (fun r => translateAuditLog r.text)

theorem recordLogsAppend (a b : List PlainRecord) :
    recordLogs (a ++ b) = recordLogs a ++ recordLogs b := List.filterMap_append

theorem recordLogsCons (r : PlainRecord) (records : List PlainRecord) :
    recordLogs (r::records) = (translateAuditLog r.text).toList ++ recordLogs records := by
  cases given : translateAuditLog r.text <;> simp [recordLogs,given]

theorem textFree (r : PlainRecord) : BreakFree r.text := by
  intro c mem
  have label : BreakFree ",node=".toList := freeOfAll (by decide)
  rcases List.mem_append.mp mem with front | host
  · rcases List.mem_append.mp front with body | suffix
    · exact r.breakFree c (List.mem_append_left _ body)
    · exact label c suffix
  · exact r.breakFree c (List.mem_append_right _ host)

theorem translateShape {line log : Text} (given : translateAuditLog line = some log) :
    "audit".toList <:+: line ∧ ∃ entry ∈ auditTypes,
      log = (line.splitOn ',').getLastD [] ++ ' '::("type=".toList ++
        (entry.2 ++ ' '::((line.splitOn ',').headD [] ++ ['\n']))) := by
  rw [translateSelected,selectType,selectFrom] at given
  cases found : auditTypes.find? (fun entry => entry.1 <:+: line) with
  | none => simp [found] at given
  | some entry =>
    rw [found,Option.map_some,Option.bind_some,formatAuditMsg] at given
    split at given
    · contradiction
    · rename_i audit
      refine ⟨Decidable.not_not.mp audit,entry,List.mem_of_find?_eq_some found,?_⟩
      rw [← Option.some.inj given]
      simp

theorem typeSpace : ∀ entry ∈ auditTypes, ' ' ∉ entry.2 := by decide +kernel

theorem logParts {node node' t t' body body' : Text} (space : ' ' ∉ node) (space' : ' ' ∉ node')
    (typed : ' ' ∉ t) (typed' : ' ' ∉ t')
    (same : node ++ ' '::("type=".toList ++ (t ++ ' '::(body ++ ['\n']))) =
      node' ++ ' '::("type=".toList ++ (t' ++ ' '::(body' ++ ['\n'])))) :
    node = node' ∧ body = body' := by
  obtain ⟨nodes,rest⟩ := separatorSplit same space' (.inl space)
  obtain ⟨-,bodies⟩ := separatorSplit (List.append_cancel_left rest) typed' (.inl typed)
  exact ⟨nodes,List.append_cancel_right bodies⟩

theorem plainEcho (r : PlainRecord) {piece log : Text} (inside : piece <:+: r.text)
    (given : translateAuditLog r.text = some log) (echoed : translateAuditLog piece = some log) :
    piece = r.text := by
  have label : ',' ∉ "node=".toList ++ r.host := by
    intro mem
    rcases List.mem_append.mp mem with node | host
    · exact absurd node (by decide)
    · exact r.hostComma host
  have space : ' ' ∉ "node=".toList ++ r.host := by
    intro mem
    rcases List.mem_append.mp mem with node | host
    · exact absurd node (by decide)
    · exact r.hostSpace host
  have shape : r.text = r.body ++ ',' :: ("node=".toList ++ r.host) := by simp [PlainRecord.text]
  have fields : r.text.splitOn ',' = [r.body,"node=".toList ++ r.host] := by
    rw [PlainRecord.text,splitNode r.body r.hostComma,List.splitOn_eq_singleton r.bodyComma]
    rfl
  obtain ⟨-,entry,mem,written⟩ := translateShape given
  obtain ⟨audit,entry',mem',same⟩ := translateShape echoed
  rw [written,fields] at same
  have typed := typeSpace entry mem
  have typed' := typeSpace entry' mem'
  rw [shape] at inside
  by_cases comma : ',' ∈ piece
  · obtain ⟨u,v,rfl,-⟩ := List.eq_append_cons_of_mem comma
    obtain ⟨left,right,whole⟩ := inside
    have place : (left ++ u) ++ ',' :: (v ++ right) =
        r.body ++ ',' :: ("node=".toList ++ r.host) := by
      rw [← whole]; simp
    obtain ⟨bodies,nodes⟩ := separatorSplit place r.bodyComma (.inr label)
    have freeU : ',' ∉ u := fun mem => r.bodyComma (bodies ▸ List.mem_append_right left mem)
    have freeV : ',' ∉ v := fun mem => label (nodes ▸ List.mem_append_left right mem)
    have spaceV : ' ' ∉ v := fun mem => space (nodes ▸ List.mem_append_left right mem)
    rw [List.splitOn_append_cons_self_of_not_mem freeU,List.splitOn_eq_singleton freeV] at same
    obtain ⟨node,body⟩ := logParts space spaceV typed typed' same
    rw [shape,node,show r.body = u from body]
  · rw [List.splitOn_eq_singleton comma] at same
    rcases pieceSide comma inside with inBody | inNode
    · have whole : ("node=".toList ++ r.host) ++ _ = piece ++ _ := same
      rw [List.append_assoc] at whole
      have sizes : "node=".toList.length = "audit".toList.length := by decide
      have front : "node=".toList <+: piece :=
        List.prefix_of_prefix_length_le ⟨_,whole⟩ (List.prefix_append piece _)
          (Nat.le_trans (Nat.le_of_eq sizes) audit.length_le)
      exact absurd (front.isInfix.trans inBody) r.bodyNode
    · have spacePiece : ' ' ∉ piece := fun mem => space (inNode.subset mem)
      obtain ⟨node,body⟩ := logParts space spacePiece typed typed' same
      have front : "node=".toList <:+: r.body := by
        rw [show r.body = piece from body,← show _ = piece from node]
        exact List.infix_append_left
      exact absurd front r.bodyNode

theorem streamLines (records : List PlainRecord) :
    splitlines (recordStream records) = records.map PlainRecord.text := by
  have free : ∀ line ∈ records.map PlainRecord.text, BreakFree line := by
    intro line mem
    obtain ⟨r,-,rfl⟩ := List.mem_map.mp mem
    exact textFree r
  rw [← splitlinesRecords free,recordStream,List.flatMap_map]

theorem streamLogs (records : List PlainRecord) : logsOf (recordStream records) = recordLogs records := by
  rw [logsOf,keptLines,streamLines,List.filterMap_map]
  rfl

theorem lineLogs {line : Text} (free : BreakFree line) :
    logsOf line = (translateAuditLog line).toList := keptLine translateNothing free

theorem behindLogs {line : Text} (free : BreakFree line) (t : Text) :
    logsOf (line ++ '\n'::t) = (translateAuditLog line).toList ++ logsOf t := by
  rw [newlineLogs,lineLogs free]

@[simp] theorem streamCons (r : PlainRecord) (records : List PlainRecord) :
    recordStream (r::records) = r.text ++ '\n'::recordStream records := by simp [recordStream]

theorem streamEnds (records : List PlainRecord) :
    recordStream records = [] ∨ ∃ front, recordStream records = front ++ ['\n'] := by
  induction records with
  | nil => exact .inl rfl
  | cons r rest ih =>
    rw [streamCons]
    rcases ih with none | ⟨front,last⟩
    · exact .inr ⟨r.text,by rw [none]⟩
    · exact .inr ⟨r.text ++ '\n'::front,by rw [last]; simp⟩

theorem streamPending (records : List PlainRecord) : pending (recordStream records) = [] := by
  rcases streamEnds records with none | ⟨front,last⟩
  · rw [none]; rfl
  · rw [last,pendingBehind newlineBreaks]; rfl

theorem aheadLogs {line : Text} (free : BreakFree line) (records : List PlainRecord) :
    logsOf (recordStream records ++ line) =
      recordLogs records ++ (translateAuditLog line).toList := by
  have atLine : AtBreak (recordStream records) line := by
    rcases streamEnds records with none | ⟨front,last⟩
    · exact .inl none
    · exact .inr (.inr (.inl ⟨'\n',by rw [last,List.getLast?_concat]; rfl,newlineBreaks⟩))
  rw [logsOf,keptAppend translateNothing atLine,keptLine translateNothing free,← streamLogs]
  rfl

theorem streamCut {records t rest} (same : t ++ rest = recordStream records) :
    (∃ passed left, records = passed ++ left ∧ t = recordStream passed ∧ rest = recordStream left) ∨
    ∃ passed r left front back, records = passed ++ r::left ∧ front ≠ [] ∧
      r.text = front ++ back ∧ t = recordStream passed ++ front ∧
      rest = back ++ '\n'::recordStream left := by
  induction records generalizing t with
  | nil =>
    obtain ⟨rfl,rfl⟩ := List.append_eq_nil_iff.mp same
    exact .inl ⟨[],[],rfl,rfl,rfl⟩
  | cons r records ih =>
    by_cases none : t = []
    · exact .inl ⟨[],r::records,rfl,none,by rw [none] at same; exact same⟩
    · rw [streamCons] at same
      rcases List.append_eq_append_iff.mp same with ⟨gap,text,tail⟩ | ⟨gap,rfl,tail⟩
      · exact .inr ⟨[],r,records,t,gap,rfl,none,text,rfl,tail⟩
      · cases gap with
        | nil =>
          rw [List.append_nil] at none
          exact .inr ⟨[],r,records,r.text,[],rfl,none,by simp,by simp [recordStream],tail.symm⟩
        | cons c gap =>
          obtain ⟨rfl,later⟩ := List.cons.inj tail
          rcases ih later.symm with ⟨passed,left,rfl,rfl,rfl⟩ |
            ⟨passed,r',left,front,back,rfl,some,text,rfl,rfl⟩
          · exact .inl ⟨r::passed,left,rfl,by simp,rfl⟩
          · exact .inr ⟨r::passed,r',left,front,back,rfl,some,text,by simp,rfl⟩

/- A receiver in the middle of records: `begun` is the rest of a record it has
read the front of, and `owed` are the logs it should have given by now. What
is left of the record gives no log that would make up for the last one owed. -/
structure Reading (begun : Text) (records : List PlainRecord) (rest : Text)
    (owed logs : List Text) : Prop where
  place : rest = begun ++ '\n'::recordStream records ∨ begun = [] ∧ rest = recordStream records
  free : BreakFree begun
  silent : ∀ piece log, piece <:+: begun → translateAuditLog piece = some log →
    ∃ last ∈ owed.getLast?, last ≠ log
  logs : logs = owed ++ recordLogs records

theorem rotated {α : Type} {x logs owed rest : List α} (same : x ++ logs = owed ++ (x ++ rest)) :
    ∃ owed', owed'.length = owed.length ∧ logs = owed' ++ rest := by
  rw [← List.append_assoc] at same
  rcases List.append_eq_append_iff.mp same with ⟨gap,whole,later⟩ | ⟨gap,whole,later⟩
  · refine ⟨gap,?_,later⟩
    have lengths := congrArg List.length whole
    simp only [List.length_append] at lengths
    omega
  · have lengths := congrArg List.length whole
    simp only [List.length_append] at lengths
    have none : owed = [] := List.eq_nil_of_length_eq_zero (by omega)
    have none' : gap = [] := List.eq_nil_of_length_eq_zero (by omega)
    refine ⟨[],by rw [none],?_⟩
    rw [later,none',List.nil_append,List.nil_append]

theorem silentEmpty {owed : List Text} : ∀ piece log, piece <:+: ([] : Text) →
    translateAuditLog piece = some log → ∃ last ∈ owed.getLast?, last ≠ log := by
  intro piece log inside given
  rw [List.eq_nil_of_infix_nil inside,translateNothing] at given
  contradiction

theorem owedLast {α : Type} {x logs owed rest : List α} {a : Option α} {m : α}
    (same : x ++ a.toList ++ logs = owed ++ (x ++ ([m] ++ rest))) (other : a ≠ some m) :
    ∃ owed', owed'.getLast? = some m ∧ logs = owed' ++ rest := by
  have differ {gap : List α} (equal : x ++ a.toList = owed ++ (x ++ [m]) ++ gap) : False := by
    have lengths := congrArg List.length equal
    cases a with
    | none => simp at lengths; omega
    | some b =>
      simp only [Option.toList_some,List.length_append,List.length_singleton] at lengths
      have none : owed = [] := List.eq_nil_of_length_eq_zero (by omega)
      have none' : gap = [] := List.eq_nil_of_length_eq_zero (by omega)
      rw [none,none',List.nil_append,List.append_nil] at equal
      exact other (congrArg some (List.singleton_inj.mp (List.append_cancel_left equal)))
  have grouped : (x ++ a.toList) ++ logs = (owed ++ (x ++ [m])) ++ rest := by simpa using same
  rcases List.append_eq_append_iff.mp grouped with ⟨gap,whole,later⟩ | ⟨gap,whole,-⟩
  · refine ⟨gap,?_,later⟩
    have last := congrArg List.getLast? whole
    cases gap with
    | nil => exact (differ (by rw [List.append_nil,whole,List.append_nil])).elim
    | cons c gap =>
      rw [← List.append_assoc,List.getLast?_concat,List.getLast?_append] at last
      cases found : (c::gap).getLast? with
      | none => simp at found
      | some d => rw [found] at last; exact last.symm
  · exact (differ whole).elim

theorem boundaryStep {records t rest owed logs} (place : t ++ rest = recordStream records)
    (same : logsOf t ++ logs = owed ++ recordLogs records) :
    ∃ begun' records' owed', Reading begun' records' rest owed' logs ∧
      (owed ≠ [] → owed' ≠ []) ∧ (owed' = [] → CutWhole t rest) := by
  have kept {owed' : List Text} (size : owed'.length = owed.length) : owed ≠ [] → owed' ≠ [] := by
    intro some none
    rw [none] at size
    exact some (List.eq_nil_of_length_eq_zero size.symm)
  rcases streamCut place with ⟨passed,left,rfl,rfl,rfl⟩ |
    ⟨passed,r,left,front,back,rfl,full,text,rfl,rfl⟩
  · rw [streamLogs,recordLogsAppend] at same
    obtain ⟨owed',size,logs⟩ := rotated same
    refine ⟨[],left,owed',⟨.inr ⟨rfl,rfl⟩,?_,silentEmpty,logs⟩,kept size,?_⟩
    · intro c mem; simp at mem
    · intro _; exact .inl (streamPending passed)
  · have free : BreakFree (front ++ back) := text ▸ textFree r
    have freeFront : BreakFree front := fun c mem => free c (List.mem_append_left _ mem)
    have freeBack : BreakFree back := fun c mem => free c (List.mem_append_right _ mem)
    rw [aheadLogs freeFront,recordLogsAppend,recordLogsCons] at same
    have place : back ++ '\n'::recordStream left = back ++ '\n'::recordStream left ∨
        back = [] ∧ back ++ '\n'::recordStream left = recordStream left := .inl rfl
    -- Read to its end, or without a log anyway: the cut changes nothing.
    by_cases whole : back = [] ∨ translateAuditLog r.text = none
    · have equal : translateAuditLog front = translateAuditLog r.text := by
        rcases whole with rfl | none
        · rw [text,List.append_nil]
        · rw [none,translateNone]
          exact fun h => translateNone.mp none (translatableInfix (text ▸ List.infix_append_left) h)
      rw [equal,← List.append_assoc (recordLogs passed)] at same
      obtain ⟨owed',size,logs⟩ := rotated same
      refine ⟨back,left,owed',⟨place,freeBack,?_,logs⟩,kept size,?_⟩
      · rcases whole with rfl | none
        · exact silentEmpty
        · intro piece log inside given
          have whole : Translatable r.text := by
            apply translatableInfix _ ((translateSome piece).mp (by rw [given]; rfl))
            exact inside.trans (text ▸ List.infix_append_right)
          exact absurd whole (translateNone.mp none)
      · intro _
        rw [CutWhole,pendingAppend freeFront,streamPending,List.nil_append,
          upcomingAppend freeBack,upcomingBreak newlineBreaks,List.append_nil,← text]
        exact .inr (whole.imp id translateNone.mp)
    · obtain ⟨more,given⟩ := not_or.mp whole
      obtain ⟨log,given⟩ := Option.ne_none_iff_exists'.mp given
      have shorter {piece : Text} (size : piece.length < r.text.length) (inside : piece <:+: r.text) :
          translateAuditLog piece ≠ some log := by
        intro echoed
        have equal := plainEcho r inside given echoed
        rw [equal] at size
        omega
      have sizes := congrArg List.length text
      rw [List.length_append] at sizes
      have sizeFront := List.length_pos_iff.mpr full
      have sizeBack := List.length_pos_iff.mpr more
      rw [given] at same
      obtain ⟨owed',last,logs⟩ := owedLast same (shorter (by omega) (text ▸ List.infix_append_left))
      have some : owed' ≠ [] := by rintro rfl; contradiction
      refine ⟨back,left,owed',⟨place,freeBack,?_,logs⟩,fun _ => some,fun none => absurd none some⟩
      intro piece echo inside echoed
      refine ⟨log,last,?_⟩
      rintro rfl
      have bound := inside.length_le
      exact shorter (by omega) (inside.trans (text ▸ List.infix_append_right)) echoed

theorem settled {piece : Text} {owed logs rest : List Text}
    (silent : ∀ log, translateAuditLog piece = some log → ∃ last ∈ owed.getLast?, last ≠ log)
    (same : (translateAuditLog piece).toList ++ logs = owed ++ rest) :
    ∃ owed', owed'.getLast? = owed.getLast? ∧ logs = owed' ++ rest := by
  cases given : translateAuditLog piece with
  | none => rw [given] at same; exact ⟨owed,rfl,same⟩
  | some log =>
    obtain ⟨last,final,other⟩ := silent log given
    rw [given] at same
    cases owed with
    | nil => contradiction
    | cons first owed =>
      obtain ⟨rfl,later⟩ := List.cons.inj same
      cases owed with
      | nil => exact absurd (Option.some.inj final).symm other
      | cons second owed => exact ⟨second::owed,(List.getLast?_cons_cons).symm,later⟩

theorem readingQuiet {begun records rest owed logs} (h : Reading begun records rest owed logs)
    (none : owed = []) : ¬ Translatable begun := by
  rw [← translateNone]
  cases given : translateAuditLog begun with
  | none => rfl
  | some log =>
    obtain ⟨last,final,-⟩ := h.silent begun log List.infix_rfl given
    rw [none] at final
    contradiction

/- One chunk: what is owed is never made up for, and nothing is owed behind it only
where the cut at its end is harmless. -/
theorem readingStep {begun records t rest owed logs}
    (h : Reading begun records (t ++ rest) owed (logsOf t ++ logs)) :
    ∃ begun' records' owed', Reading begun' records' rest owed' logs ∧
      (owed ≠ [] → owed' ≠ []) ∧ (owed' = [] → CutWhole t rest) := by
  have kept {owed' : List Text} (final : owed'.getLast? = owed.getLast?) : owed' = [] → owed = [] := by
    rintro rfl
    exact List.getLast?_eq_none_iff.mp final.symm
  rcases h.place with inside | ⟨-,outside⟩
  · rcases separatorCut inside with ⟨gap,rfl,later⟩ | ⟨ahead,rfl,place⟩
    · have freeT : BreakFree t := fun c mem => h.free c (List.mem_append_left _ mem)
      have freeGap : BreakFree gap := fun c mem => h.free c (List.mem_append_right _ mem)
      have logs := h.logs
      rw [lineLogs freeT] at logs
      obtain ⟨owed',final,left⟩ :=
        settled (fun log => h.silent t log List.infix_append_left) logs
      refine ⟨gap,records,owed',⟨.inl later,freeGap,?_,left⟩,fun some none => some (kept final none),?_⟩
      · intro piece log part given
        rw [final]
        exact h.silent piece log (part.trans List.infix_append_right) given
      · intro none
        have whole : pending t = t := pendingAppend freeT []
        rw [CutWhole,later,upcomingAppend freeGap,upcomingBreak newlineBreaks,List.append_nil,whole]
        exact .inr (.inr (readingQuiet h (kept final none)))
    · have logs := h.logs
      rw [behindLogs h.free,List.append_assoc] at logs
      obtain ⟨owed1,final,left⟩ := settled (fun log => h.silent begun log List.infix_rfl) logs
      obtain ⟨begun',records',owed',reading,more,whole⟩ := boundaryStep place left
      refine ⟨begun',records',owed',reading,fun some => more (fun none => some (kept final none)),?_⟩
      intro none
      rw [CutWhole,pendingBehind newlineBreaks]
      exact whole none
  · exact boundaryStep outside h.logs

/- From the whole of a stream on, every cut has to be harmless for the logs to
be complete, and nothing may be owed at the end. -/
theorem wholeComplete {chunks begun records rest owed}
    (h : Reading begun records rest owed (chunkLogs chunks)) (same : chunks.flatten = encode rest) :
    owed = [] ∧ LinesWhole chunks rest := by
  have ended {begun records rest owed chunks} (h : Reading begun records rest owed []) :
      owed = [] ∧ LinesWhole chunks rest := by
    obtain ⟨none,silent⟩ := List.append_eq_nil_iff.mp h.logs.symm
    refine ⟨none,.quiet (linesQuiet ?_)⟩
    rcases h.place with inside | ⟨-,outside⟩
    · rw [inside,behindLogs h.free,streamLogs,silent,translateNone.mpr (readingQuiet h none)]
      rfl
    · rw [outside,streamLogs,silent]
  induction chunks generalizing begun records rest owed with
  | nil => exact ended h
  | cons chunk chunks ih =>
    rw [chunkLogs] at h
    cases decoded : decode chunk with
    | none => rw [decoded] at h; exact ended h
    | some t =>
      rw [decoded] at h
      dsimp only at h
      split at h
      · exact ended h
      · rename_i full
        have source := decodeSource decoded
        rw [List.flatten_cons,source] at same
        obtain ⟨later,rfl,left⟩ := encodePrefix same
        obtain ⟨begun',records',owed',reading,more,whole⟩ := readingStep h
        obtain ⟨none,lines⟩ := ih reading left
        refine ⟨Decidable.byContradiction (fun some => more some none),?_⟩
        rw [source]
        exact .chunk (fun none => full (by rw [none]; rfl)) (whole none) lines

def AllAppended (b : Buffers) (chunks : List Bytes) (stream : Text) : Prop :=
  (listenToClient b (chunks.map .data)).buffers.appended = b.appended ++ logsOf stream

theorem allAppended {b chunks stream} :
    AllAppended b chunks stream ↔ chunkLogs chunks = logsOf stream := by
  rw [AllAppended,listenedAppended]
  exact ⟨List.append_cancel_left,congrArg (b.appended ++ ·)⟩

/- A segmentation that cuts no translatable line gives all the logs, and on a
stream of plain records no other does. All segmentations of a stream agree only
where it gives no log at all. -/
theorem segmentationLogs (stream : Text) (b : Buffers) :
    (∀ chunks, SegmentsOf (encode stream) chunks → LinesWhole chunks stream →
      AllAppended b chunks stream) ∧
    (∀ records, recordStream records = stream → ∀ chunks, SegmentsOf (encode stream) chunks →
      (AllAppended b chunks stream ↔ LinesWhole chunks stream)) ∧
    ((∀ chunks, SegmentsOf (encode stream) chunks → AllAppended b chunks stream) ↔
      ∀ line ∈ splitlines stream, ¬ Translatable line) := by
  refine ⟨?_,?_,?_,?_⟩
  · intro chunks segmented whole
    exact allAppended.mpr (wholeLogs whole segmented.1)
  · rintro records rfl chunks segmented
    refine ⟨?_,fun whole => allAppended.mpr (wholeLogs whole segmented.1)⟩
    intro all
    have logs := (allAppended.mp all).trans (streamLogs records)
    have free : BreakFree [] := by intro c mem; simp at mem
    have reading : Reading [] records (recordStream records) [] (chunkLogs chunks) :=
      ⟨.inr ⟨rfl,rfl⟩,free,silentEmpty,logs⟩
    exact (wholeComplete reading segmented.1).2
  · intro independent
    have bytewise := allAppended.mp (independent _ (singlesSegment (encode stream)))
    exact linesQuiet (bytewise.symm.trans (singlesLogs _))
  · intro quiet chunks segmented
    exact allAppended.mpr (wholeLogs (.quiet quiet) segmented.1)

def cutFront : Text := "audit(1.0:1): sys".toList
def cutBack : Text := "call=1,node=h\n".toList

theorem cutNothing : chunkLogs [encode cutFront,encode cutBack] = [] := by
  have front : logsOf cutFront = [] := by decide +kernel
  have back : logsOf cutBack = [] := by decide +kernel
  rw [chunkLogs,chunkLogs,chunkLogs,decodeEncode,decodeEncode]
  simp only [front,back,List.append_nil,ite_self]

def plainRecord : PlainRecord where
  body := "audit(1.0:1): syscall=1".toList
  host := "h".toList
  bodyComma := by decide +kernel
  bodyNode := by decide +kernel
  hostComma := by decide
  hostSpace := by decide
  breakFree := freeOfAll (by decide +kernel)

theorem segmentationLogsWhole :
    AllAppended noLogs [encode (recordStream [plainRecord]),encode (recordStream [plainRecord])]
      (recordStream [plainRecord] ++ (recordStream [plainRecord] ++ [])) ∧
    ¬ LinesWhole [encode cutFront,encode cutBack] (recordStream [plainRecord]) ∧
    ∀ chunks, SegmentsOf (encode ['\n']) chunks → AllAppended noLogs chunks ['\n'] := by
  have some : recordStream [plainRecord] ≠ [] := by decide +kernel
  have quiet : ∀ line ∈ splitlines ([] : Text), ¬ Translatable line := by
    intro line mem; simp [splitlines,splitlinesFrom] at mem
  have ended {stream} : CutWhole (recordStream [plainRecord]) stream :=
    .inl (streamPending [plainRecord])
  refine ⟨?_,?_,?_⟩
  · refine (segmentationLogs _ noLogs).1 _ ⟨?_,?_⟩ (.chunk some ended (.chunk some ended (.quiet quiet)))
    · rw [encodeAppend,encodeAppend]; rfl
    · decide +kernel
  · have cut : SegmentsOf (encode (recordStream [plainRecord])) [encode cutFront,encode cutBack] := by
      constructor <;> decide +kernel
    rw [← (segmentationLogs _ noLogs).2.1 [plainRecord] rfl _ cut,allAppended,cutNothing]
    decide +kernel
  · refine (segmentationLogs ['\n'] noLogs).2.2.mpr ?_
    intro line mem translatable
    have bound := (splitlinesInfix (by simp) line mem).length_le
    have long := translatableLength translatable
    simp only [List.nil_append,List.length_cons,List.length_nil] at bound
    omega

theorem cutKeywordLost :
    SegmentsOf (encode (cutFront ++ cutBack)) [encode cutFront,encode cutBack] ∧
    (listenToClient noLogs ([encode cutFront,encode cutBack].map .data)).buffers.appended = [] ∧
    logsOf (cutFront ++ cutBack) = ["node=h type=SYSCALL audit(1.0:1): syscall=1\n".toList] := by
  refine ⟨⟨?_,?_⟩,?_,?_⟩
  · decide +kernel
  · decide +kernel
  · rw [listenedAppended,cutNothing]; rfl
  · decide +kernel

end TeePa.Segmentation
