import TeePa.Receiver

/-! The kinds of audit records, by the field each begins with, against the type the
receiver guesses. The kernel does not send the type, and the guess tests the whole
line, so the values of a record and its host name have a say in it. -/
namespace TeePa.RecordKinds
open Texts Receiver

def decimal (n : Nat) : Text := Nat.toDigits 10 n

-- %03lu
def padded (n : Nat) : Text := List.replicate (3 - (decimal n).length) '0' ++ decimal n

/- What the kernel writes in front of every record: audit(%llu.%03lu:%u): -/
structure Stamp where
  seconds : Nat
  milliseconds : Nat
  serial : Nat
  deriving DecidableEq, Repr

def stampText (s : Stamp) : Text :=
  ["audit(".toList,decimal s.seconds,['.'],padded s.milliseconds,[':'],decimal s.serial,
    "):".toList].flatten

inductive Kind where
  | syscall (arch : Text) (number : Nat)
  | proctitle
  | sockaddr
  | cwd
  | path (item : Nat)
  | daemonStart
  | configChange
  | other
  deriving DecidableEq, Repr

-- The record's own field; the text of any other kind is left to the rest.
def lead : Kind → Text
  | .syscall arch number => "arch=".toList ++ (arch ++ (" syscall=".toList ++ decimal number))
  | .proctitle => "proctitle=".toList
  | .sockaddr => "saddr=".toList
  | .cwd => "cwd=".toList
  | .path item => "item=".toList ++ (decimal item ++ " name=".toList)
  | .daemonStart => "op=start".toList
  | .configChange => "op=add_rule".toList
  | .other => []

def place : Kind → Nat
  | .syscall .. => 0
  | .proctitle => 1
  | .sockaddr => 2
  | .cwd => 3
  | .path _ => 4
  | .daemonStart => 5
  | .configChange => 6
  | .other => 7

def typeOf (k : Kind) : Option Text := (auditTypes[place k]?).map Prod.snd

/- A record as audit_log_end passes it on. One of another kind begins with the own
field of none of the seven. -/
structure Record where
  stamp : Stamp
  kind : Kind
  rest : Text
  host : Text
  foreign : kind = .other → ∀ k, k ≠ .other → ¬ lead k <+: rest

def recordText (r : Record) : Text :=
  stampText r.stamp ++ ' ' :: (lead r.kind ++ r.rest ++ ',' :: ("node=".toList ++ r.host))

def ownLog (r : Record) : Option Text :=
  (typeOf r.kind).bind (fun auditType => formatAuditMsg auditType (recordText r))

def earlier (k : Kind) : List (Text × Text) := auditTypes.take (place k)

def Unsteered (r : Record) : Prop :=
  ∀ entry ∈ earlier r.kind, ¬ entry.1 <:+: r.rest ∧ ¬ entry.1 <:+: r.host

theorem firstAt {α β : Type} {p : α → Bool} {value : α → β} {table : List α} {n : Nat}
    (distinct : (table.map value).Nodup) (own : ∀ entry ∈ table[n]?, p entry = true) :
    (table.find? p).map value = (table[n]?).map value ↔
      ∀ entry ∈ table.take n, ¬ p entry = true := by
  induction table generalizing n with
  | nil => simp
  | cons entry rest ih =>
    cases n with
    | zero =>
      have first : p entry = true := own entry rfl
      simp [List.find?_cons_of_pos first]
    | succ n =>
      obtain ⟨fresh,later⟩ := List.nodup_cons.mp distinct
      rw [List.getElem?_cons_succ,List.take_succ_cons,List.forall_mem_cons]
      by_cases first : p entry = true
      · rw [List.find?_cons_of_pos first]
        refine ⟨?_,fun none => absurd first none.1⟩
        intro same
        obtain ⟨twin,at_,equal⟩ := Option.map_eq_some_iff.mp same.symm
        have mem : value twin ∈ rest.map value := List.mem_map_of_mem (List.mem_of_getElem? at_)
        exact absurd (equal ▸ mem) fresh
      · rw [List.find?_cons_of_neg first]
        exact ⟨fun same => ⟨first,(ih later own).mp same⟩,fun none => (ih later own).mpr none.2⟩

theorem formatInjective {t t' msg : Text} (audit : "audit".toList <:+: msg)
    (same : formatAuditMsg t msg = formatAuditMsg t' msg) : t = t' := by
  simp only [formatAuditMsg,if_neg (not_not_intro audit),Option.some.injEq] at same
  have types := List.append_cancel_right (List.append_cancel_right (List.append_cancel_right same))
  exact List.append_cancel_left types

theorem selectedAlone {msg : Text} {selected own : Option Text} (audit : "audit".toList <:+: msg) :
    selected.bind (fun t => formatAuditMsg t msg) = own.bind (fun t => formatAuditMsg t msg) ↔
      selected = own := by
  refine ⟨?_,fun same => by rw [same]⟩
  have some : ∀ t, ∃ log, formatAuditMsg t msg = some log :=
    fun t => Option.isSome_iff_exists.mp ((formatSome t msg).mpr audit)
  intro same
  cases selected with
  | none =>
    cases own with
    | none => rfl
    | some t =>
      obtain ⟨log,formatted⟩ := some t
      exact nomatch same.trans formatted
  | some t =>
    cases own with
    | none =>
      obtain ⟨log,formatted⟩ := some t
      exact nomatch same.symm.trans formatted
    | some t' => exact congrArg _ (formatInjective audit same)

theorem decimalDigits {n : Nat} {c : Char} (mem : c ∈ decimal n) : c.isDigit = true :=
  Nat.isDigit_of_mem_toDigits (by decide) (by decide) mem

def stampChar (c : Char) : Bool := c.isDigit || "audit(.:)".toList.contains c

theorem stampChars {s : Stamp} {c : Char} (mem : c ∈ stampText s) : stampChar c = true := by
  have digit : c.isDigit = true → stampChar c = true := by
    intro own
    rw [stampChar,own,Bool.true_or]
  obtain ⟨part,inside,mem⟩ := List.mem_flatten.mp mem
  simp only [List.mem_cons,List.not_mem_nil,or_false] at inside
  rcases inside with rfl | rfl | rfl | rfl | rfl | rfl | rfl
  · exact List.all_eq_true.mp (by decide) c mem
  · exact digit (decimalDigits mem)
  · exact List.all_eq_true.mp (by decide) c mem
  · rcases List.mem_append.mp mem with zero | own
    · rw [List.eq_of_mem_replicate zero]
      decide
    · exact digit (decimalDigits own)
  · exact List.all_eq_true.mp (by decide) c mem
  · exact digit (decimalDigits mem)
  · exact List.all_eq_true.mp (by decide) c mem

theorem stampAudit (s : Stamp) : "audit".toList <:+: stampText s := by
  have first : stampText s = "audit(".toList ++ (stampText s).drop 6 := rfl
  have label : "audit".toList <:+: "audit(".toList := by decide
  rw [first]
  exact label.trans List.infix_append_left

theorem recordAudit (r : Record) : "audit".toList <:+: recordText r :=
  (stampAudit r.stamp).trans List.infix_append_left

/- What the keywords have no part in: the stamp, the separators and the labels. -/
theorem keywordAway : ∀ entry ∈ auditTypes, entry.1.all stampChar = false ∧
    ' ' ∉ entry.1 ∧ ',' ∉ entry.1 ∧ clearOf entry.1 "node=".toList = true := by decide +kernel

theorem awayFrom {piece text : Text} {allowed : Char → Bool} (other : piece.all allowed = false)
    (all : ∀ c ∈ text, allowed c = true) : ¬ piece <:+: text := by
  intro inside
  have own : piece.all allowed = true :=
    List.all_eq_true.mpr (fun c mem => all c (inside.subset mem))
  exact nomatch other.symm.trans own

theorem earlierEntry {k : Kind} {entry : Text × Text} (mem : entry ∈ earlier k) :
    entry ∈ auditTypes := List.mem_of_mem_take mem

theorem clearLead {k : Kind} (clear : ∀ entry ∈ earlier k, clearOf entry.1 (lead k) = true)
    {rest : Text} : ∀ entry ∈ earlier k, entry.1 <:+: lead k ++ rest → entry.1 <:+: rest :=
  fun entry mem inside => pieceBehind (clear entry mem) inside

def itemChar (c : Char) : Bool := c.isDigit || "item=".toList.contains c

theorem leadClear (k : Kind) {rest : Text} :
    ∀ entry ∈ earlier k, entry.1 <:+: lead k ++ rest → entry.1 <:+: rest := by
  cases k with
  | syscall arch number => intro entry mem; contradiction
  | proctitle => exact clearLead (by decide +kernel)
  | sockaddr => exact clearLead (by decide +kernel)
  | cwd => exact clearLead (by decide +kernel)
  | path item =>
    intro entry mem inside
    have away : ∀ entry ∈ auditTypes.take 4, entry.1.all itemChar = false ∧
        clearOf entry.1 "name=".toList = true := by decide +kernel
    have split : lead (.path item) ++ rest =
        ("item=".toList ++ decimal item) ++ ' ' :: ("name=".toList ++ rest) := by
      have shape : lead (.path item) = "item=".toList ++ (decimal item ++ " name=".toList) := rfl
      have blank : " name=".toList = ' ' :: "name=".toList := by decide
      rw [shape,blank,List.append_assoc,List.append_assoc,List.append_assoc,List.cons_append]
    rw [split] at inside
    rcases pieceSide (keywordAway entry (earlierEntry mem)).2.1 inside with number | behind
    · refine absurd number (awayFrom (away entry mem).1 ?_)
      intro c own
      rcases List.mem_append.mp own with label | digit
      · exact List.all_eq_true.mp (by decide) c label
      · rw [itemChar,decimalDigits digit,Bool.true_or]
    · exact pieceBehind (away entry mem).2 behind
  | daemonStart => exact clearLead (by decide +kernel)
  | configChange => exact clearLead (by decide +kernel)
  | other => exact fun _ _ inside => inside

theorem earlierOccurs (r : Record) : ∀ entry ∈ earlier r.kind,
    entry.1 <:+: recordText r ↔ entry.1 <:+: r.rest ∨ entry.1 <:+: r.host := by
  intro entry mem
  obtain ⟨notStamp,noBlank,noComma,notNode⟩ := keywordAway entry (earlierEntry mem)
  constructor
  · intro inside
    rcases pieceSide noBlank inside with stamp | behind
    · exact absurd stamp (awayFrom notStamp (fun c own => stampChars own))
    · rcases pieceSide noComma behind with body | suffix
      · exact .inl (leadClear r.kind entry mem body)
      · exact .inr (pieceBehind notNode suffix)
  · have values : r.rest ++ ',' :: ("node=".toList ++ r.host) <:+: recordText r :=
      ⟨stampText r.stamp ++ ' ' :: lead r.kind,[],by simp [recordText]⟩
    rintro (inRest | inHost)
    · exact (inRest.trans List.infix_append_left).trans values
    · refine inHost.trans (List.IsInfix.trans ?_ values)
      exact ⟨r.rest ++ ',' :: "node=".toList,[],by simp⟩

theorem ownField (k : Kind) : ∀ entry ∈ auditTypes[place k]?, entry.1 <:+: lead k := by
  cases k with
  | syscall arch number =>
    intro entry at_
    cases Option.some.inj at_
    have label : "syscall".toList <:+: " syscall=".toList := by decide +kernel
    have shape : lead (.syscall arch number) =
        "arch=".toList ++ (arch ++ (" syscall=".toList ++ decimal number)) := rfl
    rw [shape]
    exact List.infix_append_of_infix_right (List.infix_append_of_infix_right
      (label.trans List.infix_append_left))
  | path item =>
    intro entry at_
    cases Option.some.inj at_
    have label : "item".toList <:+: "item=".toList := by decide +kernel
    exact label.trans List.infix_append_left
  | proctitle => decide +kernel
  | sockaddr => decide +kernel
  | cwd => decide +kernel
  | daemonStart => decide +kernel
  | configChange => decide +kernel
  | other => exact fun _ none => nomatch none

theorem ownOccurs (r : Record) : ∀ entry ∈ auditTypes[place r.kind]?, entry.1 <:+: recordText r := by
  intro entry at_
  refine (ownField r.kind entry at_).trans ⟨stampText r.stamp ++ [' '],
    r.rest ++ ',' :: ("node=".toList ++ r.host),?_⟩
  simp [recordText]

theorem recordClassified (r : Record) : translateAuditLog (recordText r) = ownLog r ↔ Unsteered r := by
  have audit := recordAudit r
  rw [translateSelected,ownLog,selectedAlone audit,selectType,selectFrom,typeOf,
    firstAt (by decide +kernel) (fun entry at_ => by simpa using ownOccurs r entry at_)]
  constructor
  · intro silent entry mem
    have none : ¬ entry.1 <:+: recordText r := by simpa using silent entry mem
    rw [earlierOccurs r entry mem] at none
    exact not_or.mp none
  · intro unsteered entry mem
    have none := not_or.mpr (unsteered entry mem)
    rw [← earlierOccurs r entry mem] at none
    simpa using none

def cwdRecord : Record :=
  ⟨⟨1,2,3⟩,.cwd,"\"/tmp/syscall\"".toList,"h".toList,fun other => nomatch other⟩

theorem cwdMisread :
    ownLog cwdRecord = some "node=h type=CWD audit(1.002:3): cwd=\"/tmp/syscall\"\n".toList ∧
    translateAuditLog (recordText cwdRecord) =
      some "node=h type=SYSCALL audit(1.002:3): cwd=\"/tmp/syscall\"\n".toList ∧
    translateAuditLog (recordText cwdRecord) ≠ ownLog cwdRecord := by
  have own : ownLog cwdRecord =
      some "node=h type=CWD audit(1.002:3): cwd=\"/tmp/syscall\"\n".toList := by decide +kernel
  have emitted : translateAuditLog (recordText cwdRecord) =
      some "node=h type=SYSCALL audit(1.002:3): cwd=\"/tmp/syscall\"\n".toList := by decide +kernel
  refine ⟨own,emitted,?_⟩
  rw [own,emitted]
  decide +kernel

end TeePa.RecordKinds
