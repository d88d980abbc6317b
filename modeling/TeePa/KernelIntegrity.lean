import TeePa.MemoryIntrospection

/-! The trusted application that reports on the kernel: the PTA writes a digest
into the host's buffer, and what strlen finds there is sent. What the TEE and the
socket layer answer is an input. -/
namespace TeePa.KernelIntegrity
open CStrings MemoryIntrospection
open CollectTa hiding sendEventLog taOpenSessionEntryPoint taInvokeCommandEntryPoint

def taKernelIntegrityCmdIncValue : UInt32 := 0
def ptaCmdGetDevicesSupp : UInt32 := 0x1

/- The TEE answers an invocation itself, or the PTA runs, over a stack that holds
anything. -/
inductive Invocation where
  | refused (result : UInt32)
  | entered (stack : Memory)

structure Tee where
  session : UInt32
  invocation : Invocation

def teeInvokeTaCommand (sha256 : Bytes → Digest) (invocation : Invocation)
    (commandId paramTypes : UInt32) (params : Memref) (m : Memory) : UInt32 × Memory :=
  match invocation with
  | .refused result => (result,m)
  | .entered stack => invokeCommand sha256 stack commandId paramTypes params m

/- A copy of the function in the application that forwards the logs. -/
def sendEventLog (ab : Bytes) (length : Nat) (net : Network) : UInt32 × List TaCall :=
  CollectTa.sendEventLog ab length net

structure Invoked where
  result : UInt32
  calls : List TaCall
  memory : Memory

def ptaInvoke (sha256 : Bytes → Digest) (paramTypes : UInt32) (params : Memref) (m : Memory)
    (tee : Tee) (net : Network) : Invoked :=
  if paramTypes ≠ teeParamTypes
      [teeParamTypeValueInout,teeParamTypeMemrefOutput,teeParamTypeNone,teeParamTypeNone] then
    ⟨teeErrorBadParameters,[],m⟩
  else if tee.session ≠ teeSuccess then ⟨tee.session,[],m⟩
  else
    -- The results of the invocation and of the sending are dropped.
    let invoked := teeInvokeTaCommand sha256 tee.invocation ptaCmdGetDevicesSupp paramTypes params m
    let hashResult := params.buffer
    let hashLength := strlen invoked.2 hashResult
    let sent := sendEventLog (load invoked.2 hashResult hashLength) hashLength net
    ⟨teeSuccess,sent.2,invoked.2⟩

def taOpenSessionEntryPoint (paramTypes : UInt32) : UInt32 :=
  if paramTypes ≠ teeParamTypes
      [teeParamTypeNone,teeParamTypeNone,teeParamTypeNone,teeParamTypeNone] then
    teeErrorBadParameters
  else teeSuccess

def taInvokeCommandEntryPoint (sha256 : Bytes → Digest) (cmdId paramTypes : UInt32)
    (params : Memref) (m : Memory) (tee : Tee) (net : Network) : Invoked :=
  if cmdId = taKernelIntegrityCmdIncValue then ptaInvoke sha256 paramTypes params m tee net
  else ⟨teeErrorBadParameters,[],m⟩

def handedBy : TaCall → List Bytes
  | .send _ data _ => [data]
  | _ => []

def handed (calls : List TaCall) : List Bytes := calls.flatMap handedBy

def written (sha256 : Bytes → Digest) : Invocation → Option Bytes
  | .refused _ => none
  | .entered _ => some (hexDigits (sha256 payload).bytes)

structure Genuine (digits : Option Bytes) (out : Invoked) : Prop where
  handed : ∀ data ∈ handed out.calls, digits = some data
  success : out.result = teeSuccess → ∃ data ∈ forwarded out.calls, digits = some data

def GenuineReport (sha256 : Bytes → Digest) (paramTypes : UInt32) (params : Memref) (m : Memory)
    (tee : Tee) (net : Network) : Prop :=
  Genuine (written sha256 tee.invocation) (ptaInvoke sha256 paramTypes params m tee net)

/- What strlen runs on through behind the 64 digits. -/
def behind (params : Memref) (m : Memory) : Bytes := scan m (addressSpace - 64) (params.buffer + 64)

def Reports (paramTypes : UInt32) (params : Memref) (m : Memory) (tee : Tee) (net : Network) :
    Prop :=
  paramTypes ≠ teeParamTypes
    [teeParamTypeValueInout,teeParamTypeMemrefOutput,teeParamTypeNone,teeParamTypeNone] ∨
  tee.session ≠ teeSuccess ∨
  (∃ stack, tee.invocation = .entered stack) ∧
    (behind params m).length % 0x100000000 = 0 ∧ net.socketOpen.isSome ∧ net.socketSend = true

theorem sentGenuine (digits : Option Bytes) (ab : Bytes) (length : Nat) (net : Network)
    (memory : Memory) :
    Genuine digits ⟨teeSuccess,(sendEventLog ab length net).2,memory⟩ ↔
      digits = some (ab.take (length % 0x100000000)) ∧ net.socketOpen.isSome ∧
        net.socketSend = true := by
  cases opened : net.socketOpen with
  | none =>
    simp only [sendEventLog,CollectTa.sendEventLog,opened]
    refine ⟨?_,fun sent => absurd sent.2.1 (by simp)⟩
    intro genuine
    obtain ⟨data,taken,_⟩ := genuine.success rfl
    simp [forwarded,forwardedBy] at taken
  | some ctx =>
    cases taken : net.socketSend with
    | false =>
      simp only [sendEventLog,CollectTa.sendEventLog,opened,taken]
      refine ⟨?_,fun sent => absurd sent.2.2 (by decide)⟩
      intro genuine
      obtain ⟨data,taken,_⟩ := genuine.success rfl
      simp [forwarded,forwardedBy] at taken
    | true =>
      simp only [sendEventLog,CollectTa.sendEventLog,opened,taken]
      constructor
      · intro genuine
        exact ⟨genuine.handed _ (by simp [handed,handedBy]),by simp⟩
      · intro sent
        refine ⟨?_,fun _ => ⟨_,by simp [forwarded,forwardedBy],sent.1⟩⟩
        intro data mem
        have same : data = ab.take (length % 0x100000000) := by simpa [handed,handedBy] using mem
        rw [same]
        exact sent.1

theorem invokedSends (sha256 : Bytes → Digest) (params : Memref) (m : Memory) {tee : Tee}
    (net : Network) (session : tee.session = teeSuccess) :
    ptaInvoke sha256 (teeParamTypes [3,6,0,0]) params m tee net =
      let after := (teeInvokeTaCommand sha256 tee.invocation ptaCmdGetDevicesSupp
        (teeParamTypes [3,6,0,0]) params m).2
      ⟨teeSuccess,(sendEventLog (stringAt after params.buffer).bytes
        (stringAt after params.buffer).length net).2,after⟩ := by
  have types : ¬ teeParamTypes [3,6,0,0] ≠ teeParamTypes
      [teeParamTypeValueInout,teeParamTypeMemrefOutput,teeParamTypeNone,teeParamTypeNone] :=
    not_not_intro rfl
  rw [ptaInvoke,if_neg types,if_neg (not_not_intro session)]
  simp only [strlen,CString.length,stringAt,loadScanned]

theorem writtenRunsOn (sha256 : Bytes → Digest) (params : Memref) (m : Memory) :
    (stringAt (write m params.buffer (hexDigits (sha256 payload).bytes)) params.buffer).bytes =
      hexDigits (sha256 payload).bytes ++ behind params m := by
  have size := digestDigits (sha256 payload)
  have room : 64 < addressSpace := addressSpaceLarge (by decide)
  have held : ∀ i b, (hexDigits (sha256 payload).bytes)[i]? = some b →
      write m params.buffer (hexDigits (sha256 payload).bytes) (params.buffer + i) = b ∧ b ≠ 0 :=
    fun i b found => ⟨writeInside found,hexDigitsNulFree _ b (List.mem_of_getElem? found)⟩
  have rest : ∀ x, params.buffer + 64 ≤ x →
      write m params.buffer (hexDigits (sha256 payload).bytes) x = m x :=
    fun x later => writeOutside (Or.inr (by omega))
  have whole := @scanRunsOn _ _ addressSpace _ held (by omega)
  rw [size,scanFrame rest] at whole
  exact whole

theorem cutToDigits {digits tail : Bytes} (size : digits.length = 64) :
    digits = (digits ++ tail).take ((digits ++ tail).length % 0x100000000) ↔
      tail.length % 0x100000000 = 0 := by
  rw [List.length_append,size]
  constructor
  · intro same
    have lengths := congrArg List.length same
    simp only [List.length_take,List.length_append,size] at lengths
    omega
  · intro wraps
    have cut : (64 + tail.length) % 0x100000000 = digits.length := by omega
    rw [cut,List.take_left']
    rfl

theorem openedGenuine (sha256 : Bytes → Digest) (params : Memref) (m : Memory) {tee : Tee}
    (net : Network) (session : tee.session = teeSuccess) :
    GenuineReport sha256 (teeParamTypes [3,6,0,0]) params m tee net ↔
      (∃ stack, tee.invocation = .entered stack) ∧
        (behind params m).length % 0x100000000 = 0 ∧ net.socketOpen.isSome ∧
        net.socketSend = true := by
  rw [GenuineReport,invokedSends sha256 params m net session]
  simp only [sentGenuine,CString.length]
  cases entered : tee.invocation with
  | refused result =>
    constructor
    · intro genuine
      exact absurd genuine.1 (Option.some_ne_none _).symm
    · intro due
      obtain ⟨stack,ran⟩ := due.1
      exact Invocation.noConfusion ran
  | entered stack =>
    have after : (teeInvokeTaCommand sha256 (.entered stack) ptaCmdGetDevicesSupp
        (teeParamTypes [3,6,0,0]) params m).2 =
        write m params.buffer (hexDigits (sha256 payload).bytes) :=
      congrArg Prod.snd (getHashWrites sha256 stack params m)
    rw [after,writtenRunsOn]
    simp only [written,Option.some.injEq,cutToDigits (digestDigits _)]
    exact ⟨fun genuine => ⟨⟨stack,rfl⟩,genuine⟩,fun due => due.2⟩

theorem reportGenuine (sha256 : Bytes → Digest) (paramTypes : UInt32) (params : Memref)
    (m : Memory) (tee : Tee) (net : Network) :
    GenuineReport sha256 paramTypes params m tee net ↔
      Reports paramTypes params m tee net := by
  by_cases types : paramTypes ≠ teeParamTypes
      [teeParamTypeValueInout,teeParamTypeMemrefOutput,teeParamTypeNone,teeParamTypeNone]
  · have failed : teeErrorBadParameters ≠ teeSuccess := by decide
    rw [GenuineReport,ptaInvoke,if_pos types]
    exact ⟨fun _ => Or.inl types,
      fun _ => ⟨fun _ mem => absurd mem List.not_mem_nil,fun ok => absurd ok failed⟩⟩
  · by_cases session : tee.session ≠ teeSuccess
    · rw [GenuineReport,ptaInvoke,if_neg types,if_pos session]
      exact ⟨fun _ => Or.inr (Or.inl session),
        fun _ => ⟨fun _ mem => absurd mem List.not_mem_nil,fun ok => absurd ok session⟩⟩
    · have expected := Decidable.not_not.mp types
      have opened := openedGenuine sha256 params m net (Decidable.not_not.mp session)
      rw [expected]
      exact opened.trans ⟨fun due => Or.inr (Or.inr due),
        fun due => (due.resolve_left (not_not_intro rfl)).resolve_left session⟩

-- The SHA-256 of the PTA's payload.
def payloadDigest : Digest :=
  ⟨[0xd1,0xe7,0xd2,0xd8,0xac,0xd4,0xb4,0xe6,0x0e,0xe8,0x29,0x09,0xf2,0xc0,0xbd,0x4c,
    0xe9,0x5a,0x32,0xee,0x47,0xa3,0x5b,0x8b,0xc8,0x55,0x3b,0xb7,0x3b,0x1e,0xac,0xc0],rfl⟩

theorem reportForged :
    ¬ GenuineReport (fun _ => payloadDigest) (teeParamTypes [3,6,0,0]) ⟨0x1000,64⟩
      (write (fun _ => 0) 0x1040 [0x41]) ⟨teeSuccess,.entered fun _ => 0⟩ ⟨some 1,true,0⟩ ∧
    ¬ GenuineReport (fun _ => payloadDigest) (teeParamTypes [3,6,0,0]) ⟨0x1000,64⟩
      (fun _ => 0) ⟨teeSuccess,.refused 0xFFFF0000⟩ ⟨some 1,true,0⟩ ∧
    ¬ GenuineReport (fun _ => payloadDigest) (teeParamTypes [3,6,0,0]) ⟨0x1000,64⟩
      (fun _ => 0) ⟨teeSuccess,.entered fun _ => 0⟩ ⟨none,true,0⟩ := by
  refine ⟨?_,?_,?_⟩
  · intro genuine
    have due := (openedGenuine _ _ _ _ rfl).mp genuine
    have room : 64 + 1 < addressSpace := addressSpaceLarge (by decide)
    have tail : behind ⟨0x1000,64⟩ (write (fun _ => 0) 0x1040 [0x41]) = [0x41] := by
      apply scanOf _ (writeOutside (Or.inr (by simp))) (by simp only [List.length_singleton]; omega)
      intro i b found
      have byte : b ∈ [(0x41 : UInt8)] := List.mem_of_getElem? found
      exact ⟨writeInside found,by rw [List.mem_singleton.mp byte]; decide⟩
    rw [tail] at due
    exact absurd due.2.1 (by decide)
  · intro genuine
    obtain ⟨stack,ran⟩ := ((openedGenuine _ _ _ _ rfl).mp genuine).1
    exact Invocation.noConfusion ran
  · intro genuine
    exact Bool.noConfusion ((openedGenuine _ _ _ _ rfl).mp genuine).2.2.1

end TeePa.KernelIntegrity
