import TeePa.KernelIntegrity
import TeePa.Hosts
import TeePa.Purging

/-! What becomes of the measurement of the kernel's text. One command of the PTA hashes
it, for the debug log; the reports that go out are made without it, whatever is written
into the text and whenever. -/
namespace TeePa.Tampering
open CStrings MemoryIntrospection KernelIntegrity Purging
open CollectTa (Network TaCall teeErrorBadParameters teeSuccess teeParamTypes teeParamTypeNone)
open Hosts (Mmu)

def stextPa : UInt64 := 0x77610000
def etextPa : UInt64 := 0x784A0000

-- As in the watchdog's PTA, for another memory area.
def nsecPeriphBase (mmu : Mmu) (pa : UInt64) : UInt64 := Hosts.nsecPeriphBase mmu pa

/- The line for the debug log: the payload as far as its first NUL, and the digits. -/
def memHash (sha256 : Bytes → Digest) (stack : Memory) (payloadText payload : Bytes) : Bytes :=
  let buffer := bytes2hex (sha256 payload).bytes 0 stack
  payloadText ++ "'s sha256 sum ".toUTF8.toList ++ (stringAt buffer 0).bytes

def textStart (mmu : Mmu) : Nat := (nsecPeriphBase mmu stextPa).toNat

def textLength (mmu : Mmu) : Nat :=
  (nsecPeriphBase mmu etextPa - nsecPeriphBase mmu stextPa).toNat

def getMemoryAddressLogged (sha256 : Bytes → Digest) (mmu : Mmu) (stack : Memory)
    (types : UInt32) (m : Memory) : UInt32 × List Bytes :=
  let first := memHash sha256 stack payload payload
  if types ≠ teeParamTypes
      [teeParamTypeMemrefInout,teeParamTypeNone,teeParamTypeNone,teeParamTypeNone] then
    (teeErrorBadParameters,[first])
  else
    let stextAddr := textStart mmu
    (teeSuccess,[first,memHash sha256 stack (stringAt m stextAddr).bytes
      (load m stextAddr (textLength mmu))])

theorem loggedResult (sha256 : Bytes → Digest) (mmu : Mmu) (stack : Memory) (types : UInt32)
    (m : Memory) : (getMemoryAddressLogged sha256 mmu stack types m).1 = getMemoryAddress types := by
  unfold getMemoryAddressLogged getMemoryAddress
  split <;> rfl

theorem loggedText (sha256 : Bytes → Digest) (mmu : Mmu) (stack m : Memory) :
    (getMemoryAddressLogged sha256 mmu stack (teeParamTypes [7,0,0,0]) m).2.getLast? =
      some ((stringAt m (textStart mmu)).bytes ++ "'s sha256 sum ".toUTF8.toList ++
        hexDigits (sha256 (load m (textStart mmu) (textLength mmu))).bytes) := by
  have types : ¬ teeParamTypes [7,0,0,0] ≠ teeParamTypes
      [teeParamTypeMemrefInout,teeParamTypeNone,teeParamTypeNone,teeParamTypeNone] :=
    not_not_intro rfl
  have digits : ∀ d : Digest, (stringAt (bytes2hex d.bytes 0 stack) 0).bytes =
      hexDigits d.bytes := by
    intro d
    have room : 64 < addressSpace := addressSpaceLarge (by decide)
    have held : Holds (bytes2hex d.bytes 0 stack) 0
        ⟨hexDigits d.bytes,hexDigitsNulFree d.bytes⟩ := by
      rw [bytes2hexWrites]
      exact strcpyHolds _ 0 ⟨hexDigits d.bytes,hexDigitsNulFree d.bytes⟩
    rw [stringAtOfHolds held (by rw [CString.length,digestDigits]; exact room)]
  rw [getMemoryAddressLogged,if_neg types,List.getLast?_cons_cons,List.getLast?_singleton,memHash,
    digits]

inductive Event where
  | report (cmdId paramTypes : UInt32) (params : Memref) (tee : Tee) (net : Network)
  | introspect (nCommandId nParamTypes : UInt32) (params : Memref) (stack : Memory)
  | store (address : Nat) (byte : UInt8)

inductive Answer where
  | reported (result : UInt32) (calls : List TaCall)
  | introspected (result : UInt32)
  deriving DecidableEq, Repr

def act (sha256 : Bytes → Digest) (m : Memory) : Event → List Answer × Memory
  | .report cmdId paramTypes params tee net =>
      let invoked := taInvokeCommandEntryPoint sha256 cmdId paramTypes params m tee net
      ([.reported invoked.result invoked.calls],invoked.memory)
  | .introspect nCommandId nParamTypes params stack =>
      let invoked := invokeCommand sha256 stack nCommandId nParamTypes params m
      ([.introspected invoked.1],invoked.2)
  | .store address byte => ([],write m address [byte])

def InText (mmu : Mmu) (a : Nat) : Prop :=
  textStart mmu ≤ a ∧ a < textStart mmu + textLength mmu
instance (mmu a) : Decidable (InText mmu a) := by unfold InText; infer_instance

def tampers (mmu : Mmu) : Event → Bool
  | .store address _ => decide (InText mmu address)
  | _ => false

/- What strlen finds at the host's buffer ends before the kernel's text begins. -/
def Clear (sha256 : Bytes → Digest) (mmu : Mmu) (m : Memory) : Event → Prop
  | .report _ paramTypes params tee _ =>
      let after := (teeInvokeTaCommand sha256 tee.invocation ptaCmdGetDevicesSupp paramTypes
        params m).2
      ∀ a, params.buffer ≤ a → a ≤ params.buffer + strlen after params.buffer → ¬ InText mmu a
  | _ => True

def Alike (mmu : Mmu) (m m' : Memory) : Prop := ∀ a, ¬ InText mmu a → m a = m' a

section Step
variable {mmu : Mmu} {m m' : Memory}

theorem scanAlike {fuel a : Nat}
    (same : ∀ x, a ≤ x → x ≤ a + (scan m fuel a).length → m x = m' x) :
    scan m fuel a = scan m' fuel a := by
  induction fuel generalizing a with
  | zero => rfl
  | succ fuel ih =>
    have first := same a (Nat.le_refl a) (Nat.le_add_right a _)
    rw [scan] at same
    rw [scan,scan,first]
    split
    · rfl
    · rename_i more
      rw [if_neg (first ▸ more)] at same
      rw [ih (fun x later within => same x (by omega) (by rw [List.length_cons]; omega))]

theorem writeAlike (alike : Alike mmu m m') (a : Nat) (bytes : Bytes) :
    Alike mmu (write m a bytes) (write m' a bytes) := by
  intro x outside
  rw [write,write,alike x outside]

theorem invokeAlike (sha256 : Bytes → Digest) (stack : Memory) (nCommandId nParamTypes : UInt32)
    (params : Memref) (alike : Alike mmu m m') :
    (invokeCommand sha256 stack nCommandId nParamTypes params m).1 =
      (invokeCommand sha256 stack nCommandId nParamTypes params m').1 ∧
    Alike mmu (invokeCommand sha256 stack nCommandId nParamTypes params m).2
      (invokeCommand sha256 stack nCommandId nParamTypes params m').2 := by
  unfold invokeCommand
  split
  · exact ⟨rfl,alike⟩
  · split
    · unfold communicationTestTaToPta
      split
      · exact ⟨rfl,alike⟩
      · exact ⟨rfl,writeAlike alike _ _⟩
    · exact ⟨rfl,alike⟩

theorem teeInvokeAlike (sha256 : Bytes → Digest) (invocation : Invocation)
    (commandId paramTypes : UInt32) (params : Memref) (alike : Alike mmu m m') :
    Alike mmu (teeInvokeTaCommand sha256 invocation commandId paramTypes params m).2
      (teeInvokeTaCommand sha256 invocation commandId paramTypes params m').2 := by
  cases invocation with
  | refused result => exact alike
  | entered stack => exact (invokeAlike sha256 stack commandId paramTypes params alike).2

theorem reportAlike (sha256 : Bytes → Digest) (cmdId paramTypes : UInt32) (params : Memref)
    (tee : Tee) (net : Network) (alike : Alike mmu m m')
    (clear : Clear sha256 mmu m (.report cmdId paramTypes params tee net)) :
    (act sha256 m (.report cmdId paramTypes params tee net)).1 =
      (act sha256 m' (.report cmdId paramTypes params tee net)).1 ∧
    Alike mmu (act sha256 m (.report cmdId paramTypes params tee net)).2
      (act sha256 m' (.report cmdId paramTypes params tee net)).2 := by
  have after := teeInvokeAlike sha256 tee.invocation ptaCmdGetDevicesSupp paramTypes params alike
  have text : scan (teeInvokeTaCommand sha256 tee.invocation ptaCmdGetDevicesSupp paramTypes
      params m).2 addressSpace params.buffer = scan (teeInvokeTaCommand sha256 tee.invocation
      ptaCmdGetDevicesSupp paramTypes params m').2 addressSpace params.buffer :=
    scanAlike (fun x later within => after x (clear x later within))
  simp only [act,taInvokeCommandEntryPoint]
  split
  · unfold ptaInvoke
    split
    · exact ⟨rfl,alike⟩
    · split
      · exact ⟨rfl,alike⟩
      · refine ⟨?_,after⟩
        simp only [strlen,CString.length,stringAt]
        rw [loadScanned,loadScanned,text]
  · exact ⟨rfl,alike⟩

theorem actUnwinds (sha256 : Bytes → Digest) (mmu : Mmu) :
    Unwinds (act sha256) (tampers mmu) (Clear sha256 mmu) (Alike mmu) where
  silent m m' event alike hidden := by
    cases event with
    | store address byte =>
      have inside : InText mmu address := of_decide_eq_true hidden
      refine ⟨rfl,fun x outside => ?_⟩
      have apart : x < address ∨ address + [byte].length ≤ x := by
        rw [List.length_singleton]
        rcases Nat.lt_trichotomy x address with before | same | later
        · exact .inl before
        · exact absurd (same ▸ inside) outside
        · exact .inr later
      exact (writeOutside apart).trans (alike x outside)
    | report => exact Bool.noConfusion hidden
    | introspect => exact Bool.noConfusion hidden
  alike m m' event alike _ clear := by
    cases event with
    | store address byte => exact ⟨rfl,writeAlike alike _ _⟩
    | report cmdId paramTypes params tee net =>
      exact reportAlike sha256 cmdId paramTypes params tee net alike clear
    | introspect nCommandId nParamTypes params stack =>
      obtain ⟨same,next⟩ := invokeAlike sha256 stack nCommandId nParamTypes params alike
      exact ⟨congrArg (fun result => [Answer.introspected result]) same,next⟩

end Step

theorem tamperingUnreported (sha256 : Bytes → Digest) (mmu : Mmu) (m : Memory)
    (events : List Event) (clear : Throughout (act sha256) (Clear sha256 mmu) m events) :
    said (act sha256) m events = said (act sha256) m (purge (tampers mmu) events) ∧
      Alike mmu (last (act sha256) m events) (last (act sha256) m (purge (tampers mmu) events)) :=
  purged (actUnwinds sha256 mmu) (fun _ _ => rfl) clear

def host : Memref := ⟨0x1000,64⟩
def direct : Mmu := ⟨false,id⟩
def patch : Event := .store 0x77610000 1
def request : Event :=
  .report 0 (teeParamTypes [3,6,0,0]) host ⟨teeSuccess,.entered fun _ => 0⟩ ⟨some 3,true,4⟩

theorem requestClear {m : Memory} (nul : m 0x1040 = 0) :
    Clear (fun _ => payloadDigest) direct m request := by
  intro a _ within inside
  have written : (invokeCommand (fun _ => payloadDigest) (fun _ => 0) ptaCmdGetDevicesSupp
      (teeParamTypes [3,6,0,0]) host m).2 = write m 0x1000 (hexDigits payloadDigest.bytes) :=
    congrArg Prod.snd (getHashWrites _ _ host m)
  have size : 0x1000 + (hexDigits payloadDigest.bytes).length ≤ 0x1000 + 64 :=
    Nat.add_le_add_left (Nat.le_of_eq (digestDigits payloadDigest)) 0x1000
  have ends : write m 0x1000 (hexDigits payloadDigest.bytes) (0x1000 + 64) = 0 :=
    (writeOutside (.inr size)).trans nul
  have short : strlen (invokeCommand (fun _ => payloadDigest) (fun _ => 0) ptaCmdGetDevicesSupp
      (teeParamTypes [3,6,0,0]) host m).2 0x1000 ≤ 64 := by
    rw [written]
    exact scanBefore ends
  have low : 0x77610000 ≤ a := inside.1
  exact absurd (Nat.le_trans low (Nat.le_trans within (Nat.add_le_add_left short 0x1000)))
    (by decide)

theorem tamperingUnreportedOnce :
    said (act fun _ => payloadDigest) (fun _ => 0) [patch,request] =
      said (act fun _ => payloadDigest) (fun _ => 0) [request] := by
  have clear : Throughout (act fun _ => payloadDigest) (Clear (fun _ => payloadDigest) direct)
      (fun _ => 0) [patch,request] :=
    ⟨trivial,requestClear rfl,trivial⟩
  exact (tamperingUnreported _ direct _ [patch,request] clear).1

end TeePa.Tampering
