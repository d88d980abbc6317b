import TeePa.CollectTa
import TeePa.Texts

/-! The pseudo trusted application that writes a digest, in hex digits, to its
caller's buffer. The SHA-256 of mbedtls is a parameter. -/
namespace TeePa.MemoryIntrospection
open CStrings CollectTa
open Texts (asciiText a2bHex hexText a2bHexText)

def teeErrorNotImplemented : UInt32 := 0xFFFF0009
def teeErrorShortBuffer : UInt32 := 0xFFFF0010
def teeParamTypeValueInout : UInt32 := 3
def teeParamTypeMemrefOutput : UInt32 := 6
def teeParamTypeMemrefInout : UInt32 := 7
def ptaCmdGetAddress : UInt32 := 0x0
def ptaCmdGetHash : UInt32 := 0x1

structure Digest where
  bytes : Bytes
  size : bytes.length = 32
  deriving DecidableEq, Repr

structure Memref where
  buffer : Nat
  size : Nat
  deriving DecidableEq, Repr

def hexLookUp : Bytes := "0123456789abcdef".toUTF8.toList

def bytes2hex : Bytes → Nat → Memory → Memory
  | [],out,m => write m out [0]
  | src::rest,out,m =>
      let high := hexLookUp.getD (src >>> 4).toNat 0
      let low := hexLookUp.getD (src &&& 0x0F).toNat 0
      bytes2hex rest (out+2) (write (write m out [high]) (out+1) [low])

/- The same loop by its two pointers, with the bytes still in memory. -/
def bytes2hexAt : Nat → Nat → Nat → Memory → Memory
  | 0,_,out,m => write m out [0]
  | len+1,src,out,m =>
      let m := write m out [hexLookUp.getD (m src >>> 4).toNat 0]
      let m := write m (out+1) [hexLookUp.getD (m src &&& 0x0F).toNat 0]
      bytes2hexAt len (src+1) (out+2) m

-- What the two memory hashes find goes to the debug log only.
def getMemoryAddress (types : UInt32) : UInt32 :=
  if types ≠ teeParamTypes
      [teeParamTypeMemrefInout,teeParamTypeNone,teeParamTypeNone,teeParamTypeNone] then
    teeErrorBadParameters
  else teeSuccess

def payload : Bytes := "Hello SHA 256!".toUTF8.toList

/- The local buffer of 65 cells is a memory of its own, from cell 0 on; what it
holds at first is left open. -/
def communicationTestTaToPta (sha256 : Bytes → Digest) (stack : Memory) (types : UInt32)
    (params : Memref) (m : Memory) : UInt32 × Memory :=
  if types ≠ teeParamTypes
      [teeParamTypeValueInout,teeParamTypeMemrefOutput,teeParamTypeNone,teeParamTypeNone] then
    (teeErrorBadParameters,m)
  else
    let hashResult := sha256 payload
    let buffer := bytes2hex hashResult.bytes 0 stack
    -- memcpy of 64 bytes, whatever the size of the caller's buffer.
    (teeSuccess,write m params.buffer (load buffer 0 64))

def invokeCommand (sha256 : Bytes → Digest) (stack : Memory) (nCommandId nParamTypes : UInt32)
    (params : Memref) (m : Memory) : UInt32 × Memory :=
  if nCommandId = ptaCmdGetAddress then (getMemoryAddress nParamTypes,m)
  else if nCommandId = ptaCmdGetHash then
    communicationTestTaToPta sha256 stack nParamTypes params m
  else (teeErrorNotImplemented,m)

def hexDigit (n : Nat) : UInt8 := (Nat.digitChar n).toNat.toUInt8

def hexPair (b : UInt8) : Bytes := [hexDigit (b.toNat / 16),hexDigit (b.toNat % 16)]

def hexDigits (bytes : Bytes) : Bytes := bytes.flatMap hexPair

theorem hexLookUpDigit : ∀ n < 16, hexLookUp.getD n 0 = hexDigit n := by decide +kernel

theorem hexDigitNotNul : ∀ n < 16, hexDigit n ≠ 0 := by decide

theorem highHalf (b : UInt8) : (b >>> 4).toNat = b.toNat / 16 := by
  rw [UInt8.toNat_shiftRight,Nat.shiftRight_eq_div_pow]
  rfl

theorem lowHalf (b : UInt8) : (b &&& 0x0F).toNat = b.toNat % 16 := by
  rw [UInt8.toNat_and]
  exact Nat.and_two_pow_sub_one_eq_mod b.toNat 4

theorem highSmall (b : UInt8) : b.toNat / 16 < 16 := by
  have size := b.toNat_lt
  omega

theorem lowSmall (b : UInt8) : b.toNat % 16 < 16 := Nat.mod_lt _ (by decide)

@[simp] theorem hexDigitsLength (bytes : Bytes) : (hexDigits bytes).length = 2 * bytes.length := by
  induction bytes with
  | nil => rfl
  | cons b rest ih =>
    simp only [hexDigits,List.flatMap_cons,List.length_append,List.length_cons] at ih ⊢
    rw [ih]
    simp only [hexPair,List.length_cons,List.length_nil]
    omega

theorem digestDigits (d : Digest) : (hexDigits d.bytes).length = 64 := by
  rw [hexDigitsLength,d.size]

theorem hexDigitsNulFree (bytes : Bytes) : ∀ d ∈ hexDigits bytes, d ≠ 0 := by
  intro d mem
  obtain ⟨b,_,digit⟩ := List.mem_flatMap.mp mem
  rcases List.mem_cons.mp digit with rfl | low
  · exact hexDigitNotNul _ (highSmall b)
  · cases List.mem_singleton.mp low
    exact hexDigitNotNul _ (lowSmall b)

theorem bytes2hexWrites (src : Bytes) (out : Nat) (m : Memory) :
    bytes2hex src out m = write m out (hexDigits src ++ [0]) := by
  induction src generalizing out m with
  | nil => rfl
  | cons b rest ih =>
    have high := hexLookUpDigit _ (highSmall b)
    have low := hexLookUpDigit _ (lowSmall b)
    have pair : write (write m out [hexDigit (b.toNat / 16)]) (out+1) [hexDigit (b.toNat % 16)] =
        write m out (hexPair b) := writeAppend m out [_] [_]
    have position : out + 2 = out + (hexPair b).length := rfl
    simp only [bytes2hex,highHalf,lowHalf,high,low,pair]
    rw [ih,position,writeAppend,← List.append_assoc]
    rfl

/- Where the two arrays do not overlap, the bytes are read as they were before. -/
theorem bytes2hexAtReads {len src out : Nat} (m : Memory)
    (apart : src + len ≤ out ∨ out + 2 * len < src) :
    bytes2hexAt len src out m = bytes2hex (load m src len) out m := by
  induction len generalizing src out m with
  | zero => rfl
  | succ len ih =>
    let after := write (write m out [hexLookUp.getD (m src >>> 4).toNat 0]) (out+1)
      [hexLookUp.getD (m src &&& 0x0F).toNat 0]
    have kept : ∀ x, x < out ∨ out + 2 ≤ x → after x = m x := by
      intro x outside
      change write (write m out [_]) (out+1) [_] x = m x
      rw [writeOutside (by simp only [List.length_singleton]; omega),
        writeOutside (by simp only [List.length_singleton]; omega)]
    have own : write m out [hexLookUp.getD (m src >>> 4).toNat 0] src = m src :=
      writeOutside (by simp only [List.length_singleton]; omega)
    have later : load after (src+1) len = load m (src+1) len := by
      apply List.map_congr_left
      intro i inside
      have small := List.mem_range.mp inside
      exact kept _ (by omega)
    have step : bytes2hexAt (len+1) src out m = bytes2hexAt len (src+1) (out+2) after := by
      simp only [bytes2hexAt,own,after]
    rw [step,ih after (by omega),later,loadSucc]
    rfl

structure Encodes (src digits : Bytes) : Prop where
  length : digits.length = 2 * src.length
  lowerCase : ∀ d ∈ digits, (0x30 ≤ d ∧ d ≤ 0x39) ∨ (0x61 ≤ d ∧ d ≤ 0x66)
  decodes : a2bHex (asciiText digits) = some src

theorem lowerCaseDigit : ∀ n < 16, (0x30 ≤ hexDigit n ∧ hexDigit n ≤ 0x39) ∨
    (0x61 ≤ hexDigit n ∧ hexDigit n ≤ 0x66) := by decide

theorem digitText : ∀ n < 16, Char.ofNat (hexDigit n).toNat = Nat.digitChar n := by decide

theorem digitReads : ∀ n < 16, Texts.hexDigit (Nat.digitChar n) = some (UInt8.ofNat n) := by decide

theorem digitsText (src : Bytes) : asciiText (hexDigits src) = hexText Nat.digitChar src := by
  induction src with
  | nil => rfl
  | cons b rest ih =>
    have high := digitText _ (highSmall b)
    have low := digitText _ (lowSmall b)
    have front : asciiText (hexPair b) =
        [Nat.digitChar (b.toNat / 16),Nat.digitChar (b.toNat % 16)] := by
      simp only [asciiText,hexPair,List.map_cons,List.map_nil,high,low]
    have split : asciiText (hexDigits (b::rest)) = asciiText (hexPair b) ++ asciiText (hexDigits rest) :=
      List.map_append
    rw [split,front,ih]
    rfl

theorem hexDigitsEncode (src : Bytes) : Encodes src (hexDigits src) := by
  refine ⟨hexDigitsLength src,?_,?_⟩
  · intro d mem
    obtain ⟨b,_,digit⟩ := List.mem_flatMap.mp mem
    rcases List.mem_cons.mp digit with rfl | low
    · exact lowerCaseDigit _ (highSmall b)
    · cases List.mem_singleton.mp low
      exact lowerCaseDigit _ (lowSmall b)
  · rw [digitsText]
    exact a2bHexText digitReads src

theorem encodesInjective {src other digits : Bytes} (one : Encodes src digits)
    (two : Encodes other digits) : src = other :=
  Option.some.inj (one.decodes.symm.trans two.decodes)

theorem bytes2hexText (src : Bytes) (out : Nat) (m : Memory) :
    load (bytes2hex src out m) out (2 * src.length + 1) = hexDigits src ++ [0] := by
  have size : (hexDigits src ++ [0]).length = 2 * src.length + 1 := by
    rw [List.length_append,hexDigitsLength,List.length_singleton]
  rw [bytes2hexWrites,loadWritten (by omega),← size,List.take_length]

theorem bytes2hexInvertible (src : Bytes) (out : Nat) (m : Memory) :
    (∃ digits, Encodes src digits ∧
      load (bytes2hex src out m) out (2 * src.length + 1) = digits ++ [0]) ∧
    (∀ x, x < out ∨ out + 2 * src.length < x → bytes2hex src out m x = m x) ∧
    ∀ other out' m', load (bytes2hex src out m) out (2 * src.length + 1) =
      load (bytes2hex other out' m') out' (2 * other.length + 1) → src = other := by
  refine ⟨⟨hexDigits src,hexDigitsEncode src,bytes2hexText src out m⟩,?_,?_⟩
  · intro x outside
    rw [bytes2hexWrites]
    apply writeOutside
    rw [List.length_append,hexDigitsLength,List.length_singleton]
    omega
  · intro other out' m' same
    rw [bytes2hexText,bytes2hexText] at same
    have digits := List.append_cancel_right same
    exact encodesInjective (hexDigitsEncode src) (digits ▸ hexDigitsEncode other)

theorem bytes2hexDigits (src : Bytes) (stack : Memory) {n : Nat} (size : n = 2 * src.length) :
    load (bytes2hex src 0 stack) 0 n = hexDigits src := by
  have whole : n = (hexDigits src).length := by rw [hexDigitsLength,size]
  rw [bytes2hexWrites,loadWritten (by rw [List.length_append,whole]; omega),whole,
    List.take_left']
  rfl

theorem getHashWrites (sha256 : Bytes → Digest) (stack : Memory) (params : Memref) (m : Memory) :
    invokeCommand sha256 stack ptaCmdGetHash (teeParamTypes [3,6,0,0]) params m =
      (teeSuccess,write m params.buffer (hexDigits (sha256 payload).bytes)) := by
  have command : invokeCommand sha256 stack ptaCmdGetHash (teeParamTypes [3,6,0,0]) params m =
      communicationTestTaToPta sha256 stack (teeParamTypes [3,6,0,0]) params m := rfl
  have types : ¬ teeParamTypes [3,6,0,0] ≠ teeParamTypes
      [teeParamTypeValueInout,teeParamTypeMemrefOutput,teeParamTypeNone,teeParamTypeNone] :=
    not_not_intro rfl
  have digits : load (bytes2hex (sha256 payload).bytes 0 stack) 0 64 =
      hexDigits (sha256 payload).bytes :=
    bytes2hexDigits _ stack (by rw [(sha256 payload).size])
  rw [command,communicationTestTaToPta,if_neg types]
  exact congrArg (fun written => (teeSuccess,write m params.buffer written)) digits

def getHashTypes : UInt32 := teeParamTypes
  [teeParamTypeValueInout,teeParamTypeMemrefOutput,teeParamTypeNone,teeParamTypeNone]

theorem getHashRefused {types : UInt32} (wrong : types ≠ getHashTypes) (sha256 : Bytes → Digest)
    (stack : Memory) (params : Memref) (m : Memory) :
    invokeCommand sha256 stack ptaCmdGetHash types params m = (teeErrorBadParameters,m) := by
  have command : invokeCommand sha256 stack ptaCmdGetHash types params m =
      communicationTestTaToPta sha256 stack types params m := rfl
  rw [command,communicationTestTaToPta]
  exact if_pos wrong

/- The contract of the hash command over its caller's buffer, with the error that the
header of the interface names for a buffer that is too short. -/
structure HashContract (digest : Digest) (types : UInt32) (params : Memref) (m : Memory)
    (result : UInt32 × Memory) : Prop where
  frame : ∀ x, x < params.buffer ∨ params.buffer + params.size ≤ x → result.2 x = m x
  outcome : (result.1 = teeSuccess ∧ 64 ≤ params.size ∧
      load result.2 params.buffer 64 = hexDigits digest.bytes ∧
      ∀ x, x < params.buffer ∨ params.buffer + 64 ≤ x → result.2 x = m x) ∨
    (result.1 ≠ teeSuccess ∧ result.2 = m)
  short : types = getHashTypes → params.size < 64 → result.1 = teeErrorShortBuffer

theorem getHashContract (sha256 : Bytes → Digest) (stack : Memory) (types : UInt32)
    (params : Memref) (m : Memory) :
    HashContract (sha256 payload) types params m
      (invokeCommand sha256 stack ptaCmdGetHash types params m) ↔
    types ≠ getHashTypes ∨ 64 ≤ params.size := by
  by_cases expected : types = getHashTypes
  · subst expected
    have run : invokeCommand sha256 stack ptaCmdGetHash getHashTypes params m =
        (teeSuccess,write m params.buffer (hexDigits (sha256 payload).bytes)) :=
      getHashWrites sha256 stack params m
    have size := digestDigits (sha256 payload)
    rw [run]
    constructor
    · intro contract
      refine .inr (Nat.le_of_not_lt ?_)
      intro small
      have code : teeSuccess = teeErrorShortBuffer := contract.short rfl small
      exact absurd code (by decide)
    · rintro (wrong | large)
      · exact absurd rfl wrong
      · have behind : ∀ x, x < params.buffer ∨ params.buffer + 64 ≤ x →
            write m params.buffer (hexDigits (sha256 payload).bytes) x = m x := by
          intro x outside
          exact writeOutside (by omega)
        refine ⟨?_,.inl ⟨rfl,large,?_,behind⟩,?_⟩
        · intro x outside
          exact behind x (by omega)
        · rw [loadWritten (Nat.le_of_eq size.symm),← size,List.take_length]
        · intro _ small
          exact absurd small (Nat.not_lt_of_le large)
  · rw [getHashRefused expected]
    have failed : teeErrorBadParameters ≠ teeSuccess := by decide
    exact ⟨fun _ => .inl expected,
      fun _ => ⟨fun _ _ => rfl,.inr ⟨failed,rfl⟩,fun same => absurd same expected⟩⟩

theorem getHashOverruns :
    let result := invokeCommand (fun _ => ⟨List.replicate 32 0,rfl⟩) (fun _ => 0) ptaCmdGetHash
      getHashTypes ⟨100,0⟩ (fun _ => 0)
    result.1 = teeSuccess ∧ result.2 163 = 0x30 ∧
    ¬ HashContract ⟨List.replicate 32 0,rfl⟩ getHashTypes ⟨100,0⟩ (fun _ => 0) result := by
  intro result
  refine ⟨by decide +kernel,by decide +kernel,?_⟩
  intro contract
  have kept : result.2 163 = 0 := contract.frame 163 (.inr (by decide))
  exact absurd kept (by decide +kernel)

end TeePa.MemoryIntrospection
