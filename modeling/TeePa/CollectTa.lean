import TeePa.CStrings

/-! The trusted application that forwards a batch to the receiver over TCP. What
the socket layer answers is an input; the calls to it and to the heap are kept in
order. The global sock_handle is written by each successful open before it is
read, so the handle of the open stands for it. -/
namespace TeePa.CollectTa
open CStrings

def teeSuccess : UInt32 := 0x00000000
def teeErrorBadParameters : UInt32 := 0xFFFF0006
def teeIsocketErrorRemoteClosed : UInt32 := 0xF1007002
def teeIsocketErrorTimeout : UInt32 := 0xF1007003
def teeParamTypeNone : UInt32 := 0
def teeParamTypeMemrefInput : UInt32 := 5
def taCollectTcpTest : UInt32 := 0
def taCollectSendMsg : UInt32 := 1

-- t0 | t1 << 4 | t2 << 8 | t3 << 12.
def teeParamTypes (types : List UInt32) : UInt32 := types.foldr (fun t rest => t ||| rest <<< 4) 0

inductive TaCall where
  | open (result : Option Nat)
  | send (ctx : Nat) (data : Bytes) (accepted : Bool)
  | close (ctx : Nat)
  | malloc (block : Nat) (size : Nat)
  | free (block : Nat)
  deriving DecidableEq, Repr

structure Network where
  socketOpen : Option Nat
  socketSend : Bool
  block : Nat
  deriving DecidableEq, Repr

def taOpenSessionEntryPoint (paramTypes : UInt32) (net : Network) : UInt32 × List TaCall :=
  if paramTypes ≠ teeParamTypes
      [teeParamTypeNone,teeParamTypeNone,teeParamTypeNone,teeParamTypeNone] then
    (teeErrorBadParameters,[])
  else match net.socketOpen with
    | none => (teeIsocketErrorRemoteClosed,[.open none])
    | some ctx => (teeSuccess,[.open (some ctx)])

/- The length arrives cast to a pointer; send reads 32 bits of it back. -/
def sendEventLog (ab : Bytes) (length : Nat) (net : Network) : UInt32 × List TaCall :=
  match net.socketOpen with
  | none => (teeIsocketErrorRemoteClosed,[.open none])
  | some ctx =>
      let sent := [.open (some ctx),.send ctx (ab.take (length % 0x100000000)) net.socketSend]
      if net.socketSend = false then (teeIsocketErrorTimeout,sent)
      else (teeSuccess,sent ++ [.close ctx])

def showRecvMsg (paramTypes : UInt32) (memref : Bytes) (net : Network) : UInt32 × List TaCall :=
  if paramTypes ≠ teeParamTypes
      [teeParamTypeMemrefInput,teeParamTypeNone,teeParamTypeNone,teeParamTypeNone] then
    (teeErrorBadParameters,[])
  else
    let msgLen := memref.length
    -- A zeroed block of that size, then overwritten whole.
    let ab := memref
    let res := sendEventLog ab msgLen net
    if res.1 ≠ teeSuccess then (teeIsocketErrorRemoteClosed,.malloc net.block msgLen :: res.2)
    else (teeSuccess,.malloc net.block msgLen :: res.2 ++ [.free net.block])

-- sizeof(buf) counts the NUL as well.
def testBuf : Bytes := "auditctl -a exit,always  -F success=0 -S kill".toUTF8.toList ++ [0]

def testTcpConnect (net : Network) : UInt32 × List TaCall :=
  match net.socketOpen with
  | none => (teeIsocketErrorRemoteClosed,[.open none])
  | some ctx => (teeSuccess,[.open (some ctx),.send ctx testBuf net.socketSend,.close ctx])

def taInvokeCommandEntryPoint (cmdId paramTypes : UInt32) (memref : Bytes) (net : Network) :
    UInt32 × List TaCall :=
  if cmdId = taCollectTcpTest then testTcpConnect net
  else if cmdId = taCollectSendMsg then showRecvMsg paramTypes memref net
  else (teeErrorBadParameters,[])

def forwardedBy : TaCall → List Bytes
  | .send _ data true => [data]
  | _ => []

def forwarded (calls : List TaCall) : List Bytes := calls.flatMap forwardedBy

theorem sendMsgCommand (memref : Bytes) (net : Network) :
    taInvokeCommandEntryPoint taCollectSendMsg (teeParamTypes [5,0,0,0]) memref net =
      if (sendEventLog memref memref.length net).1 ≠ teeSuccess then
        (teeIsocketErrorRemoteClosed,
          .malloc net.block memref.length :: (sendEventLog memref memref.length net).2)
      else (teeSuccess,.malloc net.block memref.length ::
        (sendEventLog memref memref.length net).2 ++ [.free net.block]) := by
  have command : taInvokeCommandEntryPoint taCollectSendMsg (teeParamTypes [5,0,0,0]) memref net =
      showRecvMsg (teeParamTypes [5,0,0,0]) memref net := rfl
  have types : ¬ teeParamTypes [5,0,0,0] ≠ teeParamTypes
      [teeParamTypeMemrefInput,teeParamTypeNone,teeParamTypeNone,teeParamTypeNone] :=
    not_not_intro rfl
  rw [command,showRecvMsg,if_neg types]

theorem sendMsgForwards {memref : Bytes} {net : Network} (small : memref.length < 0x100000000)
    (ok : (taInvokeCommandEntryPoint taCollectSendMsg (teeParamTypes [5,0,0,0]) memref net).1 =
      teeSuccess) :
    forwarded (taInvokeCommandEntryPoint taCollectSendMsg (teeParamTypes [5,0,0,0]) memref net).2 =
      [memref] := by
  have whole : memref.take (memref.length % 0x100000000) = memref := by
    rw [Nat.mod_eq_of_lt small,List.take_length]
  rw [sendMsgCommand] at ok ⊢
  cases opened : net.socketOpen with
  | none =>
    have closed : teeIsocketErrorRemoteClosed ≠ teeSuccess := by decide
    simp only [sendEventLog,opened,if_pos closed] at ok
    exact absurd ok closed
  | some ctx =>
    cases sent : net.socketSend with
    | false =>
      have late : teeIsocketErrorTimeout ≠ teeSuccess := by decide
      simp only [sendEventLog,opened,sent,if_true,if_pos late] at ok
      exact absurd ok (by decide)
    | true =>
      simp only [sendEventLog,opened,sent,whole]
      rfl

theorem sendMsgSucceeds (memref : Bytes) {net : Network} (connected : net.socketOpen.isSome)
    (taken : net.socketSend = true) :
    (taInvokeCommandEntryPoint taCollectSendMsg (teeParamTypes [5,0,0,0]) memref net).1 =
      teeSuccess := by
  obtain ⟨ctx,opened⟩ := Option.isSome_iff_exists.mp connected
  rw [sendMsgCommand]
  simp only [sendEventLog,opened,taken]
  rfl

end TeePa.CollectTa
