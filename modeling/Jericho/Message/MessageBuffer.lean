import Jericho.Util.Prizm

/-! A message to another node, with the state its fetch job and its replies write. -/
namespace Jericho.Message
open StdText Util

/-- `latency` is the bit pattern of a double, `timestamp` counts nanoseconds, `broker` is the weak
pointer to the broker that lists the message. -/
structure MessageBuffer where
  ticket : Int := -1
  id : Int := -1
  fulfilled : Int := 0
  latency : UInt64 := 0
  timeout : Int := 5000000
  hostname : Bytes := lit "undefined"
  port : Bytes := lit "undefined"
  fromHost : Bytes := lit "undefined"
  fromPort : Bytes := lit "undefined"
  sent : Bytes := lit "undefined"
  toHost : Bytes := []
  toPort : Bytes := []
  received : Bytes := lit "undefined"
  url : Bytes := []
  headers : StrMap := ∅
  protocol : Bytes := []
  path : Bytes := lit "undefined"
  dir : Bytes := lit "undefined"
  type : Bytes := lit "text/plain"
  timestamp : Int := 0
  broker : Option Nat := none
  deriving DecidableEq

end Jericho.Message
