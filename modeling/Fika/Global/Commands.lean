import Fika.Lib.CharArray

/-!
# Commands and responses (`commands.h`)

What the `fika` command line tool and the supervisor send each other.

- `CommandMessage`: a command type and a service name in a fixed-size array;
  `service_make` says what is read back of a name.
- `CommandResponse`, `pong`.
-/

namespace Fika

open Lib

/-- `CommandType`. -/
inductive CommandType where
  | start
  | stop
  | restart
  | reload
  | status
  | logs
  | ping
  | help
deriving DecidableEq, Repr

/-- `SERVICE_NAME_MAX_LEN`. -/
abbrev serviceNameMaxLen : Nat := 64

/-- `SERVICE_RESPONSE_LEN`. -/
abbrev serviceResponseLen : Nat := 256

/-- `CommandMessage`. -/
structure CommandMessage where
  cmd : CommandType
  serviceName : CharArray serviceNameMaxLen
deriving DecidableEq

namespace CommandMessage

/-- The constructor: the name is copied, cut to fit and terminated. -/
def make (cmd : CommandType) (service : Str) : CommandMessage where
  cmd := cmd
  serviceName := CharArray.assign serviceNameMaxLen service

/-- `CommandMessage::service`. -/
def service (msg : CommandMessage) : Str := msg.serviceName.str

/-- A name comes back cut to the array and to its first NUL. -/
theorem service_make (cmd : CommandType) (service : Str) :
    (make cmd service).service = cStr (service.take (serviceNameMaxLen - 1)) :=
  CharArray.str_assign service

end CommandMessage

/-- `CommandResponse`. -/
structure CommandResponse where
  success : Bool := false
  message : CharArray serviceResponseLen := CharArray.zero serviceResponseLen
deriving DecidableEq

/-- The response of `ping_command`. -/
def pong : CommandResponse where
  success := true
  message := CharArray.assign serviceResponseLen (lit "pong")

end Fika
