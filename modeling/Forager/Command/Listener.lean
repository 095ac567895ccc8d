import Forager.Number.Read

/-!
# Listening addresses

The address at which metrics are served is a host and a port with a colon between them. A host that has colons itself
stands in brackets.
-/

namespace Forager.Command

set_option autoImplicit false

inductive AddressError where
  | missingPort (address : String)
  | tooManyColons (address : String)
  | unclosed (address : String)
  | unexpected (bracket : Char) (address : String)
  | invalidPort (port : String)
  | unknownPort (name : String)
  deriving DecidableEq, Repr

def AddressError.message : AddressError → String
  | .missingPort address => s!"address {address}: missing port in address"
  | .tooManyColons address => s!"address {address}: too many colons in address"
  | .unclosed address => s!"address {address}: missing ']' in address"
  | .unexpected bracket address => s!"address {address}: unexpected '{bracket}' in address"
  | .invalidPort port => s!"address {port}: invalid port"
  | .unknownPort name => s!"lookup tcp/{name}: unknown port"

/-- What stands after the last colon, and what stands before it. -/
def splitPort? (cs : List Char) : Option (List Char × List Char) :=
  match cs.reverse.dropWhile (· ≠ ':') with
  | [] => none
  | _ :: host => some ((cs.reverse.takeWhile (· ≠ ':')).reverse, host.reverse)

def portOf (address : String) : Except AddressError (List Char) :=
  let cs := address.toList
  match splitPort? cs with
  | none => .error (.missingPort address)
  | some (port, host) =>
    match cs with
    | '[' :: rest =>
      match rest.dropWhile (· ≠ ']') with
      | [] => .error (.unclosed address)
      | [_] => .error (.missingPort address)
      | _ :: c :: port =>
        if c ≠ ':' then .error (.missingPort address)
        else if port.contains ':' then .error (.tooManyColons address)
        else if rest.contains '[' then .error (.unexpected '[' address)
        else if port.contains ']' then .error (.unexpected ']' address)
        else .ok port
    | _ =>
      if host.contains ':' then .error (.tooManyColons address)
      else if cs.contains '[' then .error (.unexpected '[' address)
      else if cs.contains ']' then .error (.unexpected ']' address)
      else .ok port

def namedPorts : List String :=
  ["domain", "ftp", "ftps", "gopher", "http", "https", "imap2", "imap3", "imaps", "pop3", "pop3s", "smtp",
    "submissions", "ssh", "telnet"]

def decimalValue (digits : List Char) : Nat := digits.foldl (fun n c => 10 * n + (c.toNat - '0'.toNat)) 0

/-- Requires that a port is a number that fits 16 bits, or has a name. The empty port is any free one. -/
def checkPort (port : List Char) : Except AddressError Unit :=
  let (negative, digits) := Number.splitSign port
  let n := decimalValue digits
  if !digits.all Char.isDigit then
    if namedPorts.contains (String.ofList port) then .ok () else .error (.unknownPort (String.ofList port))
  else if n ≤ 65535 && !(negative && 0 < n) then .ok ()
  else .error (.invalidPort (String.ofList port))

/-- Requires that an address can be listened at. -/
def checkAddress (address : String) : Except AddressError Unit := do checkPort (← portOf address)

end Forager.Command
