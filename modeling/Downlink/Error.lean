import Downlink.Binary64.Decimal
import Downlink.Marker

/-!
# Errors

Each stage has its own causes: finding the frame, reading or writing its fields, and everything
around the decoder. A cause carries the figures that its message shows.

* `DecodeError.isFatal`: only a broken layout makes every later datagram fail too.
* `LinkError.isRetryable`: what the receive loop may wait out.
-/

namespace Downlink

/-! ## Framing -/

inductive FramingError
  /-- The sync marker occurs nowhere among the searched bytes. -/
  | syncNotFound (marker : Marker) (searched : Nat)
  /-- No terminator occurs in the bytes after the sync marker. -/
  | terminatorNotFound (marker : Marker) (syncOffset searched : Nat)
deriving DecidableEq, Repr

def FramingError.message : FramingError → String
  | .syncNotFound marker searched =>
    "sync marker " ++ marker.text ++ " not found in " ++ toString searched ++ " bytes"
  | .terminatorNotFound marker syncOffset searched =>
    "terminator " ++ marker.text ++ " not found after sync at offset " ++ toString syncOffset
      ++ " (" ++ toString searched ++ " bytes searched)"

/-! ## Fields -/

/-- Why a layout is refused, or a payload does not fit a layout. -/
inductive FieldError
  | insufficientBits (field : String) (needed remaining bitOffset : Nat)
  /-- The field widths do not add up to the declared length. -/
  | lengthMismatch (declared actual : Nat)
  /-- Payload bits follow the last field. -/
  | trailingBits (consumed unread : Nat)
  /-- A width outside `1 … 64`. -/
  | invalidWidth (field : String) (width : Nat)
  | duplicateField (field : String)
  /-- A scale of zero. -/
  | zeroScale (field : String)
  /-- A value that the field's width cannot hold. -/
  | valueOutOfRange (field : String) (value min max : Binary64)
  /-- A field to be written got no value. -/
  | missingValue (field : String)
  /-- A value for a name that the layout does not report. -/
  | unknownField (field : String)
deriving DecidableEq, Repr

namespace FieldError

def message : FieldError → String
  | .insufficientBits field needed remaining bitOffset =>
    "field '" ++ field ++ "' needs " ++ toString needed ++ " bits at bit " ++ toString bitOffset
      ++ " but only " ++ toString remaining ++ " remain"
  | .lengthMismatch declared actual =>
    "schema fields sum to " ++ toString actual ++ " bits but the frame declares "
      ++ toString declared ++ " bits"
  | .trailingBits consumed unread =>
    toString unread ++ " payload bits left unread after consuming " ++ toString consumed
  | .invalidWidth field width =>
    "field '" ++ field ++ "' has invalid bit width " ++ toString width ++ " (expected 1..=64)"
  | .duplicateField field => "field '" ++ field ++ "' appears more than once in the schema"
  | .zeroScale field => "field '" ++ field ++ "' has a zero scale divisor"
  | .valueOutOfRange field value min max =>
    "value " ++ toString value ++ " for field '" ++ field ++ "' is outside [" ++ toString min
      ++ ", " ++ toString max ++ "]"
  | .missingValue field => "no value supplied for field '" ++ field ++ "'"
  | .unknownField field => "field '" ++ field ++ "' is not part of the schema"

/-- Whether the layout itself is at fault, so that no datagram can ever be decoded. -/
def isFatal : FieldError → Bool
  | .lengthMismatch .. | .invalidWidth .. | .duplicateField _ | .zeroScale _ => true
  | _ => false

end FieldError

/-! ## Decoding -/

inductive DecodeError
  | framing (cause : FramingError)
  | unpacking (cause : FieldError)
deriving DecidableEq, Repr

namespace DecodeError

def stage : DecodeError → String
  | .framing _ => "framing"
  | .unpacking _ => "unpacking"

def causeMessage : DecodeError → String
  | .framing cause => cause.message
  | .unpacking cause => cause.message

def message (e : DecodeError) : String :=
  e.stage ++ " failed: " ++ e.causeMessage

def isFatal : DecodeError → Bool
  | .framing _ => false
  | .unpacking cause => cause.isFatal

end DecodeError

/-! ## The link -/

inductive LinkError
  | transport (reason : String) (source : Option String)
  /-- A file could not be read or written. -/
  | file (path source : String)
  /-- A setting is not acceptable. -/
  | config (context details : String)
  /-- The configured layout is not valid. -/
  | layout (cause : FieldError)
  | decode (cause : DecodeError)
  | capture (path : String) (offset : Nat) (details : String)
deriving DecidableEq, Repr

namespace LinkError

/-- A failed system call counts as a transport failure that is its own source. -/
def ofSystem (text : String) : LinkError :=
  .transport text (some text)

def message : LinkError → String
  | .transport reason _ => "Transport failure: " ++ reason
  | .file path _ => "File error: " ++ path
  | .config context details => "Invalid configuration in " ++ context ++ ": " ++ details
  | .layout cause => "Invalid frame schema: " ++ cause.message
  | .decode cause => cause.message
  | .capture path offset details =>
    "Malformed capture file " ++ path ++ " at byte " ++ toString offset ++ ": " ++ details

/-- The message of the error underneath, if there is one. A rejected datagram shows through: its
own cause is underneath. -/
def source : LinkError → Option String
  | .transport _ source => source
  | .file _ source => some source
  | .config .. => none
  | .layout cause => some cause.message
  | .decode cause => some cause.causeMessage
  | .capture .. => none

/-- Whether trying again may help. -/
def isRetryable : LinkError → Bool
  | .transport .. => true
  | .decode cause => !cause.isFatal
  | _ => false

def suggestions : LinkError → List String
  | .transport .. =>
    ["Check that no other process is bound to the receive port",
     "Verify the forwarding shim is running and targets this address",
     "Confirm the bind address exists on this host"]
  | .file .. =>
    ["Check the file exists and is readable",
     "Check file permissions"]
  | .config .. =>
    ["Compare the configuration against the documented defaults",
     "Remove unknown keys and fix value types"]
  | .layout _ =>
    ["Make the field widths sum to the declared frame length",
     "Keep every bit width between 1 and 64",
     "Give every field a unique name and a non-zero scale"]
  | .decode _ =>
    ["Check the sync marker and terminator match the flight software",
     "Check the field layout matches the flight packer"]
  | .capture .. =>
    ["Verify the file was written by the capture command",
     "Re-capture if the file was truncated"]

end LinkError

end Downlink
