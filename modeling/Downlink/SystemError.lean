/-!
# System errors

The refusals of an operating system, each with its number and its text.
-/

namespace Downlink

structure SystemError where
  code : Nat
  text : String
deriving DecidableEq, Repr

namespace SystemError

def message (e : SystemError) : String :=
  e.text ++ " (os error " ++ toString e.code ++ ")"

def notFound : SystemError := ⟨2, "No such file or directory"⟩

def permissionDenied : SystemError := ⟨13, "Permission denied"⟩

def notDirectory : SystemError := ⟨20, "Not a directory"⟩

def isDirectory : SystemError := ⟨21, "Is a directory"⟩

def nameTooLong : SystemError := ⟨36, "File name too long"⟩

end SystemError

end Downlink
