import Downlink.Text.Hex

/-!
# Socket addresses

An internet address with a port, as `127.0.0.1:40868` or `[fe80::1%7]:40868`. Reading accepts
every way to write an address; writing picks one: lower-case groups without leading zeros, the
longest run of zero groups left out, and a mapped version 4 address in its own notation.
-/

namespace Downlink

structure Ipv4 where
  a : UInt8
  b : UInt8
  c : UInt8
  d : UInt8
deriving DecidableEq, Repr

structure Ipv6 where
  groups : List UInt16
  length_groups : groups.length = 8
deriving DecidableEq, Repr

inductive Address
  | v4 (host : Ipv4) (port : UInt16)
  | v6 (host : Ipv6) (scope : UInt32) (port : UInt16)
deriving DecidableEq, Repr

/-! ## Writing -/

namespace Ipv4

def text (ip : Ipv4) : String :=
  ".".intercalate ([ip.a, ip.b, ip.c, ip.d].map fun octet => toString octet.toNat)

/-- The address as the last two groups of a version 6 address. -/
def groups (ip : Ipv4) : List UInt16 :=
  [256 * ip.a.toUInt16 + ip.b.toUInt16, 256 * ip.c.toUInt16 + ip.d.toUInt16]

def ofGroups (high low : UInt16) : Ipv4 :=
  ⟨(high / 256).toUInt8, high.toUInt8, (low / 256).toUInt8, low.toUInt8⟩

end Ipv4

namespace Ipv6

def ofGroups? (groups : List UInt16) : Option Ipv6 :=
  if h : groups.length = 8 then some ⟨groups, h⟩ else none

def mapped? (ip : Ipv6) : Option Ipv4 :=
  match ip.groups with
  | [0, 0, 0, 0, 0, 0xffff, high, low] => some (.ofGroups high low)
  | _ => none

/-- The start and length of the longest run of zeros, the first of several. -/
def longestZeros (groups : List UInt16) : Nat × Nat :=
  (List.range groups.length).foldl (fun best start =>
    let length := ((groups.drop start).takeWhile (· = 0)).length
    if best.2 < length then (start, length) else best) (0, 0)

def groupsText (groups : List UInt16) : String :=
  ":".intercalate (groups.map fun group => Hex.ofNat 1 group.toNat)

def text (ip : Ipv6) : String :=
  match ip.mapped? with
  | some ip => "::ffff:" ++ ip.text
  | none =>
    let (start, length) := longestZeros ip.groups
    if 1 < length then
      groupsText (ip.groups.take start) ++ "::" ++ groupsText (ip.groups.drop (start + length))
    else groupsText ip.groups

end Ipv6

namespace Address

def text : Address → String
  | .v4 host port => host.text ++ ":" ++ toString port.toNat
  | .v6 host scope port =>
    let scope := if scope = 0 then "" else "%" ++ toString scope.toNat
    "[" ++ host.text ++ scope ++ "]:" ++ toString port.toNat

/-! ## Reading -/

def takeChar (expected : Char) : List Char → Option (List Char)
  | c :: rest => if c = expected then some rest else none
  | [] => none

/-- Takes a number below a bound from the front of a text. -/
def takeNumber (base maxDigits bound : Nat) (leadingZeros : Bool) (cs : List Char) :
    Option (Nat × List Char) :=
  let isDigit (c : Char) := (Hex.value? c).any (· < base)
  let digits := cs.takeWhile isDigit
  let value := digits.foldl (fun n c => base * n + (Hex.value? c).getD 0) 0
  if digits.isEmpty ∨ maxDigits < digits.length ∨ bound ≤ value
      ∨ (!leadingZeros ∧ 1 < digits.length ∧ digits.head? = some '0') then none
  else some (value, cs.drop digits.length)

def takeOctet (cs : List Char) : Option (UInt8 × List Char) := do
  let (n, cs) ← takeNumber 10 3 256 false cs
  return (UInt8.ofNat n, cs)

def takeIpv4 (cs : List Char) : Option (Ipv4 × List Char) := do
  let (a, cs) ← takeOctet cs
  let (b, cs) ← takeOctet (← takeChar '.' cs)
  let (c, cs) ← takeOctet (← takeChar '.' cs)
  let (d, cs) ← takeOctet (← takeChar '.' cs)
  return (⟨a, b, c, d⟩, cs)

/-- Takes as many groups as there are, but no more than `limit`. A version 4 address may stand for
the last two; the flag tells that it does. -/
def takeGroups : Nat → Bool → List Char → List UInt16 × Bool × List Char
  | 0, _, cs => ([], false, cs)
  | limit + 1, first, cs =>
    match if first then some cs else takeChar ':' cs with
    | none => ([], false, cs)
    | some after =>
      match if 0 < limit then takeIpv4 after else none with
      | some (ip, rest) => (ip.groups, true, rest)
      | none =>
        match takeNumber 16 4 65536 true after with
        | none => ([], false, cs)
        | some (group, rest) =>
          let (groups, endsInV4, rest) := takeGroups limit false rest
          (UInt16.ofNat group :: groups, endsInV4, rest)

/-- Takes eight groups, a run of zeros perhaps left out. -/
def takeIpv6 (cs : List Char) : Option (Ipv6 × List Char) := do
  let (head, endsInV4, rest) := takeGroups 8 true cs
  if head.length = 8 then return (← Ipv6.ofGroups? head, rest)
  else if endsInV4 then none
  else do
    let rest ← takeChar ':' (← takeChar ':' rest)
    let (tail, _, rest) := takeGroups (7 - head.length) true rest
    let zeros := List.replicate (8 - head.length - tail.length) 0
    return (← Ipv6.ofGroups? (head ++ zeros ++ tail), rest)

def takePort (cs : List Char) : Option (UInt16 × List Char) := do
  let rest ← takeChar ':' cs
  let (n, rest) ← takeNumber 10 rest.length UInt16.size true rest
  return (UInt16.ofNat n, rest)

/-- Takes the scope of a version 6 address, zero if there is none. -/
def takeScope (cs : List Char) : UInt32 × List Char :=
  match takeChar '%' cs with
  | some rest =>
    match takeNumber 10 rest.length UInt32.size true rest with
    | some (n, rest) => (UInt32.ofNat n, rest)
    | none => (0, cs)
  | none => (0, cs)

def takeV4 (cs : List Char) : Option (Address × List Char) := do
  let (host, rest) ← takeIpv4 cs
  let (port, rest) ← takePort rest
  return (.v4 host port, rest)

def takeV6 (cs : List Char) : Option (Address × List Char) := do
  let (host, rest) ← takeIpv6 (← takeChar '[' cs)
  let (scope, rest) := takeScope rest
  let (port, rest) ← takePort (← takeChar ']' rest)
  return (.v6 host scope port, rest)

/-- Reads a text that is an address and nothing else. -/
def ofText? (text : String) : Option Address := do
  let cs := text.toList
  let (address, rest) ← (takeV4 cs).or (takeV6 cs)
  if rest.isEmpty then return address else none

def loopback (port : UInt16) : Address :=
  .v4 ⟨127, 0, 0, 1⟩ port

/-- Any version 4 address of the host, and any port that is free. -/
def unspecified : Address :=
  .v4 ⟨0, 0, 0, 0⟩ 0

end Address

end Downlink
