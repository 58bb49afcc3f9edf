import Conglobate.Lib.Text

/- The texts that `str::parse` reads as an IPv6 address. A reader gives what is
   left behind what it read, or nothing, and then it has read nothing; the
   groups' values are not kept.

   Correspondence (Rust ↔ Lean):
     `Parser::read_number`     ↔ `readNumber`
     `Parser::read_given_char` ↔ `readGivenChar`
     `Parser::read_separator`  ↔ `readSeparator`
     `read_groups`             ↔ `readGroups` (`left` slots of the buffer, `i` filled before)
     `Ipv6Addr::from_str`      ↔ `parses` -/
namespace Conglobate.Ipv6

/-- `char::to_digit`. -/
def toDigit (radix : Nat) (c : Char) : Option Nat := (Hex.value c).filter (· < radix)

def readNumber (radix maxDigits bound : Nat) (zeroPrefix : Bool) (t : Text) : Option Text :=
  let digits := t.takeWhile (fun c => (toDigit radix c).isSome)
  if digits = [] ∨ maxDigits < digits.length then none
  else if !zeroPrefix ∧ t.head? = some '0' ∧ 1 < digits.length then none
  else if digits.foldl (fun n c => radix * n + (toDigit radix c).getD 0) 0 < bound then
    some (t.drop digits.length)
  else none

def readGivenChar (given : Char) : Text → Option Text
  | [] => none
  | c :: rest => if c = given then some rest else none

/-- The first of a series has no separator before it. -/
def readSeparator (sep : Char) (index : Nat) (inner : Text → Option Text) (t : Text) :
    Option Text :=
  if 0 < index then (readGivenChar sep t).bind inner else inner t

/-- `read_ipv4_addr`: four octets, none with a leading zero. -/
def readIpv4Addr (t : Text) : Option Text :=
  (List.range 4).foldlM (fun rest i => readSeparator '.' i (readNumber 10 3 (2 ^ 8) false) rest) t

/-- The number of groups read, whether an IPv4 address was the last two of them,
    and what is left. -/
def readGroups : (left i : Nat) → Text → Nat × Bool × Text
  | 0, i, t => (i, false, t)
  | left + 1, i, t =>
    -- an embedded address needs two free groups
    match if 0 < left then readSeparator ':' i readIpv4Addr t else none with
    | some rest => (i + 2, true, rest)
    | none =>
      match readSeparator ':' i (readNumber 16 4 (2 ^ 16) true) t with
      | some rest => readGroups left (i + 1) rest
      | none => (i, false, t)

def readIpv6Addr (t : Text) : Option Text :=
  let head := readGroups 8 0 t
  if head.1 = 8 then some head.2.2
  else if head.2.1 then none
  else
    -- `::` stands for one group of zeroes at least
    ((readGivenChar ':' head.2.2).bind (readGivenChar ':')).map (fun rest =>
      (readGroups (8 - (head.1 + 1)) 0 rest).2.2)

/-- The whole text is an address. -/
def parses (t : Text) : Bool := readIpv6Addr t = some []

example : parses "::1".toList = true := by decide +kernel
example : parses "64:ff9b::192.0.2.33".toList = true := by decide +kernel
example : parses "1:2:3:4:5:6:7::8".toList = false := by decide +kernel

end Conglobate.Ipv6
