import Conglobate.Lib.ByteStore

/- ASCII text as bytes: the classes of `u8::is_ascii_*` and the characters the
   formats of this development name. A string is its UTF-8 bytes; every test a
   parser makes is on ASCII bytes, so a scan never splits a longer character. -/
namespace Conglobate

namespace Ascii

abbrev tab : UInt8 := 9
abbrev newline : UInt8 := 10
abbrev verticalTab : UInt8 := 11
abbrev formFeed : UInt8 := 12
abbrev carriageReturn : UInt8 := 13
abbrev blank : UInt8 := 32
abbrev doubleQuote : UInt8 := 34
abbrev hash : UInt8 := 35
abbrev singleQuote : UInt8 := 39
abbrev plus : UInt8 := 43
abbrev comma : UInt8 := 44
abbrev hyphen : UInt8 := 45
abbrev dot : UInt8 := 46
abbrev colon : UInt8 := 58
abbrev semicolon : UInt8 := 59
abbrev equals : UInt8 := 61
abbrev underscore : UInt8 := 95
abbrev openBrace : UInt8 := 123
abbrev closeBrace : UInt8 := 125

def isAlphanumeric (c : UInt8) : Bool :=
  (48 ≤ c && c ≤ 57) || (65 ≤ c && c ≤ 90) || (97 ≤ c && c ≤ 122)

def isGraphic (c : UInt8) : Bool := 33 ≤ c && c ≤ 126

end Ascii

end Conglobate
