import Conglobate.Lib.Text

/- Lines and words of a text, as `str` has them. -/
namespace Conglobate.Text

/-- `char::is_whitespace`. -/
def isWhitespace (c : Char) : Bool :=
  (9 ≤ c.toNat && c.toNat ≤ 13) || c.toNat = 32 || c.toNat = 0x85 || c.toNat = 0xA0 ||
    c.toNat = 0x1680 ||
    (0x2000 ≤ c.toNat && c.toNat ≤ 0x200A) || c.toNat = 0x2028 || c.toNat = 0x2029 ||
      c.toNat = 0x202F ||
    c.toNat = 0x205F || c.toNat = 0x3000

/-- `contains`. -/
def hasPart (t p : Text) : Bool := t.tails.any fun rest => p.isPrefixOf rest

/-- `split_whitespace`. -/
def words (t : Text) : List Text := (t.splitOnP isWhitespace).filter (fun word => !word.isEmpty)

def stripReturn (line : Text) : Text := if line.getLast? = some '\r' then line.dropLast else line

/-- `lines`: one behind each newline, and a last one that is not empty. -/
def lines (t : Text) : List Text :=
  (t.splitOn '\n').dropLast.map stripReturn ++ ((t.splitOn '\n').getLast?.filter
    (fun line => !line.isEmpty)).toList

end Conglobate.Text
