import Mathlib.Data.List.DropRight
import Mathlib.Data.Nat.Notation

/-! Text as the standard library treats it: lists of characters, with number
formatting, trimming and splitting. -/

namespace FerrumDns

/-- Rust text, one character at a time. -/
abbrev Text := List Char

instance lawfulBEq_text : LawfulBEq Text := inferInstance

namespace Text

/-- `{}` of an unsigned integer. -/
def decimal (n : ℕ) : Text := Nat.toDigits 10 n

/-- `{:x}` of an unsigned integer. -/
def lowerHex (n : ℕ) : Text := Nat.toDigits 16 n

/-- `char::is_whitespace`. -/
def isWhitespace (c : Char) : Bool :=
  c.toNat ∈ [0x20, 0x85, 0xa0, 0x1680, 0x2028, 0x2029, 0x202f, 0x205f, 0x3000] ||
    (9 ≤ c.toNat && c.toNat ≤ 13) || (0x2000 ≤ c.toNat && c.toNat ≤ 0x200a)

/-- `trim_start_matches` of one character class. -/
def trimStart (p : Char → Bool) (t : Text) : Text := t.dropWhile p

/-- `trim_end_matches` of one character class. -/
def trimEnd (p : Char → Bool) (t : Text) : Text := t.rdropWhile p

def trim (t : Text) : Text := trimEnd isWhitespace (trimStart isWhitespace t)

/-- `trim_end_matches('.')`. -/
def trimDots (t : Text) : Text := trimEnd (· == '.') t

/-- `strip_prefix`. -/
def stripPrefix (p t : Text) : Option Text :=
  if p.isPrefixOf t then some (t.drop p.length) else none

/-- `to_ascii_lowercase`. -/
def lowercase (t : Text) : Text := t.map Char.toLower

/-- `to_ascii_uppercase`. -/
def uppercase (t : Text) : Text := t.map Char.toUpper

/-- `split_whitespace`. -/
def words (t : Text) : List Text := (t.splitOnP isWhitespace).filter (· ≠ [])

/-- `lines`: without the line feeds, and without a carriage return before one. What follows the last
line feed is a line if there is anything. -/
def lines (t : Text) : List Text :=
  let parts := t.splitOn '\n'
  (parts.dropLast.map fun line => if line.getLast? = some '\r' then line.dropLast else line) ++
    parts.getLast?.toList.filter (· ≠ [])

/-- `split_once`. -/
def splitOnce (c : Char) : Text → Option (Text × Text)
  | [] => none
  | d :: t => if d = c then some ([], t) else (splitOnce c t).map fun (a, b) => (d :: a, b)

/-- `parse` of an unsigned integer below a bound: decimal digits after an optional plus sign. -/
def parseBelow (bound : ℕ) (t : Text) : Option (Fin bound) :=
  let digits := if t.head? = some '+' then t.tail else t
  let n := digits.foldl (fun n c => 10 * n + (c.toNat - 48)) 0
  if h : digits ≠ [] ∧ digits.all Char.isDigit ∧ n < bound then some ⟨n, h.2.2⟩ else none

/-- The non-empty dot-separated parts, last one first. -/
def labelsRev (t : Text) : List Text := (t.splitOn '.').reverse.filter (· ≠ [])

end Text

end FerrumDns
