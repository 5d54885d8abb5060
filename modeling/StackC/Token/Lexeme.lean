import StackC.Diagnostic.Fault

namespace StackC

def keywords : List String :=
  ["int", "char", "short", "long", "void", "struct", "if", "else", "while", "for", "return",
    "break", "continue", "sizeof"]

/-- The punctuators, longer ones before those they begin with. -/
def punctuators : List String :=
  ["...", "->", "++", "--", "+=", "-=", "*=", "/=", "==", "!=", "<=", ">=", "&&", "||", "+", "-",
    "*", "/", "%", "=", "<", ">", "!", "&", "?", ":", ".", ",", ";", "(", ")", "\x7b", "\x7d",
    "[", "]"]

/-- The outcome of reading one token at the head of a text. A token has a length in characters. A
failure tells how many characters stand before its place and how many were used up. -/
inductive Reading where
  | token (kind : TokenKind) (length : Nat)
  | failure (fault : LexicalFault) (before taken : Nat)
deriving DecidableEq, Inhabited

namespace Lexeme

def isNameStart (c : Char) : Bool := c.isAlpha || c == '_'

def isNameChar (c : Char) : Bool := c.isAlphanum || c == '_'

def escape? : Char → Option UInt8
  | 'n' => some 10
  | 't' => some 9
  | 'r' => some 13
  | '0' => some 0
  | '\\' => some 92
  | '\'' => some 39
  | '"' => some 34
  | _ => none

def string (n : Nat) (bytes : List UInt8) : List Char → Reading
  | [] => .failure .unterminatedString 0 n
  | '"' :: _ => .token (.str bytes.reverse) (n + 1)
  | '\n' :: _ => .failure .unterminatedString 0 n
  | ['\\'] => .failure .escapeAtEnd (n + 1) (n + 1)
  | '\\' :: c :: cs =>
    match escape? c with
    | some b => string (n + 2) (b :: bytes) cs
    | none => .failure (.unknownEscape c) (n + 1) (n + 2)
  | c :: cs => string (n + 1) ((String.utf8EncodeChar c).reverse ++ bytes) cs

def closeCharacter (value : UInt8) (n : Nat) : List Char → Reading
  | '\'' :: _ => .token (.num (signedByte value)) (n + 1)
  | _ :: _ => .failure .unclosedCharacterLiteral 0 (n + 1)
  | [] => .failure .unclosedCharacterLiteral 0 n

def character : List Char → Reading
  | [] => .failure .invalidCharacterLiteral 0 1
  | ['\\'] => .failure .escapeAtEnd 2 2
  | '\\' :: c :: cs =>
    match escape? c with
    | some b => closeCharacter b 3 cs
    | none => .failure (.unknownEscape c) 2 3
  | c :: cs =>
    if c ≠ '\'' ∧ c ≠ '\n' ∧ c.toNat < 128 then closeCharacter c.toNat.toUInt8 2 cs
    else .failure .invalidCharacterLiteral 0 2

def decimal (digits : List Char) : Nat :=
  digits.foldl (fun n c => 10 * n + (c.toNat - '0'.toNat)) 0

def maxInteger : Nat := 0x7fffffffffffffff

def number (cs : List Char) : Reading :=
  let digits := cs.takeWhile Char.isDigit
  let n := digits.length
  let value : Reading :=
    if decimal digits ≤ maxInteger then .token (.num (Int64.ofNat (decimal digits))) n
    else .failure (.integerOutOfRange (String.ofList digits)) 0 n
  match cs.drop n with
  | c :: _ =>
    if isNameStart c then .failure (.invalidInteger (String.ofList digits) c) 0 n else value
  | [] => value

def word (cs : List Char) : Reading :=
  let name := cs.takeWhile isNameChar
  .token (if String.ofList name ∈ keywords then .reserved else .ident) name.length

def punctuator (c : Char) (cs : List Char) : Reading :=
  match punctuators.find? (·.toList.isPrefixOf (c :: cs)) with
  | some p => .token .reserved p.length
  | none => .failure (.unexpectedCharacter c) 0 0

def read (c : Char) (cs : List Char) : Reading :=
  if c = '"' then string 1 [] cs
  else if c = '\'' then character cs
  else if c.isDigit then number (c :: cs)
  else if isNameStart c then word (c :: cs)
  else punctuator c cs

end Lexeme

end StackC
