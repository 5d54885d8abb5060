import StackC.Source.Location

namespace StackC

/-- What a token is. Keywords and punctuators are both reserved; a string literal holds its bytes
with the escapes resolved and without a terminator. -/
inductive TokenKind where
  | reserved
  | ident
  | num (value : Int64)
  | str (bytes : List UInt8)
  | eof
deriving DecidableEq, Inhabited

structure Token where
  kind : TokenKind
  text : String
  place : Location
deriving DecidableEq, Inhabited

namespace Token

def atEnd (place : Location) : Token := ⟨.eof, "", place⟩

def isReserved (t : Token) (text : String) : Bool :=
  t.kind == .reserved && t.text == text

def describe (t : Token) : String :=
  match t.kind with
  | .reserved => s!"'{t.text}'"
  | .ident => s!"identifier '{t.text}'"
  | .num n => s!"number {n.toInt}"
  | .str _ => s!"string literal {t.text}"
  | .eof => "end of file"

end Token

def signedByte (b : UInt8) : Int64 := b.toInt8.toInt64

end StackC
