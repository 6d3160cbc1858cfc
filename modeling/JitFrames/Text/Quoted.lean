/-! Names written between double quotes. The graphic characters of the ASCII table stand for themselves, but the
quotes and the backslash take a backslash. Tab, line feed and carriage return have letters of their own; every
other byte is written in two hex digits. -/
namespace JitFrames.Quoted

def hexPair (b : UInt8) : List Char :=
  ['\\', 'x', (b.toNat / 16).digitChar, (b.toNat % 16).digitChar]

/-- The delete character comes right after the tilde and is not graphic. -/
def isGraphic (c : Char) : Bool := ' ' ≤ c && c ≤ '~'

def escape (c : Char) : List Char :=
  match c with
  | '\t' => ['\\', 't']
  | '\n' => ['\\', 'n']
  | '\r' => ['\\', 'r']
  | '\'' => ['\\', '\'']
  | '"' => ['\\', '"']
  | '\\' => ['\\', '\\']
  | c => if isGraphic c then [c] else (String.utf8EncodeChar c).flatMap hexPair

def encode (s : String) : String :=
  String.ofList ('"' :: s.toList.flatMap escape ++ ['"'])

end JitFrames.Quoted
