import Precompile.Text.Extending

/-!
Texts in quotes, as messages show them.

Every character is shown so that it can be told from all others: what is not printable, or
extends the character before it, is shown by its number.
-/

namespace Precompile.Text

def hexDigits (n : Nat) : List Char := Nat.toDigits 16 n

/-- A character within quotes. -/
def quotedChar (c : Char) : List Char :=
  match c with
  | '"' => ['\\', '"']
  | '\\' => ['\\', '\\']
  | '\n' => ['\\', 'n']
  | '\r' => ['\\', 'r']
  | '\t' => ['\\', 't']
  | '\x00' => ['\\', '0']
  | c =>
    if isExtending c || isUnprintable c then "\\u\x7b".toList ++ hexDigits c.toNat ++ ['}'] else [c]

def quoted (s : String) : String :=
  String.ofList ('"' :: s.toList.flatMap quotedChar ++ ['"'])

end Precompile.Text
