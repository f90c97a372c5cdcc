import KeyHeat.Text.Invisible

/-!
# Quoted text

The form in which text keys appear in diagnostic dumps and text values in error messages: double
quotes around the characters, with escapes for quotes, backslashes and all that does not show on
its own. A single quote stands for itself.
-/

namespace KeyHeat.Text

/-- A numeric escape: the code point in lower-case hexadecimal without padding, in braces. -/
def codePointEscape (c : Char) : List Char :=
  ['\\', 'u', '\x7b'] ++ Nat.toDigits 16 c.toNat ++ ['\x7d']

def escaped (c : Char) : List Char :=
  match c with
  | '"' => ['\\', '"']
  | '\\' => ['\\', '\\']
  | '\n' => ['\\', 'n']
  | '\r' => ['\\', 'r']
  | '\t' => ['\\', 't']
  | '\x00' => ['\\', '0']
  | c => if isInvisible c then codePointEscape c else [c]

def quoted (text : String) : String :=
  String.ofList ('"' :: text.toList.flatMap escaped ++ ['"'])

end KeyHeat.Text
