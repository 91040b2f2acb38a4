import MessagePack.Text.Unprintable
/-!
# Quoted text

A text inside the printed form of a value stands between double quotes.  Quotes, backslashes and
the four common controls are written with a backslash; every other character that attaches to its
neighbour or has no printed form is written by its code point in hexadecimal.
-/

namespace MessagePack

/-- A character inside quotes. -/
def quotedChar (c : Char) : List Char :=
  match c with
  | '\x00' => ['\\', '0']
  | '\t' => ['\\', 't']
  | '\r' => ['\\', 'r']
  | '\n' => ['\\', 'n']
  | '\\' => ['\\', '\\']
  | '"' => ['\\', '"']
  | _ =>
    let code := c.toNat
    if 0x20 ≤ code ∧ code < 0x7f then [c]
    else if CharTable.covers CharTable.attaching code
        || CharTable.covers CharTable.blankOrUnassigned code then
      ['\\', 'u', '\x7b'] ++ Nat.toDigits 16 code ++ ['\x7d']
    else [c]

/-- A text between double quotes. -/
def quoted (s : String) : String :=
  String.ofList ('"' :: s.toList.flatMap quotedChar ++ ['"'])

end MessagePack
