import TemplateTree.Text.Combining
import TemplateTree.Text.Printable

/-!
Text in quotes, as debug output and log lines show it: every character that could not be seen, or
would be taken for part of the quoting, is written as an escape.
-/
namespace TemplateTree.Text

def hexDigits (n : Nat) : Text := Nat.toDigits 16 n

/-- One character inside quotes. -/
def quoteChar (c : Char) : Text :=
  if c = '\x00' then ['\\', '0']
  else if c = '\t' then ['\\', 't']
  else if c = '\n' then ['\\', 'n']
  else if c = '\r' then ['\\', 'r']
  else if c = '\\' then ['\\', '\\']
  else if c = '"' then ['\\', '"']
  else if isCombining c || !isPrintable c then
    '\\' :: 'u' :: '\x7b' :: hexDigits c.toNat ++ ['\x7d']
  else [c]

/-- A text in double quotes. -/
def quote (t : Text) : Text := '"' :: t.flatMap quoteChar ++ ['"']

end TemplateTree.Text
