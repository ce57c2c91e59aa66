import Lox.Text.Utf8
import Lox.Text.Printable

/-! Quoted texts, for log lines and messages: printable code points stand for themselves, and everything else
is escaped, so that a quoted text is one line of valid UTF-8. -/
namespace Lox.Text

def hex (width n : Nat) : Text :=
  let digits := (Nat.toDigits 16 n).map Char.toUInt8
  List.replicate (width - digits.length) '0'.toUInt8 ++ digits

def shortEscape? (c : Nat) : Option Char :=
  [('"', '"'), ('\\', '\\'), ('\x07', 'a'), ('\x08', 'b'), ('\x0c', 'f'), ('\n', 'n'), ('\r', 'r'),
    ('\t', 't'), ('\x0b', 'v')].lookup (Char.ofNat c)

def quotedCodePoint (c : Nat) (spelling : Text) : Text :=
  match shortEscape? c with
  | some letter => ['\\'.toUInt8, letter.toUInt8]
  | none =>
    if isPrintable c then spelling
    else if c < 0x80 then "\\x" ++ hex 2 c
    else if c < 0x10000 then "\\u" ++ hex 4 c
    else "\\U" ++ hex 8 c

/-- Quotes a text from its `skip`th byte on; the bytes before belong to a code point already written. -/
def quotedFrom : (skip : Nat) → Text → Text
  | _, [] => []
  | skip + 1, _ :: bs => quotedFrom skip bs
  | 0, b :: bs =>
    match codePoint? (b :: bs) with
    | some (c, n) => quotedCodePoint c ((b :: bs).take n) ++ quotedFrom (n - 1) bs
    | none => "\\x" ++ hex 2 b.toNat ++ quotedFrom 0 bs

def quoted (t : Text) : Text := "\"" ++ quotedFrom 0 t ++ "\""

end Lox.Text
