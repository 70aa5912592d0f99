import MapScript.Text.Printable

/-! Texts between quotes, with escapes for what cannot be shown. -/

namespace MapScript.Text

def hexDigit (n : Nat) : Glyph := .char ("0123456789abcdef".toList.getD (n % 16) '0')

def hex : (width n : Nat) → Text
  | 0, _ => []
  | width + 1, n => hex width (n / 16) ++ [hexDigit n]

def escapeCode (n : Nat) : Text :=
  if n < 0x100 then "\\x" ++ hex 2 n
  else if n < 0x10000 then "\\u" ++ hex 4 n
  else "\\U" ++ hex 8 n

def escape (quote : Glyph) (g : Glyph) : Text :=
  if g = quote || g = .char '\\' then [.char '\\', g]
  else if g = .char '\n' then "\\n"
  else if g = .char '\r' then "\\r"
  else if g = .char '\t' then "\\t"
  else if g.isPrintable then [g]
  else escapeCode g.code

/-- The quote is a single one, unless the text has a single quote and no double one. -/
def quoteFor (t : Text) : Glyph :=
  if t.contains (.char '\'') && !t.contains (.char '"') then .char '"' else .char '\''

def quoted (t : Text) : Text :=
  let quote := quoteFor t
  quote :: t.flatMap (escape quote) ++ [quote]

end MapScript.Text
