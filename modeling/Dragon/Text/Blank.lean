import Dragon.Text.Ranges

/-!
# White space and line breaks

A form feed or a paragraph separator breaks a displayed line just as a line feed does.
-/
namespace Dragon.Text

/-- White space above ASCII. -/
def blanks : Ranges :=
  [(133, 133), (160, 160), (5760, 5760), (8192, 8202), (8232, 8233), (8239, 8239), (8287, 8287),
   (12288, 12288)]

def isBlank (c : Char) : Bool :=
  let n := c.toNat
  if n < 128 then n == 32 || (9 ≤ n && n ≤ 13) || (28 ≤ n && n ≤ 31)
  else blanks.contains c

/-- The single characters that end a displayed line. -/
def isLineBreak (c : Char) : Bool :=
  let n := c.toNat
  (10 ≤ n && n ≤ 13) || (28 ≤ n && n ≤ 30) || n == 0x85 || n == 0x2028 || n == 0x2029

end Dragon.Text
