import Bytewright.Text.Quoted

/-!
# Text that is safe to show on a terminal

A message may quote text that nobody has checked, such as a file name, and that text may hold
characters that a terminal obeys: it rings, steps back, clears the page or starts a command.  These
are written by number, so that a message can be shown as it is.  The characters that only lay out
a text, such as tabs and line ends, are kept.
-/

namespace Bytewright.Text

/-- A terminal obeys the character: the bell, a step back, a new page, the start of a command, a
deletion, or one of the 32 controls after the first 128 characters. -/
def steers (c : Char) : Bool :=
  c.toNat ∈ [0x07, 0x08, 0x0c, 0x1b, 0x7f] || (0x80 ≤ c.toNat && c.toNat < 0xa0)

/-- The number of a character below 256 in two digits of lower-case hexadecimal. -/
def byByte (c : Char) : List Char :=
  ['\\', 'x', Nat.digitChar (c.toNat / 16), Nat.digitChar (c.toNat % 16)]

/-- A character as it is shown: by number if a terminal would obey it. -/
def shown (c : Char) : List Char :=
  if !steers c then [c] else if c.toNat < 0x80 then byByte c else byNumber c

/-- The text with the characters that a terminal obeys written by number. -/
def harmless (s : String) : String := String.ofList (s.toList.flatMap shown)

end Bytewright.Text
