/-!
# Quoted text

A text in double quotes, on one line and visible: quotes and backslashes take a backslash, tab,
carriage return, line feed and NUL have their letters, and characters that show nothing or attach
to their neighbour are written by number. Everything else, the apostrophe included, stands as it
is.
-/

namespace Bytecode.Quoted

/-- Characters that show nothing of their own: controls, formats, separators other than the blank,
and private use. Each pair is the first and the last code point of a range. -/
def invisible : List (Nat × Nat) :=
  [(0x0, 0x1f), (0x7f, 0xa0), (0xad, 0xad), (0x600, 0x605), (0x61c, 0x61c), (0x6dd, 0x6dd),
    (0x70f, 0x70f), (0x890, 0x891), (0x8e2, 0x8e2), (0x1680, 0x1680), (0x180e, 0x180e),
    (0x2000, 0x200f), (0x2028, 0x202f), (0x205f, 0x206f), (0x3000, 0x3000), (0xe000, 0xf8ff),
    (0xfeff, 0xfeff), (0xfff9, 0xfffb), (0x110bd, 0x110bd), (0x110cd, 0x110cd),
    (0x13430, 0x1343f), (0x1bca0, 0x1bca3), (0x1d173, 0x1d17a), (0xe0001, 0xe0001),
    (0xe0020, 0xe007f), (0xf0000, 0xffffd), (0x100000, 0x10fffd)]

/-- Marks that attach to the character before them: the blocks of combining marks and of variation
selectors. -/
def attaching : List (Nat × Nat) :=
  [(0x300, 0x36f), (0x483, 0x489), (0x1ab0, 0x1aff), (0x1dc0, 0x1dff), (0x20d0, 0x20f0),
    (0xfe00, 0xfe0f), (0xfe20, 0xfe2f), (0xe0100, 0xe01ef)]

/-- The character is written by number. -/
def isNumbered (c : Char) : Bool :=
  (invisible ++ attaching).any fun range => range.1 ≤ c.toNat && c.toNat ≤ range.2

/-- A character by its code point, in lowercase hexadecimal. -/
def numbered (c : Char) : String :=
  "\\u\x7b" ++ String.ofList (Nat.toDigits 16 c.toNat) ++ "\x7d"

/-- How one character stands inside the quotes. -/
def escape (c : Char) : String :=
  if c = '"' then "\\\""
  else if c = '\\' then "\\\\"
  else if c = '\t' then "\\t"
  else if c = '\r' then "\\r"
  else if c = '\n' then "\\n"
  else if c = '\x00' then "\\0"
  else if isNumbered c then numbered c
  else c.toString

/-- The text in double quotes. -/
def encode (s : String) : String := "\"" ++ String.join (s.toList.map escape) ++ "\""

end Bytecode.Quoted
