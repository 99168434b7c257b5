/-!
# Reading bytes as characters

Bytes are read as UTF-8 without giving up at the first fault: a byte that belongs to no
well-formed sequence becomes `none`, and reading goes on behind it. Whether such a byte matters
is for the reader of the text to say.

* `Utf8.decode` — bytes to characters
* `Utf8.ofString` — a string has no bad byte
-/

namespace ShapeGraph

/-- A text in which `none` marks a byte that belongs to no character. -/
abbrev Text := List (Option Char)

namespace Utf8

/-- A byte that continues a sequence. -/
def isContinuation (b : Nat) : Bool := 0x80 ≤ b && b < 0xC0

def low (b : Nat) : Nat := b % 0x40

/-- The character of a two-byte sequence. -/
def two? (a b : Nat) : Option Char :=
  if 0xC2 ≤ a && a < 0xE0 && isContinuation b then
    some (Char.ofNat ((a - 0xC0) * 0x40 + low b))
  else none

/-- The character of a three-byte sequence: neither overlong nor a surrogate. -/
def three? (a b c : Nat) : Option Char :=
  let n := (a - 0xE0) * 0x1000 + low b * 0x40 + low c
  if 0xE0 ≤ a && a < 0xF0 && isContinuation b && isContinuation c
      && 0x800 ≤ n && !(0xD800 ≤ n && n < 0xE000) then
    some (Char.ofNat n)
  else none

/-- The character of a four-byte sequence: neither overlong nor beyond the last plane. -/
def four? (a b c d : Nat) : Option Char :=
  let n := (a - 0xF0) * 0x40000 + low b * 0x1000 + low c * 0x40 + low d
  if 0xF0 ≤ a && a < 0xF8 && isContinuation b && isContinuation c && isContinuation d
      && 0x10000 ≤ n && n < 0x110000 then
    some (Char.ofNat n)
  else none

/-- The character that starts a list of bytes, with the number of bytes behind the first that
belong to it. -/
def first? (a : Nat) : List Nat → Option (Char × Nat)
  | b :: c :: d :: _ =>
    ((two? a b).map (·, 1)).or (((three? a b c).map (·, 2)).or ((four? a b c d).map (·, 3)))
  | [b, c] => ((two? a b).map (·, 1)).or ((three? a b c).map (·, 2))
  | [b] => (two? a b).map (·, 1)
  | [] => none

/-- Bytes as characters, after `skip` bytes that belong to the character before. -/
def decodeFrom : Nat → List Nat → Text
  | _, [] => []
  | skip + 1, _ :: rest => decodeFrom skip rest
  | 0, a :: rest =>
    if a < 0x80 then some (Char.ofNat a) :: decodeFrom 0 rest
    else
      match first? a rest with
      | some (c, skip) => some c :: decodeFrom skip rest
      | none => none :: decodeFrom 0 rest

/-- Bytes as characters; each byte outside every well-formed sequence is `none`. -/
def decode (bytes : List Nat) : Text := decodeFrom 0 bytes

/-- A string as a text: every byte belongs to a character. -/
def ofString (s : String) : Text := s.toList.map some

example : decode [0x61, 0xC3, 0xA9, 0xFF, 0x22] = [some 'a', some 'é', none, some '"'] := by decide
example : decode [0xF0, 0x9F, 0x98, 0x80, 0xED, 0xA0, 0x80] = [some '😀', none, none, none] := by
  decide
example : decode [0xE2, 0x82, 0x22] = [none, none, some '"'] := by decide

end Utf8

end ShapeGraph
