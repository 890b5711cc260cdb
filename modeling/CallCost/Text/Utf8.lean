/-!
Texts as UTF-8 octets, and the decoding of octets with replacement. Octets that belong to no
character are replaced, one replacement character for each maximal run that begins like a
character and cannot go on. A byte order mark is a character like any other.
-/

namespace CallCost.Text.Utf8

/-- The octets of a text. -/
def encode (text : String) : List UInt8 :=
  text.toUTF8.data.toList

/-- Where the decoder stands between octets. -/
inductive State where
  | start
  /-- Inside a character: the octets still owed, the bits so far, and the bounds of the next
  octet. -/
  | within (owed bits low high : Nat)
  deriving DecidableEq, Repr

def replacement : Char := '\uFFFD'

/-- The state after the first octet of a character, and what that octet yields at once. -/
def first (octet : Nat) : State × Option Char :=
  if octet ≤ 0x7F then (.start, some (Char.ofNat octet))
  else if 0xC2 ≤ octet ∧ octet ≤ 0xDF then (.within 1 (octet - 0xC0) 0x80 0xBF, none)
  else if octet = 0xE0 then (.within 2 0 0xA0 0xBF, none)
  else if octet = 0xED then (.within 2 0xD 0x80 0x9F, none)
  else if 0xE1 ≤ octet ∧ octet ≤ 0xEF then (.within 2 (octet - 0xE0) 0x80 0xBF, none)
  else if octet = 0xF0 then (.within 3 0 0x90 0xBF, none)
  else if 0xF1 ≤ octet ∧ octet ≤ 0xF3 then (.within 3 (octet - 0xF0) 0x80 0xBF, none)
  else if octet = 0xF4 then (.within 3 4 0x80 0x8F, none)
  else (.start, some replacement)

/-- One octet: the next state, and the characters read so far with the newest in front. An octet
that cannot go on ends the run before it and is read again as a first octet. -/
def step : State × List Char → UInt8 → State × List Char
  | (.start, done), octet =>
      let (state, c) := first octet.toNat
      (state, c.toList ++ done)
  | (.within owed bits low high, done), octet =>
      let n := octet.toNat
      if low ≤ n ∧ n ≤ high then
        let bits := bits * 64 + (n - 0x80)
        if owed ≤ 1 then (.start, Char.ofNat bits :: done)
        else (.within (owed - 1) bits 0x80 0xBF, done)
      else
        let (state, c) := first n
        (state, c.toList ++ replacement :: done)

def decode (octets : List UInt8) : List Char :=
  match octets.foldl step (.start, []) with
  | (.start, done) => done.reverse
  | (.within .., done) => (replacement :: done).reverse

end CallCost.Text.Utf8
