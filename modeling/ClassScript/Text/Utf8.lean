namespace ClassScript.Text.Utf8

/-!
# Decoding UTF-8

Bytes are read one character at a time. What cannot be read is described by where it starts and by
the width of its *maximal bad part*: the lead byte and those bytes after it that could still have
belonged to a character.

* `Chunk`: what stands at the front of a byte list;
* `decode`: the text, or the first fault;
* `decodeLossy`: the text with each bad part read as the replacement character.
-/

/-- Why bytes are not UTF-8. Both cases say how many bytes before the fault are good. -/
inductive Fault where
  /-- The `width` bytes at `index` start no character. -/
  | invalid (width index : Nat)
  /-- The bytes end inside the character that starts at `index`. -/
  | incomplete (index : Nat)
deriving DecidableEq

/-- The wording of a fault. -/
def Fault.message : Fault → String
  | .invalid width index => s!"invalid utf-8 sequence of {width} bytes from index {index}"
  | .incomplete index => s!"incomplete utf-8 byte sequence from index {index}"

/-- What stands at the front of a byte list: a character of `width` bytes, a bad part of `width`
    bytes, or the beginning of a character that the end of the bytes cuts off. -/
inductive Chunk where
  | char (c : Char) (width : Nat)
  | bad (width : Nat)
  | cut

/-- The bounds of the bytes after a lead byte, first to last, with the payload bits of the lead.
    The first bound rules out overlong forms, surrogates and values above the last code point. -/
def tails (lead : UInt8) : Option (Nat × List (UInt8 × UInt8)) :=
  let any := (0x80, 0xBF)
  if lead < 0x80 then some (lead.toNat, [])
  else if 0xC2 ≤ lead ∧ lead ≤ 0xDF then some (lead.toNat - 0xC0, [any])
  else if lead = 0xE0 then some (0, [(0xA0, 0xBF), any])
  else if lead = 0xED then some (13, [(0x80, 0x9F), any])
  else if 0xE1 ≤ lead ∧ lead ≤ 0xEF then some (lead.toNat - 0xE0, [any, any])
  else if lead = 0xF0 then some (0, [(0x90, 0xBF), any, any])
  else if 0xF1 ≤ lead ∧ lead ≤ 0xF3 then some (lead.toNat - 0xF0, [any, any, any])
  else if lead = 0xF4 then some (4, [(0x80, 0x8F), any, any])
  else none

/-- Reads the bytes after a lead byte against their bounds; `seen` bytes of the character are read
    and `bits` is their payload. -/
def follow (seen bits : Nat) : List (UInt8 × UInt8) → List UInt8 → Chunk
  | [], _ => .char (Char.ofNat bits) seen
  | _ :: _, [] => .cut
  | (low, high) :: bounds, b :: bytes =>
    if low ≤ b ∧ b ≤ high then follow (seen + 1) (bits * 64 + (b.toNat - 0x80)) bounds bytes
    else .bad seen

/-- The chunk at the front of the bytes `lead :: bytes`. -/
def chunk (lead : UInt8) (bytes : List UInt8) : Chunk :=
  match tails lead with
  | none => .bad 1
  | some (bits, bounds) => follow 1 bits bounds bytes

/-- The text of `bytes`, which start at `index`. The count `skip` says how many bytes at the front
    belong to the character before. -/
def decodeFrom (index skip : Nat) : List UInt8 → Except Fault (List Char)
  | [] => .ok []
  | b :: bytes =>
    match skip with
    | skip + 1 => decodeFrom (index + 1) skip bytes
    | 0 =>
      match chunk b bytes with
      | .char c width => (c :: ·) <$> decodeFrom (index + 1) (width - 1) bytes
      | .bad width => .error (.invalid width index)
      | .cut => .error (.incomplete index)

/-- The text that `bytes` encode, or the first fault. -/
def decode (bytes : List UInt8) : Except Fault String :=
  String.ofList <$> decodeFrom 0 0 bytes

/-- The characters of `bytes`, each bad part read as the replacement character. -/
def lossyFrom (skip : Nat) : List UInt8 → List Char
  | [] => []
  | b :: bytes =>
    match skip with
    | skip + 1 => lossyFrom skip bytes
    | 0 =>
      match chunk b bytes with
      | .char c width => c :: lossyFrom (width - 1) bytes
      | .bad width => Char.ofNat 0xFFFD :: lossyFrom (width - 1) bytes
      | .cut => [Char.ofNat 0xFFFD]

/-- The text that `bytes` encode, with the replacement character for each bad part. -/
def decodeLossy (bytes : List UInt8) : String :=
  String.ofList (lossyFrom 0 bytes)

end ClassScript.Text.Utf8
