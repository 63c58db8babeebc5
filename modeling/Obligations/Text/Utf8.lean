/-!
# Reading bytes as text

Bytes are read as UTF-8. Where they are not well formed, the longest run of bytes that could have
begun a character, or else a single byte, is read as the replacement character.
-/

namespace Obligations.Text

/-- The replacement character. -/
def replacement : Char := '\uFFFD'

/-- Whether a byte can be a second or later byte of a character. -/
def isContinuation (b : UInt8) : Bool := 0x80 ≤ b && b ≤ 0xbf

/-- The number of bytes of a character that begins with a byte; zero if none does. -/
def sequenceLength (b : UInt8) : Nat :=
  if b < 0x80 then 1
  else if 0xc2 ≤ b && b ≤ 0xdf then 2
  else if 0xe0 ≤ b && b ≤ 0xef then 3
  else if 0xf0 ≤ b && b ≤ 0xf4 then 4
  else 0

/-- Whether a byte can come second after a first byte. Apart from the continuation bytes' range this
excludes overlong forms, surrogates and numbers above the last character. -/
def isSecond (first b : UInt8) : Bool :=
  if first = 0xe0 then 0xa0 ≤ b && b ≤ 0xbf
  else if first = 0xed then 0x80 ≤ b && b ≤ 0x9f
  else if first = 0xf0 then 0x90 ≤ b && b ≤ 0xbf
  else if first = 0xf4 then 0x80 ≤ b && b ≤ 0x8f
  else isContinuation b

/-- The bytes after a first byte that continue its character, at most `count` of them. -/
def continuation (first : UInt8) (count : Nat) (bs : List UInt8) : List UInt8 :=
  match count, bs with
  | 0, _ => []
  | _, [] => []
  | count + 1, b :: bs =>
    if isSecond first b then b :: (bs.take count).takeWhile isContinuation else []

/-- The character of a complete sequence of bytes. -/
def assemble (first : UInt8) (rest : List UInt8) : Char :=
  let lead :=
    match rest.length with
    | 0 => first.toNat
    | 1 => first.toNat % 0x20
    | 2 => first.toNat % 0x10
    | _ => first.toNat % 0x08
  Char.ofNat (rest.foldl (fun n b => n * 0x40 + b.toNat % 0x40) lead)

/-- Reads bytes as characters; `skip` bytes have been read already. -/
def readChars (skip : Nat) : List UInt8 → List Char
  | [] => []
  | b :: bs =>
    match skip with
    | skip + 1 => readChars skip bs
    | 0 =>
      let rest := continuation b (sequenceLength b - 1) bs
      let c := if rest.length + 1 = sequenceLength b then assemble b rest else replacement
      c :: readChars rest.length bs

/-- Reads bytes as a text. -/
def ofUtf8 (bs : List UInt8) : String := String.ofList (readChars 0 bs)

end Obligations.Text
