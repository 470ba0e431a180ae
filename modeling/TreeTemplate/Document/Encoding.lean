import TreeTemplate.Text.Quoted

/-! # Text encodings

Rows of bytes read as text.  UTF-8 is read strictly: a character that is cut short or
goes wrong is reported with the bytes that were still right.
-/
namespace TreeTemplate.Document

/-- Bytes that are no text in an encoding. -/
structure DecodingFault where
  codec : String
  /-- The position of the first byte at fault. -/
  first : Nat
  /-- The bytes at fault, at least one. -/
  bytes : List UInt8
  reason : String

namespace DecodingFault

/-- The words of a fault. -/
def message (f : DecodingFault) : String :=
  let place :=
    match f.bytes with
    | [b] => "byte 0x" ++ String.ofList (Text.hexPadded 2 b.toNat) ++ " in position " ++
        toString f.first
    | bs => "bytes in position " ++ toString f.first ++ "-" ++ toString (f.first + bs.length - 1)
  "'" ++ f.codec ++ "' codec can't decode " ++ place ++ ": " ++ f.reason

end DecodingFault

/-- A decoded text or the fault of the bytes. -/
abbrev Decoded := Except DecodingFault (List Char)

namespace Utf8

/-- The number of bytes after a first byte, the range of the second byte, and the bits
that the first byte contributes. -/
structure Lead where
  more : Nat
  low : Nat
  high : Nat
  bits : Nat

/-- What a first byte announces. -/
def lead? (b : Nat) : Option Lead :=
  if b < 0x80 then some ⟨0, 0, 0, b⟩
  else if b < 0xC2 then none
  else if b < 0xE0 then some ⟨1, 0x80, 0xBF, b - 0xC0⟩
  else if b = 0xE0 then some ⟨2, 0xA0, 0xBF, 0⟩
  else if b = 0xED then some ⟨2, 0x80, 0x9F, 0xD⟩
  else if b < 0xF0 then some ⟨2, 0x80, 0xBF, b - 0xE0⟩
  else if b = 0xF0 then some ⟨3, 0x90, 0xBF, 0⟩
  else if b < 0xF4 then some ⟨3, 0x80, 0xBF, b - 0xF0⟩
  else if b = 0xF4 then some ⟨3, 0x80, 0x8F, 4⟩
  else none

/-- How the bytes after a first byte go on: to a code point, to a byte that does not
fit, or to the end of the data. -/
inductive Tail where
  | complete (code : Nat) (rest : List UInt8)
  | mismatch (taken : List UInt8)
  | ended (taken : List UInt8)

/-- A byte already taken before a tail. -/
def Tail.before (b : UInt8) : Tail → Tail
  | .complete code rest => .complete code rest
  | .mismatch taken => .mismatch (b :: taken)
  | .ended taken => .ended (b :: taken)

/-- Takes `more` further bytes, the first of them between `low` and `high`. -/
def takeTail (more low high code : Nat) (bs : List UInt8) : Tail :=
  match more, bs with
  | 0, bs => .complete code bs
  | _ + 1, [] => .ended []
  | more + 1, b :: rest =>
    if low ≤ b.toNat ∧ b.toNat ≤ high then
      (takeTail more 0x80 0xBF (code * 64 + (b.toNat - 0x80)) rest).before b
    else .mismatch []

/-- Decodes bytes that start at position `first` of the data and are as many as `fuel`
at most. -/
def decodeFrom : Nat → Nat → List UInt8 → Decoded
  | _, _, [] => .ok []
  | 0, _, _ => .ok []
  | fuel + 1, first, b :: rest =>
    match lead? b.toNat with
    | none => .error ⟨"utf-8", first, [b], "invalid start byte"⟩
    | some lead =>
      match takeTail lead.more lead.low lead.high lead.bits rest with
      | .complete code rest =>
        (decodeFrom fuel (first + lead.more + 1) rest).map (Char.ofNat code :: ·)
      | .mismatch taken => .error ⟨"utf-8", first, b :: taken, "invalid continuation byte"⟩
      | .ended taken => .error ⟨"utf-8", first, b :: taken, "unexpected end of data"⟩

/-- Decodes UTF-8. -/
def decode (bs : List UInt8) : Decoded := decodeFrom bs.length 0 bs

end Utf8

/-- The UTF-8 bytes of a text. -/
def encodeUtf8 (s : String) : List UInt8 := s.toUTF8.toList

namespace Ascii

/-- Decodes ASCII bytes that start at position `first` of the data. -/
def decodeFrom : Nat → List UInt8 → Decoded
  | _, [] => .ok []
  | first, b :: rest =>
    if b.toNat < 0x80 then (decodeFrom (first + 1) rest).map (Char.ofNat b.toNat :: ·)
    else .error ⟨"ascii", first, [b], "ordinal not in range(128)"⟩

/-- Decodes ASCII. -/
def decode (bs : List UInt8) : Decoded := decodeFrom 0 bs

end Ascii

/-- Decodes bytes whose values are code points. -/
def decodeLatin1 (bs : List UInt8) : List Char := bs.map fun b => Char.ofNat b.toNat

/-- An encoding that a document may be asked to be in. -/
inductive Encoding where
  | utf8
  | ascii
  | latin1
  deriving DecidableEq, Repr

namespace Encoding

/-- The common names of an encoding, in lower case with underscores. -/
def names : Encoding → List String
  | .utf8 => ["utf_8", "utf8", "u8", "utf", "utf8_ucs2", "utf8_ucs4", "cp65001"]
  | .ascii =>
    ["ascii", "us_ascii", "us", "646", "ansi_x3.4_1968", "ansi_x3.4_1986", "ansi_x3_4_1968",
      "cp367", "csascii", "ibm367", "iso646_us", "iso_646.irv_1991", "iso_ir_6"]
  | .latin1 =>
    ["latin_1", "latin1", "latin", "l1", "iso8859", "iso8859_1", "iso8859.1", "iso_8859_1",
      "iso_8859_1_1987", "iso_ir_100", "8859", "cp819", "csisolatin1", "ibm819"]

/-- The words of a name in lower case with underscores between them. -/
def commonName (name : List Char) : String :=
  let words := (name.map Char.toLower).splitOnP fun c => !(c.isAlphanum || c == '.')
  "_".intercalate ((words.filter fun w => !w.isEmpty).map String.ofList)

/-- The encoding with a name. -/
def ofName? (name : String) : Option Encoding :=
  [Encoding.utf8, .ascii, .latin1].find? fun e => e.names.contains (commonName name.toList)

example : ofName? "UTF-8" = some .utf8 ∧ ofName? "latin-1" = some .latin1 ∧
    ofName? "utf-9" = none := by decide +kernel

/-- Decodes bytes. -/
def decode : Encoding → List UInt8 → Decoded
  | .utf8, bs => Utf8.decode bs
  | .ascii, bs => Ascii.decode bs
  | .latin1, bs => .ok (decodeLatin1 bs)

end Encoding

namespace Wide

/-- A number from its bytes in the given order. -/
def number (bigEndian : Bool) (bs : List UInt8) : Nat :=
  (if bigEndian then bs else bs.reverse).foldl (fun n b => n * 256 + b.toNat) 0

/-- The name of a codec of the given width. -/
def codec (width : Nat) (bigEndian : Bool) : String :=
  "utf-" ++ toString width ++ if bigEndian then "-be" else "-le"

/-- Decodes 16-bit units from position `first` of the data. -/
def decode16 (bigEndian : Bool) (first : Nat) : List UInt8 → Decoded
  | [] => .ok []
  | [b] => .error ⟨codec 16 bigEndian, first, [b], "truncated data"⟩
  | a :: b :: rest =>
    let unit := number bigEndian [a, b]
    match rest with
    | c :: d :: rest' =>
      let next := number bigEndian [c, d]
      if 0xD800 ≤ unit ∧ unit < 0xDC00 ∧ 0xDC00 ≤ next ∧ next < 0xE000 then
        (decode16 bigEndian (first + 4) rest').map
          (Char.ofNat (0x10000 + (unit - 0xD800) * 0x400 + (next - 0xDC00)) :: ·)
      else (decode16 bigEndian (first + 2) (c :: d :: rest')).map (Char.ofNat unit :: ·)
    | rest => (decode16 bigEndian (first + 2) rest).map (Char.ofNat unit :: ·)

/-- Decodes 32-bit units from position `first` of the data. -/
def decode32 (bigEndian : Bool) (first : Nat) : List UInt8 → Decoded
  | [] => .ok []
  | a :: b :: c :: d :: rest =>
    let unit := number bigEndian [a, b, c, d]
    if unit < 0x110000 then (decode32 bigEndian (first + 4) rest).map (Char.ofNat unit :: ·)
    else .error ⟨codec 32 bigEndian, first, [a, b, c, d], "code point not in range(0x110000)"⟩
  | bs => .error ⟨codec 32 bigEndian, first, bs, "truncated data"⟩

end Wide

/-- Decodes bytes in whichever of UTF-8, UTF-16 and UTF-32 they are, to judge by a byte
order mark or by where their zero bytes stand. -/
def decodeUnicode (bs : List UInt8) : Decoded :=
  match bs.map UInt8.toNat with
  | 0 :: 0 :: 0xFE :: 0xFF :: _ => Wide.decode32 true 4 (bs.drop 4)
  | 0xFF :: 0xFE :: 0 :: 0 :: _ => Wide.decode32 false 4 (bs.drop 4)
  | 0xFE :: 0xFF :: _ => Wide.decode16 true 2 (bs.drop 2)
  | 0xFF :: 0xFE :: _ => Wide.decode16 false 2 (bs.drop 2)
  | 0xEF :: 0xBB :: 0xBF :: _ => Utf8.decode (bs.drop 3)
  | 0 :: b :: _ :: _ :: _ => if b = 0 then Wide.decode32 true 0 bs else Wide.decode16 true 0 bs
  | _ :: 0 :: c :: d :: _ =>
    if c = 0 ∧ d = 0 then Wide.decode32 false 0 bs else Wide.decode16 false 0 bs
  | [0, _] => Wide.decode16 true 0 bs
  | [_, 0] => Wide.decode16 false 0 bs
  | _ => Utf8.decode bs

example : (match Utf8.decode [0x22, 0xE2, 0x82, 0x22] with
    | .error f => f.message
    | .ok _ => "") =
      "'utf-8' codec can't decode bytes in position 1-2: invalid continuation byte" := by cbv

end TreeTemplate.Document
