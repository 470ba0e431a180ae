/-! # Base 64

Bytes as a text of digits in base sixty-four: three bytes are four digits, and at the end one
byte is two digits, two bytes are three, and padding completes the four.  A reader passes
over characters that are no digits.  Main statement: what is written is read back.
-/
namespace TreeTemplate.Text.Base64

/-- The digits in ascending order. -/
def digits : List Char :=
  "ABCDEFGHIJKLMNOPQRSTUVWXYZabcdefghijklmnopqrstuvwxyz0123456789+/".toList

/-- The character that completes the last digits. -/
def padding : Char := '='

/-- The digit with a value. -/
def digit (n : Nat) : Char := digits.getD n padding

/-- The value of a digit. -/
def value? (c : Char) : Option Nat := if c ∈ digits then some (digits.idxOf c) else none

/-- The text of a row of bytes. -/
def encode : List UInt8 → List Char
  | [] => []
  | [a] => [digit (a.toNat / 4), digit (a.toNat % 4 * 16), padding, padding]
  | [a, b] =>
    [digit (a.toNat / 4), digit (a.toNat % 4 * 16 + b.toNat / 16), digit (b.toNat % 16 * 4),
      padding]
  | a :: b :: c :: rest =>
    digit (a.toNat / 4) :: digit (a.toNat % 4 * 16 + b.toNat / 16) ::
      digit (b.toNat % 16 * 4 + c.toNat / 64) :: digit (c.toNat % 64) :: encode rest

/-- The bytes of a text, of whose current four digits `count` are read; they leave `bits`
that are in no byte yet, and `pads` signs of padding follow them.  Nothing counts after the
padding that completes four digits. -/
def decodeFrom? (count bits pads : Nat) : List Char → Option (List UInt8)
  | [] => if count = 0 then some [] else none
  | c :: rest =>
    if c = padding then
      if count < 2 then decodeFrom? count bits pads rest
      else if 4 ≤ count + pads + 1 then some []
      else decodeFrom? count bits (pads + 1) rest
    else
      match value? c, count with
      | none, _ => decodeFrom? count bits pads rest
      | some d, 0 => decodeFrom? 1 d 0 rest
      | some d, 1 => (decodeFrom? 2 (d % 16) 0 rest).map (UInt8.ofNat (bits * 4 + d / 16) :: ·)
      | some d, 2 => (decodeFrom? 3 (d % 4) 0 rest).map (UInt8.ofNat (bits * 16 + d / 4) :: ·)
      | some d, _ => (decodeFrom? 0 0 0 rest).map (UInt8.ofNat (bits * 64 + d) :: ·)

/-- The bytes of a text; a text that ends amid four digits has none. -/
def decode? (cs : List Char) : Option (List UInt8) := decodeFrom? 0 0 0 cs

/-- A digit is read back as its value and is no padding. -/
theorem value?_digit {n : Nat} (h : n < 64) :
    value? (digit n) = some n ∧ digit n ≠ padding := by
  have all : ∀ n : Fin 64, value? (digit n) = some n.val ∧ digit n ≠ padding := by
    decide +kernel
  exact all ⟨n, h⟩

/-- A character other than padding is read by its value. -/
theorem decodeFrom?_cons {c : Char} (hc : c ≠ padding) (count bits pads : Nat)
    (rest : List Char) : decodeFrom? count bits pads (c :: rest) =
      match value? c, count with
      | none, _ => decodeFrom? count bits pads rest
      | some d, 0 => decodeFrom? 1 d 0 rest
      | some d, 1 => (decodeFrom? 2 (d % 16) 0 rest).map (UInt8.ofNat (bits * 4 + d / 16) :: ·)
      | some d, 2 => (decodeFrom? 3 (d % 4) 0 rest).map (UInt8.ofNat (bits * 16 + d / 4) :: ·)
      | some d, _ => (decodeFrom? 0 0 0 rest).map (UInt8.ofNat (bits * 64 + d) :: ·) :=
  if_neg hc

section
variable {n : Nat} (h : n < 64) (bits pads : Nat) (rest : List Char)
include h

/-! What a digit does at each place among four. -/

theorem decodeFrom?_first : decodeFrom? 0 bits pads (digit n :: rest) = decodeFrom? 1 n 0 rest := by
  obtain ⟨hv, hp⟩ := value?_digit h
  rw [decodeFrom?_cons hp, hv]
  rfl

theorem decodeFrom?_second : decodeFrom? 1 bits pads (digit n :: rest) =
    (decodeFrom? 2 (n % 16) 0 rest).map (UInt8.ofNat (bits * 4 + n / 16) :: ·) := by
  obtain ⟨hv, hp⟩ := value?_digit h
  rw [decodeFrom?_cons hp, hv]
  rfl

theorem decodeFrom?_third : decodeFrom? 2 bits pads (digit n :: rest) =
    (decodeFrom? 3 (n % 4) 0 rest).map (UInt8.ofNat (bits * 16 + n / 4) :: ·) := by
  obtain ⟨hv, hp⟩ := value?_digit h
  rw [decodeFrom?_cons hp, hv]
  rfl

theorem decodeFrom?_fourth : decodeFrom? 3 bits pads (digit n :: rest) =
    (decodeFrom? 0 0 0 rest).map (UInt8.ofNat (bits * 64 + n) :: ·) := by
  obtain ⟨hv, hp⟩ := value?_digit h
  rw [decodeFrom?_cons hp, hv]
  rfl

end

/-- Padding that completes four digits ends the text. -/
theorem decodeFrom?_padding (bits : Nat) :
    decodeFrom? 3 bits 0 [padding] = some [] ∧
      decodeFrom? 2 bits 0 [padding, padding] = some [] := ⟨rfl, rfl⟩

/-- Every row of bytes is read back from its text. -/
theorem decode?_encode (bs : List UInt8) : decode? (encode bs) = some bs := by
  have lt (b : UInt8) : b.toNat < 256 := b.toNat_lt
  have back {b : UInt8} {n : Nat} (h : n = b.toNat) : UInt8.ofNat n = b := by
    subst h; exact UInt8.ofNat_toNat
  unfold decode?
  fun_induction encode bs with
  | case1 => rfl
  | case2 a =>
    have ha := lt a
    rw [decodeFrom?_first (by omega), decodeFrom?_second (by omega), (decodeFrom?_padding _).2,
      Option.map_some, back (b := a) (by omega)]
  | case3 a b =>
    have ha := lt a
    have hb := lt b
    rw [decodeFrom?_first (by omega), decodeFrom?_second (by omega),
      decodeFrom?_third (by omega), (decodeFrom?_padding _).1, Option.map_some, Option.map_some,
      back (b := a) (by omega), back (b := b) (by omega)]
  | case4 a b c rest ih =>
    have ha := lt a
    have hb := lt b
    have hc := lt c
    rw [decodeFrom?_first (by omega), decodeFrom?_second (by omega),
      decodeFrom?_third (by omega), decodeFrom?_fourth (by omega), ih, Option.map_some,
      Option.map_some, Option.map_some, back (b := a) (by omega), back (b := b) (by omega),
      back (b := c) (by omega)]

end TreeTemplate.Text.Base64
