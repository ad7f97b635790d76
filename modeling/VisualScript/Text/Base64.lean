/-!
# Text — Base64

Bytes as text in the standard alphabet of 64 characters, four characters for three bytes, the last
group filled up with `=`.
-/

namespace VisualScript.Text.Base64

def alphabet : List Char :=
  "ABCDEFGHIJKLMNOPQRSTUVWXYZabcdefghijklmnopqrstuvwxyz0123456789+/".toList

/-- The character of a number below 64. -/
def digit (n : Nat) : Char := alphabet.getD n 'A'

/-- The number of a character of the alphabet. -/
def value? (c : Char) : Option Nat := alphabet.idxOf? c

def encode : List UInt8 → List Char
  | a :: b :: c :: rest =>
      let n := a.toNat * 65536 + b.toNat * 256 + c.toNat
      digit (n / 262144) :: digit (n / 4096 % 64) :: digit (n / 64 % 64) :: digit (n % 64) ::
        encode rest
  | [a, b] =>
      let n := a.toNat * 1024 + b.toNat * 4
      [digit (n / 4096), digit (n / 64 % 64), digit (n % 64), '=']
  | [a] =>
      let n := a.toNat * 16
      [digit (n / 64), digit (n % 64), '=', '=']
  | [] => []

/-- The bytes of a text.  Every character has to belong to the alphabet, and the last group has to
be full or filled up; after a full group, padding that stands for nothing is passed over. -/
def decode? : List Char → Option (List UInt8)
  | [] => some []
  | [a, b, '=', '='] => do
      let n := (← value? a) * 64 + (← value? b)
      return [UInt8.ofNat (n / 16)]
  | [a, b, c, '='] => do
      let n := (← value? a) * 4096 + (← value? b) * 64 + (← value? c)
      return [UInt8.ofNat (n / 1024), UInt8.ofNat (n / 4 % 256)]
  | a :: b :: c :: d :: rest => do
      let n := (← value? a) * 262144 + (← value? b) * 4096 + (← value? c) * 64 + (← value? d)
      let bytes := [UInt8.ofNat (n / 65536), UInt8.ofNat (n / 256 % 256), UInt8.ofNat (n % 256)]
      if rest.all (· == '=') then return bytes
      else return bytes ++ (← decode? rest)
  | _ => none

end VisualScript.Text.Base64
