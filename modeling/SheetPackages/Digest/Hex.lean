import SheetPackages.Text.Hexadecimal

/-!
# Hexadecimal text

Bytes written with two lower-case hexadecimal digits each, and read back.
-/

namespace SheetPackages.Digest

open Text (hexDigit hexValue?)

def hexChars : List UInt8 → List Char
  | [] => []
  | b :: rest => hexDigit (b.toNat / 16) :: hexDigit (b.toNat % 16) :: hexChars rest

def hex (data : ByteArray) : String :=
  String.ofList (hexChars data.toList)

def unhexChars : List Char → Option (List UInt8)
  | [] => some []
  | [_] => none
  | a :: b :: rest => do
    let high ← hexValue? a
    let low ← hexValue? b
    return UInt8.ofNat (16 * high + low) :: (← unhexChars rest)

def unhex? (s : String) : Option ByteArray :=
  (unhexChars s.toList).map fun bytes ↦ ⟨bytes.toArray⟩

end SheetPackages.Digest
