/-
Texts as bytes: which bytes are UTF-8, and the bytes of ASCII texts.
-/
import Mathlib

namespace ZiqaKernel

def isContinuation (b : UInt8) : Bool := 0x80 ≤ b && b ≤ 0xBF

/-- `core::str::from_utf8(..).is_ok()`: no overlong forms, no surrogates,
nothing above U+10FFFF. -/
def utf8Valid : List UInt8 → Bool
  | [] => true
  | a :: rest =>
    if a < 0x80 then utf8Valid rest
    else
      match rest with
      | [] => false
      | b :: rest2 =>
        if 0xC2 ≤ a ∧ a ≤ 0xDF then isContinuation b && utf8Valid rest2
        else
          match rest2 with
          | [] => false
          | c :: rest3 =>
            if 0xE0 ≤ a ∧ a ≤ 0xEF then
              isContinuation b && isContinuation c &&
                (a != 0xE0 || 0xA0 ≤ b) && (a != 0xED || b ≤ 0x9F) &&
                utf8Valid rest3
            else
              match rest3 with
              | [] => false
              | d :: rest4 =>
                (0xF0 ≤ a && a ≤ 0xF4) && isContinuation b &&
                  isContinuation c && isContinuation d &&
                  (a != 0xF0 || 0x90 ≤ b) && (a != 0xF4 || b ≤ 0x8F) &&
                  utf8Valid rest4

def asciiBytes (text : String) : List UInt8 := text.toList.map fun c => c.val.toUInt8

end ZiqaKernel
