import Mathlib.Logic.Relation
import WpiUtil.Foundations.UnicodeForms
import WpiUtil.Llvm.ConvertUTF

/-!
# What `ConvertUTF` is for

Texts in one of the encoding forms, and the calls that bring them into another one.
-/

namespace Wpi.ConvertUTF

open Foundations UnicodeForms ConversionResult ConversionFlags

/-- The calls that succeed are those on the encoding of a text that has room in the target, and they
leave the other encoding there. -/
def Transcodes {α β : Type} (call : List α → ℕ → Conversion α β) (source : TextCode α)
    (target : TextCode β) : Prop :=
  ∀ s n, ((call s n).result = conversionOK ↔
      ∃ cs, s = source.encode cs ∧ (target.encode cs).length ≤ n) ∧
    ∀ cs, s = source.encode cs → (target.encode cs).length ≤ n →
      call s n = ⟨conversionOK, [], target.encode cs⟩

inductive Form where
  | utf8
  | utf16
  | utf32
  deriving DecidableEq

def Form.Unit : Form → Type
  | utf8 => UInt8
  | utf16 => UInt16
  | utf32 => UInt32

def Form.code : (f : Form) → TextCode f.Unit
  | utf8 => UnicodeForms.utf8
  | utf16 => UnicodeForms.utf16
  | utf32 => UnicodeForms.utf32

/-- A source, or what is in a target, in its form. -/
structure Buffer where
  form : Form
  units : List form.Unit

/-- A strict conversion succeeds, with some room in the target. -/
inductive ConvertsTo : Buffer → Buffer → Prop
  | utf8toUTF16 (s : List UInt8) (n : ℕ)
      (h : (convertUTF8toUTF16 s n strictConversion).result = conversionOK) :
      ConvertsTo ⟨.utf8, s⟩ ⟨.utf16, (convertUTF8toUTF16 s n strictConversion).target⟩
  | utf8toUTF32 (s : List UInt8) (n : ℕ)
      (h : (convertUTF8toUTF32 s n strictConversion).result = conversionOK) :
      ConvertsTo ⟨.utf8, s⟩ ⟨.utf32, (convertUTF8toUTF32 s n strictConversion).target⟩
  | utf8toUTF32Partial (s : List UInt8) (n : ℕ)
      (h : (convertUTF8toUTF32Partial s n strictConversion).result = conversionOK) :
      ConvertsTo ⟨.utf8, s⟩ ⟨.utf32, (convertUTF8toUTF32Partial s n strictConversion).target⟩
  | utf16toUTF8 (s : List UInt16) (n : ℕ)
      (h : (convertUTF16toUTF8 s n strictConversion).result = conversionOK) :
      ConvertsTo ⟨.utf16, s⟩ ⟨.utf8, (convertUTF16toUTF8 s n strictConversion).target⟩
  | utf16toUTF32 (s : List UInt16) (n : ℕ)
      (h : (convertUTF16toUTF32 s n strictConversion).result = conversionOK) :
      ConvertsTo ⟨.utf16, s⟩ ⟨.utf32, (convertUTF16toUTF32 s n strictConversion).target⟩
  | utf32toUTF8 (s : List UInt32) (n : ℕ)
      (h : (convertUTF32toUTF8 s n strictConversion).result = conversionOK) :
      ConvertsTo ⟨.utf32, s⟩ ⟨.utf8, (convertUTF32toUTF8 s n strictConversion).target⟩
  | utf32toUTF16 (s : List UInt32) (n : ℕ)
      (h : (convertUTF32toUTF16 s n strictConversion).result = conversionOK) :
      ConvertsTo ⟨.utf32, s⟩ ⟨.utf16, (convertUTF32toUTF16 s n strictConversion).target⟩

/-- However a source arrives piece by piece and however much room each call is given, what the calls
write, followed by what a further call writes, is what one call writes of the whole source, and both
end at the same place. -/
def Resumes {α β : Type} (call : List α → ℕ → Conversion α β) : Prop :=
  ∀ (pieces : List (List α × ℕ)) (n m : ℕ),
    let whole := call (pieces.map Prod.fst).flatten n
    let fed := Converter.feed call [] pieces
    let last := call fed.2 m
    whole.result ≠ targetExhausted → last.result ≠ targetExhausted →
      whole.target = fed.1 ++ last.target ∧ whole.source = last.source

/-- In the same way, and with the same result. -/
def ResumesWithResult {α β : Type} (call : List α → ℕ → Conversion α β) : Prop :=
  Resumes call ∧ ∀ (pieces : List (List α × ℕ)) (n m : ℕ),
    let whole := call (pieces.map Prod.fst).flatten n
    let last := call (Converter.feed call [] pieces).2 m
    whole.result ≠ targetExhausted → last.result ≠ targetExhausted → whole.result = last.result

end Wpi.ConvertUTF
