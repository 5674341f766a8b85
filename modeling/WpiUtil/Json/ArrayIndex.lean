import WpiUtil.Json.PointerAccess

/-!
# Reference tokens as array indices

A reference token should be the numeral of an index, without a sign and without leading zeros.
-/

namespace Wpi

open Foundations

/-- The text begins with the integer `n`: white space, a sign and digits, then no further digit. -/
structure BeginsWith (t blanks sign digits rest : Key) (n : Int) : Prop where
  text_eq : t = blanks ++ sign ++ digits ++ rest
  blanks_isspace : ∀ c ∈ blanks, isspace c = true
  sign_eq : sign = [] ∨ sign = bytes "+" ∨ sign = bytes "-"
  digits_isDigit : ∀ c ∈ digits, isDigit c = true
  digits_ne_nil : digits ≠ []
  rest_head : ∀ c, rest.head? = some c → isDigit c = false
  value_eq : n = if sign = bytes "-" then -(ofDecimal 0 digits : Int) else ofDecimal 0 digits

namespace Json

/-- The exceptions that are documented for a token that is no index of an array. -/
def RejectedIndex (e : Failure) : Prop :=
  ∃ x, e = .thrown x ∧ (x.type = .parseError ∧ (x.id = 106 ∨ x.id = 109) ∨
    x.type = .outOfRange ∧ (x.id = 401 ∨ x.id = 402))

/-- The outcome of resolving a token against an array: the element whose index it is, or an
exception if there is none. -/
structure ResolvedIndex (xs : List Json) (t : Key) (outcome : Except Failure Location) : Prop where
  element : ∀ i, outcome = .ok [.index i] ↔ t = Wpi.decimal i ∧ i < xs.length
  rejected : (∀ i, t = Wpi.decimal i → xs.length ≤ i) → ∃ e, outcome = .error e ∧ RejectedIndex e

/-- The token is refused for its first characters, or it does not begin with an integer, or the
integer is an `int` and no index but for its own numeral. -/
def PlainIndex (xs : List Json) (t : Key) : Prop :=
  t = bytes "-" ∨ 1 < t.length ∧ t.head? = some 0x30 ∨
    ∀ blanks sign digits rest n, BeginsWith t blanks sign digits rest n →
      -2 ^ 31 ≤ n ∧ n < 2 ^ 31 ∧
        ((n % 2 ^ 64).toNat < xs.length → t = Wpi.decimal (n % 2 ^ 64).toNat)

end Json

end Wpi
