import WpiUtil.Json.Lexer

/-!
# The documentation of `scan_number`

The table of states in the comment, entry by entry, and the table with the entry that a digit after
the decimal point has in the grammar.
-/

namespace Wpi.Lexer

open Foundations

inductive NumberEntry where
  | goto (state : NumberState)
  | done
  | error
deriving DecidableEq, Repr

/-- The columns of the table: `0`, `1-9`, `e E`, `+`, `-`, `.` and anything else. -/
inductive NumberColumn where
  | zero
  | nonzero
  | letter
  | plus
  | minus
  | point
  | anything
deriving DecidableEq, Repr

def numberColumn (c : Byte) : NumberColumn :=
  if c = 0x30 then .zero
  else if isDigit c then .nonzero
  else if c = 0x65 ∨ c = 0x45 then .letter
  else if c = 0x2b then .plus
  else if c = 0x2d then .minus
  else if c = 0x2e then .point
  else .anything

/-- A row of the table. -/
def numberRow (zero nonzero letter plus minus point anything : NumberEntry) :
    NumberColumn → NumberEntry
  | .zero => zero
  | .nonzero => nonzero
  | .letter => letter
  | .plus => plus
  | .minus => minus
  | .point => point
  | .anything => anything

/-- The table, with `none` for the state `init`. -/
def documentedTable : Option NumberState → NumberColumn → NumberEntry
  | none => numberRow (.goto .zero) (.goto .any1) .error .error (.goto .minus) .error .error
  | some .minus => numberRow (.goto .zero) (.goto .any1) .error .error .error .error .error
  | some .zero => numberRow .done .done (.goto .exponent) .done .done (.goto .decimal1) .done
  | some .any1 =>
    numberRow (.goto .any1) (.goto .any1) (.goto .exponent) .done .done (.goto .decimal1) .done
  | some .decimal1 => numberRow (.goto .decimal2) .error .error .error .error .error .error
  | some .decimal2 =>
    numberRow (.goto .decimal2) (.goto .decimal2) (.goto .exponent) .done .done .done .done
  | some .exponent =>
    numberRow (.goto .any2) (.goto .any2) .error (.goto .sign) (.goto .sign) .error .error
  | some .sign => numberRow (.goto .any2) (.goto .any2) .error .error .error .error .error
  | some .any2 => numberRow (.goto .any2) (.goto .any2) .done .done .done .done .done

/-- The table with one entry changed: a digit after the decimal point need not be zero. -/
def numberTable (state : Option NumberState) (column : NumberColumn) : NumberEntry :=
  if state = some .decimal1 ∧ column = .nonzero then .goto .decimal2
  else documentedTable state column

/-- The longest path through a table ends where the number is done. -/
def accepts (table : Option NumberState → NumberColumn → NumberEntry) :
    Option NumberState → List Byte → Bool
  | state, [] => table state .anything == .done
  | state, c :: u =>
    match table state (numberColumn c) with
    | .goto state => accepts table (some state) u
    | .done => true
    | .error => false

end Wpi.Lexer
