import WpiUtil.Json.ParseTree

/-!
# The calls of a parser callback

The calls that the documentation of `parser_callback_t` describes: depths are nesting depths, and
there are no calls for what is in a container whose start has been answered with `false`.
-/

namespace Wpi.ParseTree

open Foundations.JsonText (Tree)

/-- The callback keeps a container of this kind at this depth. -/
def accepts (cb : ParserCallback) (depth : Int) (event : ParseEvent) : Bool :=
  (cb depth event .discarded).1

mutual

def documentedCalls (cb : ParserCallback) (depth : Int) : Tree → List Call
  | .array ts =>
    (depth, .arrayStart) ::
      if accepts cb depth .arrayStart then
        documentedElements cb (depth + 1) ts ++ [(depth, .arrayEnd)]
      else []
  | .object ms =>
    (depth, .objectStart) ::
      if accepts cb depth .objectStart then
        documentedMembers cb (depth + 1) ms ++ [(depth, .objectEnd)]
      else []
  | .null => [(depth, .value)]
  | .boolean _ => [(depth, .value)]
  | .number _ => [(depth, .value)]
  | .string _ => [(depth, .value)]

def documentedElements (cb : ParserCallback) (depth : Int) : List Tree → List Call
  | [] => []
  | t :: ts => documentedCalls cb depth t ++ documentedElements cb depth ts

def documentedMembers (cb : ParserCallback) (depth : Int) : List (List Char × Tree) → List Call
  | [] => []
  | (_, t) :: ms =>
    (depth, .key) :: (documentedCalls cb depth t ++ documentedMembers cb depth ms)

end

mutual

/-- The callback keeps every container, the tree being `depth` levels down. -/
def AcceptsAll (cb : ParserCallback) (depth : Int) : Tree → Prop
  | .array ts => accepts cb depth .arrayStart = true ∧ AcceptsElements cb (depth + 1) ts
  | .object ms => accepts cb depth .objectStart = true ∧ AcceptsMembers cb (depth + 1) ms
  | .null => True
  | .boolean _ => True
  | .number _ => True
  | .string _ => True

def AcceptsElements (cb : ParserCallback) (depth : Int) : List Tree → Prop
  | [] => True
  | t :: ts => AcceptsAll cb depth t ∧ AcceptsElements cb depth ts

def AcceptsMembers (cb : ParserCallback) (depth : Int) : List (List Char × Tree) → Prop
  | [] => True
  | (_, t) :: ms => AcceptsAll cb depth t ∧ AcceptsMembers cb depth ms

end

/-- The tree is a container, and the callback does not keep it. -/
def RejectsRoot (cb : ParserCallback) (depth : Int) : Tree → Prop
  | .array _ => accepts cb depth .arrayStart = false
  | .object _ => accepts cb depth .objectStart = false
  | _ => False

mutual

/-- How many empty arrays there are in the tree, itself included. -/
def emptyArrays : Tree → Nat
  | .array ts => if ts.isEmpty then 1 else emptyArraysElements ts
  | .object ms => emptyArraysMembers ms
  | .null => 0
  | .boolean _ => 0
  | .number _ => 0
  | .string _ => 0

def emptyArraysElements : List Tree → Nat
  | [] => 0
  | t :: ts => emptyArrays t + emptyArraysElements ts

def emptyArraysMembers : List (List Char × Tree) → Nat
  | [] => 0
  | (_, t) :: ms => emptyArrays t + emptyArraysMembers ms

end

end Wpi.ParseTree
