import WpiUtil.Json.ParseTree

/-!
# Pruning a tree

What is left of a tree when a callback rejects parts of it.
-/

namespace Wpi.ParseTree

open Foundations
open Foundations.JsonText (Tree)

/-- The answers of a callback that looks at the event and the parsed value only, and does not modify
the value. -/
abbrev Answers := ParseEvent → Json → Bool

def Answers.callback (f : Answers) : ParserCallback := fun _ event parsed => (f event parsed, parsed)

mutual

/-- The value of a tree, with its representation. -/
def json : Tree → Json
  | .null => .null
  | .boolean b => .boolean b
  | .number n => numberJson n
  | .string cs => .string (Utf8.encode cs)
  | .array ts => .array (jsonElements ts)
  | .object ms => .object (jsonMembers StringMap.empty ms)

def jsonElements : List Tree → List Json
  | [] => []
  | t :: ts => json t :: jsonElements ts

def jsonMembers (m : StringMap Json) : List (List Char × Tree) → StringMap Json
  | [] => m
  | (cs, t) :: ms => jsonMembers (Json.assign m (Utf8.encode cs) (json t)) ms

end

/-- The tree, unless its last event is rejected. -/
def keepIf (f : Answers) (event : ParseEvent) (t : Tree) : Option Tree :=
  if f event (json t) then some t else none

mutual

/-- What is left of a tree, `none` if it is discarded. -/
def prune (f : Answers) : Tree → Option Tree
  | .null => keepIf f .value .null
  | .boolean b => keepIf f .value (.boolean b)
  | .number n => keepIf f .value (.number n)
  | .string cs => keepIf f .value (.string cs)
  | .array ts =>
    if f .arrayStart .discarded then keepIf f .arrayEnd (.array (pruneElements f ts)) else none
  | .object ms =>
    if f .objectStart .discarded then keepIf f .objectEnd (.object (pruneMembers f ms)) else none

def pruneElements (f : Answers) : List Tree → List Tree
  | [] => []
  | t :: ts =>
    match prune f t with
    | some t => t :: pruneElements f ts
    | none => pruneElements f ts

def pruneMembers (f : Answers) : List (List Char × Tree) → List (List Char × Tree)
  | [] => []
  | (cs, t) :: ms =>
    match f .key (.string (Utf8.encode cs)), prune f t with
    | true, some t => (cs, t) :: pruneMembers f ms
    | _, _ => pruneMembers f ms

end

end Wpi.ParseTree
