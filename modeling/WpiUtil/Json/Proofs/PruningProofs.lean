import WpiUtil.Json.Proofs.ParseProofs
import WpiUtil.Json.Pruning

/-!
# A callback prunes the tree of a text
-/

namespace Wpi.ParseTree

open Foundations
open Foundations.JsonText (Tree)

/-! ## Without a callback -/

theorem isDiscarded_json (t : Tree) : (json t).isDiscarded = false := by
  cases t with
  | number n =>
    rw [json]
    exact numberJson_isDiscarded n
  | _ =>
    rw [json]
    rfl

mutual

theorem eval_none (t : Tree) (s : Calls) : (eval none true t).run s = (json t, s) := by
  cases t with
  | null | boolean _ | number _ | string _ =>
    rw [eval, json]
    rfl
  | array ts =>
    rw [Parser.run_eval_array, json]
    exact congrArg (fun x => (Calls.endContainer none .arrayEnd true x.1).run x.2)
      (evalElements_none ts [] s)
  | object ms =>
    rw [Parser.run_eval_object, json]
    exact congrArg (fun x => (Calls.endContainer none .objectEnd true x.1).run x.2)
      (evalMembers_none ms StringMap.empty s)

theorem evalElements_none (ts : List Tree) (xs : List Json) (s : Calls) :
    (evalElements none true (.array xs) ts).run s = (.array (xs ++ jsonElements ts), s) := by
  cases ts with
  | nil =>
    rw [evalElements, jsonElements, List.append_nil]
    rfl
  | cons t ts =>
    have hkept := isDiscarded_json t
    have hrest := evalElements_none ts (xs ++ [json t]) s
    rw [List.append_assoc] at hrest
    rw [Parser.run_evalElements_cons, eval_none t s]
    simp only [hkept]
    exact hrest

theorem evalMembers_none (ms : List (List Char × Tree)) (m : StringMap Json) (s : Calls) :
    (evalMembers none true (.object m) ms).run s = (.object (jsonMembers m ms), s) := by
  cases ms with
  | nil =>
    rw [evalMembers, jsonMembers]
    rfl
  | cons member ms =>
    obtain ⟨cs, t⟩ := member
    have hkept := isDiscarded_json t
    have hkeep : (Calls.keepTag none true (Utf8.encode cs)).run s = (true, s) := rfl
    rw [Parser.run_evalMembers_cons, hkeep]
    dsimp only
    rw [eval_none t s]
    simp only [hkept]
    exact evalMembers_none ms _ s

end

theorem denote_json {t : Tree} (ht : ShortNames t) : (json t).denote = value t := by
  obtain ⟨j, hrun, -, hdenote, -⟩ := run_eval t ht ⟨0, []⟩
  rw [eval_none] at hrun
  cases hrun
  exact hdenote

/-! ## With a callback -/

variable {f : Answers} {s : Calls}

theorem evalElements_false (cb : Option ParserCallback) (result : Json) (ts : List Tree)
    (s : Calls) : ((evalElements cb false result ts).run s).1 = result := by
  induction ts generalizing s with
  | nil =>
    rw [evalElements]
    rfl
  | cons t ts ih =>
    rw [Parser.run_evalElements_cons]
    exact ih _

theorem evalMembers_false (cb : Option ParserCallback) (result : Json)
    (ms : List (List Char × Tree)) (s : Calls) :
    ((evalMembers cb false result ms).run s).1 = result := by
  induction ms generalizing s with
  | nil =>
    rw [evalMembers]
    rfl
  | cons member ms ih =>
    obtain ⟨cs, t⟩ := member
    rw [Parser.run_evalMembers_cons]
    exact ih _

theorem run_startContainer (event : ParseEvent) (container : Json) (s : Calls) :
    ((Calls.startContainer (some f.callback) event container true).run s).1 =
      (f event .discarded, if f event .discarded then container else .discarded) := rfl

theorem run_endContainer (event : ParseEvent) (result : Json) (s : Calls) :
    ((Calls.endContainer (some f.callback) event true result).run s).1 =
      if f event result then result else .discarded := rfl

/-- What has been rejected is not taken back at its end. -/
theorem run_endContainer_discarded (event : ParseEvent) (keep : Bool) (s : Calls) :
    ((Calls.endContainer (some f.callback) event keep .discarded).run s).1 = .discarded := by
  cases keep with
  | false => rfl
  | true =>
    rw [run_endContainer]
    split_ifs
    · rfl
    · rfl

theorem run_keepTag (key : Key) (s : Calls) :
    ((Calls.keepTag (some f.callback) true key).run s).1 = f .key (.string key) := rfl

/-- What becomes of a value after its last event. -/
theorem elim_keepIf (event : ParseEvent) (t : Tree) :
    (keepIf f event t).elim .discarded json =
      if f event (json t) then json t else .discarded := by
  rw [keepIf]
  split_ifs with h
  · rfl
  · rfl

mutual

theorem eval_callback (t : Tree) (s : Calls) :
    ((eval (some f.callback) true t).run s).1 = (prune f t).elim .discarded json := by
  cases t with
  | null | boolean _ | number _ | string _ =>
    rw [eval, prune, elim_keepIf]
    rfl
  | array ts =>
    rw [Parser.run_eval_array, prune]
    dsimp only
    rw [run_startContainer]
    cases f .arrayStart .discarded with
    | false =>
      simp only [Bool.false_eq_true, if_false]
      rw [evalElements_false, run_endContainer_discarded]
      rfl
    | true =>
      simp only [if_true, Bool.true_or]
      rw [Json.emptyArray, run_endContainer, evalElements_callback, List.nil_append, elim_keepIf,
        json]
  | object ms =>
    rw [Parser.run_eval_object, prune]
    dsimp only
    rw [run_startContainer]
    cases f .objectStart .discarded with
    | false =>
      simp only [Bool.false_eq_true, if_false]
      rw [evalMembers_false, run_endContainer_discarded]
      rfl
    | true =>
      simp only [if_true]
      rw [Json.emptyObject, run_endContainer, evalMembers_callback, elim_keepIf, json]

theorem evalElements_callback (ts : List Tree) (xs : List Json) (s : Calls) :
    ((evalElements (some f.callback) true (.array xs) ts).run s).1 =
      .array (xs ++ jsonElements (pruneElements f ts)) := by
  cases ts with
  | nil =>
    rw [evalElements, pruneElements, jsonElements, List.append_nil]
    rfl
  | cons t ts =>
    rw [Parser.run_evalElements_cons, pruneElements]
    dsimp only
    rw [eval_callback t s]
    cases prune f t with
    | none => exact evalElements_callback ts xs _
    | some t' =>
      have hkept := isDiscarded_json t'
      have hrest := evalElements_callback ts (xs ++ [json t'])
        ((eval (some f.callback) true t).run s).2
      rw [List.append_assoc] at hrest
      simp only [Option.elim_some, hkept]
      rw [jsonElements]
      exact hrest

theorem evalMembers_callback (ms : List (List Char × Tree)) (m : StringMap Json) (s : Calls) :
    ((evalMembers (some f.callback) true (.object m) ms).run s).1 =
      .object (jsonMembers m (pruneMembers f ms)) := by
  cases ms with
  | nil =>
    rw [evalMembers, pruneMembers, jsonMembers]
    rfl
  | cons member ms =>
    obtain ⟨cs, t⟩ := member
    rw [Parser.run_evalMembers_cons, pruneMembers]
    dsimp only
    rw [eval_callback t, run_keepTag]
    cases f .key (.string (Utf8.encode cs)) with
    | false => exact evalMembers_callback ms m _
    | true =>
      cases prune f t with
      | none => exact evalMembers_callback ms m _
      | some t' =>
        have hkept := isDiscarded_json t'
        simp only [Option.elim_some, hkept]
        rw [jsonMembers]
        exact evalMembers_callback ms _ _

end

theorem keepIf_eq_some {event : ParseEvent} {t t' : Tree} (h : keepIf f event t = some t') :
    t' = t := by
  unfold keepIf at h
  split_ifs at h
  cases h
  rfl

mutual

/-- The names that are left are names of the tree. -/
theorem names_prune {P : Key → Prop} (t : Tree) (ht : Names P t) {t' : Tree}
    (h : prune f t = some t') : Names P t' := by
  cases t with
  | null | boolean _ | number _ | string _ =>
    rw [prune] at h
    rw [keepIf_eq_some h]
    trivial
  | array ts =>
    rw [prune] at h
    split_ifs at h
    rw [keepIf_eq_some h]
    exact names_pruneElements ts ht
  | object ms =>
    rw [prune] at h
    split_ifs at h
    rw [keepIf_eq_some h]
    exact names_pruneMembers ms ht

theorem names_pruneElements {P : Key → Prop} (ts : List Tree) (hts : NamesElements P ts) :
    NamesElements P (pruneElements f ts) := by
  cases ts with
  | nil => trivial
  | cons t ts =>
    have hrest := names_pruneElements ts hts.2
    rw [pruneElements]
    cases h : prune f t with
    | none => exact hrest
    | some t' => exact ⟨names_prune t hts.1 h, hrest⟩

theorem names_pruneMembers {P : Key → Prop} (ms : List (List Char × Tree))
    (hms : NamesMembers P ms) : NamesMembers P (pruneMembers f ms) := by
  cases ms with
  | nil => trivial
  | cons member ms =>
    obtain ⟨cs, t⟩ := member
    obtain ⟨hname, ht, hms⟩ := hms
    have hrest := names_pruneMembers ms hms
    rw [pruneMembers]
    cases f .key (.string (Utf8.encode cs)) with
    | false => exact hrest
    | true =>
      cases h : prune f t with
      | none => exact hrest
      | some t' => exact ⟨hname, names_prune t ht h, hrest⟩

end

/-- A callback that looks at the event and the parsed value only prunes the tree of the text. What
is left is parsed as it is without a callback, and null stands for a tree that is discarded. -/
theorem parse_eq_prune {s : List Byte} {j : Json} (hs : TextFits (untilNul s))
    (h : (Json.parse s none).1 = .ok j) (f : Answers) :
    (∃ t, IsJsonText (untilNul s) t ∧ Finite t) ∧
    ∀ t, IsJsonText (untilNul s) t → Finite t →
      ∃ r, (Json.parse s (some f.callback)).1 = .ok r ∧ r = (prune f t).elim .null json ∧
        r.denote = (prune f t).elim .null value := by
  refine ⟨Json.isJsonText_of_parse h, ?_⟩
  intro t htext hfinite
  have hparse := (Json.parse_of_isJsonText htext hfinite (some f.callback)).1
  rw [eval_callback] at hparse
  refine ⟨(prune f t).elim .null json, ?_, rfl, ?_⟩
  · rw [hparse]
    cases prune f t with
    | none => rfl
    | some t' =>
      rw [Option.elim_some, isDiscarded_json]
      rfl
  · cases hprune : prune f t with
    | none => rfl
    | some t' => exact denote_json (names_prune t (shortNames_of_fits (hs.names htext)) hprune)

theorem isJsonText_nullAndArray :
    IsJsonText (untilNul (bytes "[null,[]]")) (.array [.null, .array []]) :=
  ⟨_, _, .nil _, .array (.element (.nil _) (.null _) (.nil _)
    (.lastElement (.nil _) (.emptyArray (.nil _)) (.nil _))), .nil _⟩

/-- Without its null the array has one element. -/
example : prune (fun event _ => event ≠ .value) (.array [.null, .array []]) =
    some (.array [.array []]) := rfl

theorem parse_eq_prune_nullAndArray :
    (∃ t, IsJsonText (untilNul (bytes "[null,[]]")) t ∧ Finite t) ∧
    ∀ t, IsJsonText (untilNul (bytes "[null,[]]")) t → Finite t →
      ∃ r, (Json.parse (bytes "[null,[]]")
          (some (Answers.callback fun event _ => event ≠ .value))).1 = .ok r ∧
        r = (prune (fun event _ => event ≠ .value) t).elim .null json ∧
        r.denote = (prune (fun event _ => event ≠ .value) t).elim .null value := by
  obtain ⟨j, hj, -⟩ := Json.exists_parse isJsonText_nullAndArray ⟨trivial, trivial, trivial⟩
    ⟨trivial, trivial, trivial⟩
  exact parse_eq_prune (textFits_of_length_le (by decide)) hj _

/-- A callback that accepts everything, and a name of `2 ^ 32` bytes. -/
theorem not_parse_eq_prune_longText :
    (∃ j, (Json.parse (Json.longText (2 ^ 32)) none).1 = .ok j) ∧
      IsJsonText (Json.longText (2 ^ 32)) (Json.longTree (2 ^ 32)) ∧
      Finite (Json.longTree (2 ^ 32)) ∧
      ¬∃ r, (Json.parse (Json.longText (2 ^ 32))
          (some (Answers.callback fun _ _ => true))).1 = .ok r ∧
        r.denote = (prune (fun _ _ => true) (Json.longTree (2 ^ 32))).elim .null value := by
  have htext := Json.isJsonText_longText (2 ^ 32)
  have hfinite : Finite (Json.longTree (2 ^ 32)) := ⟨trivial, trivial⟩
  have hprune : prune (fun _ _ => true) (Json.longTree (2 ^ 32)) = some (Json.longTree (2 ^ 32)) :=
    rfl
  have hjson : json (Json.longTree (2 ^ 32)) =
      .object (Json.assign .empty (Json.longName (2 ^ 32)) .null) := by
    rw [← Json.encode_replicate]
    rfl
  refine ⟨⟨_, Json.parse_longText _⟩, by rwa [Json.untilNul_longText] at htext, hfinite, ?_⟩
  rintro ⟨r, hr, hdenote⟩
  rw [(Json.parse_of_isJsonText htext hfinite _).1, eval_callback, hprune, Option.elim_some,
    isDiscarded_json, if_neg (by decide), hjson] at hr
  rw [hprune, Option.elim_some] at hdenote
  cases hr
  exact Json.denote_longText hdenote

end Wpi.ParseTree
