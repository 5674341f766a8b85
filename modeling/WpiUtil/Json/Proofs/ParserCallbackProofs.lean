import WpiUtil.Json.ParserCallback
import WpiUtil.Json.Proofs.ParseProofs

/-!
# When the calls of a callback are the documented ones

A container that is not kept leaves the depth one too high, and an empty array in it gives rise to a
call that lowers the depth again.
-/

namespace Wpi.ParseTree

open Foundations
open Foundations.JsonText (Numeral Tree)

/-! ## Lists that differ somewhere -/

section Differ

variable {α : Type}

/-- Neither of the lists goes on where the other one ends. -/
def Differ (xs ys : List α) : Prop := ¬xs <+: ys ∧ ¬ys <+: xs

theorem Differ.ne {xs ys : List α} (h : Differ xs ys) : xs ≠ ys := by
  rintro rfl
  exact h.1 (List.prefix_refl xs)

theorem differ_cons {x y : α} (h : x ≠ y) (xs ys : List α) : Differ (x :: xs) (y :: ys) := by
  constructor
  · intro hp
    exact h (List.cons_prefix_cons.1 hp).1
  · intro hp
    exact h (List.cons_prefix_cons.1 hp).1.symm

theorem Differ.append_left {xs ys : List α} (h : Differ xs ys) (zs : List α) :
    Differ (zs ++ xs) (zs ++ ys) := by
  constructor
  · rw [List.prefix_append_right_inj]
    exact h.1
  · rw [List.prefix_append_right_inj]
    exact h.2

theorem Differ.append {xs ys : List α} (h : Differ xs ys) (xs' ys' : List α) :
    Differ (xs ++ xs') (ys ++ ys') := by
  have hcomparable : ∀ {zs : List α}, xs <+: zs → ys <+: zs → False := fun hx hy =>
    (List.prefix_or_prefix_of_prefix hx hy).elim h.1 h.2
  constructor
  · intro hp
    exact hcomparable ((List.prefix_append xs xs').trans hp) (List.prefix_append ys ys')
  · intro hp
    exact hcomparable (List.prefix_append xs xs') ((List.prefix_append ys ys').trans hp)

end Differ

variable {cb : ParserCallback} {s : Calls}

/-! ## Without being kept -/

/-- The calls for the ends of `k` empty arrays that are not kept. -/
def ends (depth : Int) (k : Nat) : List Call :=
  (List.range k).map fun i : Nat => (depth - (i + 1), .arrayEnd)

theorem ends_add (depth : Int) (k l : Nat) :
    ends depth (k + l) = ends depth k ++ ends (depth - k) l := by
  unfold ends
  rw [List.range_add, List.map_append, List.map_map]
  congr 1
  refine List.map_congr_left fun i _ => ?_
  simp only [Function.comp_apply, Nat.cast_add]
  congr 1
  omega

/-- The depth and the calls after `k` empty arrays that are not kept. -/
def afterEnds (s : Calls) (k : Nat) : Calls := ⟨s.depth - k, s.made ++ ends s.depth k⟩

theorem afterEnds_zero (s : Calls) : afterEnds s 0 = s := by
  simp [afterEnds, ends]

theorem afterEnds_add (s : Calls) (k l : Nat) :
    afterEnds s (k + l) = afterEnds (afterEnds s k) l := by
  unfold afterEnds
  rw [ends_add, Nat.cast_add, List.append_assoc, Int.sub_sub]

/-- The end of an array that is not kept. -/
theorem endArray_notKept {ts : List Tree} {x : Json × Calls}
    (h : x.2 = afterEnds s (emptyArraysElements ts)) :
    ((Calls.endContainer (some cb) .arrayEnd (false || ts.isEmpty) x.1).run x.2).2 =
      afterEnds s (emptyArrays (.array ts)) := by
  rw [emptyArrays]
  cases ts with
  | nil =>
    rw [emptyArraysElements, afterEnds_zero] at h
    rw [h]
    rfl
  | cons t ts => exact h

mutual

theorem eval_notKept (t : Tree) (s : Calls) :
    ((eval (some cb) false t).run s).2 = afterEnds s (emptyArrays t) := by
  cases t with
  | null | boolean _ | number _ | string _ =>
    rw [eval, emptyArrays, afterEnds_zero]
    rfl
  | array ts =>
    rw [Parser.run_eval_array]
    exact endArray_notKept (evalElements_notKept ts .discarded s)
  | object ms =>
    rw [Parser.run_eval_object, emptyArrays]
    exact evalMembers_notKept ms .discarded s

theorem evalElements_notKept (ts : List Tree) (result : Json) (s : Calls) :
    ((evalElements (some cb) false result ts).run s).2 = afterEnds s (emptyArraysElements ts) := by
  cases ts with
  | nil =>
    rw [evalElements, emptyArraysElements, afterEnds_zero]
    rfl
  | cons t ts =>
    rw [Parser.run_evalElements_cons, emptyArraysElements, afterEnds_add, ← eval_notKept t s]
    exact evalElements_notKept ts _ _

theorem evalMembers_notKept (ms : List (List Char × Tree)) (result : Json) (s : Calls) :
    ((evalMembers (some cb) false result ms).run s).2 = afterEnds s (emptyArraysMembers ms) := by
  cases ms with
  | nil =>
    rw [evalMembers, emptyArraysMembers, afterEnds_zero]
    rfl
  | cons member ms =>
    obtain ⟨cs, t⟩ := member
    rw [Parser.run_evalMembers_cons, emptyArraysMembers, afterEnds_add, ← eval_notKept t s]
    exact evalMembers_notKept ms _ _

end

/-! ## Being kept -/

/-- The first of the calls is made with this depth. -/
def Heads (depth : Int) (r : List Call) : Prop := ∃ e r', r = (depth, e) :: r'

/-- The documented calls for what is in a container start with the depth of its members, unless
there are none. -/
def Inner (doc : Int → List Call) : Prop :=
  (∀ d, doc d = []) ∨ ∀ d, ∃ e r, doc d = (d, e) :: r ∧ e ≠ .arrayEnd

/-- What parsing a value does to the calls, and how that compares to the documented calls. -/
inductive Outcome (cb : ParserCallback) (t : Tree) (s s' : Calls) : Prop where
  | accepted (h : AcceptsAll cb s.depth t) (hdepth : s'.depth = s.depth)
      (hmade : s'.made = s.made ++ documentedCalls cb s.depth t)
  | rejected (h : RejectsRoot cb s.depth t) (x : Call) (hx : documentedCalls cb s.depth t = [x])
      (hs' : s' = afterEnds ⟨s.depth + 1, s.made ++ [x]⟩ (emptyArrays t))
  | differs (h : ¬AcceptsAll cb s.depth t) (hroot : ¬RejectsRoot cb s.depth t) (r : List Call)
      (hhead : Heads s.depth r) (hmade : s'.made = s.made ++ r)
      (hr : Differ r (documentedCalls cb s.depth t))

/-- The same for what is in a container: the call for its end tells the difference. -/
inductive Sequence (accepts : Prop) (doc : List Call) (s s' : Calls) : Prop where
  | accepted (h : accepts) (hdepth : s'.depth = s.depth) (hmade : s'.made = s.made ++ doc)
  | differs (h : ¬accepts) (r : List Call) (hhead : Heads s.depth r)
      (hmade : s'.made = s.made ++ r)
      (hr : ∀ e, Differ (r ++ [(s'.depth - 1, e)]) (doc ++ [(s.depth - 1, e)]))

theorem documentedCalls_head (cb : ParserCallback) (depth : Int) (t : Tree) :
    ∃ e r, documentedCalls cb depth t = (depth, e) :: r ∧ e ≠ .arrayEnd := by
  cases t with
  | null | boolean _ | number _ | string _ =>
    exact ⟨.value, [], by rw [documentedCalls], by decide⟩
  | array ts => exact ⟨.arrayStart, _, by rw [documentedCalls], by decide⟩
  | object ms => exact ⟨.objectStart, _, by rw [documentedCalls], by decide⟩

theorem inner_elements (cb : ParserCallback) (ts : List Tree) :
    Inner fun d => documentedElements cb d ts := by
  cases ts with
  | nil => exact Or.inl fun d => by simp only [documentedElements]
  | cons t ts =>
    refine Or.inr fun d => ?_
    obtain ⟨e, r, ht, he⟩ := documentedCalls_head cb d t
    refine ⟨e, r ++ documentedElements cb d ts, ?_, he⟩
    simp only [documentedElements, ht, List.cons_append]

theorem inner_members (cb : ParserCallback) (ms : List (List Char × Tree)) :
    Inner fun d => documentedMembers cb d ms := by
  cases ms with
  | nil => exact Or.inl fun d => by simp only [documentedMembers]
  | cons member ms =>
    refine Or.inr fun d => ?_
    refine ⟨.key, documentedCalls cb d member.2 ++ documentedMembers cb d ms, ?_, by decide⟩
    simp only [documentedMembers]

theorem not_acceptsAll {depth : Int} {t : Tree} (h : RejectsRoot cb depth t) :
    ¬AcceptsAll cb depth t := by
  cases t with
  | array ts =>
    intro haccepts
    have hreject : accepts cb depth .arrayStart = false := h
    rw [AcceptsAll, hreject] at haccepts
    exact Bool.false_ne_true haccepts.1
  | object ms =>
    intro haccepts
    have hreject : accepts cb depth .objectStart = false := h
    rw [AcceptsAll, hreject] at haccepts
    exact Bool.false_ne_true haccepts.1
  | _ => exact fun _ => h

/-- The calls that have been made, and the first of them. -/
theorem sequence_calls {A : Int → Prop} {doc : Int → List Call} (hdoc : Inner doc) {s s' : Calls}
    (h : Sequence (A s.depth) (doc s.depth) s s') :
    ∃ r, s'.made = s.made ++ r ∧
      ((∀ d, doc d = []) ∧ r = [] ∧ s'.depth = s.depth ∨ Heads s.depth r) := by
  cases h with
  | accepted h hdepth hmade =>
    refine ⟨_, hmade, ?_⟩
    rcases hdoc with hnil | hcons
    · exact Or.inl ⟨hnil, hnil _, hdepth⟩
    · obtain ⟨e, r, hr, _⟩ := hcons s.depth
      exact Or.inr ⟨e, r, hr⟩
  | differs h r hhead hmade hr => exact ⟨r, hmade, Or.inr hhead⟩

/-- After a container that is not kept the next call is not the documented one. -/
theorem differ_of_rejected {doc : Int → List Call} (hdoc : Inner doc) {d : Int} (k : Nat)
    {r : List Call} {d' : Int}
    (hr : (∀ d, doc d = []) ∧ r = [] ∧ d' = d + 1 - k ∨ Heads (d + 1 - k) r) (e : ParseEvent) :
    Differ (ends (d + 1) k ++ r ++ [(d' - 1, e)]) (doc d ++ [(d - 1, e)]) := by
  have hnext : ∃ x y, doc d ++ [(d - 1, e)] = x :: y ∧
      (x.1 = d ∧ x.2 ≠ .arrayEnd ∨ x.1 = d - 1 ∧ ∀ d, doc d = []) := by
    rcases hdoc with hnil | hcons
    · exact ⟨_, [], by rw [hnil]; rfl, Or.inr ⟨rfl, hnil⟩⟩
    · obtain ⟨f, y, hy, hf⟩ := hcons d
      exact ⟨(d, f), _, by rw [hy, List.cons_append], Or.inl ⟨rfl, hf⟩⟩
  obtain ⟨x, y, hxy, hx⟩ := hnext
  rw [hxy]
  cases k with
  | zero =>
    rw [show ends (d + 1) 0 = [] from rfl, List.nil_append]
    rw [Nat.cast_zero, Int.sub_zero] at hr
    rcases hr with ⟨hnil, rfl, rfl⟩ | ⟨f, r', rfl⟩
    · rw [List.nil_append]
      refine differ_cons ?_ _ _
      rintro rfl
      rcases hx with ⟨hdepth, _⟩ | ⟨hdepth, _⟩
      · rw [hnil, List.nil_append, List.cons.injEq, Prod.mk.injEq] at hxy
        omega
      · simp only at hdepth
        omega
    · rw [List.cons_append]
      refine differ_cons ?_ _ _
      rintro rfl
      simp only at hx
      omega
  | succ k =>
    have hends : ends (d + 1) (k + 1) = (d, .arrayEnd) :: ends d k := by
      rw [Nat.add_comm, ends_add]
      simp [ends]
    rw [hends, List.cons_append, List.cons_append]
    refine differ_cons ?_ _ _
    rintro rfl
    rcases hx with ⟨_, hevent⟩ | ⟨hdepth, _⟩
    · exact hevent rfl
    · simp only at hdepth
      omega

/-- A value and what comes after it in a container. -/
theorem sequence_cons {t : Tree} {A : Int → Prop} {doc : Int → List Call} (hdoc : Inner doc)
    {s s₁ s₂ : Calls} (ht : Outcome cb t s s₁) (hts : Sequence (A s₁.depth) (doc s₁.depth) s₁ s₂) :
    Sequence (AcceptsAll cb s.depth t ∧ A s.depth) (documentedCalls cb s.depth t ++ doc s.depth)
      s s₂ := by
  obtain ⟨f, y, hhead, _⟩ := documentedCalls_head cb s.depth t
  cases ht with
  | accepted h hdepth hmade =>
    rw [hdepth] at hts
    cases hts with
    | accepted h' hdepth' hmade' =>
      refine .accepted ⟨h, h'⟩ (hdepth'.trans hdepth) ?_
      rw [hmade', hmade, List.append_assoc]
    | differs h' r _ hmade' hr =>
      refine .differs (fun h => h' h.2) (documentedCalls cb s.depth t ++ r) ?_ ?_ fun e => ?_
      · exact ⟨f, y ++ r, by rw [hhead, List.cons_append]⟩
      · rw [hmade', hmade, List.append_assoc]
      · have hdiffer := (hr e).append_left (documentedCalls cb s.depth t)
        rwa [hdepth, ← List.append_assoc, ← List.append_assoc] at hdiffer
  | rejected h x hx hs₁ =>
    obtain ⟨r, hmade, hr⟩ := sequence_calls hdoc hts
    rw [hx, List.cons.injEq] at hhead
    refine .differs (fun h' => not_acceptsAll h h'.1) (x :: (ends (s.depth + 1) (emptyArrays t) ++ r))
      ⟨f, _, by rw [hhead.1]⟩ ?_ fun e => ?_
    · rw [hmade, hs₁]
      simp [afterEnds]
    · rw [hs₁] at hr
      have hdiffer := differ_of_rejected hdoc (emptyArrays t) hr e
      rw [hx]
      exact hdiffer.append_left [x]
  | differs h hroot r hhead' hmade hr =>
    obtain ⟨r', hmade', _⟩ := sequence_calls hdoc hts
    obtain ⟨e, z, hz⟩ := hhead'
    refine .differs (fun h' => h h'.1) (r ++ r') ⟨e, z ++ r', by rw [hz, List.cons_append]⟩ ?_
      fun e => ?_
    · rw [hmade', hmade, List.append_assoc]
    · rw [List.append_assoc, List.append_assoc]
      exact hr.append _ _

/-- A call with the present depth comes first. -/
theorem Sequence.cons {accepts : Prop} {doc : List Call} {s s' : Calls} (e : ParseEvent)
    (h : Sequence accepts doc ⟨s.depth, s.made ++ [(s.depth, e)]⟩ s') :
    Sequence accepts ((s.depth, e) :: doc) s s' := by
  cases h with
  | accepted h hdepth hmade =>
    refine .accepted h hdepth ?_
    rw [hmade]
    simp
  | differs h r _ hmade hr =>
    refine .differs h ((s.depth, e) :: r) ⟨e, r, rfl⟩ ?_ fun e' => ?_
    · rw [hmade]
      simp
    · exact (hr e').append_left [(s.depth, e)]

/-- A container that is kept, with the call for its end. -/
theorem outcome_of_sequence {t : Tree} {A : Prop} {doc : List Call} {s s' : Calls}
    {start stop : ParseEvent} (haccepts : AcceptsAll cb s.depth t ↔ A)
    (hdoc : documentedCalls cb s.depth t = (s.depth, start) :: (doc ++ [(s.depth, stop)]))
    (hroot : ¬RejectsRoot cb s.depth t)
    (h : Sequence A doc ⟨s.depth + 1, s.made ++ [(s.depth, start)]⟩ s') :
    Outcome cb t s ⟨s'.depth - 1, s'.made ++ [(s'.depth - 1, stop)]⟩ := by
  cases h with
  | accepted h hdepth hmade =>
    have hdepth' : s'.depth - 1 = s.depth := by
      rw [hdepth]
      exact Int.add_sub_cancel s.depth 1
    refine .accepted (haccepts.2 h) hdepth' ?_
    simp only [hdepth', hmade, hdoc]
    simp
  | differs h r _ hmade hr =>
    have hdiffer := (hr stop).append_left [(s.depth, start)]
    refine .differs (fun h' => h (haccepts.1 h')) hroot
      ((s.depth, start) :: (r ++ [(s'.depth - 1, stop)])) ⟨start, _, rfl⟩ ?_ ?_
    · simp only [hmade]
      simp
    · rw [hdoc]
      have hdepth' : s.depth + 1 - 1 = s.depth := Int.add_sub_cancel s.depth 1
      simp only [hdepth'] at hdiffer
      exact hdiffer

mutual

theorem outcome_eval (t : Tree) (s : Calls) :
    Outcome cb t s ((eval (some cb) true t).run s).2 := by
  cases t with
  | null | boolean _ | number _ | string _ =>
    refine .accepted trivial ?_ ?_
    · rw [eval]
      rfl
    · rw [eval, documentedCalls]
      rfl
  | array ts =>
    rw [Parser.run_eval_array]
    have hstart : (Calls.startContainer (some cb) .arrayStart Json.emptyArray true).run s =
        ((accepts cb s.depth .arrayStart, if accepts cb s.depth .arrayStart then Json.emptyArray
          else (cb s.depth .arrayStart .discarded).2),
          ⟨s.depth + 1, s.made ++ [(s.depth, .arrayStart)]⟩) := rfl
    rw [hstart]
    dsimp only
    cases haccepts : accepts cb s.depth .arrayStart with
    | true =>
      refine outcome_of_sequence ?_ ?_ ?_ (sequence_elements ts _ _)
      · rw [AcceptsAll, haccepts]
        simp
      · rw [documentedCalls, haccepts]
        rfl
      · intro hreject
        exact Bool.noConfusion (haccepts.symm.trans hreject)
    | false =>
      refine .rejected haccepts (s.depth, .arrayStart) ?_ ?_
      · rw [documentedCalls, haccepts]
        rfl
      · exact endArray_notKept (evalElements_notKept ts _ _)
  | object ms =>
    rw [Parser.run_eval_object]
    have hstart : (Calls.startContainer (some cb) .objectStart Json.emptyObject true).run s =
        ((accepts cb s.depth .objectStart, if accepts cb s.depth .objectStart then Json.emptyObject
          else (cb s.depth .objectStart .discarded).2),
          ⟨s.depth + 1, s.made ++ [(s.depth, .objectStart)]⟩) := rfl
    rw [hstart]
    dsimp only
    cases haccepts : accepts cb s.depth .objectStart with
    | true =>
      refine outcome_of_sequence ?_ ?_ ?_ (sequence_members ms _ _)
      · rw [AcceptsAll, haccepts]
        simp
      · rw [documentedCalls, haccepts]
        rfl
      · intro hreject
        exact Bool.noConfusion (haccepts.symm.trans hreject)
    | false =>
      refine .rejected haccepts (s.depth, .objectStart) ?_ ?_
      · rw [documentedCalls, haccepts]
        rfl
      · rw [emptyArrays]
        exact evalMembers_notKept ms _ _

theorem sequence_elements (ts : List Tree) (result : Json) (s : Calls) :
    Sequence (AcceptsElements cb s.depth ts) (documentedElements cb s.depth ts) s
      ((evalElements (some cb) true result ts).run s).2 := by
  cases ts with
  | nil =>
    rw [AcceptsElements, documentedElements, evalElements]
    exact .accepted trivial rfl (List.append_nil _).symm
  | cons t ts =>
    rw [AcceptsElements, documentedElements, Parser.run_evalElements_cons]
    exact sequence_cons (A := fun d => AcceptsElements cb d ts) (inner_elements cb ts)
      (outcome_eval t s) (sequence_elements ts _ _)

theorem sequence_members (ms : List (List Char × Tree)) (result : Json) (s : Calls) :
    Sequence (AcceptsMembers cb s.depth ms) (documentedMembers cb s.depth ms) s
      ((evalMembers (some cb) true result ms).run s).2 := by
  cases ms with
  | nil =>
    rw [AcceptsMembers, documentedMembers, evalMembers]
    exact .accepted trivial rfl (List.append_nil _).symm
  | cons member ms =>
    obtain ⟨cs, t⟩ := member
    rw [AcceptsMembers, documentedMembers, Parser.run_evalMembers_cons]
    refine Sequence.cons .key ?_
    exact sequence_cons (A := fun d => AcceptsMembers cb d ms) (inner_members cb ms)
      (outcome_eval t ⟨s.depth, s.made ++ [(s.depth, .key)]⟩) (sequence_members ms _ _)

end

/-- The calls are the documented ones when the callback keeps every container. If it does not keep
the outermost one they still are, unless there is an empty array. -/
theorem calls_eq_iff {s : List Byte} {t : Tree} (h : IsJsonText (untilNul s) t)
    (hfinite : Finite t) (cb : ParserCallback) :
    (Json.parse s (some cb)).2.calls.made = documentedCalls cb 0 t ↔
      AcceptsAll cb 0 t ∨ RejectsRoot cb 0 t ∧ emptyArrays t = 0 := by
  rw [(Json.parse_of_isJsonText h hfinite (some cb)).2]
  have houtcome : Outcome cb t ⟨0, []⟩ _ := outcome_eval t ⟨0, []⟩
  cases houtcome with
  | accepted haccepts _ hmade =>
    rw [hmade]
    exact iff_of_true rfl (Or.inl haccepts)
  | rejected hreject x hx hs' =>
    have hends : ends 1 (emptyArrays t) = [] ↔ emptyArrays t = 0 := by
      simp [ends]
    have hnot : ¬AcceptsAll cb 0 t := not_acceptsAll hreject
    have hreject' : RejectsRoot cb 0 t := hreject
    rw [hs', hx]
    simp [afterEnds, hends, hnot, hreject']
  | differs haccepts hroot r _ hmade hr =>
    rw [hmade, List.nil_append]
    refine iff_of_false hr.ne ?_
    rintro (h | ⟨h, _⟩)
    · exact haccepts h
    · exact hroot h

theorem isJsonText_objectAndNull :
    IsJsonText (untilNul (bytes "[\x7b\x7d,null]")) (.array [.object [], .null]) :=
  ⟨_, _, .nil _, .array (.element (.nil _) (.emptyObject (.nil _)) (.nil _)
    (.lastElement (.nil _) (.null _) (.nil _))), .nil _⟩

theorem calls_eq_iff_objectAndNull :
    (Json.parse (bytes "[\x7b\x7d,null]") (some fun _ _ parsed => (true, parsed))).2.calls.made =
        documentedCalls (fun _ _ parsed => (true, parsed)) 0 (.array [.object [], .null]) ↔
      AcceptsAll (fun _ _ parsed => (true, parsed)) 0 (.array [.object [], .null]) ∨
        RejectsRoot (fun _ _ parsed => (true, parsed)) 0 (.array [.object [], .null]) ∧
          emptyArrays (.array [.object [], .null]) = 0 :=
  calls_eq_iff isJsonText_objectAndNull ⟨trivial, trivial, trivial⟩ _

/-- After an object that is not kept the next value is reported one level too deep, and so is the
end of the array. -/
theorem calls_ne_documentedCalls :
    (Json.parse (bytes "[\x7b\x7d,null]")
        (some fun _ event parsed => (event ≠ .objectStart, parsed))).2.calls.made ≠
      documentedCalls (fun _ event parsed => (event ≠ .objectStart, parsed)) 0
        (.array [.object [], .null]) := by
  rw [(Json.parse_of_isJsonText isJsonText_objectAndNull ⟨trivial, trivial, trivial⟩ _).2]
  decide

end Wpi.ParseTree
