import WpiUtil.Foundations.TextCode

/-!
# Converters

A converter reads units off a source and writes units into a target with so much room, until the
source is empty, the next units have no room in the target, or it stops by itself.
-/

namespace Foundations

/-- What a converter does next, once it has found so much room in the target: it stops where it is,
or takes `count` more units after the first one off the source and writes some. It does not look at
the target when it needs no room. A mark is a result that it keeps until the end. -/
inductive Turn (β ρ : Type) where
  | stop (room : ℕ) (result : ρ)
  | go (room count : ℕ) (out : List β) (mark : Option ρ)

/-- The room that the target must have for the turn. -/
def Turn.room {β ρ : Type} : Turn β ρ → ℕ
  | .stop room _ => room
  | .go room _ _ _ => room

/-- A target of this capacity with so many units in it has not the room for a turn. -/
def Lacks (capacity written room : ℕ) : Prop := 0 < room ∧ capacity < written + room

instance (capacity written room : ℕ) : Decidable (Lacks capacity written room) :=
  inferInstanceAs (Decidable (_ ∧ _))

theorem lacks_one_iff {capacity written : ℕ} : Lacks capacity written 1 ↔ capacity ≤ written := by
  unfold Lacks
  omega

theorem lacks_two_iff {capacity written : ℕ} :
    Lacks capacity written 2 ↔ capacity ≤ written + 1 := by
  unfold Lacks
  omega

theorem lacks_iff_of_pos {capacity written room : ℕ} (h : 0 < room) :
    Lacks capacity written room ↔ capacity < written + room :=
  and_iff_right h

theorem not_lacks_zero (capacity written : ℕ) : ¬Lacks capacity written 0 :=
  fun h => absurd h.1 (Nat.lt_irrefl 0)

theorem not_lacks_of_le {capacity written room : ℕ} (h : written + room ≤ capacity) :
    ¬Lacks capacity written room :=
  fun hlacks => absurd hlacks.2 (Nat.not_lt.2 h)

/-- What it does with a first unit and those behind it, and the result when there is no room. -/
structure Converter (α β ρ : Type) where
  turn : α → List α → Turn β ρ
  full : ρ

/-- The result of a conversion, with what is left of the source and stands in the target. -/
structure Converted (α β ρ : Type) where
  result : ρ
  source : List α
  target : List β
  deriving DecidableEq, Repr

namespace Converter

variable {α β ρ : Type}

/-- The conversion into a target with room for `capacity` units. -/
def run (k : Converter α β ρ) (capacity : ℕ) (result : ρ) (source : List α) (target : List β) :
    Converted α β ρ :=
  match source with
  | [] => ⟨result, [], target⟩
  | a :: s =>
    if Lacks capacity target.length (k.turn a s).room then ⟨k.full, a :: s, target⟩
    else
      match k.turn a s with
      | .stop _ r => ⟨r, a :: s, target⟩
      | .go _ count out mark => k.run capacity (mark.getD result) (s.drop count) (target ++ out)
termination_by source.length
decreasing_by simp only [List.length_drop, List.length_cons]; omega

/-- From a source it comes to the rest of it with these units written. -/
inductive Reaches (k : Converter α β ρ) : List α → List β → List α → Prop
  | refl (s : List α) : Reaches k s [] s
  | go {a : α} {s rest : List α} {room count : ℕ} {out w : List β} {mark : Option ρ}
      (hturn : k.turn a s = .go room count out mark) (hrest : Reaches k (s.drop count) w rest) :
      Reaches k (a :: s) (out ++ w) rest

/-- It stops here, however much room there is. -/
def Stuck (k : Converter α β ρ) (s : List α) : Prop :=
  ∀ a t, s = a :: t → ∃ room result, k.turn a t = .stop room result

variable {k : Converter α β ρ} {s t rest : List α} {w w' target : List β} {capacity : ℕ}
  {result : ρ}

theorem run_nil : k.run capacity result [] target = ⟨result, [], target⟩ := by
  rw [run]

/-- The rest of a run from a turn on. -/
def after (k : Converter α β ρ) (capacity : ℕ) (result : ρ) (a : α) (s : List α) (target : List β) :
    Turn β ρ → Converted α β ρ
  | .stop room r =>
    if Lacks capacity target.length room then ⟨k.full, a :: s, target⟩ else ⟨r, a :: s, target⟩
  | .go room count out mark =>
    if Lacks capacity target.length room then ⟨k.full, a :: s, target⟩
    else k.run capacity (mark.getD result) (s.drop count) (target ++ out)

theorem after_stop (a : α) (room : ℕ) (r : ρ) :
    k.after capacity result a s target (.stop room r) =
      if Lacks capacity target.length room then ⟨k.full, a :: s, target⟩
      else ⟨r, a :: s, target⟩ := rfl

theorem after_go (a : α) (room count : ℕ) (out : List β) (mark : Option ρ) :
    k.after capacity result a s target (.go room count out mark) =
      if Lacks capacity target.length room then ⟨k.full, a :: s, target⟩
      else k.run capacity (mark.getD result) (s.drop count) (target ++ out) := rfl

theorem run_cons (a : α) : k.run capacity result (a :: s) target =
    k.after capacity result a s target (k.turn a s) := by
  rw [run]
  cases k.turn a s with
  | stop room r => rfl
  | go room count out mark => rfl

theorem run_of_lacks {a : α} (h : Lacks capacity target.length (k.turn a s).room) :
    k.run capacity result (a :: s) target = ⟨k.full, a :: s, target⟩ := by
  rw [run, if_pos h]

theorem run_of_stop {a : α} {room : ℕ} {r : ρ} (hturn : k.turn a s = .stop room r)
    (h : ¬Lacks capacity target.length room) :
    k.run capacity result (a :: s) target = ⟨r, a :: s, target⟩ := by
  rw [run_cons, hturn, after_stop, if_neg h]

theorem run_of_go {a : α} {room count : ℕ} {out : List β} {mark : Option ρ}
    (hturn : k.turn a s = .go room count out mark) (h : ¬Lacks capacity target.length room) :
    k.run capacity result (a :: s) target =
      k.run capacity (mark.getD result) (s.drop count) (target ++ out) := by
  rw [run_cons, hturn, after_go, if_neg h]

/-- The ways a conversion ends: a run takes turns until one of them holds. -/
theorem run_induction {P : ρ → List α → List β → Converted α β ρ → Prop}
    (hnil : ∀ result target, P result [] target ⟨result, [], target⟩)
    (hfull : ∀ result a s target, Lacks capacity target.length (k.turn a s).room →
      P result (a :: s) target ⟨k.full, a :: s, target⟩)
    (hstop : ∀ result a s target room r, k.turn a s = .stop room r →
      ¬Lacks capacity target.length room → P result (a :: s) target ⟨r, a :: s, target⟩)
    (hgo : ∀ result a s target room count out mark c, k.turn a s = .go room count out mark →
      ¬Lacks capacity target.length room → P (mark.getD result) (s.drop count) (target ++ out) c →
      P result (a :: s) target c)
    (result : ρ) (s : List α) (target : List β) :
    P result s target (k.run capacity result s target) := by
  induction hn : s.length using Nat.strongRecOn generalizing result s target with
  | ind n ih =>
    cases s with
    | nil =>
      rw [run_nil]
      exact hnil result target
    | cons a s =>
      by_cases hroom : Lacks capacity target.length (k.turn a s).room
      · rw [run_of_lacks hroom]
        exact hfull result a s target hroom
      · cases hturn : k.turn a s with
        | stop room r =>
          rw [hturn] at hroom
          rw [run_of_stop hturn hroom]
          exact hstop result a s target room r hturn hroom
        | go room count out mark =>
          rw [hturn] at hroom
          rw [run_of_go hturn hroom]
          refine hgo result a s target room count out mark _ hturn hroom ?_
          refine ih (s.drop count).length ?_ _ _ _ rfl
          rw [← hn, List.length_drop, List.length_cons]
          omega

theorem run_reaches (k : Converter α β ρ) (capacity : ℕ) (result : ρ) (s : List α)
    (target : List β) :
    ∃ w, (k.run capacity result s target).target = target ++ w ∧
      k.Reaches s w (k.run capacity result s target).source := by
  refine run_induction (P := fun _ s target c => ∃ w, c.target = target ++ w ∧
    k.Reaches s w c.source) ?_ ?_ ?_ ?_ result s target
  · intro result target
    exact ⟨[], (List.append_nil _).symm, .refl _⟩
  · intro result a s target hroom
    exact ⟨[], (List.append_nil _).symm, .refl _⟩
  · intro result a s target room r hturn hle
    exact ⟨[], (List.append_nil _).symm, .refl _⟩
  · rintro result a s target room count out mark c hturn hle ⟨w, htarget, hreaches⟩
    exact ⟨out ++ w, by rw [htarget, List.append_assoc], .go hturn hreaches⟩

theorem run_stuck (hresult : (k.run capacity result s target).result ≠ k.full) :
    k.Stuck (k.run capacity result s target).source := by
  refine run_induction (P := fun _ _ _ c => c.result ≠ k.full → k.Stuck c.source) ?_ ?_ ?_ ?_
    result s target hresult
  · intro result target _ a t hcons
    cases hcons
  · intro result a s target _ hne
    exact absurd rfl hne
  · intro result a s target room r hturn _ _ b t hcons
    cases hcons
    exact ⟨room, r, hturn⟩
  · intro result a s target room count out mark c _ _ ih
    exact ih

theorem Reaches.trans (h : k.Reaches s w t) (h' : k.Reaches t w' rest) :
    k.Reaches s (w ++ w') rest := by
  induction h with
  | refl s => exact h'
  | go hturn _ ih =>
    rw [List.append_assoc]
    exact .go hturn (ih h')

/-- What is reached before a converter stops is on its way there. -/
theorem Reaches.reaches_of_stuck (h : k.Reaches s w t) (h' : k.Reaches s w' rest)
    (hstuck : k.Stuck rest) : ∃ v, w' = w ++ v ∧ k.Reaches t v rest := by
  induction h generalizing w' with
  | refl s => exact ⟨w', rfl, h'⟩
  | @go a s t room count out w mark hturn hrest ih =>
    cases h' with
    | refl =>
      obtain ⟨room', result, hstop⟩ := hstuck a s rfl
      rw [hturn] at hstop
      cases hstop
    | go hturn' hrest' =>
      rw [hturn] at hturn'
      cases hturn'
      obtain ⟨v, rfl, hreaches⟩ := ih hrest'
      exact ⟨v, (List.append_assoc _ _ _).symm, hreaches⟩

theorem Reaches.eq_of_stuck (h : k.Reaches s w t) (h' : k.Reaches s w' rest) (hstuck : k.Stuck t)
    (hstuck' : k.Stuck rest) : w = w' ∧ t = rest := by
  obtain ⟨v, hv, hreaches⟩ := h.reaches_of_stuck h' hstuck'
  cases hreaches with
  | refl => exact ⟨by rw [hv, List.append_nil], rfl⟩
  | go hturn _ =>
    obtain ⟨room, result, hstop⟩ := hstuck _ _ rfl
    rw [hturn] at hstop
    cases hstop

/-! ## A source that arrives in pieces -/

/-- What a turn does once it goes on does not depend on what comes behind the units it takes. -/
def Online (k : Converter α β ρ) : Prop :=
  ∀ a s room count out mark, k.turn a s = .go room count out mark →
    count ≤ s.length ∧ ∀ t, k.turn a (s ++ t) = .go room count out mark

theorem Reaches.append (honline : k.Online) (h : k.Reaches s w rest) (t : List α) :
    k.Reaches (s ++ t) w (rest ++ t) := by
  induction h with
  | refl s => exact .refl _
  | @go a s rest room count out w mark hturn hrest ih =>
    obtain ⟨hcount, happend⟩ := honline _ _ _ _ _ _ hturn
    refine .go (happend t) ?_
    show k.Reaches ((s ++ t).drop count) w (rest ++ t)
    rw [List.drop_append_of_le_length hcount]
    exact ih

/-- One call after the other, each with what the calls before have left of the source and a further
piece of it: all that they write, and what the last one leaves. -/
def feed (call : List α → ℕ → Converted α β ρ) : List α → List (List α × ℕ) → List β × List α
  | rest, [] => ([], rest)
  | rest, (piece, capacity) :: pieces =>
    let c := call (rest ++ piece) capacity
    let d := feed call c.source pieces
    (c.target ++ d.1, d.2)

theorem feed_reaches (honline : k.Online) (result : ρ) (rest : List α)
    (pieces : List (List α × ℕ)) :
    k.Reaches (rest ++ (pieces.map Prod.fst).flatten)
      (feed (fun s capacity => k.run capacity result s []) rest pieces).1
      (feed (fun s capacity => k.run capacity result s []) rest pieces).2 := by
  induction pieces generalizing rest with
  | nil =>
    rw [List.map_nil, List.flatten_nil, List.append_nil]
    exact .refl rest
  | cons p pieces ih =>
    obtain ⟨piece, capacity⟩ := p
    obtain ⟨w, htarget, hreaches⟩ := k.run_reaches capacity result (rest ++ piece) []
    have hrest := ih (k.run capacity result (rest ++ piece) []).source
    rw [List.map_cons, List.flatten_cons, ← List.append_assoc, feed]
    dsimp only
    rw [htarget, List.nil_append]
    exact (hreaches.append honline _).trans hrest

/-- However the source arrives and the target is handed out, the calls come to the same as one call
on the whole source does. -/
theorem feed_spec (honline : k.Online) {result : ρ} {pieces : List (List α × ℕ)} {n m : ℕ} :
    let call := fun s capacity => k.run capacity result s []
    let whole := (pieces.map Prod.fst).flatten
    let fed := feed call [] pieces
    (call whole n).result ≠ k.full → (call fed.2 m).result ≠ k.full →
      (call whole n).target = fed.1 ++ (call fed.2 m).target ∧
        (call whole n).source = (call fed.2 m).source := by
  intro call whole fed hwhole hfed
  obtain ⟨w, htarget, hreaches⟩ := k.run_reaches n result whole []
  obtain ⟨w', htarget', hreaches'⟩ := k.run_reaches m result fed.2 []
  have hpieces := feed_reaches honline result [] pieces
  obtain ⟨v, rfl, hv⟩ := hpieces.reaches_of_stuck hreaches (run_stuck hwhole)
  obtain ⟨rfl, hsource⟩ := hv.eq_of_stuck hreaches' (run_stuck hwhole) (run_stuck hfed)
  exact ⟨by rw [htarget, htarget']; rfl, hsource⟩

/-! ## Unmarked conversions -/

/-- No turn leaves a mark. -/
def Unmarked (k : Converter α β ρ) : Prop :=
  ∀ a s room count out mark, k.turn a s = .go room count out mark → mark = none

/-- The result tells where the conversion ends. -/
theorem result_of_unmarked (hunmarked : k.Unmarked) (capacity : ℕ) (result : ρ) (s : List α)
    (target : List β) :
    let c := k.run capacity result s target
    c.result = k.full ∨ (c.source = [] ∧ c.result = result) ∨
      ∃ a t room, c.source = a :: t ∧ k.turn a t = .stop room c.result := by
  refine run_induction (P := fun result _ _ c => c.result = k.full ∨
    (c.source = [] ∧ c.result = result) ∨
      ∃ a t room, c.source = a :: t ∧ k.turn a t = .stop room c.result) ?_ ?_ ?_ ?_ result s target
  · intro result target
    exact .inr (.inl ⟨rfl, rfl⟩)
  · intro result a s target _
    exact .inl rfl
  · intro result a s target room r hturn _
    exact .inr (.inr ⟨a, s, room, rfl, hturn⟩)
  · intro result a s target room count out mark c hturn _ ih
    rw [hunmarked _ _ _ _ _ _ hturn] at ih
    exact ih

theorem result_eq_of_source_eq (hunmarked : k.Unmarked) {result : ρ} {s s' : List α} {n m : ℕ}
    (h : (k.run n result s []).source = (k.run m result s' []).source)
    (hs : (k.run n result s []).result ≠ k.full) (hs' : (k.run m result s' []).result ≠ k.full) :
    (k.run n result s []).result = (k.run m result s' []).result := by
  obtain hn | ⟨hnil, hn⟩ | ⟨a, t, room, hcons, hn⟩ :=
    result_of_unmarked hunmarked n result s []
  · exact absurd hn hs
  · obtain hm | ⟨hnil', hm⟩ | ⟨a, t, room, hcons, hm⟩ :=
      result_of_unmarked hunmarked m result s' []
    · exact absurd hm hs'
    · rw [hn, hm]
    · rw [← h, hnil] at hcons
      cases hcons
  · obtain hm | ⟨hnil', hm⟩ | ⟨a', t', room', hcons', hm⟩ :=
      result_of_unmarked hunmarked m result s' []
    · exact absurd hm hs'
    · rw [h, hnil'] at hcons
      cases hcons
    · rw [← h, hcons, List.cons.injEq] at hcons'
      obtain ⟨rfl, rfl⟩ := hcons'
      rw [hn, Turn.stop.injEq] at hm
      exact hm.2

/-! ## Room -/

/-- A turn writes no more than it has checked that there is room for. -/
def Checked (k : Converter α β ρ) : Prop :=
  ∀ a s room count out mark, k.turn a s = .go room count out mark → out.length ≤ room

theorem length_target_le (hchecked : k.Checked) (result : ρ) (s : List α) {target : List β}
    (h : target.length ≤ capacity) : (k.run capacity result s target).target.length ≤ capacity := by
  refine run_induction (P := fun _ _ target c => target.length ≤ capacity →
    c.target.length ≤ capacity) ?_ ?_ ?_ ?_ result s target h
  · exact fun _ _ hle => hle
  · exact fun _ _ _ _ _ hle => hle
  · exact fun _ _ _ _ _ _ _ _ hle => hle
  · intro result a s target room count out mark c hturn hroom ih hle
    apply ih
    have hout := hchecked _ _ _ _ _ _ hturn
    unfold Lacks at hroom
    rw [List.length_append]
    omega

/-! ## From one code to another -/

/-- It reads the words of one code and writes those of another one, without more room than it needs,
and does not succeed in another way. -/
structure Translates (k : Converter α β ρ) (source : TextCode α) (target : TextCode β) (ok : ρ) :
    Prop where
  turn_word : ∀ a s c t, a :: s = source.word c ++ t →
    ∃ count, k.turn a s = .go (target.word c).length count (target.word c) none ∧ s.drop count = t
  word_of_go : ∀ a s room count out, k.turn a s = .go room count out none →
    ∃ c t, a :: s = source.word c ++ t
  stop_ne : ∀ a s room r, k.turn a s = .stop room r → r ≠ ok
  mark_ne : ∀ a s room count out r, k.turn a s = .go room count out (some r) → r ≠ ok
  full_ne : k.full ≠ ok

variable {source : TextCode α} {code : TextCode β} {ok : ρ}

theorem Translates.run_encode (h : k.Translates source code ok) (cs : List Char)
    (hroom : target.length + (code.encode cs).length ≤ capacity) :
    k.run capacity ok (source.encode cs) target = ⟨ok, [], target ++ code.encode cs⟩ := by
  induction cs generalizing target with
  | nil => rw [TextCode.encode_nil, TextCode.encode_nil, run_nil, List.append_nil]
  | cons c cs ih =>
    rw [TextCode.encode_cons, List.length_append] at hroom
    obtain ⟨a, s, hcons⟩ := List.exists_cons_of_ne_nil (source.word_ne_nil c)
    rw [TextCode.encode_cons, TextCode.encode_cons, hcons, List.cons_append]
    have hword : a :: (s ++ source.encode cs) = source.word c ++ source.encode cs := by
      rw [hcons, List.cons_append]
    obtain ⟨count, hturn, hdrop⟩ := h.turn_word _ _ c _ hword
    rw [run_of_go hturn (not_lacks_of_le (by omega)), hdrop, Option.getD_none, ih,
      List.append_assoc]
    rw [List.length_append]
    omega

theorem Translates.exists_encode (h : k.Translates source code ok) (s : List α) (target : List β)
    (htarget : target.length ≤ capacity) (hok : (k.run capacity ok s target).result = ok) :
    ∃ cs, s = source.encode cs ∧ target.length + (code.encode cs).length ≤ capacity := by
  refine (run_induction (P := fun result s target c => (result ≠ ok → c.result ≠ ok) ∧
    (c.result = ok → target.length ≤ capacity →
      ∃ cs, s = source.encode cs ∧ target.length + (code.encode cs).length ≤ capacity))
    ?_ ?_ ?_ ?_ ok s target).2 hok htarget
  · exact fun _ _ => ⟨fun hne => hne, fun _ hle => ⟨[], rfl, hle⟩⟩
  · exact fun _ _ _ _ _ => ⟨fun _ => h.full_ne, fun heq => absurd heq h.full_ne⟩
  · intro _ a s _ room r hturn _
    have hne := h.stop_ne a s room r hturn
    exact ⟨fun _ => hne, fun heq => absurd heq hne⟩
  · rintro result a s target room count out mark c hturn hle ⟨hne, hencode⟩
    cases mark with
    | some r =>
      have hc := hne (h.mark_ne _ _ _ _ _ _ hturn)
      exact ⟨fun _ => hc, fun heq => absurd heq hc⟩
    | none =>
      refine ⟨hne, fun heq _ => ?_⟩
      obtain ⟨ch, t, hword⟩ := h.word_of_go _ _ _ _ _ hturn
      obtain ⟨count', hturn', hdrop⟩ := h.turn_word _ _ _ _ hword
      rw [hturn, Turn.go.injEq] at hturn'
      obtain ⟨rfl, rfl, rfl, -⟩ := hturn'
      rw [lacks_iff_of_pos (code.length_word_pos ch), Nat.not_lt] at hle
      rw [List.length_append, hdrop] at hencode
      obtain ⟨cs, hcs, hroom⟩ := hencode heq hle
      refine ⟨ch :: cs, by rw [hword, hcs, TextCode.encode_cons], ?_⟩
      rw [TextCode.encode_cons, List.length_append]
      omega

/-- A target with room for the longest words that the source may be made of is never full. -/
theorem Translates.result_ne_full (h : k.Translates source code ok) {m : ℕ}
    (hword : ∀ c, (code.word c).length ≤ m * (source.word c).length)
    (hstop : ∀ a s room r, k.turn a s = .stop room r → room ≤ m ∧ r ≠ k.full)
    (hunmarked : k.Unmarked) (s : List α) (target : List β)
    (hroom : target.length + m * s.length ≤ capacity) :
    (k.run capacity ok s target).result ≠ k.full := by
  refine run_induction (P := fun result s target c => result = ok →
    target.length + m * s.length ≤ capacity → c.result ≠ k.full) ?_ ?_ ?_ ?_ ok s target rfl hroom
  · rintro result target rfl _
    exact h.full_ne.symm
  · rintro result a s target hlacks rfl hle
    rw [List.length_cons] at hle
    cases hturn : k.turn a s with
    | stop room r =>
      rw [hturn] at hlacks
      have hone : m * 1 ≤ m * (s.length + 1) := Nat.mul_le_mul_left m (Nat.le_add_left 1 _)
      have hroom := (hstop _ _ _ _ hturn).1
      exact absurd hlacks (not_lacks_of_le (by rw [Turn.room]; omega))
    | go room count out mark =>
      rw [hturn] at hlacks
      cases hunmarked _ _ _ _ _ _ hturn
      obtain ⟨c, t, hcons⟩ := h.word_of_go _ _ _ _ _ hturn
      obtain ⟨count', hturn', -⟩ := h.turn_word _ _ _ _ hcons
      rw [hturn, Turn.go.injEq] at hturn'
      have hlength := congrArg List.length hcons
      rw [List.length_cons, List.length_append] at hlength
      rw [hlength, Nat.mul_add] at hle
      have hc := hword c
      exact absurd hlacks (not_lacks_of_le (by rw [Turn.room, hturn'.1]; omega))
  · rintro result a s target room r hturn _ rfl _
    exact (hstop _ _ _ _ hturn).2
  · rintro result a s target room count out mark c hturn _ ih rfl hle
    cases hunmarked _ _ _ _ _ _ hturn
    refine ih rfl ?_
    obtain ⟨ch, t, hcons⟩ := h.word_of_go _ _ _ _ _ hturn
    obtain ⟨count', hturn', hdrop⟩ := h.turn_word _ _ _ _ hcons
    rw [hturn, Turn.go.injEq] at hturn'
    have hlength := congrArg List.length hcons
    rw [List.length_cons, List.length_append] at hlength
    rw [List.length_cons, hlength, Nat.mul_add] at hle
    have hch := hword ch
    rw [hturn'.2.1, hdrop, hturn'.2.2.1, List.length_append]
    omega

/-- A conversion succeeds for exactly the encodings of texts that have room in the target. -/
theorem Translates.result_eq_ok_iff (h : k.Translates source code ok) (s : List α) :
    (k.run capacity ok s []).result = ok ↔
      ∃ cs, s = source.encode cs ∧ (code.encode cs).length ≤ capacity := by
  constructor
  · intro hok
    obtain ⟨cs, hcs, hroom⟩ := h.exists_encode s [] (Nat.zero_le _) hok
    rw [List.length_nil, Nat.zero_add] at hroom
    exact ⟨cs, hcs, hroom⟩
  · rintro ⟨cs, rfl, hroom⟩
    rw [h.run_encode cs (by rwa [List.length_nil, Nat.zero_add])]

end Converter

end Foundations
