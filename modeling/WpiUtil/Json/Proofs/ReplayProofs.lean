import WpiUtil.Json.Proofs.CborProofs

/-!
# Runs of `binary_reader` that return

What a run of `parse_cbor` returns depends on nothing but the bytes that it has consumed: the same
bytes can be read again in front of any others, with fuel for no more than these bytes.
-/

namespace Wpi.BinaryReader

open Foundations

variable {σ α β : Type} [ByteSource σ] {C : Option Byte → Option Byte → Prop} {k : Nat}

/-! ## Sequences -/

theorem Replays.from {x : Action σ α} {y : Nat → Action σ α} (h : Replays k x y) :
    ReplaysFrom C k x y := by
  intro br br' a he hrun
  obtain ⟨bs, hcontent, he', hyields⟩ := h br br' a he hrun
  exact ⟨bs, hcontent, he', fun fuel c hfuel _ => hyields fuel c hfuel trivial⟩

/-- There is as much fuel when more bytes are consumed before. -/
theorem ReplaysFrom.pred {x : Action σ α} {y : Nat → Action σ α} (h : ReplaysFrom C k x y) :
    ReplaysFrom C (k + 1) x fun fuel => y (fuel - 1) := by
  intro br br' a he hrun
  obtain ⟨bs, hcontent, he', hyields⟩ := h br br' a he hrun
  exact ⟨bs, hcontent, he', fun fuel c hfuel hc => hyields (fuel - 1) c (by omega) hc⟩

theorem ReplaysFrom.succ {x : Action σ α} {y : Nat → Action σ α} (h : ReplaysFrom C k x y) :
    ReplaysFrom C (k + 1) x y := by
  intro br br' a he hrun
  obtain ⟨bs, hcontent, he', hyields⟩ := h br br' a he hrun
  exact ⟨bs, hcontent, he', fun fuel c hfuel hc => hyields fuel c (by omega) hc⟩

/-- More fuel does no harm. -/
theorem ReplaysFrom.add {x : Action σ α} {y : Nat → Action σ α} (h : ReplaysFrom C k x y)
    (d : Nat) : ReplaysFrom C k x fun fuel => y (fuel + d) := by
  intro br br' a he hrun
  obtain ⟨bs, hcontent, he', hyields⟩ := h br br' a he hrun
  exact ⟨bs, hcontent, he', fun fuel c hfuel hc => hyields (fuel + d) c (by omega) hc⟩

theorem replays_pure (a : α) : ReplaysFrom C k (pure a : Action σ α) fun _ => pure a := by
  intro br br' a' he hrun
  cases hrun
  exact ⟨[], rfl, he, fun _ c _ _ => Yields.pure a c⟩

theorem ReplaysFrom.bind {x : Action σ α} {y : Nat → Action σ α} {f : α → Action σ β}
    {g : Nat → α → Action σ β} (hx : ReplaysFrom C k x y)
    (hf : ∀ a, Replays k (f a) fun fuel => g fuel a) :
    ReplaysFrom C k (x >>= f) fun fuel => y fuel >>= g fuel := by
  intro br br' b he hrun
  obtain ⟨a, br₁, hrun₁, hrun₂⟩ := exists_of_run_bind hrun
  obtain ⟨bs, hcontent₁, he₁, hyields₁⟩ := hx br br₁ a he hrun₁
  obtain ⟨cs, hcontent₂, he₂, hyields₂⟩ := hf a br₁ br' b he₁ hrun₂
  refine ⟨bs ++ cs, ?_, he₂, fun fuel c hfuel hc => ?_⟩
  · rw [hcontent₁, hcontent₂, List.append_assoc]
  · rw [List.length_append] at hfuel
    exact (hyields₁ fuel c (by omega) hc).bind fun c' => hyields₂ fuel c' (by omega) trivial

omit [ByteSource σ] in
/-- What is first does not return. -/
theorem not_run_bind {x : Action σ α} {f : α → Action σ β} {br br' : BinaryReader σ} {b : β}
    (h : ∀ br' a, x.run.run br ≠ (.ok a, br')) : (x >>= f).run.run br ≠ (.ok b, br') := by
  intro hrun
  obtain ⟨a, br₁, hrun₁, -⟩ := exists_of_run_bind hrun
  exact h br₁ a hrun₁

theorem replays_throwParseError (id : Nat) (whatArg : List Byte) (y : Nat → Action σ α) :
    ReplaysFrom C k (throwParseError id whatArg : Action σ α) y := by
  intro br br' a he hrun
  cases hrun

theorem ReplaysFrom.ite {p : Prop} [Decidable p] {x x' : Action σ α} {y y' : Nat → Action σ α}
    (h : p → ReplaysFrom C k x y) (h' : ¬p → ReplaysFrom C k x' y') :
    ReplaysFrom C k (if p then x else x') fun fuel => if p then y fuel else y' fuel :=
  of_ite h h'

/-! ## Reading one character -/

/-- `get` at the end of the input, and before. -/
theorem run_get_cases (br : BinaryReader σ) (he : RawIstream.hasError br.is = false) :
    (ByteSource.content br.is = [] ∧ ∃ br', (get : Action σ (Option Byte)).run.run br =
        (.ok none, br') ∧ br'.current = none ∧ br'.charsRead = br.charsRead + 1 ∧
        RawIstream.hasError br'.is = true ∧ ByteSource.content br'.is = []) ∨
    ∃ c bs br', ByteSource.content br.is = c :: bs ∧
      (get : Action σ (Option Byte)).run.run br = (.ok (some c), br') ∧ br'.current = some c ∧
      br'.charsRead = br.charsRead + 1 ∧ RawIstream.hasError br'.is = false ∧
      ByteSource.content br'.is = bs := by
  cases hcontent : ByteSource.content br.is with
  | nil =>
    obtain ⟨he', hcontent'⟩ := ByteSource.read_nil hcontent
    refine Or.inl ⟨rfl, ⟨(RawIstream.read br.is 1).2, none, br.charsRead + 1⟩, ?_, rfl, rfl, he',
      hcontent'⟩
    have he'' : RawIstream.hasError (RawIstream.read br.is 1).2 = true := he'
    rw [run_get_eq]
    simp only [he'', if_true]
  | cons c bs =>
    obtain ⟨is', hrun, he', hcontent'⟩ := run_get he hcontent
    exact Or.inr ⟨c, bs, _, rfl, hrun, rfl, rfl, he', hcontent'⟩

/-- A character is read, and the rest does not return without one. There is fuel for it. -/
theorem replays_get_bind {f : Option Byte → Action σ α} {y : Nat → Action σ α}
    {g : Nat → Option Byte → Action σ α} (hy : ∀ fuel, y (fuel + 1) = get >>= g (fuel + 1))
    (hnone : ∀ br br' a, br.current = none → (f none).run.run br ≠ (.ok a, br'))
    (hf : ∀ c, ReplaysAt (k + 1) (f (some c)) fun fuel => g fuel (some c)) :
    ReplaysFrom C k (get >>= f) y := by
  intro br br' a he hrun
  obtain ⟨c?, br₁, hrun₁, hrun₂⟩ := exists_of_run_bind hrun
  rcases run_get_cases br he with ⟨-, br₂, hget, hcurrent, -⟩ |
    ⟨c, bs, br₂, hcontent, hget, hcurrent, -, he₂, hcontent₂⟩
  · rw [hget] at hrun₁
    cases hrun₁
    exact absurd hrun₂ (hnone br₁ br' a hcurrent)
  · rw [hget] at hrun₁
    cases hrun₁
    obtain ⟨cs, hcs, he', hyields⟩ := hf c br₁ br' a he₂ hrun₂
    refine ⟨c :: cs, ?_, he', fun fuel c' hfuel _ => ?_⟩
    · rw [hcontent, ← hcontent₂, hcs, List.cons_append]
    · rw [List.length_cons] at hfuel
      obtain ⟨fuel, rfl⟩ : ∃ n, fuel = n + 1 := ⟨fuel - 1, by omega⟩
      rw [hy]
      exact YieldsAt.get_bind (hyields (fuel + 1) (some c) (by omega) hcurrent.symm) c'

omit [ByteSource σ] in
theorem run_checkEof_bind (br : BinaryReader σ) (f : Byte → Action σ α) :
    (br.current = none ∧ (checkEof >>= f).run.run br =
      (.error (.thrown (parseError 110 br.charsRead (bytes "unexpected end of input"))), br)) ∨
    ∃ c, br.current = some c ∧ (checkEof >>= f).run.run br = (f c).run.run br := by
  obtain ⟨is, current, charsRead⟩ := br
  cases current with
  | none => exact Or.inl ⟨rfl, rfl⟩
  | some c => exact Or.inr ⟨c, rfl, rfl⟩

/-- At the end of the input the action throws, and it reads nothing more. -/
def Stops (x : Action σ α) : Prop :=
  ∀ br : BinaryReader σ, br.current = none → x.run.run br =
    (.error (.thrown (parseError 110 br.charsRead (bytes "unexpected end of input"))), br)

omit [ByteSource σ] in
theorem Stops.bind {x : Action σ α} (h : Stops x) (f : α → Action σ β) : Stops (x >>= f) := by
  intro br hcurrent
  rw [run_bind, h br hcurrent]

omit [ByteSource σ] in
theorem stops_throwParseError :
    Stops (throwParseError 110 (bytes "unexpected end of input") : Action σ α) :=
  fun _ _ => rfl

omit [ByteSource σ] in
theorem stops_checkEof_bind (f : Byte → Action σ α) : Stops (checkEof >>= f) := by
  intro br hcurrent
  rcases run_checkEof_bind br f with ⟨-, hrun⟩ | ⟨c, hc, -⟩
  · exact hrun
  · rw [hcurrent] at hc
    cases hc

theorem stops_parseCbor (fuel : Nat) : Stops (parseCbor (fuel + 1) false : Action σ Json) := by
  rintro ⟨is, current, charsRead⟩ hcurrent
  obtain rfl : current = none := hcurrent
  rfl

omit [ByteSource σ] in
/-- `check_eof` does not return without a character. -/
theorem not_run_checkEof_bind {br br' : BinaryReader σ} {f : Byte → Action σ α} {a : α}
    (h : br.current = none) : (checkEof >>= f).run.run br ≠ (.ok a, br') := by
  rcases run_checkEof_bind br f with ⟨-, hrun⟩ | ⟨c, hc, -⟩
  · rw [hrun]
    intro heq
    cases heq
  · rw [h] at hc
    cases hc

theorem ReplaysAt.checkEof_bind {f : Byte → Action σ α} {g : Nat → Byte → Action σ α}
    (hf : ∀ c, ReplaysAt k (f c) fun fuel => g fuel c) :
    ReplaysAt k (checkEof >>= f) fun fuel => checkEof >>= g fuel := by
  intro br br' a he hrun
  rcases run_checkEof_bind br f with ⟨-, hrun'⟩ | ⟨c, hc, hrun'⟩
  · rw [hrun'] at hrun
    cases hrun
  · rw [hrun'] at hrun
    obtain ⟨bs, hcontent, he', hyields⟩ := hf c br br' a he hrun
    refine ⟨bs, hcontent, he', fun fuel c' hfuel hc' => ?_⟩
    have hyields' := hyields fuel c' hfuel hc'
    rw [hc', hc] at hyields' ⊢
    exact YieldsAt.checkEof_bind hyields'

/-! ## Numbers and strings -/

theorem replays_getBytes (width acc : Nat) :
    ReplaysFrom C k (getBytes width acc : Action σ Nat) fun _ => getBytes width acc := by
  induction width generalizing C k acc with
  | zero => exact replays_pure acc
  | succ width ih =>
    refine replays_get_bind (g := fun _ _ => checkEof >>= fun c =>
      getBytes width (acc * 256 + c.toNat)) (fun _ => rfl)
      (fun br br' a h => not_run_checkEof_bind h) fun c => ?_
    exact ReplaysAt.checkEof_bind fun c => ih _

theorem replays_getNumber (width : Nat) :
    ReplaysFrom C k (getNumber width : Action σ Nat) fun _ => getNumber width :=
  replays_getBytes width 0

theorem replays_getStringLoop (len : Nat) (result : List Byte) :
    ReplaysFrom C k (getStringLoop len result : Action σ (List Byte)) fun _ =>
      getStringLoop len result := by
  induction len generalizing C k result with
  | zero => exact replays_pure result
  | succ len ih =>
    refine replays_get_bind (g := fun _ _ => checkEof >>= fun c =>
      getStringLoop len (result ++ [c])) (fun _ => rfl)
      (fun br br' a h => not_run_checkEof_bind h) fun c => ?_
    exact ReplaysAt.checkEof_bind fun c => ih _

theorem replays_getString (len : Nat) :
    ReplaysFrom C k (getString len : Action σ (List Byte)) fun _ => getString len :=
  replays_getStringLoop len []

theorem replays_getStringUntil (fuel : Nat) (result : List Byte) :
    ReplaysFrom C 0 (getStringUntil fuel result : Action σ (List Byte)) fun fuel =>
      getStringUntil fuel result := by
  induction fuel generalizing C result with
  | zero =>
    intro br br' a he hrun
    cases hrun
  | succ fuel ih =>
    refine replays_get_bind (g := fun fuel c => if c = some 0xff then return result
      else checkEof >>= fun c => getStringUntil (fuel - 1) (result ++ [c])) (fun _ => rfl)
      (fun br br' a h => not_run_checkEof_bind h) fun c => ?_
    exact .ite (fun _ => replays_pure result) fun _ => ReplaysAt.checkEof_bind fun c => (ih _).pred

theorem replays_getCborString (fuel : Nat) :
    ReplaysAt 0 (getCborString fuel : Action σ (List Byte)) getCborString := by
  have hnumber (width : Nat) : ReplaysAt 0 (getNumber width >>= getString : Action σ (List Byte))
      fun _ => getNumber width >>= getString :=
    (replays_getNumber width).bind replays_getString
  refine ReplaysAt.checkEof_bind fun c => ?_
  refine .ite (fun _ => replays_getString _) fun _ => .ite (fun _ => hnumber 1) fun _ =>
    .ite (fun _ => hnumber 2) fun _ => .ite (fun _ => hnumber 4) fun _ =>
    .ite (fun _ => hnumber 8) fun _ => .ite (fun _ => replays_getStringUntil fuel []) fun _ =>
    replays_throwParseError _ _ _

/-! ## Containers -/

variable {item : Action σ Json} {itemY : Nat → Action σ Json} {key : Action σ (List Byte)}
  {keyY : Nat → Action σ (List Byte)}

theorem replays_readElements (hitem : Replays 0 item itemY) (len : Nat) (result : List Json) :
    ReplaysFrom C 0 (readElements item len result) fun fuel =>
      readElements (itemY fuel) len result := by
  induction len generalizing C result with
  | zero => exact replays_pure _
  | succ len ih => exact hitem.from.bind fun j => ih _

theorem replays_readMembers (hkey : ReplaysAt 0 key keyY)
    (hnone : ∀ br br' a, br.current = none → key.run.run br ≠ (.ok a, br'))
    (hitem : Replays 0 item itemY) (len : Nat) (result : StringMap Json) :
    ReplaysFrom C 0 (readMembers key item len result) fun fuel =>
      readMembers (keyY fuel) (itemY fuel) len result := by
  induction len generalizing C result with
  | zero => exact replays_pure _
  | succ len ih =>
    refine replays_get_bind (g := fun fuel _ => keyY fuel >>= fun k => itemY fuel >>= fun j =>
      readMembers (keyY fuel) (itemY fuel) len (Json.assign result k j)) (fun _ => rfl)
      (fun br br' a h => not_run_bind (hnone br · · h)) fun c => ?_
    exact (hkey.bind fun k => hitem.from.bind fun j => ih _).succ

theorem replays_readElementsUntil (hitem : ReplaysAt 1 item itemY)
    (hnone : ∀ br br' a, br.current = none → item.run.run br ≠ (.ok a, br')) (fuel d : Nat)
    (result : List Json) :
    ReplaysFrom C 0 (readElementsUntil item fuel result) fun fuel =>
      readElementsUntil (itemY (fuel + d)) fuel result := by
  induction fuel generalizing C d result with
  | zero =>
    intro br br' a he hrun
    cases hrun
  | succ fuel ih =>
    refine replays_get_bind (g := fun fuel c => if c = some 0xff then return .array result
      else itemY (fuel + d) >>= fun j =>
        readElementsUntil (itemY (fuel - 1 + (d + 1))) (fuel - 1) (result ++ [j]))
      (fun fuel => ?_) (fun br br' a h => ?_) fun c => ?_
    · have hd : fuel + 1 - 1 + (d + 1) = fuel + 1 + d := by omega
      rw [hd]
      rfl
    · exact not_run_bind (hnone br · · h)
    · exact .ite (fun _ => replays_pure _) fun _ => (hitem.add d).bind fun j => (ih (d + 1) _).pred

theorem replays_readMembersUntil (hkey : ReplaysAt 0 key keyY)
    (hnone : ∀ br br' a, br.current = none → key.run.run br ≠ (.ok a, br'))
    (hitem : Replays 0 item itemY) (fuel d : Nat) (result : StringMap Json) :
    ReplaysFrom C 0 (readMembersUntil key item fuel result) fun fuel =>
      readMembersUntil (keyY (fuel + d)) (itemY (fuel + d)) fuel result := by
  induction fuel generalizing C d result with
  | zero =>
    intro br br' a he hrun
    cases hrun
  | succ fuel ih =>
    refine replays_get_bind (g := fun fuel c => if c = some 0xff then return .object result
      else keyY (fuel + d) >>= fun k => itemY (fuel + d) >>= fun j =>
        readMembersUntil (keyY (fuel - 1 + (d + 1))) (itemY (fuel - 1 + (d + 1))) (fuel - 1)
          (Json.assign result k j))
      (fun fuel => ?_) (fun br br' a h => ?_) fun c => ?_
    · have hd : fuel + 1 - 1 + (d + 1) = fuel + 1 + d := by omega
      rw [hd]
      rfl
    · exact not_run_bind (hnone br · · h)
    · exact .ite (fun _ => replays_pure _) fun _ => (hkey.add d).succ.bind fun k =>
        (hitem.add d).succ.bind fun j => (ih (d + 1) _).pred

/-! ## `parse_cbor` -/

theorem not_run_getCborString {br br' : BinaryReader σ} {fuel : Nat} {s : List Byte}
    (h : br.current = none) : (getCborString fuel).run.run br ≠ (.ok s, br') :=
  not_run_checkEof_bind h

theorem not_run_parseCbor {br br' : BinaryReader σ} {fuel : Nat} {j : Json}
    (h : br.current = none) : (parseCbor fuel false).run.run br ≠ (.ok j, br') := by
  obtain ⟨is, current, charsRead⟩ := br
  cases fuel with
  | zero =>
    intro hrun
    cases hrun
  | succ fuel =>
    obtain rfl : current = none := h
    intro hrun
    cases hrun

/-- The branches of the `switch`, with the recursive calls as they are. -/
theorem replays_parseCborItem {fuel : Nat} {parse : Bool → Action σ Json}
    {parseY : Nat → Bool → Action σ Json} (htrue : Replays 0 (parse true) fun n => parseY n true)
    (hfalse : ReplaysAt 1 (parse false) fun n => parseY n false)
    (hnone : ∀ br br' a, br.current = none → (parse false).run.run br ≠ (.ok a, br')) (c : Nat) :
    ReplaysAt 0 (parseCborItem fuel parse c) fun n => parseCborItem n (parseY n) c := by
  have hkey : ReplaysAt 0 (getCborString fuel : Action σ (List Byte)) getCborString :=
    replays_getCborString fuel
  have helements (len : Nat) {C : Option Byte → Option Byte → Prop} :
      ReplaysFrom C 0 (readElements (parse true) len []) fun n =>
        readElements (parseY n true) len [] :=
    replays_readElements htrue len []
  have hmembers (len : Nat) {C : Option Byte → Option Byte → Prop} :
      ReplaysFrom C 0 (readMembers (getCborString fuel) (parse true) len .empty) fun n =>
        readMembers (getCborString n) (parseY n true) len .empty :=
    replays_readMembers hkey (fun br br' a h => not_run_getCborString h) htrue len .empty
  have hbranches : CborBranches (fun x y => ReplaysAt 0 x y) fuel parse (fun n => n) parseY c :=
    { value := fun j _ => replays_pure j
      number := fun width f _ => (replays_getNumber width).bind fun n => replays_pure (f n)
      string := fun _ => hkey.bind fun s => replays_pure (Json.string s)
      elements := fun len => helements len
      numberElements := fun width => (replays_getNumber width).bind fun len => helements len
      elementsUntil := replays_readElementsUntil hfalse hnone fuel 0 []
      members := fun len => hmembers len
      numberMembers := fun width => (replays_getNumber width).bind fun len => hmembers len
      membersUntil := replays_readMembersUntil hkey (fun br br' a h => not_run_getCborString h)
        htrue fuel 0 .empty
      error := fun id whatArg => replays_throwParseError id whatArg _ }
  exact hbranches.parseCborItem

theorem yieldsAt_parseCbor {fuel : Nat} {c : Byte} {bs : List Byte} {j : Json}
    (h : YieldsAt (some c) (parseCborItem fuel (parseCbor fuel) c.toNat : Action σ Json) bs j) :
    YieldsAt (some c) (parseCbor (fuel + 1) false : Action σ Json) bs j := by
  intro br rest hc he hcontent
  obtain ⟨br', hrun, h'⟩ := h br rest hc he hcontent
  refine ⟨br', ?_, h'⟩
  obtain ⟨is, current, charsRead⟩ := br
  obtain rfl : current = some c := hc
  exact hrun

/-- By induction on the fuel: a character is read or there already, and then there is less fuel. -/
theorem replays_parseCbor (fuel : Nat) :
    Replays 0 (parseCbor fuel true : Action σ Json) (fun n => parseCbor n true) ∧
      ReplaysAt 1 (parseCbor fuel false : Action σ Json) fun n => parseCbor n false := by
  induction fuel with
  | zero =>
    constructor
    · intro br br' a he hrun
      cases hrun
    · intro br br' a he hrun
      cases hrun
  | succ fuel ih =>
    have hitem (c : Byte) : ReplaysAt 1
        (parseCborItem fuel (parseCbor fuel) c.toNat : Action σ Json) fun n =>
          parseCborItem (n - 1) (parseCbor (n - 1)) c.toNat :=
      (replays_parseCborItem ih.1 ih.2 (fun br br' a h => not_run_parseCbor h) c.toNat).pred
    constructor
    · refine replays_get_bind (g := fun n c => c.elim
        (throwParseError 110 (bytes "unexpected end of input"))
        fun c => parseCborItem (n - 1) (parseCbor (n - 1)) c.toNat)
        (fun _ => bind_congr fun c => by cases c <;> rfl)
        (fun br br' a h hrun => by cases hrun) hitem
    · intro br br' a he hrun
      obtain ⟨is, current, charsRead⟩ := br
      cases current with
      | none => cases hrun
      | some c =>
        obtain ⟨bs, hcontent, he', hyields⟩ := hitem c ⟨is, some c, charsRead⟩ br' a he hrun
        refine ⟨bs, hcontent, he', fun n c' hn hc' => ?_⟩
        obtain ⟨n, rfl⟩ : ∃ m, n = m + 1 := ⟨n - 1, by omega⟩
        cases hc'
        exact yieldsAt_parseCbor (hyields (n + 1) (some c) hn rfl)

end Wpi.BinaryReader
