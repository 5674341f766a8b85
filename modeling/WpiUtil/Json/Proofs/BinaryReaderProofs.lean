import WpiUtil.Foundations.Runs
import WpiUtil.Json.Proofs.JsonProofs
import WpiUtil.Json.RoundTrip

/-!
# What the parts of `binary_reader` consume and return

`Yields` composes like the actions themselves: what a sequence of actions consumes is the
concatenation of what they consume.
-/

namespace Wpi.BinaryReader

open Foundations BinaryWriter

variable {σ α β : Type}

/-! ## What is returned by some branch -/

section Returned

/-- Whatever the action returns is in `P`. -/
def Returns (P : α → Prop) (x : Action σ α) : Prop :=
  ∀ br br' a, x.run.run br = (.ok a, br') → P a

theorem returns_pure {P : α → Prop} {a : α} (h : P a) : Returns P (pure a : Action σ α) := by
  intro br br' a' hrun
  cases hrun
  exact h

theorem Returns.bind {P : β → Prop} {x : Action σ α} {f : α → Action σ β}
    (h : ∀ a, Returns P (f a)) : Returns P (x >>= f) := by
  intro br br' b hrun
  obtain ⟨a, br₁, -, hrun'⟩ := exists_of_run_bind hrun
  exact h a br₁ br' b hrun'

theorem Returns.ite {P : α → Prop} {p : Prop} [Decidable p] {x y : Action σ α}
    (hx : p → Returns P x) (hy : ¬p → Returns P y) : Returns P (if p then x else y) := by
  by_cases hp : p
  · rw [if_pos hp]
    exact hx hp
  · rw [if_neg hp]
    exact hy hp

theorem returns_throwParseError {P : α → Prop} (id : Nat) (whatArg : List Byte) :
    Returns P (throwParseError id whatArg : Action σ α) := by
  intro br br' a hrun
  cases hrun

variable {P : Json → Prop}

theorem returns_readElements (hP : ∀ xs, P (.array xs)) (item : Action σ Json) (len : Nat)
    (result : List Json) : Returns P (readElements item len result) := by
  induction len generalizing result with
  | zero => exact returns_pure (hP result)
  | succ len ih => exact .bind fun j => ih _

variable [ByteSource σ]

theorem returns_readMembers (hP : ∀ m, P (.object m)) (key : Action σ (List Byte))
    (item : Action σ Json) (len : Nat) (result : StringMap Json) :
    Returns P (readMembers key item len result) := by
  induction len generalizing result with
  | zero => exact returns_pure (hP result)
  | succ len ih => exact .bind fun _ => .bind fun k => .bind fun j => ih _

theorem returns_readElementsUntil (hP : ∀ xs, P (.array xs)) (item : Action σ Json) (fuel : Nat)
    (result : List Json) : Returns P (readElementsUntil item fuel result) := by
  induction fuel generalizing result with
  | zero =>
    intro br br' a hrun
    cases hrun
  | succ fuel ih =>
    exact .bind fun c => .ite (fun _ => returns_pure (hP result)) fun _ => .bind fun j => ih _

theorem returns_readMembersUntil (hP : ∀ m, P (.object m)) (key : Action σ (List Byte))
    (item : Action σ Json) (fuel : Nat) (result : StringMap Json) :
    Returns P (readMembersUntil key item fuel result) := by
  induction fuel generalizing result with
  | zero =>
    intro br br' a hrun
    cases hrun
  | succ fuel ih =>
    exact .bind fun c => .ite (fun _ => returns_pure (hP result)) fun _ =>
      .bind fun k => .bind fun j => ih _

end Returned

/-! ## Sequences -/

variable [ByteSource σ]

theorem YieldsAt.bind {c : Option Byte} {x : Action σ α} {f : α → Action σ β} {bs cs : List Byte}
    {a : α} {b : β} (hx : YieldsAt c x bs a) (hf : Yields (f a) cs b) :
    YieldsAt c (x >>= f) (bs ++ cs) b := by
  intro br rest hc he hcontent
  rw [List.append_assoc] at hcontent
  obtain ⟨br', hrun, he', hcontent'⟩ := hx br (cs ++ rest) hc he hcontent
  obtain ⟨br'', hrun', he'', hcontent''⟩ := hf br'.current br' rest rfl he' hcontent'
  refine ⟨br'', ?_, he'', hcontent''⟩
  rw [run_bind, hrun]
  exact hrun'

theorem Yields.bind {x : Action σ α} {f : α → Action σ β} {bs cs : List Byte} {a : α} {b : β}
    (hx : Yields x bs a) (hf : Yields (f a) cs b) : Yields (x >>= f) (bs ++ cs) b :=
  fun c => (hx c).bind hf

theorem Yields.pure (a : α) : Yields (pure a : Action σ α) [] a := by
  intro c br rest hc he hcontent
  exact ⟨br, rfl, he, hcontent⟩

/-- A last step that does not read. -/
theorem Yields.map {x : Action σ α} {bs : List Byte} {a : α} (hx : Yields x bs a) (f : α → β) :
    Yields (x >>= fun a => Pure.pure (f a)) bs (f a) := by
  have h := hx.bind (f := fun a => Pure.pure (f a)) (Yields.pure (f a))
  rwa [List.append_nil] at h

theorem run_get_eq (br : BinaryReader σ) : (get : Action σ (Option Byte)).run.run br =
    (let (data, is) := RawIstream.read br.is 1
     let current := if RawIstream.hasError is then none else data.head?
     (.ok current, ⟨is, current, br.charsRead + 1⟩)) := rfl

theorem run_get {br : BinaryReader σ} {c : Byte} {bs : List Byte}
    (he : RawIstream.hasError br.is = false) (hcontent : ByteSource.content br.is = c :: bs) :
    ∃ is', (get : Action σ (Option Byte)).run.run br =
        (.ok (some c), ⟨is', some c, br.charsRead + 1⟩) ∧
      RawIstream.hasError is' = false ∧ ByteSource.content is' = bs := by
  obtain ⟨is', hread, he', hcontent'⟩ := ByteSource.read_cons he hcontent
  refine ⟨is', ?_, he', hcontent'⟩
  have hread' : RawIstream.read br.is 1 = ([c], is') := hread
  rw [run_get_eq, hread']
  simp only [he', Bool.false_eq_true, if_false, List.head?_cons]

/-- After `get` the byte read is the current character. -/
theorem YieldsAt.get_bind {c : Byte} {f : Option Byte → Action σ α} {bs : List Byte} {a : α}
    (hf : YieldsAt (some c) (f (some c)) bs a) : Yields (get >>= f) (c :: bs) a := by
  intro _ br rest _ he hcontent
  obtain ⟨is', hrun, he', hcontent'⟩ := run_get he hcontent
  obtain ⟨br', hrun', h⟩ := hf ⟨is', some c, br.charsRead + 1⟩ rest rfl he' hcontent'
  refine ⟨br', ?_, h⟩
  rw [run_bind, hrun]
  exact hrun'

theorem YieldsAt.checkEof_bind {c : Byte} {f : Byte → Action σ α} {bs : List Byte} {a : α}
    (hf : YieldsAt (some c) (f c) bs a) : YieldsAt (some c) (checkEof >>= f) bs a := by
  intro br rest hc he hcontent
  obtain ⟨br', hrun', h⟩ := hf br rest hc he hcontent
  refine ⟨br', ?_, h⟩
  have hrun : (checkEof : Action σ Byte).run.run br = (.ok c, br) := by
    obtain ⟨is, current, charsRead⟩ := br
    obtain rfl : current = some c := hc
    rfl
  rw [run_bind, hrun]
  exact hrun'

/-! ## Going on after some bytes -/

theorem LeadsAt.refl (c : Option Byte) (x : Action σ α) : LeadsAt c x [] x := by
  intro br rest _ he hcontent
  exact ⟨br, rfl, he, hcontent⟩

theorem YieldsAt.leads {c : Option Byte} {x : Action σ α} {bs : List Byte} {a : α}
    (h : YieldsAt c x bs a) (f : α → Action σ β) : LeadsAt c (x >>= f) bs (f a) := by
  intro br rest hc he hcontent
  obtain ⟨br', hrun, h'⟩ := h br rest hc he hcontent
  refine ⟨br', ?_, h'⟩
  rw [run_bind, hrun]

theorem LeadsAt.get_bind {c : Byte} {f : Option Byte → Action σ α} {bs : List Byte}
    {y : Action σ α} (hf : LeadsAt (some c) (f (some c)) bs y) : Leads (get >>= f) (c :: bs) y := by
  intro _ br rest _ he hcontent
  obtain ⟨is', hrun, he', hcontent'⟩ := run_get he hcontent
  obtain ⟨br', hrun', h⟩ := hf ⟨is', some c, br.charsRead + 1⟩ rest rfl he' hcontent'
  refine ⟨br', ?_, h⟩
  rw [run_bind, hrun]
  exact hrun'

theorem LeadsAt.checkEof_bind {c : Byte} {f : Byte → Action σ α} {bs : List Byte}
    {y : Action σ α} (hf : LeadsAt (some c) (f c) bs y) :
    LeadsAt (some c) (checkEof >>= f) bs y := by
  intro br rest hc he hcontent
  obtain ⟨br', hrun', h⟩ := hf br rest hc he hcontent
  refine ⟨br', ?_, h⟩
  obtain ⟨is, current, charsRead⟩ := br
  obtain rfl : current = some c := hc
  exact hrun'

theorem LeadsAt.bind {c : Option Byte} {x y : Action σ α} {bs : List Byte} (h : LeadsAt c x bs y)
    (f : α → Action σ β) : LeadsAt c (x >>= f) bs (y >>= f) := by
  intro br rest hc he hcontent
  obtain ⟨br', hrun, h'⟩ := h br rest hc he hcontent
  refine ⟨br', ?_, h'⟩
  rw [run_bind, run_bind, hrun]

/-- What the action goes on as tells what it returns. -/
theorem LeadsAt.yields {c : Option Byte} {x y : Action σ α} {bs cs : List Byte} {a : α}
    (h : LeadsAt c x bs y) (hy : Yields y cs a) : YieldsAt c x (bs ++ cs) a := by
  intro br rest hc he hcontent
  rw [List.append_assoc] at hcontent
  obtain ⟨br₁, hrun₁, he₁, hcontent₁⟩ := h br (cs ++ rest) hc he hcontent
  obtain ⟨br', hrun', h'⟩ := hy br₁.current br₁ rest rfl he₁ hcontent₁
  exact ⟨br', hrun₁.trans hrun', h'⟩

/-! ## Numbers and strings -/

theorem yields_getBytes (bs : List Byte) (acc : Nat) :
    Yields (getBytes bs.length acc : Action σ Nat) bs (ofBigEndian acc bs) := by
  induction bs generalizing acc with
  | nil => exact Yields.pure acc
  | cons b bs ih =>
    rw [List.length_cons, getBytes, ofBigEndian]
    exact YieldsAt.get_bind (YieldsAt.checkEof_bind (ih _ _))

/-- What does not fit in the type of the number is lost. -/
theorem yields_getNumber_mod (width n : Nat) :
    Yields (getNumber width : Action σ Nat) (writeNumber width n) (n % 256 ^ width) := by
  have hbytes := yields_getBytes (σ := σ) (bigEndian width n) 0
  rwa [length_bigEndian, ofBigEndian_bigEndian, Nat.zero_mul, Nat.zero_add] at hbytes

theorem yields_getNumber {width n : Nat} (h : n < 256 ^ width) :
    Yields (getNumber width : Action σ Nat) (writeNumber width n) n := by
  have hmod := yields_getNumber_mod (σ := σ) width n
  rwa [Nat.mod_eq_of_lt h] at hmod

theorem yields_getStringLoop (str acc : List Byte) :
    Yields (getStringLoop str.length acc : Action σ (List Byte)) str (acc ++ str) := by
  induction str generalizing acc with
  | nil =>
    rw [List.append_nil]
    exact Yields.pure acc
  | cons c str ih =>
    have h := ih (acc ++ [c])
    rw [List.append_assoc] at h
    exact YieldsAt.get_bind (YieldsAt.checkEof_bind (h _))

theorem yields_getString (str : List Byte) :
    Yields (getString str.length : Action σ (List Byte)) str str :=
  yields_getStringLoop str []

/-- A string after its length. -/
theorem yields_numberFloat (bits : UInt64) :
    Yields (do return Json.numberFloat (UInt64.ofNat (← getNumber 8)) : Action σ Json)
      (writeNumber 8 bits.toNat) (Json.numberFloat bits) := by
  have hbits := bits.toNat_lt
  have hnumber : Yields (getNumber 8 : Action σ Nat) (writeNumber 8 bits.toNat) bits.toNat :=
    yields_getNumber (by omega)
  have h := hnumber.map fun n => Json.numberFloat (UInt64.ofNat n)
  rwa [UInt64.ofNat_toNat] at h

theorem yields_getNumber_getString {width : Nat} {str : List Byte} (h : str.length < 256 ^ width) :
    Yields (do getString (← getNumber width) : Action σ (List Byte))
      (writeNumber width str.length ++ str) str :=
  (yields_getNumber h).bind (yields_getString str)

theorem writeNumber_one (n : Nat) : writeNumber 1 n = [UInt8.ofNat n] := by
  rw [writeNumber, bigEndian, bigEndian, pow_zero, Nat.div_one]

theorem toNat_ofNat_of_lt {n : Nat} (h : n < 256) : (UInt8.ofNat n).toNat = n := by
  rw [UInt8.toNat_ofNat', Nat.mod_eq_of_lt h]

theorem and_five_bits {n k : Nat} (h : n ≤ 0x1f) : (0x20 * k + n) &&& 0x1f = n := by
  rw [show (0x1f : Nat) = 2 ^ 5 - 1 from rfl, Nat.and_two_pow_sub_one_eq_mod]
  omega

/-! ## Containers -/

/-- The elements that `readElements` reads back, one by one. -/
theorem yields_readElements (item : Action σ Json) (enc : Json → List Byte) (xs acc : List Json)
    (h : ∀ x ∈ xs, ∃ x', Recovers x x' ∧ Yields item (enc x) x') :
    ∃ xs', List.Forall₂ Recovers xs xs' ∧
      Yields (readElements item xs.length acc) (xs.flatMap enc) (.array (acc ++ xs')) := by
  induction xs generalizing acc with
  | nil =>
    refine ⟨[], List.Forall₂.nil, ?_⟩
    rw [List.append_nil]
    exact Yields.pure _
  | cons x xs ih =>
    obtain ⟨x', hx', hyields⟩ := h x List.mem_cons_self
    obtain ⟨xs', hxs', hrest⟩ := ih (acc ++ [x']) fun y hy => h y (List.mem_cons_of_mem x hy)
    refine ⟨x' :: xs', List.Forall₂.cons hx' hxs', ?_⟩
    rw [List.append_assoc] at hrest
    exact hyields.bind hrest

/-- The members that `readMembers` reads back are assigned one after the other. -/
theorem yields_readMembers (key : Action σ (List Byte)) (item : Action σ Json)
    (encKey : Key → List Byte) (enc : Json → List Byte) (es : List (Key × Json))
    (acc : StringMap Json)
    (hkey : ∀ e ∈ es, ∃ c bs, encKey e.1 = c :: bs ∧ YieldsAt (some c) key bs e.1)
    (h : ∀ e ∈ es, ∃ v', Recovers e.2 v' ∧ Yields item (enc e.2) v') :
    ∃ es', List.Forall₂ (fun e e' : Key × Json => e.1 = e'.1 ∧ Recovers e.2 e'.2) es es' ∧
      Yields (readMembers key item es.length acc) (es.flatMap fun e => encKey e.1 ++ enc e.2)
        (.object (es'.foldl (fun m e => Json.assign m e.1 e.2) acc)) := by
  induction es generalizing acc with
  | nil => exact ⟨[], List.Forall₂.nil, Yields.pure _⟩
  | cons e es ih =>
    obtain ⟨c, bs, henc, hk⟩ := hkey e List.mem_cons_self
    obtain ⟨v', hv', hyields⟩ := h e List.mem_cons_self
    obtain ⟨es', hes', hrest⟩ := ih (Json.assign acc e.1 v')
      (fun y hy => hkey y (List.mem_cons_of_mem e hy))
      (fun y hy => h y (List.mem_cons_of_mem e hy))
    refine ⟨(e.1, v') :: es', List.Forall₂.cons ⟨rfl, hv'⟩ hes', ?_⟩
    rw [List.flatMap_cons, henc, List.append_assoc, List.cons_append]
    exact YieldsAt.get_bind (hk.bind (hyields.bind hrest))

/-! ## What is recovered -/

theorem length_le_flatMap {γ : Type} (f : γ → List Byte) {xs : List γ} {x : γ} (hx : x ∈ xs) :
    (f x).length ≤ (xs.flatMap f).length := by
  induction xs with
  | nil => cases hx
  | cons y ys ih =>
    rw [List.flatMap_cons, List.length_append]
    rcases List.mem_cons.1 hx with rfl | hx
    · exact Nat.le_add_right _ _
    · have := ih hx
      omega

theorem exists_of_forall₂ {γ δ : Type} {R : γ → δ → Prop} {xs : List γ} {ys : List δ}
    (h : List.Forall₂ R xs ys) {y : δ} (hy : y ∈ ys) : ∃ x ∈ xs, R x y := by
  induction h with
  | nil => cases hy
  | cons hxy _ ih =>
    rcases List.mem_cons.1 hy with rfl | hy
    · exact ⟨_, List.mem_cons_self, hxy⟩
    · obtain ⟨x, hx, hr⟩ := ih hy
      exact ⟨x, List.mem_cons_of_mem _ hx, hr⟩

theorem recovers_unsigned {j : Json} {n : Nat} (hn : n < 2 ^ 64) (h : j.denote = .integer n) :
    Recovers j (.numberUnsigned (UInt64.ofNat n)) := by
  refine ⟨trivial, ?_, fun i hi => by cases hi⟩
  rw [h, Json.denote, UInt64.toNat_ofNat_of_lt' hn]

theorem recovers_negative {n k : Int64} (hn : n.toInt < 0) (h : k.toInt = n.toInt) :
    Recovers (.numberInteger n) (.numberInteger k) := by
  refine ⟨trivial, ?_, fun i hi => ?_⟩
  · rw [Json.denote, Json.denote, h]
  · cases hi
    rwa [h]

theorem recovers_array {xs xs' : List Json} (hwf : (Json.array xs).WF)
    (h : List.Forall₂ Recovers xs xs') : Recovers (.array xs) (.array xs') := by
  have hlen : xs'.length < 2 ^ 64 := by
    rw [← h.length_eq]
    exact hwf.self
  refine ⟨(Json.all_array xs').2 ⟨hlen, ?_⟩, ?_, (Json.all_array xs').2 ⟨?_, ?_⟩⟩
  · intro x' hx'
    obtain ⟨x, -, hx⟩ := exists_of_forall₂ h hx'
    exact hx.wf
  · rw [Json.denote_array, Json.denote_array]
    congr 1
    clear hwf hlen
    induction h with
    | nil => rfl
    | cons hx _ ih => rw [List.map_cons, List.map_cons, hx.value, ih]
  · intro n hn
    cases hn
  · intro x' hx'
    obtain ⟨x, -, hx⟩ := exists_of_forall₂ h hx'
    exact hx.unsigned

theorem recovers_object {m : StringMap Json} (hwf : (Json.object m).WF) {es' : List (Key × Json)}
    (h : List.Forall₂ (fun e e' : Key × Json => e.1 = e'.1 ∧ Recovers e.2 e'.2) m.toList es') :
    Recovers (.object m) (.object (es'.foldl (fun m e => Json.assign m e.1 e.2) .empty)) := by
  obtain ⟨hm, hsize, hkeys⟩ := hwf.self
  have hfst : es'.map Prod.fst = m.toList.map Prod.fst := by
    generalize m.toList = es at h
    induction h with
    | nil => rfl
    | cons he _ ih => rw [List.map_cons, List.map_cons, he.1, ih]
  have hlookup : ∀ key, (es'.lookup key).map Json.denote = (m.toList.lookup key).map Json.denote := by
    intro key
    generalize m.toList = es at h
    clear hfst
    induction h with
    | nil => rfl
    | @cons e e' es es' he _ ih =>
      rw [List.lookup_cons, List.lookup_cons, he.1]
      cases key == e'.1 with
      | true => simp only [Option.map_some, he.2.value]
      | false => exact ih
  have hshort : ∀ e' ∈ es', e'.1.length < 2 ^ 32 := by
    intro e' he'
    obtain ⟨e, he, hk, -⟩ := exists_of_forall₂ h he'
    rw [← hk]
    exact hkeys e he
  obtain ⟨hm', hperm⟩ := Json.foldl_assign_perm es' StringMap.WF.empty hshort (by
    rw [show StringMap.toList .empty = ([] : List (Key × Json)) from rfl, List.append_nil, hfst]
    exact hm.table.nodup)
  rw [show StringMap.toList .empty = ([] : List (Key × Json)) from rfl, List.append_nil] at hperm
  have hmem : ∀ e' ∈ StringMap.toList (es'.foldl (fun m e => Json.assign m e.1 e.2) .empty),
      ∃ e ∈ m.toList, e.1 = e'.1 ∧ Recovers e.2 e'.2 := fun e' he' =>
    exists_of_forall₂ h (hperm.mem_iff.1 he')
  refine ⟨(Json.all_object _).2 ⟨⟨hm', ?_, ?_⟩, ?_⟩, ?_, (Json.all_object _).2 ⟨?_, ?_⟩⟩
  · have hlen : (es'.foldl (fun m e => Json.assign m e.1 e.2) .empty).size = m.size := by
      rw [StringMap.size, StringMap.size, hm'.numItems, hm.numItems]
      exact hperm.length_eq.trans h.length_eq.symm
    rw [hlen]
    exact hsize
  · intro e' he'
    obtain ⟨e, he, hk, -⟩ := hmem e' he'
    rw [← hk]
    exact hkeys e he
  · intro e' he'
    obtain ⟨e, -, -, hr⟩ := hmem e' he'
    exact hr.wf
  · rw [Json.denote_object hm', Json.denote_object hm]
    congr 1
    funext key
    rw [Json.lookup?_of_perm hm' hperm, ← Json.toList_lookup hm, hlookup]
  · intro n hn
    cases hn
  · intro e' he'
    obtain ⟨e, -, -, hr⟩ := hmem e' he'
    exact hr.unsigned

/-! ## The branches of a `switch` -/

/-- What holds of both branches holds of the choice, for a family of computations too. -/
theorem of_ite {A B ι : Type} {P : A → (ι → B) → Prop} {p : Prop} [Decidable p] {x x' : A}
    {y y' : ι → B} (h : p → P x y) (h' : ¬p → P x' y') :
    P (if p then x else x') fun i => if p then y i else y' i := by
  by_cases hp : p
  · simp only [if_pos hp]
    exact h hp
  · simp only [if_neg hp]
    exact h' hp

section Branches

variable {ι τ : Type} [ByteSource τ] {P : Action σ Json → (ι → Action τ Json) → Prop}

/-- The values that the byte `c` of CBOR is all of. -/
inductive CborSingle (c : Nat) : Json → Prop where
  | unsigned (h : c ≤ 0x17) : CborSingle c (.numberUnsigned (UInt64.ofNat c))
  | negative (h : 0x20 ≤ c ∧ c ≤ 0x37) :
      CborSingle c (.numberInteger (Int8.ofInt (0x20 - 1 - (c : Int))).toInt64)
  | false (h : c = 0xf4) : CborSingle c (.boolean Bool.false)
  | true (h : c = 0xf5) : CborSingle c (.boolean Bool.true)
  | null : CborSingle c .null

/-- What `parse_cbor` makes of a number of `width` bytes. -/
inductive CborNumber : Nat → (Nat → Json) → Prop where
  | unsigned {width : Nat} (h : width ∈ [1, 2, 4, 8]) :
      CborNumber width fun n => .numberUnsigned (UInt64.ofNat n)
  | negative {width : Nat} (h : width ∈ [1, 2, 4, 8]) : CborNumber width BinaryReader.negative
  | float (width : Nat) (f : Nat → UInt64) : CborNumber width fun n => .numberFloat (f n)

/-- `P` holds of what the branches of `parse_cbor` for the byte `c` do, compared with those of a
family of readers that have fuel of their own. -/
structure CborBranches (P : Action σ Json → (ι → Action τ Json) → Prop) (fuel : Nat)
    (parse : Bool → Action σ Json) (fuelY : ι → Nat) (parseY : ι → Bool → Action τ Json)
    (c : Nat) : Prop where
  value (j : Json) (hj : CborSingle c j) : P (pure j) fun _ => pure j
  number (width : Nat) (f : Nat → Json) (hf : CborNumber width f) :
    P (getNumber width >>= fun n => pure (f n)) fun _ => getNumber width >>= fun n => pure (f n)
  string (hc : 0x60 ≤ c ∧ c ≤ 0x7b ∨ c = 0x7f) :
    P (getCborString fuel >>= fun s => pure (.string s))
      fun i => getCborString (fuelY i) >>= fun s => pure (.string s)
  elements (len : Nat) :
    P (readElements (parse true) len []) fun i => readElements (parseY i true) len []
  numberElements (width : Nat) :
    P (getNumber width >>= fun len => readElements (parse true) len [])
      fun i => getNumber width >>= fun len => readElements (parseY i true) len []
  elementsUntil :
    P (readElementsUntil (parse false) fuel [])
      fun i => readElementsUntil (parseY i false) (fuelY i) []
  members (len : Nat) :
    P (readMembers (getCborString fuel) (parse true) len .empty)
      fun i => readMembers (getCborString (fuelY i)) (parseY i true) len .empty
  numberMembers (width : Nat) :
    P (getNumber width >>= fun len => readMembers (getCborString fuel) (parse true) len .empty)
      fun i => getNumber width >>= fun len =>
        readMembers (getCborString (fuelY i)) (parseY i true) len .empty
  membersUntil :
    P (readMembersUntil (getCborString fuel) (parse true) fuel .empty)
      fun i => readMembersUntil (getCborString (fuelY i)) (parseY i true) (fuelY i) .empty
  error (id : Nat) (whatArg : List Byte) :
    P (throwParseError id whatArg) fun _ => throwParseError id whatArg

theorem CborBranches.parseCborItem {fuel : Nat} {parse : Bool → Action σ Json} {fuelY : ι → Nat}
    {parseY : ι → Bool → Action τ Json} {c : Nat} (h : CborBranches P fuel parse fuelY parseY c) :
    P (BinaryReader.parseCborItem fuel parse c)
      fun i => BinaryReader.parseCborItem (fuelY i) (parseY i) c := by
  unfold BinaryReader.parseCborItem
  refine of_ite (fun hc => h.value _ (.unsigned hc)) fun _ => ?_
  refine of_ite (fun _ => h.number 1 _ (.unsigned (by simp))) fun _ => ?_
  refine of_ite (fun _ => h.number 2 _ (.unsigned (by simp))) fun _ => ?_
  refine of_ite (fun _ => h.number 4 _ (.unsigned (by simp))) fun _ => ?_
  refine of_ite (fun _ => h.number 8 _ (.unsigned (by simp))) fun _ => ?_
  refine of_ite (fun hc => h.value _ (.negative hc)) fun _ => ?_
  refine of_ite (fun _ => h.number 1 _ (.negative (by simp))) fun _ => ?_
  refine of_ite (fun _ => h.number 2 _ (.negative (by simp))) fun _ => ?_
  refine of_ite (fun _ => h.number 4 _ (.negative (by simp))) fun _ => ?_
  refine of_ite (fun _ => h.number 8 _ (.negative (by simp))) fun _ => ?_
  refine of_ite (fun hc => h.string hc) fun _ => ?_
  refine of_ite (fun _ => h.elements _) fun _ => ?_
  refine of_ite (fun _ => h.numberElements 1) fun _ => ?_
  refine of_ite (fun _ => h.numberElements 2) fun _ => ?_
  refine of_ite (fun _ => h.numberElements 4) fun _ => ?_
  refine of_ite (fun _ => h.numberElements 8) fun _ => ?_
  refine of_ite (fun _ => h.elementsUntil) fun _ => ?_
  refine of_ite (fun _ => h.members _) fun _ => ?_
  refine of_ite (fun _ => h.numberMembers 1) fun _ => ?_
  refine of_ite (fun _ => h.numberMembers 2) fun _ => ?_
  refine of_ite (fun _ => h.numberMembers 4) fun _ => ?_
  refine of_ite (fun _ => h.numberMembers 8) fun _ => ?_
  refine of_ite (fun _ => h.membersUntil) fun _ => ?_
  refine of_ite (fun hc => h.value _ (.false hc)) fun _ => ?_
  refine of_ite (fun hc => h.value _ (.true hc)) fun _ => ?_
  refine of_ite (fun _ => h.value _ .null) fun _ => ?_
  refine of_ite (fun _ => h.number 2 _ (.float 2 Binary64.ofHalf)) fun _ => ?_
  refine of_ite (fun _ => h.number 4 _ (.float 4 Binary64.ofSingle)) fun _ => ?_
  refine of_ite (fun _ => h.number 8 _ (.float 8 UInt64.ofNat)) fun _ => ?_
  exact h.error _ _

/-- The values that the byte `c` of MessagePack is all of. -/
inductive MsgpackSingle (c : Nat) : Json → Prop where
  | positive (h : c ≤ 0x7f) : MsgpackSingle c (.numberUnsigned (UInt64.ofNat c))
  | negative (h : 0xe0 ≤ c) : MsgpackSingle c (.numberInteger (Int8.ofNat c).toInt64)
  | boolean (b : Bool) : MsgpackSingle c (.boolean b)
  | null : MsgpackSingle c .null

/-- What `parse_msgpack` makes of a number of `width` bytes. -/
inductive MsgpackNumber : Nat → (Nat → Json) → Prop where
  | unsigned {width : Nat} (h : width ∈ [1, 2, 4, 8]) :
      MsgpackNumber width fun n => .numberUnsigned (UInt64.ofNat n)
  | int8 : MsgpackNumber 1 fun n => .numberInteger (Int8.ofNat n).toInt64
  | int16 : MsgpackNumber 2 fun n => .numberInteger (Int16.ofNat n).toInt64
  | int32 : MsgpackNumber 4 fun n => .numberInteger (Int32.ofNat n).toInt64
  | int64 : MsgpackNumber 8 fun n => .numberInteger (Int64.ofNat n)
  | float (width : Nat) (f : Nat → UInt64) : MsgpackNumber width fun n => .numberFloat (f n)

/-- `P` holds of what the branches of `parse_msgpack` for the byte `c` do, compared with those of a
family of readers. -/
structure MsgpackBranches (P : Action σ Json → (ι → Action τ Json) → Prop)
    (parse : Action σ Json) (parseY : ι → Action τ Json) (c : Nat) : Prop where
  value (j : Json) (hj : MsgpackSingle c j) : P (pure j) fun _ => pure j
  number (width : Nat) (f : Nat → Json) (hf : MsgpackNumber width f) :
    P (getNumber width >>= fun n => pure (f n)) fun _ => getNumber width >>= fun n => pure (f n)
  string : P (getMsgpackString >>= fun s => pure (.string s))
    fun _ => getMsgpackString >>= fun s => pure (.string s)
  elements (len : Nat) : P (readElements parse len []) fun i => readElements (parseY i) len []
  numberElements (width : Nat) :
    P (getNumber width >>= fun len => readElements parse len [])
      fun i => getNumber width >>= fun len => readElements (parseY i) len []
  members (len : Nat) :
    P (readMembers getMsgpackString parse len .empty)
      fun i => readMembers getMsgpackString (parseY i) len .empty
  numberMembers (width : Nat) :
    P (getNumber width >>= fun len => readMembers getMsgpackString parse len .empty)
      fun i => getNumber width >>= fun len => readMembers getMsgpackString (parseY i) len .empty
  error (id : Nat) (whatArg : List Byte) :
    P (throwParseError id whatArg) fun _ => throwParseError id whatArg

theorem MsgpackBranches.parseMsgpackItem {parse : Action σ Json} {parseY : ι → Action τ Json}
    {c : Nat} (h : MsgpackBranches P parse parseY c) :
    P (BinaryReader.parseMsgpackItem parse c)
      fun i => BinaryReader.parseMsgpackItem (parseY i) c := by
  unfold BinaryReader.parseMsgpackItem
  refine of_ite (fun hc => h.value _ (.positive hc)) fun _ => ?_
  refine of_ite (fun _ => h.members _) fun _ => ?_
  refine of_ite (fun _ => h.elements _) fun _ => ?_
  refine of_ite (fun _ => h.string) fun _ => ?_
  refine of_ite (fun _ => h.value _ .null) fun _ => ?_
  refine of_ite (fun _ => h.value _ (.boolean false)) fun _ => ?_
  refine of_ite (fun _ => h.value _ (.boolean true)) fun _ => ?_
  refine of_ite (fun _ => h.number 4 _ (.float 4 Binary64.ofSingle)) fun _ => ?_
  refine of_ite (fun _ => h.number 8 _ (.float 8 UInt64.ofNat)) fun _ => ?_
  refine of_ite (fun _ => h.number 1 _ (.unsigned (by simp))) fun _ => ?_
  refine of_ite (fun _ => h.number 2 _ (.unsigned (by simp))) fun _ => ?_
  refine of_ite (fun _ => h.number 4 _ (.unsigned (by simp))) fun _ => ?_
  refine of_ite (fun _ => h.number 8 _ (.unsigned (by simp))) fun _ => ?_
  refine of_ite (fun _ => h.number 1 _ .int8) fun _ => ?_
  refine of_ite (fun _ => h.number 2 _ .int16) fun _ => ?_
  refine of_ite (fun _ => h.number 4 _ .int32) fun _ => ?_
  refine of_ite (fun _ => h.number 8 _ .int64) fun _ => ?_
  refine of_ite (fun _ => h.string) fun _ => ?_
  refine of_ite (fun _ => h.numberElements 2) fun _ => ?_
  refine of_ite (fun _ => h.numberElements 4) fun _ => ?_
  refine of_ite (fun _ => h.numberMembers 2) fun _ => ?_
  refine of_ite (fun _ => h.numberMembers 4) fun _ => ?_
  refine of_ite (fun hc => h.value _ (.negative hc)) fun _ => ?_
  exact h.error _ _

end Branches

end Wpi.BinaryReader
