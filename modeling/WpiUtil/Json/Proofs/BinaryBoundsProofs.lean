import WpiUtil.Json.Outcome
import WpiUtil.Json.Proofs.ReplayProofs

/-!
# What reading CBOR and MessagePack can come to

No read follows the one that meets the end of the input, and each of them counts for a loop that
reads until a break. A key is no longer than the input that it is read from.
-/

namespace Wpi

namespace BinaryReader

open Foundations MeteredSource

variable {σ α β : Type} [MeteredSource σ] {n m : Nat} {br : BinaryReader σ} {P : α → Prop}
  {Q : β → Prop}

/-! ## States -/

/-- There are `m` of the `n` bytes left. -/
structure Open (n m : Nat) (br : BinaryReader σ) : Prop where
  hasError : RawIstream.hasError br.is = false
  length_eq : (ByteSource.content br.is).length = m
  charsRead_eq : br.charsRead + m = n
  asked : Asked br.is br.charsRead

/-- A position of one of the `n` bytes or of the end. -/
def Positioned (n : Nat) (e : Failure) : Prop :=
  ∃ e', e = .thrown e' ∧ e'.type = .parseError ∧ 1 ≤ e'.byte ∧ e'.byte ≤ n + 1

theorem positioned_parseError {id byte : Nat} (whatArg : List Byte) (hpos : 1 ≤ byte)
    (hle : byte ≤ n + 1) : Positioned n (.thrown (parseError id byte whatArg)) :=
  ⟨parseError id byte whatArg, rfl, rfl, hpos, hle⟩

/-- The outcome of an action that has `m` bytes left and returns something with `P`. -/
def Outcome (n m : Nat) (P : α → Prop) (r : Except Failure α) (br : BinaryReader σ) : Prop :=
  match r with
  | .ok a => P a ∧ ∃ m' ≤ m, Open n m' br
  | .error e => Positioned n e ∧ Within n br.is

theorem Outcome.mono {r : Except Failure α} {m' : Nat} (h : Outcome n m' P r br) (hm : m' ≤ m) :
    Outcome n m P r br := by
  cases r with
  | ok a =>
    obtain ⟨ha, m'', hle, hopen⟩ := h
    exact ⟨ha, m'', Nat.le_trans hle hm, hopen⟩
  | error e => exact h

theorem outcome_pure {a : α} (h : Open n m br) (ha : P a) :
    Meets br (pure a : Action σ α) (Outcome n m P) :=
  meets_pure ⟨ha, m, Nat.le_refl m, h⟩

theorem outcome_bind {x : Action σ α} {f : α → Action σ β} (hx : Meets br x (Outcome n m P))
    (hf : ∀ a m' br', P a → m' ≤ m → Open n m' br' → Meets br' (f a) (Outcome n m' Q)) :
    Meets br (x >>= f) (Outcome n m Q) := by
  refine hx.bind ?_ fun e br' he => he
  rintro a br' ⟨ha, m', hle, hopen⟩
  exact (hf a m' br' ha hle hopen).mono fun r br'' h => h.mono hle

/-! ## Reading one character -/

/-- What comes after a character, and what comes after the end. -/
theorem outcome_get_bind {f : Option Byte → Action σ α} (h : Open n m br)
    (hnone : Stops (f none))
    (hsome : ∀ c m' br', m = m' + 1 → Open n m' br' → br'.current = some c →
      Meets br' (f (some c)) (Outcome n m' P)) :
    Meets br (get >>= f) (Outcome n m P) := by
  have his : ((get : Action σ (Option Byte)).run.run br).2.is = (RawIstream.read br.is 1).2 := rfl
  have hasked : Asked (RawIstream.read br.is 1).2 (br.charsRead + 1) := asked_read h.asked
  have hread := h.charsRead_eq
  have hlength := h.length_eq
  rw [Meets, run_bind]
  rcases run_get_cases br h.hasError with
    ⟨hcontent, br', hget, hcurrent, hread', -⟩ |
    ⟨c, bs, br', hcontent, hget, hcurrent, hread', he', hcontent'⟩
  · rw [hcontent, List.length_nil] at hlength
    have hn : br.charsRead = n := by omega
    rw [← his, hget, hn] at hasked
    rw [hget]
    simp only [hnone br' hcurrent]
    exact ⟨positioned_parseError _ (by omega) (by omega), n + 1, Nat.le_refl _, hasked⟩
  · rw [hcontent, List.length_cons] at hlength
    rw [← his, hget, ← hread'] at hasked
    rw [hget]
    have hopen : Open n bs.length br' := ⟨he', by rw [hcontent'], by omega, hasked⟩
    exact (hsome c bs.length br' hlength.symm hopen hcurrent).mono
      fun r br'' hr => hr.mono (by omega)

/-- There has been a read. -/
theorem outcome_throwParseError {k m' : Nat} (h : Open n k br) (hk : k < n) (id : Nat)
    (whatArg : List Byte) : Meets br (throwParseError id whatArg : Action σ α) (Outcome n m' P) := by
  have hread := h.charsRead_eq
  exact ⟨positioned_parseError _ (by omega) (by omega), br.charsRead, by omega, h.asked⟩

theorem outcome_checkEof_bind {f : Byte → Action σ α} {c : Byte} (hc : br.current = some c)
    (h : Meets br (f c) (Outcome n m P)) : Meets br (checkEof >>= f) (Outcome n m P) := by
  rcases run_checkEof_bind br f with ⟨hnone, -⟩ | ⟨c', hc', hrun⟩
  · rw [hc] at hnone
    cases hnone
  · rw [hc] at hc'
    cases hc'
    rw [Meets, hrun]
    exact h

/-- A character that has to be there. -/
theorem outcome_get_checkEof {f : Byte → Action σ α} (h : Open n m br)
    (hf : ∀ c m' br', m = m' + 1 → Open n m' br' → Meets br' (f c) (Outcome n m' P)) :
    Meets br (get >>= fun _ => checkEof >>= f) (Outcome n m P) :=
  outcome_get_bind h (stops_checkEof_bind f)
    fun c m' br' hm hopen hc => outcome_checkEof_bind hc (hf c m' br' hm hopen)

/-! ## Numbers and strings -/

theorem Open.le (h : Open n m br) : m ≤ n := by
  have hread := h.charsRead_eq
  omega

theorem outcome_getBytes (width acc : Nat) (h : Open n m br) :
    Meets br (getBytes width acc : Action σ Nat) (Outcome n m fun _ => True) := by
  induction width generalizing acc m br with
  | zero => exact outcome_pure h trivial
  | succ width ih => exact outcome_get_checkEof h fun _ _ _ _ hopen => ih _ hopen

theorem outcome_getNumber (width : Nat) (h : Open n m br) :
    Meets br (getNumber width : Action σ Nat) (Outcome n m fun _ => True) :=
  outcome_getBytes width 0 h

/-- A string that may have been read from `n` bytes. -/
def ReadFrom (n : Nat) (s : List Byte) : Prop := s.length ≤ n

theorem outcome_getStringLoop (len : Nat) (result : List Byte) (h : Open n m br)
    (hshort : result.length + m ≤ n) :
    Meets br (getStringLoop len result : Action σ (List Byte)) (Outcome n m (ReadFrom n)) := by
  induction len generalizing result m br with
  | zero => exact outcome_pure h (by unfold ReadFrom; omega)
  | succ len ih =>
    refine outcome_get_checkEof h fun c m' br' hm hopen => ih _ hopen ?_
    rw [List.length_append, List.length_singleton]
    omega

theorem outcome_getString (len : Nat) (h : Open n m br) :
    Meets br (getString len : Action σ (List Byte)) (Outcome n m (ReadFrom n)) :=
  outcome_getStringLoop len [] h (by simpa using h.le)

/-- Every round reads a byte. -/
theorem outcome_getStringUntil (fuel : Nat) (result : List Byte) (h : Open n m br)
    (hfuel : m < fuel) (hshort : result.length + m ≤ n) :
    Meets br (getStringUntil fuel result) (Outcome n m (ReadFrom n)) := by
  induction fuel generalizing result m br with
  | zero => exact absurd hfuel (Nat.not_lt_zero m)
  | succ fuel ih =>
    refine outcome_get_bind h (stops_checkEof_bind _) ?_
    intro c m' br' hm hopen hc
    refine .ite (fun _ => outcome_pure hopen (by unfold ReadFrom; omega)) fun _ => ?_
    refine outcome_checkEof_bind hc (ih _ hopen (by omega) ?_)
    rw [List.length_append, List.length_singleton]
    omega

/-- The length of a string in front of it. -/
theorem outcome_getNumber_getString (width : Nat) (h : Open n m br) :
    Meets br (getNumber width >>= fun len => getString len : Action σ (List Byte))
      (Outcome n m (ReadFrom n)) :=
  outcome_bind (outcome_getNumber width h) fun len _ _ _ _ hopen => outcome_getString len hopen

theorem outcome_getCborString {fuel : Nat} {c : Byte} (hc : br.current = some c)
    (h : Open n m br) (hm : m < n) (hfuel : m < fuel) :
    Meets br (getCborString fuel) (Outcome n m (ReadFrom n)) := by
  refine outcome_checkEof_bind hc ?_
  refine .ite (fun _ => outcome_getString _ h) fun _ => ?_
  refine .ite (fun _ => outcome_getNumber_getString 1 h) fun _ => ?_
  refine .ite (fun _ => outcome_getNumber_getString 2 h) fun _ => ?_
  refine .ite (fun _ => outcome_getNumber_getString 4 h) fun _ => ?_
  refine .ite (fun _ => outcome_getNumber_getString 8 h) fun _ => ?_
  refine .ite (fun _ => outcome_getStringUntil fuel [] h hfuel (by simpa using h.le)) fun _ => ?_
  exact outcome_throwParseError h hm _ _

/-! ## The loops that fill containers -/

variable {fuel : Nat} {item : Action σ Json} {key : Action σ (List Byte)}

/-- A value that may have been read from `n` bytes: where so many always have room in an entry, its
keys do. -/
def Fits (n : Nat) (j : Json) : Prop := n + 25 < 2 ^ 32 → j.All Json.NodeFits

theorem fits_assign {result : StringMap Json} (hresult : Fits n (.object result)) {k : Key}
    (hk : ReadFrom n k) {j : Json} (hj : Fits n j) : Fits n (.object (Json.assign result k j)) := by
  intro hn
  have hlength : k.length ≤ n := hk
  exact Json.fits_assign (hresult hn) (Json.entryFits_iff.2 (by omega)) (hj hn)

theorem fits_concat {result : List Json} (hresult : ∀ x ∈ result, Fits n x) {j : Json}
    (hj : Fits n j) : ∀ x ∈ result ++ [j], Fits n x := by
  intro x hx
  rcases List.mem_append.1 hx with hx | hx
  · exact hresult x hx
  · rw [List.mem_singleton.1 hx]
    exact hj

theorem fits_array {result : List Json} (hresult : ∀ x ∈ result, Fits n x) :
    Fits n (.array result) :=
  fun hn => Json.fits_array fun x hx => hresult x hx hn

theorem fits_empty : Fits n (.object .empty) := fun _ => Json.fits_empty

/-- What the reader of an item is good for, with more than `fuel` bytes left it may give up. -/
def Reads (n fuel : Nat) (item : Action σ Json) : Prop :=
  ∀ m br, Open n m br → m < fuel → Meets br item (Outcome n m (Fits n))

/-- The same for what goes on with the character that has been read. -/
def ReadsOn (n fuel : Nat) (P : α → Prop) (x : Action σ α) : Prop :=
  (∀ m br c, br.current = some c → Open n m br → m < n → m < fuel →
    Meets br x (Outcome n m P)) ∧ Stops x

theorem readsOn_getCborString (fuel : Nat) :
    ReadsOn n fuel (ReadFrom n) (getCborString fuel : Action σ (List Byte)) := by
  constructor
  · intro m br c hc h hm hfuel
    exact outcome_getCborString hc h hm hfuel
  · exact stops_checkEof_bind _

theorem outcome_readElements (hitem : Reads n fuel item) (len : Nat) {result : List Json}
    (hresult : ∀ x ∈ result, Fits n x) (h : Open n m br) (hfuel : m < fuel) :
    Meets br (readElements item len result) (Outcome n m (Fits n)) := by
  induction len generalizing result m br with
  | zero => exact outcome_pure h (fits_array hresult)
  | succ len ih =>
    refine outcome_bind (hitem m br h hfuel) ?_
    intro j m' br' hj hm hopen
    exact ih (fits_concat hresult hj) hopen (by omega)

theorem outcome_pair {γ : Type} {R : γ → Prop} {f : List Byte → Json → Action σ γ}
    (hkey : ReadsOn n fuel (ReadFrom n) key) (hitem : Reads n fuel item) {c : Byte}
    (hc : br.current = some c) (h : Open n m br) (hm : m < n) (hfuel : m < fuel)
    (hf : ∀ k j m' br', ReadFrom n k → Fits n j → m' ≤ m → Open n m' br' →
      Meets br' (f k j) (Outcome n m' R)) :
    Meets br (key >>= fun k => item >>= fun j => f k j) (Outcome n m R) := by
  refine outcome_bind (hkey.1 m br c hc h hm hfuel) ?_
  intro k m₁ br₁ hk hm₁ hopen₁
  refine outcome_bind (hitem m₁ br₁ hopen₁ (by omega)) ?_
  intro j m₂ br₂ hj hm₂ hopen₂
  exact hf k j m₂ br₂ hk hj (by omega) hopen₂

theorem outcome_readMembers (hkey : ReadsOn n fuel (ReadFrom n) key) (hitem : Reads n fuel item)
    (len : Nat) {result : StringMap Json} (hresult : Fits n (.object result)) (h : Open n m br)
    (hmn : m < n) (hfuel : m < fuel) :
    Meets br (readMembers key item len result) (Outcome n m (Fits n)) := by
  induction len generalizing result m br with
  | zero => exact outcome_pure h hresult
  | succ len ih =>
    refine outcome_get_bind h (hkey.2.bind _) ?_
    intro c m' br' hm hopen hc
    refine outcome_pair hkey hitem hc hopen (by omega) (by omega) ?_
    intro k j m₂ br₂ hk hj hm₂ hopen₂
    exact ih (fits_assign hresult hk hj) hopen₂ (by omega) (by omega)

/-- Every round reads the byte that an item goes on with. -/
theorem outcome_readElementsUntil (hitem : ReadsOn n fuel (Fits n) item) (rounds : Nat)
    {result : List Json} (hresult : ∀ x ∈ result, Fits n x) (h : Open n m br)
    (hrounds : m < rounds) (hfuel : m ≤ fuel) :
    Meets br (readElementsUntil item rounds result) (Outcome n m (Fits n)) := by
  induction rounds generalizing result m br with
  | zero => exact absurd hrounds (Nat.not_lt_zero m)
  | succ rounds ih =>
    have hn := h.charsRead_eq
    refine outcome_get_bind h (hitem.2.bind _) ?_
    intro c m' br' hm hopen hc
    refine .ite (fun _ => outcome_pure hopen (fits_array hresult)) fun _ => ?_
    refine outcome_bind (hitem.1 m' br' c hc hopen (by omega) (by omega)) ?_
    intro j m₂ br₂ hj hm₂ hopen₂
    exact ih (fits_concat hresult hj) hopen₂ (by omega) (by omega)

theorem outcome_readMembersUntil (hkey : ReadsOn n fuel (ReadFrom n) key) (hitem : Reads n fuel item)
    (rounds : Nat) {result : StringMap Json} (hresult : Fits n (.object result)) (h : Open n m br)
    (hrounds : m < rounds) (hfuel : m ≤ fuel) :
    Meets br (readMembersUntil key item rounds result) (Outcome n m (Fits n)) := by
  induction rounds generalizing result m br with
  | zero => exact absurd hrounds (Nat.not_lt_zero m)
  | succ rounds ih =>
    have hn := h.charsRead_eq
    refine outcome_get_bind h (hkey.2.bind _) ?_
    intro c m' br' hm hopen hc
    refine .ite (fun _ => outcome_pure hopen hresult) fun _ => ?_
    refine outcome_pair hkey hitem hc hopen (by omega) (by omega) ?_
    intro k j m₂ br₂ hk hj hm₂ hopen₂
    exact ih (fits_assign hresult hk hj) hopen₂ (by omega) (by omega)

/-! ## What comes after a head -/

theorem outcome_getNumber_pure (width : Nat) {f : Nat → Json} (hf : ∀ k, Fits n (f k))
    (h : Open n m br) :
    Meets br (getNumber width >>= fun k => pure (f k) : Action σ Json) (Outcome n m (Fits n)) :=
  outcome_bind (outcome_getNumber width h) fun k _ _ _ _ hopen => outcome_pure hopen (hf k)

theorem outcome_getNumber_readElements (width : Nat) (hitem : Reads n fuel item)
    (h : Open n m br) (hfuel : m < fuel) :
    Meets br (getNumber width >>= fun len => readElements item len []) (Outcome n m (Fits n)) :=
  outcome_bind (outcome_getNumber width h) fun _ _ _ _ hle hopen =>
    outcome_readElements hitem _ (fun _ hx => by cases hx) hopen (by omega)

theorem outcome_getNumber_readMembers (width : Nat) (hkey : ReadsOn n fuel (ReadFrom n) key)
    (hitem : Reads n fuel item) (h : Open n m br) (hm : m < n) (hfuel : m < fuel) :
    Meets br (getNumber width >>= fun len => readMembers key item len .empty)
      (Outcome n m (Fits n)) :=
  outcome_bind (outcome_getNumber width h) fun _ _ _ _ hle hopen =>
    outcome_readMembers hkey hitem _ fits_empty hopen (by omega) (by omega)

/-! ## CBOR -/

theorem fits_cborSingle {c : Nat} {j : Json} (hj : CborSingle c j) : Fits n j := by
  intro _
  cases hj with
  | _ => exact ⟨trivial, trivial⟩

theorem fits_cborNumber {width : Nat} {f : Nat → Json} (hf : CborNumber width f) (k : Nat) :
    Fits n (f k) := by
  intro _
  cases hf with
  | _ => exact ⟨trivial, trivial⟩

theorem outcome_parseCborItem {parse : Bool → Action σ Json} (htrue : Reads n fuel (parse true))
    (hfalse : ReadsOn n (fuel - 1) (Fits n) (parse false)) {c : Byte} (hc : br.current = some c)
    (h : Open n m br) (hm : m < n) (hfuel : m < fuel) :
    Meets br (parseCborItem fuel parse c.toNat) (Outcome n m (Fits n)) := by
  have hkey : ReadsOn n fuel (ReadFrom n) (getCborString fuel : Action σ (List Byte)) :=
    readsOn_getCborString fuel
  have hnil : ∀ x ∈ ([] : List Json), Fits n x := fun _ hx => by cases hx
  have hbranches : CborBranches
      (fun x (_ : Unit → Action σ Json) => Meets br x (Outcome n m (Fits n)))
      fuel parse (fun _ => fuel) (fun _ => parse) c.toNat :=
    { value := fun j hj => outcome_pure h (fits_cborSingle hj)
      number := fun width f hf => outcome_getNumber_pure width (fits_cborNumber hf) h
      string := fun _ => outcome_bind (outcome_getCborString hc h hm hfuel)
        fun _ _ _ _ _ hopen => outcome_pure hopen fun _ => ⟨trivial, trivial⟩
      elements := fun len => outcome_readElements htrue len hnil h hfuel
      numberElements := fun width => outcome_getNumber_readElements width htrue h hfuel
      elementsUntil := outcome_readElementsUntil hfalse _ hnil h hfuel (by omega)
      members := fun len => outcome_readMembers hkey htrue len fits_empty h hm hfuel
      numberMembers := fun width => outcome_getNumber_readMembers width hkey htrue h hm hfuel
      membersUntil := outcome_readMembersUntil hkey htrue _ fits_empty h hfuel (by omega)
      error := fun id whatArg => outcome_throwParseError h hm id whatArg }
  exact hbranches.parseCborItem

/-- With a character read there is less fuel and there are fewer bytes. -/
theorem reads_parseCbor (fuel : Nat) : Reads n fuel (parseCbor fuel true : Action σ Json) ∧
    (0 < fuel → ReadsOn n (fuel - 1) (Fits n) (parseCbor fuel false : Action σ Json)) := by
  induction fuel with
  | zero =>
    constructor
    · intro m br _ hm
      exact absurd hm (Nat.not_lt_zero m)
    · intro hpos
      exact absurd hpos (Nat.lt_irrefl 0)
  | succ fuel ih =>
    have hitem {m : Nat} {br : BinaryReader σ} {c : Byte} (hc : br.current = some c)
        (h : Open n m br) (hm : m < n) (hfuel : m < fuel) :
        Meets br (parseCborItem fuel (parseCbor fuel) c.toNat) (Outcome n m (Fits n)) :=
      outcome_parseCborItem ih.1 (ih.2 (by omega)) hc h hm hfuel
    constructor
    · intro m br h hfuel
      have hn := h.charsRead_eq
      refine outcome_get_bind h stops_throwParseError ?_
      intro c m' br' hm hopen hc
      exact hitem hc hopen (by omega) (by omega)
    · intro _
      constructor
      · rintro m ⟨is, current, charsRead⟩ c hc h hm hfuel
        obtain rfl : current = some c := hc
        exact hitem rfl h hm hfuel
      · exact stops_parseCbor fuel

/-! ## MessagePack -/

theorem fits_msgpackSingle {c : Nat} {j : Json} (hj : MsgpackSingle c j) : Fits n j := by
  intro _
  cases hj with
  | _ => exact ⟨trivial, trivial⟩

theorem fits_msgpackNumber {width : Nat} {f : Nat → Json} (hf : MsgpackNumber width f) (k : Nat) :
    Fits n (f k) := by
  intro _
  cases hf with
  | _ => exact ⟨trivial, trivial⟩

theorem readsOn_getMsgpackString :
    ReadsOn n fuel (ReadFrom n) (getMsgpackString : Action σ (List Byte)) := by
  constructor
  · intro m br c hc h hm _
    refine outcome_checkEof_bind hc ?_
    refine .ite (fun _ => outcome_getString _ h) fun _ => ?_
    refine .ite (fun _ => outcome_getNumber_getString 1 h) fun _ => ?_
    refine .ite (fun _ => outcome_getNumber_getString 2 h) fun _ => ?_
    refine .ite (fun _ => outcome_getNumber_getString 4 h) fun _ => ?_
    exact outcome_throwParseError h hm _ _
  · exact stops_checkEof_bind _

theorem outcome_parseMsgpackItem {parse : Action σ Json} (hparse : Reads n fuel parse) {c : Byte}
    (hc : br.current = some c) (h : Open n m br) (hm : m < n) (hfuel : m < fuel) :
    Meets br (parseMsgpackItem parse c.toNat) (Outcome n m (Fits n)) := by
  have hkey : ReadsOn n fuel (ReadFrom n) (getMsgpackString : Action σ (List Byte)) :=
    readsOn_getMsgpackString
  have hnil : ∀ x ∈ ([] : List Json), Fits n x := fun _ hx => by cases hx
  have hbranches : MsgpackBranches
      (fun x (_ : Unit → Action σ Json) => Meets br x (Outcome n m (Fits n)))
      parse (fun _ => parse) c.toNat :=
    { value := fun j hj => outcome_pure h (fits_msgpackSingle hj)
      number := fun width f hf => outcome_getNumber_pure width (fits_msgpackNumber hf) h
      string := outcome_bind (hkey.1 m br c hc h hm hfuel)
        fun _ _ _ _ _ hopen => outcome_pure hopen fun _ => ⟨trivial, trivial⟩
      elements := fun len => outcome_readElements hparse len hnil h hfuel
      numberElements := fun width => outcome_getNumber_readElements width hparse h hfuel
      members := fun len => outcome_readMembers hkey hparse len fits_empty h hm hfuel
      numberMembers := fun width => outcome_getNumber_readMembers width hkey hparse h hm hfuel
      error := fun id whatArg => outcome_throwParseError h hm id whatArg }
  exact hbranches.parseMsgpackItem

theorem reads_parseMsgpack (fuel : Nat) : Reads n fuel (parseMsgpack fuel : Action σ Json) := by
  induction fuel with
  | zero =>
    intro m br _ hm
    exact absurd hm (Nat.not_lt_zero m)
  | succ fuel ih =>
    intro m br h hfuel
    have hn := h.charsRead_eq
    refine outcome_get_bind h stops_throwParseError ?_
    intro c m' br' hm hopen hc
    exact outcome_parseMsgpackItem ih hc hopen (by omega) (by omega)

/-! ## Whole inputs -/

theorem open_new {is : σ} (he : RawIstream.hasError is = false) (hasked : Asked is 0) :
    Open (ByteSource.content is).length (ByteSource.content is).length (BinaryReader.new is) :=
  ⟨he, rfl, Nat.zero_add _, hasked⟩

theorem documented_of_outcome (hn : n + 25 < 2 ^ 32) {r : Except Failure Json}
    (h : Outcome n m (Fits n) r br) : Json.Documented n false r ∧ Within n br.is := by
  cases r with
  | ok j =>
    obtain ⟨hfits, m', -, hopen⟩ := h
    have hread := hopen.charsRead_eq
    exact ⟨.value j (Json.keysFit_of_all (hfits hn)), br.charsRead, by omega, hopen.asked⟩
  | error e =>
    obtain ⟨⟨e', rfl, htype, hpos, hle⟩, hwithin⟩ := h
    exact ⟨.parseError e' htype hpos hle, hwithin⟩

end BinaryReader

namespace Json

open BinaryReader MeteredSource

variable {σ : Type} [MeteredSource σ] (is : σ)

theorem documented_fromCbor (hn : (ByteSource.content is).length + 25 < 2 ^ 32)
    (he : RawIstream.hasError is = false) (hasked : Asked is 0) :
    Documented (ByteSource.content is).length false (fromCbor is).1 ∧
      Within (ByteSource.content is).length (fromCbor is).2 :=
  documented_of_outcome hn ((reads_parseCbor _).1 _ _ (open_new he hasked) (Nat.lt_succ_self _))

theorem documented_fromMsgpack (hn : (ByteSource.content is).length + 25 < 2 ^ 32)
    (he : RawIstream.hasError is = false) (hasked : Asked is 0) :
    Documented (ByteSource.content is).length false (fromMsgpack is).1 ∧
      Within (ByteSource.content is).length (fromMsgpack is).2 :=
  documented_of_outcome hn (reads_parseMsgpack _ _ _ (open_new he hasked) (Nat.lt_succ_self _))

end Json

end Wpi
