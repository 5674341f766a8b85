import WpiUtil.Foundations.Following
import WpiUtil.Json.Proofs.MsgpackProofs
import WpiUtil.Json.Proofs.ReplayProofs

/-!
# Truncated encodings

A reader of the first bytes of an input follows a reader of the whole input until it meets the end:
it takes every value that is missing bytes for an input that has ended unexpectedly.
-/

namespace Wpi

namespace BinaryReader

open Foundations

variable {σ τ α : Type} [ByteSource σ] [ByteSource τ] {n m fuel : Nat} {r : List Byte}
  {br : BinaryReader σ} {br' : BinaryReader τ}

/-- The exception at the end of an input of `n` bytes. -/
def EndOfInput (n : Nat) (e : Failure) : Prop :=
  e = .thrown (parseError 110 (n + 1) (bytes "unexpected end of input"))

/-- At most `m` of the `n` bytes of the input are left; the other reader has `r` after them. -/
structure Short (n : Nat) (r : List Byte) (m : Nat) (br : BinaryReader σ) (br' : BinaryReader τ) :
    Prop where
  current_eq : br'.current = br.current
  hasError : RawIstream.hasError br.is = false
  hasError' : RawIstream.hasError br'.is = false
  content_eq : ByteSource.content br'.is = ByteSource.content br.is ++ r
  charsRead_eq : br.charsRead + (ByteSource.content br.is).length = n
  length_le : (ByteSource.content br.is).length ≤ m

theorem Short.mono {m' : Nat} (h : Short n r m br br') (hm : m ≤ m') : Short n r m' br br' :=
  ⟨h.current_eq, h.hasError, h.hasError', h.content_eq, h.charsRead_eq, h.length_le.trans hm⟩

/-- The reader of the first bytes returns the same, or it meets the end of the input. -/
abbrev Tracks (n : Nat) (r : List Byte) (m : Nat) (br : BinaryReader σ) (br' : BinaryReader τ)
    (x : Action σ α) (y : Action τ α) : Prop :=
  Follows (EndOfInput n) (Short n r m) br br' x y

/-! ## Reading one character -/

theorem tracks_get_bind {f : Option Byte → Action σ α} {g : Option Byte → Action τ α}
    (h : Short n r m br br') (hnone : Stops (f none))
    (hsome : ∀ c m' s t, m = m' + 1 → Short n r m' s t → s.current = some c →
      Tracks n r m' s t (f (some c)) (g (some c))) :
    Tracks n r m br br' (get >>= f) (get >>= g) := by
  have hread := h.charsRead_eq
  rcases run_get_cases br h.hasError with
    ⟨hcontent, s, hget, hcurrent, hread', -⟩ |
    ⟨c, bs, s, hcontent, hget, hcurrent, hread', he, hcontent'⟩
  · rw [hcontent, List.length_nil, Nat.add_zero] at hread
    have hstop : (get >>= f).run.run br = (f none).run.run s := by
      rw [run_bind, hget]
    rw [hnone s hcurrent, hread', hread] at hstop
    exact follows_of_error hstop rfl
  · have hlong : ByteSource.content br'.is = c :: (bs ++ r) := by
      rw [h.content_eq, hcontent, List.cons_append]
    obtain ⟨is', hget', he', hrest⟩ := run_get h.hasError' hlong
    have hle := h.length_le
    rw [hcontent, List.length_cons] at hread hle
    obtain ⟨m, rfl⟩ : ∃ k, m = k + 1 := ⟨m - 1, by omega⟩
    have hshort : Short n r m s ⟨is', some c, br'.charsRead + 1⟩ :=
      { current_eq := hcurrent.symm
        hasError := he
        hasError' := he'
        content_eq := by rw [hcontent']; exact hrest
        charsRead_eq := by rw [hcontent', hread']; omega
        length_le := by rw [hcontent']; omega }
    have hnext := hsome c m s _ rfl hshort hcurrent
    intro a t' hrun
    rw [run_bind, hget'] at hrun
    rw [run_bind, hget]
    exact hnext.mono (fun _ _ hs => hs.mono (Nat.le_succ m)) a t' hrun

theorem tracks_checkEof_bind {f : Byte → Action σ α} {g : Byte → Action τ α} {c : Byte}
    (hc : br.current = some c) (h : Short n r m br br') (hf : Tracks n r m br br' (f c) (g c)) :
    Tracks n r m br br' (checkEof >>= f) (checkEof >>= g) := by
  have hc' : br'.current = some c := h.current_eq.trans hc
  obtain ⟨is, current, charsRead⟩ := br
  obtain ⟨is', current', charsRead'⟩ := br'
  obtain rfl : current = some c := hc
  obtain rfl : current' = some c := hc'
  exact hf

/-- A character that has to be there. -/
theorem tracks_get_checkEof {f : Byte → Action σ α} {g : Byte → Action τ α}
    (h : Short n r m br br')
    (hf : ∀ c m' s t, m = m' + 1 → Short n r m' s t → Tracks n r m' s t (f c) (g c)) :
    Tracks n r m br br' (get >>= fun _ => checkEof >>= f) (get >>= fun _ => checkEof >>= g) :=
  tracks_get_bind h (stops_checkEof_bind f)
    fun c m' s t hm hs hc => tracks_checkEof_bind hc hs (hf c m' s t hm hs)

/-! ## Numbers and strings -/

theorem tracks_getBytes (width acc : Nat) (h : Short n r m br br') :
    Tracks n r m br br' (getBytes width acc) (getBytes width acc) := by
  induction width generalizing acc m br br' with
  | zero => exact follows_pure acc h
  | succ width ih => exact tracks_get_checkEof h fun _ _ _ _ _ hs => ih _ hs

theorem tracks_getNumber (width : Nat) (h : Short n r m br br') :
    Tracks n r m br br' (getNumber width) (getNumber width) := tracks_getBytes width 0 h

theorem tracks_getStringLoop (len : Nat) (result : List Byte) (h : Short n r m br br') :
    Tracks n r m br br' (getStringLoop len result) (getStringLoop len result) := by
  induction len generalizing result m br br' with
  | zero => exact follows_pure result h
  | succ len ih => exact tracks_get_checkEof h fun _ _ _ _ _ hs => ih _ hs

theorem tracks_getString (len : Nat) (h : Short n r m br br') :
    Tracks n r m br br' (getString len) (getString len) := tracks_getStringLoop len [] h

theorem tracks_getNumber_bind (width : Nat) {f : Nat → Action σ α} {g : Nat → Action τ α}
    (h : Short n r m br br') (hf : ∀ k s t, Short n r m s t → Tracks n r m s t (f k) (g k)) :
    Tracks n r m br br' (getNumber width >>= f) (getNumber width >>= g) :=
  (tracks_getNumber width h).bind hf

theorem tracks_getStringUntil (fuel' : Nat) (result : List Byte) (h : Short n r m br br')
    (hfuel : m < fuel) :
    Tracks n r m br br' (getStringUntil fuel result) (getStringUntil fuel' result) := by
  induction fuel generalizing fuel' result m br br' with
  | zero => exact absurd hfuel (Nat.not_lt_zero m)
  | succ fuel ih =>
    cases fuel' with
    | zero => exact follows_throw _
    | succ fuel' =>
      refine tracks_get_bind h (stops_checkEof_bind _) ?_
      intro c m' s t hm hs hc
      refine .ite (fun _ => follows_pure _ hs) fun _ => ?_
      exact tracks_checkEof_bind hc hs (ih fuel' _ hs (by omega))

/-- What an action is good for that reads on its own. -/
def Follower (n : Nat) (r : List Byte) (fuel : Nat) (x : Action σ α) (y : Action τ α) : Prop :=
  ∀ m br br', Short n r m br br' → m < fuel → Tracks n r m br br' x y

/-- The same for an action that goes on with the character that has been read. -/
structure FollowerOn (n : Nat) (r : List Byte) (fuel : Nat) (x : Action σ α) (y : Action τ α) :
    Prop where
  tracks : ∀ m br br' c, br.current = some c → Short n r m br br' → m < fuel →
    Tracks n r m br br' x y
  stops : Stops x

theorem followerOn_getCborString (fuel fuel' : Nat) :
    FollowerOn n r fuel (getCborString fuel : Action σ (List Byte))
      (getCborString fuel' : Action τ (List Byte)) := by
  refine ⟨?_, stops_checkEof_bind _⟩
  intro m br br' c hc h hfuel
  have hnumber (width : Nat) : Tracks n r m br br' (getNumber width >>= getString)
      (getNumber width >>= getString) :=
    tracks_getNumber_bind width h fun _ _ _ hs => tracks_getString _ hs
  refine tracks_checkEof_bind hc h ?_
  refine .ite (fun _ => tracks_getString _ h) fun _ => ?_
  refine .ite (fun _ => hnumber 1) fun _ => ?_
  refine .ite (fun _ => hnumber 2) fun _ => ?_
  refine .ite (fun _ => hnumber 4) fun _ => ?_
  refine .ite (fun _ => hnumber 8) fun _ => ?_
  refine .ite (fun _ => tracks_getStringUntil fuel' [] h hfuel) fun _ => ?_
  exact follows_throw _

theorem followerOn_getMsgpackString :
    FollowerOn n r fuel (getMsgpackString : Action σ (List Byte))
      (getMsgpackString : Action τ (List Byte)) := by
  refine ⟨?_, stops_checkEof_bind _⟩
  intro m br br' c hc h _
  have hnumber (width : Nat) : Tracks n r m br br' (getNumber width >>= getString)
      (getNumber width >>= getString) :=
    tracks_getNumber_bind width h fun _ _ _ hs => tracks_getString _ hs
  refine tracks_checkEof_bind hc h ?_
  refine .ite (fun _ => tracks_getString _ h) fun _ => ?_
  refine .ite (fun _ => hnumber 1) fun _ => ?_
  refine .ite (fun _ => hnumber 2) fun _ => ?_
  refine .ite (fun _ => hnumber 4) fun _ => ?_
  exact follows_throw _

/-! ## The loops that fill containers -/

variable {item : Action σ Json} {item' : Action τ Json} {key : Action σ (List Byte)}
  {key' : Action τ (List Byte)}

theorem tracks_readElements (hitem : Follower n r fuel item item') (len : Nat)
    (result : List Json) (h : Short n r m br br') (hfuel : m < fuel) :
    Tracks n r m br br' (readElements item len result) (readElements item' len result) := by
  induction len generalizing result br br' with
  | zero => exact follows_pure _ h
  | succ len ih => exact (hitem m br br' h hfuel).bind fun j _ _ hs => ih _ hs

theorem tracks_pair {f : List Byte → Json → Action σ α} {g : List Byte → Json → Action τ α}
    (hkey : FollowerOn n r fuel key key') (hitem : Follower n r fuel item item') {c : Byte}
    (hc : br.current = some c) (h : Short n r m br br') (hfuel : m < fuel)
    (hf : ∀ k j s t, Short n r m s t → Tracks n r m s t (f k j) (g k j)) :
    Tracks n r m br br' (key >>= fun k => item >>= fun j => f k j)
      (key' >>= fun k => item' >>= fun j => g k j) :=
  (hkey.tracks m br br' c hc h hfuel).bind fun k _ _ hs =>
    (hitem m _ _ hs hfuel).bind fun j _ _ hs' => hf k j _ _ hs'

theorem tracks_readMembers (hkey : FollowerOn n r fuel key key')
    (hitem : Follower n r fuel item item') (len : Nat) (result : StringMap Json)
    (h : Short n r m br br') (hfuel : m < fuel) :
    Tracks n r m br br' (readMembers key item len result) (readMembers key' item' len result) := by
  induction len generalizing result m br br' with
  | zero => exact follows_pure _ h
  | succ len ih =>
    refine tracks_get_bind h (hkey.stops.bind _) ?_
    intro c m' s t hm hs hc
    exact tracks_pair hkey hitem hc hs (by omega) fun k j _ _ hs' => ih _ hs' (by omega)

theorem tracks_readElementsUntil (hitem : FollowerOn n r fuel item item') (rounds rounds' : Nat)
    (result : List Json) (h : Short n r m br br') (hrounds : m < rounds) (hfuel : m ≤ fuel) :
    Tracks n r m br br' (readElementsUntil item rounds result)
      (readElementsUntil item' rounds' result) := by
  induction rounds generalizing rounds' result m br br' with
  | zero => exact absurd hrounds (Nat.not_lt_zero m)
  | succ rounds ih =>
    cases rounds' with
    | zero => exact follows_throw _
    | succ rounds' =>
      refine tracks_get_bind h (hitem.stops.bind _) ?_
      intro c m' s t hm hs hc
      refine .ite (fun _ => follows_pure _ hs) fun _ => ?_
      refine (hitem.tracks m' s t c hc hs (by omega)).bind ?_
      intro j _ _ hs'
      exact ih rounds' _ hs' (by omega) (by omega)

theorem tracks_readMembersUntil (hkey : FollowerOn n r fuel key key')
    (hitem : Follower n r fuel item item') (rounds rounds' : Nat) (result : StringMap Json)
    (h : Short n r m br br') (hrounds : m < rounds) (hfuel : m ≤ fuel) :
    Tracks n r m br br' (readMembersUntil key item rounds result)
      (readMembersUntil key' item' rounds' result) := by
  induction rounds generalizing rounds' result m br br' with
  | zero => exact absurd hrounds (Nat.not_lt_zero m)
  | succ rounds ih =>
    cases rounds' with
    | zero => exact follows_throw _
    | succ rounds' =>
      refine tracks_get_bind h (hkey.stops.bind _) ?_
      intro c m' s t hm hs hc
      refine .ite (fun _ => follows_pure _ hs) fun _ => ?_
      refine tracks_pair hkey hitem hc hs (by omega) ?_
      intro k j _ _ hs'
      exact ih rounds' _ hs' (by omega) (by omega)

/-! ## Values -/

theorem tracks_parseCborItem {parse : Bool → Action σ Json} {parse' : Bool → Action τ Json}
    (fuel' : Nat) (htrue : Follower n r fuel (parse true) (parse' true))
    (hfalse : FollowerOn n r (fuel - 1) (parse false) (parse' false)) {c : Byte}
    (hc : br.current = some c) (h : Short n r m br br') (hfuel : m < fuel) :
    Tracks n r m br br' (parseCborItem fuel parse c.toNat)
      (parseCborItem fuel' parse' c.toNat) := by
  have hkey : FollowerOn n r fuel (getCborString fuel : Action σ (List Byte))
      (getCborString fuel' : Action τ (List Byte)) := followerOn_getCborString fuel fuel'
  have hbranches : CborBranches (fun x y => Tracks n r m br br' x (y ())) fuel parse
      (fun _ => fuel') (fun _ => parse') c.toNat :=
    { value := fun j _ => follows_pure j h
      number := fun width f _ => tracks_getNumber_bind width h fun k _ _ hs =>
        follows_pure (f k) hs
      string := fun _ => (hkey.tracks m br br' c hc h hfuel).bind fun k _ _ hs => follows_pure _ hs
      elements := fun len => tracks_readElements htrue len [] h hfuel
      numberElements := fun width => tracks_getNumber_bind width h fun len _ _ hs =>
        tracks_readElements htrue len [] hs hfuel
      elementsUntil := tracks_readElementsUntil hfalse fuel fuel' [] h hfuel (by omega)
      members := fun len => tracks_readMembers hkey htrue len .empty h hfuel
      numberMembers := fun width => tracks_getNumber_bind width h fun len _ _ hs =>
        tracks_readMembers hkey htrue len .empty hs hfuel
      membersUntil := tracks_readMembersUntil hkey htrue fuel fuel' .empty h hfuel (by omega)
      error := fun id whatArg => follows_throw _ }
  exact hbranches.parseCborItem

/-- With a character read there is less fuel and there are fewer bytes. -/
theorem follower_parseCbor (fuel fuel' : Nat) :
    Follower n r fuel (parseCbor fuel true : Action σ Json)
      (parseCbor fuel' true : Action τ Json) ∧
    (0 < fuel → FollowerOn n r (fuel - 1) (parseCbor fuel false : Action σ Json)
      (parseCbor fuel' false : Action τ Json)) := by
  induction fuel generalizing fuel' with
  | zero =>
    constructor
    · intro m br br' _ hm
      exact absurd hm (Nat.not_lt_zero m)
    · intro hpos
      exact absurd hpos (Nat.lt_irrefl 0)
  | succ fuel ih =>
    have hitem {m : Nat} {br : BinaryReader σ} {br' : BinaryReader τ} {c : Byte} (fuel' : Nat)
        (hc : br.current = some c) (h : Short n r m br br') (hfuel : m < fuel) :
        Tracks n r m br br' (parseCborItem fuel (parseCbor fuel) c.toNat)
          (parseCborItem fuel' (parseCbor fuel') c.toNat) :=
      tracks_parseCborItem fuel' (ih fuel').1 ((ih fuel').2 (by omega)) hc h hfuel
    constructor
    · intro m br br' h hfuel
      cases fuel' with
      | zero => exact follows_throw _
      | succ fuel' =>
        refine tracks_get_bind h stops_throwParseError ?_
        intro c m' s t hm hs hc
        exact hitem fuel' hc hs (by omega)
    · intro _
      constructor
      · rintro m ⟨is, current, charsRead⟩ ⟨is', current', charsRead'⟩ c hc h hfuel
        obtain rfl : current = some c := hc
        obtain rfl : current' = some c := h.current_eq
        cases fuel' with
        | zero => exact follows_throw _
        | succ fuel' => exact hitem fuel' rfl h hfuel
      · exact stops_parseCbor fuel

theorem tracks_parseMsgpackItem {parse : Action σ Json} {parse' : Action τ Json}
    (hparse : Follower n r fuel parse parse') {c : Byte} (hc : br.current = some c)
    (h : Short n r m br br') (hfuel : m < fuel) :
    Tracks n r m br br' (parseMsgpackItem parse c.toNat) (parseMsgpackItem parse' c.toNat) := by
  have hkey : FollowerOn n r fuel (getMsgpackString : Action σ (List Byte))
      (getMsgpackString : Action τ (List Byte)) := followerOn_getMsgpackString
  have hbranches : MsgpackBranches (fun x y => Tracks n r m br br' x (y ())) parse
      (fun _ => parse') c.toNat :=
    { value := fun j _ => follows_pure j h
      number := fun width f _ => tracks_getNumber_bind width h fun k _ _ hs =>
        follows_pure (f k) hs
      string := (hkey.tracks m br br' c hc h hfuel).bind fun k _ _ hs => follows_pure _ hs
      elements := fun len => tracks_readElements hparse len [] h hfuel
      numberElements := fun width => tracks_getNumber_bind width h fun len _ _ hs =>
        tracks_readElements hparse len [] hs hfuel
      members := fun len => tracks_readMembers hkey hparse len .empty h hfuel
      numberMembers := fun width => tracks_getNumber_bind width h fun len _ _ hs =>
        tracks_readMembers hkey hparse len .empty hs hfuel
      error := fun id whatArg => follows_throw _ }
  exact hbranches.parseMsgpackItem

theorem follower_parseMsgpack (fuel fuel' : Nat) :
    Follower n r fuel (parseMsgpack fuel : Action σ Json) (parseMsgpack fuel' : Action τ Json) := by
  induction fuel generalizing fuel' with
  | zero =>
    intro m br br' _ hm
    exact absurd hm (Nat.not_lt_zero m)
  | succ fuel ih =>
    intro m br br' h hfuel
    cases fuel' with
    | zero => exact follows_throw _
    | succ fuel' =>
      refine tracks_get_bind h stops_throwParseError ?_
      intro c m' s t hm hs hc
      exact tracks_parseMsgpackItem (ih fuel') hc hs (by omega)

/-! ## Whole inputs -/

/-- Bytes are missing of what the other reader consumes. -/
theorem error_of_follower {x : Action σ Json} {y : Action RawMemIstream Json} {q : List Byte}
    {j : Json} {is : σ} (hx : Follower q.length r (q.length + 1) x y) (hy : Yields y (q ++ r) j)
    (hr : r ≠ []) (he : RawIstream.hasError is = false) (hcontent : ByteSource.content is = q) :
    ∃ br, x.run.run (BinaryReader.new is) =
      (.error (.thrown (parseError 110 (q.length + 1) (bytes "unexpected end of input"))), br) := by
  subst hcontent
  have hshort : Short (ByteSource.content is).length r (ByteSource.content is).length
      (BinaryReader.new is) (BinaryReader.new (RawMemIstream.ofBytes (ByteSource.content is ++ r))) :=
    ⟨rfl, he, rfl, rfl, Nat.zero_add _, Nat.le_refl _⟩
  obtain ⟨t, hrun, -, hnil⟩ := hy none
    (BinaryReader.new (RawMemIstream.ofBytes (ByteSource.content is ++ r))) [] rfl rfl
    (List.append_nil _).symm
  rcases hx _ _ _ hshort (Nat.lt_succ_self _) j t hrun with ⟨s, -, hs⟩ | ⟨e, br, hstop, rfl⟩
  · have happend := hs.content_eq
    rw [hnil] at happend
    exact absurd (List.append_eq_nil_iff.1 happend.symm).2 hr
  · exact ⟨br, hstop⟩

end BinaryReader

namespace Json

open BinaryReader

variable {σ : Type} [ByteSource σ]

/-- What is missing bytes is reported as an input that has ended unexpectedly, at the position after
the last byte. -/
theorem fromCbor_and_fromMsgpack_truncated (j : Json) (hwf : j.WF) (hd : j.NoDiscarded)
    (q : List Byte) (is : σ) (he : RawIstream.hasError is = false)
    (hcontent : ByteSource.content is = q) :
    (q <+: j.toCbor → q ≠ j.toCbor → (fromCbor is).1 =
      .error (.thrown (parseError 110 (q.length + 1) (bytes "unexpected end of input")))) ∧
    (j.Below32 → q <+: j.toMsgpack → q ≠ j.toMsgpack → (fromMsgpack is).1 =
      .error (.thrown (parseError 110 (q.length + 1) (bytes "unexpected end of input")))) := by
  constructor
  · rintro ⟨r, hr⟩ hne
    have hr' : r ≠ [] := by
      rintro rfl
      exact hne ((List.append_nil q).symm.trans hr)
    obtain ⟨j', -, hyields⟩ := yields_writeCbor (σ := RawMemIstream) j hwf hd _ (Nat.le_refl _)
    rw [toCbor] at hr
    rw [← hr] at hyields
    obtain ⟨br, hrun⟩ := error_of_follower (follower_parseCbor (σ := σ) (q.length + 1) _).1 hyields
      hr' he hcontent
    rw [fromCbor, hcontent, hrun]
  · rintro hlen ⟨r, hr⟩ hne
    have hr' : r ≠ [] := by
      rintro rfl
      exact hne ((List.append_nil q).symm.trans hr)
    obtain ⟨j', -, hyields⟩ :=
      yields_writeMsgpack (σ := RawMemIstream) j hwf hd hlen _ (Nat.le_refl _)
    rw [toMsgpack] at hr
    rw [← hr] at hyields
    obtain ⟨br, hrun⟩ := error_of_follower (follower_parseMsgpack (σ := σ) (q.length + 1) _) hyields
      hr' he hcontent
    rw [fromMsgpack, hcontent, hrun]

/-- `[-1, "ab"]` without the characters of the string. -/
theorem fromCbor_and_fromMsgpack_truncated_array :
    (fromCbor (RawMemIstream.ofBytes [0x82, 0x20, 0x62])).1 =
      .error (.thrown (parseError 110 4 (bytes "unexpected end of input"))) ∧
    (fromMsgpack (RawMemIstream.ofBytes [0x92, 0xff, 0xa2])).1 =
      .error (.thrown (parseError 110 4 (bytes "unexpected end of input"))) := by
  have hall {P : Json → Prop} (h : P (array [numberInteger (-1), string [0x61, 0x62]]))
      (hnumber : P (numberInteger (-1))) (hstring : P (string [0x61, 0x62])) :
      All P (array [numberInteger (-1), string [0x61, 0x62]]) :=
    ⟨h, hnumber, hstring, trivial⟩
  have hwf : (array [numberInteger (-1), string [0x61, 0x62]]).WF :=
    hall (show 2 < 2 ^ 64 by omega) trivial (show 2 < 2 ^ 64 by omega)
  have hd : (array [numberInteger (-1), string [0x61, 0x62]]).NoDiscarded := hall rfl rfl rfl
  have hlen : (array [numberInteger (-1), string [0x61, 0x62]]).Below32 :=
    hall (show 2 < 2 ^ 32 by omega) trivial (show 2 < 2 ^ 32 by omega)
  constructor
  · exact (fromCbor_and_fromMsgpack_truncated _ hwf hd _ _ rfl rfl).1 ⟨[0x61, 0x62], rfl⟩
      (by decide)
  · exact (fromCbor_and_fromMsgpack_truncated _ hwf hd _ _ rfl rfl).2 hlen
      ⟨[0x61, 0x62], rfl⟩ (by decide)

end Json

end Wpi
