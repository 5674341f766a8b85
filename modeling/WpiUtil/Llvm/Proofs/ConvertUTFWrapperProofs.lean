import WpiUtil.Llvm.ConvertUTFWrapper
import WpiUtil.Llvm.Proofs.ConvertUTFPiecesProofs
import WpiUtil.Llvm.Proofs.ConvertUTFTextProofs

/-!
# Whole strings through `ConvertUTF`
-/

namespace Wpi.ConvertUTF

open Foundations TextCode UnicodeForms ConversionResult ConversionFlags

/-! ## Room -/

theorem length_utf16_word (c : Char) :
    (utf16.word c).length = if c.toNat < 0x10000 then 1 else 2 := by
  by_cases h : c.toNat < 0x10000
  · rw [if_pos h]
    exact congrArg List.length (utf16Word_of_lt h)
  · rw [if_neg h]
    exact congrArg List.length (utf16Word_of_le (Nat.not_lt.1 h))

theorem length_utf8_word (c : Char) : (utf8.word c).length =
    if c.toNat ≤ 0x7f then 1 else if c.toNat ≤ 0x7ff then 2 else if c.toNat ≤ 0xffff then 3
    else 4 := by
  have hword : utf8.word c = Utf8.encodeNat c.toNat := rfl
  rw [hword, Utf8.encodeNat]
  split_ifs <;> rfl

theorem length_utf16_encode_le (cs : List Char) :
    (utf16.encode cs).length ≤ (utf8.encode cs).length := by
  rw [← Nat.one_mul (utf8.encode cs).length]
  refine length_encode_le (fun c => ?_) cs
  rw [length_utf16_word, length_utf8_word]
  split_ifs <;> omega

theorem length_utf8_encode_le (cs : List Char) :
    (utf8.encode cs).length ≤ 3 * (utf16.encode cs).length := by
  refine length_encode_le (fun c => ?_) cs
  rw [length_utf16_word, length_utf8_word]
  split_ifs <;> omega

theorem convertUTF8toUTF16_result_ne (s : List UInt8) {n : ℕ} (h : s.length ≤ n) :
    (convertUTF8toUTF16 s n strictConversion).result ≠ targetExhausted := by
  have heq : convertUTF8toUTF16 s n strictConversion =
    (utf8toUTF16 strictConversion).run n conversionOK s [] := convertUTF8toUTF16Loop_eq s []
  rw [heq]
  refine translates_utf8toUTF16.result_ne_full (m := 1) ?_ ?_ (unmarked_utf8toUTF16 _) s [] ?_
  · intro c
    rw [length_utf16_word, length_utf8_word]
    split_ifs <;> omega
  · intro a t room r hturn
    have hturn : turnUTF8toUTF16 strictConversion a t = .stop room r := hturn
    simp only [turnUTF8toUTF16, turnOfChar16, reduceIte] at hturn
    split_ifs at hturn
    all_goals
      rw [Turn.stop.injEq] at hturn
      obtain ⟨rfl, rfl⟩ := hturn
      exact ⟨by decide, by decide⟩
  · rw [List.length_nil]
    omega

theorem readUTF16_error_ne_full {s : List UInt16} {flags : ConversionFlags}
    {result : ConversionResult} (h : readUTF16 flags s = .error result) :
    result ≠ targetExhausted := by
  rcases s with _ | ⟨unit, _ | ⟨unit2, units⟩⟩
  · cases h
    decide
  all_goals
    unfold readUTF16 at h
    dsimp only at h
    split_ifs at h
    all_goals
      cases h
      decide

theorem convertUTF16toUTF8_result_ne (s : List UInt16) {n : ℕ} (h : 3 * s.length ≤ n) :
    (convertUTF16toUTF8 s n strictConversion).result ≠ targetExhausted := by
  have heq : convertUTF16toUTF8 s n strictConversion =
    (utf16toUTF8 strictConversion).run n conversionOK s [] := convertUTF16toUTF8Loop_eq s []
  rw [heq]
  refine translates_utf16toUTF8.result_ne_full (m := 3) ?_ ?_ (unmarked_fromUTF16 _ _) s [] ?_
  · intro c
    rw [length_utf16_word, length_utf8_word]
    split_ifs <;> omega
  · intro a t room r hturn
    have hturn : turnFromUTF16 bytesOf strictConversion a t = .stop room r := hturn
    unfold turnFromUTF16 at hturn
    cases hread : readUTF16 strictConversion (a :: t) with
    | error result =>
      rw [hread, Turn.stop.injEq] at hturn
      obtain ⟨rfl, rfl⟩ := hturn
      exact ⟨Nat.zero_le 3, readUTF16_error_ne_full hread⟩
    | ok p =>
      rw [hread] at hturn
      cases hturn
  · rw [List.length_nil]
    omega

/-! ## The results -/

/-- A call that succeeds for texts, and is not given too little room for one. -/
theorem stringResult_eq {α β : Type} {call : List α → ℕ → Conversion α β} {source : TextCode α}
    {target : TextCode β} (h : Transcodes call source target) {s : List α} {n : ℕ}
    (hroom : ∀ cs, s = source.encode cs → (target.encode cs).length ≤ n)
    (hfull : (call s n).result ≠ targetExhausted) :
    (∀ cs, s = source.encode cs → stringResult (call s n) = some (true, target.encode cs)) ∧
      ((∀ cs, s ≠ source.encode cs) → stringResult (call s n) = some (false, [])) := by
  constructor
  · intro cs hcs
    rw [(h s n).2 cs hcs (hroom cs hcs)]
    rfl
  · intro hno
    have hok : (call s n).result ≠ conversionOK := by
      rw [ne_eq, (h s n).1]
      rintro ⟨cs, hcs, -⟩
      exact hno cs hcs
    rw [stringResult, if_neg hfull, if_pos hok]

theorem convertUTF8ToUTF16String_eq (s : List UInt8) :
    (∀ cs, s = utf8.encode cs → convertUTF8ToUTF16String s = some (true, utf16.encode cs)) ∧
      ((∀ cs, s ≠ utf8.encode cs) → convertUTF8ToUTF16String s = some (false, [])) := by
  cases s with
  | nil =>
    refine ⟨fun cs hcs => ?_, fun hno => absurd rfl (hno [])⟩
    cases eq_nil_of_nil_eq_encode hcs
    rfl
  | cons a s =>
    refine stringResult_eq transcodes_utf8toUTF16 (s := a :: s) (fun cs hcs => ?_)
      (convertUTF8toUTF16_result_ne (a :: s) (Nat.le_succ _))
    have hle := length_utf16_encode_le cs
    rw [← hcs] at hle
    omega

theorem length_byteSwapped (src : List UInt16) : (byteSwapped src).length = src.length := by
  rw [byteSwapped, List.length_append, List.length_map, List.length_take, List.length_drop]
  have hle := Nat.mod_le src.length (2 ^ 32)
  omega

theorem length_nativeOrder (src : List UInt16) : (nativeOrder src).length = src.length := by
  rw [nativeOrder]
  split_ifs
  · exact length_byteSwapped src
  · rfl

theorem length_skipByteOrderMark_le (src : List UInt16) :
    (skipByteOrderMark src).length ≤ src.length := by
  have hlength := length_nativeOrder src
  rw [skipByteOrderMark]
  split_ifs
  · rw [List.length_tail]
    omega
  · exact Nat.le_of_eq hlength

theorem convertUTF16ToUTF8String_eq (u : List UInt16) :
    (∀ cs, skipByteOrderMark u = utf16.encode cs →
      convertUTF16ToUTF8String u = some (true, utf8.encode cs)) ∧
    ((∀ cs, skipByteOrderMark u ≠ utf16.encode cs) →
      convertUTF16ToUTF8String u = some (false, [])) := by
  cases u with
  | nil =>
    refine ⟨fun cs hcs => ?_, fun hno => absurd rfl (hno [])⟩
    cases eq_nil_of_nil_eq_encode (k := utf16) hcs
    rfl
  | cons a u =>
    have hskip := length_skipByteOrderMark_le (a :: u)
    have hfour : uniMaxUtf8BytesPerCodePoint = 4 := rfl
    have hroom : 3 * (skipByteOrderMark (a :: u)).length ≤
        (a :: u).length * uniMaxUtf8BytesPerCodePoint + 1 := by
      rw [hfour]
      omega
    refine stringResult_eq transcodes_utf16toUTF8 (s := skipByteOrderMark (a :: u))
      (fun cs hcs => ?_) (convertUTF16toUTF8_result_ne _ hroom)
    have hle := length_utf8_encode_le cs
    rw [← hcs] at hle
    exact Nat.le_trans hle hroom

theorem convertCodePointToUTF8_eq_some_iff (source : UInt32) (bytes : List UInt8) :
    convertCodePointToUTF8 source = some bytes ↔
      ∃ c : Char, source = c.val ∧ bytes = utf8.word c := by
  have hsingle : ∀ cs, [source] = utf32.encode cs ↔ ∃ c : Char, cs = [c] ∧ source = c.val := by
    intro cs
    constructor
    · intro h
      cases cs with
      | nil => cases h
      | cons c cs =>
        have hcons : source = c.val ∧ [] = utf32.encode cs := List.cons.inj h
        cases eq_nil_of_nil_eq_encode hcons.2
        exact ⟨c, rfl, hcons.1⟩
    · rintro ⟨c, rfl, rfl⟩
      rfl
  have hok : (convertUTF32toUTF8 [source] 4 strictConversion).result = conversionOK ↔ _ :=
    (transcodes_utf32toUTF8 [source] 4).1
  have htarget : ∀ cs, [source] = utf32.encode cs → (utf8.encode cs).length ≤ 4 →
      convertUTF32toUTF8 [source] 4 strictConversion = ⟨conversionOK, [], utf8.encode cs⟩ :=
    (transcodes_utf32toUTF8 [source] 4).2
  constructor
  · intro h
    unfold convertCodePointToUTF8 at h
    dsimp only at h
    split_ifs at h with hresult
    rw [not_not] at hresult
    obtain ⟨cs, hcs, hroom⟩ := hok.1 hresult
    rw [htarget cs hcs hroom, Option.some.injEq] at h
    obtain ⟨c, rfl, hc⟩ := (hsingle cs).1 hcs
    exact ⟨c, hc, by rw [← h, encode_cons, encode_nil, List.append_nil]⟩
  · rintro ⟨c, rfl, rfl⟩
    have hroom : (utf8.encode [c]).length ≤ 4 := by
      rw [encode_cons, encode_nil, List.append_nil, length_utf8_word]
      split_ifs <;> omega
    rw [convertCodePointToUTF8, htarget [c] rfl hroom, encode_cons, encode_nil, List.append_nil]
    rfl

/-! ## Byte order marks -/

theorem toNat_swapBytes (unit : UInt16) :
    (swapBytes unit).toNat = unit.toNat % 256 * 256 + unit.toNat / 256 := by
  have hlt := unit.toNat_lt
  have height : (8 : UInt16).toNat % 16 = 8 := rfl
  have hor := Nat.two_pow_add_eq_or_of_lt (i := 8) (b := unit.toNat / 256) (by omega)
    (unit.toNat % 256)
  rw [swapBytes, UInt16.toNat_or, UInt16.toNat_shiftLeft, UInt16.toNat_shiftRight, height,
    Nat.shiftLeft_eq, Nat.shiftRight_eq_div_pow]
  have hlow : unit.toNat * 2 ^ 8 % 2 ^ 16 = 2 ^ 8 * (unit.toNat % 256) := by omega
  rw [hlow, ← hor]
  omega

theorem swapBytes_swapBytes (unit : UInt16) : swapBytes (swapBytes unit) = unit := by
  have hlt := unit.toNat_lt
  apply UInt16.toNat_inj.1
  rw [toNat_swapBytes, toNat_swapBytes]
  omega

theorem byteSwapped_map_swapBytes {u : List UInt16} (h : u.length < 2 ^ 32) :
    byteSwapped (u.map swapBytes) = u := by
  have hid : swapBytes ∘ swapBytes = id := funext swapBytes_swapBytes
  rw [byteSwapped, List.length_map, Nat.mod_eq_of_lt h, List.take_of_length_le (by simp),
    List.drop_of_length_le (by simp), List.append_nil, List.map_map, hid, List.map_id]

/-- The order of the bytes does not matter behind a byte order mark. -/
theorem convertUTF16ToUTF8String_swapped {u : List UInt16} (h : u.length + 1 < 2 ^ 32) :
    convertUTF16ToUTF8String ((uniUtf16ByteOrderMarkNative :: u).map swapBytes) =
      convertUTF16ToUTF8String (uniUtf16ByteOrderMarkNative :: u) := by
  have hskip : skipByteOrderMark ((uniUtf16ByteOrderMarkNative :: u).map swapBytes) =
      skipByteOrderMark (uniUtf16ByteOrderMarkNative :: u) := by
    have hhead : ((uniUtf16ByteOrderMarkNative :: u).map swapBytes).head? =
        some uniUtf16ByteOrderMarkSwapped := rfl
    have hhead' : (uniUtf16ByteOrderMarkNative :: u).head? ≠ some uniUtf16ByteOrderMarkSwapped := by
      rw [List.head?_cons]
      decide
    rw [skipByteOrderMark, skipByteOrderMark, nativeOrder, nativeOrder, if_pos hhead, if_neg hhead',
      byteSwapped_map_swapBytes (by rwa [List.length_cons])]
  have hlength : ((uniUtf16ByteOrderMarkNative :: u).map swapBytes).length =
      (uniUtf16ByteOrderMarkNative :: u).length := List.length_map _
  rw [convertUTF16ToUTF8String, convertUTF16ToUTF8String, hskip, hlength]
  rfl

/-- Nothing is skipped unless there is a byte order mark. -/
theorem skipByteOrderMark_eq_self_iff (u : List UInt16) :
    skipByteOrderMark u = u ↔ u.head? ≠ some uniUtf16ByteOrderMarkNative ∧
      (u.head? = some uniUtf16ByteOrderMarkSwapped → 2 ^ 32 ∣ u.length) := by
  cases u with
  | nil => simp [skipByteOrderMark, nativeOrder]
  | cons unit units =>
    have hlength := length_nativeOrder (unit :: units)
    have hshorter : (nativeOrder (unit :: units)).tail ≠ unit :: units := by
      intro heq
      have hcontra := congrArg List.length heq
      rw [List.length_tail, hlength, List.length_cons] at hcontra
      omega
    have hmarks : some uniUtf16ByteOrderMarkNative ≠ some uniUtf16ByteOrderMarkSwapped := by decide
    rw [skipByteOrderMark]
    by_cases hswapped : (unit :: units).head? = some uniUtf16ByteOrderMarkSwapped
    · rw [hswapped]
      have hnative : nativeOrder (unit :: units) = byteSwapped (unit :: units) := if_pos hswapped
      by_cases hdvd : 2 ^ 32 ∣ (unit :: units).length
      · -- the counter is zero at once, and nothing is swapped
        have hzero : (unit :: units).length % 2 ^ 32 = 0 := Nat.mod_eq_zero_of_dvd hdvd
        have hself : nativeOrder (unit :: units) = unit :: units := by
          rw [hnative, byteSwapped, hzero]
          rfl
        rw [hself, hswapped, if_neg hmarks.symm]
        exact ⟨fun _ => ⟨hmarks.symm, fun _ => hdvd⟩, fun _ => rfl⟩
      · obtain ⟨e, he⟩ : ∃ e, (unit :: units).length % 2 ^ 32 = e + 1 :=
          Nat.exists_eq_add_one.2 (Nat.pos_of_ne_zero fun h => hdvd (Nat.dvd_of_mod_eq_zero h))
        have hhead : (nativeOrder (unit :: units)).head? = some uniUtf16ByteOrderMarkNative := by
          rw [hnative, byteSwapped, he, List.take_succ_cons, List.map_cons, List.cons_append,
            List.head?_cons]
          rw [List.head?_cons, Option.some.injEq] at hswapped
          rw [hswapped]
          rfl
        rw [if_pos hhead]
        exact ⟨fun h => absurd h hshorter, fun h => absurd (h.2 rfl) hdvd⟩
    · have hnative : nativeOrder (unit :: units) = unit :: units := if_neg hswapped
      rw [hnative] at hshorter ⊢
      by_cases hhead : (unit :: units).head? = some uniUtf16ByteOrderMarkNative
      · rw [if_pos hhead]
        exact ⟨fun h => absurd h hshorter, fun h => absurd hhead h.1⟩
      · rw [if_neg hhead]
        exact ⟨fun _ => ⟨hhead, fun h => absurd h hswapped⟩, fun _ => rfl⟩

theorem map_otherOrder (u : List UInt16) : u.map otherOrder = u.map swapBytes := by
  refine List.map_congr_left fun unit _ => UInt16.toNat_inj.1 ?_
  have hlt := unit.toNat_lt
  rw [toNat_swapBytes, otherOrder, UInt16.toNat_ofNat']
  exact Nat.mod_eq_of_lt (by omega)

theorem skipByteOrderMark_marked (v : List UInt16) :
    skipByteOrderMark (uniUtf16ByteOrderMarkNative :: v) = v := by
  have hnative : nativeOrder (uniUtf16ByteOrderMarkNative :: v) = uniUtf16ByteOrderMarkNative :: v :=
    if_neg (by rw [List.head?_cons]; decide)
  rw [skipByteOrderMark, hnative, if_pos List.head?_cons, List.tail_cons]

theorem convertUTF16ToUTF8String_of_standsFor {u v : List UInt16} (h : StandsFor v u) :
    (∀ cs, v = utf16.encode cs → convertUTF16ToUTF8String u = some (true, utf8.encode cs)) ∧
      ((∀ cs, v ≠ utf16.encode cs) → convertUTF16ToUTF8String u = some (false, [])) := by
  have hmarked := convertUTF16ToUTF8String_eq (uniUtf16ByteOrderMarkNative :: v)
  rw [skipByteOrderMark_marked] at hmarked
  cases h with
  | plain hnative hswapped =>
    have hskip : skipByteOrderMark u = u :=
      (skipByteOrderMark_eq_self_iff u).2 ⟨hnative, fun h => absurd h hswapped⟩
    have hplain := convertUTF16ToUTF8String_eq u
    rwa [hskip] at hplain
  | marked => exact hmarked
  | swapped hlength =>
    rw [map_otherOrder]
    rwa [← convertUTF16ToUTF8String_swapped hlength] at hmarked

/-- Only a longer source may stand for nothing, when not all of it is swapped. -/
theorem exists_standsFor {u : List UInt16} (hu : u.length < 2 ^ 32) : ∃ v, StandsFor v u := by
  cases u with
  | nil => exact ⟨[], .plain (by decide) (by decide)⟩
  | cons unit v =>
    by_cases hnative : unit = 0xfeff
    · subst hnative
      exact ⟨v, .marked⟩
    by_cases hswapped : unit = 0xfffe
    · subst hswapped
      have hid : swapBytes ∘ swapBytes = id := funext swapBytes_swapBytes
      have hv : ((0xfeff : UInt16) :: v.map otherOrder).map otherOrder = 0xfffe :: v := by
        rw [List.map_cons, map_otherOrder, map_otherOrder, List.map_map, hid, List.map_id]
        rfl
      refine ⟨v.map otherOrder, hv ▸ .swapped ?_⟩
      rwa [List.length_map]
    · refine ⟨unit :: v, .plain ?_ ?_⟩
      · rw [List.head?_cons, ne_eq, Option.some.injEq]
        exact hnative
      · rw [List.head?_cons, ne_eq, Option.some.injEq]
        exact hswapped

theorem convertUTF16ToUTF8String_ne_none (u : List UInt16) : convertUTF16ToUTF8String u ≠ none := by
  obtain ⟨htext, hno⟩ := convertUTF16ToUTF8String_eq u
  by_cases h : ∃ cs, skipByteOrderMark u = utf16.encode cs
  · obtain ⟨cs, hcs⟩ := h
    rw [htext cs hcs]
    exact Option.some_ne_none _
  · rw [hno fun cs hcs => h ⟨cs, hcs⟩]
    exact Option.some_ne_none _

/-- The conversions of whole strings never run out of room. They give the other encoding of a text,
whichever way UTF-16 stands for it, and nothing for what is no text. -/
theorem string_conversions_spec :
    (∀ s, (∀ cs, s = utf8.encode cs → convertUTF8ToUTF16String s = some (true, utf16.encode cs)) ∧
      ((∀ cs, s ≠ utf8.encode cs) → convertUTF8ToUTF16String s = some (false, []))) ∧
    (∀ u v, StandsFor v u →
      (∀ cs, v = utf16.encode cs → convertUTF16ToUTF8String u = some (true, utf8.encode cs)) ∧
      ((∀ cs, v ≠ utf16.encode cs) → convertUTF16ToUTF8String u = some (false, []))) ∧
    (∀ u, convertUTF16ToUTF8String u ≠ none ∧ (u.length < 2 ^ 32 → ∃ v, StandsFor v u)) ∧
    ∀ source bytes, convertCodePointToUTF8 source = some bytes ↔
      ∃ c : Char, source = c.val ∧ bytes = utf8.word c :=
  ⟨convertUTF8ToUTF16String_eq, fun _ _ => convertUTF16ToUTF8String_of_standsFor,
    fun u => ⟨convertUTF16ToUTF8String_ne_none u, exists_standsFor⟩,
    convertCodePointToUTF8_eq_some_iff⟩

/-! ## Round trips -/

/-- The first unit of a text. -/
theorem head?_utf16_encode_eq_iff {c : Char} (hc : c.toNat < 0x10000) (cs : List Char) :
    (utf16.encode cs).head? = some (UInt16.ofNat c.toNat) ↔ cs.head? = some c := by
  have hc' := not_surrogate c
  cases cs with
  | nil => simp
  | cons d ds =>
    have hd := toNat_lt d
    obtain ⟨unit, units, hcons⟩ : ∃ unit units, utf16.word d ++ utf16.encode ds = unit :: units :=
      List.exists_cons_of_ne_nil (List.append_ne_nil_of_left_ne_nil (utf16.word_ne_nil d) _)
    rw [encode_cons, hcons, List.head?_cons, List.head?_cons, Option.some.injEq, Option.some.injEq,
      ← UInt16.toNat_inj, toNat_ofNat_of_lt hc]
    obtain ⟨hlt, hunit⟩ | ⟨hle, hunit, -⟩ := toNat_head_utf16Word hcons
    · rw [hunit]
      exact Char.toNat_inj
    · constructor
      · intro heq
        omega
      · rintro rfl
        omega

/-- A text comes back from UTF-16 unless it begins with a byte order mark, in one order or the
other. -/
theorem string_round_trip (cs : List Char) :
    ∃ u, convertUTF8ToUTF16String (utf8.encode cs) = some (true, u) ∧
      (convertUTF16ToUTF8String u = some (true, utf8.encode cs) ↔
        cs.head? ≠ some (Char.ofNat 0xfeff) ∧
          (cs.head? = some (Char.ofNat 0xfffe) → 2 ^ 32 ∣ u.length)) := by
  refine ⟨utf16.encode cs, (convertUTF8ToUTF16String_eq _).1 cs rfl, ?_⟩
  have hnative := head?_utf16_encode_eq_iff (c := Char.ofNat 0xfeff) (by decide) cs
  have hswapped := head?_utf16_encode_eq_iff (c := Char.ofNat 0xfffe) (by decide) cs
  obtain ⟨htext, hno⟩ := convertUTF16ToUTF8String_eq (utf16.encode cs)
  rw [ne_eq, ← hnative, ← hswapped]
  refine Iff.trans ?_ (skipByteOrderMark_eq_self_iff _)
  constructor
  · intro h
    by_cases hds : ∃ ds, skipByteOrderMark (utf16.encode cs) = utf16.encode ds
    · obtain ⟨ds, hds⟩ := hds
      rw [htext ds hds, Option.some.injEq, Prod.mk.injEq] at h
      rw [hds, encode_injective h.2]
    · rw [hno fun ds h' => hds ⟨ds, h'⟩, Option.some.injEq, Prod.mk.injEq] at h
      exact absurd h.1 Bool.false_ne_true
  · exact fun h => htext cs h

end Wpi.ConvertUTF
