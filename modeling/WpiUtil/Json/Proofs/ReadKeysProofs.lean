import WpiUtil.Json.Proofs.DeserializeProofs
import WpiUtil.Json.Proofs.PruningProofs

/-!
# The outcomes of reading any bytes

A name in a text is no longer than the text, so the members that are made of a text that is not too
long have room for their keys.
-/

namespace Wpi

open Foundations
open Foundations.JsonText (Derives Numeral Tree)

namespace ParseTree

theorem fits_numberJson (n : Numeral) : (numberJson n).All Json.NodeFits := by
  unfold numberJson
  split_ifs
  · exact ⟨trivial, trivial⟩
  · exact ⟨trivial, trivial⟩
  · exact ⟨trivial, trivial⟩

mutual

theorem fits_json (t : Tree) (ht : Names Json.EntryFits t) : (json t).All Json.NodeFits := by
  cases t with
  | null | boolean _ | string _ =>
    rw [json]
    exact ⟨trivial, trivial⟩
  | number n =>
    rw [json]
    exact fits_numberJson n
  | array ts =>
    rw [json]
    exact Json.fits_array (fits_jsonElements ts ht)
  | object ms =>
    rw [json]
    exact fits_jsonMembers ms ht Json.fits_empty

theorem fits_jsonElements (ts : List Tree) (hts : NamesElements Json.EntryFits ts) :
    ∀ x ∈ jsonElements ts, x.All Json.NodeFits := by
  cases ts with
  | nil =>
    intro x hx
    cases hx
  | cons t ts =>
    rw [jsonElements, List.forall_mem_cons]
    exact ⟨fits_json t hts.1, fits_jsonElements ts hts.2⟩

theorem fits_jsonMembers (ms : List (List Char × Tree)) (hms : NamesMembers Json.EntryFits ms)
    {m : StringMap Json} (hm : (Json.object m).All Json.NodeFits) :
    (Json.object (jsonMembers m ms)).All Json.NodeFits := by
  cases ms with
  | nil =>
    rw [jsonMembers]
    exact hm
  | cons member ms =>
    obtain ⟨cs, t⟩ := member
    obtain ⟨hname, ht, hrest⟩ := hms
    rw [jsonMembers]
    exact fits_jsonMembers ms hrest (Json.fits_assign hm hname (fits_json t ht))

end

/-- A name is no longer than the text that it stands in. -/
theorem names_of_length {t : Tree} {u w : List Byte} (h : Derives (.value t) u w)
    (hu : u.length + 25 < 2 ^ 32) : Names Json.EntryFits t := by
  refine names_of_derives h fun k cs k' x hsuffix hk _ => Json.entryFits_iff.2 ?_
  have hkey := hk.length_le
  have hle := hsuffix.length_le
  rw [List.length_cons] at hle
  omega

end ParseTree

namespace Json

open MeteredSource

theorem keysFit_of_parseStream {σ : Type} [ByteSource σ] {is : σ}
    (hn : (ByteSource.content is).length + 25 < 2 ^ 32) (he : RawIstream.hasError is = false)
    {j : Json} (h : (parseStream is none).1 = .ok j) : j.KeysFit := by
  have hreads : Parser.Reads none ⟨0, []⟩ (ByteSource.content is) (Parser.new is none) :=
    reads_new_of_hasError he
  have hrun : parseStream is none = (.ok j, (parseStream is none).2) := Prod.ext h rfl
  obtain ⟨t, w, htext, hw, hfinite⟩ :=
    Parser.text_of_parse ⟨hreads.ready, hreads.input⟩ (Nat.le_refl _) hrun
  obtain ⟨p, hparse, -⟩ :=
    Parser.runs_parse htext hw hfinite (Nat.le_refl _) none ⟨0, []⟩ _ hreads
  rw [ParseTree.eval_none, ParseTree.isDiscarded_json, if_neg Bool.false_ne_true] at hparse
  have hsame : (parseStream is none).1 = .ok (ParseTree.json t) := congrArg Prod.fst hparse
  obtain rfl := Except.ok.inj (h.symm.trans hsame)
  obtain ⟨a, b, ha, hvalue, -⟩ := htext
  have hlength := Lexer.blanks_length ha
  exact keysFit_of_all (ParseTree.fits_json t (ParseTree.names_of_length hvalue (by omega)))

theorem asked_le {n : Nat} {is : CountedIstream RawMemIstream} (h : Within n is) :
    is.asked ≤ n + 1 := by
  obtain ⟨k, hk, hasked⟩ := h
  exact hasked ▸ hk

/-- Reading `s` comes to one of the outcomes that are documented, and asks for no more than one
character past its end. -/
theorem documented_reading (s : List Byte) (hs : s.length + 25 < 2 ^ 32) :
    (Documented s.length true (parse s none).1 ∧
      Documented s.length true (parseStream (CountedIstream.ofBytes s) none).1 ∧
      (parseStream (CountedIstream.ofBytes s) none).2.lexer.is.asked ≤ s.length + 1) ∧
    (Documented s.length false (fromCbor (RawMemIstream.ofBytes s)).1 ∧
      Documented s.length false (fromCbor (CountedIstream.ofBytes s)).1 ∧
      (fromCbor (CountedIstream.ofBytes s)).2.asked ≤ s.length + 1) ∧
    Documented s.length false (fromMsgpack (RawMemIstream.ofBytes s)).1 ∧
      Documented s.length false (fromMsgpack (CountedIstream.ofBytes s)).1 ∧
      (fromMsgpack (CountedIstream.ofBytes s)).2.asked ≤ s.length + 1 := by
  refine ⟨?_, ?_, ?_⟩
  · have hmem := documented_parseStream (RawMemIstream.ofBytes s) none rfl trivial
      fun _ => keysFit_of_parseStream hs rfl
    have hcounted := documented_parseStream (CountedIstream.ofBytes s) none rfl rfl
      fun _ => keysFit_of_parseStream hs rfl
    exact ⟨hmem.1, hcounted.1, asked_le hcounted.2⟩
  · have hmem := documented_fromCbor (RawMemIstream.ofBytes s) hs rfl trivial
    have hcounted := documented_fromCbor (CountedIstream.ofBytes s) hs rfl rfl
    exact ⟨hmem.1, hcounted.1, asked_le hcounted.2⟩
  · have hmem := documented_fromMsgpack (RawMemIstream.ofBytes s) hs rfl trivial
    have hcounted := documented_fromMsgpack (CountedIstream.ofBytes s) hs rfl rfl
    exact ⟨hmem.1, hcounted.1, asked_le hcounted.2⟩

/-- A map of one pair without its value. -/
theorem documented_reading_truncated :
    Documented 2 false (fromCbor (CountedIstream.ofBytes [0xa1, 0x60])).1 ∧
      (fromCbor (CountedIstream.ofBytes [0xa1, 0x60])).2.asked ≤ 3 :=
  (documented_reading [0xa1, 0x60] (by decide)).2.1.2

theorem not_documented_singleton {key : Key} (hkey : key.length < 2 ^ 32) (h : ¬EntryFits key)
    (value : Json) (n : Nat) (overflow : Bool) :
    ¬Documented n overflow (.ok (object (assign .empty key value))) := by
  rintro ⟨-, hfits⟩
  have hmem : (key, value) ∈ (assign .empty key value).toList := by
    rw [toList_singleton, StringMap.createKey_of_lt hkey]
    exact List.mem_cons_self
  exact h (hfits.self (key, value) hmem)

/-- The entry for a name of `2 ^ 32 - 25` bytes is written past its end. -/
theorem not_documented_longText :
    ¬Documented (longText (2 ^ 32 - 25)).length true (parse (longText (2 ^ 32 - 25)) none).1 := by
  rw [parse_longText]
  refine not_documented_singleton ?_ ?_ null _ true
  · rw [length_longName]
    omega
  · rw [entryFits_iff, length_longName]
    omega

end Json

end Wpi
