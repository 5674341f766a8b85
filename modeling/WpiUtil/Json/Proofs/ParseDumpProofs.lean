import WpiUtil.Json.Proofs.ComparisonProofs
import WpiUtil.Json.Proofs.ParseProofs
import WpiUtil.Json.Proofs.SerializerProofs

/-!
# Parsing what has been dumped
-/

namespace Wpi.Json

open Foundations

/-- The dump is a text for a tree that stands for the value. -/
theorem exists_isJsonText {j : Json} (hj : j.WF) (hfloat : j.NoFloat)
    (hdiscarded : j.NoDiscarded) (hutf8 : j.IsUtf8) (indent : Int32) :
    ∃ t, IsJsonText (ParseTree.untilNul (j.dump indent)) t ∧ ParseTree.Finite t ∧
      ParseTree.ShortNames t ∧ ParseTree.value t = j.denote := by
  have htree : ∃ t, Serializer.Shows (j.dump indent) j t := by
    unfold dump
    split
    · exact Serializer.exists_tree hj hfloat hdiscarded hutf8 _ _ _
    · exact Serializer.exists_tree hj hfloat hdiscarded hutf8 _ _ _
  obtain ⟨t, hwrites, hfinite, hnames, hvalue⟩ := htree
  refine ⟨t, ParseTree.text_iff.1 ⟨[], ?_, Or.inl rfl⟩, hfinite, hnames, hvalue⟩
  have hderives := hwrites []
  rw [List.append_nil] at hderives
  exact ⟨_, _, .nil _, hderives, .nil _⟩

/-- What has been dumped is parsed to an equal value, whatever the indentation is. -/
theorem parse_dump {j : Json} (hj : j.WF) (hfloat : j.NoFloat) (hdiscarded : j.NoDiscarded)
    (hutf8 : j.IsUtf8) (indent : Int32) :
    ∃ j', (parse (j.dump indent) none).1 = .ok j' ∧ eq j' j = true ∧ eq j j' = true ∧
      j'.denote = j.denote := by
  obtain ⟨t, htext, hfinite, hnames, hvalue⟩ :=
    exists_isJsonText hj hfloat hdiscarded hutf8 indent
  obtain ⟨j', hparse, hdenote, hmaps⟩ := exists_parse htext hfinite hnames
  rw [hvalue] at hdenote
  have hintegral : j.Integral := ⟨hj.maps, hfloat, hdiscarded⟩
  have hintegral' : j'.Integral := hintegral.of_denote_eq hmaps hdenote
  exact ⟨j', hparse, eq_of_denote_eq hintegral' hintegral hdenote,
    eq_of_denote_eq hintegral hintegral' hdenote.symm, hdenote⟩

/-- An object in an array, with characters to escape. -/
def escapedMember : Json :=
  array [object (assign .empty (bytes "k\n") (string (bytes "\"\x00"))), numberInteger (-1)]

theorem parse_dump_escapedMember :
    ∃ j', (parse (escapedMember.dump 2) none).1 = .ok j' ∧ eq j' escapedMember = true ∧
      eq escapedMember j' = true ∧ j'.denote = escapedMember.denote := by
  have hwf : (object (assign .empty (bytes "k\n") (string (bytes "\"\x00")))).WF :=
    wf_singleton (by decide) (show 2 < 2 ^ 64 by decide)
  have hutf8 : (object (assign .empty (bytes "k\n") (string (bytes "\"\x00")))).IsUtf8 := by
    refine (all_singleton _ _).2 ⟨fun e he => ?_, ⟨['"', '\x00'], rfl⟩⟩
    rw [toList_singleton, List.mem_singleton] at he
    subst he
    exact ⟨['k', '\n'], rfl⟩
  have hfloat : (object (assign .empty (bytes "k\n") (string (bytes "\"\x00")))).NoFloat :=
    (all_singleton _ _).2 ⟨rfl, rfl⟩
  have hdiscarded : (object (assign .empty (bytes "k\n") (string (bytes "\"\x00")))).NoDiscarded :=
    (all_singleton _ _).2 ⟨rfl, rfl⟩
  refine parse_dump (j := escapedMember) ?_ ?_ ?_ ?_ 2
  · exact (all_array _).2 ⟨show 2 < 2 ^ 64 by decide,
      List.forall_mem_cons.2 ⟨hwf, List.forall_mem_singleton.2 trivial⟩⟩
  · exact (all_array _).2 ⟨rfl, List.forall_mem_cons.2 ⟨hfloat, List.forall_mem_singleton.2 rfl⟩⟩
  · exact (all_array _).2
      ⟨rfl, List.forall_mem_cons.2 ⟨hdiscarded, List.forall_mem_singleton.2 rfl⟩⟩
  · exact (all_array _).2
      ⟨trivial, List.forall_mem_cons.2 ⟨hutf8, List.forall_mem_singleton.2 trivial⟩⟩

end Wpi.Json
