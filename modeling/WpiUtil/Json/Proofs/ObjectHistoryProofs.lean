import WpiUtil.Json.ObjectHistory
import WpiUtil.Json.Proofs.CborProofs
import WpiUtil.Json.Proofs.MsgpackProofs
import WpiUtil.Json.Proofs.ReadableProofs

/-!
# What the order of the members depends on

Objects with the same members are written with the same bytes, in the order of the keys, exactly
when their buckets hold the members in this order.
-/

namespace Wpi

open StringMap

namespace Json

/-! ## Edits -/

theorem mem_emplaceSecond {m : StringMap Json} (hm : m.WF) {key : Key} (hkey : m.Takes key)
    {value : Json} {e : Key × Json} (he : e ∈ (m.emplaceSecond key value).1.toList) :
    e = (key, value) ∨ e ∈ m.toList := by
  rcases emplaceSecond_spec hm hkey value with ⟨b, v, heq, -⟩ | ⟨-, m', b, heq, -, hperm, -⟩
  · rw [heq] at he
    exact Or.inr he
  · rw [heq, hperm.mem_iff, List.mem_cons] at he
    exact he

theorem Edit.apply_maps {m : StringMap Json} (hm : (object m).All Json.MapWF) {edit : Edit}
    (hedit : edit.WF) : (object (edit.apply m)).All Json.MapWF := by
  have hwf : m.WF := hm.self
  cases edit with
  | insert key value =>
    have hkey : m.Takes key := .of_lt hedit.1.lt
    refine (all_object _).2 ⟨emplaceSecond_wf hwf hkey value, fun e he => ?_⟩
    rcases mem_emplaceSecond hwf hkey he with rfl | he
    · exact hedit.2
    · exact ((all_object m).1 hm).2 e he
  | assign key value =>
    have hkey : m.Takes key := .of_lt hedit.1.lt
    exact all_assign hwf hm hkey hedit.2 (assign_wf hwf hkey value)
  | erase key =>
    obtain ⟨hm', hperm⟩ := removeKey_spec hwf key
    refine (all_object _).2 ⟨hm', fun e he => ((all_object m).1 hm).2 e ?_⟩
    exact List.mem_of_mem_filter (hperm.mem_iff.1 he)

theorem Edit.build_maps {edits : List Edit} (h : ∀ edit ∈ edits, edit.WF) :
    (object (Edit.build edits)).All Json.MapWF := by
  suffices hrun : ∀ m, (object m).All Json.MapWF →
      (object (edits.foldl Edit.apply m)).All Json.MapWF from
    hrun .empty ((all_object _).2 ⟨WF.empty, fun e he => nomatch he⟩)
  induction edits with
  | nil => exact fun m hm => hm
  | cons edit edits ih =>
    intro m hm
    rw [List.forall_mem_cons] at h
    exact ih h.2 _ (Edit.apply_maps hm h.1)

/-! ## The writers -/

theorem flatMap_eq_of_map_eq {α β γ : Type} {f : α → β} {g : α → List γ} {xs ys : List α}
    (h : xs.map f = ys.map f) (hg : ∀ x ∈ xs, ∀ y ∈ ys, f x = f y → g x = g y) :
    xs.flatMap g = ys.flatMap g := by
  rw [List.flatMap_def, List.flatMap_def]
  rw [← forall₂_iff_map_eq fun _ _ _ _ => Iff.rfl] at h
  exact congrArg List.flatten
    ((forall₂_iff_map_eq fun _ _ _ _ => Iff.rfl).1 (Serializer.forall₂_of_mem h hg))

theorem readsInOrder_toCbor : ReadsInOrder toCbor where
  integer h := by
    unfold toCbor
    rw [BinaryWriter.writeCbor, BinaryWriter.writeCbor, BinaryWriter.writeCborInteger, h,
      if_pos (Int.natCast_nonneg _), Int.toNat_natCast]
  array {xs ys} h := by
    have hlength := congrArg List.length h
    rw [List.length_map, List.length_map] at hlength
    unfold toCbor at h ⊢
    rw [BinaryWriter.writeCbor_array, BinaryWriter.writeCbor_array, hlength,
      flatMap_eq_of_map_eq h fun _ _ _ _ heq => heq]
  object {m m'} hsize h := by
    unfold toCbor at h ⊢
    rw [BinaryWriter.writeCbor_object, BinaryWriter.writeCbor_object, hsize,
      flatMap_eq_of_map_eq h fun e _ e' _ heq => ?_]
    rw [(Prod.mk_inj.1 heq).1, (Prod.mk_inj.1 heq).2]

theorem readsInOrder_toMsgpack : ReadsInOrder toMsgpack where
  integer {n n'} h := by
    have hnonneg : 0 ≤ n.toInt := by omega
    have hnat := BinaryReader.toNat_toUInt64_of_nonneg hnonneg
    unfold toMsgpack
    rw [BinaryWriter.writeMsgpack, BinaryWriter.writeMsgpack, BinaryWriter.writeMsgpackInteger,
      if_pos hnonneg]
    congr 1
    omega
  array {xs ys} h := by
    have hlength := congrArg List.length h
    rw [List.length_map, List.length_map] at hlength
    unfold toMsgpack at h ⊢
    rw [BinaryWriter.writeMsgpack_array, BinaryWriter.writeMsgpack_array, hlength,
      flatMap_eq_of_map_eq h fun _ _ _ _ heq => heq]
  object {m m'} hsize h := by
    unfold toMsgpack at h ⊢
    rw [BinaryWriter.writeMsgpack_object, BinaryWriter.writeMsgpack_object, hsize,
      flatMap_eq_of_map_eq h fun e _ e' _ heq => ?_]
    rw [(Prod.mk_inj.1 heq).1, (Prod.mk_inj.1 heq).2]

/-! ## Values that denote the same -/

theorem denote_object_toList (m : StringMap Json) : (object m).denote =
    .object fun key => (m.toList.map fun e => (e.1, e.2.denote)).lookup key := by
  obtain ⟨table, items, tombstones⟩ := m
  rw [denote, denoteTable_eq]
  rfl

theorem nodup_map_denote {m : StringMap Json} (hm : (object m).Listed) :
    ((m.toList.map fun e => (e.1, e.2.denote)).map Prod.fst).Nodup := by
  rw [List.map_map]
  exact hm.2

theorem denote_object_eq_iff_perm {m m' : StringMap Json} (hm : (object m).Listed)
    (hm' : (object m').Listed) : (object m).denote = (object m').denote ↔
      (m.toList.map fun e => (e.1, e.2.denote)).Perm
        (m'.toList.map fun e => (e.1, e.2.denote)) := by
  rw [denote_object_toList, denote_object_toList, Value.object.injEq, funext_iff,
    perm_iff_lookup (nodup_map_denote hm) (nodup_map_denote hm')]

/-- Items in the order of their keys need not be sorted. -/
theorem sortItems_of_pairwise {α : Type} {items : List (Key × α)}
    (h : items.Pairwise fun e e' => keyLess e.1 e'.1 = true) : sortItems items = items :=
  List.Pairwise.insertionSort_eq (h.imp fun hlt => keyLess_asymm hlt)

/-- Objects that denote the same, with their members in the order of the keys, have members that
denote the same in the same places. -/
theorem members_eq_of_denote_eq {m m' : StringMap Json} (hm : (object m).Listed)
    (hm' : (object m').Listed) (hordered : (object m).KeyOrdered)
    (hordered' : (object m').KeyOrdered) (h : (object m).denote = (object m').denote) :
    List.Forall₂ (fun e e' => e.1 = e'.1 ∧ e.2.denote = e'.2.denote) m.toList m'.toList := by
  rw [denote_object_eq_iff_perm hm hm', ← sortItems_eq_iff_perm (nodup_map_denote hm),
    ← map_sortItems,
    ← map_sortItems, sortItems_of_pairwise hordered, sortItems_of_pairwise hordered'] at h
  exact (forall₂_iff_map_eq fun _ _ _ _ => Prod.mk_inj.symm).2 h

theorem ReadsInOrder.eq_of_denote_eq {γ : Type} {f : Json → γ} (hf : ReadsInOrder f) {a b : Json}
    (ha : a.All Listed) (hb : b.All Listed) (hordered : a.All KeyOrdered)
    (hordered' : b.All KeyOrdered) (h : a.denote = b.denote) : f a = f b := by
  induction a using Json.induct generalizing b with
  | object m ih =>
    cases b with
    | object m' =>
      have hmembers := members_eq_of_denote_eq ha.self hb.self hordered.self hordered'.self h
      refine hf.object (ha.self.1.trans (hmembers.length_eq.trans hb.self.1.symm)) ?_
      refine map_eq_of_forall₂ (Serializer.forall₂_of_mem hmembers fun e he e' he' heq => ?_)
      exact ⟨heq.1, ih e he (((all_object m).1 ha).2 e he) (((all_object m').1 hb).2 e' he')
        (((all_object m).1 hordered).2 e he) (((all_object m').1 hordered').2 e' he') heq.2⟩
    | _ => cases h
  | array xs ih =>
    cases b with
    | array ys =>
      rw [denote, denote, Value.array.injEq, denoteList_eq, denoteList_eq,
        ← forall₂_iff_map_eq fun _ _ _ _ => Iff.rfl] at h
      refine hf.array ((forall₂_iff_map_eq fun _ _ _ _ => Iff.rfl).1
        (Serializer.forall₂_of_mem h fun x hx y hy heq => ?_))
      exact ih x hx (((all_array xs).1 ha).2 x hx) (((all_array ys).1 hb).2 y hy)
        (((all_array xs).1 hordered).2 x hx) (((all_array ys).1 hordered').2 y hy) heq
    | _ => cases h
  | numberInteger n =>
    cases b with
    | numberInteger n' =>
      rw [denote, denote, Value.integer.injEq, Int64.toInt_inj] at h
      rw [h]
    | numberUnsigned n' =>
      rw [denote, denote, Value.integer.injEq] at h
      exact hf.integer h
    | _ => cases h
  | numberUnsigned n =>
    cases b with
    | numberInteger n' =>
      rw [denote, denote, Value.integer.injEq] at h
      exact (hf.integer h.symm).symm
    | numberUnsigned n' =>
      rw [denote, denote, Value.integer.injEq, Int.ofNat_inj, UInt64.toNat_inj] at h
      rw [h]
    | _ => cases h
  | _ =>
    cases b with
    | _ =>
      cases h
      try rfl

/-! ## Values in the order of the keys -/

theorem listInKeyOrder_eq (xs : List Json) : listInKeyOrder xs = xs.map inKeyOrder := by
  induction xs with
  | nil => rfl
  | cons x xs ih => rw [listInKeyOrder, ih, List.map_cons]

theorem tableInKeyOrder_eq (table : List (Bucket Json)) :
    tableInKeyOrder table = (entries table).map fun e => (e.1, e.2.inKeyOrder) := by
  induction table with
  | nil => rfl
  | cons bucket table ih =>
    cases bucket with
    | empty => exact ih
    | tombstone => exact ih
    | item hash key value =>
      rw [tableInKeyOrder, ih]
      rfl

theorem inKeyOrder_array (xs : List Json) : (array xs).inKeyOrder = array (xs.map inKeyOrder) := by
  rw [inKeyOrder, listInKeyOrder_eq]

theorem entries_map_item (items : List (Key × Json)) :
    entries (items.map fun e => Bucket.item (hashString e.1) e.1 e.2) = items := by
  induction items with
  | nil => rfl
  | cons e items ih => exact congrArg _ ih

theorem inKeyOrder_object (m : StringMap Json) : ∃ m', (object m).inKeyOrder = object m' ∧
    m'.size = m.size ∧
    m'.toList = (sortItems m.toList).map fun e => (e.1, e.2.inKeyOrder) := by
  obtain ⟨table, items, tombstones⟩ := m
  rw [inKeyOrder]
  refine ⟨_, rfl, rfl, ?_⟩
  rw [toList, entries_map_item, tableInKeyOrder_eq, map_sortItems]
  rfl

theorem pairwise_keyLess_sortItems {items : List (Key × Json)}
    (hnodup : (items.map Prod.fst).Nodup) :
    (sortItems items).Pairwise fun e e' => keyLess e.1 e'.1 = true := by
  have hne : ((sortItems items).map Prod.fst).Nodup :=
    ((sortItems_perm items).map Prod.fst).nodup_iff.2 hnodup
  refine ((pairwise_sortItems items).and (List.pairwise_map.1 hne)).imp ?_
  rintro e e' ⟨hnot, hkey⟩
  rw [← Bool.not_eq_false]
  exact fun hless => hkey (eq_of_not_keyLess hless hnot)

theorem listed_inKeyOrder {a : Json} (ha : a.All Listed) : a.inKeyOrder.All Listed := by
  induction a using Json.induct with
  | object m ih =>
    obtain ⟨m', heq, hsize, hlist⟩ := inKeyOrder_object m
    obtain ⟨hlength, hnodup⟩ := ha.self
    have hperm := sortItems_perm m.toList
    rw [heq, all_object]
    refine ⟨⟨?_, ?_⟩, fun e' he' => ?_⟩
    · rw [hsize, hlength, hlist, List.length_map, hperm.length_eq]
    · rw [hlist, List.map_map]
      exact (hperm.map Prod.fst).nodup_iff.2 hnodup
    · rw [hlist, List.mem_map] at he'
      obtain ⟨e, he, rfl⟩ := he'
      rw [hperm.mem_iff] at he
      exact ih e he (((all_object m).1 ha).2 e he)
  | array xs ih =>
    rw [inKeyOrder_array, all_array]
    refine ⟨trivial, fun y hy => ?_⟩
    obtain ⟨x, hx, rfl⟩ := List.mem_map.1 hy
    exact ih x hx (((all_array xs).1 ha).2 x hx)
  | _ => exact ha

theorem keyOrdered_inKeyOrder {a : Json} (ha : a.All Listed) : a.inKeyOrder.All KeyOrdered := by
  induction a using Json.induct with
  | object m ih =>
    obtain ⟨m', heq, -, hlist⟩ := inKeyOrder_object m
    rw [heq, all_object]
    refine ⟨?_, fun e' he' => ?_⟩
    · rw [KeyOrdered, hlist, List.pairwise_map]
      exact pairwise_keyLess_sortItems ha.self.2
    · rw [hlist, List.mem_map] at he'
      obtain ⟨e, he, rfl⟩ := he'
      rw [(sortItems_perm m.toList).mem_iff] at he
      exact ih e he (((all_object m).1 ha).2 e he)
  | array xs ih =>
    rw [inKeyOrder_array, all_array]
    refine ⟨trivial, fun y hy => ?_⟩
    obtain ⟨x, hx, rfl⟩ := List.mem_map.1 hy
    exact ih x hx (((all_array xs).1 ha).2 x hx)
  | _ => exact trivial

theorem denote_inKeyOrder {a : Json} (ha : a.All Listed) : a.inKeyOrder.denote = a.denote := by
  induction a using Json.induct with
  | object m ih =>
    have hlisted := (listed_inKeyOrder ha).self
    obtain ⟨m', heq, -, hlist⟩ := inKeyOrder_object m
    rw [heq] at hlisted ⊢
    have hmembers : m'.toList.map (fun e => (e.1, e.2.denote)) =
        (sortItems m.toList).map fun e => (e.1, e.2.denote) := by
      rw [hlist, List.map_map]
      refine List.map_congr_left fun e he => ?_
      rw [(sortItems_perm m.toList).mem_iff] at he
      exact congrArg (Prod.mk e.1) (ih e he (((all_object m).1 ha).2 e he))
    rw [denote_object_eq_iff_perm hlisted ha.self, hmembers]
    exact (sortItems_perm m.toList).map _
  | array xs ih =>
    rw [inKeyOrder_array, denote, denote, denoteList_eq, denoteList_eq, List.map_map]
    congr 1
    exact List.map_congr_left fun x hx => ih x hx (((all_array xs).1 ha).2 x hx)
  | _ => rfl

/-! ## What is written -/

/-- A text that is the one in the order of the keys comes from buckets in this order. -/
theorem tells_keyOrdered {a : Json} (ha : a.All Listed) :
    Serializer.Tells (a.All KeyOrdered) (Serializer.dump false 0 0 a)
      (Serializer.dump false 0 0 a.inKeyOrder) := by
  induction a using Json.induct with
  | object m ih =>
    have hlisted := (listed_inKeyOrder ha).self
    obtain ⟨m', heq, -, hlist⟩ := inKeyOrder_object m
    obtain ⟨hsize, hnodup⟩ := ha.self
    rw [heq] at hlisted ⊢
    have hperm := sortItems_perm m.toList
    have hlength : m.toList.length = m'.toList.length := by
      rw [hlist, List.length_map, hperm.length_eq]
    have htells : ∀ e ∈ m.toList, ∀ e' ∈ m'.toList, e.1 = e'.1 →
        Serializer.Tells (e.2.All KeyOrdered) (Serializer.dump false 0 0 e.2)
          (Serializer.dump false 0 0 e'.2) := by
      intro e he e' he' hkey
      rw [hlist, List.mem_map] at he'
      obtain ⟨e₀, he₀, rfl⟩ := he'
      have hsame : e = e₀ :=
        List.inj_on_of_nodup_map hnodup he (hperm.mem_iff.1 he₀) hkey
      subst hsame
      exact ih e he (((all_object m).1 ha).2 e he)
    refine Serializer.Tells.imp (fun hmembers => ?_)
      (tells_object (R := fun x _ => x.All KeyOrdered) hsize hlisted.1 hlength htells)
    rw [all_object]
    constructor
    · have hkeys : m.toList.map Prod.fst = m'.toList.map Prod.fst :=
        (forall₂_iff_map_eq fun _ _ _ _ => Iff.rfl).1 (hmembers.imp fun _ _ h => h.1)
      rw [hlist, List.map_map] at hkeys
      have hsorted : ((sortItems m.toList).map Prod.fst).Pairwise fun k k' => keyLess k k' = true :=
        List.pairwise_map.2 (pairwise_keyLess_sortItems hnodup)
      rw [show (sortItems m.toList).map Prod.fst = m.toList.map Prod.fst from hkeys.symm] at hsorted
      exact List.pairwise_map.1 hsorted
    · intro e he
      obtain ⟨i, hi, rfl⟩ := List.getElem_of_mem he
      exact ((List.forall₂_iff_get.1 hmembers).2 i hi (hlength ▸ hi)).2
  | array xs ih =>
    rw [inKeyOrder_array]
    have htells : List.Forall₂ (fun x y => Serializer.Tells (x.All KeyOrdered)
        (Serializer.dump false 0 0 x) (Serializer.dump false 0 0 y)) xs (xs.map inKeyOrder) := by
      rw [List.forall₂_map_right_iff, List.forall₂_same]
      exact fun x hx => ih x hx (((all_array xs).1 ha).2 x hx)
    refine Serializer.Tells.imp (fun helements => ?_)
      (tells_array (R := fun x _ => x.All KeyOrdered) htells)
    rw [List.forall₂_map_right_iff, List.forall₂_same] at helements
    exact (all_array xs).2 ⟨trivial, helements⟩
  | _ => exact fun w w' _ _ heq => ⟨trivial, List.append_cancel_left heq⟩

theorem serializedAlike_of_denote_eq {a b : Json} (ha : a.All Listed) (hb : b.All Listed)
    (hordered : a.All KeyOrdered) (hordered' : b.All KeyOrdered) (h : a.denote = b.denote) :
    SerializedAlike a b where
  dump indent := by
    have hdump := fun prettyPrint indentStep =>
      (readsInOrder_dump prettyPrint indentStep).eq_of_denote_eq
      ha hb hordered hordered' h
    unfold dump
    split
    · exact congrFun (hdump true _) 0
    · exact congrFun (hdump false 0) 0
  toCbor := readsInOrder_toCbor.eq_of_denote_eq ha hb hordered hordered' h
  toMsgpack := readsInOrder_toMsgpack.eq_of_denote_eq ha hb hordered hordered' h

/-- A value is written in the order of the keys exactly when its buckets have them in this order. -/
theorem serializedAlike_inKeyOrder_iff {a : Json} (ha : a.All Listed) :
    SerializedAlike a a.inKeyOrder ↔ a.All KeyOrdered := by
  constructor
  · intro h
    have htext := h.dump (-1)
    rw [dump_compact, dump_compact] at htext
    exact (tells_keyOrdered ha [] [] Serializer.delimited_nil Serializer.delimited_nil
      (congrArg (fun text => text ++ []) htext)).1
  · intro h
    exact serializedAlike_of_denote_eq ha (listed_inKeyOrder ha) h (keyOrdered_inKeyOrder ha)
      (denote_inKeyOrder ha).symm

/-- Two objects with the same members are written with the same bytes, in the order of the keys,
exactly when the edits have left the members of all objects in the two in this order. -/
theorem serializedAlike_build_iff {edits edits' : List Edit} (h : ∀ edit ∈ edits, edit.WF)
    (h' : ∀ edit ∈ edits', edit.WF)
    (hsame : (object (Edit.build edits)).denote = (object (Edit.build edits')).denote) :
    (SerializedAlike (object (Edit.build edits)) (object (Edit.build edits')) ∧
      SerializedAlike (object (Edit.build edits)) (object (Edit.build edits)).inKeyOrder ∧
      SerializedAlike (object (Edit.build edits')) (object (Edit.build edits')).inKeyOrder) ↔
    (object (Edit.build edits)).All KeyOrdered ∧ (object (Edit.build edits')).All KeyOrdered := by
  have hlisted := (Edit.build_maps h).listed
  have hlisted' := (Edit.build_maps h').listed
  rw [serializedAlike_inKeyOrder_iff hlisted, serializedAlike_inKeyOrder_iff hlisted']
  constructor
  · exact And.right
  · intro hordered
    exact ⟨serializedAlike_of_denote_eq hlisted hlisted' hordered.1 hordered.2 hsame, hordered⟩

theorem serializedAlike_build_iff_ab :
    (SerializedAlike (object (Edit.build [.insert (bytes "a") null, .insert (bytes "b") null]))
        (object (Edit.build [.assign (bytes "b") null, .assign (bytes "a") null])) ∧
      SerializedAlike (object (Edit.build [.insert (bytes "a") null, .insert (bytes "b") null]))
        (object (Edit.build [.insert (bytes "a") null, .insert (bytes "b") null])).inKeyOrder ∧
      SerializedAlike (object (Edit.build [.assign (bytes "b") null, .assign (bytes "a") null]))
        (object (Edit.build [.assign (bytes "b") null, .assign (bytes "a") null])).inKeyOrder) ↔
    (object (Edit.build [.insert (bytes "a") null, .insert (bytes "b") null])).All KeyOrdered ∧
      (object (Edit.build [.assign (bytes "b") null, .assign (bytes "a") null])).All KeyOrdered :=
  serializedAlike_build_iff (by simp [Edit.WF, All, MapWF, entryFits_iff, bytes])
    (by simp [Edit.WF, All, MapWF, entryFits_iff, bytes]) rfl

/-- Two keys for the same bucket are written in the order in which they came. -/
theorem not_serializedAlike_build_aq :
    (object (Edit.build [.insert (bytes "a") null, .insert (bytes "q") null])).denote =
      (object (Edit.build [.insert (bytes "q") null, .insert (bytes "a") null])).denote ∧
    ¬SerializedAlike (object (Edit.build [.insert (bytes "a") null, .insert (bytes "q") null]))
      (object (Edit.build [.insert (bytes "q") null, .insert (bytes "a") null])) := by
  constructor
  · have hfirst : (Edit.build [.insert (bytes "a") null, .insert (bytes "q") null]).toList =
        [(bytes "a", null), (bytes "q", null)] := rfl
    have hsecond : (Edit.build [.insert (bytes "q") null, .insert (bytes "a") null]).toList =
        [(bytes "q", null), (bytes "a", null)] := rfl
    rw [denote_object_eq_iff_perm ⟨rfl, by decide⟩ ⟨rfl, by decide⟩, hfirst, hsecond]
    exact List.Perm.swap ..
  · intro h
    have htext := h.dump (-1)
    exact absurd htext (by decide)

end Json

end Wpi
