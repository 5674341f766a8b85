import WpiUtil.Json.CborIndefinite
import WpiUtil.Json.Proofs.CborHeadProofs

/-!
# What `from_cbor` makes of items of indefinite length

The loops that end at a break read the same arrays and maps as those that count. The loop over a
text string takes the heads of the chunks for text.
-/

namespace Wpi

open Foundations BinaryReader Cbor

namespace BinaryReader

variable {σ α β : Type}

/-! ## Items that are neither strings nor booleans -/

variable [ByteSource σ]

/-- Neither a string nor a boolean. -/
def NotTextOrBoolean (j : Json) : Prop := (∀ s, j ≠ .string s) ∧ ∀ b, j ≠ .boolean b

/-- A string is read by `get_cbor_string`, and a boolean is a byte of its own. -/
theorem returns_parseCborItem {fuel c : Nat} (parse : Bool → Action σ Json)
    (hstring : ¬(0x60 ≤ c ∧ c ≤ 0x7b ∨ c = 0x7f)) (hfalse : c ≠ 0xf4) (htrue : c ≠ 0xf5) :
    Returns NotTextOrBoolean (parseCborItem fuel parse c) := by
  have harray (xs : List Json) : NotTextOrBoolean (.array xs) := ⟨by simp, by simp⟩
  have hobject (m : StringMap Json) : NotTextOrBoolean (.object m) := ⟨by simp, by simp⟩
  have hbranches : CborBranches (fun x (_ : Unit → Action σ Json) => Returns NotTextOrBoolean x)
      fuel parse (fun _ => fuel) (fun _ => parse) c :=
    { value := fun j hj => by
        refine returns_pure ?_
        cases hj with
        | unsigned => exact ⟨by simp, by simp⟩
        | negative => exact ⟨by simp, by simp⟩
        | false hc => exact absurd hc hfalse
        | true hc => exact absurd hc htrue
        | null => exact ⟨by simp, by simp⟩
      number := fun width f hf => .bind fun n => by
        refine returns_pure ?_
        cases hf with
        | unsigned => exact ⟨by simp, by simp⟩
        | negative => exact ⟨by simp [negative], by simp [negative]⟩
        | float => exact ⟨by simp, by simp⟩
      string := fun hc => absurd hc hstring
      elements := fun len => returns_readElements harray _ len []
      numberElements := fun width => .bind fun len => returns_readElements harray _ len []
      elementsUntil := returns_readElementsUntil harray _ fuel []
      members := fun len => returns_readMembers hobject _ _ len .empty
      numberMembers := fun width => .bind fun len => returns_readMembers hobject _ _ len .empty
      membersUntil := returns_readMembersUntil hobject _ _ fuel .empty
      error := fun id whatArg => returns_throwParseError id whatArg }
  exact hbranches.parseCborItem

theorem parseCborItem_string {fuel c : Nat} (parse : Bool → Action σ Json)
    (h : 0x60 ≤ c ∧ c ≤ 0x7b ∨ c = 0x7f) : parseCborItem fuel parse c =
      getCborString fuel >>= fun s => pure (Json.string s) := by
  rw [parseCborItem]
  simp (disch := omega) only [if_neg, if_pos]

end BinaryReader

namespace Cbor

/-! ## Items and keys -/

/-- After the byte `c`, `parse_cbor` reads `bs` and returns `j`. -/
def ReadsItem (c : Byte) (bs : List Byte) (j : Json) : Prop :=
  ∀ fuel, bs.length ≤ fuel →
    YieldsAt (some c) (parseCborItem fuel (parseCbor fuel) c.toNat : Action RawMemIstream Json) bs j

/-- What `parse_cbor` has read is an item. -/
theorem exists_readsItem_of_run {fuel : Nat} {br br' : BinaryReader RawMemIstream} {j : Json}
    (he : RawIstream.hasError br.is = false)
    (hrun : (parseCbor (fuel + 1) true).run.run br = (.ok j, br')) :
    ∃ c bs, ByteSource.content br.is = c :: bs ++ ByteSource.content br'.is ∧
      ReadsItem c bs j := by
  obtain ⟨c?, br₁, hget, hitem⟩ := exists_of_run_bind hrun
  rcases run_get_cases br he with
    ⟨-, br₂, hget', -⟩ | ⟨c, bs, br₂, hcontent, hget', hcurrent, -, he₂, hcontent₂⟩
  · cases hget.symm.trans hget'
    cases hitem
  · cases hget.symm.trans hget'
    obtain ⟨hparse, hparse'⟩ := replays_parseCbor (σ := RawMemIstream) fuel
    obtain ⟨bs', hbs', -, hyields⟩ := replays_parseCborItem hparse hparse'
      (fun br br' a h => not_run_parseCbor h) c.toNat br₁ br' j he₂ hitem
    refine ⟨c, bs', ?_, fun fuel hfuel => hyields fuel (some c) hfuel hcurrent.symm⟩
    rw [hcontent, ← hcontent₂, hbs', List.cons_append]

theorem exists_readsItem {s : List Byte} {j : Json}
    (h : Json.fromCbor (RawMemIstream.ofBytes s) = (.ok j, RawMemIstream.ofBytes [])) :
    ∃ c bs, s = c :: bs ∧ ReadsItem c bs j := by
  rw [Json.fromCbor] at h
  rcases hrun : (parseCbor ((ByteSource.content (RawMemIstream.ofBytes s)).length + 1) true :
    Action RawMemIstream Json).run.run (BinaryReader.new (RawMemIstream.ofBytes s)) with ⟨r, br'⟩
  rw [hrun] at h
  obtain ⟨rfl, his⟩ := Prod.mk.inj h
  obtain ⟨c, bs, hcontent, hreads⟩ := exists_readsItem_of_run rfl hrun
  refine ⟨c, bs, ?_, hreads⟩
  rw [his] at hcontent
  exact hcontent.trans (List.append_nil _)

namespace ReadsItem

variable {c : Byte} {bs : List Byte} {j : Json}

theorem exists_run (h : ReadsItem c bs j) :
    ∃ br br' : BinaryReader RawMemIstream,
      (parseCborItem bs.length (parseCbor bs.length) c.toNat).run.run br = (.ok j, br') := by
  obtain ⟨br', hrun, -⟩ := h bs.length (Nat.le_refl _) ⟨RawMemIstream.ofBytes bs, some c, 0⟩ [] rfl
    rfl (List.append_nil bs).symm
  exact ⟨_, br', hrun⟩

/-- No item begins with a break. -/
theorem ne_break (h : ReadsItem c bs j) : c ≠ breakByte := by
  rintro rfl
  obtain ⟨br, br', hrun⟩ := h.exists_run
  cases hrun

theorem yields (h : ReadsItem c bs j) {fuel : Nat} (hfuel : (c :: bs).length ≤ fuel) :
    Yields (parseCbor fuel true : Action RawMemIstream Json) (c :: bs) j := by
  rw [List.length_cons] at hfuel
  obtain ⟨fuel, rfl⟩ : ∃ n, fuel = n + 1 := ⟨fuel - 1, by omega⟩
  exact yields_parseCbor (h fuel (by omega))

theorem yieldsAt (h : ReadsItem c bs j) {fuel : Nat} (hfuel : (c :: bs).length ≤ fuel) :
    YieldsAt (some c) (parseCbor fuel false : Action RawMemIstream Json) bs j := by
  rw [List.length_cons] at hfuel
  obtain ⟨fuel, rfl⟩ : ∃ n, fuel = n + 1 := ⟨fuel - 1, by omega⟩
  exact yieldsAt_parseCbor (h fuel (by omega))

/-- Where strings and booleans come from. -/
theorem cases (h : ReadsItem c bs j) :
    (0x60 ≤ c.toNat ∧ c.toNat ≤ 0x7b ∨ c.toNat = 0x7f) ∧ (∃ s, j = .string s) ∨
      c = 0xf4 ∧ j = .boolean false ∨ c = 0xf5 ∧ j = .boolean true ∨ NotTextOrBoolean j := by
  obtain ⟨br, br', hrun⟩ := h.exists_run
  by_cases hstring : 0x60 ≤ c.toNat ∧ c.toNat ≤ 0x7b ∨ c.toNat = 0x7f
  · rw [parseCborItem_string _ hstring] at hrun
    have hreturns : Returns (fun j => ∃ s, j = Json.string s)
        (getCborString bs.length >>= fun s => pure (Json.string s) : Action RawMemIstream Json) :=
      .bind fun s => returns_pure ⟨s, rfl⟩
    exact Or.inl ⟨hstring, hreturns br br' j hrun⟩
  · by_cases hfalse : c = 0xf4
    · subst hfalse
      cases hrun
      exact Or.inr (Or.inl ⟨rfl, rfl⟩)
    · by_cases htrue : c = 0xf5
      · subst htrue
        cases hrun
        exact Or.inr (Or.inr (Or.inl ⟨rfl, rfl⟩))
      · rw [← UInt8.toNat_inj] at hfalse htrue
        exact Or.inr (Or.inr (Or.inr
          (returns_parseCborItem _ hstring hfalse htrue br br' j hrun)))

/-- An item that is a string is read by `get_cbor_string`. -/
theorem yieldsAt_getCborString {s : List Byte} (h : ReadsItem c bs (.string s)) {fuel : Nat}
    (hfuel : bs.length ≤ fuel) :
    YieldsAt (some c) (getCborString fuel : Action RawMemIstream (List Byte)) bs s := by
  rcases h.cases with ⟨hstring, -⟩ | ⟨-, hj⟩ | ⟨-, hj⟩ | hj
  · intro br rest hc he hcontent
    obtain ⟨br', hrun, h'⟩ := h fuel hfuel br rest hc he hcontent
    rw [parseCborItem_string _ hstring] at hrun
    obtain ⟨t, br₁, hrun₁, hpure⟩ := exists_of_run_bind hrun
    cases hpure
    exact ⟨br', hrun₁, h'⟩
  · cases hj
  · cases hj
  · exact absurd rfl (hj.1 s)

/-- An item that is a boolean is a single byte. -/
theorem eq_of_boolean {b : Bool} (h : ReadsItem c bs (.boolean b)) :
    c = if b then 0xf5 else 0xf4 := by
  rcases h.cases with ⟨-, s, hj⟩ | ⟨hc, hj⟩ | ⟨hc, hj⟩ | hj
  · cases hj
  · cases hj
    exact hc
  · cases hj
    exact hc
  · exact absurd rfl (hj.2 b)

end ReadsItem

theorem EncodedItem.exists_reads (item : EncodedItem) :
    ∃ c bs, item.encoding = c :: bs ∧ ReadsItem c bs item.value :=
  exists_readsItem item.reads

theorem EncodedKey.exists_reads (key : EncodedKey) :
    ∃ c bs, key.encoding = c :: bs ∧ ReadsItem c bs (.string key.key) :=
  exists_readsItem key.reads

theorem EncodedItem.yields (item : EncodedItem) {fuel : Nat}
    (hfuel : item.encoding.length ≤ fuel) :
    Yields (parseCbor fuel true : Action RawMemIstream Json) item.encoding item.value := by
  obtain ⟨c, bs, henc, hreads⟩ := item.exists_reads
  rw [henc] at hfuel ⊢
  exact hreads.yields hfuel

/-! ## Arrays -/

theorem yields_readElements_items (items : List EncodedItem) (acc : List Json) {fuel : Nat}
    (hfuel : (items.flatMap EncodedItem.encoding).length ≤ fuel) :
    Yields (readElements (parseCbor fuel true) items.length acc : Action RawMemIstream Json)
      (items.flatMap EncodedItem.encoding) (.array (acc ++ items.map EncodedItem.value)) := by
  induction items generalizing acc with
  | nil =>
    rw [List.map_nil, List.append_nil]
    exact Yields.pure _
  | cons item items ih =>
    rw [List.flatMap_cons, List.length_append] at hfuel
    have hrest := ih (acc ++ [item.value]) (by omega)
    rw [List.append_assoc] at hrest
    exact (item.yields (by omega)).bind hrest

/-- The loop stops at the break, and at none in an item. -/
theorem yields_readElementsUntil_items (items : List EncodedItem) (acc : List Json)
    {fuel rounds : Nat} (hfuel : (items.flatMap EncodedItem.encoding).length ≤ fuel)
    (hrounds : (items.flatMap EncodedItem.encoding).length < rounds) :
    Yields (readElementsUntil (parseCbor fuel false) rounds acc : Action RawMemIstream Json)
      (items.flatMap EncodedItem.encoding ++ [breakByte])
      (.array (acc ++ items.map EncodedItem.value)) := by
  induction items generalizing acc rounds with
  | nil =>
    obtain ⟨rounds, rfl⟩ : ∃ n, rounds = n + 1 := ⟨rounds - 1, by omega⟩
    rw [List.map_nil, List.append_nil]
    exact YieldsAt.get_bind (Yields.pure _ _)
  | cons item items ih =>
    obtain ⟨c, bs, henc, hreads⟩ := item.exists_reads
    rw [List.flatMap_cons, henc, List.cons_append, List.length_cons, List.length_append]
      at hfuel hrounds
    rw [List.flatMap_cons, henc, List.cons_append, List.cons_append, List.append_assoc]
    obtain ⟨rounds, rfl⟩ : ∃ n, rounds = n + 1 := ⟨rounds - 1, by omega⟩
    have hrest := ih (acc ++ [item.value]) (show _ ≤ fuel by omega) (show _ < rounds by omega)
    rw [List.append_assoc] at hrest
    have hne : some c ≠ some (0xff : Byte) := fun h => hreads.ne_break (Option.some.inj h)
    refine YieldsAt.get_bind ?_
    rw [if_neg hne]
    exact (hreads.yieldsAt (by rw [List.length_cons]; omega)).bind hrest

theorem fromCborString_definiteArray (items : List EncodedItem) {width : HeadWidth}
    (h : width.Fits items.length) : Json.fromCborString (definiteArray width items) =
      .ok (.array (items.map EncodedItem.value)) := by
  apply Json.fromCborString_of_yields
  intro c
  refine (leads_head .array h _ c).yields (yields_readElements_items items [] ?_)
  rw [definiteArray, List.length_append]
  exact Nat.le_add_left _ _

theorem fromCborString_indefiniteArray (items : List EncodedItem) :
    Json.fromCborString (indefiniteArray items) = .ok (.array (items.map EncodedItem.value)) := by
  apply Json.fromCborString_of_yields
  rw [indefiniteArray, List.cons_append]
  refine yields_parseCbor ?_
  refine yields_readElementsUntil_items items [] ?_ ?_ _
  · rw [List.length_cons, List.length_append]
    omega
  · rw [List.length_cons, List.length_append, List.length_singleton]
    omega

/-! ## Maps -/

/-- The map of the pairs. -/
def mapOf (pairs : List EncodedPair) (acc : StringMap Json) : StringMap Json :=
  pairs.foldl (fun m pair => Json.assign m pair.key.key pair.item.value) acc

theorem EncodedPair.exists_reads (pair : EncodedPair) :
    ∃ c bs, pair.encoding = c :: bs ++ pair.item.encoding ∧
      ReadsItem c bs (.string pair.key.key) := by
  obtain ⟨c, bs, henc, hreads⟩ := pair.key.exists_reads
  refine ⟨c, bs, ?_, hreads⟩
  rw [encoding, henc]

/-- A pair of a map, after the first byte of its key. -/
theorem ReadsItem.yields_pair {c : Byte} {bs : List Byte} {pair : EncodedPair}
    (hkey : ReadsItem c bs (.string pair.key.key)) {fuel : Nat}
    {f : Key → Json → Action RawMemIstream Json} {cs : List Byte} {j : Json}
    (hfuel : bs.length + pair.item.encoding.length ≤ fuel)
    (hrest : Yields (f pair.key.key pair.item.value) cs j) :
    YieldsAt (some c) (do
      let k ← getCborString fuel
      let j ← parseCbor fuel true
      f k j) (bs ++ (pair.item.encoding ++ cs)) j :=
  (hkey.yieldsAt_getCborString (by omega)).bind ((pair.item.yields (by omega)).bind hrest)

theorem yields_readMembers_pairs (pairs : List EncodedPair) (acc : StringMap Json) {fuel : Nat}
    (hfuel : (pairs.flatMap EncodedPair.encoding).length ≤ fuel) :
    Yields (readMembers (getCborString fuel) (parseCbor fuel true) pairs.length acc :
      Action RawMemIstream Json) (pairs.flatMap EncodedPair.encoding)
      (.object (mapOf pairs acc)) := by
  induction pairs generalizing acc with
  | nil => exact Yields.pure _
  | cons pair pairs ih =>
    obtain ⟨c, bs, henc, hreads⟩ := pair.exists_reads
    rw [List.flatMap_cons, henc, List.length_append, List.length_append, List.length_cons] at hfuel
    rw [List.flatMap_cons, henc, List.cons_append, List.cons_append, List.append_assoc]
    refine YieldsAt.get_bind ?_
    exact hreads.yields_pair (by omega) (ih _ (by omega))

/-- The loop stops at the break, and at none in a key or an item. -/
theorem yields_readMembersUntil_pairs (pairs : List EncodedPair) (acc : StringMap Json)
    {fuel rounds : Nat} (hfuel : (pairs.flatMap EncodedPair.encoding).length ≤ fuel)
    (hrounds : (pairs.flatMap EncodedPair.encoding).length < rounds) :
    Yields (readMembersUntil (getCborString fuel) (parseCbor fuel true) rounds acc :
      Action RawMemIstream Json) (pairs.flatMap EncodedPair.encoding ++ [breakByte])
      (.object (mapOf pairs acc)) := by
  induction pairs generalizing acc rounds with
  | nil =>
    obtain ⟨rounds, rfl⟩ : ∃ n, rounds = n + 1 := ⟨rounds - 1, by omega⟩
    exact YieldsAt.get_bind (Yields.pure _ _)
  | cons pair pairs ih =>
    obtain ⟨c, bs, henc, hreads⟩ := pair.exists_reads
    rw [List.flatMap_cons, henc, List.length_append, List.length_append, List.length_cons]
      at hfuel hrounds
    rw [List.flatMap_cons, henc, List.cons_append, List.cons_append, List.cons_append,
      List.append_assoc, List.append_assoc]
    obtain ⟨rounds, rfl⟩ : ∃ n, rounds = n + 1 := ⟨rounds - 1, by omega⟩
    have hne : some c ≠ some (0xff : Byte) := fun h => hreads.ne_break (Option.some.inj h)
    refine YieldsAt.get_bind ?_
    rw [if_neg hne]
    exact hreads.yields_pair (by omega) (ih _ (by omega) (by omega))

theorem fromCborString_definiteMap (pairs : List EncodedPair) {width : HeadWidth}
    (h : width.Fits pairs.length) : Json.fromCborString (definiteMap width pairs) =
      .ok (.object (mapOf pairs .empty)) := by
  apply Json.fromCborString_of_yields
  intro c
  refine (leads_head .map h _ c).yields (yields_readMembers_pairs pairs .empty ?_)
  rw [definiteMap, List.length_append]
  exact Nat.le_add_left _ _

theorem fromCborString_indefiniteMap (pairs : List EncodedPair) :
    Json.fromCborString (indefiniteMap pairs) = .ok (.object (mapOf pairs .empty)) := by
  apply Json.fromCborString_of_yields
  rw [indefiniteMap, List.cons_append]
  refine yields_parseCbor ?_
  refine yields_readMembersUntil_pairs pairs .empty ?_ ?_ _
  · rw [List.length_cons, List.length_append]
    omega
  · rw [List.length_cons, List.length_append, List.length_singleton]
    omega

/-! ## Text strings -/

/-- The loop over a text string takes what comes before the first break. -/
theorem yields_getStringUntil {s : List Byte} (hs : breakByte ∉ s) (acc : List Byte) {rounds : Nat}
    (hrounds : s.length < rounds) :
    Yields (getStringUntil rounds acc : Action RawMemIstream (List Byte)) (s ++ [breakByte])
      (acc ++ s) := by
  induction s generalizing acc rounds with
  | nil =>
    obtain ⟨rounds, rfl⟩ : ∃ n, rounds = n + 1 := ⟨rounds - 1, by omega⟩
    rw [List.append_nil]
    exact YieldsAt.get_bind (Yields.pure _ _)
  | cons c s ih =>
    rw [List.mem_cons, not_or] at hs
    rw [List.length_cons] at hrounds
    obtain ⟨rounds, rfl⟩ : ∃ n, rounds = n + 1 := ⟨rounds - 1, by omega⟩
    have hrest := ih hs.2 (acc ++ [c]) (show _ < rounds by omega)
    rw [List.append_assoc] at hrest
    have hne : some c ≠ some (0xff : Byte) := fun h => hs.1 (Option.some.inj h).symm
    refine YieldsAt.get_bind ?_
    rw [if_neg hne]
    exact YieldsAt.checkEof_bind (hrest _)

theorem yieldsAt_getCborString_until {s : List Byte} (hs : breakByte ∉ s) {fuel : Nat}
    (hfuel : s.length < fuel) :
    YieldsAt (some 0x7f) (getCborString fuel : Action RawMemIstream (List Byte))
      (s ++ [breakByte]) s :=
  YieldsAt.checkEof_bind (yields_getStringUntil hs [] hfuel _)

theorem fromCborString_until {s : List Byte} (hs : breakByte ∉ s) (rest : List Byte) :
    Json.fromCborString (0x7f :: (s ++ [breakByte]) ++ rest) = .ok (.string s) := by
  have hfuel : s.length < (0x7f :: (s ++ [breakByte]) ++ rest).length := by
    rw [List.length_append, List.length_cons, List.length_append]
    omega
  have hstring := (yieldsAt_getCborString_until hs hfuel).bind
    (f := fun s => pure (Json.string s)) (Yields.pure (Json.string s))
  rw [List.append_nil] at hstring
  rw [Json.fromCborString, Json.fromCbor_of_yields rest (yields_parseCbor hstring)]

/-- A text string of definite length as a key. -/
def encodedText (width : HeadWidth) (s : List Byte) (h : width.Fits s.length) : EncodedKey where
  encoding := head .text width s.length ++ s
  key := s
  reads := by
    have hyields : Yields (parseCbor ((head .text width s.length ++ s ++ []).length + 1) true :
        Action RawMemIstream Json) (head .text width s.length ++ s) (.string s) := fun c =>
      (leads_head .text h _ c).yields ((yields_getString s).map Json.string)
    have hread := Json.fromCbor_of_yields [] hyields
    rwa [List.append_nil] at hread

/-- A text string of indefinite length without chunks as a key. -/
def encodedBreak : EncodedKey where
  encoding := [0x7f, breakByte]
  key := []
  reads := rfl

def encodedBoolean (b : Bool) : EncodedItem where
  encoding := [if b then 0xf5 else 0xf4]
  value := .boolean b
  reads := by
    cases b with
    | false => rfl
    | true => rfl

theorem mapOf_append (before after : List EncodedPair) (pair : EncodedPair)
    (acc : StringMap Json) : mapOf (before ++ pair :: after) acc =
      mapOf after (Json.assign (mapOf before acc) pair.key.key pair.item.value) := by
  rw [mapOf, List.foldl_append, List.foldl_cons]
  rfl

theorem fromCborString_mapAround {width : HeadWidth} (before after : List EncodedPair)
    (key : EncodedKey) (item : EncodedItem) (h : width.Fits (before.length + 1 + after.length)) :
    Json.fromCborString (mapAround width before key.encoding item after) =
      .ok (.object (mapOf after (Json.assign (mapOf before .empty) key.key item.value))) := by
  have hlen : (before ++ ⟨key, item⟩ :: after).length = before.length + 1 + after.length := by
    rw [List.length_append, List.length_cons]
    omega
  have hmap := fromCborString_definiteMap (before ++ ⟨key, item⟩ :: after) (hlen ▸ h)
  rw [mapOf_append, definiteMap, hlen, List.flatMap_append, List.flatMap_cons] at hmap
  rw [← hmap, mapAround, EncodedPair.encoding]
  simp only [List.append_assoc]

theorem fromCborString_definiteText {chunks : List TextChunk} {width : HeadWidth}
    (h : width.Fits (contents chunks).length) :
    Json.fromCborString (definiteText width chunks) = .ok (.string (contents chunks)) :=
  congrArg Prod.fst (encodedText width (contents chunks) h).reads

/-- Without chunks there are no heads. -/
theorem sameText_nil {width : HeadWidth} (h : width.Fits (contents []).length) :
    SameText (indefiniteText []) (definiteText width []) := by
  constructor
  · exact ⟨.string [], congrArg Prod.fst encodedBreak.reads, fromCborString_definiteText h⟩
  · intro mapWidth before after item hmap
    exact ⟨_, fromCborString_mapAround before after encodedBreak item hmap,
      fromCborString_mapAround before after (encodedText width [] h) item hmap⟩

/-- The heads of the chunks make their encoding longer than what they contain. -/
theorem length_contents_lt {chunks : List TextChunk} (h : chunks ≠ []) :
    (contents chunks).length < (chunks.flatMap TextChunk.encoding).length := by
  have hle (chunks : List TextChunk) :
      (contents chunks).length ≤ (chunks.flatMap TextChunk.encoding).length := by
    induction chunks with
    | nil => exact Nat.le_refl 0
    | cons chunk chunks ih =>
      rw [contents, List.flatMap_cons, List.flatMap_cons, List.length_append, List.length_append,
        TextChunk.encoding, List.length_append]
      rw [contents] at ih
      omega
  cases chunks with
  | nil => exact absurd rfl h
  | cons chunk chunks =>
    have hrest := hle chunks
    have hhead : 0 < (head .text chunk.width chunk.content.length).length := Nat.succ_pos _
    rw [contents, List.flatMap_cons, List.flatMap_cons, List.length_append, List.length_append,
      TextChunk.encoding, List.length_append]
    rw [contents] at hrest
    omega

/-- The value of a map with one key. -/
theorem eq_of_assign_eq {s : Key} {v w : Json}
    (h : Json.assign .empty s v = Json.assign .empty s w) : v = w := by
  have hlist := congrArg StringMap.toList h
  rw [Json.toList_singleton, Json.toList_singleton] at hlist
  exact (Prod.mk.inj (List.cons.inj hlist).1).2

/-- What is left of a map with one key after the key. -/
theorem leads_afterHead_map {s : List Byte} (hs : breakByte ∉ s) {fuel : Nat}
    (hfuel : s.length < fuel) :
    Leads (afterHead fuel .map 1 : Action RawMemIstream Json) (0x7f :: (s ++ [breakByte]))
      (parseCbor fuel true >>= fun j => pure (Json.object (Json.assign .empty s j))) := by
  have hkey := (yieldsAt_getCborString_until hs hfuel).leads fun k =>
    parseCbor fuel true >>= fun j => pure (Json.object (Json.assign .empty k j))
  have hget : Leads (BinaryReader.get >>= fun _ => getCborString fuel >>= fun k =>
      parseCbor fuel true >>= fun j => pure (Json.object (Json.assign .empty k j)) :
        Action RawMemIstream Json) (0x7f :: (s ++ [breakByte]))
      (parseCbor fuel true >>= fun j => pure (Json.object (Json.assign .empty s j))) :=
    LeadsAt.get_bind hkey
  exact hget

/-- When the only key of a map is the string up to a break, the value begins after the break. -/
theorem head_of_map {s rest : List Byte} (hs : breakByte ∉ s) {z : Byte} {b : Bool}
    (hread : Json.fromCborString (head .map .immediate 1 ++
      (0x7f :: (s ++ [breakByte]) ++ z :: rest)) =
        .ok (.object (Json.assign .empty s (.boolean b)))) : z = if b then 0xf5 else 0xf4 := by
  have hfits : HeadWidth.immediate.Fits 1 := show 1 ≤ 0x17 by omega
  obtain ⟨br, hrun, he, hcontent⟩ :=
    Json.fromCborString_head .map hfits (0x7f :: (s ++ [breakByte]) ++ z :: rest)
  rw [hread] at hrun
  generalize hfuel : (head .map .immediate 1 ++
    (0x7f :: (s ++ [breakByte]) ++ z :: rest)).length = fuel at hrun
  rw [List.length_append, List.length_append, List.length_cons, List.length_append] at hfuel
  obtain ⟨fuel, rfl⟩ : ∃ n, fuel = n + 1 := ⟨fuel - 1, by omega⟩
  have hlen : s.length < fuel + 1 := by omega
  obtain ⟨br₁, hrun₁, he₁, hcontent₁⟩ :=
    leads_afterHead_map hs hlen br.current br (z :: rest) rfl he hcontent
  obtain ⟨j, br₂, hvalue, hpure⟩ := exists_of_run_bind (hrun₁.symm.trans (Prod.ext hrun.symm rfl))
  obtain ⟨c, bs, hcontent₂, hreads⟩ := exists_readsItem_of_run he₁ hvalue
  rw [hcontent₁, List.cons_append] at hcontent₂
  have hj : Json.object (Json.assign .empty s j) = .object (Json.assign .empty s (.boolean b)) :=
    Except.ok.inj (Prod.mk.inj hpure).1
  obtain rfl : j = .boolean b := eq_of_assign_eq (Json.object.inj hj)
  rw [(List.cons.inj hcontent₂).1]
  exact hreads.eq_of_boolean

/-- With a chunk there are heads, which are taken for text. A break among them ends the text early,
and what comes after it is taken for the value when the text is a key. -/
theorem not_sameText {chunks : List TextChunk} {width : HeadWidth}
    (h : width.Fits (contents chunks).length) (hne : chunks ≠ []) :
    ¬SameText (indefiniteText chunks) (definiteText width chunks) := by
  rintro ⟨⟨j, hindefinite, hdefinite⟩, hkey⟩
  cases hdefinite.symm.trans (fromCborString_definiteText h)
  by_cases hbreak : breakByte ∈ chunks.flatMap TextChunk.encoding
  · obtain ⟨r, rest, henc, hr⟩ := List.eq_append_cons_of_mem hbreak
    have hsplit : indefiniteText chunks = 0x7f :: (r ++ [breakByte]) ++ (rest ++ [breakByte]) := by
      rw [indefiniteText, henc]
      simp only [List.cons_append, List.append_assoc, List.nil_append]
    rw [hsplit, fromCborString_until hr] at hindefinite
    obtain rfl : r = contents chunks := Json.string.inj (Except.ok.inj hindefinite)
    obtain ⟨z, tail, hz⟩ : ∃ z tail, rest ++ [breakByte] = z :: tail := by
      cases rest with
      | nil => exact ⟨_, _, rfl⟩
      | cons z rest => exact ⟨_, _, rfl⟩
    -- The value of the map is the boolean in one reading and `z` in the other.
    have hone : HeadWidth.immediate.Fits 1 := show 1 ≤ 0x17 by omega
    have hvalue (b : Bool) : z = if b then 0xf5 else 0xf4 := by
      obtain ⟨j, hindefinite', hdefinite'⟩ := hkey .immediate [] [] (encodedBoolean b) hone
      have hmap := fromCborString_mapAround [] [] (encodedText width (contents chunks) h)
        (encodedBoolean b) hone
      cases hdefinite'.symm.trans hmap
      have hbytes : mapAround .immediate [] (indefiniteText chunks) (encodedBoolean b) [] =
          head .map .immediate 1 ++ (0x7f :: (contents chunks ++ [breakByte]) ++
            z :: (tail ++ (encodedBoolean b).encoding)) := by
        rw [mapAround, hsplit, hz]
        simp
      exact head_of_map hr (hbytes ▸ hindefinite')
    exact absurd ((hvalue true).symm.trans (hvalue false)) (by decide)
  · have hread := fromCborString_until hbreak []
    rw [List.append_nil] at hread
    have hstring := Json.string.inj (Except.ok.inj (hread.symm.trans hindefinite))
    have hlt := length_contents_lt hne
    rw [hstring] at hlt
    exact Nat.lt_irrefl _ hlt

theorem sameText_iff {chunks : List TextChunk} {width : HeadWidth}
    (h : width.Fits (contents chunks).length) :
    SameText (indefiniteText chunks) (definiteText width chunks) ↔ chunks = [] := by
  constructor
  · intro hsame
    by_contra hne
    exact not_sameText h hne hsame
  · rintro rfl
    exact sameText_nil h

/-- Arrays and maps have the same value as those of definite length, and text strings exactly when
they have no chunks. -/
theorem sameValue_iff (items : List EncodedItem) (pairs : List EncodedPair)
    (chunks : List TextChunk) {arrayWidth mapWidth textWidth : HeadWidth}
    (hitems : arrayWidth.Fits items.length) (hpairs : mapWidth.Fits pairs.length)
    (hchunks : textWidth.Fits (contents chunks).length) :
    (SameValue (indefiniteArray items) (definiteArray arrayWidth items) ∧
        SameValue (indefiniteMap pairs) (definiteMap mapWidth pairs) ∧
        SameText (indefiniteText chunks) (definiteText textWidth chunks)) ↔ chunks = [] := by
  have harray : SameValue (indefiniteArray items) (definiteArray arrayWidth items) :=
    ⟨_, fromCborString_indefiniteArray items, fromCborString_definiteArray items hitems⟩
  have hmap : SameValue (indefiniteMap pairs) (definiteMap mapWidth pairs) :=
    ⟨_, fromCborString_indefiniteMap pairs, fromCborString_definiteMap pairs hpairs⟩
  rw [and_iff_right harray, and_iff_right hmap, sameText_iff hchunks]

/-- The text string `a`, with its length in the first byte. -/
def chunkA : TextChunk := ⟨bytes "a", .immediate, show 1 ≤ 0x17 by omega⟩

/-- The pair of the key `a` and the value `true`. -/
def pairA : EncodedPair := ⟨encodedText .immediate (bytes "a") chunkA.fits, encodedBoolean true⟩

theorem sameValue_iff_of_pair :
    HeadWidth.immediate.Fits 2 ∧ HeadWidth.one.Fits 1 ∧ HeadWidth.immediate.Fits 0 ∧
      ((SameValue (indefiniteArray [pairA.item, pairA.item])
            (definiteArray .immediate [pairA.item, pairA.item]) ∧
          SameValue (indefiniteMap [pairA]) (definiteMap .one [pairA]) ∧
          SameText (indefiniteText []) (definiteText .immediate [])) ↔ ([] : List TextChunk) = []) :=
  have hitems : HeadWidth.immediate.Fits 2 := show 2 ≤ 0x17 by omega
  have hpairs : HeadWidth.one.Fits 1 := show 1 < 2 ^ 8 by omega
  have hchunks : HeadWidth.immediate.Fits 0 := show 0 ≤ 0x17 by omega
  ⟨hitems, hpairs, hchunks,
    sameValue_iff [pairA.item, pairA.item] [pairA] [] hitems hpairs hchunks⟩

/-- The head `0x61` of the chunk is read as a letter of the text. -/
theorem not_sameText_chunkA :
    indefiniteText [chunkA] = [0x7f, 0x61, 0x61, 0xff] ∧
      Json.fromCborString (indefiniteText [chunkA]) = .ok (.string (bytes "aa")) ∧
      Json.fromCborString (definiteText .immediate [chunkA]) = .ok (.string (bytes "a")) ∧
      ¬SameText (indefiniteText [chunkA]) (definiteText .immediate [chunkA]) := by
  have hfits : HeadWidth.immediate.Fits (contents [chunkA]).length := chunkA.fits
  refine ⟨rfl, rfl, rfl, not_sameText hfits ?_⟩
  exact List.cons_ne_nil _ _

end Cbor

end Wpi
