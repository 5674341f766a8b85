import WpiUtil.Json.Comparison
import WpiUtil.Json.Proofs.JsonProofs
import WpiUtil.Llvm.Proofs.SortItemsProofs

/-!
# What `operator==` compares
-/

namespace Wpi

open StringMap

/-! ## Values modulo `2 ^ 64` -/

namespace Value

theorem wrapMember_eq (x : Option Value) : wrapMember x = x.map wrap := by
  cases x <;> rfl

theorem wrapElements_eq (xs : List Value) : wrapElements xs = xs.map wrap := by
  induction xs with
  | nil => rfl
  | cons x xs ih => rw [wrapElements, ih, List.map_cons]

@[simp] theorem wrap_array (xs : List Value) : (array xs).wrap = array (xs.map wrap) := by
  rw [wrap, wrapElements_eq]

@[simp] theorem wrap_object (f : Key → Option Value) :
    (object f).wrap = object fun key => (f key).map wrap := by
  simp only [wrap, wrapMember_eq]

/-- Induction over a value: its members, or its elements. -/
@[elab_as_elim]
theorem induct {P : Value → Prop} (null : P null)
    (object : ∀ f : Key → Option Value, (∀ key v, f key = some v → P v) → P (object f))
    (array : ∀ xs : List Value, (∀ x ∈ xs, P x) → P (array xs)) (string : ∀ s, P (string s))
    (boolean : ∀ b, P (boolean b)) (integer : ∀ n, P (integer n))
    (float : ∀ bits, P (float bits)) (discarded : P discarded) (v : Value) : P v := by
  refine @Value.rec P (fun x => ∀ v, x = some v → P v) (fun xs => ∀ x ∈ xs, P x)
    null object array string boolean integer float discarded ?_ ?_ ?_ ?_ v
  · intro v h
    cases h
  · intro v hv v' h
    cases h
    exact hv
  · intro x hx
    cases hx
  · intro x xs hx hxs
    exact List.forall_mem_cons.2 ⟨hx, hxs⟩

theorem Aliases.ne {v v' : Value} (h : Aliases v v') : v ≠ v' := by
  induction h with
  | integer hne _ =>
    intro h
    cases h
    exact hne rfl
  | element i hx hy _ ih =>
    intro h
    cases h
    rw [hx] at hy
    exact ih (Option.some.inj hy)
  | member key hx hy _ ih =>
    intro h
    cases h
    rw [hx] at hy
    exact ih (Option.some.inj hy)

theorem exists_of_map_eq {x x' : Option Value} (h : x.map wrap = x'.map wrap) (hne : x ≠ x') :
    ∃ v v', x = some v ∧ x' = some v' ∧ v.wrap = v'.wrap ∧ v ≠ v' := by
  cases x with
  | none =>
    cases x' with
    | none => exact absurd rfl hne
    | some v' => cases h
  | some v =>
    cases x' with
    | none => cases h
    | some v' =>
      rw [Option.map_some, Option.map_some, Option.some.injEq] at h
      exact ⟨v, v', rfl, rfl, h, fun heq => hne (congrArg some heq)⟩

/-- Values that are the same modulo `2 ^ 64` only differ where they hold different integers. -/
theorem aliases_of_wrap_eq {v v' : Value} (h : v.wrap = v'.wrap) (hne : v ≠ v') :
    Aliases v v' := by
  induction v using Value.induct generalizing v' with
  | null => cases v' <;> first | exact absurd rfl hne | cases h
  | object f ih =>
    cases v' with
    | object g =>
      rw [wrap_object, wrap_object, object.injEq] at h
      obtain ⟨key, hkey⟩ := Function.ne_iff.1 fun heq => hne (congrArg object heq)
      obtain ⟨x, y, hx, hy, hwrap, hxy⟩ := exists_of_map_eq (congrFun h key) hkey
      exact .member key hx hy (ih key x hx hwrap hxy)
    | _ => cases h
  | array xs ih =>
    cases v' with
    | array ys =>
      rw [wrap_array, wrap_array, array.injEq] at h
      obtain ⟨i, hi⟩ : ∃ i : Nat, xs[i]? ≠ ys[i]? := by
        by_contra! hall
        exact hne (congrArg array (List.ext_getElem? hall))
      have hmap := congrArg (fun l : List Value => l[i]?) h
      simp only [List.getElem?_map] at hmap
      obtain ⟨x, y, hx, hy, hwrap, hxy⟩ := exists_of_map_eq hmap hi
      exact .element i hx hy (ih x (List.mem_of_getElem? hx) hwrap hxy)
    | _ => cases h
  | integer m =>
    cases v' with
    | integer n =>
      rw [wrap, wrap, integer.injEq] at h
      exact .integer (fun heq => hne (congrArg integer heq)) h
    | _ => cases h
  | string s => cases v' <;> first | exact absurd h hne | cases h
  | boolean b => cases v' <;> first | exact absurd h hne | cases h
  | float bits => cases v' <;> first | exact absurd h hne | cases h
  | discarded => cases v' <;> first | exact absurd rfl hne | cases h

end Value

/-! ## Equality -/

namespace Json

theorem eqElements_iff (xs ys : List Json) :
    eqElements xs ys = true ↔ List.Forall₂ (fun x y => eq x y = true) xs ys := by
  induction xs generalizing ys with
  | nil => cases ys <;> simp [eqElements]
  | cons x xs ih =>
    cases ys with
    | nil => simp [eqElements]
    | cons y ys => rw [eqElements, Bool.and_eq_true, ih, List.forall₂_cons]

theorem eqValues_eq (table : List (Bucket Json)) :
    eqValues table = (entries table).map fun e => (e.1, eq e.2) := by
  induction table with
  | nil => rfl
  | cons bucket table ih =>
    cases bucket with
    | empty => exact ih
    | tombstone => exact ih
    | item hash key value =>
      rw [eqValues, ih]
      rfl

theorem eq_array (xs ys : List Json) :
    eq (array xs) (array ys) = true ↔ List.Forall₂ (fun x y => eq x y = true) xs ys := by
  rw [eq, eqElements_iff]

theorem eq_object_eq (m m' : StringMap Json) : eq (object m) (object m') =
    (m.size == m'.size && equalItems (sortItems (eqValues m.theTable)) (sortItems m'.toList)) := by
  rw [eq]
  rfl

/-- Objects are equal if their items are equal in the order of the keys. -/
theorem eq_object {m m' : StringMap Json} (hm : m.WF) (hm' : m'.WF) :
    eq (object m) (object m') = true ↔
      List.Forall₂ (fun e e' => e.1 = e'.1 ∧ eq e.2 e'.2 = true) (sortItems m.toList)
        (sortItems m'.toList) := by
  have hsize : m.size = (sortItems m.toList).length :=
    hm.numItems.trans (sortItems_perm m.toList).length_eq.symm
  have hsize' : m'.size = (sortItems m'.toList).length :=
    hm'.numItems.trans (sortItems_perm m'.toList).length_eq.symm
  rw [eq_object_eq, Bool.and_eq_true, eqValues_eq, ← map_sortItems eq, beq_iff_eq, hsize, hsize']
  constructor
  · rintro ⟨hlength, h⟩
    exact (equalItems_iff hlength).1 h
  · intro h
    exact ⟨h.length_eq, (equalItems_iff h.length_eq).2 h⟩

/-! ## Equality of integral values -/

theorem Integral.of_mem_array {xs : List Json} (h : (array xs).Integral) {x : Json} (hx : x ∈ xs) :
    x.Integral :=
  ⟨((all_array xs).1 h.maps).2 x hx, ((all_array xs).1 h.noFloat).2 x hx,
    ((all_array xs).1 h.noDiscarded).2 x hx⟩

theorem Integral.of_mem_object {m : StringMap Json} (h : (object m).Integral) {e : Key × Json}
    (he : e ∈ m.toList) : e.2.Integral :=
  ⟨((all_object m).1 h.maps).2 e he, ((all_object m).1 h.noFloat).2 e he,
    ((all_object m).1 h.noDiscarded).2 e he⟩

theorem forall₂_iff_map_eq {α β γ : Type} {R : α → β → Prop} {f : α → γ} {g : β → γ} {xs : List α}
    {ys : List β} (h : ∀ x ∈ xs, ∀ y ∈ ys, (R x y ↔ f x = g y)) :
    List.Forall₂ R xs ys ↔ xs.map f = ys.map g := by
  induction xs generalizing ys with
  | nil => cases ys <;> simp
  | cons x xs ih =>
    cases ys with
    | nil => simp
    | cons y ys =>
      have hx : R x y ↔ f x = g y := h x (List.mem_cons_self ..) y (List.mem_cons_self ..)
      have hxs : List.Forall₂ R xs ys ↔ xs.map f = ys.map g :=
        ih fun x hx y hy => h x (List.mem_cons_of_mem _ hx) y (List.mem_cons_of_mem _ hy)
      rw [List.forall₂_cons, hx, hxs, List.map_cons, List.map_cons, List.cons.injEq]

theorem toInt_toInt64 (n : UInt64) : n.toInt64.toInt = (n.toNat : Int).bmod (2 ^ 64) := by
  rw [UInt64.toInt64, Int64.toInt]
  exact BitVec.toInt_eq_toNat_bmod _

theorem int64_eq_iff (n n' : Int64) : n = n' ↔ n.toInt % 2 ^ 64 = n'.toInt % 2 ^ 64 := by
  have hlow := n.le_toInt
  have hhigh := n.toInt_lt
  have hlow' := n'.le_toInt
  have hhigh' := n'.toInt_lt
  rw [← Int64.toInt_inj]
  omega

theorem uint64_eq_iff (n n' : UInt64) :
    n = n' ↔ (n.toNat : Int) % 2 ^ 64 = (n'.toNat : Int) % 2 ^ 64 := by
  have hlt := n.toNat_lt
  have hlt' := n'.toNat_lt
  rw [← UInt64.toNat_inj]
  omega

/-- The cast before a mixed comparison. -/
theorem cast_eq_iff (n : Int64) (n' : UInt64) :
    n = n'.toInt64 ↔ n.toInt % 2 ^ 64 = (n'.toNat : Int) % 2 ^ 64 := by
  have hmod : (n'.toNat : Int).bmod (2 ^ 64) % 2 ^ 64 = (n'.toNat : Int) % 2 ^ 64 :=
    Int.bmod_emod
  rw [int64_eq_iff, toInt_toInt64, hmod]

/-- `operator==` compares the values denoted modulo `2 ^ 64`. -/
theorem eq_iff {a b : Json} (ha : a.Integral) (hb : b.Integral) :
    eq a b = true ↔ a.denote.wrap = b.denote.wrap := by
  induction a using Json.induct generalizing b with
  | null => cases b <;> simp [eq, denote, Value.wrap]
  | object m ih =>
    cases b with
    | object m' =>
      have hm : m.WF := ha.maps.self
      have hm' : m'.WF := hb.maps.self
      let f := fun j : Json => j.denote.wrap
      have hitems : ∀ e ∈ sortItems m.toList, ∀ e' ∈ sortItems m'.toList,
          (e.1 = e'.1 ∧ eq e.2 e'.2 = true ↔ (e.1, f e.2) = (e'.1, f e'.2)) := by
        intro e he e' he'
        rw [(sortItems_perm _).mem_iff] at he he'
        rw [ih e he (ha.of_mem_object he) (hb.of_mem_object he'), Prod.mk.injEq]
      have hnodup : ((m.toList.map fun e => (e.1, f e.2)).map Prod.fst).Nodup := by
        rw [List.map_map]
        exact hm.table.nodup
      have hnodup' : ((m'.toList.map fun e => (e.1, f e.2)).map Prod.fst).Nodup := by
        rw [List.map_map]
        exact hm'.table.nodup
      rw [eq_object hm hm', forall₂_iff_map_eq hitems, map_sortItems, map_sortItems,
        sortItems_eq_iff_perm hnodup, perm_iff_lookup hnodup hnodup', denote_object hm,
        denote_object hm', Value.wrap_object, Value.wrap_object, Value.object.injEq, funext_iff]
      simp only [lookup_map_snd, toList_lookup hm, toList_lookup hm', Option.map_map]
      rfl
    | _ => simp [eq, denote, Value.wrap]
  | array xs ih =>
    cases b with
    | array ys =>
      have helements : ∀ x ∈ xs, ∀ y ∈ ys, (eq x y = true ↔ x.denote.wrap = y.denote.wrap) :=
        fun x hx y hy => ih x hx (ha.of_mem_array hx) (hb.of_mem_array hy)
      rw [eq_array, forall₂_iff_map_eq helements, denote_array, denote_array,
        Value.wrap_array, Value.wrap_array, Value.array.injEq, List.map_map, List.map_map]
      rfl
    | _ => simp [eq, denote, Value.wrap]
  | string s => cases b <;> simp [eq, denote, Value.wrap]
  | boolean b => cases b <;> simp [eq, denote, Value.wrap]
  | numberInteger n =>
    cases b with
    | numberInteger n' => simpa [eq, denote, Value.wrap] using int64_eq_iff n n'
    | numberUnsigned n' => simpa [eq, denote, Value.wrap] using cast_eq_iff n n'
    | numberFloat bits => cases hb.noFloat.self
    | _ => simp [eq, denote, Value.wrap]
  | numberUnsigned n =>
    cases b with
    | numberInteger n' =>
      rw [eq, beq_iff_eq, eq_comm, cast_eq_iff, eq_comm]
      simp [denote, Value.wrap]
    | numberUnsigned n' => simpa [eq, denote, Value.wrap] using uint64_eq_iff n n'
    | numberFloat bits => cases hb.noFloat.self
    | _ => simp [eq, denote, Value.wrap]
  | numberFloat bits => cases ha.noFloat.self
  | discarded => cases ha.noDiscarded.self

/-- `operator==` tells whether the values are the same, unless they are the same modulo `2 ^ 64` and
hold different integers at some place. -/
theorem eq_iff_denote_eq_iff {a b : Json} (ha : a.Integral) (hb : b.Integral) :
    (eq a b = true ↔ a.denote = b.denote) ↔
      ¬(a.denote.wrap = b.denote.wrap ∧ Value.Aliases a.denote b.denote) := by
  rw [eq_iff ha hb]
  constructor
  · rintro h ⟨hwrap, haliases⟩
    exact haliases.ne (h.1 hwrap)
  · intro h
    constructor
    · intro hwrap
      by_contra hne
      exact h ⟨hwrap, Value.aliases_of_wrap_eq hwrap hne⟩
    · intro heq
      rw [heq]

theorem eq_iff_denote_eq_iff_numbers :
    (eq (numberInteger 5) (numberUnsigned 5) = true ↔
      (numberInteger 5).denote = (numberUnsigned 5).denote) ↔
      ¬((numberInteger 5).denote.wrap = (numberUnsigned 5).denote.wrap ∧
        Value.Aliases (numberInteger 5).denote (numberUnsigned 5).denote) :=
  eq_iff_denote_eq_iff ⟨trivial, rfl, rfl⟩ ⟨trivial, rfl, rfl⟩

/-- The largest unsigned number is equal to minus one. -/
theorem eq_of_denote_ne :
    ¬(eq (numberUnsigned 0xffffffffffffffff) (numberInteger (-1)) = true ↔
      (numberUnsigned 0xffffffffffffffff).denote = (numberInteger (-1)).denote) := by
  intro h
  have hdenote := h.1 rfl
  rw [denote, denote, Value.integer.injEq] at hdenote
  exact absurd hdenote (by decide)

theorem Integral.of_array {xs : List Json} (h : ∀ x ∈ xs, x.Integral) : (array xs).Integral := by
  refine ⟨(all_array xs).2 ⟨trivial, fun x hx => (h x hx).maps⟩, ?_, ?_⟩
  · exact (all_array xs).2 ⟨rfl, fun x hx => (h x hx).noFloat⟩
  · exact (all_array xs).2 ⟨rfl, fun x hx => (h x hx).noDiscarded⟩

theorem Integral.of_object {m : StringMap Json} (hm : m.WF) (h : ∀ e ∈ m.toList, e.2.Integral) :
    (object m).Integral := by
  refine ⟨(all_object m).2 ⟨hm, fun e he => (h e he).maps⟩, ?_, ?_⟩
  · exact (all_object m).2 ⟨rfl, fun e he => (h e he).noFloat⟩
  · exact (all_object m).2 ⟨rfl, fun e he => (h e he).noDiscarded⟩

/-- Whether a value is integral is a matter of what it denotes. -/
theorem Integral.of_denote_eq {j j' : Json} (hj : j.Integral) (hmaps : j'.All MapWF)
    (h : j'.denote = j.denote) : j'.Integral := by
  induction j' using Json.induct generalizing j with
  | object m' ih =>
    have hm' : m'.WF := hmaps.self
    cases j with
    | object m =>
      have hm : m.WF := hj.maps.self
      rw [denote_object hm', denote_object hm, Value.object.injEq] at h
      refine .of_object hm' fun e he => ?_
      have hkey := congrFun h e.1
      rw [(lookup?_eq_some_iff hm').2 he, Option.map_some, eq_comm, Option.map_eq_some_iff] at hkey
      obtain ⟨v, hv, hdenote⟩ := hkey
      exact ih e he (hj.of_mem_object ((lookup?_eq_some_iff hm).1 hv))
        (((all_object m').1 hmaps).2 e he) hdenote.symm
    | _ => simp [denote] at h
  | array ys ih =>
    cases j with
    | array xs =>
      rw [denote_array, denote_array, Value.array.injEq] at h
      refine .of_array fun y hy => ?_
      have hmem : y.denote ∈ xs.map denote := by
        rw [← h]
        exact List.mem_map_of_mem hy
      obtain ⟨x, hx, hdenote⟩ := List.mem_map.1 hmem
      exact ih y hy (hj.of_mem_array hx) (((all_array ys).1 hmaps).2 y hy) hdenote.symm
    | _ => simp [denote] at h
  | numberFloat bits =>
    cases j with
    | numberFloat bits' => cases hj.noFloat.self
    | _ => simp [denote] at h
  | discarded =>
    cases j with
    | discarded => cases hj.noDiscarded.self
    | _ => simp [denote] at h
  | null => exact ⟨trivial, rfl, rfl⟩
  | string s => exact ⟨trivial, rfl, rfl⟩
  | boolean b => exact ⟨trivial, rfl, rfl⟩
  | numberInteger n => exact ⟨trivial, rfl, rfl⟩
  | numberUnsigned n => exact ⟨trivial, rfl, rfl⟩

/-- Equal values are equal in both directions. -/
theorem eq_of_denote_eq {a b : Json} (ha : a.Integral) (hb : b.Integral)
    (h : a.denote = b.denote) : eq a b = true := by
  rw [eq_iff ha hb, h]

end Json

end Wpi
