import WpiUtil.Json.Proofs.UnflatteningProofs

/-!
# The values that come back

The first of the sorted pointers starts the container. For an array this is the pointer to the first
element, and for an object one under the member that sorts first.
-/

namespace Wpi.Json

open StringMap

/-! ## The first pointer -/

theorem escape_cons_lt_iff {c d : Byte} (hd : d < 0x7e) (cs l l' : Key) :
    escape (c :: cs) ++ l < d :: l' ↔
      c ≠ 0x2f ∧ (c < d ∨ c = d ∧ escape cs ++ l < l') := by
  have hnot : ∀ x : Key, ¬0x7e :: x < d :: l' := by
    intro x h
    rcases List.cons_lt_cons_iff.1 h with h | ⟨h, -⟩
    · exact UInt8.lt_irrefl _ (UInt8.lt_trans hd h)
    · rw [h] at hd
      exact UInt8.lt_irrefl _ hd
  rw [escape_cons]
  unfold escapeByte
  by_cases hslash : c = 0x2f
  · subst hslash
    rw [if_neg (by decide), if_pos rfl]
    exact iff_of_false (hnot _) fun h => h.1 rfl
  · by_cases htilde : c = 0x7e
    · subst htilde
      rw [if_pos rfl]
      refine iff_of_false (hnot _) fun h => ?_
      rcases h.2 with h | ⟨h, -⟩
      · exact UInt8.lt_irrefl _ (UInt8.lt_trans hd h)
      · rw [h] at hd
        exact UInt8.lt_irrefl _ hd
    · rw [if_neg htilde, if_neg hslash, List.singleton_append, List.cons_append,
        List.cons_lt_cons_iff]
      exact (and_iff_right hslash).symm

theorem lt_zero_iff {c : Byte} : c ≠ 0x2f ∧ c < 0x30 ↔ c < 0x2f := by
  rw [UInt8.lt_iff_toNat_lt, UInt8.lt_iff_toNat_lt, Ne, ← UInt8.toNat_inj]
  simp
  omega

/-- Whether a pointer under another member comes before one under the member `"0"`. -/
theorem toString_lt_zero_iff {k : Key} (hk : k ≠ bytes "0") {p : JsonPointer} {zero : Json}
    (hp : p = [] ↔ zero.isContainer = false) (q : JsonPointer) :
    JsonPointer.toString (k :: q) < JsonPointer.toString (bytes "0" :: p) ↔
      SortsBeforeZero zero k := by
  have hzero : escape (bytes "0") = [0x30] := rfl
  rw [toString_cons, toString_cons, cons_lt_cons_self, hzero, List.singleton_append]
  cases k with
  | nil =>
    rw [escape_nil, List.nil_append]
    refine iff_of_true ?_ trivial
    cases q with
    | nil => exact List.nil_lt_cons _ _
    | cons t q =>
      rw [toString_cons, List.cons_lt_cons_iff]
      exact Or.inl (by decide)
  | cons c cs =>
    rw [escape_cons_lt_iff (by decide), SortsBeforeZero, and_or_left, lt_zero_iff]
    refine or_congr_right ?_
    by_cases hc : c = 0x30
    · subst hc
      simp only [ne_eq, true_and]
      rw [and_iff_right (by decide)]
      cases cs with
      | nil => exact absurd rfl hk
      | cons d ds =>
        cases p with
        | nil =>
          rw [hp.1 rfl, toString_nil]
          simp
        | cons t p =>
          have hcontainer : zero.isContainer = true := by
            rw [← Bool.not_eq_false, ← hp]
            exact List.cons_ne_nil _ _
          rw [toString_cons, escape_cons_lt_iff (by decide)]
          constructor
          · rintro ⟨hne, hlt | ⟨heq, -⟩⟩
            · exact ⟨hcontainer, d, rfl, hlt⟩
            · exact absurd heq hne
          · rintro ⟨-, d', hd', hlt⟩
            cases hd'
            refine ⟨?_, Or.inl hlt⟩
            rintro rfl
            exact UInt8.lt_irrefl _ hlt
    · simp [hc]

theorem exists_of_mem_leaves {j : Json} (hc : j.isContainer = true) (hne : NodeNonempty j)
    {e : JsonPointer × Json} (he : e ∈ j.leaves) :
    ∃ t p c, e.1 = t :: p ∧ (t, c) ∈ j.children ∧ (p, e.2) ∈ c.leaves := by
  rw [leaves_eq hc hne, List.mem_flatMap] at he
  obtain ⟨⟨t, c⟩, ht, he⟩ := he
  obtain ⟨⟨p, v⟩, hp, rfl⟩ := List.mem_map.1 he
  exact ⟨t, p, c, rfl, ht, hp⟩

/-- The leaf in a primitive value is the value itself, and a container has none at its own place. -/
theorem pointer_eq_nil_iff {j : Json} (hne : NodeNonempty j) {p : JsonPointer} {v : Json}
    (h : (p, v) ∈ j.leaves) : p = [] ↔ j.isContainer = false := by
  cases hc : j.isContainer with
  | false =>
    rw [leaves_leaf (Or.inl hc), List.mem_singleton] at h
    cases h
    simp
  | true =>
    obtain ⟨t, q, c, hp, -, -⟩ := exists_of_mem_leaves hc hne h
    rw [show p = t :: q from hp]
    simp

theorem head_le {e : JsonPointer × Json} {leaves : List (JsonPointer × Json)}
    (hsorted : Sorted (e :: leaves)) {a : JsonPointer × Json} (ha : a ∈ e :: leaves) :
    JsonPointer.toString e.1 ≤ JsonPointer.toString a.1 := by
  rcases List.mem_cons.1 ha with rfl | ha
  · exact List.le_refl _
  · exact (List.pairwise_cons.1 hsorted).1 a ha

/-- The first pointer into an object goes through the member `"0"` just when its pointers sort
first. -/
theorem head_zero_iff {m : StringMap Json} (hwf : (object m).WF) (hne : (object m).Nonempty)
    {t : Key} {p : JsonPointer} {v : Json} {leaves : List (JsonPointer × Json)}
    (hperm : ((t :: p, v) :: leaves).Perm (object m).leaves)
    (hsorted : Sorted ((t :: p, v) :: leaves)) : t = bytes "0" ↔ StartsAtZero m := by
  obtain ⟨hnode, hmembers⟩ := (all_object m).1 hne
  obtain ⟨-, hmembersWF⟩ := (all_object m).1 hwf
  have hleaf : ∀ {u q w}, (u :: q, w) ∈ (t :: p, v) :: leaves ↔
      ∃ c, (u, c) ∈ m.toList ∧ (q, w) ∈ c.leaves := by
    intro u q w
    rw [hperm.mem_iff]
    exact mem_leaves rfl hnode
  have hsome : ∀ {u c}, (u, c) ∈ m.toList →
      ∃ q w, (u :: q, w) ∈ (t :: p, v) :: leaves ∧ (q, w) ∈ c.leaves := by
    intro u c hu
    obtain ⟨⟨q, w⟩, hq⟩ := List.exists_mem_of_ne_nil _ (leaves_ne_nil (hmembersWF (u, c) hu))
    exact ⟨q, w, hleaf.2 ⟨c, hu, hq⟩, hq⟩
  constructor
  · rintro rfl
    obtain ⟨zero, hzero, hp⟩ := hleaf.1 List.mem_cons_self
    refine ⟨zero, hzero, fun e he hne hbefore => ?_⟩
    obtain ⟨q, w, hq, -⟩ := hsome he
    have hle := head_le hsorted hq
    rw [← List.not_lt, toString_lt_zero_iff hne
      (pointer_eq_nil_iff (hmembers (bytes "0", zero) hzero).self hp)] at hle
    exact hle hbefore
  · rintro ⟨zero, hzero, hfirst⟩
    by_contra ht
    obtain ⟨c, hc, -⟩ := hleaf.1 (List.mem_cons_self (a := (t :: p, v)))
    obtain ⟨q, w, hq, hqzero⟩ := hsome hzero
    have hle := head_le hsorted hq
    refine hfirst (t, c) hc ht ?_
    rw [← toString_lt_zero_iff ht
      (pointer_eq_nil_iff (hmembers (bytes "0", zero) hzero).self hqzero) p]
    by_contra hnot
    have heq := toString_injective (List.le_antisymm hle (List.not_lt.1 hnot))
    exact ht (List.cons.inj heq).1

theorem mem_children_array {xs : List Json} {t : Key} {c : Json} :
    (t, c) ∈ (array xs).children ↔ ∃ i, t = decimal i ∧ xs[i]? = some c := by
  rw [children, List.mem_map]
  constructor
  · rintro ⟨⟨x, i⟩, hx, heq⟩
    cases heq
    exact ⟨i, rfl, List.mem_zipIdx_iff_getElem?.1 hx⟩
  · rintro ⟨i, rfl, hi⟩
    exact ⟨(c, i), List.mem_zipIdx_iff_getElem?.2 hi, rfl⟩

/-- The first pointer into an array goes to its first element. -/
theorem head_decimal {xs : List Json} (hwf : (array xs).WF) (hne : NodeNonempty (array xs))
    {t : Key} {p : JsonPointer} {v : Json} {leaves : List (JsonPointer × Json)}
    (hperm : ((t :: p, v) :: leaves).Perm (array xs).leaves)
    (hsorted : Sorted ((t :: p, v) :: leaves)) : t = bytes "0" := by
  have hmem : (t :: p, v) ∈ (array xs).leaves := hperm.mem_iff.1 List.mem_cons_self
  obtain ⟨c, hc, -⟩ := (mem_leaves rfl hne).1 hmem
  obtain ⟨i, rfl, hi⟩ := mem_children_array.1 hc
  have hpos : 0 < xs.length := Nat.pos_of_ne_zero hne
  have hx : (decimal 0, xs[0]) ∈ (array xs).children :=
    mem_children_array.2 ⟨0, rfl, List.getElem?_eq_getElem hpos⟩
  obtain ⟨⟨q, w⟩, hq⟩ := List.exists_mem_of_ne_nil _ (leaves_ne_nil (wf_of_mem_children hwf hx))
  have hle := head_le hsorted (hperm.mem_iff.2 ((mem_leaves rfl hne).2 ⟨_, hx, hq⟩))
  by_cases hzero : i = 0
  · rw [hzero]
    rfl
  · refine absurd ?_ (List.not_lt.2 hle)
    cases hd : decimal i with
    | nil => exact absurd hd (Foundations.decimal_ne_nil i)
    | cons d ds =>
      have hdigit := Foundations.decimal_head (show Foundations.decimal i = d :: ds from hd) hzero
      rw [← hd, toString_cons, toString_cons, cons_lt_cons_self, escape_decimal, escape_decimal, hd]
      show (0x30 : Byte) :: JsonPointer.toString q < d :: (ds ++ JsonPointer.toString p)
      rw [List.cons_lt_cons_iff, UInt8.lt_iff_toNat_lt]
      exact Or.inl hdigit.1

/-! ## Starting a container -/

theorem getAndCreate_null_zero (v : Json) (p : JsonPointer) :
    getAndCreate v (bytes "0" :: p) null = getAndCreate v (bytes "0" :: p) (array []) := by
  have hindex : arrayIndex (bytes "0") = .ok 0 := by
    rw [show bytes "0" = decimal 0 from rfl, arrayIndex_decimal (by omega)]
  rw [getAndCreate, if_pos rfl, getAndCreate, hindex]
  rfl

theorem getAndCreate_null_of_ne (v : Json) {t : Key} (ht : t ≠ bytes "0") (p : JsonPointer) :
    getAndCreate v (t :: p) null = getAndCreate v (t :: p) (object .empty) := by
  rw [getAndCreate, if_neg ht]
  rfl

theorem build_null_zero (p : JsonPointer) (v : Json) (leaves : List (JsonPointer × Json)) :
    build ((bytes "0" :: p, v) :: leaves) null =
      build ((bytes "0" :: p, v) :: leaves) (array []) := by
  rw [build_cons, build_cons, getAndCreate_null_zero]

theorem build_null_of_ne {t : Key} (ht : t ≠ bytes "0") (p : JsonPointer) (v : Json)
    (leaves : List (JsonPointer × Json)) :
    build ((t :: p, v) :: leaves) null = build ((t :: p, v) :: leaves) (object .empty) := by
  rw [build_cons, build_cons, getAndCreate_null_of_ne v ht]

/-- What is an array stays one. -/
theorem exists_array_of_build {leaves : List (JsonPointer × Json)}
    (hleaves : ∀ e ∈ leaves, e.1 ≠ []) {xs : List Json} {r : Json}
    (h : build leaves (array xs) = .ok r) : ∃ ys, r = array ys := by
  induction leaves generalizing xs with
  | nil =>
    cases h
    exact ⟨xs, rfl⟩
  | cons e leaves ih =>
    obtain ⟨p, v⟩ := e
    cases p with
    | nil => exact absurd rfl (hleaves _ List.mem_cons_self)
    | cons t p =>
      rw [build_cons, getAndCreate, bind_assoc, bind_eq_ok] at h
      obtain ⟨idx, -, h⟩ := h
      unfold modifyIndex at h
      rw [bind_assoc, bind_eq_ok] at h
      obtain ⟨filled, -, h⟩ := h
      rw [bind_assoc, bind_eq_ok] at h
      obtain ⟨x, -, h⟩ := h
      exact ih (fun e he => hleaves e (List.mem_cons_of_mem _ he)) h

/-! ## Coming back -/

/-- The value comes back when the leaves are put back in order. -/
def ComesBack (leaves : List (JsonPointer × Json)) (j : Json) : Prop :=
  ∃ r, build leaves null = .ok r ∧ r.denote = j.denote

/-- Every pointer into an array goes through the index of an element. -/
theorem exists_decimal_of_mem {xs : List Json} (hne : NodeNonempty (array xs))
    {leaves : List (JsonPointer × Json)} (hperm : leaves.Perm (array xs).leaves)
    {e : JsonPointer × Json} (he : e ∈ leaves) : ∃ i p, e.1 = decimal i :: p ∧ i < xs.length := by
  obtain ⟨t, p, c, hp, ht, -⟩ := exists_of_mem_leaves rfl hne (hperm.mem_iff.1 he)
  obtain ⟨i, rfl, hi⟩ := mem_children_array.1 ht
  exact ⟨i, p, hp, (List.getElem?_eq_some_iff.1 hi).1⟩

theorem under_decimal_ne_nil_iff {xs : List Json} (hwf : (array xs).WF)
    (hne : NodeNonempty (array xs)) {leaves : List (JsonPointer × Json)}
    (hperm : leaves.Perm (array xs).leaves) {k : Nat} :
    under (decimal k) leaves ≠ [] ↔ k < xs.length := by
  rw [Ne, under_eq_nil_iff hwf rfl hne hperm, not_not, List.mem_map]
  constructor
  · rintro ⟨⟨t, c⟩, ht, hk⟩
    obtain ⟨i, rfl, hi⟩ := mem_children_array.1 ht
    rw [← decimal_injective hk]
    exact (List.getElem?_eq_some_iff.1 hi).1
  · intro hk
    exact ⟨(decimal k, xs[k]), mem_children_array.2 ⟨k, rfl, List.getElem?_eq_getElem hk⟩, rfl⟩

/-- The first leaf of an array makes `null` an array. -/
theorem build_null_array {xs : List Json} (hwf : (array xs).WF) (hne : NodeNonempty (array xs))
    {leaves : List (JsonPointer × Json)} (hperm : leaves.Perm (array xs).leaves)
    (hsorted : Sorted leaves) : build leaves null = build leaves (array []) := by
  cases leaves with
  | nil => exact absurd (List.nil_perm.1 hperm) (leaves_ne_nil hwf)
  | cons e leaves =>
    obtain ⟨q, v⟩ := e
    obtain ⟨i, p, hq, -⟩ := exists_decimal_of_mem hne hperm List.mem_cons_self
    cases hq
    rw [head_decimal hwf hne hperm hsorted]
    exact build_null_zero p v leaves

theorem comesBack_array {xs : List Json} (hwf : (array xs).WF) (hne : NodeNonempty (array xs))
    {leaves : List (JsonPointer × Json)} (hperm : leaves.Perm (array xs).leaves)
    (hsorted : Sorted leaves) :
    ComesBack leaves (array xs) ↔ xs.length ≤ 2 ^ 31 ∧
      ∀ k (hk : k < xs.length), ComesBack (under (decimal k) leaves) xs[k] := by
  have hnumeral : ∀ e ∈ leaves, ∃ i p, e.1 = decimal i :: p ∧ i < xs.length :=
    fun e he => exists_decimal_of_mem hne hperm he
  have hunder : ∀ k, under (decimal k) leaves ≠ [] ↔ k < xs.length :=
    fun k => under_decimal_ne_nil_iff hwf hne hperm
  have hstart := build_null_array hwf hne hperm hsorted
  have hgetD : ∀ k, ([] : List Json).getD k null = null := fun k => rfl
  constructor
  · rintro ⟨r, hr, hdenote⟩
    rw [hstart] at hr
    obtain ⟨ys, rfl, hget, hlen, hbound⟩ := build_array
      (fun e he => (hnumeral e he).imp fun i hi => hi.imp fun p hp => hp.1) (by decide) hr
    rw [denote_array, denote_array, Value.array.injEq] at hdenote
    have hlength : ys.length = xs.length := by
      simpa using congrArg List.length hdenote
    constructor
    · by_contra hlong
      exact absurd (hbound (2 ^ 31) ((hunder _).2 (by omega))) (by decide)
    · intro k hk
      refine ⟨ys.getD k null, ?_, ?_⟩
      · have hk' := hget k
        rwa [hgetD] at hk'
      · have helem := congrArg (fun l => l[k]?) hdenote
        simp only [List.getElem?_map] at helem
        rw [List.getElem?_eq_getElem hk, List.getElem?_eq_getElem (by omega)] at helem
        rw [List.getD_eq_getElem _ _ (by omega)]
        simpa using helem
  · rintro ⟨hshort, hback⟩
    have hok : ∀ k, ∃ c, build (under (decimal k) leaves) (([] : List Json).getD k null) = .ok c := by
      intro k
      rw [hgetD]
      by_cases hk : k < xs.length
      · obtain ⟨c, hc, -⟩ := hback k hk
        exact ⟨c, hc⟩
      · rw [not_not.1 ((hunder k).not.2 hk)]
        exact ⟨null, rfl⟩
    obtain ⟨r, hr⟩ := exists_build_array (fun e he => by
      obtain ⟨i, p, hp, hi⟩ := hnumeral e he
      exact ⟨i, p, hp, by omega⟩) (by decide) hok
    obtain ⟨ys, rfl, hget, hlen, -⟩ := build_array
      (fun e he => (hnumeral e he).imp fun i hi => hi.imp fun p hp => hp.1) (by decide) hr
    refine ⟨array ys, hstart.trans hr, ?_⟩
    have hlength : ys.length = xs.length := by
      refine Nat.le_antisymm ?_ ?_
      · exact (hlen _).2 ⟨Nat.zero_le _, fun k hk => (hunder k).1 hk⟩
      · by_contra hlt
        have hlast := ((hlen ys.length).1 (Nat.le_refl _)).2 ys.length ((hunder _).2 (by omega))
        omega
    rw [denote_array, denote_array, Value.array.injEq]
    refine List.ext_getElem (by simpa using hlength) fun k hk hk' => ?_
    rw [List.length_map] at hk hk'
    rw [List.getElem_map, List.getElem_map]
    obtain ⟨c, hc, hdenote⟩ := hback k hk'
    have hk'' := hget k
    rw [hgetD, hc, List.getD_eq_getElem _ _ hk] at hk''
    rw [← hdenote, Except.ok.inj hk'']

theorem denote_object_eq_iff {m m' : StringMap Json} (hm : m.WF) (hm' : m'.WF) :
    (object m').denote = (object m).denote ↔
      ∀ t, (m'.lookup? t).map denote = (m.lookup? t).map denote := by
  rw [denote_object hm, denote_object hm', Value.object.injEq, funext_iff]

theorem under_eq_nil_iff_lookup? {m : StringMap Json} (hwf : (object m).WF)
    (hne : NodeNonempty (object m)) {leaves : List (JsonPointer × Json)}
    (hperm : leaves.Perm (object m).leaves) {t : Key} :
    under t leaves = [] ↔ m.lookup? t = none := by
  have hm : m.WF := hwf.self.1
  rw [under_eq_nil_iff hwf rfl hne hperm, Option.eq_none_iff_forall_ne_some]
  constructor
  · intro ht c hc
    exact ht (List.mem_map.2 ⟨(t, c), (lookup?_eq_some_iff hm).1 hc, rfl⟩)
  · intro ht hmem
    obtain ⟨⟨u, c⟩, hc, rfl⟩ := List.mem_map.1 hmem
    exact ht c ((lookup?_eq_some_iff hm).2 hc)

theorem comesBack_object {m : StringMap Json} (hwf : (object m).WF)
    (hne : (object m).Nonempty) {leaves : List (JsonPointer × Json)}
    (hperm : leaves.Perm (object m).leaves) (hsorted : Sorted leaves) :
    ComesBack leaves (object m) ↔ ¬StartsAtZero m ∧
      ∀ e ∈ m.toList, ComesBack (under e.1 leaves) e.2 := by
  have hm : m.WF := hwf.self.1
  have hnode : NodeNonempty (object m) := hne.self
  have hpointer : ∀ e ∈ leaves, ∃ t p, e.1 = t :: p ∧ t.length < 2 ^ 32 := by
    intro e he
    obtain ⟨t, p, c, hp, ht, -⟩ := exists_of_mem_leaves rfl hnode (hperm.mem_iff.1 he)
    exact ⟨t, p, hp, hwf.self.2.2 (t, c) ht⟩
  have hne_nil : ∀ e ∈ leaves, e.1 ≠ [] := by
    intro e he
    obtain ⟨t, p, hp, -⟩ := hpointer e he
    rw [hp]
    exact List.cons_ne_nil _ _
  have hempty : ∀ t, (StringMap.empty : StringMap Json).lookup? t = none := fun t => rfl
  have hunder : ∀ t, under t leaves = [] ↔ m.lookup? t = none :=
    fun t => under_eq_nil_iff_lookup? hwf hnode hperm
  cases leaves with
  | nil => exact absurd (List.nil_perm.1 hperm) (leaves_ne_nil hwf)
  | cons e leaves =>
    obtain ⟨q, v⟩ := e
    cases q with
    | nil => exact absurd rfl (hne_nil _ List.mem_cons_self)
    | cons u p =>
      have hzero := head_zero_iff hwf hne hperm hsorted
      by_cases hu : u = bytes "0"
      · -- the first pointer starts an array
        refine iff_of_false ?_ fun h => h.1 (hzero.1 hu)
        rintro ⟨r, hr, hdenote⟩
        rw [hu, build_null_zero] at hr
        obtain ⟨ys, rfl⟩ := exists_array_of_build (by rw [← hu]; exact hne_nil) hr
        rw [denote_object hm, denote_array] at hdenote
        cases hdenote
      · have hstart := build_null_of_ne hu p v leaves
        constructor
        · rintro ⟨r, hr, hdenote⟩
          refine ⟨fun h => hu (hzero.2 h), ?_⟩
          rw [hstart] at hr
          obtain ⟨m', rfl, hm', hlookup⟩ := build_object hpointer WF.empty hr
          rintro ⟨t, c⟩ hc
          have hct := (lookup?_eq_some_iff hm).2 hc
          have ht := (denote_object_eq_iff hm hm').1 hdenote t
          rcases hlookup t with ⟨hnil, -⟩ | ⟨-, r, hr, hrt⟩
          · rw [(hunder t).1 hnil] at hct
            cases hct
          · rw [hct, hrt, Option.map_some, Option.map_some, Option.some.injEq] at ht
            exact ⟨r, hr, ht⟩
        · rintro ⟨-, hback⟩
          have hok : ∀ t, ∃ c, build (under t ((u :: p, v) :: leaves))
              (((StringMap.empty : StringMap Json).lookup? t).getD null) = .ok c := by
            intro t
            rw [hempty, Option.getD_none]
            cases ht : m.lookup? t with
            | none =>
              rw [(hunder t).2 ht]
              exact ⟨null, rfl⟩
            | some c =>
              obtain ⟨r, hr, -⟩ := hback (t, c) ((lookup?_eq_some_iff hm).1 ht)
              exact ⟨r, hr⟩
          obtain ⟨r, hr⟩ := exists_build_object hpointer WF.empty hok
          obtain ⟨m', rfl, hm', hlookup⟩ := build_object hpointer WF.empty hr
          refine ⟨_, hstart.trans hr, (denote_object_eq_iff hm hm').2 fun t => ?_⟩
          rcases hlookup t with ⟨hnil, heq⟩ | ⟨hcons, c, hc, heq⟩
          · rw [heq, hempty, (hunder t).1 hnil]
          · cases ht : m.lookup? t with
            | none => exact absurd ((hunder t).2 ht) hcons
            | some x =>
              obtain ⟨r, hr, hdenote⟩ := hback (t, x) ((lookup?_eq_some_iff hm).1 ht)
              rw [hempty, Option.getD_none] at hc
              rw [hr] at hc
              rw [heq, ← Except.ok.inj hc, Option.map_some, Option.map_some, hdenote]

/-- The leaves of a value, put back in order, give the value again just when its containers can be
told from their pointers. -/
theorem comesBack_iff {j : Json} (hwf : j.WF) (hne : j.Nonempty)
    {leaves : List (JsonPointer × Json)} (hperm : leaves.Perm j.leaves) (hsorted : Sorted leaves) :
    ComesBack leaves j ↔ j.Rebuilds := by
  induction j using children_induction generalizing leaves with
  | h j ih =>
    have hchild : ∀ e ∈ j.children, j.isContainer = true →
        (ComesBack (under e.1 leaves) e.2 ↔ e.2.Rebuilds) := by
      intro e he hc
      exact ih e he (wf_of_mem_children hwf he) (wf_of_mem_children hne he)
        (under_perm hwf hc hne.self hperm he) (hsorted.under e.1)
    cases hc : j.isContainer with
    | true =>
      rcases isContainer_cases hc with ⟨xs, rfl⟩ | ⟨m, rfl⟩
      · rw [comesBack_array hwf hne.self hperm hsorted]
        unfold Rebuilds
        rw [all_array]
        refine and_congr_right fun _ => ?_
        rw [List.forall_mem_iff_getElem]
        refine forall_congr' fun k => forall_congr' fun hk => ?_
        exact hchild _ (mem_children_array.2 ⟨k, rfl, List.getElem?_eq_getElem hk⟩) rfl
      · rw [comesBack_object hwf hne hperm hsorted]
        unfold Rebuilds
        rw [all_object]
        refine and_congr_right fun _ => forall_congr' fun e => forall_congr' fun he => ?_
        exact hchild e he rfl
    | false =>
      have hrebuilds : j.Rebuilds := by
        cases j with
        | array => cases hc
        | object => cases hc
        | _ => trivial
      rw [leaves_leaf (Or.inl hc), List.perm_singleton] at hperm
      rw [hperm]
      exact iff_of_true ⟨j, rfl, rfl⟩ hrebuilds

/-! ## Sorting the entries -/

instance : Std.Total fun a b : Key × Json => a.1 ≤ b.1 := ⟨fun a b => List.le_total a.1 b.1⟩

instance : IsTrans (Key × Json) fun a b => a.1 ≤ b.1 := ⟨fun _ _ _ => List.le_trans⟩

/-- An entry for a leaf. -/
def entry (e : JsonPointer × Json) : Key × Json := (JsonPointer.toString e.1, e.2)

/-- Sorted entries are those of sorted leaves. -/
theorem exists_sorted_leaves {es : List (Key × Json)} {leaves : List (JsonPointer × Json)}
    (hnodup : (leaves.map Prod.fst).Nodup) (hperm : es.Perm (leaves.map entry)) :
    ∃ sorted : List (JsonPointer × Json), sorted.Perm leaves ∧ Sorted sorted ∧
      es.insertionSort (fun a b => a.1 ≤ b.1) = sorted.map entry := by
  have hkeys : ((leaves.map entry).map Prod.fst).Nodup := by
    have hmap := hnodup.map toString_injective
    rwa [List.map_map] at hmap ⊢
  have hsorted := List.pairwise_insertionSort (fun a b : Key × Json => a.1 ≤ b.1) (leaves.map entry)
  have heq : es.insertionSort (fun a b => a.1 ≤ b.1) =
      (leaves.map entry).insertionSort (fun a b => a.1 ≤ b.1) := by
    refine @List.Perm.eq_of_pairwise _ (fun a b : Key × Json => a.1 ≤ b.1) _ _ ?_
      (List.pairwise_insertionSort _ _) hsorted ?_
    · intro a b ha hb hab hba
      obtain ⟨k, v⟩ := a
      obtain ⟨l, w⟩ := b
      rw [List.mem_insertionSort, hperm.mem_iff] at ha
      rw [List.mem_insertionSort] at hb
      obtain rfl : k = l := List.le_antisymm hab hba
      rw [eq_of_mem_of_nodup hkeys ha hb]
    · exact ((List.perm_insertionSort _ es).trans hperm).trans (List.perm_insertionSort _ _).symm
  rw [← List.map_insertionSort (fun a b => JsonPointer.toString a.1 ≤ JsonPointer.toString b.1)
    (fun a b : Key × Json => a.1 ≤ b.1) entry leaves fun a _ b _ => Iff.rfl] at heq hsorted
  rw [List.pairwise_map] at hsorted
  exact ⟨_, List.perm_insertionSort _ _, hsorted, heq⟩

theorem unflattenSorted_map_entry (leaves : List (JsonPointer × Json)) (result : Json) :
    unflattenSorted (leaves.map entry) result = build leaves result := by
  induction leaves generalizing result with
  | nil => rfl
  | cons e leaves ih =>
    rw [List.map_cons, unflattenSorted, build, entry, split_toString]
    show (getAndCreate e.2 e.1 result >>= fun r => unflattenSorted (leaves.map entry) r) = _
    simp only [ih]

theorem checkPrimitive_eq {es : List (Key × Json)} (h : ∀ e ∈ es, e.2.isPrimitive = true) :
    checkPrimitive es = .ok () := by
  induction es with
  | nil => rfl
  | cons e es ih =>
    rw [checkPrimitive, if_pos (h e List.mem_cons_self)]
    exact ih fun a ha => h a (List.mem_cons_of_mem _ ha)

theorem isPrimitive_of_mem_leaves {j : Json} (hne : j.Nonempty) (hd : j.NoDiscarded)
    {e : JsonPointer × Json} (he : e ∈ j.leaves) :
    e.2.isPrimitive = true ∧ e.2.isContainer = false := by
  induction j using children_induction generalizing e with
  | h j ih =>
    cases hc : j.isContainer with
    | true =>
      obtain ⟨t, p, c, -, ht, hp⟩ := exists_of_mem_leaves hc hne.self he
      have hleaf := ih (t, c) ht (wf_of_mem_children hne ht) (wf_of_mem_children hd ht) hp
      exact hleaf
    | false =>
      rw [leaves_leaf (Or.inl hc), List.mem_singleton] at he
      rw [he]
      refine ⟨?_, hc⟩
      have hself := hd.self
      cases j with
      | array => cases hc
      | object => cases hc
      | discarded => cases hself
      | _ => rfl

end Wpi.Json
