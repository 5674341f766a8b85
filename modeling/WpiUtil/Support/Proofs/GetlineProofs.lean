import WpiUtil.Support.Getline

/-!
# Nothing is lost between two lines

A call of `getline` takes a piece off the content, up to the end of the line if it is near enough, and
returns it without its `\r`.
-/

namespace Wpi

open RawIstream ByteSource

variable {σ : Type} [ByteSource σ] {n maxLen : Nat} {p : List Byte}

/-! ## Pieces -/

/-- A piece that `getline` reads in one go: it is full, or it ends with the end of the line. -/
def EndsLine (n : Nat) (p : List Byte) : Prop :=
  (p.length = n ∧ 0x0a ∉ p) ∨ ∃ q, p = q ++ [0x0a] ∧ q.length + 1 ≤ n ∧ 0x0a ∉ q

theorem EndsLine.ne_nil (h : EndsLine n p) (hn : n ≠ 0) : p ≠ [] := by
  rintro rfl
  rcases h with ⟨hlength, -⟩ | ⟨q, hq, -⟩
  · exact hn hlength.symm
  · exact absurd hq.symm (List.append_ne_nil_of_right_ne_nil _ (List.cons_ne_nil _ _))

theorem EndsLine.cons {c : Byte} (hc : c ≠ 0x0a) (h : EndsLine n p) : EndsLine (n + 1) (c :: p) := by
  rcases h with ⟨hlength, hmem⟩ | ⟨q, rfl, hlength, hmem⟩
  · refine Or.inl ⟨by rw [List.length_cons, hlength], ?_⟩
    rw [List.mem_cons, not_or]
    exact ⟨hc.symm, hmem⟩
  · refine Or.inr ⟨c :: q, rfl, by rw [List.length_cons]; omega, ?_⟩
    rw [List.mem_cons, not_or]
    exact ⟨hc.symm, hmem⟩

theorem EndsLine.length_le (h : EndsLine n p) : p.length ≤ n := by
  rcases h with ⟨hlength, -⟩ | ⟨q, rfl, hlength, -⟩
  · exact Nat.le_of_eq hlength
  · rw [List.length_append, List.length_singleton]
    exact hlength

/-- The end of the line is the last byte of a piece. -/
theorem EndsLine.newline_last (h : EndsLine n p) : 0x0a ∉ p.dropLast := by
  rcases h with ⟨-, hmem⟩ | ⟨q, rfl, -, hmem⟩
  · exact fun hlast => hmem (List.dropLast_subset p hlast)
  · rw [List.dropLast_concat]
    exact hmem

theorem endsLine_zero (h : EndsLine 0 p) : p = [] := by
  rcases h with ⟨hlength, -⟩ | ⟨q, -, hlength, -⟩
  · exact List.length_eq_zero_iff.1 hlength
  · omega

theorem endsLine_succ (h : EndsLine (n + 1) p) :
    p = [0x0a] ∨ ∃ c q, p = c :: q ∧ c ≠ 0x0a ∧ EndsLine n q := by
  rcases h with ⟨hlength, hmem⟩ | ⟨q, rfl, hlength, hmem⟩
  · cases p with
    | nil => cases hlength
    | cons c q =>
      rw [List.mem_cons, not_or] at hmem
      exact Or.inr ⟨c, q, rfl, Ne.symm hmem.1, Or.inl ⟨Nat.succ.inj hlength, hmem.2⟩⟩
  · cases q with
    | nil => exact Or.inl rfl
    | cons c q =>
      rw [List.mem_cons, not_or] at hmem
      rw [List.length_cons] at hlength
      exact Or.inr ⟨c, q ++ [0x0a], rfl, Ne.symm hmem.1, Or.inr ⟨q, rfl, by omega, hmem.2⟩⟩

/-- A content starts with a piece, or it ends before the piece is complete. -/
theorem exists_endsLine (n : Nat) (bs : List Byte) :
    (∃ p rest, bs = p ++ rest ∧ EndsLine n p) ∨ (bs.length < n ∧ 0x0a ∉ bs) := by
  induction bs generalizing n with
  | nil =>
    cases n with
    | zero => exact Or.inl ⟨[], [], rfl, Or.inl ⟨rfl, List.not_mem_nil⟩⟩
    | succ n => exact Or.inr ⟨Nat.succ_pos n, List.not_mem_nil⟩
  | cons b bs ih =>
    cases n with
    | zero => exact Or.inl ⟨[], b :: bs, rfl, Or.inl ⟨rfl, List.not_mem_nil⟩⟩
    | succ n =>
      by_cases hb : b = 0x0a
      · subst hb
        exact Or.inl ⟨[0x0a], bs, rfl, Or.inr ⟨[], rfl, by simp, List.not_mem_nil⟩⟩
      · rcases ih n with ⟨p, rest, rfl, hp⟩ | ⟨hlength, hmem⟩
        · exact Or.inl ⟨b :: p, rest, rfl, hp.cons hb⟩
        · refine Or.inr ⟨Nat.succ_lt_succ hlength, ?_⟩
          rw [List.mem_cons, not_or]
          exact ⟨Ne.symm hb, hmem⟩

/-! ## One call -/

variable {is : σ}

/-- A byte inside a line. -/
theorem getlineLoop_cons {c : Byte} (hne : c ≠ 0x0a) (buf : List Byte) (herror : hasError is = false)
    (hc : content is = c :: p) :
    ∃ is', getlineLoop (n + 1) buf is = getlineLoop n (buf ++ [c].filter (· ≠ 0x0d)) is' ∧
      hasError is' = false ∧ content is' = p := by
  obtain ⟨is', hread, herror', hcontent⟩ := read_cons herror hc
  refine ⟨is', ?_, herror', hcontent⟩
  rw [getlineLoop, RawIstream.read, hread]
  simp only [herror', Bool.false_eq_true, if_false, List.headD_cons, hne]
  by_cases hcr : c = 0x0d
  · rw [if_pos hcr, hcr, List.filter_cons_of_neg (by simp), List.filter_nil, List.append_nil]
  · rw [if_neg hcr, List.filter_cons_of_pos (by simpa using hcr), List.filter_nil]

theorem getlineLoop_spec {rest : List Byte} (hp : EndsLine n p) (buf : List Byte)
    (herror : hasError is = false) (hc : content is = p ++ rest) :
    ∃ is', getlineLoop n buf is = (buf ++ p.filter (· ≠ 0x0d), is') ∧
      hasError is' = false ∧ content is' = rest := by
  induction n generalizing p buf is with
  | zero =>
    rw [endsLine_zero hp] at hc ⊢
    exact ⟨is, by simp [getlineLoop], herror, hc⟩
  | succ n ih =>
    rcases endsLine_succ hp with rfl | ⟨c, q, rfl, hne, hq⟩
    · obtain ⟨is', hread, herror', hcontent⟩ := read_cons herror hc
      refine ⟨is', ?_, herror', hcontent⟩
      rw [getlineLoop, RawIstream.read, hread]
      simp [herror']
    · obtain ⟨is', hloop, herror', hcontent⟩ := getlineLoop_cons (n := n) hne buf herror hc
      obtain ⟨is'', hloop', hrest⟩ := ih hq (buf ++ [c].filter (· ≠ 0x0d)) herror' hcontent
      refine ⟨is'', ?_, hrest⟩
      rw [hloop, hloop', List.append_assoc, ← List.filter_append, List.singleton_append]

/-- The end of the content comes first. -/
theorem getlineLoop_end (hlength : p.length < n) (hmem : 0x0a ∉ p) (buf : List Byte)
    (herror : hasError is = false) (hc : content is = p) :
    ∃ is', getlineLoop n buf is = (buf ++ p.filter (· ≠ 0x0d), is') ∧
      hasError is' = true ∧ content is' = [] := by
  induction n generalizing p buf is with
  | zero => exact absurd hlength (Nat.not_lt_zero _)
  | succ n ih =>
    cases p with
    | nil =>
      obtain ⟨herror', hcontent⟩ := read_nil hc
      refine ⟨(readImpl is 1).2, ?_, herror', hcontent⟩
      rw [getlineLoop, RawIstream.read]
      simp [herror']
    | cons c q =>
      rw [List.mem_cons, not_or] at hmem
      obtain ⟨is', hloop, herror', hcontent⟩ :=
        getlineLoop_cons (n := n) (Ne.symm hmem.1) buf herror hc
      obtain ⟨is'', hloop', hrest⟩ := ih (Nat.lt_of_succ_lt_succ hlength) hmem.2
        (buf ++ [c].filter (· ≠ 0x0d)) herror' hcontent
      refine ⟨is'', ?_, hrest⟩
      rw [hloop, hloop', List.append_assoc, ← List.filter_append, List.singleton_append]

/-- A call returns a piece of the content without its `\r`: a complete one, or what is left of the
content together with an error. -/
theorem getline_spec (maxLen : Nat) (herror : hasError is = false) : ∃ p is',
    getline is maxLen = (p.filter (· ≠ 0x0d), is') ∧ content is = p ++ content is' ∧
      ((hasError is' = false ∧ EndsLine maxLen p) ∨
        (hasError is' = true ∧ content is' = [] ∧ p.length < maxLen ∧ 0x0a ∉ p)) := by
  rcases exists_endsLine maxLen (content is) with ⟨p, rest, hc, hp⟩ | ⟨hlength, hmem⟩
  · obtain ⟨is', hloop, herror', hcontent⟩ := getlineLoop_spec hp [] herror hc
    exact ⟨p, is', hloop, by rw [hc, hcontent], Or.inl ⟨herror', hp⟩⟩
  · obtain ⟨is', hloop, herror', hcontent⟩ := getlineLoop_end hlength hmem [] herror rfl
    exact ⟨content is, is', hloop, by rw [hcontent, List.append_nil],
      Or.inr ⟨herror', hcontent, hlength, hmem⟩⟩

/-! ## All calls -/

/-- Removing bytes before the last one leaves the last one in place. -/
theorem newline_not_mem_dropLast_filter (h : 0x0a ∉ p.dropLast) :
    0x0a ∉ (p.filter (· ≠ 0x0d)).dropLast := by
  rcases List.eq_nil_or_concat' p with rfl | ⟨q, c, rfl⟩
  · exact List.not_mem_nil
  · rw [List.dropLast_concat] at h
    have hfilter : 0x0a ∉ q.filter (· ≠ 0x0d) := fun hmem => h (List.mem_of_mem_filter hmem)
    rw [List.filter_append]
    by_cases hc : c = 0x0d
    · rw [hc, List.filter_cons_of_neg (by simp), List.filter_nil, List.append_nil]
      exact fun hmem => hfilter (List.dropLast_subset _ hmem)
    · rw [List.filter_cons_of_pos (by simpa using hc), List.filter_nil, List.dropLast_concat]
      exact hfilter

theorem fits_of_getline {is' : σ} (hc : content is = p ++ content is')
    (hp : (hasError is' = false ∧ EndsLine maxLen p) ∨
      (hasError is' = true ∧ content is' = [] ∧ p.length < maxLen ∧ 0x0a ∉ p)) :
    Getline.Fits maxLen { before := is, line := p.filter (· ≠ 0x0d), after := is' } := by
  have hlength : p.length ≤ maxLen := by
    rcases hp with ⟨-, hp⟩ | ⟨-, -, hlt, -⟩
    · exact hp.length_le
    · exact Nat.le_of_lt hlt
  have hlast : 0x0a ∉ p.dropLast := by
    rcases hp with ⟨-, hp⟩ | ⟨-, -, -, hmem⟩
    · exact hp.newline_last
    · exact fun h => hmem (List.dropLast_subset p h)
  refine ⟨by simp, Nat.le_trans (List.length_filter_le _ p) hlength,
    newline_not_mem_dropLast_filter hlast, fun hwhole => ?_⟩
  rcases hp with ⟨-, ⟨hfull, -⟩ | ⟨q, rfl, -, -⟩⟩ | ⟨herror', hcontent, -, -⟩
  · exact Or.inl ⟨p, hfull, hc⟩
  · exact absurd (by simp) hwhole
  · exact Or.inr ⟨herror', hcontent⟩

/-- The lines of a stream, put together, are its content without the `\r`. -/
theorem getlines_content (is : σ) (herror : hasError is = false) (maxLen : Nat)
    (hmaxLen : 1 ≤ maxLen) : ∃ calls,
      (∀ fuel, (content is).length < fuel → getlines maxLen fuel is = some calls) ∧
      calls.flatMap Getline.line = (content is).filter (· ≠ 0x0d) ∧
      ∀ call ∈ calls, call.Fits maxLen := by
  -- every call but the last takes at least one byte off the content
  induction hlength : (content is).length using Nat.strongRecOn generalizing is with
  | ind k ih =>
    subst hlength
    obtain ⟨p, is', hline, hc, hp⟩ := getline_spec maxLen herror
    have hfits := fits_of_getline hc hp
    rcases hp with ⟨herror', hp⟩ | ⟨herror', hcontent, -, -⟩
    · have hpos : 0 < p.length := List.length_pos_of_ne_nil (hp.ne_nil (by omega))
      have hlt : (content is').length < (content is).length := by
        rw [hc, List.length_append]
        omega
      obtain ⟨calls, hrun, hlines, hcalls⟩ := ih _ hlt is' herror' rfl
      refine ⟨_ :: calls, fun fuel hfuel => ?_, ?_, List.forall_mem_cons.2 ⟨hfits, hcalls⟩⟩
      · cases fuel with
        | zero => exact absurd hfuel (Nat.not_lt_zero _)
        | succ fuel =>
          rw [getlines, hline]
          simp only [herror', Bool.false_eq_true, if_false]
          rw [hrun fuel (by omega)]
      · rw [List.flatMap_cons, hlines, hc, List.filter_append]
    · refine ⟨[_], fun fuel hfuel => ?_, ?_, List.forall_mem_singleton.2 hfits⟩
      · cases fuel with
        | zero => exact absurd hfuel (Nat.not_lt_zero _)
        | succ fuel =>
          rw [getlines, hline]
          simp only [herror', if_true]
      · rw [List.flatMap_singleton, hc, hcontent, List.append_nil]

theorem getlines_content_memory :
    let is := RawMemIstream.ofBytes (bytes "ab\r\ncd")
    hasError is = false ∧ 1 ≤ 3 ∧ ∃ calls,
      (∀ fuel, (content is).length < fuel → getlines 3 fuel is = some calls) ∧
      calls.flatMap Getline.line = (content is).filter (· ≠ 0x0d) ∧
      ∀ call ∈ calls, call.Fits 3 :=
  ⟨rfl, by decide, getlines_content _ rfl 3 (by decide)⟩

end Wpi
