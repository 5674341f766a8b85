import WpiUtil.Support.HttpConnection
import WpiUtil.Support.Proofs.UrlComponentsProofs

/-!
# Parsing the path of a request
-/

namespace Wpi

open StringRef

namespace HttpRequest

/-! ## Parameters -/

theorem not_mem_pathParam (param : List Byte × List Byte) {c : Byte} (hc : isEscaped c = false)
    (hequals : c ≠ 0x3d) : c ∉ pathParam param := by
  rw [pathParam, List.mem_append]
  rintro (hmem | hmem)
  · exact not_mem_escapeURI param.1 true hc hmem
  · split_ifs at hmem
    · cases hmem
    · rcases List.mem_cons.1 hmem with heq | hmem
      · exact hequals heq
      · exact not_mem_escapeURI param.2 true hc hmem

theorem pathParam_ne_nil {param : List Byte × List Byte} (h : param ≠ ([], [])) :
    pathParam param ≠ [] := by
  intro hnil
  rw [pathParam, List.append_eq_nil_iff, escapeURI_eq_nil_iff] at hnil
  obtain ⟨hname, hvalue⟩ := hnil
  split_ifs at hvalue with hempty
  exact h (Prod.ext hname hempty)

/-- A value that is left out is an empty one. -/
theorem split_pathParam (param : List Byte × List Byte) :
    StringRef.split (pathParam param) 0x3d = (escapeURI param.1 true, escapeURI param.2 true) := by
  have hname : 0x3d ∉ escapeURI param.1 true := not_mem_escapeURI param.1 true (by decide)
  rw [pathParam]
  split_ifs with hempty
  · rw [List.append_nil, split_of_not_mem hname, hempty]
    rfl
  · exact split_append_cons hname _

/-- What separates the first parameter from the others. -/
theorem split_pathParams {x : List Byte} {first : Bool} {c : Byte} (hx : c ∉ x)
    (hc : c = if first then 0x3f else 0x26) (params : List (List Byte × List Byte)) :
    StringRef.split (x ++ pathParams first params) c = (x, (pathParams first params).tail) := by
  cases params with
  | nil =>
    rw [pathParams, List.append_nil]
    exact split_of_not_mem hx
  | cons param params =>
    subst hc
    exact split_append_cons hx _

theorem tail_pathParams (params : List (List Byte × List Byte)) :
    (pathParams true params).tail = (pathParams false params).tail := by
  cases params with
  | nil => rfl
  | cons param params => rfl

/-- The query is split into the parameters that it has been made of. -/
theorem parseParams_pathParams {params : List (List Byte × List Byte)}
    (hparams : ∀ param ∈ params, param ≠ ([], [])) (errorMsg : List Byte) {fuel : Nat}
    (hfuel : (pathParams true params).tail.length ≤ fuel) :
    HttpLocation.parseParams errorMsg fuel (pathParams true params).tail = .ok params := by
  induction params generalizing fuel with
  | nil =>
    cases fuel with
    | zero => rfl
    | succ fuel => rfl
  | cons param params ih =>
    rw [List.forall_mem_cons] at hparams
    have hne : pathParam param ≠ [] := pathParam_ne_nil hparams.1
    have hquery : (pathParams true (param :: params)).tail =
        pathParam param ++ pathParams false params := rfl
    have hsplit : StringRef.split (pathParam param ++ pathParams false params) 0x26 =
        (pathParam param, (pathParams true params).tail) := by
      rw [tail_pathParams]
      exact split_pathParams (not_mem_pathParam param (by decide) (by decide)) rfl params
    have hlength : (pathParams true params).tail.length < fuel := by
      have hpos := List.length_pos_iff.2 hne
      rw [hquery, List.length_append] at hfuel
      rw [tail_pathParams, List.length_tail]
      omega
    obtain ⟨fuel, rfl⟩ : ∃ n, fuel = n + 1 := ⟨fuel - 1, by omega⟩
    have hrest := ih hparams.2 (Nat.le_of_lt_succ hlength)
    rw [hquery, HttpLocation.parseParams,
      if_neg (List.append_ne_nil_of_left_ne_nil hne (pathParams false params)), hsplit]
    dsimp only
    rw [if_neg hne, split_pathParam]
    dsimp only
    rw [unescapeURI_escapeURI, unescapeURI_escapeURI, hrest]
    rfl

theorem not_mem_pathParams {c : Byte} (hc : isEscaped c = false) (hequals : c ≠ 0x3d)
    (hamp : c ≠ 0x26) (hquestion : c ≠ 0x3f) (first : Bool)
    (params : List (List Byte × List Byte)) : c ∉ pathParams first params := by
  induction params generalizing first with
  | nil => exact List.not_mem_nil
  | cons param params ih =>
    rw [pathParams, List.cons_append, List.mem_cons, List.mem_append]
    rintro (heq | hmem | hmem)
    · split_ifs at heq
      · exact hquestion heq
      · exact hamp heq
    · exact not_mem_pathParam param hc hequals hmem
    · exact ih false hmem

/-! ## The path -/

/-- There is no `?` and no `#` in the path of a location. -/
theorem path_marks {url errorMsg : List Byte} {loc : HttpLocation}
    (h : HttpLocation.ofUrl url errorMsg = .ok loc) : 0x3f ∉ loc.path ∧ 0x23 ∉ loc.path := by
  obtain ⟨scheme, rest, haccepted⟩ := HttpLocation.exists_accepted h
  rw [haccepted.path]
  constructor
  · exact not_mem_split_fst _ _
  · intro hmem
    exact not_mem_split_fst _ _ (mem_of_mem_split_fst hmem)

/-- The path of a request has the path and the parameters of the location. -/
theorem ofUrl_setPath {path : List Byte} {params : List (List Byte × List Byte)}
    (hpath : 0x3f ∉ path ∧ 0x23 ∉ path) (hparams : ∀ param ∈ params, param ≠ ([], []))
    (errorMsg : List Byte) :
    HttpLocation.ofUrl (bytes "http://h/" ++ setPath path params) errorMsg =
      .ok ⟨bytes "http://h/" ++ setPath path params, [], [], bytes "h", 80, path, params, []⟩ := by
  have hfragment : StringRef.split (setPath path params) 0x23 = (setPath path params, []) := by
    apply split_of_not_mem
    rw [setPath, List.mem_append]
    rintro (hmem | hmem)
    · exact hpath.2 hmem
    · exact not_mem_pathParams (by decide) (by decide) (by decide) (by decide) true params hmem
  have hquery : StringRef.split (setPath path params) 0x3f =
      (path, (pathParams true params).tail) := split_pathParams hpath.1 rfl params
  have hscheme : equalsLower (bytes "http") (bytes "http") = true := rfl
  have hauthority : HttpLocation.parseAuthority (bytes "h") errorMsg =
      .ok ⟨[], [], bytes "h", 80⟩ := rfl
  have hurl := HttpLocation.ofUrl_append hscheme (by decide) (by decide) hauthority
    (setPath path params)
  rw [hfragment] at hurl
  dsimp only at hurl
  rw [hquery] at hurl
  dsimp only at hurl
  rw [parseParams_pathParams hparams errorMsg (Nat.le_refl _)] at hurl
  exact hurl

/-- What a location is turned into for a request is read back as the same path and parameters. -/
theorem ofUrl_ofLocation {url errorMsg : List Byte} {loc : HttpLocation}
    (h : HttpLocation.ofUrl url errorMsg = .ok loc)
    (hparams : ∀ param ∈ loc.params, param ≠ ([], [])) (errorMsg' : List Byte) :
    ∃ loc', HttpLocation.ofUrl (bytes "http://h/" ++ (ofLocation loc).path) errorMsg' = .ok loc' ∧
      loc'.path = loc.path ∧ loc'.params = loc.params :=
  ⟨_, ofUrl_setPath (path_marks h) hparams errorMsg', rfl, rfl⟩

theorem ofUrl_ofLocation_delimiters :
    ∃ loc, HttpLocation.ofUrl (bytes "http://u@a:81/p/:q?%26+=%3d%ff&&x&x&=%2b#?") [] = .ok loc ∧
      loc.params = [(bytes "& ", [0x3d, 0xff]), (bytes "x", []), (bytes "x", []), ([], bytes "+")] ∧
      (ofLocation loc).path = bytes "p/:q?%26+=%3D%FF&x&x&=%2B" ∧
      ∃ loc', HttpLocation.ofUrl (bytes "http://h/" ++ (ofLocation loc).path) [] = .ok loc' ∧
        loc'.path = loc.path ∧ loc'.params = loc.params := by
  obtain ⟨loc, hloc, hparams, hpath⟩ : ∃ loc,
      HttpLocation.ofUrl (bytes "http://u@a:81/p/:q?%26+=%3d%ff&&x&x&=%2b#?") [] = .ok loc ∧
      loc.params = [(bytes "& ", [0x3d, 0xff]), (bytes "x", []), (bytes "x", []),
        ([], bytes "+")] ∧
      (ofLocation loc).path = bytes "p/:q?%26+=%3D%FF&x&x&=%2B" := ⟨_, rfl, rfl, rfl⟩
  refine ⟨loc, hloc, hparams, hpath, ofUrl_ofLocation hloc ?_ []⟩
  rw [hparams]
  exact List.all_iff_forall_prop.1 (by decide)

end HttpRequest

end Wpi
