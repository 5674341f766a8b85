import WpiUtil.Llvm.Proofs.StringRefProofs
import WpiUtil.Support.Proofs.EscapeURIProofs

/-!
# What the parts of a URL depend on
-/

namespace Wpi

open Foundations StringRef

/-! ## Unescaping -/

/-- A character that is not part of an escape sequence stays. -/
theorem mem_unescapeURI {s t : List Byte} (h : unescapeURI s = some t) {c : Byte}
    (hpercent : c ≠ 0x25) (hplus : c ≠ 0x2b) (hdigit : hexDigitValue c = none) (hc : c ∈ s) :
    c ∈ t := by
  fun_induction unescapeURI s generalizing t with
  | case1 => cases hc
  | case2 a b str val1 val2 hb ha ih =>
    obtain ⟨u, hu, rfl⟩ := Option.map_eq_some_iff.1 h
    rw [List.mem_cons, List.mem_cons, List.mem_cons] at hc
    rcases hc with rfl | rfl | rfl | hc
    · exact absurd rfl hpercent
    · rw [hdigit] at ha
      cases ha
    · rw [hdigit] at hb
      cases hb
    · exact List.mem_cons_of_mem _ (ih hu hc)
  | case3 => cases h
  | case4 => cases h
  | case5 str ih =>
    obtain ⟨u, hu, rfl⟩ := Option.map_eq_some_iff.1 h
    rcases List.mem_cons.1 hc with rfl | hc
    · exact absurd rfl hplus
    · exact List.mem_cons_of_mem _ (ih hu hc)
  | case6 a str _ _ _ ih =>
    obtain ⟨u, hu, rfl⟩ := Option.map_eq_some_iff.1 h
    rcases List.mem_cons.1 hc with rfl | hc
    · exact List.mem_cons_self ..
    · exact List.mem_cons_of_mem _ (ih hu hc)

namespace HttpLocation

/-! ## The authority -/

theorem parseUserpass_eq_ok_iff {userpass errorMsg user password : List Byte} :
    parseUserpass userpass errorMsg = .ok (user, password) ↔
      userpass = [] ∧ user = [] ∧ password = [] ∨
      userpass ≠ [] ∧ unescapeURI (StringRef.split userpass 0x3a).1 = some user ∧
        unescapeURI (StringRef.split userpass 0x3a).2 = some password := by
  rw [parseUserpass]
  dsimp only
  constructor
  · intro h
    split_ifs at h with hnil
    · cases h
      exact Or.inl ⟨hnil, rfl, rfl⟩
    · cases huser : unescapeURI (StringRef.split userpass 0x3a).1 with
      | none =>
        rw [huser] at h
        cases h
      | some u =>
        cases hpassword : unescapeURI (StringRef.split userpass 0x3a).2 with
        | none =>
          rw [huser, hpassword] at h
          cases h
        | some p =>
          rw [huser, hpassword] at h
          cases h
          exact Or.inr ⟨hnil, rfl, rfl⟩
  · rintro (⟨hnil, rfl, rfl⟩ | ⟨hnil, huser, hpassword⟩)
    · rw [if_pos hnil]
    · rw [if_neg hnil, huser, hpassword]

theorem parseHostport_eq_ok_iff {hostport errorMsg host : List Byte} {port : Int32} :
    parseHostport hostport errorMsg = .ok (host, port) ↔
      (rsplit hostport 0x3a).1 = host ∧ host ≠ [] ∧
      ((rsplit hostport 0x3a).2 = [] ∧ port = 80 ∨
        (rsplit hostport 0x3a).2 ≠ [] ∧ getAsInteger (rsplit hostport 0x3a).2 10 = some port) := by
  rw [parseHostport]
  dsimp only
  constructor
  · intro h
    split_ifs at h with hhost hport
    · cases h
      exact ⟨rfl, hhost, Or.inl ⟨hport, rfl⟩⟩
    · cases hvalue : getAsInteger (rsplit hostport 0x3a).2 10 with
      | none =>
        rw [hvalue] at h
        cases h
      | some value =>
        rw [hvalue] at h
        cases h
        exact ⟨rfl, hhost, Or.inr ⟨hport, rfl⟩⟩
  · rintro ⟨rfl, hhost, ⟨hport, rfl⟩ | ⟨hport, hvalue⟩⟩
    · rw [if_neg hhost, if_pos hport]
    · rw [if_neg hhost, if_neg hport, hvalue]

/-- A character that is not part of a number is in the host if it is in `host:port`. -/
theorem mem_host {hostport errorMsg host : List Byte} {port : Int32}
    (h : parseHostport hostport errorMsg = .ok (host, port)) {c : Byte} (hcolon : c ≠ 0x3a)
    (hminus : c ≠ 0x2d) (hdigit : charVal c = none) (hc : c ∈ hostport) : c ∈ host := by
  obtain ⟨rfl, -, hport⟩ := parseHostport_eq_ok_iff.1 h
  rcases mem_rsplit_of_mem hc hcolon with hc | hc
  · exact hc
  · rcases hport with ⟨hnil, -⟩ | ⟨-, hvalue⟩
    · rw [hnil] at hc
      cases hc
    · rcases mem_of_getAsInteger hvalue hc with hsome | hminus'
      · rw [hdigit] at hsome
        cases hsome
      · exact absurd hminus' hminus

theorem mem_hostport_of_mem_host {hostport errorMsg host : List Byte} {port : Int32}
    (h : parseHostport hostport errorMsg = .ok (host, port)) {c : Byte} (hc : c ∈ host) :
    c ∈ hostport := by
  obtain ⟨rfl, -⟩ := parseHostport_eq_ok_iff.1 h
  exact mem_of_mem_rsplit_fst hc

/-- The user with the password, and the host with the port. -/
def parts (authority : List Byte) : List Byte × List Byte :=
  if (StringRef.split authority 0x40).2 = [] then ([], (StringRef.split authority 0x40).1)
  else StringRef.split authority 0x40

theorem parseAuthority_eq (authority errorMsg : List Byte) : parseAuthority authority errorMsg =
    match parseUserpass (parts authority).1 errorMsg with
    | .error e => .error e
    | .ok (user, password) =>
      match parseHostport (parts authority).2 errorMsg with
      | .error e => .error e
      | .ok (host, port) => .ok ⟨user, password, host, port⟩ := rfl

theorem parseAuthority_eq_ok_iff {authority errorMsg : List Byte} {auth : Authority} :
    parseAuthority authority errorMsg = .ok auth ↔
      parseUserpass (parts authority).1 errorMsg = .ok (auth.user, auth.password) ∧
      parseHostport (parts authority).2 errorMsg = .ok (auth.host, auth.port) := by
  rw [parseAuthority_eq]
  constructor
  · intro h
    cases huserpass : parseUserpass (parts authority).1 errorMsg with
    | error e =>
      rw [huserpass] at h
      cases h
    | ok userpass =>
      cases hhostport : parseHostport (parts authority).2 errorMsg with
      | error e =>
        rw [huserpass, hhostport] at h
        cases h
      | ok hostport =>
        rw [huserpass, hhostport] at h
        cases h
        exact ⟨rfl, rfl⟩
  · rintro ⟨huserpass, hhostport⟩
    rw [huserpass, hhostport]

/-- The message before does not matter. -/
theorem parseAuthority_congr {authority errorMsg : List Byte} {auth : Authority}
    (h : parseAuthority authority errorMsg = .ok auth) (errorMsg' : List Byte) :
    parseAuthority authority errorMsg' = .ok auth := by
  rw [parseAuthority_eq_ok_iff, parseUserpass_eq_ok_iff, parseHostport_eq_ok_iff] at h ⊢
  exact h

/-- `?` and `#`, which end the authority of a URL where there is no path. -/
def IsMark (c : Byte) : Prop := c = 0x3f ∨ c = 0x23

theorem IsMark.spec {c : Byte} (hc : IsMark c) : c ≠ 0x3a ∧ c ≠ 0x40 ∧ c ≠ 0x25 ∧ c ≠ 0x2b ∧
    c ≠ 0x2d ∧ hexDigitValue c = none ∧ charVal c = none := by
  rcases hc with rfl | rfl
  · decide
  · decide

theorem mem_userpass {userpass errorMsg user password : List Byte}
    (h : parseUserpass userpass errorMsg = .ok (user, password)) {c : Byte} (hc : IsMark c)
    (hmem : c ∈ userpass) : c ∈ user ∨ c ∈ password := by
  obtain ⟨hcolon, -, hpercent, hplus, -, hdigit, -⟩ := hc.spec
  rcases parseUserpass_eq_ok_iff.1 h with ⟨rfl, -⟩ | ⟨-, huser, hpassword⟩
  · cases hmem
  · rcases mem_split_of_mem hmem hcolon with hmem | hmem
    · exact Or.inl (mem_unescapeURI huser hpercent hplus hdigit hmem)
    · exact Or.inr (mem_unescapeURI hpassword hpercent hplus hdigit hmem)

theorem parts_of_not_mem {a : List Byte} (h : 0x40 ∉ a) : parts a = ([], a) := by
  rw [parts, split_of_not_mem h, if_pos rfl]

theorem parts_append_cons {x : List Byte} (h : 0x40 ∉ x) (y : List Byte) :
    parts (x ++ 0x40 :: y) = if y = [] then ([], x) else (x, y) := by
  rw [parts, split_append_cons h]

theorem mem_of_mem_parts_snd {a : List Byte} {c : Byte} (h : c ∈ (parts a).2) : c ∈ a := by
  by_cases hat : 0x40 ∈ a
  · obtain ⟨x, y, rfl, hx⟩ := exists_first_of_mem hat
    rw [parts_append_cons hx] at h
    split_ifs at h
    · exact List.mem_append_left _ h
    · exact List.mem_append_right _ (List.mem_cons_of_mem _ h)
  · rwa [parts_of_not_mem hat] at h

/-- The parts of a text are not those of a longer one that goes on with a mark: the mark is in the
host, or a user or password appears. -/
theorem authority_ne_of_mark {a rest errorMsg errorMsg' : List Byte} {c : Byte} (hc : IsMark c)
    (ha : c ∉ a) {auth auth' : Authority} (h : parseAuthority a errorMsg = .ok auth)
    (h' : parseAuthority (a ++ c :: rest) errorMsg' = .ok auth') : auth ≠ auth' := by
  rintro rfl
  obtain ⟨hcolon, hat, -, -, hminus, -, hdigit⟩ := hc.spec
  obtain ⟨huserpass, hhostport⟩ := parseAuthority_eq_ok_iff.1 h
  obtain ⟨huserpass', hhostport'⟩ := parseAuthority_eq_ok_iff.1 h'
  have hhost : c ∉ (parts (a ++ c :: rest)).2 := by
    intro hmem
    have hmem' := mem_hostport_of_mem_host hhostport
      (mem_host hhostport' hcolon hminus hdigit hmem)
    exact ha (mem_of_mem_parts_snd hmem')
  by_cases hfirst : 0x40 ∈ a
  · obtain ⟨x, y, rfl, hx⟩ := exists_first_of_mem hfirst
    rw [List.append_assoc, List.cons_append, parts_append_cons hx,
      if_neg (List.append_ne_nil_of_right_ne_nil _ (List.cons_ne_nil _ _))] at hhost
    exact hhost (List.mem_append_right _ (List.mem_cons_self ..))
  · have hnone : auth.user = [] ∧ auth.password = [] := by
      rw [parts_of_not_mem hfirst, parseUserpass_eq_ok_iff] at huserpass
      rcases huserpass with ⟨-, huser, hpassword⟩ | ⟨hne, -⟩
      · exact ⟨huser, hpassword⟩
      · exact absurd rfl hne
    by_cases hsecond : 0x40 ∈ rest
    · obtain ⟨u, v, rfl, hu⟩ := exists_first_of_mem hsecond
      have hx : 0x40 ∉ a ++ c :: u := by
        rw [List.mem_append, List.mem_cons]
        rintro (hmem | rfl | hmem)
        · exact hfirst hmem
        · exact hat rfl
        · exact hu hmem
      have hmem : c ∈ a ++ c :: u := List.mem_append_right _ (List.mem_cons_self ..)
      rw [← List.cons_append, ← List.append_assoc, parts_append_cons hx] at hhost huserpass'
      by_cases hv : v = []
      · rw [if_pos hv] at hhost
        exact hhost hmem
      · rw [if_neg hv] at huserpass'
        have hsome := mem_userpass huserpass' hc hmem
        rw [hnone.1, hnone.2] at hsome
        rcases hsome with hsome | hsome
        · cases hsome
        · cases hsome
    · have hx : 0x40 ∉ a ++ c :: rest := by
        rw [List.mem_append, List.mem_cons]
        rintro (hmem | rfl | hmem)
        · exact hfirst hmem
        · exact hat rfl
        · exact hsecond hmem
      rw [parts_of_not_mem hx] at hhost
      exact hhost (List.mem_append_right _ (List.mem_cons_self ..))

/-! ## The constructor -/

/-- What is said of a URL that is accepted. -/
structure Accepted (url errorMsg : List Byte) (loc : HttpLocation) (scheme rest : List Byte) :
    Prop where
  url_eq : url = scheme ++ 0x3a :: 0x2f :: 0x2f :: rest
  length_scheme : scheme.length = 4
  authority : parseAuthority (StringRef.split rest 0x2f).1 errorMsg = .ok loc.authority
  path : loc.path = (StringRef.split (StringRef.split (StringRef.split rest 0x2f).2 0x23).1 0x3f).1

theorem exists_accepted {url errorMsg : List Byte} {loc : HttpLocation}
    (h : ofUrl url errorMsg = .ok loc) : ∃ scheme rest, Accepted url errorMsg loc scheme rest := by
  rw [ofUrl] at h
  dsimp only at h
  split_ifs at h with hscheme hslashes
  rw [Bool.not_eq_true, Bool.not_eq_false'] at hscheme hslashes
  rcases split_cases url 0x3a with ⟨-, hsplit⟩ | ⟨scheme, query, rfl, hmem, hsplit⟩
  · rw [hsplit] at hslashes
    cases hslashes
  · rw [hsplit] at h hscheme hslashes
    obtain ⟨rest, rfl⟩ := List.isPrefixOf_iff_prefix.1 hslashes
    refine ⟨scheme, rest, rfl, ?_, ?_, ?_⟩
    · rw [equalsLower, beq_iff_eq] at hscheme
      have hlength := congrArg List.length hscheme
      rw [List.length_map, List.length_map] at hlength
      exact hlength
    all_goals
      rw [show (bytes "//" ++ rest).drop 2 = rest from rfl] at h
      cases hauthority : parseAuthority (StringRef.split rest 0x2f).1 errorMsg with
      | error e =>
        rw [hauthority] at h
        cases h
      | ok auth =>
        rw [hauthority] at h
        dsimp only at h
        split at h
        · cases h
        · cases h
          rfl

theorem Accepted.drop_eq {url errorMsg : List Byte} {loc : HttpLocation} {scheme rest : List Byte}
    (h : Accepted url errorMsg loc scheme rest) : url.drop 7 = rest := by
  rw [h.url_eq, show scheme ++ 0x3a :: 0x2f :: 0x2f :: rest =
    (scheme ++ [0x3a, 0x2f, 0x2f]) ++ rest by simp]
  refine List.drop_left' ?_
  rw [List.length_append, h.length_scheme]
  rfl

/-- A URL that has only an authority. -/
theorem ofUrl_authority {a : List Byte} (ha : 0x2f ∉ a) (errorMsg : List Byte) :
    ofUrl (bytes "http://" ++ a) errorMsg = (parseAuthority a errorMsg).map fun auth =>
      ⟨bytes "http://" ++ a, auth.user, auth.password, auth.host, auth.port, [], [], []⟩ := by
  have hscheme : StringRef.split (bytes "http://" ++ a) 0x3a = (bytes "http", bytes "//" ++ a) :=
    split_append_cons (x := bytes "http") (by decide) (bytes "//" ++ a)
  have hslashes : startswith (bytes "//" ++ a) (bytes "//") = true :=
    List.isPrefixOf_iff_prefix.2 (List.prefix_append _ _)
  rw [ofUrl, hscheme]
  dsimp only
  rw [hslashes, if_neg (by decide), if_neg (by decide),
    show (bytes "//" ++ a).drop 2 = a from rfl, split_of_not_mem ha]
  cases parseAuthority a errorMsg with
  | error e => rfl
  | ok auth => rfl

/-- The text in front of the first `/` is the authority text, which nothing or a mark follows. -/
theorem authorityText_cases (url : List Byte) :
    ((url.drop 7).takeWhile fun c => c != 0x2f) = authorityText url ∧ MarksAfterSlash url ∨
      ∃ c rest, IsMark c ∧
        ((url.drop 7).takeWhile fun c => c != 0x2f) = authorityText url ++ c :: rest ∧
        ¬MarksAfterSlash url := by
  have htake : authorityText url =
      ((url.drop 7).takeWhile fun c => c != 0x2f).takeWhile fun c => !endsAuthority c := by
    rw [authorityText, List.takeWhile_takeWhile]
    congr 1
    funext c
    simp only [endsAuthority, Bool.decide_and, Bool.decide_eq_true, bne, Bool.not_or]
    cases c == 0x2f
    · simp
    · rfl
  unfold MarksAfterSlash
  rw [htake]
  generalize hA : ((url.drop 7).takeWhile fun c => c != 0x2f) = A
  have happend := List.takeWhile_append_dropWhile (p := fun c => !endsAuthority c) (l := A)
  cases hdrop : A.dropWhile fun c => !endsAuthority c with
  | nil =>
    rw [hdrop, List.append_nil] at happend
    refine Or.inl ⟨happend.symm, fun c hc => ?_⟩
    rw [← happend] at hc
    have hends := List.mem_takeWhile_imp hc
    rw [Bool.not_eq_true', endsAuthority, Bool.or_eq_false_iff, Bool.or_eq_false_iff] at hends
    exact ⟨beq_eq_false_iff_ne.1 hends.1.2, beq_eq_false_iff_ne.1 hends.2⟩
  | cons c rest =>
    rw [hdrop] at happend
    have hends : endsAuthority c = true := by
      have hhead := List.head_dropWhile_not (fun c => !endsAuthority c) (l := A) (by simp [hdrop])
      simpa [hdrop] using hhead
    have hmem : c ∈ A := happend ▸ List.mem_append_right _ (List.mem_cons_self ..)
    have hslash : c ≠ 0x2f := by
      rw [← hA] at hmem
      have htrue := List.mem_takeWhile_imp (p := fun c => c != 0x2f) hmem
      exact bne_iff_ne.1 htrue
    have hmark : IsMark c := by
      rw [endsAuthority, Bool.or_eq_true, Bool.or_eq_true, beq_iff_eq, beq_iff_eq,
        beq_iff_eq] at hends
      rcases hends with (hends | hends) | hends
      · exact absurd hends hslash
      · exact Or.inl hends
      · exact Or.inr hends
    refine Or.inr ⟨c, rest, hmark, happend.symm, fun hclean => ?_⟩
    rcases hmark with rfl | rfl
    · exact (hclean _ hmem).1 rfl
    · exact (hclean _ hmem).2 rfl

theorem not_mem_authorityText (url : List Byte) {c : Byte} (hc : endsAuthority c = true) :
    c ∉ authorityText url := by
  intro hmem
  have hends := List.mem_takeWhile_imp hmem
  rw [hc] at hends
  cases hends

/-- What the authority alone gives. -/
theorem exists_ofUrl_authority_iff {url errorMsg : List Byte} {auth : Authority} :
    (∃ loc', ofUrl (bytes "http://" ++ authorityText url) errorMsg = .ok loc' ∧
      loc'.authority = auth) ↔ parseAuthority (authorityText url) errorMsg = .ok auth := by
  rw [ofUrl_authority (not_mem_authorityText url rfl)]
  constructor
  · rintro ⟨loc', hloc', rfl⟩
    cases hauthority : parseAuthority (authorityText url) errorMsg with
    | error e =>
      rw [hauthority] at hloc'
      cases hloc'
    | ok auth =>
      rw [hauthority] at hloc'
      cases hloc'
      rfl
  · intro h
    rw [h]
    exact ⟨_, rfl, rfl⟩

/-- For a URL that is accepted, user, password, host and port are what the authority alone gives
exactly when no `?` and no `#` comes in front of the first `/`. Then they are the same as in any
other such URL with this authority, and differ from those in URLs that are not like this. -/
theorem authority_determined_iff {url errorMsg : List Byte} {loc : HttpLocation}
    (h : ofUrl url errorMsg = .ok loc) :
    ((∃ loc', ofUrl (bytes "http://" ++ authorityText url) errorMsg = .ok loc' ∧
        loc'.authority = loc.authority) ↔ MarksAfterSlash url) ∧
    ∀ url' errorMsg' loc', ofUrl url' errorMsg' = .ok loc' →
      authorityText url' = authorityText url → MarksAfterSlash url' →
      (loc'.authority = loc.authority ↔ MarksAfterSlash url) := by
  have halone : ∀ {url errorMsg : List Byte} {loc : HttpLocation}, ofUrl url errorMsg = .ok loc →
      (parseAuthority (authorityText url) errorMsg = .ok loc.authority ↔ MarksAfterSlash url) := by
    intro url errorMsg loc h
    obtain ⟨scheme, rest, haccepted⟩ := exists_accepted h
    have hauthority := haccepted.authority
    rw [split_fst, ← haccepted.drop_eq] at hauthority
    rcases authorityText_cases url with ⟨heq, hclean⟩ | ⟨c, rest', hc, heq, hclean⟩
    · rw [heq] at hauthority
      exact iff_of_true hauthority hclean
    · rw [heq] at hauthority
      refine iff_of_false (fun halone => ?_) hclean
      have hmem : c ∉ authorityText url := by
        rcases hc with rfl | rfl
        · exact not_mem_authorityText url rfl
        · exact not_mem_authorityText url rfl
      exact authority_ne_of_mark hc hmem halone hauthority rfl
  rw [exists_ofUrl_authority_iff, halone h]
  refine ⟨Iff.rfl, fun url' errorMsg' loc' h' hsame hclean' => ?_⟩
  have halone' := (halone h').2 hclean'
  rw [hsame] at halone'
  rw [← halone h]
  constructor
  · intro heq
    rw [← heq]
    exact parseAuthority_congr halone' errorMsg
  · intro heq
    exact Except.ok.inj ((parseAuthority_congr halone' errorMsg).symm.trans heq)

theorem authority_determined_iff_path :
    ((∃ loc', ofUrl (bytes "http://" ++ authorityText (bytes "http://u:p@h:81/x?y")) [] = .ok loc' ∧
        loc'.authority = (⟨bytes "u", bytes "p", bytes "h", 81⟩ : Authority)) ↔
      MarksAfterSlash (bytes "http://u:p@h:81/x?y")) ∧
    ∀ url' errorMsg' loc', ofUrl url' errorMsg' = .ok loc' →
      authorityText url' = authorityText (bytes "http://u:p@h:81/x?y") → MarksAfterSlash url' →
      (loc'.authority = (⟨bytes "u", bytes "p", bytes "h", 81⟩ : Authority) ↔
        MarksAfterSlash (bytes "http://u:p@h:81/x?y")) := by
  have hurl : ofUrl (bytes "http://u:p@h:81/x?y") [] = .ok ⟨bytes "http://u:p@h:81/x?y", bytes "u",
      bytes "p", bytes "h", 81, bytes "x", [(bytes "y", [])], []⟩ := by decide
  exact authority_determined_iff hurl

/-- A query that looks like the end of an authority: the host is another one. -/
theorem not_determined_query :
    authorityText (bytes "http://a?b@c/") = authorityText (bytes "http://a/") ∧
      (ofUrl (bytes "http://a?b@c/") []).toOption.map authority =
        some ⟨bytes "a?b", [], bytes "c", 80⟩ ∧
      (ofUrl (bytes "http://a/") []).toOption.map authority = some ⟨[], [], bytes "a", 80⟩ := by
  decide

/-! ## The port -/

theorem hostportText_eq (url : List Byte) :
    hostportText url = (parts (StringRef.split (url.drop 7) 0x2f).1).2 := by
  rw [hostportText, parts]
  dsimp only
  split_ifs with hnil
  · rfl
  · rfl

theorem parseHostport_of_ofUrl {url errorMsg : List Byte} {loc : HttpLocation}
    (h : ofUrl url errorMsg = .ok loc) :
    parseHostport (hostportText url) errorMsg = .ok (loc.host, loc.port) := by
  obtain ⟨scheme, rest, haccepted⟩ := exists_accepted h
  obtain ⟨-, hhostport⟩ := parseAuthority_eq_ok_iff.1 haccepted.authority
  rw [hostportText_eq, haccepted.drop_eq]
  exact hhostport

/-- For a URL that is accepted there is a host, and the port is 80 if nothing is said of it and else
the integer that is given, which can be anything that an `int` holds. -/
theorem host_ne_nil_and_port_eq {url errorMsg : List Byte} {loc : HttpLocation}
    (h : ofUrl url errorMsg = .ok loc) :
    loc.host ≠ [] ∧
    (portText url = [] ∧ loc.port = 80 ∨
      IsInteger (portText url) ∧ loc.port.toInt = ofInteger (portText url)) ∧
    (0 ≤ loc.port.toInt ∧ loc.port.toInt ≤ 65535 ↔
      portText url = [] ∨ 0 ≤ ofInteger (portText url) ∧ ofInteger (portText url) ≤ 65535) := by
  have hhostport := parseHostport_of_ofUrl h
  rw [parseHostport_eq_ok_iff] at hhostport
  obtain ⟨-, hhost, ⟨hnil, hport⟩ | ⟨hne, hport⟩⟩ := hhostport
  · rw [← portText] at hnil
    refine ⟨hhost, Or.inl ⟨hnil, hport⟩, iff_of_true ?_ (Or.inl hnil)⟩
    rw [hport]
    decide
  · rw [← portText] at hne hport
    obtain ⟨hinteger, hvalue⟩ := getAsInteger_ten_iff.1 hport
    refine ⟨hhost, Or.inr ⟨hinteger, hvalue⟩, ?_⟩
    rw [hvalue, or_iff_right hne]

theorem host_ne_nil_and_port_eq_minus :
    bytes "h" ≠ [] ∧
    (portText (bytes "http://u:p@h:-1/x") = [] ∧ (-1 : Int32) = 80 ∨
      IsInteger (portText (bytes "http://u:p@h:-1/x")) ∧
        (-1 : Int32).toInt = ofInteger (portText (bytes "http://u:p@h:-1/x"))) ∧
    (0 ≤ (-1 : Int32).toInt ∧ (-1 : Int32).toInt ≤ 65535 ↔
      portText (bytes "http://u:p@h:-1/x") = [] ∨
        0 ≤ ofInteger (portText (bytes "http://u:p@h:-1/x")) ∧
          ofInteger (portText (bytes "http://u:p@h:-1/x")) ≤ 65535) := by
  have hurl : ofUrl (bytes "http://u:p@h:-1/x") [] = .ok ⟨bytes "http://u:p@h:-1/x", bytes "u",
      bytes "p", bytes "h", -1, bytes "x", [], []⟩ := by decide
  exact host_ne_nil_and_port_eq hurl

/-- A port that no connection has. -/
theorem not_port_valid : ¬∀ (url errorMsg : List Byte) (loc : HttpLocation),
    ofUrl url errorMsg = .ok loc →
      loc.host ≠ [] ∧ 0 ≤ loc.port.toInt ∧ loc.port.toInt ≤ 65535 := by
  intro h
  have hurl : ofUrl (bytes "http://h:65536") [] = .ok ⟨bytes "http://h:65536", [], [], bytes "h",
      65536, [], [], []⟩ := by decide
  have hport := (h _ _ _ hurl).2.2
  exact absurd hport (by decide)

end HttpLocation

end Wpi
