import Mathlib.Data.Bool.AllAny
import WpiUtil.Support.HttpConnection
import WpiUtil.Support.Proofs.EscapeURIProofs
import WpiUtil.Support.Proofs.HttpLocationProofs

/-!
# What a request is made of

The lines of the request that `Handshake` sends, and which parts of a URL can end one of them.
-/

namespace Wpi

open StringRef

/-! ## Escaped text -/

theorem getD_mem_cons {α : Type} (l : List α) (i : Nat) (d : α) : l.getD i d ∈ d :: l := by
  rw [List.getD_eq_getElem?_getD]
  cases h : l[i]? with
  | none => exact List.mem_cons_self ..
  | some x => exact List.mem_cons_of_mem _ (List.mem_of_getElem? h)

theorem staysInLine_base64Digit (i : Byte) : StaysInLine (base64Digit i) := by
  have htable : ∀ c ∈ 0 :: basis64, StaysInLine c := List.all_iff_forall_prop.1 (by decide)
  exact htable _ (getD_mem_cons ..)

theorem staysInLine_base64Encode (plain : List Byte) : ∀ c ∈ base64Encode plain, StaysInLine c := by
  have hpad : StaysInLine 0x3d := by decide
  fun_induction base64Encode plain with
  | case1 a b c plain ih =>
    simp only [List.forall_mem_cons]
    exact ⟨staysInLine_base64Digit _, staysInLine_base64Digit _, staysInLine_base64Digit _,
      staysInLine_base64Digit _, ih⟩
  | case2 a b =>
    simp only [List.forall_mem_cons]
    exact ⟨staysInLine_base64Digit _, staysInLine_base64Digit _, staysInLine_base64Digit _, hpad,
      fun c hc => nomatch hc⟩
  | case3 a =>
    simp only [List.forall_mem_cons]
    exact ⟨staysInLine_base64Digit _, staysInLine_base64Digit _, hpad, hpad,
      fun c hc => nomatch hc⟩
  | case4 => exact fun c hc => nomatch hc

theorem base64Encode_ne_nil {plain : List Byte} (h : plain ≠ []) : base64Encode plain ≠ [] := by
  fun_cases base64Encode plain with
  | case4 => exact absurd rfl h
  | _ => exact List.cons_ne_nil _ _

theorem staysInLine_of_isEscaped {c : Byte} (h : isEscaped c = true) : StaysInLine c := by
  constructor
  · rintro rfl
    exact absurd h (by decide)
  · rintro rfl
    exact absurd h (by decide)

theorem staysInLine_escapeURI (str : List Byte) (spacePlus : Bool) :
    ∀ c ∈ escapeURI str spacePlus, StaysInLine c :=
  fun _ hc => staysInLine_of_isEscaped (isEscaped_of_mem hc)

namespace HttpRequest

theorem staysInLine_pathParams (params : List (List Byte × List Byte)) (first : Bool) :
    ∀ c ∈ pathParams first params, StaysInLine c := by
  induction params generalizing first with
  | nil => exact fun c hc => nomatch hc
  | cons param params ih =>
    intro c hc
    rw [pathParams, List.cons_append, List.mem_cons, List.mem_append, pathParam,
      List.mem_append] at hc
    rcases hc with rfl | (hc | hc) | hc
    · split_ifs
      · decide
      · decide
    · exact staysInLine_escapeURI _ _ c hc
    · split_ifs at hc
      · cases hc
      · rcases List.mem_cons.1 hc with rfl | hc
        · decide
        · exact staysInLine_escapeURI _ _ c hc
    · exact ih false c hc

theorem staysInLine_setPath_iff (path : List Byte) (params : List (List Byte × List Byte)) :
    (∀ c ∈ setPath path params, StaysInLine c) ↔ ∀ c ∈ path, StaysInLine c := by
  rw [setPath, List.forall_mem_append]
  exact and_iff_left (staysInLine_pathParams params true)

theorem staysInLine_setAuth (loc : HttpLocation) : ∀ c ∈ setAuth loc, StaysInLine c := by
  rw [setAuth]
  split_ifs
  · exact staysInLine_base64Encode _
  · exact fun c hc => nomatch hc

theorem setAuth_ne_nil_iff (loc : HttpLocation) : setAuth loc ≠ [] ↔ loc.user ≠ [] := by
  rw [setAuth]
  split_ifs with huser
  · exact iff_of_true (base64Encode_ne_nil (by simp)) huser
  · exact iff_of_false (fun h => h rfl) huser

end HttpRequest

/-! ## The lines of the request -/

namespace HttpConnection

/-- The lines of a request. -/
def requestLines (request : HttpRequest) : List (List Byte) :=
  [bytes "GET /" ++ request.path ++ bytes " HTTP/1.1", bytes "Host: " ++ request.host] ++
    if request.auth ≠ [] then [bytes "Authorization: Basic " ++ request.auth] else []

theorem getRequest_eq (request : HttpRequest) :
    getRequest request = headerSection (requestLines request) := by
  have hend : bytes " HTTP/1.1\r\n" = bytes " HTTP/1.1" ++ crlf := rfl
  have hcrlf : bytes "\r\n" = crlf := rfl
  rw [getRequest, requestLines, headerSection, hend, hcrlf]
  split_ifs
  · simp [List.append_assoc]
  · simp [List.append_assoc]

theorem handshake_os {σ : Type} [ByteSource σ] (conn : HttpConnection σ) (request : HttpRequest)
    (warnMsg : List Byte) :
    (conn.handshake request warnMsg).2.2.os = conn.os ++ getRequest request := by
  unfold handshake
  dsimp only
  split_ifs
  · rfl
  · rfl
  · rfl
  · rfl
  · rfl

theorem count_headerSection {c : Byte} (hc : crlf.count c = 1) (lines : List (List Byte)) :
    (headerSection lines).count c = lines.flatten.count c + lines.length + 1 := by
  rw [headerSection, List.count_append, hc]
  congr 1
  induction lines with
  | nil => rfl
  | cons line lines ih =>
    rw [List.flatMap_cons, List.count_append, List.count_append, hc, ih, List.flatten_cons,
      List.count_append, List.length_cons]
    omega

/-- The same text has the same number of line ends, whatever the lines are. -/
theorem staysInLine_of_headerSection_eq {lines lines' : List (List Byte)}
    (heq : headerSection lines = headerSection lines') (hlength : lines.length = lines'.length)
    (h : ∀ line ∈ lines, ∀ c ∈ line, StaysInLine c) :
    ∀ line ∈ lines', ∀ c ∈ line, StaysInLine c := by
  have hcount : ∀ c, crlf.count c = 1 → c ∉ lines.flatten → c ∉ lines'.flatten := by
    intro c hc hnot
    have hboth := congrArg (List.count c) heq
    rw [count_headerSection hc, count_headerSection hc, List.count_eq_zero.2 hnot] at hboth
    exact List.count_eq_zero.1 (by omega)
  have hfree : ∀ c ∈ lines.flatten, StaysInLine c := by
    intro c hc
    obtain ⟨line, hline, hmem⟩ := List.mem_flatten.1 hc
    exact h line hline c hmem
  have hcr := hcount 0x0d (by decide) fun hmem => (hfree _ hmem).1 rfl
  have hlf := hcount 0x0a (by decide) fun hmem => (hfree _ hmem).2 rfl
  intro line hline c hc
  constructor
  · rintro rfl
    exact hcr (List.mem_flatten.2 ⟨line, hline, hc⟩)
  · rintro rfl
    exact hlf (List.mem_flatten.2 ⟨line, hline, hc⟩)

theorem staysInLine_requestLines_iff {request : HttpRequest}
    (hauth : ∀ c ∈ request.auth, StaysInLine c) :
    (∀ line ∈ requestLines request, ∀ c ∈ line, StaysInLine c) ↔
      (∀ c ∈ request.host, StaysInLine c) ∧ ∀ c ∈ request.path, StaysInLine c := by
  have hget : ∀ c ∈ bytes "GET /", StaysInLine c := List.all_iff_forall_prop.1 (by decide)
  have hversion : ∀ c ∈ bytes " HTTP/1.1", StaysInLine c :=
    List.all_iff_forall_prop.1 (by decide)
  have hhost : ∀ c ∈ bytes "Host: ", StaysInLine c := List.all_iff_forall_prop.1 (by decide)
  have hbasic : ∀ c ∈ bytes "Authorization: Basic ", StaysInLine c :=
    List.all_iff_forall_prop.1 (by decide)
  have hlast : ∀ line ∈ (if request.auth ≠ [] then [bytes "Authorization: Basic " ++ request.auth]
      else []), ∀ c ∈ line, StaysInLine c := by
    split_ifs
    · rw [List.forall_mem_singleton, List.forall_mem_append]
      exact ⟨hbasic, hauth⟩
    · exact fun line hline => nomatch hline
  rw [requestLines, List.forall_mem_append, and_iff_left hlast, List.forall_mem_cons,
    List.forall_mem_singleton, List.forall_mem_append, List.forall_mem_append,
    List.forall_mem_append, and_iff_right hget, and_iff_left hversion, and_iff_right hhost,
    and_comm]

/-! ## The parts of the URL -/

theorem sentHost_eq (url : List Byte) :
    sentHost url = (HttpLocation.parts ((url.drop 7).takeWhile fun c => c != 0x2f)).2 := by
  rw [sentHost, HttpLocation.parts, split_fst, split_snd]
  split_ifs
  · rfl
  · rw [split_snd]

theorem sentPath_eq (url : List Byte) :
    sentPath url =
      (StringRef.split (StringRef.split (StringRef.split (url.drop 7) 0x2f).2 0x23).1 0x3f).1 := by
  rw [sentPath, split_fst, split_fst, split_snd, List.takeWhile_takeWhile]
  congr 1
  funext c
  rw [Bool.eq_iff_iff]
  simp

theorem staysInLine_host_iff {hostport errorMsg host : List Byte} {port : Int32}
    (h : HttpLocation.parseHostport hostport errorMsg = .ok (host, port)) :
    (∀ c ∈ host, StaysInLine c) ↔ ∀ c ∈ hostport, StaysInLine c := by
  constructor
  · intro hhost c hc
    constructor
    · rintro rfl
      exact (hhost _ (HttpLocation.mem_host h (by decide) (by decide) rfl hc)).1 rfl
    · rintro rfl
      exact (hhost _ (HttpLocation.mem_host h (by decide) (by decide) rfl hc)).2 rfl
  · intro hhostport c hc
    exact hhostport c (HttpLocation.mem_hostport_of_mem_host h hc)

/-- The request for a URL that is accepted consists of its lines, and nothing in the URL makes
another one, exactly when there is no `\r` and no `\n` in the host with the port and in the path. -/
theorem handshake_lines_iff {url errorMsg : List Byte} {loc : HttpLocation}
    (h : HttpLocation.ofUrl url errorMsg = .ok loc) {σ : Type} [ByteSource σ]
    (conn : HttpConnection σ) (warnMsg : List Byte) :
    (∃ lines, lines.length = (if loc.user = [] then 2 else 3) ∧
      (∀ line ∈ lines, ∀ c ∈ line, StaysInLine c) ∧
      (conn.handshake (HttpRequest.ofLocation loc) warnMsg).2.2.os =
        conn.os ++ headerSection lines) ↔
    (∀ c ∈ sentHost url, StaysInLine c) ∧ ∀ c ∈ sentPath url, StaysInLine c := by
  obtain ⟨scheme, rest, haccepted⟩ := HttpLocation.exists_accepted h
  have hhostport := (HttpLocation.parseAuthority_eq_ok_iff.1 haccepted.authority).2
  have hpath := haccepted.path
  rw [split_fst, ← haccepted.drop_eq, ← sentHost_eq] at hhostport
  rw [← haccepted.drop_eq, ← sentPath_eq] at hpath
  have hlines : (∀ line ∈ requestLines (HttpRequest.ofLocation loc), ∀ c ∈ line, StaysInLine c) ↔
      (∀ c ∈ sentHost url, StaysInLine c) ∧ ∀ c ∈ sentPath url, StaysInLine c := by
    rw [staysInLine_requestLines_iff (HttpRequest.staysInLine_setAuth loc),
      ← staysInLine_host_iff hhostport, ← hpath]
    exact and_congr_right fun _ => HttpRequest.staysInLine_setPath_iff _ _
  have hlength : (requestLines (HttpRequest.ofLocation loc)).length =
      if loc.user = [] then 2 else 3 := by
    have hauth : (HttpRequest.ofLocation loc).auth ≠ [] ↔ loc.user ≠ [] :=
      HttpRequest.setAuth_ne_nil_iff loc
    rw [requestLines]
    by_cases huser : loc.user = []
    · rw [if_pos huser, if_neg fun hne => hauth.1 hne huser]
      rfl
    · rw [if_neg huser, if_pos (hauth.2 huser)]
      rfl
  rw [handshake_os, getRequest_eq, ← hlines]
  constructor
  · rintro ⟨lines, hlength', hfree, heq⟩
    exact staysInLine_of_headerSection_eq (List.append_cancel_left heq).symm
      (hlength'.trans hlength.symm) hfree
  · intro hfree
    exact ⟨_, hlength, hfree, rfl⟩

theorem handshake_lines_iff_user :
    (∃ lines, lines.length = (if bytes "u" = [] then 2 else 3) ∧
      (∀ line ∈ lines, ∀ c ∈ line, StaysInLine c) ∧
      ((⟨RawMemIstream.ofBytes [], [], [], []⟩ : HttpConnection RawMemIstream).handshake
        (HttpRequest.ofLocation ⟨bytes "http://u@h/a?\r", bytes "u", [], bytes "h", 80, bytes "a",
          [(bytes "\r", [])], []⟩) []).2.2.os = [] ++ headerSection lines) ↔
    (∀ c ∈ sentHost (bytes "http://u@h/a?\r"), StaysInLine c) ∧
      ∀ c ∈ sentPath (bytes "http://u@h/a?\r"), StaysInLine c := by
  have hurl : HttpLocation.ofUrl (bytes "http://u@h/a?\r") [] = .ok ⟨bytes "http://u@h/a?\r",
      bytes "u", [], bytes "h", 80, bytes "a", [(bytes "\r", [])], []⟩ := by decide
  exact handshake_lines_iff hurl ⟨RawMemIstream.ofBytes [], [], [], []⟩ []

/-- A path with a line end and a header line of its own. -/
theorem not_handshake_lines_header :
    HttpLocation.ofUrl (bytes "http://h/a\r\nX:y") [] =
        .ok ⟨bytes "http://h/a\r\nX:y", [], [], bytes "h", 80, bytes "a\r\nX:y", [], []⟩ ∧
      ¬∃ lines, lines.length = 2 ∧ (∀ line ∈ lines, ∀ c ∈ line, StaysInLine c) ∧
        ((⟨RawMemIstream.ofBytes [], [], [], []⟩ : HttpConnection RawMemIstream).handshake
          (HttpRequest.ofLocation ⟨bytes "http://h/a\r\nX:y", [], [], bytes "h", 80,
            bytes "a\r\nX:y", [], []⟩) []).2.2.os = [] ++ headerSection lines := by
  refine ⟨by decide, ?_⟩
  rintro ⟨lines, hlength, hfree, heq⟩
  rw [handshake_os, getRequest_eq] at heq
  have hlines := staysInLine_of_headerSection_eq (List.append_cancel_left heq).symm hlength hfree
  exact (hlines _ (List.mem_cons_self ..) 0x0d (by decide)).1 rfl

end HttpConnection

end Wpi
