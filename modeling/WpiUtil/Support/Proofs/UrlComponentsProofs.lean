import WpiUtil.Support.Proofs.EscapeURIProofs
import WpiUtil.Support.Proofs.HttpLocationProofs
import WpiUtil.Support.UrlComponents

/-!
# Parsing a URL that is put together from its components
-/

namespace Wpi

open Foundations StringRef

namespace HttpLocation

/-- A URL of which the authority ends at a `/`. -/
theorem ofUrl_append {scheme a errorMsg : List Byte} {auth : Authority}
    (hscheme : equalsLower scheme (bytes "http") = true) (hcolon : 0x3a ∉ scheme) (ha : 0x2f ∉ a)
    (hauth : parseAuthority a errorMsg = .ok auth) (rest : List Byte) :
    ofUrl (scheme ++ bytes "://" ++ a ++ 0x2f :: rest) errorMsg =
      (parseParams errorMsg (StringRef.split (StringRef.split rest 0x23).1 0x3f).2.length
        (StringRef.split (StringRef.split rest 0x23).1 0x3f).2).map fun params =>
          ⟨scheme ++ bytes "://" ++ a ++ 0x2f :: rest, auth.user, auth.password, auth.host,
            auth.port, (StringRef.split (StringRef.split rest 0x23).1 0x3f).1, params,
            (StringRef.split rest 0x23).2⟩ := by
  have hurl : scheme ++ bytes "://" ++ a ++ 0x2f :: rest =
      scheme ++ 0x3a :: (bytes "//" ++ (a ++ 0x2f :: rest)) := by
    rw [List.append_assoc, List.append_assoc]
    rfl
  have hsplit : StringRef.split (scheme ++ bytes "://" ++ a ++ 0x2f :: rest) 0x3a =
      (scheme, bytes "//" ++ (a ++ 0x2f :: rest)) := by
    rw [hurl, split_append_cons hcolon]
  have hslashes : startswith (bytes "//" ++ (a ++ 0x2f :: rest)) (bytes "//") = true :=
    List.isPrefixOf_iff_prefix.2 (List.prefix_append _ _)
  have hauthority : StringRef.split ((bytes "//" ++ (a ++ 0x2f :: rest)).drop 2) 0x2f = (a, rest) :=
    split_append_cons ha rest
  rw [ofUrl, hsplit]
  dsimp only
  rw [hscheme, hslashes, if_neg (by decide), if_neg (by decide), hauthority]
  dsimp only
  rw [hauth]
  dsimp only
  cases parseParams errorMsg (StringRef.split (StringRef.split rest 0x23).1 0x3f).2.length
      (StringRef.split (StringRef.split rest 0x23).1 0x3f).2 with
  | error e => rfl
  | ok params => rfl

end HttpLocation

namespace UrlComponents

variable (components : UrlComponents)

/-! ## The scheme -/

theorem equalsLower_of_letters {scheme letters : List Byte}
    (h : List.Forall₂ (fun c letter => c = letter ∨ c = letter - 0x20) scheme letters)
    (hletters : ∀ c ∈ letters, asciiTolower c = c ∧ asciiTolower (c - 0x20) = c) :
    equalsLower scheme letters = true := by
  rw [equalsLower, beq_iff_eq]
  induction h with
  | nil => rfl
  | @cons c letter scheme letters hc h ih =>
    rw [List.forall_mem_cons] at hletters
    have hfirst : asciiTolower c = asciiTolower letter := by
      rcases hc with rfl | rfl
      · rfl
      · rw [hletters.1.1, hletters.1.2]
    rw [List.map_cons, List.map_cons, hfirst, ih hletters.2]

theorem equalsLower_scheme : equalsLower components.scheme (bytes "http") = true :=
  equalsLower_of_letters components.scheme_letters (List.all_iff_forall_prop.1 (by decide))

theorem colon_not_mem_scheme : 0x3a ∉ components.scheme := by
  intro hmem
  have hlower := components.equalsLower_scheme
  rw [equalsLower, beq_iff_eq] at hlower
  have hcolon := List.mem_map_of_mem (f := asciiTolower) hmem
  rw [hlower] at hcolon
  exact absurd hcolon (by decide)

/-! ## The authority -/

/-- There is no `:`, no `/` and no `@` in a port. -/
theorem portDigits_separators {port : UInt16} {c : Byte} (hc : c ∈ Foundations.decimal port.toNat) :
    c ≠ 0x3a ∧ c ≠ 0x2f ∧ c ≠ 0x40 := by
  have hdigit := isDigit_of_mem_decimal hc
  refine ⟨?_, ?_, ?_⟩
  all_goals
    rintro rfl
    exact absurd hdigit (by decide)

theorem parseHostport_eq (errorMsg : List Byte) :
    HttpLocation.parseHostport (components.host ++ portText components.port) errorMsg =
      .ok (components.host,
        (components.port.map fun port => Int32.ofNat port.toNat).getD 80) := by
  rw [HttpLocation.parseHostport_eq_ok_iff]
  cases components.port with
  | none =>
    have hcolon : 0x3a ∉ components.host := fun hmem =>
      (components.host_separators _ hmem).1 rfl
    rw [portText, List.append_nil, rsplit_of_not_mem hcolon]
    exact ⟨rfl, components.host_ne_nil, Or.inl ⟨rfl, rfl⟩⟩
  | some port =>
    have hcolon : 0x3a ∉ Foundations.decimal port.toNat := fun hmem => (portDigits_separators hmem).1 rfl
    have hlt := port.toNat_lt
    rw [portText, rsplit_append_cons _ hcolon]
    exact ⟨rfl, components.host_ne_nil,
      Or.inr ⟨decimal_ne_nil _, getAsInteger_decimal (show port.toNat < 2 ^ 31 by omega)⟩⟩

theorem hostport_ne_nil : components.host ++ portText components.port ≠ [] :=
  List.append_ne_nil_of_left_ne_nil components.host_ne_nil _

theorem mem_hostport {c : Byte} (hc : c ∈ components.host ++ portText components.port) :
    c ≠ 0x2f ∧ c ≠ 0x40 := by
  rcases List.mem_append.1 hc with hc | hc
  · exact (components.host_separators c hc).2
  · cases hport : components.port with
    | none =>
      rw [hport] at hc
      cases hc
    | some port =>
      rw [hport, portText, List.mem_cons] at hc
      rcases hc with rfl | hc
      · decide
      · exact (portDigits_separators hc).2

/-- The user and the password in front of an `@`. -/
theorem parseUserpass_eq (user password errorMsg : List Byte) (spacePlus : Bool) :
    HttpLocation.parseUserpass (escapeURI user spacePlus ++ 0x3a :: escapeURI password spacePlus)
      errorMsg = .ok (user, password) := by
  have hsplit : StringRef.split (escapeURI user spacePlus ++ 0x3a :: escapeURI password spacePlus)
      0x3a = (escapeURI user spacePlus, escapeURI password spacePlus) :=
    split_append_cons (not_mem_escapeURI user spacePlus (by decide)) _
  rw [HttpLocation.parseUserpass_eq_ok_iff, hsplit, unescapeURI_escapeURI, unescapeURI_escapeURI]
  exact Or.inr ⟨List.append_ne_nil_of_right_ne_nil _ (List.cons_ne_nil _ _), rfl, rfl⟩

theorem not_mem_userpass (user password : List Byte) (spacePlus : Bool) {c : Byte}
    (hc : isEscaped c = false) (hcolon : c ≠ 0x3a) :
    c ∉ escapeURI user spacePlus ++ 0x3a :: escapeURI password spacePlus := by
  rw [List.mem_append, List.mem_cons]
  rintro (hmem | heq | hmem)
  · exact not_mem_escapeURI user spacePlus hc hmem
  · exact hcolon heq
  · exact not_mem_escapeURI password spacePlus hc hmem

theorem parseAuthority_eq (spacePlus : Bool) (errorMsg : List Byte) :
    HttpLocation.parseAuthority (components.authority spacePlus) errorMsg =
      .ok (components.location spacePlus).authority := by
  have hhostport := components.parseHostport_eq errorMsg
  have hat : 0x40 ∉ components.host ++ portText components.port := fun hmem =>
    (components.mem_hostport hmem).2 rfl
  rw [HttpLocation.parseAuthority_eq_ok_iff, authority]
  simp only [location, HttpLocation.authority]
  cases components.userinfo with
  | none =>
    rw [userinfoText, List.nil_append, HttpLocation.parts_of_not_mem hat]
    exact ⟨rfl, hhostport⟩
  | some userinfo =>
    obtain ⟨user, password⟩ := userinfo
    have hfirst : 0x40 ∉ escapeURI user spacePlus ++ 0x3a :: escapeURI password spacePlus :=
      not_mem_userpass user password spacePlus (by decide) (by decide)
    rw [userinfoText, List.append_assoc, List.singleton_append,
      HttpLocation.parts_append_cons hfirst, if_neg components.hostport_ne_nil]
    exact ⟨parseUserpass_eq user password errorMsg spacePlus, hhostport⟩

theorem slash_not_mem_authority (spacePlus : Bool) : 0x2f ∉ components.authority spacePlus := by
  rw [authority, List.mem_append]
  rintro (hmem | hmem)
  · cases huserinfo : components.userinfo with
    | none =>
      rw [huserinfo] at hmem
      cases hmem
    | some userinfo =>
      obtain ⟨user, password⟩ := userinfo
      rw [huserinfo, userinfoText, List.mem_append, List.mem_singleton] at hmem
      rcases hmem with hmem | heq
      · exact not_mem_userpass user password spacePlus (by decide) (by decide) hmem
      · exact absurd heq (by decide)
  · exact (components.mem_hostport hmem).1 rfl

/-! ## The whole URL -/

/-- The URL is accepted, with the components that it has been put together from. -/
theorem ofUrl_url (spacePlus : Bool) (errorMsg : List Byte) :
    HttpLocation.ofUrl (components.url spacePlus) errorMsg =
      .ok (components.location spacePlus) := by
  have hfragment : StringRef.split (components.path ++ 0x23 :: components.fragment) 0x23 =
      (components.path, components.fragment) :=
    split_append_cons (fun hmem => (components.path_marks _ hmem).2 rfl) _
  have hquery : StringRef.split components.path 0x3f = (components.path, []) :=
    split_of_not_mem fun hmem => (components.path_marks _ hmem).1 rfl
  rw [url, HttpLocation.ofUrl_append components.equalsLower_scheme components.colon_not_mem_scheme
    (components.slash_not_mem_authority spacePlus) (components.parseAuthority_eq spacePlus errorMsg),
    hfragment]
  dsimp only
  rw [hquery]
  rfl

end UrlComponents

end Wpi
