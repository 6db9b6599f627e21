import Mathlib.Data.List.Infix
import Vestibule.CopyMove
import Vestibule.HrefTexts
import Vestibule.Services
import Vestibule.UriReferences

/-!
`proxy_handler` of `apps.rs`: the request that is forwarded, and the Location that comes back. The
client and the parsers of the `http` crate are parameters.
-/
namespace VestibuleRedirects
open VestibuleRust VestibulePaths VestibuleServices VestibuleCopyMove UriReferences

structure ProxyRequest where
  method : String
  uri : Uri
  headers : Headers
  body : Bytes
  deriving DecidableEq

structure ProxyResponse where
  status : Nat
  headers : Headers
  body : Bytes
  deriving DecidableEq

/-- The `http` crate with the port of an authority as it is written. -/
structure HttpText extends Http where
  port : Authority → Option String

/-- `HeaderMap::insert`: the value takes the place of all values of the name. -/
def insertHeader (name : String) (value : Bytes) : Headers → Headers
  | [] => [(name, value)]
  | header :: rest =>
    if header.1 = name then (name, value) :: rest.filter (fun other => other.1 ≠ name)
    else header :: insertHeader name value rest

/-- `HeaderValue::from_str`. -/
def headerValue (text : String) : Option Bytes :=
  if (utf8 text).all fun b => (32 ≤ b && b ≠ 127) || b = 9 then some (utf8 text) else none

def headerText (value : Bytes) : Option String :=
  (toStr value).map fun bytes => String.ofList (bytes.map fun b => Char.ofNat b.toNat)

def Scheme.text : Scheme → String
  | .http => "http"
  | .https => "https"
  | .other name => name

/-- `Uri::to_string`. -/
def uriText (uri : Uri) : String :=
  (uri.scheme.map fun scheme => Scheme.text scheme ++ "://").getD "" ++
    (uri.authority.map Authority.text).getD "" ++ uri.pathAndQuery.getD ""

/-- `str::contains`. -/
def containsStr (text pattern : String) : Bool := text.toList.tails.any pattern.toList.isPrefixOf

theorem contains_str_iff {text pattern : String} :
    containsStr text pattern = true ↔ pattern.toList <:+: text.toList := by
  simp only [containsStr, List.any_eq_true, List.mem_tails, List.isPrefixOf_iff_prefix,
    List.infix_iff_prefix_suffix]
  constructor
  · rintro ⟨rest, suffix, first⟩
    exact ⟨rest, first, suffix⟩
  · rintro ⟨rest, first, suffix⟩
    exact ⟨rest, suffix, first⟩

def unwrapError : String := "called `Result::unwrap()` on an `Err` value"

section Handler
variable {Ip : Type} (http : HttpText) (client : Ip → String → ProxyRequest → Option ProxyResponse)

def alterRequest (app : AppWithUri) (req : ProxyRequest) : Except String ProxyRequest := do
  let authority ← expect
    (http.parseAuthority
      (match http.port app.forwardAuthority with
      | some port => app.forwardHost ++ ":" ++ port
      | none => app.forwardHost)) unwrapError
  let uri ← expect (Uri.fromParts ⟨some app.forwardScheme, some authority, req.uri.pathAndQuery⟩)
    unwrapError
  if (http.port app.forwardAuthority).isNone then do
    let host ← expect (headerValue app.forwardAuthority.text) unwrapError
    return { req with uri := uri, headers := insertHeader "host" host req.headers }
  else return { req with uri := uri }

def alterLocation (app : AppWithUri) (response : ProxyResponse) : Except String ProxyResponse :=
  match response.headers.get "location" with
  | none => .ok response
  | some location => do
    let text ← expect (headerText location) unwrapError
    match http.parseUri text with
    | none => return ⟨500, [], []⟩
    | some locationUri =>
      match locationUri.authority with
      | none => return response
      | some authority =>
        if containsStr authority.host app.forwardHost then do
          let uri ← expect
            (Uri.fromParts ⟨some app.appScheme, some app.appAuthority, locationUri.pathAndQuery⟩) unwrapError
          let value ← expect (headerValue (uriText uri)) unwrapError
          return { response with headers := insertHeader "location" value response.headers }
        else return response

/-- `proxy_handler`; an error is a panic. -/
def proxyHandler (user : Option VestibuleAdmin.User) (ip : Ip) (app : HostType) (req : ProxyRequest) :
    Except String ProxyResponse :=
  match checkAuthorization app user with
  | some status => .ok ⟨status, [], []⟩
  | none =>
    match app with
    | .dav _ => .error "Service is not an app !"
    | .app app => do
      let req ← alterRequest http app req
      match client ip (uriText app.forwardUri) req with
      | none => return ⟨500, [], []⟩
      | some response => alterLocation http app response

end Handler

section HeaderMap
variable {name : String} {value other : Bytes} {headers : Headers}

theorem get_insert_header (headers : Headers) : (insertHeader name value headers).get name = some value := by
  induction headers with
  | nil => simp [insertHeader, Headers.get]
  | cons header rest ih =>
    unfold insertHeader
    split
    · simp [Headers.get]
    · rename_i different
      unfold Headers.get at ih ⊢
      rw [List.find?_cons_of_neg (by simpa using different)]
      exact ih

theorem get_all_insert (headers : Headers) : getAll (insertHeader name value headers) name = [value] := by
  induction headers with
  | nil => simp [insertHeader, getAll]
  | cons header rest ih =>
    unfold insertHeader
    split
    · simp [getAll]
    · rename_i different
      unfold getAll at ih ⊢
      rw [List.filter_cons_of_neg (by simpa using different)]
      exact ih

theorem insert_header_same_iff : insertHeader name value headers = headers ↔ getAll headers name = [value] := by
  constructor
  · intro same
    rw [← same]
    exact get_all_insert headers
  · intro only
    induction headers with
    | nil => simp [getAll] at only
    | cons header rest ih =>
      unfold insertHeader
      split
      · rename_i found
        rw [getAll, List.filter_cons_of_pos (by simpa using found), List.map_cons] at only
        obtain ⟨first, none⟩ := List.cons.inj only
        have others : rest.filter (fun other => other.1 ≠ name) = rest := by
          apply List.filter_eq_self.mpr
          intro other member
          have absent := List.filter_eq_nil_iff.mp (List.map_eq_nil_iff.mp none) other member
          simpa using absent
        rw [others, ← found, ← first]
      · rename_i different
        rw [getAll, List.filter_cons_of_neg (by simpa using different)] at only
        rw [ih only]

theorem insert_header_value_iff :
    insertHeader name value headers = insertHeader name other headers ↔ value = other := by
  constructor
  · intro same
    have found := @get_insert_header name value headers
    rw [same, get_insert_header] at found
    exact (Option.some.inj found).symm
  · intro same
    rw [same]

end HeaderMap

section Text
variable {text : String} {chars : List Char} {value : Bytes}

/-- A character that a header gives as text: ASCII, and a tab or no control. -/
def Visible (c : Char) : Prop := (32 ≤ c.toNat ∧ c.toNat < 127) ∨ c.toNat = 9

theorem visible_of_all (each : (chars.all fun c => 32 ≤ c.toNat && c.toNat < 127) = true) :
    ∀ c ∈ chars, Visible c := by
  intro c member
  have limits := List.all_eq_true.mp each c member
  simp only [Bool.and_eq_true, decide_eq_true_eq] at limits
  exact .inl limits

theorem visible_of_byte {b : UInt8} (shown : ((32 ≤ b && b < 127) || b = 9) = true) :
    Visible (Char.ofNat b.toNat) ∧ b < 128 := by
  have limits : (32 ≤ b.toNat ∧ b.toNat < 127) ∨ b.toNat = 9 := by
    simpa [UInt8.le_iff_toNat_le, UInt8.lt_iff_toNat_lt, ← UInt8.toNat_inj] using shown
  have low : b.toNat < 128 := by omega
  constructor
  · have each : ∀ n : Fin 128, (Char.ofNat n.val).toNat = n.val := by decide
    rw [Visible, each ⟨b.toNat, low⟩]
    exact limits
  · exact UInt8.lt_iff_toNat_lt.mpr low

theorem byte_of_visible {c : Char} (visible : Visible c) :
    ∃ b : UInt8, String.utf8EncodeChar c = [b] ∧ ((32 ≤ b && b ≠ 127) || b = 9) = true := by
  have low : c.toNat < 128 := by
    unfold Visible at visible
    omega
  have number : (UInt8.ofNat c.toNat).toNat = c.toNat := by
    rw [UInt8.toNat_ofNat']
    omega
  have encoded := @ascii_char (UInt8.ofNat c.toNat) (UInt8.lt_iff_toNat_lt.mpr (by rw [number]; exact low))
  rw [number, Char.ofNat_toNat] at encoded
  refine ⟨_, encoded, ?_⟩
  simp only [Bool.or_eq_true, Bool.and_eq_true, decide_eq_true_eq, ne_eq, ← UInt8.toNat_inj,
    UInt8.le_iff_toNat_le, number]
  unfold Visible at visible
  have three : (32 : UInt8).toNat = 32 ∧ (127 : UInt8).toNat = 127 ∧ (9 : UInt8).toNat = 9 := ⟨rfl, rfl, rfl⟩
  omega

theorem header_text_visible (read : headerText value = some text) :
    utf8 text = value ∧ ∀ c ∈ text.toList, Visible c := by
  unfold headerText toStr at read
  split at read
  · rename_i shown
    cases read
    rw [List.all_eq_true] at shown
    constructor
    · rw [utf8_chars]
      exact ascii_chars fun b member => (visible_of_byte (shown b member)).2
    · intro c member
      rw [String.toList_ofList] at member
      obtain ⟨b, inside, same⟩ := List.mem_map.mp member
      rw [← same]
      exact (visible_of_byte (shown b inside)).1
  · cases read

theorem header_value_visible (visible : ∀ c ∈ text.toList, Visible c) :
    headerValue text = some (utf8 text) := by
  unfold headerValue
  apply if_pos
  rw [List.all_eq_true]
  intro b member
  rw [← @String.ofList_toList text, utf8_chars] at member
  obtain ⟨c, inside, written⟩ := List.mem_flatMap.mp member
  obtain ⟨only, encoded, shown⟩ := byte_of_visible (visible c inside)
  rw [encoded, List.mem_singleton] at written
  rw [written]
  exact shown

end Text

end VestibuleRedirects
