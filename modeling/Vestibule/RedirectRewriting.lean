import Vestibule.Redirects

/-!
The Location that comes back through `proxy_handler`, against what should become of it: exactly when
the two agree, for the parsers of the `http` crate as they are documented.
-/
namespace VestibuleRedirects
open VestibuleRust VestibulePaths VestibuleServices VestibuleCopyMove UriReferences

section Rewriting

/-- What the `http` crate promises about the texts it reads. -/
structure Documented (http : HttpText) : Prop where
  /-- A URI with a scheme has an authority; its path ends before a fragment, and is not empty. -/
  absolute : ∀ {text uri}, http.parseUri text = some uri → uri.scheme ≠ none →
    ∃ parts, splitAbsolute text.toList = some parts ∧
      uri.authority = some ⟨String.ofList parts.authority, String.ofList (hostOf parts.authority)⟩ ∧
      uri.pathAndQuery = some (String.ofList (slashed (withoutFragment parts.rest)))
  legal : ∀ {text uri parts}, http.parseUri text = some uri → splitAbsolute text.toList = some parts →
    LegalScheme parts.scheme → uri.scheme ≠ none
  /-- An authority alone is a URI, without a path. -/
  alone : ∀ {text uri}, http.parseUri text = some uri → uri.scheme = none → uri.authority ≠ none →
    uri.pathAndQuery = none
  authority : ∀ {text authority}, http.parseAuthority text = some authority →
    ∀ c ∈ authority.text.toList, isDelimiter c = false ∧ Visible c

/-- The scheme and the authority under which the app is reached, as they are written before a path. -/
def origin (app : AppWithUri) : List Char :=
  (Scheme.text app.appScheme ++ "://" ++ app.appAuthority.text).toList

/-- An absolute URI at the host that requests are forwarded to, or at a domain below it. -/
def Proxied (app : AppWithUri) (parts : AbsoluteParts) : Prop :=
  LegalScheme parts.scheme ∧ Below (hostOf parts.authority) app.forwardHost.toList

def Absolute (location : Bytes) (parts : AbsoluteParts) : Prop :=
  ∃ text, headerText location = some text ∧ splitAbsolute text.toList = some parts

def withOrigin (app : AppWithUri) (rest : List Char) (response : ProxyResponse) : ProxyResponse :=
  let value := utf8 (String.ofList (origin app ++ rest))
  { response with headers := insertHeader "location" value response.headers }

/-- What the answer should be: the origin of the app in front of path and query if the Location is at
    the host that requests are forwarded to, and the response as it came if not. -/
def Exact (app : AppWithUri) (response : ProxyResponse) (location : Bytes) (answer : ProxyResponse) : Prop :=
  (∀ parts, Absolute location parts → Proxied app parts →
    answer = withOrigin app (slashed parts.rest) response) ∧
  ((∀ parts, Absolute location parts → ¬ Proxied app parts) → answer = response)

/-- The Location is text, and a URI for the `http` crate. If the forward host stands anywhere in its
    host, it is absolute and without a fragment, and either at the forward host or below it, or the
    only one and one that starts with the origin of the app and a slash already. -/
def Handled (http : HttpText) (app : AppWithUri) (response : ProxyResponse) (location : Bytes) : Prop :=
  ∃ text uri, headerText location = some text ∧ http.parseUri text = some uri ∧
    ∀ authority, uri.authority = some authority → containsStr authority.host app.forwardHost = true →
      ∃ parts, splitAbsolute text.toList = some parts ∧ '#' ∉ parts.rest ∧
        (Proxied app parts ∨
          (text.toList = origin app ++ parts.rest ∧ parts.rest.head? = some '/' ∧
            getAll response.headers "location" = [location]))

variable {Ip : Type} {http : HttpText} {client : Ip → String → ProxyRequest → Option ProxyResponse}
  {inner : VestibuleAdmin.App} {domain : String} {port : Option Nat} {app : AppWithUri} {location : Bytes}
  {response answer : ProxyResponse} {text : String} {uri : Uri} {parts : AbsoluteParts}

theorem built_origin (built : AppWithUri.fromAppDomainAndHttpPort http.toHttp inner domain port = .ok app) :
    (app.appScheme = .http ∨ app.appScheme = .https) ∧
      ∃ text, http.parseAuthority text = some app.appAuthority := by
  unfold AppWithUri.fromAppDomainAndHttpPort at built
  cases authority : http.parseAuthority (authorityText inner.host domain port) with
  | none => simp [authority, expect, bind, Except.bind] at built
  | some appAuthority =>
    cases forward : http.parseUri inner.forwardTo with
    | none => simp [authority, forward, expect, bind, Except.bind] at built
    | some forwardParts =>
      cases named : forwardParts.authority with
      | none => simp [authority, forward, named, expect, bind, Except.bind] at built
      | some forwardAuthority =>
        simp only [authority, forward, named, expect, bind, Except.bind, pure, Except.pure, Uri.fromParts,
          Option.isSome_some, Option.isNone_some, Bool.or_self, ↓reduceIte, Bool.false_eq_true] at built
        cases built
        refine ⟨?_, _, authority⟩
        dsimp only
        split
        · exact .inl rfl
        · exact .inr rfl

theorem split_origin (documented : Documented http)
    (built : AppWithUri.fromAppDomainAndHttpPort http.toHttp inner domain port = .ok app) {rest : List Char}
    (ends : ∀ c, rest.head? = some c → isDelimiter c = true) :
    ∃ scheme, LegalScheme scheme ∧
      splitAbsolute (origin app ++ rest) = some ⟨scheme, app.appAuthority.text.toList, rest⟩ := by
  obtain ⟨scheme, written, accepted⟩ := built_origin built
  have inside : ∀ c ∈ app.appAuthority.text.toList, isDelimiter c = false :=
    fun c member => (documented.authority accepted c member).1
  have shape : origin app ++ rest =
      (Scheme.text app.appScheme).toList ++ ':' :: '/' :: '/' :: (app.appAuthority.text.toList ++ rest) := by
    simp [origin]
  rw [shape]
  refine ⟨_, ?_, split_joined ?_ inside ends⟩
  · rcases scheme with same | same <;> rw [same]
    · exact @legal_scheme 'h' "ttp".toList rfl rfl
    · exact @legal_scheme 'h' "ttps".toList rfl rfl
  · rcases scheme with same | same <;> rw [same] <;> decide

theorem origin_visible (documented : Documented http)
    (built : AppWithUri.fromAppDomainAndHttpPort http.toHttp inner domain port = .ok app) :
    ∀ c ∈ origin app, Visible c := by
  obtain ⟨scheme, written, accepted⟩ := built_origin built
  intro c member
  simp only [origin, String.toList_append, List.mem_append] at member
  rcases member with (inside | inside) | inside
  · rcases scheme with same | same <;> rw [same] at inside
    · exact visible_of_all rfl c inside
    · exact visible_of_all rfl c inside
  · exact visible_of_all rfl c inside
  · exact (documented.authority accepted c inside).2

theorem slashed_visible {rest : List Char} (visible : ∀ c ∈ rest, Visible c) :
    ∀ c ∈ slashed (withoutFragment rest), Visible c := by
  have slash : Visible '/' := .inl (by decide)
  have kept : ∀ c ∈ withoutFragment rest, Visible c :=
    fun c member => visible c ((List.takeWhile_prefix _).mem member)
  intro c member
  unfold slashed at member
  split at member
  · exact kept c member
  · rcases List.mem_cons.mp member with same | member
    · exact same ▸ slash
    · exact kept c member

section Branches
variable (located : response.headers.get "location" = some location)
include located

theorem alter_unreadable (unread : headerText location = none) :
    alterLocation http app response = .error unwrapError := by
  simp [alterLocation, located, unread, expect, bind, Except.bind]

theorem alter_unparsed (read : headerText location = some text) (refused : http.parseUri text = none) :
    alterLocation http app response = .ok ⟨500, [], []⟩ := by
  simp [alterLocation, located, read, refused, expect, bind, Except.bind, pure, Except.pure]

variable (read : headerText location = some text) (parsed : http.parseUri text = some uri)
include read parsed

theorem alter_elsewhere
    (other : ∀ authority, uri.authority = some authority → containsStr authority.host app.forwardHost = false) :
    alterLocation http app response = .ok response := by
  cases named : uri.authority with
  | none => simp [alterLocation, located, read, parsed, named, expect, bind, Except.bind, pure, Except.pure]
  | some authority =>
    simp [alterLocation, located, read, parsed, named, other authority named, expect, bind, Except.bind, pure,
      Except.pure]

variable {authority : Authority} (named : uri.authority = some authority)
  (contained : containsStr authority.host app.forwardHost = true)
include named contained

/-- An authority alone has no path to go behind the origin: `from_parts` is unwrapped. -/
theorem alter_alone (pathless : uri.pathAndQuery = none) :
    alterLocation http app response = .error unwrapError := by
  simp [alterLocation, located, read, parsed, named, contained, pathless, Uri.fromParts, expect, bind,
    Except.bind]

theorem alter_contained {shown : List Char} (path : uri.pathAndQuery = some (String.ofList shown))
    (visible : ∀ c ∈ origin app ++ shown, Visible c) :
    alterLocation http app response = .ok (withOrigin app shown response) := by
  have written : uriText ⟨some app.appScheme, some app.appAuthority, some (String.ofList shown)⟩ =
      String.ofList (origin app ++ shown) := by
    rw [← String.toList_inj]
    simp [uriText, origin]
  have value := @header_value_visible (String.ofList (origin app ++ shown)) (by simpa using visible)
  simp [alterLocation, located, read, parsed, named, contained, path, Uri.fromParts, written, value, expect,
    withOrigin, bind, Except.bind, pure, Except.pure, -String.ofList_append]

end Branches

theorem with_origin_iff {a b : List Char} : withOrigin app a response = withOrigin app b response ↔ a = b := by
  constructor
  · intro same
    have value := insert_header_value_iff.mp (congrArg ProxyResponse.headers same)
    have text := String.toList_inj.mpr (utf8_injective value)
    simpa using text
  · intro same
    rw [same]

theorem with_origin_same_iff (located : response.headers.get "location" = some location)
    (read : headerText location = some text) {shown : List Char} : withOrigin app shown response = response ↔
      text.toList = origin app ++ shown ∧ getAll response.headers "location" = [location] := by
  have bytes := (header_text_visible read).1
  have only : withOrigin app shown response = response ↔
      getAll response.headers "location" = [utf8 (String.ofList (origin app ++ shown))] := by
    rw [← insert_header_same_iff]
    cases response
    simp [withOrigin]
  rw [only]
  constructor
  · intro all
    have first : utf8 (String.ofList (origin app ++ shown)) = location := by
      have found : (getAll response.headers "location").head? = response.headers.get "location" := by
        simp [getAll, Headers.get, List.head?_filter]
      rw [all, located] at found
      exact Option.some.inj found
    have same := utf8_injective (first.trans bytes.symm)
    rw [← same, String.toList_ofList, all, first]
    exact ⟨rfl, rfl⟩
  · rintro ⟨same, all⟩
    rw [all, ← same, String.ofList_toList, bytes]

theorem absolute_unique {other : AbsoluteParts} (absolute : Absolute location parts)
    (absolute' : Absolute location other) : other = parts := by
  obtain ⟨text, read, split⟩ := absolute
  obtain ⟨text', read', split'⟩ := absolute'
  obtain rfl := Option.some.inj (read.symm.trans read')
  exact Option.some.inj (split'.symm.trans split)

theorem exact_proxied_iff (absolute : Absolute location parts) (proxied : Proxied app parts) :
    Exact app response location answer ↔ answer = withOrigin app (slashed parts.rest) response := by
  constructor
  · intro exact_
    exact exact_.1 parts absolute proxied
  · intro same
    constructor
    · intro other absolute' _
      rw [absolute_unique absolute absolute']
      exact same
    · intro elsewhere
      exact absurd proxied (elsewhere parts absolute)

theorem exact_elsewhere_iff (elsewhere : ∀ parts, Absolute location parts → ¬ Proxied app parts) :
    Exact app response location answer ↔ answer = response := by
  constructor
  · intro exact_
    exact exact_.2 elsewhere
  · intro same
    exact ⟨fun parts absolute proxied => absurd proxied (elsewhere parts absolute), fun _ => same⟩

theorem exact_located (located : response.headers.get "location" = some location)
    (exact_ : Exact app response location answer) : answer.headers.get "location" ≠ none := by
  by_cases proxied : ∃ parts, Absolute location parts ∧ Proxied app parts
  · obtain ⟨parts, absolute, proxied⟩ := proxied
    rw [exact_.1 parts absolute proxied, withOrigin, get_insert_header]
    simp
  · rw [exact_.2 fun parts absolute proxied' => proxied ⟨parts, absolute, proxied'⟩, located]
    simp

section Read
variable (documented : Documented http)
  (built : AppWithUri.fromAppDomainAndHttpPort http.toHttp inner domain port = .ok app)
  (located : response.headers.get "location" = some location)
  (read : headerText location = some text) (parsed : http.parseUri text = some uri)

include documented read parsed in
theorem proxied_contained (absolute : Absolute location parts) (proxied : Proxied app parts) :
    ∃ authority, uri.authority = some authority ∧ containsStr authority.host app.forwardHost = true := by
  obtain ⟨text', read', split⟩ := absolute
  obtain rfl := Option.some.inj (read.symm.trans read')
  have schemed := documented.legal parsed split proxied.1
  obtain ⟨parts', split', named, _⟩ := documented.absolute parsed schemed
  obtain rfl := Option.some.inj (split.symm.trans split')
  refine ⟨_, named, ?_⟩
  rw [contains_str_iff, String.toList_ofList]
  exact below_infix proxied.2

variable {authority : Authority} (named : uri.authority = some authority)
  (contained : containsStr authority.host app.forwardHost = true)

include documented built located read parsed named contained

theorem alter_alone_iff (bare : uri.scheme = none) :
    (∃ answer, alterLocation http app response = .ok answer ∧ Exact app response location answer) ↔
      Handled http app response location := by
  have pathless := documented.alone parsed bare (by simp [named])
  constructor
  · rintro ⟨answer, run, _⟩
    rw [alter_alone located read parsed named contained pathless] at run
    cases run
  · rintro ⟨text', uri', read', parsed', each⟩
    obtain rfl := Option.some.inj (read.symm.trans read')
    obtain rfl := Option.some.inj (parsed.symm.trans parsed')
    exfalso
    obtain ⟨parts, split, _, proxied | ⟨same, slash, _⟩⟩ := each authority named contained
    · exact documented.legal parsed split proxied.1 bare
    · have ends : ∀ c, parts.rest.head? = some c → isDelimiter c = true := (split_shape split).2.2.2
      obtain ⟨scheme, legal, split'⟩ := split_origin documented built ends
      exact documented.legal parsed (same ▸ split') legal bare

/-- A URI with a scheme is written again behind the origin, without its fragment. -/
theorem alter_absolute_iff (schemed : uri.scheme ≠ none) :
    (∃ answer, alterLocation http app response = .ok answer ∧ Exact app response location answer) ↔
      Handled http app response location := by
  obtain ⟨parts, split, named', path⟩ := documented.absolute parsed schemed
  obtain ⟨shape, _, _, ends⟩ := split_shape split
  have absolute : Absolute location parts := ⟨text, read, split⟩
  have visible : ∀ c ∈ origin app ++ slashed (withoutFragment parts.rest), Visible c := by
    intro c member
    rcases List.mem_append.mp member with inside | inside
    · exact origin_visible documented built c inside
    · refine slashed_visible (fun d inside => ?_) c inside
      apply (header_text_visible read).2
      rw [shape]
      simp [inside]
  have run := alter_contained located read parsed named contained path visible
  have answered : (∃ answer, alterLocation http app response = .ok answer ∧
        Exact app response location answer) ↔
      Exact app response location (withOrigin app (slashed (withoutFragment parts.rest)) response) := by
    rw [run]
    constructor
    · rintro ⟨answer, same, exact_⟩
      cases same
      exact exact_
    · intro exact_
      exact ⟨_, rfl, exact_⟩
  have handled : Handled http app response location ↔ '#' ∉ parts.rest ∧ (Proxied app parts ∨
      (text.toList = origin app ++ parts.rest ∧ parts.rest.head? = some '/' ∧
        getAll response.headers "location" = [location])) := by
    constructor
    · rintro ⟨text', uri', read', parsed', each⟩
      obtain rfl := Option.some.inj (read.symm.trans read')
      obtain rfl := Option.some.inj (parsed.symm.trans parsed')
      obtain ⟨parts', split', rest⟩ := each authority named contained
      obtain rfl := Option.some.inj (split.symm.trans split')
      exact rest
    · intro rest
      exact ⟨text, uri, read, parsed, fun _ _ _ => ⟨parts, split, rest⟩⟩
  rw [answered, handled]
  by_cases proxied : Proxied app parts
  · rw [exact_proxied_iff absolute proxied, with_origin_iff, slashed_whole_iff]
    simp [proxied]
  · have elsewhere : ∀ other, Absolute location other → ¬ Proxied app other :=
      fun other absolute' => absolute_unique absolute absolute' ▸ proxied
    rw [exact_elsewhere_iff elsewhere, with_origin_same_iff located read]
    constructor
    · rintro ⟨same, all⟩
      -- both cuts of the text are the same, so that the path is as it was
      obtain ⟨_, _, split'⟩ := @split_origin _ _ _ _ _ documented built
        (slashed (withoutFragment parts.rest)) (by
          rw [slashed_head]
          rintro c ⟨⟩
          rfl)
      rw [← same, split] at split'
      have rest : slashed (withoutFragment parts.rest) = parts.rest :=
        (congrArg AbsoluteParts.rest (Option.some.inj split')).symm
      obtain ⟨slash, whole⟩ := slashed_same_iff.mp rest
      exact ⟨whole, .inr ⟨by rw [same, rest], slash, all⟩⟩
    · rintro ⟨whole, proxied' | ⟨same, slash, all⟩⟩
      · exact absurd proxied' proxied
      · rw [slashed_same_iff.mpr ⟨slash, whole⟩]
        exact ⟨same, all⟩

end Read

theorem alter_exact_iff (documented : Documented http)
    (built : AppWithUri.fromAppDomainAndHttpPort http.toHttp inner domain port = .ok app)
    (located : response.headers.get "location" = some location) :
    (∃ answer, alterLocation http app response = .ok answer ∧ Exact app response location answer) ↔
      Handled http app response location := by
  cases read : headerText location with
  | none =>
    constructor
    · rintro ⟨answer, run, _⟩
      rw [alter_unreadable located read] at run
      cases run
    · rintro ⟨text, _, read', _⟩
      rw [read] at read'
      cases read'
  | some text =>
    cases parsed : http.parseUri text with
    | none =>
      constructor
      · rintro ⟨answer, run, exact_⟩
        rw [alter_unparsed located read parsed] at run
        cases run
        exact absurd rfl (exact_located located exact_)
      · rintro ⟨text', uri, read', parsed', _⟩
        obtain rfl := Option.some.inj (read.symm.trans read')
        rw [parsed] at parsed'
        cases parsed'
    | some uri =>
      by_cases inside : ∃ authority, uri.authority = some authority ∧
          containsStr authority.host app.forwardHost = true
      · obtain ⟨authority, named, contained⟩ := inside
        by_cases bare : uri.scheme = none
        · exact alter_alone_iff documented built located read parsed named contained bare
        · exact alter_absolute_iff documented built located read parsed named contained bare
      · have outside : ∀ authority, uri.authority = some authority →
            containsStr authority.host app.forwardHost = false := by
          intro authority named
          rw [Bool.eq_false_iff]
          exact fun contained => inside ⟨authority, named, contained⟩
        have run := alter_elsewhere located read parsed outside
        have elsewhere : ∀ parts, Absolute location parts → ¬ Proxied app parts := fun parts absolute proxied =>
          inside (proxied_contained documented read parsed absolute proxied)
        constructor
        · intro _
          exact ⟨text, uri, read, parsed, fun authority named contained =>
            absurd ⟨authority, named, contained⟩ inside⟩
        · intro _
          exact ⟨response, run, (exact_elsewhere_iff elsewhere).mpr rfl⟩

/-- Behind the access check and a client that answers, `proxy_handler` is what it does to the Location. -/
theorem redirect_exact_iff {user : Option VestibuleAdmin.User} {ip : Ip} {req req' : ProxyRequest}
    (documented : Documented http)
    (built : AppWithUri.fromAppDomainAndHttpPort http.toHttp inner domain port = .ok app)
    (allowed : checkAuthorization (.app app) user = none) (altered : alterRequest http app req = .ok req')
    (answered : client ip (uriText app.forwardUri) req' = some response)
    (located : response.headers.get "location" = some location) :
    (∃ answer, proxyHandler http client user ip (.app app) req = .ok answer ∧
      Exact app response location answer) ↔ Handled http app response location := by
  have run : proxyHandler http client user ip (.app app) req = alterLocation http app response := by
    simp [proxyHandler, allowed, altered, answered, bind, Except.bind]
  rw [run]
  exact alter_exact_iff documented built located

end Rewriting

section Samples

def sampleAuthority (text : List Char) : Option Authority :=
  if text.all fun c => !isDelimiter c && 32 ≤ c.toNat && c.toNat < 127 then
    some ⟨String.ofList text, String.ofList (hostOf text)⟩
  else none

def sampleScheme (name : String) : Scheme :=
  if name = "http" then .http else if name = "https" then .https else .other name

def sampleUri (text : List Char) : Option Uri :=
  match splitAbsolute text with
  | some parts =>
    (sampleAuthority parts.authority).map fun authority =>
      ⟨some (sampleScheme (String.ofList parts.scheme)), some authority,
        some (String.ofList (slashed (withoutFragment parts.rest)))⟩
  | none =>
    if text.head? = some '/' then some ⟨none, none, some (String.ofList text)⟩
    else (sampleAuthority text).map fun authority => ⟨none, some authority, none⟩

def samplePort (authority : Authority) : Option String :=
  match (withoutUser authority.text.toList).dropWhile (· ≠ ':') with
  | _ :: port => some (String.ofList port)
  | [] => none

def sampleHttp : HttpText where
  parseAuthority text := sampleAuthority text.toList
  parseUri text := sampleUri text.toList
  port := samplePort

theorem sample_authority {text : List Char} {authority : Authority}
    (read : sampleAuthority text = some authority) :
    authority = ⟨String.ofList text, String.ofList (hostOf text)⟩ ∧
      ∀ c ∈ text, isDelimiter c = false ∧ Visible c := by
  unfold sampleAuthority at read
  split at read
  · rename_i plain
    refine ⟨(Option.some.inj read).symm, fun c member => ?_⟩
    have each := List.all_eq_true.mp plain c member
    simp only [Bool.and_eq_true, Bool.not_eq_true', decide_eq_true_eq] at each
    exact ⟨each.1.1, .inl ⟨each.1.2, each.2⟩⟩
  · cases read

theorem sample_documented : Documented sampleHttp where
  absolute := by
    intro text uri parsed schemed
    simp only [sampleHttp, sampleUri] at parsed
    split at parsed
    · rename_i parts split_
      obtain ⟨authority, read, same⟩ := Option.map_eq_some_iff.mp parsed
      cases same
      exact ⟨parts, split_, congrArg some (sample_authority read).1, rfl⟩
    · exfalso
      split at parsed
      · cases parsed
        exact schemed rfl
      · obtain ⟨authority, read, same⟩ := Option.map_eq_some_iff.mp parsed
        cases same
        exact schemed rfl
  legal := by
    intro text uri parts parsed split_ _
    simp only [sampleHttp, sampleUri, split_] at parsed
    obtain ⟨authority, read, same⟩ := Option.map_eq_some_iff.mp parsed
    cases same
    simp
  alone := by
    intro text uri parsed bare named
    simp only [sampleHttp, sampleUri] at parsed
    split at parsed
    · obtain ⟨authority, read, same⟩ := Option.map_eq_some_iff.mp parsed
      cases same
      cases bare
    · split at parsed
      · cases parsed
        exact absurd rfl named
      · obtain ⟨authority, read, same⟩ := Option.map_eq_some_iff.mp parsed
        cases same
        rfl
  authority := by
    intro text authority read c member
    obtain ⟨same, plain⟩ := sample_authority read
    subst same
    rw [String.toList_ofList] at member
    exact plain c member

def sampleApp : VestibuleAdmin.App :=
  ⟨1, "App", "web_asset", "4292030255", true, "app", "http://localhost:9000", false, "", "", "", []⟩

def sampleService : AppWithUri where
  inner := sampleApp
  appScheme := .http
  appAuthority := ⟨"app.vestibule.io:8080", "app.vestibule.io"⟩
  forwardUri := ⟨some .http, some ⟨"localhost:9000", "localhost"⟩, some "/"⟩
  forwardScheme := .http
  forwardAuthority := ⟨"localhost:9000", "localhost"⟩
  forwardHost := "localhost"

theorem sample_built :
    AppWithUri.fromAppDomainAndHttpPort sampleHttp.toHttp sampleApp "vestibule.io" (some 8080) =
      .ok sampleService := by
  have scheme : "http://localhost:9000".startsWith "https://" = false := by simp
  unfold AppWithUri.fromAppDomainAndHttpPort
  simp only [sampleApp, scheme]
  rfl

def sampleRequest : ProxyRequest :=
  ⟨"GET", ⟨none, none, some "/"⟩, [("host", utf8 "app.vestibule.io:8080")], []⟩

def alteredRequest : ProxyRequest :=
  ⟨"GET", ⟨some .http, some ⟨"localhost:9000", "localhost"⟩, some "/"⟩,
    [("host", utf8 "app.vestibule.io:8080")], []⟩

def redirectTo (location : String) : ProxyResponse := ⟨308, [("location", utf8 location)], []⟩

def sampleClient (location : String) (_ : Unit) (_ : String) (_ : ProxyRequest) : Option ProxyResponse :=
  some (redirectTo location)

theorem sample_altered : alterRequest sampleHttp sampleService sampleRequest = .ok alteredRequest := by
  rfl

/-- A redirect to a domain below the forward host. -/
theorem below_rewritten : ∃ answer,
    proxyHandler sampleHttp (sampleClient "http://fwdto.redirect.bad.localhost:9000/some/path") none ()
      (.app sampleService) sampleRequest = .ok answer ∧
    Exact sampleService (redirectTo "http://fwdto.redirect.bad.localhost:9000/some/path")
      (utf8 "http://fwdto.redirect.bad.localhost:9000/some/path") answer := by
  apply (@redirect_exact_iff Unit sampleHttp _ sampleApp "vestibule.io" (some 8080) _ _ _ none () _
    alteredRequest sample_documented sample_built rfl sample_altered rfl rfl).mpr
  refine ⟨"http://fwdto.redirect.bad.localhost:9000/some/path",
    ⟨some .http, some ⟨"fwdto.redirect.bad.localhost:9000", "fwdto.redirect.bad.localhost"⟩, some "/some/path"⟩,
    by decide, by decide, fun _ _ _ => ?_⟩
  refine ⟨⟨"http".toList, "fwdto.redirect.bad.localhost:9000".toList, "/some/path".toList⟩, by decide,
    by decide, .inl ⟨@legal_scheme 'h' "ttp".toList rfl rfl, .inr (by decide)⟩⟩

/-- The host of a redirect contains the forward host, and is another one. -/
theorem other_host_rewritten : Documented sampleHttp ∧
    AppWithUri.fromAppDomainAndHttpPort sampleHttp.toHttp sampleApp "vestibule.io" (some 8080) =
      .ok sampleService ∧
    proxyHandler sampleHttp (sampleClient "http://notlocalhost.example/") none () (.app sampleService)
      sampleRequest = .ok (redirectTo "http://app.vestibule.io:8080/") ∧
    ¬ Exact sampleService (redirectTo "http://notlocalhost.example/") (utf8 "http://notlocalhost.example/")
      (redirectTo "http://app.vestibule.io:8080/") := by
  refine ⟨sample_documented, sample_built, rfl, ?_⟩
  have absolute : Absolute (utf8 "http://notlocalhost.example/")
      ⟨"http".toList, "notlocalhost.example".toList, "/".toList⟩ :=
    ⟨"http://notlocalhost.example/", by decide, by decide⟩
  rw [exact_elsewhere_iff]
  · decide
  · intro parts absolute' proxied
    rw [absolute_unique absolute absolute'] at proxied
    rcases proxied.2 with same | below
    · exact absurd same (by decide)
    · exact absurd below (by decide)

/-- A relative path is no URI for the `http` crate, and a host without a scheme is one without a path. -/
example : alterLocation sampleHttp sampleService (redirectTo "some/path") = .ok ⟨500, [], []⟩ ∧
    alterLocation sampleHttp sampleService (redirectTo "localhost:9000") = .error unwrapError :=
  ⟨rfl, rfl⟩

end Samples

end VestibuleRedirects
