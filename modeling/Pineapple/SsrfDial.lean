import Pineapple.Ssrf

/-! # From a host to a connection (`ssrf.cpp`, `http_client.cpp`, `ssrf.go`, `TransformRemotePineapple.java`)

A host is looked up when the operator is initialised and again for every request; the answers need not agree. What
libc does with a text is a parameter. -/

namespace Pineapple.Ssrf

/-- Functions of the C library. -/
structure Platform where
  inetPton4 : List Char → Option (BitVec 32)
  inetPton6 : List Char → Option (BitVec 128)
  /-- An address as text. -/
  inetNtop : Destination → List Char

/-- A lookup's answers, or that it failed. -/
abbrev Answers := Option (List Destination)

/-- What happens around a request. -/
structure Request where
  /-- `CURLUPART_HOST` of the URL. -/
  urlHost : Option (List Char)
  /-- The answers to the check that C++ makes of that host. -/
  checked : Answers
  /-- Where the client would connect if nothing stopped it, in turn. -/
  tried : List Destination
  /-- The answers to the lookup of Go and Java. -/
  answers : Answers
  /-- Java's client accepts a `Host` header. -/
  hostHeader : Bool

/-- An operator with its host: the answers when it is initialised, and its requests. -/
structure Session where
  host : List Char
  answers : Answers
  requests : List Request

def quoted (host : List Char) : List Char := "host \"".toList ++ host ++ "\"".toList

def notAllowed (host : List Char) : List Char := quoted host ++ " is not allowed (private/loopback)".toList

def resolvesTo (host ip : List Char) : List Char := quoted host ++ " resolves to private address ".toList ++ ip

/-! ## C++ -/

def isHex : List Char → Bool
  | '0' :: 'x' :: _ | '0' :: 'X' :: _ => true
  | _ => false

def looksLikeObfuscatedIpv4 (host : List Char) : Bool :=
  if host = [] then false
  else if isHex host then true
  else if host.all Char.isDigit then true
  else if '.' ∈ host then host.all (fun c => c = '.' || c.isDigit) && host.count '.' + 1 ≠ 4
  else false

def acceptedChar (c : Char) : Bool := c.isAlphanum || c = '-' || c = '.' || c = ':'

def invalidCharacter (host : List Char) : List Char :=
  quoted host ++ " contains invalid character; only RFC 1123 hostnames and IPv6 literals are accepted".toList

def nonCanonical (host : List Char) : List Char :=
  quoted host ++ " looks like a non-canonical IPv4 literal (rejected to defeat SSRF evasion)".toList

def privateAddress (host : List Char) : List Char := quoted host ++ " is a private/loopback address".toList

/-- Why a host is private, when it is. -/
def hostIsPrivate (p : Platform) (answers : Answers) (host : List Char) : Option (List Char) :=
  let lower := host.map Char.toLower
  if lower = [] ∨ lower = "localhost".toList then some (notAllowed host)
  else if host.any (!acceptedChar ·) then some (invalidCharacter host)
  else if looksLikeObfuscatedIpv4 host then some (nonCanonical host)
  else
    match p.inetPton4 host with
    | some ip => if ipv4IsPrivate ip then some (privateAddress host) else none
    | none =>
      match p.inetPton6 host with
      | some ip => if ipv6IsPrivate ip then some (privateAddress host) else none
      | none => ((answers.getD []).find? sockaddrIsPrivate).map fun d => resolvesTo host (p.inetNtop d)

/-- Whether a socket is opened. -/
def opensocketSsrfCallback (clientp : Option Bool) (address : Option Destination) : Bool :=
  match address with
  | none => false
  | some d => if !clientp.getD false && sockaddrIsPrivate d then false else true

/-- The connections of `post`. -/
def post (p : Platform) (allowPrivate : Bool) (r : Request) : List Destination :=
  let dialed := r.tried.filter fun d => opensocketSsrfCallback (some allowPrivate) (some d)
  if allowPrivate then dialed
  else
    match r.urlHost with
    | none => []
    | some host => if (hostIsPrivate p r.checked host).isSome then [] else dialed

/-! ## Go -/

def validateRemoteHost (p : Platform) (answers : Answers) (host : List Char) : Option (List Char) :=
  if host = "localhost".toList ∨ host = [] then some (notAllowed host)
  else ((answers.getD []).find? goRefuses).map fun d => resolvesTo host (p.inetNtop d)

def lookupFailed : List Char := "no such host".toList

/-- Where `ssrfSafeDialContext` connects. -/
def ssrfSafeDialContext (p : Platform) (answers : Answers) : Except (List Char) (Option Destination) :=
  match answers with
  | none => .error lookupFailed
  | some ips =>
    match ips.find? goRefuses with
    | some d => .error ("connection to private address ".toList ++ p.inetNtop d ++ " refused".toList)
    | none => .ok ips.head?

/-! ## Java -/

def validateHost (p : Platform) (answers : Answers) (host : List Char) : Option (List Char) :=
  if host = [] ∨ host = "localhost".toList then some (notAllowed host)
  else (((answers.getD []).map inetAddress).find? isPrivateAddress).map fun d => resolvesTo host (p.inetNtop d)

def resolveToSafeIP (p : Platform) (answers : Answers) (host : List Char) : Except (List Char) (Option Destination) :=
  match answers with
  | none => .error lookupFailed
  | some ips =>
    match (ips.map inetAddress).find? isPrivateAddress with
    | some d =>
      .error ("dial-time SSRF check failed: \"".toList ++ host ++ "\" resolves to private address ".toList ++ p.inetNtop d)
    | none => .ok (ips.map inetAddress).head?

/-! ## The operator -/

inductive Engine
  | cpp
  | go
  | java

/-- The check at initialisation. -/
def Engine.validate (engine : Engine) (p : Platform) (answers : Answers) (host : List Char) : Option (List Char) :=
  match engine with
  | .cpp => hostIsPrivate p answers host
  | .go => validateRemoteHost p answers host
  | .java => validateHost p answers host

/-- The connections that a request opens. -/
def Engine.dial (engine : Engine) (p : Platform) (allowPrivate : Bool) (host : List Char) (r : Request) :
    List Destination :=
  match engine with
  | .cpp => post p allowPrivate r
  | .go =>
    if allowPrivate then r.tried
    else
      match ssrfSafeDialContext p r.answers with
      | .error _ => []
      | .ok d => d.toList
  | .java =>
    if allowPrivate then r.tried
    else
      match resolveToSafeIP p r.answers host with
      | .error _ => []
      | .ok d => if r.hostHeader then d.toList else []

/-- The connections that an operator opens. -/
def Engine.opened (engine : Engine) (p : Platform) (allowPrivate : Bool) (s : Session) : List Destination :=
  if allowPrivate = false ∧ (engine.validate p s.answers s.host).isSome then []
  else s.requests.flatMap (engine.dial p allowPrivate s.host)

def Engine.refuses : Engine → Destination → Bool
  | .cpp => sockaddrIsPrivate
  | .go => goRefuses
  | .java => javaRefuses

/-! ## What is opened -/

theorem not_refused_of_post {p : Platform} {r : Request} {d : Destination} (h : d ∈ post p false r) :
    sockaddrIsPrivate d = false := by
  unfold post at h
  cases hurl : r.urlHost with
  | none => simp [hurl] at h
  | some host =>
    simp only [hurl, Bool.false_eq_true, if_false] at h
    split at h
    · cases h
    · have hopened := (List.mem_filter.mp h).2
      simpa [opensocketSsrfCallback] using hopened

theorem not_refused_of_ssrfSafeDialContext {p : Platform} {answers : Answers} {d : Destination}
    (h : ssrfSafeDialContext p answers = .ok (some d)) : goRefuses d = false := by
  unfold ssrfSafeDialContext at h
  split at h
  · cases h
  · next ips =>
    split at h
    · cases h
    · next hnone =>
      have hhead : ips.head? = some d := Except.ok.inj h
      exact Bool.eq_false_iff.mpr (List.find?_eq_none.mp hnone d (List.mem_of_head? hhead))

theorem inetAddress_inetAddress (d : Destination) : inetAddress (inetAddress d) = inetAddress d := by
  cases d with
  | v4 => rfl
  | v6 a zone =>
    cases hmapped : isV4Mapped a with
    | true => simp [inetAddress, hmapped]
    | false => simp [inetAddress, hmapped]

theorem not_refused_of_resolveToSafeIP {p : Platform} {answers : Answers} {host : List Char} {d : Destination}
    (h : resolveToSafeIP p answers host = .ok (some d)) : javaRefuses d = false := by
  unfold resolveToSafeIP at h
  split at h
  · cases h
  · next ips =>
    split at h
    · cases h
    · next hnone =>
      have hmem : d ∈ ips.map inetAddress := List.mem_of_head? (Except.ok.inj h)
      have hfalse := Bool.eq_false_iff.mpr (List.find?_eq_none.mp hnone d hmem)
      obtain ⟨d', _, rfl⟩ := List.mem_map.mp hmem
      unfold javaRefuses
      rw [inetAddress_inetAddress, hfalse]

namespace Engine

/-- Whatever a request does, its connections are to destinations that the engine's guard lets through. -/
theorem not_refused_of_dial {engine : Engine} {p : Platform} {host : List Char} {r : Request} {d : Destination}
    (h : d ∈ engine.dial p false host r) : engine.refuses d = false := by
  cases engine with
  | cpp => exact not_refused_of_post h
  | go =>
    simp only [dial, Bool.false_eq_true, if_false] at h
    split at h
    · cases h
    · next hdial =>
      rw [Option.mem_toList] at h
      exact not_refused_of_ssrfSafeDialContext (hdial.trans (congrArg _ h))
  | java =>
    simp only [dial, Bool.false_eq_true, if_false] at h
    split at h
    · cases h
    · next hdial =>
      split at h
      · rw [Option.mem_toList] at h
        exact not_refused_of_resolveToSafeIP (hdial.trans (congrArg _ h))
      · cases h

theorem not_refused_of_opened {engine : Engine} {p : Platform} {s : Session} {d : Destination}
    (h : d ∈ engine.opened p false s) : engine.refuses d = false := by
  unfold opened at h
  split at h
  · cases h
  · obtain ⟨r, _, hr⟩ := List.mem_flatMap.mp h
    exact not_refused_of_dial hr

end Engine

/-! ## The guard -/

/-- No engine opens a listed destination, and the three refuse it or let it through together. -/
structure Guarded (p : Platform) (s : Session) (d : Destination) : Prop where
  unopened : Listed d → ∀ engine : Engine, d ∉ engine.opened p false s
  agreed : ∀ engine engine' : Engine, engine.refuses d = engine'.refuses d

/-- The C++ guard by itself opens nothing that is listed. -/
theorem cpp_unopened (p : Platform) (s : Session) {d : Destination} (h : Listed d) : d ∉ Engine.cpp.opened p false s := by
  intro hopened
  have hfalse : sockaddrIsPrivate d = false := Engine.not_refused_of_opened hopened
  rw [listed_iff.mp h] at hfalse
  cases hfalse

/-- Whatever the host and the answers: a destination is guarded if it is in no listed range, or in one that Go and
Java know as well. -/
theorem guarded_iff (p : Platform) (s : Session) (d : Destination) : Guarded p s d ↔ ¬Listed d ∨ Common d := by
  constructor
  · rintro ⟨_, hagreed⟩
    by_cases hlisted : Listed d
    · have hcpp := listed_iff.mp hlisted
      exact .inr (common_iff.mpr ⟨(hagreed .go .cpp).trans hcpp, (hagreed .java .cpp).trans hcpp⟩)
    · exact .inl hlisted
  · rintro (hlisted | hcommon)
    · have hrefuses (engine : Engine) : engine.refuses d = false := by
        refine Bool.eq_false_iff.mpr fun h => hlisted ?_
        cases engine with
        | cpp => exact listed_iff.mpr h
        | go => exact listed_of_go h
        | java => exact listed_of_java h
      exact ⟨fun h => (hlisted h).elim, fun engine engine' => (hrefuses engine).trans (hrefuses engine').symm⟩
    · have hrefuses (engine : Engine) : engine.refuses d = true := by
        cases engine with
        | cpp => exact listed_iff.mp hcommon.listed
        | go => exact (common_iff.mp hcommon).1
        | java => exact (common_iff.mp hcommon).2
      refine ⟨fun _ engine hopened => ?_, fun engine engine' => (hrefuses engine).trans (hrefuses engine').symm⟩
      have hfalse := Engine.not_refused_of_opened hopened
      rw [hrefuses engine] at hfalse
      cases hfalse

/-- `0.0.0.0`, which Go dials. -/
theorem not_guarded : ¬∀ (p : Platform) (s : Session) (d : Destination), Guarded p s d := by
  intro hall
  let p : Platform := { inetPton4 := fun _ => some 0, inetPton6 := fun _ => none, inetNtop := fun _ => "0.0.0.0".toList }
  let r : Request :=
    { urlHost := none, checked := none, tried := [.v4 0], answers := some [.v4 0], hostHeader := false }
  let s : Session := { host := "0.0.0.0".toList, answers := some [.v4 0], requests := [r] }
  have hlisted : Listed (.v4 0) := listed_iff.mpr (by decide)
  have hopened : Destination.v4 0 ∈ Engine.go.opened p false s := by decide
  exact (hall p s (.v4 0)).unopened hlisted .go hopened

end Pineapple.Ssrf
