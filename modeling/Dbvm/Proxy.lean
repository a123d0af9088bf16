import Dbvm.Lossy
import Dbvm.Snapshot

/-!
# The model proxy

The proxy of `src/proxy.rs` serves one request on each connection of the guest. The model endpoint
and the package hosts share one parser, which appends the credential to the guest's headers before
it is known which of the two the request is for. What a connection leads to is `serve`: the requests
sent to the network, what is written to the guest, and the result.

The reads of a connection are a list: bytes, or an error. A read of no bytes is the end, as is the
end of the list. What is logged to the standard error output is left out.
-/

namespace Dbvm.Proxy

open Dbvm

/-! ## Text -/

/-- `split("\r\n")`. -/
def splitLines : Str → List Str
  | [] => [[]]
  | '\r' :: '\n' :: s => [] :: splitLines s
  | c :: s => (splitLines s).modifyHead (c :: ·)

/-- `to_ascii_lowercase`. -/
def lowercase (s : Str) : Str := s.map Char.toLower

/-- `strip_prefix`. -/
def stripPrefix? : Str → Str → Option Str
  | [], s => some s
  | c :: cs, d :: s => if c = d then stripPrefix? cs s else none
  | _ :: _, [] => none

/-- `starts_with`. -/
def startsWith (pat s : Str) : Bool := (stripPrefix? pat s).isSome

/-- `split_once`: the first separator. -/
def splitOnce (sep : Char) : Str → Option (Str × Str)
  | [] => none
  | c :: s => if c = sep then some ([], s) else (splitOnce sep s).map fun r => (c :: r.1, r.2)

/-- `rsplit_once`: the last separator. -/
def rsplitOnce (sep : Char) (s : Str) : Option (Str × Str) :=
  (splitOnce sep s.reverse).map fun r => (r.2.reverse, r.1.reverse)

/-- `str::parse::<usize>`. -/
def parseUsize (s : Str) : Option ℕ :=
  let digits := if s.head? = some '+' then s.drop 1 else s
  if digits ≠ [] ∧ digits.all Char.isDigit then
    let n := digits.foldl (fun n c => n * 10 + (c.toNat - '0'.toNat)) 0
    if n < 2 ^ 64 then some n else none
  else none

/-! ## Destinations -/

/-- `Upstream`. -/
structure Upstream where
  /-- The host and the port. -/
  host : Str
  /-- `https` or `http`. -/
  scheme : Str
  /-- The credential. -/
  apiKey : Str

/-- `AllowList`. -/
structure AllowList where
  /-- Host names, perhaps with a port. -/
  hosts : List Str

/-- `AllowList::parse`. -/
def AllowList.parse (spec : Str) : AllowList := ⟨((spec.splitOn ',').map trim).filter (· ≠ [])⟩

/-- `AllowList::allows`. -/
def AllowList.allows (allow : AllowList) (host : Str) : Bool := allow.hosts.any (· = host)

/-- A host and its port. -/
def hostPort (host : Str) : Str × Str := (rsplitOnce ':' host).getD (host, "443".toList)

/-- A connection that the proxy makes: by TLS or not, the address, and what is sent. -/
structure Exchange where
  /-- Through `openssl s_client`. -/
  tls : Bool
  /-- The address it connects to. -/
  addr : Str
  /-- The bytes that are sent. -/
  raw : Bytes
deriving DecidableEq

/-- The decimal form of a number. -/
def decimal (n : ℕ) : Str := Nat.toDigits 10 n

/-- The request as `forward` writes it. -/
def requestBytes (host method path version : Str) (headers : List Str) (body : Bytes) : Bytes :=
  Str.bytes (method ++ " ".toList ++ path ++ " ".toList ++ version ++ "\r\nHost: ".toList ++ host ++
    "\r\n".toList ++ (headers.flatMap fun h => h ++ "\r\n".toList) ++ "Content-Length: ".toList ++
    decimal body.length ++ "\r\nConnection: close\r\n\r\n".toList) ++ body

/-- The address of an upstream. -/
def Upstream.addr (up : Upstream) : Str :=
  if up.scheme = "https".toList then (hostPort up.host).1 ++ ':' :: (hostPort up.host).2
  else up.host

/-- `forward`: the exchange it has with the network. -/
def forward (up : Upstream) (method path version : Str) (headers : List Str) (body : Bytes) :
    Exchange :=
  { tls := decide (up.scheme = "https".toList)
    addr := up.addr
    raw := requestBytes (hostPort up.host).1 method path version headers body }

/-! ## Requests -/

/-- `PACKAGE_PREFIX`. -/
def packagePrefix : Str := "/pkg".toList

/-- The request line, the guest's headers that are passed on, and the length of the body. -/
structure Head where
  /-- The method. -/
  method : Str
  /-- The path. -/
  path : Str
  /-- The version. -/
  version : Str
  /-- The headers that are passed on. -/
  headers : List Str
  /-- The length of the body, if the guest gives it. -/
  contentLength : Option ℕ

/-- One header line of the guest. -/
def headerStep (st : List Str × Option ℕ) (line : Str) : List Str × Option ℕ :=
  let lower := lowercase line
  if startsWith "authorization:".toList lower then st
  else if startsWith "connection:".toList lower || startsWith "keep-alive:".toList lower then st
  else if startsWith "host:".toList lower then st
  else if startsWith "content-length:".toList lower then (st.1, parseUsize (trim (line.drop 15)))
  else (st.1 ++ [line], st.2)

/-- The head of a request. -/
def parseHead (text : Str) : Head :=
  let lines := splitLines text
  let parts := (lines.headD []).splitOn ' '
  let st := ((lines.drop 1).takeWhile (· ≠ [])).foldl headerStep ([], none)
  { method := (parts[0]?).getD "POST".toList
    path := (parts[1]?).getD "/".toList
    version := (parts[2]?).getD "HTTP/1.1".toList
    headers := st.1
    contentLength := st.2 }

/-- The header with the credential. -/
def credential (apiKey : Str) : Str := "Authorization: Bearer ".toList ++ apiKey

/-- The headers without a credential. -/
def withoutCredential (headers : List Str) : List Str :=
  headers.filter fun h => !startsWith "authorization:".toList (lowercase h)

/-- The host and the path of a package request. -/
def packageTarget (path : Str) : Option (Str × Str) :=
  (stripPrefix? packagePrefix path).map fun rest =>
    let rest := rest.dropWhile (· = '/')
    match splitOnce '/' rest with
    | some (h, p) => (h, '/' :: p)
    | none => (rest, "/".toList)

/-! ## Reads -/

/-- Why serving a connection fails. -/
inductive ProxyErr where
  /-- A read of the guest's socket failed. -/
  | read
  /-- "request headers too large". -/
  | headersTooLarge
  /-- The exchange with the network failed. -/
  | network
deriving DecidableEq

/-- A read of the guest's socket: bytes, or an error. -/
abbrev Read := Option Bytes

/-- The end of the head of a request. -/
def headEnd : Bytes := Str.bytes "\r\n\r\n".toList

/-- The number of bytes up to the end of the head. -/
def headLength : Bytes → Option ℕ
  | [] => none
  | b :: s => if headEnd.isPrefixOf (b :: s) then some 4 else (headLength s).map (· + 1)

/-- The loop that reads the head: the bytes read, with the reads that are left; none when the guest
has closed the connection. -/
def readHead : List Read → Bytes → Except ProxyErr (Option (Bytes × List Read))
  | [], _ => .ok none
  | none :: _, _ => .error .read
  | some b :: rest, head =>
    if b = [] then .ok none
    else if (headLength (head ++ b)).isSome then .ok (some (head ++ b, rest))
    else if (head ++ b).length > 1024 * 1024 then .error .headersTooLarge
    else readHead rest (head ++ b)

/-- The loop that reads the body, until it has `len` bytes or the guest closes the connection. -/
def readBody (len : ℕ) : List Read → Bytes → Except ProxyErr Bytes
  | [], body => .ok body
  | read :: rest, body =>
    if len ≤ body.length then .ok body
    else match read with
      | none => .error .read
      | some b => if b = [] then .ok body else readBody len rest (body ++ b)

/-! ## A connection -/

/-- What serving a connection comes to. -/
structure Served where
  /-- The connections that are made, with what is sent. -/
  sent : List Exchange
  /-- What the guest is sent. -/
  answer : Bytes
  /-- The result. -/
  result : Except ProxyErr Unit

/-- The answer to a request for a host that is not allowed. -/
def refusal (host : Str) : Bytes :=
  let body := "refused by the VM proxy: ".toList ++ (if host = [] then "<none>".toList else host) ++
    " is not an allowed package host".toList
  Str.bytes ("HTTP/1.1 403 Forbidden\r\nContent-Type: text/plain\r\nContent-Length: ".toList ++
    decimal (Str.bytes body).length ++ "\r\nConnection: close\r\n\r\n".toList ++ body)

/-- An exchange, and its response passed on to the guest. -/
def relay (net : Exchange → Except ProxyErr Bytes) (x : Exchange) : Served :=
  match net x with
  | .ok response => ⟨[x], response, .ok ()⟩
  | .error e => ⟨[x], [], .error e⟩

/-- The upstream of a package host. -/
def packageUpstream (host : Str) : Upstream :=
  let (hostOnly, port) := hostPort host
  let scheme := if port = "443".toList then "https".toList else "http".toList
  { host := if scheme = "https".toList then hostOnly ++ ":443".toList else hostOnly ++ ':' :: port
    scheme := scheme
    apiKey := [] }

/-- The part of `serve` after the request has been read. -/
def respond (net : Exchange → Except ProxyErr Bytes) (up : Upstream) (pre : Str) (allow : AllowList)
    (head : Head) (body : Bytes) : Served :=
  let forwarded := head.headers ++ [credential up.apiKey]
  match packageTarget head.path with
  | some (host, sub) =>
    if host = [] || !allow.allows host then ⟨[], refusal host, .ok ()⟩
    else relay net (forward (packageUpstream host) head.method sub head.version
      (withoutCredential forwarded) body)
  | none => relay net (forward up head.method (trimEndSlashes pre ++ head.path) head.version
      forwarded body)

/-- The request of a connection: its head and its body; none when the guest closes the connection
first. -/
def readRequest (reads : List Read) : Except ProxyErr (Option (Head × Bytes)) := do
  match ← readHead reads [] with
  | none => .ok none
  | some (bytes, rest) =>
    let head := parseHead (fromUtf8Lossy bytes)
    let body ← readBody (head.contentLength.getD 0) rest
      (bytes.drop ((headLength bytes).getD bytes.length))
    .ok (some (head, body))

/-- `serve`: one connection of the guest. -/
def serve (net : Exchange → Except ProxyErr Bytes) (up : Upstream) (pre : Str) (allow : AllowList)
    (reads : List Read) : Served :=
  match readRequest reads with
  | .error e => ⟨[], [], .error e⟩
  | .ok none => ⟨[], [], .ok ()⟩
  | .ok (some (head, body)) => respond net up pre allow head body

/-! ## Addresses -/

section Addresses

variable {host a b : Str}

/-- A text is split at the first separator. -/
theorem splitOnce_of_not_mem {sep : Char} :
    ∀ {s t : Str}, sep ∉ s → splitOnce sep (s ++ sep :: t) = some (s, t)
  | [], t, _ => by
    rw [List.nil_append, splitOnce, if_pos rfl]
  | c :: s, t, h => by
    rw [List.mem_cons, not_or] at h
    have ih := splitOnce_of_not_mem (t := t) h.2
    rw [List.cons_append, splitOnce, if_neg (Ne.symm h.1), ih]
    rfl

/-- What is split is the part before the first separator and the part behind it. -/
theorem splitOnce_some {sep : Char} : ∀ {s a b : Str}, splitOnce sep s = some (a, b) →
    s = a ++ sep :: b ∧ sep ∉ a
  | [], _, _, h => by cases h
  | c :: s, a, b, h => by
    rw [splitOnce] at h
    split_ifs at h with hc
    · cases h
      exact ⟨by rw [hc, List.nil_append], by simp⟩
    · obtain ⟨⟨a', b'⟩, hrest, he⟩ := Option.map_eq_some_iff.1 h
      cases he
      obtain ⟨hs, ha⟩ := splitOnce_some hrest
      refine ⟨by rw [hs, List.cons_append], ?_⟩
      rw [List.mem_cons, not_or]
      exact ⟨Ne.symm hc, ha⟩

/-- A port has no colon. -/
theorem not_mem_port (host : Str) : ':' ∉ (hostPort host).2 := by
  unfold hostPort rsplitOnce
  rcases h : splitOnce ':' host.reverse with _ | ⟨a, b⟩
  · simp
  · obtain ⟨-, ha⟩ := splitOnce_some h
    simpa using ha

/-- A host with a port is split again where it was put together. -/
theorem hostPort_append (h : ':' ∉ b) : hostPort (a ++ ':' :: b) = (a, b) := by
  have hrev : (a ++ ':' :: b).reverse = b.reverse ++ ':' :: a.reverse := by simp
  unfold hostPort rsplitOnce
  rw [hrev, splitOnce_of_not_mem (by simpa using h)]
  simp

/-- A host with its port, 443 by default. -/
def withPort (host : Str) : Str := (hostPort host).1 ++ ':' :: (hostPort host).2

/-- A package host is connected to at its own port. -/
theorem addr_packageUpstream (host : Str) : (packageUpstream host).addr = withPort host := by
  unfold withPort
  by_cases hp : (hostPort host).2 = "443".toList
  · have hup : packageUpstream host = ⟨(hostPort host).1 ++ ":443".toList, "https".toList, []⟩ := by
      unfold packageUpstream
      dsimp only
      rw [if_pos hp]
      rfl
    have hsplit : hostPort ((hostPort host).1 ++ ":443".toList) = ((hostPort host).1,
      "443".toList) :=
      hostPort_append (by decide)
    rw [hup, hp]
    unfold Upstream.addr
    rw [if_pos rfl, hsplit]
  · have hup : packageUpstream host = ⟨(hostPort host).1 ++ ':' :: (hostPort host).2,
      "http".toList, []⟩ := by
      unfold packageUpstream
      dsimp only
      rw [if_neg hp]
      rfl
    have hplain : "http".toList ≠ "https".toList := by decide
    rw [hup]
    unfold Upstream.addr
    rw [if_neg hplain]

end Addresses

/-! ## What a connection leads to -/

section Serve

variable {net : Exchange → Except ProxyErr Bytes} {up : Upstream} {pre : Str} {allow : AllowList}
  {head : Head} {body : Bytes} {reads : List Read}

/-- A relay sends its exchange and no other. -/
theorem sent_relay (net : Exchange → Except ProxyErr Bytes) (x : Exchange) :
    (relay net x).sent = [x] := by
  unfold relay
  cases net x with
  | ok response => rfl
  | error e => rfl

/-- The credential is a header that the filter takes out, whatever the key is. -/
theorem withoutCredential_append (headers : List Str) (key : Str) :
    withoutCredential (headers ++ [credential key]) = withoutCredential headers := by
  have hkey : startsWith "authorization:".toList (lowercase (credential key)) = true := rfl
  unfold withoutCredential
  rw [List.filter_append, List.filter_cons_of_neg (by rw [hkey]; simp), List.filter_nil,
    List.append_nil]

/-- What is sent for a request: nothing for a package host that is not allowed, one exchange with a
host that is, without the credential, and one with the upstream for everything else. -/
theorem sent_respond (net : Exchange → Except ProxyErr Bytes) (up : Upstream) (pre : Str)
    (allow : AllowList) (head : Head) (body : Bytes) : (respond net up pre allow head body).sent =
      match packageTarget head.path with
      | some (host, sub) =>
        if host = [] || !allow.allows host then []
        else [forward (packageUpstream host) head.method sub head.version
          (withoutCredential head.headers) body]
      | none => [forward up head.method (trimEndSlashes pre ++ head.path) head.version
          (head.headers ++ [credential up.apiKey]) body] := by
  unfold respond
  dsimp only
  rcases packageTarget head.path with _ | ⟨host, sub⟩
  · exact sent_relay net _
  · dsimp only
    split_ifs
    · rfl
    · rw [sent_relay, withoutCredential_append]

/-- A host is allowed iff it is on the list. -/
theorem allows_iff {host : Str} : allow.allows host = true ↔ host ∈ allow.hosts := by
  unfold AllowList.allows
  simp

/-- A connection goes to the upstream or to a host of the list. -/
theorem addr_of_sent {x : Exchange} (hx : x ∈ (respond net up pre allow head body).sent) :
    x.addr = up.addr ∨ ∃ host ∈ allow.hosts, x.addr = withPort host := by
  rw [sent_respond] at hx
  rcases htarget : packageTarget head.path with _ | ⟨host, sub⟩
  · left
    rw [htarget] at hx
    rw [List.mem_singleton.1 hx]
    rfl
  · rw [htarget] at hx
    dsimp only at hx
    split_ifs at hx with hrefused
    · cases hx
    · have hallowed : allow.allows host = true := by
        by_contra hno
        exact hrefused (by simp [hno])
      right
      refine ⟨host, allows_iff.1 hallowed, ?_⟩
      rw [List.mem_singleton.1 hx]
      exact addr_packageUpstream host

/-- Two keys lead to the same addresses, and to the same bytes for all but the upstream. -/
theorem sent_respond_key (net net' : Exchange → Except ProxyErr Bytes) (up : Upstream)
    (key key' pre : Str) (allow : AllowList) (head : Head) (body : Bytes) :
    let s := respond net { up with apiKey := key } pre allow head body
    let s' := respond net' { up with apiKey := key' } pre allow head body
    s.sent.map (fun x => (x.tls, x.addr)) = s'.sent.map (fun x => (x.tls, x.addr)) ∧
      (s.sent.filter fun x => x.addr ≠ up.addr) = s'.sent.filter fun x => x.addr ≠ up.addr := by
  dsimp only
  rw [sent_respond, sent_respond]
  rcases packageTarget head.path with _ | ⟨host, sub⟩
  · -- The key is not part of the address.
    have htls : ∀ k m p v hs b, (forward { up with apiKey := k } m p v hs b).tls =
        decide (up.scheme = "https".toList) := fun _ _ _ _ _ _ => by rw [forward]
    have haddr : ∀ k m p v hs b, (forward { up with apiKey := k } m p v hs b).addr = up.addr :=
      fun _ _ _ _ _ _ => by rw [forward, Upstream.addr, Upstream.addr]
    refine ⟨?_, ?_⟩
    · simp only [List.map_cons, List.map_nil, htls, haddr]
    · rw [List.filter_cons_of_neg (by simp [haddr]), List.filter_cons_of_neg (by simp [haddr])]
  · exact ⟨rfl, rfl⟩

/-- The guest's request names a package host. -/
def NamesHost (reads : List Read) (host : Str) : Prop :=
  ∃ head body sub, readRequest reads = .ok (some (head, body)) ∧
  packageTarget head.path = some (host, sub)

/-- For any two keys, a connection of the guest leads to the same destinations, and to the same
bytes for every destination but the upstream. Every destination is the upstream or a host of the
list with its port, and a request for any other host is refused without a connection. -/
theorem credential_confined (net net' : Exchange → Except ProxyErr Bytes) (up : Upstream)
    (key key' pre : Str) (allow : AllowList) (reads : List Read) :
    let s := serve net { up with apiKey := key } pre allow reads
    let s' := serve net' { up with apiKey := key' } pre allow reads
    s.sent.map (fun x => (x.tls, x.addr)) = s'.sent.map (fun x => (x.tls, x.addr)) ∧
      ((s.sent.filter fun x => x.addr ≠ up.addr) = s'.sent.filter fun x => x.addr ≠ up.addr) ∧
      (∀ x ∈ s.sent, x.addr = up.addr ∨ ∃ host ∈ allow.hosts, x.addr = withPort host) ∧
      ∀ host, NamesHost reads host → host ∉ allow.hosts → s.sent = [] ∧
      s.answer = refusal host := by
  dsimp only
  unfold serve
  -- Without a whole request nothing is sent. With one, the exchanges are those of `respond`,
  -- whose destinations do not depend on the key.
  rcases hreq : readRequest reads with e | _ | ⟨head, body⟩
  · refine ⟨rfl, rfl, by simp, ?_⟩
    rintro host ⟨head, body, sub, hreq', -⟩
    rw [hreq] at hreq'
    cases hreq'
  · refine ⟨rfl, rfl, by simp, ?_⟩
    rintro host ⟨head, body, sub, hreq', -⟩
    rw [hreq] at hreq'
    cases hreq'
  · obtain ⟨hdest, hbytes⟩ := sent_respond_key net net' up key key' pre allow head body
    have hup : { up with apiKey := key }.addr = up.addr := by rw [Upstream.addr, Upstream.addr]
    refine ⟨hdest, hbytes, fun x hx => ?_, ?_⟩
    · rw [← hup]
      exact addr_of_sent hx
    rintro host ⟨head', body', sub, hreq', htarget⟩ hhost
    rw [hreq] at hreq'
    cases hreq'
    have hrefused : (host = [] || !allow.allows host) = true := by
      rw [Bool.or_eq_true, Bool.not_eq_true']
      exact Or.inr (Bool.eq_false_iff.2 fun h => hhost (allows_iff.1 h))
    dsimp only [respond]
    rw [htarget]
    dsimp only
    rw [if_pos hrefused]
    exact ⟨rfl, rfl⟩

end Serve

end Dbvm.Proxy
