import Farder.Server.HandleRequest
import Farder.Support.AddressBlocks
import Farder.Support.Text

/-! # Fetching a URL for a member

The guard on the addresses of a host, and the fetch that asks it before every request. Names are
resolved, URLs parsed and requests answered elsewhere: all of that is a `Web`. -/
namespace Ssrf

open AddressBlocks Guarded Permissions EventLog

inductive IpAddr where
  | v4 (bits : BitVec 32)
  | v6 (bits : BitVec 128)
  deriving DecidableEq, Repr

section V4

variable (a : BitVec 32)

def octet (i : ℕ) : ℕ := part 8 a i

def isLoopback4 : Bool := octet a 0 = 127

def isPrivate4 : Bool :=
  octet a 0 = 10 ∨ (octet a 0 = 172 ∧ 16 ≤ octet a 1 ∧ octet a 1 ≤ 31) ∨
    (octet a 0 = 192 ∧ octet a 1 = 168)

def isLinkLocal4 : Bool := octet a 0 = 169 ∧ octet a 1 = 254

def isBroadcast4 : Bool := a.toNat = 0xffffffff

def isMulticast4 : Bool := 224 ≤ octet a 0 ∧ octet a 0 ≤ 239

def isUnspecified4 : Bool := a.toNat = 0

def isGlobalIp4 : Bool :=
  !(isLoopback4 a || isPrivate4 a || isLinkLocal4 a || isBroadcast4 a || isMulticast4 a ||
    isUnspecified4 a || (octet a 0 = 100 && octet a 1 &&& 0xC0 = 64) ||
    [octet a 0, octet a 1, octet a 2, octet a 3] = [192, 0, 0, 0])

end V4

section V6

variable (a : BitVec 128)

def segment (i : ℕ) : ℕ := part 16 a i

def isLoopback6 : Bool := a.toNat = 1

def isUnspecified6 : Bool := a.toNat = 0

def isMulticast6 : Bool := segment a 0 &&& 0xff00 = 0xff00

def lastOctets : BitVec 32 := BitVec.ofNat 32 (a.toNat % 2 ^ 32)

def toIpv4Mapped : Option (BitVec 32) :=
  if segment a 0 = 0 ∧ segment a 1 = 0 ∧ segment a 2 = 0 ∧ segment a 3 = 0 ∧ segment a 4 = 0 ∧
      segment a 5 = 0xffff then some (lastOctets a) else none

end V6

/-- Only globally routable addresses may be dialled for a member. -/
def isGlobalIp : IpAddr → Bool
  | .v4 a => isGlobalIp4 a
  | .v6 a =>
    match toIpv4Mapped a with
    | some v4 => isGlobalIp4 v4
    | none =>
      if segment a 0 = 0x2002 ∨ (segment a 0 = 0x64 ∧ segment a 1 = 0xff9b) then false
      else
        !(isLoopback6 a || isMulticast6 a || isUnspecified6 a ||
          segment a 0 &&& 0xfe00 = 0xfc00 || segment a 0 &&& 0xffc0 = 0xfe80)

structure Response where
  status : ℕ
  /-- The header, where there is one that is text. -/
  location : Option String
  contentType : Option String
  body : Except String (List UInt8)

def Response.isRedirection (r : Response) : Bool := 300 ≤ r.status ∧ r.status < 400

def Response.isSuccess (r : Response) : Bool := 200 ≤ r.status ∧ r.status < 300

/-- What the server calls: the parser of URLs, the resolver, which answers a name always alike, the
hosts out there, which answer the requests of one fetch one after the other, and the names of what
they answer. -/
structure Web where
  Url : Type
  parse : String → Except String Url
  hostStr : Url → Option String
  portOrKnownDefault : Url → Option ℕ
  join : Url → String → Except String Url
  text : Url → String
  lookupHost : String → ℕ → Option (List IpAddr)
  send : ℕ → String → Except String Response
  canonicalReason : ℕ → Option String

namespace Web

variable (W : Web)

def addresses (raw : String) : Option (List IpAddr) :=
  match W.parse raw with
  | .error _ => none
  | .ok url => (W.hostStr url).bind fun host =>
      W.lookupHost host ((W.portOrKnownDefault url).getD 443)

def resolvesToGlobal (raw : String) : Bool :=
  match W.addresses raw with
  | none => false
  | some addrs => addrs ≠ [] ∧ ∀ a ∈ addrs, isGlobalIp a = true

def isHttp (url : String) : Bool := url.startsWith "http://" || url.startsWith "https://"

def redirectTarget (current : String) (response : Response) : Checked String := do
  let loc ← context response.location "fetch failed: redirect without location"
  let base ← (W.parse current).mapError fun e => .rejected s!"invalid URL: {e}"
  let next ← (W.join base loc).mapError fun e => .rejected s!"invalid redirect target: {e}"
  return W.text next

/-- The requests that are sent, and the URL and response that the loop ends with; `left` is the
number of redirects that may still be followed. -/
def fetchLoop (left : ℕ) (current : String) : List String × Checked (String × Response) :=
  if ¬isHttp current then
    ([], .error (.rejected "URL refused: only http(s) is allowed"))
  else if ¬W.resolvesToGlobal current then
    ([], .error (.rejected "URL refused: resolves to a private or non-routable address"))
  else
    match W.send (4 - left) current with
    | .error e => ([current], .error (.rejected s!"fetch failed: {e}"))
    | .ok response =>
      if response.isRedirection then
        match left with
        | 0 => ([current], .error (.rejected "fetch failed: too many redirects"))
        | left + 1 =>
          match W.redirectTarget current response with
          | .error e => ([current], .error e)
          | .ok next => (current :: (fetchLoop left next).1, (fetchLoop left next).2)
      else ([current], .ok (current, response))

def contentTypeOf (response : Response) : String :=
  let value := response.contentType.getD "application/octet-stream"
  String.ofList (Text.trimMatches Char.isWhitespace ((value.toList.splitOn ';').headD []))

def fileNameOf (url : String) : String :=
  String.ofList ((((url.toList.splitOn '/').getLastD []).splitOn '?').headD [])

/-- What a response is as a file. -/
def received (url : String) (response : Response) : Checked Server.Fetched := do
  let reason := (W.canonicalReason response.status).getD "<unknown status code>"
  ensure (response.isSuccess = true) s!"fetch failed: HTTP {response.status} {reason}"
  let data ← response.body.mapError fun e => .rejected s!"failed to read response: {e}"
  ensure (data.length ≤ 10 * 1024 * 1024) "fetched file too large (max 10MB)"
  return ⟨fileNameOf url, contentTypeOf response, data⟩

end Web

open Server

variable (W : Web) (K : Crypto) (host : Host) (member : PublicKey) (isOwner : Bool)
  (moment : Moment) (channelId : ℕ) (url : String)

def checkFetch : Checked Unit := do
  host.requirePerm member isOwner channelId sendMessages "SEND_MESSAGES"
  ensure (host.db.resolve channelId = .plaintext) Db.e2eeRefused
  ensure (Web.isHttp url = true) "invalid URL"
  ensure (url.utf8ByteSize ≤ 2048) "URL too long"

/-- `handle_fetch_url`: the URLs that requests are sent to, and what becomes of the server. -/
def handleFetchUrl : List String × Host × Checked Answer :=
  match checkFetch host member isOwner channelId url with
  | .error e => ([], host, .error e)
  | .ok () =>
    match (W.fetchLoop 4 url).2 >>= fun last => W.received last.1 last.2 with
    | .error e => ((W.fetchLoop 4 url).1, host, .error e)
    | .ok fetched =>
      ((W.fetchLoop 4 url).1, host.fetchUrl K member isOwner moment channelId (some fetched))

end Ssrf
