import Farder.Server.SampleHost
import Farder.Server.Ssrf

/-! # What the server may be made to fetch

The guard refuses the addresses of a list of blocks. `IsGlobal` is the list it should refuse, after
the registries of special-purpose addresses; `Missed` says what of it is let through. -/
namespace Ssrf

open AddressBlocks Guarded EventLog Server

/-! ## Globally routable addresses -/

/-- This network, private ones, shared address space, loopback, link-local, protocol
assignments, benchmarking, documentation, multicast, and what is reserved. -/
def special4 : List (Block 32) :=
  [block4 [0] 8, block4 [10] 8, block4 [172, 16] 12, block4 [192, 168] 16, block4 [100, 64] 10,
    block4 [127] 8, block4 [169, 254] 16, block4 [192, 0, 0] 24, block4 [198, 18] 15,
    block4 [192, 0, 2] 24, block4 [198, 51, 100] 24, block4 [203, 0, 113] 24, block4 [224] 4,
    block4 [240] 4]

/-- The unspecified address, loopback, unique-local, link-local, site-local, multicast, discard
and documentation. -/
def special6 : List (Block 128) :=
  [block6 [] 128, block6 [0, 0, 0, 0, 0, 0, 0, 1] 128, block6 [0xfc00] 7, block6 [0xfe80] 10,
    block6 [0xfec0] 10, block6 [0xff00] 8, block6 [0x100] 64, block6 [0x2001, 0xdb8] 32,
    block6 [0x3fff] 20]

def mapped : Block 128 := block6 [0, 0, 0, 0, 0, 0xffff] 96
def compatible : Block 128 := block6 [] 96
def nat64 : Block 128 := block6 [0x64, 0xff9b] 96
def sixToFour : Block 128 := block6 [0x2002] 16
def teredo : Block 128 := block6 [0x2001] 32

/-- The addresses of four octets that a longer one stands for; Teredo has a server's and, with
every bit turned over, a client's. -/
def embedded (a : BitVec 128) : List (BitVec 32) :=
  (if mapped.Contains a ∨ compatible.Contains a ∨ nat64.Contains a then [lastOctets a] else []) ++
    (if sixToFour.Contains a then [BitVec.ofNat 32 (a.toNat / 2 ^ 80)] else []) ++
    if teredo.Contains a then [BitVec.ofNat 32 (a.toNat / 2 ^ 64), ~~~lastOctets a] else []

def IsGlobal : IpAddr → Prop
  | .v4 a => ¬Listed special4 a
  | .v6 a => ¬Listed special6 a ∧ ∀ v4 ∈ embedded a, ¬Listed special4 v4

instance (a : IpAddr) : Decidable (IsGlobal a) :=
  match a with
  | .v4 _ => inferInstanceAs (Decidable (¬_))
  | .v6 _ => inferInstanceAs (Decidable (¬_ ∧ ∀ _ ∈ _, ¬_))

/-- This network, protocol assignments, benchmarking, documentation and what is reserved, except
for the three addresses of these that are refused one by one. -/
def Missed4 (a : BitVec 32) : Prop :=
  Listed [block4 [0] 8, block4 [192, 0, 0] 24, block4 [198, 18] 15, block4 [192, 0, 2] 24,
      block4 [198, 51, 100] 24, block4 [203, 0, 113] 24, block4 [240] 4] a ∧
    ¬Listed [block4 [] 32, block4 [192] 32, block4 [255, 255, 255, 255] 32] a

/-- Site-local, discard and documentation. -/
def missed6 : List (Block 128) :=
  [block6 [0xfec0] 10, block6 [0x100] 64, block6 [0x2001, 0xdb8] 32, block6 [0x3fff] 20]

/-- The unspecified address and loopback. -/
def lowest6 : List (Block 128) := [block6 [] 128, block6 [0, 0, 0, 0, 0, 0, 0, 1] 128]

/-- A special-purpose address that passes the guard. -/
def Missed : IpAddr → Prop
  | .v4 a => Missed4 a
  | .v6 a =>
    mapped.Contains a ∧ Missed4 (lastOctets a) ∨
      Listed missed6 a ∨
      compatible.Contains a ∧ ¬Listed lowest6 a ∧ Listed special4 (lastOctets a) ∨
      teredo.Contains a ∧ ∃ v4 ∈ embedded a, Listed special4 v4

/-! ## What the guard refuses -/

def refused4 : List (Block 32) :=
  [block4 [127] 8, block4 [10] 8, block4 [172, 16] 12, block4 [192, 168] 16, block4 [169, 254] 16,
    block4 [255, 255, 255, 255] 32, block4 [224] 4, block4 [] 32, block4 [100, 64] 10,
    block4 [192] 32]

def refused6 : List (Block 128) :=
  [block6 [0x2002] 16, block6 [0x64, 0xff9b] 32, block6 [0, 0, 0, 0, 0, 0, 0, 1] 128,
    block6 [0xff00] 8, block6 [] 128, block6 [0xfc00] 7, block6 [0xfe80] 10]

variable {a : BitVec 32} {b : BitVec 128}

/-! ## The blocks in numbers -/

theorem mapped_iff : mapped.Contains b ↔ b.toNat / 2 ^ 32 = 0xffff := Iff.rfl

theorem compatible_iff : compatible.Contains b ↔ b.toNat / 2 ^ 32 = 0 := Iff.rfl

theorem nat64_iff : nat64.Contains b ↔ b.toNat / 2 ^ 32 = 0x64ff9b0000000000000000 := Iff.rfl

theorem sixToFour_iff : sixToFour.Contains b ↔ b.toNat / 2 ^ 112 = 0x2002 := Iff.rfl

theorem teredo_iff : teredo.Contains b ↔ b.toNat / 2 ^ 96 = 0x20010000 := Iff.rfl

theorem special4_iff : Listed special4 a ↔
    a.toNat / 2 ^ 24 = 0 ∨ a.toNat / 2 ^ 24 = 10 ∨ a.toNat / 2 ^ 20 = 0xac1 ∨
      a.toNat / 2 ^ 16 = 0xc0a8 ∨ a.toNat / 2 ^ 22 = 401 ∨ a.toNat / 2 ^ 24 = 127 ∨
      a.toNat / 2 ^ 16 = 0xa9fe ∨ a.toNat / 2 ^ 8 = 0xc00000 ∨ a.toNat / 2 ^ 17 = 0x6309 ∨
      a.toNat / 2 ^ 8 = 0xc00002 ∨ a.toNat / 2 ^ 8 = 0xc63364 ∨ a.toNat / 2 ^ 8 = 0xcb0071 ∨
      a.toNat / 2 ^ 28 = 14 ∨ a.toNat / 2 ^ 28 = 15 := by
  simp only [special4, listed_cons, listed_nil, or_false]
  rfl

theorem refused4_iff : Listed refused4 a ↔
    a.toNat / 2 ^ 24 = 127 ∨ a.toNat / 2 ^ 24 = 10 ∨ a.toNat / 2 ^ 20 = 0xac1 ∨
      a.toNat / 2 ^ 16 = 0xc0a8 ∨ a.toNat / 2 ^ 16 = 0xa9fe ∨ a.toNat / 1 = 0xffffffff ∨
      a.toNat / 2 ^ 28 = 14 ∨ a.toNat / 1 = 0 ∨ a.toNat / 2 ^ 22 = 401 ∨
      a.toNat / 1 = 0xc0000000 := by
  simp only [refused4, listed_cons, listed_nil, or_false]
  rfl

theorem missed4_iff_numbers : Missed4 a ↔
    (a.toNat / 2 ^ 24 = 0 ∨ a.toNat / 2 ^ 8 = 0xc00000 ∨ a.toNat / 2 ^ 17 = 0x6309 ∨
      a.toNat / 2 ^ 8 = 0xc00002 ∨ a.toNat / 2 ^ 8 = 0xc63364 ∨ a.toNat / 2 ^ 8 = 0xcb0071 ∨
      a.toNat / 2 ^ 28 = 15) ∧
    ¬(a.toNat / 1 = 0 ∨ a.toNat / 1 = 0xc0000000 ∨ a.toNat / 1 = 0xffffffff) := by
  simp only [Missed4, listed_cons, listed_nil, or_false]
  rfl

theorem special6_iff : Listed special6 b ↔
    b.toNat / 1 = 0 ∨ b.toNat / 1 = 1 ∨ b.toNat / 2 ^ 121 = 0x7e ∨ b.toNat / 2 ^ 118 = 0x3fa ∨
      b.toNat / 2 ^ 118 = 0x3fb ∨ b.toNat / 2 ^ 120 = 0xff ∨
      b.toNat / 2 ^ 64 = 0x0100000000000000 ∨ b.toNat / 2 ^ 96 = 0x20010db8 ∨
      b.toNat / 2 ^ 108 = 0x3fff0 := by
  simp only [special6, listed_cons, listed_nil, or_false]
  rfl

theorem refused6_iff : Listed refused6 b ↔
    b.toNat / 2 ^ 112 = 0x2002 ∨ b.toNat / 2 ^ 96 = 0x64ff9b ∨ b.toNat / 1 = 1 ∨
      b.toNat / 2 ^ 120 = 0xff ∨ b.toNat / 1 = 0 ∨ b.toNat / 2 ^ 121 = 0x7e ∨
      b.toNat / 2 ^ 118 = 0x3fa := by
  simp only [refused6, listed_cons, listed_nil, or_false]
  rfl

theorem missed6_iff_numbers : Listed missed6 b ↔
    b.toNat / 2 ^ 118 = 0x3fb ∨ b.toNat / 2 ^ 64 = 0x0100000000000000 ∨
      b.toNat / 2 ^ 96 = 0x20010db8 ∨ b.toNat / 2 ^ 108 = 0x3fff0 := by
  simp only [missed6, listed_cons, listed_nil, or_false]
  rfl

theorem lowest6_iff : Listed lowest6 b ↔ b.toNat / 1 = 0 ∨ b.toNat / 1 = 1 := by
  simp only [lowest6, listed_cons, listed_nil, or_false]
  rfl

/-! ## The guard as a list of blocks -/

theorem octet_zero (a : BitVec 32) : octet a 0 = a.toNat / 2 ^ 24 :=
  Nat.mod_eq_of_lt (by have hlt := a.isLt; omega)

theorem isLoopback4_iff : isLoopback4 a = true ↔ a.toNat / 2 ^ 24 = 127 := by
  rw [isLoopback4, decide_eq_true_iff, octet_zero]

theorem isPrivate4_iff : isPrivate4 a = true ↔
    a.toNat / 2 ^ 24 = 10 ∨ a.toNat / 2 ^ 20 = 0xac1 ∨ a.toNat / 2 ^ 16 = 0xc0a8 := by
  rw [isPrivate4, decide_eq_true_iff, octet_zero]
  simp only [octet, part]
  omega

theorem isLinkLocal4_iff : isLinkLocal4 a = true ↔ a.toNat / 2 ^ 16 = 0xa9fe := by
  rw [isLinkLocal4, decide_eq_true_iff, octet_zero]
  simp only [octet, part]
  omega

theorem isMulticast4_iff : isMulticast4 a = true ↔ a.toNat / 2 ^ 28 = 14 := by
  rw [isMulticast4, decide_eq_true_iff, octet_zero]
  omega

theorem isShared_iff :
    (octet a 0 = 100 && octet a 1 &&& 0xC0 = 64 : Bool) = true ↔ a.toNat / 2 ^ 22 = 401 := by
  have hmask : octet a 1 &&& 0xC0 = 64 ↔ octet a 1 / 2 ^ 6 = 1 := mask_eq_iff 6 2 (part_lt 8 1) rfl
  rw [Bool.and_eq_true, decide_eq_true_iff, decide_eq_true_iff, hmask, octet_zero]
  simp only [octet, part]
  omega

theorem isProtocol_iff :
    [octet a 0, octet a 1, octet a 2, octet a 3] = [192, 0, 0, 0] ↔ a.toNat = 0xc0000000 := by
  simp only [List.cons.injEq, and_true, octet, part]
  omega

theorem isGlobalIp4_iff : isGlobalIp4 a = true ↔ ¬Listed refused4 a := by
  rw [refused4_iff, isGlobalIp4, Bool.not_eq_true', ← Bool.not_eq_true, not_iff_not]
  simp only [Bool.or_eq_true, isPrivate4_iff, isLinkLocal4_iff, isMulticast4_iff, isShared_iff,
    isProtocol_iff, isLoopback4_iff, isBroadcast4, isUnspecified4, decide_eq_true_iff,
    Nat.div_one, or_assoc]

theorem toIpv4Mapped_eq :
    toIpv4Mapped b = if mapped.Contains b then some (lastOctets b) else none := by
  have hiff : (segment b 0 = 0 ∧ segment b 1 = 0 ∧ segment b 2 = 0 ∧ segment b 3 = 0 ∧
      segment b 4 = 0 ∧ segment b 5 = 0xffff) ↔ mapped.Contains b := by
    have hlt := b.isLt
    rw [mapped_iff]
    simp only [segment, part]
    generalize b.toNat = n at hlt ⊢
    omega
  simp only [toIpv4Mapped, hiff]

theorem isGlobalIp6_iff : isGlobalIp (.v6 b) = true ↔
    if mapped.Contains b then ¬Listed refused4 (lastOctets b) else ¬Listed refused6 b := by
  have hmulticast : segment b 0 &&& 0xff00 = 0xff00 ↔ segment b 0 / 2 ^ 8 = 0xff :=
    mask_eq_iff 8 8 (part_lt 16 0) rfl
  have hunique : segment b 0 &&& 0xfe00 = 0xfc00 ↔ segment b 0 / 2 ^ 9 = 0x7e :=
    mask_eq_iff 9 7 (part_lt 16 0) rfl
  have hlink : segment b 0 &&& 0xffc0 = 0xfe80 ↔ segment b 0 / 2 ^ 6 = 0x3fa :=
    mask_eq_iff 6 10 (part_lt 16 0) rfl
  rw [isGlobalIp, toIpv4Mapped_eq, refused6_iff]
  by_cases hmapped : mapped.Contains b
  · rw [if_pos hmapped, if_pos hmapped]
    exact isGlobalIp4_iff
  rw [if_neg hmapped, if_neg hmapped]
  dsimp only
  have hlt := b.isLt
  by_cases hprefix : segment b 0 = 0x2002 ∨ segment b 0 = 0x64 ∧ segment b 1 = 0xff9b
  · rw [if_pos hprefix]
    refine iff_of_false nofun (not_not.mpr ?_)
    simp only [segment, part] at hprefix
    generalize b.toNat = n at hlt hprefix ⊢
    omega
  · rw [if_neg hprefix]
    simp only [isLoopback6, isMulticast6, isUnspecified6, hmulticast, hunique, hlink,
      Bool.not_eq_true', Bool.or_eq_false_iff, decide_eq_false_iff_not]
    simp only [segment, part] at hprefix ⊢
    generalize b.toNat = n at hlt hprefix ⊢
    omega

/-! ## What the guard misses -/

theorem missed4_iff : Missed4 a ↔ Listed special4 a ∧ ¬Listed refused4 a := by
  rw [missed4_iff_numbers, special4_iff, refused4_iff]
  omega

theorem missed6_iff : Listed missed6 b ↔ Listed special6 b ∧ ¬Listed refused6 b := by
  rw [missed6_iff_numbers, special6_iff, refused6_iff]
  omega

theorem mapped_special (h : mapped.Contains b) : ¬Listed special6 b ∧ ¬Listed missed6 b ∧
    ¬compatible.Contains b ∧ ¬nat64.Contains b ∧ ¬sixToFour.Contains b ∧ ¬teredo.Contains b := by
  rw [mapped_iff] at h
  rw [special6_iff, missed6_iff_numbers, compatible_iff, nat64_iff, sixToFour_iff, teredo_iff]
  omega

theorem refused_special (h : nat64.Contains b ∨ sixToFour.Contains b) : Listed refused6 b ∧
    ¬Listed missed6 b ∧ ¬compatible.Contains b ∧ ¬teredo.Contains b := by
  rw [nat64_iff, sixToFour_iff] at h
  rw [refused6_iff, missed6_iff_numbers, compatible_iff, teredo_iff]
  omega

theorem compatible_special (h : compatible.Contains b) : (Listed special6 b ↔ Listed lowest6 b) ∧
    (Listed refused6 b ↔ Listed lowest6 b) ∧ ¬Listed missed6 b ∧ ¬teredo.Contains b := by
  rw [compatible_iff] at h
  rw [special6_iff, refused6_iff, lowest6_iff, missed6_iff_numbers, teredo_iff]
  omega

theorem teredo_special (h : teredo.Contains b) : ¬Listed special6 b ∧ ¬Listed refused6 b := by
  rw [teredo_iff] at h
  rw [special6_iff, refused6_iff]
  omega

theorem missed_iff (a : IpAddr) : Missed a ↔ isGlobalIp a = true ∧ ¬IsGlobal a := by
  cases a with
  | v4 a =>
    rw [isGlobalIp, isGlobalIp4_iff]
    simp only [Missed, IsGlobal, not_not]
    rw [missed4_iff, and_comm]
  | v6 b =>
    rw [isGlobalIp6_iff]
    simp only [Missed, IsGlobal]
    by_cases hmapped : mapped.Contains b
    · obtain ⟨hspecial, hmissed, hcompatible, hnat, hsix, hteredo⟩ := mapped_special hmapped
      simp [embedded, hmapped, hspecial, hmissed, hcompatible, hnat, hsix, hteredo, missed4_iff]
      tauto
    by_cases hrefused : nat64.Contains b ∨ sixToFour.Contains b
    · obtain ⟨hlisted, hmissed, hcompatible, hteredo⟩ := refused_special hrefused
      simp [hmapped, hlisted, hmissed, hcompatible, hteredo]
    obtain ⟨hnat, hsix⟩ := not_or.mp hrefused
    by_cases hcompatible : compatible.Contains b
    · obtain ⟨hspecial, hlisted, hmissed, hteredo⟩ := compatible_special hcompatible
      simp [embedded, hmapped, hcompatible, hspecial, hlisted, hmissed, hteredo, hnat, hsix]
      tauto
    by_cases hteredo : teredo.Contains b
    · obtain ⟨hspecial, hlisted⟩ := teredo_special hteredo
      simp [hmapped, hcompatible, hteredo, hspecial, hlisted, missed6_iff]
    · simp [embedded, hmapped, hcompatible, hteredo, hnat, hsix, missed6_iff, and_comm]

/-! ## Requests along a redirect chain -/

variable (W : Web) (K : Crypto) (host : Host) (member : PublicKey) (isOwner : Bool)
  (moment : Moment) (channelId : ℕ) (url : String)

namespace Web

/-- Where a request for a URL is redirected to. -/
def follows (left : ℕ) (current : String) : Option String :=
  match W.send (4 - left) current with
  | .ok response =>
    if response.isRedirection then (W.redirectTarget current response).toOption else none
  | .error _ => none

/-- The URLs that a chain of redirects leads to, whether or not the guard lets them be asked. -/
def chain (left : ℕ) (current : String) : List String :=
  match left with
  | 0 => [current]
  | left + 1 => current :: ((W.follows (left + 1) current).map (chain left)).getD []

/-- The URL is asked for. -/
def passes (current : String) : Bool := isHttp current && W.resolvesToGlobal current

variable {W} {current : String}

theorem passes_iff : W.passes current = true ↔ isHttp current = true ∧
    ∃ addrs, W.addresses current = some addrs ∧ addrs ≠ [] ∧
      ∀ a ∈ addrs, isGlobalIp a = true := by
  rw [passes, Bool.and_eq_true, resolvesToGlobal]
  cases W.addresses current <;> simp

theorem fetchLoop_requests (left : ℕ) :
    (W.fetchLoop left current).1 = (W.chain left current).takeWhile W.passes := by
  induction left generalizing current with
  | zero =>
    unfold fetchLoop chain
    by_cases hpass : W.passes current = true
    · obtain ⟨hhttp, hguard⟩ := Bool.and_eq_true_iff.mp hpass
      rw [if_neg (not_not.mpr hhttp), if_neg (not_not.mpr hguard), List.takeWhile_cons_of_pos hpass]
      cases W.send (4 - 0) current with
      | error e => rfl
      | ok response =>
        dsimp only
        split_ifs <;> rfl
    · rw [List.takeWhile_cons_of_neg hpass]
      rw [passes, Bool.and_eq_true, not_and_or] at hpass
      split_ifs <;> simp_all
  | succ left ih =>
    unfold fetchLoop chain
    by_cases hpass : W.passes current = true
    · obtain ⟨hhttp, hguard⟩ := Bool.and_eq_true_iff.mp hpass
      rw [if_neg (not_not.mpr hhttp), if_neg (not_not.mpr hguard), List.takeWhile_cons_of_pos hpass,
        follows]
      cases W.send (4 - (left + 1)) current with
      | error e => rfl
      | ok response =>
        dsimp only
        split_ifs
        · cases W.redirectTarget current response with
          | error e => rfl
          | ok next => exact congrArg (current :: ·) ih
        · rfl
    · rw [List.takeWhile_cons_of_neg hpass]
      rw [passes, Bool.and_eq_true, not_and_or] at hpass
      split_ifs <;> simp_all

theorem length_chain_le (left : ℕ) : (W.chain left current).length ≤ left + 1 := by
  induction left generalizing current with
  | zero => exact le_rfl
  | succ left ih =>
    unfold chain
    cases W.follows (left + 1) current with
    | none => exact Nat.le_add_left 1 _
    | some next => exact Nat.succ_le_succ ih

end Web

/-- Past its checks, a fetch asks for the URLs of the chain as long as the guard lets it. -/
theorem handleFetchUrl_requests :
    (handleFetchUrl W K host member isOwner moment channelId url).1 =
      if checkFetch host member isOwner channelId url = .ok () then
        (W.chain 4 url).takeWhile W.passes
      else [] := by
  unfold handleFetchUrl
  cases hcheck : checkFetch host member isOwner channelId url with
  | error e => rw [if_neg nofun]
  | ok u =>
    rw [if_pos rfl, ← Web.fetchLoop_requests]
    dsimp only
    split <;> rfl

/-- What the guard is for: an address that it admits is global, and every request of a fetch, at
most five of them, goes to an http(s) host all of whose addresses are. -/
structure FetchGuarded (a : IpAddr) : Prop where
  admits : isGlobalIp a = true → IsGlobal a
  requests : ∀ u ∈ (handleFetchUrl W K host member isOwner moment channelId url).1,
    Web.isHttp u = true ∧ ∃ addrs, W.addresses u = some addrs ∧ addrs ≠ [] ∧
      ∀ x ∈ addrs, IsGlobal x
  bounded : (handleFetchUrl W K host member isOwner moment channelId url).1.length ≤ 5

/-- The fetch guard admits only globally routable targets exactly as long as it does not meet one
of the addresses that it misses: neither the address asked about, nor an address of a host that
a URL of the redirect chain has, up to the first URL that is refused. -/
theorem fetch_guard (a : IpAddr) :
    FetchGuarded W K host member isOwner moment channelId url a ↔
      ¬Missed a ∧ (checkFetch host member isOwner channelId url = .ok () →
        ∀ u ∈ (W.chain 4 url).takeWhile W.passes, ∀ addrs ∈ W.addresses u, ∀ x ∈ addrs,
          ¬Missed x) := by
  constructor
  · rintro ⟨hadmits, hrequests, -⟩
    refine ⟨fun h => ?_, fun hcheck u hu addrs haddrs x hx h => ?_⟩
    · obtain ⟨hglobal, hnot⟩ := (missed_iff a).mp h
      exact hnot (hadmits hglobal)
    · rw [handleFetchUrl_requests, if_pos hcheck] at hrequests
      obtain ⟨-, addrs', haddrs', -, hall⟩ := hrequests u hu
      obtain rfl := Option.some.inj (haddrs'.symm.trans haddrs)
      exact ((missed_iff x).mp h).2 (hall x hx)
  · rintro ⟨hmissed, hchain⟩
    have hglobal {x : IpAddr} (hx : ¬Missed x) (hpass : isGlobalIp x = true) : IsGlobal x := by
      by_contra hnot
      exact hx ((missed_iff x).mpr ⟨hpass, hnot⟩)
    refine ⟨hglobal hmissed, fun u hu => ?_, ?_⟩
    · rw [handleFetchUrl_requests] at hu
      split_ifs at hu with hcheck
      · obtain ⟨hhttp, addrs, haddrs, hne, hall⟩ := Web.passes_iff.mp (List.mem_takeWhile_imp hu)
        exact ⟨hhttp, addrs, haddrs, hne, fun x hx =>
          hglobal (hchain hcheck u hu addrs haddrs x hx) (hall x hx)⟩
      · cases hu
    · rw [handleFetchUrl_requests]
      split_ifs
      · exact (List.takeWhile_prefix _).length_le.trans (Web.length_chain_le 4)
      · exact Nat.zero_le 5

/-! ### A host in a network for benchmarks -/

open SampleHost SampleLog

def benchmarkAddress : IpAddr := .v4 (BitVec.ofNat 32 0xc6120001)

/-- Every name is resolved to the one address, and every request is answered. -/
def benchmarkWeb : Web where
  Url := String
  parse := .ok
  hostStr _ := some "bench"
  portOrKnownDefault _ := some 80
  join _ _ := .error "no redirect"
  text := id
  lookupHost _ _ := some [benchmarkAddress]
  send _ _ := .ok ⟨200, none, none, .ok []⟩
  canonicalReason status := if status = 200 then some "OK" else none

def withLobby : Host :=
  hostAfter (claimed ++ requests 2 [(alice, .channel (.createChannel "lobby" .text none none))])

/-- The address passes, and a request is sent to it. -/
theorem fetch_guard_benchmark :
    isGlobalIp benchmarkAddress = true ∧ ¬IsGlobal benchmarkAddress ∧
      (handleFetchUrl benchmarkWeb crypto withLobby (key alice) true (momentAt 3) 1
        "http://bench/").1 = ["http://bench/"] ∧
      ¬FetchGuarded benchmarkWeb crypto withLobby (key alice) true (momentAt 3) 1 "http://bench/"
        benchmarkAddress := by
  have hglobal : isGlobalIp benchmarkAddress = true := by decide +kernel
  have hnot : ¬IsGlobal benchmarkAddress := by decide +kernel
  refine ⟨hglobal, hnot, ?_, fun h => hnot (h.admits hglobal)⟩
  rw [handleFetchUrl_requests]
  decide +kernel

end Ssrf
