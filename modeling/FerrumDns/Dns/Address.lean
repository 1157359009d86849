import FerrumDns.Text
import Mathlib.Data.Nat.Bitwise

/-! IP addresses as the standard library has them: 32 or 128 bits, read as octets
or as 16-bit segments, with the address-class tests and the textual form that the
resolver uses. -/

namespace FerrumDns

open Text

/-! ### IPv4 -/

abbrev Ipv4Addr := BitVec 32

namespace Ipv4Addr

/-- Octet `i`, the first one being the most significant. -/
def octet (a : Ipv4Addr) (i : ℕ) : ℕ := a.toNat / 2 ^ (24 - 8 * i) % 256

def ofOctets (a b c d : ℕ) : Ipv4Addr := BitVec.ofNat 32 (((a * 256 + b) * 256 + c) * 256 + d)

def isPrivate (a : Ipv4Addr) : Bool :=
  a.octet 0 == 10 || (a.octet 0 == 172 && 16 ≤ a.octet 1 && a.octet 1 ≤ 31) ||
    (a.octet 0 == 192 && a.octet 1 == 168)

def isLoopback (a : Ipv4Addr) : Bool := a.octet 0 == 127

def isLinkLocal (a : Ipv4Addr) : Bool := a.octet 0 == 169 && a.octet 1 == 254

def isUnspecified (a : Ipv4Addr) : Bool := a == 0

def isBroadcast (a : Ipv4Addr) : Bool := a == BitVec.allOnes 32

def isDocumentation (a : Ipv4Addr) : Bool :=
  (a.octet 0 == 192 && a.octet 1 == 0 && a.octet 2 == 2) ||
    (a.octet 0 == 198 && a.octet 1 == 51 && a.octet 2 == 100) ||
    (a.octet 0 == 203 && a.octet 1 == 0 && a.octet 2 == 113)

def isMulticast (a : Ipv4Addr) : Bool := 224 ≤ a.octet 0 && a.octet 0 ≤ 239

/-- Dotted decimal. -/
def display (a : Ipv4Addr) : Text :=
  decimal (a.octet 0) ++ '.' :: decimal (a.octet 1) ++ '.' :: decimal (a.octet 2) ++
    '.' :: decimal (a.octet 3)

end Ipv4Addr

/-! ### IPv6 -/

abbrev Ipv6Addr := BitVec 128

namespace Ipv6Addr

/-- Segment `i`, the first one being the most significant. -/
def segment (a : Ipv6Addr) (i : ℕ) : ℕ := a.toNat / 2 ^ (112 - 16 * i) % 65536

def segments (a : Ipv6Addr) : List ℕ := (List.range 8).map a.segment

/-- The IPv4 address inside `::ffff:a.b.c.d`. -/
def toIpv4Mapped (a : Ipv6Addr) : Option Ipv4Addr :=
  if a.toNat / 2 ^ 32 = 0xffff then some (BitVec.ofNat 32 a.toNat) else none

def isLoopback (a : Ipv6Addr) : Bool := a == 1

def isUnspecified (a : Ipv6Addr) : Bool := a == 0

def isMulticast (a : Ipv6Addr) : Bool := a.segment 0 &&& 0xff00 == 0xff00

/-- A run of zero segments. -/
structure Span where
  start : ℕ
  len : ℕ
  deriving DecidableEq, Repr

/-- The first of the longest runs of zero segments, from position `i` on. -/
def longestZeros : ℕ → Span → Span → List ℕ → Span
  | _, _, longest, [] => longest
  | i, current, longest, s :: rest =>
    if s = 0 then
      let current : Span := ⟨if current.len = 0 then i else current.start, current.len + 1⟩
      longestZeros (i + 1) current (if longest.len < current.len then current else longest) rest
    else longestZeros (i + 1) ⟨0, 0⟩ longest rest

/-- Segments in hexadecimal, separated by colons. -/
def displaySegments : List ℕ → Text
  | [] => []
  | [s] => lowerHex s
  | s :: rest => lowerHex s ++ ':' :: displaySegments rest

/-- Canonical text: mapped addresses in dotted form, else the zero run written `::`. -/
def display (a : Ipv6Addr) : Text :=
  match a.toIpv4Mapped with
  | some v4 => "::ffff:".toList ++ v4.display
  | none =>
    let zeros := longestZeros 0 ⟨0, 0⟩ ⟨0, 0⟩ a.segments
    if 1 < zeros.len then
      displaySegments (a.segments.take zeros.start) ++ "::".toList ++
        displaySegments (a.segments.drop (zeros.start + zeros.len))
    else displaySegments a.segments

end Ipv6Addr

/-! ### Either family -/

inductive IpAddr where
  | v4 (a : Ipv4Addr)
  | v6 (a : Ipv6Addr)
  deriving DecidableEq, Repr

namespace IpAddr

def isIpv4 : IpAddr → Bool
  | v4 _ => true
  | v6 _ => false

def display : IpAddr → Text
  | v4 a => a.display
  | v6 a => a.display

end IpAddr

example : (IpAddr.v6 0x20010db8000000000000000000000001).display = "2001:db8::1".toList := by
  decide +kernel

end FerrumDns
