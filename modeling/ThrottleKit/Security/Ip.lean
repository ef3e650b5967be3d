import Mathlib.Data.Nat.Bitwise
import ThrottleKit.Lib.TextCut
import ThrottleKit.Redis.Key

/-!
# Deriving the address of a client

The client of a request is derived from the socket peer and the `X-Forwarded-For` header, under an
explicit policy about which proxies to trust. An IPv4-mapped IPv6 address is the IPv4 address in it,
and other IPv6 addresses are aggregated to a prefix.

A text is a list of its characters.

## Main definitions

* `parseIpv4`, `parseIpv6`, `formatIpv6`, `ipv4MappedTail`, `maskIpv6` — texts and numbers
* `addrMatchesEntry` — an address against an entry of a proxy allowlist
* `canonicalizeAddr`, `parseXff`, `aggregate`, `clientIp`
-/

namespace ThrottleKit.Security

open TextCut

/-! ### IPv4 -/

/-- A group that `IPV4_RE` matches, without leading zeros, up to 255. -/
def parseOctet (g : List Char) : Option ℕ :=
  if ¬ (1 ≤ g.length ∧ g.length ≤ 3 ∧ g.all Char.isDigit) then none
  else if 1 < g.length ∧ g.head? = some '0' then none
  else
    let n := Nat.ofDigitChars 10 g 0
    if 255 < n then none else some n

/-- `parseIpv4(s)`. -/
def parseIpv4 (s : List Char) : Option (List ℕ) :=
  let groups := s.splitOn '.'
  if groups.length = 4 then groups.mapM parseOctet else none

/-- `octets.join(".")`. -/
def joinOctets (octets : List ℕ) : List Char :=
  ['.'].intercalate (octets.map (Nat.toDigits 10))

/-! ### IPv6 -/

/-- What `[0-9a-fA-F]` matches. -/
def isHexDigit (c : Char) : Bool :=
  c.isDigit || ('a' ≤ c && c ≤ 'f') || ('A' ≤ c && c ≤ 'F')

/-- What a hexadecimal digit stands for. -/
def hexDigit (c : Char) : ℕ :=
  if c.isDigit then c.toNat - 48 else if 'a' ≤ c then c.toNat - 87 else c.toNat - 55

/-- `Number.parseInt(g, 16)`. -/
def parseHex (g : List Char) : ℕ := g.foldl (fun n c => 16 * n + hexDigit c) 0

/-- One group of one to four hexadecimal digits. -/
def parseGroup (g : List Char) : Option ℕ :=
  if g = [] then none
  else if ¬ (1 ≤ g.length ∧ g.length ≤ 4 ∧ g.all isHexDigit) then none
  else some (parseHex g)

/-- `parseGroups(part)`. -/
def parseGroups (part : List Char) : Option (List ℕ) :=
  if part = [] then some [] else (part.splitOn ':').mapM parseGroup

/-- A text without one colon at its end. -/
def dropColon (s : List Char) : List Char := if s.getLast? = some ':' then s.dropLast else s

/-- `s.slice(0, s.indexOf("%"))`, if there is one. -/
def stripZone (s : List Char) : List Char := s.takeWhile (· ≠ '%')

/-- The two groups of four octets. -/
def octetGroups : List ℕ → List ℕ
  | [a, b, c, d] => [a <<< 8 ||| b, c <<< 8 ||| d]
  | _ => []

/-- The text up to an embedded IPv4 tail, with the colon before that, and the groups of the tail. -/
def peelIpv4 (s : List Char) : Option (List Char × List ℕ) :=
  match cutLast ':' s with
  | some (before, after) =>
    if '.' ∈ after then (parseIpv4 after).map fun v4 => (before ++ [':'], octetGroups v4)
    else some (s, [])
  | none => some (s, [])

/-- The groups of the text, the last of which are those of the IPv4 tail. -/
def expand (s : List Char) (ipv4Tail : List ℕ) : Option (List ℕ) :=
  match cutPair ':' s with
  | none =>
    (parseGroups (dropColon s)).bind fun head =>
      if head.length + ipv4Tail.length ≠ 8 then none else some (head ++ ipv4Tail)
  | some (headStr, tailStr) =>
    if (cutPair ':' (':' :: tailStr)).isSome then none
    else
      (parseGroups (dropColon headStr)).bind fun head =>
        (parseGroups (dropColon tailStr)).bind fun tail =>
          let tail := tail ++ ipv4Tail
          if 8 < head.length + tail.length then none
          else some (head ++ List.replicate (8 - (head.length + tail.length)) 0 ++ tail)

/-- `parseIpv6(input)`. -/
def parseIpv6 (input : List Char) : Option (List ℕ) :=
  let s := stripZone input
  if s = [] then none else (peelIpv4 s).bind fun p => expand p.1 p.2

/-- The variables of the loop that looks for the longest run of zero groups. -/
structure Runs where
  bestStart : ℕ
  bestLen : ℕ
  /-- `none` for `-1`. -/
  curStart : Option ℕ
  curLen : ℕ

/-- One round of the loop. -/
def Runs.step (groups : List ℕ) (r : Runs) (i : ℕ) : Runs :=
  if groups[i]? = some 0 then
    let curStart := r.curStart.getD i
    let curLen := r.curLen + 1
    if r.bestLen < curLen then ⟨curStart, curLen, some curStart, curLen⟩
    else ⟨r.bestStart, r.bestLen, some curStart, curLen⟩
  else ⟨r.bestStart, r.bestLen, none, 0⟩

/-- The variables after the loop. -/
def zeroRuns (groups : List ℕ) : Runs := (List.range 8).foldl (Runs.step groups) ⟨0, 0, none, 0⟩

/-- `groups.map((g) => g.toString(16)).join(":")`. -/
def joinGroups (groups : List ℕ) : List Char := [':'].intercalate (groups.map (Nat.toDigits 16))

/-- `formatIpv6(groups)`. -/
def formatIpv6 (groups : List ℕ) : List Char :=
  let r := zeroRuns groups
  if r.bestLen < 2 then joinGroups groups
  else
    joinGroups (groups.take r.bestStart) ++ [':', ':'] ++
      joinGroups (groups.drop (r.bestStart + r.bestLen))

/-- `ipv4MappedTail(groups)`. -/
def ipv4MappedTail (groups : List ℕ) : Option (List ℕ) :=
  if ¬ ∀ i ∈ List.range 5, groups[i]? = some 0 then none
  else if groups[5]? ≠ some 0xffff then none
  else
    let g6 := groups.getD 6 0
    let g7 := groups.getD 7 0
    some [(g6 >>> 8) &&& 0xff, g6 &&& 0xff, (g7 >>> 8) &&& 0xff, g7 &&& 0xff]

/-- The loop of `maskIpv6`, with the bits that are left. -/
def maskFrom : ℕ → List ℕ → List ℕ
  | _, [] => []
  | bits, g :: groups =>
    if 16 ≤ bits then g :: maskFrom (bits - 16) groups
    else if bits = 0 then 0 :: maskFrom 0 groups
    else (g &&& ((0xffff <<< (16 - bits)) &&& 0xffff)) :: maskFrom 0 groups

/-- `maskIpv6(groups, prefix)`. -/
def maskIpv6 (groups : List ℕ) (bits : ℕ) : List ℕ := maskFrom bits groups

/-! ### Texts of addresses -/

/-- White space and line terminators. -/
def isSpace (c : Char) : Bool :=
  [9, 10, 11, 12, 13, 32, 160, 5760, 8192, 8193, 8194, 8195, 8196, 8197, 8198, 8199, 8200, 8201,
    8202, 8232, 8233, 8239, 8287, 12288, 65279].contains c.toNat

/-- `s.trim()`. -/
def trim (s : List Char) : List Char :=
  ((s.dropWhile isSpace).reverse.dropWhile isSpace).reverse

/-- What is inside the brackets a text starts with. -/
def stripBrackets (s : List Char) : List Char :=
  if s.head? = some '[' then
    match cut ']' s with
    | some (inside, _) => inside.tail
    | none => s
  else s

/-- `stripHost(addr)`. -/
def stripHost (addr : List Char) : List Char := stripZone (stripBrackets (trim addr))

/-- Normalise a raw token into a canonical address, or drop it. -/
def canonicalizeAddr (raw : List Char) : Option (List Char) :=
  let s := stripHost raw
  if s = [] then none
  else if (parseIpv4 s).isSome then some s
  else
    (parseIpv6 s).map fun v6 =>
      match ipv4MappedTail v6 with
      | some mapped => joinOctets mapped
      | none => formatIpv6 v6

/-! ### The numbers of prefixes -/

/-- The double nearest to a number, halves to the even one; `none` where that is infinite. -/
def toDouble (x : ℚ) : Option ℚ :=
  if x = 0 then some 0
  else
    let unit := (2 : ℚ) ^ max (Int.log 2 |x| - 52) (-1074)
    let y := Redis.roundEven (x / unit) * unit
    if |y| < 2 ^ 1024 then some y else none

/-- The value of digits in a radix, if there are any and all are digits of it. -/
def radixNumber (radix : ℕ) (ds : List Char) : Option ℚ :=
  if ds ≠ [] ∧ ds.all fun c => isHexDigit c && hexDigit c < radix then
    toDouble (ds.foldl (fun n c => radix * n + hexDigit c) 0 : ℕ)
  else none

/-- The exponent of a literal. -/
def exponentPart : List Char → Option ℤ
  | [] => some 0
  | e :: s =>
    if e = 'e' ∨ e = 'E' then
      let ds := if s.head? = some '+' ∨ s.head? = some '-' then s.tail else s
      if ds ≠ [] ∧ ds.all Char.isDigit then
        let n : ℤ := Nat.ofDigitChars 10 ds 0
        some (if s.head? = some '-' then -n else n)
      else none
    else none

/-- The value of a decimal literal without a sign. -/
def unsignedLiteral (s : List Char) : Option ℚ :=
  let whole := s.takeWhile Char.isDigit
  let behind := s.dropWhile Char.isDigit
  let point := behind.head? = some '.'
  let fraction := if point then behind.tail.takeWhile Char.isDigit else []
  let exponent := if point then behind.tail.dropWhile Char.isDigit else behind
  if whole = [] ∧ fraction = [] then none
  else
    (exponentPart exponent).map fun e : ℤ =>
      (Nat.ofDigitChars 10 (whole ++ fraction) 0 : ℚ) * 10 ^ (e - (fraction.length : ℤ))

/-- `Number(s)`; `none` where that is not finite. -/
def Number (text : List Char) : Option ℚ :=
  match trim text with
  | [] => some 0
  | '0' :: 'x' :: ds | '0' :: 'X' :: ds => radixNumber 16 ds
  | '0' :: 'o' :: ds | '0' :: 'O' :: ds => radixNumber 8 ds
  | '0' :: 'b' :: ds | '0' :: 'B' :: ds => radixNumber 2 ds
  | '+' :: s => (unsignedLiteral s).bind toDouble
  | '-' :: s => (unsignedLiteral s).bind fun x => toDouble (-x)
  | s => (unsignedLiteral s).bind toDouble

/-- `Number(s)`, where that is an integer. -/
def integer (text : List Char) : Option ℤ :=
  (Number text).bind fun p => if (⌊p⌋ : ℚ) = p then some ⌊p⌋ else none

/-! ### Allowlists -/

/-- The address of a text after normalisation. -/
inductive Normalized where
  | v4 (octets : List ℕ)
  | v6 (groups : List ℕ)
deriving DecidableEq

/-- `normalize(raw)`. -/
def normalize (raw : List Char) : Option Normalized :=
  match parseIpv4 raw with
  | some v4 => some (.v4 v4)
  | none =>
    (parseIpv6 raw).map fun v6 =>
      match ipv4MappedTail v6 with
      | some mapped => .v4 mapped
      | none => .v6 v6

/-- The 32 bits of four octets. -/
def ipInt (octets : List ℕ) : BitVec 32 :=
  (BitVec.ofNat 32 (octets.getD 0 0) <<< 24) ||| (BitVec.ofNat 32 (octets.getD 1 0) <<< 16) |||
    (BitVec.ofNat 32 (octets.getD 2 0) <<< 8) ||| BitVec.ofNat 32 (octets.getD 3 0)

/-- `ipv4InCidr(octets, net, prefix)`. -/
def ipv4InCidr (octets net : List ℕ) (bits : ℕ) : Bool :=
  if bits = 0 then true
  else
    let mask := if 32 ≤ bits then BitVec.allOnes 32 else ~~~(BitVec.allOnes 32 >>> bits)
    (ipInt octets &&& mask) == (ipInt net &&& mask)

/-- `ipv6InCidr(groups, net, prefix)`. -/
def ipv6InCidr (groups net : List ℕ) (bits : ℕ) : Bool := maskIpv6 groups bits == maskIpv6 net bits

/-- `addrMatchesEntry(addr, entry)`. -/
def addrMatchesEntry (addr entry : List Char) : Bool :=
  let slash := cut '/' entry
  let entryAddr := stripHost ((slash.map Prod.fst).getD entry)
  let entryPrefix := slash.map Prod.snd
  match normalize addr, normalize entryAddr with
  | some (.v4 target), some (.v4 trusted) =>
    match entryPrefix with
    | none => ipv4InCidr target trusted 32
    | some text =>
      match integer text with
      | none => false
      | some p =>
        if p < 0 then false
        else
          let p := if ':' ∈ entryAddr then p - 96 else p
          if p < 0 ∨ 32 < p then false else ipv4InCidr target trusted p.toNat
  | some (.v6 target), some (.v6 trusted) =>
    match entryPrefix with
    | none => ipv6InCidr target trusted 128
    | some text =>
      match integer text with
      | none => false
      | some p => if p < 0 ∨ 128 < p then false else ipv6InCidr target trusted p.toNat
  | _, _ => false

/-! ### Clients -/

/-- The value of the header: one string or several. -/
inductive Header where
  | one (value : List Char)
  | many (values : List (List Char))

/-- The tokens between the commas. -/
def Header.tokens : Header → List (List Char)
  | .one value => value.splitOn ','
  | .many values => values.flatMap fun v => v.splitOn ','

/-- `parseXff(xff)`. -/
def parseXff (xff : Option Header) : List (List Char) :=
  match xff with
  | none => []
  | some header => header.tokens.filterMap canonicalizeAddr

/-- `aggregate(addr, ipv6Prefix)`. -/
def aggregate (addr : List Char) (ipv6Prefix : ℕ) : List Char :=
  if (parseIpv4 addr).isSome then addr
  else
    match parseIpv6 addr with
    | none => addr
    | some v6 =>
      match ipv4MappedTail v6 with
      | some mapped => joinOctets mapped
      | none => formatIpv6 (maskIpv6 v6 ipv6Prefix)

/-- `trustProxy`. -/
inductive TrustProxy where
  | never
  | hops (n : ℚ)
  | allowlist (entries : List (List Char))

/-- `TrustProxyConfig`. -/
structure TrustProxyConfig where
  trustProxy : TrustProxy := .never
  ipv6Prefix : Option ℚ := none

/-- The prefix length that is used. -/
def TrustProxyConfig.prefixLength (config : TrustProxyConfig) : ℕ :=
  let ipv6Prefix := config.ipv6Prefix.getD 64
  if (⌊ipv6Prefix⌋ : ℚ) ≠ ipv6Prefix ∨ ipv6Prefix < 0 ∨ 128 < ipv6Prefix then 64
  else ⌊ipv6Prefix⌋.toNat

/-- `ClientIpInput`. -/
structure ClientIpInput where
  remoteAddr : List Char
  xForwardedFor : Option Header

/-- The socket peer. -/
def ClientIpInput.remote (input : ClientIpInput) : List Char :=
  (canonicalizeAddr input.remoteAddr).getD (trim input.remoteAddr)

/-- The clients, proxies and the peer, from left to right. -/
def ClientIpInput.chain (input : ClientIpInput) : List (List Char) :=
  parseXff input.xForwardedFor ++ [input.remote]

/-- Some entry of an allowlist matches the address. -/
def isTrusted (entries : List (List Char)) (addr : List Char) : Bool :=
  entries.any fun entry => addrMatchesEntry addr entry

/-- `clientIp(input, config)`. -/
def clientIp (input : ClientIpInput) (config : TrustProxyConfig) : List Char :=
  match config.trustProxy with
  | .never => aggregate input.remote config.prefixLength
  | .hops n =>
    let idx := input.chain.length - 1 - (max 0 ⌊n⌋).toNat
    aggregate (input.chain.getD idx input.remote) config.prefixLength
  | .allowlist entries =>
    let chosen := (input.chain.reverse.find? fun addr => !isTrusted entries addr).getD
      (input.chain.headD input.remote)
    aggregate chosen config.prefixLength

end ThrottleKit.Security
