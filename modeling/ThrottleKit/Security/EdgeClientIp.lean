import ThrottleKit.Lib.TrimEnds
import ThrottleKit.Security.ForwardedFor

/-!
# The client of a request at the edge

An edge runtime has no socket peer. A header that the platform sets is believed by default; of
`X-Forwarded-For` the last token stands in for the peer, and the tokens before it are resolved with
the same hop count as on Node. So the hops are counted from the last token and not from behind it:
where each of `n` trusted proxies appends the address of its own peer, the client is the token that
the first of them appended, and the edge takes the one before that, which comes from the client.

## Main definitions

* `edgeClientIp` — the client of a request at the edge
* `EdgeDetermines` — the last tokens determine the client at the edge
* `SameKeyInFront` — what comes before the last tokens does no harm

## Main results

* `edgeClientIp_hops` — the address that a hop count leads to
* `edgeClientIp_agrees_iff` — when the edge agrees with Node
* `edge_key_is_forged` — a header on which it does not
-/

namespace ThrottleKit.Security

/-! ### The code -/

/-- What `edgeClientIp` reads of a request. -/
structure EdgeRequest where
  /-- `cf-connecting-ip`. -/
  cfConnectingIp : Option (List Char)
  /-- `x-forwarded-for`. -/
  xForwardedFor : Option (List Char)

/-- A header, unless it is blank. -/
def nonblank (header : Option (List Char)) : Option (List Char) :=
  header.filter fun value => trim value ≠ []

/-- `edgeClientIp(request, trust, trustClientIpHeader)`. -/
def edgeClientIp (request : EdgeRequest) (trust : TrustProxyConfig) (trustClientIpHeader : Bool) :
    List Char :=
  match if trustClientIpHeader then nonblank request.cfConnectingIp else none with
  | some cf => clientIp ⟨trim cf, none⟩ trust
  | none =>
    match trust.trustProxy, nonblank request.xForwardedFor with
    | .never, _ | _, none => ['a', 'n', 'o', 'n']
    | _, some xff =>
      let parts := (xff.splitOn ',').map trim
      let remoteAddr := parts.getLastD []
      let upstream := parts.dropLast
      clientIp ⟨remoteAddr, some (.many upstream)⟩ trust

/-- Nothing but the `X-Forwarded-For` header decides: the platform's own header is absent, blank or
not trusted. -/
def Unmarked (request : EdgeRequest) (trustClientIpHeader : Bool) : Prop :=
  trustClientIpHeader = true → nonblank request.cfConnectingIp = none

/-- All headers that end in these tokens lead to the same client at the edge. -/
def EdgeDetermines (trust : TrustProxyConfig) (tokens : List (List Char)) : Prop :=
  ∀ header header' : List Char, tokens <:+ header.splitOn ',' → tokens <:+ header'.splitOn ',' →
    edgeClientIp ⟨none, some header⟩ trust false = edgeClientIp ⟨none, some header'⟩ trust false

/-- The address that comes before the last tokens, if there is one, has the key of the client. -/
def SameKeyInFront (before : List (List Char)) (client : List Char) (bits : ℕ) : Prop :=
  ∀ addr, (before.filterMap canonicalizeAddr).getLast? = some addr →
    aggregate addr bits = aggregate client bits

/-! ### Tokens that are trimmed -/

theorem trim_trim (s : List Char) : trim (trim s) = trim s := TrimEnds.trim_trim isSpace s

theorem canonicalizeAddr_trim (t : List Char) : canonicalizeAddr (trim t) = canonicalizeAddr t := by
  rw [canonicalizeAddr, canonicalizeAddr, stripHost, stripHost, trim_trim]

theorem filterMap_trim (ts : List (List Char)) :
    (ts.map trim).filterMap canonicalizeAddr = ts.filterMap canonicalizeAddr := by
  rw [List.filterMap_map]
  exact List.filterMap_congr fun t _ => canonicalizeAddr_trim t

theorem mem_of_mem_trim {s : List Char} {c : Char} (h : c ∈ trim s) : c ∈ s := by
  obtain ⟨before, behind, heq, -, -⟩ := TrimEnds.exists_around isSpace s
  rw [heq]
  exact List.mem_append_left _ (List.mem_append_right _ h)

/-- A text with an address among its tokens is not blank. -/
theorem nonblank_of_address {text t : List Char} (ht : t ∈ text.splitOn ',')
    (haddr : (canonicalizeAddr t).isSome) : nonblank (some text) = some text := by
  refine Option.filter_some_pos ?_
  rw [decide_eq_true_iff]
  intro hblank
  obtain ⟨before, behind, heq, hbefore, hbehind⟩ := TrimEnds.exists_around isSpace text
  have hspace : ∀ c ∈ text, isSpace c = true := by
    intro c hc
    rw [heq, show TrimEnds.trim isSpace text = [] from hblank, List.append_nil] at hc
    rcases List.mem_append.mp hc with hc | hc
    · exact hbefore c hc
    · exact hbehind c hc
  have hcomma : ',' ∉ text := fun hmem => absurd (hspace ',' hmem) (by decide)
  rw [List.splitOn_eq_singleton hcomma, List.mem_singleton] at ht
  rw [ht, canonicalizeAddr, stripHost, hblank] at haddr
  revert haddr
  decide

/-! ### Hop counts -/

section Hops

variable {before rest : List (List Char)} {first client : List Char} {text : List Char}

/-- The tokens in front of the last one, trimmed, are those of a header. -/
theorem tokens_upstream {parts : List (List Char)} (hcomma : ∀ t ∈ parts, ',' ∉ t) :
    (Header.many parts).tokens = parts := by
  induction parts with
  | nil => rfl
  | cons t parts ih =>
    obtain ⟨ht, hparts⟩ := List.forall_mem_cons.mp hcomma
    have hrest := ih hparts
    rw [Header.tokens] at hrest ⊢
    rw [List.flatMap_cons, hrest, List.splitOn_eq_singleton ht, List.singleton_append]

/-- Without the platform's own header the last token is the peer, and those before it the header. -/
theorem edgeClientIp_unmarked {request : EdgeRequest} {trustClientIpHeader : Bool}
    (hmark : Unmarked request trustClientIpHeader) (htext : request.xForwardedFor = some text)
    (hshown : nonblank (some text) = some text) (n : ℕ) (ipv6Prefix : Option ℚ) :
    edgeClientIp request ⟨.hops n, ipv6Prefix⟩ trustClientIpHeader
      = clientIp ⟨((text.splitOn ',').map trim).getLastD [],
          some (.many ((text.splitOn ',').map trim).dropLast)⟩ ⟨.hops n, ipv6Prefix⟩ := by
  have hcf : (if trustClientIpHeader then nonblank request.cfConnectingIp else none) = none := by
    split
    · exact hmark ‹_›
    · rfl
  rw [edgeClientIp, hcf, htext, hshown]

/-- **The address that a hop count leads to at the edge.** With as many addresses as hops at the
end, it is the address in front of them, or the client if there is none. -/
theorem edgeClientIp_hops {request : EdgeRequest} {trustClientIpHeader : Bool}
    (hmark : Unmarked request trustClientIpHeader) (htext : request.xForwardedFor = some text)
    (hsplit : text.splitOn ',' = before ++ first :: rest)
    (hfirst : canonicalizeAddr first = some client)
    (hrest : ∀ t ∈ rest, (canonicalizeAddr t).isSome) (ipv6Prefix : Option ℚ) :
    edgeClientIp request ⟨.hops (rest.length + 1 : ℕ), ipv6Prefix⟩ trustClientIpHeader
      = aggregate (((before.filterMap canonicalizeAddr).getLast?).getD client)
          (TrustProxyConfig.prefixLength ⟨.hops (rest.length + 1 : ℕ), ipv6Prefix⟩) := by
  have hmem : ∀ t ∈ before ++ first :: rest, t ∈ text.splitOn ',' := fun t ht => hsplit ▸ ht
  have hshown := nonblank_of_address (hmem first (by simp)) (by rw [hfirst]; rfl)
  -- the last of the tokens stands in for the peer
  obtain ⟨inner, last, hlast⟩ : ∃ inner last, first :: rest = inner ++ [last] :=
    ⟨_, _, (List.dropLast_append_getLast (List.cons_ne_nil first rest)).symm⟩
  have hlen : inner.length = rest.length := by
    have := congrArg List.length hlast
    simpa using this.symm
  have haddr : ∀ t ∈ first :: rest, (canonicalizeAddr t).isSome :=
    List.forall_mem_cons.mpr ⟨by rw [hfirst]; rfl, hrest⟩
  obtain ⟨peer, hpeer⟩ := Option.isSome_iff_exists.mp (haddr last (by rw [hlast]; simp))
  have hparts : (text.splitOn ',').map trim
      = before.map trim ++ inner.map trim ++ [trim last] := by
    rw [hsplit, hlast]
    simp
  have hupstream : (Header.many (before.map trim ++ inner.map trim)).tokens
      = before.map trim ++ inner.map trim := by
    refine tokens_upstream fun t ht hcomma => ?_
    rw [← List.map_append] at ht
    obtain ⟨u, hu, rfl⟩ := List.mem_map.mp ht
    refine TextCut.notMem_of_mem_splitOn (hmem u ?_) (mem_of_mem_trim hcomma)
    rw [hlast, ← List.append_assoc]
    exact List.mem_append_left _ hu
  have hinner : (inner.filterMap canonicalizeAddr).length = rest.length := by
    rw [← hlen]
    exact List.filterMap_length_eq_length.mpr fun t ht => haddr t (by rw [hlast]; simp [ht])
  have hremote : ClientIpInput.remote ⟨trim last, none⟩ = peer := by
    rw [ClientIpInput.remote, canonicalizeAddr_trim, hpeer]
    rfl
  have hchain : inner.filterMap canonicalizeAddr ++ [peer]
      = client :: rest.filterMap canonicalizeAddr := by
    rw [← List.filterMap_cons_some hfirst, hlast, List.filterMap_append,
      List.filterMap_cons_some hpeer]
    rfl
  rw [edgeClientIp_unmarked hmark htext hshown, hparts, List.getLastD_concat, List.dropLast_concat,
    clientIp_hops hupstream, filterMap_trim, filterMap_trim, hremote, hchain, hinner]
  congr 1
  rcases List.eq_nil_or_concat (before.filterMap canonicalizeAddr) with hnil | ⟨front, addr, haddr⟩
  · rw [hnil, List.length_nil, Nat.zero_add, Nat.sub_eq_zero_of_le (Nat.le_succ _)]
    rfl
  · rw [haddr, List.concat_eq_append, List.getLast?_concat, List.length_append,
      List.length_singleton, Option.getD_some,
      show front.length + 1 + rest.length - (rest.length + 1) = front.length by omega,
      List.getD_append _ _ _ _ (by rw [List.length_append]; exact Nat.lt_succ_self _),
      List.getD_append_right _ _ _ _ le_rfl, Nat.sub_self]
    rfl

/-- On Node the hop count leads to the client. -/
theorem clientIp_hops_client (hsplit : text.splitOn ',' = before ++ first :: rest)
    (hfirst : canonicalizeAddr first = some client)
    (hrest : ∀ t ∈ rest, (canonicalizeAddr t).isSome) (peer : List Char) (ipv6Prefix : Option ℚ) :
    clientIp ⟨peer, some (.one text)⟩ ⟨.hops (rest.length + 1 : ℕ), ipv6Prefix⟩
      = aggregate client
          (TrustProxyConfig.prefixLength ⟨.hops (rest.length + 1 : ℕ), ipv6Prefix⟩) := by
  have hlen : (rest.filterMap canonicalizeAddr).length = rest.length :=
    List.filterMap_length_eq_length.mpr hrest
  have htokens : (Header.one text).tokens = before ++ first :: rest := hsplit
  rw [clientIp_hops htokens, List.filterMap_cons_some hfirst, List.length_cons, hlen,
    Nat.add_sub_cancel, List.getD_append_right _ _ _ _ le_rfl, Nat.sub_self]
  rfl

/-- An address that comes before the last tokens is the client at the edge. -/
theorem edgeClientIp_forged {tokens : List (List Char)} {q : List Char} {o : List ℕ}
    (hq : Dotted q o) (hcomma : ∀ t ∈ tokens, ',' ∉ t)
    (haddr : ∀ t ∈ tokens, (canonicalizeAddr t).isSome) (ipv6Prefix : Option ℚ) :
    ∃ header : List Char, tokens <:+ header.splitOn ',' ∧
      edgeClientIp ⟨none, some header⟩ ⟨.hops tokens.length, ipv6Prefix⟩ false = q := by
  obtain ⟨hcanon, hagg, hqcomma⟩ := dotted_kept hq
    (TrustProxyConfig.prefixLength ⟨.hops tokens.length, ipv6Prefix⟩)
  have hsplit : ([','].intercalate (q :: tokens)).splitOn ',' = q :: tokens :=
    List.splitOn_intercalate ',' (List.forall_mem_cons.mpr ⟨hqcomma, hcomma⟩)
      (List.cons_ne_nil _ _)
  refine ⟨[','].intercalate (q :: tokens), by rw [hsplit]; exact List.suffix_cons q tokens, ?_⟩
  have hmark : Unmarked ⟨none, some ([','].intercalate (q :: tokens))⟩ false := by
    intro hfalse
    cases hfalse
  cases tokens with
  | nil =>
    -- the only token stands in for the peer
    have hshown : nonblank (some ([','].intercalate [q])) = some ([','].intercalate [q]) :=
      nonblank_of_address (t := q) (by rw [hsplit]; exact List.mem_singleton_self q)
        (by rw [hcanon]; rfl)
    have hpeer : ClientIpInput.remote ⟨trim q, none⟩ = q := by
      rw [ClientIpInput.remote, canonicalizeAddr_trim, hcanon]
      rfl
    have htokens : (Header.many []).tokens = [] ++ [] := rfl
    rw [edgeClientIp_unmarked hmark rfl hshown, hsplit, List.map_singleton]
    refine (clientIp_hops htokens ipv6Prefix).trans ?_
    rw [List.getLastD_cons, List.getLastD_nil, hpeer]
    exact hagg
  | cons first rest =>
    obtain ⟨hfirst, hrest⟩ := List.forall_mem_cons.mp haddr
    obtain ⟨client, hclient⟩ := Option.isSome_iff_exists.mp hfirst
    have hfront : [q].filterMap canonicalizeAddr = [q] := by
      rw [List.filterMap_cons_some hcanon, List.filterMap_nil]
    have hbehind : ([','].intercalate (q :: first :: rest)).splitOn ',' = [q] ++ first :: rest :=
      hsplit
    refine (edgeClientIp_hops hmark rfl hbehind hclient hrest ipv6Prefix).trans ?_
    rw [hfront]
    exact hagg

/-- **When the edge agrees with Node.** Behind `n ≥ 1` trusted proxies, which append `n` addresses,
the client at the edge is the one that Node finds just where no address comes before these, or the
last one that does has the same key. And whatever addresses the proxies append, they never determine
the client at the edge. -/
theorem edgeClientIp_agrees_iff {request : EdgeRequest} {trustClientIpHeader : Bool}
    (hmark : Unmarked request trustClientIpHeader) (htext : request.xForwardedFor = some text)
    (hsplit : text.splitOn ',' = before ++ first :: rest)
    (hfirst : canonicalizeAddr first = some client)
    (hrest : ∀ t ∈ rest, (canonicalizeAddr t).isSome) (peer : List Char) (ipv6Prefix : Option ℚ) :
    (edgeClientIp request ⟨.hops (rest.length + 1 : ℕ), ipv6Prefix⟩ trustClientIpHeader
        = clientIp ⟨peer, some (.one text)⟩ ⟨.hops (rest.length + 1 : ℕ), ipv6Prefix⟩ ↔
      SameKeyInFront before client
        (TrustProxyConfig.prefixLength ⟨.hops (rest.length + 1 : ℕ), ipv6Prefix⟩)) ∧
    ∀ tokens : List (List Char), (∀ t ∈ tokens, ',' ∉ t) →
      (∀ t ∈ tokens, (canonicalizeAddr t).isSome) →
        ¬ EdgeDetermines ⟨.hops tokens.length, ipv6Prefix⟩ tokens := by
  constructor
  · rw [edgeClientIp_hops hmark htext hsplit hfirst hrest,
      clientIp_hops_client hsplit hfirst hrest, SameKeyInFront]
    cases (before.filterMap canonicalizeAddr).getLast? with
    | none => simp
    | some addr => simp
  · intro tokens hcomma haddr hdet
    obtain ⟨header, hsuffix, hclient⟩ := edgeClientIp_forged (q := joinOctets [1, 1, 1, 1])
      ⟨rfl, by decide, rfl⟩ hcomma haddr ipv6Prefix
    obtain ⟨header', hsuffix', hclient'⟩ := edgeClientIp_forged (q := joinOctets [2, 2, 2, 2])
      ⟨rfl, by decide, rfl⟩ hcomma haddr ipv6Prefix
    have heq := hdet header header' hsuffix hsuffix'
    rw [hclient, hclient'] at heq
    revert heq
    decide +kernel

end Hops

/-- One proxy that appends `1.2.3.4`, and a client that sent `6.6.6.6`. -/
theorem edgeClientIp_agrees_iff_one_hop :
    (edgeClientIp ⟨none, some "6.6.6.6,1.2.3.4".toList⟩ ⟨.hops (0 + 1 : ℕ), none⟩ true
        = clientIp ⟨"10.0.0.1".toList, some (.one "6.6.6.6,1.2.3.4".toList)⟩
            ⟨.hops (0 + 1 : ℕ), none⟩ ↔
      SameKeyInFront ["6.6.6.6".toList] "1.2.3.4".toList 64) ∧
    ¬ EdgeDetermines ⟨.hops (1 : ℕ), none⟩ ["1.2.3.4".toList] := by
  have h := edgeClientIp_agrees_iff
    (show Unmarked ⟨none, some "6.6.6.6,1.2.3.4".toList⟩ true from fun _ => rfl) rfl
    (show "6.6.6.6,1.2.3.4".toList.splitOn ',' = ["6.6.6.6".toList] ++ "1.2.3.4".toList :: []
      by decide +kernel)
    (show canonicalizeAddr "1.2.3.4".toList = some "1.2.3.4".toList by decide +kernel) (by simp)
    "10.0.0.1".toList none
  exact ⟨h.1, h.2 ["1.2.3.4".toList] (by decide) (by decide +kernel)⟩

/-- One proxy appends `1.2.3.4`, and the client had sent `6.6.6.6` or `7.7.7.7`: Node finds the
client, and the edge what the client has sent. -/
theorem edge_key_is_forged :
    ¬ ((∀ tokens ipv6Prefix, (∀ t ∈ tokens, ',' ∉ t) → (∀ t ∈ tokens, (canonicalizeAddr t).isSome) →
        EdgeDetermines ⟨.hops tokens.length, ipv6Prefix⟩ tokens) ∨
      ∀ (text peer : List Char) (before rest : List (List Char)) (first : List Char),
        text.splitOn ',' = before ++ first :: rest → (∀ t ∈ first :: rest,
          (canonicalizeAddr t).isSome) →
          edgeClientIp ⟨none, some text⟩ ⟨.hops (rest.length + 1 : ℕ), none⟩ true
            = clientIp ⟨peer, some (.one text)⟩ ⟨.hops (rest.length + 1 : ℕ), none⟩) := by
  rintro (hdet | hnode)
  · have h := hdet [['1', '.', '2', '.', '3', '.', '4']] none (by decide) (by decide +kernel)
      ['6', '.', '6', '.', '6', '.', '6', ',', '1', '.', '2', '.', '3', '.', '4']
      ['7', '.', '7', '.', '7', '.', '7', ',', '1', '.', '2', '.', '3', '.', '4']
      ⟨[['6', '.', '6', '.', '6', '.', '6']], by decide +kernel⟩
      ⟨[['7', '.', '7', '.', '7', '.', '7']], by decide +kernel⟩
    revert h
    decide +kernel
  · have h := hnode ['6', '.', '6', '.', '6', '.', '6', ',', '1', '.', '2', '.', '3', '.', '4']
      ['1', '0', '.', '0', '.', '0', '.', '1'] [['6', '.', '6', '.', '6', '.', '6']] []
      ['1', '.', '2', '.', '3', '.', '4'] (by decide +kernel) (by decide +kernel)
    revert h
    decide +kernel

end ThrottleKit.Security
