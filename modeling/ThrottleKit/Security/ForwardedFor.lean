import ThrottleKit.Security.Ipv6Key

/-!
# What an X-Forwarded-For header can change

Whoever sends a request may put any tokens in front of those that trusted proxies append. The tokens
at the end determine the client, whatever comes before them, under exact conditions: a hop count
asks for addresses, since tokens that are none are dropped and do not count; an allowlist asks for
an address that is not trusted, among the tokens or at the socket peer.

## Main definitions

* `Determines` — the last tokens determine the client

## Main results

* `hops_determines_iff` — with a hop count
* `allowlist_determines_iff` — with an allowlist
* `clientIp_determined_iff` — both
-/

namespace ThrottleKit.Security

/-- All headers that end in these tokens lead to the same client. -/
def Determines (remoteAddr : List Char) (config : TrustProxyConfig)
    (tokens : List (List Char)) : Prop :=
  ∀ header header' : Header, tokens <:+ header.tokens → tokens <:+ header'.tokens →
    clientIp ⟨remoteAddr, some header⟩ config = clientIp ⟨remoteAddr, some header'⟩ config

variable {remoteAddr : List Char} {tokens before : List (List Char)}

/-- The chain of a header with more tokens in front. -/
theorem chain_of_tokens {header : Header} (h : header.tokens = before ++ tokens) :
    ClientIpInput.chain ⟨remoteAddr, some header⟩
      = before.filterMap canonicalizeAddr ++ (tokens.filterMap canonicalizeAddr
        ++ [ClientIpInput.remote ⟨remoteAddr, some header⟩]) := by
  rw [ClientIpInput.chain, parseXff, h, List.filterMap_append, List.append_assoc]

/-- The peer does not depend on the header. -/
theorem remote_eq (xff : Option Header) :
    ClientIpInput.remote ⟨remoteAddr, xff⟩ = ClientIpInput.remote ⟨remoteAddr, none⟩ := rfl

/-- Tokens without commas, in front of others, are the tokens of a header. -/
theorem exists_header (before : List (List Char)) (hcomma : ∀ t ∈ tokens, ',' ∉ t)
    (hbefore : ∀ t ∈ before, ',' ∉ t) (hne : before ≠ []) :
    ∃ header : Header, header.tokens = before ++ tokens := by
  refine ⟨.one ([','].intercalate (before ++ tokens)), ?_⟩
  refine List.splitOn_intercalate ',' (fun t ht => ?_) (List.append_ne_nil_of_left_ne_nil hne _)
  rcases List.mem_append.mp ht with ht | ht
  · exact hbefore t ht
  · exact hcomma t ht

/-- An address in dotted decimal is kept by canonicalising and by aggregating. -/
theorem dotted_kept {q : List Char} {o : List ℕ} (h : Dotted q o) (bits : ℕ) :
    canonicalizeAddr q = some q ∧ aggregate q bits = q ∧ ',' ∉ q := by
  refine ⟨h.canonicalize, ?_, h.not_mem rfl (by decide)⟩
  rw [aggregate, parseIpv4_eq_some_iff.mpr h]
  rfl

/-- Tokens do not determine the client if each IPv4 address can be it. -/
theorem not_determines {config : TrustProxyConfig}
    (h : ∀ q o, Dotted q o → ∃ header : Header, tokens <:+ header.tokens ∧
      clientIp ⟨remoteAddr, some header⟩ config = q) : ¬ Determines remoteAddr config tokens := by
  intro hdet
  obtain ⟨header, hsuffix, hclient⟩ := h (joinOctets [1, 1, 1, 1]) _ ⟨rfl, by decide, rfl⟩
  obtain ⟨header', hsuffix', hclient'⟩ := h (joinOctets [2, 2, 2, 2]) _ ⟨rfl, by decide, rfl⟩
  have heq := hdet header header' hsuffix hsuffix'
  rw [hclient, hclient'] at heq
  revert heq
  decide +kernel

/-! ### Hop counts -/

/-- With as many addresses as hops at the end, the client is the first of them. -/
theorem clientIp_hops {header : Header} {n : ℕ} (h : header.tokens = before ++ tokens)
    (ipv6Prefix : Option ℚ) :
    clientIp ⟨remoteAddr, some header⟩ ⟨.hops n, ipv6Prefix⟩
      = aggregate ((before.filterMap canonicalizeAddr ++ (tokens.filterMap canonicalizeAddr
          ++ [ClientIpInput.remote ⟨remoteAddr, none⟩])).getD
            ((before.filterMap canonicalizeAddr).length
              + (tokens.filterMap canonicalizeAddr).length - n)
            (ClientIpInput.remote ⟨remoteAddr, none⟩))
          (TrustProxyConfig.prefixLength ⟨.hops n, ipv6Prefix⟩) := by
  rw [clientIp]
  dsimp only
  rw [chain_of_tokens h, remote_eq, Int.floor_natCast, max_eq_right (Int.natCast_nonneg n),
    Int.toNat_natCast, List.length_append, List.length_append, List.length_singleton,
    ← Nat.add_assoc, Nat.add_sub_cancel]

/-- **A hop count: the last tokens determine the client just where all of them are addresses.** -/
theorem hops_determines_iff (hcomma : ∀ t ∈ tokens, ',' ∉ t) (ipv6Prefix : Option ℚ) :
    Determines remoteAddr ⟨.hops tokens.length, ipv6Prefix⟩ tokens ↔
      ∀ t ∈ tokens, (canonicalizeAddr t).isSome := by
  constructor
  · intro hdet
    by_contra hnot
    refine not_determines (fun q o hq => ?_) hdet
    obtain ⟨hcanon, hagg, hq⟩ := dotted_kept hq
      (TrustProxyConfig.prefixLength ⟨.hops tokens.length, ipv6Prefix⟩)
    have hfew : (tokens.filterMap canonicalizeAddr).length < tokens.length := by
      refine lt_of_le_of_ne (List.length_filterMap_le _ _) fun heq => hnot ?_
      exact List.filterMap_length_eq_length.mp heq
    have hpos : tokens.length ≠ 0 := by omega
    obtain ⟨header, hheader⟩ := exists_header (List.replicate tokens.length q) hcomma
      (fun t ht => by rwa [List.eq_of_mem_replicate ht]) (by simpa using hpos)
    have hfront : (List.replicate tokens.length q).filterMap canonicalizeAddr
        = List.replicate tokens.length q := by
      rw [List.filterMap_replicate, hcanon]
    refine ⟨header, hheader ▸ List.suffix_append _ _, ?_⟩
    rw [clientIp_hops hheader, hfront, List.length_replicate, Nat.add_sub_cancel_left,
      List.getD_append _ _ _ _ (by rwa [List.length_replicate]), List.getD_replicate _ hfew, hagg]
  · rintro hall header header' ⟨before, hheader⟩ ⟨before', hheader'⟩
    have hlen : (tokens.filterMap canonicalizeAddr).length = tokens.length :=
      List.filterMap_length_eq_length.mpr hall
    rw [clientIp_hops hheader.symm, clientIp_hops hheader'.symm, hlen, Nat.add_sub_cancel,
      Nat.add_sub_cancel, List.getD_append_right _ _ _ _ le_rfl,
      List.getD_append_right _ _ _ _ le_rfl, Nat.sub_self, Nat.sub_self]

/-! ### Allowlists -/

theorem clientIp_allowlist {header : Header} (h : header.tokens = before ++ tokens)
    (entries : List (List Char)) (ipv6Prefix : Option ℚ) :
    clientIp ⟨remoteAddr, some header⟩ ⟨.allowlist entries, ipv6Prefix⟩
      = aggregate ((((tokens.filterMap canonicalizeAddr
          ++ [ClientIpInput.remote ⟨remoteAddr, none⟩]).reverse.find?
            fun addr => !isTrusted entries addr).or
          ((before.filterMap canonicalizeAddr).reverse.find?
            fun addr => !isTrusted entries addr)).getD
        ((before.filterMap canonicalizeAddr ++ (tokens.filterMap canonicalizeAddr
          ++ [ClientIpInput.remote ⟨remoteAddr, none⟩])).headD
            (ClientIpInput.remote ⟨remoteAddr, none⟩)))
        (TrustProxyConfig.prefixLength ⟨.allowlist entries, ipv6Prefix⟩) := by
  rw [clientIp]
  dsimp only
  rw [chain_of_tokens h, remote_eq, List.reverse_append, List.find?_append]

/-- **An allowlist: the last tokens determine the client just where the peer or one of them is an
address that is not trusted.** -/
theorem allowlist_determines_iff (hcomma : ∀ t ∈ tokens, ',' ∉ t) (entries : List (List Char))
    (ipv6Prefix : Option ℚ) :
    Determines remoteAddr ⟨.allowlist entries, ipv6Prefix⟩ tokens ↔
      isTrusted entries (ClientIpInput.remote ⟨remoteAddr, none⟩) = false ∨
        ∃ t ∈ tokens, ∃ a, canonicalizeAddr t = some a ∧ isTrusted entries a = false := by
  have hstop : (isTrusted entries (ClientIpInput.remote ⟨remoteAddr, none⟩) = false ∨
      ∃ t ∈ tokens, ∃ a, canonicalizeAddr t = some a ∧ isTrusted entries a = false) ↔
      ((tokens.filterMap canonicalizeAddr
        ++ [ClientIpInput.remote ⟨remoteAddr, none⟩]).reverse.find?
          fun addr => !isTrusted entries addr).isSome := by
    rw [List.find?_isSome]
    simp only [List.mem_reverse, List.mem_append, List.mem_singleton, List.mem_filterMap,
      Bool.not_eq_true']
    constructor
    · rintro (h | ⟨t, ht, a, ha, h⟩)
      · exact ⟨_, .inr rfl, h⟩
      · exact ⟨a, .inl ⟨t, ht, ha⟩, h⟩
    · rintro ⟨a, ⟨t, ht, ha⟩ | rfl, h⟩
      · exact .inr ⟨t, ht, a, ha, h⟩
      · exact .inl h
  rw [hstop]
  constructor
  · intro hdet
    by_contra hnone
    refine not_determines (fun q o hq => ?_) hdet
    obtain ⟨hcanon, hagg, hq⟩ := dotted_kept hq
      (TrustProxyConfig.prefixLength ⟨.allowlist entries, ipv6Prefix⟩)
    obtain ⟨header, hheader⟩ := exists_header [q] hcomma
      (fun t ht => by rwa [List.mem_singleton.mp ht]) (List.cons_ne_nil _ _)
    have hfront : [q].filterMap canonicalizeAddr = [q] := by
      rw [List.filterMap_cons, hcanon]
      rfl
    refine ⟨header, hheader ▸ List.suffix_append _ _, ?_⟩
    rw [clientIp_allowlist hheader, Option.not_isSome_iff_eq_none.mp hnone, Option.none_or, hfront,
      List.reverse_singleton, List.find?_singleton]
    split
    · exact hagg
    · exact hagg
  · rintro hsome header header' ⟨before, hheader⟩ ⟨before', hheader'⟩
    obtain ⟨a, ha⟩ := Option.isSome_iff_exists.mp hsome
    rw [clientIp_allowlist hheader.symm, clientIp_allowlist hheader'.symm, ha]
    rfl

/-- **What a forged header cannot change.** With a hop count, headers that agree on as many of their
last tokens lead to the same client, whatever comes before these, just where all these tokens are
addresses; with an allowlist, just where the peer or one of the tokens is an address that is not
trusted. A token that is no address is dropped, and determines nothing. -/
theorem clientIp_determined_iff (remoteAddr : List Char) (ipv6Prefix : Option ℚ)
    {tokens : List (List Char)} (hcomma : ∀ t ∈ tokens, ',' ∉ t) :
    (Determines remoteAddr ⟨.hops tokens.length, ipv6Prefix⟩ tokens ↔
      ∀ t ∈ tokens, (canonicalizeAddr t).isSome) ∧
    ∀ entries, Determines remoteAddr ⟨.allowlist entries, ipv6Prefix⟩ tokens ↔
      isTrusted entries (ClientIpInput.remote ⟨remoteAddr, none⟩) = false ∨
        ∃ t ∈ tokens, ∃ a, canonicalizeAddr t = some a ∧ isTrusted entries a = false :=
  ⟨hops_determines_iff hcomma ipv6Prefix,
    fun entries => allowlist_determines_iff hcomma entries ipv6Prefix⟩

/-- One hop, and one address at the end. -/
theorem clientIp_determined_iff_one_hop :
    Determines ['1', '0', '.', '0', '.', '0', '.', '1'] ⟨.hops 1, none⟩
        [['8', '.', '8', '.', '8', '.', '8']] ↔
      ∀ t ∈ [['8', '.', '8', '.', '8', '.', '8']], (canonicalizeAddr t).isSome := by
  have h := (clientIp_determined_iff ['1', '0', '.', '0', '.', '0', '.', '1'] none
    (show ∀ t ∈ [['8', '.', '8', '.', '8', '.', '8']], ',' ∉ t by decide)).1
  exact_mod_cast h

/-- A token that is no address lets a forged one through: after a hop count of one, and behind a
trusted proxy. -/
theorem not_determined :
    (¬ ∀ remoteAddr tokens ipv6Prefix, (∀ t ∈ tokens, ',' ∉ t) →
      Determines remoteAddr ⟨.hops tokens.length, ipv6Prefix⟩ tokens) ∧
    ¬ ∀ remoteAddr entries ipv6Prefix u right,
      (∀ a, canonicalizeAddr u = some a → isTrusted entries a = false) → ',' ∉ u →
        (∀ t ∈ right, ',' ∉ t) →
          Determines remoteAddr ⟨.allowlist entries, ipv6Prefix⟩ (u :: right) := by
  constructor
  · intro h
    have hdet := h ['1', '0', '.', '0', '.', '0', '.', '1'] [['j', 'u', 'n', 'k']] none (by decide)
      (.one ['6', '.', '6', '.', '6', '.', '6', ',', 'j', 'u', 'n', 'k'])
      (.one ['7', '.', '7', '.', '7', '.', '7', ',', 'j', 'u', 'n', 'k'])
      ⟨[['6', '.', '6', '.', '6', '.', '6']], rfl⟩ ⟨[['7', '.', '7', '.', '7', '.', '7']], rfl⟩
    revert hdet
    decide +kernel
  · intro h
    have hdet := h ['1', '0', '.', '0', '.', '0', '.', '1']
      [['1', '0', '.', '0', '.', '0', '.', '0', '/', '8']] none ['j', 'u', 'n', 'k'] []
      (fun a ha => absurd ha (by
        rw [show canonicalizeAddr ['j', 'u', 'n', 'k'] = none by decide +kernel]
        simp)) (by decide) (by simp)
      (.one ['6', '.', '6', '.', '6', '.', '6', ',', 'j', 'u', 'n', 'k'])
      (.one ['7', '.', '7', '.', '7', '.', '7', ',', 'j', 'u', 'n', 'k'])
      ⟨[['6', '.', '6', '.', '6', '.', '6']], rfl⟩ ⟨[['7', '.', '7', '.', '7', '.', '7']], rfl⟩
    revert hdet
    decide +kernel

end ThrottleKit.Security
