import CanonicalUri.Proofs.Reachable

/-!
# The addresses that are kept

The addresses that were found for a URI are kept with it, so every operation that changes what they
were found for has to drop them.

* `Uri.lookUp_congr`: what is found depends on the host and the port alone.
* `Uri.IsFresh`: what is kept is what a look-up for the host and the port of now finds. Every change
  leaves a URI fresh (`Uri.IsFresh.change`), so whatever it can become is
  (`Uri.Reachable.isFresh`).
* `Uri.lookUp_of_isIp`: the text of an address, with the brackets taken off, is read as that
  address, so looking it up cannot fail and does not need the resolver.
* `Uri.Reachable.resolve_of_isIp`: so the one address of a URI whose host is an IP address is that
  address with the current port, whether it is kept or not.
-/

namespace CanonicalUri

namespace Uri

/-! ### What is kept -/

/-- Addresses are those of a host at a port; nothing else of a URI is looked at. -/
theorem lookUp_congr {u v : Uri} (hhost : u.host = v.host) (hport : u.port = v.port)
    (resolver : Resolver) : u.lookUp resolver = v.lookUp resolver := by
  simp only [lookUp, find, hhost, hport]

/-- The addresses that are kept are what a look-up for the host and the port of now finds. -/
def IsFresh (u : Uri) : Prop :=
  ∀ known ∈ u.addresses, ∃ resolver, u.lookUp resolver = .ok known

theorem IsFresh.of_none {u : Uri} (h : u.addresses = none) : u.IsFresh := by
  rintro known hknown
  rw [h] at hknown
  cases hknown

theorem IsFresh.congr {u v : Uri} (h : u.IsFresh) (hhost : u.host = v.host)
    (hport : u.port = v.port) (haddresses : u.addresses = v.addresses) : v.IsFresh := by
  intro known hknown
  obtain ⟨resolver, hresolver⟩ := h known (haddresses ▸ hknown)
  exact ⟨resolver, lookUp_congr hhost hport resolver ▸ hresolver⟩

/-- A change leaves what is kept fresh: it touches neither host nor port, or drops it. -/
theorem IsFresh.change {reg : Registry} {resolver : Resolver} {u v : Uri} (h : u.IsFresh)
    (hchange : Change reg resolver u v) : v.IsFresh := by
  cases hchange with
  | unchanged => exact h
  | assign => exact .of_none rfl
  | scheme => exact h.congr rfl rfl rfl
  | host => exact .of_none rfl
  | port => exact .of_none rfl
  | path => exact h.congr rfl rfl rfl
  | setOption => exact h.congr rfl rfl rfl
  | unsetOption => exact h.congr rfl rfl rfl
  | addresses _ hfound =>
    rintro _ ⟨⟩
    exact ⟨resolver, hfound⟩
  | plain => exact h.congr rfl rfl rfl

/-- Whatever a URI can become, what is kept with it is fresh. -/
theorem Reachable.isFresh {reg : Registry} {u : Uri} (h : Reachable reg u) : u.IsFresh :=
  h.of_change (.of_none rfl) fun _ => IsFresh.change

end Uri

/-! ### IP addresses -/

/-- A host with one of the shapes that is an IP address has the shape of one. -/
theorem Host.hasShape_address_of_isIp {h : Host} (hshape : ∃! s, h.HasShape s)
    (hip : h.isIp = true) : h.HasShape .address := by
  obtain ⟨htop, hdomain⟩ := of_decide_eq_true hip
  obtain ⟨s, hs, _⟩ := hshape
  cases s with
  | absent => exact absurd hs.2.1 hdomain
  | address => exact hs
  | name =>
    rw [HasShape, htop] at hs
    cases hs.2.2

/-- The whole name of an address is its text. -/
theorem Host.HasShape.fullDomain_eq {h : Host} (hs : h.HasShape .address) :
    h.fullDomain = h.domain := by
  obtain ⟨hsub, _, htop⟩ := hs
  simp [fullDomain, subDomainsText, hsub, htop]

theorem Ip.Endpoint.sort_singleton (e : Endpoint) : sort [e] = [e] := by
  rw [sort, List.mergeSort_singleton]
  rfl

namespace Uri

/-- The text of an address for a host is read as that address; no resolver is asked. -/
theorem lookUp_of_isIp {u : Uri} (hip : u.host.isIp = true) {a : Ip.Address}
    (ha : u.host.fullDomain = a.toHost) (resolver : Resolver) :
    u.lookUp resolver = .ok [⟨a, u.port⟩] := by
  have hpresent : u.host.isAbsent = false := decide_eq_false (of_decide_eq_true hip).2
  have hfind : u.find resolver = .ok [⟨a, u.port⟩] := by
    simp [find, hpresent, hip, ha, Ip.Address.parse?_bare_toHost]
  rw [lookUp, hfind]
  exact congrArg Except.ok (Ip.Endpoint.sort_singleton _)

/-- Whatever a URI can become: when its host is an IP address, the text of the host denotes that
address, with its brackets or without them, and the address with the port of now is the only one
that is found. Nothing but the addresses that are kept can be changed by that. -/
theorem Reachable.resolve_of_isIp {reg : Registry} {u : Uri} (h : Reachable reg u)
    (hip : u.host.isIp = true) :
    ∃ a, Ip.Address.ofHost? u.host.domain = some a ∧
      Ip.Address.parse? (Ip.bare u.host.fullDomain) = some a ∧
      ∀ resolver, u.resolve resolver
        = (.ok [⟨a, u.port⟩], { u with addresses := some [⟨a, u.port⟩] }) := by
  have hshape := Host.hasShape_address_of_isIp h.isConsistent.host hip
  obtain ⟨a, ha⟩ := hshape.2.1
  have hfull : u.host.fullDomain = a.toHost := hshape.fullDomain_eq.trans ha
  have hlookUp := lookUp_of_isIp hip hfull
  refine ⟨a, by rw [ha, Ip.Address.ofHost?_toHost], by rw [hfull, Ip.Address.parse?_bare_toHost],
    fun resolver => ?_⟩
  rw [resolve]
  rcases hknown : u.addresses with _ | known
  · rw [hlookUp]
  · -- what is kept was found by some look-up, and every look-up finds the same
    obtain ⟨_, hfound⟩ := h.isFresh known hknown
    obtain rfl := Except.ok.inj ((hlookUp _).symm.trans hfound)
    refine Prod.ext rfl ?_
    change u = { u with addresses := some [⟨a, u.port⟩] }
    rw [← hknown]

/-- Addresses that were found for another host and for another port are not kept, while failed edits
and a change of scheme keep what was found. -/
theorem resolve_of_isIp_edited :
    let reg := Registry.standard
    let edits : List Edit :=
      [.assign ⟨false, true⟩ "http://[::1]:8080/".toList, .resolve,
        .assign ⟨false, true⟩ "ftp://127.0.0.1/".toList, .resolve, .setPortText "65536".toList,
        .setDomain "[::2]".toList, .setPort 443, .resolve, .setScheme "https".toList]
    ∃ u, Edit.run reg (fun _ _ => .error "no name service") {} edits = u ∧ Reachable reg u ∧
      u.host.isIp = true ∧ u.port = 443 ∧ ∀ resolver, u.resolve resolver
        = (.ok [⟨.v4 ⟨127, 0, 0, 1⟩, u.port⟩],
            { u with addresses := some [⟨.v4 ⟨127, 0, 0, 1⟩, u.port⟩] }) := by
  intro reg edits
  obtain ⟨u, hu⟩ : ∃ u, Edit.run reg (fun _ _ => .error "no name service") {} edits = u := ⟨_, rfl⟩
  have hreachable : Reachable reg u := hu ▸ Reachable.new.run _ edits
  have hhost : u.host = .ip (.v4 ⟨127, 0, 0, 1⟩) := by
    rw [← hu]
    decide +kernel
  have hport : u.port = 443 := by
    rw [← hu]
    decide +kernel
  have hip : u.host.isIp = true := by
    rw [hhost]
    decide +kernel
  obtain ⟨a, ha, _, hresolve⟩ := hreachable.resolve_of_isIp hip
  have hread : Ip.Address.ofHost? u.host.domain = some (.v4 ⟨127, 0, 0, 1⟩) := by
    rw [hhost]
    exact Ip.Address.ofHost?_toHost (.v4 ⟨127, 0, 0, 1⟩)
  obtain rfl := Option.some.inj (hread.symm.trans ha)
  exact ⟨u, hu, hreachable, hip, hport, hresolve⟩

end Uri

end CanonicalUri
