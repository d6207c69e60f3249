import CanonicalUri.Proofs.RoundTrip
import CanonicalUri.Uri.Edit

/-!
# The website of a URI

A website is written with scheme, host and port alone. `Uri.bare` is the URI that keeps nothing
else, and `Uri.websiteText_eq_iff` compares its canonical text with `Uri.websiteText`: they are the
same exactly for an address and for a name in which nothing has to be escaped. A website is written
with the decoded name, so an escaped slash ends its host early.
-/

namespace CanonicalUri

namespace Uri

/-- A URI without credentials, path, parameters and anchor. -/
def bare (u : Uri) : Uri :=
  { u with userName := [], password := [], path := [], query := .empty, anchor := [] }

/-- Emptying these parts one by one leaves the bare URI. -/
theorem run_bare (reg : Registry) (resolver : Resolver) (u : Uri) :
    Edit.run reg resolver u [.setUserName [], .setPassword [], .setPath ['/'], .clearParameters,
      .setAnchor []] = u.bare := by
  have hpath : ∀ v : Uri, (moveTo ['/']).run v = .ok () { v with path := [] } := by
    intro v
    have hfrom : v.pathFrom ['/'] = ['/'] := if_pos (.inl rfl)
    rw [run_moveTo, hfrom, show Path.segments ['/'] = [] from rfl, Path.resolve_nil]
  simp [Edit.run, Edit.apply, Edit.answer, setUserName, setPassword, hpath, clearParameters,
    run_setAnchor, bare]

/-- The canonical text of a bare URI is a website whose host is written as in any URI. -/
theorem toText_bare {u : Uri} (hhost : u.host.isAbsent = false) :
    u.bare.toText = u.scheme ++ ("://".toList ++ (u.host.toText ++ u.portText ++ ['/'])) := by
  have hauthority : u.bare.authorityText none = u.host.toText ++ u.portText := by
    have hport : (if u.bare.host.isAbsent then [] else u.bare.portText) = u.portText :=
      if_neg (by simpa [bare] using hhost)
    rw [authorityText, hport]
    rfl
  rw [toText, raw, RawUri.toText, Option.getD_some, hauthority]
  rfl

theorem websiteText_true (u : Uri) : u.websiteText true =
    u.scheme ++ ("://".toList ++ (u.host.fullDomain ++ u.portText ++ ['/'])) := by
  rw [websiteText, if_pos rfl]
  rfl

/-- A host is written as its name exactly when it is an address or no character of the name has to
be escaped. -/
theorem toText_eq_fullDomain_iff (h : Host) : h.toText = h.fullDomain ↔
    (∃ a, h = .ip a) ∨ ∀ c ∈ h.fullDomain, Percent.isUnreserved c = true := by
  obtain _ | a | ⟨subDomains, domain, top⟩ := h
  · simp [Host.toText, Host.fullDomain, Host.subDomainsText, Host.subDomains, Host.domain,
      Host.topLevel]
  · exact iff_of_true (Host.fullDomain_ip a).symm (.inl ⟨a, rfl⟩)
  · refine Percent.encode_eq_self_iff.trans ?_
    simp

/-- A website is the canonical text of the bare URI exactly when its host is an address or no
character of its name has to be escaped. -/
theorem websiteText_eq_iff {u : Uri} (hhost : u.host.isAbsent = false) :
    u.websiteText true = u.bare.toText ↔
      (∃ a, u.host = .ip a) ∨ ∀ c ∈ u.host.fullDomain, Percent.isUnreserved c = true := by
  rw [← toText_eq_fullDomain_iff, websiteText_true, toText_bare hhost]
  simp only [List.append_left_inj, List.append_right_inj]
  exact eq_comm

/-- The dashes and dots of a name need no escape. -/
theorem websiteText_eq_iff_dashed :
    let u : Uri := { host := .name ["a-b".toList] "shop".toList ".co.uk".toList, port := 8080 }
    u.websiteText true = u.bare.toText ↔
      (∃ a, u.host = .ip a) ∨ ∀ c ∈ u.host.fullDomain, Percent.isUnreserved c = true :=
  websiteText_eq_iff (by decide)

/-- A slash in a name does: the website ends its host there. -/
theorem websiteText_ne_escapedSlash :
    ∃ u, parse Registry.standard {} "http://a%2Fb.com/".toList = .ok u ∧
      u.websiteText true = "http://a/b.com/".toList ∧
      u.bare.toText = "http://a%2Fb.com/".toList := by
  refine ⟨{ input := "http://a%2Fb.com/".toList, host := .name [] "a/b".toList ".com".toList },
    ?_, ?_, ?_⟩
  · decide +kernel
  · decide +kernel
  · decide +kernel

end Uri

end CanonicalUri
