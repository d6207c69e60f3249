import CanonicalUri.Proofs.HashBang
import CanonicalUri.Uri.Edit

/-!
# What a URI can become

`Uri.Reachable` holds of a new URI, of a URI that was read, and of what an edit makes of such a URI,
whether the edit succeeds or fails. Looking up the addresses is an edit, too, and each look-up may
get another answer; a copy of a URI is the same URI.

`Uri.IsConsistent` says what they have in common: the implied port is that of the scheme, the host
has exactly one of three shapes (`Host.Shape`), there is nothing to leave out in the paths, and no
option is empty. Credentials, port, parameters and anchor can be anything.

* `Edit.change_apply`: whatever an edit does is one of a few changes (`Uri.Change`), failed edits
  included.
* `Host.existsUnique_shape_of_read` and `Uri.isConsistent_update`: a host that is read has one
  shape, and a URI is consistent once a text was read into it.
* `Uri.IsConsistent.change`: a change keeps a URI consistent.
* `Uri.Reachable.of_change`: what every change keeps holds of whatever a URI can become; so that is
  consistent (`Uri.Reachable.isConsistent`).
-/

namespace CanonicalUri

namespace Uri

/-! ### What an edit does -/

/-- What can happen to a URI in one edit: nothing, or one part is replaced by one that was checked,
together with what is derived from it. Nothing is asked of the parts that are replaced by
`plain`. -/
inductive Change (reg : Registry) (resolver : Resolver) (u : Uri) : Uri → Prop
  | unchanged : Change reg resolver u u
  | assign {mode : ParseMode} {t : Text} {p : Parsed} (h : Parsed.ofText reg mode t = .ok p) :
      Change reg resolver u (u.update t p)
  | scheme {t : Text} (hne : t ≠ []) :
      Change reg resolver u { u with scheme := t, schemePort := reg.defaultPort t }
  | host {t : Text} {host : Host} (h : Host.read reg false t = .ok host) :
      Change reg resolver u { u with host := host, addresses := none }
  | port (port : UInt16) : Change reg resolver u (u.setPort port)
  | path {t : Text} {p : Path} (h : Path.resolve (Path.segments t) = .ok p) :
      Change reg resolver u { u with path := p }
  | setOption (name : Text) {value : Text} (hne : value ≠ []) :
      Change reg resolver u { u with options := u.options.insert name value }
  | unsetOption (name : Text) : Change reg resolver u (u.unsetOption name)
  | addresses {found : List Ip.Endpoint} (hnone : u.addresses = none)
      (h : u.lookUp resolver = .ok found) :
      Change reg resolver u { u with addresses := some found }
  | plain (userName password anchor : Text) (query : Query) (lastError : String) :
      Change reg resolver u
        { u with userName, password, anchor, query, lastError }

end Uri

open Uri in
/-- Every edit is one of the changes. -/
theorem Edit.change_apply (reg : Registry) (resolver : Resolver) (u : Uri) (e : Edit) :
    Change reg resolver u (apply reg resolver u e).2 := by
  cases e with
  | assign mode t =>
    simp only [apply, Uri.assign]
    split
    · rename_i p hp
      exact .assign hp
    · exact .plain _ _ _ _ _
  | clearError => exact .plain _ _ _ _ _
  | setScheme t =>
    rw [apply, run_setScheme]
    split_ifs with hne
    · exact .unchanged
    · exact .scheme hne
  | setUserName t => exact .plain _ _ _ _ _
  | setPassword t => exact .plain _ _ _ _ _
  | setDomain t =>
    rw [apply, run_setDomain]
    rcases hread : Host.read reg false t with e | host
    · exact .unchanged
    · exact .host hread
  | setPort port => exact .port port
  | setPortText t =>
    rw [apply, run_setPortText]
    rcases Decimal.readPort? t with _ | port
    · exact .unchanged
    · exact .port port
  | setPath t =>
    rw [apply, run_moveTo]
    rcases hp : Path.resolve (Path.segments (u.pathFrom t)) with e | p
    · exact .unchanged
    · exact .path hp
  | setAnchor t =>
    rw [apply, run_setAnchor]
    split_ifs
    · exact .unchanged
    · exact .plain _ _ _ _ _
  | mergeQuery t =>
    rw [apply, run_mergeQuery]
    rcases u.query.merge t with e | q
    · exact .unchanged
    · exact .plain _ _ _ _ _
  | setParameter name value =>
    simp only [apply, Uri.setParameter]
    split_ifs
    · exact .unchanged
    · exact .plain _ _ _ _ _
    · exact .plain _ _ _ _ _
  | insertParameter name value => exact .plain _ _ _ _ _
  | unsetParameter name => exact .plain _ _ _ _ _
  | clearParameters => exact .plain _ _ _ _ _
  | setOption name value =>
    simp only [apply, Uri.setOption]
    split_ifs with hvalue
    · exact .unsetOption name
    · exact .setOption name hvalue
  | unsetOption name => exact .unsetOption name
  | resolve =>
    simp only [apply, Uri.resolve]
    rcases hknown : u.addresses with _ | known
    · rcases hfound : u.lookUp resolver with e | found
      · exact .unchanged
      · exact .addresses hknown hfound
    · exact .unchanged

/-! ### The shapes of a host -/

namespace Host

/-- What a host can look like, seen from its parts. -/
inductive Shape where
  | absent
  | address
  | name
  deriving DecidableEq, Repr

/-- Whether the parts of a host have a shape: all of them are empty, or the domain alone holds the
text of an address, or the domain and the sub-domains are not empty and the top-level domain begins
with its dot. -/
def HasShape (h : Host) : Shape → Prop
  | .absent => h.subDomains = [] ∧ h.domain = [] ∧ h.topLevel = []
  | .address => h.subDomains = [] ∧ (∃ a : Ip.Address, h.domain = a.toHost) ∧ h.topLevel = []
  | .name => [] ∉ h.subDomains ∧ h.domain ≠ [] ∧ h.topLevel.head? = some '.'

/-- The shapes exclude each other. -/
theorem HasShape.unique {h : Host} {s s' : Shape} (hs : h.HasShape s) (hs' : h.HasShape s') :
    s = s' := by
  have haddress : ∀ {a : Ip.Address}, h.domain = a.toHost → h.domain ≠ [] := fun ha =>
    ha ▸ Ip.Address.toHost_ne_nil _
  have hname : h.topLevel.head? = some '.' → h.topLevel ≠ [] := fun htop hnil => by
    rw [hnil] at htop
    cases htop
  cases s <;> cases s' <;> simp only [HasShape] at hs hs' <;> grind

theorem existsUnique_shape_absent : ∃! s, absent.HasShape s :=
  ⟨.absent, ⟨rfl, rfl, rfl⟩, fun _ hs => hs.unique ⟨rfl, rfl, rfl⟩⟩

/-- A host that is read has one of the shapes. -/
theorem existsUnique_shape_of_read {reg : Registry} {acceptIp : Bool} {raw : Text} {h : Host}
    (hread : read reg acceptIp raw = .ok h) : ∃! s, h.HasShape s := by
  obtain ⟨s, hs⟩ : ∃ s, h.HasShape s := by
    obtain ⟨before, topLevel, htop, hname⟩ | ⟨_, _, a, _, rfl⟩ := read_eq_ok_iff.mp hread
    · obtain ⟨_, _, rest, rfl⟩ := of_topLevel? htop
      obtain ⟨subDomains, domain, top, rfl, hne, hlabels, htop⟩ := readName_eq_ok_iff.mp hname
      have hnil : [] ∉ subDomains ++ [domain] := mt (Percent.nil_mem_iff_of_decode hlabels).mp hne
      rw [List.mem_append, List.mem_singleton, not_or] at hnil
      exact ⟨.name, hnil.1, Ne.symm hnil.2, Percent.head?_of_decode_cons (by decide) htop⟩
    · exact ⟨.address, rfl, ⟨a, rfl⟩, rfl⟩
  exact ⟨s, hs, fun _ hs' => hs'.unique hs⟩

end Host

/-! ### Consistent URIs -/

namespace Uri

/-- What holds of every URI that can come about. -/
structure IsConsistent (reg : Registry) (u : Uri) : Prop where
  scheme_ne_nil : u.scheme ≠ []
  schemePort : u.schemePort = reg.defaultPort u.scheme
  host : ∃! s, u.host.HasShape s
  path : ∀ s ∈ u.path, s ≠ [] ∧ s ≠ Path.here ∧ s ≠ Path.parent
  hashBangPath : ∀ s ∈ u.hashBangPath, (s ≠ [] ∧ s ≠ Path.here ∧ s ≠ Path.parent) ∧ '/' ∉ s
  options : ∀ o ∈ u.options.entries, o.2 ≠ []

theorem isConsistent_new (reg : Registry) : IsConsistent reg {} where
  scheme_ne_nil := by decide
  schemePort := rfl
  host := Host.existsUnique_shape_absent
  path := by simp
  hashBangPath := by simp
  options := by simp [Dict.empty]

/-- A URI is consistent once a text was read into it. -/
theorem isConsistent_update {reg : Registry} {mode : ParseMode} {t : Text} {p : Parsed}
    (h : Parsed.ofText reg mode t = .ok p) (u : Uri) : (u.update t p).IsConsistent reg := by
  have hparse : parse reg mode t = .ok (update {} t p) := parse_eq_ok_iff.mpr ⟨p, h, rfl⟩
  have hregular := isRegular_of_parse hparse
  obtain ⟨_, hfragment⟩ := exists_fragment_of_parse hparse
  refine ⟨hregular.scheme_ne_nil, hregular.schemePort, ?_, hregular.path, ?_, ?_⟩
  · obtain ⟨habsent, _⟩ | ⟨raw, hread⟩ := host_of_parse hparse
    · have hhost : (u.update t p).host = .absent := habsent
      exact hhost ▸ Host.existsUnique_shape_absent
    · exact Host.existsUnique_shape_of_read hread
  · exact fun s => hfragment.mem
  · simp [update, Dict.empty]

/-- A change keeps a URI consistent. -/
theorem IsConsistent.change {reg : Registry} {resolver : Resolver} {u v : Uri}
    (h : u.IsConsistent reg) (hchange : Change reg resolver u v) : v.IsConsistent reg := by
  cases hchange with
  | unchanged => exact h
  | assign hp => exact isConsistent_update hp u
  | scheme hne => exact { h with scheme_ne_nil := hne, schemePort := rfl }
  | host hread => exact { h with host := Host.existsUnique_shape_of_read hread }
  | port port => exact { h with }
  | @path t p hp =>
    -- a path is split after its text was put together, as a hash-bang path is
    exact { h with path := fun s hs => (Path.mem_of_resolve_segments hp hs).1 }
  | setOption name hne =>
    refine { h with options := fun o ho => ?_ }
    obtain rfl | ho := Dict.mem_insertEntry ho
    · exact hne
    · exact h.options o ho
  | unsetOption name =>
    exact { h with options := fun o ho => h.options o (List.mem_filter.mp ho).1 }
  | addresses => exact { h with }
  | plain => exact { h with }

/-! ### Sequences of edits -/

/-- A new URI, one that was read, and what an edit makes of these, again and again. -/
inductive Reachable (reg : Registry) : Uri → Prop
  | new : Reachable reg {}
  | parse {mode : ParseMode} {t : Text} {u : Uri} (h : Uri.parse reg mode t = .ok u) :
      Reachable reg u
  | edit {u : Uri} (h : Reachable reg u) (resolver : Resolver) (e : Edit) :
      Reachable reg (Edit.apply reg resolver u e).2

/-- A list of edits leads from one reachable URI to another one. -/
theorem Reachable.run {reg : Registry} {u : Uri} (h : Reachable reg u) (resolver : Resolver)
    (edits : List Edit) : Reachable reg (Edit.run reg resolver u edits) := by
  induction edits generalizing u with
  | nil => exact h
  | cons e edits ih => exact ih (h.edit resolver e)

/-- What holds of a new URI and is kept by every change holds of whatever a URI can become. -/
theorem Reachable.of_change {reg : Registry} {motive : Uri → Prop} (hnew : motive {})
    (hchange : ∀ {u v : Uri} (resolver : Resolver), motive u → Change reg resolver u v → motive v)
    {u : Uri} (h : Reachable reg u) : motive u := by
  induction h with
  | new => exact hnew
  | parse h =>
    -- what is read on its own is read into a new URI
    obtain ⟨p, hp, rfl⟩ := parse_eq_ok_iff.mp h
    exact hchange (fun _ _ => .ok []) hnew (.assign hp)
  | edit _ resolver e ih => exact hchange resolver ih (Edit.change_apply reg resolver _ e)

/-- Whatever a URI can become is consistent. -/
theorem Reachable.isConsistent {reg : Registry} {u : Uri} (h : Reachable reg u) :
    u.IsConsistent reg :=
  h.of_change (isConsistent_new reg) fun _ => IsConsistent.change

/-- Edits of all kinds, some of them failing, on a URI that was read. -/
theorem isConsistent_edited :
    let reg : Registry := { Registry.standard with services := some "dict 2628/tcp".toList }
    let edits : List Edit :=
      [.setScheme "dict".toList, .setScheme [], .resolve, .setDomain "www.a.com".toList,
        .setDomain ".com".toList, .setPortText "65536".toList, .setPath "../..//%2F".toList,
        .setPath "../..".toList, .setOption "k".toList "v".toList, .setOption "k".toList [],
        .assign {} "http://[::1]/".toList]
    ∃ u, parse reg ⟨true, true⟩ "http://[::1]/a/b#!/c%2Fd".toList = .ok u ∧
      Reachable reg u ∧ (Edit.run reg (fun _ _ => .ok []) u edits).IsConsistent reg := by
  intro reg edits
  have h : parse reg ⟨true, true⟩ "http://[::1]/a/b#!/c%2Fd".toList
      = .ok { input := "http://[::1]/a/b#!/c%2Fd".toList
              host := .ip (.v6 ⟨[0, 0, 0, 0, 0, 0, 0, 1], rfl⟩)
              path := ["a".toList, "b".toList]
              hashBangPath := ["c".toList, "d".toList] } := by
    decide +kernel
  have hreachable : Reachable reg _ := .parse h
  exact ⟨_, h, hreachable, (hreachable.run (fun _ _ => .ok []) edits).isConsistent⟩

end Uri

end CanonicalUri
