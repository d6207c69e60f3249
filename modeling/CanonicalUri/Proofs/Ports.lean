import CanonicalUri.Proofs.Numerals
import CanonicalUri.Proofs.Phases
import CanonicalUri.Uri.Edit

/-!
# The text of a port

A port is named behind the host in the text of a URI, or given to a setter. Either way its text has
to be a numeral of a number that is a port. The reader of URIs tells three faults apart where the
setter has one.

* `RawAuthority.PortFault`: what can be wrong with the text of a port, and what is said about it.
* `RawAuthority.readPort_eq_ok_iff_numeral` and `RawAuthority.readPort_eq_error_iff`: a text is read
  as the port of which it is a numeral, and refused for its fault otherwise.
* `Uri.port_agrees_setPortText`: so the two accept the same texts, for the same ports.
-/

namespace CanonicalUri

namespace RawAuthority

open Decimal

/-- What is wrong with the text of a port. -/
inductive PortFault : Text → ParseError → Prop
  | empty : PortFault [] .emptyPort
  | noDigit {t : Text} {c : Char} (hc : c ∈ t) (hdigit : c.isDigit = false) :
      PortFault t (.invalidPort t)
  | outOfRange {t : Text} {n : Nat} (h : Numeral t n) (hn : 65535 < n) :
      PortFault t (.portOutOfRange t)

theorem readPort_eq_ok_iff_numeral {t : Text} {port : UInt16} :
    readPort t = .ok port ↔ Numeral t port.toNat := by
  rw [readPort_eq_ok_iff, portForm_iff_numeral]

theorem readPort_eq_error_iff {t : Text} {e : ParseError} :
    readPort t = .error e ↔ PortFault t e := by
  rw [readPort]
  constructor
  · intro h
    split_ifs at h with hne hd
    · cases h
      exact hne ▸ .empty
    · have hnum := numeral_ofDigitChars hne (List.all_eq_true.mp hd)
      split at h
      · cases h
      · rename_i hnone
        cases h
        exact .outOfRange hnum ((readPort?_eq_none_iff hnum).mp hnone)
    · cases h
      obtain ⟨c, hc, hdigit⟩ := List.all_eq_false.mp (Bool.eq_false_iff.mpr hd)
      exact .noDigit hc (Bool.eq_false_iff.mpr hdigit)
  · rintro (_ | ⟨hc, hdigit⟩ | ⟨h, hn⟩)
    · rfl
    · have hd : isDigits t = false := List.all_eq_false.mpr ⟨_, hc, by simp [hdigit]⟩
      rw [if_neg (List.ne_nil_of_mem hc), hd]
      rfl
    · obtain ⟨hne, hdigits⟩ := exists_numeral_iff.mp ⟨_, h⟩
      have hd : isDigits t = true := List.all_eq_true.mpr hdigits
      rw [if_neg hne, if_pos hd, (readPort?_eq_none_iff h).mpr hn]

/-- A text that is no numeral of a port has a fault. -/
theorem exists_portFault {t : Text} (h : ∀ port : UInt16, ¬Numeral t port.toNat) :
    ∃ e, PortFault t e := by
  rcases hread : readPort t with e | port
  · exact ⟨e, readPort_eq_error_iff.mp hread⟩
  · exact absurd (readPort_eq_ok_iff_numeral.mp hread) (h port)

/-- Behind a host without brackets, the text of a port is all that is behind the first colon. -/
theorem cutPort_append_colon {host t : Text} (hhost : ':' ∉ host ∧ '[' ∉ host) (ht : ':' ∉ t) :
    cutPort (host ++ ':' :: t) = (fun port => (host, some port)) <$> readPort t := by
  have hinside : ∀ {s : Text}, ':' ∉ s → ColonsInside s := fun hs x y hxy =>
    absurd (by rw [hxy]; simp) hs
  rw [cutPort, colonFields_append_colon (hinside hhost.1) (isClosed_of_brackets (.inl hhost.2)),
    colonFields_of_colonsInside (hinside ht)]
  change (readPort t >>= fun port => pure (host, some port)) = _
  rw [bind_pure_comp]

end RawAuthority

/-- An authority of a host and the text of a port is refused for that text alone. -/
theorem Authority.read_append_colon {reg : Registry} {acceptIp : Bool} {host t : Text} {h : Host}
    (hread : Host.read reg acceptIp host = .ok h) (hne : host ≠ [])
    (hhost : '@' ∉ host ∧ ':' ∉ host ∧ '[' ∉ host) (ht : '@' ∉ t ∧ ':' ∉ t) :
    read reg acceptIp (host ++ ':' :: t) =
      (fun port => ⟨[], [], h, some port⟩) <$> RawAuthority.readPort t := by
  have hat : '@' ∉ host ++ ':' :: t := by simp [hhost.1, ht.1]
  have huser := RawAuthority.cutUser_eq_ok_iff.mpr (.anonymous hat)
  have hraw : ∀ port, ofRaw reg acceptIp ⟨[], [], host, some port⟩ = .ok ⟨[], [], h, some port⟩ :=
    fun _ => ofRaw_eq_ok_iff.mpr ⟨Percent.decode_nil, Percent.decode_nil, Iff.rfl, hread, rfl⟩
  rw [read, RawAuthority.cut, huser]
  simp only [bind, Except.bind, RawAuthority.cutPort_append_colon hhost.2 ht.2]
  rcases RawAuthority.readPort t with e | port
  · rfl
  · simp only [Functor.map, Except.map, if_neg hne]
    exact hraw port

namespace Uri

open RawAuthority Decimal

/-- A URI of a host and the text of a port is refused for that text alone. -/
theorem parse_append_colon {reg : Registry} {mode : ParseMode} {host t text : Text} {h : Host}
    (hread : Host.read reg mode.acceptIp host = .ok h) (hne : host ≠ [])
    (hhost : '/' ∉ host ∧ '@' ∉ host ∧ ':' ∉ host ∧ '[' ∉ host)
    (ht : '/' ∉ t ∧ '@' ∉ t ∧ ':' ∉ t)
    (htext : text = "http".toList ++ "://".toList ++ (host ++ ':' :: t) ++ ['/']) :
    parse reg mode text =
      match readPort t with
      | .ok port => .ok { input := text, host := h, port := port }
      | .error e => .error ⟨text, e⟩ := by
  have hscheme : "http".toList ≠ [] ∧ ':' ∉ "http".toList := by decide
  have hslash : '/' ∉ host ++ ':' :: t := by simp [hhost.1, ht.1]
  have hpresent : ¬(mode.acceptPath = true ∧ host ++ ':' :: t = []) := by simp
  have hpath : '?' ∉ ([] : Text) ∧ '#' ∉ ([] : Text) := by simp
  have hparsed := Parsed.ofText_front reg mode hscheme hslash (tailForm_path hpath)
  rw [← htext, Parsed.frontAuthority_slash, if_neg hpresent, Parsed.readFront, readAuthority,
    Authority.read_append_colon hread hne hhost.2 ht.2, Path.read_nil] at hparsed
  rw [parse, hparsed]
  cases readPort t <;> rfl

/-- The setter of ports takes the numerals of ports. -/
theorem apply_setPortText_eq_done_iff {reg : Registry} {resolver : Resolver} {u : Uri} {t : Text}
    {port : UInt16} :
    Edit.apply reg resolver u (.setPortText t) = (.done, u.setPort port) ↔
      Numeral t port.toNat := by
  rw [← readPort?_eq_some_iff, Edit.apply, run_setPortText]
  rcases readPort? t with _ | q
  · simp [Edit.answer]
  · refine ⟨fun h => congrArg (fun r : Outcome × Uri => some r.2.port) h, fun h => ?_⟩
    cases h
    rfl

/-- Any other text leaves the URI as it is. -/
theorem apply_setPortText_of_forall_not {reg : Registry} {resolver : Resolver} {u : Uri} {t : Text}
    (h : ∀ port : UInt16, ¬Numeral t port.toNat) :
    Edit.apply reg resolver u (.setPortText t) = (.failed (.invalidPort t), u) := by
  have hnone : readPort? t = none :=
    Option.eq_none_iff_forall_ne_some.mpr fun port => mt readPort?_eq_some_iff.mp (h port)
  rw [Edit.apply, run_setPortText, hnone]
  rfl

/-- Behind a host, and given to a setter, the same texts are accepted as a port: the numerals of the
numbers up to 65535, and the port is that number. For any other text the reader tells what is wrong
with it, and the setter leaves the URI as it is. -/
theorem port_agrees_setPortText {reg : Registry}
    (hcom : reg.suffix? "h.com".toList = some "com".toList) (mode : ParseMode)
    (resolver : Resolver) (u : Uri) {t : Text} (ht : '/' ∉ t ∧ '@' ∉ t ∧ ':' ∉ t) :
    let text := "http://h.com:".toList ++ t ++ ['/']
    let set := Edit.apply reg resolver u (.setPortText t)
    (∀ port, (∃ v, parse reg mode text = .ok v ∧ v.port = port) ↔ Numeral t port.toNat) ∧
      (∀ port, set = (.done, u.setPort port) ↔ Numeral t port.toNat) ∧
      (∀ e, parse reg mode text = .error ⟨text, e⟩ ↔ PortFault t e) ∧
      ((∀ port : UInt16, ¬Numeral t port.toNat) →
        (∃ e, PortFault t e) ∧ set = (.failed (.invalidPort t), u)) := by
  intro text set
  have hhost : Host.read reg mode.acceptIp "h.com".toList
      = .ok (.name [] "h".toList ".com".toList) := by
    have hlower : "h.com".toList.map Char.toLower = "h.com".toList := by decide
    have htop : Host.topLevel? reg "h.com".toList = some ("h".toList, ".com".toList) := by
      rw [Host.topLevel?, if_neg (by decide), hlower, hcom]
      rfl
    have hname : Host.readName "h.com".toList "h".toList ".com".toList
        = .ok (.name [] "h".toList ".com".toList) := by
      decide +kernel
    rw [Host.read, htop]
    exact hname
  have hparse : parse reg mode text = _ :=
    parse_append_colon hhost (by decide) (by decide) ht (by simp [text])
  refine ⟨fun port => ?_, fun port => apply_setPortText_eq_done_iff, fun e => ?_,
    fun hnone => ⟨exists_portFault hnone, apply_setPortText_of_forall_not hnone⟩⟩
  · rw [hparse, ← readPort_eq_ok_iff_numeral]
    rcases readPort t with e | q <;> simp
  · rw [hparse, ← readPort_eq_error_iff]
    rcases readPort t with e' | q <;> simp

/-- The largest port behind zeros, the next number, and a digit that is not an ASCII one. -/
theorem port_agrees_setPortText_atLimit :
    let reg := Registry.standard
    let resolver : Resolver := fun _ _ => .ok []
    let u : Uri := { host := .ip (.v4 ⟨127, 0, 0, 1⟩), addresses := some [] }
    let text := fun t => "http://h.com:".toList ++ t ++ ['/']
    let limit := "000065535".toList
    let above := "65536".toList
    let foreign := "8٠".toList
    reg.suffix? "h.com".toList = some "com".toList ∧
      (∃ v, parse reg {} (text limit) = .ok v ∧ v.port = 65535) ∧
      Edit.apply reg resolver u (.setPortText limit) = (.done, u.setPort 65535) ∧
      parse reg {} (text above) = .error ⟨text above, .portOutOfRange above⟩ ∧
      Edit.apply reg resolver u (.setPortText above) = (.failed (.invalidPort above), u) ∧
      parse reg {} (text foreign) = .error ⟨text foreign, .invalidPort foreign⟩ := by
  intro reg resolver u text limit above foreign
  have hcom : reg.suffix? "h.com".toList = some "com".toList := by decide +kernel
  have hlimit : Numeral limit (65535 : UInt16).toNat := ⟨4, by decide⟩
  have habove : Numeral above 65536 := ⟨0, by decide⟩
  have hnone : ∀ port : UInt16, ¬Numeral above port.toNat := fun port hport =>
    absurd port.toNat_lt (by rw [hport.unique habove]; decide)
  obtain ⟨hread, hset, _, _⟩ := port_agrees_setPortText hcom {} resolver u
    (show '/' ∉ limit ∧ '@' ∉ limit ∧ ':' ∉ limit by decide)
  obtain ⟨_, _, hfault, hfailed⟩ := port_agrees_setPortText hcom {} resolver u
    (show '/' ∉ above ∧ '@' ∉ above ∧ ':' ∉ above by decide)
  obtain ⟨_, _, hforeign, _⟩ := port_agrees_setPortText hcom {} resolver u
    (show '/' ∉ foreign ∧ '@' ∉ foreign ∧ ':' ∉ foreign by decide)
  have hdigit : PortFault foreign (.invalidPort foreign) :=
    .noDigit (c := '٠') (by decide) (by decide)
  exact ⟨hcom, (hread 65535).mpr hlimit, (hset 65535).mpr hlimit,
    (hfault _).mpr (.outOfRange habove (by decide)), (hfailed hnone).2, (hforeign _).mpr hdigit⟩

end Uri

end CanonicalUri
