import CanonicalUri.Proofs.Grammar
import CanonicalUri.Uri.Edit

/-!
# Reading a text into a URI

`Uri.assign` reads a text into a URI that has a past. What comes of it is what `Uri.parse` reads
from the same text, and nothing of the past is left but two things: the message of the last text
that was refused, and the port where there is no other one.

* `NamesPort`: a port is written in a text. It is about the text alone, which need not be accepted.
* `Parsed.port_eq_none_iff`: there is no port in what was read exactly when the text names none and
  the scheme implies none.
* `Uri.assign_forgets`: reading a text into two URIs gives the same answer. An accepted one replaces
  all parts and keeps the port only where there is none; a refused one leaves its message and
  nothing else.
-/

namespace CanonicalUri

/-- A port is written in the authority of a text. -/
def NamesPort (t : Text) : Prop :=
  ∃ raw, HasAuthority t raw ∧ raw.port ≠ none

/-- A text that is read names a port exactly when there is one in the authority that is read. -/
private theorem namesPort_iff_of_readAuthority {reg : Registry} {mode : ParseMode} {t : Text}
    {r : RawUri} {a : Authority} (hcut : RawUri.cut mode.acceptPath t = .ok r)
    (ha : readAuthority reg mode.acceptIp r.authority = .ok a) : NamesPort t ↔ a.port ≠ none := by
  have hauthority : ∀ raw, HasAuthority t raw ↔
      ∃ s, r.authority = some s ∧ RawAuthority.cut s = .ok raw := by
    intro raw
    rw [hasAuthority_iff mode.acceptPath, hcut]
    simp
  rw [NamesPort]
  simp only [hauthority]
  rcases hr : r.authority with _ | s
  · rw [hr] at ha
    cases ha
    simp [Authority.absent]
  · rw [hr] at ha
    obtain ⟨raw, hraw, ha⟩ := bind_eq_ok_iff.mp ha
    obtain ⟨_, _, _, _, hport⟩ := Authority.ofRaw_eq_ok_iff.mp ha
    simp [hraw, hport]

/-- There is no port in what was read when the text names none and the scheme implies none. -/
theorem Parsed.port_eq_none_iff {reg : Registry} {mode : ParseMode} {t : Text} {p : Parsed}
    (h : ofText reg mode t = .ok p) :
    p.port = none ↔ p.schemePort = none ∧ ¬NamesPort t := by
  simp only [ofText, bind_eq_ok_iff, mapError_eq_ok_iff, ofRaw_eq_ok_iff] at h
  obtain ⟨r, hcut, a, _, _, _, _, ha, _, _, _, rfl⟩ := h
  rw [namesPort_iff_of_readAuthority hcut ha, not_not]
  cases a.port <;> simp

namespace Uri

/-- What was read, put into a URI: everything is new but the last message, and the port is the one
of the URI exactly where the text names none and the scheme implies none. -/
theorem update_of_ofText {reg : Registry} {mode : ParseMode} {t : Text} {p : Parsed}
    (h : Parsed.ofText reg mode t = .ok p) (u v : Uri) :
    ∃ port, update u t p = { update v t p with port := port, lastError := u.lastError } ∧
      (p.schemePort = none ∧ ¬NamesPort t → port = u.port) ∧
      (p.schemePort ≠ none ∨ NamesPort t → port = (update v t p).port) := by
  refine ⟨p.port.getD u.port, update_eq_of_port u v t p, fun hnone => ?_, fun hsome => ?_⟩
  · rw [(Parsed.port_eq_none_iff h).mpr hnone, Option.getD_none]
  · have hport : p.port ≠ none := fun hnone => by
      have := (Parsed.port_eq_none_iff h).mp hnone
      tauto
    obtain ⟨port, hport⟩ := Option.ne_none_iff_exists'.mp hport
    rw [update, hport, Option.getD_some, Option.getD_some]

/-- What becomes of a URI when a text is read into it does not depend on what it was, but for the
last message and for the port of a text that names none under a scheme that implies none. -/
theorem assign_forgets (reg : Registry) (mode : ParseMode) (t : Text) :
    (∀ u v : Uri, (u.assign reg mode t).1 = (v.assign reg mode t).1) ∧
    (∀ u : Uri, (u.assign reg mode t).1 = true →
      ∃ w port, parse reg mode t = .ok w ∧ w.options = .empty ∧ w.addresses = none ∧
        (u.assign reg mode t).2 = { w with port := port, lastError := u.lastError } ∧
        (w.schemePort = none ∧ ¬NamesPort t → port = u.port) ∧
        (w.schemePort ≠ none ∨ NamesPort t → port = w.port)) ∧
    (∀ u : Uri, (u.assign reg mode t).1 = false →
      ∃ r, parse reg mode t = .error r ∧
        (u.assign reg mode t).2 = { u with lastError := r.cause.message }) := by
  simp only [assign, parse]
  rcases h : Parsed.ofText reg mode t with e | p
  · refine ⟨fun _ _ => rfl, fun _ haccepted => ?_, fun _ _ => ⟨_, rfl, rfl⟩⟩
    cases haccepted
  · refine ⟨fun _ _ => rfl, fun u _ => ?_, fun _ hrefused => ?_⟩
    · obtain ⟨port, hupdate, hkept, hnew⟩ := update_of_ofText h u {}
      exact ⟨_, port, rfl, rfl, rfl, hupdate, hkept, hnew⟩
    · cases hrefused

/-- A scheme that implies no port, in front of a host without one: the port stays, and so does the
message, while the options go. -/
theorem assign_forgets_unknownScheme :
    let t := "dict://a.com/".toList
    let u : Uri :=
      { scheme := "ftp".toList
        port := 2121
        options := Dict.empty.insert "k".toList "v".toList
        lastError := "the URI cannot be an empty string." }
    ∃ w, parse Registry.standard {} t = .ok w ∧ w.port = 80 ∧
      (u.assign Registry.standard {} t).2
        = { w with port := 2121, lastError := "the URI cannot be an empty string." } := by
  intro t u
  obtain ⟨p, hp, hport⟩ : ∃ p, Parsed.ofText Registry.standard {} t = .ok p ∧ p.port = none :=
    ⟨{ scheme := "dict".toList
       schemePort := none
       userName := []
       password := []
       host := .name [] "a".toList ".com".toList
       port := none
       path := []
       hashBangPath := []
       query := .empty
       anchor := [] }, by decide +kernel, rfl⟩
  have hparse : parse Registry.standard {} t = .ok (update {} t p) := by rw [parse, hp]
  obtain ⟨w, port, hw, _, _, hassign, hkept, _⟩ :=
    (assign_forgets Registry.standard {} t).2.1 u (by rw [assign, hp])
  obtain rfl := Except.ok.inj (hparse.symm.trans hw)
  obtain rfl := hkept ((Parsed.port_eq_none_iff hp).mp hport)
  exact ⟨_, hw, by rw [update, hport, Option.getD_none], hassign⟩

end Uri

end CanonicalUri
