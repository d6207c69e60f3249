import CanonicalUri.Proofs.RoundTrip
import CanonicalUri.Uri.Json
import CanonicalUri.Uri.Order

/-!
# URIs through JSON

In JSON a URI is its canonical text, which leaves the hash-bang path out. So a URI that was read
comes back from its JSON text with the same canonical text and without a hash-bang path, if its host
is found again in that text (`Uri.ofJson_toJson`); it is the same URI exactly when it had none. The
way in which strings are written does not matter.
-/

namespace CanonicalUri

namespace Uri

/-- The JSON text of a URI is read as its canonical text is. -/
theorem ofJson_toJson_eq_ok_iff (json : JsonCodec) {reg : Registry} {u v : Uri} :
    ofJson reg (u.toJson json) json = .ok v ↔ parse reg {} u.toText = .ok v := by
  rw [ofJson, toJson, json.unquote?_quote]
  rcases h : parse reg {} u.toText with e | w
  · simp [h]
  · simp [h]

/-- What was read is read again from its canonical text, but for the hash-bang path, when its host
is found again there. -/
theorem exists_parse_toText {reg : Registry} (hreg : reg.IsSuffixList) {mode : ParseMode} {t : Text}
    {u : Uri} (h : parse reg mode t = .ok u) (hfound : u.host.IsFoundAgain reg mode.acceptIp) :
    ∃ v, parse reg mode u.toText = .ok v ∧ v.toText = u.toText ∧ v.hashBangPath = [] := by
  have hu := isRegular_of_parse h
  obtain ⟨habsent, huser, hmode⟩ | ⟨raw, hread⟩ := host_of_parse h
  · exact ⟨_, parse_toText_of_absent hu habsent huser hmode, toText_readBack rfl rfl, rfl⟩
  · obtain ⟨h', hagain⟩ := (Host.exists_read_toText_iff hreg hread).mpr hfound
    have habsent : h'.isAbsent = u.host.isAbsent := by
      rw [Host.isAbsent_of_read hread, Host.isAbsent_of_read hagain]
    exact ⟨_, (parse_toText_iff hu (Host.isAbsent_of_read hread)).mpr ⟨h', hagain, rfl⟩,
      toText_readBack (Host.toText_of_read_toText hreg hread hagain) habsent, rfl⟩

/-- A URI that was read comes back from its JSON text without its hash-bang path, and as the same
URI exactly when it had none. -/
theorem ofJson_toJson (json : JsonCodec) {reg : Registry} (hreg : reg.IsSuffixList) {t : Text}
    {u : Uri} (h : parse reg {} t = .ok u) (hfound : u.host.IsFoundAgain reg false) :
    ∃ v, ofJson reg (u.toJson json) json = .ok v ∧ v.toText = u.toText ∧ v.hashBangPath = [] ∧
      (same u v = true ↔ u.hashBangPath = []) := by
  obtain ⟨v, hv, htext, hbang⟩ := exists_parse_toText hreg h hfound
  refine ⟨v, (ofJson_toJson_eq_ok_iff json).mpr hv, htext, hbang, ?_⟩
  rw [same, decide_eq_true_iff, key, key, Prod.mk.injEq, htext, hbang]
  exact and_iff_right rfl

/-- The quotes of JSON and an escaped quote in a segment. -/
theorem ofJson_toJson_quote :
    let u : Uri :=
      { input := "http://me:pw@a.com//x%22/?k=v#!/y".toList
        userName := "me".toList
        password := "pw".toList
        host := .name [] "a".toList ".com".toList
        path := ["x\"".toList]
        query := Dict.empty.insert "k".toList "v".toList
        hashBangPath := ["y".toList] }
    ∃ v, ofJson Registry.standard u.toJson = .ok v ∧ v.toText = u.toText ∧ v.hashBangPath = [] ∧
      (same u v = true ↔ u.hashBangPath = []) :=
  ofJson_toJson JsonString.codec (Registry.isSuffixList_withServices none)
    (show parse Registry.standard {} "http://me:pw@a.com//x%22/?k=v#!/y".toList = .ok _ by
      decide +kernel)
    (Host.isFoundAgain_of_read
      (show Host.read Registry.standard false "a.com".toList = .ok _ by decide +kernel)
      (List.all_eq_true.mp (by decide)))

/-- A URI with a hash-bang path does not come back as the same one. -/
theorem not_same_ofJson_hashBang :
    ∃ u v, parse Registry.standard {} "http://a.com/#!/x".toList = .ok u ∧
      ofJson Registry.standard u.toJson = .ok v ∧ same u v = false := by
  refine ⟨{ input := "http://a.com/#!/x".toList
            host := .name [] "a".toList ".com".toList
            hashBangPath := ["x".toList] },
    { input := "http://a.com/".toList, host := .name [] "a".toList ".com".toList }, ?_, ?_, ?_⟩
  · decide +kernel
  · decide +kernel
  · decide +kernel

end Uri

end CanonicalUri
