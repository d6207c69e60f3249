import CanonicalUri.Authority
import CanonicalUri.Proofs.HostText
import CanonicalUri.Proofs.Numerals

/-!
# The form of an authority

What a written authority may look like, without saying how it is scanned.

* `CredentialsForm` and `UserForm`: at most one at sign, and at most one colon in front of it.
  Credentials without a colon are all password.
* `ServerForm`: a host, in which all colons stand inside brackets, and perhaps a colon and a port
  behind it. A port is a number below 65536 in any non-empty run of ASCII digits.
* `Authority.Form` puts these together and says what the parts are read as.

`Authority.read_eq_ok_iff` says that the scanner accepts these forms and nothing else, and that it
returns the parts of the form. The one scan that keeps a state is the search for colons outside
brackets; `insideAfter` is that state, and `insideAfter_eq_false_iff` says what it means for the
text that was passed. The scanner takes a colon behind an unclosed bracket for a part of the host,
which the form leaves open: no such host is read (`isClosed_of_read`).
-/

namespace CanonicalUri

namespace RawAuthority

/-! ### The forms -/

/-- User name and password; credentials without a colon are a password. -/
inductive CredentialsForm : Text → Text × Text → Prop
  | password {w : Text} (hw : ':' ∉ w) : CredentialsForm w ([], w)
  | pair {u w : Text} (hu : ':' ∉ u) (hw : ':' ∉ w) : CredentialsForm (u ++ ':' :: w) (u, w)

/-- The credentials, if there are any, and the text of host and port. -/
inductive UserForm : Text → (Text × Text) × Text → Prop
  | anonymous {s : Text} (hs : '@' ∉ s) : UserForm s (([], []), s)
  | credentials {c s : Text} {uw : Text × Text} (hc : '@' ∉ c) (hs : '@' ∉ s)
      (huw : CredentialsForm c uw) : UserForm (c ++ '@' :: s) (uw, s)

/-- Every bracket that is opened is closed behind it. -/
def IsClosed (t : Text) : Prop :=
  ∀ x y, t = x ++ '[' :: y → ']' ∈ y

/-- Every colon stands behind a bracket that is still open there. -/
def ColonsInside (t : Text) : Prop :=
  ∀ x y, t = x ++ ':' :: y → ¬IsClosed x

/-- The digits of a port. -/
structure PortForm (d : Text) (p : UInt16) : Prop where
  ne_nil : d ≠ []
  isDigit : ∀ c ∈ d, c.isDigit = true
  value : Nat.ofDigitChars 10 d 0 = p.toNat

/-- A host and perhaps a port, with a colon between them. -/
inductive ServerForm : Text → Text × Option UInt16 → Prop
  | host {h : Text} (hh : ColonsInside h) : ServerForm h (h, none)
  | port {h d : Text} {p : UInt16} (hh : ColonsInside h) (hd : PortForm d p) :
      ServerForm (h ++ ':' :: d) (h, some p)

/-! ### User name and password -/

theorem cutCredentials_eq_ok_iff {t : Text} {uw : Text × Text} :
    cutCredentials t = .ok uw ↔ CredentialsForm t uw := by
  rw [cutCredentials]
  refine ⟨fun h => ?_, ?_⟩
  · split at h
    · rename_i w hw
      obtain ⟨_, hjoin, hsep⟩ := Text.splitOn_eq_iff.mp hw
      cases h
      rw [Text.join_singleton] at hjoin
      exact hjoin ▸ .password (hsep w (by simp))
    · rename_i u w huw
      obtain ⟨_, hjoin, hsep⟩ := Text.splitOn_eq_iff.mp huw
      cases h
      rw [Text.join_cons_cons, Text.join_singleton] at hjoin
      exact hjoin ▸ .pair (hsep u (by simp)) (hsep w (by simp))
    · cases h
  · intro h
    obtain hw | ⟨hu, hw⟩ := h
    · rw [List.splitOn_eq_singleton hw]
    · rw [List.splitOn_append_cons_self_of_not_mem hu, List.splitOn_eq_singleton hw]

theorem cutUser_eq_ok_iff {t : Text} {r : (Text × Text) × Text} :
    cutUser t = .ok r ↔ UserForm t r := by
  rw [cutUser]
  refine ⟨fun h => ?_, ?_⟩
  · split at h
    · rename_i s hs
      obtain ⟨_, hjoin, hsep⟩ := Text.splitOn_eq_iff.mp hs
      cases h
      rw [Text.join_singleton] at hjoin
      exact hjoin ▸ .anonymous (hsep s (by simp))
    · rename_i c s hcs
      obtain ⟨_, hjoin, hsep⟩ := Text.splitOn_eq_iff.mp hcs
      simp only [bind_eq_ok_iff, pure_eq_ok_iff, cutCredentials_eq_ok_iff] at h
      obtain ⟨uw, huw, rfl⟩ := h
      rw [Text.join_cons_cons, Text.join_singleton] at hjoin
      exact hjoin ▸ .credentials (hsep c (by simp)) (hsep s (by simp)) huw
    · cases h
  · intro h
    obtain hs | ⟨hc, hs, huw⟩ := h
    · rw [List.splitOn_eq_singleton hs]
    · rw [List.splitOn_append_cons_self_of_not_mem hc, List.splitOn_eq_singleton hs]
      simp only [bind_eq_ok_iff, pure_eq_ok_iff, cutCredentials_eq_ok_iff]
      exact ⟨_, huw, rfl⟩

/-! ### Colons outside brackets -/

/-- Whether a bracket is open after a text, given whether one was open before it. -/
def insideAfter (inside : Bool) (t : Text) : Bool :=
  t.foldl (fun inside c => if c = '[' then true else if c = ']' then false else inside) inside

private theorem isClosed_cons {c : Char} {t : Text} :
    IsClosed (c :: t) ↔ (c = '[' → ']' ∈ t) ∧ IsClosed t := by
  refine ⟨fun h => ?_, ?_⟩
  · exact ⟨fun hc => h [] t (by rw [hc]; rfl), fun x y ht => h (c :: x) y (by rw [ht]; rfl)⟩
  · rintro ⟨hc, ht⟩ x y heq
    cases x with
    | nil =>
      obtain ⟨rfl, rfl⟩ := List.cons.inj heq
      exact hc rfl
    | cons d x => exact ht x y (List.cons.inj heq).2

/-- No bracket is open after a text in which every bracket is closed, including the one that was
open before it. -/
theorem insideAfter_eq_false_iff {inside : Bool} {t : Text} :
    insideAfter inside t = false ↔ (inside = true → ']' ∈ t) ∧ IsClosed t := by
  induction t generalizing inside with
  | nil =>
    have hnil : IsClosed [] := fun x y h => by cases x <;> cases h
    cases inside <;> simp [insideAfter, hnil]
  | cons c t ih =>
    have hstep : insideAfter inside (c :: t)
        = insideAfter (if c = '[' then true else if c = ']' then false else inside) t := rfl
    rw [hstep, ih, isClosed_cons, List.mem_cons]
    by_cases hopen : c = '['
    · simp only [hopen, reduceIte, forall_const]
      refine ⟨fun ⟨hmem, ht⟩ => ⟨fun _ => .inr hmem, hmem, ht⟩, fun ⟨_, hmem, ht⟩ => ⟨hmem, ht⟩⟩
    · by_cases hclose : c = ']'
      · simp [hclose]
      · simp [hopen, hclose, Ne.symm hclose]

/-- Every colon of a text stands inside brackets, given whether a bracket is open before it. -/
private def NoOuterColon (inside : Bool) (t : Text) : Prop :=
  ∀ x y, t = x ++ ':' :: y → insideAfter inside x = true

private theorem noOuterColon_iff {t : Text} : NoOuterColon false t ↔ ColonsInside t := by
  refine forall_congr' fun x => forall_congr' fun y => imp_congr_right fun _ => ?_
  rw [← Bool.not_eq_false, insideAfter_eq_false_iff]
  simp

private theorem noOuterColon_cons {inside : Bool} {c : Char} {t : Text} :
    NoOuterColon inside (c :: t) ↔ ¬(c = ':' ∧ inside = false) ∧
      NoOuterColon (insideAfter inside [c]) t := by
  refine ⟨fun h => ?_, ?_⟩
  · refine ⟨fun ⟨hc, hinside⟩ => ?_, fun x y ht => h (c :: x) y (by rw [ht]; rfl)⟩
    have := h [] t (by rw [hc]; rfl)
    rw [insideAfter, List.foldl_nil, hinside] at this
    cases this
  · rintro ⟨hc, ht⟩ x y heq
    cases x with
    | nil =>
      obtain ⟨rfl, rfl⟩ := List.cons.inj heq
      simpa [insideAfter] using hc
    | cons d x =>
      obtain ⟨rfl, rfl⟩ := List.cons.inj heq
      exact ht x y rfl

/-- A text without a colon outside brackets belongs to the first field of what follows it. -/
private theorem colonFields_append {inside : Bool} {s : Text} (h : NoOuterColon inside s)
    (t : Text) : colonFields inside (s ++ t)
      = (colonFields (insideAfter inside s) t).modifyHead (s ++ ·) := by
  induction s generalizing inside with
  | nil =>
    rw [List.nil_append]
    change _ = (colonFields inside t).modifyHead ([] ++ ·)
    cases colonFields inside t <;> rfl
  | cons c s ih =>
    obtain ⟨hc, hs⟩ := noOuterColon_cons.mp h
    rw [List.cons_append, colonFields, if_neg hc]
    have := ih hs
    simp only [insideAfter, List.foldl_cons, List.foldl_nil] at this ⊢
    rw [this]
    cases colonFields _ t <;> rfl

/-- Either no colon stands outside brackets, or there is a first one that does. -/
private theorem noOuterColon_or_exists (inside : Bool) (t : Text) :
    NoOuterColon inside t ∨ ∃ h p, t = h ++ ':' :: p ∧ NoOuterColon inside h ∧
      insideAfter inside h = false := by
  have hnil : ∀ inside, NoOuterColon inside [] := fun inside x y h => by cases x <;> cases h
  induction t generalizing inside with
  | nil => exact .inl (hnil inside)
  | cons c t ih =>
    by_cases hc : c = ':' ∧ inside = false
    · exact .inr ⟨[], t, by rw [hc.1]; rfl, hnil inside, hc.2⟩
    · obtain ht | ⟨h, p, rfl, hh, hinside⟩ := ih (insideAfter inside [c])
      · exact .inl (noOuterColon_cons.mpr ⟨hc, ht⟩)
      · exact .inr ⟨c :: h, p, rfl, noOuterColon_cons.mpr ⟨hc, hh⟩, hinside⟩

theorem colonFields_ne_nil (inside : Bool) (t : Text) : colonFields inside t ≠ [] := by
  cases t with
  | nil => simp [colonFields]
  | cons c t =>
    rw [colonFields]
    split
    · simp
    · rw [ne_eq, List.modifyHead_eq_nil_iff]
      exact colonFields_ne_nil _ t

theorem colonFields_of_colonsInside {t : Text} (h : ColonsInside t) :
    colonFields false t = [t] := by
  have := colonFields_append (noOuterColon_iff.mpr h) []
  simpa [colonFields] using this

theorem colonFields_append_colon {s : Text} (h : ColonsInside s) (hclosed : IsClosed s)
    (t : Text) : colonFields false (s ++ ':' :: t) = s :: colonFields false t := by
  have hinside : insideAfter false s = false := insideAfter_eq_false_iff.mpr ⟨by simp, hclosed⟩
  rw [colonFields_append (noOuterColon_iff.mpr h), hinside, colonFields]
  simp

/-- A text is one field, or it has a first field with a colon behind it. -/
private theorem fields_cases (t : Text) :
    (ColonsInside t ∧ colonFields false t = [t]) ∨
      ∃ s rest, t = s ++ ':' :: rest ∧ ColonsInside s ∧ IsClosed s ∧
        colonFields false t = s :: colonFields false rest := by
  obtain ht | ⟨s, rest, rfl, hs, hclosed⟩ := noOuterColon_or_exists false t
  · rw [noOuterColon_iff] at ht
    exact .inl ⟨ht, colonFields_of_colonsInside ht⟩
  · rw [noOuterColon_iff] at hs
    have hclosed := (insideAfter_eq_false_iff.mp hclosed).2
    exact .inr ⟨s, rest, rfl, hs, hclosed, colonFields_append_colon hs hclosed rest⟩

/-! ### Host and port -/

/-- The digits of a port are a numeral of it. -/
theorem portForm_iff_numeral {d : Text} {p : UInt16} :
    PortForm d p ↔ Decimal.Numeral d p.toNat := by
  constructor
  · rintro ⟨hne, hdigits, hvalue⟩
    exact hvalue ▸ Decimal.numeral_ofDigitChars hne hdigits
  · intro h
    exact ⟨h.ne_nil, fun _ => h.isDigit, h.value⟩

theorem readPort_eq_ok_iff {d : Text} {p : UInt16} : readPort d = .ok p ↔ PortForm d p := by
  rw [portForm_iff_numeral, ← Decimal.readPort?_eq_some_iff, readPort]
  constructor
  · intro h
    split_ifs at h with hne hd
    split at h
    · rename_i port hport
      cases h
      exact hport
    · cases h
  · intro h
    obtain ⟨hne, hdigits, _⟩ := portForm_iff_numeral.mpr (Decimal.readPort?_eq_some_iff.mp h)
    have hd : Decimal.isDigits d = true := List.all_eq_true.mpr hdigits
    rw [if_neg hne, if_pos hd, h]

/-- A port is found behind a host without an open bracket only. -/
theorem cutPort_eq_ok_iff {t host : Text} {port : Option UInt16} :
    cutPort t = .ok (host, port) ↔
      ServerForm t (host, port) ∧ (port = none ∨ IsClosed host) := by
  rw [cutPort]
  refine ⟨fun h => ?_, ?_⟩
  · obtain ⟨ht, hfields⟩ | ⟨s, rest, rfl, hs, hclosed, hfields⟩ := fields_cases t
    · rw [hfields] at h
      cases h
      exact ⟨.host ht, .inl rfl⟩
    · -- there is a port in the second field if that is the last one
      obtain ⟨_, hlast⟩ | ⟨_, more, _, _, _, hmore⟩ := fields_cases rest
      · rw [hfields, hlast] at h
        simp only [bind_eq_ok_iff, pure_eq_ok_iff, readPort_eq_ok_iff] at h
        obtain ⟨p, hp, heq⟩ := h
        cases heq
        exact ⟨.port hs hp, .inr hclosed⟩
      · obtain ⟨x, xs, hxs⟩ := List.exists_cons_of_ne_nil (colonFields_ne_nil false more)
        rw [hfields, hmore, hxs] at h
        cases h
  · rintro ⟨h, hclosed⟩
    obtain hh | @⟨_, d, p, hh, hd⟩ := h
    · rw [colonFields_of_colonsInside hh]
    · have hcolon : ColonsInside d := fun x y hxy =>
        absurd (hd.isDigit ':' (by rw [hxy]; simp)) (by decide)
      have hclosed : IsClosed host := hclosed.resolve_left (Option.some_ne_none p)
      rw [colonFields_append_colon hh hclosed, colonFields_of_colonsInside hcolon]
      simp only [bind_eq_ok_iff, pure_eq_ok_iff, readPort_eq_ok_iff]
      exact ⟨p, hd, rfl⟩

/-- An authority is cut exactly when it has the form of one with a host in it. -/
theorem cut_eq_ok_iff {t : Text} {raw : RawAuthority} :
    cut t = .ok raw ↔ ∃ server, UserForm t ((raw.userName, raw.password), server) ∧
      ServerForm server (raw.host, raw.port) ∧ (raw.port = none ∨ IsClosed raw.host) ∧
      raw.host ≠ [] := by
  rw [cut]
  simp only [bind_eq_ok_iff, cutUser_eq_ok_iff]
  constructor
  · rintro ⟨⟨⟨userName, password⟩, server⟩, huser, ⟨host, port⟩, hserver, h⟩
    obtain ⟨hserver, hclosed⟩ := cutPort_eq_ok_iff.mp hserver
    split at h
    · simp at h
    · rename_i hne
      cases h
      exact ⟨server, huser, hserver, hclosed, hne⟩
  · rintro ⟨server, huser, hserver, hclosed, hne⟩
    refine ⟨_, huser, _, cutPort_eq_ok_iff.mpr ⟨hserver, hclosed⟩, ?_⟩
    rw [if_neg hne]
    rfl

/-- Nothing is open in a text with brackets around it. -/
theorem isClosed_of_brackets {t : Text}
    (h : '[' ∉ t ∨ ∃ s, t = '[' :: s ++ [']'] ∧ '[' ∉ s) : IsClosed t := by
  intro x y ht
  obtain hnone | ⟨s, rfl, hs⟩ := h
  · exact absurd (by rw [ht]; simp) hnone
  · obtain _ | ⟨c, x⟩ := x
    · rw [List.nil_append, List.cons_append] at ht
      rw [← (List.cons.inj ht).2]
      simp
    · rw [List.cons_append, List.cons_append] at ht
      have hmem : '[' ∈ s ++ [']'] := by
        rw [(List.cons.inj ht).2]
        simp
      obtain hmem | hmem := List.mem_append.mp hmem
      · exact absurd hmem hs
      · exact absurd (List.mem_singleton.mp hmem) (by decide)

/-- Nothing is open in a host that is read. -/
theorem isClosed_of_read {reg : Registry} {acceptIp : Bool} {t : Text} {h : Host}
    (hread : Host.read reg acceptIp t = .ok h) : IsClosed t :=
  isClosed_of_brackets (Host.brackets_of_read hread)

end RawAuthority

namespace Authority

/-- The form of an authority with what it says: the credentials can be decoded and come together
or not at all, and the host is read. -/
inductive Form (reg : Registry) (acceptIp : Bool) : Text → Authority → Prop
  | intro {t userName password server host : Text} {a : Authority}
      (huser : RawAuthority.UserForm t ((userName, password), server))
      (hserver : RawAuthority.ServerForm server (host, a.port)) (hne : host ≠ [])
      (hu : Percent.decode userName = .ok a.userName)
      (hp : Percent.decode password = .ok a.password)
      (hpaired : a.userName = [] ↔ a.password = [])
      (hhost : Host.read reg acceptIp host = .ok a.host) : Form reg acceptIp t a

/-- The written parts are decoded one by one; the port is a number already. -/
theorem ofRaw_eq_ok_iff {reg : Registry} {acceptIp : Bool} {raw : RawAuthority} {a : Authority} :
    ofRaw reg acceptIp raw = .ok a ↔ Percent.decode raw.userName = .ok a.userName ∧
      Percent.decode raw.password = .ok a.password ∧ (a.userName = [] ↔ a.password = []) ∧
      Host.read reg acceptIp raw.host = .ok a.host ∧ raw.port = a.port := by
  simp only [ofRaw, bind_eq_ok_iff, Component.decode, mapError_eq_ok_iff]
  constructor
  · rintro ⟨userName, hu, password, hp, h⟩
    split at h
    · simp at h
    · rename_i hpaired
      simp only [bind_eq_ok_iff, mapError_eq_ok_iff, pure_eq_ok_iff] at h
      obtain ⟨host, hhost, rfl⟩ := h
      exact ⟨hu, hp, by simpa using hpaired, hhost, rfl⟩
  · rintro ⟨hu, hp, hpaired, hhost, hport⟩
    refine ⟨_, hu, _, hp, ?_⟩
    rw [if_neg (by simpa using hpaired)]
    simp only [bind_eq_ok_iff, mapError_eq_ok_iff, pure_eq_ok_iff]
    exact ⟨_, hhost, by rw [hport]⟩

/-- An authority is read exactly when it has its form. -/
theorem read_eq_ok_iff {reg : Registry} {acceptIp : Bool} {t : Text} {a : Authority} :
    read reg acceptIp t = .ok a ↔ Form reg acceptIp t a := by
  rw [read]
  simp only [bind_eq_ok_iff, RawAuthority.cut_eq_ok_iff, ofRaw_eq_ok_iff]
  constructor
  · rintro ⟨raw, ⟨server, huser, hserver, _, hne⟩, hu, hp, hpaired, hhost, hport⟩
    exact .intro huser (hport ▸ hserver) hne hu hp hpaired hhost
  · rintro ⟨huser, hserver, hne, hu, hp, hpaired, hhost⟩
    have hclosed := RawAuthority.isClosed_of_read hhost
    exact ⟨⟨_, _, _, a.port⟩, ⟨_, huser, hserver, .inr hclosed, hne⟩, hu, hp, hpaired, hhost, rfl⟩

end Authority

end CanonicalUri
