import CanonicalUri.Ip.Address
import CanonicalUri.Proofs.Success
import CanonicalUri.Text.Case
import Mathlib.Algebra.Group.Nat.Defs
import Mathlib.Tactic.SplitIfs

/-!
# The syntax of IP addresses

Which texts denote an address, and which one, without saying how they are scanned.

* `Hex.Numeral` and `V6.GroupForm`: digits of either case and the number that they make up, leading
  zeros allowed; a group has one to four of them.
* `V6.FieldsForm`: fields and the groups that they stand for, one by one, except that an IPv4
  address may stand at the end for two groups where that is allowed.
* `V6.Denotes`: all eight groups, or less than eight with `::` in the place of the others, which are
  zero. An IPv4 address may stand at the end of the text, not in front of `::`.
* `Address.Denotes`: either version, and an IPv6 address with or without brackets around it.

`Address.ofHost?_eq_some_iff` says that these are the texts that are read, and that they are read
as what they denote. Fields are not empty and hold no colons, so there is only one place where `::`
can stand (`V6.cutGap_join_append`).
-/

namespace CanonicalUri

/-! ### Hexadecimal digits -/

namespace Hex

/-- Digits of either case, and the number that they make up. -/
def Numeral (t : Text) (n : Nat) : Prop :=
  t ≠ [] ∧ ∃ ds, List.Forall₂ (fun c d => value? c = some d) t ds ∧
    ds.foldl (fun n d => 16 * n + d) 0 = n

theorem readOnto_eq_some_iff {n m : Nat} {t : Text} :
    readOnto n t = some m ↔ ∃ ds, List.Forall₂ (fun c d => value? c = some d) t ds ∧
      ds.foldl (fun n d => 16 * n + d) n = m := by
  induction t generalizing n with
  | nil => simp [readOnto, List.forall₂_nil_left_iff]
  | cons c t ih =>
    simp only [readOnto, Option.bind_eq_bind, Option.bind_eq_some_iff, ih]
    constructor
    · rintro ⟨d, hd, ds, hds, rfl⟩
      exact ⟨d :: ds, .cons hd hds, rfl⟩
    · rintro ⟨_, _ | ⟨hd, hds⟩, rfl⟩
      exact ⟨_, hd, _, hds, rfl⟩

theorem read?_eq_some_iff {t : Text} {n : Nat} : read? t = some n ↔ Numeral t n := by
  rw [read?, Numeral, ← readOnto_eq_some_iff]
  split <;> simp [*]

theorem numeral_write (n : Nat) : Numeral (write n) n :=
  read?_eq_some_iff.mp (read?_write n)

theorem isSome_value?_of_numeral {t : Text} {n : Nat} (h : Numeral t n) {c : Char} (hc : c ∈ t) :
    (value? c).isSome := by
  obtain ⟨_, ds, hds, _⟩ := h
  obtain ⟨d, hd⟩ := exists_forall₂_iff.mp ⟨ds, hds⟩ c hc
  rw [hd]
  rfl

theorem lt_of_value? {c : Char} {d : Nat} (h : value? c = some d) : d < 16 := by
  simp only [value?] at h
  split_ifs at h <;> cases h <;> omega

/-- Digits make up a number below the power of their base. -/
theorem lt_of_numeral {t : Text} {n : Nat} (h : Numeral t n) : n < 16 ^ t.length := by
  -- for the digits behind those that made up `m`
  suffices hfold : ∀ {ds : List Nat} (m : Nat), List.Forall₂ (fun c d => value? c = some d) t ds →
      ds.foldl (fun n d => 16 * n + d) m < (m + 1) * 16 ^ t.length by
    obtain ⟨_, ds, hds, rfl⟩ := h
    simpa using hfold 0 hds
  clear h
  induction t with
  | nil =>
    rintro _ m ⟨⟩
    simp
  | cons c t ih =>
    rintro _ m (_ | ⟨hd, hds⟩)
    have hlt := lt_of_value? hd
    rw [List.foldl_cons]
    refine Nat.lt_of_lt_of_le (ih _ hds) ?_
    rw [List.length_cons, Nat.pow_succ', ← Nat.mul_assoc]
    exact Nat.mul_le_mul_right _ (by omega)

theorem isSome_value?_of_isDigit {c : Char} (h : c.isDigit = true) : (value? c).isSome := by
  simp only [Char.isDigit, Bool.and_eq_true, decide_eq_true_eq, ge_iff_le,
    UInt32.le_iff_toNat_le] at h
  rw [value?, if_pos (show 0x30 ≤ c.toNat ∧ c.toNat ≤ 0x39 from h)]
  rfl

end Hex

namespace Ip

/-! ### IPv4 -/

/-- The text of an IPv4 address holds digits and dots only. -/
theorem V4.mem_toText {ip : V4} {c : Char} (hc : c ∈ ip.toText) : c.isDigit = true ∨ c = '.' := by
  obtain rfl | ⟨o, ho, hc⟩ := Text.mem_join hc
  · exact .inr rfl
  · obtain ⟨b, _, rfl⟩ := List.mem_map.mp ho
    exact .inl (Nat.isDigit_of_mem_toDigits (by decide) (by decide) hc)

theorem V4.not_isAlpha_of_mem_toText {ip : V4} {c : Char} (hc : c ∈ ip.toText) :
    c.isAlpha = false := by
  obtain hdigit | rfl := mem_toText hc
  · exact Text.not_isAlpha_of_isDigit hdigit
  · rfl

theorem V4.dot_mem_toText (ip : V4) : '.' ∈ ip.toText := by
  simp [toText, octets]

/-- An address is read from its one text. -/
theorem V4.parse?_eq_some_iff {t : Text} {ip : V4} : parse? t = some ip ↔ t = ip.toText :=
  ⟨fun h => (toText_of_parse? h).symm, fun h => h ▸ parse?_toText ip⟩

/-! ### Groups and fields -/

namespace V6

/-- The digits of a group. -/
structure GroupForm (t : Text) (g : UInt16) : Prop where
  length_le : t.length ≤ 4
  value : Hex.Numeral t g.toNat

theorem group?_eq_some_iff {t : Text} {g : UInt16} : group? t = some g ↔ GroupForm t g := by
  rw [group?]
  constructor
  · intro h
    split at h
    · rename_i hlen
      simp only [Option.pure_def, Option.bind_eq_bind, Option.bind_eq_some_iff,
        Option.some.injEq] at h
      obtain ⟨n, hn, rfl⟩ := h
      have hnum := Hex.read?_eq_some_iff.mp hn
      have hlt : n < 65536 :=
        Nat.lt_of_lt_of_le (Hex.lt_of_numeral hnum) (Nat.pow_le_pow_right (by decide) hlen)
      refine ⟨hlen, ?_⟩
      rwa [UInt16.toNat_ofNat', Nat.mod_eq_of_lt hlt]
    · cases h
  · rintro ⟨hlen, hvalue⟩
    simp [hlen, Hex.read?_eq_some_iff.mpr hvalue]

theorem groupForm_write (g : UInt16) : GroupForm (Hex.write g.toNat) g := by
  refine ⟨?_, Hex.numeral_write _⟩
  rw [Hex.write, Nat.length_toDigits_le_iff (by decide) (by decide)]
  exact g.toNat_lt

/-- Fields and the groups that they stand for. Where `mixed` is set, the last field may be an IPv4
address and stand for two groups. -/
inductive FieldsForm (mixed : Bool) : List Text → List UInt16 → Prop
  | nil : FieldsForm mixed [] []
  | v4 (hmixed : mixed = true) (ip : V4) : FieldsForm mixed [ip.toText] (ofV4 ip)
  | cons {t : Text} {ts : List Text} {g : UInt16} {gs : List UInt16} (ht : GroupForm t g)
      (hts : FieldsForm mixed ts gs) : FieldsForm mixed (t :: ts) (g :: gs)

/-- A field is not empty, and holds hexadecimal digits and dots only. -/
theorem FieldsForm.of_mem {mixed : Bool} {ts : List Text} {gs : List UInt16}
    (h : FieldsForm mixed ts gs) {t : Text} (ht : t ∈ ts) :
    t ≠ [] ∧ ∀ c ∈ t, (Hex.value? c).isSome ∨ c = '.' := by
  induction h with
  | nil => cases ht
  | v4 _ ip =>
    obtain rfl := List.mem_singleton.mp ht
    exact ⟨List.ne_nil_of_mem ip.dot_mem_toText,
      fun c hc => (V4.mem_toText hc).imp Hex.isSome_value?_of_isDigit id⟩
  | cons hfield _ ih =>
    obtain rfl | ht := List.mem_cons.mp ht
    · exact ⟨hfield.value.1, fun c hc => .inl (Hex.isSome_value?_of_numeral hfield.value hc)⟩
    · exact ih ht

theorem FieldsForm.colon_not_mem {mixed : Bool} {ts : List Text} {gs : List UInt16}
    (h : FieldsForm mixed ts gs) {t : Text} (ht : t ∈ ts) : ':' ∉ t := fun hmem =>
  absurd ((h.of_mem ht).2 _ hmem) (by decide)

/-- An address fills one group more than a field does. -/
theorem FieldsForm.length_le {mixed : Bool} {ts : List Text} {gs : List UInt16}
    (h : FieldsForm mixed ts gs) : gs.length ≤ ts.length + 1 := by
  induction h with
  | nil => exact Nat.zero_le _
  | v4 => exact Nat.le_refl _
  | cons _ _ ih => exact Nat.succ_le_succ ih

theorem FieldsForm.map_write (mixed : Bool) (gs : List UInt16) :
    FieldsForm mixed (gs.map fun g => Hex.write g.toNat) gs := by
  induction gs with
  | nil => exact .nil
  | cons g gs ih => exact .cons (groupForm_write g) ih

/-- No group has the dots of an IPv4 address. -/
theorem not_groupForm_v4 (ip : V4) (g : UInt16) : ¬GroupForm ip.toText g := fun h =>
  absurd (Hex.isSome_value?_of_numeral h.value ip.dot_mem_toText) (by decide)

theorem groups?_eq_some_iff {ts : List Text} {gs : List UInt16} :
    groups? ts = some gs ↔ FieldsForm true ts gs := by
  fun_induction groups? ts generalizing gs with
  | case1 =>
    constructor
    · rintro ⟨⟩
      exact .nil
    · rintro ⟨⟩
      rfl
  | case2 t =>
    rw [Option.orElse_eq_orElse, Option.orElse_eq_or, Option.or_eq_some_iff]
    simp only [Option.map_eq_some_iff, Option.map_eq_none_iff, group?_eq_some_iff,
      V4.parse?_eq_some_iff]
    constructor
    · rintro (⟨g, hg, rfl⟩ | ⟨_, ip, rfl, rfl⟩)
      · exact .cons hg .nil
      · exact .v4 rfl ip
    · rintro (_ | ⟨_, ip⟩ | ⟨ht, ⟨⟩⟩)
      · refine .inr ⟨?_, ip, rfl, rfl⟩
        rw [Option.eq_none_iff_forall_ne_some]
        exact fun g hg => not_groupForm_v4 ip g (group?_eq_some_iff.mp hg)
      · exact .inl ⟨_, ht, rfl⟩
  | case3 t ts hne ih =>
    simp only [Option.pure_def, Option.bind_eq_bind, Option.bind_eq_some_iff, Option.some.injEq,
      group?_eq_some_iff, ih]
    constructor
    · rintro ⟨g, hg, gs', hgs, rfl⟩
      exact .cons hg hgs
    · rintro (_ | _ | ⟨ht, hts⟩)
      · exact absurd rfl hne
      · exact ⟨_, ht, _, hts, rfl⟩

theorem mapM_group?_eq_some_iff {ts : List Text} {gs : List UInt16} :
    ts.mapM group? = some gs ↔ FieldsForm false ts gs := by
  induction ts generalizing gs with
  | nil =>
    constructor
    · rintro ⟨⟩
      exact .nil
    · rintro ⟨⟩
      rfl
  | cons t ts ih =>
    simp only [List.mapM_cons, Option.pure_def, Option.bind_eq_bind, Option.bind_eq_some_iff,
      Option.some.injEq, group?_eq_some_iff, ih]
    constructor
    · rintro ⟨g, hg, gs', hgs, rfl⟩
      exact .cons hg hgs
    · rintro (_ | ⟨⟨⟩⟩ | ⟨ht, hts⟩)
      exact ⟨_, ht, _, hts, rfl⟩

theorem join_fields (t : Text) : Text.join ':' (fields t) = t := by
  rw [fields]
  split
  · rename_i h
    rw [h]
    rfl
  · exact List.intercalate_splitOn ':'

/-- Fields are found again in their text. -/
theorem FieldsForm.fields_join {mixed : Bool} {ts : List Text} {gs : List UInt16}
    (h : FieldsForm mixed ts gs) : fields (Text.join ':' ts) = ts := by
  cases ts with
  | nil => rfl
  | cons t ts =>
    have hnil : [] ∉ t :: ts := fun hmem => (h.of_mem hmem).1 rfl
    rw [fields, if_neg (mt (Text.join_eq_nil_iff hnil).mp (List.cons_ne_nil t ts))]
    exact List.splitOn_intercalate ':' (fun _ => h.colon_not_mem) (List.cons_ne_nil t ts)

/-! ### The gap -/

/-- The two sides of the first `::` are all of the text but that. -/
theorem append_of_cutGap {t before after : Text} (h : cutGap t = some (before, after)) :
    t = before ++ ':' :: ':' :: after := by
  fun_induction cutGap t generalizing before with
  | case1 => cases h
  | case2 rest =>
    cases h
    rfl
  | case3 c t hne ih =>
    rw [Option.map_eq_some_iff] at h
    obtain ⟨p, hp, heq⟩ := h
    cases heq
    rw [List.cons_append, ← ih hp]

theorem cutGap_cons {c : Char} {t : Text} (h : c = ':' → t.head? ≠ some ':') :
    cutGap (c :: t) = (cutGap t).map fun p => (c :: p.1, p.2) := by
  rw [cutGap.eq_def]
  simp only
  split
  · exact absurd rfl (h rfl)
  · rfl

theorem cutGap_append {s : Text} (h : ':' ∉ s) (t : Text) :
    cutGap (s ++ t) = (cutGap t).map fun p => (s ++ p.1, p.2) := by
  induction s with
  | nil => simp
  | cons c s ih =>
    rw [List.mem_cons, not_or] at h
    rw [List.cons_append, cutGap_cons fun hc => absurd hc.symm h.1, ih h.2, Option.map_map]
    rfl

/-- Between fields there is no gap: the first one comes with what follows them. -/
theorem cutGap_join_append {ts : List Text} (hne : [] ∉ ts) (hcolon : ∀ t ∈ ts, ':' ∉ t)
    (rest : Text) : cutGap (Text.join ':' ts ++ rest)
      = (cutGap rest).map fun p => (Text.join ':' ts ++ p.1, p.2) := by
  induction ts with
  | nil => simp
  | cons t ts ih =>
    cases ts with
    | nil => simpa using cutGap_append (hcolon t List.mem_cons_self) rest
    | cons u ts =>
      -- the next field does not begin with a colon
      obtain ⟨c, u, rfl⟩ := List.exists_cons_of_ne_nil fun hu : u = [] => hne (by simp [hu])
      have hc : c ≠ ':' := fun hc => hcolon (c :: u) (by simp) (by simp [hc])
      have hhead : (Text.join ':' ((c :: u) :: ts) ++ rest).head? ≠ some ':' := by
        cases ts <;> simpa using hc
      rw [Text.join_cons_cons, List.append_assoc, List.cons_append,
        cutGap_append (hcolon t List.mem_cons_self), cutGap_cons fun _ => hhead,
        ih (fun hmem => hne (List.mem_cons_of_mem _ hmem))
          (fun v hv => hcolon v (List.mem_cons_of_mem _ hv)), Option.map_map, Option.map_map]
      congr 1
      funext p
      simp

theorem FieldsForm.cutGap_append {mixed : Bool} {ts : List Text} {gs : List UInt16}
    (h : FieldsForm mixed ts gs) (rest : Text) : cutGap (Text.join ':' ts ++ rest)
      = (cutGap rest).map fun p => (Text.join ':' ts ++ p.1, p.2) :=
  cutGap_join_append (fun hmem => (h.of_mem hmem).1 rfl) (fun _ => h.colon_not_mem) rest

/-! ### Addresses -/

/-- The texts that denote an IPv6 address. -/
inductive Denotes : Text → V6 → Prop
  | full {ts : List Text} {ip : V6} (hts : FieldsForm true ts ip.groups) :
      Denotes (Text.join ':' ts) ip
  | gap {front back : List Text} {fs bs : List UInt16} {n : Nat} {ip : V6}
      (hfront : FieldsForm false front fs) (hback : FieldsForm true back bs) (hn : 0 < n)
      (hip : ip.groups = fs ++ List.replicate n 0 ++ bs) :
      Denotes (Text.join ':' front ++ ':' :: ':' :: Text.join ':' back) ip

private theorem ofGroups?_eq_some_iff {gs : List UInt16} {ip : V6} :
    ofGroups? gs = some ip ↔ ip.groups = gs := by
  rw [ofGroups?]
  constructor
  · intro h
    split at h
    · cases h
      rfl
    · cases h
  · rintro rfl
    exact dif_pos ip.length_groups

private theorem denotes_of_parse? {t : Text} {ip : V6} (h : parse? t = some ip) : Denotes t ip := by
  rw [parse?] at h
  split at h
  · simp only [Option.bind_eq_bind, Option.bind_eq_some_iff, groups?_eq_some_iff,
      ofGroups?_eq_some_iff] at h
    obtain ⟨gs, hgs, rfl⟩ := h
    have hfull := Denotes.full hgs
    rwa [Text.join, List.intercalate_splitOn] at hfull
  · rename_i before after hcut
    simp only [Option.bind_eq_bind, Option.bind_eq_some_iff, groups?_eq_some_iff,
      mapM_group?_eq_some_iff] at h
    obtain ⟨fs, hfs, bs, hbs, h⟩ := h
    split at h
    · have hgap := Denotes.gap hfs hbs (by omega) (ofGroups?_eq_some_iff.mp h)
      rwa [join_fields, join_fields, ← append_of_cutGap hcut] at hgap
    · cases h

private theorem parse?_of_denotes {t : Text} {ip : V6} (h : Denotes t ip) : parse? t = some ip := by
  obtain @⟨ts, _, hts⟩ | @⟨front, back, fs, bs, n, _, hfront, hback, hn, hip⟩ := h
  · have hne : ts ≠ [] := by
      rintro rfl
      have hlen := hts.length_le
      rw [ip.length_groups] at hlen
      exact absurd hlen (by decide)
    have hcut : cutGap (Text.join ':' ts) = none := by
      simpa [cutGap] using hts.cutGap_append []
    have hsplit : (Text.join ':' ts).splitOn ':' = ts :=
      List.splitOn_intercalate ':' (fun _ => hts.colon_not_mem) hne
    rw [parse?, hcut, hsplit]
    simp [groups?_eq_some_iff.mpr hts, ofGroups?_eq_some_iff]
  · have hcut : cutGap (Text.join ':' front ++ ':' :: ':' :: Text.join ':' back)
        = some (Text.join ':' front, Text.join ':' back) := by
      rw [hfront.cutGap_append]
      simp [cutGap]
    -- the gap stands for as many groups as are missing
    have hlen : fs.length + n + bs.length = 8 := by
      have := congrArg List.length hip
      rw [ip.length_groups, List.length_append, List.length_append, List.length_replicate] at this
      exact this.symm
    have hmissing : 8 - (fs.length + bs.length) = n := by omega
    rw [parse?, hcut]
    simp only [hfront.fields_join, hback.fields_join, mapM_group?_eq_some_iff.mpr hfront,
      groups?_eq_some_iff.mpr hback, Option.bind_eq_bind, Option.bind_some, hmissing]
    rw [if_pos (by omega), ofGroups?_eq_some_iff, hip]

/-- The texts that denote an address are those that are read as it. -/
theorem parse?_eq_some_iff {t : Text} {ip : V6} : parse? t = some ip ↔ Denotes t ip :=
  ⟨denotes_of_parse?, parse?_of_denotes⟩

end V6

/-- The characters of address texts. -/
def isAddressChar (c : Char) : Bool :=
  (Hex.value? c).isSome || c == ':' || c == '.'

namespace V6

theorem FieldsForm.isAddressChar_of_mem {mixed : Bool} {ts : List Text} {gs : List UInt16}
    (h : FieldsForm mixed ts gs) {c : Char} (hc : c ∈ Text.join ':' ts) :
    isAddressChar c = true := by
  obtain rfl | ⟨t, ht, hc⟩ := Text.mem_join hc
  · decide
  · obtain hc | rfl := (h.of_mem ht).2 c hc
    · simp [isAddressChar, hc]
    · decide

/-- A text that denotes an address holds hexadecimal digits, colons and dots only. -/
theorem Denotes.isAddressChar_of_mem {t : Text} {ip : V6} (h : Denotes t ip) {c : Char}
    (hc : c ∈ t) : isAddressChar c = true := by
  obtain hts | ⟨hfront, hback, _, _⟩ := h
  · exact hts.isAddressChar_of_mem hc
  · rw [List.mem_append, List.mem_cons, List.mem_cons] at hc
    obtain hc | rfl | rfl | hc := hc
    · exact hfront.isAddressChar_of_mem hc
    · decide
    · decide
    · exact hback.isAddressChar_of_mem hc

theorem Denotes.open_not_mem {t : Text} {ip : V6} (h : Denotes t ip) : '[' ∉ t := fun hc =>
  absurd (h.isAddressChar_of_mem hc) (by decide)

/-- There are no dots in fields, except for those of an address at the end. -/
theorem FieldsForm.dot_not_mem_or {mixed : Bool} {ts : List Text} {gs : List UInt16}
    (h : FieldsForm mixed ts gs) : '.' ∉ Text.join ':' ts ∨
      mixed = true ∧ ∃ s, ∃ ip : V4, Text.join ':' ts = s ++ ip.toText ∧ '.' ∉ s := by
  induction h with
  | nil => exact .inl List.not_mem_nil
  | v4 hmixed ip => exact .inr ⟨hmixed, [], ip, by simp, List.not_mem_nil⟩
  | @cons t ts _ _ ht _ ih =>
    have hdot : '.' ∉ t := fun hc =>
      absurd (Hex.isSome_value?_of_numeral ht.value hc) (by decide)
    cases ts with
    | nil => exact .inl (by simpa using hdot)
    | cons u ts =>
      rw [Text.join_cons_cons]
      obtain hnone | ⟨hmixed, s, ip, heq, hs⟩ := ih
      · exact .inl (by simp [hdot, hnone])
      · exact .inr ⟨hmixed, t ++ ':' :: s, ip, by simp [heq], by simp [hdot, hs]⟩

/-- There are no dots in a text that denotes an address, except for those of an IPv4 address at the
end. -/
theorem Denotes.dot_not_mem_or {t : Text} {ip : V6} (h : Denotes t ip) :
    '.' ∉ t ∨ ∃ s, ∃ ip : V4, t = s ++ ip.toText ∧ '.' ∉ s := by
  obtain hts | @⟨front, _, _, _, _, _, hfront, hback, _, _⟩ := h
  · exact hts.dot_not_mem_or.imp_right And.right
  · have hfront := hfront.dot_not_mem_or.resolve_right fun hmixed => Bool.false_ne_true hmixed.1
    obtain hback | ⟨_, s, ip, hback, hs⟩ := hback.dot_not_mem_or
    · exact .inl (by simp [hfront, hback])
    · refine .inr ⟨Text.join ':' front ++ ':' :: ':' :: s, ip, ?_, by simp [hfront, hs]⟩
      rw [hback, List.append_assoc, List.cons_append, List.cons_append]

/-- Behind a dot there are the octets of an IPv4 address. -/
theorem Denotes.digits_behind_dot {before rest : Text} {ip : V6}
    (h : Denotes (before ++ '.' :: rest) ip) {c : Char} (hc : c ∈ rest) :
    c.isDigit = true ∨ c = '.' := by
  obtain hnone | ⟨s, ip, heq, hs⟩ := h.dot_not_mem_or
  · exact absurd (by simp) hnone
  · refine V4.mem_toText (show c ∈ V4.toText ip from ?_)
    obtain ⟨_ | ⟨d, m⟩, rfl, hrest⟩ | ⟨m, _, hrest⟩ := List.append_eq_append_iff.mp heq
    · rw [← show _ = ip.toText from hrest]
      exact List.mem_cons_of_mem _ hc
    · obtain ⟨rfl, _⟩ := List.cons.inj hrest
      exact absurd (by simp) hs
    · rw [hrest]
      exact List.mem_append_right m (List.mem_cons_of_mem _ hc)

/-- There is a colon in a text that denotes an address. -/
theorem Denotes.colon_mem {t : Text} {ip : V6} (h : Denotes t ip) : ':' ∈ t := by
  obtain @⟨ts, _, hts⟩ | _ := h
  · -- one field would stand for two groups at most
    have hlen := hts.length_le
    rw [ip.length_groups] at hlen
    match ts, hlen with
    | s :: u :: ts, _ => simp
  · simp

end V6

namespace Address

/-- The texts that denote an address, with the brackets of an IPv6 address or without. -/
inductive Denotes : Text → Address → Prop
  | v4 (ip : V4) : Denotes ip.toText (.v4 ip)
  | v6 {t : Text} {ip : V6} (ht : V6.Denotes t ip) : Denotes t (.v6 ip)
  | bracketed {t : Text} {ip : V6} (ht : V6.Denotes t ip) : Denotes ('[' :: t ++ [']']) (.v6 ip)

/-- Without brackets, the version is told by the colons. -/
theorem parse?_eq_some_iff {t : Text} {a : Address} : parse? t = some a ↔
    (∃ ip : V4, t = ip.toText ∧ a = .v4 ip) ∨ ∃ ip, V6.Denotes t ip ∧ a = .v6 ip := by
  rw [parse?, Option.orElse_eq_orElse, Option.orElse_eq_or, Option.or_eq_some_iff]
  simp only [Option.map_eq_some_iff, Option.map_eq_none_iff, V4.parse?_eq_some_iff,
    V6.parse?_eq_some_iff]
  constructor
  · rintro (⟨ip, rfl, rfl⟩ | ⟨_, ip, hip, rfl⟩)
    · exact .inl ⟨ip, rfl, rfl⟩
    · exact .inr ⟨ip, hip, rfl⟩
  · rintro (⟨ip, rfl, rfl⟩ | ⟨ip, hip, rfl⟩)
    · exact .inl ⟨ip, rfl, rfl⟩
    · refine .inr ⟨?_, ip, hip, rfl⟩
      rw [Option.eq_none_iff_forall_ne_some]
      intro ip' hip'
      obtain rfl := V4.parse?_eq_some_iff.mp hip'
      exact absurd (V4.mem_toText hip.colon_mem) (by decide)

/-- A host text is read as the address that it denotes, and as none if it denotes none. -/
theorem ofHost?_eq_some_iff {t : Text} {a : Address} : ofHost? t = some a ↔ Denotes t a := by
  constructor
  · intro h
    rw [ofHost?.eq_def] at h
    split at h
    · rename_i s
      split at h
      · rename_i hlast
        obtain ⟨front, rfl⟩ := List.getLast?_eq_some_iff.mp hlast
        rw [List.dropLast_concat, Option.map_eq_some_iff] at h
        obtain ⟨ip, hip, rfl⟩ := h
        exact .bracketed (V6.parse?_eq_some_iff.mp hip)
      · cases h
    · obtain ⟨ip, rfl, rfl⟩ | ⟨ip, hip, rfl⟩ := parse?_eq_some_iff.mp h
      · exact .v4 ip
      · exact .v6 hip
  · -- a text without an opening bracket is read as it stands
    have hbare : ∀ {s : Text}, '[' ∉ s → ofHost? s = parse? s := by
      intro s hs
      rw [ofHost?]
      rintro s rfl
      exact hs List.mem_cons_self
    rintro (ip | ht | ht)
    · rw [hbare fun hc => absurd (V4.mem_toText hc) (by decide)]
      exact parse?_eq_some_iff.mpr (.inl ⟨ip, rfl, rfl⟩)
    · rw [hbare ht.open_not_mem]
      exact parse?_eq_some_iff.mpr (.inr ⟨_, ht, rfl⟩)
    · simp [ofHost?, V6.parse?_eq_some_iff.mpr ht]

end Address

end Ip

end CanonicalUri
