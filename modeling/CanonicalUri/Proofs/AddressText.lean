import CanonicalUri.Proofs.AddressSyntax

/-!
# The texts of IP addresses

Every address has one text, and is read back from it. For an IPv6 address that text is in normal
form (`V6.Spelling`): groups in lower case without leading zeros; the longest run of zero groups,
the first one of several, left out if there is more than one zero in it, and no other run; and a
mapped IPv4 address behind `::ffff:`. The loop that looks for the run is described by what it has
found after some of the places it could start at (`V6.LongestRun`).

An address text holds hexadecimal digits, colons and dots only; so a host text with an address is
free of the separators around it, except for the colons between its brackets.
-/

namespace CanonicalUri

namespace Ip

namespace V6

/-! ### The longest run of zero groups -/

/-- There are `n` zeros among the groups, from place `i` on. -/
def ZerosAt (gs : List UInt16) (i n : Nat) : Prop :=
  List.replicate n 0 <+: gs.drop i

private theorem replicate_isPrefix_iff {n : Nat} {gs : List UInt16} :
    List.replicate n 0 <+: gs ↔ n ≤ leadingZeros gs := by
  induction gs generalizing n with
  | nil => simp [leadingZeros]
  | cons g gs ih =>
    cases n with
    | zero => simp
    | succ n =>
      rw [List.replicate_succ, List.cons_prefix_cons, ih]
      by_cases hg : g = 0
      · simp [leadingZeros, hg]
      · simp [leadingZeros, hg, Ne.symm hg]

theorem zerosAt_iff {gs : List UInt16} {i n : Nat} :
    ZerosAt gs i n ↔ n ≤ leadingZeros (gs.drop i) :=
  replicate_isPrefix_iff

/-- The groups before some zeros, the zeros, and the groups behind them. -/
theorem ZerosAt.eq_append {gs : List UInt16} {i n : Nat} (h : ZerosAt gs i n) :
    gs = gs.take i ++ List.replicate n 0 ++ gs.drop (i + n) := by
  obtain ⟨rest, hrest⟩ := h
  have hback : gs.drop (i + n) = rest := by
    rw [← List.drop_drop, ← hrest]
    exact List.drop_left' List.length_replicate
  rw [hback, List.append_assoc, hrest, List.take_append_drop]

/-- A run of zeros that is as long as any that starts before place `k`, and starts before all others
of its length. -/
structure LongestRun (gs : List UInt16) (k start n : Nat) : Prop where
  zeros : ZerosAt gs start n
  longest : ∀ {i m}, i < k → ZerosAt gs i m → m ≤ n
  first : ∀ {i}, i < start → ¬ZerosAt gs i n

/-- One place more: the run there is taken if it is longer. -/
theorem LongestRun.step {gs : List UInt16} {k : Nat} {best : Nat × Nat}
    (h : LongestRun gs k best.1 best.2) :
    let n := leadingZeros (gs.drop k)
    let next := if best.2 < n then (k, n) else best
    LongestRun gs (k + 1) next.1 next.2 := by
  intro n next
  by_cases hn : best.2 < n
  · simp only [next, if_pos hn]
    refine ⟨zerosAt_iff.mpr (Nat.le_refl n), fun hi hzeros => ?_, fun hi hzeros => ?_⟩
    · obtain hi | rfl := Nat.lt_succ_iff_lt_or_eq.mp hi
      · exact Nat.le_trans (h.longest hi hzeros) (Nat.le_of_lt hn)
      · exact zerosAt_iff.mp hzeros
    · exact Nat.not_le_of_lt hn (h.longest hi hzeros)
  · simp only [next, if_neg hn]
    refine ⟨h.zeros, fun hi hzeros => ?_, h.first⟩
    obtain hi | rfl := Nat.lt_succ_iff_lt_or_eq.mp hi
    · exact h.longest hi hzeros
    · exact Nat.le_trans (zerosAt_iff.mp hzeros) (Nat.not_lt.mp hn)

/-- The run that is found is the first one of the longest. -/
theorem longestRun_longestGap (gs : List UInt16) :
    LongestRun gs gs.length (longestGap gs).1 (longestGap gs).2 := by
  rw [longestGap]
  generalize gs.length = k
  induction k with
  | zero => exact ⟨List.nil_prefix, fun hi => absurd hi (Nat.not_lt_zero _),
      fun hi => absurd hi (Nat.not_lt_zero _)⟩
  | succ k ih =>
    rw [List.range_succ, List.foldl_append]
    exact ih.step

/-- No run starts behind the last group. -/
theorem LongestRun.le {gs : List UInt16} {start n : Nat} (h : LongestRun gs gs.length start n)
    {i m : Nat} (hzeros : ZerosAt gs i m) : m ≤ n := by
  by_cases hi : i < gs.length
  · exact h.longest hi hzeros
  · rw [zerosAt_iff, List.drop_eq_nil_of_le (Nat.not_lt.mp hi)] at hzeros
    exact Nat.le_trans hzeros (Nat.zero_le n)

/-! ### Spellings -/

/-- Whether an address stands for an IPv4 address. -/
def IsMapped (ip : V6) : Prop :=
  ∃ g h, ip.groups = [0, 0, 0, 0, 0, 0xFFFF, g, h]

/-- The normal form of an address. -/
inductive Spelling (ip : V6) : Text → Prop
  | mapped {g h : UInt16} (hip : ip.groups = [0, 0, 0, 0, 0, 0xFFFF, g, h]) :
      Spelling ip ("::ffff:".toList ++ (toV4 g h).toText)
  | gap {start n : Nat} (hip : ¬ip.IsMapped) (hrun : LongestRun ip.groups 8 start n)
      (hn : 1 < n) : Spelling ip (writeGroups (ip.groups.take start) ++ ':' :: ':' ::
        writeGroups (ip.groups.drop (start + n)))
  | plain (hip : ¬ip.IsMapped) (hzeros : ∀ i, ¬ZerosAt ip.groups i 2) :
      Spelling ip (writeGroups ip.groups)

theorem spelling_toText (ip : V6) : Spelling ip ip.toText := by
  rw [toText]
  split
  · rename_i hgroups
    exact .mapped hgroups
  · rename_i hmapped
    have hip : ¬ip.IsMapped := fun ⟨g, h, hgroups⟩ => hmapped g h hgroups
    have hrun := longestRun_longestGap ip.groups
    generalize longestGap ip.groups = found at hrun
    obtain ⟨start, n⟩ := found
    dsimp only at hrun ⊢
    split
    · rename_i hn
      exact .gap hip (ip.length_groups ▸ hrun) hn
    · rename_i hn
      exact .plain hip fun i hzeros => hn (hrun.le hzeros)

/-- There is one normal form of an address. -/
theorem Spelling.unique {ip : V6} {s t : Text} (hs : Spelling ip s) (ht : Spelling ip t) :
    s = t := by
  have hlen := ip.length_groups
  obtain hip | @⟨start, n, hip, hrun, hn⟩ | ⟨hip, hzeros⟩ := hs
  · obtain hip' | ⟨hip', _⟩ | ⟨hip', _⟩ := ht
    · rw [hip] at hip'
      cases hip'
      rfl
    · exact absurd ⟨_, _, hip⟩ hip'
    · exact absurd ⟨_, _, hip⟩ hip'
  · obtain hip' | @⟨start', n', _, hrun', _⟩ | ⟨_, hzeros⟩ := ht
    · exact absurd ⟨_, _, hip'⟩ hip
    · rw [← hlen] at hrun hrun'
      obtain rfl : n = n' := Nat.le_antisymm (hrun'.le hrun.zeros) (hrun.le hrun'.zeros)
      obtain rfl : start = start' := Nat.le_antisymm
        (Nat.not_lt.mp fun h => hrun.first h hrun'.zeros)
        (Nat.not_lt.mp fun h => hrun'.first h hrun.zeros)
      rfl
    · exact absurd (zerosAt_iff.mpr (Nat.le_trans hn (zerosAt_iff.mp hrun.zeros))) (hzeros start)
  · obtain hip' | ⟨_, hrun, hn⟩ | _ := ht
    · exact absurd ⟨_, _, hip'⟩ hip
    · exact absurd (zerosAt_iff.mpr (Nat.le_trans hn (zerosAt_iff.mp hrun.zeros))) (hzeros _)
    · rfl

/-- The two groups of an IPv4 address hold that address. -/
theorem ofV4_toV4 (g h : UInt16) : ofV4 (toV4 g h) = [g, h] := by
  have hg := g.toNat_lt
  have hh := h.toNat_lt
  have hval : ∀ n, n < 65536 → (UInt8.ofNat (n / 256)).toNat * 256 + (UInt8.ofNat (n % 256)).toNat
      = n := by
    intro n hn
    simp only [UInt8.toNat_ofNat']
    omega
  simp only [ofV4, toV4, hval _ hg, hval _ hh, UInt16.ofNat_toNat]

/-- The normal form of an address denotes it. -/
theorem Spelling.denotes {ip : V6} {t : Text} (h : Spelling ip t) : Denotes t ip := by
  obtain @⟨g, h, hip⟩ | ⟨_, hrun, hn⟩ | _ := h
  · have hback : FieldsForm true ["ffff".toList, (toV4 g h).toText] [0xFFFF, g, h] := by
      refine .cons (group?_eq_some_iff.mp (by decide)) ?_
      rw [← ofV4_toV4]
      exact .v4 rfl _
    simpa using Denotes.gap .nil hback (Nat.succ_pos 4) hip
  · exact .gap (.map_write false _) (.map_write true _) (Nat.zero_lt_of_lt hn)
      hrun.zeros.eq_append
  · exact .full (.map_write true _)

theorem denotes_toText (ip : V6) : Denotes ip.toText ip :=
  (spelling_toText ip).denotes

/-- An address is read from its spelling. -/
theorem parse?_toText (ip : V6) : parse? ip.toText = some ip :=
  parse?_eq_some_iff.mpr (denotes_toText ip)

end V6

namespace Address

/-! ### Host texts -/

/-- The normal form of an address as a host. -/
inductive Spelling : Address → Text → Prop
  | v4 (ip : V4) : Spelling (.v4 ip) ip.toText
  | v6 {ip : V6} {t : Text} (ht : V6.Spelling ip t) : Spelling (.v6 ip) ('[' :: t ++ [']'])

theorem spelling_toHost (a : Address) : Spelling a a.toHost := by
  cases a with
  | v4 ip => exact .v4 ip
  | v6 ip => exact .v6 ip.spelling_toText

/-- The host text of an address denotes it. -/
theorem denotes_toHost (a : Address) : Denotes a.toHost a := by
  cases a with
  | v4 ip => exact .v4 ip
  | v6 ip => exact .bracketed ip.denotes_toText

/-- An address is read from its host text. -/
theorem ofHost?_toHost (a : Address) : ofHost? a.toHost = some a :=
  ofHost?_eq_some_iff.mpr a.denotes_toHost

/-- A text denotes one address at most. -/
theorem Denotes.unique {t : Text} {a b : Address} (ha : Denotes t a) (hb : Denotes t b) : a = b :=
  Option.some.inj ((ofHost?_eq_some_iff.mpr ha).symm.trans (ofHost?_eq_some_iff.mpr hb))

/-- Addresses of either version with the same host text are the same. -/
theorem toHost_inj {a b : Address} (h : a.toHost = b.toHost) : a = b :=
  a.denotes_toHost.unique (h ▸ b.denotes_toHost)

theorem Denotes.ne_nil {t : Text} {a : Address} (h : Denotes t a) : t ≠ [] := by
  obtain ip | ht | _ := h
  · exact List.ne_nil_of_mem ip.dot_mem_toText
  · exact List.ne_nil_of_mem ht.colon_mem
  · exact List.cons_ne_nil _ _

theorem toHost_ne_nil (a : Address) : a.toHost ≠ [] :=
  a.denotes_toHost.ne_nil

/-- The brackets tell the version. -/
theorem open_mem_toHost_iff {a : Address} : '[' ∈ a.toHost ↔ a.isV4 = false := by
  cases a with
  | v4 ip => exact iff_of_false (fun hc => absurd (V4.mem_toText hc) (by decide)) (by simp [isV4])
  | v6 ip => exact iff_of_true List.mem_cons_self rfl

/-- Without colons and brackets only an IPv4 address is left. -/
theorem ofHost?_of_not_mem {t : Text} (hcolon : ':' ∉ t) (hbracket : '[' ∉ t) :
    ofHost? t = (V4.parse? t).map .v4 := by
  refine Option.ext fun a => ?_
  rw [ofHost?_eq_some_iff, Option.map_eq_some_iff]
  simp only [V4.parse?_eq_some_iff]
  constructor
  · rintro (ip | ht | _)
    · exact ⟨ip, rfl, rfl⟩
    · exact absurd ht.colon_mem hcolon
    · exact absurd List.mem_cons_self hbracket
  · rintro ⟨ip, rfl, rfl⟩
    exact .v4 ip

/-- Square brackets stand around the text of an address as a whole, or there are none. -/
theorem Denotes.brackets {t : Text} {a : Address} (h : Denotes t a) :
    '[' ∉ t ∨ ∃ s, t = '[' :: s ++ [']'] ∧ '[' ∉ s := by
  obtain ip | ht | ht := h
  · exact .inl fun hc => absurd (V4.mem_toText hc) (by decide)
  · exact .inl ht.open_not_mem
  · exact .inr ⟨_, rfl, ht.open_not_mem⟩

/-! ### Addresses without brackets -/

private theorem dropWhile_of_not_mem {c : Char} {t : Text} (h : c ∉ t) :
    t.dropWhile (· == c) = t := by
  cases t with
  | nil => rfl
  | cons d t =>
    rw [List.mem_cons, not_or] at h
    exact List.dropWhile_cons_of_neg (by simpa using Ne.symm h.1)

theorem bare_of_not_mem {t : Text} (hopen : '[' ∉ t) (hclose : ']' ∉ t) : bare t = t := by
  rw [bare, dropWhile_of_not_mem hopen, dropWhile_of_not_mem (by simpa using hclose),
    List.reverse_reverse]

theorem bare_brackets {t : Text} (hopen : '[' ∉ t) (hclose : ']' ∉ t) :
    bare ('[' :: t ++ [']']) = t := by
  have hfront : ('[' :: t ++ [']']).dropWhile (· == '[') = t ++ [']'] := by
    rw [List.cons_append, List.dropWhile_cons_of_pos (by decide), dropWhile_of_not_mem]
    simpa using hopen
  have hback : (t ++ [']']).reverse.dropWhile (· == ']') = t.reverse := by
    rw [List.reverse_concat, List.dropWhile_cons_of_pos (by decide), dropWhile_of_not_mem]
    simpa using hclose
  rw [bare, hfront, hback, List.reverse_reverse]

/-- An address is read from its host text once the brackets are off. -/
theorem parse?_bare_toHost (a : Address) : parse? (bare a.toHost) = some a := by
  rw [parse?_eq_some_iff]
  cases a with
  | v4 ip =>
    rw [toHost, bare_of_not_mem (fun hc => absurd (V4.mem_toText hc) (by decide))
      (fun hc => absurd (V4.mem_toText hc) (by decide))]
    exact .inl ⟨ip, rfl, rfl⟩
  | v6 ip =>
    have hclose : ']' ∉ ip.toText := fun hc =>
      absurd (ip.denotes_toText.isAddressChar_of_mem hc) (by decide)
    rw [toHost, bare_brackets ip.denotes_toText.open_not_mem hclose]
    exact .inr ⟨ip, ip.denotes_toText, rfl⟩

end Address

end Ip

end CanonicalUri
