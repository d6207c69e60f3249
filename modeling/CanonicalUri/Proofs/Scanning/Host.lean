import CanonicalUri.Proofs.Offsets
import Mathlib.Data.Nat.PSub

/-!
# Hosts, read by offsets

A text need not be taken apart piece by piece; a reader can go by the places where the pieces begin
and end. That can go wrong where taking a list apart cannot: a number may miss its place, a byte may
be looked at behind the end, and a difference may get below zero. `Scan` is a reading that can go
wrong in this manner, too, and `Scan.host` reads hosts with it.

* `Registry.ofLookup`: suffixes are looked up by bytes. All that is asked of an answer is that it is
  an ending of the bytes; it may begin inside of a character.
* `Scan.topLevel?_eq_some`: subtracting the length of the answer leads to the dot in front of the
  suffix, and where it does not, nothing is found.
* `Scan.run_name` and `Scan.run_host`: nothing goes wrong with any text, and what is read is what
  `Host.read` reads.
-/

namespace CanonicalUri

/-! ### Suffixes by their bytes -/

namespace Registry

/-- The registry whose suffixes are looked up by bytes. An answer that is no text is as good as
none. -/
def ofLookup (lookup : List UInt8 → Option (List UInt8)) (services : Option Text) : Registry :=
  ⟨fun t => (lookup (Utf8.encode t)).bind Utf8.decode?, services⟩

theorem suffix?_ofLookup_eq_some_iff {lookup : List UInt8 → Option (List UInt8)}
    (services : Option Text) {t s : Text} :
    (ofLookup lookup services).suffix? t = some s ↔
      lookup (Utf8.encode t) = some (Utf8.encode s) := by
  simp only [ofLookup, Option.bind_eq_some_iff, Utf8.decode?_eq_some_iff]
  constructor
  · rintro ⟨_, h, rfl⟩
    exact h
  · exact fun h => ⟨_, h, rfl⟩

/-- The look-up by bytes of a registry; bytes that are no text have no suffix. -/
def lookup (reg : Registry) (bytes : List UInt8) : Option (List UInt8) :=
  (Utf8.decode? bytes).bind fun t => (reg.suffix? t).map Utf8.encode

/-- A registry is that of its look-up by bytes. -/
theorem ofLookup_lookup (reg : Registry) : ofLookup reg.lookup reg.services = reg := by
  have hsuffix : (ofLookup reg.lookup reg.services).suffix? = reg.suffix? := by
    funext t
    simp only [ofLookup, lookup, Utf8.decode?_encode, Option.bind_some, Option.bind_map]
    cases reg.suffix? t <;> simp [Utf8.decode?_encode]
  obtain ⟨suffix?, services⟩ := reg
  exact congrArg (Registry.mk · services) hsuffix

/-- Where suffixes are endings, so are their bytes. -/
theorem isSuffix_of_lookup {reg : Registry}
    (hreg : ∀ name s, reg.suffix? name = some s → s <:+ name) (bytes suffix : List UInt8)
    (h : reg.lookup bytes = some suffix) : suffix <:+ bytes := by
  simp only [lookup, Option.bind_eq_some_iff, Option.map_eq_some_iff,
    Utf8.decode?_eq_some_iff] at h
  obtain ⟨t, rfl, s, hs, rfl⟩ := h
  obtain ⟨front, rfl⟩ := hreg t s hs
  rw [Utf8.encode_append]
  exact List.suffix_append _ _

end Registry

/-! ### Steps -/

/-- A reading that takes texts apart by offsets. It may fail with an error; and it has no result at
all where an offset is no place in a text, a byte is looked at that is not there, or a number gets
below zero. -/
abbrev Scan (ε : Type) := ExceptT ε Option

namespace Scan

variable {ε α β γ : Type}

/-- A reading whose result is made of another one. -/
theorem run_bind_map {x : Scan ε α} {e : Except ε β} {k : β → α} (hx : x.run = some (e.map k))
    {f : α → Scan ε γ} {g : β → Except ε γ}
    (hf : ∀ b, e = .ok b → (f (k b)).run = some (g b)) : (x >>= f).run = some (e >>= g) := by
  rw [ExceptT.run_bind, hx]
  cases e with
  | error e => rfl
  | ok b => exact hf b rfl

/-- A reading with a result goes on with it, or ends with its error. -/
theorem run_bind {x : Scan ε α} {e : Except ε α} (hx : x.run = some e) {f : α → Scan ε β}
    {g : α → Except ε β} (hf : ∀ a, e = .ok a → (f a).run = some (g a)) :
    (x >>= f).run = some (e >>= g) :=
  run_bind_map (k := id) (by cases e <;> exact hx) hf

/-- What is there is taken. -/
theorem run_bind_option {o : Option α} {a : α} (h : o = some a) (f : α → Scan ε β) :
    ((liftM o : Scan ε α) >>= f).run = (f a).run := by
  rw [h]
  rfl

/-- What goes by no offsets always has a result. -/
theorem run_except (e : Except ε α) : (liftM e : Scan ε α).run = some e := rfl

/-! ### Hosts -/

/-- The place of the dot in front of the last `n` bytes of a text, if there is a dot and anything in
front of it. -/
def dotBefore? (raw : Text) (n : Nat) : Option (Option Nat) :=
  match raw.size.psub (n + 1) with
  | none | some 0 => some none
  | some dot => do
    let b ← (Utf8.encode raw)[dot]?
    return if b = 0x2E then some dot else none

/-- The place of the dot in front of the public suffix, if there is one. The look-up is made with
bytes, and answers with bytes. -/
def topLevel? (lookup : List UInt8 → Option (List UInt8)) (raw : Text) : Option (Option Nat) :=
  if raw = [] ∨ raw.getLast? = some '.' then some none
  else
    match lookup (Utf8.encode (raw.map Char.toLower)) with
    | none => some none
    | some suffix => dotBefore? raw suffix.length

/-- Where the last label of a text begins. -/
def labelStart (before : Text) : Nat :=
  ((before.offsets (· == '.')).getLast?.map (· + 1)).getD 0

/-- Reads the sub-domains, which end one byte in front of the place `start` of the domain. -/
def subDomains (raw : Text) (start : Nat) : Scan HostError (List Text) :=
  if 0 < start then do
    let stop ← start.psub 1
    let front ← raw.slice? 0 stop
    liftM ((front.splitOn '.').mapM (Host.readSubDomain raw))
  else return []

/-- Reads the domain name whose top-level domain begins at the place `dot`. -/
def name (raw : Text) (dot : Nat) : Scan HostError Host := do
  let before ← raw.slice? 0 dot
  let start := labelStart before
  let domain ← raw.slice? start dot
  if domain = [] then throw (.unverified raw)
  else do
    let subDomains ← subDomains raw start
    let domain ← Host.readPart domain
    let topLevel ← raw.slice? dot raw.size
    let topLevel ← Host.readPart topLevel
    return .name subDomains domain topLevel

/-- Reads a host. -/
def host (lookup : List UInt8 → Option (List UInt8)) (acceptIp : Bool) (raw : Text) :
    Scan HostError Host := do
  match ← topLevel? lookup raw with
  | some dot => name raw dot
  | none =>
    match if acceptIp then Ip.Address.ofHost? raw else none with
    | some address => return .ip address
    | none => throw (.unverified raw)

/-! ### What is read by offsets -/

/-- A dot with something in front of it is found by the number of bytes behind it. -/
theorem dotBefore?_append {before : Text} (hne : before ≠ []) (rest : Text) :
    dotBefore? (before ++ '.' :: rest) (Text.size rest) = some (some before.size) := by
  obtain ⟨k, hk⟩ := Nat.exists_eq_add_one_of_ne_zero (mt Text.size_eq_zero_iff.mp hne)
  have hdot : (Text.size (before ++ '.' :: rest)).psub (Text.size rest + 1) = some (k + 1) := by
    rw [Nat.psub_eq_some, Text.size_append, Text.size_cons, hk, show '.'.utf8Size = 1 from rfl]
    omega
  have hbyte : (Utf8.encode (before ++ '.' :: rest))[k + 1]? = some 0x2E := by
    rw [Utf8.encode_append, ← hk, Text.size, List.getElem?_append_right (Nat.le_refl _),
      Nat.sub_self]
    rfl
  rw [dotBefore?, hdot, hk]
  simp only [hbyte]
  rfl

/-- Where a dot is found, the text ends in that dot and so many bytes. -/
theorem dotBefore?_cases (raw : Text) (n : Nat) :
    dotBefore? raw n = some none ∨
      ∃ before rest, raw = before ++ '.' :: rest ∧ before ≠ [] ∧ Text.size rest = n := by
  rw [dotBefore?]
  split
  · exact .inl rfl
  · exact .inl rfl
  · rename_i dot hne hdot
    have hsize : dot + (n + 1) = raw.size := Nat.psub_eq_some.mp hdot
    -- there is a byte at the place of the dot: something was taken away from the size
    have hlt : dot < (Utf8.encode raw).length := by
      rw [← Text.size]
      omega
    rw [List.getElem?_eq_getElem hlt]
    by_cases hbyte : (Utf8.encode raw)[dot] = 0x2E
    · obtain ⟨before, rest, rfl, rfl⟩ := Text.exists_append_of_getElem? (c := '.') (by decide)
        (List.getElem?_eq_some_iff.mpr ⟨hlt, hbyte⟩)
      refine .inr ⟨before, rest, rfl, ?_, ?_⟩
      · rintro rfl
        exact hne rfl
      · rw [Text.size_append, Text.size_cons, show '.'.utf8Size = 1 from rfl] at hsize
        omega
    · left
      simp [hbyte]

theorem labelStart_of_not_mem {label : Text} (h : '.' ∉ label) : labelStart label = 0 := by
  rw [labelStart, Text.offsets_eq_nil_of_not_mem h]
  rfl

theorem labelStart_append {label : Text} (h : '.' ∉ label) (front : Text) :
    labelStart (front ++ '.' :: label) = front.size + 1 := by
  rw [labelStart, Text.offsets_append_cons (by decide), Text.offsets_eq_nil_of_not_mem h]
  simp

/-- A text without dots is a label, and any other text ends in one. -/
theorem eq_label_or_exists (before : Text) :
    '.' ∉ before ∨ ∃ front label, before = front ++ '.' :: label ∧ '.' ∉ label := by
  induction before with
  | nil => exact .inl List.not_mem_nil
  | cons c before ih =>
    obtain hmem | ⟨front, label, rfl, hlabel⟩ := ih
    · by_cases hc : c = '.'
      · exact .inr ⟨[], before, by rw [hc]; rfl, hmem⟩
      · exact .inl (by simp [hmem, Ne.symm hc])
    · exact .inr ⟨c :: front, label, rfl, hlabel⟩

/-- The last label is the domain, and those in front of it are its sub-domains. -/
theorem readName_of_splitOn {raw before top label : Text} {labels : List Text}
    (h : before.splitOn '.' = labels ++ [label]) :
    Host.readName raw before top =
      if label = [] then .error (.unverified raw)
      else do
        let subDomains ← labels.mapM (Host.readSubDomain raw)
        let domain ← Host.readPart label
        let topLevel ← Host.readPart top
        return .name subDomains domain topLevel := by
  rw [Host.readName, h]
  simp only [List.getLastD_concat, List.dropLast_concat]
  split_ifs <;> rfl

/-- The sub-domains are all labels but the last one. -/
theorem exists_labels (before top : Text) : ∃ labels label,
    before.splitOn '.' = labels ++ [label] ∧
      (before ++ top).slice? (labelStart before) before.size = some label ∧
      (subDomains (before ++ top) (labelStart before)).run
        = some (labels.mapM (Host.readSubDomain (before ++ top))) := by
  obtain h | ⟨front, label, rfl, h⟩ := eq_label_or_exists before
  · rw [labelStart_of_not_mem h, List.splitOn_eq_singleton h]
    exact ⟨[], before, rfl, Text.slice?_front before top, rfl⟩
  · rw [labelStart_append h, List.splitOn_append_cons_self, List.splitOn_eq_singleton h]
    refine ⟨front.splitOn '.', label, rfl, ?_, ?_⟩
    · refine Text.slice?_eq_some_iff.mpr ⟨front ++ ['.'], top, by simp, ?_, by simp⟩
      rw [Text.size_append]
      rfl
    · have hstop : (front.size + 1).psub 1 = some front.size := Nat.psub_eq_some.mpr rfl
      have hfront : (front ++ '.' :: label ++ top).slice? 0 front.size = some front := by
        rw [List.append_assoc]
        exact Text.slice?_front front _
      rw [subDomains, if_pos (Nat.succ_pos _), run_bind_option hstop, run_bind_option hfront,
        run_except]

/-- A name is read whatever place its top-level domain begins at. -/
theorem run_name (before top : Text) :
    (name (before ++ top) before.size).run = some (Host.readName (before ++ top) before top) := by
  obtain ⟨labels, label, hlabels, hlabel, hsubDomains⟩ := exists_labels before top
  rw [name, run_bind_option (Text.slice?_front before top), readName_of_splitOn hlabels]
  simp only
  rw [run_bind_option hlabel]
  split_ifs with hnil
  · rfl
  · refine run_bind hsubDomains fun subDomains _ => run_bind (run_except _) fun domain _ => ?_
    rw [run_bind_option (Text.slice?_back before top)]
    exact run_bind (run_except _) fun topLevel _ => rfl

section Lookup

variable {lookup : List UInt8 → Option (List UInt8)}
  (hlookup : ∀ bytes suffix, lookup bytes = some suffix → suffix <:+ bytes)
  (services : Option Text)

include hlookup in
theorem isSuffix_of_suffix?_ofLookup {t s : Text}
    (h : (Registry.ofLookup lookup services).suffix? t = some s) : s <:+ t :=
  Text.isSuffix_of_encode (hlookup _ _ ((Registry.suffix?_ofLookup_eq_some_iff services).mp h))

/-- Where there is a suffix, its dot is found. -/
theorem topLevel?_of_findsSuffix {raw before rest : Text}
    (h : Host.FindsSuffix (Registry.ofLookup lookup services) raw before rest) :
    topLevel? lookup raw = some (some before.size) := by
  obtain ⟨rfl, hne, hdot, hsuffix⟩ := h
  have hlength : (Utf8.encode (rest.map Char.toLower)).length = rest.size :=
    Text.size_map_toLower rest
  have hraw : ¬(before ++ '.' :: rest = [] ∨ (before ++ '.' :: rest).getLast? = some '.') := by
    rintro (h | h)
    · simp at h
    · exact hdot h
  rw [topLevel?, if_neg hraw, (Registry.suffix?_ofLookup_eq_some_iff services).mp hsuffix]
  simp only [hlength, dotBefore?_append hne]

include hlookup in
/-- Where there is none, nothing is found: in front of a suffix there is another byte than that of a
dot, or nothing in front of the dot, or no byte at all. -/
theorem topLevel?_of_not_findsSuffix {raw : Text}
    (h : ∀ before rest, ¬Host.FindsSuffix (Registry.ofLookup lookup services) raw before rest) :
    topLevel? lookup raw = some none := by
  rw [topLevel?]
  split_ifs with hdot
  · rfl
  · split
    · rfl
    · rename_i suffix hsuffix
      obtain hnone | ⟨before, rest, rfl, hne, hlength⟩ := dotBefore?_cases raw suffix.length
      · exact hnone
      · -- two endings of one length are the same
        have hrest : Utf8.encode (rest.map Char.toLower) <:+
            Utf8.encode ((before ++ '.' :: rest).map Char.toLower) := by
          rw [List.map_append, List.map_cons, Utf8.encode_append]
          exact (List.suffix_append ..).trans (List.suffix_append ..)
        have hlen : suffix.length = (Utf8.encode (rest.map Char.toLower)).length := by
          rw [← Text.size, Text.size_map_toLower, hlength]
        have heq := (List.suffix_of_suffix_length_le (hlookup _ _ hsuffix) hrest
          (Nat.le_of_eq hlen)).eq_of_length hlen
        refine absurd ⟨rfl, hne, fun h => hdot (.inr h), ?_⟩ (h before rest)
        rw [Registry.suffix?_ofLookup_eq_some_iff, hsuffix, heq]

include hlookup in
/-- The dot of the top-level domain is found at its place. -/
theorem topLevel?_eq_some (raw : Text) :
    topLevel? lookup raw
      = some ((Host.topLevel? (Registry.ofLookup lookup services) raw).map (·.1.size)) := by
  have hreg := fun {name s} => isSuffix_of_suffix?_ofLookup hlookup services (t := name) (s := s)
  rcases htop : Host.topLevel? (Registry.ofLookup lookup services) raw with _ | ⟨before, top⟩
  · refine topLevel?_of_not_findsSuffix hlookup services fun before rest h => ?_
    have hfound := (Host.topLevel?_eq_some_iff fun _ => hreg).mpr ⟨rest, rfl, h⟩
    rw [htop] at hfound
    cases hfound
  · obtain ⟨rest, rfl, h⟩ := (Host.topLevel?_eq_some_iff fun _ => hreg).mp htop
    exact topLevel?_of_findsSuffix services h

include hlookup in
/-- Hosts are read by offsets as they are read without. -/
theorem run_host (acceptIp : Bool) (raw : Text) : (host lookup acceptIp raw).run
    = some (Host.read (Registry.ofLookup lookup services) acceptIp raw) := by
  rw [host, run_bind_option (topLevel?_eq_some hlookup services raw), Host.read]
  rcases htop : Host.topLevel? (Registry.ofLookup lookup services) raw with _ | ⟨before, top⟩
  · simp only [Option.map_none]
    rcases (if acceptIp then Ip.Address.ofHost? raw else none) with _ | address <;> rfl
  · obtain ⟨rfl, _⟩ := Host.of_topLevel? htop
    exact run_name before top

end Lookup

end Scan

end CanonicalUri
