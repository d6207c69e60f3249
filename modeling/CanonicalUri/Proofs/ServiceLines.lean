import CanonicalUri.Proofs.Numerals
import CanonicalUri.Services
import Mathlib.Tactic.SplitIfs

/-!
# Services by their lines

What a services database says, line by line, without saying how it is searched.

* `Text.lines` and `Text.WordsForm`: the lines of a text, and the words of a line.
* `Service.Form`: a line with a service on it, perhaps with a comment behind it.
* `Services.Gives`: a line that gives a port for a name under a protocol. A line of any other form,
  of another name or protocol, or with a number that is no port gives none.
* `Services.SchemePort`: the built-in port of a scheme, or else the first one that is given under
  TCP, or else, where no line gives one under TCP, the first one under UDP.

The search reads a database in its pieces between line feeds, which are its lines up to a carriage
return at the end. That is white space, so nothing hangs on it (`Services.findPort?_eq_findSome?`).
`Services.findPort?_first` says that the first line that gives a port decides, whatever the lines in
front of it are, and that schemes have the port that `SchemePort` says.
-/

namespace CanonicalUri

/-! ### Lines and words -/

namespace Text

/-- A line without the carriage return at its end. -/
def dropReturn (t : Text) : Text :=
  if t.getLast? = some '\r' then t.dropLast else t

/-- The lines of a text. A line ends with a line feed, in front of which a carriage return may
stand; what is behind the last line feed is a line, too, unless it is empty. -/
def lines (t : Text) : List Text :=
  let pieces := t.splitOn '\n'
  pieces.dropLast.map dropReturn ++ pieces.getLast?.toList.filter (· != [])

/-- The words of a text, with white space between and perhaps around them. -/
inductive WordsForm : Text → List Text → Prop
  | nil {b : Text} (hb : ∀ c ∈ b, isBlank c = true) : WordsForm b []
  | cons {b w t : Text} {ws : List Text} (hb : ∀ c ∈ b, isBlank c = true) (hne : w ≠ [])
      (hw : ∀ c ∈ w, isBlank c = false) (hend : ∀ c ∈ t.head?, isBlank c = true)
      (ht : WordsForm t ws) : WordsForm (b ++ w ++ t) (w :: ws)

@[simp] theorem words_nil : words [] = [] := by
  simp [words, List.splitOnP_nil]

/-- White space splits the words of a text. -/
theorem words_append_cons {c : Char} (hc : isBlank c = true) (s t : Text) :
    words (s ++ c :: t) = words s ++ words t := by
  rw [words, List.splitOnP_append_cons s t hc, List.filter_append, words, words]

/-- White space in front belongs to no word. -/
theorem words_append_of_blank {b : Text} (hb : ∀ c ∈ b, isBlank c = true) (t : Text) :
    words (b ++ t) = words t := by
  induction b with
  | nil => rfl
  | cons c b ih =>
    rw [List.forall_mem_cons] at hb
    have h := words_append_cons hb.1 [] (b ++ t)
    rw [List.nil_append, words_nil, List.nil_append] at h
    rw [List.cons_append, h, ih hb.2]

/-- A word ends at white space, or at the end of the text. -/
theorem words_append_word {w t : Text} (hne : w ≠ []) (hw : ∀ c ∈ w, isBlank c = false)
    (hend : ∀ c ∈ t.head?, isBlank c = true) : words (w ++ t) = w :: words t := by
  have hword : words w = [w] := by
    rw [words, List.splitOnP_eq_singleton hw, List.filter_cons_of_pos (by simpa using hne),
      List.filter_nil]
  obtain _ | ⟨c, t⟩ := t
  · rw [List.append_nil, hword, words_nil]
  · have hc : isBlank c = true := hend c rfl
    have h := words_append_cons hc [] t
    rw [List.nil_append, words_nil, List.nil_append] at h
    rw [words_append_cons hc, hword, h, List.singleton_append]

theorem WordsForm.words_eq {t : Text} {ws : List Text} (h : WordsForm t ws) : words t = ws := by
  induction h with
  | @nil b hb =>
    have h := words_append_of_blank hb []
    rwa [List.append_nil, words_nil] at h
  | cons hb hne hw hend _ ih =>
    rw [List.append_assoc, words_append_of_blank hb, words_append_word hne hw hend, ih]

/-- Every text has words, perhaps none. -/
theorem exists_wordsForm (t : Text) : ∃ ws, WordsForm t ws := by
  induction t with
  | nil => exact ⟨[], .nil (by simp)⟩
  | cons c t ih =>
    obtain ⟨ws, h⟩ := ih
    by_cases hc : isBlank c = true
    · -- white space goes to the white space in front of the first word
      obtain hb | @⟨b, w, t, ws, hb, hne, hw, hend, ht⟩ := h
      · exact ⟨[], .nil (List.forall_mem_cons.mpr ⟨hc, hb⟩)⟩
      · exact ⟨w :: ws, .cons (b := c :: b) (List.forall_mem_cons.mpr ⟨hc, hb⟩) hne hw hend ht⟩
    · -- a word gets longer if it is right behind, and another character is a word of its own
      have hc : isBlank c = false := Bool.eq_false_iff.mpr hc
      have hword : ∀ x ∈ [c], isBlank x = false := by simpa using hc
      by_cases hend : ∀ x ∈ t.head?, isBlank x = true
      · exact ⟨[c] :: ws, .cons (b := []) (by simp) (by simp) hword hend h⟩
      · obtain hb | @⟨b, w, t, ws, hb, hne, hw, hend', ht⟩ := h
        · exact absurd (fun x hx => hb x (List.mem_of_mem_head? hx)) hend
        · obtain _ | ⟨x, b⟩ := b
          · exact ⟨(c :: w) :: ws, .cons (b := []) (w := c :: w) (by simp) (by simp)
              (List.forall_mem_cons.mpr ⟨hc, hw⟩) hend' ht⟩
          · exact absurd (by simpa using (List.forall_mem_cons.mp hb).1) hend

theorem words_eq_iff {t : Text} {ws : List Text} : words t = ws ↔ WordsForm t ws := by
  refine ⟨?_, WordsForm.words_eq⟩
  rintro rfl
  obtain ⟨ws, h⟩ := exists_wordsForm t
  rwa [h.words_eq]

end Text

/-! ### A line -/

namespace Service

/-- A line with a service: in front of the comment its words are a name, port and protocol with the
first slash between them, and further names. -/
inductive Form : Text → Service → Prop
  | intro {front : Text} {comment : Option Text} {s : Service} (hfront : '#' ∉ front)
      (hslash : '/' ∉ s.port)
      (hwords : Text.WordsForm front (s.name :: (s.port ++ '/' :: s.protocol) :: s.aliases)) :
      Form (Text.uncut '#' front comment) s

theorem ofLine?_eq_some_iff {line : Text} {s : Service} : ofLine? line = some s ↔ Form line s := by
  rw [ofLine?]
  constructor
  · intro h
    split at h
    · rename_i name endpoint aliases hwords
      split at h
      · rename_i port protocol hcut
        cases h
        have hslash := Text.not_mem_fst_cut '/' endpoint
        have hendpoint := Text.uncut_cut '/' endpoint
        rw [hcut] at hslash hendpoint
        rw [← hendpoint, Text.words_eq_iff] at hwords
        have hform : Form (Text.uncut '#' (Text.cut '#' line).1 (Text.cut '#' line).2)
            ⟨name, port, protocol, aliases⟩ :=
          .intro (Text.not_mem_fst_cut '#' line) hslash hwords
        rwa [Text.uncut_cut] at hform
      · cases h
    · cases h
  · rintro ⟨hfront, hslash, hwords⟩
    have hcut : Text.cut '/' (s.port ++ '/' :: s.protocol) = (s.port, some s.protocol) :=
      Text.cut_uncut hslash (some s.protocol)
    rw [Text.cut_uncut hfront, hwords.words_eq]
    simp only [hcut]

/-- A carriage return at the end of a line is white space or part of the comment. -/
theorem ofLine?_append_return (line : Text) : ofLine? (line ++ ['\r']) = ofLine? line := by
  have hwords :
      Text.words (Text.cut '#' (line ++ ['\r'])).1 = Text.words (Text.cut '#' line).1 := by
    simp only [Text.cut, List.takeWhile_append]
    split
    · rename_i hlength
      have hline := (List.takeWhile_prefix (p := (· != '#')) (l := line)).eq_of_length hlength
      have hreturn := Text.words_append_cons (c := '\r') (by decide) line []
      rw [Text.words_nil, List.append_nil] at hreturn
      rw [hline]
      exact hreturn
    · rfl
  rw [ofLine?, hwords, ofLine?]

/-- A numeral of a port, perhaps with a plus in front. -/
def PortText (t : Text) (port : UInt16) : Prop :=
  Decimal.Numeral t port.toNat ∨ ∃ digits, t = '+' :: digits ∧ Decimal.Numeral digits port.toNat

theorem portNumber?_eq_some_iff {s : Service} {port : UInt16} :
    s.portNumber? = some port ↔ PortText s.port port := by
  rw [portNumber?, PortText]
  split
  · rename_i digits hport
    have hplus : ¬Decimal.Numeral ('+' :: digits) port.toNat := fun h =>
      absurd (h.isDigit List.mem_cons_self) (by decide)
    rw [Decimal.readPort?_eq_some_iff, hport]
    simp [hplus]
  · rename_i hport
    rw [Decimal.readPort?_eq_some_iff]
    exact ⟨.inl, fun h => h.resolve_right fun ⟨digits, hplus, _⟩ => hport digits hplus⟩

end Service

namespace Services

/-- A line gives a port for a name under a protocol: there is a service on it that goes by the name,
as the first of its names or a further one, under that protocol and at that port. -/
def Gives (name protocol line : Text) (port : UInt16) : Prop :=
  ∃ s, Service.Form line s ∧ s.protocol = protocol ∧ (s.name = name ∨ name ∈ s.aliases) ∧
    Service.PortText s.port port

/-- The port of the first line that gives one. -/
def FirstGiven (name protocol database : Text) (port : UInt16) : Prop :=
  ∃ before line after, Text.lines database = before ++ line :: after ∧
    Gives name protocol line port ∧ ∀ l ∈ before, ∀ p, ¬Gives name protocol l p

/-- The port that a scheme has by the built-in ports and a database. -/
inductive SchemePort (database scheme : Text) (port : UInt16) : Prop
  | builtIn (h : (scheme, port) ∈ wellKnown)
  | tcp (hother : ∀ p, (scheme, p) ∉ wellKnown) (h : FirstGiven scheme "tcp".toList database port)
  | udp (hother : ∀ p, (scheme, p) ∉ wellKnown)
      (htcp : ∀ line ∈ Text.lines database, ∀ p, ¬Gives scheme "tcp".toList line p)
      (h : FirstGiven scheme "udp".toList database port)

/-- What the search takes from a line. -/
def portOf? (name protocol line : Text) : Option UInt16 := do
  let s ← Service.ofLine? line
  if s.answersTo name protocol then s.portNumber? else none

theorem portOf?_eq_some_iff {name protocol line : Text} {port : UInt16} :
    portOf? name protocol line = some port ↔ Gives name protocol line port := by
  simp only [portOf?, Option.bind_eq_bind, Option.bind_eq_some_iff, Option.ite_none_right_eq_some,
    Service.answersTo, Service.ofLine?_eq_some_iff, Service.portNumber?_eq_some_iff,
    Bool.and_eq_true, Bool.or_eq_true, beq_iff_eq, List.contains_eq_mem, decide_eq_true_eq, Gives,
    and_assoc]

theorem portOf?_eq_none_iff {name protocol line : Text} :
    portOf? name protocol line = none ↔ ∀ port, ¬Gives name protocol line port := by
  rw [Option.eq_none_iff_forall_ne_some]
  exact forall_congr' fun _ => not_congr portOf?_eq_some_iff

/-- Nothing is taken from an empty line. -/
theorem portOf?_nil (name protocol : Text) : portOf? name protocol [] = none := by
  simp [portOf?, Service.ofLine?, Text.cut]

theorem portOf?_dropReturn (name protocol line : Text) :
    portOf? name protocol (Text.dropReturn line) = portOf? name protocol line := by
  rw [Text.dropReturn]
  split_ifs with h
  · obtain ⟨line, rfl⟩ := List.getLast?_eq_some_iff.mp h
    rw [List.dropLast_concat, portOf?, portOf?, Service.ofLine?_append_return]
  · rfl

/-- The search goes through the lines of a database. -/
theorem findPort?_eq_findSome? (database name protocol : Text) :
    findPort? database name protocol =
      (Text.lines database).findSome? (portOf? name protocol) := by
  have hreturn : portOf? name protocol ∘ Text.dropReturn = portOf? name protocol :=
    funext (portOf?_dropReturn name protocol)
  change (database.splitOn '\n').findSome? (portOf? name protocol) = _
  simp only [Text.lines]
  obtain hnil | ⟨front, last, hlast⟩ := List.eq_nil_or_concat (database.splitOn '\n')
  · exact absurd hnil (List.splitOn_ne_nil _ _)
  · rw [List.concat_eq_append] at hlast
    rw [hlast, List.dropLast_concat, List.getLast?_concat, List.findSome?_append,
      List.findSome?_append, List.findSome?_map, hreturn]
    -- an empty last piece is no line, but nothing would be taken from it either
    by_cases hempty : last = []
    · simp [hempty, portOf?_nil]
    · simp [hempty]

theorem findPort?_eq_some_iff {database name protocol : Text} {port : UInt16} :
    findPort? database name protocol = some port ↔ FirstGiven name protocol database port := by
  simp only [findPort?_eq_findSome?, List.findSome?_eq_some_iff, portOf?_eq_some_iff,
    portOf?_eq_none_iff, FirstGiven]

theorem findPort?_eq_none_iff {database name protocol : Text} :
    findPort? database name protocol = none ↔
      ∀ line ∈ Text.lines database, ∀ port, ¬Gives name protocol line port := by
  simp only [findPort?_eq_findSome?, List.findSome?_eq_none_iff, portOf?_eq_none_iff]

/-- One database after the other. -/
theorem findPort?_append (s t name protocol : Text) :
    findPort? (s ++ '\n' :: t) name protocol =
      (findPort? s name protocol).or (findPort? t name protocol) := by
  rw [findPort?, List.splitOn_append_cons_self, List.findSome?_append, findPort?, findPort?]

theorem lookup_wellKnown_eq_some_iff {scheme : Text} {port : UInt16} :
    wellKnown.lookup scheme = some port ↔ (scheme, port) ∈ wellKnown := by
  have hself : ∀ x ∈ wellKnown, wellKnown.lookup x.1 = some x.2 := by decide
  refine ⟨fun h => ?_, hself (scheme, port)⟩
  obtain ⟨front, back, hmem, _⟩ := List.lookup_eq_some_iff.mp h
  rw [hmem]
  simp

theorem defaultPort_eq_some_iff {database scheme : Text} {port : UInt16} :
    defaultPort (some database) scheme = some port ↔ SchemePort database scheme port := by
  have hdefault : defaultPort (some database) scheme = (wellKnown.lookup scheme).or
      ((findPort? database scheme "tcp".toList).or (findPort? database scheme "udp".toList)) := by
    simp only [defaultPort, Option.bind_eq_bind, Option.bind_some, Option.orElse_eq_orElse,
      Option.orElse_eq_or]
  have hother : wellKnown.lookup scheme = none ↔ ∀ p, (scheme, p) ∉ wellKnown := by
    rw [Option.eq_none_iff_forall_ne_some]
    exact forall_congr' fun _ => not_congr lookup_wellKnown_eq_some_iff
  simp only [hdefault, Option.or_eq_some_iff, lookup_wellKnown_eq_some_iff, hother,
    findPort?_eq_some_iff, findPort?_eq_none_iff]
  constructor
  · rintro (h | ⟨hother, h | ⟨htcp, h⟩⟩)
    · exact .builtIn h
    · exact .tcp hother h
    · exact .udp hother htcp h
  · rintro (h | ⟨hother, h⟩ | ⟨hother, htcp, h⟩)
    · exact .inl h
    · exact .inr ⟨hother, .inl h⟩
    · exact .inr ⟨hother, .inr ⟨htcp, h⟩⟩

/-- The first line of a database that gives a port for a name under a protocol decides; there is no
answer exactly when no line gives one. So a database that is the continuation of another one is
asked where that one has no answer, and a scheme has the port that is built in, or else the one
given under TCP wherever that line is, or else the one given under UDP. -/
theorem findPort?_first :
    (∀ database name protocol port,
        findPort? database name protocol = some port ↔ FirstGiven name protocol database port) ∧
      (∀ database name protocol, findPort? database name protocol = none ↔
        ∀ line ∈ Text.lines database, ∀ port, ¬Gives name protocol line port) ∧
      (∀ s t name protocol, findPort? (s ++ '\n' :: t) name protocol =
        (findPort? s name protocol).or (findPort? t name protocol)) ∧
      ∀ database scheme port,
        defaultPort (some database) scheme = some port ↔ SchemePort database scheme port :=
  ⟨fun _ _ _ _ => findPort?_eq_some_iff, fun _ _ _ => findPort?_eq_none_iff, findPort?_append,
    fun _ _ _ => defaultPort_eq_some_iff⟩

/-- The service under TCP comes last, with a further name, behind lines that give no port for it. -/
example : defaultPort (some
    "x 7/udp\r\n# x 8/tcp\r\nx 65536/tcp\r\n\r\nx tcp\r\nx 9/tcp/1\r\n y\t+010/tcp z x#\r\n".toList)
    "x".toList = some 10 := by
  decide +kernel

end Services

end CanonicalUri
