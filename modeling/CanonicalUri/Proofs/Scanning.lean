import CanonicalUri.Proofs.Phases
import CanonicalUri.Proofs.Scanning.Host

/-!
# URIs, read by offsets

`Scan.uri` reads a URI by byte offsets, from the scheme to the fragment: each step looks for a place
and slices the text there. It has no result where a slice does not begin and end between characters.

* `Scan.outerColon_encode`: the colon in front of the port, looked for byte by byte, stands where
  the text is cut by characters.
* `Scan.run_tail`: path, query and fragment, each read from what the one before it leaves, are those
  that the tail is cut into.
* `Scan.run_uri`: every text is read, and as `Parsed.ofText` reads it.
* `Scan.run_agrees` says this of all steps, for any look-up of public suffixes whose answers are
  endings of the bytes it is asked about.
-/

namespace CanonicalUri

namespace Scan

/-- Reads what is in front of the first character that stops a part, and leaves the rest. -/
def upTo {α : Type} (stop : Char → Bool) (read : Text → Scan ParseError α) (t : Text) :
    Scan ParseError (α × Text) := do
  let (encoded, rest) ← t.breakAt? stop
  let a ← read encoded
  return (a, rest)

/-! ### Authorities -/

/-- Cuts an authority at its at sign, and the credentials in front of that. -/
def user (t : Text) : Scan ParseError ((Text × Text) × Text) :=
  match t.offsets (· == '@') with
  | [] => return (([], []), t)
  | [i] => do
    let credentials ← t.slice? 0 i
    let server ← t.slice? (i + 1) t.size
    let credentials ← RawAuthority.cutCredentials credentials
    return (credentials, server)
  | _ => throw .multipleAtSigns

/-- Looks for the colon in front of a port among bytes of which the first one is at the place `i`.
One may have been found before, and a bracket may be open. -/
def outerColon (i : Nat) (colon : Option Nat) (inside : Bool) :
    List UInt8 → Except ParseError (Option Nat)
  | [] => .ok colon
  | b :: bytes =>
    if b = 0x5B then outerColon (i + 1) colon true bytes
    else if b = 0x5D then outerColon (i + 1) colon false bytes
    else if b = 0x3A ∧ inside = false then
      if colon.isSome then .error .multipleColonsInDomain
      else outerColon (i + 1) (some i) false bytes
    else outerColon (i + 1) colon inside bytes

/-- Cuts the host and its port. -/
def port (t : Text) : Scan ParseError (Text × Option UInt16) := do
  match ← outerColon 0 none false (Utf8.encode t) with
  | none => return (t, none)
  | some colon =>
    let value ← t.slice? (colon + 1) t.size
    let port ← RawAuthority.readPort value
    let host ← t.slice? 0 colon
    return (host, some port)

/-- Reads an authority. -/
def authority (lookup : List UInt8 → Option (List UInt8)) (acceptIp : Bool) (t : Text) :
    Scan ParseError Authority := do
  let ((userName, password), server) ← user t
  let (hostText, port) ← port server
  if hostText = [] then throw .missingDomain
  else do
    let userName ← Component.userName.decode userName
    let password ← Component.password.decode password
    if decide (userName = []) != decide (password = []) then throw .unpairedCredentials
    else do
      let host ← (host lookup acceptIp hostText).adapt ParseError.invalidDomain
      return ⟨userName, password, host, port⟩

/-! ### What follows the authority -/

/-- Reads a path, and leaves what is behind it. -/
def path : Text → Scan ParseError (Path × Text)
  | '/' :: t => upTo (fun c => c == '?' || c == '#') (fun encoded => Path.read encoded) t
  | t => return ([], t)

/-- Reads a query, and leaves what is behind it. -/
def query : Text → Scan ParseError (Query × Text)
  | '?' :: t => upTo (· == '#') (fun encoded => Query.read encoded) t
  | t => return (.empty, t)

/-- Reads what is left as a fragment. -/
def fragment : Text → Fragment
  | '#' :: t => Fragment.read t
  | _ => .anchor []

/-! ### The whole URI -/

/-- Cuts the scheme and the `://` behind it. -/
def scheme (t : Text) : Scan ParseError (Text × Text) :=
  match (t.offsets (· == ':')).head? with
  | none => throw .missingSchemeSeparator
  | some 0 => throw .emptyScheme
  | some colon => do
    match ← t.slice? (colon + 1) t.size with
    | '/' :: '/' :: rest =>
      let scheme ← t.slice? 0 colon
      return (scheme, rest)
    | _ => throw .missingSchemeSeparator

/-- Reads the authority if there has to be one, and leaves what is behind it. -/
def optionalAuthority (lookup : List UInt8 → Option (List UInt8)) (mode : ParseMode) (t : Text) :
    Scan ParseError (Authority × Text) :=
  if mode.acceptPath = true ∧ t.head? = some '/' then return (.absent, t)
  else upTo (· == '/') (authority lookup mode.acceptIp) t

/-- Reads what is behind a scheme. -/
def behindScheme (lookup : List UInt8 → Option (List UInt8)) (services : Option Text)
    (mode : ParseMode) (scheme t : Text) : Scan ParseError Parsed := do
  let (authority, rest) ← optionalAuthority lookup mode t
  let (path, rest) ← path rest
  let (query, rest) ← query rest
  let schemePort := Services.defaultPort services scheme
  return {
    scheme := scheme
    schemePort := schemePort
    userName := authority.userName
    password := authority.password
    host := authority.host
    port := authority.port <|> schemePort
    path := path
    hashBangPath := (fragment rest).path
    query := query
    anchor := (fragment rest).anchorText }

/-- Reads a URI. -/
def uri (lookup : List UInt8 → Option (List UInt8)) (services : Option Text) (mode : ParseMode)
    (t : Text) : Scan ParseError Parsed :=
  if t = [] then throw .empty
  else do
    let (scheme, rest) ← scheme t
    behindScheme lookup services mode scheme rest

/-! ### Parts, read by offsets -/

section Parts

variable {α : Type} {stop : Char → Bool} {read : Text → Scan ParseError α}

/-- A part is read up to where it stops. -/
theorem run_upTo {s t : Text} {e : Except ParseError α} (hs : ∀ c ∈ s, stop c = false)
    (ht : ∀ c ∈ t.head?, stop c = true) (hread : (read s).run = some e) :
    (upTo stop read (s ++ t)).run = some (e.map (·, t)) := by
  rw [upTo, run_bind_option (Text.breakAt?_append hs ht)]
  exact run_bind hread fun a _ => rfl

/-- In every text there is a place where a part stops. -/
theorem exists_run_upTo (hread : ∀ s, ∃ e, (read s).run = some e) (t : Text) :
    ∃ e, (upTo stop read t).run = some e := by
  rw [upTo, run_bind_option (Text.breakAt?_eq_some stop t)]
  obtain ⟨e, he⟩ := hread (t.takeWhile (!stop ·))
  exact ⟨_, run_bind he fun a _ => rfl⟩

end Parts

/-! ### Authorities, read by offsets -/

/-- A character is not in a text, or it is there for a first time. -/
theorem not_mem_or_exists (c : Char) (t : Text) :
    c ∉ t ∨ ∃ s r, t = s ++ c :: r ∧ c ∉ s := by
  by_cases h : c ∈ t
  · obtain ⟨s, r, rfl, hs⟩ := List.eq_append_cons_of_mem h
    exact .inr ⟨s, r, rfl, hs⟩
  · exact .inl h

/-- At signs are found where the text is split. -/
theorem run_user (t : Text) : (user t).run = some (RawAuthority.cutUser t) := by
  obtain h | ⟨s, r, rfl, hs⟩ := not_mem_or_exists '@' t
  · rw [user, Text.offsets_eq_nil_of_not_mem h, RawAuthority.cutUser, List.splitOn_eq_singleton h]
    rfl
  · rw [user, Text.offsets_append_self hs, RawAuthority.cutUser,
      List.splitOn_append_cons_self_of_not_mem hs]
    obtain h | ⟨s', r', rfl, hs'⟩ := not_mem_or_exists '@' r
    · rw [Text.offsets_eq_nil_of_not_mem h, List.splitOn_eq_singleton h]
      simp only [List.map_nil]
      rw [run_bind_option (Text.slice?_front s ('@' :: r)),
        run_bind_option (Text.slice?_behind rfl s r)]
      exact run_bind (run_except _) fun credentials _ => rfl
    · obtain ⟨x, xs, hxs⟩ := List.exists_cons_of_ne_nil (List.splitOn_ne_nil '@' r')
      rw [Text.offsets_append_self hs', List.splitOn_append_cons_self_of_not_mem hs', hxs]
      rfl

/-- The texts between the colons are those of the whole text. -/
theorem join_colonFields (inside : Bool) (t : Text) :
    Text.join ':' (RawAuthority.colonFields inside t) = t := by
  induction t generalizing inside with
  | nil => rfl
  | cons c t ih =>
    have hcons : ∀ inside', ∃ field fields, RawAuthority.colonFields inside' t = field :: fields :=
      fun inside' => List.exists_cons_of_ne_nil (RawAuthority.colonFields_ne_nil inside' t)
    rw [RawAuthority.colonFields]
    split
    · rename_i h
      have ih := ih false
      obtain ⟨field, fields, hfields⟩ := hcons false
      rw [hfields] at ih ⊢
      rw [Text.join_cons_cons, ih, h.1]
      rfl
    · have ih := ih (if c = '[' then true else if c = ']' then false else inside)
      obtain ⟨field, _ | ⟨field', fields⟩, hfields⟩ :=
        hcons (if c = '[' then true else if c = ']' then false else inside)
      all_goals
        rw [hfields] at ih ⊢
        simpa using ih

/-- The place of the colon in front of the port, by the texts between the colons. -/
def colonOf (i : Nat) : Option Nat → List Text → Except ParseError (Option Nat)
  | none, [_] => .ok none
  | none, [host, _] => .ok (some (i + host.size))
  | some colon, [_] => .ok (some colon)
  | _, _ => .error .multipleColonsInDomain

/-- Bytes that are no colons or brackets are passed over. -/
theorem outerColon_append {bytes : List UInt8} (h : ∀ b ∈ bytes, b ≠ 0x5B ∧ b ≠ 0x5D ∧ b ≠ 0x3A)
    (i : Nat) (colon : Option Nat) (inside : Bool) (rest : List UInt8) :
    outerColon i colon inside (bytes ++ rest) =
      outerColon (i + bytes.length) colon inside rest := by
  induction bytes generalizing i with
  | nil => rfl
  | cons b bytes ih =>
    rw [List.forall_mem_cons] at h
    obtain ⟨⟨hopen, hclose, hcolon⟩, h⟩ := h
    rw [List.cons_append, outerColon, if_neg hopen, if_neg hclose, if_neg fun h => hcolon h.1,
      ih h, List.length_cons, Nat.add_assoc, Nat.add_comm 1]

/-- A character in front of the first text is part of the host. -/
theorem colonOf_modifyHead (i : Nat) (colon : Option Nat) (c : Char) (fields : List Text) :
    colonOf i colon (fields.modifyHead (c :: ·)) = colonOf (i + c.utf8Size) colon fields := by
  obtain _ | ⟨host, _ | ⟨port, fields⟩⟩ := fields
  · cases colon <;> rfl
  · cases colon <;> rfl
  · cases colon <;> cases fields <;> simp [colonOf, Nat.add_assoc]

/-- The colon is found among the bytes that is found among the characters. -/
theorem outerColon_encode (i : Nat) (colon : Option Nat) (inside : Bool) (t : Text) :
    outerColon i colon inside (Utf8.encode t) =
      colonOf i colon (RawAuthority.colonFields inside t) := by
  induction t generalizing i colon inside with
  | nil => cases colon <;> rfl
  | cons c t ih =>
    have hbytes : Utf8.encode (c :: t) = String.utf8EncodeChar c ++ Utf8.encode t := rfl
    rw [hbytes, RawAuthority.colonFields]
    -- a bracket or a colon is one byte, with that value
    by_cases hopen : c = '['
    · subst hopen
      rw [if_neg (by simp), colonOf_modifyHead]
      exact ih ..
    by_cases hclose : c = ']'
    · subst hclose
      rw [if_neg (by simp), colonOf_modifyHead]
      exact ih ..
    by_cases hcolon : c = ':' ∧ inside = false
    · obtain ⟨rfl, rfl⟩ := hcolon
      obtain ⟨field, fields, hfields⟩ :=
        List.exists_cons_of_ne_nil (RawAuthority.colonFields_ne_nil false t)
      rw [if_pos ⟨rfl, rfl⟩, hfields]
      obtain _ | colon := colon
      · refine (ih (i + 1) (some i) false).trans ?_
        rw [hfields]
        cases fields <;> rfl
      · rfl
    rw [if_neg hcolon, if_neg hopen, if_neg hclose, colonOf_modifyHead, ← ih]
    by_cases hc : c = ':'
    · -- a colon inside brackets
      obtain rfl : inside = true := by simpa [hc] using hcolon
      subst hc
      rfl
    · -- no byte of another character is a colon or a bracket
      have hbyte : ∀ {d : Char}, d.toNat < 128 → c ≠ d →
          ∀ b ∈ String.utf8EncodeChar c, b ≠ UInt8.ofNat d.toNat := by
        rintro d hd hne b hb rfl
        exact hne ((Utf8.mem_encodeChar_iff hd).mp hb).symm
      rw [outerColon_append, String.length_utf8EncodeChar]
      exact fun b hb => ⟨hbyte (d := '[') (by decide) hopen b hb,
        hbyte (d := ']') (by decide) hclose b hb, hbyte (d := ':') (by decide) hc b hb⟩

/-- Whether brackets are closed or not, host and port are cut at the one colon outside of them. -/
theorem run_port (t : Text) : (port t).run = some (RawAuthority.cutPort t) := by
  have hjoin := join_colonFields false t
  rw [port, outerColon_encode, RawAuthority.cutPort]
  obtain ⟨host, fields, hfields⟩ :=
    List.exists_cons_of_ne_nil (RawAuthority.colonFields_ne_nil false t)
  rw [hfields] at hjoin ⊢
  obtain _ | ⟨value, _ | ⟨field, fields⟩⟩ := fields
  · rw [Text.join_singleton] at hjoin
    subst hjoin
    rfl
  · rw [Text.join_cons_cons, Text.join_singleton] at hjoin
    subst hjoin
    have hcolon : colonOf 0 none [host, value] = .ok (some host.size) := by simp [colonOf]
    rw [hcolon]
    change ((liftM _ : Scan ParseError Text) >>= _).run = _
    rw [run_bind_option (Text.slice?_behind rfl host value)]
    refine run_bind (run_except _) fun port _ => ?_
    rw [run_bind_option (Text.slice?_front host (':' :: value))]
    rfl
  · rfl

section Lookup

variable {lookup : List UInt8 → Option (List UInt8)}
  (hlookup : ∀ bytes suffix, lookup bytes = some suffix → suffix <:+ bytes)
  (services : Option Text)

/-- An authority is read by cutting it and reading its parts. -/
theorem read_authority_eq (reg : Registry) (acceptIp : Bool) (t : Text) :
    Authority.read reg acceptIp t =
      RawAuthority.cutUser t >>= fun r => RawAuthority.cutPort r.2 >>= fun s =>
        if s.1 = [] then .error .missingDomain
        else Authority.ofRaw reg acceptIp ⟨r.1.1, r.1.2, s.1, s.2⟩ := by
  simp only [Authority.read, RawAuthority.cut, bind_assoc]
  congr 1
  funext r
  congr 1
  funext s
  split_ifs <;> rfl

include hlookup in
theorem run_authority (acceptIp : Bool) (t : Text) : (authority lookup acceptIp t).run
    = some (Authority.read (Registry.ofLookup lookup services) acceptIp t) := by
  rw [authority, read_authority_eq]
  refine run_bind (run_user t) ?_
  rintro ⟨⟨userName, password⟩, server⟩ _
  refine run_bind (run_port server) ?_
  rintro ⟨hostText, port⟩ _
  by_cases hempty : hostText = []
  · simp only [hempty, if_true]
    rfl
  · simp only [hempty, if_false]
    rw [Authority.ofRaw]
    refine run_bind (run_except _) fun userName _ => run_bind (run_except _) fun password _ => ?_
    split_ifs with hpaired
    · rfl
    · refine run_bind ?_ fun host _ => rfl
      rw [ExceptT.run_adapt, run_host hlookup services]
      rfl

end Lookup

/-! ### What follows the authority, read by offsets -/

theorem run_path {t rest : Text} (ht : '?' ∉ t ∧ '#' ∉ t)
    (hrest : ∀ c ∈ rest.head?, c = '?' ∨ c = '#') :
    (path ('/' :: (t ++ rest))).run = some ((Path.read t).map (·, rest)) := by
  rw [path]
  refine run_upTo (fun c hc => ?_) (fun c hc => by simpa using hrest c hc) (run_except _)
  simpa using ⟨ne_of_mem_of_not_mem hc ht.1, ne_of_mem_of_not_mem hc ht.2⟩

theorem run_query {t rest : Text} (ht : '#' ∉ t) (hrest : ∀ c ∈ rest.head?, c = '#') :
    (query ('?' :: (t ++ rest))).run = some ((Query.read t).map (·, rest)) := by
  rw [query]
  refine run_upTo (fun c hc => ?_) (fun c hc => by simpa using hrest c hc) (run_except _)
  simpa using ne_of_mem_of_not_mem hc ht

theorem exists_run_path (t : Text) : ∃ e, (path t).run = some e := by
  rw [path.eq_def]
  split
  · exact exists_run_upTo (fun s => ⟨_, run_except (Path.read s)⟩) _
  · exact ⟨_, rfl⟩

theorem exists_run_query (t : Text) : ∃ e, (query t).run = some e := by
  rw [query.eq_def]
  split
  · exact exists_run_upTo (fun s => ⟨_, run_except (Query.read s)⟩) _
  · exact ⟨_, rfl⟩

/-- The scheme is cut at the first colon, as it is without offsets; the rest is cut later on. -/
theorem run_scheme (t : Text) : ∃ e, (scheme t).run = some e ∧ ∀ acceptPath, t ≠ [] →
    (RawUri.cut acceptPath t).mapError .ofCutError =
      e.map fun r => RawUri.cutRest acceptPath r.1 r.2 := by
  obtain h | ⟨s, r, rfl, hs⟩ := not_mem_or_exists ':' t
  · rw [scheme, Text.offsets_eq_nil_of_not_mem h]
    refine ⟨_, rfl, fun acceptPath hne => ?_⟩
    have hcut : Text.cut ':' t = (t, none) := Text.cut_uncut h none
    rw [RawUri.cut, if_neg hne, hcut]
    rfl
  · rw [scheme, Text.offsets_append_self hs]
    have hcut : Text.cut ':' (s ++ ':' :: r) = (s, some r) := Text.cut_uncut hs (some r)
    obtain _ | ⟨c, s⟩ := s
    · exact ⟨_, rfl, fun _ _ => by rw [RawUri.cut, if_neg (by simp), hcut]; rfl⟩
    · obtain ⟨k, hk⟩ := Nat.exists_eq_add_one_of_ne_zero
        (mt Text.size_eq_zero_iff.mp (List.cons_ne_nil c s))
      have hbehind := Text.slice?_behind (c := ':') rfl (c :: s) r
      have hfront := Text.slice?_front (c :: s) (':' :: r)
      rw [hk] at hbehind hfront ⊢
      simp only [List.head?_cons]
      rw [run_bind_option hbehind]
      split
      · rw [run_bind_option hfront]
        exact ⟨_, rfl, fun _ _ => by rw [RawUri.cut, if_neg (by simp), hcut]; rfl⟩
      · rename_i hslashes
        refine ⟨_, rfl, fun _ _ => ?_⟩
        rw [RawUri.cut, if_neg (by simp), hcut]
        split
        · rename_i heq
          cases heq
        · rename_i heq
          cases heq
        · rename_i heq
          cases heq
          exact absurd rfl (hslashes _)
        · rfl

/-- Path, query and fragment of a tail are read one after the other. -/
theorem run_tail {t p q f : Text} (h : TailForm t (p, q, f)) : ∃ behind behind',
    (path t).run = some ((Path.read p).map (·, behind)) ∧
      (query behind).run = some ((Query.read q).map (·, behind')) ∧
      fragment behind' = Fragment.read f := by
  obtain _ | @⟨_, query, fragment, _, _, hpath, hq, hquery, hf⟩ := h
  · exact ⟨[], [], by rw [Path.read_nil]; rfl, rfl, rfl⟩
  · have hfragment : ∀ c ∈ fragment.head?, c = '#' := by
      obtain _ | _ := hf <;> simp
    refine ⟨query ++ fragment, fragment, ?_, ?_, ?_⟩
    · rw [List.append_assoc]
      refine run_path hpath fun c hc => ?_
      obtain _ | _ := hq
      · exact .inr (hfragment c hc)
      · exact .inl (by simpa using hc.symm)
    · obtain _ | q := hq
      · obtain _ | f := hf <;> rfl
      · exact run_query (fun hmem => hquery (List.mem_cons_of_mem _ hmem)) hfragment
    · obtain _ | f := hf <;> rfl

section Lookup

variable {lookup : List UInt8 → Option (List UInt8)}
  (hlookup : ∀ bytes suffix, lookup bytes = some suffix → suffix <:+ bytes)
  (services : Option Text)

include hlookup in
/-- An authority ends at the first slash, which stays in front of the rest. -/
theorem run_optionalAuthority (mode : ParseMode) {t : Text} (ht : '/' ∉ t) (tail : Option Text) :
    (optionalAuthority lookup mode (t ++ Text.uncut '/' [] tail)).run =
      some ((readAuthority (Registry.ofLookup lookup services) mode.acceptIp
        (if mode.acceptPath ∧ t = [] ∧ tail ≠ none then none else some t)).map
          (·, Text.uncut '/' [] tail)) := by
  have hhead : (t ++ Text.uncut '/' [] tail).head? = some '/' ↔ t = [] ∧ tail ≠ none := by
    obtain _ | ⟨c, t⟩ := t
    · cases tail <;> simp [Text.uncut]
    · simpa using fun hc : c = '/' => ht (hc ▸ List.mem_cons_self)
  rw [optionalAuthority]
  simp only [hhead]
  split_ifs with hmissing
  · obtain ⟨_, rfl, _⟩ := hmissing
    rfl
  · refine run_upTo (fun c hc => ?_) (fun c hc => ?_)
      (run_authority hlookup services mode.acceptIp t)
    · simpa using ne_of_mem_of_not_mem hc ht
    · cases tail
      · cases hc
      · simpa [Text.uncut] using hc.symm

include hlookup in
theorem run_behindScheme (mode : ParseMode) (scheme t : Text) :
    (behindScheme lookup services mode scheme t).run
      = some (Parsed.ofRaw (Registry.ofLookup lookup services) mode
        (RawUri.cutRest mode.acceptPath scheme t)) := by
  have hslash := Text.not_mem_fst_cut '/' t
  have ht := Text.uncut_cut '/' t
  rw [Text.uncut_eq_append] at ht
  obtain ⟨behind, behind', hpath, hquery, hfragment⟩ :=
    run_tail (tailForm_iff.mpr ⟨(Text.cut '/' t).2, rfl, rfl⟩)
  rw [Parsed.ofRaw_eq_map_readFront, Parsed.readFront, behindScheme]
  simp only [map_bind, map_pure]
  conv_lhs => rw [← ht]
  refine run_bind_map (run_optionalAuthority hlookup services mode hslash _) fun a _ => ?_
  refine run_bind_map hpath fun p _ => run_bind_map hquery fun q _ => ?_
  simp only [hfragment]
  rfl

include hlookup in
/-- URIs are read by offsets as they are read without. -/
theorem run_uri (mode : ParseMode) (t : Text) : (uri lookup services mode t).run
    = some (Parsed.ofText (Registry.ofLookup lookup services) mode t) := by
  rw [uri, Parsed.ofText]
  split_ifs with hempty
  · subst hempty
    rfl
  · obtain ⟨e, he, hcut⟩ := run_scheme t
    -- cutting a text is cutting its scheme, and then the rest, which does not fail
    have hbind : (e.map fun r => RawUri.cutRest mode.acceptPath r.1 r.2) >>=
        Parsed.ofRaw (Registry.ofLookup lookup services) mode = e >>= fun r =>
          Parsed.ofRaw (Registry.ofLookup lookup services) mode
            (RawUri.cutRest mode.acceptPath r.1 r.2) := by
      cases e <;> rfl
    rw [hcut mode.acceptPath hempty, hbind]
    exact run_bind he fun r _ => run_behindScheme hlookup services mode r.1 r.2

end Lookup

/-- Reading by offsets goes well for every text, whatever characters are in it, and whatever
suffixes are found as long as they are endings: no offset is asked for that is no place, no byte is
missing, and nothing gets below zero. What is read is what is read without offsets. -/
theorem run_agrees {lookup : List UInt8 → Option (List UInt8)}
    (hlookup : ∀ bytes suffix, lookup bytes = some suffix → suffix <:+ bytes)
    (services : Option Text) :
    let reg := Registry.ofLookup lookup services
    (∀ raw, topLevel? lookup raw = some ((Host.topLevel? reg raw).map (·.1.size)) ∧
        ∀ before top, Host.topLevel? reg raw = some (before, top) →
          (name raw before.size).run = some (Host.readName raw before top)) ∧
      (∀ acceptIp raw, (host lookup acceptIp raw).run = some (Host.read reg acceptIp raw)) ∧
      (∀ t, (port t).run = some (RawAuthority.cutPort t)) ∧
      (∀ acceptIp t, (authority lookup acceptIp t).run
        = some (Authority.read reg acceptIp t)) ∧
      (∀ t, (∃ e, (scheme t).run = some e) ∧ (∃ e, (path t).run = some e) ∧
        ∃ e, (query t).run = some e) ∧
      ∀ mode t, (uri lookup services mode t).run = some (Parsed.ofText reg mode t) := by
  intro reg
  refine ⟨fun raw => ⟨topLevel?_eq_some hlookup services raw, fun before top htop => ?_⟩,
    run_host hlookup services, run_port, run_authority hlookup services, fun t => ?_,
    run_uri hlookup services⟩
  · obtain ⟨rfl, _⟩ := Host.of_topLevel? htop
    exact run_name before top
  · obtain ⟨e, he, _⟩ := run_scheme t
    exact ⟨⟨e, he⟩, exists_run_path t, exists_run_query t⟩

/-- Characters of several bytes stand in front of each separator that is looked for. -/
theorem run_agrees_accented :
    let reg := Registry.standard
    let raw := "é.Co.Uk".toList
    let t := "é://w.b.Co.Uk:08/p?q#é".toList
    (∀ bytes suffix, reg.lookup bytes = some suffix → suffix <:+ bytes) ∧
      topLevel? reg.lookup raw = some (some 2) ∧
      (name raw 2).run = some (Host.readName raw "é".toList ".Co.Uk".toList) ∧
      (uri reg.lookup none {} t).run = some (.ok {
        scheme := "é".toList
        schemePort := none
        userName := []
        password := []
        host := .name ["w".toList] "b".toList ".Co.Uk".toList
        port := some 8
        path := ["p".toList]
        hashBangPath := []
        query := Dict.empty.insert "q".toList []
        anchor := "é".toList }) := by
  intro reg raw t
  have hlookup : ∀ bytes suffix, reg.lookup bytes = some suffix → suffix <:+ bytes :=
    Registry.isSuffix_of_lookup fun _ _ => PublicSuffix.suffix?_isSuffix
  have hagrees := run_agrees hlookup reg.services
  rw [Registry.ofLookup_lookup] at hagrees
  obtain ⟨hhost, _, _, _, _, huri⟩ := hagrees
  have htop : Host.topLevel? reg raw = some ("é".toList, ".Co.Uk".toList) := by decide +kernel
  have hsize : Text.size "é".toList = 2 := by decide +kernel
  obtain ⟨hdot, hname⟩ := hhost raw
  have hname := hname _ _ htop
  rw [htop, Option.map_some, hsize] at hdot
  rw [hsize] at hname
  exact ⟨hlookup, hdot, hname, (huri {} t).trans (congrArg some (by decide +kernel))⟩

end Scan

end CanonicalUri
