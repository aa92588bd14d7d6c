import Markdown.Proofs.Sheet.Basic
import Markdown.Proofs.Sheet.Stamp

set_option autoImplicit false

namespace Markdown

namespace Codec

/-- What the codec writes for a character is its token. -/
theorem eq_token_of_token? {c : Char} {token : Text} (found : standard.token? c = some token) :
    token = Escape.token c := by
  obtain ⟨entry, first, rfl⟩ := Option.map_eq_some_iff.1 found
  have named : entry.1 = c := by simpa using List.find?_some first
  have member := List.mem_of_find?_eq_some first
  rw [standard.tokens_eq] at member
  obtain ⟨d, _, rfl⟩ := List.mem_map.1 member
  obtain rfl : d = c := named
  rfl

/-- What the codec reads as a character is its token. -/
theorem eq_token_of_char? {token : Text} {c : Char} (found : standard.char? token = some c) :
    c ∈ Escape.alphabet ++ Escape.markers ∧ token = Escape.token c := by
  obtain ⟨entry, first, rfl⟩ := Option.map_eq_some_iff.1 found
  have named : entry.2 = token := by simpa using List.find?_some first
  have member := List.mem_of_find?_eq_some first
  rw [standard.tokens_eq] at member
  obtain ⟨d, covered, rfl⟩ := List.mem_map.1 member
  exact ⟨covered, named.symm⟩

theorem token?_standard {c : Char} (covered : c ∈ Escape.alphabet ++ Escape.markers) :
    standard.token? c = some (Escape.token c) := by
  have present : (standard.tokens.find? fun entry => entry.1 == c).isSome = true := by
    rw [List.find?_isSome]
    refine ⟨(c, Escape.token c), ?_, by simp⟩
    rw [standard.tokens_eq]
    exact List.mem_map.2 ⟨c, covered, rfl⟩
  obtain ⟨entry, first⟩ := Option.isSome_iff_exists.1 present
  have found : standard.token? c = some entry.2 := by rw [token?, first]; rfl
  rw [found, eq_token_of_token? found]

theorem cover_eq {c : Char} (covered : c ∈ Escape.alphabet ++ Escape.markers) :
    standard.cover c = Escape.token c := by
  rw [cover, token?_standard covered]
  rfl

/-- No two characters of the codec have the same token. -/
theorem char?_token :
    ∀ c ∈ Escape.alphabet ++ Escape.markers, standard.char? (Escape.token c) = some c := by
  decide +kernel

theorem isMarker_of_mem_alphabet : ∀ c ∈ Escape.alphabet, Escape.isMarker c = false := by
  decide

theorem isPrivate_of_mem_alphabet : ∀ c ∈ Escape.alphabet, Unicode.isPrivate c = false := by
  decide

theorem mem_markers_of_isMarker {c : Char} (marker : Escape.isMarker c = true) :
    c ∈ Escape.alphabet ++ Escape.markers := by
  simp only [Escape.isMarker, Bool.or_eq_true, beq_iff_eq] at marker
  rcases marker with rfl | rfl <;> decide

theorem mem_alphabet_of_isProtected {c : Char} (guarded : Escape.isProtected c = true) :
    c ∈ Escape.alphabet := by
  have within : ∀ d ∈ "*_\x7b\x7d[]\\".toList, d ∈ Escape.alphabet := by decide
  exact within c (List.contains_iff_mem.1 guarded)

theorem encodeEscapes_eq_self {text : Text} (plain : '\\' ∉ text) :
    standard.encodeEscapes text = text := by
  induction text with
  | nil => rfl
  | cons c rest ih =>
    obtain ⟨other, plain⟩ := List.ne_and_not_mem_of_not_mem_cons plain
    rw [encodeEscapes, ih plain]
    exact fun _ _ same => absurd same.symm other

/-- A newline is not escaped by the backslash before it. -/
theorem encodeEscapes_append_newline (text : Text) :
    standard.encodeEscapes (text ++ ['\n']) = standard.encodeEscapes text ++ ['\n'] := by
  have newline : standard.encodeEscapes ['\n'] = ['\n'] := by decide
  have refused : standard.encodeEscapes ['\\', '\n'] = ['\\', '\n'] := by decide
  fun_induction encodeEscapes _ text with
  | case1 c rest escapable ih =>
    rw [List.cons_append, List.cons_append, encodeEscapes, if_pos escapable, ih,
      List.append_assoc]
  | case2 c rest refused ih =>
    rw [List.cons_append, List.cons_append, encodeEscapes, if_neg refused]
    exact congrArg (_ :: ·) ih
  | case3 c rest plain ih =>
    cases rest with
    | nil =>
      by_cases backslash : c = '\\'
      · subst backslash
        exact refused
      · rw [List.singleton_append, encodeEscapes, ← List.nil_append ['\n'], ih]
        · rfl
        · simp [backslash]
    | cons d more =>
      have other : c ≠ '\\' := fun backslash => plain d more backslash rfl
      rw [List.cons_append, encodeEscapes, ih]
      · rfl
      · simp [other]
  | case4 => exact newline

end Codec

namespace Sheet

/-- A sheet with the characters of emphasis, links and escapes hidden. -/
def hide (sheet : Sheet) : Sheet :=
  onChars (fun c => if Escape.isProtected c then [.sealed (.token c)] else [.char c]) sheet

def escape (sheet : Sheet) : Sheet :=
  onChars (fun c => Glyph.chars (Html.escapeChar c)) sheet

/-- A literal sheet made safe as element content and hidden from all later passes. -/
def protect (sheet : Sheet) : Sheet :=
  hide (escape sheet)

theorem protect_append (first second : Sheet) :
    protect (first ++ second) = protect first ++ protect second := by
  simp [protect, hide, escape, onChars_append]

def escapeAttribute (sheet : Sheet) : Sheet :=
  onChars (fun c => Glyph.chars (Html.escapeAttributeChar c))
    (Html.bareAmpersand.recast (fun _ => Glyph.chars "&amp;".toList) sheet)

/-- A sheet as an attribute value, hidden from the later passes. -/
def attributeValue (sheet : Sheet) : Sheet :=
  hide (escapeAttribute sheet)

/-- A sheet in which each token gives way to what `written` makes of its character. -/
def reveal (written : Char → Text) (sheet : Sheet) : Sheet :=
  sheet.flatMap fun
    | .sealed (.token c) => Glyph.chars (written c)
    | g => [g]

def unescape (sheet : Sheet) : Sheet :=
  reveal (fun c => [c]) sheet

def restore (sheet : Sheet) : Sheet :=
  reveal (fun c => ['\\', c]) sheet

theorem unescape_append (first second : Sheet) :
    unescape (first ++ second) = unescape first ++ unescape second := by
  simp [unescape, reveal]

theorem reveal_chars (written : Char → Text) (text : Text) :
    reveal written (Glyph.chars text) = Glyph.chars text := by
  induction text with
  | nil => rfl
  | cons c rest ih =>
    rw [Glyph.chars_cons]
    exact congrArg (List.cons _) ih

/-- A sheet with the token of a character in place of the character behind a backslash. -/
def encodeEscapes : Sheet → Sheet
  | .char '\\' :: .char c :: rest =>
    if Escape.alphabet.contains c then .sealed (.token c) :: encodeEscapes rest
    else .char '\\' :: encodeEscapes (.char c :: rest)
  | g :: rest => g :: encodeEscapes rest
  | [] => []

/-- A character of a document as a glyph: markers are sealed. -/
def glyphOf (c : Char) : Glyph Seal :=
  if c = Escape.opening then .sealed (.marker .opening)
  else if c = Escape.closing then .sealed (.marker .closing)
  else .char c

def ofDocument (document : Text) : Sheet :=
  document.unifyNewlines.map glyphOf

/-- What was hidden behind a backslash is written with its backslash again. -/
theorem restore_encodeEscapes {sheet : Sheet} (tokenless : ∀ c, Glyph.sealed (.token c) ∉ sheet) :
    restore (encodeEscapes sheet) = sheet := by
  have kept : ∀ (g : Glyph Seal) (rest : Sheet), (∀ c, g ≠ .sealed (.token c)) →
      restore (g :: rest) = g :: restore rest := by
    intro g rest other
    cases g with
    | char c => rfl
    | sealed s =>
      cases s with
      | token c => exact absurd rfl (other c)
      | marker side => rfl
      | key fragment => rfl
  fun_induction encodeEscapes sheet with
  | case1 c rest escapable ih =>
    have later := ih fun d member =>
      tokenless d (List.mem_cons_of_mem _ (List.mem_cons_of_mem _ member))
    have token : restore (.sealed (.token c) :: encodeEscapes rest) =
        .char '\\' :: .char c :: restore (encodeEscapes rest) := rfl
    rw [token, later]
  | case2 c rest refused ih =>
    rw [kept _ _ (by simp), ih fun d member => tokenless d (List.mem_cons_of_mem _ member)]
  | case3 g rest other ih =>
    rw [kept _ _ fun c same => tokenless c (same ▸ List.mem_cons_self),
      ih fun d member => tokenless d (List.mem_cons_of_mem _ member)]
  | case4 => rfl

theorem token_not_mem_map_glyphOf (text : Text) (c : Char) :
    Glyph.sealed (.token c) ∉ text.map glyphOf := by
  intro member
  obtain ⟨d, _, same⟩ := List.mem_map.1 member
  rw [glyphOf] at same
  split at same
  · cases same
  · split at same <;> cases same

end Sheet

namespace Renaming.Prints

variable {r : Renaming} {known : List Text} {sheet : Sheet} {text : Text}

theorem token {c : Char} (escapable : c ∈ Escape.alphabet) :
    r.Prints known [.sealed (.token c)] (Escape.token c) :=
  ⟨by simp [Glyph.spell], by simpa using Valid.token escapable⟩

theorem hide (prints : r.Prints known sheet text) :
    r.Prints known (Sheet.hide sheet) (Codec.standard.hide text) := by
  refine prints.onChars (fun c here => ?_) (by decide) fun c free => ?_
  · refine if_neg fun guarded => ?_
    have plain := Codec.isPrivate_of_mem_alphabet c (Codec.mem_alphabet_of_isProtected guarded)
    rw [here] at plain
    cases plain
  · split
    · next guarded =>
      have escapable := Codec.mem_alphabet_of_isProtected guarded
      rw [Codec.cover_eq (List.mem_append_left _ escapable)]
      exact .token escapable
    · exact .glyph (.char free)

theorem escape (prints : r.Prints known sheet text) :
    r.Prints known (Sheet.escape sheet) (Html.escape text) := by
  refine prints.onChars (fun c here => ?_) (by decide) fun c free => ?_
  · have apart : ∀ d, Unicode.isPrivate d = false → c ≠ d :=
      fun d plain => Unicode.ne_of_isPrivate here plain
    unfold Html.escapeChar
    split
    · exact absurd rfl (apart '&' (by decide))
    · exact absurd rfl (apart '<' (by decide))
    · exact absurd rfl (apart '>' (by decide))
    · rfl
  · unfold Html.escapeChar
    split
    · exact .chars _ (by decide)
    · exact .chars _ (by decide)
    · exact .chars _ (by decide)
    · exact .glyph (.char free)

theorem protect (prints : r.Prints known sheet text) :
    r.Prints known (Sheet.protect sheet) (Codec.standard.protect text) :=
  prints.escape.hide

theorem escapeAttribute (prints : r.Prints known sheet text) :
    r.Prints known (Sheet.escapeAttribute sheet) (Html.escapeAttribute text) := by
  have bare : r.Prints known
      (Html.bareAmpersand.recast (fun _ => Glyph.chars "&amp;".toList) sheet)
      (Html.bareAmpersand.replace (fun _ => "&amp;".toList) text) :=
    prints.recast (Html.regular_bareAmpersand r.quiet) rfl fun _ _ => .chars _ (by decide)
  refine bare.onChars (fun c here => ?_) (by decide) fun c free => ?_
  · have apart : ∀ d, Unicode.isPrivate d = false → c ≠ d :=
      fun d plain => Unicode.ne_of_isPrivate here plain
    unfold Html.escapeAttributeChar
    split
    · exact absurd rfl (apart '<' (by decide))
    · exact absurd rfl (apart '>' (by decide))
    · exact absurd rfl (apart '"' (by decide))
    · rfl
  · unfold Html.escapeAttributeChar
    split
    · exact .chars _ (by decide)
    · exact .chars _ (by decide)
    · exact .chars _ (by decide)
    · exact .glyph (.char free)

theorem attributeValue (prints : r.Prints known sheet text) :
    r.Prints known (Sheet.attributeValue sheet) (Link.attributeValue text) :=
  prints.escapeAttribute.hide

theorem chunk_token (written : Text → Text) (c : Char) :
    Chunk 'e' 32 written (Escape.token c) (written (Escape.token c)) :=
  .stamp (by simp) fun _ member => Escape.isDigestDigit_of_mem_hex member

theorem opening_not_mem_of_digits {digits : Text}
    (inClass : ∀ c ∈ digits, Escape.isDigestDigit c = true) :
    Escape.opening ∉ digits ++ [Escape.closing] := by
  intro member
  rcases List.mem_append.1 member with inside | last
  · exact absurd (inClass _ inside) (by decide)
  · exact absurd (List.mem_singleton.1 last) (by decide)

theorem chunk_char {letter : Char} {count : Nat} (written : Text → Text) {c : Char}
    (differs : c ≠ Escape.opening) : Chunk letter count written [c] [c] :=
  .plain fun member => differs (List.mem_singleton.1 member).symm

theorem chunk_key_for_tokens (written : Text → Text) (fragment : Text) :
    Chunk 'e' 32 written (Fragments.key fragment) (Fragments.key fragment) := by
  refine .other (by decide) fun member => ?_
  rcases List.mem_cons.1 member with same | inside
  · exact absurd same (by decide)
  · exact opening_not_mem_of_digits (fun _ => Escape.isDigestDigit_of_mem_hex) inside

theorem chunk_token_for_keys (written : Text → Text) (c : Char) :
    Chunk 'b' 64 written (Escape.token c) (Escape.token c) := by
  refine .other (by decide) fun member => ?_
  rcases List.mem_cons.1 member with same | inside
  · exact absurd same (by decide)
  · exact opening_not_mem_of_digits (fun _ => Escape.isDigestDigit_of_mem_hex) inside

/-- The hidden marker is whole for every search that leaves the tokens of markers alone. -/
theorem chunk_hide {written : Text → Text} (side : Side)
    (alone : ∀ c, Escape.isMarker c = true → written (Escape.token c) = Escape.token c) :
    Chunk 'e' 32 written (r.hide side) (r.hide side) := by
  rw [Renaming.hide]
  split
  · next marker =>
    have chunk := chunk_token written (r.char side)
    rwa [alone _ marker] at chunk
  · next apart =>
    refine chunk_char written ?_
    rintro same
    rw [same] at apart
    exact apart (by decide)

/-- A search for stamps in the text is work on the glyphs of the sheet. -/
theorem replace_stamp (letter : Char) (count : Nat) (written : Text → Text)
    {drawn : Glyph Seal → Sheet} (prints : r.Prints known sheet text)
    (each : ∀ g ∈ sheet, ∃ result, Chunk letter count written (g.spell r.face) result ∧
      r.Prints known (drawn g) result) :
    r.Prints known (sheet.flatMap drawn)
      ((Pattern.stamp letter count).replace (fun found => written found.text) text) := by
  have all : ∃ results, List.Forall₂ (Chunk letter count written) (sheet.map (Glyph.spell r.face))
      results ∧ r.Prints known (sheet.flatMap drawn) results.flatten := by
    clear prints
    induction sheet with
    | nil => exact ⟨[], .nil, .nil⟩
    | cons g rest ih =>
      obtain ⟨results, chunks, later⟩ := ih fun h member => each h (List.mem_cons_of_mem _ member)
      obtain ⟨result, chunk, here⟩ := each g List.mem_cons_self
      exact ⟨result :: results, .cons chunk chunks, here.append later⟩
  obtain ⟨results, chunks, printed⟩ := all
  have replaced := Markdown.replace_stamp chunks
  rw [← List.flatMap_def, ← spell, prints.spelled] at replaced
  rwa [replaced]

/-- What `Codec.reveal` puts in the place of a token. -/
def revealed (written : Char → Text) (found : Text) : Text :=
  match Codec.standard.char? found with
  | some c => if Escape.isMarker c then found else written c
  | none => found

theorem revealed_token (written : Char → Text) {c : Char} (escapable : c ∈ Escape.alphabet) :
    revealed written (Escape.token c) = written c := by
  rw [revealed, Codec.char?_token c (List.mem_append_left _ escapable)]
  exact if_neg (by simp [Codec.isMarker_of_mem_alphabet c escapable])

theorem revealed_marker (written : Char → Text) {c : Char} (marker : Escape.isMarker c = true) :
    revealed written (Escape.token c) = Escape.token c := by
  rw [revealed, Codec.char?_token c (Codec.mem_markers_of_isMarker marker)]
  exact if_pos marker

theorem reveal {written : Char → Text} (plain : ∀ c ∈ Escape.alphabet, ∀ d ∈ written c,
    Unicode.isPrivate d = false) (prints : r.Prints known sheet text) :
    r.Prints known (Sheet.reveal written sheet) (Codec.standard.reveal written text) := by
  refine prints.replace_stamp 'e' 32 (revealed written) fun g member => ?_
  cases prints.valid g member with
  | char free => exact ⟨_, chunk_char (revealed written) free.ne_opening, .glyph (.char free)⟩
  | @token c escapable =>
    refine ⟨_, chunk_token (revealed written) c, ?_⟩
    rw [revealed_token written escapable]
    exact chars (written c) (plain c escapable)
  | marker side =>
    exact ⟨_, chunk_hide side fun _ => revealed_marker written, .glyph (.marker side)⟩
  | @key fragment kept valid =>
    refine ⟨_, ?_, .glyph (.key kept valid)⟩
    rw [Glyph.spell, face_key]
    exact chunk_key_for_tokens (revealed written) _

theorem unescape (prints : r.Prints known sheet text) :
    r.Prints known (Sheet.unescape sheet) (Codec.standard.unescape text) :=
  prints.reveal fun c escapable _ member =>
    List.mem_singleton.1 member ▸ Codec.isPrivate_of_mem_alphabet c escapable

theorem restore (prints : r.Prints known sheet text) :
    r.Prints known (Sheet.restore sheet) (Codec.standard.restore text) := by
  refine prints.reveal fun c escapable d member => ?_
  rcases List.mem_cons.1 member with rfl | last
  · decide
  · exact List.mem_singleton.1 last ▸ Codec.isPrivate_of_mem_alphabet c escapable

theorem encodeEscapes_append {u : Text} (plain : '\\' ∉ u) (rest : Text) :
    Codec.standard.encodeEscapes (u ++ rest) = u ++ Codec.standard.encodeEscapes rest := by
  induction u with
  | nil => rfl
  | cons c more ih =>
    have differs : c ≠ '\\' := fun same => plain (same ▸ List.mem_cons_self)
    rw [List.cons_append, Codec.encodeEscapes, ih fun inside => plain (List.mem_cons_of_mem _ inside)]
    · rfl
    · exact fun _ _ same _ => differs same

theorem backslash_not_mem_face (s : Seal) : '\\' ∉ r.face s := by
  intro member
  rcases r.quiet.all s _ member with here | digit
  · exact absurd here (by decide)
  · exact absurd digit (by decide)

theorem encodeEscapes (prints : r.Prints known sheet text) :
    r.Prints known (Sheet.encodeEscapes sheet) (Codec.standard.encodeEscapes text) := by
  obtain ⟨rfl, valid⟩ := prints
  fun_induction Sheet.encodeEscapes sheet with
  | case1 c rest escapable ih =>
    have later := ih fun g member => valid g (List.mem_cons_of_mem _ (List.mem_cons_of_mem _ member))
    have member := List.contains_iff_mem.1 escapable
    simp only [spell_cons, Glyph.spell, List.cons_append, List.nil_append, Codec.encodeEscapes,
      escapable, ↓reduceIte, Codec.cover_eq (List.mem_append_left _ member)]
    exact (token member).append later
  | case2 c rest refused ih =>
    have later := ih fun g member => valid g (List.mem_cons_of_mem _ member)
    simp only [spell_cons, Glyph.spell, List.cons_append, List.nil_append, Codec.encodeEscapes,
      refused, Bool.false_eq_true, ↓reduceIte] at later ⊢
    exact later.cons (valid _ List.mem_cons_self)
  | case3 g rest other ih =>
    have later := ih fun h member => valid h (List.mem_cons_of_mem _ member)
    have here := valid g List.mem_cons_self
    rw [spell_cons]
    cases g with
    | sealed s =>
      rw [Glyph.spell, encodeEscapes_append (backslash_not_mem_face s)]
      exact later.cons here
    | char d =>
      by_cases same : d = '\\'
      · subst same
        cases rest with
        | nil => exact later.cons here
        | cons h rest =>
          cases h with
          | char c => exact absurd rfl (other c rest rfl)
          | sealed s =>
            obtain ⟨c, more, written, hidden⟩ := r.quiet.first s
            have refused : Escape.alphabet.contains c = false := by
              refine Bool.eq_false_iff.2 fun escapable => ?_
              have plain := Codec.isPrivate_of_mem_alphabet c (List.contains_iff_mem.1 escapable)
              rw [hidden] at plain
              cases plain
            simp only [spell_cons, Glyph.spell, written, List.cons_append, List.nil_append,
              Codec.encodeEscapes, refused, Bool.false_eq_true, ↓reduceIte] at later ⊢
            exact later.cons here
      · rw [Glyph.spell, encodeEscapes_append (by simpa using Ne.symm same)]
        exact later.cons here
  | case4 => exact .nil

end Renaming.Prints

namespace Renaming

variable (r : Renaming)

/-- The character that the document has in the place of another. -/
def apply (c : Char) : Char :=
  if c = Escape.opening then r.char .opening
  else if c = Escape.closing then r.char .closing
  else c

theorem apply_of_not_isMarker {c : Char} (plain : Escape.isMarker c = false) : r.apply c = c := by
  simp only [Escape.isMarker, Bool.or_eq_false_iff, beq_eq_false_iff_ne] at plain
  rw [apply, if_neg plain.1, if_neg plain.2]

theorem apply_same (c : Char) : same.apply c = c := by
  rw [apply]
  split
  · next here => exact here.symm
  · split
    · next here => exact here.symm
    · rfl

/-- No other character comes to be a public one. -/
theorem apply_eq_iff {c d : Char} (plain : Unicode.isPrivate d = false) :
    r.apply c = d ↔ c = d := by
  have apart := fun side => Unicode.ne_of_isPrivate (r.isPrivate side) plain
  rw [apply]
  split
  · next here =>
    subst here
    exact ⟨fun same => absurd same (apart _), fun same => absurd plain (same ▸ by decide)⟩
  · split
    · next here =>
      subst here
      exact ⟨fun same => absurd same (apart _), fun same => absurd plain (same ▸ by decide)⟩
    · rfl

theorem unifyNewlines_map (text : Text) :
    Text.unifyNewlines (text.map r.apply) = (Text.unifyNewlines text).map r.apply := by
  have newline : r.apply '\n' = '\n' := (r.apply_eq_iff (by decide)).2 rfl
  have back : r.apply '\r' = '\r' := (r.apply_eq_iff (by decide)).2 rfl
  fun_induction Text.unifyNewlines text with
  | case1 => rfl
  | case2 rest ih => simp [Text.unifyNewlines, newline, back, ih]
  | case3 c rest other ih =>
    rw [List.map_cons, Text.unifyNewlines]
    · rw [ih, List.map_cons]
      by_cases here : c = '\r'
      · simp [here, back, newline]
      · rw [if_neg here, if_neg (mt (r.apply_eq_iff (by decide)).1 here)]
    · intro more first rest_eq
      cases rest with
      | nil => simp at rest_eq
      | cons d rest =>
        rw [List.map_cons, List.cons.injEq] at rest_eq
        exact other rest ((r.apply_eq_iff (by decide)).1 first)
          (by rw [(r.apply_eq_iff (by decide)).1 rest_eq.1])

theorem mem_of_mem_unifyNewlines {text : Text} {c : Char} (member : c ∈ text.unifyNewlines) :
    c ∈ text ∨ c = '\n' := by
  fun_induction Text.unifyNewlines text with
  | case1 => exact .inl member
  | case2 rest ih =>
    rcases List.mem_cons.1 member with rfl | later
    · exact .inr rfl
    · exact (ih later).imp_left fun inside =>
        List.mem_cons_of_mem _ (List.mem_cons_of_mem _ inside)
  | case3 d rest other ih =>
    rcases List.mem_cons.1 member with rfl | later
    · split
      · exact .inr rfl
      · exact .inl List.mem_cons_self
    · exact (ih later).imp_left (List.mem_cons_of_mem _)

/-- A document in which no character but the markers themselves is taken for a marker. -/
def Spares (document : Text) : Prop :=
  ∀ c ∈ document, Escape.isMarker c = false → ∀ side, c ≠ r.char side

/-- The normalized document prints the sheet of the document in which markers stand in their
places. -/
theorem prints_ofDocument {document : Text} (spares : r.Spares document) (known : List Text) :
    r.Prints known (Sheet.ofDocument document)
      (Codec.standard.normalize (document.map r.apply)) := by
  have hidden : ∀ side, r.Prints known [.sealed (.marker side)]
      (if Escape.isMarker (r.char side) then Codec.standard.cover (r.char side)
        else [r.char side]) := by
    intro side
    refine ⟨?_, by simpa using Valid.marker side⟩
    rw [spell_cons, Glyph.spell, face_marker, hide, spell_nil, List.append_nil]
    split
    · next marker => rw [Codec.cover_eq (Codec.mem_markers_of_isMarker marker)]
    · rfl
  rw [Codec.normalize, unifyNewlines_map, List.flatMap_map, Sheet.ofDocument,
    ← List.flatMap_pure_eq_map]
  refine .flatMap fun c member => ?_
  change r.Prints known [Sheet.glyphOf c] _
  by_cases opening : c = Escape.opening
  · rw [Sheet.glyphOf, apply, if_pos opening, if_pos opening]
    exact hidden .opening
  · by_cases closing : c = Escape.closing
    · rw [Sheet.glyphOf, apply, if_neg opening, if_neg opening, if_pos closing, if_pos closing]
      exact hidden .closing
    · have plain : Escape.isMarker c = false := by simp [Escape.isMarker, opening, closing]
      rw [Sheet.glyphOf, if_neg opening, if_neg closing, r.apply_of_not_isMarker plain, plain]
      refine .glyph (.char ⟨plain, fun side => ?_⟩)
      rcases mem_of_mem_unifyNewlines member with inside | rfl
      · exact spares c inside plain side
      · exact Ne.symm (Unicode.ne_of_isPrivate (r.isPrivate side) (by decide))

end Renaming

end Markdown
