import Markdown.Document
import Markdown.Proofs.Glyph.Manners

set_option autoImplicit false

namespace Markdown

inductive Side where
  | opening
  | closing
deriving DecidableEq

/-- What stands as one glyph. -/
inductive Seal where
  /-- A character hidden from the passes. -/
  | token (c : Char)
  /-- A marker of the document itself. -/
  | marker (side : Side)
  /-- A fragment put aside. -/
  | key (fragment : List (Glyph Seal))

abbrev Sheet := List (Glyph Seal)

/-- The characters that a document has in the places of the markers. -/
structure Renaming where
  char : Side → Char
  isPrivate : ∀ side, Unicode.isPrivate (char side) = true
  distinct : char .opening ≠ char .closing

namespace Renaming

def same : Renaming where
  char
    | .opening => Escape.opening
    | .closing => Escape.closing
  isPrivate side := by cases side <;> decide
  distinct := by decide

variable (r : Renaming)

/-- What normalization makes of the character in the place of a marker. -/
def hide (side : Side) : Text :=
  if Escape.isMarker (r.char side) then Escape.token (r.char side) else [r.char side]

mutual

/-- A seal in characters. -/
def face : Seal → Text
  | .token c => Escape.token c
  | .marker side => r.hide side
  | .key fragment => Fragments.key (write fragment)

def writeGlyph : Glyph Seal → Text
  | .char c => [c]
  | .sealed s => face s

def write : List (Glyph Seal) → Text
  | [] => []
  | g :: rest => writeGlyph g ++ write rest

end

theorem write_eq_spell (sheet : Sheet) : r.write sheet = spell r.face sheet := by
  induction sheet with
  | nil => rfl
  | cons g rest ih =>
    rw [write, spell_cons, ih]
    cases g <;> rfl

@[simp] theorem face_token (c : Char) : r.face (.token c) = Escape.token c := rfl

@[simp] theorem face_marker (side : Side) : r.face (.marker side) = r.hide side := rfl

@[simp] theorem face_key (fragment : Sheet) :
    r.face (.key fragment) = Fragments.key (spell r.face fragment) := by
  rw [face, write_eq_spell]

end Renaming

/-- Induction over seals: what holds of the seals in a fragment holds of its key. -/
theorem Seal.induction {motive : Seal → Prop} (token : ∀ c, motive (.token c))
    (marker : ∀ side, motive (.marker side))
    (key : ∀ fragment, (∀ s, Glyph.sealed s ∈ fragment → motive s) → motive (.key fragment)) :
    ∀ s, motive s
  | .token c => token c
  | .marker side => marker side
  | .key fragment => key fragment fun s _ => Seal.induction token marker key s
termination_by s => sizeOf s
decreasing_by
  rename_i member
  have smaller := List.sizeOf_lt_of_mem member
  simp only [Glyph.sealed.sizeOf_spec, Seal.key.sizeOf_spec] at smaller ⊢
  omega

/-- The character by which seals are judged. -/
def Seal.lead (_ : Seal) : Char :=
  Escape.opening

theorem mem_digestDigits {c : Char} (digit : Escape.isDigestDigit c = true) : c ∈ digestDigits := by
  have bound : c.toNat < 128 := by
    simp only [Escape.isDigestDigit, Char.isDigit, Bool.or_eq_true, Bool.and_eq_true,
      decide_eq_true_eq, Char.le_def, UInt32.le_iff_toNat_le, ge_iff_le] at digit
    rcases digit with ⟨_, high⟩ | ⟨_, high⟩
    · exact Nat.lt_of_le_of_lt high (by decide)
    · exact Nat.lt_of_le_of_lt high (by decide)
  have all : ∀ code < 128, Escape.isDigestDigit (Char.ofNat code) = true →
      Char.ofNat code ∈ digestDigits := by decide
  have here := all c.toNat bound
  rw [Char.ofNat_toNat] at here
  exact here digit

theorem mem_digestDigits_of_mem_hex {bytes : List UInt8} {c : Char}
    (member : c ∈ Digest.hex bytes) : c ∈ digestDigits :=
  mem_digestDigits (Escape.isDigestDigit_of_mem_hex member)

/-- A text has the shape that tokens and keys share: a letter and a digest between markers. -/
def Stamped (letter : Char) (text : Text) : Prop :=
  ∃ bytes, text = Escape.opening :: letter :: (Digest.hex bytes ++ [Escape.closing])

theorem stamped_token (c : Char) : Stamped 'e' (Escape.token c) :=
  ⟨_, rfl⟩

theorem stamped_key (fragment : Text) : Stamped 'b' (Fragments.key fragment) :=
  ⟨_, rfl⟩

namespace Renaming

variable (r : Renaming)

/-- A seal is a character for private use or has the shape of tokens and keys. -/
theorem face_eq_or_stamped (s : Seal) :
    (∃ c, r.face s = [c] ∧ Unicode.isPrivate c = true) ∨
      ∃ letter ∈ digestDigits, Stamped letter (r.face s) := by
  cases s with
  | token c => exact .inr ⟨'e', by decide, stamped_token c⟩
  | marker side =>
    rw [face_marker, hide]
    split
    · exact .inr ⟨'e', by decide, stamped_token _⟩
    · exact .inl ⟨_, rfl, r.isPrivate side⟩
  | key fragment =>
    rw [face_key]
    exact .inr ⟨'b', by decide, stamped_key _⟩

/-- Whatever stands in the places of the markers, seals are written in the manner of tokens. -/
theorem quiet : Quiet Seal.lead r.face where
  lead s := show Unicode.isPrivate Escape.opening = true by decide
  first s := by
    rcases r.face_eq_or_stamped s with ⟨c, written, here⟩ | ⟨letter, _, bytes, written⟩
    · exact ⟨c, [], written, here⟩
    · exact ⟨Escape.opening, _, written, by decide⟩
  last s := by
    rcases r.face_eq_or_stamped s with ⟨c, written, here⟩ | ⟨letter, _, bytes, written⟩
    · exact ⟨[], c, written, here⟩
    · exact ⟨Escape.opening :: letter :: Digest.hex bytes, Escape.closing, written, by decide⟩
  all s c member := by
    rcases r.face_eq_or_stamped s with ⟨d, written, here⟩ | ⟨letter, digit, bytes, written⟩
    · rw [written, List.mem_singleton] at member
      exact .inl (member ▸ here)
    · rw [written] at member
      rcases List.mem_cons.1 member with rfl | member
      · exact .inl (by decide)
      · rcases List.mem_cons.1 member with rfl | member
        · exact .inr digit
        · rcases List.mem_append.1 member with inside | last
          · exact .inr (mem_digestDigits_of_mem_hex inside)
          · obtain rfl := List.mem_singleton.1 last
            exact .inl (by decide)

/-- The character is no marker and stands in the place of none. -/
def Free (c : Char) : Prop :=
  Escape.isMarker c = false ∧ ∀ side, c ≠ r.char side

theorem free_of_not_isPrivate {c : Char} (plain : Unicode.isPrivate c = false) : r.Free c := by
  refine ⟨?_, fun side => Ne.symm (Unicode.ne_of_isPrivate (r.isPrivate side) plain)⟩
  have apart : ∀ marker, Unicode.isPrivate marker = true → c ≠ marker :=
    fun marker here => Ne.symm (Unicode.ne_of_isPrivate here plain)
  simp [Escape.isMarker, apart Escape.opening (by decide), apart Escape.closing (by decide)]

variable {r} in
theorem Free.ne_opening {c : Char} (free : r.Free c) : c ≠ Escape.opening := by
  rintro rfl
  exact absurd free.1 (by decide)

/-- The glyph can come up in a rendering in which the fragments of `known` have been put aside. -/
inductive Valid (known : List Text) : Glyph Seal → Prop where
  | char {c : Char} (free : r.Free c) : Valid known (.char c)
  | token {c : Char} (escapable : c ∈ Escape.alphabet) : Valid known (.sealed (.token c))
  | marker (side : Side) : Valid known (.sealed (.marker side))
  | key {fragment : Sheet} (kept : spell r.face fragment ∈ known)
    (valid : ∀ g ∈ fragment, Valid known g) : Valid known (.sealed (.key fragment))

variable {r}

theorem Valid.mono {known more : List Text} (wider : known ⊆ more) {g : Glyph Seal}
    (valid : r.Valid known g) : r.Valid more g := by
  induction valid with
  | char free => exact .char free
  | token escapable => exact .token escapable
  | marker side => exact .marker side
  | key kept _ ih => exact .key (wider kept) ih

variable (r) in
/-- The text is the sheet in characters, and all glyphs of the sheet can come up. -/
structure Prints (known : List Text) (sheet : Sheet) (text : Text) : Prop where
  spelled : spell r.face sheet = text
  valid : ∀ g ∈ sheet, r.Valid known g

namespace Prints

variable {known : List Text} {sheet : Sheet} {text : Text}

theorem mono {more : List Text} (wider : known ⊆ more) (prints : r.Prints known sheet text) :
    r.Prints more sheet text :=
  ⟨prints.spelled, fun g member => (prints.valid g member).mono wider⟩

theorem nil : r.Prints known [] [] :=
  ⟨rfl, by simp⟩

theorem append {first second : Sheet} {early late : Text} (left : r.Prints known first early)
    (right : r.Prints known second late) : r.Prints known (first ++ second) (early ++ late) where
  spelled := by rw [spell_append, left.spelled, right.spelled]
  valid g member := (List.mem_append.1 member).elim (left.valid g) (right.valid g)

theorem glyph {g : Glyph Seal} (valid : r.Valid known g) :
    r.Prints known [g] (g.spell r.face) :=
  ⟨by simp, by simpa using valid⟩

theorem cons {g : Glyph Seal} (valid : r.Valid known g) (rest : r.Prints known sheet text) :
    r.Prints known (g :: sheet) (g.spell r.face ++ text) :=
  (glyph valid).append rest

/-- Characters that are not for private use are written as they are. -/
theorem chars (text : Text) (plain : ∀ c ∈ text, Unicode.isPrivate c = false) :
    r.Prints known (Glyph.chars text) text where
  spelled := spell_chars r.face text
  valid g member := by
    obtain ⟨c, inside, rfl⟩ := Glyph.mem_chars.1 member
    exact .char (r.free_of_not_isPrivate (plain c inside))

/-- Characters before and after what is printed. -/
theorem enclosed {opening closing : Text} (prints : r.Prints known sheet text)
    (front : ∀ c ∈ opening, Unicode.isPrivate c = false)
    (back : ∀ c ∈ closing, Unicode.isPrivate c = false) :
    r.Prints known (Glyph.chars opening ++ sheet ++ Glyph.chars closing)
      (opening ++ text ++ closing) :=
  ((chars _ front).append prints).append (chars _ back)

/-- A part of the sheet is a part of the text. -/
theorem part {part : Sheet} (prints : r.Prints known sheet text) (within : part ⊆ sheet) :
    r.Prints known part (spell r.face part) :=
  ⟨rfl, fun g member => prints.valid g (within member)⟩

end Prints

end Renaming

end Markdown
