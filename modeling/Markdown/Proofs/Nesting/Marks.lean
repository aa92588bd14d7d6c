import Markdown.Proofs.Quoting.Marks

set_option autoImplicit false

namespace Markdown

namespace Nesting

/-- A character that the mark of a quote or of an item cannot do without. -/
def isMark (c : Char) : Bool :=
  c == '>' || c == '*' || c == '+' || c == '-' || c == '.'

def marks (text : Text) : Nat :=
  text.countP isMark

@[simp] theorem marks_nil : marks [] = 0 := rfl

@[simp] theorem marks_append (first second : Text) :
    marks (first ++ second) = marks first + marks second :=
  List.countP_append

theorem marks_cons (c : Char) (rest : Text) : marks (c :: rest) = marks [c] + marks rest := by
  rw [← List.singleton_append, marks_append]

theorem marks_le_of_infix {part text : Text} (within : part <:+: text) : marks part ≤ marks text :=
  within.sublist.countP_le

theorem marks_pos {text : Text} {c : Char} (member : c ∈ text) (mark : isMark c = true) :
    0 < marks text :=
  List.countP_pos_iff.2 ⟨c, member, mark⟩

/-- Digests are written without marks. -/
theorem marks_stamped {letter : Char} {text : Text} (stamped : Stamped letter text)
    (plain : isMark letter = false) : marks text = 0 := by
  obtain ⟨bytes, rfl⟩ := stamped
  have digits : ∀ c ∈ digestDigits, isMark c = false := by decide
  refine List.countP_eq_zero.2 fun c member => ?_
  rw [List.mem_cons, List.mem_cons, List.mem_append, List.mem_singleton] at member
  rcases member with rfl | rfl | inside | rfl
  · decide
  · simp [plain]
  · simp [digits c (mem_digestDigits_of_mem_hex inside)]
  · decide

theorem marks_token (c : Char) : marks (Escape.token c) = 0 :=
  marks_stamped (stamped_token c) (by decide)

theorem marks_keyBlock (fragment : Text) : marks (Fragments.keyBlock fragment) = 0 := by
  have key : marks (Fragments.key fragment) = 0 := marks_stamped (stamped_key fragment) (by decide)
  rw [Fragments.keyBlock, marks_append, marks_append, key]
  rfl

variable {slot : Type} [DecidableEq slot] {pattern : Pattern slot} {text : Text}

omit [DecidableEq slot] in
theorem marks_replaced_le {replacement : Match slot → Text}
    (each : ∀ found, marks (replacement found) ≤ marks found.text) (pieces : List (Segment slot)) :
    marks (pieces.flatMap (Segment.replaced replacement)) ≤
      marks (pieces.flatMap Segment.text) := by
  induction pieces with
  | nil => exact Nat.le_refl 0
  | cons piece rest ih =>
    rw [List.flatMap_cons, List.flatMap_cons, marks_append, marks_append]
    refine Nat.add_le_add ?_ ih
    cases piece with
    | plain c => exact Nat.le_refl _
    | found m => exact each m

/-- Where no match gives way to a text with more marks, the whole text gets no more. -/
theorem marks_replace_le {replacement : Match slot → Text}
    (each : ∀ found, marks (replacement found) ≤ marks found.text) :
    marks (pattern.replace replacement text) ≤ marks text := by
  conv_rhs => rw [← pattern.flatMap_text_segments text]
  exact marks_replaced_le each _

/-- Where every match gives way to a text without marks, the marks of each match are lost. -/
theorem marks_replace_add_le {replacement : Match slot → Text}
    (none : ∀ found, marks (replacement found) = 0) {found : Match slot}
    (member : .found found ∈ pattern.segments text) :
    marks (pattern.replace replacement text) + marks found.text ≤ marks text := by
  have each : ∀ other, marks (replacement other) ≤ marks other.text := fun other => by
    rw [none other]
    exact Nat.zero_le _
  conv_rhs => rw [← pattern.flatMap_text_segments text]
  rw [Pattern.replace]
  obtain ⟨front, back, pieces⟩ := List.append_of_mem member
  rw [pieces]
  simp only [List.flatMap_append, List.flatMap_cons, marks_append]
  have early := marks_replaced_le each front
  have late := marks_replaced_le each back
  have here : marks ((Segment.found found).replaced replacement) = 0 := none found
  change _ ≤ _ + (marks found.text + _)
  omega

theorem marks_text_le {found : Match slot} (member : .found found ∈ pattern.segments text) :
    marks found.text ≤ marks text :=
  marks_le_of_infix (Pattern.infix_of_mem_segments member)

/-- What is captured has no more marks than the text. -/
theorem marks_get_le {o : Outline Seal slot} (regular : pattern.Regular o Renaming.same.face)
    {found : Match slot} (member : .found found ∈ pattern.segments text) (name : slot) :
    marks (found.get name) ≤ marks text := by
  obtain ⟨f, finds, rfl⟩ := Pattern.exists_finds regular member
  obtain ⟨front, back, whole⟩ := finds.get_infix name
  have spelled := congrArg (spell Renaming.same.face) whole
  rw [spell_chars, spell_append, spell_append] at spelled
  rw [Find.read_get]
  exact marks_le_of_infix ⟨_, _, spelled⟩

def Marked (sheet : Sheet) : Prop :=
  ∃ c, Glyph.char c ∈ sheet ∧ isMark c = true

theorem Marked.pos {sheet : Sheet} (marked : Marked sheet) (face : Seal → Text) :
    0 < marks (spell face sheet) := by
  obtain ⟨c, member, mark⟩ := marked
  exact marks_pos (List.mem_flatMap.2 ⟨_, member, List.mem_singleton_self c⟩) mark

theorem takes_marked_char {c : Char} (mark : isMark c = true)
    (plain : Unicode.isPrivate c = false) :
    (Pattern.char c : Pattern slot).Takes Seal.lead Marked :=
  (Pattern.takes_mem_char plain).mono fun _ member => ⟨c, member, mark⟩

theorem takes_marked_second {first second : Pattern slot} (takes : second.Takes Seal.lead Marked) :
    (first.seq second).Takes Seal.lead Marked :=
  Pattern.Takes.seq (Pattern.takes_any first) takes
    fun _ _ _ ⟨c, member, mark⟩ => ⟨c, List.mem_append_right _ member, mark⟩

theorem takes_marked_first {first second : Pattern slot} (takes : first.Takes Seal.lead Marked) :
    (first.seq second).Takes Seal.lead Marked :=
  takes.seq (Pattern.takes_any second)
    fun _ _ ⟨c, member, mark⟩ _ => ⟨c, List.mem_append_left _ member, mark⟩

theorem takes_markerGap : Listing.markerGap.Takes Seal.lead Marked := by
  refine takes_marked_first (.either ?_ (takes_marked_second
    (takes_marked_char (by decide) (by decide))))
  refine Pattern.Takes.one.mono ?_
  rintro _ ⟨g, rfl, fits⟩
  obtain ⟨c, rfl, bullet⟩ := exists_char_of_fits (by decide) fits
  refine ⟨c, List.mem_singleton_self _, ?_⟩
  simp only [Bool.or_eq_true] at bullet
  rcases bullet with (star | plus) | minus <;> simp [isMark, *]

/-- The marker of an item stands before its content. -/
theorem frames_item :
    Listing.item.Frames Seal.lead .content Marked fun _ => True := by
  have content : (Pattern.seq (.capture .content Listing.itemText)
      (.ahead true Listing.nextItem) : Pattern Listing.Part).Frames Seal.lead .content
        (· = []) fun _ => True :=
    .ahead (.capture _ _) (Pattern.takes_any _) (by simp [Pattern.Captures]) fun _ _ _ _ => trivial
  have marked : (Pattern.seq Listing.markerGap _).Frames Seal.lead .content Marked fun _ => True :=
    .behind takes_markerGap content fun _ _ marked _ => marked.imp fun _ here =>
      ⟨List.mem_append_left _ here.1, here.2⟩
  have front : ∀ passed more : Sheet, True → Marked more → Marked (passed ++ more) :=
    fun _ _ _ marked => marked.imp fun _ here => ⟨List.mem_append_right _ here.1, here.2⟩
  exact .behind (Pattern.takes_any _) (.behind (Pattern.takes_any _) marked front) front

/-- The content of an item has fewer marks than the text in which the item is found. -/
theorem marks_content_lt {found : Match Listing.Part}
    (member : .found found ∈ Listing.item.segments text) :
    marks (found.get .content) < marks text := by
  have within := marks_text_le member
  obtain ⟨f, finds, rfl⟩ := Pattern.exists_finds (Listing.regular_item Renaming.same.quiet) member
  obtain ⟨front, back, whole, marked, _⟩ := frames_item.glyphs finds
  have start := marked.pos Renaming.same.face
  rw [finds.text_read, whole, spell_append, spell_append, marks_append, marks_append] at within
  rw [Find.read_get]
  omega

/-- A sheet begins with a quote mark, behind blanks at most. -/
def Quoted (sheet : Sheet) : Prop :=
  ∃ blanks rest, sheet = blanks ++ Glyph.char '>' :: rest ∧ ∀ g ∈ blanks, g.fits Seal.lead Text.isBlank

theorem takes_quote : Quote.quote.Takes Seal.lead Quoted := by
  have blanks : (Pattern.many Text.isBlank : Pattern Quote.Part).Takes Seal.lead
      fun passed => ∀ g ∈ passed, g.fits Seal.lead Text.isBlank :=
    Pattern.Only.many fun _ fits => fits
  have line : Quote.quotedLines.Takes Seal.lead Quoted := by
    refine .afterPlace _ (blanks.seq (b := fun passed => ∃ rest, passed = .char '>' :: rest) ?_ ?_)
    · exact (Pattern.takes_char (by decide)).seq (Pattern.takes_any _)
        fun _ more same _ => ⟨more, by rw [same]; rfl⟩
    · rintro passed _ blank ⟨rest, rfl⟩
      exact ⟨passed, rest, rfl, blank⟩
  refine Pattern.Takes.capture _ (line.seq (Pattern.takes_any _) ?_)
  rintro _ more ⟨blanks, rest, rfl, blank⟩ _
  exact ⟨blanks, rest ++ more, by simp, blank⟩

/-- A run may pass all glyphs of its class. -/
theorem mem_spots_many {accepts : Char → Bool} {passed : Sheet}
    (inClass : ∀ g ∈ passed, g.fits Seal.lead accepts) (behind rest : Sheet)
    (captures : List (slot × Sheet)) :
    (⟨passed.reverse ++ behind, rest, captures⟩ : Spot Seal slot) ∈
      (Pattern.many accepts).spots Seal.lead ⟨behind, passed ++ rest, captures⟩ := by
  induction passed generalizing behind with
  | nil => exact Pattern.self_mem_many accepts _
  | cons g more ih =>
    have later := ih (fun h member => inClass h (List.mem_cons_of_mem _ member)) (g :: behind)
    refine List.mem_reverse.2 (List.mem_cons_of_mem _ ?_)
    rw [if_pos (inClass g List.mem_cons_self), List.reverse_cons, List.append_assoc]
    exact List.mem_reverse.1 later

/-- Where quoted lines begin there is a mark to be removed. -/
theorem spots_mark_ne_nil {sheet : Sheet} (quoted : Quoted sheet) :
    Quote.mark.spots Seal.lead (.first sheet) ≠ [] := by
  obtain ⟨blanks, rest, rfl, blank⟩ := quoted
  have starts : Sheet.StartsLine [] := by simp [Sheet.StartsLine]
  have here : (Spot.first (blanks ++ Glyph.char '>' :: rest) : Spot Seal Empty) ∈
      Pattern.lineStart.spots Seal.lead (.first (blanks ++ Glyph.char '>' :: rest)) := by
    rw [Spot.first, Pattern.spots_lineStart starts]
    exact List.mem_singleton_self _
  have bracket : (⟨.char '>' :: (blanks.reverse ++ []), rest, []⟩ : Spot Seal Empty) ∈
      (Pattern.char '>').spots Seal.lead ⟨blanks.reverse ++ [], .char '>' :: rest, []⟩ :=
    List.mem_cons_self
  exact List.ne_nil_of_mem (Pattern.mem_spots_seq here (Pattern.mem_spots_seq
    (mem_spots_many blank [] (.char '>' :: rest) []) (Pattern.mem_spots_seq bracket
      (List.mem_append_right _ (List.mem_append_right _ List.mem_cons_self)))))

/-- The lines of a quote have more marks than its content. -/
theorem marks_quoted_lt {found : Match Quote.Part}
    (member : .found found ∈ Quote.quote.segments text) :
    marks (Quote.mark.replace (fun _ => []) (found.get .lines)) < marks (found.get .lines) := by
  obtain ⟨f, finds, rfl⟩ := Pattern.exists_finds (Quote.regular_quote Renaming.same.quiet) member
  obtain ⟨_, _, whole, rfl, rfl⟩ := (Pattern.Frames.capture Quote.Part.lines _).glyphs finds
  rw [List.nil_append, List.append_nil] at whole
  have quoted := takes_quote.glyphs finds
  rw [whole] at quoted
  rw [Find.read_get]
  generalize f.get .lines = lines at quoted
  obtain ⟨stop, first⟩ : ∃ stop, (Quote.mark.spots Seal.lead (.first lines)).head? = some stop :=
    Option.isSome_iff_exists.1 (List.isSome_head?.2 (spots_mark_ne_nil quoted))
  have here : .found ⟨.first lines, stop⟩ ∈ Quote.mark.pieces Seal.lead lines := by
    rw [Pattern.pieces_eq_piecesAhead, Spot.first, Pattern.piecesAhead_found Quote.advances_mark first]
    exact List.mem_cons_self
  have removed : Quote.mark.Takes Seal.lead Marked :=
    .afterPlace _ (takes_marked_second
      (takes_marked_first (takes_marked_char (by decide) (by decide))))
  have finds := Pattern.finds_of_mem_pieces here
  have lost := (removed.glyphs finds).pos Renaming.same.face
  rw [← finds.text_read] at lost
  have cut := Pattern.segments_spell (Quote.regular_mark Renaming.same.quiet) lines
  have inside : .found (Find.read Renaming.same.face ⟨.first lines, stop⟩) ∈
      Quote.mark.segments (spell Renaming.same.face lines) := by
    rw [cut]
    exact List.mem_flatMap.2 ⟨_, here, List.mem_singleton_self _⟩
  have fewer := marks_replace_add_le (fun _ => marks_nil) inside
  omega

theorem marks_outdent_le (text : Text) : marks (CodeBlock.outdent text) ≤ marks text :=
  marks_replace_le fun _ => Nat.zero_le _

theorem marks_evenlySpaced_le (list : Text) : marks (Listing.evenlySpaced list) ≤ marks list :=
  Nat.le_trans (marks_replace_le fun _ => Nat.zero_le _) (marks_replace_le fun _ => Nat.zero_le _)

theorem marks_cover_le (c : Char) : marks (Codec.standard.cover c) ≤ marks [c] := by
  rw [Codec.cover]
  cases covered : Codec.standard.token? c with
  | none => exact Nat.le_refl _
  | some token =>
    rw [Codec.eq_token_of_token? covered]
    exact Nat.le_trans (Nat.le_of_eq (marks_token c)) (Nat.zero_le _)

theorem marks_unifyNewlines_le (text : Text) : marks text.unifyNewlines ≤ marks text := by
  fun_induction Text.unifyNewlines text with
  | case1 => exact Nat.le_refl 0
  | case2 rest ih =>
    rw [marks_cons, marks_cons '\r', marks_cons '\n' rest]
    omega
  | case3 c rest _ ih =>
    rw [marks_cons, marks_cons c]
    refine Nat.add_le_add ?_ ih
    split
    · exact Nat.zero_le _
    · exact Nat.le_refl _

theorem marks_normalize_le (text : Text) : marks (Codec.standard.normalize text) ≤ marks text := by
  refine Nat.le_trans ?_ (marks_unifyNewlines_le text)
  rw [Codec.normalize]
  induction text.unifyNewlines with
  | nil => exact Nat.le_refl 0
  | cons c rest ih =>
    rw [List.flatMap_cons, marks_append, marks_cons c]
    refine Nat.add_le_add ?_ ih
    split
    · exact marks_cover_le c
    · exact Nat.le_refl _

theorem marks_encodeEscapes_le (text : Text) :
    marks (Codec.standard.encodeEscapes text) ≤ marks text := by
  fun_induction Codec.encodeEscapes with
  | case1 c rest escaped ih =>
    have covered := marks_cover_le c
    rw [marks_append, marks_cons '\\', marks_cons c rest]
    omega
  | case2 c rest plain ih =>
    rw [marks_cons, marks_cons '\\' (c :: rest)]
    exact Nat.add_le_add_left ih _
  | case3 c rest _ ih =>
    rw [marks_cons, marks_cons c rest]
    exact Nat.add_le_add_left ih _
  | case4 => exact Nat.le_refl 0

end Nesting

end Markdown
