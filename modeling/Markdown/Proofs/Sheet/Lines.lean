import Markdown.Proofs.Sheet.Document
import Markdown.Proofs.Sheet.Shape
import Markdown.Proofs.Glyph.Trace

set_option autoImplicit false

namespace Markdown

/-- Glyphs that begin with a character of the class. -/
def Sheet.Begins (opens : Char → Bool) (sheet : Sheet) : Prop :=
  ∃ c rest, sheet = .char c :: rest ∧ opens c = true

/-- What stands before the start of a line, the nearest first. -/
def Sheet.StartsLine (behind : Sheet) : Prop :=
  ∀ g ∈ behind.head?, g = .char '\n'

/-- A character of the class. -/
def Glyph.Of (accepts : Char → Bool) (g : Glyph Seal) : Prop :=
  ∃ c, g = .char c ∧ accepts c = true

/-- Glyphs of which the first that is no blank is a character of the class. -/
def Sheet.Marked (marks : Char → Bool) : Sheet → Prop
  | [] => False
  | g :: rest => g.Of marks ∨ g.Of Text.isBlank ∧ Marked marks rest

/-- Glyphs that begin with a character of the class behind at most three blanks. -/
def Sheet.Shallow (marks : Char → Bool) (sheet : Sheet) : Prop :=
  ∃ blanks rest, sheet = blanks ++ rest ∧ blanks.length ≤ 3 ∧ (∀ g ∈ blanks, g.Of Text.isBlank) ∧
    Sheet.Begins marks rest

def Sheet.Indented (sheet : Sheet) : Prop :=
  Glyph.chars "    ".toList <+: sheet ∨ [.char '\t'] <+: sheet

namespace Pattern

variable {slot : Type} [DecidableEq slot] {opens : Char → Bool}

/-- Every match of the pattern has glyphs of the shape at the start of a line. -/
def LeadsLine (shape : Sheet → Prop) (pattern : Pattern slot) : Prop :=
  ∀ spot, ∀ later ∈ pattern.spots Seal.lead spot, ∃ passed rest,
    spot.ahead = passed ++ rest ∧ Sheet.StartsLine (passed.reverse ++ spot.behind) ∧ shape rest

/-- Every match of the pattern has a character of the class at the start of a line. -/
def OpensLine (opens : Char → Bool) (pattern : Pattern slot) : Prop :=
  ∀ spot, ∀ later ∈ pattern.spots Seal.lead spot, ∃ passed rest,
    spot.ahead = passed ++ rest ∧ Sheet.StartsLine (passed.reverse ++ spot.behind) ∧
      Sheet.Begins opens rest

/-- The pattern ends at the start of a line. -/
def EndsLine (pattern : Pattern slot) : Prop :=
  ∀ spot, ∀ later ∈ pattern.spots Seal.lead spot, Sheet.StartsLine later.behind

variable {first second : Pattern slot}

theorem Takes.begins (takes : first.Takes Seal.lead (Sheet.Begins opens)) (second : Pattern slot) :
    (first.seq second).Takes Seal.lead (Sheet.Begins opens) := by
  refine takes.seq (takes_any second) ?_
  rintro _ more ⟨c, rest, rfl, here⟩ _
  exact ⟨c, rest ++ more, rfl, here⟩

theorem Takes.either {shape : Sheet → Prop} (left : first.Takes Seal.lead shape)
    (right : second.Takes Seal.lead shape) : (first.either second).Takes Seal.lead shape := by
  intro spot later member
  rcases List.mem_append.1 member with inFirst | inSecond
  · exact left spot later inFirst
  · exact right spot later inSecond

theorem of_fits {accepts : Char → Bool} (hidden : accepts Escape.opening = false)
    (within : ∀ c, accepts c = true → opens c = true) (g : Glyph Seal)
    (fits : g.fits Seal.lead accepts = true) : g.Of opens := by
  obtain ⟨c, rfl, here⟩ := exists_char_of_fits hidden fits
  exact ⟨c, rfl, within c here⟩

theorem begins_one {accepts : Char → Bool} (hidden : accepts Escape.opening = false)
    (within : ∀ c, accepts c = true → opens c = true) :
    (Pattern.one accepts : Pattern slot).Takes Seal.lead (Sheet.Begins opens) := by
  refine Takes.one.mono ?_
  rintro _ ⟨g, rfl, fits⟩
  obtain ⟨c, rfl, here⟩ := of_fits hidden within g fits
  exact ⟨c, [], rfl, here⟩

theorem begins_char {c : Char} (here : opens c = true) (hidden : (Escape.opening == c) = false) :
    (Pattern.char c : Pattern slot).Takes Seal.lead (Sheet.Begins opens) :=
  begins_one hidden fun d same => by
    rw [show d = c by simpa using same]
    exact here

theorem of_char {c : Char} (here : opens c = true) (hidden : (Escape.opening == c) = false) :
    (Pattern.char c : Pattern slot).Only Seal.lead (Glyph.Of opens) :=
  .one (of_fits hidden fun d same => by
    rw [show d = c by simpa using same]
    exact here)

theorem of_many {accepts : Char → Bool} (hidden : accepts Escape.opening = false)
    (within : ∀ c, accepts c = true → opens c = true) :
    (Pattern.many accepts : Pattern slot).Only Seal.lead (Glyph.Of opens) :=
  .many (of_fits hidden within)

variable {shape : Sheet → Prop}

theorem LeadsLine.mono {other : Sheet → Prop} (leads : first.LeadsLine shape)
    (weaker : ∀ sheet, shape sheet → other sheet) : first.LeadsLine other := by
  intro spot later member
  obtain ⟨passed, rest, ahead, starts, here⟩ := leads spot later member
  exact ⟨passed, rest, ahead, starts, weaker rest here⟩

theorem LeadsLine.seq_left (leads : first.LeadsLine shape) (second : Pattern slot) :
    (first.seq second).LeadsLine shape := by
  intro spot later member
  obtain ⟨middle, early, _⟩ := List.mem_flatMap.1 member
  exact leads spot middle early

theorem LeadsLine.seq_right (first : Pattern slot) (leads : second.LeadsLine shape) :
    (first.seq second).LeadsLine shape := by
  intro spot later member
  obtain ⟨middle, early, late⟩ := List.mem_flatMap.1 member
  obtain ⟨passed, passes⟩ := exists_passes_of_mem_spots early
  obtain ⟨more, rest, ahead, starts, here⟩ := leads middle later late
  refine ⟨passed ++ more, rest, ?_, ?_, here⟩
  · rw [passes.ahead, ahead, List.append_assoc]
  · rwa [passes.behind, ← List.append_assoc, ← List.reverse_append] at starts

theorem LeadsLine.capture (name : slot) (leads : first.LeadsLine shape) :
    (Pattern.capture name first).LeadsLine shape := by
  intro spot later member
  obtain ⟨inner, inside, rfl⟩ := List.mem_map.1 member
  exact leads spot inner inside

/-- A pattern that ends at the start of a line, and then one that takes glyphs of the shape. -/
theorem EndsLine.seq_ahead (ends : first.EndsLine)
    (reads : ∀ spot, ∀ later ∈ second.spots Seal.lead spot, shape spot.ahead) :
    (first.seq second).LeadsLine shape := by
  intro spot later member
  obtain ⟨middle, early, late⟩ := List.mem_flatMap.1 member
  obtain ⟨passed, passes⟩ := exists_passes_of_mem_spots early
  refine ⟨passed, middle.ahead, passes.ahead, ?_, reads middle later late⟩
  rw [← passes.behind]
  exact ends spot middle early

theorem EndsLine.leadsLine (ends : first.EndsLine) (takes : second.Takes Seal.lead shape)
    (grows : ∀ passed more, shape passed → shape (passed ++ more)) :
    (first.seq second).LeadsLine shape :=
  ends.seq_ahead fun spot later member => by
    obtain ⟨passed, passes, here⟩ := takes spot later member
    exact passes.ahead ▸ grows passed later.ahead here

theorem EndsLine.seq_right (first : Pattern slot) (ends : second.EndsLine) :
    (first.seq second).EndsLine := by
  intro spot later member
  obtain ⟨middle, _, late⟩ := List.mem_flatMap.1 member
  exact ends middle later late

theorem EndsLine.either (left : first.EndsLine) (right : second.EndsLine) :
    (first.either second).EndsLine := by
  intro spot later member
  rcases List.mem_append.1 member with inFirst | inSecond
  · exact left spot later inFirst
  · exact right spot later inSecond

theorem endsLine_newline : (Pattern.char '\n' : Pattern slot).EndsLine := by
  intro spot later member
  obtain ⟨passed, passes, rfl⟩ := takes_char (by decide) spot later member
  intro g here
  rw [passes.behind] at here
  exact (Option.some.inj here).symm

/-- A place holds where it is passed. -/
theorem holds_of_mem_place {holds : Cursor → Bool} {spot later : Spot Seal slot}
    (member : later ∈ (Pattern.place holds).spots Seal.lead spot) :
    later = spot ∧ holds (spot.cursor fun s => [Seal.lead s]) = true := by
  simp only [spots] at member
  split at member
  · next here => exact ⟨List.mem_singleton.1 member, here⟩
  · simp at member

omit [DecidableEq slot] in
theorem startsLine_of_follows {spot : Spot Seal slot}
    (follows : (spot.cursor fun s => [Seal.lead s]).follows Text.isNewline = true) :
    Sheet.StartsLine spot.behind := by
  obtain ⟨behind, ahead, captures⟩ := spot
  cases behind with
  | nil => simp [Sheet.StartsLine]
  | cons g rest =>
    cases g with
    | char c =>
      have newline : c = '\n' := by
        simpa [Cursor.follows, Spot.cursor, Glyph.spell, Text.isNewline] using follows
      simp [Sheet.StartsLine, newline]
    | sealed s =>
      have never : Text.isNewline Escape.opening = true := follows
      exact absurd never (by decide)

omit [DecidableEq slot] in
theorem behind_eq_nil {spot : Spot Seal slot}
    (starts : (spot.cursor fun s => [Seal.lead s]).atTextStart = true) : spot.behind = [] := by
  obtain ⟨behind, ahead, captures⟩ := spot
  cases behind with
  | nil => rfl
  | cons g rest => cases g <;> simp [Cursor.atTextStart, Spot.cursor, Glyph.spell] at starts

omit [DecidableEq slot] in
theorem ahead_eq_nil {spot : Spot Seal slot}
    (ended : (spot.cursor fun s => [Seal.lead s]).atTextEnd = true) : spot.ahead = [] := by
  obtain ⟨behind, ahead, captures⟩ := spot
  cases ahead with
  | nil => rfl
  | cons g rest => cases g <;> simp [Cursor.atTextEnd, Spot.cursor, Glyph.spell] at ended

theorem endsLine_lineStart : (Pattern.lineStart : Pattern slot).EndsLine := by
  intro spot later member
  obtain ⟨rfl, here⟩ := holds_of_mem_place member
  rcases Bool.or_eq_true_iff.1 here with starts | follows
  · simp [behind_eq_nil starts, Sheet.StartsLine]
  · exact startsLine_of_follows follows

/-- The start of the text, with or without a newline. -/
theorem endsLine_textStart :
    (Pattern.seq .textStart (.optional (.char '\n')) : Pattern slot).EndsLine := by
  intro spot later member
  obtain ⟨middle, early, late⟩ := List.mem_flatMap.1 member
  obtain ⟨rfl, starts⟩ := holds_of_mem_place early
  rcases List.mem_append.1 late with newline | nothing
  · exact endsLine_newline middle later newline
  · obtain rfl := List.mem_singleton.1 nothing
    simp [behind_eq_nil starts, Sheet.StartsLine]

end Pattern

open Pattern

namespace Sheet

variable {marks : Char → Bool} {sheet : Sheet}

theorem marked_of_begins (begins : Begins marks sheet) : Marked marks sheet := by
  obtain ⟨c, rest, rfl, here⟩ := begins
  exact .inl ⟨c, rfl, here⟩

theorem marked_append_of_blanks {blanks : Sheet} (each : ∀ g ∈ blanks, g.Of Text.isBlank)
    (marked : Marked marks sheet) : Marked marks (blanks ++ sheet) := by
  induction blanks with
  | nil => exact marked
  | cons g rest ih =>
    obtain ⟨here, others⟩ := List.forall_mem_cons.1 each
    exact .inr ⟨here, ih others⟩

theorem shallow_of_begins (begins : Begins marks sheet) : Shallow marks sheet :=
  ⟨[], sheet, rfl, Nat.zero_le _, by simp, begins⟩

theorem Shallow.marked (shallow : Shallow marks sheet) : Marked marks sheet := by
  obtain ⟨blanks, rest, rfl, _, each, begins⟩ := shallow
  exact marked_append_of_blanks each (marked_of_begins begins)

theorem Shallow.append (shallow : Shallow marks sheet) (more : Sheet) :
    Shallow marks (sheet ++ more) := by
  obtain ⟨blanks, rest, rfl, few, each, c, tail, rfl, here⟩ := shallow
  exact ⟨blanks, _, List.append_assoc .., few, each, c, tail ++ more, rfl, here⟩

theorem Shallow.mono {weaker : Char → Bool} (within : ∀ c, marks c = true → weaker c = true)
    (shallow : Shallow marks sheet) : Shallow weaker sheet := by
  obtain ⟨blanks, rest, same, few, each, c, more, begun, here⟩ := shallow
  exact ⟨blanks, rest, same, few, each, c, more, begun, within c here⟩

/-- A mark is one of the marks. -/
theorem Shallow.of_char {c : Char} (here : marks c = true) (shallow : Shallow (· == c) sheet) :
    Shallow marks sheet :=
  shallow.mono fun d same => by
    rw [show d = c by simpa using same]
    exact here

theorem Marked.append (marked : Marked marks sheet) (more : Sheet) :
    Marked marks (sheet ++ more) := by
  induction sheet with
  | nil => exact marked.elim
  | cons g rest ih => exact marked.imp_right fun later => ⟨later.1, ih later.2⟩

theorem Marked.mono {weaker : Char → Bool} (within : ∀ c, marks c = true → weaker c = true)
    (marked : Marked marks sheet) : Marked weaker sheet := by
  induction sheet with
  | nil => exact marked.elim
  | cons g rest ih =>
    refine marked.imp (fun here => ?_) fun later => ⟨later.1, ih later.2⟩
    obtain ⟨c, rfl, inClass⟩ := here
    exact ⟨c, rfl, within c inClass⟩

/-- Blanks or a mark come first. -/
theorem Marked.begins (marked : Marked marks sheet) :
    Begins (fun c => Text.isBlank c || marks c) sheet := by
  cases sheet with
  | nil => exact marked.elim
  | cons g rest =>
    rcases marked with ⟨c, rfl, here⟩ | ⟨⟨c, rfl, here⟩, _⟩ <;>
      exact ⟨c, rest, rfl, by simp [here]⟩

theorem Indented.append (indented : sheet.Indented) (more : Sheet) : (sheet ++ more).Indented :=
  indented.imp (·.trans (List.prefix_append ..)) (·.trans (List.prefix_append ..))

end Sheet

namespace Pattern

variable {slot : Type} [DecidableEq slot] {first second : Pattern slot} {marks : Char → Bool}

/-- At most a number of characters of a class. -/
theorem takes_upTo {accepts inClass : Char → Bool} (hidden : accepts Escape.opening = false)
    (within : ∀ c, accepts c = true → inClass c = true) (count : Nat) :
    (Pattern.upTo count (.one accepts) : Pattern slot).Takes Seal.lead fun passed =>
      passed.length ≤ count ∧ ∀ g ∈ passed, g.Of inClass := by
  have nothing : ∀ bound, (Pattern.empty : Pattern slot).Takes Seal.lead fun passed =>
      passed.length ≤ bound ∧ ∀ g ∈ passed, g.Of inClass := by
    intro bound spot later member
    obtain rfl := List.mem_singleton.1 member
    exact ⟨[], .nothing _, Nat.zero_le _, by simp⟩
  induction count with
  | zero => exact nothing 0
  | succ count ih =>
    refine Takes.either (.seq Takes.one ih ?_) (nothing _)
    rintro _ more ⟨g, rfl, fits⟩ ⟨few, each⟩
    exact ⟨Nat.succ_le_succ few, List.forall_mem_cons.2 ⟨of_fits hidden within g fits, each⟩⟩

theorem takes_spaces : (Pattern.upTo 3 (.char ' ') : Pattern slot).Takes Seal.lead fun passed =>
    passed.length ≤ 3 ∧ ∀ g ∈ passed, g.Of Text.isBlank :=
  takes_upTo rfl (fun c same => by rw [beq_iff_eq.1 same]; rfl) 3

/-- At most three blanks, and then a mark. -/
theorem Takes.shallow (blanks : first.Takes Seal.lead fun passed =>
      passed.length ≤ 3 ∧ ∀ g ∈ passed, g.Of Text.isBlank)
    (takes : second.Takes Seal.lead (Sheet.Begins marks)) :
    (first.seq second).Takes Seal.lead (Sheet.Shallow marks) :=
  .seq blanks takes fun passed more few begins => ⟨passed, more, rfl, few.1, few.2, begins⟩

/-- Blanks, and then a mark. -/
theorem Takes.marked (only : first.Only Seal.lead (Glyph.Of Text.isBlank))
    (takes : second.Takes Seal.lead (Sheet.Begins marks)) :
    (first.seq second).Takes Seal.lead (Sheet.Marked marks) :=
  .seq (a := fun passed => ∀ g ∈ passed, g.Of Text.isBlank) only takes
    fun _ _ each begins => Sheet.marked_append_of_blanks each (Sheet.marked_of_begins begins)

/-- A line that begins with a mark behind at most three blanks. -/
theorem EndsLine.shallow (ends : first.EndsLine)
    (takes : second.Takes Seal.lead (Sheet.Shallow marks)) :
    (first.seq second).LeadsLine (Sheet.Shallow marks) :=
  ends.leadsLine takes fun _ more here => here.append more

/-- A line that begins with a mark behind blanks. -/
theorem EndsLine.marked (ends : first.EndsLine)
    (takes : second.Takes Seal.lead (Sheet.Marked marks)) :
    (first.seq second).LeadsLine (Sheet.Marked marks) :=
  ends.leadsLine takes fun _ more here => here.append more

end Pattern

/-- The marks with which blocks other than quotes begin their lines. -/
def isOpener (c : Char) : Bool :=
  Text.isBlank c || Unicode.isDigit c || "<[#=*-_+".toList.contains c

/-- The marks of blocks other than quotes, behind the blanks of their line. -/
def isMark (c : Char) : Bool :=
  Unicode.isDigit c || "<[#=*-_+".toList.contains c

/-- The marks of blocks other than quotes and definitions, behind the blanks of their line. -/
def isBlockMark (c : Char) : Bool :=
  Unicode.isDigit c || "<#=*-_+".toList.contains c

theorem isMark_of_isBlockMark {c : Char} (mark : isBlockMark c = true) : isMark c = true := by
  rw [isBlockMark, Bool.or_eq_true] at mark
  rw [isMark, Bool.or_eq_true]
  refine mark.imp_right fun inside => ?_
  have within : "<#=*-_+".toList ⊆ "<[#=*-_+".toList := by decide
  exact List.contains_iff_mem.2 (within (List.contains_iff_mem.1 inside))

theorem isOpener_eq (c : Char) : isOpener c = (Text.isBlank c || isMark c) := by
  rw [isOpener, isMark, Bool.or_assoc]

theorem Sheet.Marked.opener {sheet : Sheet} (marked : sheet.Marked isMark) :
    sheet.Begins isOpener := by
  obtain ⟨c, rest, same, here⟩ := marked.begins
  exact ⟨c, rest, same, by rwa [isOpener_eq]⟩

theorem Sheet.Shallow.of_blockMark {sheet : Sheet} (shallow : sheet.Shallow isBlockMark) :
    sheet.Shallow isMark :=
  shallow.mono fun _ => isMark_of_isBlockMark

/-- Literal HTML begins with an angle bracket. -/
theorem Html.leads_htmlBlock : htmlBlock.LeadsLine (Sheet.Shallow (· == '<')) := by
  have element : element.Takes Seal.lead (Sheet.Begins (· == '<')) :=
    (begins_char rfl rfl).begins _
  exact endsLine_lineStart.shallow (.shallow takes_spaces ((element.capture _).begins _))

theorem Html.shallow_htmlBlock : htmlBlock.LeadsLine (Sheet.Shallow isMark) :=
  .mono leads_htmlBlock fun _ => Sheet.Shallow.of_char rfl

theorem Html.marked_htmlBlock : htmlBlock.LeadsLine (Sheet.Marked isMark) :=
  .mono shallow_htmlBlock fun _ => Sheet.Shallow.marked

theorem Html.opensLine_htmlBlock : htmlBlock.OpensLine isOpener :=
  LeadsLine.mono marked_htmlBlock fun _ => Sheet.Marked.opener

/-- A definition begins with a bracket. -/
theorem Definition.leads_definition : definition.LeadsLine (Sheet.Shallow (· == '[')) :=
  endsLine_lineStart.shallow (.shallow (takes_upTo rfl (fun _ => id) 3)
    ((begins_char rfl rfl).begins _))

theorem Definition.shallow_definition : definition.LeadsLine (Sheet.Shallow isMark) :=
  .mono leads_definition fun _ => Sheet.Shallow.of_char rfl

theorem Definition.leads_definitionLine : definitionLine.LeadsLine (Sheet.Shallow (· == '[')) :=
  .seq_left leads_definition _

theorem Definition.shallow_definitionLine : definitionLine.LeadsLine (Sheet.Shallow isMark) :=
  .seq_left shallow_definition _

theorem Definition.marked_definitionLine : definitionLine.LeadsLine (Sheet.Marked isMark) :=
  .mono shallow_definitionLine fun _ => Sheet.Shallow.marked

theorem Definition.opensLine_definitionLine : definitionLine.OpensLine isOpener :=
  LeadsLine.mono marked_definitionLine fun _ => Sheet.Marked.opener

namespace Heading

theorem leads_underlined : underlined.LeadsLine (Sheet.Shallow isBlockMark) := by
  have signs : ∀ c, isBlockMark c = true → (Escape.opening == c) = false →
      (Pattern.many1 (· == c) : Pattern Part).Takes Seal.lead (Sheet.Begins isBlockMark) := by
    intro c here hidden
    exact (begins_char here hidden).begins _
  have underline := (signs '=' rfl rfl).either (signs '-' rfl rfl)
  exact .seq_right _ (.seq_right _ (.seq_right _ (endsLine_newline.shallow
    (((underline.capture _).begins _).mono fun _ => Sheet.shallow_of_begins))))

theorem shallow_underlined : underlined.LeadsLine (Sheet.Shallow isMark) :=
  .mono leads_underlined fun _ => Sheet.Shallow.of_blockMark

theorem marked_underlined : underlined.LeadsLine (Sheet.Marked isMark) :=
  .mono shallow_underlined fun _ => Sheet.Shallow.marked

theorem opensLine_underlined : underlined.OpensLine isOpener :=
  LeadsLine.mono marked_underlined fun _ => Sheet.Marked.opener

/-- A marked heading begins with a number sign. -/
theorem leads_marked : marked.LeadsLine (Sheet.Shallow (· == '#')) := by
  have signs : (Pattern.capture .marks (.seq (.char '#') (.upTo 5 (.char '#'))) :
      Pattern Part).Takes Seal.lead (Sheet.Begins (· == '#')) :=
    ((begins_char rfl rfl).begins _).capture _
  exact endsLine_lineStart.shallow ((signs.begins _).mono fun _ => Sheet.shallow_of_begins)

theorem shallow_marked : marked.LeadsLine (Sheet.Shallow isMark) :=
  .mono leads_marked fun _ => Sheet.Shallow.of_char rfl

theorem marked_marked : marked.LeadsLine (Sheet.Marked isMark) :=
  .mono shallow_marked fun _ => Sheet.Shallow.marked

theorem opensLine_marked : marked.OpensLine isOpener :=
  LeadsLine.mono marked_marked fun _ => Sheet.Marked.opener

theorem leads_rule : rule.LeadsLine (Sheet.Shallow isBlockMark) := by
  have ofMark : ∀ mark, isBlockMark mark = true → (Escape.opening == mark) = false →
      (ruleOf mark).Takes Seal.lead (Sheet.Begins isBlockMark) := by
    intro mark here hidden
    exact ((((begins_char here hidden).begins _).begins _).begins _)
  have marks := (ofMark '*' rfl rfl).either ((ofMark '-' rfl rfl).either (ofMark '_' rfl rfl))
  exact endsLine_lineStart.shallow (.shallow takes_spaces (marks.begins _))

theorem shallow_rule : rule.LeadsLine (Sheet.Shallow isMark) :=
  .mono leads_rule fun _ => Sheet.Shallow.of_blockMark

theorem marked_rule : rule.LeadsLine (Sheet.Marked isMark) :=
  .mono shallow_rule fun _ => Sheet.Shallow.marked

theorem opensLine_rule : rule.OpensLine isOpener :=
  LeadsLine.mono marked_rule fun _ => Sheet.Marked.opener

end Heading

namespace Listing

def isHead (c : Char) : Bool :=
  c == '*' || c == '+' || c == '-' || Unicode.isDigit c

theorem isBlockMark_of_isHead {c : Char} (head : isHead c = true) : isBlockMark c = true := by
  have cases : (c = '*' ∨ c = '+' ∨ c = '-') ∨ Unicode.isDigit c = true := by
    simpa [isHead, or_assoc] using head
  rcases cases with (rfl | rfl | rfl) | digit
  · rfl
  · rfl
  · rfl
  · simp [isBlockMark, digit]

theorem begins_marker : marker.Takes Seal.lead (Sheet.Begins isHead) := by
  refine Takes.either (begins_one rfl fun c bullet => ?_) (Takes.begins ?_ _)
  · have marks : c = '*' ∨ c = '+' ∨ c = '-' := by simpa [or_assoc] using bullet
    rcases marks with rfl | rfl | rfl <;> rfl
  · exact (begins_one rfl fun c digit => by simp [isHead, digit]).begins _

theorem shallow_listBody : listBody.Takes Seal.lead (Sheet.Shallow isHead) :=
  (Takes.shallow takes_spaces ((begins_marker.capture _).begins _)).capture _

theorem startsLine_of_afterBlankLine {spot : Spot Seal Part}
    (here : afterBlankLine (spot.cursor fun s => [Seal.lead s]) = true) :
    Sheet.StartsLine spot.behind := by
  refine startsLine_of_follows ?_
  change "\n\n".toList.isPrefixOf (spellBack _ spot.behind) = true at here
  rw [Cursor.follows, Spot.cursor_before]
  generalize spellBack _ spot.behind = behind at here ⊢
  cases behind with
  | nil => simp at here
  | cons c rest =>
    have newline : ('\n' == c) = true := (Bool.and_eq_true_iff.1 here).1
    rw [← beq_iff_eq.1 newline]
    rfl

theorem leads_topList : topList.LeadsLine (Sheet.Shallow isHead) := by
  have starts : (Pattern.choice [.place afterBlankLine, .seq .textStart (.optional (.char '\n'))] :
      Pattern Part).EndsLine := by
    refine EndsLine.either (fun spot later member => ?_) endsLine_textStart
    obtain ⟨rfl, here⟩ := holds_of_mem_place member
    exact startsLine_of_afterBlankLine here
  exact starts.shallow shallow_listBody

theorem shallow_topList : topList.LeadsLine (Sheet.Shallow isMark) :=
  .mono leads_topList fun _ shallow =>
    (shallow.mono fun _ => isBlockMark_of_isHead).of_blockMark

theorem marked_topList : topList.LeadsLine (Sheet.Marked isMark) :=
  .mono shallow_topList fun _ => Sheet.Shallow.marked

theorem leads_nestedList : nestedList.LeadsLine (Sheet.Shallow isHead) :=
  endsLine_lineStart.shallow shallow_listBody

theorem opensLine_topList : topList.OpensLine isOpener :=
  LeadsLine.mono marked_topList fun _ => Sheet.Marked.opener

end Listing

theorem CodeBlock.indented_codeBlock : codeBlock.LeadsLine Sheet.Indented := by
  have starts : (Pattern.choice [.literal "\n\n".toList, .seq .textStart (.optional (.char '\n'))] :
      Pattern Part).EndsLine :=
    .either (.seq_right _ endsLine_newline) endsLine_textStart
  have indent : (Pattern.choice [.literal "    ".toList, .char '\t'] : Pattern Part).Takes Seal.lead
      Sheet.Indented :=
    ((takes_literal (by decide)).mono fun passed same => .inl (same ▸ List.prefix_rfl)).either
      ((takes_char (by decide)).mono fun passed same => .inr (same ▸ List.prefix_rfl))
  have line : indentedLine.Takes Seal.lead Sheet.Indented :=
    indent.seq (takes_any _) fun _ more here _ => here.append more
  exact starts.leadsLine ((line.seq (takes_any _) fun _ more here _ => here.append more).capture _)
    fun _ more here => here.append more

theorem CodeBlock.opensLine_codeBlock : codeBlock.OpensLine isOpener := by
  refine indented_codeBlock.mono ?_
  rintro sheet (⟨rest, rfl⟩ | ⟨rest, rfl⟩)
  · exact ⟨' ', _, rfl, rfl⟩
  · exact ⟨'\t', _, rfl, rfl⟩

theorem Quote.marked_quote : quote.LeadsLine (Sheet.Marked (· == '>')) := by
  have blanks : (Pattern.many Text.isBlank : Pattern Part).Only Seal.lead (Glyph.Of Text.isBlank) :=
    of_many rfl fun _ => id
  have line : quotedLines.LeadsLine (Sheet.Marked (· == '>')) :=
    endsLine_lineStart.marked (.marked blanks ((begins_char rfl rfl).begins _))
  exact (line.seq_left _).capture _

namespace Sheet

/-- Glyphs with which a line of a block other than a paragraph begins. -/
def OpensBlock (sheet : Sheet) : Prop :=
  sheet.Marked (fun c => isMark c || c == '>') ∨ sheet.Indented

/-- Glyphs with which a line of a block begins, definitions and paragraphs aside. -/
def LeadsBlock (sheet : Sheet) : Prop :=
  sheet.Marked (fun c => isBlockMark c || c == '>') ∨ sheet.Indented

theorem LeadsBlock.opensBlock {sheet : Sheet} (leads : sheet.LeadsBlock) : sheet.OpensBlock := by
  refine leads.imp_left (·.mono fun c mark => ?_)
  rw [Bool.or_eq_true] at mark ⊢
  exact mark.imp_left isMark_of_isBlockMark

theorem LeadsBlock.begins {sheet : Sheet} (leads : sheet.LeadsBlock) :
    sheet.Begins fun c => Text.isBlank c || isBlockMark c || c == '>' := by
  rcases leads with marked | ⟨rest, rfl⟩ | ⟨rest, rfl⟩
  · simpa [Bool.or_assoc] using marked.begins
  · exact ⟨' ', _, rfl, rfl⟩
  · exact ⟨'\t', _, rfl, rfl⟩

theorem Marked.opensBlock {marks : Char → Bool} {sheet : Sheet}
    (within : ∀ c, marks c = true → (isMark c || c == '>') = true) (marked : sheet.Marked marks) :
    sheet.OpensBlock :=
  .inl (marked.mono within)

theorem OpensBlock.begins {sheet : Sheet} (opens : sheet.OpensBlock) :
    sheet.Begins fun c => Text.isBlank c || isMark c || c == '>' := by
  rcases opens with marked | ⟨rest, rfl⟩ | ⟨rest, rfl⟩
  · simpa [Bool.or_assoc] using marked.begins
  · exact ⟨' ', _, rfl, rfl⟩
  · exact ⟨'\t', _, rfl, rfl⟩

/-- Every line that is not empty begins with a character of the class; `starts` tells whether the
sheet itself begins a line. -/
def Headed (heads : Char → Bool) : (starts : Bool) → Sheet → Prop
  | _, [] => True
  | starts, g :: rest =>
    (starts = true → g.Of fun c => c == '\n' || heads c) ∧
      Headed heads (g.fits Seal.lead Text.isNewline) rest

variable {heads : Char → Bool}

theorem Headed.begins {starts : Bool} {early rest : Sheet} {c : Char}
    (headed : Headed heads starts (early ++ Glyph.char c :: rest))
    (here : early = [] → starts = true) (line : ∀ g ∈ early.getLast?, g = .char '\n') :
    c = '\n' ∨ heads c = true := by
  induction early generalizing starts with
  | nil =>
    obtain ⟨d, same, inClass⟩ := headed.1 (here rfl)
    obtain rfl := Glyph.char.inj same
    simpa using inClass
  | cons g early ih =>
    refine ih headed.2 (fun last => ?_) fun h member => line h ?_
    · subst last
      rw [line g rfl]
      rfl
    · cases early with
      | nil => simp at member
      | cons h early => exact member

/-- No line of the sheet begins with glyphs of the shape. -/
def Avoids (shape : Sheet → Prop) (sheet : Sheet) : Prop :=
  ∀ early late, sheet = early ++ late → StartsLine early.reverse → ¬ shape late

theorem Avoids.absent {slot : Type} [DecidableEq slot] {pattern : Pattern slot}
    {shape : Sheet → Prop} {sheet : Sheet} (avoids : sheet.Avoids shape)
    (leads : pattern.LeadsLine shape) : pattern.Absent Seal.lead sheet := by
  intro f finds
  obtain ⟨passed, rest, ahead, starts, here⟩ := leads _ _ finds.mem
  refine avoids (f.start.behind.reverse ++ passed) rest ?_ ?_ here
  · rw [← finds.whole, ahead, List.append_assoc]
  · simpa using starts

theorem Avoids.mono {stronger shape : Sheet → Prop} {sheet : Sheet} (avoids : sheet.Avoids shape)
    (within : ∀ sheet, stronger sheet → shape sheet) : sheet.Avoids stronger :=
  fun early late whole starts here => avoids early late whole starts (within late here)

/-- No line begins with a character that is not among the heads. -/
theorem Headed.avoids {opens : Char → Bool} {sheet : Sheet} (headed : Headed heads true sheet)
    (apart : ∀ c, opens c = true → c ≠ '\n' ∧ heads c = false) : sheet.Avoids (Begins opens) := by
  rintro early _ rfl starts ⟨c, more, rfl, here⟩
  rw [StartsLine, List.head?_reverse] at starts
  rcases headed.begins (fun _ => rfl) starts with newline | head
  · exact (apart c here).1 newline
  · rw [(apart c here).2] at head
    cases head

/-- No pattern is found that opens a line with a character which no line begins with. -/
theorem Headed.absent {slot : Type} [DecidableEq slot] {pattern : Pattern slot}
    {opens : Char → Bool} {sheet : Sheet} (headed : Headed heads true sheet)
    (opensLine : pattern.OpensLine opens)
    (apart : ∀ c, opens c = true → c ≠ '\n' ∧ heads c = false) :
    pattern.Absent Seal.lead sheet :=
  (headed.avoids apart).absent opensLine

/-- No line of the sheet opens a block other than a paragraph. -/
def Prose (sheet : Sheet) : Prop :=
  ∀ early late, sheet = early ++ late → StartsLine early.reverse → ¬ late.OpensBlock

theorem Prose.absent {slot : Type} [DecidableEq slot] {pattern : Pattern slot} {sheet : Sheet}
    (prose : sheet.Prose) (leads : pattern.LeadsLine OpensBlock) :
    pattern.Absent Seal.lead sheet :=
  Avoids.absent prose leads

theorem Headed.append {starts : Bool} {first second : Sheet} (early : Headed heads starts first)
    (late : Headed heads true second) : Headed heads starts (first ++ Glyph.char '\n' :: second) := by
  induction first generalizing starts with
  | nil => exact ⟨fun _ => ⟨'\n', rfl, rfl⟩, late⟩
  | cons g rest ih => exact ⟨early.1, ih early.2⟩

theorem unifyNewlines_append {first : Text} (carriage : '\r' ∉ first) (second : Text) :
    (first ++ second).unifyNewlines = first ++ second.unifyNewlines := by
  induction first with
  | nil => rfl
  | cons c first ih =>
    obtain ⟨other, carriage⟩ := List.ne_and_not_mem_of_not_mem_cons carriage
    rw [List.cons_append, Text.unifyNewlines, if_neg (Ne.symm other), ih carriage, List.cons_append]
    exact fun _ same => absurd same.symm other

theorem unifyNewlines_eq_self {text : Text} (carriage : '\r' ∉ text) : text.unifyNewlines = text := by
  simpa using unifyNewlines_append carriage []

theorem ofDocument_eq_map {text : Text} (carriage : '\r' ∉ text) :
    ofDocument text = text.map glyphOf := by
  rw [ofDocument, unifyNewlines_eq_self carriage]

theorem glyphOf_of_not_isPrivate {c : Char} (plain : Unicode.isPrivate c = false) :
    glyphOf c = .char c := by
  have apart : ∀ marker, Unicode.isPrivate marker = true → c ≠ marker :=
    fun marker here => Ne.symm (Unicode.ne_of_isPrivate here plain)
  rw [glyphOf, if_neg (apart _ (by decide)), if_neg (apart _ (by decide))]

theorem map_glyphOf_eq_chars {text : Text} (plain : ∀ c ∈ text, Unicode.isPrivate c = false) :
    text.map glyphOf = Glyph.chars text :=
  List.map_congr_left fun c inside => glyphOf_of_not_isPrivate (plain c inside)

end Sheet

namespace Codec

theorem normalize_append {first : Text} (carriage : '\r' ∉ first) (second : Text) :
    standard.normalize (first ++ second) =
      standard.normalize first ++ standard.normalize second := by
  rw [normalize, normalize, normalize, Sheet.unifyNewlines_append carriage,
    Sheet.unifyNewlines_eq_self carriage, List.flatMap_append]

/-- A document without markers keeps its characters. -/
theorem normalize_of_unmarked {document : Text}
    (unmarked : ∀ c ∈ document, Escape.isMarker c = false) :
    standard.normalize document = document.unifyNewlines := by
  have kept : ∀ c ∈ document.unifyNewlines,
      (if Escape.isMarker c then standard.cover c else [c]) = [c] := by
    intro c inside
    rcases Renaming.mem_of_mem_unifyNewlines inside with here | rfl
    · rw [unmarked c here]
      rfl
    · rfl
  rw [normalize, List.flatMap_congr kept, List.flatMap_singleton']

end Codec

namespace Block

def blankLine : Pattern Empty :=
  .seq (.many Text.isBlank) (.char '\n')

theorem advances_blankLine : blankLine.Advances Seal.lead :=
  .seq_right _ (.one _)

theorem advances_blankLines : blankLines.Advances Seal.lead :=
  .seq_left (.one _) _

variable {behind rest : Sheet} {captures : List (Empty × Sheet)}

theorem spots_newline :
    (Pattern.char '\n' : Pattern Empty).spots Seal.lead ⟨behind, .char '\n' :: rest, captures⟩ =
      [⟨.char '\n' :: behind, rest, captures⟩] := rfl

theorem spots_blankLine_newline :
    blankLine.spots Seal.lead ⟨behind, .char '\n' :: rest, captures⟩ =
      [⟨.char '\n' :: behind, rest, captures⟩] := rfl

end Block

end Markdown
