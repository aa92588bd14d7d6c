import Markdown.Proofs.Sheet.Lines
import Markdown.Proofs.Structure.Tags

set_option autoImplicit false

namespace Markdown.Structure

open Pattern

/-- What may be sealed in a sheet that holds keys of a kind only. -/
inductive Hidden (kept : Sheet → Prop) : Seal → Prop where
  | token {c : Char} (plain : c ≠ '<') : Hidden kept (.token c)
  | marker (side : Side) : Hidden kept (.marker side)
  | key {fragment : Sheet} (here : kept fragment) : Hidden kept (.key fragment)

/-- A glyph of a sheet without angle brackets that holds keys of a kind only. -/
inductive Held (kept : Sheet → Prop) : Glyph Seal → Prop where
  | char {c : Char} (plain : c ≠ '<') : Held kept (.char c)
  | sealed {s : Seal} (hidden : Hidden kept s) : Held kept (.sealed s)

/-- The sheet has no angle brackets and holds keys of a kind only. -/
def Clean (kept : Sheet → Prop) (sheet : Sheet) : Prop :=
  ∀ g ∈ sheet, Held kept g

/-- No key is of this kind. -/
def Keyless (_ : Sheet) : Prop := False

/-- The scale on which nothing weighs anything: it only tells what a sheet is made of. -/
def body (kept : Sheet → Prop) : Scale Empty :=
  ⟨fun written _ => Inert written, fun s _ => Hidden kept s⟩

/-- The sheet is made of texts that take no part in the nesting of blocks and of keys of a kind. -/
def Made (kept : Sheet → Prop) (sheet : Sheet) : Prop :=
  (body kept).Weighs sheet []

variable {kept : Sheet → Prop} {sheet first second : Sheet}

theorem made_of_weighs {w : List Empty} (weighs : (body kept).Weighs sheet w) : Made kept sheet := by
  obtain rfl : w = [] := List.eq_nil_iff_forall_not_mem.2 fun impossible => impossible.elim
  exact weighs

theorem Made.weighs (made : Made kept sheet) (w : List Empty) : (body kept).Weighs sheet w := by
  obtain rfl : w = [] := List.eq_nil_iff_forall_not_mem.2 fun impossible => impossible.elim
  exact made

theorem Clean.append (early : Clean kept first) (late : Clean kept second) :
    Clean kept (first ++ second) :=
  List.forall_mem_append.2 ⟨early, late⟩

theorem Clean.part {part : Sheet} (clean : Clean kept sheet) (within : part ⊆ sheet) :
    Clean kept part :=
  fun g member => clean g (within member)

theorem Hidden.mono {other : Sheet → Prop} (wider : ∀ fragment, kept fragment → other fragment)
    {s : Seal} (hidden : Hidden kept s) : Hidden other s := by
  cases hidden with
  | token plain => exact .token plain
  | marker side => exact .marker side
  | key here => exact .key (wider _ here)

theorem Held.mono {other : Sheet → Prop} (wider : ∀ fragment, kept fragment → other fragment)
    {g : Glyph Seal} (held : Held kept g) : Held other g := by
  cases held with
  | char plain => exact .char plain
  | sealed hidden => exact .sealed (hidden.mono wider)

theorem clean_chars {text : Text} (opens : '<' ∉ text) : Clean kept (Glyph.chars text) := by
  intro g member
  obtain ⟨c, inside, rfl⟩ := Glyph.mem_chars.1 member
  exact .char fun same => opens (same ▸ inside)

namespace Made

theorem nil : Made kept [] :=
  Scale.Weighs.nil

theorem append (early : Made kept first) (late : Made kept second) : Made kept (first ++ second) :=
  made_of_weighs (Scale.Weighs.append early late)

theorem inert {written : Text} (inert : Inert written) : Made kept (Glyph.chars written) := by
  have here : (body kept).ofText written [] := inert
  exact .ofText here

theorem opening {written : Text} (named : written ∈ inlineOpenings) :
    Made kept (Glyph.chars written) :=
  .inert (.opening named)

theorem sealed {s : Seal} (hidden : Hidden kept s) : Made kept [.sealed s] := by
  have here : (body kept).ofSeal s [] := hidden
  exact .ofSeal here

theorem hidden (made : Made kept sheet) {s : Seal} (member : Glyph.sealed s ∈ sheet) : Hidden kept s := by
  rw [Made] at made
  generalize ([] : List Empty) = w at made
  induction made with
  | nil => exact absurd member List.not_mem_nil
  | @text written w rest v here later ih =>
    rcases List.mem_append.1 member with inText | later
    · obtain ⟨c, _, impossible⟩ := Glyph.mem_chars.1 inText
      cases impossible
    · exact ih later
  | @sealed t w rest v here later ih =>
    rcases List.mem_cons.1 member with same | later
    · obtain rfl := Glyph.sealed.inj same
      exact here
    · exact ih later

end Made

theorem Held.made {g : Glyph Seal} (held : Held kept g) : Made kept [g] := by
  cases held with
  | @char c plain => exact .inert (.char plain)
  | sealed hidden => exact .sealed hidden

theorem Clean.made (clean : Clean kept sheet) : Made kept sheet := by
  induction sheet with
  | nil => exact .nil
  | cons g rest ih =>
    exact (clean g List.mem_cons_self).made.append
      (ih fun h member => clean h (List.mem_cons_of_mem _ member))

theorem made_chars {text : Text} (opens : '<' ∉ text) : Made kept (Glyph.chars text) :=
  (clean_chars opens).made

theorem leads {c : Char} (apart : ∀ written ∈ inlineOpenings, c ∉ written.tail) :
    (body kept).Leads c := by
  intro written w unit
  cases unit with
  | char => exact List.not_mem_nil
  | opening named => exact apart written named

theorem trails {c : Char} (apart : ∀ written ∈ inlineOpenings, c ∉ written.dropLast) :
    (body kept).Trails c := by
  intro written w unit
  cases unit with
  | char => exact List.not_mem_nil
  | opening named => exact apart written named

theorem single {c : Char} (plain : c ≠ '<') : (body kept).Single c := by
  have begins : ∀ written ∈ inlineOpenings, written.head? = some '<' := by decide
  intro more w unit
  generalize whole : c :: more = written at unit
  cases unit with
  | char => exact (List.cons.inj whole).2
  | opening named =>
    have first := begins written named
    rw [← whole] at first
    exact absurd (Option.some.inj first) plain

/-- What stands between two characters that belong to no tag. -/
theorem Made.between {c d : Char} {front middle back : Sheet} (after : (body kept).Trails c)
    (before : (body kept).Leads d)
    (made : Made kept (front ++ [Glyph.char c] ++ middle ++ Glyph.char d :: back)) : Made kept middle := by
  obtain ⟨u, v, early, _, _⟩ := before.cuts _ back _ made
  obtain ⟨x, y, _, here, _⟩ := after.cuts front middle _ early
  exact made_of_weighs here

section Recasts

variable {slot : Type} [DecidableEq slot] {pattern : Pattern slot} {drawn : Find Seal slot → Sheet}

theorem Made.recast (made : Made kept sheet)
    (detached : ∀ f, pattern.Finds Seal.lead sheet f → (body kept).Detached f.glyphs sheet)
    (each : ∀ f, pattern.Finds Seal.lead sheet f → Made kept f.glyphs → Made kept (drawn f)) :
    Made kept (pattern.recast drawn sheet) := by
  refine Scale.Weighs.recast detached (fun f finds v here => ?_) made
  exact (each f finds (made_of_weighs here)).weighs v

/-- The pattern begins with one character and ends with another. -/
def Bounded (c d : Char) (pattern : Pattern slot) : Prop :=
  pattern.Takes Seal.lead fun passed =>
    (∃ rest, passed = .char c :: rest) ∧ ∃ front, passed = front ++ [Glyph.char d]

/-- Between characters that belong to no tag, a match can be replaced. -/
theorem Made.recast_bounded {c d : Char} (made : Made kept sheet) (bounded : Bounded c d pattern)
    (before : (body kept).Leads c) (after : (body kept).Trails d)
    (each : ∀ f, pattern.Finds Seal.lead sheet f → Made kept f.glyphs → Made kept (drawn f)) :
    Made kept (pattern.recast drawn sheet) := by
  refine made.recast (fun f finds => ?_) each
  obtain ⟨⟨rest, first⟩, front, last⟩ := bounded.glyphs finds
  exact Scale.detached_of_ends before after first last

theorem Clean.recast {other : Sheet → Prop} (clean : Clean kept sheet)
    (wider : ∀ fragment, kept fragment → other fragment)
    (each : ∀ f, pattern.Finds Seal.lead sheet f → Clean other (drawn f)) :
    Clean other (pattern.recast drawn sheet) := by
  have recasts : Recasts (fun f part => part = drawn f) (pattern.pieces Seal.lead sheet)
      (pattern.recast drawn sheet) := .of_recast fun _ _ => rfl
  refine recasts.forall_mem (fun g member => ?_) (fun f part member same g inside => ?_)
  · exact (clean g (mem_of_plain_mem_pieces member)).mono wider
  · exact each f (finds_of_mem_pieces member) g (same ▸ inside)

end Recasts

/-- What is sealed in the sheet is of the kind; there may be any characters. -/
def SealsOf (kept : Sheet → Prop) (sheet : Sheet) : Prop :=
  ∀ s, Glyph.sealed s ∈ sheet → Hidden kept s

theorem Clean.sealsOf (clean : Clean kept sheet) : SealsOf kept sheet := by
  intro s member
  cases clean _ member with
  | sealed hidden => exact hidden

theorem SealsOf.part {part : Sheet} (seals : SealsOf kept sheet) (within : part ⊆ sheet) :
    SealsOf kept part :=
  fun s member => seals s (within member)

theorem clean_onChars {drawn : Char → Sheet} (seals : SealsOf kept sheet)
    (each : ∀ c, Glyph.char c ∈ sheet → Clean kept (drawn c)) : Clean kept (Sheet.onChars drawn sheet) := by
  intro g member
  obtain ⟨h, inside, here⟩ := List.mem_flatMap.1 member
  cases h with
  | char c => exact each c inside g here
  | sealed s =>
    obtain rfl := List.mem_singleton.1 here
    exact .sealed (seals s inside)

theorem clean_hide (clean : Clean kept sheet) : Clean kept (Sheet.hide sheet) := by
  refine clean_onChars clean.sealsOf fun c member => ?_
  cases clean _ member with
  | char plain =>
    split
    · exact List.forall_mem_singleton.2 (.sealed (.token plain))
    · exact List.forall_mem_singleton.2 (.char plain)

theorem not_mem_escapeChar (c : Char) : '<' ∉ Html.escapeChar c := by
  rw [Html.escapeChar.eq_def]
  split <;> first | decide | (rename_i opens _; simpa using Ne.symm opens)

theorem not_mem_escapeAttributeChar (c : Char) : '<' ∉ Html.escapeAttributeChar c := by
  rw [Html.escapeAttributeChar.eq_def]
  split <;> first | decide | (rename_i opens _ _; simpa using Ne.symm opens)

theorem clean_protect (seals : SealsOf kept sheet) : Clean kept (Sheet.protect sheet) :=
  clean_hide (clean_onChars seals fun c _ => clean_chars (not_mem_escapeChar c))

/-- Whatever stands in an attribute value, no tag begins there. -/
theorem clean_attributeValue (seals : SealsOf kept sheet) :
    Clean kept (Sheet.attributeValue sheet) := by
  refine clean_hide (clean_onChars (fun s member => ?_)
    fun c _ => clean_chars (not_mem_escapeAttributeChar c))
  have recasts : Recasts (fun _ part => part = Glyph.chars "&amp;".toList)
      (Html.bareAmpersand.pieces Seal.lead sheet)
      (Html.bareAmpersand.recast (fun _ => Glyph.chars "&amp;".toList) sheet) :=
    .of_recast fun _ _ => rfl
  have all : ∀ g ∈ Html.bareAmpersand.recast (fun _ => Glyph.chars "&amp;".toList) sheet,
      ∀ s, g = .sealed s → Hidden kept s := by
    refine recasts.forall_mem ?_ ?_
    · rintro _ member s rfl
      exact seals s (mem_of_plain_mem_pieces member)
    · rintro _ _ _ rfl _ inside s rfl
      obtain ⟨c, _, impossible⟩ := Glyph.mem_chars.1 inside
      cases impossible
  exact all _ member s rfl

theorem sealsOf_reveal {written : Char → Text} (seals : SealsOf kept sheet) :
    SealsOf kept (Sheet.reveal written sheet) := by
  intro s member
  obtain ⟨g, inside, here⟩ := List.mem_flatMap.1 member
  cases g with
  | char c => cases List.mem_singleton.1 here
  | sealed t =>
    cases t with
    | token c =>
      obtain ⟨d, _, impossible⟩ := Glyph.mem_chars.1 here
      cases impossible
    | marker side =>
      obtain rfl := Glyph.sealed.inj (List.mem_singleton.1 here)
      exact seals _ inside
    | key fragment =>
      obtain rfl := Glyph.sealed.inj (List.mem_singleton.1 here)
      exact seals _ inside

/-- A tag of inline markup, in which no other begins. -/
theorem made_tag (opening more : Text) (named : opening ∈ inlineOpenings)
    (plain : '<' ∉ more) : Made kept (Glyph.chars (opening ++ more)) := by
  rw [Glyph.chars_append]
  exact (Made.opening named).append (made_chars plain)

theorem made_codeElement (seals : SealsOf kept (Sheet.restore sheet)) :
    Made kept (Sheet.codeElement sheet) :=
  ((made_tag "<c".toList "ode>".toList (by decide) (by decide)).append
    (clean_protect seals).made).append
      (made_tag "</c".toList "ode>".toList (by decide) (by decide))

theorem made_codeSpans (clean : Clean kept sheet) : Made kept (Sheet.codeSpans sheet) := by
  refine clean.made.recast (fun f _ => Scale.detached_of_single fun c member => single ?_)
    fun f finds _ => made_codeElement
      (sealsOf_reveal (clean.sealsOf.part (finds.get_infix .code).subset))
  cases clean _ member with
  | char plain => exact plain

/-- The targets of a table hold no keys but such of the kind. -/
def TargetsOf (kept : Sheet → Prop) (table : Sheet.Table) : Prop :=
  ∀ entry ∈ table, SealsOf kept entry.2.url ∧ ∀ title ∈ entry.2.title, SealsOf kept title

theorem TargetsOf.mono {other : Sheet → Prop} {table : Sheet.Table}
    (wider : ∀ fragment, kept fragment → other fragment) (targets : TargetsOf kept table) :
    TargetsOf other table := by
  intro entry member
  obtain ⟨url, titled⟩ := targets entry member
  exact ⟨fun s inside => (url s inside).mono wider,
    fun title here s inside => (titled title here s inside).mono wider⟩

section Targets

variable {target : Sheet.Target} (url : SealsOf kept target.url)
  (titled : ∀ title ∈ target.title, SealsOf kept title)
include titled

theorem made_titleAttribute : Made kept (Sheet.titleAttribute target.title) := by
  cases here : target.title with
  | none => exact .nil
  | some title =>
    rw [Sheet.titleAttribute]
    split
    · exact .nil
    · exact ((made_chars (by decide)).append (clean_attributeValue (titled title here)).made).append
        (made_chars (by decide))

include url

theorem made_anchor (content : Made kept sheet) : Made kept (Sheet.anchor sheet target) :=
  ((((((made_tag "<a".toList " href=\"".toList (by decide) (by decide)).append
    (clean_attributeValue url).made).append (made_chars (by decide))).append
    (made_titleAttribute titled)).append (made_chars (by decide))).append content).append
      (made_tag "</a".toList ">".toList (by decide) (by decide))

theorem made_image (alt : SealsOf kept sheet) : Made kept (Sheet.image sheet target) :=
  ((((((made_tag "<i".toList "mg src=\"".toList (by decide) (by decide)).append
    (clean_attributeValue url).made).append (made_chars (by decide))).append
    (clean_attributeValue alt).made).append (made_chars (by decide))).append
      (made_titleAttribute titled)).append (made_chars (by decide))

end Targets

/-- The glyphs begin with a character. -/
def StartsWith (c : Char) (passed : Sheet) : Prop :=
  ∃ rest, passed = .char c :: rest

/-- The glyphs end with a character. -/
def EndsWith (d : Char) (passed : Sheet) : Prop :=
  ∃ front, passed = front ++ [Glyph.char d]

section Ends

variable {slot : Type} [DecidableEq slot] {before after : Pattern slot} {c d : Char}

theorem startsWith_char (plain : Unicode.isPrivate c = false) :
    (Pattern.char c : Pattern slot).Takes Seal.lead (StartsWith c) :=
  (takes_char plain).mono fun _ same => ⟨[], same⟩

theorem endsWith_char (plain : Unicode.isPrivate d = false) :
    (Pattern.char d : Pattern slot).Takes Seal.lead (EndsWith d) :=
  (takes_char plain).mono fun _ same => ⟨[], same⟩

theorem startsWith_seq (takes : before.Takes Seal.lead (StartsWith c)) (after : Pattern slot) :
    (before.seq after).Takes Seal.lead (StartsWith c) := by
  refine takes.seq (takes_any after) ?_
  rintro _ more ⟨rest, rfl⟩ _
  exact ⟨rest ++ more, rfl⟩

theorem endsWith_seq (before : Pattern slot) (takes : after.Takes Seal.lead (EndsWith d)) :
    (before.seq after).Takes Seal.lead (EndsWith d) := by
  refine (takes_any before).seq takes ?_
  rintro passed _ _ ⟨front, rfl⟩
  exact ⟨passed ++ front, (List.append_assoc _ _ _).symm⟩

theorem bounded_seq (starts : before.Takes Seal.lead (StartsWith c))
    (ends : after.Takes Seal.lead (EndsWith d)) : Bounded c d (before.seq after) := by
  refine starts.seq ends ?_
  rintro _ _ ⟨rest, rfl⟩ ⟨front, rfl⟩
  exact ⟨⟨rest ++ (front ++ [Glyph.char d]), rfl⟩, .char c :: (rest ++ front), by simp⟩

end Ends

theorem endsWith_labelPart : Link.labelPart.Takes Seal.lead (EndsWith ']') :=
  endsWith_seq _ (endsWith_seq _ (endsWith_seq _ (endsWith_seq _ (endsWith_char (by decide)))))

theorem endsWith_target : Link.target.Takes Seal.lead (EndsWith ')') :=
  endsWith_seq _ (endsWith_seq _ (endsWith_seq _ (endsWith_seq _ (endsWith_seq _
    (endsWith_seq _ (endsWith_seq _ (endsWith_char (by decide))))))))

theorem startsWith_textPart : Link.textPart.Takes Seal.lead (StartsWith '[') :=
  .afterPlace _ (startsWith_seq (startsWith_char (by decide)) _)

theorem startsWith_imagePart : Link.imagePart.Takes Seal.lead (StartsWith '!') :=
  startsWith_seq (startsWith_seq (startsWith_char (by decide)) _) _

/-- The text of a link stands between brackets. -/
theorem frames_textPart : Link.textPart.Frames Seal.lead .text (· = [.char '['])
    (StartsWith ']') := by
  have closed : (Pattern.sequence [.capture .text Link.linkText, .char ']']).Frames Seal.lead
      Link.Part.text (· = []) (StartsWith ']') :=
    .ahead (.capture _ _) (startsWith_char (by decide))
      (by simp [Captures, Pattern.sequence, Pattern.char])
      fun passed more nothing starts => by rwa [nothing, List.nil_append]
  exact .afterPlace _ (.behind (takes_char (by decide)) closed
    fun passed more same nothing => by rw [same, nothing, List.append_nil])

theorem frames_link {after : Pattern Link.Part}
    (spares : after.Captures Seal.lead fun other _ => other ≠ Link.Part.text) :
    (Link.textPart.seq after).Frames Seal.lead .text (· = [.char '[']) (StartsWith ']') := by
  refine .ahead frames_textPart (takes_any after) spares ?_
  rintro _ more ⟨rest, rfl⟩ _
  exact ⟨rest ++ more, rfl⟩

theorem made_text {pattern : Pattern Link.Part} {f : Find Seal Link.Part}
    (frames : pattern.Frames Seal.lead .text (· = [.char '[']) (StartsWith ']'))
    (finds : pattern.Finds Seal.lead sheet f) (made : Made kept f.glyphs) :
    Made kept (f.get .text) := by
  obtain ⟨front, _, whole, rfl, rest, rfl⟩ := frames.glyphs finds
  rw [whole] at made
  have before : (body kept).Leads ']' := leads (by decide)
  have after : (body kept).Trails '[' := trails (by decide)
  rw [← List.nil_append [Glyph.char '[']] at made
  exact made.between after before

section Usages

variable {table : Sheet.Table} (targets : TargetsOf kept table) {f : Find Seal Link.Part}
  {pattern : Pattern Link.Part}

include targets in
theorem made_byReference {draw : Sheet → Sheet.Target → Sheet} (made : Made kept f.glyphs)
    (each : ∀ target : Sheet.Target, SealsOf kept target.url →
      (∀ title ∈ target.title, SealsOf kept title) → Made kept (draw (f.get .text) target)) :
    Made kept (Sheet.byReference table draw f) := by
  rw [Sheet.byReference]
  split
  · next target used =>
    rw [Sheet.usedTarget, Sheet.Table.lookup, Option.map_eq_some_iff] at used
    obtain ⟨entry, found, rfl⟩ := used
    obtain ⟨url, titled⟩ := targets entry (List.mem_of_find?_eq_some found)
    exact each entry.2 url titled
  · exact made

theorem made_byTarget {draw : Sheet → Sheet.Target → Sheet} (seals : SealsOf kept sheet)
    (finds : pattern.Finds Seal.lead sheet f)
    (each : ∀ target : Sheet.Target, SealsOf kept target.url →
      (∀ title ∈ target.title, SealsOf kept title) → Made kept (draw (f.get .text) target)) :
    Made kept (Sheet.byTarget draw f) := by
  refine each _ (seals.part (finds.get_infix .url).subset) fun title here => ?_
  exact seals.part (finds.get?_infix here).subset

/-- A character with which the scheme of an address may begin. -/
def isSchemeStart (c : Char) : Bool :=
  Unicode.isFormOf 'h' c || Unicode.isFormOf 'f' c || Unicode.isFormOf 'm' c

theorem takes_autolink : Link.autolink.Takes Seal.lead fun passed =>
    ∃ c rest, passed = .char '<' :: .char c :: rest ∧ isSchemeStart c = true := by
  have letter : ∀ c ∈ ['h', 'f', 'm'], (Pattern.one (Unicode.isFormOf c) : Pattern Link.Part).Takes
      Seal.lead (Sheet.Begins isSchemeStart) := by
    intro c member
    refine begins_one ?_ fun d form => ?_
    · exact (by decide : ∀ c ∈ ['h', 'f', 'm'], Unicode.isFormOf c Escape.opening = false) c member
    · have cases : c = 'h' ∨ c = 'f' ∨ c = 'm' := by simpa using member
      rcases cases with rfl | rfl | rfl <;> simp [isSchemeStart, form]
  have scheme : Link.scheme.Takes Seal.lead (Sheet.Begins isSchemeStart) :=
    (((letter 'h' (by decide)).begins _).begins _).either
      (((letter 'f' (by decide)).begins _).either ((letter 'm' (by decide)).begins _))
  refine (takes_char (by decide)).seq (((scheme.begins _).capture _).begins _) ?_
  rintro _ _ rfl ⟨c, rest, rfl, starts⟩
  exact ⟨c, rest, rfl, starts⟩

/-- What opens a tag of inline markup is followed by another character than the scheme of an
address. -/
theorem not_finds_autolink (made : Made kept sheet) (f : Find Seal Link.Part) :
    ¬ Link.autolink.Finds Seal.lead sheet f := by
  have apart : ∀ written ∈ inlineOpenings, written.tail.head?.any isSchemeStart = false := by
    decide
  intro finds
  obtain ⟨c, rest, same, starts⟩ := takes_autolink.glyphs finds
  have ahead : f.start.ahead = .char '<' :: (.char c :: rest ++ f.stop.ahead) := by
    rw [finds.passes.ahead, same, List.cons_append]
  rw [← finds.whole, ahead] at made
  have opens : (body kept).Leads '<' := leads (by decide)
  obtain ⟨_, v, _, late, _⟩ := opens.cuts _ _ _ made
  generalize whole : Glyph.char '<' :: (.char c :: rest ++ f.stop.ahead) = tail at late
  cases late with
  | nil => cases whole
  | sealed here later => cases (List.cons.inj whole).1
  | @text written _ _ _ here later =>
    cases here with
    | char plain => exact plain (Glyph.char.inj (List.cons.inj whole).1).symm
    | opening named =>
      have long : ∀ written ∈ inlineOpenings, 2 ≤ written.length := by decide
      match written, long written named, apart written named, whole with
      | _ :: d :: _, _, other, whole =>
        obtain rfl := Glyph.char.inj (List.cons.inj (List.cons.inj whole).2).1
        rw [show isSchemeStart c = false from other] at starts
        cases starts

include targets in
theorem made_links (made : Made kept sheet) : Made kept (Sheet.links table sheet) := by
  have opens : (body kept).Leads '[' := leads (by decide)
  have closesLabel : (body kept).Trails ']' := trails (by decide)
  have closesTarget : (body kept).Trails ')' := trails (by decide)
  let used := Link.referenceLink.recast (Sheet.byReference table Sheet.anchor) sheet
  have references : Made kept used := by
    refine made.recast_bounded (bounded_seq startsWith_textPart endsWith_labelPart) opens closesLabel
      fun f finds here => made_byReference targets here fun target url titled => ?_
    exact made_anchor url titled (made_text (frames_link (by
      simp [Captures, Link.labelPart, Pattern.sequence, Pattern.char, Pattern.optional])) finds here)
  have inlines : Made kept (Link.inlineLink.recast (Sheet.byTarget Sheet.anchor) used) := by
    refine references.recast_bounded (bounded_seq startsWith_textPart endsWith_target) opens
      closesTarget fun f finds here => made_byTarget (fun s => references.hidden) finds
        fun target url titled => ?_
    exact made_anchor url titled (made_text (frames_link (by
      simp [Captures, Link.target, Link.titlePart, Pattern.sequence, Pattern.char,
        Pattern.optional, Pattern.few1])) finds here)
  rw [Sheet.links, Pattern.recast_eq_self (not_finds_autolink inlines)]
  exact inlines

include targets in
theorem made_images (made : Made kept sheet) : Made kept (Sheet.images table sheet) := by
  have opens : (body kept).Leads '!' := leads (by decide)
  have closesLabel : (body kept).Trails ']' := trails (by decide)
  have closesTarget : (body kept).Trails ')' := trails (by decide)
  have references : Made kept (Link.referenceImage.recast (Sheet.byReference table Sheet.image) sheet) :=
    made.recast_bounded (bounded_seq startsWith_imagePart endsWith_labelPart) opens closesLabel
      fun f finds here => made_byReference targets here fun target url titled =>
        made_image url titled fun s member => made.hidden ((finds.get_infix .text).subset member)
  exact references.recast_bounded (bounded_seq startsWith_imagePart endsWith_target) opens closesTarget
    fun f finds here => made_byTarget (fun s => references.hidden) finds fun target url titled =>
      made_image url titled fun s member => references.hidden ((finds.get_infix .text).subset member)

end Usages

/-- Marks of emphasis belong to no tag. -/
theorem made_emphasis {pattern : Pattern Emphasis.Part} {delimiter opening closing : Text}
    (filled : delimiter ≠ []) (marks : ∀ c ∈ delimiter, Emphasis.isMark c = true)
    (opens : Made kept (Glyph.chars opening)) (closes : Made kept (Glyph.chars closing))
    (frames : pattern.Frames Seal.lead .content (· = Glyph.chars delimiter)
      (· = Glyph.chars delimiter)) (made : Made kept sheet) :
    Made kept (pattern.recast (fun f => Glyph.chars opening ++ f.get .content ++
      Glyph.chars closing) sheet) := by
  have ends : ∀ c ∈ delimiter, (body kept).Leads c ∧ (body kept).Trails c := by
    intro c inside
    have cases : c = '*' ∨ c = '_' := by simpa [Emphasis.isMark] using marks c inside
    rcases cases with rfl | rfl <;> exact ⟨leads (by decide), trails (by decide)⟩
  refine Scale.Weighs.recast_delimited filled (fun c inside => (ends c inside).1)
    (fun c inside => (ends c inside).2) frames (fun f _ _ _ _ inside _ => ?_) made
  exact ((opens.append (made_of_weighs inside)).append closes).weighs _

theorem made_strong {pattern : Pattern Emphasis.Part} {delimiter : Text} (filled : delimiter ≠ [])
    (marks : ∀ c ∈ delimiter, Emphasis.isMark c = true)
    (frames : pattern.Frames Seal.lead .content (· = Glyph.chars delimiter)
      (· = Glyph.chars delimiter)) (made : Made kept sheet) :
    Made kept (pattern.recast Sheet.strong sheet) :=
  made_emphasis filled marks (made_tag "<s".toList "trong>".toList (by decide) (by decide))
    (made_tag "</s".toList "trong>".toList (by decide) (by decide)) frames made

theorem made_plain {pattern : Pattern Emphasis.Part} {delimiter : Text} (filled : delimiter ≠ [])
    (marks : ∀ c ∈ delimiter, Emphasis.isMark c = true)
    (frames : pattern.Frames Seal.lead .content (· = Glyph.chars delimiter)
      (· = Glyph.chars delimiter)) (made : Made kept sheet) :
    Made kept (pattern.recast Sheet.plain sheet) :=
  made_emphasis filled marks (made_tag "<e".toList "m>".toList (by decide) (by decide))
    (made_tag "</e".toList "m>".toList (by decide) (by decide)) frames made

theorem made_breaks (made : Made kept sheet) : Made kept (Sheet.breaks sheet) := by
  have before : (body kept).Leads ' ' := leads (by decide)
  have after : (body kept).Trails '\n' := trails (by decide)
  have starts := @startsWith_char Empty _ ' ' (by decide)
  have ends := @endsWith_char Empty _ '\n' (by decide)
  exact made.recast_bounded (bounded_seq starts (endsWith_seq _ ends)) before after
    fun f _ _ => made_tag "<br".toList ">\n".toList (by decide) (by decide)

theorem made_unescape (made : Made kept sheet) : Made kept (Sheet.unescape sheet) := by
  refine Scale.Weighs.flatMap (fun {written w} here => ?_) (fun {s w} here => ?_) made
  · have still := Sheet.reveal_chars (fun c => [c]) written
    rw [Sheet.reveal] at still
    rw [still]
    exact .ofText here
  · cases here with
    | token plain => exact .ofText (Inert.char plain)
    | marker side => exact .ofSeal (Hidden.marker side)
    | key here => exact .ofSeal (Hidden.key here)

/-- Inline markup leaves what takes no part in the nesting of blocks, and keys of the kind. -/
theorem made_inline {table : Sheet.Table} (targets : TargetsOf kept table) (clean : Clean kept sheet) :
    Made kept (Sheet.inline table sheet) := by
  have linked := made_images targets (made_links targets (made_codeSpans clean))
  have strongStars := made_strong (by decide) (by decide)
    (@Emphasis.frames_between "**".toList (by decide) Emphasis.strongContent) linked
  have strongLines := made_strong (by decide) (by decide) (Emphasis.frames_apartFromWords
    (@Emphasis.frames_between "__".toList (by decide) Emphasis.strongContent)) strongStars
  have plainStars := made_plain (by decide) (by decide)
    (@Emphasis.frames_between "*".toList (by decide) (.few1 Pattern.anything)) strongLines
  have plainLines := made_plain (by decide) (by decide) (Emphasis.frames_apartFromWords
    (@Emphasis.frames_between "_".toList (by decide) (.few1 Pattern.anything))) plainStars
  exact made_unescape (made_breaks plainLines)

end Markdown.Structure
