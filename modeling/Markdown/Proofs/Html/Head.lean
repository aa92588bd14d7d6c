import Mathlib.Data.List.Infix
import Markdown.Page
import Markdown.Proofs.Html.Attribute

set_option autoImplicit false

namespace Markdown

namespace Html

/-- Element content read back: the references to the ampersand and the angle brackets give way to
them. -/
def decode : Text → Text
  | '&' :: 'a' :: 'm' :: 'p' :: ';' :: rest => '&' :: decode rest
  | '&' :: 'l' :: 't' :: ';' :: rest => '<' :: decode rest
  | '&' :: 'g' :: 't' :: ';' :: rest => '>' :: decode rest
  | c :: rest => c :: decode rest
  | [] => []

theorem decode_cons {c : Char} (other : c ≠ '&') (rest : Text) :
    decode (c :: rest) = c :: decode rest := by
  rw [decode] <;> simp [other]

/-- A character of element content is read back as itself. -/
theorem decode_escapeChar_append (c : Char) (rest : Text) :
    decode (escapeChar c ++ rest) = c :: decode rest := by
  unfold escapeChar
  split
  · rfl
  · rfl
  · rfl
  · next ampersand _ _ => exact decode_cons ampersand rest

theorem decode_escape (text : Text) : decode (escape text) = text := by
  induction text with
  | nil => rfl
  | cons c rest ih =>
    rw [escape, List.flatMap_cons, decode_escapeChar_append]
    exact congrArg (c :: ·) ih

theorem not_mem_escape {c : Char} (angle : c = '<' ∨ c = '>') (text : Text) : c ∉ escape text := by
  intro inside
  obtain ⟨d, -, here⟩ := List.mem_flatMap.1 inside
  unfold escapeChar at here
  split at here
  · rcases angle with rfl | rfl <;> exact absurd here (by decide)
  · rcases angle with rfl | rfl <;> exact absurd here (by decide)
  · rcases angle with rfl | rfl <;> exact absurd here (by decide)
  · next opens closes =>
    obtain rfl := List.mem_singleton.1 here
    exact angle.elim opens closes

end Html

namespace Text

/-- The text is cut at the first place of the marker. -/
structure CutAt (marker text front back : Text) : Prop where
  whole : text = front ++ (marker ++ back)
  first : ∀ early late, text = early ++ (marker ++ late) → front.length ≤ early.length

/-- No place of the marker begins in the part, whatever stands behind the part. -/
def Clear (marker part : Text) : Prop :=
  ∀ rest early late, part ++ rest = early ++ (marker ++ late) → part.length ≤ early.length

namespace Clear

variable {marker part other : Text}

theorem append (first : Clear marker part) (second : Clear marker other) :
    Clear marker (part ++ other) := by
  intro rest early late whole
  rw [List.append_assoc] at whole
  have enough := first _ _ _ whole
  obtain ⟨more, rfl⟩ : part <+: early :=
    List.prefix_of_prefix_length_le ⟨_, whole⟩ ⟨_, rfl⟩ enough
  rw [List.append_assoc] at whole
  have onward := second _ _ _ (List.append_cancel_left whole)
  simpa using onward

/-- A place of the marker that begins in the part does so with the tail of the part. -/
theorem of_tails (apart : ∀ tail ∈ part.tails, tail ≠ [] →
    ¬ marker <+: tail ∧ ¬ tail <+: marker) : Clear marker part := by
  intro rest early late whole
  rcases List.append_eq_append_iff.1 whole with ⟨more, rfl, -⟩ | ⟨tail, rfl, same⟩
  · simp
  · by_cases none : tail = []
    · simp [none]
    · obtain ⟨shorter, longer⟩ := apart tail ((List.mem_tails _ _).2 ⟨early, rfl⟩) none
      rcases List.prefix_or_prefix_of_prefix ⟨late, rfl⟩ ⟨rest, same.symm⟩ with stands | stands
      · exact absurd stands shorter
      · exact absurd stands longer

theorem of_not_mem {c : Char} {name : Text} (none : c ∉ part) : Clear (c :: name) part := by
  intro rest early late whole
  rcases List.append_eq_append_iff.1 whole with ⟨more, rfl, -⟩ | ⟨tail, rfl, same⟩
  · simp
  · cases tail with
    | nil => simp
    | cons d tail =>
      obtain ⟨rfl, -⟩ := List.cons.inj same
      exact absurd (by simp) none

theorem cutAt (clear : Clear marker part) (back : Text) :
    CutAt marker (part ++ (marker ++ back)) part back :=
  ⟨rfl, fun early late whole => clear _ early late whole⟩

theorem absent (clear : Clear marker part) (some : marker ≠ []) : ¬ marker <:+: part := by
  rintro ⟨early, late, rfl⟩
  have impossible := clear [] early late (by simp)
  have inked := List.length_pos_iff.2 some
  simp only [List.length_append] at impossible
  omega

end Clear

end Text

/-- What begins the title, and what ends the head. -/
def headMarkers : List Text :=
  ["<title>".toList, "</head>".toList]

/-- A part of the head with so many opening and closing angle brackets and double quotes, in which
neither the title nor the end of the head begins. -/
structure HeadPart (part : Text) (opens closes quotes : Nat) : Prop where
  opens : part.count '<' = opens
  closes : part.count '>' = closes
  quotes : part.count '"' = quotes
  clear : ∀ marker ∈ headMarkers, Text.Clear marker part

namespace HeadPart

variable {part other : Text} {opens closes quotes moreOpens moreCloses moreQuotes : Nat}

theorem append (first : HeadPart part opens closes quotes)
    (second : HeadPart other moreOpens moreCloses moreQuotes) :
    HeadPart (part ++ other) (opens + moreOpens) (closes + moreCloses) (quotes + moreQuotes) where
  opens := by rw [List.count_append, first.opens, second.opens]
  closes := by rw [List.count_append, first.closes, second.closes]
  quotes := by rw [List.count_append, first.quotes, second.quotes]
  clear marker member := (first.clear marker member).append (second.clear marker member)

theorem literal (part : Text) {opens closes quotes : Nat}
    (counted : part.count '<' = opens ∧ part.count '>' = closes ∧ part.count '"' = quotes)
    (apart : ∀ marker ∈ headMarkers, ∀ tail ∈ part.tails, tail ≠ [] →
      ¬ marker <+: tail ∧ ¬ tail <+: marker) : HeadPart part opens closes quotes :=
  ⟨counted.1, counted.2.1, counted.2.2, fun marker member => .of_tails (apart marker member)⟩

theorem value (text : Text) : HeadPart (Html.escapeAttribute text) 0 0 0 := by
  have plain := (Html.undoes_escapeAttribute text).not_mem_marks
  have none : ∀ c ∈ Html.marks.map Prod.fst, c ∉ Html.escapeAttribute text :=
    fun c mark inside => plain c inside mark
  have angle : '<' ∉ Html.escapeAttribute text := none '<' (by decide)
  refine ⟨List.count_eq_zero.2 angle, List.count_eq_zero.2 (none '>' (by decide)),
    List.count_eq_zero.2 (none '"' (by decide)), ?_⟩
  simp only [headMarkers, List.forall_mem_cons]
  exact ⟨.of_not_mem angle, .of_not_mem angle, by simp⟩

theorem flatMap {α : Type} (items : List α) {parts : α → Text}
    (each : ∀ item, HeadPart (parts item) opens closes quotes) :
    HeadPart (items.flatMap parts) (opens * items.length) (closes * items.length)
      (quotes * items.length) := by
  induction items with
  | nil => exact .literal [] ⟨rfl, rfl, rfl⟩ (by decide)
  | cons item rest ih =>
    have whole := (each item).append ih
    simpa [Nat.mul_add, Nat.add_comm] using whole

end HeadPart

/-- The attributes of a tag are written around their values. -/
theorem headPart_metaTag (name content : Text) :
    HeadPart (PageHead.metaTag name content) 1 1 4 := by
  have opening : HeadPart _ 1 0 1 := .literal "<meta name=\"".toList (by decide) (by decide)
  have middle : HeadPart _ 0 0 2 := .literal "\" content=\"".toList (by decide) (by decide)
  have closing : HeadPart _ 0 1 1 := .literal "\">\n".toList (by decide) (by decide)
  exact (((opening.append (.value name)).append middle).append (.value content)).append closing

theorem headPart_styleLink (address : Text) : HeadPart (PageHead.styleLink address) 1 1 4 := by
  have opening : HeadPart _ 1 0 3 :=
    .literal "<link rel=\"stylesheet\" href=\"".toList (by decide) (by decide)
  have closing : HeadPart _ 0 1 1 := .literal "\">\n".toList (by decide) (by decide)
  exact (opening.append (.value address)).append closing

theorem headPart_pageTag (head : PageHead Char) :
    HeadPart head.pageTag 1 1 (if head.language.getD [] = [] then 0 else 2) := by
  have plain : HeadPart _ 1 1 0 := .literal "<html>\n".toList (by decide) (by decide)
  have opening : HeadPart _ 1 0 1 := .literal "<html lang=\"".toList (by decide) (by decide)
  have closing : HeadPart _ 0 1 1 := .literal "\">\n".toList (by decide) (by decide)
  rw [PageHead.pageTag]
  split
  · next c rest given =>
    rw [given]
    exact (opening.append (.value (c :: rest))).append closing
  · next none =>
    have empty : head.language.getD [] = [] := by
      cases given : head.language with
      | none => rfl
      | some language =>
        cases language with
        | nil => rfl
        | cons c rest => exact absurd given (none c rest)
    rw [if_pos empty]
    exact plain

def PageHead.beforeTitle (head : PageHead Char) : Text :=
  "<!DOCTYPE html>\n".toList ++ (head.pageTag ++ ("<head>\n<meta charset=\"utf-8\">\n".toList ++
    head.metaTags.flatMap fun tag => PageHead.metaTag tag.1 tag.2))

theorem headPart_beforeTitle (head : PageHead Char) : HeadPart head.beforeTitle
    (4 + head.metaTags.length) (4 + head.metaTags.length)
    (2 + 4 * head.metaTags.length + if head.language.getD [] = [] then 0 else 2) := by
  have doctype : HeadPart _ 1 1 0 := .literal "<!DOCTYPE html>\n".toList (by decide) (by decide)
  have charset : HeadPart _ 2 2 2 :=
    .literal "<head>\n<meta charset=\"utf-8\">\n".toList (by decide) (by decide)
  have tags := HeadPart.flatMap head.metaTags fun tag => headPart_metaTag tag.1 tag.2
  have whole := doctype.append ((headPart_pageTag head).append (charset.append tags))
  exact ⟨whole.opens.trans (by omega), whole.closes.trans (by omega), whole.quotes.trans (by omega),
    whole.clear⟩

theorem headPart_links (styles : List Text) :
    HeadPart (styles.flatMap PageHead.styleLink) styles.length styles.length (4 * styles.length) := by
  have links := HeadPart.flatMap styles headPart_styleLink
  rwa [Nat.one_mul] at links

namespace PageHead

/-- The tags of the head: five of the page, one for each meta tag and each style sheet, and two around
a title that is not empty. -/
def tags (head : PageHead Char) : Nat :=
  5 + head.metaTags.length + head.styles.length + if head.title.getD [] = [] then 0 else 2

/-- The double quotes around the values of the head. -/
def quotes (head : PageHead Char) : Nat :=
  2 + 4 * head.metaTags.length + 4 * head.styles.length +
    if head.language.getD [] = [] then 0 else 2

/-- The values of the head stay in their places. Up to its end it has its own tags only and, outside
the title, its own quotes; a title that is not empty can be read back from the title element. -/
structure Keeps (head : PageHead Char) (front : Text) : Prop where
  opens : (front ++ "</head>".toList).count '<' = head.tags
  closes : (front ++ "</head>".toList).count '>' = head.tags
  untitled : head.title.getD [] = [] →
    ¬ "<title>".toList <:+: front ∧ front.count '"' = head.quotes
  titled : head.title.getD [] ≠ [] → ∃ before shown after,
    Text.CutAt "<title>".toList front before (shown ++ ("</title>".toList ++ after)) ∧
    Text.CutAt "</title>".toList (shown ++ ("</title>".toList ++ after)) shown after ∧
    Html.decode shown = head.title.getD [] ∧ front.count '"' = shown.count '"' + head.quotes

variable {head : PageHead Char}

theorem titleElement_of_empty (empty : head.title.getD [] = []) : head.titleElement = [] := by
  rw [titleElement]
  split
  · next given =>
    rw [given] at empty
    cases empty
  · rfl

theorem titleElement_of_filled (filled : head.title.getD [] ≠ []) :
    head.titleElement = "<title>".toList ++ (Html.escape (head.title.getD []) ++
      ("</title>".toList ++ ['\n'])) := by
  obtain ⟨c, rest, same⟩ := List.exists_cons_of_ne_nil filled
  have given : head.title = some (c :: rest) := by
    cases title : head.title with
    | none => exact absurd (by rw [title]; rfl) filled
    | some text => rw [← same, title]; rfl
  rw [titleElement, given]
  simp

def front (head : PageHead Char) : Text :=
  head.beforeTitle ++ (head.titleElement ++ head.styles.flatMap styleLink)

theorem render_eq_append (head : PageHead Char) : head.render = head.front ++ "</head>\n".toList := by
  -- An equation for `render` would have to compare all its literals character by character.
  delta render front beforeTitle
  simp only [Script.ofText_chars, List.append_assoc]

theorem renderPage_eq_append (head : PageHead Char) (body : Text) :
    renderPage head body = head.front ++ ("</head>".toList ++ ("\n<body>\n".toList ++
      ((if body = [] then [] else body ++ ['\n']) ++ "</body>\n</html>\n".toList))) := by
  have headEnd : "</head>\n".toList = "</head>".toList ++ ['\n'] := by decide
  have bodyStart : "\n<body>\n".toList = ['\n'] ++ "<body>\n".toList := by decide
  have spelled : (if body.isEmpty then [] else body ++ ['\n']) =
      if body = [] then [] else body ++ ['\n'] := by
    cases body <;> rfl
  rw [renderPage, spelled, bodyStart, render_eq_append, headEnd]
  simp only [Script.ofText_chars, List.append_assoc]

theorem clear_front (head : PageHead Char) : Text.Clear "</head>".toList head.front := by
  have ends : "</head>".toList ∈ headMarkers := by decide
  have before := (headPart_beforeTitle head).clear _ ends
  have links := (headPart_links head.styles).clear _ ends
  refine before.append (Text.Clear.append ?_ links)
  by_cases empty : head.title.getD [] = []
  · rw [titleElement_of_empty empty]
    exact .of_tails (by decide)
  · rw [titleElement_of_filled empty]
    have opening : Text.Clear "</head>".toList "<title>".toList := .of_tails (by decide)
    have closing : Text.Clear "</head>".toList ("</title>".toList ++ ['\n']) :=
      .of_tails (by decide)
    exact opening.append (.append (.of_not_mem (Html.not_mem_escape (.inl rfl) _)) closing)

theorem count_titleElement (head : PageHead Char) {c : Char} (angle : c = '<' ∨ c = '>') :
    head.titleElement.count c = if head.title.getD [] = [] then 0 else 2 := by
  split
  · next empty =>
    rw [titleElement_of_empty empty]
    rfl
  · next filled =>
    have none := List.count_eq_zero.2 (Html.not_mem_escape angle (head.title.getD []))
    rw [titleElement_of_filled filled, List.count_append, List.count_append, none]
    rcases angle with rfl | rfl <;> rfl

theorem count_front (head : PageHead Char) {c : Char} (angle : c = '<' ∨ c = '>') :
    (head.front ++ "</head>".toList).count c = head.tags := by
  have before : head.beforeTitle.count c = 4 + head.metaTags.length :=
    angle.elim (· ▸ (headPart_beforeTitle head).opens) (· ▸ (headPart_beforeTitle head).closes)
  have links : (head.styles.flatMap styleLink).count c = head.styles.length :=
    angle.elim (· ▸ (headPart_links head.styles).opens) (· ▸ (headPart_links head.styles).closes)
  have ending : "</head>".toList.count c = 1 := by rcases angle with rfl | rfl <;> rfl
  rw [front, List.count_append, List.count_append, List.count_append, before, links, ending,
    count_titleElement head angle, tags]
  omega

theorem keeps_front (head : PageHead Char) : head.Keeps head.front := by
  have before := headPart_beforeTitle head
  have linked := headPart_links head.styles
  have titles : "<title>".toList ∈ headMarkers := by decide
  refine ⟨count_front head (.inl rfl), count_front head (.inr rfl), fun empty => ?_,
    fun filled => ?_⟩
  · have whole := before.append linked
    have same : head.front = head.beforeTitle ++ head.styles.flatMap styleLink := by
      rw [front, titleElement_of_empty empty, List.nil_append]
    rw [same]
    exact ⟨(whole.clear _ titles).absent (by decide), whole.quotes.trans (by rw [quotes]; omega)⟩
  · let shown := Html.escape (head.title.getD [])
    let links := head.styles.flatMap styleLink
    have whole : head.front =
        head.beforeTitle ++ ("<title>".toList ++ (shown ++ ("</title>".toList ++ '\n' :: links))) := by
      rw [front, titleElement_of_filled filled]
      simp [shown, links]
    have behind : Text.Clear "</title>".toList shown :=
      .of_not_mem (Html.not_mem_escape (.inl rfl) _)
    refine ⟨head.beforeTitle, shown, '\n' :: links, ?_, behind.cutAt _, Html.decode_escape _, ?_⟩
    · rw [whole]
      exact (before.clear _ titles).cutAt _
    · have opening : "<title>".toList.count '"' = 0 := by decide
      have closing : "</title>".toList.count '"' = 0 := by decide
      have behindTitle : ('\n' :: links).count '"' = 4 * head.styles.length :=
        (List.count_cons_of_ne (by decide)).trans linked.quotes
      rw [whole, quotes]
      simp only [List.count_append, before.quotes, opening, closing, behindTitle]
      omega

/-- No value breaks out of the head of a page. The first end of a head in the page is that of its own
head, which keeps its values in their places, and behind it follows the body as it is. -/
theorem renderPage_keeps (head : PageHead Char) (body : Text) :
    ∃ front, Text.CutAt "</head>".toList (renderPage head body) front ("\n<body>\n".toList ++
      ((if body = [] then [] else body ++ ['\n']) ++ "</body>\n</html>\n".toList)) ∧
      head.Keeps front := by
  refine ⟨head.front, ?_, keeps_front head⟩
  rw [renderPage_eq_append]
  exact (clear_front head).cutAt _

end PageHead

end Markdown
