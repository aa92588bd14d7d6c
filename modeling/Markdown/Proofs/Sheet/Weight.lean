import Markdown.Proofs.Sheet.Document
import Markdown.Proofs.Glyph.Frames

set_option autoImplicit false

namespace Markdown

/-- What short texts and seals weigh. -/
structure Scale (α : Type) where
  ofText : Text → List α → Prop
  ofSeal : Seal → List α → Prop

variable {α : Type}

namespace Scale

/-- The sheet is made of texts and seals that have these weights. -/
inductive Weighs (scale : Scale α) : Sheet → List α → Prop where
  | nil : Weighs scale [] []
  | text {written : Text} {w : List α} {rest : Sheet} {v : List α} (here : scale.ofText written w)
    (later : Weighs scale rest v) : Weighs scale (Glyph.chars written ++ rest) (w ++ v)
  | sealed {s : Seal} {w : List α} {rest : Sheet} {v : List α} (here : scale.ofSeal s w)
    (later : Weighs scale rest v) : Weighs scale (.sealed s :: rest) (w ++ v)

namespace Weighs

variable {scale other : Scale α} {first second sheet : Sheet} {u v w : List α}

theorem ofText {written : Text} (here : scale.ofText written w) :
    scale.Weighs (Glyph.chars written) w := by
  simpa using text here .nil

theorem ofSeal {s : Seal} (here : scale.ofSeal s w) : scale.Weighs [.sealed s] w := by
  simpa using sealed here .nil

theorem append (left : scale.Weighs first v) (right : scale.Weighs second w) :
    scale.Weighs (first ++ second) (v ++ w) := by
  induction left with
  | nil => exact right
  | text here _ ih =>
    rw [List.append_assoc, List.append_assoc]
    exact .text here ih
  | sealed here _ ih =>
    rw [List.append_assoc]
    exact .sealed here ih

/-- Work on single glyphs may go along with a change of the scale. -/
theorem flatMap {drawn : Glyph Seal → Sheet}
    (texts : ∀ {written w}, scale.ofText written w →
      other.Weighs ((Glyph.chars written).flatMap drawn) w)
    (seals : ∀ {s w}, scale.ofSeal s w → other.Weighs (drawn (.sealed s)) w)
    (weighs : scale.Weighs sheet w) : other.Weighs (sheet.flatMap drawn) w := by
  induction weighs with
  | nil => exact .nil
  | text here _ ih =>
    rw [List.flatMap_append]
    exact (texts here).append ih
  | sealed here _ ih =>
    rw [List.flatMap_cons]
    exact (seals here).append ih

theorem mono (texts : ∀ {written w}, scale.ofText written w → other.ofText written w)
    (seals : ∀ {s w}, scale.ofSeal s w → other.ofSeal s w) (weighs : scale.Weighs sheet w) :
    other.Weighs sheet w := by
  induction weighs with
  | nil => exact .nil
  | text here _ ih => exact .text (texts here) ih
  | sealed here _ ih => exact .sealed (seals here) ih

/-- What a sheet weighs in the end, if each seal weighs what it comes to in the end. -/
theorem finish (texts : ∀ {written w}, scale.ofText written w → other.ofText written w)
    (seals : ∀ {s w}, scale.ofSeal s w → other.Weighs (Sheet.finish [.sealed s]) w)
    (weighs : scale.Weighs sheet w) : other.Weighs (Sheet.finish sheet) w := by
  rw [Sheet.finish_eq_flatMap]
  refine flatMap (fun here => ?_) seals weighs
  rw [← Sheet.finish_eq_flatMap, Sheet.finish_chars]
  exact ofText (texts here)

end Weighs

variable {scale : Scale α} {first second : Sheet}

variable (scale) in
/-- Between the two sheets no text that weighs something as a whole is cut. -/
def Cuts (first second : Sheet) : Prop :=
  ∀ w, scale.Weighs (first ++ second) w →
    ∃ u v, scale.Weighs first u ∧ scale.Weighs second v ∧ u ++ v = w

/-- There is a cut where no text has one part before it and the other behind it. -/
theorem cuts_of_apart
    (apart : ∀ u v w, scale.ofText (u ++ v) w → Glyph.chars u <:+ first →
      Glyph.chars v <+: second → u = [] ∨ v = []) : scale.Cuts first second := by
  intro w weighs
  generalize whole : first ++ second = sheet at weighs
  induction weighs generalizing first with
  | nil =>
    obtain ⟨rfl, rfl⟩ := List.append_eq_nil_iff.1 whole
    exact ⟨[], [], .nil, .nil, rfl⟩
  | @text written w rest v here later ih =>
    rcases List.append_eq_append_iff.1 whole with ⟨part, cut, rfl⟩ | ⟨part, rfl, rest_eq⟩
    · obtain ⟨front, back, rfl, rfl, rfl⟩ := List.map_eq_append_iff.1 cut
      rcases apart front back w here (List.suffix_refl _) (List.prefix_append _ _) with rfl | rfl
      · exact ⟨[], _, .nil, .text here later, rfl⟩
      · rw [List.append_nil] at here
        exact ⟨w, v, .ofText here, by simpa using later, rfl⟩
    · obtain ⟨x, y, left, right, rfl⟩ := ih
        (fun u v w unit front back => apart u v w unit (front.trans (List.suffix_append _ _)) back)
        rest_eq.symm
      exact ⟨w ++ x, y, .text here left, right, List.append_assoc _ _ _⟩
  | @sealed s w rest v here later ih =>
    cases first with
    | nil =>
      obtain rfl : second = .sealed s :: rest := whole
      exact ⟨[], _, .nil, .sealed here later, rfl⟩
    | cons g front =>
      obtain ⟨rfl, rest_eq⟩ := List.cons.inj whole
      obtain ⟨x, y, left, right, rfl⟩ := ih
        (fun u v w unit front back => apart u v w unit (front.trans (List.suffix_cons _ _)) back)
        rest_eq
      exact ⟨w ++ x, y, .sealed here left, right, List.append_assoc _ _ _⟩

variable (scale) in
/-- The character stands in no text behind its first place. -/
def Leads (c : Char) : Prop :=
  ∀ written w, scale.ofText written w → c ∉ written.tail

variable (scale) in
/-- The character stands in no text before its last place. -/
def Trails (c : Char) : Prop :=
  ∀ written w, scale.ofText written w → c ∉ written.dropLast

variable (scale) in
/-- The character starts no text but itself. -/
def Single (c : Char) : Prop :=
  ∀ more w, scale.ofText (c :: more) w → more = []

theorem Leads.cuts {c : Char} (leads : scale.Leads c) (first rest : Sheet) :
    scale.Cuts first (.char c :: rest) := by
  refine cuts_of_apart fun u v w unit _ back => ?_
  cases u with
  | nil => exact .inl rfl
  | cons d u =>
    cases v with
    | nil => exact .inr rfl
    | cons e v =>
      obtain ⟨same, _⟩ := List.cons_prefix_cons.1 back
      obtain rfl := Glyph.char.inj same
      exact absurd (List.mem_append_right u List.mem_cons_self) (leads _ w unit)

theorem Trails.cuts {c : Char} (trails : scale.Trails c) (front second : Sheet) :
    scale.Cuts (front ++ [Glyph.char c]) second := by
  refine cuts_of_apart fun u v w unit ending _ => ?_
  rcases List.eq_nil_or_concat u with rfl | ⟨u, d, rfl⟩
  · exact .inl rfl
  · cases v with
    | nil => exact .inr rfl
    | cons e v =>
      rw [List.concat_eq_append] at unit ending
      rw [Glyph.chars_append] at ending
      obtain ⟨more, whole⟩ := ending
      rw [← List.append_assoc] at whole
      obtain rfl := Glyph.char.inj (List.cons.inj (List.append_inj_right' whole rfl)).1
      have inside := trails _ w unit
      rw [List.append_assoc, List.dropLast_append_of_ne_nil (by simp)] at inside
      simp at inside

/-- A sheet of characters that start no longer texts can be cut anywhere. -/
theorem cuts_of_single (single : ∀ c, Glyph.char c ∈ first → scale.Single c) :
    scale.Cuts first second := by
  refine cuts_of_apart fun u v w unit front _ => ?_
  cases u with
  | nil => exact .inl rfl
  | cons c u =>
    have nothing := single c (front.subset List.mem_cons_self) _ w unit
    exact .inr (List.append_eq_nil_iff.1 nothing).2

variable {slot : Type} {allowed : Find Seal slot → Sheet → Prop} {pieces : List (Piece Seal slot)}

variable (scale) in
/-- In a sheet with this part cut out of it, the cuts leave all texts whole. -/
def Detached (part whole : Sheet) : Prop :=
  ∀ before behind, before ++ (part ++ behind) <:+: whole →
    scale.Cuts before (part ++ behind) ∧ scale.Cuts part behind

/-- The glyphs since the last match are kept back until the next one is cut out. -/
theorem Weighs.recasts_behind {whole result before : Sheet} {w : List α}
    (recasts : Recasts allowed pieces result)
    (detached : ∀ f, .found f ∈ pieces → scale.Detached f.glyphs whole)
    (each : ∀ f part, .found f ∈ pieces → allowed f part →
      ∀ v, scale.Weighs f.glyphs v → scale.Weighs part v)
    (within : before ++ pieces.flatMap Piece.glyphs <:+: whole)
    (weighs : scale.Weighs (before ++ pieces.flatMap Piece.glyphs) w) :
    scale.Weighs (before ++ result) w := by
  induction recasts generalizing before w with
  | nil => exact weighs
  | @plain g pieces result _ ih =>
    rw [List.flatMap_cons, Piece.glyphs, ← List.append_assoc] at within weighs
    rw [← List.singleton_append, ← List.append_assoc]
    exact ih (fun f member => detached f (List.mem_cons_of_mem _ member))
      (fun f part member => each f part (List.mem_cons_of_mem _ member)) within weighs
  | @found f part pieces result here _ ih =>
    rw [List.flatMap_cons, Piece.glyphs] at within weighs
    obtain ⟨left, right⟩ := detached f List.mem_cons_self before _ within
    obtain ⟨u, v, early, late, rfl⟩ := left w weighs
    obtain ⟨x, y, middle, last, rfl⟩ := right v late
    refine early.append ((each f part List.mem_cons_self here x middle).append ?_)
    have later := @ih [] y (fun f member => detached f (List.mem_cons_of_mem _ member))
      fun f part member => each f part (List.mem_cons_of_mem _ member)
    have ending : pieces.flatMap Piece.glyphs <:+ before ++ (f.glyphs ++ pieces.flatMap Piece.glyphs) :=
      (List.suffix_append _ _).trans (List.suffix_append _ _)
    exact later (ending.isInfix.trans within) last

/-- A sheet keeps its weight if each match can be cut out and what replaces it weighs the same. -/
theorem Weighs.recasts {result : Sheet} {w : List α} (recasts : Recasts allowed pieces result)
    (detached : ∀ f, .found f ∈ pieces →
      scale.Detached f.glyphs (pieces.flatMap Piece.glyphs))
    (each : ∀ f part, .found f ∈ pieces → allowed f part →
      ∀ v, scale.Weighs f.glyphs v → scale.Weighs part v)
    (weighs : scale.Weighs (pieces.flatMap Piece.glyphs) w) : scale.Weighs result w :=
  @recasts_behind _ _ _ _ _ _ _ [] _ recasts detached each (List.infix_refl _) weighs

theorem Weighs.recast {slot : Type} [DecidableEq slot] {pattern : Pattern slot}
    {drawn : Find Seal slot → Sheet} {sheet : Sheet} {w : List α}
    (detached : ∀ f, pattern.Finds Seal.lead sheet f → scale.Detached f.glyphs sheet)
    (each : ∀ f, pattern.Finds Seal.lead sheet f →
      ∀ v, scale.Weighs f.glyphs v → scale.Weighs (drawn f) v)
    (weighs : scale.Weighs sheet w) : scale.Weighs (pattern.recast drawn sheet) w := by
  have whole := pattern.flatMap_glyphs_pieces Seal.lead sheet
  have recasts : Recasts (fun f part => part = drawn f) (pattern.pieces Seal.lead sheet)
      (pattern.recast drawn sheet) := .of_recast fun _ _ => rfl
  refine Weighs.recasts recasts (fun f member => ?_) (fun f part member same v here => ?_) ?_
  · rw [whole]
    exact detached f (Pattern.finds_of_mem_pieces member)
  · rw [same]
    exact each f (Pattern.finds_of_mem_pieces member) v here
  · rwa [whole]

/-- A match between characters that belong to no longer text. -/
theorem detached_of_ends {c d : Char} {rest front part whole : Sheet} (leads : scale.Leads c)
    (trails : scale.Trails d) (first : part = .char c :: rest) (last : part = front ++ [Glyph.char d]) :
    scale.Detached part whole := by
  intro before behind _
  constructor
  · rw [first]
    exact leads.cuts before _
  · rw [last]
    exact trails.cuts front behind

/-- A match between two delimiters, none of whose characters belongs to a longer text: its content
has a weight of its own. -/
theorem Weighs.recast_delimited {slot : Type} [DecidableEq slot] {pattern : Pattern slot}
    {name : slot} {drawn : Find Seal slot → Sheet} {delimiter : Text} (filled : delimiter ≠ [])
    (leads : ∀ c ∈ delimiter, scale.Leads c) (trails : ∀ c ∈ delimiter, scale.Trails c)
    (frames : pattern.Frames Seal.lead name (· = Glyph.chars delimiter)
      (· = Glyph.chars delimiter))
    (each : ∀ f u v x, scale.Weighs (Glyph.chars delimiter) u → scale.Weighs (f.get name) v →
      scale.Weighs (Glyph.chars delimiter) x → scale.Weighs (drawn f) (u ++ v ++ x))
    {sheet : Sheet} {w : List α} (weighs : scale.Weighs sheet w) :
    scale.Weighs (pattern.recast drawn sheet) w := by
  obtain ⟨c, more, first⟩ := List.exists_cons_of_ne_nil filled
  obtain ⟨less, d, last⟩ := (List.eq_nil_or_concat delimiter).resolve_left filled
  rw [List.concat_eq_append] at last
  have before : scale.Leads c := leads c (by simp [first])
  have after : scale.Trails d := trails d (by simp [last])
  have start : (Glyph.chars delimiter : Sheet) = .char c :: Glyph.chars more := by rw [first]; rfl
  have stop : (Glyph.chars delimiter : Sheet) = Glyph.chars less ++ [Glyph.char d] := by
    rw [last, Glyph.chars_append]
    rfl
  have shape : ∀ f, pattern.Finds Seal.lead sheet f →
      f.glyphs = Glyph.chars delimiter ++ f.get name ++ Glyph.chars delimiter := by
    intro f finds
    obtain ⟨_, _, same, rfl, rfl⟩ := frames.glyphs finds
    exact same
  refine Weighs.recast (fun f finds => ?_) (fun f finds v here => ?_) weighs
  · have begun : f.glyphs = .char c ::
        (Glyph.chars more ++ f.get name ++ Glyph.chars delimiter) := by
      rw [shape f finds, start, List.cons_append, List.cons_append]
    have ended : f.glyphs = Glyph.chars delimiter ++ f.get name ++ Glyph.chars less ++
        [.char d] := by
      rw [List.append_assoc, ← stop, shape f finds]
    exact detached_of_ends before after begun ended
  · rw [shape f finds] at here
    have right : scale.Cuts (Glyph.chars delimiter ++ f.get name) (Glyph.chars delimiter) := by
      rw [start]
      exact before.cuts _ _
    have left : scale.Cuts (Glyph.chars delimiter) (f.get name) := by
      rw [stop]
      exact after.cuts _ _
    obtain ⟨x, y, early, ends, rfl⟩ := right _ here
    obtain ⟨u, v, begins, inside, rfl⟩ := left _ early
    exact each f u v y begins inside ends

theorem detached_of_single {part whole : Sheet}
    (single : ∀ c, Glyph.char c ∈ whole → scale.Single c) : scale.Detached part whole := by
  intro before behind within
  constructor
  · exact cuts_of_single fun c member => single c (within.subset (List.mem_append_left _ member))
  · exact cuts_of_single fun c member => single c
      (within.subset (List.mem_append_right _ (List.mem_append_left _ member)))

end Scale

end Markdown
