import Mathlib.Data.Nat.Find
import Markdown.Proofs.Nesting.Limit
import Markdown.Proofs.Nesting.Marks

set_option autoImplicit false

namespace Markdown

open Nesting

namespace Render

variable {α β : Type} {limit : Limit} {enough : Prop} {levels : Nat} {good : α → Prop}

/-- The rendering opens at most so many levels at a time and closes them again. What it gives has
the property, and it gives something where the limit leaves room for the levels; with `enough` the
levels that are left do not give out before. -/
structure Opens (limit : Limit) (enough : Prop) (levels : Nat) (good : α → Prop)
    (body : Render α) : Prop where
  back : ∀ progress, (body.run progress).2.level.depth = progress.level.depth
  deepest : ∀ progress, (body.run progress).2.level.deepest ≤
    max progress.level.deepest (progress.level.depth + levels)
  good : ∀ {progress later value}, body.run progress = (.ok value, later) → good value
  succeeds : enough → ∀ progress, progress.level.depth + levels ≤ limit.value →
    ∃ value later, body.run progress = (.ok value, later)

namespace Opens

/-- What opens no level. -/
theorem of_run {body : Render α}
    (run : ∀ progress, ∃ value later, body.run progress = (.ok value, later) ∧
      later.level = progress.level ∧ good value) : Opens limit enough levels good body where
  back progress := by
    obtain ⟨value, later, done, level, _⟩ := run progress
    rw [done]
    exact congrArg Level.depth level
  deepest progress := by
    obtain ⟨value, later, done, level, _⟩ := run progress
    rw [done]
    exact Nat.le_trans (Nat.le_of_eq (congrArg Level.deepest level)) (Nat.le_max_left _ _)
  good {progress _ _} done := by
    obtain ⟨value, later, fine, _, holds⟩ := run progress
    rw [fine] at done
    obtain ⟨same, _⟩ := Prod.mk.inj done
    exact Except.ok.inj same ▸ holds
  succeeds _ progress _ := by
    obtain ⟨value, later, done, _⟩ := run progress
    exact ⟨value, later, done⟩

theorem pure {value : α} (holds : good value) :
    Opens limit enough levels good (Pure.pure value : Render α) :=
  of_run fun progress => ⟨value, progress, rfl, rfl, holds⟩

theorem finish (text : Text) :
    Opens limit enough levels (fun _ => True) (Render.finish text) :=
  of_run fun _ => ⟨_, _, rfl, rfl, trivial⟩

/-- The key of what is put aside has no marks. -/
theorem setAside (fragment : Text) (count : Nat) :
    Opens limit enough levels (fun text => marks text ≤ count) (Render.setAside fragment) :=
  of_run fun _ => ⟨_, _, rfl, rfl, Nat.le_trans (Nat.le_of_eq (marks_keyBlock fragment))
    (Nat.zero_le _)⟩

theorem giveOut : Opens limit False levels good (Render.giveOut limit : Render α) where
  back _ := rfl
  deepest _ := Nat.le_max_left _ _
  good done := by cases done
  succeeds never := never.elim

theorem mono {fewer : Nat} {need : Prop} {weaker : α → Prop} {body : Render α}
    (opens : Opens limit enough fewer good body) (room : fewer ≤ levels) (needs : need → enough)
    (implies : ∀ value, good value → weaker value) : Opens limit need levels weaker body where
  back := opens.back
  deepest progress := by
    have bound := opens.deepest progress
    omega
  good done := implies _ (opens.good done)
  succeeds here progress open_ := opens.succeeds (needs here) progress (by omega)

theorem bind {property : β → Prop} {first : Render α} {next : α → Render β}
    (early : Opens limit enough levels good first)
    (late : ∀ value, good value → Opens limit enough levels property (next value)) :
    Opens limit enough levels property (first >>= next) where
  back progress := by
    have middle := early.back progress
    rw [run_bind]
    cases done : first.run progress with
    | mk result later =>
      rw [done] at middle
      cases result with
      | error error => exact middle
      | ok value => exact ((late value (early.good done)).back later).trans middle
  deepest progress := by
    have middle := early.back progress
    have bound := early.deepest progress
    rw [run_bind]
    cases done : first.run progress with
    | mk result later =>
      rw [done] at middle bound
      cases result with
      | error error => exact bound
      | ok value =>
        have further := (late value (early.good done)).deepest later
        dsimp only at middle bound ⊢
        omega
  good {progress last value} run := by
    rw [run_bind] at run
    cases done : first.run progress with
    | mk result later =>
      rw [done] at run
      cases result with
      | error error => cases run
      | ok value => exact (late value (early.good done)).good run
  succeeds here progress room := by
    have middle := early.back progress
    obtain ⟨value, later, done⟩ := early.succeeds here progress room
    rw [done] at middle
    rw [run_bind, done]
    exact (late value (early.good done)).succeeds here later (by rw [middle]; exact room)

/-- A rendering one level further in opens one level more. -/
theorem nested {body : Render α} (opens : Opens limit enough levels good body) :
    Opens limit enough (levels + 1) good (Render.nested limit body) := by
  have cases_run : ∀ progress : Progress,
      (progress.level.depth < limit.value ∧ (Render.nested limit body).run progress =
        ((body.run { progress with level := progress.level.deeper }).1,
          { (body.run { progress with level := progress.level.deeper }).2 with
            level := (body.run { progress with level := progress.level.deeper }).2.level.leave })) ∨
      (limit.value ≤ progress.level.depth ∧ ∃ error,
        (Render.nested limit body).run progress = (.error error, progress)) := by
    intro progress
    by_cases below : progress.level.depth < limit.value
    · exact .inl ⟨below, run_nested (Level.enter_of_lt below) body⟩
    · exact .inr ⟨by omega, _, run_nested_error (Level.enter_of_le (by omega)) body⟩
  refine ⟨fun progress => ?_, fun progress => ?_, fun {progress later value} done => ?_,
    fun here progress room => ?_⟩
  · rcases cases_run progress with ⟨_, run⟩ | ⟨_, error, run⟩
    · rw [run]
      exact congrArg (· - 1) (opens.back { progress with level := progress.level.deeper })
    · rw [run]
  · rcases cases_run progress with ⟨_, run⟩ | ⟨_, error, run⟩
    · have bound := opens.deepest { progress with level := progress.level.deeper }
      rw [run]
      simp only [Level.deeper, Level.leave] at bound ⊢
      omega
    · rw [run]
      exact Nat.le_max_left _ _
  · rcases cases_run progress with ⟨_, run⟩ | ⟨_, error, run⟩
    · rw [run] at done
      obtain ⟨result, _⟩ := Prod.mk.inj done
      exact opens.good (Prod.ext result rfl)
    · rw [run] at done
      cases done
  · rcases cases_run progress with ⟨_, run⟩ | ⟨full, _⟩
    · obtain ⟨value, later, done⟩ := opens.succeeds here
        { progress with level := progress.level.deeper } (by simp only [Level.deeper]; omega)
      rw [run, done]
      exact ⟨value, _, rfl⟩
    · omega

/-- What stands in the places of the pieces is fine where it is fine in the places of the matches
and every other character is fine as it is. -/
theorem segments {slot : Type} {replacement : Match slot → Render Text}
    {fine : Segment slot → Text → Prop} {segments : List (Segment slot)}
    (plain : ∀ c, fine (.plain c) [c])
    (each : ∀ found, .found found ∈ segments →
      Opens limit enough levels (fine (.found found)) (replacement found)) :
    Opens limit enough levels (List.Forall₂ fine segments)
      (segments.mapM (Segment.replacedM replacement)) := by
  induction segments with
  | nil =>
    rw [List.mapM_nil]
    exact .pure .nil
  | cons segment rest ih =>
    rw [List.mapM_cons]
    have here : Opens limit enough levels (fine segment) (segment.replacedM replacement) := by
      cases segment with
      | plain c => exact .pure (plain c)
      | found m => exact each m List.mem_cons_self
    refine here.bind fun written holds => ?_
    exact (ih fun found member => each found (List.mem_cons_of_mem _ member)).bind
      fun later all => .pure (.cons holds all)

/-- What takes the places of the matches need not be looked at. -/
theorem replaced {slot : Type} [DecidableEq slot] (pattern : Pattern slot)
    {replacement : Match slot → Render Text} (text : Text)
    (each : ∀ found, .found found ∈ pattern.segments text →
      Opens limit enough levels (fun _ => True) (replacement found)) :
    Opens limit enough levels (fun _ => True) (pattern.replaceM replacement text) := by
  have pieces : Opens limit enough levels (List.Forall₂ (fun (_ : Segment slot) _ => True)
      (pattern.segments text)) _ := segments (fun _ => trivial) each
  exact pieces.bind fun _ _ => .pure trivial

/-- Where no match gives way to a text with more marks, the whole text gets no more. -/
theorem replaceM {slot : Type} [DecidableEq slot] (pattern : Pattern slot)
    {replacement : Match slot → Render Text} (text : Text)
    (each : ∀ found, .found found ∈ pattern.segments text →
      Opens limit enough levels (fun written => marks written ≤ marks found.text)
        (replacement found)) :
    Opens limit enough levels (fun written => marks written ≤ marks text)
      (pattern.replaceM replacement text) := by
  have pieces : Opens limit enough levels
      (List.Forall₂ (fun (segment : Segment slot) written => marks written ≤ marks segment.text)
        (pattern.segments text)) _ := segments (fun _ => Nat.le_refl _) each
  refine pieces.bind fun written fewer => .pure ?_
  conv_rhs => rw [← pattern.flatMap_text_segments text]
  generalize pattern.segments text = pieces at fewer
  induction fewer with
  | nil => exact Nat.le_refl 0
  | cons here _ ih =>
    rw [List.flatten_cons, List.flatMap_cons, marks_append, marks_append]
    exact Nat.add_le_add here ih

theorem headings (references : ReferenceTable) (text : Text) :
    Opens limit enough levels (fun written => marks written ≤ marks text)
      (Heading.render references text) := by
  refine (replaceM _ text fun _ _ => .setAside _ _).bind fun middle fewer => ?_
  exact (replaceM _ middle fun _ _ => .setAside _ _).mono (Nat.le_refl _) id
    fun written less => Nat.le_trans less fewer

theorem rules (text : Text) :
    Opens limit enough levels (fun written => marks written ≤ marks text)
      (Heading.renderRules text) :=
  replaceM _ text fun _ _ => .setAside _ _

theorem codeBlocks (text : Text) :
    Opens limit enough levels (fun written => marks written ≤ marks text)
      (CodeBlock.render text) :=
  replaceM _ text fun _ _ => .setAside _ _

theorem htmlBlocks (text : Text) :
    Opens limit enough levels (fun written => marks written ≤ marks text)
      (Render.protectHtml text) := by
  rw [protectHtml_eq]
  exact replaceM _ text fun _ _ => .setAside _ _

variable {setting : Setting} {interior : Interior} {count : Nat}

section

variable (blocks : ∀ inList inner, marks inner < count →
  Opens limit enough count (fun _ => True) (interior.blocks inList inner))
include blocks

/-- The content of a quote has lost the marks of its lines. -/
theorem quotes {text : Text} (few : marks text ≤ count) :
    Opens limit enough count (fun written => marks written ≤ marks text)
      (Quote.render interior text) := by
  refine replaceM _ text fun found member => ?_
  have lines := marks_get_le (Quote.regular_quote Renaming.same.quiet) member .lines
  have content := marks_quoted_lt member
  have element : Opens limit enough count (fun _ => True)
      (Quote.element interior (found.get .lines)) :=
    (blocks _ _ (by omega)).bind fun _ _ => .pure trivial
  exact element.bind fun _ _ => .setAside _ _

variable (lists : ∀ inner, marks inner < count →
  Opens limit enough count (fun _ => True) (interior.lists inner))
include lists

theorem itemContent {found : Match Listing.Part} (fewer : marks (found.get .content) < count) :
    Opens limit enough count (fun _ => True) (Listing.itemContent setting interior found) := by
  have outdented := marks_outdent_le (found.get .content)
  rw [Listing.itemContent]
  split
  · exact blocks _ _ (by omega)
  · exact (lists _ (by omega)).bind fun _ _ => .finish _

/-- The content of an item has lost the mark of the item. -/
theorem listElement {found : Match Listing.Part} (few : marks (found.get .list) ≤ count) :
    Opens limit enough count (fun _ => True) (Listing.listElement setting interior found) := by
  have spaced := marks_evenlySpaced_le (found.get .list)
  refine (replaced _ _ fun item member => ?_).bind fun _ _ => .pure trivial
  have content := marks_content_lt member
  exact (itemContent blocks lists (by omega)).bind fun _ _ => .pure trivial

theorem nestedLists (inList : Bool) {text : Text} (few : marks text ≤ count) :
    Opens limit enough count (fun written => marks written ≤ marks text)
      (Listing.render setting interior inList text) := by
  have each : ∀ {pattern : Pattern Listing.Part}, pattern.Regular (Listing.outline Seal.lead)
      Renaming.same.face → ∀ found, .found found ∈ pattern.segments text →
        Opens limit enough count (fun written => marks written ≤ marks found.text)
          (do .setAside (← Listing.listElement setting interior found)) := by
    intro pattern regular found member
    have list := marks_get_le regular member .list
    exact (listElement blocks lists (by omega)).bind fun _ _ => .setAside _ _
  cases inList
  · exact replaceM _ text (each (Listing.regular_topList Renaming.same.quiet))
  · exact replaceM _ text (each (Listing.regular_nestedList Renaming.same.quiet))

theorem level (inList : Bool) {text : Text} (few : marks text ≤ count) :
    Opens limit enough count (fun _ => True)
      (Block.renderLevel setting interior inList text) := by
  refine (headings _ text).bind fun headed fewer => ?_
  refine (rules headed).bind fun ruled less => ?_
  refine (nestedLists blocks lists inList (by omega)).bind fun listed lower => ?_
  refine (codeBlocks listed).bind fun coded down => ?_
  refine (quotes blocks (by omega)).bind fun quoted _ => ?_
  exact (htmlBlocks quoted).bind fun _ _ => of_run fun _ => ⟨_, _, rfl, rfl, trivial⟩

end

/-- A text opens no more levels than it has marks, its own level aside. -/
theorem interiors (setting : Setting) (left : Nat) :
    (∀ inList text, Opens setting.limit (marks text < left) (marks text + 1) (fun _ => True)
      ((Block.interior setting left).blocks inList text)) ∧
    ∀ text, Opens setting.limit (marks text < left) (marks text + 1) (fun _ => True)
      ((Block.interior setting left).lists text) := by
  induction left with
  | zero =>
    have refused : ∀ {count : Nat}, Opens setting.limit (count < 0) (count + 1) (fun _ => True)
        (Render.nested setting.limit (.giveOut setting.limit) : Render Text) :=
      giveOut.nested.mono (Nat.le_refl _) (Nat.not_lt_zero _) fun _ => id
    exact ⟨fun _ _ => refused, fun _ => refused⟩
  | succ left ih =>
    have room : ∀ {inner count : Nat}, inner < count → count < left + 1 → inner < left := by omega
    have blocks : ∀ text inList inner, marks inner < marks text →
        Opens setting.limit (marks text < left + 1) (marks text) (fun _ => True)
          ((Block.interior setting left).blocks inList inner) := fun text inList inner fewer =>
      (ih.1 inList inner).mono fewer (room fewer) fun _ => id
    have lists : ∀ text inner, marks inner < marks text →
        Opens setting.limit (marks text < left + 1) (marks text) (fun _ => True)
          ((Block.interior setting left).lists inner) := fun text inner fewer =>
      (ih.2 inner).mono fewer (room fewer) fun _ => id
    refine ⟨fun inList text => ?_, fun text => ?_⟩
    · rw [Block.blocks_succ]
      exact (level (blocks text) (lists text) inList (Nat.le_refl _)).nested
    · rw [Block.lists_succ]
      exact ((nestedLists (blocks text) (lists text) true (Nat.le_refl _)).mono (Nat.le_refl _) id
        fun _ _ => trivial).nested

end Opens

end Render

namespace Nesting

/-- What is rendered of a document has no more marks than the document. -/
theorem marks_prepare_le (document : Text) : marks (prepare document).text ≤ marks document := by
  have protects : Render.Opens .standard True 0 _
      (Render.protectHtml (Codec.standard.normalize document)) := .htmlBlocks _
  have run : (Render.protectHtml (Codec.standard.normalize document)).run .start =
      (.ok (Html.protectBlocks (Codec.standard.normalize document) .empty).1, _) := rfl
  have protected_le := protects.good run
  calc marks (prepare document).text
      ≤ marks (ReferenceTable.empty.extract
          (Html.protectBlocks (Codec.standard.normalize document) .empty).1).text :=
        marks_encodeEscapes_le _
    _ ≤ marks (Html.protectBlocks (Codec.standard.normalize document) .empty).1 :=
        marks_replace_le fun _ => Nat.zero_le _
    _ ≤ marks (Codec.standard.normalize document) := protected_le
    _ ≤ marks document := marks_normalize_le document

/-- A document with fewer marks than the limit and than the levels to be had is converted. -/
theorem exists_html_of_marks_lt {limit : Limit} {document : Text}
    (few : marks document < limit.value) (room : marks document < limit.capacity) :
    ∃ html, (convert limit document).html = .ok html := by
  have fewer := marks_prepare_le document
  have opens := (Render.Opens.interiors ⟨(prepare document).references, limit⟩
    limit.capacity).1 false (prepare document).text
  obtain ⟨html, later, done⟩ := opens.succeeds (by omega)
    { Progress.start with fragments := (prepare document).fragments }
    (by simp only [Progress.start, Level.outermost]; omega)
  have rendered : (prepare document).render limit = (.ok html, later) := done
  refine ⟨Codec.standard.decodeMarkers html, ?_⟩
  rw [convert, rendered]
  rfl

/-- Every document has one least limit from which on it is converted, to the same output under
every limit, and below which it is refused for the level past the limit. -/
theorem exists_least_limit (document : Text) :
    ∃ (threshold : Nat) (html : Text), 1 ≤ threshold ∧
      ∀ limit : Limit, 1 ≤ limit.value → limit.value ≤ limit.capacity →
        (convert limit document).html =
          if threshold ≤ limit.value then .ok html
          else .error (.pastLimit limit.bound (limit.value.toNat + 1)) := by
  classical
  have exists_count : ∃ count : Nat, 1 ≤ count ∧
      ∃ html, (convert (.levels count) document).html = .ok html :=
    ⟨marks document + 1, by omega,
      exists_html_of_marks_lt (Int.lt_succ _) (Nat.lt_succ_self _)⟩
  obtain ⟨start, html, done⟩ := Nat.find_spec exists_count
  have least : ∀ {limit : Limit} {html : Text}, 1 ≤ limit.value →
      limit.value ≤ limit.capacity → (convert limit document).html = .ok html →
        Nat.find exists_count ≤ limit.value := by
    intro limit html positive capable done
    have exact : ((limit.value.toNat : Nat) : Int) = limit.value := Int.toNat_of_nonneg (by omega)
    have same : convert (.levels limit.value.toNat) document = convert limit document :=
      convert_of_le positive (Int.le_of_eq exact.symm) capable (Int.le_of_eq exact.symm) done
    have found : Nat.find exists_count ≤ limit.value.toNat :=
      Nat.find_min' exists_count ⟨by omega, html, by rw [same, done]⟩
    omega
  generalize Nat.find exists_count = threshold at start done least
  refine ⟨threshold, html, start, fun limit positive capable => ?_⟩
  by_cases enough : threshold ≤ limit.value
  · have lowest : 1 ≤ (Limit.levels threshold).value := Int.ofNat_le.2 start
    have room : (threshold : Int) ≤ limit.capacity := Int.le_trans enough capable
    rw [if_pos enough, convert_of_le lowest enough (Int.le_refl _) room done, done]
  · rw [if_neg enough]
    exact convert_eq_error positive capable fun html done => enough (least positive capable done)

/-- A quote in a quote takes three levels. -/
theorem exists_least_limit_quotes :
    ∃ (threshold : Nat) (html : Text), threshold = 3 ∧
      html = "<blockquote>\n<blockquote>\n<p>a</p>\n</blockquote>\n</blockquote>".toList ∧
      (convert (.levels 2) "> > a".toList).html = .error (.pastLimit (.levels 2) 3) ∧
      (convert (.levels 3) "> > a".toList).html = .ok html ∧
      (convert .standard "> > a".toList).html = .ok html := by
  obtain ⟨threshold, html, start, all⟩ := exists_least_limit "> > a".toList
  have two := all (.levels 2) (by decide) (by decide)
  have three := all (.levels 3) (by decide) (by decide)
  have standard := all .standard (by decide) (by decide)
  have failed : (convert (.levels 2) "> > a".toList).html.toOption = none := by decide +kernel
  have written : (convert (.levels 3) "> > a".toList).html.toOption =
      some "<blockquote>\n<blockquote>\n<p>a</p>\n</blockquote>\n</blockquote>".toList := by
    decide +kernel
  have more : ¬ (threshold : Int) ≤ (Limit.levels 2).value := by
    intro enough
    rw [two, if_pos enough] at failed
    cases failed
  have enough : (threshold : Int) ≤ (Limit.levels 3).value := by
    by_contra less
    rw [three, if_neg less] at written
    cases written
  rw [if_neg more] at two
  rw [three, if_pos enough] at written
  rw [if_pos enough] at three
  rw [if_pos (Int.le_trans enough (by decide))] at standard
  have exact : threshold = 3 := by
    simp only [Limit.value_levels] at more enough
    omega
  exact ⟨threshold, html, exact, Option.some.inj written, two, three, standard⟩

/-- Nesting costs marks. A document with fewer marks than the limit is converted; and whatever the
limit is and however many levels may be open at a time, a text opens at most one level more than it
has marks and is rendered if so many are to be had. -/
theorem convert_of_marks_lt :
    (∀ (limit : Limit) (document : Text), marks document < limit.value →
      marks document < limit.capacity → ∃ html, (convert limit document).html = .ok html) ∧
    ∀ (setting : Setting) (left : Nat) (inList : Bool) (text : Text) (progress : Progress),
      (((Block.interior setting left).blocks inList text).run progress).2.level.deepest ≤
          max progress.level.deepest (progress.level.depth + (1 + marks text)) ∧
        (1 + marks text ≤ left → progress.level.depth + (1 + marks text) ≤ setting.limit.value →
          ∃ html later, ((Block.interior setting left).blocks inList text).run progress =
            (.ok html, later)) := by
  constructor
  · exact fun limit document => exists_html_of_marks_lt
  · intro setting left inList text progress
    have opens := (Render.Opens.interiors setting left).1 inList text
    rw [Nat.add_comm 1]
    exact ⟨opens.deepest progress, fun room enough => opens.succeeds room progress (by omega)⟩

/-- A list in a quote has two marks and opens three levels, so a limit of two is too low. -/
theorem convert_of_marks_lt_quote :
    marks "> * a".toList = 2 ∧
      (∃ html, (convert (.levels 3) "> * a".toList).html = .ok html) ∧
      (convert (.levels 2) "> * a".toList).html.toOption = none ∧
      (((Block.interior ⟨.empty, .levels 3⟩ 3).blocks false "> * a".toList).run
        .start).2.level.deepest ≤ 3 ∧
      ∃ html later, ((Block.interior ⟨.empty, .levels 3⟩ 3).blocks false "> * a".toList).run .start =
        (.ok html, later) := by
  have few : marks "> * a".toList = 2 := by decide
  obtain ⟨bound, done⟩ :=
    convert_of_marks_lt.2 ⟨.empty, .levels 3⟩ 3 false "> * a".toList .start
  rw [few] at bound done
  refine ⟨few, convert_of_marks_lt.1 _ _ ?_ (by decide), by decide +kernel, bound,
    done (by decide) (by decide)⟩
  rw [few]
  decide

end Nesting

end Markdown
