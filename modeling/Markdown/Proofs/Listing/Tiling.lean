import Markdown.Proofs.Listing.Boundary
import Markdown.Proofs.Listing.Evenness

set_option autoImplicit false

namespace Markdown.Listing

open Pattern

variable {indent : Text} {cursor : Cursor}

/-- A marker with its indentation and one blank behind it. -/
inductive Bare : Text → Prop
  | intro {indent m : Text} {b : Char} (blanks : ∀ c ∈ indent, Text.isBlank c = true)
    (isMarker : IsMarker m) (blank : Text.isBlank b = true) : Bare (indent ++ (m ++ [b]))

/-- Where an item begins, with or without the newline of an empty line in front of it, or where the
list has ended. -/
inductive Tile (cursor : Cursor) : Prop
  | ended (nothing : cursor.after = [])
  | item {present : Bool} {line more : Text} (bare : Bare line)
    (starts : present = false → cursor.atLineStart = true)
    (next : cursor.after = given present ['\n'] ++ (line ++ more))

theorem exists_bare_of_mem_boundary (blanks : ∀ c ∈ indent, Text.isBlank c = true) {text : Text}
    (stands : text ∈ boundary indent) :
    text = [] ∨ ∃ line more, Bare line ∧ text = line ++ more := by
  rcases stands with rfl | ⟨front, here, _, ⟨_, ⟨m, isMarker, gap, filled, rfl⟩, tail, -, rfl⟩, rfl⟩
  · exact .inl rfl
  · obtain rfl : front = indent := here
    obtain ⟨b, gap, rfl⟩ := List.exists_cons_of_ne_nil filled.1
    refine .inr ⟨_, gap ++ tail, .intro blanks isMarker (filled.2 b List.mem_cons_self), ?_⟩
    simp

theorem atLineStart_of_before {before : Text}
    (newline : cursor.before = '\n' :: before) : cursor.atLineStart = true := by
  rw [Cursor.atLineStart, Cursor.follows, newline]
  exact Bool.or_true _

/-- Between two items there is nothing else. -/
theorem Stopped.tile {stop : Cursor} (stopped : Stopped stop)
    (blanks : ∀ c ∈ indent, Text.isBlank c = true)
    (stands : stop.after ∈ anyOver Text.isNewline * boundary indent)
    (apart : ¬ List.replicate 4 '\n' <:+: stop.whole)
    (last : ¬ List.replicate 2 '\n' <:+ stop.whole) : Tile stop := by
  obtain ⟨run, newlines, rest, onward, same⟩ := stands
  have bare := exists_bare_of_mem_boundary blanks onward
  cases stopped with
  | text nothing => exact .ended nothing
  | line newline other =>
    cases run with
    | nil =>
      rcases bare with rfl | ⟨line, more, bare, rfl⟩
      · exact .ended same.symm
      · exact @Tile.item _ false _ _ bare (fun _ => atLineStart_of_before newline) same.symm
    | cons c run =>
      obtain rfl : c = '\n' := eq_of_beq (newlines c List.mem_cons_self)
      exact absurd (congrArg List.head? same.symm) other
  | @empty before two =>
    have run_eq : run = List.replicate run.length '\n' :=
      List.eq_replicate_of_mem fun c member => eq_of_beq (newlines c member)
    have whole : stop.whole = before.reverse ++ (List.replicate (run.length + 2) '\n' ++ rest) := by
      rw [Cursor.whole, two, ← same, run_eq]
      simp [List.replicate_succ]
    have few : run.length < 2 := by
      refine Nat.lt_of_not_le fun many => apart ?_
      rw [whole, show run.length + 2 = 4 + (run.length - 2) by omega, List.replicate_add]
      exact ⟨before.reverse, List.replicate (run.length - 2) '\n' ++ rest, by simp⟩
    rcases bare with rfl | ⟨line, more, bare, rfl⟩
    · refine absurd ⟨before.reverse ++ List.replicate run.length '\n', ?_⟩ last
      rw [whole, List.replicate_add, List.append_nil, List.append_assoc]
    · rcases Nat.le_one_iff_eq_zero_or_eq_one.1 (Nat.le_of_lt_succ few) with none | one
      · rw [List.length_eq_zero_iff.1 none] at same
        exact @Tile.item _ false _ _ bare (fun _ => atLineStart_of_before two) same.symm
      · rw [run_eq, one] at same
        exact @Tile.item _ true _ _ bare (fun never => by cases never) same.symm

/-- The parts of an item in the order in which they are read. -/
theorem exists_of_leads_item {stop : Reading Part} (leads : item.Leads ⟨cursor, []⟩ stop) :
    ∃ reading : Reading Part, ∃ indent, reading.get? .indent = some indent ∧
      (∀ c ∈ indent, Text.isBlank c = true) ∧
      (Pattern.seq (.capture .content itemText) (.ahead true nextItem) : Pattern Part).Leads
        reading stop := by
  obtain ⟨first, -, behind⟩ := Leads.exists_of_seq leads
  obtain ⟨second, indented, marked⟩ := Leads.exists_of_seq behind
  obtain ⟨third, gap, content⟩ := Leads.exists_of_seq marked
  obtain ⟨inner, inside, rfl⟩ := List.mem_map.1 indented
  obtain ⟨started, place, many⟩ := List.mem_flatMap.1 inside
  obtain ⟨stop, reached, rfl⟩ := List.mem_map.1 many
  obtain ⟨passed, passes, blanks⟩ := Cursor.exists_passes_of_mem_stops reached
  obtain ⟨rfl, -⟩ := mem_outcomes_place_iff.1 place
  refine ⟨third, passed, ?_, blanks, content⟩
  rw [get?_of_mem_outcomes (by rfl) gap, Reading.get?_cons, if_pos rfl, passes.upTo_eq]

/-- Where an item has been found, the next one begins. -/
theorem tile_of_leads {text : Text} {stop : Reading Part} (inside : cursor.whole = text)
    (apart : ¬ List.replicate 4 '\n' <:+: text) (last : ¬ List.replicate 2 '\n' <:+ text)
    (leads : item.Leads ⟨cursor, []⟩ stop) : Tile stop.cursor := by
  obtain ⟨reading, indent, kept, blanks, content⟩ := exists_of_leads_item leads
  obtain ⟨stopped, stands⟩ := stopped_of_leads kept blanks content
  have whole : stop.cursor.whole = text := by
    rw [whole_of_mem_outcomes (List.mem_of_mem_head? leads), inside]
  exact stopped.tile blanks stands (whole ▸ apart) (whole ▸ last)

/-- An item is found where one begins, unless nothing stands behind its marker and one blank. -/
theorem outcomes_item_ne_nil {present : Bool} {line more : Text} (bare : Bare line)
    (starts : present = false → cursor.atLineStart = true) (filled : more ≠ [])
    (next : cursor.after = given present ['\n'] ++ (line ++ more)) :
    item.outcomes ⟨cursor, []⟩ ≠ [] := by
  obtain ⟨first, gap, passes⟩ : ∃ first ∈
      (Pattern.optional (.capture .gap (.char '\n')) : Pattern Part).outcomes ⟨cursor, []⟩,
      cursor.Passes (given present ['\n']) first.cursor := by
    cases present with
    | true =>
      obtain ⟨offset, before, after⟩ := cursor
      obtain rfl : after = '\n' :: (line ++ more) := next
      have leads := ((@leads_char Part _ [] offset before (line ++ more) '\n').capture
        Part.gap).optional
      exact ⟨_, List.mem_of_mem_head? leads, rfl, rfl, rfl⟩
    | false => exact ⟨_, List.mem_append_right _ List.mem_cons_self, .nothing _⟩
  have after : first.cursor.after = line ++ more :=
    List.append_cancel_left (passes.after.symm.trans next)
  have lineStart : first.cursor.atLineStart = true := by
    cases present with
    | true => exact atLineStart_of_before passes.before
    | false =>
      rw [passes.eq_of_nil]
      exact starts rfl
  cases bare with
  | @intro indent m b blanks isMarker blank =>
    rw [List.append_assoc] at after
    obtain ⟨stop, indented, rest⟩ := exists_passes_of_after after
    have second : (⟨stop, first.captures⟩ : Reading Part) ∈
        (Pattern.seq .lineStart (.many Text.isBlank)).outcomes first :=
      List.mem_flatMap.2 ⟨first, List.mem_of_mem_head? (leads_place lineStart),
        List.mem_map_of_mem (mem_stops_of_passes indented blanks)⟩
    have kept : Reading.get? (⟨stop, (.indent, Thunk.mk fun _ => first.cursor.upTo stop) ::
        first.captures⟩ : Reading Part) .indent = some indent := by
      rw [Reading.get?_cons, if_pos rfl, indented.upTo_eq]
    have content := @outcomes_marked_ne_nil _ _ kept _ isMarker _ blank _ filled (by simpa using rest)
    obtain ⟨last, member⟩ := List.exists_mem_of_ne_nil _ content
    exact List.ne_nil_of_mem (List.mem_flatMap.2
      ⟨first, gap, List.mem_flatMap.2 ⟨_, List.mem_map_of_mem second, member⟩⟩)

/-- In an item something stands behind a marker and a blank. -/
theorem exists_of_mem_item {later : Reading Part} (member : later ∈ item.outcomes ⟨cursor, []⟩) :
    ∃ front m b rest, IsMarker m ∧ Text.isBlank b = true ∧ rest ≠ [] ∧
      cursor.after = front ++ (m ++ b :: rest) := by
  obtain ⟨first, early, behind⟩ := List.mem_flatMap.1 member
  obtain ⟨second, indented, marked⟩ := List.mem_flatMap.1 behind
  obtain ⟨third, gap, content⟩ := List.mem_flatMap.1 marked
  obtain ⟨last, inside, -⟩ := List.mem_flatMap.1 content
  obtain ⟨empty, passes⟩ := exists_passes_of_mem_outcomes early
  obtain ⟨indent, further⟩ := exists_passes_of_mem_outcomes indented
  obtain ⟨_, ⟨m, isMarker, blanks, ⟨some, inClass⟩, rfl⟩, onward⟩ :=
    exists_passes_of_reads reads_markerGap gap
  obtain ⟨b, blanks, rfl⟩ := List.exists_cons_of_ne_nil some
  have filled : third.cursor.after ≠ [] := fun ended => by
    rw [outcomes_eq_nil rfl ended] at inside
    cases inside
  refine ⟨empty ++ indent, m, b, blanks ++ third.cursor.after, isMarker,
    inClass b List.mem_cons_self, List.append_ne_nil_of_right_ne_nil _ filled, ?_⟩
  simpa using ((passes.trans further).trans onward).after

theorem IsMarker.isBlank_of_mem {m : Text} (isMarker : IsMarker m) {c : Char} (member : c ∈ m) :
    Text.isBlank c = false := by
  rcases isMarker.kinds c member with head | rfl
  · exact isBlank_of_isHead head
  · rfl

theorem Bare.newline_not_mem {line : Text} (bare : Bare line) : '\n' ∉ line := by
  cases bare with
  | intro blanks isMarker blank =>
    intro member
    rcases List.mem_append.1 member with inIndent | behind
    · exact absurd (blanks _ inIndent) (by decide)
    · rcases List.mem_append.1 behind with inMarker | last
      · exact isMarker.not_mem (by decide) (by decide) inMarker
      · rw [← List.mem_singleton.1 last] at blank
        exact absurd blank (by decide)

theorem Bare.ne_nil {line : Text} (bare : Bare line) : line ≠ [] := by
  cases bare with
  | intro => simp

/-- Behind a bare marker there is nothing for an item. -/
theorem Bare.eq_nil_of_append {line : Text} (bare : Bare line) {present : Bool} {front m rest : Text}
    {b : Char} (isMarker : IsMarker m) (blank : Text.isBlank b = true)
    (cut : given present ['\n'] ++ line = front ++ (m ++ b :: rest)) : rest = [] := by
  cases bare with
  | @intro indent mark last blanks isMark _ =>
    -- From the back: if there were more, the blank would stand in front of the bare marker.
    by_contra more
    obtain ⟨d, tail, same⟩ := List.exists_cons_of_ne_nil (mt List.reverse_eq_nil_iff.1 more)
    have reversed := congrArg List.reverse cut
    simp only [List.reverse_append, List.reverse_cons, List.reverse_nil, List.nil_append,
      List.append_assoc, same, List.cons_append] at reversed
    have apart : b ∉ mark.reverse := fun member => by
      rw [isMark.isBlank_of_mem (List.mem_reverse.1 member)] at blank
      cases blank
    obtain ⟨_, -, behind⟩ := exists_of_append_cons (List.cons.inj reversed).2.symm apart
    obtain ⟨c, others, rfl, head⟩ := isMarker.exists_head
    have member : c ∈ indent.reverse ++ (given present ['\n']).reverse := by
      rw [behind]
      simp
    rcases List.mem_append.1 member with inIndent | newline
    · have inClass := blanks c (List.mem_reverse.1 inIndent)
      rw [isBlank_of_isHead head] at inClass
      cases inClass
    · refine ne_of_isHead head '\n' (by decide) ?_
      cases present with
      | true => exact List.mem_singleton.1 newline
      | false => cases newline

/-- Behind a bare marker there is no item. -/
theorem outcomes_item_of_bare {present : Bool} {line front : Text} (bare : Bare line)
    (cut : given present ['\n'] ++ line = front ++ cursor.after) :
    item.outcomes ⟨cursor, []⟩ = [] := by
  refine List.eq_nil_iff_forall_not_mem.2 fun later member => ?_
  obtain ⟨early, m, b, rest, isMarker, blank, filled, after⟩ := exists_of_mem_item member
  rw [after, ← List.append_assoc] at cut
  exact filled (bare.eq_nil_of_append isMarker blank cut)

/-- Without an item anywhere the characters are left. -/
theorem segmentsFrom_item_of_bare {present : Bool} {line : Text} (bare : Bare line) (budget : Nat)
    {front : Text} (cut : given present ['\n'] ++ line = front ++ cursor.after) :
    item.segmentsFrom budget cursor = cursor.after.map .plain := by
  induction budget generalizing cursor front with
  | zero => rfl
  | succ budget ih =>
    cases next : cursor.after with
    | nil => exact segmentsFrom_of_ended item _ next
    | cons c rest =>
      rw [segmentsFrom_of_next item budget next, outcomes_item_of_bare bare cut]
      rw [next, List.append_cons] at cut
      exact congrArg (_ :: ·) (@ih (cursor.past c rest) _ cut)

/-- What is left of a list behind its items: nothing, or its last line, if that is a bare marker. -/
inductive Left (list : Text) : Text → Prop
  | nothing : Left list []
  | line {front line : Text} (present : Bool) (bare : Bare line) (last : list = front ++ line)
    (starts : front.Ended) : Left list (given present ['\n'] ++ line)

theorem ended_of_atLineStart (starts : cursor.atLineStart = true) :
    Text.Ended cursor.before.reverse := by
  obtain ⟨offset, before, after⟩ := cursor
  cases before with
  | nil => simp [Text.Ended]
  | cons c before =>
    have newline : c = '\n' := eq_of_beq starts
    simp [Text.Ended, newline]

theorem left_of_next {present : Bool} {line : Text} (bare : Bare line)
    (starts : present = false → cursor.atLineStart = true)
    (next : cursor.after = given present ['\n'] ++ line) : Left cursor.whole cursor.after := by
  rw [next]
  refine @Left.line _ (cursor.before.reverse ++ given present ['\n']) _ present bare ?_ ?_
  · rw [Cursor.whole, next, List.append_assoc]
  · cases present with
    | true => exact Text.ended_append_newline _
    | false => simpa [given] using ended_of_atLineStart (starts rfl)

theorem segmentsFrom_item_of_tile {text : Text}
    (apart : ¬ List.replicate 4 '\n' <:+: text) (last : ¬ List.replicate 2 '\n' <:+ text)
    {budget : Nat} (inside : cursor.whole = text) (room : cursor.after.length ≤ budget)
    (tile : Tile cursor) : ∃ items : List (Match Part), ∃ rest, Left text rest ∧
      item.segmentsFrom budget cursor = items.map .found ++ rest.map .plain := by
  induction budget generalizing cursor with
  | zero =>
    have ended : cursor.after = [] := List.length_eq_zero_iff.1 (Nat.le_zero.1 room)
    exact ⟨[], [], .nothing, segmentsFrom_of_ended item 0 ended⟩
  | succ budget ih =>
    cases tile with
    | ended nothing => exact ⟨[], [], .nothing, segmentsFrom_of_ended item _ nothing⟩
    | @item present line more bare starts next =>
      by_cases filled : more = []
      · rw [filled, List.append_nil] at next
        refine ⟨[], cursor.after, inside ▸ left_of_next bare starts next, ?_⟩
        exact @segmentsFrom_item_of_bare _ present line bare _ [] next.symm
      · obtain ⟨stop, leads⟩ : ∃ stop, item.Leads ⟨cursor, []⟩ stop :=
          ⟨_, List.head?_eq_some_head (outcomes_item_ne_nil bare starts filled next)⟩
        have member := List.mem_of_mem_head? leads
        have shorter : stop.cursor.after.length < cursor.after.length := length_after_lt rfl member
        obtain ⟨items, rest, left, found⟩ := @ih stop.cursor
          ((whole_of_mem_outcomes member).trans inside) (by omega)
          (tile_of_leads inside apart last leads)
        refine ⟨⟨cursor, stop⟩ :: items, rest, left, ?_⟩
        obtain ⟨c, others, some⟩ := List.exists_cons_of_ne_nil
          (List.ne_nil_of_length_pos (Nat.zero_lt_of_lt shorter))
        rw [segmentsFrom_of_next item budget some, leads]
        exact congrArg (_ :: ·) found

/-- Markers with at most three spaces in front of them and blanks behind them. -/
def lone : Language Char :=
  fewOver 3 (· == ' ') * markerGaps

/-- A list begins with its marker. -/
theorem exists_of_leads_listBody {reading stop : Reading Part} (leads : listBody.Leads reading stop) :
    stop.get? .list = some (reading.cursor.upTo stop.cursor) ∧
      ∃ front ∈ lone, ∃ middle inner : Reading Part, reading.cursor.Passes front middle.cursor ∧
        inner.cursor = stop.cursor ∧
        ((Pattern.few1 anything).seq listEnd).Leads middle inner := by
  obtain ⟨inner, inside, rfl⟩ := Leads.exists_of_capture leads
  obtain ⟨first, spaces, behind⟩ := Leads.exists_of_seq inside
  obtain ⟨second, mark, gap⟩ := Leads.exists_of_seq behind
  obtain ⟨third, blanks, text⟩ := Leads.exists_of_seq gap
  obtain ⟨indent, few, passes⟩ :=
    exists_passes_of_reads (fun _ => reads_upTo 3) spaces
  obtain ⟨m, isMarker, further⟩ :=
    exists_passes_of_reads (fun ahead => (reads_marker ahead).capture Part.marker) mark
  obtain ⟨run, some, onward⟩ := exists_passes_of_reads (fun _ => reads_many1) blanks
  refine ⟨?_, indent ++ (m ++ run), ⟨indent, few, _, ⟨m, isMarker, run, some, rfl⟩, rfl⟩, third,
    inner, passes.trans (further.trans onward), rfl, text⟩
  rw [Reading.get?_cons, if_pos rfl]

theorem exists_bare_of_mem_lone {front : Text} (marked : front ∈ lone) :
    ∃ line blanks, Bare line ∧ (∀ c ∈ blanks, Text.isBlank c = true) ∧ front = line ++ blanks := by
  obtain ⟨indent, ⟨-, spaces⟩, _, ⟨m, isMarker, run, ⟨some, inRun⟩, rfl⟩, rfl⟩ := marked
  obtain ⟨b, run, rfl⟩ := List.exists_cons_of_ne_nil some
  obtain ⟨blank, blanks⟩ := List.forall_mem_cons.1 inRun
  refine ⟨indent ++ (m ++ [b]), run, .intro (fun c space => ?_) isMarker blank, blanks, by simp⟩
  exact Bool.or_eq_true_iff.2 (.inl (spaces c space))

/-- A list that is found begins where its text does. -/
theorem exists_listBody_of_mem_matches? {inList : Bool} {text : Text} {found : Match Part}
    (member : found ∈ (if inList then nestedList else topList).matches? text) :
    ∃ reading : Reading Part, listBody.Leads reading found.stop ∧
      reading.cursor.Passes (found.get .list) found.stop.cursor := by
  have leads := leads_of_mem_matches? member
  obtain ⟨reading, body⟩ : ∃ reading, listBody.Leads reading found.stop := by
    cases inList with
    | true | false =>
      obtain ⟨middle, -, body⟩ := Leads.exists_of_seq leads
      exact ⟨middle, body⟩
  obtain ⟨passed, passes⟩ := exists_passes_of_mem_outcomes (List.mem_of_mem_head? body)
  have list : found.get? .list = some passed := by
    rw [← passes.upTo_eq]
    exact (exists_of_leads_listBody body).1
  refine ⟨reading, body, ?_⟩
  rwa [Match.get, list]

theorem exists_bare_of_mem_matches? {inList : Bool} {text : Text} {found : Match Part}
    (member : found ∈ (if inList then nestedList else topList).matches? text) :
    ∃ line more, Bare line ∧ found.get .list = line ++ more := by
  obtain ⟨reading, body, passes⟩ := exists_listBody_of_mem_matches? member
  obtain ⟨-, front, marked, middle, inner, early, stop, leads⟩ := exists_of_leads_listBody body
  obtain ⟨line, blanks, bare, -, rfl⟩ := exists_bare_of_mem_lone marked
  obtain ⟨rest, late⟩ := exists_passes_of_mem_outcomes (List.mem_of_mem_head? leads)
  have whole := (early.trans (stop ▸ late)).upTo_eq
  rw [passes.upTo_eq] at whole
  exact ⟨line, blanks ++ rest, bare, by rw [whole, List.append_assoc]⟩

/-- The items of a list tile its text. -/
theorem exists_segments_item {inList : Bool} {text : Text} {found : Match Part}
    (member : found ∈ (if inList then nestedList else topList).matches? text) :
    ∃ items : List (Match Part), ∃ rest, Left (found.get .list) rest ∧
      item.segments (evenlySpaced (found.get .list)) = items.map .found ++ rest.map .plain := by
  obtain ⟨line, more, bare, list⟩ := exists_bare_of_mem_matches? member
  have evens := evens_evenlySpaced (found.get .list)
  generalize evenlySpaced (found.get .list) = even at evens
  obtain ⟨rest, begins⟩ := evens.begins line more list bare.newline_not_mem
  have tile : Tile (Cursor.first even) := @Tile.item _ false _ _ bare (fun _ => rfl) begins
  obtain ⟨items, rest, left, cut⟩ := segmentsFrom_item_of_tile evens.apart evens.ended rfl
    (Nat.le_refl _) tile
  refine ⟨items, rest, ?_, cut⟩
  cases left with
  | nothing => exact .nothing
  | line present bare last starts =>
    obtain ⟨early, same, alike⟩ := evens.ends _ _ last bare.ne_nil bare.newline_not_mem
    exact .line present bare same (by rwa [Text.Ended, alike])

/-- A list holds the elements of its items, one behind the other, and then what is left. -/
theorem exists_listElement_eq {inList : Bool} {text : Text} {found : Match Part}
    (member : found ∈ (if inList then nestedList else topList).matches? text) :
    ∃ rest, Left (found.get .list) rest ∧ ∀ (setting : Setting) (interior : Interior),
      listElement setting interior found = (do
        let elements ← (item.matches? (evenlySpaced (found.get .list))).mapM
          (itemElement setting interior)
        let tag := tagOf (found.get .marker)
        pure ('<' :: tag ++ ">\n".toList ++ (elements.flatten ++ rest) ++
          "</".toList ++ tag ++ ['>'])) := by
  obtain ⟨items, rest, left, cut⟩ := exists_segments_item member
  refine ⟨rest, left, fun setting interior => ?_⟩
  have matched : (items.map Segment.found ++ rest.map Segment.plain).filterMap Segment.match? =
      items := by
    simp [List.filterMap_append, List.filterMap_map, Function.comp_def, Segment.match?]
  have each : Segment.replacedM (itemElement setting interior) ∘ Segment.found =
      itemElement setting interior := rfl
  rw [listElement, replaceM, matches?, cut, matched, List.mapM_append, mapM_replacedM_plain,
    List.mapM_map, each]
  simp [flatten_map_singleton]

/-- The second item is a bare marker, so it is left behind the first. -/
theorem exists_listElement_eq_unfilled :
    ∃ found ∈ topList.matches? "* a\n* ".toList, ∃ rest, Left (found.get .list) rest ∧
      ∀ (setting : Setting) (interior : Interior), listElement setting interior found = (do
        let elements ← (item.matches? (evenlySpaced (found.get .list))).mapM
          (itemElement setting interior)
        let tag := tagOf (found.get .marker)
        pure ('<' :: tag ++ ">\n".toList ++ (elements.flatten ++ rest) ++
          "</".toList ++ tag ++ ['>'])) := by
  obtain ⟨found, matched⟩ : ∃ found, topList.matches? "* a\n* ".toList = [found] :=
    List.length_eq_one_iff.1 (by decide)
  have member : found ∈ topList.matches? "* a\n* ".toList := matched ▸ List.mem_singleton_self _
  exact ⟨found, member, @exists_listElement_eq false _ _ member⟩

/-- The last of these items is left as it stands. -/
example : item.replace (fun _ => []) "* a\n* ".toList = "* ".toList := by
  decide

end Markdown.Listing
