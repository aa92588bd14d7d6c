import Markdown.Proofs.Selection.Inline

set_option autoImplicit false

namespace Markdown.Selection

variable {sheet : Sheet} {w : Text}

theorem isTagChar_of_isSpace {c : Char} (space : Unicode.isSpace c = true) :
    isTagChar c = false := by
  refine Bool.eq_false_iff.2 fun tag => ?_
  have bound : c.toNat < 128 := by
    rcases Bool.or_eq_true_iff.1 tag with letterOrDigit | slash
    · exact Unicode.toNat_lt_of_isAlphanum letterOrDigit
    · rw [eq_of_beq slash]
      decide
  have all : ∀ code < 128, isTagChar (Char.ofNat code) = true →
      Unicode.isSpace (Char.ofNat code) = false := by decide
  have here := all c.toNat bound
  rw [Char.ofNat_toNat] at here
  rw [here tag] at space
  cases space

theorem leads_of_isSpace {c : Char} (space : Unicode.isSpace c = true) : scale.Leads c := by
  refine leads_of_not_isTagChar (isTagChar_of_isSpace space) ?_ ?_ <;> rintro rfl <;>
    exact absurd space (by decide)

theorem trails_of_isSpace {c : Char} (space : Unicode.isSpace c = true) : scale.Trails c := by
  refine trails_of_not_isTagChar (isTagChar_of_isSpace space) ?_ ?_ <;> rintro rfl <;>
    exact absurd space (by decide)

theorem counts_of_isSpace {c : Char} (space : Unicode.isSpace c = true) : counts c = false := by
  simp [counts, space]

variable {within : Char → Bool} (spaces : ∀ c, within c = true → Unicode.isSpace c = true)
include spaces

theorem exists_space_of_fits {g : Glyph Seal} (fits : g.fits Seal.lead within = true) :
    ∃ c, g = .char c ∧ Unicode.isSpace c = true := by
  have hidden : within Escape.opening = false :=
    Bool.eq_false_iff.2 fun here => absurd (spaces _ here) (by decide)
  obtain ⟨c, rfl, here⟩ := exists_char_of_fits hidden fits
  exact ⟨c, rfl, spaces c here⟩

theorem weighs_trimStart (weighs : scale.Weighs sheet w) :
    scale.Weighs (Sheet.trimStart within sheet) w := by
  generalize cut : sheet.takeWhile (fun g => g.fits Seal.lead within) = dropped
  have whole : dropped ++ Sheet.trimStart within sheet = sheet := by
    rw [← cut]
    exact List.takeWhile_append_dropWhile
  have silent : ∀ g ∈ dropped, ∃ c, g = .char c ∧ Unicode.isSpace c = true := by
    intro g member
    rw [← cut] at member
    exact exists_space_of_fits spaces (List.all_eq_true.1 List.all_takeWhile g member)
  have cuts : scale.Cuts dropped (Sheet.trimStart within sheet) := by
    rcases List.eq_nil_or_concat dropped with rfl | ⟨front, g, same⟩
    · exact Scale.cuts_of_single (by simp)
    · rw [same, List.concat_eq_append] at silent ⊢
      obtain ⟨c, rfl, space⟩ := silent g (by simp)
      exact (trails_of_isSpace space).cuts front _
  rw [← whole] at weighs
  obtain ⟨u, v, early, late, rfl⟩ := cuts w weighs
  rw [eq_nil_of_silent (fun g member => ?_) early]
  · exact late
  · obtain ⟨c, same, space⟩ := silent g member
    exact ⟨c, same, counts_of_isSpace space⟩

theorem weighs_trimEnd (weighs : scale.Weighs sheet w) :
    scale.Weighs (Sheet.trimEnd within sheet) w := by
  generalize cut : (sheet.reverse.takeWhile (fun g => g.fits Seal.lead within)).reverse = dropped
  have whole : Sheet.trimEnd within sheet ++ dropped = sheet := by
    rw [← cut, Sheet.trimEnd, ← List.reverse_append, List.takeWhile_append_dropWhile,
      List.reverse_reverse]
  have silent : ∀ g ∈ dropped, ∃ c, g = .char c ∧ Unicode.isSpace c = true := by
    intro g member
    rw [← cut, List.mem_reverse] at member
    exact exists_space_of_fits spaces (List.all_eq_true.1 List.all_takeWhile g member)
  have cuts : scale.Cuts (Sheet.trimEnd within sheet) dropped := by
    cases dropped with
    | nil =>
      intro w weighs
      rw [List.append_nil] at weighs
      exact ⟨w, [], weighs, .nil, List.append_nil w⟩
    | cons g rest =>
      obtain ⟨c, rfl, space⟩ := silent g List.mem_cons_self
      exact (leads_of_isSpace space).cuts _ rest
  rw [← whole] at weighs
  obtain ⟨u, v, early, late, rfl⟩ := cuts w weighs
  rw [eq_nil_of_silent (fun g member => ?_) late, List.append_nil]
  · exact early
  · obtain ⟨c, same, space⟩ := silent g member
    exact ⟨c, same, counts_of_isSpace space⟩

theorem weighs_trim (weighs : scale.Weighs sheet w) : scale.Weighs (Sheet.trim within sheet) w :=
  weighs_trimEnd spaces (weighs_trimStart spaces weighs)

theorem Holds.trimEnd (holds : Holds w sheet) : Holds w (Sheet.trimEnd within sheet) :=
  ⟨holds.clear.part fun _ member => List.mem_reverse.1
    ((List.dropWhile_suffix _).subset (List.mem_reverse.1 member)),
    weighs_trimEnd spaces holds.weighs⟩

theorem Holds.trim (holds : Holds w sheet) : Holds w (Sheet.trim within sheet) :=
  .trimEnd spaces ⟨holds.clear.part (List.dropWhile_suffix _).subset,
    weighs_trimStart spaces holds.weighs⟩

omit spaces

theorem isSpace_of_isNewline {c : Char} (newline : Text.isNewline c = true) :
    Unicode.isSpace c = true := by
  rw [show c = '\n' by simpa [Text.isNewline] using newline]
  decide

section Matches

variable {slot : Type} [DecidableEq slot] {pattern : Pattern slot}
  {allowed : Find Seal slot → Sheet → Prop} {result : Sheet}

/-- A match has a weight of its own. -/
theorem Holds.exists_glyphs (holds : Holds w sheet) {f : Find Seal slot}
    (finds : pattern.Finds Seal.lead sheet f) : ∃ v, Holds v f.glyphs := by
  rw [← finds.whole, finds.passes.ahead, ← List.append_assoc] at holds
  obtain ⟨_, v, _, _, here, _, _⟩ := holds.exists_part
  exact ⟨v, here⟩

theorem Holds.recasts (holds : Holds w sheet)
    (recasts : Recasts allowed (pattern.pieces Seal.lead sheet) result)
    (each : ∀ f part, pattern.Finds Seal.lead sheet f → allowed f part →
      ∀ v, Holds v f.glyphs → Holds v part) : Holds w result where
  clear := by
    have all : ∀ g ∈ result, ∀ c, g = .char c → isReserved c = false := by
      refine recasts.forall_mem ?_ ?_
      · rintro g member c rfl
        exact holds.clear c (Pattern.mem_of_plain_mem_pieces member)
      · rintro f part member here g inside c rfl
        have finds := Pattern.finds_of_mem_pieces member
        obtain ⟨v, within⟩ := holds.exists_glyphs finds
        exact (each f part finds here v within).clear c inside
    exact fun c member => all _ member c rfl
  weighs := holds.weighs_recasts recasts fun f part finds here v inside =>
    (each f part finds here v inside).weighs

theorem Holds.recast (holds : Holds w sheet) {drawn : Find Seal slot → Sheet}
    (each : ∀ f, pattern.Finds Seal.lead sheet f → ∀ v, Holds v f.glyphs → Holds v (drawn f)) :
    Holds w (pattern.recast drawn sheet) := by
  have recasts : Recasts (fun f part => part = drawn f) (pattern.pieces Seal.lead sheet)
      (pattern.recast drawn sheet) := .of_recast fun _ _ => rfl
  exact holds.recasts recasts fun f part finds same v inside => same ▸ each f finds v inside

theorem holds_of_markup (markup : sheet.Markup) : Holds [] sheet := by
  refine ⟨clear_of_markup markup, ?_⟩
  induction sheet with
  | nil => exact .nil
  | cons g rest ih =>
    obtain ⟨c, rfl, here⟩ := markup g List.mem_cons_self
    have single := weighs_char (isReserved_of_isMarkup here)
    rw [select_of_not_counts (counts_of_isMarkup here)] at single
    exact single.append (ih fun h member => markup h (List.mem_cons_of_mem _ member))

/-- Markup in the place of markup. -/
theorem Holds.recast_markup (holds : Holds w sheet) (only : pattern.OnlyMarkup) {drawn : Sheet}
    (markup : drawn.Markup) : Holds w (pattern.recast (fun _ => drawn) sheet) := by
  refine holds.recast fun f finds v inside => ?_
  rw [eq_nil_of_markup (only.between finds.mem) inside.weighs]
  exact holds_of_markup markup

end Matches

theorem markup_newlines (count : Nat) :
    Sheet.Markup (Glyph.chars (List.replicate count '\n')) := by
  intro g member
  obtain ⟨c, inside, rfl⟩ := Glyph.mem_chars.1 member
  obtain rfl := List.eq_of_mem_replicate inside
  exact ⟨'\n', rfl, by decide⟩

theorem holds_keyBlock {fragment : Sheet} (weighs : scale.Weighs fragment w) :
    Holds w (Sheet.keyBlock fragment) := by
  have gap : Holds [] (Glyph.chars "\n\n".toList) := holds_of_markup (markup_newlines 2)
  have key : scale.ofSeal (.key fragment) w := Hidden.key (finish weighs)
  have whole := (gap.weighs.append (.ofSeal key)).append gap.weighs
  rw [List.nil_append, List.append_nil] at whole
  refine ⟨(gap.clear.append fun c member => ?_).append gap.clear, whole⟩
  cases List.mem_singleton.1 member

theorem isTagChar_of_mem_tag (rank : Nat) :
    ∀ c ∈ 'h' :: (toString rank).toList, isTagChar c = true := by
  intro c member
  rcases List.mem_cons.1 member with rfl | inside
  · decide
  · rw [Nat.toString_eq_repr, Nat.toList_repr] at inside
    have digit := Nat.isDigit_of_mem_toDigits (by decide) (by decide) inside
    simp [isTagChar, Char.isAlphanum, digit]

theorem weighs_headingElement (table : Sheet.Table) (rank : Nat) (holds : Holds w sheet) :
    scale.Weighs (Sheet.headingElement table rank sheet) w := by
  have named := isTagChar_of_mem_tag rank
  exact @weighs_element ('h' :: (toString rank).toList) ('/' :: 'h' :: (toString rank).toList) _ _
    named (List.forall_mem_cons.2 ⟨by decide, named⟩) (weighs_inline table holds)

theorem Holds.underlinedHeadings (table : Sheet.Table) (holds : Holds w sheet) :
    Holds w (Sheet.underlinedHeadings table sheet) :=
  holds.recast fun _ finds _ inside =>
    holds_keyBlock (weighs_headingElement table _ (inside.get Heading.frames_underlined finds))

theorem Holds.markedHeadings (table : Sheet.Table) (holds : Holds w sheet) :
    Holds w (Sheet.markedHeadings table sheet) :=
  holds.recast fun _ finds _ inside =>
    holds_keyBlock (weighs_headingElement table _ (inside.get Heading.frames_marked finds))

theorem Holds.rules (holds : Holds w sheet) : Holds w (Sheet.rules sheet) := by
  refine holds.recast fun f finds v inside => holds_keyBlock ?_
  rw [eq_nil_of_markup (Heading.onlyMarkup_rule.between finds.mem) inside.weighs]
  exact @weighs_tag "hr".toList (by decide)

theorem Holds.outdent (holds : Holds w sheet) : Holds w (Sheet.outdent sheet) :=
  holds.recast_markup CodeBlock.onlyMarkup_indentation (by simp [Sheet.Markup])

theorem weighs_codeBlockElement (holds : Holds w sheet) :
    scale.Weighs (Sheet.codeBlockElement sheet) w := by
  have code := weighs_protect_restore holds.outdent
  have trimmed := weighs_trimEnd (fun _ space => space)
    (weighs_trim (fun _ => isSpace_of_isNewline) code)
  have front := (@weighs_tag "pre".toList (by decide)).append (@weighs_tag "code".toList (by decide))
  have back := (weighs_char (c := '\n') (by decide)).append
    ((@weighs_tag "/code".toList (by decide)).append (@weighs_tag "/pre".toList (by decide)))
  have whole := (front.append trimmed).append back
  rw [show ([] ++ [] ++ w ++ (select ['\n'] ++ ([] ++ [])) : Text) = w by
    rw [select_of_not_counts (by decide)]; simp] at whole
  exact whole

theorem Holds.codeBlocks (holds : Holds w sheet) : Holds w (Sheet.codeBlocks sheet) :=
  holds.recast fun _ finds _ inside =>
    holds_keyBlock (weighs_codeBlockElement (inside.get CodeBlock.frames_codeBlock finds))

theorem Clear.angle_not_mem (clear : Clear sheet) : Glyph.char '<' ∉ sheet :=
  fun member => absurd (clear _ member) (by decide)

theorem Clear.bracket_not_mem (clear : Clear sheet) : Glyph.char '[' ∉ sheet :=
  fun member => absurd (clear _ member) (by decide)

/-- The renderings of an interior keep what counts. -/
structure Keeps (interior : Sheet.Interior) : Prop where
  blocks : ∀ {sheet w}, Holds w sheet → ∀ inList,
    (interior.blocks inList sheet).Ensures fun result => scale.Weighs result w
  lists : ∀ {sheet w}, Holds w sheet →
    (interior.lists sheet).Ensures fun result => Holds w result

theorem Holds.evenlySpaced (holds : Holds w sheet) : Holds w (Sheet.evenlySpaced sheet) :=
  Holds.recast_markup (holds.recast_markup Listing.onlyMarkup_newlines (markup_newlines 3))
    Listing.onlyMarkup_finalNewlines (markup_newlines 1)

theorem isTagChar_of_mem_tagOf (marker : Text) : ∀ c ∈ Listing.tagOf marker, isTagChar c = true := by
  rw [Listing.tagOf]
  split <;> decide

/-- Blocks that are drafted from their matches, one after the other. -/
theorem holds_redraw {slot : Type} [DecidableEq slot] {pattern : Pattern slot}
    {drawn : Find Seal slot → Draft Sheet} (holds : Holds w sheet)
    (each : ∀ f, pattern.Finds Seal.lead sheet f → ∀ v, Holds v f.glyphs →
      (drawn f).Ensures fun element => scale.Weighs element v) :
    (pattern.redraw (fun f => do pure (Sheet.keyBlock (← drawn f))) sheet).Ensures
      fun result => Holds w result := by
  have parts : ∀ f, pattern.Finds Seal.lead sheet f →
      (do pure (Sheet.keyBlock (← drawn f)) : Draft Sheet).Ensures
        fun part => ∀ v, Holds v f.glyphs → Holds v part := by
    intro f finds level result done v inside
    exact ((each f finds v inside).bind fun element weighs => .pure (holds_keyBlock weighs))
      level result done
  exact (Recasts.of_redraw parts).mono fun result recasts =>
    holds.recasts recasts fun f part _ here v inside => here v inside

section Interiors

variable {interior : Sheet.Interior} (keeps : Keeps interior) {table : Sheet.Table}
include keeps

theorem weighs_quoteElement (holds : Holds w sheet) :
    (Sheet.quoteElement interior sheet).Ensures fun element => scale.Weighs element w := by
  have plain : Holds w (Quote.mark.recast (fun _ => []) sheet) :=
    holds.recast_markup Quote.onlyMarkup_mark (by simp [Sheet.Markup])
  refine (keeps.blocks plain false).bind fun content weighs => .pure ?_
  have newline : scale.Weighs [.char '\n'] [] := weighs_char (c := '\n') (by decide)
  have front := (@weighs_tag "blockquote".toList (by decide)).append newline
  have back := newline.append (@weighs_tag "/blockquote".toList (by decide))
  simpa using (front.append weighs).append back

theorem holds_quotes (holds : Holds w sheet) :
    (Sheet.quotes interior sheet).Ensures fun result => Holds w result :=
  holds_redraw holds fun _ finds _ inside =>
    weighs_quoteElement keeps (inside.get Quote.frames_quote finds)

theorem weighs_itemContent {f : Find Seal Listing.Part} (holds : Holds w (f.get .content)) :
    (Sheet.itemContent table interior f).Ensures fun content => scale.Weighs content w := by
  rw [Sheet.itemContent]
  split
  · exact keeps.blocks holds.outdent true
  · refine (keeps.lists holds.outdent).bind fun sheet nested => .pure ?_
    have trimmed := nested.trimEnd fun _ => isSpace_of_isNewline
    have single : Holds w (Sheet.singleSpaced _) :=
      trimmed.recast_markup Listing.onlyMarkup_newlines (markup_newlines 1)
    exact weighs_of_finished (finish (weighs_inline table single))

theorem weighs_itemElement {f : Find Seal Listing.Part} (holds : Holds w (f.get .content)) :
    (Sheet.itemElement table interior f).Ensures fun element => scale.Weighs element w := by
  refine (weighs_itemContent keeps holds).bind fun content weighs => .pure ?_
  have newline : scale.Weighs [.char '\n'] [] := weighs_char (c := '\n') (by decide)
  have front := @weighs_tag "li".toList (by decide)
  have back := (@weighs_tag "/li".toList (by decide)).append newline
  simpa using (front.append weighs).append back

theorem weighs_listElement {f : Find Seal Listing.Part} (holds : Holds w (f.get .list)) :
    (Sheet.listElement table interior f).Ensures fun element => scale.Weighs element w := by
  have parts : ∀ g, Listing.item.Finds Seal.lead (Sheet.evenlySpaced (f.get .list)) g →
      (Sheet.itemElement table interior g).Ensures
        fun part => ∀ v, Holds v g.glyphs → scale.Weighs part v := by
    intro g finds level result done v inside
    exact weighs_itemElement keeps (inside.get Listing.frames_item finds) level result done
  refine (Recasts.of_redraw parts).bind fun items recasts => .pure ?_
  have weighs := holds.evenlySpaced.weighs_recasts recasts fun _ _ _ here v inside => here v inside
  have named := isTagChar_of_mem_tagOf (Sheet.outline (f.get .marker))
  have newline : scale.Weighs [.char '\n'] [] := weighs_char (c := '\n') (by decide)
  have front := (weighs_tag named).append newline
  have back := @weighs_tag ('/' :: Listing.tagOf (Sheet.outline (f.get .marker)))
    (List.forall_mem_cons.2 ⟨by decide, named⟩)
  simpa using (front.append weighs).append back

theorem holds_lists (holds : Holds w sheet) (inList : Bool) :
    (Sheet.lists table interior inList sheet).Ensures fun result => Holds w result := by
  cases inList with
  | false =>
    exact holds_redraw holds fun _ finds _ inside =>
      weighs_listElement keeps (inside.get Listing.frames_topList finds)
  | true =>
    exact holds_redraw holds fun _ finds _ inside =>
      weighs_listElement keeps (inside.get Listing.frames_nestedList finds)

end Interiors

end Markdown.Selection
