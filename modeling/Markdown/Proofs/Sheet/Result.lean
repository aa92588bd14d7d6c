import Markdown.Proofs.Sheet.Rendering

set_option autoImplicit false

namespace Markdown

/-- Whatever the draft gives, if it gives something, has the property. -/
def Draft.Ensures {α : Type} (draft : Draft α) (property : α → Prop) : Prop :=
  ∀ level result, (draft.run level).1 = .ok result → property result

namespace Draft.Ensures

variable {α β : Type} {property : α → Prop}

theorem pure {value : α} (holds : property value) : Ensures (Pure.pure value) property := by
  intro level result done
  cases done
  exact holds

theorem giveOut (limit : Limit) : Ensures (Draft.giveOut limit) property := by
  intro level result done
  cases done

theorem bind {other : β → Prop} {first : Draft α} {next : α → Draft β}
    (early : first.Ensures property) (late : ∀ value, property value → (next value).Ensures other) :
    Ensures (first >>= next) other := by
  intro level result done
  rw [run_bind] at done
  have here := early level
  generalize first.run level = middle at done here
  obtain ⟨outcome | value, later⟩ := middle
  · cases done
  · exact late value (here value rfl) later result done

/-- A level changes nothing about results. -/
theorem nested {body : Draft α} (ensures : body.Ensures property) (limit : Limit) :
    (body.nested limit).Ensures property := by
  intro level result done
  cases entered : level.enter limit with
  | error error =>
    rw [run_nested_error entered] at done
    cases done
  | ok inner =>
    rw [run_nested entered] at done
    exact ensures inner result done

theorem mono {other : α → Prop} {draft : Draft α} (ensures : draft.Ensures property)
    (weaker : ∀ value, property value → other value) : draft.Ensures other :=
  fun level result done => weaker result (ensures level result done)

end Draft.Ensures

variable {slot : Type}

/-- The sheet has the pieces of another, with something allowed in the place of each match. -/
inductive Recasts (allowed : Find Seal slot → Sheet → Prop) : List (Piece Seal slot) → Sheet → Prop
    where
  | nil : Recasts allowed [] []
  | plain (g : Glyph Seal) {pieces : List (Piece Seal slot)} {sheet : Sheet}
    (later : Recasts allowed pieces sheet) : Recasts allowed (.plain g :: pieces) (g :: sheet)
  | found {f : Find Seal slot} {part : Sheet} {pieces : List (Piece Seal slot)} {sheet : Sheet}
    (here : allowed f part) (later : Recasts allowed pieces sheet) :
    Recasts allowed (.found f :: pieces) (part ++ sheet)

namespace Recasts

variable {allowed : Find Seal slot → Sheet → Prop}

theorem of_flatMap {drawn : Find Seal slot → Sheet} {pieces : List (Piece Seal slot)}
    (each : ∀ f, .found f ∈ pieces → allowed f (drawn f)) :
    Recasts allowed pieces (pieces.flatMap (Piece.recast drawn)) := by
  induction pieces with
  | nil => exact .nil
  | cons piece rest ih =>
    have later := ih fun f member => each f (List.mem_cons_of_mem _ member)
    cases piece with
    | plain g => exact .plain g later
    | found f => exact .found (each f List.mem_cons_self) later

theorem of_redrawn {drawn : Find Seal slot → Draft Sheet} {pieces : List (Piece Seal slot)}
    (each : ∀ f, .found f ∈ pieces → (drawn f).Ensures (allowed f)) :
    (Piece.redrawn drawn pieces).Ensures (Recasts allowed pieces) := by
  induction pieces with
  | nil => exact .pure .nil
  | cons piece rest ih =>
    have later := ih fun f member => each f (List.mem_cons_of_mem _ member)
    cases piece with
    | plain g => exact later.bind fun sheet recasts => .pure (.plain g recasts)
    | found f =>
      exact (each f List.mem_cons_self).bind fun part here =>
        later.bind fun sheet recasts => .pure (.found here recasts)

variable [DecidableEq slot] {pattern : Pattern slot} {sheet : Sheet}

theorem of_recast {drawn : Find Seal slot → Sheet}
    (each : ∀ f, pattern.Finds Seal.lead sheet f → allowed f (drawn f)) :
    Recasts allowed (pattern.pieces Seal.lead sheet) (pattern.recast drawn sheet) :=
  of_flatMap fun f member => each f (Pattern.finds_of_mem_pieces member)

theorem of_redraw {drawn : Find Seal slot → Draft Sheet}
    (each : ∀ f, pattern.Finds Seal.lead sheet f → (drawn f).Ensures (allowed f)) :
    (pattern.redraw drawn sheet).Ensures (Recasts allowed (pattern.pieces Seal.lead sheet)) :=
  of_redrawn fun f member => each f (Pattern.finds_of_mem_pieces member)

omit [DecidableEq slot] in
/-- Every glyph of the new sheet was there before or came with what replaced a match. -/
theorem forall_mem {pieces : List (Piece Seal slot)} {result : Sheet} {kind : Glyph Seal → Prop}
    (recasts : Recasts allowed pieces result)
    (plain : ∀ g, .plain g ∈ pieces → kind g)
    (found : ∀ f part, .found f ∈ pieces → allowed f part → ∀ g ∈ part, kind g) :
    ∀ g ∈ result, kind g := by
  induction recasts with
  | nil => simp
  | plain g _ ih =>
    refine List.forall_mem_cons.2 ⟨plain g List.mem_cons_self, ih ?_ ?_⟩
    · exact fun h member => plain h (List.mem_cons_of_mem _ member)
    · exact fun f part member => found f part (List.mem_cons_of_mem _ member)
  | @found f part _ _ here _ ih =>
    refine List.forall_mem_append.2 ⟨found f part List.mem_cons_self here, ih ?_ ?_⟩
    · exact fun h member => plain h (List.mem_cons_of_mem _ member)
    · exact fun f part member => found f part (List.mem_cons_of_mem _ member)

end Recasts

end Markdown
