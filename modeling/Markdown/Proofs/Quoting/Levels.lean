import Markdown.Proofs.Sheet.Block

set_option autoImplicit false

namespace Markdown

namespace Sheet

variable (table : Table) (limit : Limit) (left : Nat) (inList : Bool) (sheet : Sheet)

theorem blocks_zero : (interior table limit 0).blocks inList sheet =
    Draft.nested limit (.giveOut limit) := rfl

theorem lists_zero : (interior table limit 0).lists sheet =
    Draft.nested limit (.giveOut limit) := rfl

theorem blocks_succ : (interior table limit (left + 1)).blocks inList sheet =
    Draft.nested limit (level table (interior table limit left) inList sheet) := rfl

theorem lists_succ : (interior table limit (left + 1)).lists sheet =
    Draft.nested limit (lists table (interior table limit left) true sheet) := rfl

end Sheet

/-- From the given depth the first draft does what the second does one level further in: both give
the same or both fail, and each comes back to the depth it started from. -/
structure Draft.Deeper {α : Type} (depth : Nat) (first second : Draft α) : Prop where
  result : ∀ level other : Level, level.depth = depth → other.depth = depth + 1 →
    (first.run level).1.toOption = (second.run other).1.toOption
  back : ∀ level : Level, level.depth = depth → (first.run level).2.depth = depth
  backInside : ∀ other : Level, other.depth = depth + 1 → (second.run other).2.depth = depth + 1

namespace Draft.Deeper

variable {α β : Type} {depth capacity : Nat}

theorem pure (value : α) : Deeper depth (Pure.pure value) (Pure.pure value) where
  result _ _ _ _ := rfl
  back _ here := here
  backInside _ here := here

theorem bind {first second : Draft α} {next after : α → Draft β}
    (early : Deeper depth first second) (late : ∀ value, Deeper depth (next value) (after value)) :
    Deeper depth (first >>= next) (second >>= after) where
  result level other here there := by
    rw [run_bind, run_bind]
    have same := early.result level other here there
    have outside := early.back level here
    have inside := early.backInside other there
    generalize first.run level = done at same outside ⊢
    generalize second.run other = drawn at same inside ⊢
    obtain ⟨left | value, level⟩ := done <;> obtain ⟨right | drawn, other⟩ := drawn
    · rfl
    · cases same
    · cases same
    · obtain rfl : value = drawn := Option.some.inj same
      exact (late value).result level other outside inside
  back level here := by
    rw [run_bind]
    have outside := early.back level here
    generalize first.run level = done at outside ⊢
    obtain ⟨left | value, level⟩ := done
    · exact outside
    · exact (late value).back level outside
  backInside other there := by
    rw [run_bind]
    have inside := early.backInside other there
    generalize second.run other = drawn at inside ⊢
    obtain ⟨right | value, other⟩ := drawn
    · exact inside
    · exact (late value).backInside other inside

/-- One more level is opened below the limit and refused at it. -/
theorem enter_cases (count : Nat) (level : Level) :
    (level.depth < count ∧ ∃ inner, level.enter ⟨.levels count, capacity⟩ = .ok inner ∧
        inner.depth = level.depth + 1) ∨
      (count ≤ level.depth ∧ ∃ error, level.enter ⟨.levels count, capacity⟩ = .error error) := by
  rw [Level.enter]
  by_cases full : (count : Int) ≤ level.depth
  · exact .inr ⟨by omega, _, if_pos full⟩
  · exact .inl ⟨by omega, ⟨level.depth + 1, max level.deepest (level.depth + 1)⟩, if_neg full, rfl⟩

/-- A level is left for the depth it was entered from. -/
theorem depth_nested {count : Nat} {body : Draft α}
    (keeps : depth < count → ∀ inner : Level, inner.depth = depth + 1 →
      (body.run inner).2.depth = depth + 1) (level : Level) (here : level.depth = depth) :
    ((Draft.nested ⟨.levels count, capacity⟩ body).run level).2.depth = depth := by
  rcases enter_cases count level with ⟨room, inner, entered, deep⟩ | ⟨_, error, refused⟩
  · rw [run_nested entered]
    change (body.run inner).2.depth - 1 = depth
    rw [keeps (by omega) inner (by omega), Nat.add_sub_cancel]
  · rw [run_nested_error refused]
    exact here

/-- At the limit both drafts are refused, and below it their bodies decide. -/
theorem nested {count : Nat} {first second : Draft α}
    (body : depth < count → Deeper (depth + 1) first second) :
    Deeper depth (Draft.nested ⟨.levels count, capacity⟩ first)
      (Draft.nested ⟨.levels (count + 1 : Nat), capacity⟩ second) where
  result level other here there := by
    rcases enter_cases count level with ⟨room, inner, entered, deep⟩ | ⟨full, error, refused⟩ <;>
      rcases enter_cases (count + 1) other with
        ⟨space, further, opened, deeper⟩ | ⟨filled, failure, denied⟩
    · rw [run_nested entered, run_nested opened]
      exact (body (by omega)).result inner further (by omega) (by omega)
    · omega
    · omega
    · rw [run_nested_error refused, run_nested_error denied]
      rfl
  back := depth_nested fun room => (body room).back
  backInside := depth_nested fun room => (body (by omega)).backInside

theorem redraw {slot : Type} [DecidableEq slot] {pattern : Pattern slot}
    {drawn inner : Find Seal slot → Draft Sheet} (each : ∀ f, Deeper depth (drawn f) (inner f))
    (sheet : Sheet) : Deeper depth (pattern.redraw drawn sheet) (pattern.redraw inner sheet) := by
  rw [Pattern.redraw, Pattern.redraw]
  induction pattern.pieces Seal.lead sheet with
  | nil => exact .pure _
  | cons piece rest ih =>
    cases piece with
    | plain g => exact ih.bind fun _ => .pure _
    | found f => exact (each f).bind fun _ => ih.bind fun _ => .pure _

variable {table : Sheet.Table} {interior inside : Sheet.Interior}

section

variable (blocks : ∀ inList sheet,
  Deeper depth (interior.blocks inList sheet) (inside.blocks inList sheet))
include blocks

theorem quotes (sheet : Sheet) :
    Deeper depth (Sheet.quotes interior sheet) (Sheet.quotes inside sheet) :=
  redraw (fun _ => ((blocks _ _).bind fun _ => .pure _).bind fun _ => .pure _) sheet

variable (lists : ∀ sheet, Deeper depth (interior.lists sheet) (inside.lists sheet))
include lists

theorem itemContent (f : Find Seal Listing.Part) :
    Deeper depth (Sheet.itemContent table interior f) (Sheet.itemContent table inside f) := by
  rw [Sheet.itemContent, Sheet.itemContent]
  split
  · exact blocks _ _
  · exact (lists _).bind fun _ => .pure _

theorem listElement (f : Find Seal Listing.Part) :
    Deeper depth (Sheet.listElement table interior f) (Sheet.listElement table inside f) :=
  (redraw (fun item => (itemContent blocks lists item).bind fun _ => .pure _) _).bind
    fun _ => .pure _

theorem nestedLists (inList : Bool) (sheet : Sheet) :
    Deeper depth (Sheet.lists table interior inList sheet)
      (Sheet.lists table inside inList sheet) :=
  redraw (fun f => (listElement blocks lists f).bind fun _ => .pure _) sheet

theorem level (inList : Bool) (sheet : Sheet) :
    Deeper depth (Sheet.level table interior inList sheet)
      (Sheet.level table inside inList sheet) :=
  (nestedLists blocks lists inList _).bind fun _ => (quotes blocks _).bind fun _ => .pure _

end

/-- With a level less to open, and one level further in, the same comes out. -/
theorem interiors (table : Sheet.Table) (capacity count left : Nat) {depth : Nat}
    (room : count ≤ depth + left) :
    (∀ inList sheet, Deeper depth
      ((Sheet.interior table ⟨.levels count, capacity⟩ (left + 1)).blocks inList sheet)
      ((Sheet.interior table ⟨.levels (count + 1 : Nat), capacity⟩ left).blocks inList sheet)) ∧
    ∀ sheet, Deeper depth ((Sheet.interior table ⟨.levels count, capacity⟩ (left + 1)).lists sheet)
      ((Sheet.interior table ⟨.levels (count + 1 : Nat), capacity⟩ left).lists sheet) := by
  induction left generalizing depth with
  | zero =>
    refine ⟨fun inList sheet => ?_, fun sheet => ?_⟩
    · rw [Sheet.blocks_succ, Sheet.blocks_zero]
      exact nested fun below => absurd below (by omega)
    · rw [Sheet.lists_succ, Sheet.lists_zero]
      exact nested fun below => absurd below (by omega)
  | succ left ih =>
    obtain ⟨blocks, lists⟩ := @ih (depth + 1) (by omega)
    refine ⟨fun inList sheet => ?_, fun sheet => ?_⟩
    · rw [Sheet.blocks_succ, Sheet.blocks_succ]
      exact nested fun _ => level blocks lists inList sheet
    · rw [Sheet.lists_succ, Sheet.lists_succ]
      exact nested fun _ => nestedLists blocks lists true sheet

end Draft.Deeper

end Markdown
