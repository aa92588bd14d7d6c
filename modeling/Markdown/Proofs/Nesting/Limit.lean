import Markdown.Proofs.Sheet.Block

set_option autoImplicit false

namespace Markdown

namespace Level

def deeper (level : Level) : Level :=
  ⟨level.depth + 1, max level.deepest (level.depth + 1)⟩

variable {limit : Limit} {level : Level}

theorem enter_of_lt (below : level.depth < limit.value) : level.enter limit = .ok level.deeper :=
  if_neg (by omega)

theorem enter_of_le (full : limit.value ≤ level.depth) :
    level.enter limit = .error (.pastLimit limit.bound (level.depth + 1)) :=
  if_pos full

end Level

namespace Block

variable (setting : Setting) (left : Nat) (inList : Bool) (text : Text)

theorem blocks_zero : (interior setting 0).blocks inList text =
    Render.nested setting.limit (.giveOut setting.limit) := rfl

theorem lists_zero : (interior setting 0).lists text =
    Render.nested setting.limit (.giveOut setting.limit) := rfl

theorem blocks_succ : (interior setting (left + 1)).blocks inList text =
    Render.nested setting.limit (renderLevel setting (interior setting left) inList text) := rfl

theorem lists_succ : (interior setting (left + 1)).lists text =
    Render.nested setting.limit (Listing.render setting (interior setting left) true text) := rfl

theorem exists_blocks : ∃ body,
    (interior setting left).blocks inList text = Render.nested setting.limit body := by
  cases left with
  | zero => exact ⟨_, blocks_zero setting inList text⟩
  | succ left => exact ⟨_, blocks_succ setting left inList text⟩

theorem exists_lists : ∃ body,
    (interior setting left).lists text = Render.nested setting.limit body := by
  cases left with
  | zero => exact ⟨_, lists_zero setting text⟩
  | succ left => exact ⟨_, lists_succ setting left text⟩

end Block

namespace Render

variable {α β : Type} {limit larger : Limit} {depth : Nat}

/-- From the given depth the short rendering does what the long one does, or it fails because it
asks for the level past the limit. Either way it comes back to the depth it started from. -/
structure CutOff (limit : Limit) (depth : Nat) (short long : Render α) : Prop where
  back : ∀ progress : Progress, progress.level.depth = depth →
    (short.run progress).2.level.depth = depth
  same : ∀ {progress later : Progress} {value : α}, progress.level.depth = depth →
    short.run progress = (.ok value, later) → long.run progress = (.ok value, later)
  refused : ∀ {progress later : Progress} {error : NestingError}, progress.level.depth = depth →
    short.run progress = (.error error, later) →
      error = .pastLimit limit.bound (limit.value.toNat + 1)

namespace CutOff

/-- What opens no level is not cut off. -/
theorem of_run {body : Render α}
    (run : ∀ progress, ∃ value later, body.run progress = (.ok value, later) ∧
      later.level = progress.level) : CutOff limit depth body body where
  back progress here := by
    obtain ⟨value, later, done, level⟩ := run progress
    rw [done]
    exact (congrArg Level.depth level).trans here
  same _ done := done
  refused {progress _ _} _ done := by
    obtain ⟨value, later, fine, _⟩ := run progress
    rw [fine] at done
    cases done

theorem pure (value : α) : CutOff limit depth (Pure.pure value) (Pure.pure value) :=
  of_run fun progress => ⟨value, progress, rfl, rfl⟩

theorem setAside (fragment : Text) :
    CutOff limit depth (Render.setAside fragment) (Render.setAside fragment) :=
  of_run fun _ => ⟨_, _, rfl, rfl⟩

theorem finish (text : Text) : CutOff limit depth (Render.finish text) (Render.finish text) :=
  of_run fun _ => ⟨_, _, rfl, rfl⟩

theorem paragraphs (references : ReferenceTable) (text : Text) :
    CutOff limit depth (Block.renderParagraphs references text)
      (Block.renderParagraphs references text) :=
  of_run fun _ => ⟨_, _, rfl, rfl⟩

theorem bind {short long : Render α} {next after : α → Render β}
    (early : CutOff limit depth short long)
    (late : ∀ value, CutOff limit depth (next value) (after value)) :
    CutOff limit depth (short >>= next) (long >>= after) where
  back progress here := by
    have middle := early.back progress here
    rw [run_bind]
    generalize short.run progress = done at middle ⊢
    obtain ⟨error | value, later⟩ := done
    · exact middle
    · exact (late value).back later middle
  same {progress last value} here done := by
    have middle := early.back progress here
    rw [run_bind] at done ⊢
    cases first : short.run progress with
    | mk result later =>
      rw [first] at done middle
      cases result with
      | error error => cases done
      | ok found =>
        rw [early.same here first]
        exact (late found).same middle done
  refused {progress last error} here done := by
    have middle := early.back progress here
    rw [run_bind] at done
    cases first : short.run progress with
    | mk result later =>
      rw [first] at done middle
      cases result with
      | error failure =>
        obtain rfl : failure = error := Except.error.inj (congrArg Prod.fst done)
        exact early.refused here first
      | ok found => exact (late found).refused middle done

/-- A level is opened under both limits, or the lower one is reached. -/
theorem nested {short long : Render α} (wider : limit.value ≤ larger.value)
    (within : depth ≤ limit.value)
    (body : depth < limit.value → CutOff limit (depth + 1) short long) :
    CutOff limit depth (Render.nested limit short) (Render.nested larger long) := by
  by_cases below : depth < limit.value
  · have inside := body below
    have enters : ∀ {progress : Progress}, progress.level.depth = depth →
        progress.level.enter limit = .ok progress.level.deeper ∧
          progress.level.enter larger = .ok progress.level.deeper :=
      fun here => ⟨Level.enter_of_lt (by omega), Level.enter_of_lt (by omega)⟩
    have deep : ∀ {progress : Progress}, progress.level.depth = depth →
        progress.level.deeper.depth = depth + 1 := fun here => congrArg (· + 1) here
    refine ⟨fun progress here => ?_, fun here done => ?_, fun here done => ?_⟩
    · rw [run_nested (enters here).1]
      exact congrArg (· - 1) (inside.back { progress with level := progress.level.deeper } (deep here))
    · rw [run_nested (enters here).1] at done
      rw [run_nested (enters here).2]
      obtain ⟨result, last⟩ := Prod.mk.inj done
      rw [inside.same (deep here) (Prod.ext result rfl)]
      exact Prod.ext rfl last
    · rw [run_nested (enters here).1] at done
      obtain ⟨failed, _⟩ := Prod.mk.inj done
      exact inside.refused (deep here) (Prod.ext failed rfl)
  · have full : limit.value = depth := by omega
    have denied : ∀ {progress : Progress}, progress.level.depth = depth →
        (Render.nested limit short).run progress =
          (.error (.pastLimit limit.bound (depth + 1)), progress) := by
      intro progress here
      rw [← here]
      exact run_nested_error (Level.enter_of_le (by omega)) short
    refine ⟨fun progress here => ?_, fun here done => ?_, fun here done => ?_⟩
    · rw [denied here]
      exact here
    · rw [denied here] at done
      cases done
    · rw [denied here] at done
      rw [full, Int.toNat_natCast]
      exact (Except.error.inj (congrArg Prod.fst done)).symm

theorem mapM {ι : Type} {short long : ι → Render α}
    (each : ∀ item, CutOff limit depth (short item) (long item)) (items : List ι) :
    CutOff limit depth (items.mapM short) (items.mapM long) := by
  induction items with
  | nil =>
    rw [List.mapM_nil, List.mapM_nil]
    exact .pure _
  | cons item rest ih =>
    rw [List.mapM_cons, List.mapM_cons]
    exact (each item).bind fun _ => ih.bind fun _ => .pure _

theorem replaceM {slot : Type} [DecidableEq slot] (pattern : Pattern slot)
    {short long : Match slot → Render Text}
    (each : ∀ found, CutOff limit depth (short found) (long found)) (text : Text) :
    CutOff limit depth (pattern.replaceM short text) (pattern.replaceM long text) := by
  refine (mapM (fun segment => ?_) _).bind fun _ => .pure _
  cases segment with
  | plain c => exact .pure _
  | found m => exact each m

theorem protectHtml (text : Text) :
    CutOff limit depth (Render.protectHtml text) (Render.protectHtml text) :=
  of_run fun _ => ⟨_, _, rfl, rfl⟩

variable {short long : Setting} {interior inside : Interior}

section

variable (blocks : ∀ inList text,
  CutOff limit depth (interior.blocks inList text) (inside.blocks inList text))
include blocks

theorem quotes (text : Text) :
    CutOff limit depth (Quote.render interior text) (Quote.render inside text) :=
  replaceM _ (fun _ => ((blocks _ _).bind fun _ => .pure _).bind fun _ => .setAside _) text

variable (references : short.references = long.references)
  (lists : ∀ text, CutOff limit depth (interior.lists text) (inside.lists text))
include references lists

theorem itemContent (found : Match Listing.Part) :
    CutOff limit depth (Listing.itemContent short interior found)
      (Listing.itemContent long inside found) := by
  rw [Listing.itemContent, Listing.itemContent, references]
  split
  · exact blocks _ _
  · exact (lists _).bind fun _ => .finish _

theorem listElement (found : Match Listing.Part) :
    CutOff limit depth (Listing.listElement short interior found)
      (Listing.listElement long inside found) := by
  refine (replaceM _ (fun item => ?_) _).bind fun _ => .pure _
  exact (itemContent blocks references lists item).bind fun _ => .pure _

theorem nestedLists (inList : Bool) (text : Text) :
    CutOff limit depth (Listing.render short interior inList text)
      (Listing.render long inside inList text) :=
  replaceM _ (fun found =>
    (listElement blocks references lists found).bind fun _ => .setAside _) text

theorem level (inList : Bool) (text : Text) :
    CutOff limit depth (Block.renderLevel short interior inList text)
      (Block.renderLevel long inside inList text) := by
  have headings : ∀ text, CutOff limit depth (Heading.render long.references text)
      (Heading.render long.references text) := fun text =>
    (replaceM _ (fun _ => .setAside _) text).bind fun _ => replaceM _ (fun _ => .setAside _) _
  have rules : ∀ text, CutOff limit depth (Heading.renderRules text) (Heading.renderRules text) :=
    replaceM _ fun _ => .setAside _
  have code : ∀ text, CutOff limit depth (CodeBlock.render text) (CodeBlock.render text) :=
    replaceM _ fun _ => .setAside _
  rw [Block.renderLevel, Block.renderLevel, references]
  exact (headings text).bind fun _ => (rules _).bind fun _ =>
    (nestedLists blocks references lists inList _).bind fun _ => (code _).bind fun _ =>
      (quotes blocks _).bind fun _ => (protectHtml _).bind fun _ => paragraphs _ _

end

/-- At the limit every rendering further in is refused. -/
theorem interiors_of_full (references : ReferenceTable) (wider : limit.value ≤ larger.value)
    (full : limit.value = depth) (left other : Nat) :
    (∀ inList text, CutOff limit depth
      ((Block.interior ⟨references, limit⟩ left).blocks inList text)
      ((Block.interior ⟨references, larger⟩ other).blocks inList text)) ∧
    ∀ text, CutOff limit depth ((Block.interior ⟨references, limit⟩ left).lists text)
      ((Block.interior ⟨references, larger⟩ other).lists text) := by
  have refused : ∀ short long : Render Text,
      CutOff limit depth (Render.nested limit short) (Render.nested larger long) :=
    fun _ _ => nested wider (by omega) fun below => absurd below (by omega)
  refine ⟨fun inList text => ?_, fun text => ?_⟩
  · obtain ⟨short, first⟩ := Block.exists_blocks ⟨references, limit⟩ left inList text
    obtain ⟨long, second⟩ := Block.exists_blocks ⟨references, larger⟩ other inList text
    rw [first, second]
    exact refused short long
  · obtain ⟨short, first⟩ := Block.exists_lists ⟨references, limit⟩ left text
    obtain ⟨long, second⟩ := Block.exists_lists ⟨references, larger⟩ other text
    rw [first, second]
    exact refused short long

/-- As long as the levels that are left do not give out below the limit, a rendering further in is
cut off at the limit and nowhere else. -/
theorem interiors (references : ReferenceTable) (wider : limit.value ≤ larger.value)
    {left other depth : Nat} (within : depth ≤ limit.value) (room : limit.value ≤ depth + left)
    (space : limit.value ≤ depth + other) :
    (∀ inList text, CutOff limit depth
      ((Block.interior ⟨references, limit⟩ left).blocks inList text)
      ((Block.interior ⟨references, larger⟩ other).blocks inList text)) ∧
    ∀ text, CutOff limit depth ((Block.interior ⟨references, limit⟩ left).lists text)
      ((Block.interior ⟨references, larger⟩ other).lists text) := by
  induction left generalizing depth other with
  | zero => exact interiors_of_full references wider (by omega) 0 other
  | succ left ih =>
    cases other with
    | zero => exact interiors_of_full references wider (by omega) (left + 1) 0
    | succ other =>
      refine ⟨fun inList text => ?_, fun text => ?_⟩
      · rw [Block.blocks_succ, Block.blocks_succ]
        refine nested wider within fun below => ?_
        obtain ⟨blocks, lists⟩ := @ih other (depth + 1) (by omega) (by omega) (by omega)
        exact level blocks rfl lists inList text
      · rw [Block.lists_succ, Block.lists_succ]
        refine nested wider within fun below => ?_
        obtain ⟨blocks, lists⟩ := @ih other (depth + 1) (by omega) (by omega) (by omega)
        exact nestedLists blocks rfl lists true text

end CutOff

end Render

namespace Nesting

variable {limit larger : Limit} {document html : Text}

theorem cutOff_render (references : ReferenceTable) (positive : 1 ≤ limit.value)
    (wider : limit.value ≤ larger.value) (capable : limit.value ≤ limit.capacity)
    (stronger : limit.value ≤ larger.capacity) (inList : Bool) (text : Text) :
    Render.CutOff limit 0 (Block.render ⟨references, limit⟩ inList text)
      (Block.render ⟨references, larger⟩ inList text) :=
  (Render.CutOff.interiors references wider (by omega) (by simpa using capable)
    (by simpa using stronger)).1 inList text

/-- A document that is converted is converted to the same under every higher limit. -/
theorem convert_of_le (positive : 1 ≤ limit.value) (wider : limit.value ≤ larger.value)
    (capable : limit.value ≤ limit.capacity) (stronger : limit.value ≤ larger.capacity)
    (done : (convert limit document).html = .ok html) :
    convert larger document = convert limit document := by
  have cut := cutOff_render (prepare document).references positive wider capable stronger false
    (prepare document).text
  cases rendered : (prepare document).render limit with
  | mk result progress =>
    have short : convert limit document = ⟨result.map Codec.standard.decodeMarkers,
        (prepare document).references, (prepare document).duplicates, progress⟩ := by
      rw [convert, rendered]
    rw [short] at done ⊢
    cases result with
    | error error => cases done
    | ok value =>
      have long : (prepare document).render larger = (.ok value, progress) := cut.same rfl rendered
      rw [convert, long]

/-- A document that is not converted asks for the level past the limit. -/
theorem convert_eq_error (positive : 1 ≤ limit.value) (capable : limit.value ≤ limit.capacity)
    (failed : ∀ html, (convert limit document).html ≠ .ok html) :
    (convert limit document).html = .error (.pastLimit limit.bound (limit.value.toNat + 1)) := by
  have cut := cutOff_render (prepare document).references positive (Int.le_refl _) capable capable
    false (prepare document).text
  cases rendered : (prepare document).render limit with
  | mk result progress =>
    have short : (convert limit document).html = result.map Codec.standard.decodeMarkers := by
      rw [convert, rendered]
    rw [short] at failed ⊢
    cases result with
    | error error => rw [cut.refused rfl rendered, Except.map]
    | ok value => exact absurd rfl (failed _)

end Nesting

end Markdown
