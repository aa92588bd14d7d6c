import Markdown.Proofs.Glyph.Steady

set_option autoImplicit false

namespace Markdown

variable {σ slot : Type}

/-- A match among glyphs: where it starts, and what was read up to its end. -/
structure Find (σ slot : Type) where
  start : Spot σ slot
  stop : Spot σ slot

namespace Find

def glyphs (found : Find σ slot) : List (Glyph σ) :=
  found.start.between found.stop

def read (face : σ → Text) (found : Find σ slot) : Match slot :=
  ⟨found.start.cursor face, found.stop.reading face⟩

variable [DecidableEq slot]

/-- The glyphs captured under a slot, if the slot was reached. -/
def get? (found : Find σ slot) (name : slot) : Option (List (Glyph σ)) :=
  found.stop.get? name

/-- The glyphs captured under a slot, none if the slot was not reached. -/
def get (found : Find σ slot) (name : slot) : List (Glyph σ) :=
  (found.get? name).getD []

@[simp] theorem read_get? (face : σ → Text) (found : Find σ slot) (name : slot) :
    (found.read face).get? name = (found.get? name).map (spell face) :=
  found.stop.reading_get? face name

@[simp] theorem read_get (face : σ → Text) (found : Find σ slot) (name : slot) :
    (found.read face).get name = spell face (found.get name) := by
  rw [Match.get, read_get?, get]
  cases found.get? name <;> rfl

end Find

/-- A piece of glyphs that were searched: a glyph outside the matches, or a match. -/
inductive Piece (σ slot : Type) where
  | plain (g : Glyph σ)
  | found (f : Find σ slot)

namespace Piece

def glyphs : Piece σ slot → List (Glyph σ)
  | .plain g => [g]
  | .found f => f.glyphs

def find? : Piece σ slot → Option (Find σ slot)
  | .plain _ => none
  | .found f => some f

theorem mem_filterMap_find? {pieces : List (Piece σ slot)} {f : Find σ slot} :
    f ∈ pieces.filterMap find? ↔ .found f ∈ pieces := by
  constructor
  · intro member
    obtain ⟨piece, inside, same⟩ := List.mem_filterMap.1 member
    cases piece with
    | plain g => cases same
    | found other =>
      obtain rfl := Option.some.inj same
      exact inside
  · exact fun inside => List.mem_filterMap.2 ⟨_, inside, rfl⟩

/-- The pieces of a text that a piece of glyphs is on a face. -/
def read (face : σ → Text) : Piece σ slot → List (Segment slot)
  | .plain g => (g.spell face).map .plain
  | .found f => [.found (f.read face)]

/-- The piece on a face, with another text in the place of a match. -/
def replaced (face : σ → Text) (replacement : Match slot → Text) : Piece σ slot → Text
  | .plain g => g.spell face
  | .found f => replacement (f.read face)

/-- The glyphs between matches when one more piece comes first. -/
def splitOff : Piece σ slot → List (List (Glyph σ)) → List (List (Glyph σ))
  | .plain g, part :: rest => (g :: part) :: rest
  | .plain g, [] => [[g]]
  | .found _, parts => [] :: parts

/-- Pieces on a face, with the results of an action in the places of the matches. -/
def replacedM {m : Type → Type} [Monad m] (face : σ → Text) (replacement : Match slot → m Text) :
    List (Piece σ slot) → m Text
  | [] => pure []
  | .plain g :: rest => do
    let later ← replacedM face replacement rest
    pure (g.spell face ++ later)
  | .found f :: rest => do
    let here ← replacement (f.read face)
    let later ← replacedM face replacement rest
    pure (here ++ later)

end Piece

namespace Pattern

variable [DecidableEq slot]

/-- The pieces of the glyphs ahead of a spot. -/
def piecesFrom (lead : σ → Char) (pattern : Pattern slot) :
    Nat → Spot σ slot → List (Piece σ slot)
  | 0, spot => spot.ahead.map .plain
  | budget + 1, spot =>
    match spot.ahead with
    | [] => []
    | g :: rest =>
      match (pattern.spots lead spot.fresh).head? with
      | some stop => .found ⟨spot.fresh, stop⟩ :: piecesFrom lead pattern budget stop
      | none => .plain g :: piecesFrom lead pattern budget (spot.past g rest)

def pieces (lead : σ → Char) (pattern : Pattern slot) (glyphs : List (Glyph σ)) :
    List (Piece σ slot) :=
  pattern.piecesFrom lead glyphs.length (.first glyphs)

/-- A pattern whose search sees every seal as a whole. -/
structure Regular (o : Outline σ slot) (face : σ → Text) (pattern : Pattern slot) : Prop where
  filled : Filled face
  closed : pattern.Closed o face
  stuck : pattern.Stuck o face
  advances : pattern.Advances o.lead

theorem run_eq_head? (pattern : Pattern slot) (reading : Reading slot) :
    pattern.run reading some = (pattern.outcomes reading).head? := by
  rw [run_eq_findSome?]
  cases pattern.outcomes reading <;> simp

variable {o : Outline σ slot} {face : σ → Text} {pattern : Pattern slot}

/-- Without a match at a seal the search goes on behind it. -/
theorem segmentsFrom_cut (stuck : pattern.Stuck o face) {s : σ} (behind ahead : List (Glyph σ))
    {u v : Text} (written : face s = u ++ v) (begun : u ≠ []) (budget : Nat) :
    pattern.segmentsFrom (v.length + budget)
        ⟨u.length + (spellBack face behind).length, u.reverse ++ spellBack face behind,
          v ++ spell face ahead⟩ =
      v.map .plain ++ pattern.segmentsFrom budget
        ((⟨.sealed s :: behind, ahead, []⟩ : Spot σ slot).cursor face) := by
  induction v generalizing u with
  | nil =>
    rw [List.append_nil] at written
    simp [Spot.cursor, Glyph.spell, written]
  | cons c rest ih =>
    have next := ih (u := u ++ [c]) (by simp [written]) (by simp)
    have within : Inside o face ⟨⟨u.length + (spellBack face behind).length,
        u.reverse ++ spellBack face behind, c :: rest ++ spell face ahead⟩, []⟩ :=
      ⟨⟨behind, s, ahead, u, c :: rest, written, begun, by simp, rfl, rfl⟩,
        fun _ member => absurd member List.not_mem_nil⟩
    have nowhere := stuck _ within
    rw [List.length_cons, Nat.add_right_comm]
    simp only [List.cons_append] at nowhere
    simp only [segmentsFrom, List.cons_append, run_eq_head?, nowhere, List.head?_nil,
      List.map_cons]
    simpa [Cursor.past, Nat.add_right_comm _ 1] using next

/-- The budgets do not matter as long as they have room for all that is ahead: the budget of the
search counts characters, the other one glyphs. -/
theorem segmentsFrom_cursor (regular : pattern.Regular o face) (count : Nat) :
    ∀ (budget : Nat) (spot : Spot σ slot), spot.ahead.length ≤ count →
      (spell face spot.ahead).length ≤ budget →
      pattern.segmentsFrom budget (spot.cursor face) =
        (pattern.piecesFrom o.lead count spot).flatMap (Piece.read face) := by
  induction count with
  | zero =>
    intro budget spot enough room
    have ended : spot.ahead = [] := List.length_eq_zero_iff.1 (Nat.le_zero.1 enough)
    cases budget <;> simp [segmentsFrom, piecesFrom, ended]
  | succ count ih =>
    intro budget spot enough room
    obtain ⟨behind, ahead, captures⟩ := spot
    cases ahead with
    | nil => cases budget <;> simp [segmentsFrom, piecesFrom]
    | cons g rest =>
      obtain ⟨c, more, written⟩ := List.exists_cons_of_ne_nil (regular.filled.glyph_ne_nil g)
      simp only [spell_cons, written, List.cons_append, List.length_cons,
        List.length_append] at room enough
      obtain ⟨left, rfl⟩ : ∃ left, budget = left + 1 := ⟨budget - 1, by omega⟩
      have here := regular.closed.same (⟨behind, g :: rest, []⟩ : Spot σ slot)
        (Outline.Sound.fresh o ⟨behind, g :: rest, captures⟩)
      have run : pattern.run ⟨(⟨behind, g :: rest, captures⟩ : Spot σ slot).cursor face, []⟩ some =
          (pattern.spots o.lead ⟨behind, g :: rest, []⟩).head?.map (Spot.reading face) := by
        rw [run_eq_head?, ← List.head?_map, ← here]
        rfl
      rw [segmentsFrom, run]
      simp only [Spot.cursor, spell_cons, written, List.cons_append, piecesFrom, Spot.fresh]
      cases first : (pattern.spots o.lead ⟨behind, g :: rest, []⟩).head? with
      | some stop =>
        have member : stop ∈ pattern.spots o.lead ⟨behind, g :: rest, []⟩ :=
          List.mem_of_mem_head? first
        obtain ⟨passed, passes⟩ := exists_passes_of_mem_spots member
        have shorter := regular.advances _ _ member
        have ahead : g :: rest = passed ++ stop.ahead := passes.ahead
        have taken : passed ≠ [] := by
          rintro rfl
          rw [← List.nil_append stop.ahead, ← ahead] at shorter
          exact Nat.lt_irrefl _ shorter
        have filled := List.length_pos_iff.2 (mt regular.filled.spell_eq_nil.1 taken)
        have lengths := congrArg (fun glyphs => (spell face glyphs).length) ahead
        simp only [spell_cons, spell_append, written, List.cons_append, List.length_cons,
          List.length_append] at lengths shorter
        simp only [Option.map_some, List.flatMap_cons, Piece.read, List.singleton_append]
        rw [Spot.reading_cursor, ih left stop (by omega) (by omega)]
        simp [Find.read, Spot.cursor, written]
      | none =>
        simp only [Option.map_none, List.flatMap_cons, Piece.read]
        have next := ih (left - more.length) (⟨g :: behind, rest, captures⟩ : Spot σ slot)
          (Nat.le_of_succ_le_succ enough) (by change (spell face rest).length ≤ _; omega)
        rw [Spot.past, ← next, written]
        cases g with
        | char d =>
          obtain ⟨rfl, rfl⟩ : d = c ∧ [] = more := by simpa [Glyph.spell] using written
          simp [Spot.cursor, Glyph.spell, Cursor.past]
        | sealed s =>
          have cut := segmentsFrom_cut regular.stuck behind rest (u := [c]) (v := more)
            written (by simp) (left - more.length)
          rw [Nat.add_sub_cancel' (by omega)] at cut
          simpa [Spot.cursor, Cursor.past, Nat.add_comm] using cut

/-- On every face the search has the pieces that it has among the glyphs. -/
theorem segments_spell (regular : pattern.Regular o face) (glyphs : List (Glyph σ)) :
    pattern.segments (spell face glyphs) =
      (pattern.pieces o.lead glyphs).flatMap (Piece.read face) :=
  segmentsFrom_cursor regular glyphs.length _ (.first glyphs) (Nat.le_refl _) (Nat.le_refl _)

theorem replace_spell (regular : pattern.Regular o face) (replacement : Match slot → Text)
    (glyphs : List (Glyph σ)) :
    pattern.replace replacement (spell face glyphs) =
      (pattern.pieces o.lead glyphs).flatMap (Piece.replaced face replacement) := by
  rw [replace, segments_spell regular, List.flatMap_assoc]
  refine List.flatMap_congr fun piece _ => ?_
  cases piece with
  | plain g => simp [Piece.read, Piece.replaced, List.flatMap_map, Segment.replaced]
  | found f => simp [Piece.read, Piece.replaced, Segment.replaced]

theorem matches?_spell (regular : pattern.Regular o face) (glyphs : List (Glyph σ)) :
    pattern.matches? (spell face glyphs) =
      ((pattern.pieces o.lead glyphs).filterMap Piece.find?).map (Find.read face) := by
  rw [matches?, segments_spell regular]
  induction pattern.pieces o.lead glyphs with
  | nil => rfl
  | cons piece rest ih =>
    rw [List.flatMap_cons, List.filterMap_append, ih]
    cases piece with
    | plain g =>
      have none : ((g.spell face).map Segment.plain).filterMap
          (Segment.match? : Segment slot → Option (Match slot)) = [] := by
        simp [List.filterMap_map, Function.comp_def, Segment.match?]
      rw [Piece.read, none, List.nil_append]
      rfl
    | found f => simp [Piece.read, Piece.find?, Segment.match?]

theorem read_mem_matches? (regular : pattern.Regular o face) {glyphs : List (Glyph σ)}
    {f : Find σ slot} (inside : .found f ∈ pattern.pieces o.lead glyphs) :
    f.read face ∈ pattern.matches? (spell face glyphs) := by
  rw [matches?_spell regular]
  exact List.mem_map_of_mem (Piece.mem_filterMap_find?.2 inside)

theorem split_spell (regular : pattern.Regular o face) (glyphs : List (Glyph σ)) :
    pattern.split (spell face glyphs) =
      ((pattern.pieces o.lead glyphs).foldr Piece.splitOff [[]]).map (spell face) := by
  rw [split, segments_spell regular]
  induction pattern.pieces o.lead glyphs with
  | nil => rfl
  | cons piece rest ih =>
    rw [List.flatMap_cons, List.foldr_append, ih, List.foldr_cons]
    cases piece with
    | found f => rfl
    | plain g =>
      simp only [Piece.read, Piece.splitOff]
      generalize rest.foldr Piece.splitOff [[]] = parts
      have written := regular.filled.glyph_ne_nil g
      have spread : ∀ (text : Text) (parts : List (List (Glyph σ))), text ≠ [] →
          (text.map Segment.plain).foldr (Segment.splitOff : Segment slot → List Text → List Text)
              (parts.map (spell face)) =
            match parts with
            | part :: more => (text ++ spell face part) :: more.map (spell face)
            | [] => [text] := by
        intro text parts filled
        induction text with
        | nil => exact absurd rfl filled
        | cons c more ih =>
          cases more with
          | nil => cases parts <;> rfl
          | cons d more =>
            have next := ih (List.cons_ne_nil d more)
            cases parts <;>
              simp only [List.map_cons, List.foldr_cons, List.map_nil] at next ⊢ <;>
              rw [next] <;> rfl
      rw [spread _ parts written]
      cases parts <;> simp

omit [DecidableEq slot] in
/-- Characters outside the matches stay as they are. -/
theorem mapM_replacedM_plain {m : Type → Type} [Monad m] [LawfulMonad m]
    (replacement : Match slot → m Text) (text : Text) :
    (text.map Segment.plain).mapM (Segment.replacedM replacement) =
      pure (text.map fun c => [c]) := by
  induction text with
  | nil => simp
  | cons c more ih => simp [ih, Segment.replacedM]

theorem flatten_map_singleton (text : Text) : (text.map fun c => [c]).flatten = text := by
  rw [← List.flatMap_def, List.flatMap_singleton']

theorem replaceM_spell {m : Type → Type} [Monad m] [LawfulMonad m]
    (regular : pattern.Regular o face) (replacement : Match slot → m Text)
    (glyphs : List (Glyph σ)) :
    pattern.replaceM replacement (spell face glyphs) =
      Piece.replacedM face replacement (pattern.pieces o.lead glyphs) := by
  rw [replaceM, segments_spell regular]
  induction pattern.pieces o.lead glyphs with
  | nil => simp [Piece.replacedM]
  | cons piece rest ih =>
    rw [List.flatMap_cons, List.mapM_append]
    cases piece with
    | found f =>
      simp only [Piece.replacedM, ← ih]
      simp [Piece.read, Segment.replacedM]
    | plain g =>
      simp only [Piece.replacedM, ← ih]
      rw [Piece.read, mapM_replacedM_plain]
      simp [flatten_map_singleton]

/-- A match of the pattern among glyphs: the first outcome at its start. -/
structure Finds (lead : σ → Char) (pattern : Pattern slot) (glyphs : List (Glyph σ))
    (f : Find σ slot) : Prop where
  fresh : f.start.captures = []
  whole : f.start.behind.reverse ++ f.start.ahead = glyphs
  first : (pattern.spots lead f.start).head? = some f.stop

theorem Finds.mem {lead : σ → Char} {glyphs : List (Glyph σ)} {f : Find σ slot}
    (finds : pattern.Finds lead glyphs f) : f.stop ∈ pattern.spots lead f.start :=
  List.mem_of_mem_head? finds.first

theorem Finds.passes {lead : σ → Char} {glyphs : List (Glyph σ)} {f : Find σ slot}
    (finds : pattern.Finds lead glyphs f) : f.start.Passes f.glyphs f.stop := by
  obtain ⟨passed, passes⟩ := exists_passes_of_mem_spots finds.mem
  rw [Find.glyphs, passes.between_eq]
  exact passes

theorem Finds.text_read {lead : σ → Char} {glyphs : List (Glyph σ)} {f : Find σ slot}
    (finds : pattern.Finds lead glyphs f) (face : σ → Text) :
    (f.read face).text = spell face f.glyphs :=
  Spot.upTo_eq finds.passes face

theorem Finds.mem_glyphs {lead : σ → Char} {glyphs : List (Glyph σ)} {f : Find σ slot}
    (finds : pattern.Finds lead glyphs f) {g : Glyph σ} (inside : g ∈ f.glyphs) : g ∈ glyphs := by
  rw [← finds.whole, finds.passes.ahead]
  simp [inside]

/-- What a match has captured stands in what was searched. -/
theorem Finds.get?_infix {lead : σ → Char} {glyphs : List (Glyph σ)} {f : Find σ slot}
    (finds : pattern.Finds lead glyphs f) {name : slot} {caught : List (Glyph σ)}
    (here : f.get? name = some caught) : caught <:+: glyphs := by
  have inside := Spot.mem_captures_of_get? here
  rcases catches lead pattern f.start f.stop finds.mem _ inside with earlier | within
  · rw [finds.fresh] at earlier
    exact absurd earlier List.not_mem_nil
  · rw [← finds.whole]
    exact within.trans (List.suffix_append _ _).isInfix

theorem Finds.get_infix {lead : σ → Char} {glyphs : List (Glyph σ)} {f : Find σ slot}
    (finds : pattern.Finds lead glyphs f) (name : slot) : f.get name <:+: glyphs := by
  rw [Find.get]
  cases here : f.get? name with
  | none => exact List.nil_infix
  | some caught => exact finds.get?_infix here

theorem finds_of_mem_piecesFrom {lead : σ → Char} (count : Nat) {spot : Spot σ slot}
    {f : Find σ slot} (member : .found f ∈ pattern.piecesFrom lead count spot) :
    pattern.Finds lead (spot.behind.reverse ++ spot.ahead) f := by
  induction count generalizing spot with
  | zero => simp [piecesFrom] at member
  | succ count ih =>
    simp only [piecesFrom] at member
    split at member
    · simp at member
    · next g rest ahead =>
      split at member
      · next stop first =>
        rcases List.mem_cons.1 member with here | later
        · obtain rfl := Piece.found.inj here
          exact ⟨rfl, rfl, first⟩
        · obtain ⟨passed, passes⟩ := exists_passes_of_mem_spots (List.mem_of_mem_head? first)
          have whole : stop.behind.reverse ++ stop.ahead = spot.behind.reverse ++ spot.ahead := by
            have all : spot.ahead = passed ++ stop.ahead := passes.ahead
            rw [passes.behind, all]
            simp [Spot.fresh]
          rw [← whole]
          exact ih later
      · rcases List.mem_cons.1 member with here | later
        · cases here
        · have finds := ih later
          simpa [Spot.past, ahead] using finds

theorem finds_of_mem_pieces {lead : σ → Char} {glyphs : List (Glyph σ)} {f : Find σ slot}
    (member : .found f ∈ pattern.pieces lead glyphs) : pattern.Finds lead glyphs f :=
  finds_of_mem_piecesFrom _ member

/-- The matches in a text are those among its characters. -/
theorem exists_finds (regular : pattern.Regular o face) {text : Text} {found : Match slot}
    (member : .found found ∈ pattern.segments text) :
    ∃ f, pattern.Finds o.lead (Glyph.chars text) f ∧ found = f.read face := by
  have cut := segments_spell regular (Glyph.chars text)
  rw [spell_chars] at cut
  rw [cut] at member
  obtain ⟨piece, inside, here⟩ := List.mem_flatMap.1 member
  cases piece with
  | plain g =>
    obtain ⟨c, _, impossible⟩ := List.mem_map.1 here
    cases impossible
  | found f =>
    obtain rfl : found = f.read face := by simpa [Piece.read] using here
    exact ⟨f, finds_of_mem_pieces inside, rfl⟩

/-- The pieces make up the glyphs. -/
theorem flatMap_glyphs_piecesFrom (lead : σ → Char) (count : Nat) (spot : Spot σ slot) :
    (pattern.piecesFrom lead count spot).flatMap Piece.glyphs = spot.ahead := by
  induction count generalizing spot with
  | zero => simp [piecesFrom, List.flatMap_map, Piece.glyphs]
  | succ count ih =>
    simp only [piecesFrom]
    split
    · next ended => simp [ended]
    · next g rest ahead =>
      split
      · next stop first =>
        obtain ⟨passed, passes⟩ := exists_passes_of_mem_spots (List.mem_of_mem_head? first)
        rw [List.flatMap_cons, ih, Piece.glyphs, Find.glyphs, passes.between_eq]
        exact passes.ahead.symm
      · rw [List.flatMap_cons, ih]
        simp [Piece.glyphs, Spot.past, ahead]

theorem flatMap_glyphs_pieces (pattern : Pattern slot) (lead : σ → Char)
    (glyphs : List (Glyph σ)) :
    (pattern.pieces lead glyphs).flatMap Piece.glyphs = glyphs :=
  flatMap_glyphs_piecesFrom lead _ _

theorem mem_of_plain_mem_pieces {lead : σ → Char} {glyphs : List (Glyph σ)} {g : Glyph σ}
    (member : .plain g ∈ pattern.pieces lead glyphs) : g ∈ glyphs := by
  rw [← pattern.flatMap_glyphs_pieces lead glyphs]
  exact List.mem_flatMap.2 ⟨_, member, List.mem_singleton_self g⟩

end Pattern

end Markdown
