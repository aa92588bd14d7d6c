import Mathlib.Data.List.Dedup
import Markdown.Proofs.Reference.Extraction
import Markdown.Proofs.Reference.Label

set_option autoImplicit false

namespace Markdown

namespace ReferenceTable

/-- A definition as it is written: its label is not normalized yet. -/
abbrev Entry := Text × Reference

def keyOf (definition : Entry) : Text :=
  normalizeLabel definition.1

inductive Step where
  | define (label : Text) (reference : Reference)
  | extract (document : Text)

namespace Step

/-- The definitions that a step contributes, in their order. -/
def definitions : Step → List Entry
  | .define label reference => [(label, reference)]
  | .extract document => (Definition.definition.matches? document).map fun found =>
      (found.get .label, Definition.reference found)

def run (table : ReferenceTable) : Step → ReferenceTable
  | .define label reference => table.define label reference
  | .extract document => (table.extract document).table

end Step

def after (history : List Step) : ReferenceTable :=
  history.foldl Step.run empty

def defineAll (table : ReferenceTable) (definitions : List Entry) : ReferenceTable :=
  definitions.foldl (fun table definition => table.define definition.1 definition.2) table

/-- The keys of definitions that came up before, behind definitions with the given keys. -/
def repeated (known : List Text) : List Entry → List Text
  | [] => []
  | definition :: rest =>
    (if keyOf definition ∈ known then [keyOf definition] else []) ++
      repeated (keyOf definition :: known) rest

def keys (table : ReferenceTable) : List Text :=
  table.entries.map Prod.fst

variable {table : ReferenceTable} {label : Text} {reference : Reference}

theorem contains_iff : table.contains label = true ↔ normalizeLabel label ∈ table.keys := by
  simp [contains, lookup, keys, List.find?_isSome]

theorem accepts_iff : table.accepts label = true ↔ normalizeLabel label ∉ table.keys := by
  rw [accepts, Bool.not_eq_true', ← contains_iff, Bool.not_eq_true]

theorem define_of_mem (known : normalizeLabel label ∈ table.keys) :
    table.define label reference = table := by
  rw [define, if_pos (contains_iff.2 known)]

theorem define_of_not_mem (new : normalizeLabel label ∉ table.keys) :
    table.define label reference = ⟨table.entries ++ [(normalizeLabel label, reference)]⟩ := by
  rw [define, if_neg (mt contains_iff.1 new)]

theorem mem_keys_define {key : Text} :
    key ∈ (table.define label reference).keys ↔ key ∈ table.keys ∨ key = normalizeLabel label := by
  by_cases known : normalizeLabel label ∈ table.keys
  · rw [define_of_mem known]
    exact ⟨.inl, fun either => either.elim id fun same => same ▸ known⟩
  · rw [define_of_not_mem known]
    simp [keys]

/-- The first definition wins. -/
theorem lookup_define (other : Text) :
    (table.define label reference).lookup other = (table.lookup other).or
      (if normalizeLabel label = normalizeLabel other then some reference else none) := by
  by_cases known : normalizeLabel label ∈ table.keys
  · rw [define_of_mem known]
    split
    · next same =>
      rw [same] at known
      obtain ⟨found, here⟩ := Option.isSome_iff_exists.1 (contains_iff.2 known)
      rw [here, Option.some_or]
    · rw [Option.or_none]
  · rw [define_of_not_mem known, lookup, List.find?_append, Option.map_or, lookup]
    congr 1
    split <;> simp_all

/-- No key is there twice, and every key is normalized. -/
structure Tidy (table : ReferenceTable) : Prop where
  distinct : table.keys.Nodup
  normal : ∀ key ∈ table.keys, normalizeLabel key = key

namespace Tidy

theorem empty : Tidy .empty :=
  ⟨.nil, by simp [keys, ReferenceTable.empty]⟩

theorem define (tidy : table.Tidy) : (table.define label reference).Tidy := by
  by_cases known : normalizeLabel label ∈ table.keys
  · rwa [define_of_mem known]
  · refine ⟨?_, fun key member => ?_⟩
    · rw [define_of_not_mem known, keys, List.map_append]
      exact List.nodup_append_comm.1 (List.nodup_cons.2 ⟨known, tidy.distinct⟩)
    · rcases mem_keys_define.1 member with old | rfl
      · exact tidy.normal key old
      · exact normalizeLabel_normalizeLabel label

/-- A key that is looked up finds its own entry. -/
theorem lookup_key (tidy : table.Tidy) {entry : Entry} (member : entry ∈ table.entries) :
    table.lookup entry.1 = some entry.2 := by
  have inKeys : entry.1 ∈ table.keys := List.mem_map_of_mem member
  have normal := tidy.normal _ inKeys
  rw [lookup, normal]
  have present : (table.entries.find? fun other => other.1 == entry.1).isSome :=
    List.find?_isSome.2 ⟨entry, member, beq_self_eq_true entry.1⟩
  obtain ⟨found, first⟩ := Option.isSome_iff_exists.1 present
  have same : found.1 = entry.1 := by simpa using List.find?_some first
  have equal := List.inj_on_of_nodup_map tidy.distinct (List.mem_of_find?_eq_some first) member same
  rw [first, equal]
  rfl

end Tidy

theorem lookup_defineAll (definitions : List Entry) (table : ReferenceTable) (other : Text) :
    (table.defineAll definitions).lookup other = (table.lookup other).or
      ((definitions.find? fun definition => keyOf definition == normalizeLabel other).map
        Prod.snd) := by
  induction definitions generalizing table with
  | nil => rw [defineAll, List.foldl_nil, List.find?_nil, Option.map_none, Option.or_none]
  | cons definition rest ih =>
    have step := ih (table.define definition.1 definition.2)
    rw [lookup_define, Option.or_assoc] at step
    refine step.trans (congrArg _ ?_)
    by_cases same : normalizeLabel definition.1 = normalizeLabel other
    · rw [if_pos same, List.find?_cons_of_pos (by simpa [keyOf] using same)]
      rfl
    · rw [if_neg same, List.find?_cons_of_neg (by simpa [keyOf] using same), Option.none_or]

theorem mem_keys_defineAll {definitions : List Entry} {key : Text} :
    key ∈ (table.defineAll definitions).keys ↔
      key ∈ table.keys ∨ key ∈ definitions.map keyOf := by
  induction definitions generalizing table with
  | nil => simp [defineAll]
  | cons definition rest ih =>
    rw [defineAll, List.foldl_cons, ← defineAll, ih, mem_keys_define, List.map_cons, List.mem_cons,
      or_assoc]
    rfl

theorem tidy_defineAll (tidy : table.Tidy) (definitions : List Entry) :
    (table.defineAll definitions).Tidy := by
  induction definitions generalizing table with
  | nil => exact tidy
  | cons definition rest ih => exact ih tidy.define

theorem record_eq {duplicates known : List Text} (all : ∀ key, key ∈ known ↔ key ∈ table.keys) :
    Extraction.record table duplicates label reference =
      (table.define label reference,
        duplicates ++ if normalizeLabel label ∈ known then [normalizeLabel label] else []) := by
  rw [Extraction.record]
  by_cases again : normalizeLabel label ∈ table.keys
  · rw [if_pos (contains_iff.2 again), if_pos ((all _).2 again), define_of_mem again]
  · rw [if_neg (mt contains_iff.1 again), if_neg (mt (all _).1 again), List.append_nil]

/-- An extraction defines what it finds, and reports the labels that it finds again. -/
theorem foldl_recordMatch_eq (found : List (Match Definition.Part)) (duplicates known : List Text)
    (all : ∀ key, key ∈ known ↔ key ∈ table.keys) :
    let definitions := found.map fun m => (m.get .label, Definition.reference m)
    found.foldl Definition.recordMatch (table, duplicates) =
      (table.defineAll definitions, duplicates ++ repeated known definitions) := by
  induction found generalizing table duplicates known with
  | nil => simp [defineAll, repeated]
  | cons m rest ih =>
    have grown : ∀ key, key ∈ normalizeLabel (m.get .label) :: known ↔
        key ∈ (table.define (m.get .label) (Definition.reference m)).keys := fun key => by
      rw [List.mem_cons, mem_keys_define, all, or_comm]
    rw [List.foldl_cons, Definition.recordMatch, record_eq all, ih _ _ grown, List.append_assoc]
    rfl

theorem extract_eq {known : List Text} (all : ∀ key, key ∈ known ↔ key ∈ table.keys)
    (document : Text) :
    (table.extract document).table = table.defineAll (Step.extract document).definitions ∧
      (table.extract document).duplicates = repeated known (Step.extract document).definitions := by
  have whole := (Definition.cuts_extract table document).extract_eq table
  rw [foldl_recordMatch_eq _ _ known all] at whole
  rw [whole]
  exact ⟨rfl, rfl⟩

theorem defineAll_append (early late : List Entry) :
    table.defineAll (early ++ late) = (table.defineAll early).defineAll late :=
  List.foldl_append

theorem run_eq_defineAll (table : ReferenceTable) (step : Step) :
    step.run table = table.defineAll step.definitions := by
  cases step with
  | define label reference => rfl
  | extract document => exact (extract_eq (fun _ => .rfl) document).1

/-- Only the definitions count, wherever they come from. -/
theorem after_eq_defineAll (history : List Step) :
    after history = empty.defineAll (history.flatMap Step.definitions) := by
  rw [after]
  generalize empty = table
  induction history generalizing table with
  | nil => rfl
  | cons step rest ih =>
    rw [List.foldl_cons, run_eq_defineAll, ih, List.flatMap_cons, defineAll_append]

theorem mem_keys_after {history : List Step} {key : Text} :
    key ∈ (after history).keys ↔ key ∈ (history.flatMap Step.definitions).map keyOf := by
  rw [after_eq_defineAll, mem_keys_defineAll]
  simp [keys, empty]

theorem tidy_after (history : List Step) : (after history).Tidy := by
  rw [after_eq_defineAll]
  exact tidy_defineAll .empty _

/-- Which definition a label finds is told by its words. -/
theorem lookup_of_words {label other : Text} (same : Text.words label = Text.words other) :
    table.lookup label = table.lookup other := by
  rw [lookup, lookup, normalizeLabel_of_words same]

/-- After any history a label finds the first definition with its key. What is defined next is
accepted if no earlier definition has its key, and of the definitions in a document the others are
reported; there are as many entries as keys; each key finds its own entry; and how much white space
there is in a label or around it makes no difference to what it finds. -/
theorem lookup_after (history : List Step) :
    let definitions := history.flatMap Step.definitions
    let table := after history
    (∀ label, table.lookup label = (definitions.find? fun definition =>
      keyOf definition == normalizeLabel label).map Prod.snd) ∧
    (∀ label, table.accepts label = true ↔
      ∀ definition ∈ definitions, keyOf definition ≠ normalizeLabel label) ∧
    (∀ document, (table.extract document).duplicates =
      repeated (definitions.map keyOf) (Step.extract document).definitions) ∧
    table.size = (definitions.map keyOf).dedup.length ∧
    (∀ entry ∈ table.entries,
      normalizeLabel entry.1 = entry.1 ∧ table.lookup entry.1 = some entry.2) ∧
    (∀ front gap other back : Text, gap ≠ [] → (∀ c ∈ gap, Unicode.isSpace c = true) →
      other ≠ [] → (∀ c ∈ other, Unicode.isSpace c = true) →
      table.lookup (front ++ gap ++ back) = table.lookup (front ++ other ++ back)) ∧
    ∀ front label back : Text, (∀ c ∈ front, Unicode.isSpace c = true) →
      (∀ c ∈ back, Unicode.isSpace c = true) →
      table.lookup (front ++ label ++ back) = table.lookup label := by
  intro definitions table
  have tidy : table.Tidy := tidy_after history
  have keys : ∀ key, key ∈ definitions.map keyOf ↔ key ∈ table.keys := fun _ => mem_keys_after.symm
  refine ⟨fun label => ?_, fun label => ?_, fun document => (extract_eq keys document).2, ?_,
    fun entry member => ⟨tidy.normal _ (List.mem_map_of_mem member), tidy.lookup_key member⟩,
    fun front gap other back someGap blankGap someOther blankOther => lookup_of_words ?_,
    fun front label back before behind => lookup_of_words ?_⟩
  · rw [show table = empty.defineAll definitions from after_eq_defineAll history, lookup_defineAll]
    rfl
  · rw [accepts_iff, ← keys]
    simp
  · have same : table.keys.Perm (definitions.map keyOf).dedup := by
      refine (List.perm_ext_iff_of_nodup tidy.distinct (List.nodup_dedup _)).2 fun key => ?_
      rw [List.mem_dedup, keys]
    rw [size, ← same.length_eq, ReferenceTable.keys, List.length_map]
  · rw [Text.words_gap someGap blankGap, Text.words_gap someOther blankOther]
  · rw [Text.words_append_spaces behind, Text.words_spaces_append before]

/-- A label that a document defines again, and one that is defined again behind the document. -/
theorem lookup_after_again :
    let table := after [.define "A  b".toList ⟨"/1".toList, none⟩,
      .extract "[a B]: /2\n[c]: /3".toList, .define "C".toList ⟨"/4".toList, none⟩]
    table.lookup "\ta \n B ".toList = some ⟨"/1".toList, none⟩ ∧
      table.lookup "\u2003c".toList = some ⟨"/3".toList, none⟩ ∧ table.size = 2 := by
  intro table
  obtain ⟨finds, -, -, count, -, gaps, margins⟩ := lookup_after [
    .define "A  b".toList ⟨"/1".toList, none⟩, .extract "[a B]: /2\n[c]: /3".toList,
    .define "C".toList ⟨"/4".toList, none⟩]
  have trimmed := margins "\t".toList "a \n B".toList " ".toList (by decide) (by decide)
  have evened := gaps "a".toList " \n ".toList " ".toList "B".toList (by decide) (by decide)
    (by decide) (by decide)
  have alone := margins "\u2003".toList "c".toList [] (by decide) (by decide)
  refine ⟨(trimmed.trans evened).trans ((finds _).trans ?_), alone.trans ((finds _).trans ?_),
    count.trans ?_⟩
  · decide +kernel
  · decide +kernel
  · decide +kernel

end ReferenceTable

end Markdown
