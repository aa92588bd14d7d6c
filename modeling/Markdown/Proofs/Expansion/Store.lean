import Mathlib.Data.List.Dedup
import Mathlib.Data.List.Induction
import Markdown.Proofs.Expansion.Rounds

set_option autoImplicit false

namespace Markdown

namespace Fragments

section Insert

variable {fragments : Fragments} {fragment : Text}

theorem mem_values_iff (apart : fragments.NoCollision) :
    fragment ∈ fragments.entries.map Prod.snd ↔ fragment ∈ fragments.history := by
  constructor
  · intro member
    obtain ⟨entry, inside, rfl⟩ := List.mem_map.1 member
    exact (fragments.keyed entry inside).2
  · intro known
    obtain ⟨entry, first, same⟩ := Option.map_eq_some_iff.1 (get?_key apart known)
    exact List.mem_map.2 ⟨entry, List.mem_of_find?_eq_some first, same⟩

theorem contains_key_of_mem (known : fragment ∈ fragments.history) :
    fragments.contains (key fragment) = true :=
  contains_iff.2 (fragments.held fragment known)

variable (apart : Collisionless (fragment :: fragments.history))

include apart

theorem value_of_named {entry : Text × Text} (inside : entry ∈ fragments.entries)
    (named : entry.1 = key fragment) : entry.2 = fragment := by
  obtain ⟨keyed, kept⟩ := fragments.keyed entry inside
  exact apart _ (List.mem_cons_of_mem _ kept) _ List.mem_cons_self
    (key_inj.1 (keyed.symm.trans named))

theorem contains_key_iff :
    fragments.contains (key fragment) = true ↔ fragment ∈ fragments.history := by
  refine ⟨fun present => ?_, contains_key_of_mem⟩
  obtain ⟨entry, inside, named⟩ := contains_iff.1 present
  rw [← value_of_named apart inside named]
  exact (fragments.keyed entry inside).2

/-- To put a fragment aside again changes no entry. -/
theorem entries_insert_of_mem (known : fragment ∈ fragments.history) :
    (fragments.insert fragment).entries = fragments.entries := by
  change fragments.updated fragment = fragments.entries
  rw [updated, if_pos (contains_key_of_mem known)]
  refine (List.map_congr_left fun entry inside => ?_).trans (List.map_id _)
  split
  · next named =>
    rw [← value_of_named apart inside (beq_iff_eq.1 named)]
    rfl
  · rfl

theorem entries_insert_of_not_mem (new : fragment ∉ fragments.history) :
    (fragments.insert fragment).entries = fragments.entries ++ [(key fragment, fragment)] := by
  change fragments.updated fragment = _
  rw [updated, if_neg (mt (contains_key_iff apart).1 new)]

theorem nodup_values_insert (distinct : (fragments.entries.map Prod.snd).Nodup) :
    ((fragments.insert fragment).entries.map Prod.snd).Nodup := by
  by_cases known : fragment ∈ fragments.history
  · rwa [entries_insert_of_mem apart known]
  · have new := mt (mem_values_iff (apart.mono (List.subset_cons_self _ _))).1 known
    rw [entries_insert_of_not_mem apart known, List.map_append]
    exact List.nodup_append_comm.1 (List.nodup_cons.2 ⟨new, distinct⟩)

theorem Ordered.insert (ordered : fragments.Ordered)
    (names : Whole (fun inner => inner ∈ fragments.entries.map Prod.fst) fragment) :
    (fragments.insert fragment).Ordered := by
  by_cases known : fragment ∈ fragments.history
  · intro wanted value
    simpa only [get?, rank, entries_insert_of_mem apart known] using ordered wanted value
  · have added := entries_insert_of_not_mem apart known
    have place : ∀ inner ∈ fragments.entries.map Prod.fst,
        (fragments.insert fragment).rank inner = fragments.rank inner := fun inner member => by
      rw [rank, added, List.map_append, List.idxOf_append_of_mem member, rank]
    intro wanted value found
    rw [get?, added, List.find?_append, Option.map_or] at found
    rcases Option.or_eq_some_iff.1 found with old | ⟨-, new⟩
    · have before := mem_keys_of_get? old
      refine (ordered wanted value old).mono fun inner smaller => ?_
      have inside : inner ∈ fragments.entries.map Prod.fst :=
        List.idxOf_lt_length_iff.1 (Nat.lt_trans smaller (List.idxOf_lt_length_iff.2 before))
      rwa [place inner inside, place wanted before]
    · obtain ⟨entry, first, rfl⟩ := Option.map_eq_some_iff.1 new
      obtain rfl := List.mem_singleton.1 (List.mem_of_find?_eq_some first)
      obtain rfl : key fragment = wanted := by simpa using List.find?_some first
      have absent : key fragment ∉ fragments.entries.map Prod.fst := fun member => by
        obtain ⟨old, inside, named⟩ := List.mem_map.1 member
        exact known ((contains_key_iff apart).1 (contains_iff.2 ⟨old, inside, named⟩))
      refine names.mono fun inner member => ?_
      rw [place inner member, rank, rank, added, List.map_append,
        List.idxOf_append_of_notMem absent]
      exact Nat.lt_of_lt_of_le (List.idxOf_lt_length_of_mem member) (Nat.le_add_right _ _)

end Insert

/-- A call that puts a fragment aside. -/
inductive Call where
  | add (fragment : Text)
  | wrap (fragment : Text)

namespace Call

def fragment : Call → Text
  | .add fragment => fragment
  | .wrap fragment => fragment

def returned : Call → Text
  | .add fragment => key fragment
  | .wrap fragment => keyBlock fragment

end Call

def after (calls : List Call) : Fragments :=
  calls.foldl (fun fragments call => fragments.insert call.fragment) empty

/-- Markers stand in the fragment of a call only in whole tokens and in whole keys of fragments
that calls before it put aside. -/
def Grounded (calls : List Call) : Prop :=
  ∀ early call late, calls = early ++ call :: late →
    Whole (fun named => ∃ before ∈ early, named = key before.fragment) call.fragment

variable {calls : List Call} {fragment : Text}

theorem after_concat (calls : List Call) (call : Call) :
    after (calls ++ [call]) = (after calls).insert call.fragment := by
  rw [after, List.foldl_append]
  rfl

theorem history_after (calls : List Call) :
    (after calls).history = (calls.map Call.fragment).reverse := by
  induction calls using List.reverseRecOn with
  | nil => rfl
  | append_singleton calls call ih =>
    rw [after_concat, List.map_append, List.reverse_append, ← ih]
    rfl

theorem mem_history_after :
    fragment ∈ (after calls).history ↔ fragment ∈ calls.map Call.fragment := by
  rw [history_after, List.mem_reverse]

theorem noCollision_after (apart : Collisionless (calls.map Call.fragment)) :
    (after calls).NoCollision :=
  apart.mono fun _ => mem_history_after.1

theorem collisionless_insert {call : Call}
    (apart : Collisionless ((calls ++ [call]).map Call.fragment)) :
    Collisionless (call.fragment :: (after calls).history) := by
  refine apart.mono fun fragment member => ?_
  rw [List.map_append, List.mem_append, ← mem_history_after]
  exact (List.mem_cons.1 member).symm.imp_right (by simp [·])

theorem collisionless_of_concat {call : Call}
    (apart : Collisionless ((calls ++ [call]).map Call.fragment)) :
    Collisionless (calls.map Call.fragment) :=
  apart.mono (List.map_subset _ (List.subset_append_left _ _))

theorem nodup_values_after (apart : Collisionless (calls.map Call.fragment)) :
    ((after calls).entries.map Prod.snd).Nodup := by
  induction calls using List.reverseRecOn with
  | nil => exact .nil
  | append_singleton calls call ih =>
    rw [after_concat]
    exact nodup_values_insert (collisionless_insert apart) (ih (collisionless_of_concat apart))

/-- There is one entry for each fragment. -/
theorem size_after (apart : Collisionless (calls.map Call.fragment)) :
    (after calls).size = (calls.map Call.fragment).dedup.length := by
  have same : ((after calls).entries.map Prod.snd).Perm (calls.map Call.fragment).dedup := by
    refine (List.perm_ext_iff_of_nodup (nodup_values_after apart) (List.nodup_dedup _)).2 ?_
    intro fragment
    rw [mem_values_iff (noCollision_after apart), mem_history_after, List.mem_dedup]
  rw [size, ← same.length_eq, List.length_map]

theorem ordered_after (apart : Collisionless (calls.map Call.fragment))
    (grounded : Grounded calls) : (after calls).Ordered := by
  induction calls using List.reverseRecOn with
  | nil => exact fun key fragment found => nomatch found
  | append_singleton calls call ih =>
    have earlier : Grounded calls := fun early before late split =>
      grounded early before (late ++ [call]) (by rw [split, List.append_assoc, List.cons_append])
    rw [after_concat]
    have before := ih (collisionless_of_concat apart) earlier
    refine before.insert (collisionless_insert apart) ?_
    refine (grounded calls call [] rfl).mono fun named ⟨before, inside, same⟩ => ?_
    obtain ⟨entry, member, keyed⟩ := contains_iff.1 (contains_key_of_mem
      (mem_history_after.2 (List.mem_map_of_mem inside)))
    exact List.mem_map.2 ⟨entry, member, keyed.trans same.symm⟩

/-- Each key that a call gave back stands for its fragment ever after, there are as many entries as
fragments, and in a text in which markers stand only in whole tokens and keys, expansion replaces
every known key by its fragment, itself expanded, and changes nothing else. So no known key is left,
nothing is left to expand, and texts can be expanded one by one. -/
theorem expand_after (calls : List Call) (apart : Collisionless (calls.map Call.fragment))
    (grounded : Grounded calls) :
    (∀ early, early <+: calls → ∀ call ∈ early, key call.fragment <:+: call.returned ∧
      (after early).get? (key call.fragment) = some call.fragment) ∧
    (after calls).size = (calls.map Call.fragment).dedup.length ∧
    ∀ text, Whole (fun _ => True) text →
      (∃ rounds, (after calls).expandOnce^[rounds] text = (after calls).expand text) ∧
      (after calls).expandOnce ((after calls).expand text) = (after calls).expand text ∧
      (∀ result, (after calls).Expands text result ↔ result = (after calls).expand text) ∧
      (∀ known, (after calls).contains known = true → ¬ known <:+: (after calls).expand text) ∧
      (after calls).expand ((after calls).expand text) = (after calls).expand text ∧
      ∀ other, Whole (fun _ => True) other →
        (after calls).expand (text ++ other) =
          (after calls).expand text ++ (after calls).expand other := by
  have ordered := ordered_after apart grounded
  refine ⟨fun early before call member => ⟨?_, ?_⟩, size_after apart, fun text whole => ?_⟩
  · cases call with
    | add fragment => exact List.infix_refl _
    | wrap fragment => exact ⟨_, _, rfl⟩
  · have prior := apart.mono (List.map_subset Call.fragment before.subset)
    exact get?_key (noCollision_after prior) (mem_history_after.2 (List.mem_map_of_mem member))
  · exact ⟨⟨_, (ordered.expand_eq_iterate whole).symm⟩, ordered.expandOnce_expand whole,
      fun result => ordered.expands_iff whole, fun known => ordered.not_infix_expand whole,
      ordered.expand_expand whole, fun other also => ordered.expand_append whole also⟩

/-- A fragment in another, a key that nobody knows and a token, expanded. -/
theorem expand_after_nested :
    let inner := "<b>x</b>".toList
    let outer := "<p>".toList ++ key inner ++ "</p>".toList
    let calls : List Call := [.add inner, .wrap outer]
    let tail := key "y".toList ++ Escape.token '*'
    Collisionless (calls.map Call.fragment) ∧ Grounded calls ∧
      Whole (fun _ => True) (keyBlock outer ++ tail) ∧
      (after calls).expand (keyBlock outer ++ tail) =
        "\n\n<p><b>x</b></p>\n\n".toList ++ tail := by
  intro inner outer calls tail
  have apart : Collisionless (calls.map Call.fragment) := by decide +kernel
  have plain : ∀ {kind : Text → Prop} {text : Text}, (text.all fun c => !Escape.isMarker c) = true →
      Whole kind text := fun free => .of_plain (by simpa using free)
  have grounded : Grounded calls := by
    rintro (_ | ⟨first, _ | ⟨second, _ | ⟨_, _⟩⟩⟩) call late split
    · obtain ⟨rfl, -⟩ := List.cons.inj split
      exact plain (by decide)
    · obtain ⟨rfl, rest⟩ := List.cons.inj split
      obtain ⟨rfl, -⟩ := List.cons.inj rest
      have known : ∃ before ∈ [Call.add inner], key inner = key before.fragment :=
        ⟨_, List.mem_cons_self, rfl⟩
      exact ((plain (by decide)).append (.of_stamp (isStamp_key _) known)).append
        (plain (by decide))
    · simp [calls] at split
    · simp [calls] at split
  have whole : Whole (fun _ => True) (keyBlock outer ++ tail) :=
    (((plain (by decide)).append (.of_stamp (isStamp_key _) trivial)).append
      (plain (by decide))).append (.key (isStamp_key _) trivial (.token (isStamp_token _) .nil))
  obtain ⟨kept, -, all⟩ := expand_after calls apart grounded
  have inside : (after calls).get? (key inner) = some inner :=
    (kept calls (List.prefix_refl _) (.add inner) List.mem_cons_self).2
  have outside : (after calls).get? (key outer) = some outer :=
    (kept calls (List.prefix_refl _) (.wrap outer) (by simp [calls])).2
  have absent : (after calls).get? (key "y".toList) = none := by decide +kernel
  have front : ∀ text {rest result}, (text.all fun c => !Escape.isMarker c) = true →
      (after calls).Expands rest result → (after calls).Expands (text ++ rest) (text ++ result) :=
    fun _ _ _ free => .plain_append (by simpa using free)
  have bare : (after calls).Expands inner inner := by
    simpa using front inner (by decide) .nil
  have boxed : (after calls).Expands outer "<p><b>x</b></p>".toList := by
    have close := front "</p>".toList (by decide) .nil
    simpa [outer, inner] using front "<p>".toList (by decide)
      (.known (isStamp_key _) inside bare close)
  have rest : (after calls).Expands tail tail := by
    simpa [tail] using Expands.unknown (isStamp_key _) absent (.token (isStamp_token '*') .nil)
  have result := front "\n\n".toList (by decide)
    (.known (isStamp_key _) outside boxed (front "\n\n".toList (by decide) rest))
  refine ⟨apart, grounded, whole, ?_⟩
  obtain ⟨-, -, substitutes, -⟩ := all _ whole
  refine ((substitutes _).1 ?_).symm
  simpa [keyBlock] using result

end Fragments

end Markdown
