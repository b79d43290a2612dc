import EditorConfig.Regex.Basic
import Mathlib.Computability.Language

/-! The search of an expression, as a list of all ways in their order, and the language that an
expression stands for. Main statement: a text matches exactly if it is a word of the language. -/
namespace EditorConfig

def CharSet.words (set : CharSet) : Language Char := fun text => ∃ c, text = [c] ∧ set.has c

theorem CharSet.mem_words {set : CharSet} {text : Text} :
    text ∈ set.words ↔ ∃ c, text = [c] ∧ set.has c := Iff.rfl

namespace Regex
variable {α : Type}

def rests (set : CharSet) : Text → List Text
  | [] => [[]]
  | c :: rest => if set.has c then rests set rest ++ [c :: rest] else [c :: rest]

def ways : Regex → Text → Captures → List (Text × Captures)
  | .empty, text, caps => [(text, caps)]
  | .one _, [], _ => []
  | .one set, c :: rest, caps => if set.has c then [(rest, caps)] else []
  | .many set, text, caps => (rests set text).map (·, caps)
  | .seq a b, text, caps => (a.ways text caps).flatMap fun way => b.ways way.1 way.2
  | .either a b, text, caps => a.ways text caps ++ b.ways text caps
  | .group index body, text, caps =>
    (body.ways text caps).map fun way =>
      (way.1, way.2.set index (some (text.take (text.length - way.1.length))))

theorem searchMany_eq (set : CharSet) (next : Text → Option α) (text : Text) :
    searchMany set next text = (rests set text).findSome? next := by
  induction text with
  | nil => simp [searchMany, rests]
  | cons c rest ih =>
    rw [searchMany, rests]
    split
    · rw [List.findSome?_append, ih, List.findSome?_singleton, Option.orElse_eq_orElse,
        Option.orElse_eq_or]
    · rw [List.findSome?_singleton]

theorem findSome?_flatMap {β γ : Type} (ways : List β) (more : β → List γ)
    (next : γ → Option α) :
    (ways.flatMap more).findSome? next = ways.findSome? fun way => (more way).findSome? next := by
  induction ways with
  | nil => rfl
  | cons way ways ih =>
    rw [List.flatMap_cons, List.findSome?_append, ih, List.findSome?_cons]
    cases (more way).findSome? next <;> rfl

/-- The search goes on with the first way that leads to an end. -/
theorem search_eq (r : Regex) (text : Text) (caps : Captures)
    (next : Text → Captures → Option α) :
    r.search text caps next = (r.ways text caps).findSome? fun way => next way.1 way.2 := by
  induction r generalizing text caps next with
  | empty => simp [search, ways]
  | one set =>
    cases text with
    | nil => rfl
    | cons c rest =>
      rw [search, ways]
      split <;> simp
  | many set =>
    rw [search, ways, searchMany_eq, List.findSome?_map]
    rfl
  | seq a b iha ihb => simp only [search, ways, iha, ihb, findSome?_flatMap]
  | either a b iha ihb =>
    rw [search, ways, iha, ihb, List.findSome?_append, Option.orElse_eq_orElse, Option.orElse_eq_or]
  | group index body ih =>
    rw [search, ways, ih, List.findSome?_map]
    rfl

def language : Regex → Language Char
  | .empty => 1
  | .one set => set.words
  | .many set => fun text => ∀ c ∈ text, set.has c
  | .seq a b => a.language * b.language
  | .either a b => a.language + b.language
  | .group _ body => body.language

theorem mem_language_many {set : CharSet} {text : Text} :
    text ∈ (many set).language ↔ ∀ c ∈ text, set.has c := Iff.rfl

theorem mem_rests {set : CharSet} {text rest : Text} :
    rest ∈ rests set text ↔ ∃ taken ∈ (many set).language, taken ++ rest = text := by
  induction text with
  | nil =>
    simp only [rests, List.mem_singleton, mem_language_many, List.append_eq_nil_iff]
    constructor
    · rintro rfl
      exact ⟨[], by simp, rfl, rfl⟩
    · rintro ⟨taken, -, -, h⟩
      exact h
  | cons c text ih =>
    rw [rests]
    constructor
    · intro h
      split at h
      · next hc =>
        rcases List.mem_append.1 h with h | h
        · obtain ⟨taken, ht, rfl⟩ := ih.1 h
          refine ⟨c :: taken, ?_, rfl⟩
          rintro d (_ | ⟨_, hd⟩)
          exacts [hc, ht d hd]
        · exact ⟨[], by simp [mem_language_many], (List.mem_singleton.1 h).symm ▸ rfl⟩
      · exact ⟨[], by simp [mem_language_many], (List.mem_singleton.1 h).symm ▸ rfl⟩
    · rintro ⟨taken, ht, he⟩
      cases taken with
      | nil => split <;> simp_all
      | cons d taken =>
        rw [List.cons_append, List.cons.injEq] at he
        obtain ⟨rfl, rfl⟩ := he
        rw [if_pos (ht d List.mem_cons_self)]
        exact List.mem_append_left _
          (ih.2 ⟨taken, fun e he => ht e (List.mem_cons_of_mem d he), rfl⟩)

/-- A way takes a word, and every word at the start of the text is taken in some way. -/
theorem exists_mem_ways {r : Regex} {text rest : Text} {caps : Captures} :
    (∃ caps', (rest, caps') ∈ r.ways text caps) ↔ ∃ taken ∈ r.language, taken ++ rest = text := by
  induction r generalizing text rest caps with
  | empty => simp [ways, language, Language.mem_one, eq_comm]
  | one set =>
    cases text with
    | nil => simp [ways, language, CharSet.mem_words]
    | cons c text =>
      rw [ways, language]
      constructor
      · rintro ⟨caps', h⟩
        split at h
        · next hc =>
          obtain ⟨rfl, -⟩ := Prod.mk.inj (List.mem_singleton.1 h)
          exact ⟨[c], ⟨c, rfl, hc⟩, rfl⟩
        · simp at h
      · rintro ⟨taken, ⟨d, rfl, hd⟩, he⟩
        obtain ⟨rfl, rfl⟩ := List.cons.inj he
        exact ⟨caps, by simp [hd]⟩
  | many set => simp [ways, mem_rests]
  | seq a b iha ihb =>
    simp only [ways, language, List.mem_flatMap, Prod.exists, Language.mem_mul]
    constructor
    · rintro ⟨caps', mid, caps₁, ha, hb⟩
      obtain ⟨u, hu, rfl⟩ := iha.1 ⟨caps₁, ha⟩
      obtain ⟨v, hv, rfl⟩ := ihb.1 ⟨caps', hb⟩
      exact ⟨u ++ v, ⟨u, hu, v, hv, rfl⟩, List.append_assoc u v rest⟩
    · rintro ⟨_, ⟨u, hu, v, hv, rfl⟩, rfl⟩
      obtain ⟨caps₁, ha⟩ := iha.2 ⟨u, hu, (List.append_assoc u v rest).symm⟩
      obtain ⟨caps', hb⟩ := ihb.2 ⟨v, hv, rfl⟩
      exact ⟨caps', v ++ rest, caps₁, ha, hb⟩
  | either a b iha ihb =>
    simp only [ways, language, List.mem_append, exists_or, iha, ihb, Language.mem_add, or_and_right]
  | group index body ih =>
    rw [language, ← @ih _ _ caps]
    simp only [ways, List.mem_map, Prod.exists, Prod.mk.injEq]
    constructor
    · rintro ⟨_, _, caps', h, rfl, -⟩
      exact ⟨caps', h⟩
    · rintro ⟨caps', h⟩
      exact ⟨_, rest, caps', h, rfl, rfl⟩

theorem fullMatch?_isSome {r : Regex} {text : Text} :
    (r.fullMatch? text).isSome ↔ text ∈ r.language := by
  rw [fullMatch?, search_eq, List.findSome?_isSome_iff]
  constructor
  · rintro ⟨⟨rest, caps⟩, hw, hs⟩
    have hr : rest = [] := by
      cases rest with
      | nil => rfl
      | cons c rest => simp at hs
    subst hr
    obtain ⟨taken, ht, rfl⟩ := exists_mem_ways.1 ⟨caps, hw⟩
    rwa [List.append_nil]
  · intro h
    obtain ⟨caps, hw⟩ := exists_mem_ways.2 ⟨text, h, List.append_nil text⟩
    exact ⟨_, hw, rfl⟩

end Regex
end EditorConfig
